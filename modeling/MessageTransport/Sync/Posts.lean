import MessageTransport.Sharedmem.Messages
import MessageTransport.Sync.Growth
import MessageTransport.Sync.Views

/-!
# A message stays until somebody touches its slot

`Freshness` says of whole operations that a read delivers the last message. Here the calls overlap:
between the write of one party and the read of another, all others go through the steps of calls of
their own, on this slot and on others. What a write has left in its slot is found by every reader
until another step writes the slot, records another size for it or replaces its block
(`Party.Disturbs`): `read_written`.

The reader may hold a handle from before the block was made, and reads whatever type it likes; what
it needs is that its type reads back what the writer's type writes (`Readable`).
-/

namespace MessageTransport

open Bytes MessageTransport.Stream

namespace Sync

/-! ### Messages that can be read back -/

/-- Written into a block with `n` bytes recorded, the message is read back by `r` as `v`. -/
def Readable {α : Type} (msg : Message) (r : StreamM α) (v : α) (n : ℕ) : Prop :=
  ∀ old : List UInt8, n ≤ old.length → ∃ out, msg.write.run (open_ old n) = .ok () out ∧
    out.mem.length = old.length ∧ ∃ inp, r.run (open_ out.mem n) = .ok v inp

theorem room_open {old : List UInt8} {k n : ℕ} (hk : k ≤ n) (hn : n ≤ old.length) :
    (open_ old n).Room k :=
  ⟨by simpa [open_] using hk, hn⟩

/-- What was put at the beginning of a block lies ahead of who opens it. -/
theorem ahead_put {old bs : List UInt8} {n : ℕ} (hk : bs.length ≤ n) (hn : n ≤ old.length) :
    (open_ ((open_ old n).put bs).mem n).Ahead bs := by
  refine ⟨room_open hk ?_, ?_⟩
  · show n ≤ (overwrite old 0 bs).length
    rwa [length_overwrite (by omega)]
  · show bs <+: (overwrite old 0 bs).drop 0
    rw [overwrite_zero, List.drop_zero]
    exact List.prefix_append ..

/-- A raw message of exactly the recorded size is read back, into any other one. -/
theorem readable_raw (msg old : RawMessage) :
    Readable msg.toMessage (old.read true) msg msg.encode.length := by
  intro block hn
  refine ⟨_, msg.write_eq (room_open le_rfl hn), length_overwrite ?_, _,
    msg.read_eq old (ahead_put le_rfl hn) ?_⟩
  · simpa [open_] using hn
  · simp [open_]

/-- A value of a serializable type is read back where it has room. -/
theorem readable_value (t : Ty) (v old : t.Val) {msg : Message} (hmsg : msg.write = t.write v)
    {n : ℕ} (hlt : (t.encode v).length < 2 ^ 32) (hroom : (t.encode v).length ≤ n) :
    Readable msg (t.read old) v n := by
  intro block hn
  rw [hmsg]
  refine ⟨_, t.write_eq v _ hlt (room_open hroom hn), length_overwrite ?_, _,
    t.read_eq v old _ hlt (ahead_put hroom hn)⟩
  simp only [open_]
  omega

/-! ### What disturbs a slot -/

/-- The message that the party is about to write, and the slot. -/
def Party.toWrite (x : Party) : Option (Slot × Message) :=
  match x.status, x.prog with
  | .ready, .write i msg :: _ => some (i, msg)
  | _, _ => none

theorem Party.of_toWrite {x : Party} {i : Slot} {msg : Message} (h : x.toWrite = some (i, msg)) :
    x.status = .ready ∧ ∃ k, x.prog = .write i msg :: k := by
  unfold toWrite at h
  split at h
  · rename_i j msg' k hx hp
    cases h
    exact ⟨hx, k, hp⟩
  · cases h

/-- The next step of the party is a write of slot `i`, or it records another size for the slot or
replaces its block. -/
def Party.Disturbs (x : Party) (s : Shm) (i : Slot) : Prop :=
  match x.status, x.prog with
  | .ready, .write j _ :: _ => j = i
  | .ready, .ifLarger j size _ :: _ => j = i ∧ size.toNat ≠ (s.descriptors i).size_
  | .ready, .body (.allocateBlock name size _) :: _ =>
    name.key = s.key i ∧ size.toNat ≠ (s.descriptors i).size_
  | .ready, .body (.grow j _ _) :: _ => j = i
  | _, _ => False

instance (x : Party) (s : Shm) (i : Slot) : Decidable (x.Disturbs s i) := by
  unfold Party.Disturbs
  split <;> infer_instance

section Disturbs

variable {x : Party} {s t : Shm} {a : Act} {g : ShmHandle} {i j : Slot}

theorem view_of_frame (hf : Shm.Frame s t j) (hi : s.active i) (hij : i ≠ j) :
    t.view i = s.view i :=
  view_congr (by rw [hf.descriptors i hij]) (fun _ => hf.named _ (.inr ⟨i, hij, hi, rfl⟩))
    (fun _ => hf.lookup (.inr ⟨i, hij, hi, rfl⟩))

/-- To record the size that is there changes nothing. -/
theorem resize_size : s.resize i (s.descriptors i).size_ = s := by
  have hself : Function.update s.descriptors i (s.descriptors i) = s.descriptors :=
    Function.update_eq_self ..
  simp only [Shm.resize, Shm.setDescriptor, hself]

theorem view_resize_of (size : ℕ) (h : i = j → size = (s.descriptors i).size_) :
    (s.resize j size).view i = s.view i := by
  by_cases hij : i = j
  · subst hij
    rw [h rfl, resize_size]
  · exact view_resize hij size

/-- **One step.** Whoever does not disturb slot `i` and resets nothing leaves it as it is. -/
theorem Change.view (hc : Change x s a t g) (hok : x.Ok) (hs : s.Good)
    (haim : ∀ j, Aimed s j x.handle) (hask : x.Asks Body.Ordinary)
    (hstay : ∀ j, s.active j → t.active j) (hi : s.active i) (hd : a = .go → ¬ x.Disturbs s i) :
    t.view i = s.view i := by
  cases hc with
  | none => rfl
  | addClients m d => exact view_addClients m d
  | resize hx hp hfit =>
    refine view_resize_of _ fun hij => ?_
    simp only [Party.Disturbs, hx, hp, forall_const, not_and, not_not] at hd
    exact hd hij.symm
  | fill hx hp data =>
    rename_i j msg k
    have hwf := hok.ready hx
    rw [hp] at hwf
    simp only [Party.Disturbs, hx, hp, forall_const] at hd
    refine view_fill data fun hact b hb hn => ?_
    -- the pointer that is written through leads to the block of slot `j` or to none
    obtain ⟨hactj, hown⟩ := (haim j).kept hs.wf (kept_refresh hwf.1.2) id
      (by rw [Shm.refresh_slot, hwf.1.2])
    exact hd (hs.distinct i j hact hactj ((hown b hb).2 _ hn)).symm
  | look => rfl
  | body hb =>
    rename_i b
    obtain ⟨hx, k, hp⟩ := Party.of_toDo hb
    have hwf := hok.ready hx
    rw [hp] at hwf
    have hord : b.Ordinary := hask b (hp ▸ List.mem_cons_self)
    have hslot : ∀ j, b.slot = some j → s.active j := fun j hj => (haim j (hwf.1.2.2 j hj)).1
    cases b with
    | findHandle name => rfl
    | allocateBlock name size alloc =>
      obtain ⟨hplain, rfl⟩ := hord
      simp only [Party.Disturbs, hx, hp, forall_const, not_and, not_not] at hd
      rcases hs.allocateBlock_cases hplain.key_ne size.toNat with
        ⟨j, ho, hfit, heq⟩ | ⟨j, ho, hlt, heq⟩ | ⟨j, hn, hf, heq⟩ | ⟨-, -, heq⟩
      · simp only [Body.run, heq]
        exact view_resize_of _ fun hij => hd (hij ▸ ho.2.symm)
      · simp only [Body.run, heq]
        refine view_of_frame (hs.frame_renew ho.1) hi ?_
        rintro rfl
        -- the size that is recorded fits the block, and this one does not
        have hle := (hs.slotOk i).size_le
        rw [← hd ho.2.symm] at hle
        omega
      · simp only [Body.run, heq]
        have hframe : Shm.Frame s (s.occupy j name size.toNat) j :=
          hs.frame_occupy hplain.key_ne (Shm.slotOf_none.1 hn)
        exact view_of_frame hframe hi fun hij => Shm.freeSlot_some hf (hij ▸ hi)
      · simp only [Body.run, heq]
    | relookup j => rfl
    | grow j size alloc =>
      simp only [Party.Disturbs, hx, hp, forall_const] at hd
      obtain ⟨rfl, heq⟩ := grow_of_stay (hstay j (hslot j rfl))
      simp only [Body.run, heq]
      exact view_of_frame (hs.frame_renew (hslot j rfl)) hi (Ne.symm hd)
    | resetBlock j =>
      simp only [Body.run, resetBlock_of_stay (hstay j (hslot j rfl))]
    | resetAllBlocks =>
      simp only [Body.run] at hstay
      exact absurd (hstay i hi) (Shm.not_active_resetAllBlocks s i)

end Disturbs

/-! ### What a slot shows -/

/-- Slot `i` is in use, with `n` bytes recorded and with the block `data`. -/
def Shown (s : Shm) (i : Slot) (data : List UInt8) (n : ℕ) : Prop :=
  s.active i ∧ (s.descriptors i).size_ = n ∧ s.segment.lookup (s.key i) = some (.bytes data)

section Shown

variable {s t : Shm} {h : ShmHandle} {i : Slot} {data : List UInt8} {n : ℕ}

theorem Shown.congr (hs : Shown s i data n) (hv : t.view i = s.view i) : Shown t i data n := by
  obtain ⟨hact, hsize, hl⟩ := hs
  obtain ⟨hact', hkey, -, hl'⟩ := view_block hv hact
  refine ⟨hact', ?_, ?_⟩
  · have hd : (t.descriptors i).seen = (s.descriptors i).seen := congrArg Prod.fst hv
    rw [← hsize]
    show (t.descriptors i).seen.size_ = (s.descriptors i).seen.size_
    rw [hd]
  · rw [hkey, hl', hl]

/-- A complete write through a handle that leads to the slot's block. -/
theorem shown_serialize (hs : s.Good) (hi : s.active i)
    (hp : (s.refresh i h).ptr = s.segment.named (s.key i)) {msg : Message}
    (hw : ∀ old : List UInt8, (s.descriptors i).size_ ≤ old.length →
      ∃ out, msg.write.run (open_ old (s.descriptors i).size_) = .ok () out ∧
        out.mem.length = old.length) :
    ∃ old out, msg.write.run (open_ old (s.descriptors i).size_) = .ok () out ∧
      (s.descriptors i).size_ ≤ old.length ∧
      Shown (s.serialize i h msg.write).2.1 i out.mem (s.descriptors i).size_ := by
  obtain ⟨old, hl, hlen, hle⟩ := hs.block i hi
  obtain ⟨out, hrun, hout⟩ := hw old (hle.trans_eq hlen.symm)
  refine ⟨old, out, hrun, hle.trans_eq hlen.symm, ?_⟩
  have heq : (s.serialize i h msg.write).2.1
      = { s with segment := s.segment.setBytes (s.segment.named (s.key i)) out.mem } := by
    simp only [Shm.serialize, hp, Segment.bytesAt_named hl, hrun]
  rw [heq]
  exact ⟨hi, rfl, Segment.lookup_setBytes hl hout⟩

/-- A read through a handle that leads to the slot's block. -/
theorem Shown.deserialize (hs : Shown s i data n)
    (hp : (s.refresh i h).ptr = s.segment.named (s.key i)) {α : Type} {r : StreamM α} {v : α}
    {inp : Stream} (hr : r.run (open_ data n) = .ok v inp) : (s.deserialize i h r).1 = .ok v := by
  simp only [Shm.deserialize, hp, Segment.bytesAt_named hs.2.2, hs.2.1, hr]

end Shown

/-! ### The machine -/

/-- A step leaves the handle as it is, or it leaves a fresh one. -/
theorem SlotStep.handle {x : Party} {s t : Shm} {a : Act} {g : ShmHandle}
    (h : SlotStep x s a t g) : g = x.handle ∨ Fresh t g := by
  cases h with
  | still ht hg => exact hg
  | occupied hb hj hg | renewed hb hj hlt hg | grown hb hj hpos hg => exact .inr hg

namespace Machine

variable {ι : Type*}

/-- A handle to a slot is valid. -/
def Led (c : Machine ι) : Prop :=
  ∀ p i, (c.party p).handle.slot = some i → (c.party p).handle.is_valid = true

/-- What holds in every state of a run without resets in which every replaced block is larger. -/
structure Attended (c : Machine ι) : Prop extends Settled c where
  tracking : c.Tracking
  led : c.Led

theorem attended_init (size : ℕ) : (init size : Machine ι).Attended where
  toSettled := settled_init size
  tracking := tracking_init size
  led p i hi := by cases hi

variable {c : Machine ι} {p : ι} {i : Slot}

/-- **Every handle leads to its slot's block** once it was refreshed. -/
theorem Attended.refresh_ptr (h : c.Attended) (hi : (c.party p).handle.slot = some i) :
    (c.shared.shm.refresh i (c.party p).handle).ptr
      = c.shared.shm.segment.named (c.shared.shm.key i) := by
  by_cases hc : (c.party p).handle.resize_count = (c.shared.shm.descriptors i).resize_count_
  · rw [Shm.refresh_of_eq hc]
    exact (h.tracking.tracked p i hi).2 (h.led p i hi) hc
  · rw [Shm.refresh_of_ne hc]
    rfl

variable [DecidableEq ι]

theorem Settled.led_step (h : c.Settled) (hled : c.Led) {a : ι × Act} (ho : a.2.Ordinary)
    (ha : c.Resetless a) : (c.step a).Led := by
  have hnext := h.step ho ha
  rcases Monitor.step_cases wake Party.effect c a.1 a.2 with heq | ⟨e, he, -, heq⟩
  · rwa [Machine.step, heq]
  · have hstep := h.slotStep ha he heq
    intro q i hi
    by_cases hq : q = a.1
    · subst hq
      have hact := ((hnext.placed i).aimed a.1 hi).1
      rw [Machine.step, heq, Monitor.apply_party_self] at hi ⊢
      rw [Machine.step, heq, Monitor.apply_shared] at hact
      have hgood := hnext.tidy.good
      rw [Machine.step, heq, Monitor.apply_shared] at hgood
      rcases hstep.handle with hsame | hfresh
      · rw [hsame] at hi ⊢
        exact hled a.1 i hi
      · -- a slot in use has a block
        obtain ⟨b, hb⟩ := hgood.named_key hact
        rw [ShmHandle.is_valid, (hfresh i hi).2, hb]
        rfl
    · rw [Machine.step, heq, other_handle hq] at hi ⊢
      exact hled q i hi

theorem Attended.step (h : c.Attended) {a : ι × Act} (ho : a.2.Ordinary) (ha : c.Resetless a)
    (hg : c.Growing a) : (c.step a).Attended where
  toSettled := h.toSettled.step ho ha
  tracking := h.tracking.step h.toSettled ha hg
  led := h.toSettled.led_step h.led ho ha

/-- The act disturbs slot `i`. -/
def Disturbs (i : Slot) (c : Machine ι) : ι × Act → Prop
  | (p, .go) => (c.party p).Disturbs c.shared.shm i
  | _ => False

instance (i : Slot) (c : Machine ι) (a : ι × Act) : Decidable (c.Disturbs i a) :=
  match a with
  | (p, .go) => inferInstanceAs (Decidable ((c.party p).Disturbs c.shared.shm i))
  | (_, .call _) | (_, .timeout) => inferInstanceAs (Decidable False)

theorem Settled.view_step (h : c.Settled) {a : ι × Act} (ha : c.Resetless a)
    (hi : c.shared.shm.active i) (hd : ¬ c.Disturbs i a) :
    (c.step a).shared.shm.view i = c.shared.shm.view i := by
  rcases Monitor.step_cases wake Party.effect c a.1 a.2 with heq | ⟨e, he, -, heq⟩
  · rw [Machine.step, heq]
  · have hstay : ∀ j, c.shared.shm.active j → e.shared.shm.active j := fun j hj => by
      have hkeep := ha j hj
      rwa [Machine.step, heq, Monitor.apply_shared] at hkeep
    rw [Machine.step, heq, Monitor.apply_shared]
    refine (change_of_effect he).view (h.sound.ok a.1) h.tidy.good
      (fun j => (h.placed j).aimed a.1) (h.tidy.programs a.1) hstay hi ?_
    obtain ⟨q, act⟩ := a
    rintro rfl
    exact hd

/-- A write takes no mutex, so it is never held up. -/
theorem step_of_toWrite {msg : Message} (hw : (c.party p).toWrite = some (i, msg)) :
    (c.step (p, .go)).shared.shm
      = (c.shared.shm.serialize i (c.party p).handle msg.write).2.1 := by
  obtain ⟨hx, k, hp⟩ := Party.of_toWrite hw
  have he : (c.party p).effect c.shared .go
      = some ((Instr.write i msg).effect (c.party p) k c.shared) := by
    simp only [Party.effect, hx, hp]
  have hen : ((Instr.write i msg).effect (c.party p) k c.shared).enabled c = true := by
    simp only [Instr.effect]
    split_ifs <;> rfl
  rw [Machine.step, Monitor.step_eq wake he hen, Monitor.apply_shared]
  simp only [Instr.effect]
  split_ifs <;> rfl

/-- **A reader finds what was written.** After a party has written its message into slot `i`, and as
long as no step disturbs the slot, whoever is about to read the slot gets the message, whatever all
parties do in the meantime and whenever they got their handles. -/
theorem read_written (size : ℕ) (as bs : List (ι × Act)) (q p : ι) (i : Slot) {msg : Message}
    {α : Type} {r : StreamM α} {v : α}
    (hord : ∀ a ∈ as ++ (q, .go) :: bs, a.2.Ordinary)
    (h : Run.Along step (fun c a => c.Resetless a ∧ c.Growing a) (init size : Machine ι)
      (as ++ (q, .go) :: bs))
    (hw : ((Run.exec step (init size : Machine ι) as).party q).toWrite = some (i, msg))
    (hr : Readable msg r v
      ((Run.exec step (init size : Machine ι) as).shared.shm.descriptors i).size_)
    (hquiet : Run.Along step (fun c a => ¬ c.Disturbs i a)
      ((Run.exec step (init size : Machine ι) as).step (q, .go)) bs)
    (hread : ((Run.exec step (init size : Machine ι) (as ++ (q, .go) :: bs)).party p).toRead
      = some i) :
    let c := Run.exec step (init size : Machine ι) (as ++ (q, .go) :: bs)
    (c.shared.shm.deserialize i (c.party p).handle r).1 = .ok v := by
  intro c
  have hc : c = Run.exec step ((Run.exec step (init size : Machine ι) as).step (q, .go)) bs :=
    Run.exec_append ..
  rw [Run.along_append] at h
  obtain ⟨hbefore, hwrite, hafter⟩ := h
  simp only [List.forall_mem_append, List.forall_mem_cons] at hord
  obtain ⟨hord, -, hord'⟩ := hord
  have hatt : (Run.exec step (init size : Machine ι) as).Attended :=
    (Run.always_of_along (R := fun a : ι × Act => a.2.Ordinary) step Attended
      (fun _ _ ho hc ha => hc.step ho ha.1 ha.2) (attended_init size) hord hbefore).exec
  generalize Run.exec step (init size : Machine ι) as = c₀ at hc hatt hw hr hquiet hwrite hafter
  -- the write
  obtain ⟨hx, k, hp⟩ := Party.of_toWrite hw
  have hslot : (c₀.party q).handle.slot = some i := by
    have hwf := (hatt.sound.ok q).ready hx
    rw [hp] at hwf
    exact hwf.1.2
  obtain ⟨old, out, hrun, hfit, hshown⟩ := shown_serialize hatt.tidy.good
    ((hatt.placed i).aimed q hslot).1 (hatt.refresh_ptr hslot)
    fun old hold => (hr old hold).imp fun out hout => ⟨hout.1, hout.2.1⟩
  rw [← step_of_toWrite hw] at hshown
  have hatt' : (c₀.step (q, .go)).Attended := hatt.step trivial hwrite.1 hwrite.2
  -- the steps after it
  have hend := (Run.always_of_along (R := fun a : ι × Act => a.2.Ordinary) step
    (fun c : Machine ι => c.Attended ∧
      Shown c.shared.shm i out.mem (c₀.shared.shm.descriptors i).size_)
    (fun c a ho hc ha => ⟨hc.1.step ho ha.1.1 ha.1.2,
      hc.2.congr (hc.1.toSettled.view_step ha.1.1 hc.2.1 ha.2)⟩)
    ⟨hatt', hshown⟩ hord' (Run.along_and.2 ⟨hafter, hquiet⟩)).exec
  rw [← hc] at hend
  -- the read
  obtain ⟨hready, r', k', hk'⟩ := Party.of_toRead hread
  have hslot' : (c.party p).handle.slot = some i := by
    have hwf := (hend.1.sound.ok p).ready hready
    rw [hk'] at hwf
    exact hwf.1.2
  obtain ⟨out', hrun', -, inp, hinp⟩ := hr old hfit
  obtain rfl : out = out' := by
    rw [hrun] at hrun'
    cases hrun'
    rfl
  exact hend.2.deserialize (hend.1.refresh_ptr hslot') hinp

end Machine

/-! ### A run -/

/-- The second party connects and waits. The first makes the block larger and is about to write. -/
def aboutToWrite : List (Client × Act) :=
  List.flatten
    [calls .first (.allocateBlock topicA 16 true) 4, calls .second (.findHandle topicA) 4,
      calls .second (.wait_data rawReader) 2, calls .first (.reallocateBlock 28 true) 9,
      calls .first (.serialize longMessage.toMessage) 5]

/-- After the write the third party connects to another topic, and then the second goes on. -/
def afterTheWrite : List (Client × Act) :=
  List.flatten
    [goes .first 5, calls .third (.allocateBlock topicB 16 true) 4, goes .second 6]

set_option maxRecDepth 4000 in
theorem read_written_late :
    let c := Run.exec Machine.step (Machine.init 100 : Machine Client)
      (aboutToWrite ++ (.first, .go) :: afterTheWrite)
    (c.shared.shm.deserialize 0 (c.party .second).handle (RawMessage.empty.read true)).1
      = .ok longMessage := by
  have hsize : ((Run.exec Machine.step (Machine.init 100 : Machine Client)
      aboutToWrite).shared.shm.descriptors 0).size_ = longMessage.encode.length := by
    decide +kernel
  exact Machine.read_written 100 aboutToWrite afterTheWrite .first .second 0 (by decide)
    (by decide +kernel) rfl (hsize ▸ readable_raw longMessage RawMessage.empty)
    (by decide +kernel) (by decide +kernel)

end Sync

end MessageTransport
