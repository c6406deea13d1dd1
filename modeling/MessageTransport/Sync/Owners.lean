import MessageTransport.Sharedmem.Receiving
import MessageTransport.Sync.Arrival
import MessageTransport.Sync.Linear
import MessageTransport.Sync.Posts

/-!
# One publisher for each topic

Much of what can go wrong between the calls goes wrong because two parties publish on one topic.
Here every topic has one party that publishes on it, and that party reserves what it writes, as
`publish_msg` does; any number of others connect and read. Then nothing goes wrong, under every
interleaving: `calm_of_sole`.

What a party has before it in its call is granted to it (`Instr.Granted`): it works at slots of its
own topics only, a block that it replaces is too small, and a message that it writes has the size
that is recorded. Nobody else disturbs the slots of its topics.
-/

namespace MessageTransport

open MessageTransport.Stream

/-- The length that is reserved for the message is enough to write it. -/
def Message.Measured (msg : Message) : Prop :=
  ∀ old : List UInt8, msg.serlen.toNat ≤ old.length →
    ∃ out, msg.write.run (open_ old msg.serlen.toNat) = .ok () out

namespace Sync

/-! ### Messages and readers -/

/-- The reader reads whatever is in a block of `least` bytes or more. -/
def Tolerant (least : ℕ) (r : StreamM Unit) : Prop :=
  ∀ n, least ≤ n → n < 2 ^ 32 → ∀ data : List UInt8, n ≤ data.length →
    ∃ inp, r.run (open_ data n) = .ok () inp

theorem measured_raw (msg : RawMessage) (h : msg.encode.length < 2 ^ 32) :
    msg.toMessage.Measured := by
  intro old hold
  rw [RawMessage.serlen_toMessage, msg.serializedLength_eq h] at hold ⊢
  exact ⟨_, msg.write_eq (room_open le_rfl hold)⟩

theorem tolerant_rawReader : Tolerant 8 rawReader := by
  intro n h8 hn data hdata
  have hwindow : (open_ data n).window.length = n := by
    rw [RawMessage.length_window hdata]
    rfl
  obtain ⟨v, inp, hrun, -⟩ := RawMessage.read_alloc (s := open_ data n) hdata hn
    (h8.trans_eq hwindow.symm) RawMessage.empty
  refine ⟨inp, ?_⟩
  rw [rawReader, EStateM.run_bind, hrun]
  rfl

/-- An action that goes through on a block of the recorded size fits the slot. -/
theorem fits_of_block {s : Shm} {h : ShmHandle} {i : Slot} {w : StreamM Unit} (hs : s.Good)
    (hi : s.active i) (hp : (s.refresh i h).ptr = s.segment.named (s.key i))
    (hw : ∀ old : List UInt8, (s.descriptors i).size_ ≤ old.length →
      ∃ out, w.run (open_ old (s.descriptors i).size_) = .ok () out) : fits s i h w = true := by
  obtain ⟨data, hl, hlen, hle⟩ := hs.block i hi
  obtain ⟨out, hrun⟩ := hw data (hle.trans_eq hlen.symm)
  have hobj : (s.segment.named (s.key i)).bind s.segment.object = some (.bytes data) := hl
  simp only [fits, hp, Segment.bytesAt_named hl, hobj, hrun, Option.isSome_some, Bool.and_self]

/-! ### Calls -/

variable {ι : Type*}

/-- The call is one of party `p` in a system in which party `pub t` alone publishes on topic `t`,
with blocks of at least `least` bytes, and writes what it has reserved. -/
def Call.Sole (pub : Name → ι) (least : ℕ) (p : ι) (s : Shm) (h : ShmHandle) : Call → Prop
  | .findHandle _ | .wait_data _ => True
  | .allocateBlock name size _ => pub name.key = p ∧ least ≤ size.toNat
  | .reallocateBlock size alloc =>
    alloc = true ∧ least ≤ size.toNat ∧ ∀ i ∈ h.slot, pub (s.key i) = p
  | .serialize msg =>
    ∀ i ∈ h.slot, pub (s.key i) = p ∧ (s.descriptors i).size_ = msg.serlen.toNat
  | .resetBlock | .resetAllBlocks => False

instance [DecidableEq ι] (pub : Name → ι) (least : ℕ) (p : ι) (s : Shm) (h : ShmHandle)
    (c : Call) : Decidable (c.Sole pub least p s h) :=
  match c with
  | .findHandle _ | .wait_data _ => inferInstanceAs (Decidable True)
  | .allocateBlock name size _ =>
    inferInstanceAs (Decidable (pub name.key = p ∧ least ≤ size.toNat))
  | .reallocateBlock size alloc => inferInstanceAs
    (Decidable (alloc = true ∧ least ≤ size.toNat ∧ ∀ i ∈ h.slot, pub (s.key i) = p))
  | .serialize msg => inferInstanceAs (Decidable
    (∀ i ∈ h.slot, pub (s.key i) = p ∧ (s.descriptors i).size_ = msg.serlen.toNat))
  | .resetBlock | .resetAllBlocks => inferInstanceAs (Decidable False)

/-- If the act is a call, its message or its reader is as it should be. -/
def Act.Measured (least : ℕ) : Act → Prop
  | .call (.serialize msg) => msg.Measured
  | .call (.wait_data r) => Tolerant least r
  | _ => True

/-! ### What is granted -/

/-- Slot `i` is in use, for a topic on which party `p` publishes. -/
def Publishes (pub : Name → ι) (s : Shm) (p : ι) (i : Slot) : Prop :=
  s.active i ∧ pub (s.key i) = p

/-- What party `p` may have before it in its call. -/
def Instr.Granted (pub : Name → ι) (least : ℕ) (p : ι) (s : Shm) : Instr → Prop
  | .body (.allocateBlock name size alloc) =>
    name.Plain ∧ alloc = true ∧ pub name.key = p ∧ least ≤ size.toNat
  | .body (.relookup i) | .ifStale i => Publishes pub s p i
  | .body (.grow i size alloc) => Publishes pub s p i ∧ alloc = true ∧ least ≤ size.toNat ∧
    (s.descriptors i).allocated_ < size.toNat
  | .body (.resetBlock _) | .body .resetAllBlocks => False
  | .ifLarger i size alloc => Publishes pub s p i ∧ alloc = true ∧ least ≤ size.toNat
  | .write i msg =>
    Publishes pub s p i ∧ msg.Measured ∧ (s.descriptors i).size_ = msg.serlen.toNat
  | .read _ r => Tolerant least r
  | _ => True

/-- All that the party has before it is granted to party `p`. -/
def Party.Granted (pub : Name → ι) (least : ℕ) (p : ι) (s : Shm) (x : Party) : Prop :=
  ∀ j ∈ x.prog, j.Granted pub least p s

section Granted

variable {pub : Name → ι} {least : ℕ} {p : ι} {s t : Shm} {i : Slot} {j : Instr} {h : ShmHandle}

theorem Publishes.keep (hi : Publishes pub s p i)
    (hk : s.active i → t.active i ∧ t.key i = s.key i) : Publishes pub t p i := by
  obtain ⟨hact, hkey⟩ := hk hi.1
  exact ⟨hact, hkey ▸ hi.2⟩

/-- What changes no table needs slots in use only. -/
theorem Instr.Granted.keep (hj : j.Granted pub least p s) (hnone : j.call = none)
    (hk : ∀ i, s.active i → t.active i ∧ t.key i = s.key i) : j.Granted pub least p t := by
  cases j with
  | body b =>
    cases b with
    | relookup i => exact Publishes.keep hj (hk i)
    | _ => cases hnone
  | ifStale i => exact Publishes.keep hj (hk i)
  | ifLarger | write | read => cases hnone
  | _ => trivial

/-- What is granted stays so while the slots of the party's topics look the same. -/
theorem Instr.Granted.congr (hj : j.Granted pub least p s)
    (hv : ∀ i, Publishes pub s p i → t.view i = s.view i) : j.Granted pub least p t := by
  have hkeep : ∀ i, Publishes pub s p i → Publishes pub t p i := fun i hi =>
    hi.keep fun hact => ⟨(view_block (hv i hi) hact).1, (view_block (hv i hi) hact).2.1⟩
  have hseen : ∀ i, Publishes pub s p i → (t.descriptors i).seen = (s.descriptors i).seen :=
    fun i hi => congrArg Prod.fst (hv i hi)
  cases j with
  | body b =>
    cases b with
    | relookup i => exact hkeep i hj
    | grow i size alloc =>
      obtain ⟨hi, halloc, hleast, hlt⟩ := hj
      refine ⟨hkeep i hi, halloc, hleast, ?_⟩
      show (t.descriptors i).seen.allocated_ < size.toNat
      rw [hseen i hi]
      exact hlt
    | _ => exact hj
  | ifStale i => exact hkeep i hj
  | ifLarger i size alloc => exact ⟨hkeep i hj.1, hj.2⟩
  | write i msg =>
    obtain ⟨hi, hmsg, hsize⟩ := hj
    refine ⟨hkeep i hi, hmsg, ?_⟩
    show (t.descriptors i).seen.size_ = msg.serlen.toNat
    rw [hseen i hi]
    exact hsize
  | _ => exact hj

/-- Work under the global mutex, before a program. -/
theorem granted_globally {b : Body} {k : List Instr}
    (hb : (Instr.body b).Granted pub least p s) (hk : ∀ j ∈ k, j.Granted pub least p s) :
    ∀ j ∈ globally b ++ k, j.Granted pub least p s := by
  intro j hj
  rcases List.mem_append.1 hj with hj | hj
  · simp only [globally, check_global_clients, List.mem_cons, List.not_mem_nil, or_false] at hj
    rcases hj with rfl | rfl | rfl | rfl
    · trivial
    · trivial
    · exact hb
    · trivial
  · exact hk j hj

/-- **The program of a call** is granted to who makes it. -/
theorem granted_prog {c : Call} (hc : c.Sole pub least p s h) (ho : c.Ordinary)
    (hm : Act.Measured least (.call c)) (hact : ∀ i, h.slot = some i → s.active i) :
    ∀ j ∈ c.prog h, j.Granted pub least p s := by
  cases c with
  | findHandle name => exact granted_globally (k := []) trivial fun j hj => by cases hj
  | allocateBlock name size alloc =>
    exact granted_globally (k := []) ⟨ho.1, ho.2, hc.1, hc.2⟩ fun j hj => by cases hj
  | reallocateBlock size alloc =>
    simp only [Call.prog]
    split
    · rename_i i hv hi
      have hpub : Publishes pub s p i := ⟨hact i hi, hc.2.2 i hi⟩
      simpa [reallocateBlock, check_clients, Instr.Granted, hpub] using ⟨hc.1, hc.2.1⟩
    · simp
  | serialize msg =>
    simp only [Call.prog]
    split
    · rename_i i hi
      obtain ⟨hpub, hsize⟩ := hc i hi
      have hwrite : Publishes pub s p i ∧ msg.Measured ∧
          (s.descriptors i).size_ = msg.serlen.toNat := ⟨⟨hact i hi, hpub⟩, hm, hsize⟩
      simpa [serialize, check_clients, register_global_client, unregister_global_client,
        Instr.Granted] using hwrite
    · simp
  | wait_data r =>
    have hread : Tolerant least r := hm
    simp only [Call.prog]
    split
    · simpa [wait_data, wait_data_and_register_client, register_global_client,
        unregister_global_client, unregister_client, Instr.Granted] using hread
    · simp
  | resetBlock | resetAllBlocks => exact hc.elim

/-! ### A party's own steps -/

variable {x : Party} {r : Shared} {a : Act} {e : Effect} {ins : Instr} {k : List Instr}

/-- What changes the table is the last such thing in the call. -/
theorem call_none_of_one (hp : x.prog = ins :: k) (hone : x.pending.length ≤ 1)
    (hc : ins.call ≠ none) : ∀ j ∈ k, j.call = none := by
  obtain ⟨c, hc⟩ := Option.ne_none_iff_exists'.1 hc
  have hnil : k.filterMap Instr.call = [] := by
    rw [Party.pending, hp, List.filterMap_cons, hc, List.length_cons] at hone
    exact List.length_eq_zero_iff.1 (Nat.le_zero.1 (Nat.le_of_succ_le_succ hone))
  exact List.filterMap_eq_nil_iff.1 hnil

/-- **One instruction.** -/
theorem granted_instr (hp : x.prog = ins :: k) (hone : x.pending.length ≤ 1)
    (hx : x.Granted pub least p r.shm) (hk : ∀ i, r.shm.active i →
      (ins.effect x k r).shared.shm.active i ∧ (ins.effect x k r).shared.shm.key i = r.shm.key i) :
    (ins.effect x k r).self.Granted pub least p (ins.effect x k r).shared.shm := by
  have hhead : ins.Granted pub least p r.shm := hx ins (hp ▸ List.mem_cons_self)
  have hrest : ∀ j ∈ k, j.Granted pub least p r.shm :=
    fun j hj => hx j (hp ▸ List.mem_cons_of_mem _ hj)
  have hlast : ins.call ≠ none →
      ∀ j ∈ k, j.Granted pub least p (ins.effect x k r).shared.shm :=
    fun hc j hj => (hrest j hj).keep (call_none_of_one hp hone hc j hj) hk
  have hcounts : ∀ m d, ∀ j ∈ k, j.Granted pub least p (addClients r.shm m d) :=
    fun m d j hj => (hrest j hj).congr fun i _ => view_addClients m d
  cases ins with
  | lock m | unlock m | signal_data i => exact hrest
  | timed_wait i => exact hx
  | register m | unregister m => exact hcounts _ _
  | check m =>
    simp only [Instr.effect]
    split_ifs
    · exact hx
    · exact hrest
  | body b =>
    cases b with
    | relookup i => exact hrest
    | _ => exact hlast (Option.some_ne_none _)
  | ifStale i =>
    have hlook : Publishes pub r.shm p i := hhead
    simp only [Instr.effect]
    split_ifs
    · exact granted_globally hlook hrest
    · exact hrest
  | ifLarger i size alloc =>
    have hl := hlast (Option.some_ne_none _)
    simp only [Instr.effect] at hl ⊢
    split_ifs at hl ⊢ with hlt
    · exact granted_globally ⟨hhead.1, hhead.2.1, hhead.2.2, hlt⟩ hrest
    · exact hl
  | write i msg =>
    have hl := hlast (Option.some_ne_none _)
    simp only [Instr.effect] at hl ⊢
    split_ifs at hl ⊢
    · exact hl
    · simp [Party.Granted, Party.goto, Instr.Granted]
  | read i w =>
    have hl := hlast (Option.some_ne_none _)
    simp only [Instr.effect] at hl ⊢
    split_ifs at hl ⊢
    · exact hl
    · simp [Party.Granted, Party.goto]

/-- **One step of a party.** -/
theorem Party.Granted.effect (hx : x.Granted pub least p r.shm) (hok : x.Ok)
    (hone : x.pending.length ≤ 1) (he : x.effect r a = some e)
    (hcall : ∀ c, a = .call c → c.Sole pub least p r.shm x.handle ∧ c.Ordinary)
    (hm : a.Measured least) (hact : ∀ i, x.handle.slot = some i → r.shm.active i)
    (hk : ∀ i, r.shm.active i → e.shared.shm.active i ∧ e.shared.shm.key i = r.shm.key i) :
    e.self.Granted pub least p e.shared.shm := by
  cases a with
  | call c =>
    simp only [Party.effect] at he
    split at he
    · cases he
      exact granted_prog (hcall c rfl).1 (hcall c rfl).2 hm hact
    · cases he
  | go =>
    simp only [Party.effect] at he
    split at he
    · rename_i ins k _ hp
      cases he
      exact granted_instr hp hone hx hk
    · cases he
    · cases he
    · rename_i n hwoken
      cases he
      obtain ⟨⟨ins, k, hp, -⟩, -⟩ := hok.waiting (.inr hwoken)
      simp only [Party.resume, hp]
      exact fun j hj => hx j (hp ▸ List.mem_cons_of_mem _ hj)
    · cases he
      simp [Party.Granted, Party.goto, Instr.Granted]
  | timeout =>
    simp only [Party.effect] at he
    split at he
    · cases he
      exact hx
    · cases he

theorem wake_granted (c : Cond) (hx : x.Granted pub least p s) :
    (wake c x).Granted pub least p s := by
  unfold wake
  split_ifs <;> exact hx

/-- A party disturbs the slots of its own topics only. -/
theorem Party.Granted.not_disturbs (hx : x.Granted pub least p s) (hne : pub (s.key i) ≠ p) :
    ¬ x.Disturbs s i := by
  intro hd
  unfold Party.Disturbs at hd
  split at hd
  · rename_i l msg k _ hp
    have hg : Instr.Granted pub least p s (.write l msg) := hx _ (hp ▸ List.mem_cons_self)
    exact hne (hd ▸ hg.1.2)
  · rename_i l size alloc k _ hp
    have hg : Instr.Granted pub least p s (.ifLarger l size alloc) :=
      hx _ (hp ▸ List.mem_cons_self)
    exact hne (hd.1 ▸ hg.1.2)
  · rename_i name size alloc k _ hp
    have hg : Instr.Granted pub least p s (.body (.allocateBlock name size alloc)) :=
      hx _ (hp ▸ List.mem_cons_self)
    exact hne (hd.1 ▸ hg.2.2.1)
  · rename_i l size alloc k _ hp
    have hg : Instr.Granted pub least p s (.body (.grow l size alloc)) :=
      hx _ (hp ▸ List.mem_cons_self)
    exact hne (hd ▸ hg.1.2)
  · exact hd

/-- **The table** keeps the slots in use, and their topics, through a step of what is granted. -/
theorem Change.stays {g : ShmHandle} (hc : Change x s a t g) (hx : x.Granted pub least p s)
    (hs : s.Good) (hi : s.active i) : t.active i ∧ t.key i = s.key i := by
  have hrenew : ∀ l size, (s.renew l size).active i ∧ (s.renew l size).key i = s.key i := by
    intro l size
    by_cases hil : i = l
    · subst hil
      exact ⟨by rwa [Shm.active, Shm.renew_self, Descriptor.active_recordSize], renew_key⟩
    · exact ⟨by rwa [Shm.active, Shm.renew_ne hil], by rw [Shm.key, Shm.renew_ne hil, Shm.key]⟩
  have hstill : (∀ i, Still s t i) → t.active i ∧ t.key i = s.key i :=
    fun h => ⟨(h i).active.2 hi, (h i).key⟩
  cases hc with
  | none | look => exact ⟨hi, rfl⟩
  | addClients m d => exact hstill fun i => still_addClients m d
  | resize => exact hstill fun i => still_resize
  | fill hx hp data => exact hstill fun i => still_fill _ data
  | body hb =>
    rename_i b
    obtain ⟨-, k, hp⟩ := Party.of_toDo hb
    have hg : Instr.Granted pub least p s (.body b) := hx _ (hp ▸ List.mem_cons_self)
    cases b with
    | findHandle name | relookup l => exact ⟨hi, rfl⟩
    | resetBlock l | resetAllBlocks => exact hg.elim
    | grow l size alloc =>
      obtain ⟨-, rfl, -⟩ := hg
      rcases grow_cases s l x.handle size.toNat true with ⟨-, heq⟩ | ⟨hfalse, -⟩
      · simp only [Body.run, heq]
        exact hrenew l _
      · cases hfalse
    | allocateBlock name size alloc =>
      obtain ⟨hplain, rfl, -⟩ := hg
      rcases hs.allocateBlock_cases hplain.key_ne size.toNat with
        ⟨l, ho, hfit, heq⟩ | ⟨l, ho, hlt, heq⟩ | ⟨l, hn, hf, heq⟩ | ⟨-, -, heq⟩
      · simp only [Body.run, heq]
        exact ⟨still_resize.active.2 hi, still_resize.key⟩
      · simp only [Body.run, heq]
        exact hrenew l _
      · simp only [Body.run, heq]
        have hil : i ≠ l := by
          rintro rfl
          exact Shm.freeSlot_some hf hi
        exact ⟨by rwa [Shm.active, Shm.occupy_ne hil], by rw [Shm.key, Shm.occupy_ne hil, Shm.key]⟩
      · simp only [Body.run, heq]
        exact ⟨hi, trivial⟩

/-- No size that is recorded is smaller than what is asked for. -/
theorem Change.roomy {g : ShmHandle} (hc : Change x s a t g) (hx : x.Granted pub least p s)
    (hs : s.Good) (hroom : ∀ i, s.active i → least ≤ (s.descriptors i).size_)
    (hi : t.active i) : least ≤ (t.descriptors i).size_ := by
  have hsame : t.descriptors i = s.descriptors i → least ≤ (t.descriptors i).size_ := by
    intro heq
    rw [heq]
    exact hroom i (by rwa [Shm.active, ← heq])
  have hresize : ∀ l (size : UInt32), least ≤ size.toNat → t = s.resize l size.toNat →
      least ≤ (t.descriptors i).size_ := by
    rintro l size hle rfl
    by_cases hil : i = l
    · subst hil
      rwa [Shm.resize_self]
    · exact hsame (Shm.resize_ne hil)
  have hrenew : ∀ l (size : UInt32), least ≤ size.toNat → t = s.renew l size.toNat →
      least ≤ (t.descriptors i).size_ := by
    rintro l size hle rfl
    by_cases hil : i = l
    · subst hil
      rwa [Shm.renew_self]
    · exact hsame (Shm.renew_ne hil)
  cases hc with
  | none | look => exact hroom i hi
  | fill => exact hroom i hi
  | addClients m d =>
    have hseen : ((Sync.addClients s m d).descriptors i).seen = (s.descriptors i).seen :=
      congrArg Prod.fst (view_addClients (i := i) m d)
    show least ≤ ((Sync.addClients s m d).descriptors i).seen.size_
    rw [hseen]
    exact hroom i ((still_addClients m d).active.1 hi)
  | resize hready hp hfit =>
    rename_i l size alloc k
    have hg : Instr.Granted pub least p s (.ifLarger l size alloc) :=
      hx _ (hp ▸ List.mem_cons_self)
    exact hresize l size hg.2.2 rfl
  | body hb =>
    rename_i b
    obtain ⟨-, k, hp⟩ := Party.of_toDo hb
    have hg : Instr.Granted pub least p s (.body b) := hx _ (hp ▸ List.mem_cons_self)
    cases b with
    | findHandle name | relookup l => exact hroom i hi
    | resetBlock l | resetAllBlocks => exact hg.elim
    | grow l size alloc =>
      obtain ⟨-, rfl, hle, -⟩ := hg
      rcases grow_cases s l x.handle size.toNat true with ⟨-, heq⟩ | ⟨hfalse, -⟩
      · exact hrenew l size hle (by simp only [Body.run, heq])
      · cases hfalse
    | allocateBlock name size alloc =>
      obtain ⟨hplain, rfl, -, hle⟩ := hg
      rcases hs.allocateBlock_cases hplain.key_ne size.toNat with
        ⟨l, ho, hfit, heq⟩ | ⟨l, ho, hlt, heq⟩ | ⟨l, hn, hf, heq⟩ | ⟨-, -, heq⟩
      · exact hresize l size hle (by simp only [Body.run, heq])
      · exact hrenew l size hle (by simp only [Body.run, heq])
      · simp only [Body.run, heq] at hi hsame ⊢
        by_cases hil : i = l
        · subst hil
          rwa [Shm.occupy_self]
        · exact hsame (Shm.occupy_ne hil)
      · simp only [Body.run, heq] at hi ⊢
        exact hroom i hi

/-- Who is in the middle of `reallocateBlock` is there at a slot of its own topic. -/
theorem publishes_of_amid (hk : ∀ j ∈ k, j.Granted pub least p s) (hi : amid k = some i) :
    Publishes pub s p i := by
  induction k with
  | nil => cases hi
  | cons ins k ih =>
    have hhead : ins.Granted pub least p s := hk ins List.mem_cons_self
    have hrest := ih fun j hj => hk j (List.mem_cons_of_mem _ hj)
    cases ins with
    | ifStale => cases hi
    | ifLarger l size alloc =>
      cases hi
      exact hhead.1
    | body b =>
      cases b with
      | relookup l =>
        cases hi
        exact hhead
      | grow l size alloc =>
        cases hi
        exact hhead.1
      | _ => exact hrest hi
    | _ => exact hrest hi

end Granted

/-- A slot that looks the same has the same block. -/
theorem still_of_view {s t : Shm} {i : Slot} (hv : t.view i = s.view i) (hi : s.active i) :
    Still s t i := by
  obtain ⟨hact, hkey, hnamed, -⟩ := view_block hv hi
  have hd : (t.descriptors i).seen = (s.descriptors i).seen := congrArg Prod.fst hv
  have hcount := congrArg Descriptor.resize_count_ hd
  have hallocated := congrArg Descriptor.allocated_ hd
  exact
    { active := iff_of_true hact hi
      key := hkey
      count := hcount
      allocated := hallocated
      named := hnamed }

/-! ### The machine -/

namespace Machine

variable {pub : Name → ι} {least : ℕ} {c : Machine ι}

/-- If the act is a call, it is one of the system with one publisher for each topic. -/
def Sole (pub : Name → ι) (least : ℕ) (c : Machine ι) : ι × Act → Prop
  | (p, .call call) => call.Sole pub least p c.shared.shm (c.party p).handle
  | _ => True

instance [DecidableEq ι] (pub : Name → ι) (least : ℕ) (c : Machine ι) (a : ι × Act) :
    Decidable (c.Sole pub least a) :=
  match a with
  | (p, .call call) =>
    inferInstanceAs (Decidable (call.Sole pub least p c.shared.shm (c.party p).handle))
  | (_, .go) | (_, .timeout) => inferInstanceAs (Decidable True)

/-- What holds in every state of such a system. -/
structure Assigned (pub : Name → ι) (least : ℕ) (c : Machine ι) : Prop extends Attended c where
  granted : ∀ p, (c.party p).Granted pub least p c.shared.shm
  roomy : ∀ i, c.shared.shm.active i → least ≤ (c.shared.shm.descriptors i).size_
  busy : ∀ p, (c.party p).Busy

theorem assigned_init (pub : Name → ι) (least size : ℕ) :
    (init size : Machine ι).Assigned pub least where
  toAttended := attended_init size
  granted p j hj := by cases hj
  roomy i hi := by cases hi
  busy p := ⟨Nat.zero_le 1, fun i hi => by cases hi⟩

/-- A replaced block is too small. -/
theorem Assigned.growing (h : c.Assigned pub least) (a : ι × Act) : c.Growing a := by
  obtain ⟨p, act⟩ := a
  cases act with
  | call | timeout => trivial
  | go =>
    intro b hb
    obtain ⟨-, k, hp⟩ := Party.of_toDo hb
    have hg : Instr.Granted pub least p c.shared.shm (.body b) :=
      h.granted p _ (hp ▸ List.mem_cons_self)
    cases b with
    | grow i size alloc => exact hg.2.2.2
    | _ => trivial

/-- **No step throws.** -/
theorem Assigned.calm (h : c.Assigned pub least) (a : ι × Act) : c.Calm a := by
  obtain ⟨p, act⟩ := a
  cases act with
  | call | timeout => trivial
  | go =>
    show (c.party p).throws c.shared = false
    unfold Party.throws
    split
    · rename_i i msg k hx hp
      have hwf := (h.sound.ok p).ready hx
      have hg : Instr.Granted pub least p c.shared.shm (.write i msg) :=
        h.granted p _ (hp ▸ List.mem_cons_self)
      rw [hp] at hwf
      obtain ⟨⟨hact, -⟩, hmsg, hsize⟩ := hg
      rw [fits_of_block h.tidy.good hact (h.refresh_ptr hwf.1.2) (hsize ▸ hmsg)]
      rfl
    · rename_i i w k hx hp
      have hwf := (h.sound.ok p).ready hx
      have hg : Instr.Granted pub least p c.shared.shm (.read i w) :=
        h.granted p _ (hp ▸ List.mem_cons_self)
      rw [hp] at hwf
      have hact := ((h.placed i).aimed p hwf.1.2).1
      have hlt : (c.shared.shm.descriptors i).size_ < 2 ^ 32 :=
        (h.tidy.good.slotOk i).size_le.trans_lt (h.tidy.good.slotOk i).bound
      rw [fits_of_block h.tidy.good hact (h.refresh_ptr hwf.1.2) (hg _ (h.roomy i hact) hlt)]
      rfl
    · rfl

variable [DecidableEq ι]

/-- **No slot is reset.** -/
theorem Assigned.resetless (h : c.Assigned pub least) (a : ι × Act) : c.Resetless a := by
  intro i hi
  rcases Monitor.step_cases wake Party.effect c a.1 a.2 with heq | ⟨e, he, -, heq⟩
  · rwa [Machine.step, heq]
  · rw [Machine.step, heq, Monitor.apply_shared]
    exact ((change_of_effect he).stays (h.granted a.1) h.tidy.good hi).1

/-- The slots of a party's topics look the same after a step of somebody else. -/
theorem Assigned.view_other (h : c.Assigned pub least) {q : ι} {i : Slot} (a : ι × Act)
    (hq : q ≠ a.1) (hi : Publishes pub c.shared.shm q i) :
    (c.step a).shared.shm.view i = c.shared.shm.view i := by
  refine h.toSettled.view_step (h.resetless a) hi.1 ?_
  obtain ⟨p, act⟩ := a
  cases act with
  | call | timeout => exact not_false
  | go => exact (h.granted p).not_disturbs (hi.2 ▸ hq)

/-- **Nobody is overtaken** in the middle of `reallocateBlock`. -/
theorem Assigned.spares (h : c.Assigned pub least) (a : ι × Act) : c.Spares a := by
  intro p hp i hi
  have hpub := publishes_of_amid (h.granted p) hi
  exact still_of_view (h.view_other a hp hpub) hpub.1

theorem Assigned.step (h : c.Assigned pub least) {a : ι × Act} (ho : a.2.Ordinary)
    (hm : a.2.Measured least) (ha : c.Sole pub least a) : (c.step a).Assigned pub least := by
  have hreset := h.resetless a
  have hnext : (c.step a).Attended := h.toAttended.step ho hreset (h.growing a)
  have hbusy : ∀ p, ((c.step a).party p).Busy := fun p => (pending_step h.sound (h.busy p) a).2
  have hothers : ∀ q, q ≠ a.1 →
      (c.party q).Granted pub least q (c.step a).shared.shm := fun q hq j hj =>
    (h.granted q j hj).congr fun i hi => h.view_other a hq hi
  rcases Monitor.step_cases wake Party.effect c a.1 a.2 with heq | ⟨e, he, -, heq⟩
  · rwa [Machine.step, heq]
  · have hchange := change_of_effect he
    refine ⟨hnext, fun q => ?_, fun i hi => ?_, hbusy⟩
    · by_cases hq : q = a.1
      · subst hq
        rw [Machine.step, heq, Monitor.apply_party_self, Monitor.apply_shared]
        refine (h.granted a.1).effect (h.sound.ok a.1) (h.busy a.1).one he (fun call hcall => ?_) hm
          (fun i hi => ((h.placed i).aimed a.1 hi).1)
          (fun i hi => hchange.stays (h.granted a.1) h.tidy.good hi)
        obtain ⟨p, act⟩ := a
        subst hcall
        exact ⟨ha, ho⟩
      · have hq' := hothers q hq
        rw [Machine.step, heq] at hq' ⊢
        rcases apply_party_cases (c := c) (e := e) hq with ⟨-, hsame⟩ | ⟨n, -, hwoken⟩
        · rwa [hsame]
        · rw [hwoken]
          exact wake_granted n hq'
    · rw [Machine.step, heq, Monitor.apply_shared] at hi ⊢
      exact hchange.roomy (h.granted a.1) h.tidy.good h.roomy hi

/-- **One publisher for each topic.** If every topic has one party that publishes on it, which
reserves what it writes, and the readers take every block of the least size, then under every
interleaving no step throws or resets a slot, every replaced block is larger, and nobody touches the
slot at which another party is in the middle of `reallocateBlock`. -/
theorem calm_of_sole (size : ℕ) (pub : Name → ι) (least : ℕ) (as : List (ι × Act))
    (has : ∀ a ∈ as, a.2.Ordinary ∧ a.2.Measured least)
    (h : Run.Along step (Sole pub least) (init size) as) :
    Run.Along step (fun c a => c.Calm a ∧ c.Resetless a ∧ c.Growing a ∧ c.Spares a)
      (init size : Machine ι) as :=
  Run.along_of_along step (fun c : Machine ι => c.Assigned pub least)
    (fun _ _ ha hc hp => hc.step ha.1 ha.2 hp)
    (fun _ a _ hc _ => ⟨hc.calm a, hc.resetless a, hc.growing a, hc.spares a⟩)
    (assigned_init pub least size) has h

/-! ### Everybody is served -/

omit [DecidableEq ι] in
/-- A step in a call that was begun. -/
theorem Possible.goes {a : ι × Act} (ha : c.Possible a) (pub : Name → ι) (least : ℕ) :
    c.Sole pub least a ∧ a.2.Ordinary ∧ a.2.Measured least := by
  obtain ⟨p, act⟩ := a
  cases act with
  | call call => exact absurd rfl (ha.1 call)
  | go | timeout => exact ⟨trivial, trivial, trivial⟩

/-- What holds in every state of such a system, with what the parties have read. -/
structure Serving (pub : Name → ι) (least : ℕ) (c : Machine ι) : Prop
    extends Assigned pub least c where
  ordered : c.Ordered
  faithful : ∀ i, c.Faithful i

theorem Serving.step (h : c.Serving pub least) {a : ι × Act} (ho : a.2.Ordinary)
    (hm : a.2.Measured least) (ha : c.Sole pub least a) : (c.step a).Serving pub least where
  toAssigned := h.toAssigned.step ho hm ha
  ordered := h.ordered.step h.sound a
  faithful i := (h.faithful i).step h.sound (h.placed i) a

end Machine

/-! ### A run -/

/-- The first party publishes on topic "a", the second on topic "b". -/
def publisherOf (n : Name) : Client := if n = topicA.chars then .first else .second

/-- The third party waits for data of topic "a". While the first publishes there, making its block
larger, the second begins to publish on its own topic. -/
def publishersRun : List (Client × Act) :=
  calls .first (.allocateBlock topicA 16 true) 4 ++ calls .second (.allocateBlock topicB 16 true) 4 ++
    calls .third (.findHandle topicA) 4 ++ calls .third (.wait_data rawReader) 2 ++
    calls .first (.reallocateBlock 28 true) 9 ++ calls .second (.reallocateBlock 8 true) 3 ++
    calls .first (.serialize longMessage.toMessage) 6

theorem publishersRun_measured : ∀ a ∈ publishersRun, a.2.Ordinary ∧ a.2.Measured 8 := by
  have hgoes : ∀ (p : Client) (n : ℕ), ∀ a ∈ List.replicate n (p, Act.go),
      a.2.Ordinary ∧ a.2.Measured 8 := by
    intro p n a ha
    rw [List.eq_of_mem_replicate ha]
    exact ⟨trivial, trivial⟩
  have hplain : topicA.Plain ∧ topicB.Plain := by decide
  simp only [publishersRun, calls, List.forall_mem_append, List.forall_mem_cons]
  refine ⟨⟨⟨⟨⟨⟨⟨?_, hgoes _ _⟩, ?_, hgoes _ _⟩, ?_, hgoes _ _⟩, ?_, hgoes _ _⟩, ?_, hgoes _ _⟩,
    ?_, hgoes _ _⟩, ?_, hgoes _ _⟩
  · exact ⟨⟨hplain.1, rfl⟩, trivial⟩
  · exact ⟨⟨hplain.2, rfl⟩, trivial⟩
  · exact ⟨trivial, trivial⟩
  · exact ⟨trivial, tolerant_rawReader⟩
  · exact ⟨trivial, trivial⟩
  · exact ⟨trivial, trivial⟩
  · exact ⟨trivial, measured_raw longMessage (by decide)⟩

set_option maxRecDepth 4000 in
theorem calm_of_sole_publishers :
    Run.Along Machine.step (fun c a => c.Calm a ∧ c.Resetless a ∧ c.Growing a ∧ c.Spares a)
      (Machine.init 200 : Machine Client) publishersRun :=
  Machine.calm_of_sole 200 publisherOf 8 publishersRun publishersRun_measured (by decide +kernel)

end Sync

end MessageTransport
