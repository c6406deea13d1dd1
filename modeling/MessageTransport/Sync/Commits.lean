import MessageTransport.Sync.Alone
import MessageTransport.Sync.Growth
import MessageTransport.Sync.Views

/-!
# Where a call takes effect

A call is a list of instructions, and between two of them the others run. All that a call does to
the table and to the caller's handle it does with one of them, if in between nobody touches the slot
that it works at: then the instructions before it are nothing to the table but for the counts of
clients, and what they did to the handle the whole call does too.

* `Phase`: a party is in the middle of a call that would now do, as a whole, what is left to do;
* `lands_effect`: a step of the party is nothing to the table, or the call takes effect with it.
-/

namespace MessageTransport

open MessageTransport.Stream

/-! ### The table without its counts -/

/-- The table as it is seen when nobody is registered. -/
def Shm.seen (s : Shm) : Shm := ⟨0, fun i => (s.descriptors i).seen, s.segment⟩

namespace Shm

variable {s t : Shm} {i : Slot} {h : ShmHandle} {name : CString} {size : ℕ} {alloc : Bool}

theorem seen_setDescriptor (i : Slot) (d : Descriptor) :
    (s.setDescriptor i d).seen = s.seen.setDescriptor i d.seen := by
  simp only [seen, setDescriptor, mk.injEq, true_and, and_true]
  funext j
  by_cases hj : j = i
  · subst hj
    simp only [Function.update_self]
  · simp only [Function.update_of_ne hj]

theorem seen_addClients (m : Sync.Mutex) (d : ℤ) : (Sync.addClients s m d).seen = s.seen := by
  cases m with
  | global => rfl
  | desc j =>
    rw [Sync.addClients, seen_setDescriptor]
    exact congrArg (Shm.mk 0 · s.segment) (Function.update_eq_self j s.seen.descriptors)

@[simp] theorem key_seen (s : Shm) (i : Slot) : s.seen.key i = s.key i := rfl

@[simp] theorem segment_seen (s : Shm) : s.seen.segment = s.segment := rfl

@[simp] theorem descriptors_seen (s : Shm) (i : Slot) :
    s.seen.descriptors i = (s.descriptors i).seen := rfl

theorem seen_reconnect : s.seen.reconnect i size alloc
    = ((s.reconnect i size alloc).1.seen, (s.reconnect i size alloc).2) := by
  unfold reconnect
  by_cases hgt : size > (s.segment.find (s.key i)).2
  · have hgt' : size > (s.seen.segment.find (s.seen.key i)).2 := hgt
    simp only [if_pos hgt, if_pos hgt']
    simp only [key_seen, segment_seen]
    cases Segment.find_or_construct (s.segment.destroy (s.key i)) (s.key i) size alloc with
    | none => rfl
    | some r =>
      simp only [seen_setDescriptor]
      rfl
  · have hgt' : ¬ size > (s.seen.segment.find (s.seen.key i)).2 := hgt
    simp only [if_neg hgt, if_neg hgt', seen_setDescriptor]
    rfl

theorem seen_claim : s.seen.claim i name size alloc
    = ((s.claim i name size alloc).1.seen, (s.claim i name size alloc).2) := by
  have hset : s.seen.setDescriptor i (((s.seen.descriptors i).allocate name).recordSize size size)
      = (s.setDescriptor i (((s.descriptors i).allocate name).recordSize size size)).seen := by
    rw [seen_setDescriptor]
    rfl
  unfold claim
  simp only [hset, key_seen, segment_seen]
  cases Segment.find_or_construct _ _ size alloc with
  | none => rfl
  | some r => rfl

theorem seen_allocateBlock : s.seen.allocateBlock name size alloc
    = ((s.allocateBlock name size alloc).1.seen, (s.allocateBlock name size alloc).2) := by
  have hslot : s.seen.slotOf name = s.slotOf name := rfl
  have hfree : s.seen.freeSlot = s.freeSlot := rfl
  simp only [allocateBlock, hslot, hfree]
  cases s.slotOf name with
  | some i => exact seen_reconnect
  | none =>
    cases s.freeSlot with
    | some i => exact seen_claim
    | none => rfl

theorem seen_grow : s.seen.grow i h size alloc
    = ((s.grow i h size alloc).1.seen, (s.grow i h size alloc).2) := by
  simp only [grow, key_seen, segment_seen]
  cases Segment.find_or_construct (s.segment.destroy (s.key i)) (s.key i) size alloc with
  | none =>
    simp only [seen_setDescriptor]
    rfl
  | some r =>
    simp only [seen_setDescriptor]
    rfl

theorem seen_resetSlot (s : Shm) (i : Slot) : s.seen.resetSlot i = (s.resetSlot i).seen := by
  simp only [resetSlot, seen_setDescriptor]
  rfl

theorem seen_resetAllBlocks (s : Shm) : s.seen.resetAllBlocks = s.resetAllBlocks.seen := by
  unfold resetAllBlocks
  induction List.finRange numBlock generalizing s with
  | nil => rfl
  | cons i is ih =>
    simp only [List.foldl_cons]
    rw [← ih]
    congr 1
    cases hact : (s.descriptors i).active_ with
    | true => simp only [descriptors_seen, Descriptor.active_seen, hact, if_true, seen_resetSlot]
    | false => simp only [descriptors_seen, Descriptor.active_seen, hact, if_false,
        Bool.false_eq_true]

theorem seen_serialize (w : StreamM Unit) : s.seen.serialize i h w
    = ((s.serialize i h w).1, (s.serialize i h w).2.1.seen, (s.serialize i h w).2.2) := by
  have hrefresh : s.seen.refresh i h = s.refresh i h := rfl
  simp only [serialize, hrefresh, segment_seen]
  cases hrun : w.run (open_ (s.segment.bytesAt (s.refresh i h).ptr) (s.descriptors i).size_) with
  | ok _ out | error e out =>
    have hrun' : w.run (open_ (s.segment.bytesAt (s.refresh i h).ptr)
      (s.seen.descriptors i).size_) = _ := hrun
    rw [hrun']
    rfl

end Shm

namespace Sync

/-! ### Commit points -/

/-- What a call does where it takes effect. A wait for data that was signalled reads the block, and
refreshes its handle. -/
def Call.commit (s : Shm) (h : ShmHandle) : Call → Shm × ShmHandle
  | .wait_data _ =>
    match h.slot with
    | some i => (s, s.refresh i h)
    | none => (s, h)
  | c => c.whole s h

/-- The call that the instruction belongs to, if it may be the one at which the call takes effect. -/
def Instr.call : Instr → Option Call
  | .body (.findHandle name) => some (.findHandle name)
  | .body (.allocateBlock name size alloc) => some (.allocateBlock name size alloc)
  | .body (.grow _ size alloc) | .ifLarger _ size alloc => some (.reallocateBlock size alloc)
  | .body (.resetBlock _) => some .resetBlock
  | .body .resetAllBlocks => some .resetAllBlocks
  | .write _ msg => some (.serialize msg)
  | .read _ r => some (.wait_data r)
  | _ => none

/-- The call that takes effect with the next step of the party: `reallocateBlock` with the test of
`allocated_` only if the block is large enough. -/
def Party.commits (x : Party) (s : Shm) : Option Call :=
  match x.status, x.prog with
  | .ready, .ifLarger i size alloc :: _ =>
    if size.toNat > (s.descriptors i).allocated_ then none
    else some (.reallocateBlock size alloc)
  | .ready, i :: _ => i.call
  | _, _ => none

/-- The slot at which the party is in the middle of `reallocateBlock`: it has tested the count, and
the call has not taken effect. -/
def amid : List Instr → Option Slot
  | [] | .ifStale _ :: _ => none
  | .body (.relookup i) :: _ | .ifLarger i _ _ :: _ | .body (.grow i _ _) :: _ => some i
  | _ :: k => amid k

/-- The instruction is one of `reallocateBlock` only. -/
def Instr.splits : Instr → Bool
  | .ifStale _ | .ifLarger _ _ _ | .body (.relookup _) | .body (.grow _ _ _) => true
  | _ => false

section Commit

variable {s t : Shm} {h g : ShmHandle} {i : Slot} {k : List Instr}

theorem seen_commit (c : Call) (s : Shm) (h : ShmHandle) :
    c.commit s.seen h = ((c.commit s h).1.seen, (c.commit s h).2) := by
  cases c with
  | findHandle name => rfl
  | allocateBlock name size alloc =>
    simp only [Call.commit, Call.whole, Shm.seen_allocateBlock]
  | reallocateBlock size alloc =>
    simp only [Call.commit, Call.whole, Shm.reallocateBlock]
    split
    · rename_i i _ _
      have hrefresh : s.seen.refresh i h = s.refresh i h := rfl
      have hrecord : s.seen.setDescriptor i ((s.seen.descriptors i).recordSize size.toNat 0)
          = (s.setDescriptor i ((s.descriptors i).recordSize size.toNat 0)).seen := by
        rw [Shm.seen_setDescriptor]
        rfl
      unfold Shm.reallocateSlot
      by_cases hgt : size.toNat > (s.descriptors i).allocated_
      · have hgt' : size.toNat > (s.seen.descriptors i).allocated_ := hgt
        simp only [if_pos hgt, if_pos hgt', hrefresh, Shm.seen_grow]
      · have hgt' : ¬ size.toNat > (s.seen.descriptors i).allocated_ := hgt
        simp only [if_neg hgt, if_neg hgt', hrefresh, hrecord]
    · rfl
  | serialize msg =>
    simp only [Call.commit, Call.whole]
    cases h.slot with
    | none => rfl
    | some i => simp only [Shm.seen_serialize]
  | wait_data r =>
    simp only [Call.commit]
    cases h.slot <;> rfl
  | resetBlock =>
    simp only [Call.commit, Call.whole]
    cases h.slot with
    | none => rfl
    | some i =>
      simp only [Shm.resetBlock]
      split_ifs <;> simp only [Shm.seen_resetSlot]
  | resetAllBlocks => simp only [Call.commit, Call.whole, Shm.seen_resetAllBlocks]

end Commit

/-! ### Calls that have not taken effect -/

/-- A party with the program `k` and the handle `g` is in a call, or in none, that it began with the
handle `h`; and what is left to do gives what the whole call gives now. -/
inductive Phase (s : Shm) : List Instr → ShmHandle → ShmHandle → Prop
  | plain {k : List Instr} {h : ShmHandle} (hk : ∀ i ∈ k, i.splits = false) : Phase s k h h
  | before {i : Slot} {size : UInt32} {alloc : Bool} {l : List Instr} {h : ShmHandle}
    (hl : l <:+ [.lock (.desc i), check_clients i]) (hv : h.is_valid = true)
    (hi : h.slot = some i) :
    Phase s (l ++ [.ifStale i, .ifLarger i size alloc, .unlock (.desc i)]) h h
  | stale {i : Slot} {size : UInt32} {alloc : Bool} {l : List Instr} {h : ShmHandle}
    (hl : l <:+ [.lock .global, check_global_clients]) (hv : h.is_valid = true)
    (hi : h.slot = some i) (hs : s.stale i h = true) :
    Phase s (l ++ [.body (.relookup i), .unlock .global, .ifLarger i size alloc, .unlock (.desc i)])
      h h
  | fresh {i : Slot} {size : UInt32} {alloc : Bool} {l : List Instr} {h : ShmHandle}
    (hl : l <:+ [.unlock .global]) (hv : h.is_valid = true) (hi : h.slot = some i) :
    Phase s (l ++ [.ifLarger i size alloc, .unlock (.desc i)]) h (s.refresh i h)
  | larger {i : Slot} {size : UInt32} {alloc : Bool} {l : List Instr} {h : ShmHandle}
    (hl : l <:+ [.lock .global, check_global_clients]) (hv : h.is_valid = true)
    (hi : h.slot = some i) (hlt : (s.descriptors i).allocated_ < size.toNat) :
    Phase s (l ++ [.body (.grow i size alloc), .unlock .global, .unlock (.desc i)]) h
      (s.refresh i h)

section Phase

variable {x : Party} {r : Shared} {s t : Shm} {h g : ShmHandle} {i : Slot} {k : List Instr}
  {a : Act} {e : Effect}

theorem suffix_pair {α : Type*} {l : List α} {a b : α} (hl : l <:+ [a, b]) :
    l = [a, b] ∨ l = [b] ∨ l = [] := by
  rcases List.suffix_cons_iff.1 hl with h | h
  · exact .inl h
  rcases List.suffix_cons_iff.1 h with h | h
  · exact .inr (.inl h)
  · exact .inr (.inr (List.suffix_nil.1 h))

theorem suffix_single {α : Type*} {l : List α} {a : α} (hl : l <:+ [a]) : l = [a] ∨ l = [] :=
  (List.suffix_cons_iff.1 hl).imp_right List.suffix_nil.1

theorem stale_still (hst : Still s t i) (h : ShmHandle) : t.stale i h = s.stale i h := by
  rw [Shm.stale, Shm.stale, hst.count]

theorem refresh_still (hst : Still s t i) (h : ShmHandle) : t.refresh i h = s.refresh i h := by
  have hlook : t.relookup i h = s.relookup i h := by
    simp only [Shm.relookup, Segment.find, hst.count, hst.key, hst.named]
  rw [Shm.refresh, Shm.refresh, stale_still hst, hlook]

theorem amid_plain (hk : ∀ i ∈ k, i.splits = false) : amid k = none := by
  induction k with
  | nil => rfl
  | cons i k ih =>
    have hi : i.splits = false := hk i List.mem_cons_self
    have hrest := ih fun j hj => hk j (List.mem_cons_of_mem _ hj)
    cases i with
    | ifStale | ifLarger => cases hi
    | body b =>
      cases b with
      | relookup | grow => cases hi
      | _ => exact hrest
    | _ => exact hrest

/-- Who leaves the slot alone at which a party is amid a call does not disturb it. -/
theorem Phase.still (hp : Phase s k h g) (hst : ∀ i, amid k = some i → Still s t i) :
    Phase t k h g := by
  cases hp with
  | plain hk => exact .plain hk
  | before hl hv hi => exact .before hl hv hi
  | stale hl hv hi hs =>
    rename_i i size alloc l
    have hsti : Still s t i := hst i (by
      rcases suffix_pair hl with rfl | rfl | rfl <;> rfl)
    exact .stale hl hv hi ((stale_still hsti h).trans hs)
  | fresh hl hv hi =>
    rename_i i size alloc l
    have hsti : Still s t i := hst i (by
      rcases suffix_single hl with rfl | rfl <;> rfl)
    rw [← refresh_still hsti]
    exact .fresh hl hv hi
  | larger hl hv hi hlt =>
    rename_i i size alloc l
    have hsti : Still s t i := hst i (by
      rcases suffix_pair hl with rfl | rfl | rfl <;> rfl)
    rw [← refresh_still hsti]
    exact .larger hl hv hi (hsti.allocated.symm ▸ hlt)

/-- Outside of the middle of `reallocateBlock` the handle is the one of the beginning. -/
theorem Phase.handle (hp : Phase s k h g) (hk : amid k = none) : g = h := by
  cases hp with
  | plain | before => rfl
  | stale hl => rcases suffix_pair hl with rfl | rfl | rfl <;> cases hk
  | fresh hl => rcases suffix_single hl with rfl | rfl <;> cases hk
  | larger hl => rcases suffix_pair hl with rfl | rfl | rfl <;> cases hk

/-- A call begins with the handle that the party has. -/
theorem phase_prog (c : Call) (s : Shm) (h : ShmHandle) : Phase s (c.prog h) h h := by
  cases c with
  | findHandle | allocateBlock | resetAllBlocks =>
    exact .plain (by simp [Call.prog, globally, check_global_clients, Instr.splits])
  | reallocateBlock size alloc =>
    simp only [Call.prog]
    split
    · rename_i i hv hi
      exact .before (l := [.lock (.desc i), check_clients i]) (List.suffix_refl _) hv hi
    · exact .plain fun i hi => by cases hi
  | serialize msg =>
    simp only [Call.prog]
    split
    · exact .plain (by simp [serialize, check_clients, register_global_client,
        unregister_global_client, Instr.splits])
    · exact .plain fun i hi => by cases hi
  | wait_data r =>
    simp only [Call.prog]
    split
    · exact .plain (by simp [wait_data, wait_data_and_register_client, register_global_client,
        unregister_global_client, unregister_client, Instr.splits])
    · exact .plain fun i hi => by cases hi
  | resetBlock =>
    simp only [Call.prog]
    split
    · exact .plain (by simp [resetBlock, globally, check_clients, check_global_clients,
        Instr.splits])
    · exact .plain fun i hi => by cases hi

/-- After a step with the label `l` the table is `t`, and the party has the program `k` and the
handle `g`: the call of the label took effect, if there is one. -/
def Lands (l : Option Call) (s : Shm) (h : ShmHandle) (t : Shm) (k : List Instr)
    (g : ShmHandle) : Prop :=
  match l with
  | none => t.seen = s.seen ∧ Phase t k h g
  | some c => t = (c.commit s h).1 ∧ Phase t k (c.commit s h).2 g

/-- A check lets the party go on, or makes it wait. -/
theorem lands_check {m : Mutex} (hx : x.status = .ready) (hprog : x.prog = .check m :: k)
    (hp : Phase r.shm x.prog h x.handle) (hk : Phase r.shm k h x.handle) :
    Lands (x.commits r.shm) r.shm h (Instr.effect x k r (.check m)).shared.shm
      (Instr.effect x k r (.check m)).self.prog (Instr.effect x k r (.check m)).self.handle := by
  have hlabel : x.commits r.shm = none := by simp only [Party.commits, hx, hprog, Instr.call]
  rw [hlabel]
  simp only [Instr.effect]
  split_ifs
  · exact ⟨rfl, hp⟩
  · exact ⟨rfl, hk⟩

/-- An instruction that belongs to no `reallocateBlock`. -/
theorem lands_plain {ins : Instr} (hx : x.status = .ready) (hprog : x.prog = ins :: k)
    (hok : x.Ok) (hk : ∀ i ∈ x.prog, i.splits = false) :
    Lands (x.commits r.shm) r.shm x.handle (ins.effect x k r).shared.shm
      (ins.effect x k r).self.prog (ins.effect x k r).self.handle := by
  have hpre : ins.Pre x.pos x.handle.slot := by
    have hwf := hok.ready hx
    rw [hprog] at hwf
    exact hwf.1
  have hrest : ∀ i ∈ k, i.splits = false := fun i hi => hk i (hprog ▸ List.mem_cons_of_mem _ hi)
  have hhead : ins.splits = false := hk ins (hprog ▸ List.mem_cons_self)
  have hlabel : x.commits r.shm = ins.call := by
    cases ins with
    | ifLarger => cases hhead
    | _ => simp only [Party.commits, hx, hprog]
  by_cases hcheck : ∃ m, ins = .check m
  · obtain ⟨m, rfl⟩ := hcheck
    exact lands_check hx hprog (.plain hk) (.plain hrest)
  rw [hlabel]
  cases ins with
  | check m => exact absurd ⟨m, rfl⟩ hcheck
  | lock m | unlock m | signal_data i => exact ⟨rfl, .plain hrest⟩
  | timed_wait i => exact ⟨rfl, .plain hk⟩
  | register m | unregister m => exact ⟨Shm.seen_addClients .., .plain hrest⟩
  | ifStale i => cases hhead
  | ifLarger i size alloc => cases hhead
  | write i msg =>
    have hcommit : (Call.serialize msg).commit r.shm x.handle
        = (r.shm.serialize i x.handle msg.write).2 := by
      simp only [Call.commit, Call.whole, hpre.2]
    simp only [Instr.effect, Instr.call, Lands, hcommit]
    split_ifs
    · exact ⟨rfl, .plain hrest⟩
    · exact ⟨rfl, .plain (by simp [Party.goto, Instr.splits])⟩
  | read i w =>
    have hcommit : (Call.wait_data w).commit r.shm x.handle
        = (r.shm, (r.shm.deserialize i x.handle w).2) := by
      simp only [Call.commit, hpre.2, Shm.deserialize_handle]
    simp only [Instr.effect, Instr.call, Lands, hcommit]
    split_ifs
    · exact ⟨rfl, .plain hrest⟩
    · exact ⟨rfl, .plain fun i hi => by cases hi⟩
  | body b =>
    cases b with
    | findHandle name | allocateBlock name size alloc => exact ⟨rfl, .plain hrest⟩
    | resetAllBlocks =>
      simp only [Instr.effect, Instr.call, Lands, Body.run, Call.commit, Call.whole]
      exact ⟨trivial, .plain hrest⟩
    | resetBlock i =>
      have hcommit : Call.resetBlock.commit r.shm x.handle = r.shm.resetBlock i x.handle := by
        simp only [Call.commit, Call.whole, hpre.2.2 i rfl]
      simp only [Instr.effect, Instr.call, Lands, hcommit, Body.run]
      exact ⟨trivial, .plain hrest⟩
    | relookup i | grow i size alloc => cases hhead

theorem reallocateBlock_commit (size : UInt32) (alloc : Bool) (hv : h.is_valid = true)
    (hi : h.slot = some i) : (Call.reallocateBlock size alloc).commit s h
      = s.reallocateSlot i h size.toNat alloc := by
  simp only [Call.commit, Call.whole, Shm.reallocateBlock, hv, hi]

/-- **One instruction.** It is nothing to the table, or the call takes effect with it. -/
theorem lands_instr {ins : Instr} (hx : x.status = .ready) (hprog : x.prog = ins :: k)
    (hok : x.Ok) (hp : Phase r.shm x.prog h x.handle) :
    Lands (x.commits r.shm) r.shm h (ins.effect x k r).shared.shm (ins.effect x k r).self.prog
      (ins.effect x k r).self.handle := by
  obtain ⟨prog, status, v, g, log⟩ := x
  cases hx
  dsimp only at hprog hp
  cases hp with
  | plain hk => exact lands_plain rfl hprog hok hk
  | before hl hv hi =>
    rename_i i size alloc l
    rcases suffix_pair hl with rfl | rfl | rfl
    · cases hprog
      exact ⟨rfl, .before (l := [check_clients i]) (List.suffix_cons _ _) hv hi⟩
    · cases hprog
      exact lands_check rfl rfl (.before (l := [check_clients i]) hl hv hi)
        (.before (l := []) List.nil_suffix hv hi)
    · cases hprog
      show Lands none _ _ _ _ _
      simp only [Instr.effect]
      split_ifs with hs
      · exact ⟨rfl, .stale (l := [.lock .global, check_global_clients]) (List.suffix_refl _) hv hi hs⟩
      · have hsame : r.shm.refresh i h = h := if_neg hs
        have hfresh : Phase r.shm ([] ++ [.ifLarger i size alloc, .unlock (.desc i)]) h
            (r.shm.refresh i h) := .fresh List.nil_suffix hv hi
        rw [hsame] at hfresh
        exact ⟨rfl, hfresh⟩
  | stale hl hv hi hs =>
    rename_i i size alloc l
    rcases suffix_pair hl with rfl | rfl | rfl
    · cases hprog
      exact ⟨rfl, .stale (l := [check_global_clients]) (List.suffix_cons _ _) hv hi hs⟩
    · cases hprog
      exact lands_check rfl rfl (.stale (l := [check_global_clients]) hl hv hi hs)
        (.stale (l := []) List.nil_suffix hv hi hs)
    · cases hprog
      have hlook : r.shm.refresh i h = r.shm.relookup i h := if_pos hs
      have hfresh : Phase r.shm
          ([.unlock .global] ++ [.ifLarger i size alloc, .unlock (.desc i)]) h
          (r.shm.refresh i h) := .fresh (List.suffix_refl _) hv hi
      rw [hlook] at hfresh
      exact ⟨rfl, hfresh⟩
  | fresh hl hv hi =>
    rename_i i size alloc l
    rcases suffix_single hl with rfl | rfl
    · cases hprog
      exact ⟨rfl, .fresh (l := []) List.nil_suffix hv hi⟩
    · cases hprog
      by_cases hgt : size.toNat > (r.shm.descriptors i).allocated_
      · simp only [List.nil_append, Party.commits, Instr.effect, if_pos hgt]
        exact ⟨rfl, .larger (l := [.lock .global, check_global_clients]) (List.suffix_refl _) hv hi
          hgt⟩
      · have hcommit := reallocateBlock_commit (s := r.shm) size alloc hv hi
        rw [Shm.reallocateSlot, if_neg hgt] at hcommit
        simp only [List.nil_append, Party.commits, Instr.effect, if_neg hgt, Lands, hcommit]
        exact ⟨trivial, .plain (by simp [Party.goto, Instr.splits])⟩
  | larger hl hv hi hlt =>
    rename_i i size alloc l
    rcases suffix_pair hl with rfl | rfl | rfl
    · cases hprog
      exact ⟨rfl, .larger (l := [check_global_clients]) (List.suffix_cons _ _) hv hi hlt⟩
    · cases hprog
      exact lands_check rfl rfl (.larger (l := [check_global_clients]) hl hv hi hlt)
        (.larger (l := []) List.nil_suffix hv hi hlt)
    · cases hprog
      have hcommit := reallocateBlock_commit (s := r.shm) size alloc hv hi
      rw [Shm.reallocateSlot, if_pos hlt] at hcommit
      show Lands (some _) _ _ _ _ _
      simp only [Lands, hcommit, Instr.effect, Body.run]
      exact ⟨trivial, .plain (by simp [Party.goto, Instr.splits])⟩

/-- The call that takes effect with an act. -/
def Party.label (x : Party) (s : Shm) : Act → Option Call
  | .go => x.commits s
  | .call _ | .timeout => none

/-- A party in the middle of a call, or in none, that it began with the handle `h`. What has timed
out is no `reallocateBlock`. -/
structure Tracks (s : Shm) (x : Party) (h : ShmHandle) : Prop where
  phase : Phase s x.prog h x.handle
  timedOut : ∀ i, x.status = .timedOut i → amid x.prog = none

/-- What waits on a condition is at no point at which `reallocateBlock` goes one way or another. -/
theorem Phase.resume {ins : Instr} {n : Cond} (hp : Phase s (ins :: k) h g)
    (hw : ins.waitsOn = some n) : Phase s k h g := by
  generalize hprog : ins :: k = prog at hp
  cases hp with
  | plain hk =>
    subst hprog
    exact .plain fun i hi => hk i (List.mem_cons_of_mem _ hi)
  | before hl hv hi =>
    rcases suffix_pair hl with rfl | rfl | rfl
    · cases hprog
      cases hw
    · cases hprog
      exact .before (l := []) List.nil_suffix hv hi
    · cases hprog
      cases hw
  | stale hl hv hi hs =>
    rcases suffix_pair hl with rfl | rfl | rfl
    · cases hprog
      cases hw
    · cases hprog
      exact .stale (l := []) List.nil_suffix hv hi hs
    · cases hprog
      cases hw
  | fresh hl =>
    rcases suffix_single hl with rfl | rfl
    · cases hprog
      cases hw
    · cases hprog
      cases hw
  | larger hl hv hi hlt =>
    rcases suffix_pair hl with rfl | rfl | rfl
    · cases hprog
      cases hw
    · cases hprog
      exact .larger (l := []) List.nil_suffix hv hi hlt
    · cases hprog
      cases hw

/-- Who waits for data, or reads it, is in no `reallocateBlock`. -/
theorem Phase.amid_wait_data {ins : Instr} (hp : Phase s (ins :: k) h g)
    (hi : (∃ j, ins = .timed_wait j) ∨ ∃ j w, ins = .read j w) : amid (ins :: k) = none := by
  generalize hprog : ins :: k = prog at hp
  rcases hi with ⟨j, rfl⟩ | ⟨j, w, rfl⟩ <;> cases hp with
  | plain hk => exact amid_plain hk
  | before hl | stale hl | larger hl => rcases suffix_pair hl with rfl | rfl | rfl <;> cases hprog
  | fresh hl => rcases suffix_single hl with rfl | rfl <;> cases hprog

/-- In the middle of `reallocateBlock` one waits for global clients only. -/
theorem Phase.waits_global {ins : Instr} {n : Cond} (hp : Phase s (ins :: k) h g)
    (hw : ins.waitsOn = some n) (hk : amid (ins :: k) = some i) : n = .clients .global := by
  generalize hprog : ins :: k = prog at hp hk
  cases hp with
  | plain hs => cases hk.symm.trans (amid_plain hs)
  | before hl => rcases suffix_pair hl with rfl | rfl | rfl <;> cases hk
  | stale hl | larger hl =>
    rcases suffix_pair hl with rfl | rfl | rfl <;> cases hprog <;> cases hw
    rfl
  | fresh hl => rcases suffix_single hl with rfl | rfl <;> cases hprog <;> cases hw

/-- In the middle of `reallocateBlock` the mutex of the slot is held. -/
theorem Phase.held {v : Position} {slot : Option Slot} (hp : Phase s k h g) (hwf : Wf v slot k)
    (hk : amid k = some i) : v.desc = some i ∧ slot = some i := by
  cases hp with
  | plain hs => cases hk.symm.trans (amid_plain hs)
  | before hl => rcases suffix_pair hl with rfl | rfl | rfl <;> cases hk
  | stale hl =>
    rcases suffix_pair hl with rfl | rfl | rfl <;> cases hk
    · exact ⟨congrArg Position.desc hwf.keep.keep.keep.keep.1.1, hwf.keep.keep.1.2.2 i rfl⟩
    · exact ⟨congrArg Position.desc hwf.keep.keep.keep.1.1, hwf.keep.1.2.2 i rfl⟩
    · exact ⟨congrArg Position.desc hwf.keep.keep.1.1, hwf.1.2.2 i rfl⟩
  | fresh hl =>
    rcases suffix_single hl with rfl | rfl <;> cases hk
    · exact ⟨congrArg Position.desc hwf.keep.1.1, hwf.keep.1.2⟩
    · exact ⟨congrArg Position.desc hwf.1.1, hwf.1.2⟩
  | larger hl =>
    rcases suffix_pair hl with rfl | rfl | rfl <;> cases hk
    · exact ⟨hwf.keep.keep.keep.keep.1.1, hwf.keep.keep.1.2.2 i rfl⟩
    · exact ⟨hwf.keep.keep.keep.1.1, hwf.keep.1.2.2 i rfl⟩
    · exact ⟨hwf.keep.keep.1.1, hwf.1.2.2 i rfl⟩

theorem Tracks.held (hx : Tracks s x h) (hok : x.Ok) (hk : amid x.prog = some i) :
    x.pos.desc = some i ∧ x.handle.slot = some i := by
  cases hs : x.status with
  | ready => exact hx.phase.held (hok.ready hs) hk
  | timedOut j => cases hk.symm.trans (hx.timedOut j hs)
  | waiting n | woken n =>
    rw [Party.Ok, hs] at hok
    obtain ⟨⟨ins, l, hprog, hw⟩, -, hwf⟩ := hok
    obtain ⟨hdesc, hslot⟩ := hx.phase.held hwf hk
    have hn : n = .clients .global := by
      have hphase := hx.phase
      rw [hprog] at hphase hk
      exact hphase.waits_global hw hk
    subst hn
    exact ⟨hdesc, hslot⟩

theorem Instr.status_ne (hx : x.status = .ready) (ins : Instr) (i : Slot) :
    (ins.effect x k r).self.status ≠ .timedOut i := by
  cases ins with
  | check m | ifStale j | ifLarger j size alloc | write j msg | read j w =>
    simp only [Instr.effect]
    split_ifs <;> simp [Party.goto, Party.suspend, hx]
  | _ => simp [Instr.effect, Party.goto, Party.suspend, hx]

/-- **One step of a party.** It is nothing to the table, or its call takes effect with it. -/
theorem lands_effect (hok : x.Ok) (hx : Tracks r.shm x h) (he : x.effect r a = some e) :
    Lands (x.label r.shm a) r.shm h e.shared.shm e.self.prog e.self.handle ∧
      ∀ i, e.self.status = .timedOut i → x.label r.shm a = none ∧ amid e.self.prog = none := by
  cases a with
  | call c =>
    simp only [Party.effect] at he
    split at he
    · rename_i hready hprog
      cases he
      have hsame : x.handle = h := hx.phase.handle (by rw [hprog]; rfl)
      refine ⟨⟨rfl, ?_⟩, fun i hi => by cases hready.symm.trans hi⟩
      rw [← hsame]
      exact phase_prog c _ _
    · cases he
  | go =>
    simp only [Party.effect] at he
    split at he
    · rename_i ins k hready hprog
      cases he
      exact ⟨lands_instr hready hprog hok hx.phase,
        fun i hi => absurd hi (Instr.status_ne hready ins i)⟩
    · cases he
    · cases he
    · rename_i n hwoken
      cases he
      obtain ⟨⟨ins, k, hprog, hw, -⟩, -⟩ := hok.waiting (.inr hwoken)
      have hphase := hx.phase
      rw [hprog] at hphase
      have hlabel : x.label r.shm .go = none := by
        simp only [Party.label, Party.commits, hwoken]
      rw [hlabel]
      simp only [Party.resume, hprog]
      exact ⟨⟨rfl, hphase.resume hw⟩, fun i hi => by cases hi⟩
    · rename_i i htime
      cases he
      have hlabel : x.label r.shm .go = none := by
        simp only [Party.label, Party.commits, htime]
      rw [hlabel]
      refine ⟨⟨rfl, ?_⟩, fun j hj => by cases hj⟩
      rw [← hx.phase.handle (hx.timedOut i htime)]
      exact .plain (by simp [Party.goto, Instr.splits])
  | timeout =>
    simp only [Party.effect] at he
    split at he
    · rename_i j hwaits
      cases he
      obtain ⟨⟨ins, k, hprog, hw, -⟩, -⟩ := hok.waiting (.inl hwaits)
      refine ⟨⟨rfl, hx.phase⟩, fun i hi => ⟨rfl, ?_⟩⟩
      cases ins with
      | timed_wait l =>
        have hphase := hx.phase
        rw [hprog] at hphase
        show amid x.prog = none
        rw [hprog]
        exact hphase.amid_wait_data (.inl ⟨l, rfl⟩)
      | _ => cases hw
    · cases he

end Phase

end Sync

end MessageTransport
