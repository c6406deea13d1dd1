import MessageTransport.Sharedmem.RepInv

/-!
# Contracts of single operations

* `reallocateBlock_contract`: what `reallocateBlock` leaves behind in the slot of its handle, in the
  handle and in the rest of the segment, when it succeeds and when it fails;
* `atomic_iff`: when an `allocateBlock` that is left by `bad_alloc` has changed nothing.

Both are about any table in which they make sense, reached by whatever operations.
-/

namespace MessageTransport

namespace Shm

variable {m m' : Shm} {i j : Slot} {n : Name} {name : CString} {size : ℕ} {alloc : Bool}

/-! ### `reallocateBlock` -/

/-- The tables `reallocateBlock` is made for: every slot in use has a name and a block of its own,
and has not been resized more often than its block has bytes. -/
structure Sized (m : Shm) : Prop where
  wf : m.segment.WF
  distinct : ∀ i j, m.active i → m.active j → m.key i = m.key j → i = j
  block : ∀ i, m.active i → ∃ data, m.segment.lookup (m.key i) = some (.bytes data) ∧
    data.length = (m.descriptors i).allocated_
  size_le : ∀ i, m.active i → (m.descriptors i).size_ ≤ (m.descriptors i).allocated_
  count_le : ∀ i, m.active i → (m.descriptors i).resize_count_ ≤ (m.descriptors i).allocated_

/-- A handle from which `reallocateBlock` finds the block of slot `i`: its pointer is that block, or
its count tells that it is stale. -/
def Tells (m : Shm) (i : Slot) (h : ShmHandle) : Prop :=
  h.ptr = m.segment.named (m.key i) ∨ h.resize_count ≠ (m.descriptors i).resize_count_

/-- Every other descriptor and every other block is as before. -/
structure Spared (m m' : Shm) (i : Slot) : Prop where
  num_clients : m'.num_clients = m.num_clients
  descriptors : ∀ j, j ≠ i → m'.descriptors j = m.descriptors j
  named : ∀ n, n ≠ m.key i → m'.segment.named n = m.segment.named n
  lookup : ∀ n, n ≠ m.key i → m'.segment.lookup n = m.segment.lookup n

/-- Slot `i` and the handle `h` after a `reallocateBlock` to `size` bytes that succeeded. -/
structure Resized (m m' : Shm) (i : Slot) (size : ℕ) (h : ShmHandle) : Prop where
  owns : m'.Owns i (m.key i)
  size_eq : (m'.descriptors i).size_ = size
  allocated : (m'.descriptors i).allocated_ = max (m.descriptors i).allocated_ size
  block : ∃ data, m'.segment.lookup (m.key i) = some (.bytes data) ∧
    data.length = (m'.descriptors i).allocated_
  valid : h.is_valid = true
  slot : h.slot = some i
  current : h.resize_count = (m'.descriptors i).resize_count_
  ptr : h.ptr = m'.segment.named (m.key i)
  /-- The count is one more exactly when the block is another one. -/
  count : (m'.segment.named (m.key i) = m.segment.named (m.key i) ∧
      (m'.descriptors i).resize_count_ = (m.descriptors i).resize_count_) ∨
    (m'.segment.named (m.key i) ≠ m.segment.named (m.key i) ∧
      (m'.descriptors i).resize_count_ = (m.descriptors i).resize_count_ + 1)
  count_le : (m'.descriptors i).resize_count_ ≤ (m'.descriptors i).allocated_
  /-- A block that is large enough is kept. -/
  kept : size ≤ (m.descriptors i).allocated_ →
    m'.segment.named (m.key i) = m.segment.named (m.key i) ∧
      m'.segment.lookup (m.key i) = m.segment.lookup (m.key i)

/-- Slot `i` and the handle `h` after a `reallocateBlock` that failed. -/
structure Dropped (m m' : Shm) (i : Slot) (h : ShmHandle) : Prop where
  inactive : ¬ m'.active i
  block : m'.segment.named (m.key i) = none
  invalid : h.is_valid = false

theorem Sized.named_key (hm : m.Sized) (ha : m.active i) :
    ∃ a, m.segment.named (m.key i) = some a := by
  obtain ⟨data, hl, -⟩ := hm.block i ha
  rw [← Option.ne_none_iff_exists', ne_eq, ← hm.wf.lookup_none_iff, hl]
  exact Option.some_ne_none _

/-- After the first test of `reallocateBlock` the handle is current. -/
theorem Tells.refresh_ptr {h : ShmHandle} (hp : m.Tells i h) :
    (m.refresh i h).ptr = m.segment.named (m.key i) := by
  by_cases hc : h.resize_count = (m.descriptors i).resize_count_
  · rw [refresh_of_eq hc]
    exact hp.resolve_right (not_not.2 hc)
  · rw [refresh_of_ne hc]
    rfl

theorem Sized.spared_renew (hm : m.Sized) : Spared m (m.renew i size) i where
  num_clients := rfl
  descriptors _ := renew_ne
  named n hn := by
    rw [renew_segment, ObjectStore.construct_named_ne _ _ hn, ObjectStore.destroy_named_ne _ hn]
  lookup n hn := by
    rw [renew_segment, (hm.wf.destroy _).construct_lookup_ne _ hn, hm.wf.destroy_lookup_ne hn]

theorem Sized.spared_resetSlot (hm : m.Sized) : Spared m (m.resetSlot i) i where
  num_clients := rfl
  descriptors _ := resetSlot_ne
  named n hn := by rw [resetSlot_segment, ObjectStore.destroy_named_ne _ hn]
  lookup n hn := by rw [resetSlot_segment, hm.wf.destroy_lookup_ne hn]

/-- The block is large enough. -/
theorem Sized.resized_resize (hm : m.Sized) (ha : m.active i) {h : ShmHandle}
    (hs : h.slot = some i) (hp : m.Tells i h) (hfit : size ≤ (m.descriptors i).allocated_) :
    Resized m (m.resize i size) i size (m.refresh i h) where
  owns := owns_resize.2 ⟨ha, rfl⟩
  size_eq := by rw [resize_self]
  allocated := by rw [resize_self, max_eq_left hfit]
  block := by
    rw [resize_self]
    exact hm.block i ha
  valid := by
    obtain ⟨a, hna⟩ := hm.named_key ha
    rw [ShmHandle.is_valid, hp.refresh_ptr, hna]
    rfl
  slot := (refresh_slot h).trans hs
  current := by rw [refresh_resize_count, resize_self]
  ptr := hp.refresh_ptr
  count := .inl ⟨rfl, by rw [resize_self]⟩
  count_le := by
    rw [resize_self]
    exact hm.count_le i ha
  kept _ := ⟨rfl, rfl⟩

/-- The block is replaced by a larger one. -/
theorem Sized.resized_renew (hm : m.Sized) (ha : m.active i) {h : ShmHandle}
    (hs : h.slot = some i) (hl : (m.descriptors i).allocated_ < size) (hlt : size < 2 ^ 32) :
    Resized m (m.renew i size) i size
      { m.refresh i h with ptr := some m.segment.next
                           resize_count := u32 ((m.descriptors i).resize_count_ + 1) } := by
  have hc := hm.count_le i ha
  have hcount : ((m.renew i size).descriptors i).resize_count_
      = (m.descriptors i).resize_count_ + 1 := by
    -- the count has not reached the number of bytes, so it does not wrap around
    rw [renew_self, resize_count_recordSize hl, u32_of_lt (by omega)]
  have hal : ((m.renew i size).descriptors i).allocated_ = size := by
    rw [renew_self, allocated_recordSize hl.le]
  have hnew : (m.renew i size).segment.named (m.key i) ≠ m.segment.named (m.key i) := by
    -- the new block lies where nothing was before
    intro hnamed
    rw [renew_named] at hnamed
    exact absurd (hm.wf.fresh hnamed.symm) (lt_irrefl _)
  exact
    { owns := owns_renew.2 ⟨ha, rfl⟩
      size_eq := by rw [renew_self]; rfl
      allocated := by rw [hal, max_eq_right hl.le]
      block := by
        rw [hal]
        exact ⟨_, ObjectStore.construct_lookup_self .., List.length_replicate⟩
      valid := rfl
      slot := (refresh_slot h).trans hs
      current := by rw [hcount, u32_of_lt (by omega)]
      ptr := renew_named.symm
      count := .inr ⟨hnew, hcount⟩
      count_le := by rw [hcount, hal]; omega
      kept := fun hfit => absurd hl (not_lt.2 hfit) }

theorem dropped_resetSlot (m : Shm) (i : Slot) : Dropped m (m.resetSlot i) i .null where
  inactive := by simp [active]
  block := by rw [resetSlot_segment, ObjectStore.destroy_named_self]
  invalid := rfl

/-- A `reallocateBlock` that finds the memory it needs. -/
theorem Sized.resized (hm : m.Sized) {h : ShmHandle} (hs : h.slot = some i) (ha : m.active i)
    (hp : m.Tells i h) (hlt : size < 2 ^ 32)
    (hmem : (m.descriptors i).allocated_ < size → alloc = true) :
    Resized m (m.reallocateSlot i h size alloc).1 i size (m.reallocateSlot i h size alloc).2 := by
  rcases Nat.lt_or_ge (m.descriptors i).allocated_ size with hl | hfit
  · rw [hmem hl, reallocateSlot_larger hl]
    exact hm.resized_renew ha hs hl hlt
  · rw [reallocateSlot_fits hfit]
    exact hm.resized_resize ha hs hp hfit

/-- **Contract of `reallocateBlock`.** On a table of sized slots, through a valid handle to a slot
in use whose block the handle tells: it succeeds unless it asks for a larger block and there is no
memory for it, and in both cases everybody else is spared. -/
theorem reallocateBlock_contract (hm : m.Sized) (h : ShmHandle) (hv : h.is_valid = true)
    (hs : h.slot = some i) (ha : m.active i) (hp : m.Tells i h) (size : UInt32) (alloc : Bool) :
    let r := m.reallocateBlock h size.toNat alloc
    Spared m r.1 i ∧
      if (m.descriptors i).allocated_ < size.toNat ∧ alloc = false then Dropped m r.1 i r.2
      else Resized m r.1 i size.toNat r.2 := by
  simp only [reallocateBlock_valid hv hs]
  split_ifs with hfail
  · obtain ⟨hl, rfl⟩ := hfail
    rw [reallocateSlot_fails hl]
    exact ⟨hm.spared_resetSlot, dropped_resetSlot m i⟩
  · have hmem : (m.descriptors i).allocated_ < size.toNat → alloc = true := by
      simpa using hfail
    refine ⟨?_, hm.resized hs ha hp size.toNat_lt hmem⟩
    rcases Nat.lt_or_ge (m.descriptors i).allocated_ size.toNat with hl | hfit
    · rw [hmem hl, reallocateSlot_larger hl]
      exact hm.spared_renew
    · rw [reallocateSlot_fits hfit]
      exact ⟨rfl, fun _ => resize_ne, fun _ _ => rfl, fun _ _ => rfl⟩

/-- The topic "a" with its first block of 16 bytes, and the handle to it. -/
def newTopic : Shm × ShmHandle :=
  ((init 0).occupy 0 topicA 16, .of 0 1 (some (init 0).segment.next))

theorem sized_newTopic : newTopic.1.Sized := by
  have hg : newTopic.1.Good := (good_init 0).occupy (by decide +kernel) (by decide +kernel)
    (fun j hj => by cases hj) (by norm_num)
  exact
    { wf := hg.wf
      distinct := hg.distinct
      block := fun i ha => by
        obtain ⟨data, hl, hlen, -⟩ := hg.block i ha
        exact ⟨data, hl, hlen⟩
      size_le := fun i ha => (hg.slotOk i).size_le
      count_le := by decide +kernel }

/-- A block that grows from 16 to 32 bytes. -/
theorem reallocateBlock_contract_newTopic :
    let r := newTopic.1.reallocateBlock newTopic.2 32 true
    Spared newTopic.1 r.1 0 ∧ Resized newTopic.1 r.1 0 32 r.2 := by
  have h := reallocateBlock_contract sized_newTopic newTopic.2 rfl (ShmHandle.slot_of 0 1 _)
    (by decide +kernel) (.inl occupy_named.symm) 32 true
  exact ⟨h.1, (if_neg (by decide)).mp h.2⟩

/-! ### Counts over runs -/

/-- No slot has been resized more often than its block has bytes. -/
def Counted (m : Shm) : Prop := ∀ i, (m.descriptors i).resize_count_ ≤ (m.descriptors i).allocated_

theorem Good.sized (hm : m.Good) (hc : m.Counted) : m.Sized where
  wf := hm.wf
  distinct := hm.distinct
  block i ha := by
    obtain ⟨data, hl, hlen, -⟩ := hm.block i ha
    exact ⟨data, hl, hlen⟩
  size_le i ha := (hm.slotOk i).size_le
  count_le i _ := hc i

/-- A change of one slot. -/
theorem Counted.update (hc : m.Counted) (hne : ∀ j, j ≠ i → m'.descriptors j = m.descriptors j)
    (hi : (m'.descriptors i).resize_count_ ≤ (m'.descriptors i).allocated_) : m'.Counted := by
  intro j
  by_cases hj : j = i
  · rwa [hj]
  · rw [hne j hj]
    exact hc j

theorem Counted.resize (hc : m.Counted) : (m.resize i size).Counted :=
  hc.update (fun _ => resize_ne) (by rw [resize_self]; exact hc i)

theorem Counted.renew (hc : m.Counted) (hl : (m.descriptors i).allocated_ < size) :
    (m.renew i size).Counted := by
  refine hc.update (fun _ => renew_ne) ?_
  have hi := hc i
  have hu : u32 ((m.descriptors i).resize_count_ + 1) ≤ _ := Nat.mod_le _ _
  rw [renew_self, allocated_recordSize hl.le, resize_count_recordSize hl]
  omega

theorem Counted.occupy (hc : m.Counted) (hal : (m.descriptors i).allocated_ = 0) :
    (m.occupy i name size).Counted := by
  refine hc.update (fun _ => occupy_ne) ?_
  have hi := hc i
  have hal' : ((m.descriptors i).allocate name).allocated_ = 0 := hal
  rw [occupy_self, allocated_recordSize (by omega)]
  rcases Nat.eq_zero_or_pos size with h0 | hpos
  · have : ¬ size > ((m.descriptors i).allocate name).allocated_ := by omega
    simp only [Descriptor.recordSize, this, if_false]
    exact hi.trans (by omega)
  · have hu : u32 ((m.descriptors i).resize_count_ + 1) ≤ _ := Nat.mod_le _ _
    rw [resize_count_recordSize (by omega)]
    exact hu.trans (by omega)

theorem Counted.resetSlot (hc : m.Counted) : (m.resetSlot i).Counted :=
  hc.update (fun _ => resetSlot_ne) (by rw [resetSlot_self]; exact le_rfl)

theorem Counted.reallocateSlot (hc : m.Counted) (h : ShmHandle) :
    (m.reallocateSlot i h size alloc).1.Counted := by
  rcases Nat.lt_or_ge (m.descriptors i).allocated_ size with hl | hfit
  · cases alloc with
    | true => rw [reallocateSlot_larger hl]; exact hc.renew hl
    | false => rw [reallocateSlot_fails hl]; exact hc.resetSlot
  · rw [reallocateSlot_fits hfit]; exact hc.resize

theorem Counted.allocateBlock (hc : m.Counted) (hm : m.Good) (hp : name.key ≠ managerName) :
    (m.allocateBlock name size true).1.Counted := by
  rcases hm.allocateBlock_cases hp size with
    ⟨i, -, -, heq⟩ | ⟨i, -, hl, heq⟩ | ⟨i, -, hf, heq⟩ | ⟨-, -, heq⟩
  · rw [heq]; exact hc.resize
  · rw [heq]; exact hc.renew hl
  · rw [heq]; exact hc.occupy (hm.inactive i (freeSlot_some hf)).2.2.1
  · rwa [heq]

/-! ### `allocateBlock` -/

/-- The descriptors and the named blocks are the same. -/
structure Unchanged (m m' : Shm) : Prop where
  num_clients : m'.num_clients = m.num_clients
  descriptors : m'.descriptors = m.descriptors
  named : m'.segment.named = m.segment.named
  lookup : ∀ n, m'.segment.lookup n = m.segment.lookup n

/-- If memory runs out, `allocateBlock` has not begun to change anything: it needs no new block, or
the topic has a slot that has lost its block already. -/
def NoHalfway (m : Shm) (name : CString) (size : ℕ) : Prop :=
  match m.slotOf name with
  | some i => size ≤ (m.segment.find (m.key i)).2 ∨ m.segment.named (m.key i) = none
  | none => m.freeSlot = none ∨ m.segment.named name.key ≠ none

theorem Unchanged.refl (m : Shm) : Unchanged m m := ⟨rfl, rfl, rfl, fun _ => rfl⟩

/-- `allocateBlock` on a slot that has the name. -/
theorem reconnect_atomic_iff (i : Slot) :
    ((m.reconnect i size false).2 = none → Unchanged m (m.reconnect i size false).1) ↔
      size ≤ (m.segment.find (m.key i)).2 ∨ m.segment.named (m.key i) = none := by
  rcases Nat.lt_or_ge (m.segment.find (m.key i)).2 size with hl | hfit
  · have heq : m.reconnect i size false
        = ({ m with segment := m.segment.destroy (m.key i) }, none) := by
      simp only [reconnect, gt_iff_lt, hl, if_true, Segment.find_or_construct,
        ObjectStore.destroy_named_self, Bool.false_eq_true, if_false]
    rw [heq]
    constructor
    · intro h
      have hnamed := congrFun (h rfl).named (m.key i)
      exact .inr (hnamed.symm.trans (ObjectStore.destroy_named_self _))
    · rintro (hfit | hnone) -
      · exact absurd hl (not_lt.2 hfit)
      · rw [ObjectStore.destroy_of_none _ hnone]
        exact .refl m
  · refine ⟨fun _ => .inl hfit, fun _ h => ?_⟩
    simp only [reconnect, gt_iff_lt, not_lt.2 hfit, if_false] at h
    cases h

/-- `allocateBlock` on a free slot: the descriptor is written before the block is made. -/
theorem claim_atomic_iff (hi : ¬ m.active i) :
    ((m.claim i name size false).2 = none → Unchanged m (m.claim i name size false).1) ↔
      m.segment.named name.key ≠ none := by
  cases hn : m.segment.named name.key with
  | none =>
    have hfail : (m.claim i name size false).2 = none := by
      simp only [claim, key, setDescriptor_self, Descriptor.key_recordSize,
        Descriptor.key_allocate, setDescriptor_segment, Segment.find_or_construct, hn,
        Bool.false_eq_true, if_false]
    refine ⟨fun h => ?_, fun h => absurd rfl h⟩
    -- the slot has become active
    have hd := congrFun (h hfail).descriptors i
    rw [claim_self] at hd
    exact absurd (congrArg Descriptor.active_ hd.symm) hi
  | some a =>
    refine ⟨fun _ => Option.some_ne_none a, fun _ h => ?_⟩
    simp only [claim, key, setDescriptor_self, Descriptor.key_recordSize,
      Descriptor.key_allocate, setDescriptor_segment, Segment.find_or_construct, hn] at h
    cases h

theorem find_or_construct_true (g : Segment) (n : Name) (size : ℕ) :
    ∃ r, g.find_or_construct n size true = some r := by
  unfold Segment.find_or_construct
  split <;> exact ⟨_, rfl⟩

/-- With enough memory no `bad_alloc` leaves `allocateBlock`. -/
theorem allocateBlock_true (m : Shm) (name : CString) (size : ℕ) :
    (m.allocateBlock name size true).2 ≠ none := by
  unfold allocateBlock
  split
  · rename_i i _
    obtain ⟨r, hr⟩ := find_or_construct_true (m.segment.destroy (m.key i)) (m.key i) size
    simp only [reconnect]
    split_ifs
    · simp [hr]
    · simp
  · split
    · rename_i i _
      simp only [claim]
      obtain ⟨r, hr⟩ := find_or_construct_true m.segment
        ((m.setDescriptor i (((m.descriptors i).allocate name).recordSize size size)).key i) size
      simp [hr]
    · simp

/-- An `allocateBlock` that is left by `bad_alloc` leaves the table and the named blocks as they
were exactly when it did not have to begin. -/
theorem allocateBlock_atomic_iff (m : Shm) (name : CString) (size : ℕ) (alloc : Bool) :
    ((m.allocateBlock name size alloc).2 = none → Unchanged m (m.allocateBlock name size alloc).1) ↔
      (alloc = false → m.NoHalfway name size) := by
  cases alloc with
  | true =>
    exact ⟨fun _ => nofun, fun _ h => absurd h (allocateBlock_true m name size)⟩
  | false =>
    simp only [forall_const, NoHalfway]
    cases hs : m.slotOf name with
    | some i =>
      rw [allocateBlock, hs]
      exact reconnect_atomic_iff i
    | none =>
      cases hf : m.freeSlot with
      | some i =>
        rw [allocateBlock_claim hs hf, claim_atomic_iff (freeSlot_some hf)]
        simp
      | none =>
        rw [allocateBlock_full hs hf]
        simp

end Shm

namespace World

variable {κ : Type*} [DecidableEq κ] {w : World κ}

theorem counted_step {op : Op κ} (ho : op.Ordinary) (hm : w.shm.Good) (hc : w.shm.Counted) :
    (w.step op).shm.Counted := by
  cases op with
  | findHandle k name => exact hc
  | allocateBlock k name size alloc =>
    obtain ⟨hp, rfl⟩ := ho
    rw [step_allocateBlock_shm]
    exact hc.allocateBlock hm hp.key_ne
  | reallocateBlock k size alloc =>
    rw [step, setHandle_shm, Shm.reallocateBlock]
    split
    · exact hc.reallocateSlot _
    · exact hc
  | publish_msg k msg alloc =>
    rw [step, setHandle_shm]
    cases hv : (w.handle k).is_valid with
    | false => rwa [Shm.publish_msg_invalid hv]
    | true =>
      cases hi : (w.handle k).slot with
      | none => rwa [Shm.publish_msg_no_slot hi]
      | some i =>
        obtain ⟨data, hd⟩ := Shm.publish_msg_shm (m := w.shm) hv hi msg alloc
        rw [hd]
        exact hc.reallocateSlot (w.handle k)
  | read k =>
    simp only [step]
    split <;> exact hc
  | resetBlock k =>
    simp only [step]
    split
    · rw [setHandle_shm, Shm.resetBlock]
      split_ifs
      · exact hc.resetSlot
      · exact hc
    · exact hc
  | resetAllBlocks =>
    simp only [step]
    exact Shm.resetAllBlocks_induction hc fun _ _ h _ => h.resetSlot

/-- Over every sound run the table stays one that `reallocateBlock` is made for: between two resets
of a slot its count cannot wrap around. -/
theorem sized_always (size : ℕ) (ops : List (Op κ)) (hops : ∀ op ∈ ops, op.Ordinary)
    (h : Run.Along step Sound (init size) ops) :
    Run.Always step (fun w => w.shm.Sized) (init size) ops := by
  have hinit : (init size : World κ).shm.Good ∧ (init size : World κ).shm.Counted :=
    ⟨Shm.good_init size, fun _ => le_rfl⟩
  have hstep : ∀ (w : World κ) op, op.Ordinary → (w.shm.Good ∧ w.shm.Counted) → w.Sound op →
      (w.step op).shm.Good ∧ (w.step op).shm.Counted :=
    fun w op ho hi hs => ⟨good_step ho hi.1 hs, counted_step ho hi.1 hi.2⟩
  exact (Run.always_of_along step _ hstep hinit hops h).mono fun w hi => hi.1.sized hi.2

/-- If the call is an `allocateBlock` that is left by `bad_alloc`, then the descriptors and the
named blocks are as before, and so are the handles of all clients. -/
def Atomic (w : World κ) : Op κ → Prop
  | .allocateBlock k name size alloc =>
    (w.shm.allocateBlock name size.toNat alloc).2 = none →
      w.shm.Unchanged (w.step (.allocateBlock k name size alloc)).shm ∧
        (w.step (.allocateBlock k name size alloc)).handle = w.handle
  | _ => True

/-- If the call is an `allocateBlock`, then memory does not run out after it has begun. -/
def Prompt (w : World κ) : Op κ → Prop
  | .allocateBlock _ name size alloc => alloc = false → w.shm.NoHalfway name size.toNat
  | _ => True

omit [DecidableEq κ] in
@[simp] theorem prompt_allocateBlock {w : World κ} {k : κ} {name : CString} {size : UInt32}
    {alloc : Bool} : w.Prompt (.allocateBlock k name size alloc) ↔
      (alloc = false → w.shm.NoHalfway name size.toNat) := Iff.rfl

theorem atomic_iff_prompt (w : World κ) (op : Op κ) : w.Atomic op ↔ w.Prompt op := by
  cases op with
  | allocateBlock k name size alloc =>
    rw [prompt_allocateBlock, ← Shm.allocateBlock_atomic_iff, Atomic, step_allocateBlock_shm]
    refine forall_congr' fun h => and_iff_left ?_
    simp only [step]
    split
    · rename_i heq
      rw [heq] at h
      cases h
    · rfl
  | findHandle _ _ | reallocateBlock _ _ _ | publish_msg _ _ _ | read _ | resetBlock _
  | resetAllBlocks => exact Iff.rfl

/-- **When `allocateBlock` is atomic.** In every run of the block operations, with any names and any
failures: every `allocateBlock` that is left by `bad_alloc` leaves table, blocks and handles as they
were exactly when none of them runs out of memory after it has begun. -/
theorem atomic_iff (size : ℕ) (ops : List (Op κ)) :
    Run.Along step Atomic (init size) ops ↔ Run.Along step Prompt (init size) ops :=
  Run.along_congr step atomic_iff_prompt

/-- `allocateBlock` is not always atomic: without memory for a block, the first topic of a new
segment keeps the slot it was given. -/
theorem not_atomic : ¬ ∀ (size : ℕ) (ops : List (Op Client)),
    Run.Along step Atomic (init size) ops := by
  intro h
  have hone := (h 0 [.allocateBlock .first topicA 16 false]).1 (by decide +kernel)
  have hactive : ((init 0 : World Client).step
      (.allocateBlock .first topicA 16 false)).shm.active 0 := by decide +kernel
  rw [Shm.active, hone.1.descriptors] at hactive
  cases hactive

end World

end MessageTransport
