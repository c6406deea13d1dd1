import MessageTransport.Sharedmem.Table

/-!
# The operations as changes of one slot

Each whole operation on a good table is one of the changes of `Table`:

* `allocateBlock` resizes or renews the topic's slot, occupies a free one, or does nothing when the
  table is full;
* `reallocateBlock` resizes, renews or resets the slot of its handle, whoever owns that slot;
* `serialize` changes bytes only, and no block's size (`setBytes_shape`);
* `resetAllBlocks` resets one active slot after the other.
-/

namespace MessageTransport

open Bytes

/-! ### Writing bytes -/

/-- What is left of an object when its bytes are forgotten: whether it is the manager, its size. -/
def Obj.shape : Obj → Bool × ℕ
  | .manager size => (true, size)
  | .bytes data => (false, data.length)

namespace Segment

variable (g : Segment) (p : Ptr) (data : List UInt8)

@[simp] theorem setBytes_named : (g.setBytes p data).named = g.named := by
  unfold setBytes
  split
  · split <;> rfl
  · rfl

@[simp] theorem setBytes_next : (g.setBytes p data).next = g.next := by
  unfold setBytes
  split
  · split <;> rfl
  · rfl

/-- Writing through a pointer changes no object's kind or size. -/
theorem setBytes_shape (n : Name) :
    ((g.setBytes p data).lookup n).map Obj.shape = (g.lookup n).map Obj.shape := by
  unfold setBytes
  split
  · rename_i a
    split
    · rename_i old ho
      cases hn : g.named n with
      | none => simp [ObjectStore.lookup, ObjectStore.store, hn]
      | some b =>
        rw [ObjectStore.lookup_eq (g := g.store a _) (n := n) (a := b) hn,
          ObjectStore.lookup_eq hn]
        by_cases hb : b = a
        · subst hb
          simp only [ObjectStore.store, Function.update_self, ho, Option.map_some, Obj.shape]
          rw [length_overwrite (by simp)]
        · simp only [ObjectStore.store, Function.update_of_ne hb]
    · rfl
  · rfl

theorem setBytes_object_ne {a : ℕ} (h : p ≠ some a) :
    (g.setBytes p data).object a = g.object a := by
  unfold setBytes
  split
  · rename_i b
    split
    · exact Function.update_of_ne (fun hab => h (congrArg some hab.symm)) ..
    · rfl
  · rfl

variable {g} in
theorem setBytes_wf (h : g.WF) : (g.setBytes p data).WF := by
  unfold setBytes
  split
  · split
    · rename_i ho
      obtain ⟨n, hn⟩ := h.home ho
      exact h.store _ hn
    · exact h
  · exact h

end Segment

namespace Shm

variable {m : Shm} {i j : Slot} {n : Name} {name : CString} {size : ℕ}

/-- The table after bytes were written through a pointer. -/
def fill (m : Shm) (p : Ptr) (data : List UInt8) : Shm :=
  { m with segment := m.segment.setBytes p data }

section Shape

variable {g : Segment}

/-- Tables with the same descriptors and objects of the same shapes are good together. -/
theorem RepInv.of_shape (h : m.RepInv)
    (hg : ∀ n, (g.lookup n).map Obj.shape = (m.segment.lookup n).map Obj.shape) :
    RepInv { m with segment := g } where
  distinct := h.distinct
  block i ha := by
    obtain ⟨data, hl, hlen, hs⟩ := h.block i ha
    have hsh := hg (m.key i)
    rw [hl] at hsh
    obtain ⟨o, ho, hos⟩ := Option.map_eq_some_iff.1 hsh
    cases o with
    | manager size => cases hos
    | bytes data' => exact ⟨data', ho, (congrArg Prod.snd hos).trans hlen, hs⟩
  inactive := h.inactive
  owned n data hl := by
    have hsh := hg n
    rw [hl] at hsh
    obtain ⟨o, ho, hos⟩ := Option.map_eq_some_iff.1 hsh.symm
    cases o with
    | manager size => cases hos
    | bytes data' => exact h.owned n data' ho

theorem manager_of_shape
    (hg : ∀ n, (g.lookup n).map Obj.shape = (m.segment.lookup n).map Obj.shape) {n : Name}
    {size : ℕ} (h : m.segment.lookup n = some (.manager size)) :
    g.lookup n = some (.manager size) := by
  have hsh := hg n
  rw [h] at hsh
  obtain ⟨o, ho, hos⟩ := Option.map_eq_some_iff.1 hsh
  cases o with
  | manager size' =>
    cases hos
    exact ho
  | bytes data => cases hos

end Shape

theorem repInv_fill (p : Ptr) (data : List UInt8) : (m.fill p data).RepInv ↔ m.RepInv :=
  ⟨fun h => h.of_shape (g := m.segment) fun _ => (Segment.setBytes_shape ..).symm,
    fun h => h.of_shape fun _ => Segment.setBytes_shape ..⟩

theorem Good.fill (h : m.Good) (p : Ptr) (data : List UInt8) : (m.fill p data).Good where
  toRepInv := (repInv_fill p data).2 h.toRepInv
  wf := Segment.setBytes_wf p data h.wf
  manager := by
    obtain ⟨size, hs⟩ := h.manager
    exact ⟨size, manager_of_shape (fun _ => Segment.setBytes_shape ..) hs⟩
  manager_unique n size hl :=
    h.manager_unique n size (manager_of_shape (m := m.fill p data) (g := m.segment)
      (fun _ => (Segment.setBytes_shape ..).symm) hl)
  dormant := h.dormant
  bound := h.bound

/-- Writing to the block of slot `i` concerns nobody else. -/
theorem Good.frame_fill (h : m.Good) {p : Ptr}
    (hp : p = none ∨ m.active i ∧ p = m.segment.named (m.key i)) (data : List UInt8) :
    Frame m (m.fill p data) i where
  num_clients := rfl
  descriptors _ _ := rfl
  named n _ := by rw [Shm.fill, Segment.setBytes_named]
  object n a hn hna := by
    refine Segment.setBytes_object_ne _ _ _ ?_
    rcases hp with rfl | ⟨ha, rfl⟩
    · simp
    · exact fun hk => h.foreign_ne ha hn (h.wf.inj hna hk)

/-- The bytes of an active topic are as many as its descriptor says. -/
theorem Good.length_bytesAt (h : m.Good) (ha : m.active i) :
    (m.segment.bytesAt (m.segment.named (m.key i))).length = (m.descriptors i).allocated_ := by
  obtain ⟨data, hl, hlen, -⟩ := h.block i ha
  have hb : (m.segment.named (m.key i)).bind m.segment.object = some (.bytes data) := hl
  rw [Segment.bytesAt, hb]
  exact hlen

/-! ### Searching -/

theorem firstSlot_some {p : Slot → Bool} (h : firstSlot p = some i) : p i = true :=
  List.find?_some h

theorem firstSlot_none {p : Slot → Bool} : firstSlot p = none ↔ ∀ i, ¬ p i = true := by
  simp [firstSlot, List.find?_eq_none]

theorem slotOf_some (h : m.slotOf name = some i) : m.Owns i name.key := by
  have := firstSlot_some h
  rw [Bool.and_eq_true, Descriptor.matchName_iff] at this
  exact this

theorem slotOf_none : m.slotOf name = none ↔ ∀ i, m.active i → m.key i ≠ name.key := by
  rw [slotOf, firstSlot_none]
  refine forall_congr' fun i => ?_
  rw [Bool.and_eq_true, Descriptor.matchName_iff, not_and]
  rfl

theorem RepInv.slotOf_eq (h : m.RepInv) (ho : m.Owns i name.key) : m.slotOf name = some i := by
  cases hs : m.slotOf name with
  | none => exact absurd ho.2 (slotOf_none.1 hs i ho.1)
  | some j =>
    obtain ⟨hj, hk⟩ := slotOf_some hs
    rw [h.distinct j i hj ho.1 (hk.trans ho.2.symm)]

theorem freeSlot_some (h : m.freeSlot = some i) : ¬ m.active i := by
  simpa using firstSlot_some h

theorem freeSlot_none : m.freeSlot = none ↔ ∀ i, m.active i := by
  rw [freeSlot, firstSlot_none]
  simp

/-! ### The operations -/

theorem recordSize_fits {d : Descriptor} (h : size ≤ d.allocated_) {alloc : ℕ}
    (ha : alloc = 0 ∨ alloc = d.allocated_) : d.recordSize size alloc = { d with size_ := size } := by
  have : ¬ size > d.allocated_ := by omega
  rcases ha with rfl | rfl <;> simp [Descriptor.recordSize, this]

theorem findHandle_some (h : m.slotOf name = some i) : m.findHandle name
    = .of i (m.descriptors i).resize_count_ (m.segment.named (m.key i)) := by
  rw [findHandle, h]
  rfl

theorem findHandle_none (h : m.slotOf name = none) : m.findHandle name = .null := by
  rw [findHandle, h]

/-- `allocateBlock` finds a block that is large enough. -/
theorem Good.allocateBlock_fits (h : m.Good) (ho : m.Owns i name.key)
    (hs : size ≤ (m.descriptors i).allocated_) (alloc : Bool) :
    m.allocateBlock name size alloc = (m.resize i size,
      some (.of i (m.descriptors i).resize_count_ (m.segment.named (m.key i)))) := by
  have hf := h.find_size ho.1
  have hr := recordSize_fits hs (.inr rfl)
  rw [allocateBlock, h.slotOf_eq ho]
  simp only [reconnect, hf, gt_iff_lt, not_lt.2 hs, if_false, u32_of_lt (h.bound i), hr]
  rfl

/-- `allocateBlock` finds a block that is too small. -/
theorem Good.allocateBlock_larger (h : m.Good) (ho : m.Owns i name.key)
    (hs : (m.descriptors i).allocated_ < size) :
    m.allocateBlock name size true = (m.renew i size,
      some (.of i (u32 ((m.descriptors i).resize_count_ + 1)) (some m.segment.next))) := by
  have hf := h.find_size ho.1
  have hc := resize_count_recordSize hs size
  rw [allocateBlock, h.slotOf_eq ho]
  simp only [reconnect, hf, gt_iff_lt, hs, if_true, Segment.find_or_construct,
    ObjectStore.destroy_named_self, ObjectStore.destroy_next, hc]
  rfl

theorem allocateBlock_claim (hn : m.slotOf name = none) (hi : m.freeSlot = some i) (alloc : Bool) :
    m.allocateBlock name size alloc = m.claim i name size alloc := by
  rw [allocateBlock, hn]
  simp only [hi]

/-- The descriptor of a slot that is taken does not depend on the block. -/
theorem claim_self (m : Shm) (i : Slot) (name : CString) (size : ℕ) (alloc : Bool) :
    (m.claim i name size alloc).1.descriptors i
      = ((m.descriptors i).allocate name).recordSize size size := by
  unfold claim
  simp only
  split <;> exact setDescriptor_self ..

/-- A slot whose name is already in the directory gets the object that is there. -/
theorem claim_segment_of_named {a : ℕ} (ha : m.segment.named name.key = some a) (alloc : Bool) :
    (m.claim i name size alloc).1.segment = m.segment := by
  simp only [claim, key, setDescriptor_self, Descriptor.key_recordSize, Descriptor.key_allocate,
    setDescriptor_segment, Segment.find_or_construct, ha]

/-- `allocateBlock` takes a free slot. -/
theorem Good.allocateBlock_free (h : m.Good) (hn : m.slotOf name = none)
    (hi : m.freeSlot = some i) (hm : name.key ≠ managerName) :
    m.allocateBlock name size true = (m.occupy i name size,
      some (.of i (if 0 < size then 1 else 0) (some m.segment.next))) := by
  have hnone := h.named_none hm (slotOf_none.1 hn)
  have hfree := freeSlot_some hi
  have hc : (((m.descriptors i).allocate name).recordSize size size).resize_count_
      = if 0 < size then 1 else 0 := by
    simp only [Descriptor.recordSize, Descriptor.allocate, (h.inactive i hfree).2.2.1,
      h.dormant i hfree]
    rfl
  rw [allocateBlock_claim hn hi]
  simp only [claim, key, setDescriptor_self, Descriptor.key_recordSize,
    Descriptor.key_allocate, setDescriptor_segment, Segment.find_or_construct, hnone, hc, if_true]
  rfl

theorem allocateBlock_full (hn : m.slotOf name = none) (hf : m.freeSlot = none) (alloc : Bool) :
    m.allocateBlock name size alloc = (m, some .null) := by
  rw [allocateBlock, hn]
  simp only [hf]

/-- What `allocateBlock` does. -/
theorem Good.allocateBlock_cases (h : m.Good) (hm : name.key ≠ managerName) (size : ℕ) :
    (∃ i, m.Owns i name.key ∧ size ≤ (m.descriptors i).allocated_ ∧
      m.allocateBlock name size true = (m.resize i size,
        some (.of i (m.descriptors i).resize_count_ (m.segment.named (m.key i))))) ∨
    (∃ i, m.Owns i name.key ∧ (m.descriptors i).allocated_ < size ∧
      m.allocateBlock name size true = (m.renew i size,
        some (.of i (u32 ((m.descriptors i).resize_count_ + 1)) (some m.segment.next)))) ∨
    (∃ i, m.slotOf name = none ∧ m.freeSlot = some i ∧
      m.allocateBlock name size true = (m.occupy i name size,
        some (.of i (if 0 < size then 1 else 0) (some m.segment.next)))) ∨
    (m.slotOf name = none ∧ m.freeSlot = none ∧
      m.allocateBlock name size true = (m, some .null)) := by
  cases hn : m.slotOf name with
  | some i =>
    have ho := slotOf_some hn
    rcases Nat.lt_or_ge (m.descriptors i).allocated_ size with hlt | hfit
    · exact .inr (.inl ⟨i, ho, hlt, h.allocateBlock_larger ho hlt⟩)
    · exact .inl ⟨i, ho, hfit, h.allocateBlock_fits ho hfit true⟩
  | none =>
    cases hf : m.freeSlot with
    | some i => exact .inr (.inr (.inl ⟨i, rfl, rfl, h.allocateBlock_free hn hf hm⟩))
    | none => exact .inr (.inr (.inr ⟨rfl, rfl, allocateBlock_full hn hf true⟩))

section Reallocate

variable {h : ShmHandle} {alloc : Bool}

theorem reallocateSlot_fits (hs : size ≤ (m.descriptors i).allocated_) :
    m.reallocateSlot i h size alloc = (m.resize i size, m.refresh i h) := by
  simp only [reallocateSlot, gt_iff_lt, not_lt.2 hs, if_false, recordSize_fits hs (.inl rfl)]
  rfl

theorem reallocateSlot_larger (hs : (m.descriptors i).allocated_ < size) :
    m.reallocateSlot i h size true = (m.renew i size,
      { m.refresh i h with ptr := some m.segment.next,
                           resize_count := u32 ((m.descriptors i).resize_count_ + 1) }) := by
  have hc := resize_count_recordSize hs size
  simp only [reallocateSlot, gt_iff_lt, hs, if_true, grow, Segment.find_or_construct,
    ObjectStore.destroy_named_self, ObjectStore.destroy_next, hc]
  rfl

theorem reallocateSlot_fails (hs : (m.descriptors i).allocated_ < size) :
    m.reallocateSlot i h size false = (m.resetSlot i, .null) := by
  simp only [reallocateSlot, gt_iff_lt, hs, if_true, grow, Segment.find_or_construct,
    ObjectStore.destroy_named_self, Bool.false_eq_true, if_false]
  rfl

end Reallocate

@[simp] theorem refresh_handle (h : ShmHandle) : (m.refresh i h).handle = h.handle := by
  unfold refresh
  split <;> rfl

@[simp] theorem refresh_slot (h : ShmHandle) : (m.refresh i h).slot = h.slot := by
  simp [ShmHandle.slot]

/-- `serialize` changes bytes only. -/
theorem serialize_shm (h : ShmHandle) (w : StreamM Unit) :
    ∃ data, (m.serialize i h w).2.1 = m.fill (m.refresh i h).ptr data := by
  unfold serialize
  simp only
  split <;> exact ⟨_, rfl⟩

theorem serialize_fault {h : ShmHandle} {w : StreamM Unit} {e : Fault}
    (he : (m.serialize i h w).1 = some e) :
    ∃ out, w.run (Stream.open_ (m.segment.bytesAt (m.refresh i h).ptr) (m.descriptors i).size_)
      = .error e out := by
  unfold serialize at he
  simp only at he
  split at he
  · cases he
  · rename_i e' out hrun
    cases he
    exact ⟨out, hrun⟩

@[simp] theorem serialize_handle (h : ShmHandle) (w : StreamM Unit) :
    (m.serialize i h w).2.2 = m.refresh i h := by
  unfold serialize
  simp only
  split <;> rfl

@[simp] theorem deserialize_handle {α : Type} (h : ShmHandle) (r : StreamM α) :
    (m.deserialize i h r).2 = m.refresh i h := by
  unfold deserialize
  simp only
  split <;> rfl

/-- What holds before `resetAllBlocks`, and is kept when an active slot is reset, holds after. -/
theorem resetAllBlocks_induction {P : Shm → Prop} (hm : P m)
    (hstep : ∀ m i, P m → m.active i → P (m.resetSlot i)) : P m.resetAllBlocks := by
  unfold resetAllBlocks
  generalize List.finRange numBlock = l
  induction l generalizing m with
  | nil => exact hm
  | cons i l ih =>
    rw [List.foldl_cons]
    split_ifs with ha
    · exact ih (hstep m i hm ha)
    · exact ih hm

theorem Good.resetAllBlocks (h : m.Good) : m.resetAllBlocks.Good :=
  resetAllBlocks_induction h fun _ _ hm ha => hm.resetSlot fun hi => absurd ha hi

end Shm

end MessageTransport
