import MessageTransport.Sharedmem.Block

/-!
# The table and its blocks

What the table stands for, and what the operations do to it.

`Shm.RepInv` relates the descriptors to the blocks of the segment. `Shm.Good` adds what the
operations rely on besides. Every operation changes at most one slot, in one of four ways:

* `resize`: record a new size that fits;
* `renew`: replace the block by a larger one;
* `occupy`: give a free slot to a topic;
* `resetSlot`: destroy the block and free the slot.

Each of them is an instance of `Good.update`, which says when a new descriptor and a new segment
fit together. The operations themselves are then equal to one of the four.
-/

namespace MessageTransport

open Bytes

namespace Shm

/-- Slot `i` is in use. -/
abbrev active (m : Shm) (i : Slot) : Prop := (m.descriptors i).active_ = true

/-- Slot `i` is in use and has the name `n`: it owns the block stored under `n`. -/
def Owns (m : Shm) (i : Slot) (n : Name) : Prop := m.active i ∧ m.key i = n

/-- **The representation invariant.** Active descriptors have different names; the name of each
denotes a block of exactly `allocated_` bytes; inactive descriptors are empty; every byte block has
exactly one owner. -/
structure RepInv (m : Shm) : Prop where
  distinct : ∀ i j, m.active i → m.active j → m.key i = m.key j → i = j
  block : ∀ i, m.active i → ∃ data, m.segment.lookup (m.key i) = some (.bytes data) ∧
    data.length = (m.descriptors i).allocated_ ∧
    (m.descriptors i).size_ ≤ (m.descriptors i).allocated_
  inactive : ∀ i, ¬ m.active i → m.key i = [] ∧ (m.descriptors i).size_ = 0 ∧
    (m.descriptors i).allocated_ = 0 ∧ ∀ n, ¬ m.Owns i n
  owned : ∀ n data, m.segment.lookup n = some (.bytes data) → ∃! i, m.Owns i n

/-- The representation invariant with what the operations rely on besides: the manager object is
there, the counters of free slots are 0, and sizes are those of a `uint32_t`. -/
structure Good (m : Shm) : Prop extends RepInv m where
  wf : m.segment.WF
  manager : ∃ size, m.segment.lookup managerName = some (.manager size)
  manager_unique : ∀ n size, m.segment.lookup n = some (.manager size) → n = managerName
  dormant : ∀ i, ¬ m.active i → (m.descriptors i).resize_count_ = 0
  bound : ∀ i, (m.descriptors i).allocated_ < 2 ^ 32

/-- A descriptor that agrees with the segment. -/
structure SlotOk (g : Segment) (d : Descriptor) : Prop where
  block : d.active_ = true → ∃ data, g.lookup d.key = some (.bytes data) ∧
    data.length = d.allocated_
  free : ¬ d.active_ = true → d.key = [] ∧ d.allocated_ = 0 ∧ d.resize_count_ = 0
  size_le : d.size_ ≤ d.allocated_
  bound : d.allocated_ < 2 ^ 32

section Basic

variable {m : Shm} {i j : Slot} {n : Name}

@[simp] theorem setDescriptor_self (m : Shm) (i : Slot) (d : Descriptor) :
    (m.setDescriptor i d).descriptors i = d := Function.update_self ..

theorem setDescriptor_ne (m : Shm) (d : Descriptor) (h : j ≠ i) :
    (m.setDescriptor i d).descriptors j = m.descriptors j := Function.update_of_ne h ..

@[simp] theorem setDescriptor_segment (m : Shm) (i : Slot) (d : Descriptor) :
    (m.setDescriptor i d).segment = m.segment := rfl

theorem Good.slotOk (h : m.Good) (i : Slot) : SlotOk m.segment (m.descriptors i) where
  block ha := by
    obtain ⟨data, hl, hlen, -⟩ := h.block i ha
    exact ⟨data, hl, hlen⟩
  free ha := ⟨(h.inactive i ha).1, (h.inactive i ha).2.2.1, h.dormant i ha⟩
  size_le := by
    by_cases ha : m.active i
    · exact (h.block i ha).choose_spec.2.2
    · rw [(h.inactive i ha).2.1]
      exact Nat.zero_le _
  bound := h.bound i

/-- A table is good slot by slot, but for what ties the slots and the segment together. -/
theorem Good.of_slotOk (hslot : ∀ i, SlotOk m.segment (m.descriptors i))
    (hdistinct : ∀ i j, m.active i → m.active j → m.key i = m.key j → i = j)
    (howned : ∀ n data, m.segment.lookup n = some (.bytes data) → ∃! i, m.Owns i n)
    (hwf : m.segment.WF) (hman : ∃ size, m.segment.lookup managerName = some (.manager size))
    (huniq : ∀ n size, m.segment.lookup n = some (.manager size) → n = managerName) : m.Good where
  distinct := hdistinct
  block i ha := by
    obtain ⟨data, hl, hlen⟩ := (hslot i).block ha
    exact ⟨data, hl, hlen, (hslot i).size_le⟩
  inactive i ha := by
    obtain ⟨hk, hal, -⟩ := (hslot i).free ha
    have := (hslot i).size_le
    exact ⟨hk, by omega, hal, fun n hn => ha hn.1⟩
  owned := howned
  wf := hwf
  manager := hman
  manager_unique := huniq
  dormant i ha := ((hslot i).free ha).2.2
  bound i := (hslot i).bound

theorem Good.key_ne_manager (h : m.Good) (ha : m.active i) : m.key i ≠ managerName := by
  obtain ⟨data, hl, -⟩ := h.block i ha
  obtain ⟨size, hm⟩ := h.manager
  intro hk
  rw [hk, hm] at hl
  cases hl

/-- A name that is neither the manager's nor an active topic's is free. -/
theorem Good.named_none (h : m.Good) (hm : n ≠ managerName) (hn : ∀ i, m.active i → m.key i ≠ n) :
    m.segment.named n = none := by
  rw [← h.wf.lookup_none_iff]
  cases hl : m.segment.lookup n with
  | none => rfl
  | some o =>
    cases o with
    | manager size => exact absurd (h.manager_unique n size hl) hm
    | bytes data =>
      obtain ⟨i, ⟨ha, hk⟩, -⟩ := h.owned n data hl
      exact absurd hk (hn i ha)

/-- An active topic's block has an address. -/
theorem Good.named_key (h : m.Good) (ha : m.active i) : ∃ a, m.segment.named (m.key i) = some a := by
  obtain ⟨data, hl, -⟩ := h.block i ha
  cases hn : m.segment.named (m.key i) with
  | none =>
    rw [(h.wf.lookup_none_iff).2 hn] at hl
    cases hl
  | some a => exact ⟨a, rfl⟩

theorem Good.find_size (h : m.Good) (ha : m.active i) :
    (m.segment.find (m.key i)).2 = (m.descriptors i).allocated_ := by
  obtain ⟨data, hl, hlen, -⟩ := h.block i ha
  simp [Segment.find, hl, Obj.size, hlen]

/-- A new descriptor in slot `i` and a new segment agree with the rest of the table when the other
topics' blocks are untouched and the old block of the slot is gone. -/
theorem Good.update (h : m.Good) {g : Segment} {d : Descriptor} (hwf : g.WF) (hd : SlotOk g d)
    (hkeep : ∀ n, (m.active i → n ≠ m.key i) → (d.active_ = true → n ≠ d.key) →
      g.lookup n = m.segment.lookup n)
    (hgone : m.active i → (d.active_ = true → m.key i ≠ d.key) → g.lookup (m.key i) = none)
    (hnew : d.active_ = true → d.key ≠ managerName ∧ ∀ j ≠ i, m.active j → m.key j ≠ d.key) :
    ({ m with segment := g }.setDescriptor i d).Good := by
  have hne : ∀ j ≠ i, m.active j → g.lookup (m.key j) = m.segment.lookup (m.key j) :=
    fun j hj ha => hkeep _ (fun hi hk => hj (h.distinct j i ha hi hk))
      (fun hda => (hnew hda).2 j hj ha)
  have hman : g.lookup managerName = m.segment.lookup managerName :=
    hkeep _ (fun hi => (h.key_ne_manager hi).symm) (fun hda => (hnew hda).1.symm)
  -- An object of the new segment is the block of `d`, or it was there before under that name.
  have hback : ∀ n o, g.lookup n = some o →
      (d.active_ = true ∧ n = d.key) ∨
      (m.segment.lookup n = some o ∧ (m.active i → n ≠ m.key i) ∧ (d.active_ = true → n ≠ d.key)) := by
    intro n o hl
    by_cases hdn : d.active_ = true ∧ n = d.key
    · exact .inl hdn
    · have hdn' : d.active_ = true → n ≠ d.key := fun ha hk => hdn ⟨ha, hk⟩
      have hin : m.active i → n ≠ m.key i := by
        rintro hi rfl
        rw [hgone hi hdn'] at hl
        cases hl
      rw [hkeep n hin hdn'] at hl
      exact .inr ⟨hl, hin, hdn'⟩
  refine Good.of_slotOk ?_ ?_ ?_ hwf ?_ ?_
  · intro j
    by_cases hji : j = i
    · subst hji
      rwa [setDescriptor_self]
    · rw [setDescriptor_ne _ _ hji]
      exact { h.slotOk j with
        block := fun ha => by
          obtain ⟨data, hl, hlen⟩ := (h.slotOk j).block ha
          exact ⟨data, (hne j hji ha).trans hl, hlen⟩ }
  · intro j k hj hk hjk
    by_cases hji : j = i <;> by_cases hki : k = i
    · rw [hji, hki]
    · subst hji
      simp only [active, key, setDescriptor_self, setDescriptor_ne _ _ hki] at hj hk hjk
      exact absurd hjk.symm ((hnew hj).2 k hki hk)
    · subst hki
      simp only [active, key, setDescriptor_self, setDescriptor_ne _ _ hji] at hj hk hjk
      exact absurd hjk ((hnew hk).2 j hji hj)
    · simp only [active, key, setDescriptor_ne _ _ hji, setDescriptor_ne _ _ hki] at hj hk hjk
      exact h.distinct j k hj hk hjk
  · intro n data hl
    rcases hback n _ hl with ⟨ha, rfl⟩ | ⟨hl, hin, hdn⟩
    · refine ⟨i, ⟨by simpa [active] using ha, by simp [key]⟩, ?_⟩
      rintro j ⟨hj, hk⟩
      by_contra hji
      simp only [active, key, setDescriptor_ne _ _ hji] at hj hk
      exact (hnew ha).2 j hji hj hk
    · obtain ⟨j, ⟨hj, hk⟩, huniq⟩ := h.owned n data hl
      have hji : j ≠ i := by rintro rfl; exact hin hj hk.symm
      refine ⟨j, ⟨?_, ?_⟩, ?_⟩
      · simpa only [active, setDescriptor_ne _ _ hji] using hj
      · simpa only [key, setDescriptor_ne _ _ hji] using hk
      · rintro l ⟨hla, hlk⟩
        by_cases hli : l = i
        · subst hli
          simp only [active, key, setDescriptor_self] at hla hlk
          exact absurd hlk.symm (hdn hla)
        · simp only [active, key, setDescriptor_ne _ _ hli] at hla hlk
          exact huniq l ⟨hla, hlk⟩
  · obtain ⟨size, hs⟩ := h.manager
    exact ⟨size, hman.trans hs⟩
  · intro n size hl
    rcases hback n _ hl with ⟨ha, rfl⟩ | ⟨hl, -⟩
    · obtain ⟨data, hb, -⟩ := hd.block ha
      cases hb.symm.trans hl
    · exact h.manager_unique n size hl

end Basic

/-! ### The four changes -/

section Changes

/-- Record a size for slot `i` that fits its block. -/
def resize (m : Shm) (i : Slot) (size : ℕ) : Shm :=
  m.setDescriptor i { m.descriptors i with size_ := size }

/-- Replace the block of slot `i` by a larger one. -/
def renew (m : Shm) (i : Slot) (size : ℕ) : Shm :=
  let block := .bytes (List.replicate size 0)
  { m with segment := (m.segment.destroy (m.key i)).construct (m.key i) block }.setDescriptor i
    ((m.descriptors i).recordSize size size)

/-- Give the free slot `i` to a topic. -/
def occupy (m : Shm) (i : Slot) (name : CString) (size : ℕ) : Shm :=
  let block := .bytes (List.replicate size 0)
  { m with segment := m.segment.construct name.key block }.setDescriptor i
    (((m.descriptors i).allocate name).recordSize size size)

variable {m : Shm} {i j : Slot} {n : Name} {name : CString} {size : ℕ}

theorem resize_ne (h : j ≠ i) : (m.resize i size).descriptors j = m.descriptors j :=
  setDescriptor_ne m _ h

theorem renew_ne (h : j ≠ i) : (m.renew i size).descriptors j = m.descriptors j :=
  setDescriptor_ne _ _ h

theorem occupy_ne (h : j ≠ i) : (m.occupy i name size).descriptors j = m.descriptors j :=
  setDescriptor_ne _ _ h

theorem resetSlot_ne (h : j ≠ i) : (m.resetSlot i).descriptors j = m.descriptors j :=
  setDescriptor_ne _ _ h

@[simp] theorem resize_self :
    (m.resize i size).descriptors i = { m.descriptors i with size_ := size } :=
  setDescriptor_self ..

@[simp] theorem renew_self :
    (m.renew i size).descriptors i = (m.descriptors i).recordSize size size :=
  setDescriptor_self ..

@[simp] theorem occupy_self : (m.occupy i name size).descriptors i
    = ((m.descriptors i).allocate name).recordSize size size := setDescriptor_self ..

@[simp] theorem resetSlot_self : (m.resetSlot i).descriptors i = (m.descriptors i).reset :=
  setDescriptor_self ..

@[simp] theorem owns_resize : (m.resize i size).Owns j n ↔ m.Owns j n := by
  by_cases hj : j = i
  · subst hj
    simp only [Owns, active, key, resize_self]
    rfl
  · simp only [Owns, active, key, resize_ne hj]

@[simp] theorem owns_renew : (m.renew i size).Owns j n ↔ m.Owns j n := by
  by_cases hj : j = i
  · subst hj
    simp only [Owns, active, key, renew_self, Descriptor.active_recordSize,
      Descriptor.key_recordSize]
  · simp only [Owns, active, key, renew_ne hj]

theorem owns_occupy : (m.occupy i name size).Owns i name.key := by
  simp [Owns, active, key]

theorem renew_segment : (m.renew i size).segment = (m.segment.destroy (m.key i)).construct (m.key i)
    (.bytes (List.replicate size 0)) := rfl

theorem occupy_segment : (m.occupy i name size).segment
    = m.segment.construct name.key (.bytes (List.replicate size 0)) := rfl

@[simp] theorem renew_named : (m.renew i size).segment.named (m.key i) = some m.segment.next := by
  rw [renew_segment, ObjectStore.construct_named_self, ObjectStore.destroy_next]

@[simp] theorem occupy_named :
    (m.occupy i name size).segment.named name.key = some m.segment.next := by
  rw [occupy_segment, ObjectStore.construct_named_self]

theorem resetSlot_segment : (m.resetSlot i).segment = m.segment.destroy (m.key i) := rfl

theorem Good.resize (h : m.Good) (hs : size ≤ (m.descriptors i).allocated_) :
    (m.resize i size).Good := by
  refine h.update h.wf ?_ (fun _ _ _ => rfl) (fun _ hne => ?_) (fun ha => ?_)
  · exact { h.slotOk i with size_le := hs }
  · exact absurd rfl (hne ‹_›)
  · exact ⟨h.key_ne_manager ha, fun j hji hj hk => hji (h.distinct j i hj ha hk)⟩

theorem allocated_recordSize {d : Descriptor} (hs : d.allocated_ ≤ size) :
    (d.recordSize size size).allocated_ = size := by
  by_cases h0 : size = 0
  · subst h0
    simpa [Descriptor.recordSize] using hs
  · simp [Descriptor.recordSize, h0]

theorem resize_count_recordSize {d : Descriptor} (hs : d.allocated_ < size) (alloc : ℕ) :
    (d.recordSize size alloc).resize_count_ = u32 (d.resize_count_ + 1) := if_pos hs

theorem Good.renew (h : m.Good) (ha : m.active i) (hs : (m.descriptors i).allocated_ < size)
    (hlt : size < 2 ^ 32) : (m.renew i size).Good := by
  refine h.update ((h.wf.destroy _).construct _ (by simp)) ?_ (fun n hn _ => ?_)
    (fun _ hne => absurd rfl (hne ha)) (fun _ => ?_)
  · exact
      { block := fun _ => ⟨_, ObjectStore.construct_lookup_self .., by
          rw [List.length_replicate, allocated_recordSize hs.le]⟩
        free := fun hf => absurd ha hf
        size_le := (allocated_recordSize hs.le).ge
        bound := (allocated_recordSize hs.le).trans_lt hlt }
  · rw [(h.wf.destroy _).construct_lookup_ne _ (hn ha), h.wf.destroy_lookup_ne (hn ha)]
  · exact ⟨h.key_ne_manager ha, fun j hji hj hk => hji (h.distinct j i hj ha hk)⟩

theorem Good.occupy (h : m.Good) (hi : ¬ m.active i) (hm : name.key ≠ managerName)
    (hn : ∀ j, m.active j → m.key j ≠ name.key) (hlt : size < 2 ^ 32) :
    (m.occupy i name size).Good := by
  have hal : ((m.descriptors i).allocate name).allocated_ ≤ size :=
    (h.inactive i hi).2.2.1.trans_le (Nat.zero_le _)
  have hkey : (((m.descriptors i).allocate name).recordSize size size).key = name.key := by simp
  refine h.update (h.wf.construct _ (h.named_none hm hn)) ?_ (fun n _ hk => ?_)
    (fun ha => absurd ha hi) (fun _ => ?_)
  · exact
      { block := fun _ => by
          rw [hkey]
          exact ⟨_, ObjectStore.construct_lookup_self .., by
            rw [List.length_replicate, allocated_recordSize hal]⟩
        free := fun hf => absurd rfl hf
        size_le := (allocated_recordSize hal).ge
        bound := (allocated_recordSize hal).trans_lt hlt }
  · exact h.wf.construct_lookup_ne _ (hkey ▸ hk rfl)
  · rw [hkey]
    exact ⟨hm, fun j _ => hn j⟩

/-- Resetting a slot is safe unless the slot is free and somebody else's topic is the empty name. -/
theorem Good.resetSlot (h : m.Good) (hi : ¬ m.active i → ∀ j, m.active j → m.key j ≠ []) :
    (m.resetSlot i).Good := by
  refine h.update (h.wf.destroy _) ?_ (fun n hn _ => ?_)
    (fun _ _ => ObjectStore.destroy_lookup_self) (fun ha => by simp at ha)
  · exact
      { block := fun ha => by simp at ha
        free := fun _ => ⟨Descriptor.key_reset _, rfl, rfl⟩
        size_le := le_refl 0
        bound := by show 0 < 2 ^ 32; norm_num }
  · by_cases ha : m.active i
    · exact h.wf.destroy_lookup_ne (hn ha)
    · -- there is nothing to destroy under the empty name of a free slot
      have hnone : m.segment.named (m.key i) = none := by
        rw [(h.inactive i ha).1]
        exact h.named_none (by decide) (hi ha)
      rw [ObjectStore.destroy_of_none _ hnone]

end Changes

/-! ### What the others keep -/

/-- `n` is the name of the manager or of a topic in another slot than `i`. -/
def Foreign (m : Shm) (i : Slot) (n : Name) : Prop :=
  n = managerName ∨ ∃ j, j ≠ i ∧ m.Owns j n

/-- Only slot `i` has changed, with the block of its topic: all other descriptors, the blocks of
all other topics with their bytes, the manager object and its client count are the same. -/
structure Frame (m m' : Shm) (i : Slot) : Prop where
  num_clients : m'.num_clients = m.num_clients
  descriptors : ∀ j, j ≠ i → m'.descriptors j = m.descriptors j
  named : ∀ n, m.Foreign i n → m'.segment.named n = m.segment.named n
  object : ∀ n a, m.Foreign i n → m.segment.named n = some a →
    m'.segment.object a = m.segment.object a

namespace Frame

variable {m m' m'' : Shm} {i j : Slot} {n : Name} {name : CString} {size : ℕ}

theorem foreign (h : Frame m m' i) (hn : m.Foreign i n) : m'.Foreign i n := by
  rcases hn with hn | ⟨j, hj, ha, hk⟩
  · exact .inl hn
  · refine .inr ⟨j, hj, ?_, ?_⟩
    · rwa [active, h.descriptors j hj]
    · rwa [key, h.descriptors j hj]

theorem trans (h : Frame m m' i) (h' : Frame m' m'' i) : Frame m m'' i where
  num_clients := h'.num_clients.trans h.num_clients
  descriptors j hj := (h'.descriptors j hj).trans (h.descriptors j hj)
  named n hn := (h'.named n (h.foreign hn)).trans (h.named n hn)
  object n a hn ha := by
    rw [h'.object n a (h.foreign hn) ((h.named n hn).trans ha), h.object n a hn ha]

theorem lookup (h : Frame m m' i) (hn : m.Foreign i n) :
    m'.segment.lookup n = m.segment.lookup n := by
  unfold ObjectStore.lookup
  rw [h.named n hn]
  cases ha : m.segment.named n with
  | none => rfl
  | some a => exact h.object n a hn ha

end Frame

section Frames

variable {m : Shm} {i : Slot} {n : Name} {name : CString} {size : ℕ}

theorem frame_refl (m : Shm) (i : Slot) : Frame m m i :=
  ⟨rfl, fun _ _ => rfl, fun _ _ => rfl, fun _ _ _ _ => rfl⟩

theorem frame_resize : Frame m (m.resize i size) i :=
  ⟨rfl, fun _ => resize_ne, fun _ _ => rfl, fun _ _ _ _ => rfl⟩

/-- The names of others are not the name of a slot in use. -/
theorem Good.foreign_ne (h : m.Good) (ha : m.active i) (hn : m.Foreign i n) : n ≠ m.key i := by
  rcases hn with rfl | ⟨j, hj, hja, rfl⟩
  · exact (h.key_ne_manager ha).symm
  · exact fun hk => hj (h.distinct j i hja ha hk)

theorem Good.frame_renew (h : m.Good) (ha : m.active i) : Frame m (m.renew i size) i where
  num_clients := rfl
  descriptors _ := renew_ne
  named n hn := by
    have hne := h.foreign_ne ha hn
    rw [renew_segment, ObjectStore.construct_named_ne _ _ hne, ObjectStore.destroy_named_ne _ hne]
  object n a hn hna := by
    have hne := h.foreign_ne ha hn
    rw [renew_segment, (h.wf.destroy _).construct_object (m := n) _
      ((ObjectStore.destroy_named_ne _ hne).trans hna), h.wf.destroy_object hna hne]

theorem Good.frame_occupy (h : m.Good) (hm : name.key ≠ managerName)
    (hn : ∀ j, m.active j → m.key j ≠ name.key) : Frame m (m.occupy i name size) i where
  num_clients := rfl
  descriptors _ := occupy_ne
  named n hf := by
    have hne : n ≠ name.key := by
      rcases hf with rfl | ⟨j, -, hja, rfl⟩
      · exact hm.symm
      · exact hn j hja
    rw [occupy_segment, ObjectStore.construct_named_ne _ _ hne]
  object n a _ hna := by rw [occupy_segment, h.wf.construct_object _ hna]

theorem Good.frame_resetSlot (h : m.Good) (hi : ¬ m.active i → ∀ j, m.active j → m.key j ≠ []) :
    Frame m (m.resetSlot i) i := by
  by_cases ha : m.active i
  · exact
      { num_clients := rfl
        descriptors := fun _ => resetSlot_ne
        named := fun n hn => by
          rw [resetSlot_segment, ObjectStore.destroy_named_ne _ (h.foreign_ne ha hn)]
        object := fun n a hn hna => by
          rw [resetSlot_segment, h.wf.destroy_object hna (h.foreign_ne ha hn)] }
  · -- the slot is free, and nothing is stored under its empty name
    have hseg : (m.resetSlot i).segment = m.segment := by
      rw [resetSlot_segment, (h.inactive i ha).1,
        ObjectStore.destroy_of_none _ (h.named_none (by decide) (hi ha))]
    exact
      { num_clients := rfl
        descriptors := fun _ => resetSlot_ne
        named := fun n _ => by rw [hseg]
        object := fun n a _ _ => by rw [hseg] }

end Frames

end Shm

end MessageTransport
