import MessageTransport.Sharedmem.World

/-!
# The representation invariant over runs

Every whole operation keeps `Shm.RepInv`, whoever calls it and through whatever valid handle, with
one exception: a handle whose slot was reset by somebody else. `reallocateBlock` then looks the
block up under the empty name of the free slot, does not look at the pointer again, and makes a
block there; `resetBlock` destroys a block under that name. `World.Sound` says when such a call is
harmless, and `repInv_always_iff` that nothing else breaks the invariant.
-/

namespace MessageTransport

namespace Shm

variable {m : Shm} {i : Slot}

/-- No topic in use has the empty name. -/
def NoEmptyTopic (m : Shm) : Prop := ∀ j, m.active j → m.key j ≠ []

/-- `reallocateBlock` on slot `i` keeps the invariant: the slot is in use, or nothing is asked for,
or the allocation fails and takes no topic's block with it. -/
def ReallocSound (m : Shm) (i : Slot) (size : ℕ) (alloc : Bool) : Prop :=
  ¬ m.active i → size = 0 ∨ (alloc = false ∧ m.NoEmptyTopic)

/-- `resetBlock` on slot `i` keeps the invariant. -/
def ResetSound (m : Shm) (i : Slot) : Prop := ¬ m.active i → m.NoEmptyTopic

/-- What a sound `reallocateBlock` does to slot `i`. -/
theorem reallocateSlot_cases {size : ℕ} {alloc : Bool} (hs : m.ReallocSound i size alloc)
    (h : ShmHandle) :
    (size ≤ (m.descriptors i).allocated_ ∧
      m.reallocateSlot i h size alloc = (m.resize i size, m.refresh i h)) ∨
    ((m.descriptors i).allocated_ < size ∧ alloc = true ∧ m.active i ∧
      m.reallocateSlot i h size alloc = (m.renew i size,
        { m.refresh i h with ptr := some m.segment.next,
                             resize_count := u32 ((m.descriptors i).resize_count_ + 1) })) ∨
    ((m.descriptors i).allocated_ < size ∧ alloc = false ∧ m.ResetSound i ∧
      m.reallocateSlot i h size alloc = (m.resetSlot i, .null)) := by
  rcases Nat.lt_or_ge (m.descriptors i).allocated_ size with hlt | hfit
  · cases alloc with
    | true =>
      refine .inr (.inl ⟨hlt, rfl, not_not.1 fun ha => ?_, reallocateSlot_larger hlt⟩)
      rcases hs ha with rfl | ⟨hf, -⟩
      · exact Nat.not_lt_zero _ hlt
      · cases hf
    | false =>
      refine .inr (.inr ⟨hlt, rfl, fun ha => ?_, reallocateSlot_fails hlt⟩)
      rcases hs ha with rfl | ⟨-, hn⟩
      · exact absurd hlt (Nat.not_lt_zero _)
      · exact hn
  · exact .inl ⟨hfit, reallocateSlot_fits hfit⟩

theorem Good.reallocateSlot (hm : m.Good) {size : ℕ} {alloc : Bool} (hlt : size < 2 ^ 32)
    (hs : m.ReallocSound i size alloc) (h : ShmHandle) :
    (m.reallocateSlot i h size alloc).1.Good := by
  rcases reallocateSlot_cases hs h with ⟨hfit, heq⟩ | ⟨hl, -, ha, heq⟩ | ⟨-, -, hr, heq⟩
  · rw [heq]; exact hm.resize hfit
  · rw [heq]; exact hm.renew ha hl hlt
  · rw [heq]; exact hm.resetSlot hr

/-- `reallocateBlock` on slot `i` concerns nobody else. -/
theorem Good.frame_reallocateSlot (hm : m.Good) {size : ℕ} {alloc : Bool}
    (hs : m.ReallocSound i size alloc) (h : ShmHandle) :
    Frame m (m.reallocateSlot i h size alloc).1 i := by
  rcases reallocateSlot_cases hs h with ⟨-, heq⟩ | ⟨-, -, ha, heq⟩ | ⟨-, -, hr, heq⟩
  · rw [heq]; exact frame_resize
  · rw [heq]; exact hm.frame_renew ha
  · rw [heq]; exact hm.frame_resetSlot hr

/-- If resetting a free slot keeps the invariant, it destroyed no topic's block. -/
theorem resetSound_of_repInv (hm : m.Good) (h : (m.resetSlot i).RepInv) : m.ResetSound i := by
  intro ha j hj hk
  have hji : j ≠ i := by rintro rfl; exact ha hj
  have hj' : (m.resetSlot i).active j := by rwa [active, resetSlot_ne hji]
  obtain ⟨data, hl, -⟩ := h.block j hj'
  have hk' : (m.resetSlot i).key j = m.key i := by
    rw [key, resetSlot_ne hji, (hm.inactive i ha).1]
    exact hk
  rw [hk', resetSlot_segment, ObjectStore.destroy_lookup_self] at hl
  cases hl

theorem reallocSound_of_repInv (hm : m.Good) {size : ℕ} {alloc : Bool} {h : ShmHandle}
    (hr : (m.reallocateSlot i h size alloc).1.RepInv) : m.ReallocSound i size alloc := by
  intro ha
  have hal : (m.descriptors i).allocated_ = 0 := (hm.inactive i ha).2.2.1
  rcases Nat.eq_zero_or_pos size with h0 | hpos
  · exact .inl h0
  · have hlt : (m.descriptors i).allocated_ < size := by omega
    cases alloc with
    | true =>
      -- the new block belongs to a descriptor that is not active
      rw [reallocateSlot_larger hlt] at hr
      have hbad := (hr.inactive i (by simpa [active] using ha)).2.2.1
      rw [renew_self, allocated_recordSize hlt.le] at hbad
      omega
    | false =>
      rw [reallocateSlot_fails hlt] at hr
      exact .inr ⟨rfl, resetSound_of_repInv hm hr ha⟩

theorem Good.allocateBlock (hm : m.Good) {name : CString} (hp : name.key ≠ managerName) {size : ℕ}
    (hlt : size < 2 ^ 32) : (m.allocateBlock name size true).1.Good := by
  rcases hm.allocateBlock_cases hp size with
    ⟨i, -, hfit, heq⟩ | ⟨i, ho, hl, heq⟩ | ⟨i, hn, hf, heq⟩ | ⟨-, -, heq⟩
  · rw [heq]; exact hm.resize hfit
  · rw [heq]; exact hm.renew ho.1 hl hlt
  · rw [heq]; exact hm.occupy (freeSlot_some hf) hp (slotOf_none.1 hn) hlt
  · rw [heq]; exact hm

end Shm

namespace World

variable {κ : Type*} [DecidableEq κ] {w : World κ}

/-- The call keeps the representation invariant: if it works on the slot of a valid handle, then
that slot is still in use, or what it does there is harmless. -/
def Sound (w : World κ) : Op κ → Prop
  | .reallocateBlock k size alloc => ∀ i, (w.handle k).is_valid = true →
      (w.handle k).slot = some i → w.shm.ReallocSound i size.toNat alloc
  | .publish_msg k msg alloc => ∀ i, (w.handle k).is_valid = true →
      (w.handle k).slot = some i → w.shm.ReallocSound i msg.serlen.toNat alloc
  | .resetBlock k => ∀ i, (w.handle k).is_valid = true →
      (w.handle k).slot = some i → w.shm.ResetSound i
  | _ => True

theorem good_step {op : Op κ} (ho : op.Ordinary) (hm : w.shm.Good) (hs : w.Sound op) :
    (w.step op).shm.Good := by
  cases op with
  | findHandle k name => exact hm
  | allocateBlock k name size alloc =>
    obtain ⟨hp, rfl⟩ := ho
    rw [step_allocateBlock_shm]
    exact hm.allocateBlock hp.key_ne size.toNat_lt
  | reallocateBlock k size alloc =>
    rw [step, setHandle_shm]
    cases hv : (w.handle k).is_valid with
    | false => rwa [Shm.reallocateBlock_invalid hv]
    | true =>
      cases hi : (w.handle k).slot with
      | none => rwa [Shm.reallocateBlock_no_slot hi]
      | some i =>
        rw [Shm.reallocateBlock_valid hv hi]
        exact hm.reallocateSlot size.toNat_lt (hs i hv hi) _
  | publish_msg k msg alloc =>
    rw [step, setHandle_shm]
    cases hv : (w.handle k).is_valid with
    | false => rwa [Shm.publish_msg_invalid hv]
    | true =>
      cases hi : (w.handle k).slot with
      | none => rwa [Shm.publish_msg_no_slot hi]
      | some i =>
        obtain ⟨data, hd⟩ := Shm.publish_msg_shm hv hi msg alloc
        rw [hd]
        exact (hm.reallocateSlot msg.serlen.toNat_lt (hs i hv hi) _).fill _ _
  | read k =>
    simp only [step]
    split <;> exact hm
  | resetBlock k =>
    simp only [step]
    split
    · rename_i i hi
      rw [setHandle_shm, Shm.resetBlock]
      split_ifs with hv
      · exact hm.resetSlot (hs i hv hi)
      · exact hm
    · exact hm
  | resetAllBlocks =>
    simp only [step]
    exact hm.resetAllBlocks

theorem sound_of_repInv {op : Op κ} (hm : w.shm.Good) (hr : (w.step op).shm.RepInv) :
    w.Sound op := by
  cases op with
  | reallocateBlock k size alloc =>
    intro i hv hi
    rw [step, setHandle_shm, Shm.reallocateBlock_valid hv hi] at hr
    exact Shm.reallocSound_of_repInv hm hr
  | publish_msg k msg alloc =>
    intro i hv hi
    obtain ⟨data, hd⟩ := Shm.publish_msg_shm (m := w.shm) hv hi msg alloc
    rw [step, setHandle_shm, hd, Shm.repInv_fill] at hr
    exact Shm.reallocSound_of_repInv hm hr
  | resetBlock k =>
    intro i hv hi
    simp only [step, hi, setHandle_shm, Shm.resetBlock, hv, if_true] at hr
    exact Shm.resetSound_of_repInv hm hr
  | findHandle _ _ | allocateBlock _ _ _ _ | read _ | resetAllBlocks => trivial

/-- **The representation invariant of the block table.** Over any run of whole operations with
plain names, the invariant holds in every state exactly when every call is sound: no
`reallocateBlock` makes a block, and no reset destroys another topic's, through a handle whose slot
is no longer in use. -/
theorem repInv_always_iff (size : ℕ) (ops : List (Op κ)) (hops : ∀ op ∈ ops, op.Ordinary) :
    Run.Always step (fun w => w.shm.RepInv) (init size) ops ↔ Run.Along step Sound (init size) ops :=
  Run.always_iff_along step (fun w : World κ => w.shm.Good) (fun _ h => h.toRepInv)
    (fun _ _ ho hm hs => good_step ho hm hs) (fun _ _ _ hm hr => sound_of_repInv hm hr)
    (Shm.good_init size) hops

/-- The second client resets the topic of the first, who then makes its block larger. -/
def resetThenReallocate : List (Op Client) :=
  [.allocateBlock .first topicA 16 true, .findHandle .second topicA, .resetBlock .second,
    .reallocateBlock .first 32 true]

/-- The rule at a run: here it tells that the last call was not sound. -/
theorem repInv_always_iff_reset :
    Run.Always step (fun w => w.shm.RepInv) (init 0) resetThenReallocate ↔
      Run.Along step Sound (init 0) resetThenReallocate :=
  repInv_always_iff 0 resetThenReallocate (by decide)

/-- The representation invariant does not hold over all runs: `reallocateBlock` through the handle
of a slot that was reset makes a block of 32 bytes for a descriptor that is not active. -/
theorem repInv_broken : ¬ ∀ (size : ℕ) (ops : List (Op Client)), (∀ op ∈ ops, op.Ordinary) →
    Run.Always step (fun w => w.shm.RepInv) (init size) ops := by
  intro h
  have hinv := (h 0 resetThenReallocate (by decide)).exec
  have hstate : (((Run.exec step (init 0) resetThenReallocate).shm).descriptors 0).active_ = false ∧
      (((Run.exec step (init 0) resetThenReallocate).shm).descriptors 0).allocated_ = 32 := by
    decide +kernel
  have hzero := (hinv.inactive 0 (by simp [Shm.active, hstate.1])).2.2.1
  rw [hstate.2] at hzero
  cases hzero

end World

end MessageTransport
