import MessageTransport.Sharedmem.World

/-!
# Runs without resets

Without resets and failed reallocations a slot, once taken, stays its topic's, its counter goes up
with every new block, and it cannot wrap around: each step up is a larger block, of less than
`2 ^ 32` bytes.

`Shm.Served` says what one call on a topic does in such a run, whichever call it is. `World.Tracked`
is the invariant that follows from it: every valid handle is to its topic's slot, its count is not
ahead of the slot's, and if the two agree its pointer is the topic's block.
-/

namespace MessageTransport

namespace Shm

variable {m m' : Shm} {i j : Slot} {t : Name} {h : ShmHandle} {size : ℕ}

/-- A good table whose counters are not above the sizes of the blocks. -/
structure Steady (m : Shm) : Prop extends Good m where
  count_le : ∀ i, (m.descriptors i).resize_count_ ≤ (m.descriptors i).allocated_

/-- `m'` is the table after a call on topic `t` in slot `i`, and `h` is the handle the call left. -/
structure Served (m m' : Shm) (i : Slot) (t : Name) (h : ShmHandle) : Prop where
  steady : m'.Steady
  frame : Frame m m' i
  owns : m'.Owns i t
  before : m.active i → m.key i = t
  count_mono : m.active i → (m.descriptors i).resize_count_ ≤ (m'.descriptors i).resize_count_
  same : m.active i → (m'.descriptors i).resize_count_ = (m.descriptors i).resize_count_ →
    m'.segment.named t = m.segment.named t
  fresh : ∀ n a, m'.segment.named n = some a →
    m.segment.named n = some a ∨ n = t ∧ a = m.segment.next
  next_le : m.segment.next ≤ m'.segment.next
  slot : h.slot = some i
  count : h.resize_count = (m'.descriptors i).resize_count_
  ptr : h.ptr = m'.segment.named t

/-- The pointer of a handle that is refreshed is the topic's block. -/
theorem refresh_ptr (ho : m.Owns i t)
    (hp : h.resize_count = (m.descriptors i).resize_count_ → h.ptr = m.segment.named t) :
    (m.refresh i h).ptr = m.segment.named t := by
  by_cases hc : h.resize_count = (m.descriptors i).resize_count_
  · rw [refresh_of_eq hc, hp hc]
  · rw [refresh_of_ne hc]
    exact congrArg _ ho.2

theorem Steady.of_frame (hm : m.Steady) (hg : m'.Good) (hf : Frame m m' i)
    (hi : (m'.descriptors i).resize_count_ ≤ (m'.descriptors i).allocated_) : m'.Steady where
  toGood := hg
  count_le j := by
    by_cases hji : j = i
    · rwa [hji]
    · rw [hf.descriptors j hji]
      exact hm.count_le j

section Calls

variable (hm : m.Steady)
include hm

theorem Steady.served_refl (ho : m.Owns i t) (hs : h.slot = some i)
    (hcount : h.resize_count = (m.descriptors i).resize_count_)
    (hp : h.ptr = m.segment.named t) : Served m m i t h where
  steady := hm
  frame := frame_refl m i
  owns := ho
  before _ := ho.2
  count_mono _ := le_rfl
  same _ _ := rfl
  fresh _ _ ha := .inl ha
  next_le := le_rfl
  slot := hs
  count := hcount
  ptr := hp

theorem Steady.served_resize (ho : m.Owns i t) (hfit : size ≤ (m.descriptors i).allocated_)
    (hs : h.slot = some i) (hcount : h.resize_count = (m.descriptors i).resize_count_)
    (hp : h.ptr = m.segment.named t) : Served m (m.resize i size) i t h where
  steady := hm.of_frame (hm.resize hfit) frame_resize (by rw [resize_self]; exact hm.count_le i)
  frame := frame_resize
  owns := owns_resize.2 ho
  before _ := ho.2
  count_mono _ := by rw [resize_self]
  same _ _ := rfl
  fresh _ _ ha := .inl ha
  next_le := le_rfl
  slot := hs
  count := by rw [resize_self]; exact hcount
  ptr := hp

/-- A counter that is not above the block's size does not wrap around when the block grows. -/
theorem Steady.count_renew (hlt : (m.descriptors i).allocated_ < size) (h32 : size < 2 ^ 32) :
    u32 ((m.descriptors i).resize_count_ + 1) = (m.descriptors i).resize_count_ + 1 := by
  have := hm.count_le i
  exact u32_of_lt (by omega)

theorem Steady.served_renew (ho : m.Owns i t) (hlt : (m.descriptors i).allocated_ < size)
    (h32 : size < 2 ^ 32) (hs : h.slot = some i)
    (hcount : h.resize_count = u32 ((m.descriptors i).resize_count_ + 1))
    (hp : h.ptr = some m.segment.next) : Served m (m.renew i size) i t h := by
  have hci := hm.count_le i
  have hcnt : ((m.renew i size).descriptors i).resize_count_
      = (m.descriptors i).resize_count_ + 1 := by
    rw [renew_self, resize_count_recordSize hlt, hm.count_renew hlt h32]
  refine ⟨hm.of_frame (hm.renew ho.1 hlt h32) (hm.frame_renew ho.1) ?_, hm.frame_renew ho.1,
    owns_renew.2 ho, fun _ => ho.2, ?_, ?_, ?_, ?_, hs, ?_, ?_⟩
  · rw [hcnt, renew_self, allocated_recordSize hlt.le]
    omega
  · rw [hcnt]
    omega
  · rw [hcnt]
    omega
  · -- the one new address is that of the topic's block
    intro n a ha
    by_cases hn : n = m.key i
    · subst hn
      rw [renew_named] at ha
      exact .inr ⟨ho.2, (Option.some.inj ha).symm⟩
    · rw [renew_segment, ObjectStore.construct_named_ne _ _ hn,
        ObjectStore.destroy_named_ne _ hn] at ha
      exact .inl ha
  · show m.segment.next ≤ (m.segment.destroy (m.key i)).next + 1
    rw [ObjectStore.destroy_next]
    omega
  · rw [hcount, hcnt, hm.count_renew hlt h32]
  · rw [hp, ← ho.2, renew_named]

theorem Steady.served_occupy {name : CString} (hi : ¬ m.active i) (hk : name.key ≠ managerName)
    (hn : ∀ j, m.active j → m.key j ≠ name.key) (h32 : size < 2 ^ 32) (hs : h.slot = some i)
    (hcount : h.resize_count = if 0 < size then 1 else 0) (hp : h.ptr = some m.segment.next) :
    Served m (m.occupy i name size) i name.key h := by
  have hal : ((m.descriptors i).allocate name).allocated_ = 0 := (hm.inactive i hi).2.2.1
  have hcnt : ((m.occupy i name size).descriptors i).resize_count_ = if 0 < size then 1 else 0 := by
    have hd : ((m.descriptors i).allocate name).resize_count_ = 0 := hm.dormant i hi
    rw [occupy_self]
    simp only [Descriptor.recordSize, hal, hd]
    rfl
  refine ⟨hm.of_frame (hm.occupy hi hk hn h32) (hm.frame_occupy hk hn) ?_, hm.frame_occupy hk hn,
    owns_occupy, fun ha => absurd ha hi, fun ha => absurd ha hi, fun ha => absurd ha hi, ?_,
    Nat.le_succ _, hs, by rw [hcount, hcnt], by rw [hp, occupy_named]⟩
  · rw [hcnt, occupy_self, allocated_recordSize (by omega)]
    split_ifs <;> omega
  · intro n a ha
    by_cases hnk : n = name.key
    · subst hnk
      rw [occupy_named] at ha
      exact .inr ⟨rfl, (Option.some.inj ha).symm⟩
    · rw [occupy_segment, ObjectStore.construct_named_ne _ _ hnk] at ha
      exact .inl ha

/-- `allocateBlock` serves its topic, unless the table is full. -/
theorem Steady.allocateBlock_served {name : CString} (hk : name.key ≠ managerName)
    (h32 : size < 2 ^ 32) :
    (∃ m' i h, m.allocateBlock name size true = (m', some h) ∧ Served m m' i name.key h) ∨
      (m.slotOf name = none ∧ m.freeSlot = none ∧
        m.allocateBlock name size true = (m, some .null)) := by
  rcases hm.allocateBlock_cases hk size with
    ⟨i, ho, hfit, heq⟩ | ⟨i, ho, hlt, heq⟩ | ⟨i, hn, hf, heq⟩ | hfull
  · exact .inl ⟨_, i, _, heq, hm.served_resize ho hfit (ShmHandle.slot_of ..) rfl
      (congrArg _ ho.2)⟩
  · exact .inl ⟨_, i, _, heq, hm.served_renew ho hlt h32 (ShmHandle.slot_of ..) rfl rfl⟩
  · exact .inl ⟨_, i, _, heq, hm.served_occupy (freeSlot_some hf) hk (slotOf_none.1 hn) h32
      (ShmHandle.slot_of ..) rfl rfl⟩
  · exact .inr hfull

theorem Steady.findHandle_served (name : CString) :
    (∃ i, m.slotOf name = some i ∧ Served m m i name.key (m.findHandle name)) ∨
      (m.slotOf name = none ∧ m.findHandle name = .null) := by
  cases hs : m.slotOf name with
  | none => exact .inr ⟨rfl, findHandle_none hs⟩
  | some i =>
    have ho := slotOf_some hs
    refine .inl ⟨i, rfl, ?_⟩
    rw [findHandle_some hs]
    exact hm.served_refl ho (ShmHandle.slot_of ..) rfl (congrArg _ ho.2)

/-- A handle to the topic's slot, with the topic's block if the counts agree. -/
theorem Steady.refresh_served (ho : m.Owns i t) (hs : h.slot = some i)
    (hp : h.resize_count = (m.descriptors i).resize_count_ → h.ptr = m.segment.named t) :
    Served m m i t (m.refresh i h) :=
  hm.served_refl ho ((refresh_slot h).trans hs) (refresh_resize_count ..) (refresh_ptr ho hp)

/-- `reallocateBlock` serves the topic of the handle, and records the size. -/
theorem Steady.reallocateSlot_served (ho : m.Owns i t) (hs : h.slot = some i)
    (hp : h.resize_count = (m.descriptors i).resize_count_ → h.ptr = m.segment.named t)
    (h32 : size < 2 ^ 32) :
    Served m (m.reallocateSlot i h size true).1 i t (m.reallocateSlot i h size true).2 ∧
      ((m.reallocateSlot i h size true).1.descriptors i).size_ = size := by
  rcases Nat.lt_or_ge (m.descriptors i).allocated_ size with hlt | hfit
  · rw [reallocateSlot_larger hlt]
    exact ⟨hm.served_renew ho hlt h32 ((refresh_slot h).trans hs) rfl rfl, by rw [renew_self]; rfl⟩
  · rw [reallocateSlot_fits hfit]
    exact ⟨hm.served_resize ho hfit ((refresh_slot h).trans hs) (refresh_resize_count ..)
      (refresh_ptr ho hp), by rw [resize_self]⟩

end Calls

/-- A handle that a call has left is valid. -/
theorem Served.valid (hs : Served m m' i t h) : h.is_valid = true := by
  obtain ⟨a, ha⟩ := hs.steady.named_key hs.owns.1
  rw [ShmHandle.is_valid, hs.ptr, ← hs.owns.2, ha]
  rfl

theorem Served.refresh (hs : Served m m' i t h) : m'.refresh i h = h := refresh_of_eq hs.count

/-- What is known of any slot by a count and a pointer stays right. -/
theorem Served.keeps (hs : Served m m' i t h) {j : Slot} {n : Name} {c : ℕ} {p : Option ℕ}
    (ho : m.Owns j n) (hle : c ≤ (m.descriptors j).resize_count_)
    (hp : c = (m.descriptors j).resize_count_ → p = m.segment.named n) :
    m'.Owns j n ∧ c ≤ (m'.descriptors j).resize_count_ ∧
      (c = (m'.descriptors j).resize_count_ → p = m'.segment.named n) := by
  by_cases hji : j = i
  · -- the slot of the call: what is known is current only if the count has not changed
    subst hji
    have htopic : n = t := ho.2.symm.trans (hs.before ho.1)
    rw [htopic] at hp ⊢
    have hmono := hs.count_mono ho.1
    refine ⟨hs.owns, hle.trans hmono, fun hc => ?_⟩
    have heq : (m'.descriptors j).resize_count_ = (m.descriptors j).resize_count_ := by omega
    rw [hs.same ho.1 heq]
    exact hp (hc.trans heq)
  · have hdesc := hs.frame.descriptors j hji
    refine ⟨⟨by rw [Shm.active, hdesc]; exact ho.1, by rw [Shm.key, hdesc]; exact ho.2⟩,
      by rwa [hdesc], fun hc => ?_⟩
    rw [hdesc] at hc
    rw [hs.frame.named _ (.inr ⟨j, hji, ho⟩)]
    exact hp hc

/-- Bytes written to the topic's block after a call on the topic. -/
theorem Served.fill (hs : Served m m' i t h) (data : List UInt8) :
    Served m (m'.fill h.ptr data) i t h := by
  have hfill : Frame m' (m'.fill h.ptr data) i :=
    hs.steady.frame_fill (.inr ⟨hs.owns.1, by rw [hs.ptr, hs.owns.2]⟩) data
  refine ⟨⟨hs.steady.fill _ _, hs.steady.count_le⟩, hs.frame.trans hfill, hs.owns, hs.before,
    hs.count_mono, fun ha hc => ?_, fun n a ha => ?_, ?_, hs.slot, hs.count, ?_⟩
  · rw [Shm.fill, Segment.setBytes_named]
    exact hs.same ha hc
  · rw [Shm.fill, Segment.setBytes_named] at ha
    exact hs.fresh n a ha
  · rw [Shm.fill, Segment.setBytes_next]
    exact hs.next_le
  · rw [Shm.fill, Segment.setBytes_named]
    exact hs.ptr

/-- `publish_msg` with memory serves the topic of the handle. -/
theorem Steady.publish_msg_served (hm : m.Steady) (ho : m.Owns i t) (hv : h.is_valid = true)
    (hs : h.slot = some i)
    (hp : h.resize_count = (m.descriptors i).resize_count_ → h.ptr = m.segment.named t)
    (msg : Message) :
    Served m (m.publish_msg h msg true).2.1 i t (m.publish_msg h msg true).2.2 := by
  obtain ⟨hserved, -⟩ := hm.reallocateSlot_served ho hs hp msg.serlen.toNat_lt
  obtain ⟨data, hshm⟩ := publish_msg_shm (m := m) hv hs msg true
  rw [hshm, publish_msg_handle hv hs]
  exact hserved.fill data

end Shm

namespace World

variable {κ : Type*} {w w' : World κ} {k : κ} {i : Slot} {t : Name} {own : ℕ → Name}

/-- The invariant of a world without resets. `own` tells for every address in the segment the
topic it was allocated for. -/
structure Tracked (w : World κ) (own : ℕ → Name) : Prop where
  steady : w.shm.Steady
  fits : ∀ i, w.shm.active i → (w.shm.key i).length < nameSize
  handle : ∀ k, (w.handle k).is_valid = true → ∃ i, (w.handle k).slot = some i ∧
    w.shm.Owns i (w.topic k) ∧
    (w.handle k).resize_count ≤ (w.shm.descriptors i).resize_count_ ∧
    ((w.handle k).resize_count = (w.shm.descriptors i).resize_count_ →
      (w.handle k).ptr = w.shm.segment.named (w.topic k))
  valid : ∀ k i, (w.handle k).slot = some i → (w.handle k).is_valid = true
  own_named : ∀ n a, w.shm.segment.named n = some a → own a = n
  own_ptr : ∀ k a, (w.handle k).ptr = some a → a < w.shm.segment.next ∧ own a = w.topic k

theorem tracked_init (size : ℕ) : (init size : World κ).Tracked fun _ => Shm.managerName where
  steady := ⟨Shm.good_init size, fun _ => le_rfl⟩
  fits i ha := by cases ha
  handle k hv := by cases hv
  valid k i hi := by cases hi
  own_named n a ha := by
    by_contra hn
    rw [init, Shm.init, ObjectStore.construct_named_ne _ _ (Ne.symm hn)] at ha
    cases ha
  own_ptr k a ha := by cases ha

/-- **Step lemma.** A call that serves its topic keeps the invariant. -/
theorem Tracked.served (hw : w.Tracked own)
    (hs : Shm.Served w.shm w'.shm i (w'.topic k) (w'.handle k))
    (ht : (w'.topic k).length < nameSize)
    (hother : ∀ k', k' ≠ k → w'.handle k' = w.handle k' ∧ w'.topic k' = w.topic k') :
    ∃ own', w'.Tracked own' := by
  set next := w.shm.segment.next with hnext
  refine ⟨fun a => if a = next then w'.topic k else own a, ?_⟩
  have hnamed : ∀ n a, w'.shm.segment.named n = some a →
      (if a = next then w'.topic k else own a) = n := by
    intro n a ha
    rcases hs.fresh n a ha with hold | ⟨rfl, rfl⟩
    · rw [if_neg (hw.steady.wf.fresh hold).ne]
      exact hw.own_named n a hold
    · exact if_pos rfl
  refine ⟨hs.steady, fun j hj => ?_, fun k' hv => ?_, fun k' j hj => ?_, hnamed, fun k' a ha => ?_⟩
  · by_cases hji : j = i
    · rw [hji, hs.owns.2]
      exact ht
    · rw [Shm.active, hs.frame.descriptors j hji] at hj
      rw [Shm.key, hs.frame.descriptors j hji]
      exact hw.fits j hj
  · by_cases hk : k' = k
    · subst hk
      exact ⟨i, hs.slot, hs.owns, hs.count.le, fun _ => hs.ptr⟩
    · obtain ⟨hh, htk⟩ := hother k' hk
      rw [hh] at hv ⊢
      rw [htk]
      obtain ⟨j, hj, ho, hle, hp⟩ := hw.handle k' hv
      exact ⟨j, hj, hs.keeps ho hle hp⟩
  · by_cases hk : k' = k
    · rw [hk]
      exact hs.valid
    · rw [(hother k' hk).1] at hj ⊢
      exact hw.valid k' j hj
  · by_cases hk : k' = k
    · subst hk
      rw [hs.ptr] at ha
      exact ⟨hs.steady.wf.fresh ha, hnamed _ a ha⟩
    · obtain ⟨hh, htk⟩ := hother k' hk
      rw [hh] at ha
      obtain ⟨hlt, hown⟩ := hw.own_ptr k' a ha
      rw [htk]
      exact ⟨hlt.trans_le hs.next_le, (if_neg hlt.ne).trans hown⟩

/-- A call that leaves the table alone and its client without a handle keeps the invariant. -/
theorem Tracked.null (hw : w.Tracked own) (hm : w'.shm = w.shm) (hk : w'.handle k = .null)
    (hother : ∀ k', k' ≠ k → w'.handle k' = w.handle k' ∧ w'.topic k' = w.topic k') :
    w'.Tracked own := by
  refine ⟨hm ▸ hw.steady, fun j => hm ▸ hw.fits j, fun k' hv => ?_, fun k' i hi => ?_,
    fun n a => hm ▸ hw.own_named n a, fun k' a ha => ?_⟩
  · by_cases hkk : k' = k
    · rw [hkk, hk] at hv
      cases hv
    · rw [(hother k' hkk).1] at hv ⊢
      rw [(hother k' hkk).2, hm]
      exact hw.handle k' hv
  · by_cases hkk : k' = k
    · rw [hkk, hk] at hi
      cases hi
    · rw [(hother k' hkk).1] at hi ⊢
      exact hw.valid k' i hi
  · by_cases hkk : k' = k
    · rw [hkk, hk] at ha
      cases ha
    · rw [(hother k' hkk).1] at ha
      rw [(hother k' hkk).2, hm]
      exact hw.own_ptr k' a ha

/-- An `allocateBlock` that takes a free slot has a plain name. -/
def Claims (w : World κ) : Op κ → Prop
  | .allocateBlock _ name _ _ => name.Plain ∨ w.shm.freeSlot = none
  | _ => True

theorem Tracked.topic_fits (hw : w.Tracked own) (ho : w.shm.Owns i t) : t.length < nameSize :=
  ho.2 ▸ hw.fits i ho.1

theorem Tracked.plain_of_slotOf (hw : w.Tracked own) {name : CString}
    (hs : w.shm.slotOf name = some i) : name.Plain := by
  have ho := Shm.slotOf_some hs
  have hlen := hw.fits i ho.1
  have hne := hw.steady.key_ne_manager ho.1
  rw [ho.2] at hlen hne
  have hk := CString.key_eq_chars hlen
  rw [hk] at hlen hne
  exact ⟨hlen, hne⟩

variable [DecidableEq κ]

/-- A call of the client `k` does nothing, or finds no slot and leaves the client without a handle,
or serves its topic. -/
def Answered (w : World κ) (op : Op κ) (k : κ) : Prop :=
  (∀ k', k' ≠ k → (w.step op).handle k' = w.handle k' ∧ (w.step op).topic k' = w.topic k') ∧
  ((w.step op = w) ∨ ((w.step op).shm = w.shm ∧ (w.step op).handle k = .null) ∨
    ((w.step op).topic k = w.subject op ∧ (w.subject op).length < nameSize ∧
      ∃ i, (w.shm.active i ∨ ∃ name size, op = .allocateBlock k name size true) ∧
        Shm.Served w.shm (w.step op).shm i (w.subject op) ((w.step op).handle k)))

theorem setHandle_self_eq (w : World κ) (k : κ) : w.setHandle k (w.shm, w.handle k) = w := by
  simp [setHandle]

theorem Tracked.answered_findHandle (hw : w.Tracked own) (k : κ) (name : CString) :
    w.Answered (.findHandle k name) k := by
  refine ⟨fun k' hk => connect_ne _ _ _ hk, ?_⟩
  rw [step]
  rcases hw.steady.findHandle_served name with ⟨i, hs, hserved⟩ | ⟨-, hnull⟩
  · have hp := hw.plain_of_slotOf hs
    rw [hp.key_eq] at hserved
    refine .inr (.inr ⟨connect_topic_self .., hp.1, i, .inl hserved.owns.1, ?_⟩)
    rw [connect_handle_self]
    exact hserved
  · exact .inr (.inl ⟨rfl, by rw [connect_handle_self]; exact hnull⟩)

theorem Tracked.answered_allocateBlock (hw : w.Tracked own) (k : κ) {name : CString}
    {size : UInt32} (hc : w.Claims (.allocateBlock k name size true)) :
    w.Answered (.allocateBlock k name size true) k := by
  -- a name that has a slot is plain, because the slot holds it with its terminator
  have hplain : name.Plain ∨ w.shm.slotOf name = none ∧ w.shm.freeSlot = none := by
    cases hs : w.shm.slotOf name with
    | some i => exact .inl (hw.plain_of_slotOf hs)
    | none => exact hc.imp id fun hf => ⟨rfl, hf⟩
  rcases hplain with hp | ⟨hn, hf⟩
  · rcases hw.steady.allocateBlock_served hp.key_ne size.toNat_lt with
      ⟨m', i, h, heq, hserved⟩ | ⟨-, -, heq⟩
    · rw [Answered, step_allocateBlock heq]
      rw [hp.key_eq] at hserved
      refine ⟨fun k' hk => connect_ne _ _ _ hk,
        .inr (.inr ⟨connect_topic_self .., hp.1, i, .inr ⟨name, size, rfl⟩, ?_⟩)⟩
      rw [connect_handle_self]
      exact hserved
    · rw [Answered, step_allocateBlock heq]
      exact ⟨fun k' hk => connect_ne _ _ _ hk, .inr (.inl ⟨rfl, connect_handle_self ..⟩)⟩
  · rw [Answered, step_allocateBlock (Shm.allocateBlock_full hn hf true)]
    exact ⟨fun k' hk => connect_ne _ _ _ hk, .inr (.inl ⟨rfl, connect_handle_self ..⟩)⟩

theorem Tracked.answered_reallocateBlock (hw : w.Tracked own) (k : κ) (size : UInt32) :
    w.Answered (.reallocateBlock k size true) k := by
  refine ⟨fun k' hk => ⟨setHandle_ne _ _ hk, rfl⟩, ?_⟩
  rw [step]
  cases hv : (w.handle k).is_valid with
  | false =>
    rw [Shm.reallocateBlock_invalid hv]
    exact .inl (w.setHandle_self_eq k)
  | true =>
    obtain ⟨i, hs, ho, -, hp⟩ := hw.handle k hv
    rw [Shm.reallocateBlock_valid hv hs]
    refine .inr (.inr ⟨rfl, hw.topic_fits ho, i, .inl ho.1, ?_⟩)
    rw [setHandle_self]
    exact (hw.steady.reallocateSlot_served ho hs hp size.toNat_lt).1

theorem Tracked.answered_publish_msg (hw : w.Tracked own) (k : κ) (msg : Message) :
    w.Answered (.publish_msg k msg true) k := by
  refine ⟨fun k' hk => ⟨setHandle_ne _ _ hk, rfl⟩, ?_⟩
  rw [step]
  cases hv : (w.handle k).is_valid with
  | false =>
    rw [Shm.publish_msg_invalid hv]
    exact .inl (w.setHandle_self_eq k)
  | true =>
    obtain ⟨i, hs, ho, -, hp⟩ := hw.handle k hv
    refine .inr (.inr ⟨rfl, hw.topic_fits ho, i, .inl ho.1, ?_⟩)
    rw [setHandle_self]
    exact hw.steady.publish_msg_served ho hv hs hp msg

theorem Tracked.answered_read (hw : w.Tracked own) (k : κ) : w.Answered (.read k) k := by
  cases hs : (w.handle k).slot with
  | none =>
    have hsame : w.step (.read k) = w := by simp only [step, hs]
    rw [Answered, hsame]
    exact ⟨fun _ _ => ⟨rfl, rfl⟩, .inl rfl⟩
  | some i =>
    have hstep : w.step (.read k) = w.setHandle k (w.shm, w.shm.refresh i (w.handle k)) := by
      simp only [step, hs, Shm.deserialize_handle]
    rw [Answered, hstep]
    obtain ⟨j, hj, ho, -, hp⟩ := hw.handle k (hw.valid k i hs)
    obtain rfl : i = j := Option.some.inj (hs.symm.trans hj)
    refine ⟨fun k' hk => ⟨setHandle_ne _ _ hk, rfl⟩,
      .inr (.inr ⟨rfl, hw.topic_fits ho, i, .inl ho.1, ?_⟩)⟩
    rw [setHandle_self]
    exact hw.steady.refresh_served ho hs hp

/-- **What a call can do** in a run without resets. -/
theorem Tracked.step_cases (hw : w.Tracked own) {op : Op κ} (hop : op.Steady) (hc : w.Claims op) :
    ∃ k, op.client = some k ∧ w.Answered op k := by
  cases op with
  | findHandle k name => exact ⟨k, rfl, hw.answered_findHandle k name⟩
  | allocateBlock k name size alloc =>
    obtain rfl : alloc = true := hop
    exact ⟨k, rfl, hw.answered_allocateBlock k hc⟩
  | reallocateBlock k size alloc =>
    obtain rfl : alloc = true := hop
    exact ⟨k, rfl, hw.answered_reallocateBlock k size⟩
  | publish_msg k msg alloc =>
    obtain rfl : alloc = true := hop
    exact ⟨k, rfl, hw.answered_publish_msg k msg⟩
  | read k => exact ⟨k, rfl, hw.answered_read k⟩
  | resetBlock k => exact absurd hop id
  | resetAllBlocks => exact absurd hop id

/-- Calls without resets keep the invariant. -/
theorem Tracked.step (hw : w.Tracked own) {op : Op κ} (hop : op.Steady) (hc : w.Claims op) :
    ∃ own', (w.step op).Tracked own' := by
  obtain ⟨k, -, hother, hsame | ⟨hm, hk⟩ | ⟨ht, hlen, i, -, hserved⟩⟩ := hw.step_cases hop hc
  · exact ⟨own, by rwa [hsame]⟩
  · exact ⟨own, hw.null hm hk hother⟩
  · rw [← ht] at hserved hlen
    exact hw.served hserved hlen hother

end World

end MessageTransport
