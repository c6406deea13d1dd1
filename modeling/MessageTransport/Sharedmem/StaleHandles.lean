import MessageTransport.Sharedmem.RepInv

/-!
# Stale handles

A client notices that its block was replaced by comparing the `resize_count` of its handle with
that of the slot. `World.Detects` says what it relies on when they agree: the slot is in use for
the client's topic and the pointer is the topic's block.

`reset` puts the counter back to 0, and the next owner of the slot counts up again. Two things go
wrong then. A client whose handle has another count looks up the name that is in the slot now,
whatever topic that is; and a client that slept through it all may find the very count it has. The
calls that do neither are `World.Unmistaken`, and over runs of such calls stale handles are always
detected.
-/

namespace MessageTransport

namespace Shm

variable {m : Shm} {i : Slot} {h : ShmHandle} {t : Name} {size : ℕ} {alloc : Bool}

/-- The counter of slot `i` after a `reallocateBlock`. -/
def countAfter (m : Shm) (i : Slot) (size : ℕ) (alloc : Bool) : ℕ :=
  if size ≤ (m.descriptors i).allocated_ then (m.descriptors i).resize_count_
  else if alloc then u32 ((m.descriptors i).resize_count_ + 1) else 0

/-- A handle obtained for topic `t` whose count is not that of slot `i` may go through
`reallocateBlock`: the slot is its topic's, or no block is found, or the call ends in a reset that
hits no topic but the slot's. -/
def OwnRealloc (m : Shm) (i : Slot) (h : ShmHandle) (t : Name) (size : ℕ) (alloc : Bool) : Prop :=
  h.resize_count ≠ (m.descriptors i).resize_count_ →
    m.Owns i t ∨ (¬ m.active i ∧ size = 0 ∧ m.NoEmptyTopic) ∨
      ((m.descriptors i).allocated_ < size ∧ alloc = false ∧ m.ResetSound i)

/-- A handle with the count of slot `i` is the handle of the topic in it. -/
def Trusted (m : Shm) (i : Slot) (h : ShmHandle) (t : Name) : Prop :=
  h.is_valid = true → h.resize_count = (m.descriptors i).resize_count_ →
    m.Owns i t ∧ h.ptr = m.segment.named t

theorem count_reallocateSlot :
    ((m.reallocateSlot i h size alloc).1.descriptors i).resize_count_ = m.countAfter i size alloc := by
  unfold countAfter
  by_cases hfit : size ≤ (m.descriptors i).allocated_
  · rw [reallocateSlot_fits hfit, if_pos hfit, resize_self]
  · rw [if_neg hfit]
    cases alloc with
    | true => rw [reallocateSlot_larger (not_le.1 hfit), renew_self,
        resize_count_recordSize (not_le.1 hfit), if_pos rfl]
    | false => rw [reallocateSlot_fails (not_le.1 hfit), resetSlot_self]; rfl

theorem reallocSound_of_own (hv : h.is_valid = true) (ht : m.Trusted i h t)
    (ho : m.OwnRealloc i h t size alloc) : m.ReallocSound i size alloc := by
  intro ha
  by_cases hc : h.resize_count = (m.descriptors i).resize_count_
  · exact absurd (ht hv hc).1.1 ha
  · rcases ho hc with hown | ⟨-, h0, -⟩ | ⟨-, hf, hr⟩
    · exact absurd hown.1 ha
    · exact .inl h0
    · exact .inr ⟨hf, hr ha⟩

/-- Refreshing gives the topic's block or none. -/
theorem Good.refresh_own (hm : m.Good) (ht : m.Trusted i h t)
    (ho : h.resize_count ≠ (m.descriptors i).resize_count_ →
      m.Owns i t ∨ (¬ m.active i ∧ m.NoEmptyTopic)) (hv : (m.refresh i h).is_valid = true) :
    m.Owns i t ∧ (m.refresh i h).ptr = m.segment.named t := by
  by_cases hc : h.resize_count = (m.descriptors i).resize_count_
  · rw [refresh_of_eq hc] at hv ⊢
    exact ht hv hc
  · rw [refresh_of_ne hc] at hv ⊢
    rcases ho hc with hown | ⟨ha, hn⟩
    · exact ⟨hown, congrArg m.segment.named hown.2⟩
    · have hnone : m.segment.named (m.key i) = none := by
        rw [(hm.inactive i ha).1]
        exact hm.named_none (by decide) hn
      simp [ShmHandle.is_valid, relookup, Segment.find, hnone] at hv

/-- A valid handle that `reallocateBlock` leaves is the handle of its topic's slot and block. -/
theorem Good.reallocateSlot_own (hm : m.Good) (hv : h.is_valid = true) (ht : m.Trusted i h t)
    (ho : m.OwnRealloc i h t size alloc)
    (hr : (m.reallocateSlot i h size alloc).2.is_valid = true) :
    (m.reallocateSlot i h size alloc).1.Owns i t ∧
      (m.reallocateSlot i h size alloc).2.ptr
        = (m.reallocateSlot i h size alloc).1.segment.named t := by
  rcases reallocateSlot_cases (reallocSound_of_own hv ht ho) h with
    ⟨hfit, heq⟩ | ⟨hlt, rfl, ha, heq⟩ | ⟨-, -, -, heq⟩
  · rw [heq] at hr ⊢
    have hown := hm.refresh_own ht (fun hc => ?_) hr
    · exact ⟨owns_resize.2 hown.1, hown.2⟩
    · rcases ho hc with hown | ⟨ha, -, hn⟩ | ⟨hlt, -⟩
      · exact .inl hown
      · exact .inr ⟨ha, hn⟩
      · omega
  · have hown : m.Owns i t := by
      by_cases hc : h.resize_count = (m.descriptors i).resize_count_
      · exact (ht hv hc).1
      · rcases ho hc with hown | ⟨hna, -⟩ | ⟨-, hf, -⟩
        · exact hown
        · exact absurd ha hna
        · cases hf
    rw [heq]
    refine ⟨owns_renew.2 hown, ?_⟩
    rw [← hown.2, renew_named]
  · rw [heq] at hr
    cases hr

@[simp] theorem trusted_fill {p : Ptr} {data : List UInt8} :
    (m.fill p data).Trusted i h t ↔ m.Trusted i h t := by
  simp only [Trusted, Owns, active, key, fill, Segment.setBytes_named]

/-- Resizing a slot changes nothing a client relies on. -/
theorem Trusted.resize (ht : m.Trusted i h t) : (m.resize i size).Trusted i h t := by
  intro hv hc
  rw [resize_self] at hc
  obtain ⟨⟨ha, hk⟩, hp⟩ := ht hv hc
  exact ⟨owns_resize.2 ⟨ha, hk⟩, hp⟩

end Shm

namespace World

variable {κ : Type*} {w w' : World κ} {k k' : κ} {i : Slot}

/-- What client `k` relies on when the count of its handle is that of the slot: the slot is in use
for its topic, and the pointer is the block stored under the topic's name. -/
def Detects (w : World κ) (k : κ) : Prop :=
  ∀ i, (w.handle k).slot = some i → w.shm.Trusted i (w.handle k) (w.topic k)

/-- No client but `k` has a valid handle to slot `i` with the count `c`. -/
def NoOther (w : World κ) (k : κ) (i : Slot) (c : ℕ) : Prop :=
  ∀ k', k' ≠ k → (w.handle k').is_valid = true → (w.handle k').slot = some i →
    (w.handle k').resize_count ≠ c

/-- `reallocateBlock` by client `k` on slot `i` mistakes no other topic for its own, and gives the
slot no count that somebody else still holds. -/
def ReallocUnmistaken (w : World κ) (k : κ) (i : Slot) (size : ℕ) (alloc : Bool) : Prop :=
  w.shm.OwnRealloc i (w.handle k) (w.topic k) size alloc ∧
    ((w.shm.descriptors i).allocated_ < size → w.NoOther k i (w.shm.countAfter i size alloc))

/-- The call follows no stale handle into another topic's slot, and gives no slot a count that
another client's old handle to that slot has. -/
def Unmistaken (w : World κ) : Op κ → Prop
  | .findHandle _ _ => True
  | .allocateBlock k name size _ => ∀ i, (w.shm.slotOf name).or w.shm.freeSlot = some i →
      (w.shm.descriptors i).allocated_ < size.toNat →
      w.NoOther k i (u32 ((w.shm.descriptors i).resize_count_ + 1))
  | .reallocateBlock k size alloc => ∀ i, (w.handle k).is_valid = true →
      (w.handle k).slot = some i → w.ReallocUnmistaken k i size.toNat alloc
  | .publish_msg k msg alloc => ∀ i, (w.handle k).is_valid = true →
      (w.handle k).slot = some i → w.ReallocUnmistaken k i msg.serlen.toNat alloc
  | .read k => ∀ i, (w.handle k).slot = some i →
      (w.handle k).resize_count ≠ (w.shm.descriptors i).resize_count_ →
      w.shm.Owns i (w.topic k) ∨ (¬ w.shm.active i ∧ w.shm.NoEmptyTopic)
  | .resetBlock k => ∀ i, (w.handle k).is_valid = true → (w.handle k).slot = some i →
      w.shm.ResetSound i ∧ w.NoOther k i 0
  | .resetAllBlocks => ∀ k i, (w.handle k).is_valid = true → (w.handle k).slot = some i →
      w.shm.active i → (w.handle k).resize_count ≠ 0

/-- The accesses of the call to shared bytes: `publish_msg` writes to the block of its topic, and
nothing else, and a read goes to the block of its topic or, when that is gone, to none. -/
def OwnAccess (w : World κ) : Op κ → Prop
  | .publish_msg k msg alloc =>
      let r := w.shm.reallocateBlock (w.handle k) msg.serlen.toNat alloc
      (w.shm.publish_msg (w.handle k) msg alloc).1 ≠ some .undefined ∧
        ∀ i, r.2.slot = some i → r.2.is_valid = true →
          r.1.Owns i (w.topic k) ∧ (r.1.refresh i r.2).ptr = r.1.segment.named (w.topic k)
  | .read k => ∀ i, (w.handle k).slot = some i →
      (w.shm.refresh i (w.handle k)).is_valid = true →
      w.shm.Owns i (w.topic k) ∧
        (w.shm.refresh i (w.handle k)).ptr = w.shm.segment.named (w.topic k)
  | _ => True

/-- A client whose own handle is left alone loses nothing by a change of slot `i`, if its handle
is not to that slot or the change keeps it trusted there. -/
theorem Detects.frame (h : w.Detects k') (hh : w'.handle k' = w.handle k')
    (ht : w'.topic k' = w.topic k') (hf : Shm.Frame w.shm w'.shm i)
    (hi : (w.handle k').slot = some i → w'.shm.Trusted i (w.handle k') (w.topic k')) :
    w'.Detects k' := by
  intro j hj
  rw [hh] at hj ⊢
  rw [ht]
  by_cases hji : j = i
  · subst hji
    exact hi hj
  · intro hv hc
    rw [hf.descriptors j hji] at hc
    obtain ⟨⟨ha, hk⟩, hp⟩ := h j hj hv hc
    refine ⟨⟨?_, ?_⟩, ?_⟩
    · rwa [Shm.active, hf.descriptors j hji]
    · rwa [Shm.key, hf.descriptors j hji]
    · rw [hp, hf.named _ (.inr ⟨j, hji, ha, hk⟩)]

/-- A count that nobody else holds is trusted by nobody else. -/
theorem NoOther.trusted {c : ℕ} (h : w.NoOther k i c) (hk : k' ≠ k)
    (hc : (w'.shm.descriptors i).resize_count_ = c) (hs : (w.handle k').slot = some i) :
    w'.shm.Trusted i (w.handle k') (w.topic k') :=
  fun hv hrc => absurd (hrc.trans hc) (h k' hk hv hs)

/-- `Detects` for everybody, after a call of client `k` that changed slot `i` only. -/
theorem detects_of_frame (hd : ∀ k, w.Detects k) (hk : w'.Detects k)
    (hh : ∀ k', k' ≠ k → w'.handle k' = w.handle k' ∧ w'.topic k' = w.topic k')
    (hf : Shm.Frame w.shm w'.shm i)
    (hi : ∀ k', k' ≠ k → (w.handle k').slot = some i →
      w'.shm.Trusted i (w.handle k') (w.topic k')) : ∀ k, w'.Detects k := by
  intro k'
  by_cases hkk : k' = k
  · rwa [hkk]
  · exact (hd k').frame (hh k' hkk).1 (hh k' hkk).2 hf (hi k' hkk)

/-- What the others rely on, after a `reallocateBlock` that gives nobody's old count. -/
theorem ReallocUnmistaken.trusted {size : ℕ} {alloc : Bool}
    (hu : w.ReallocUnmistaken k i size alloc) (hk : k' ≠ k)
    (hs : (w.handle k').slot = some i) (ht : w.shm.Trusted i (w.handle k') (w.topic k'))
    (h : ShmHandle) :
    (w.shm.reallocateSlot i h size alloc).1.Trusted i (w.handle k') (w.topic k') := by
  rcases Nat.lt_or_ge (w.shm.descriptors i).allocated_ size with hlt | hfit
  · intro hv hc
    rw [Shm.count_reallocateSlot] at hc
    exact absurd hc (hu.2 hlt k' hk hv hs)
  · rw [Shm.reallocateSlot_fits hfit]
    exact ht.resize

/-- A call that mistakes no topic keeps the representation invariant. -/
theorem Unmistaken.sound {op : Op κ} (hd : ∀ k, w.Detects k) (hu : w.Unmistaken op) :
    w.Sound op := by
  cases op with
  | reallocateBlock k size alloc =>
    exact fun i hv hs => Shm.reallocSound_of_own hv (hd k i hs) (hu i hv hs).1
  | publish_msg k msg alloc =>
    exact fun i hv hs => Shm.reallocSound_of_own hv (hd k i hs) (hu i hv hs).1
  | resetBlock k => exact fun i hv hs => (hu i hv hs).1
  | findHandle _ _ | allocateBlock _ _ _ _ | read _ | resetAllBlocks => trivial

/-- Where every client detects a stale handle, every access is to the client's own topic. -/
theorem ownAccess_of_detects {op : Op κ} (hm : w.shm.Good) (hd : ∀ k, w.Detects k)
    (hu : w.Unmistaken op) : w.OwnAccess op := by
  cases op with
  | publish_msg k msg alloc =>
    simp only [OwnAccess]
    cases hv : (w.handle k).is_valid with
    | false =>
      rw [Shm.publish_msg_invalid hv, Shm.reallocateBlock_invalid hv]
      exact ⟨by simp, fun i _ hv' => absurd hv' (by simp [hv])⟩
    | true =>
      cases hs : (w.handle k).slot with
      | none =>
        rw [Shm.publish_msg_no_slot hs, Shm.reallocateBlock_no_slot hs]
        exact ⟨by simp, fun i hi => by rw [hs] at hi; cases hi⟩
      | some i =>
        have hsound := Shm.reallocSound_of_own hv (hd k i hs) (hu i hv hs).1
        have hgood := hm.reallocateSlot msg.serlen.toNat_lt hsound (w.handle k)
        have hown := hm.reallocateSlot_own hv (hd k i hs) (hu i hv hs).1
        have hpub := Shm.publish_msg_valid (m := w.shm) hv hs msg alloc
        rw [Shm.reallocateBlock_valid hv hs]
        generalize w.shm.reallocateSlot i (w.handle k) msg.serlen.toNat alloc = r at *
        rcases hpub with ⟨hr, heq⟩ | ⟨hr, hslot, hf, heq⟩
        · exact ⟨by rw [heq]; simp, fun j _ hv' => absurd hv' (by simp [hr])⟩
        · -- the handle that `reallocateBlock` leaves is current, so `serialize` does not refresh it
          obtain ⟨⟨ha, hk⟩, hp⟩ := hown hr
          refine ⟨fun hfault => ?_, fun j hj _ => ?_⟩
          · rw [heq] at hfault
            obtain ⟨out, hrun⟩ := Shm.serialize_fault hfault
            refine msg.confined _ _ _ ?_ hrun rfl
            show (r.1.descriptors i).size_ ≤ (r.1.segment.bytesAt (r.1.refresh i r.2).ptr).length
            rw [hf, hp, ← hk, hgood.length_bytesAt ha]
            exact (hgood.slotOk i).size_le
          · obtain rfl : i = j := Option.some.inj (hslot.symm.trans hj)
            exact ⟨⟨ha, hk⟩, by rw [hf, hp]⟩
  | read k => exact fun i hs hv => hm.refresh_own (hd k i hs) (hu i hs) hv
  | findHandle _ _ | allocateBlock _ _ _ _ | reallocateBlock _ _ _ | resetBlock _
  | resetAllBlocks => trivial

/-- `Detects` after `reallocateBlock`, with or without a write through the handle it leaves. -/
theorem detects_reallocate [DecidableEq κ] (hm : w.shm.Good) (hd : ∀ k, w.Detects k)
    (hv : (w.handle k).is_valid = true) (hi : (w.handle k).slot = some i) {size : ℕ}
    {alloc : Bool} (hlt : size < 2 ^ 32) (hu : w.ReallocUnmistaken k i size alloc)
    (data : List UInt8) {p : Ptr} (hp : p = none ∨
      p = (w.shm.reallocateSlot i (w.handle k) size alloc).2.ptr) :
    ∀ k', (w.setHandle k ((w.shm.reallocateSlot i (w.handle k) size alloc).1.fill p data,
      (w.shm.reallocateSlot i (w.handle k) size alloc).2)).Detects k' := by
  have hsound := Shm.reallocSound_of_own hv (hd k i hi) hu.1
  have hown := hm.reallocateSlot_own hv (hd k i hi) hu.1
  have hgood := hm.reallocateSlot hlt hsound (w.handle k)
  have hframe := hm.frame_reallocateSlot hsound (w.handle k)
  have hcur := Shm.reallocateSlot_current w.shm i (w.handle k) size alloc
  have htrust : ∀ k', k' ≠ k → (w.handle k').slot = some i →
      (w.shm.reallocateSlot i (w.handle k) size alloc).1.Trusted i (w.handle k') (w.topic k') :=
    fun k' hk hs => hu.trusted hk hs (hd k' i hs) _
  generalize w.shm.reallocateSlot i (w.handle k) size alloc = r at *
  -- a write, if there is one, goes to the block of the slot
  have hptr : p = none ∨ r.1.active i ∧ p = r.1.segment.named (r.1.key i) := by
    cases hr : r.2.is_valid with
    | false =>
      have hnone : r.2.ptr = none := by simpa [ShmHandle.is_valid] using hr
      exact .inl (hp.elim id (·.trans hnone))
    | true =>
      obtain ⟨⟨ha, hk⟩, hrp⟩ := hown hr
      exact hp.imp id fun h => ⟨ha, by rw [h, hrp, hk]⟩
  refine detects_of_frame hd ?_ (fun k' hk => ⟨setHandle_ne w _ hk, rfl⟩)
    (hframe.trans (hgood.frame_fill hptr data)) (fun k' hk hs => ?_)
  · intro j hj hjv hjc
    rw [setHandle_self] at hj hjv hjc ⊢
    obtain rfl : i = j := Option.some.inj (hi.symm.trans ((hcur hjv).1.symm.trans hj))
    exact Shm.trusted_fill.2 (fun hv' _ => hown hv') hjv hjc
  · exact Shm.trusted_fill.2 (htrust k' hk hs)

variable [DecidableEq κ]

/-- `Detects` after a client connected to topic `t`. -/
theorem detects_connect {m : Shm} {h : ShmHandle} {t : Name} (hd : ∀ k, w.Detects k)
    (hf : Shm.Frame w.shm m i)
    (hown : ∀ j, h.slot = some j → m.Owns j t ∧ h.ptr = m.segment.named t)
    (hi : ∀ k', k' ≠ k → (w.handle k').slot = some i →
      m.Trusted i (w.handle k') (w.topic k')) : ∀ k', (w.connect k t (m, h)).Detects k' := by
  refine detects_of_frame hd (fun j hj _ _ => ?_) (fun k' hk => connect_ne w t (m, h) hk) hf hi
  rw [connect_handle_self] at hj ⊢
  rw [connect_topic_self]
  exact hown j hj

theorem detects_findHandle (hd : ∀ k, w.Detects k) {name : CString} (hp : name.Plain) :
    ∀ k', (w.step (.findHandle k name)).Detects k' := by
  rw [step]
  refine detects_connect (i := 0) hd (Shm.frame_refl _ _) (fun j hj => ?_)
    (fun k' _ hs => hd k' _ hs)
  rw [← hp.key_eq]
  cases hs : w.shm.slotOf name with
  | none =>
    rw [Shm.findHandle_none hs] at hj
    cases hj
  | some i =>
    have ho := Shm.slotOf_some hs
    rw [Shm.findHandle_some hs, ShmHandle.slot_of, Option.some.injEq] at hj
    subst hj
    rw [Shm.findHandle_some hs]
    exact ⟨ho, congrArg _ ho.2⟩

theorem detects_allocateBlock (hm : w.shm.Good) (hd : ∀ k, w.Detects k) {name : CString}
    (hp : name.Plain) {size : UInt32} (hu : w.Unmistaken (.allocateBlock k name size true)) :
    ∀ k', (w.step (.allocateBlock k name size true)).Detects k' := by
  rcases hm.allocateBlock_cases hp.key_ne size.toNat with
    ⟨i, ho, -, heq⟩ | ⟨i, ho, hlt, heq⟩ | ⟨i, hn, hf, heq⟩ | ⟨-, -, heq⟩ <;>
    rw [step_allocateBlock heq, ← hp.key_eq]
  · refine detects_connect hd Shm.frame_resize (fun j hj => ?_)
      (fun k' _ hs => (hd k' i hs).resize)
    rw [ShmHandle.slot_of, Option.some.injEq] at hj
    subst hj
    exact ⟨Shm.owns_resize.2 ho, congrArg _ ho.2⟩
  · refine detects_connect hd (hm.frame_renew ho.1) (fun j hj => ?_) (fun k' hk hs hv hc => ?_)
    · rw [ShmHandle.slot_of, Option.some.injEq] at hj
      subst hj
      rw [← ho.2, Shm.renew_named]
      exact ⟨Shm.owns_renew.2 ⟨ho.1, rfl⟩, rfl⟩
    · rw [Shm.renew_self, Shm.resize_count_recordSize hlt] at hc
      exact absurd hc (hu i (by rw [hm.slotOf_eq ho, Option.some_or]) hlt k' hk hv hs)
  · have hfree := Shm.freeSlot_some hf
    have hal := (hm.inactive i hfree).2.2.1
    refine detects_connect hd (hm.frame_occupy hp.key_ne (Shm.slotOf_none.1 hn))
      (fun j hj => ?_) (fun k' hk hs hv hc => ?_)
    · rw [ShmHandle.slot_of, Option.some.injEq] at hj
      subst hj
      exact ⟨Shm.owns_occupy, Shm.occupy_named.symm⟩
    · rw [Shm.occupy_self] at hc
      rcases Nat.eq_zero_or_pos size.toNat with h0 | hpos
      · -- the counter stays 0, and 0 was nobody's count on a free slot
        have hc0 : (w.handle k').resize_count = (w.shm.descriptors i).resize_count_ := by
          simpa [h0, Descriptor.recordSize, Descriptor.allocate] using hc
        exact absurd (hd k' i hs hv hc0).1.1 hfree
      · have hlt : (w.shm.descriptors i).allocated_ < size.toNat := hal.trans_lt hpos
        have hc1 := Shm.resize_count_recordSize
          (d := (w.shm.descriptors i).allocate name) hlt size.toNat
        exact absurd (hc.trans hc1) (hu i (by rw [hn, hf, Option.none_or]) hlt k' hk hv hs)
  · refine detects_connect (i := 0) hd (Shm.frame_refl _ _) (fun j hj => ?_)
      (fun k' _ hs => hd k' _ hs)
    cases hj

theorem detects_read (hm : w.shm.Good) (hd : ∀ k, w.Detects k) (hu : w.Unmistaken (.read k)) :
    ∀ k', (w.step (.read k)).Detects k' := by
  rw [step]
  cases hs : (w.handle k).slot with
  | none => exact hd
  | some i =>
    simp only [Shm.deserialize_handle]
    refine detects_of_frame (k := k) (i := i) hd (fun j hj hv _ => ?_)
      (fun k' hk => ⟨setHandle_ne w _ hk, rfl⟩) (Shm.frame_refl _ _) (fun k' _ hs' => hd k' i hs')
    rw [setHandle_self] at hj hv ⊢
    obtain rfl : i = j := Option.some.inj (hs.symm.trans ((Shm.refresh_slot _).symm.trans hj))
    exact hm.refresh_own (hd k i hs) (hu i hs) hv

theorem detects_resetBlock (hm : w.shm.Good) (hd : ∀ k, w.Detects k)
    (hu : w.Unmistaken (.resetBlock k)) : ∀ k', (w.step (.resetBlock k)).Detects k' := by
  rw [step]
  cases hs : (w.handle k).slot with
  | none => exact hd
  | some i =>
    simp only [Shm.resetBlock]
    split_ifs with hv
    · obtain ⟨hr, hother⟩ := hu i hv hs
      refine detects_of_frame (k := k) hd (fun j hj => ?_)
        (fun k' hk => ⟨setHandle_ne w _ hk, rfl⟩) (hm.frame_resetSlot hr)
        (fun k' hk hs' => hother.trusted hk ?_ hs')
      · rw [setHandle_self] at hj
        cases hj
      · exact congrArg _ Shm.resetSlot_self
    · have hsame : w.setHandle k (w.shm, w.handle k) = w := by
        simp [setHandle]
      rw [hsame]
      exact hd

theorem detects_resetAllBlocks (hm : w.shm.Good) (hd : ∀ k, w.Detects k)
    (hu : w.Unmistaken (.resetAllBlocks : Op κ)) : ∀ k', (w.step .resetAllBlocks).Detects k' := by
  have hall := Shm.resetAllBlocks_induction (m := w.shm)
    (P := fun m => m.Good ∧ (∀ k, Detects ⟨m, w.handle, w.topic⟩ k) ∧
      ∀ k i, (w.handle k).is_valid = true → (w.handle k).slot = some i → m.active i →
        (w.handle k).resize_count ≠ 0)
    ⟨hm, hd, hu⟩ ?_
  · exact hall.2.1
  · rintro m i ⟨hg, hdm, hz⟩ ha
    have hr : ¬ m.active i → ∀ j, m.active j → m.key j ≠ [] := fun hi => absurd ha hi
    refine ⟨hg.resetSlot hr, fun k => ?_, fun k j hv hs hj => ?_⟩
    · refine (hdm k).frame rfl rfl
        (hg.frame_resetSlot hr) (fun hs hv hc => ?_)
      exact absurd (hc.trans (congrArg _ Shm.resetSlot_self)) (hz k i hv hs ha)
    · by_cases hji : j = i
      · subst hji
        simp [Shm.active] at hj
      · rw [Shm.active, Shm.resetSlot_ne hji] at hj
        exact hz k j hv hs hj

theorem detects_step {op : Op κ} (ho : op.Ordinary) (hm : w.shm.Good) (hd : ∀ k, w.Detects k)
    (hu : w.Unmistaken op) : ∀ k, (w.step op).Detects k := by
  cases op with
  | findHandle k name => exact detects_findHandle hd ho
  | allocateBlock k name size alloc =>
    obtain ⟨hp, rfl⟩ := ho
    exact detects_allocateBlock hm hd hp hu
  | reallocateBlock k size alloc =>
    rw [step]
    cases hv : (w.handle k).is_valid with
    | false =>
      rw [Shm.reallocateBlock_invalid hv]
      simpa [setHandle] using hd
    | true =>
      cases hs : (w.handle k).slot with
      | none =>
        rw [Shm.reallocateBlock_no_slot hs]
        simpa [setHandle] using hd
      | some i =>
        rw [Shm.reallocateBlock_valid hv hs]
        exact detects_reallocate hm hd hv hs size.toNat_lt (hu i hv hs) [] (.inl rfl)
  | publish_msg k msg alloc =>
    rw [step]
    cases hv : (w.handle k).is_valid with
    | false =>
      rw [Shm.publish_msg_invalid hv]
      simpa [setHandle] using hd
    | true =>
      cases hs : (w.handle k).slot with
      | none =>
        rw [Shm.publish_msg_no_slot hs]
        simpa [setHandle] using hd
      | some i =>
        obtain ⟨data, hshm⟩ := Shm.publish_msg_shm (m := w.shm) hv hs msg alloc
        have hr : (w.shm.publish_msg (w.handle k) msg alloc).2
            = (_, _) := Prod.ext hshm (Shm.publish_msg_handle hv hs msg alloc)
        rw [hr]
        exact detects_reallocate hm hd hv hs msg.serlen.toNat_lt (hu i hv hs) data (.inr rfl)
  | read k => exact detects_read hm hd hu
  | resetBlock k => exact detects_resetBlock hm hd hu
  | resetAllBlocks => exact detects_resetAllBlocks hm hd hu

/-- **Stale handles are detected.** In every run of whole operations with plain names whose calls
mistake no topic, a valid handle with the count of its slot is, in every state, a handle to a slot
in use for its topic with the pointer to the topic's block; and every write and every read of the
run goes to the block of its own topic. -/
theorem detects_always (size : ℕ) (ops : List (Op κ)) (hops : ∀ op ∈ ops, op.Ordinary)
    (h : Run.Along step Unmistaken (init size) ops) :
    Run.Always step (fun w => ∀ k, w.Detects k) (init size) ops ∧
      Run.Along step OwnAccess (init size) ops := by
  have hinit : (init size : World κ).shm.Good ∧ ∀ k, (init size : World κ).Detects k :=
    ⟨Shm.good_init size, fun k i hi => by cases hi⟩
  have hstep : ∀ (w : World κ) op, op.Ordinary → (w.shm.Good ∧ ∀ k, w.Detects k) →
      w.Unmistaken op → (w.step op).shm.Good ∧ ∀ k, (w.step op).Detects k :=
    fun w op ho hi hu => ⟨good_step ho hi.1 (hu.sound hi.2), detects_step ho hi.1 hi.2 hu⟩
  exact ⟨(Run.always_of_along step _ hstep hinit hops h).mono fun _ hi => hi.2,
    Run.along_of_along step _ hstep (fun w op _ hi hu => ownAccess_of_detects hi.1 hi.2 hu) hinit
      hops h⟩

/-- The first client publishes an empty message on the topic "a", and the second reads it. -/
def publishThenRead : List (Op Client) :=
  [.allocateBlock .first topicA 16 true, .findHandle .second topicA,
    .publish_msg .first RawMessage.empty.toMessage true, .read .second]

/-- The rule at a run without resets. -/
theorem detects_always_publish :
    Run.Always step (fun w => ∀ k, w.Detects k) (init 0) publishThenRead ∧
      Run.Along step OwnAccess (init 0) publishThenRead := by
  refine detects_always 0 publishThenRead (by decide) ⟨?_, trivial, ?_, ?_, trivial⟩
  · exact fun _ _ _ _ _ hv => by cases hv
  · have hstate : ∀ i,
        ((Run.exec step (init 0) (publishThenRead.take 2)).handle .first).slot = some i →
        ((Run.exec step (init 0) (publishThenRead.take 2)).handle .first).resize_count
          = ((Run.exec step (init 0) (publishThenRead.take 2)).shm.descriptors i).resize_count_ ∧
        8 ≤ ((Run.exec step (init 0) (publishThenRead.take 2)).shm.descriptors i).allocated_ := by
      decide +kernel
    exact fun i _ hs => ⟨fun hc => absurd (hstate i hs).1 hc,
      fun hlt => absurd hlt (not_lt.2 (hstate i hs).2)⟩
  · have hstate : ∀ i,
        ((Run.exec step (init 0) (publishThenRead.take 3)).handle .second).slot = some i →
        ((Run.exec step (init 0) (publishThenRead.take 3)).handle .second).resize_count
          = ((Run.exec step (init 0) (publishThenRead.take 3)).shm.descriptors i).resize_count_ := by
      decide +kernel
    exact fun i hs hc => absurd (hstate i hs) hc

/-- The second client resets the topic of the first and takes its slot for another. -/
def resetThenReuse : List (Op Client) :=
  [.allocateBlock .first topicA 16 true, .findHandle .second topicA, .resetBlock .second,
    .allocateBlock .second topicB 16 true]

/-- Stale handles are not always detected: the slot of a topic that was reset counts up again for
its next owner, to the count that the first client still has. -/
theorem stale_undetected : ¬ ∀ (size : ℕ) (ops : List (Op Client)), (∀ op ∈ ops, op.Ordinary) →
    Run.Always step (fun w => ∀ k, w.Detects k) (init size) ops := by
  intro h
  have hd := (h 0 resetThenReuse (by decide)).exec .first 0 (by decide +kernel) (by decide +kernel)
    (by decide +kernel)
  have hkey : (Run.exec step (init 0) resetThenReuse).shm.key 0
      ≠ (Run.exec step (init 0) resetThenReuse).topic .first := by decide +kernel
  exact hkey hd.1.2

end World

end MessageTransport
