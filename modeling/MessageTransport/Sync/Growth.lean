import MessageTransport.Sharedmem.NameTable
import MessageTransport.Sync.Tables

/-!
# Blocks that are replaced while others hold handles

Who holds a handle notices that its block was replaced by the count of the slot. `reallocateBlock`
finds the block too small under the descriptor's mutex and replaces it under the global one. If
`allocateBlock` makes it larger in between, the new block is no larger than the one it replaces,
`recordSize` does not count, and nobody notices. In runs without resets that is the only way:

* `announced_iff_growing`: every replaced block is announced by a new count exactly when no block is
  replaced by one that is not larger;
* `detecting_of_growing`: then a handle with the count of its slot has the slot's block;
* `detecting_of_even`: the publishers all begin with blocks of the same size, and that is enough.
-/

namespace MessageTransport

namespace Sync

/-! ### What a step does to the slots -/

/-- Slot `i` has the same block, under the same name, of the same size and with the same count. -/
structure Still (s t : Shm) (i : Slot) : Prop where
  active : t.active i ↔ s.active i
  key : t.key i = s.key i
  count : (t.descriptors i).resize_count_ = (s.descriptors i).resize_count_
  allocated : (t.descriptors i).allocated_ = (s.descriptors i).allocated_
  named : t.segment.named (s.key i) = s.segment.named (s.key i)

instance (s t : Shm) (i : Slot) : Decidable (Still s t i) :=
  decidable_of_iff ((t.active i ↔ s.active i) ∧ t.key i = s.key i ∧
      (t.descriptors i).resize_count_ = (s.descriptors i).resize_count_ ∧
      (t.descriptors i).allocated_ = (s.descriptors i).allocated_ ∧
      t.segment.named (s.key i) = s.segment.named (s.key i))
    ⟨fun ⟨ha, hk, hc, hal, hn⟩ => ⟨ha, hk, hc, hal, hn⟩,
      fun ⟨ha, hk, hc, hal, hn⟩ => ⟨ha, hk, hc, hal, hn⟩⟩

/-- The handle has the count and the block of its slot. -/
def Fresh (s : Shm) (h : ShmHandle) : Prop :=
  ∀ i, h.slot = some i → h.resize_count = (s.descriptors i).resize_count_ ∧
    h.ptr = s.segment.named (s.key i)

/-- A step of a party, as far as the blocks of the slots go: all stay, one is made for a free slot,
or one is replaced, by `allocateBlock` or by `reallocateBlock`. -/
inductive SlotStep (x : Party) (s : Shm) : Act → Shm → ShmHandle → Prop
  | still {a : Act} {t : Shm} {g : ShmHandle} (ht : ∀ i, Still s t i)
    (hg : g = x.handle ∨ Fresh t g)
    (hb : a = .go → ∀ i size alloc, x.toDo ≠ some (.grow i size alloc)) : SlotStep x s a t g
  | occupied {name : CString} {size : UInt32} {j : Slot} {g : ShmHandle}
    (hb : x.toDo = some (.allocateBlock name size true)) (hj : ¬ s.active j)
    (hg : Fresh (s.occupy j name size.toNat) g) (hf : Shm.Frame s (s.occupy j name size.toNat) j) :
    SlotStep x s .go (s.occupy j name size.toNat) g
  | renewed {name : CString} {size : UInt32} {j : Slot} {g : ShmHandle}
    (hb : x.toDo = some (.allocateBlock name size true)) (hj : s.active j)
    (hlt : (s.descriptors j).allocated_ < size.toNat) (hg : Fresh (s.renew j size.toNat) g) :
    SlotStep x s .go (s.renew j size.toNat) g
  | grown {size : UInt32} {j : Slot} {g : ShmHandle}
    (hb : x.toDo = some (.grow j size true)) (hj : s.active j) (hpos : 0 < size.toNat)
    (hg : Fresh (s.renew j size.toNat) g) : SlotStep x s .go (s.renew j size.toNat) g

section Slots

variable {x : Party} {s t : Shm} {a : Act} {g h : ShmHandle} {i j : Slot} {size : ℕ}

theorem still_refl (s : Shm) (i : Slot) : Still s s i := ⟨Iff.rfl, rfl, rfl, rfl, rfl⟩

theorem still_addClients (m : Mutex) (d : ℤ) : Still s (addClients s m d) i := by
  cases m with
  | global => exact ⟨Iff.rfl, rfl, rfl, rfl, rfl⟩
  | desc j =>
    by_cases hij : i = j
    · subst hij
      constructor <;> simp only [addClients, Shm.active, Shm.key, Shm.setDescriptor_self] <;> rfl
    · constructor <;> simp only [addClients, Shm.active, Shm.key, Shm.setDescriptor_ne _ _ hij,
        Shm.setDescriptor_segment]

theorem still_resize : Still s (s.resize j size) i := by
  by_cases hij : i = j
  · subst hij
    constructor <;> simp only [Shm.active, Shm.key, Shm.resize_self] <;> rfl
  · constructor <;> simp only [Shm.active, Shm.key, Shm.resize_ne hij]
    rfl

theorem still_fill (p : Ptr) (data : List UInt8) : Still s (s.fill p data) i :=
  ⟨Iff.rfl, rfl, rfl, rfl, by rw [Shm.fill, Segment.setBytes_named]⟩

theorem fresh_of (hc : (t.descriptors i).resize_count_ = size)
    {p : Ptr} (hp : p = t.segment.named (t.key i)) : Fresh t (.of i size p) := by
  intro j hj
  obtain rfl : i = j := by simpa using hj
  exact ⟨hc.symm, hp⟩

theorem fresh_null : Fresh s .null := fun i hi => by cases hi

theorem fresh_relookup (hi : h.slot = some i) : Fresh s (s.relookup i h) := by
  intro j hj
  obtain rfl : i = j := Option.some.inj (hi.symm.trans hj)
  exact ⟨rfl, rfl⟩

/-- A look at the block changes a handle into a fresh one, or leaves it alone. -/
theorem fresh_refresh (hi : h.slot = some i) : s.refresh i h = h ∨ Fresh s (s.refresh i h) := by
  unfold Shm.refresh
  split_ifs
  · exact .inr (fresh_relookup hi)
  · exact .inl rfl

/-- A replaced block is at an address that was never used. -/
theorem renew_moves (hwf : s.segment.WF) :
    (s.renew i size).segment.named (s.key i) ≠ s.segment.named (s.key i) := by
  rw [Shm.renew_named]
  exact fun hn => lt_irrefl _ (hwf.fresh hn.symm)

theorem renew_key : (s.renew i size).key i = s.key i := by
  rw [Shm.key, Shm.renew_self, Descriptor.key_recordSize, Shm.key]

/-- What a renewal does not touch. -/
theorem still_of_frame (hf : Shm.Frame s t j) (hi : s.active i) (hij : i ≠ j) : Still s t i where
  active := by rw [Shm.active, hf.descriptors i hij]
  key := by rw [Shm.key, hf.descriptors i hij, Shm.key]
  count := by rw [hf.descriptors i hij]
  allocated := by rw [hf.descriptors i hij]
  named := hf.named _ (.inr ⟨i, hij, hi, rfl⟩)

/-- The count of a replaced block. -/
theorem count_renew : ((s.renew i size).descriptors i).resize_count_
    = if (s.descriptors i).allocated_ < size then u32 ((s.descriptors i).resize_count_ + 1)
      else (s.descriptors i).resize_count_ := by
  rw [Shm.renew_self]
  rfl

theorem count_occupy {name : CString} (hs : s.Good) (hj : ¬ s.active j) :
    ((s.occupy j name size).descriptors j).resize_count_ = if 0 < size then 1 else 0 := by
  rw [Shm.occupy_self]
  simp only [Descriptor.recordSize, Descriptor.allocate, (hs.inactive j hj).2.2.1, hs.dormant j hj]
  rfl

theorem allocated_occupy {name : CString} (hs : s.Good) (hj : ¬ s.active j) :
    ((s.occupy j name size).descriptors j).allocated_ = size := by
  rw [Shm.occupy_self]
  refine Shm.allocated_recordSize ?_
  exact (hs.inactive j hj).2.2.1.trans_le (Nat.zero_le _)

theorem u32_succ_ne (n : ℕ) : u32 (n + 1) ≠ n := by
  unfold u32
  omega

/-! ### Work that resets no slot -/

theorem grow_of_stay {alloc : Bool} (hstay : (s.grow i h size alloc).1.active i) :
    alloc = true ∧ s.grow i h size alloc = (s.renew i size,
      { h with ptr := some s.segment.next,
               resize_count := ((s.descriptors i).recordSize size size).resize_count_ }) := by
  rcases grow_cases s i h size alloc with hgrow | ⟨-, heq⟩
  · exact hgrow
  · simp only [heq, Shm.active, Shm.resetSlot_self, Descriptor.active_reset] at hstay
    cases hstay

theorem resetBlock_of_stay (hstay : (s.resetBlock i h).1.active i) : s.resetBlock i h = (s, h) := by
  unfold Shm.resetBlock at hstay ⊢
  split_ifs at hstay ⊢ with hv
  · simp only [Shm.active, Shm.resetSlot_self, Descriptor.active_reset] at hstay
    cases hstay
  · rfl

theorem resetAllBlocks_of_stay (hstay : ∀ i, s.active i → s.resetAllBlocks.active i) :
    s.resetAllBlocks = s := by
  have hnone : ∀ i, ¬ s.active i := fun i hi => Shm.not_active_resetAllBlocks s i (hstay i hi)
  refine Shm.resetAllBlocks_induction (P := fun m => m = s) rfl fun m i hm hi => ?_
  exact absurd (hm ▸ hi) (hnone i)

/-- **Inversion.** A step that resets no slot, as far as the blocks of the slots go. -/
theorem Change.slotStep (hc : Change x s a t g) (hok : x.Ok) (hs : s.Good)
    (haim : ∀ i, Aimed s i x.handle) (hask : x.Asks Body.Ordinary)
    (hstay : ∀ i, s.active i → t.active i) : SlotStep x s a t g := by
  cases hc with
  | none hb =>
    exact .still (still_refl s) (.inl rfl) fun ha i size alloc h => by
      cases (hb ha).symm.trans h
  | addClients m d hb =>
    exact .still (fun i => still_addClients m d) (.inl rfl) fun _ i size alloc h => by
      cases hb.symm.trans h
  | resize hx hp hfit =>
    exact .still (fun i => still_resize) (.inl rfl) fun _ i size alloc h => by
      simp [Party.toDo, hx, hp] at h
  | fill hx hp data =>
    have hwf := hok.ready hx
    rw [hp] at hwf
    refine .still (fun i => still_fill _ data) ?_ fun _ i size alloc h => by
      simp [Party.toDo, hx, hp] at h
    rcases fresh_refresh (s := s) hwf.1.2 with heq | hfresh
    · exact .inl heq
    · refine .inr fun i hi => ?_
      rw [Shm.fill, Segment.setBytes_named]
      exact hfresh i hi
  | look hx hp =>
    have hwf := hok.ready hx
    rw [hp] at hwf
    exact .still (still_refl s) (fresh_refresh hwf.1.2) fun _ i size alloc h => by
      simp [Party.toDo, hx, hp] at h
  | body hb =>
    rename_i b
    obtain ⟨hx, k, hp⟩ := Party.of_toDo hb
    have hwf := hok.ready hx
    rw [hp] at hwf
    have hord : b.Ordinary := hask b (hp ▸ List.mem_cons_self)
    have hslot : ∀ i, b.slot = some i → x.handle.slot = some i := hwf.1.2.2
    cases b with
    | findHandle name =>
      refine .still (still_refl s) (.inr ?_) fun _ i size alloc h => by cases hb.symm.trans h
      cases hn : s.slotOf name with
      | none =>
        simp only [Body.run, Shm.findHandle_none hn]
        exact fresh_null
      | some i =>
        simp only [Body.run, Shm.findHandle_some hn]
        exact fresh_of rfl rfl
    | allocateBlock name size alloc =>
      obtain ⟨hplain, rfl⟩ := hord
      rcases hs.allocateBlock_cases hplain.key_ne size.toNat with
        ⟨j, ho, hfit, heq⟩ | ⟨j, ho, hlt, heq⟩ | ⟨j, hn, hf, heq⟩ | ⟨-, -, heq⟩
      · simp only [Body.run, heq, Option.getD_some]
        refine .still (fun i => still_resize) (.inr (fresh_of ?_ ?_)) fun _ i size alloc h => by
          cases hb.symm.trans h
        · rw [Shm.resize_self]
        · rw [still_resize.key, still_resize.named]
      · simp only [Body.run, heq, Option.getD_some]
        refine .renewed hb ho.1 hlt (fresh_of ?_ ?_)
        · rw [count_renew, if_pos hlt]
        · rw [renew_key, Shm.renew_named]
      · simp only [Body.run, heq, Option.getD_some]
        have hfree := Shm.freeSlot_some hf
        have hframe : Shm.Frame s (s.occupy j name size.toNat) j :=
          hs.frame_occupy hplain.key_ne (Shm.slotOf_none.1 hn)
        refine .occupied hb hfree (fresh_of ?_ ?_) hframe
        · rw [count_occupy hs hfree]
        · rw [Shm.owns_occupy.2, Shm.occupy_named]
      · simp only [Body.run, heq, Option.getD_some]
        exact .still (still_refl s) (.inr fresh_null) fun _ i size alloc h => by
          cases hb.symm.trans h
    | relookup i =>
      exact .still (still_refl s) (.inr (fresh_relookup (hslot i rfl))) fun _ i size alloc h => by
        cases hb.symm.trans h
    | grow i size alloc =>
      have hact := (haim i (hslot i rfl)).1
      obtain ⟨rfl, heq⟩ := grow_of_stay (hstay i hact)
      simp only [Body.run, heq]
      refine .grown hb hact hord fun j hj => ?_
      obtain rfl : i = j := Option.some.inj ((hslot i rfl).symm.trans hj)
      exact ⟨by rw [Shm.renew_self], by rw [renew_key, Shm.renew_named]⟩
    | resetBlock i =>
      have hact := (haim i (hslot i rfl)).1
      simp only [Body.run, resetBlock_of_stay (hstay i hact)]
      exact .still (still_refl s) (.inl rfl) fun _ i size alloc h => by cases hb.symm.trans h
    | resetAllBlocks =>
      simp only [Body.run] at hstay ⊢
      rw [resetAllBlocks_of_stay hstay]
      exact .still (still_refl s) (.inl rfl) fun _ i size alloc h => by cases hb.symm.trans h

end Slots

/-! ### Announcing a new block -/

/-- The work does not replace a block by one that is no larger. -/
def Body.Grows (s : Shm) : Body → Prop
  | .grow i size _ => (s.descriptors i).allocated_ < size.toNat
  | _ => True

instance (s : Shm) (b : Body) : Decidable (b.Grows s) :=
  match b with
  | .grow i size _ => inferInstanceAs (Decidable ((s.descriptors i).allocated_ < size.toNat))
  | .findHandle _ | .allocateBlock _ _ _ | .relookup _ | .resetBlock _ | .resetAllBlocks =>
    inferInstanceAs (Decidable True)

namespace Machine

variable {ι : Type*}

/-- The act does not replace a block by one that is no larger. -/
def Growing (c : Machine ι) : ι × Act → Prop
  | (p, .go) => ∀ b ∈ (c.party p).toDo, b.Grows c.shared.shm
  | _ => True

instance (c : Machine ι) (a : ι × Act) : Decidable (c.Growing a) :=
  match a with
  | (p, .go) => inferInstanceAs (Decidable (∀ b ∈ (c.party p).toDo, b.Grows c.shared.shm))
  | (_, .call _) | (_, .timeout) => inferInstanceAs (Decidable True)

variable [DecidableEq ι] {c : Machine ι}

/-- If the act gives a slot in use another block, it gives it another count. -/
def Announced (c : Machine ι) (a : ι × Act) : Prop :=
  ∀ i, c.shared.shm.active i →
    (c.step a).shared.shm.segment.named (c.shared.shm.key i)
      ≠ c.shared.shm.segment.named (c.shared.shm.key i) →
    ((c.step a).shared.shm.descriptors i).resize_count_
      ≠ (c.shared.shm.descriptors i).resize_count_

/-- **Inversion.** The steps of a settled machine that reset no slot. -/
theorem Settled.slotStep (h : c.Settled) {a : ι × Act} (ha : c.Resetless a) {e : Effect}
    (he : (c.party a.1).effect c.shared a.2 = some e) (heq : c.step a = c.apply wake a.1 e) :
    SlotStep (c.party a.1) c.shared.shm a.2 e.shared.shm e.self.handle := by
  have hstay : ∀ i, c.shared.shm.active i → e.shared.shm.active i := fun i hi => by
    have hkeep := ha i hi
    rwa [heq, Monitor.apply_shared] at hkeep
  exact (change_of_effect he).slotStep (h.sound.ok a.1) h.tidy.good
    (fun i => (h.placed i).aimed a.1) (h.tidy.programs a.1) hstay

/-- **One step.** A replaced block is announced exactly when it is larger. -/
theorem Settled.announced_iff (h : c.Settled) {a : ι × Act} (ha : c.Resetless a) :
    c.Announced a ↔ c.Growing a := by
  have hgood := h.tidy.good
  by_cases hgrow : a.2 = .go ∧ ∃ i size alloc, (c.party a.1).toDo = some (.grow i size alloc)
  · obtain ⟨p, act⟩ := a
    obtain ⟨rfl, i, size, alloc, hb⟩ := hgrow
    obtain ⟨e, he, -, heq⟩ := step_of_toDo hb
    have hstep := h.slotStep ha he heq
    have hgrowing : c.Growing (p, .go)
        ↔ (c.shared.shm.descriptors i).allocated_ < size.toNat := by
      simp only [Growing, hb, Option.mem_some_iff, forall_eq', Body.Grows]
    rw [hgrowing, Announced, heq, Monitor.apply_shared]
    generalize e.shared.shm = t, e.self.handle = g at hstep
    cases hstep with
    | still ht hg hno => exact absurd hb (hno rfl i size alloc)
    | occupied hb' | renewed hb' => cases hb.symm.trans hb'
    | grown hb' hj hpos hg =>
      cases hb.symm.trans hb'
      constructor
      · intro hann
        have hcount := hann i hj (renew_moves hgood.wf)
        rw [count_renew] at hcount
        by_contra hlt
        exact hcount (if_neg hlt)
      · intro hlt j hj' hmove
        by_cases hji : j = i
        · subst hji
          rw [count_renew, if_pos hlt]
          exact u32_succ_ne _
        · exact absurd (still_of_frame (hgood.frame_renew hj) hj' hji).named hmove
  · have hgrowing : c.Growing a := by
      obtain ⟨p, act⟩ := a
      cases act with
      | call | timeout => trivial
      | go =>
        intro b hb
        cases b with
        | grow i size alloc => exact absurd ⟨rfl, i, size, alloc, hb⟩ hgrow
        | _ => trivial
    refine iff_of_true (fun j hj hmove => ?_) hgrowing
    rcases Monitor.step_cases wake Party.effect c a.1 a.2 with heq | ⟨e, he, -, heq⟩
    · rw [Machine.step, heq] at hmove
      exact absurd rfl hmove
    · have hstep := h.slotStep ha he heq
      rw [Machine.step, heq, Monitor.apply_shared] at hmove ⊢
      generalize e.shared.shm = t, e.self.handle = g, a.2 = act at hstep hmove hgrow
      cases hstep with
      | still ht hg hno => exact absurd (ht j).named hmove
      | occupied hb hi hg hf =>
        rename_i name size i
        have hji : j ≠ i := by rintro rfl; exact hi hj
        exact absurd (still_of_frame hf hj hji).named hmove
      | renewed hb hi hlt hg =>
        rename_i name size i
        by_cases hji : j = i
        · subst hji
          rw [count_renew, if_pos hlt]
          exact u32_succ_ne _
        · exact absurd (still_of_frame (hgood.frame_renew hi) hj hji).named hmove
      | grown hb => exact absurd ⟨rfl, _, _, _, hb⟩ hgrow

/-- **Replaced blocks are announced.** In a run without resets every block that takes the place of
another one comes with a new count, exactly when no `reallocateBlock` replaces a block that was made
at least as large in the meantime. -/
theorem announced_iff_growing (size : ℕ) (as : List (ι × Act)) (hord : ∀ a ∈ as, a.2.Ordinary)
    (h : Run.Along step Resetless (init size : Machine ι) as) :
    Run.Along step Announced (init size : Machine ι) as ↔
      Run.Along step Growing (init size) as :=
  Run.along_congr_of_along step Settled (fun _ _ ho hs ha => hs.step ho ha)
    (fun _ _ _ hs ha => hs.announced_iff ha) (settled_init size) hord h

/-! ### Handles that know their blocks -/

end Machine

/-- The handle has no newer count than its slot, and with the count of the slot it has the block. -/
def Tracked (s : Shm) (h : ShmHandle) : Prop :=
  ∀ i, h.slot = some i → h.resize_count ≤ (s.descriptors i).resize_count_ ∧
    (h.is_valid = true → h.resize_count = (s.descriptors i).resize_count_ →
      h.ptr = s.segment.named (s.key i))

/-- No slot was counted up more often than it has bytes. -/
def Counted (s : Shm) : Prop :=
  ∀ i, (s.descriptors i).resize_count_ ≤ (s.descriptors i).allocated_

section Tracked

variable {x : Party} {s t : Shm} {a : Act} {g h : ShmHandle}

theorem Fresh.tracked (hg : Fresh t g) : Tracked t g := fun i hi =>
  ⟨(hg i hi).1.le, fun _ _ => (hg i hi).2⟩

/-- A slot in use stays as it is, or gets a count that it never had. -/
def Advances (s t : Shm) : Prop :=
  ∀ i, s.active i → Still s t i ∨ (s.descriptors i).resize_count_ < (t.descriptors i).resize_count_

theorem Tracked.advance (h : Tracked s g) (haim : ∀ i, Aimed s i g) (ht : Advances s t) :
    Tracked t g := by
  intro i hi
  obtain ⟨hle, hptr⟩ := h i hi
  rcases ht i (haim i hi).1 with hstill | hlt
  · rw [hstill.count, hstill.key, hstill.named]
    exact ⟨hle, hptr⟩
  · exact ⟨hle.trans hlt.le, fun _ hc => absurd hc (hle.trans_lt hlt).ne⟩

/-- A larger block brings a count that the slot never had: there are not enough bytes for the
counter to wrap around. -/
theorem count_renew_larger {j : Slot} {size : ℕ} (hc : Counted s)
    (hlt : (s.descriptors j).allocated_ < size) (hsize : size < 2 ^ 32) :
    ((s.renew j size).descriptors j).resize_count_ = (s.descriptors j).resize_count_ + 1 := by
  have := hc j
  rw [count_renew, if_pos hlt, u32_of_lt (by omega)]

theorem advances_renew {j : Slot} {size : ℕ} (hs : s.Good) (hc : Counted s) (hj : s.active j)
    (hlt : (s.descriptors j).allocated_ < size) (hsize : size < 2 ^ 32) :
    Advances s (s.renew j size) := by
  intro i hi
  by_cases hij : i = j
  · subst hij
    rw [count_renew_larger hc hlt hsize]
    exact .inr (Nat.lt_succ_self _)
  · exact .inl (still_of_frame (hs.frame_renew hj) hi hij)

theorem counted_renew {j : Slot} {size : ℕ} (hc : Counted s)
    (hlt : (s.descriptors j).allocated_ < size) (hsize : size < 2 ^ 32) :
    Counted (s.renew j size) := by
  intro i
  by_cases hij : i = j
  · subst hij
    have := hc i
    rw [count_renew_larger hc hlt hsize, allocated_renew (by omega)]
    omega
  · rw [Shm.renew_ne hij]
    exact hc i

/-- **What a step does to counts and handles**, if no block is replaced by one that is not larger. -/
theorem SlotStep.tracked (hstep : SlotStep x s a t g) (hs : s.Good) (hc : Counted s)
    (hx : Tracked s x.handle) (haim : ∀ i, Aimed s i x.handle)
    (hgrow : ∀ i size alloc, a = .go → x.toDo = some (.grow i size alloc) →
      (s.descriptors i).allocated_ < size.toNat) :
    Counted t ∧ Advances s t ∧ Tracked t g := by
  cases hstep with
  | still ht hg =>
    have hadv : Advances s t := fun i _ => .inl (ht i)
    refine ⟨fun i => ?_, hadv, ?_⟩
    · rw [(ht i).count, (ht i).allocated]
      exact hc i
    · rcases hg with rfl | hg
      · exact hx.advance haim hadv
      · exact hg.tracked
  | occupied hb hj hg hf =>
    rename_i name size j
    refine ⟨fun i => ?_, fun i hi => .inl (still_of_frame hf hi ?_), hg.tracked⟩
    · by_cases hij : i = j
      · subst hij
        rw [count_occupy hs hj, allocated_occupy hs hj]
        split_ifs <;> omega
      · rw [Shm.occupy_ne hij]
        exact hc i
    · rintro rfl
      exact hj hi
  | renewed hb hj hlt hg =>
    exact ⟨counted_renew hc hlt (UInt32.toNat_lt _), advances_renew hs hc hj hlt (UInt32.toNat_lt _),
      hg.tracked⟩
  | grown hb hj hpos hg =>
    have hlt := hgrow _ _ _ rfl hb
    exact ⟨counted_renew hc hlt (UInt32.toNat_lt _), advances_renew hs hc hj hlt (UInt32.toNat_lt _),
      hg.tracked⟩

end Tracked

namespace Machine

variable {ι : Type*} {c : Machine ι}

/-- Counts and handles in a run in which every replaced block is larger. -/
structure Tracking (c : Machine ι) : Prop where
  counted : Counted c.shared.shm
  tracked : ∀ p, Tracked c.shared.shm (c.party p).handle

theorem tracking_init (size : ℕ) : (init size : Machine ι).Tracking where
  counted i := le_refl 0
  tracked p i hi := by cases hi

/-- A valid handle with the count of its slot has the slot's block. -/
def Detecting (c : Machine ι) : Prop :=
  ∀ p i, (c.party p).handle.slot = some i → (c.party p).handle.is_valid = true →
    (c.party p).handle.resize_count = (c.shared.shm.descriptors i).resize_count_ →
    c.shared.shm.active i ∧
      (c.party p).handle.ptr = c.shared.shm.segment.named (c.shared.shm.key i)

variable [DecidableEq ι]

theorem Tracking.step (h : c.Tracking) (hs : c.Settled) {a : ι × Act} (ha : c.Resetless a)
    (hg : c.Growing a) : (c.step a).Tracking := by
  rcases Monitor.step_cases wake Party.effect c a.1 a.2 with heq | ⟨e, he, -, heq⟩
  · rwa [Machine.step, heq]
  · have hgrow : ∀ i size alloc, a.2 = .go → (c.party a.1).toDo = some (.grow i size alloc) →
        (c.shared.shm.descriptors i).allocated_ < size.toNat := by
      obtain ⟨p, act⟩ := a
      rintro i size alloc rfl hb
      exact hg _ hb
    obtain ⟨hcounted, hadv, hown⟩ := (hs.slotStep ha he heq).tracked hs.tidy.good h.counted
      (h.tracked a.1) (fun i => (hs.placed i).aimed a.1) hgrow
    rw [Machine.step, heq]
    refine ⟨hcounted, fun q => ?_⟩
    rw [Monitor.apply_shared]
    by_cases hq : q = a.1
    · subst hq
      rw [Monitor.apply_party_self]
      exact hown
    · rw [other_handle hq]
      exact (h.tracked q).advance (fun i => (hs.placed i).aimed q) hadv

/-- **Stale handles are detected under every interleaving**, in every run without resets in which no
block is replaced by one that is not larger. -/
theorem detecting_of_growing (size : ℕ) (as : List (ι × Act)) (hord : ∀ a ∈ as, a.2.Ordinary)
    (h : Run.Along step (fun c a => c.Resetless a ∧ c.Growing a) (init size : Machine ι) as) :
    Run.Always step Detecting (init size : Machine ι) as := by
  have hinv := Run.always_of_along (R := fun a : ι × Act => a.2.Ordinary) step
    (fun c : Machine ι => c.Settled ∧ c.Tracking)
    (fun c a ho hc ha => ⟨hc.1.step ho ha.1, hc.2.step hc.1 ha.1 ha.2⟩)
    ⟨settled_init size, tracking_init size⟩ hord h
  exact hinv.mono fun c hc p i hi hv hcount =>
    ⟨((hc.1.placed i).aimed p hi).1, (hc.2.tracked p i hi).2 hv hcount⟩

end Machine

/-! ### Publishers that begin alike -/

/-- The program makes no block larger, as far as it goes now. -/
def NoGrowth (k : List Instr) : Prop := ∀ i size alloc, .body (.grow i size alloc) ∉ k

/-- The program is about to give slot `i` a block of `size` bytes: at most the global mutex and its
check lie in between. -/
inductive Leads (i : Slot) (size : UInt32) : List Instr → Prop
  | body {alloc : Bool} {k : List Instr} (hk : NoGrowth k) :
    Leads i size (.body (.grow i size alloc) :: k)
  | check {k : List Instr} (h : Leads i size k) : Leads i size (.check .global :: k)
  | lock {k : List Instr} (h : Leads i size k) : Leads i size (.lock .global :: k)

/-- Between its test of the size and the new block, the party holds the descriptor's mutex and the
block is too small. -/
def Party.Paced (x : Party) (s : Shm) : Prop :=
  NoGrowth x.prog ∨ ∃ i size, Leads i size x.prog ∧ x.pos.desc = some i ∧
    x.handle.slot = some i ∧ (s.descriptors i).allocated_ < size.toNat

section Paced

variable {x : Party} {s : Shared} {a : Act} {e : Effect} {i : Instr} {j : Slot} {k : List Instr}
  {size : UInt32}

theorem NoGrowth.tail (h : NoGrowth (i :: k)) : NoGrowth k :=
  fun j size alloc hk => h j size alloc (List.mem_cons_of_mem _ hk)

theorem noGrowth_prog (c : Call) (h : ShmHandle) : NoGrowth (c.prog h) := by
  intro i size alloc hb
  rcases body_of_prog hb with ⟨name, hn⟩ | ⟨name, size', alloc', hn, -⟩ | ⟨l, hn⟩ | hn <;> cases hn

/-- An instruction of a program without growth begins one only where the block is too small. -/
theorem paced_effect (hx : x.status = .ready) (hp : x.prog = i :: k) (hok : x.Ok)
    (hn : NoGrowth x.prog) : (i.effect x k s).self.Paced (i.effect x k s).shared.shm := by
  have hk : NoGrowth k := (hp ▸ hn : NoGrowth (i :: k)).tail
  cases i with
  | check m =>
    simp only [Instr.effect]
    split_ifs
    · exact .inl hn
    · exact .inl hk
  | ifStale j =>
    simp only [Instr.effect]
    split_ifs
    · refine .inl fun l size alloc hb => ?_
      simp only [Party.goto, globally, check_global_clients, List.cons_append, List.nil_append,
        List.mem_cons, reduceCtorEq, Instr.body.injEq, false_or] at hb
      exact hk l size alloc hb
    · exact .inl hk
  | ifLarger j size alloc =>
    have hwf := hok.ready hx
    rw [hp] at hwf
    simp only [Instr.effect]
    split_ifs with hs
    · refine .inr ⟨j, size, .lock (.check (.body ?_)), ?_, hwf.1.2, hs⟩
      · intro l size' alloc' hb
        refine hk l size' alloc' ?_
        simpa using hb
      · show x.pos.desc = some j
        rw [hwf.1.1]
    · exact .inl hk
  | timed_wait j => exact .inl hn
  | write j msg =>
    simp only [Instr.effect]
    split_ifs
    · exact .inl hk
    · exact .inl fun l size alloc hb => by simp [Party.goto] at hb
  | read j r =>
    simp only [Instr.effect]
    split_ifs
    · exact .inl hk
    · exact .inl fun l size alloc hb => by simp [Party.goto] at hb
  | _ => exact .inl hk

/-- A program that is about to make a block larger goes on to do so. -/
theorem leads_effect (hp : x.prog = i :: k) (hl : Leads j size (i :: k))
    (hd : x.pos.desc = some j) (hj : x.handle.slot = some j)
    (hlt : (s.shm.descriptors j).allocated_ < size.toNat) :
    (i.effect x k s).self.Paced (i.effect x k s).shared.shm := by
  cases hl with
  | body hk => exact .inl hk
  | check hk =>
    simp only [Instr.effect]
    split_ifs
    · exact .inr ⟨j, size, hp ▸ .check hk, hd, hj, hlt⟩
    · exact .inr ⟨j, size, hk, hd, hj, hlt⟩
  | lock hk => exact .inr ⟨j, size, hk, hd, hj, hlt⟩

/-- **The party's own steps.** -/
theorem Party.Paced.effect (h : x.Paced s.shm) (hok : x.Ok) (he : x.effect s a = some e) :
    e.self.Paced e.shared.shm := by
  cases a with
  | call c =>
    simp only [Party.effect] at he
    split at he
    · cases he
      exact .inl (noGrowth_prog c _)
    · cases he
  | go =>
    simp only [Party.effect] at he
    split at he
    · rename_i i k hx hp
      cases he
      rcases h with hn | ⟨j, size, hl, hd, hj, hlt⟩
      · exact paced_effect hx hp hok hn
      · exact leads_effect hp (hp ▸ hl) hd hj hlt
    · cases he
    · cases he
    · rename_i c hx
      cases he
      obtain ⟨⟨i, k, hp, hi, -, -⟩, -⟩ := hok.waiting (.inr hx)
      simp only [Party.resume, hp]
      rcases h with hn | ⟨j, size, hl, hd, hj, hlt⟩
      · exact .inl (hp ▸ hn : NoGrowth (i :: k)).tail
      · -- it waited for global clients, with the descriptor's mutex in its hands
        rw [hp] at hl
        cases hl with
        | body | lock => cases hi
        | check hk =>
          cases hi
          exact .inr ⟨j, size, hk, hd, hj, hlt⟩
    · cases he
      exact .inl fun l size alloc hb => by simp [Party.goto] at hb
  | timeout =>
    simp only [Party.effect] at he
    split at he
    · cases he
      exact h
    · cases he

/-- What keeps the block of the slot whose mutex the party holds keeps it paced. -/
theorem Party.Paced.keep {s t : Shm} (h : x.Paced s) (hsame : ∀ i, x.pos.desc = some i →
      x.handle.slot = some i → (t.descriptors i).allocated_ = (s.descriptors i).allocated_) :
    x.Paced t := by
  rcases h with hn | ⟨i, size, hl, hd, hi, hlt⟩
  · exact .inl hn
  · exact .inr ⟨i, size, hl, hd, hi, (hsame i hd hi).symm ▸ hlt⟩

theorem wake_paced {s : Shm} (c : Cond) (h : x.Paced s) : (wake c x).Paced s := by
  unfold wake
  split_ifs <;> exact h

/-- What a paced party makes larger is too small, and it holds the mutex. -/
theorem Party.Paced.larger {s : Shm} {alloc : Bool} (h : x.Paced s)
    (hb : x.toDo = some (.grow j size alloc)) :
    x.pos.desc = some j ∧ (s.descriptors j).allocated_ < size.toNat := by
  obtain ⟨-, k, hp⟩ := Party.of_toDo hb
  rcases h with hn | ⟨i, size', hl, hd, -, hlt⟩
  · exact absurd (hp ▸ List.mem_cons_self) (hn j size alloc)
  · rw [hp] at hl
    cases hl
    exact ⟨hd, hlt⟩

end Paced

/-- If the act is a call of `allocateBlock`, it asks for `n` bytes. -/
def Act.Even (n : UInt32) : Act → Prop
  | .call (.allocateBlock _ size _) => size = n
  | _ => True

instance (n : UInt32) (a : Act) : Decidable (a.Even n) :=
  match a with
  | .call (.allocateBlock _ size _) => inferInstanceAs (Decidable (size = n))
  | .call (.findHandle _) | .call (.reallocateBlock _ _) | .call (.serialize _)
  | .call (.wait_data _) | .call .resetBlock | .call .resetAllBlocks | .go | .timeout =>
    inferInstanceAs (Decidable True)

/-- If the work is that of `allocateBlock`, it asks for `n` bytes. -/
def Body.Even (n : UInt32) : Body → Prop
  | .allocateBlock _ size _ => size = n
  | _ => True

namespace Machine

variable {ι : Type*} {c : Machine ι} {n : UInt32}

/-- What holds when all calls of `allocateBlock` ask for `n` bytes: no block is smaller, and nobody
replaces a block that is large enough. -/
structure Even (n : UInt32) (c : Machine ι) : Prop where
  programs : ∀ p, (c.party p).Asks (Body.Even n)
  paced : ∀ p, (c.party p).Paced c.shared.shm
  roomy : ∀ i, c.shared.shm.active i → n.toNat ≤ (c.shared.shm.descriptors i).allocated_

theorem even_init (size : ℕ) (n : UInt32) : (init size : Machine ι).Even n where
  programs p b hb := by cases hb
  paced p := .inl fun i size alloc hb => by cases hb
  roomy i hi := by cases hi

theorem Even.growing (h : c.Even n) (a : ι × Act) : c.Growing a := by
  obtain ⟨p, act⟩ := a
  cases act with
  | call | timeout => trivial
  | go =>
    intro b hb
    cases b with
    | grow i size alloc => exact ((h.paced p).larger hb).2
    | _ => trivial

theorem Even.asked (h : c.Even n) {p : ι} {name : CString} {size : UInt32} {alloc : Bool}
    (hb : (c.party p).toDo = some (.allocateBlock name size alloc)) : size = n := by
  obtain ⟨-, k, hp⟩ := Party.of_toDo hb
  have heven : Body.Even n (.allocateBlock name size alloc) :=
    h.programs p _ (hp ▸ List.mem_cons_self)
  exact heven

/-- An `allocateBlock` finds the block of its topic large enough. -/
theorem Even.not_renewed (h : c.Even n) {p : ι} {name : CString} {size : UInt32} {alloc : Bool}
    {j : Slot} (hb : (c.party p).toDo = some (.allocateBlock name size alloc))
    (hj : c.shared.shm.active j) : ¬ (c.shared.shm.descriptors j).allocated_ < size.toNat := by
  rw [h.asked hb]
  exact not_lt.2 (h.roomy j hj)

theorem Even.roomy_step (h : c.Even n) (hs : c.Settled) {p : ι} {a : Act} {t : Shm} {g : ShmHandle}
    (hstep : SlotStep (c.party p) c.shared.shm a t g) (i : Slot) (hi : t.active i) :
    n.toNat ≤ (t.descriptors i).allocated_ := by
  have hkeep : (t.descriptors i) = c.shared.shm.descriptors i →
      n.toNat ≤ (t.descriptors i).allocated_ := fun hsame => by
    rw [Shm.active, hsame] at hi
    rw [hsame]
    exact h.roomy i hi
  cases hstep with
  | still ht =>
    rw [(ht i).allocated]
    exact h.roomy i ((ht i).active.1 hi)
  | occupied hb hj hg hf =>
    rename_i name size j
    by_cases hij : i = j
    · subst hij
      rw [allocated_occupy hs.tidy.good hj, h.asked hb]
    · exact hkeep (hf.descriptors i hij)
  | renewed hb hj hlt => exact absurd hlt (h.not_renewed hb hj)
  | grown hb hj hpos hg =>
    rename_i size j
    by_cases hij : i = j
    · subst hij
      rw [allocated_renew hpos]
      exact (h.roomy i hj).trans ((h.paced p).larger hb).2.le
    · exact hkeep (Shm.renew_ne hij)

/-- The other parties' mutexes keep the blocks that they are about to replace. -/
theorem Even.paced_other (h : c.Even n) (hs : c.Settled) {p q : ι} (hq : q ≠ p) {a : Act} {t : Shm}
    {g : ShmHandle} (hstep : SlotStep (c.party p) c.shared.shm a t g) : (c.party q).Paced t := by
  refine (h.paced q).keep fun i hd hi => ?_
  have hact := ((hs.placed i).aimed q hi).1
  cases hstep with
  | still ht => exact (ht i).allocated
  | occupied hb hj hg hf =>
    rw [hf.descriptors i]
    rintro rfl
    exact hj hact
  | renewed hb hj hlt => exact absurd hlt (h.not_renewed hb hj)
  | grown hb hj hpos =>
    rw [Shm.renew_ne]
    rintro rfl
    exact hq (hs.sound.unique (Position.holds_desc.2 hd)
      (Position.holds_desc.2 ((h.paced p).larger hb).1))

variable [DecidableEq ι]

theorem Even.step (h : c.Even n) (hs : c.Settled) {a : ι × Act} (ha : c.Resetless a)
    (hn : a.2.Even n) : (c.step a).Even n := by
  have hprog : ∀ p, ((c.step a).party p).Asks (Body.Even n) := by
    refine asks_step (fun j => trivial) (fun j size alloc _ => trivial)
      (fun call hcall h b hb => ?_) h.programs
    rw [hcall] at hn
    rcases body_of_prog hb with ⟨name, rfl⟩ | ⟨name, size, alloc, rfl, rfl⟩ | ⟨i, rfl⟩ | rfl
    · trivial
    · exact hn
    · trivial
    · trivial
  rcases Monitor.step_cases wake Party.effect c a.1 a.2 with heq | ⟨e, he, -, heq⟩
  · rwa [Machine.step, heq]
  · have hstep := hs.slotStep ha he heq
    refine ⟨hprog, fun q => ?_, fun i hi => ?_⟩
    · rw [Machine.step, heq, Monitor.apply_shared]
      by_cases hq : q = a.1
      · subst hq
        rw [Monitor.apply_party_self]
        exact (h.paced a.1).effect (hs.sound.ok a.1) he
      · rcases apply_party_cases (c := c) (e := e) hq with ⟨-, hsame⟩ | ⟨m, -, hwoken⟩
        · rw [hsame]
          exact h.paced_other hs hq hstep
        · rw [hwoken]
          exact wake_paced m (h.paced_other hs hq hstep)
    · rw [Machine.step, heq, Monitor.apply_shared] at hi ⊢
      exact h.roomy_step hs hstep i hi

/-- **Publishers that begin alike miss no new block.** If all calls of `allocateBlock` ask for the
same number of bytes, as `initialise` does, then in every run without resets and under every
interleaving a handle with the count of its slot has the slot's block. -/
theorem detecting_of_even (size : ℕ) (n : UInt32) (as : List (ι × Act))
    (hord : ∀ a ∈ as, a.2.Ordinary ∧ a.2.Even n)
    (h : Run.Along step Resetless (init size : Machine ι) as) :
    Run.Along step Announced (init size : Machine ι) as ∧
      Run.Always step Detecting (init size : Machine ι) as := by
  have hgrow : Run.Along step Growing (init size : Machine ι) as :=
    Run.along_of_along (R := fun a : ι × Act => a.2.Ordinary ∧ a.2.Even n) step
      (fun c : Machine ι => c.Settled ∧ c.Even n)
      (fun c a ho hc ha => ⟨hc.1.step ho.1 ha, hc.2.step hc.1 ha ho.2⟩)
      (fun c a _ hc _ => hc.2.growing a) ⟨settled_init size, even_init size n⟩ hord h
  have hplain : ∀ a ∈ as, a.2.Ordinary := fun a ha => (hord a ha).1
  constructor
  · exact Run.along_of_along (R := fun a : ι × Act => a.2.Ordinary) step Settled
      (fun _ _ ho hs ha => hs.step ho ha.1) (fun _ _ _ hs ha => (hs.announced_iff ha.1).2 ha.2)
      (settled_init size) hplain (Run.along_and.2 ⟨h, hgrow⟩)
  · exact detecting_of_growing size as hplain (Run.along_and.2 ⟨h, hgrow⟩)

end Machine

/-! ### Runs -/

/-- The first party finds its block of 8 bytes too small for 16. Before it replaces it, the second
asks `allocateBlock` for 64. -/
def overtakenRun : List (Client × Act) :=
  List.flatten
    [calls .first (.allocateBlock topicA 8 true) 4, calls .first (.reallocateBlock 16 true) 4,
      calls .second (.allocateBlock topicA 64 true) 4, goes .first 3]

set_option maxRecDepth 4000 in
theorem announced_iff_growing_overtaken :
    Run.Along Machine.step Machine.Announced (Machine.init 100 : Machine Client) overtakenRun ↔
      Run.Along Machine.step Machine.Growing (Machine.init 100) overtakenRun :=
  Machine.announced_iff_growing 100 overtakenRun (by decide) (by decide +kernel)

set_option maxRecDepth 4000 in
/-- **A block that shrinks unnoticed.** The block is replaced by a smaller one under the same count,
and the second party has a handle with that count and the address of the block that is gone. -/
theorem not_detecting_overtaken :
    ¬ (Run.exec Machine.step (Machine.init 100 : Machine Client) overtakenRun).Detecting := by
  intro h
  have hend : let c := Run.exec Machine.step (Machine.init 100 : Machine Client) overtakenRun
      (c.party .second).handle.slot = some 0 ∧ (c.party .second).handle.is_valid = true ∧
        (c.party .second).handle.resize_count = (c.shared.shm.descriptors 0).resize_count_ ∧
        (c.party .second).handle.ptr ≠ c.shared.shm.segment.named (c.shared.shm.key 0) := by
    decide +kernel
  exact hend.2.2.2 (h .second 0 hend.1 hend.2.1 hend.2.2.1).2

/-- Two publishers begin with 16 bytes each; the first makes the block larger while the second
connects. -/
def evenRun : List (Client × Act) :=
  List.flatten
    [calls .first (.allocateBlock topicA 16 true) 4, calls .first (.reallocateBlock 64 true) 4,
      calls .second (.allocateBlock topicA 16 true) 4, goes .first 5]

set_option maxRecDepth 4000 in
theorem detecting_of_even_two :
    Run.Along Machine.step Machine.Announced (Machine.init 100 : Machine Client) evenRun ∧
      Run.Always Machine.step Machine.Detecting (Machine.init 100 : Machine Client) evenRun :=
  Machine.detecting_of_even 100 16 evenRun (by decide) (by decide +kernel)

end Sync

end MessageTransport
