import MessageTransport.Sync.Counts

/-!
# Blocks and pointers in the course of a run

What every step does to the segment and to the handle of its party (`Kept`): addresses in use keep
their names, a slot that stays in use keeps its name, and a handle keeps its pointer or gets the
one of its slot's block.

For a slot that is not reset this gives two invariants of the machine: a pointer of a handle to the
slot, if it still leads to a block, leads to the slot's own (`Aimed`), and the newest write
of the slot is the one whose content the block has, if it has the content of one of its writes
(`Machine.Placed`).
-/

namespace MessageTransport

open MessageTransport.Stream

namespace Sync

/-! ### Work on the table -/

/-- The table `t` and the handle `h'` come after `s` and `h`. -/
structure Kept (s : Shm) (h : ShmHandle) (t : Shm) (h' : ShmHandle) : Prop where
  segment : s.segment.Evolves t.segment
  key : ∀ i, s.active i → t.active i → t.key i = s.key i
  handle : ∀ i, h'.slot = some i → (h'.ptr = h.ptr ∧ h.slot = some i) ∨
    (h'.ptr = t.segment.named (t.key i) ∧ (t.active i ∨ h.slot = some i))

section Work

variable {s t : Shm} {h h' : ShmHandle} {i : Slot}

theorem key_setDescriptor {d : Descriptor} {g : Segment}
    (hd : s.active i → d.active_ = true → d.key = s.key i) (j : Slot) (hj : s.active j)
    (hj' : ({ s with segment := g }.setDescriptor i d).active j) :
    ({ s with segment := g }.setDescriptor i d).key j = s.key j := by
  by_cases hji : j = i
  · subst hji
    rw [Shm.active, Shm.setDescriptor_self] at hj'
    rw [Shm.key, Shm.setDescriptor_self]
    exact hd hj hj'
  · rw [Shm.key, Shm.setDescriptor_ne _ _ hji]
    rfl

theorem find_or_construct_some {g g' : Segment} {n : Name} {size : ℕ} {alloc : Bool} {p : Ptr}
    (hf : g.find_or_construct n size alloc = some (p, g')) :
    g.Evolves g' ∧ p = g'.named n := by
  unfold Segment.find_or_construct at hf
  cases hn : g.named n with
  | some a =>
    simp only [hn, Option.some.injEq, Prod.mk.injEq] at hf
    obtain ⟨rfl, rfl⟩ := hf
    exact ⟨.refl g, hn.symm⟩
  | none =>
    cases alloc with
    | false => simp [hn] at hf
    | true =>
      simp only [hn, if_true, Option.some.injEq, Prod.mk.injEq] at hf
      obtain ⟨rfl, rfl⟩ := hf
      exact ⟨.construct _ hn, (ObjectStore.construct_named_self ..).symm⟩

/-- The handle is the caller's own, or leads to its slot's block. -/
theorem Kept.of_handle (hseg : s.segment.Evolves t.segment)
    (hkey : ∀ i, s.active i → t.active i → t.key i = s.key i) {c : ℕ} {p : Ptr}
    (hp : p = t.segment.named (t.key i)) (ha : t.active i) : Kept s h t (.of i c p) where
  segment := hseg
  key := hkey
  handle j hj := by
    obtain rfl : i = j := by simpa using hj
    exact .inr ⟨hp, .inl ha⟩

/-- No handle comes back, or the one there was. -/
theorem Kept.of_same (hseg : s.segment.Evolves t.segment)
    (hkey : ∀ i, s.active i → t.active i → t.key i = s.key i) (hh : h' = h ∨ h' = .null) :
    Kept s h t h' where
  segment := hseg
  key := hkey
  handle j hj := by
    rcases hh with rfl | rfl
    · exact .inl ⟨rfl, hj⟩
    · cases hj

theorem kept_refl (s : Shm) (h : ShmHandle) : Kept s h s h :=
  .of_same (.refl _) (fun _ _ _ => rfl) (.inl rfl)

theorem kept_findHandle (s : Shm) (h : ShmHandle) (name : CString) :
    Kept s h s (s.findHandle name) := by
  cases hs : s.slotOf name with
  | none =>
    rw [Shm.findHandle_none hs]
    exact .of_same (.refl _) (fun _ _ _ => rfl) (.inr rfl)
  | some i =>
    rw [Shm.findHandle_some hs]
    exact .of_handle (.refl _) (fun _ _ _ => rfl) rfl (Shm.slotOf_some hs).1

theorem kept_reconnect (h : ShmHandle) (ha : s.active i) (size : ℕ) (alloc : Bool) :
    Kept s h (s.reconnect i size alloc).1 ((s.reconnect i size alloc).2.getD h) := by
  have hdestroy := ObjectStore.Evolves.destroy s.segment (s.key i)
  unfold Shm.reconnect
  simp only
  split_ifs with hs
  · split
    · exact .of_same hdestroy (fun _ _ _ => rfl) (.inl rfl)
    · rename_i p g hf
      obtain ⟨hg, hp⟩ := find_or_construct_some hf
      refine Kept.of_handle ?_ ?_ ?_ ?_
      · exact hdestroy.trans hg
      · exact key_setDescriptor fun _ _ => rfl
      · rw [Shm.setDescriptor_segment, Shm.key, Shm.setDescriptor_self, Descriptor.key_recordSize]
        exact hp
      · rw [Shm.active, Shm.setDescriptor_self]
        exact ha
  · refine Kept.of_handle ?_ ?_ ?_ ?_
    · exact .refl _
    · exact key_setDescriptor (g := s.segment) fun _ _ => rfl
    · simp only [Shm.setDescriptor_segment, Shm.key, Shm.setDescriptor_self,
        Descriptor.key_recordSize]
      rfl
    · rw [Shm.active, Shm.setDescriptor_self]
      exact ha

theorem kept_claim (h : ShmHandle) (ha : ¬ s.active i) (name : CString) (size : ℕ) (alloc : Bool) :
    Kept s h (s.claim i name size alloc).1 ((s.claim i name size alloc).2.getD h) := by
  unfold Shm.claim
  simp only
  split
  · exact .of_same (.refl _) (key_setDescriptor (g := s.segment) fun hi => absurd hi ha) (.inl rfl)
  · rename_i p g hf
    obtain ⟨hg, hp⟩ := find_or_construct_some hf
    refine Kept.of_handle ?_ ?_ hp ?_
    · exact hg
    · exact key_setDescriptor fun hi => absurd hi ha
    · show (s.setDescriptor i _).active i
      rw [Shm.active, Shm.setDescriptor_self]
      rfl

theorem kept_allocateBlock (s : Shm) (h : ShmHandle) (name : CString) (size : ℕ) (alloc : Bool) :
    Kept s h (s.allocateBlock name size alloc).1 ((s.allocateBlock name size alloc).2.getD h) := by
  unfold Shm.allocateBlock
  cases hs : s.slotOf name with
  | some i => exact kept_reconnect h (Shm.slotOf_some hs).1 size alloc
  | none =>
    cases hf : s.freeSlot with
    | some i => exact kept_claim h (Shm.freeSlot_some hf) name size alloc
    | none => exact .of_same (.refl _) (fun _ _ _ => rfl) (.inr rfl)

/-- Looking the pointer up again. -/
theorem kept_relookup (hi : h.slot = some i) : Kept s h s (s.relookup i h) where
  segment := .refl _
  key _ _ _ := rfl
  handle j hj := by
    obtain rfl : i = j := Option.some.inj (hi.symm.trans hj)
    exact .inr ⟨rfl, .inr hi⟩

theorem kept_refresh (hi : h.slot = some i) : Kept s h s (s.refresh i h) := by
  unfold Shm.refresh
  split_ifs
  · exact kept_relookup hi
  · exact kept_refl s h

theorem kept_grow (hi : h.slot = some i) (size : ℕ) (alloc : Bool) :
    Kept s h (s.grow i h size alloc).1 (s.grow i h size alloc).2 := by
  have hdestroy := ObjectStore.Evolves.destroy s.segment (s.key i)
  unfold Shm.grow
  simp only
  split
  · rename_i p g hf
    obtain ⟨hg, hp⟩ := find_or_construct_some hf
    refine ⟨hdestroy.trans hg, key_setDescriptor fun _ _ => rfl, fun j hj => ?_⟩
    obtain rfl : i = j := Option.some.inj (hi.symm.trans hj)
    refine .inr ⟨?_, .inr hi⟩
    rw [Shm.setDescriptor_segment, Shm.key, Shm.setDescriptor_self, Descriptor.key_recordSize]
    exact hp
  · refine .of_same hdestroy (key_setDescriptor fun _ hr => ?_) (.inr rfl)
    cases hr

theorem kept_resetSlot (s : Shm) (i : Slot) : s.segment.Evolves (s.resetSlot i).segment ∧
    ∀ j, (s.resetSlot i).active j → s.active j ∧ (s.resetSlot i).key j = s.key j := by
  refine ⟨ObjectStore.Evolves.destroy s.segment (s.key i), fun j hj => ?_⟩
  by_cases hji : j = i
  · subst hji
    rw [Shm.resetSlot, Shm.active, Shm.setDescriptor_self] at hj
    cases hj
  · have hsame : (s.resetSlot i).descriptors j = s.descriptors j := Shm.setDescriptor_ne _ _ hji
    rw [Shm.active, hsame] at hj
    exact ⟨hj, by rw [Shm.key, hsame]; rfl⟩

theorem kept_resetAllBlocks (s : Shm) : s.segment.Evolves s.resetAllBlocks.segment ∧
    ∀ j, s.resetAllBlocks.active j → s.active j ∧ s.resetAllBlocks.key j = s.key j := by
  refine Shm.resetAllBlocks_induction (P := fun t => s.segment.Evolves t.segment ∧
    ∀ j, t.active j → s.active j ∧ t.key j = s.key j) ⟨.refl _, fun j hj => ⟨hj, rfl⟩⟩ ?_
  rintro t i ⟨hseg, hkey⟩ -
  obtain ⟨hseg', hkey'⟩ := kept_resetSlot t i
  refine ⟨hseg.trans hseg', fun j hj => ?_⟩
  obtain ⟨hjt, hk⟩ := hkey' j hj
  exact ⟨(hkey j hjt).1, hk.trans (hkey j hjt).2⟩

/-- **What work does to the segment and to the handle.** -/
theorem Work.kept (hw : Work s h t h') : Kept s h t h' := by
  cases hw with
  | none => exact kept_refl s h
  | recordSize i size =>
    exact .of_same (.refl _) (key_setDescriptor (g := s.segment) fun _ _ => rfl) (.inl rfl)
  | body b hb =>
    cases b with
    | findHandle name => exact kept_findHandle s h name
    | allocateBlock name size alloc => exact kept_allocateBlock s h name size.toNat alloc
    | relookup i => exact kept_relookup (hb i rfl)
    | grow i size alloc => exact kept_grow (hb i rfl) size.toNat alloc
    | resetBlock i =>
      simp only [Body.run, Shm.resetBlock]
      split_ifs
      · obtain ⟨hseg, hkey⟩ := kept_resetSlot s i
        exact .of_same hseg (fun j _ hj => (hkey j hj).2) (.inr rfl)
      · exact kept_refl s h
    | resetAllBlocks =>
      obtain ⟨hseg, hkey⟩ := kept_resetAllBlocks s
      simp only [Body.run]
      exact .of_same hseg (fun j _ hj => (hkey j hj).2) (.inl rfl)

theorem kept_addClients (s : Shm) (m : Mutex) (d : ℤ) (h : ShmHandle) :
    Kept s h (addClients s m d) h := by
  cases m with
  | global => exact .of_same (.refl _) (fun _ _ _ => rfl) (.inl rfl)
  | desc i =>
    exact .of_same (.refl _) (key_setDescriptor (g := s.segment) fun _ _ => rfl) (.inl rfl)

/-- Writing bytes changes no name and no pointer. -/
theorem Kept.fill (hk : Kept s h t h') (p : Ptr) (data : List UInt8) :
    Kept s h (t.fill p data) h' where
  segment := hk.segment.trans (.of_named (Segment.setBytes_wf p data)
    (Segment.setBytes_named ..) (Segment.setBytes_next ..))
  key := hk.key
  handle i hi := by
    rw [Shm.fill, Segment.setBytes_named]
    exact hk.handle i hi

theorem kept_serialize (hi : h.slot = some i) (w : StreamM Unit) :
    Kept s h (s.serialize i h w).2.1 (s.refresh i h) := by
  obtain ⟨data, hd⟩ := Shm.serialize_shm (m := s) (i := i) h w
  rw [hd]
  exact (kept_refresh hi).fill _ data

theorem serialize_named (s : Shm) (i : Slot) (h : ShmHandle) (w : StreamM Unit) :
    (s.serialize i h w).2.1.segment.named = s.segment.named := by
  obtain ⟨data, hd⟩ := Shm.serialize_shm (m := s) (i := i) h w
  rw [hd, Shm.fill, Segment.setBytes_named]

end Work

/-! ### Steps -/

/-- The step is a complete write of slot `j`. -/
structure Wrote (x : Party) (s : Shared) (e : Effect) (j : Slot) : Prop where
  slot : x.handle.slot = some j
  holds : e.self.pos.holds (.desc j) = true
  handle : e.self.handle = s.shm.refresh j x.handle
  lands : ∃ a o, e.self.handle.ptr = some a ∧ s.shm.segment.object a = some o
  shared : e.shared = s.record e.shared.shm j e.self.handle.ptr
  named : e.shared.shm.segment.named = s.shm.segment.named

section Steps

variable {x : Party} {s : Shared} {a : Act} {e : Effect}

/-- **What a step does to the segment and to the handle.** -/
theorem Step.kept (h : Step x s a e) : Kept s.shm x.handle e.shared.shm e.self.handle := by
  cases h with
  | work hx hk ht => exact ht.kept
  | register | unregister => exact kept_addClients ..
  | write hx hp | writeThrows hx hp => exact kept_serialize hp.2 _
  | read hx hp | readThrows hx hp => exact kept_refresh hp.2
  | _ => exact kept_refl ..

theorem Wrote.written {j : Slot} (w : Wrote x s e j) :
    e.shared.written = Function.update s.written j (s.written j + 1) := by
  rw [w.shared]
  rfl

theorem Wrote.origin {j : Slot} (w : Wrote x s e j) {a : ℕ} (ha : e.self.handle.ptr = some a) :
    e.shared.origin = Function.update s.origin a (some (j, s.written j + 1)) := by
  rw [w.shared, ha]
  rfl

theorem wrote_write {j : Slot} {msg : Message} {k : List Instr} (hp : x.Reaches (.write j msg))
    (hr : fits s.shm j x.handle msg.write = true) :
    Wrote x s
      { shared := s.record (s.shm.serialize j x.handle msg.write).2.1 j
          (s.shm.refresh j x.handle).ptr
        self := { x.goto k { x.pos with wrote := some j } with
          handle := s.shm.refresh j x.handle } } j where
  slot := hp.2
  holds := by simp [Party.goto, hp.1, Position.holds]
  handle := rfl
  lands := by
    obtain ⟨o, ho⟩ := Option.isSome_iff_exists.1 (Bool.and_eq_true _ _ ▸ hr).1
    obtain ⟨a, ha, hao⟩ := Option.bind_eq_some_iff.1 ho
    exact ⟨a, o, ha, hao⟩
  shared := rfl
  named := serialize_named ..

/-- Only a complete write changes what is recorded of writes. -/
theorem Step.wrote (h : Step x s a e) : (∃ j, Wrote x s e j) ∨
    e.shared.written = s.written ∧ e.shared.origin = s.origin := by
  cases h with
  | write hx hp hk hr => exact .inl ⟨_, wrote_write hp hr⟩
  | _ => exact .inr ⟨rfl, rfl⟩

end Steps

/-! ### The blocks of a slot -/

/-- The address is in use, and it is that of slot `i`'s block if it is that of a block. -/
def Own (s : Shm) (i : Slot) (a : ℕ) : Prop :=
  a < s.segment.next ∧ ∀ n, s.segment.named n = some a → n = s.key i

section Own

variable {s t : Shm} {h h' : ShmHandle} {i : Slot} {a : ℕ}

theorem Own.of_named (hwf : s.segment.WF) (ha : s.segment.named (s.key i) = some a) : Own s i a :=
  ⟨hwf.fresh ha, fun _ hn => hwf.inj hn ha⟩

theorem Own.kept (ho : Own s i a) (hk : Kept s h t h') (hi : s.active i) (hi' : t.active i) :
    Own t i a :=
  ⟨ho.1.trans_le hk.segment.next_le,
    fun n hn => (ho.2 n (hk.segment.kept hn ho.1)).trans (hk.key i hi hi').symm⟩

/-- The handle is to another slot, or to slot `i` in use with a pointer to its block or to none. -/
def Aimed (s : Shm) (i : Slot) (h : ShmHandle) : Prop :=
  h.slot = some i → s.active i ∧ ∀ a, h.ptr = some a → Own s i a

theorem Aimed.kept (hh : Aimed s i h) (hwf : t.segment.WF) (hk : Kept s h t h')
    (hstay : s.active i → t.active i) : Aimed t i h' := by
  intro hi
  rcases hk.handle i hi with ⟨hptr, hslot⟩ | ⟨hptr, hact⟩
  · obtain ⟨hact, hown⟩ := hh hslot
    refine ⟨hstay hact, fun a ha => ?_⟩
    exact (hown a (hptr ▸ ha)).kept hk hact (hstay hact)
  · have hact' : t.active i := by
      rcases hact with hact | hslot
      · exact hact
      · exact hstay (hh hslot).1
    exact ⟨hact', fun a ha => .of_named hwf (hptr ▸ ha)⟩

/-- A handle that its party does not touch. -/
theorem Aimed.other {g : ShmHandle} (hg : Aimed s i g) (hk : Kept s h t h')
    (hstay : s.active i → t.active i) : Aimed t i g := by
  intro hi
  obtain ⟨hact, hown⟩ := hg hi
  exact ⟨hstay hact, fun a ha => (hown a ha).kept hk hact (hstay hact)⟩

end Own

namespace Machine

variable {ι : Type*}

/-- The act does not reset slot `i`. -/
def Keeps (i : Slot) [DecidableEq ι] (c : Machine ι) (a : ι × Act) : Prop :=
  c.shared.shm.active i → (c.step a).shared.shm.active i

/-- Handles to slot `i` lead to its block, and the newest write of the slot is the one whose content
the block has, if it has the content of one. -/
structure Placed (i : Slot) (c : Machine ι) : Prop where
  wf : c.shared.shm.segment.WF
  aimed : ∀ p, Aimed c.shared.shm i (c.party p).handle
  current : ∀ a k, c.shared.origin a = some (i, k) → c.shared.shm.active i ∧
    Own c.shared.shm i a ∧ ∀ n, c.shared.shm.segment.named n = some a → k = c.shared.written i

theorem placed_init (i : Slot) (size : ℕ) : (init size : Machine ι).Placed i where
  wf := ObjectStore.wf_empty.construct _ rfl
  aimed p hp := by cases hp
  current a k h := by cases h

/-- **What is read is the newest write of the slot**, if it is one at all. -/
theorem Placed.content {c : Machine ι} {i : Slot} (h : c.Placed i) {p : Ptr} {k : ℕ}
    (hk : c.shared.content i p = some k) : k = c.shared.written i := by
  unfold Shared.content at hk
  split at hk
  · rename_i a ha
    obtain ⟨hlive, -⟩ : (c.shared.shm.segment.object a).isSome = true ∧ p = some a := by
      rw [Option.filter_eq_some_iff] at ha
      exact ⟨ha.2, ha.1⟩
    split at hk
    · rename_i j l horig
      split_ifs at hk with hji
      cases hk
      subst hji
      obtain ⟨o, ho⟩ := Option.isSome_iff_exists.1 hlive
      obtain ⟨n, hn⟩ := h.wf.home ho
      exact (h.current a k horig).2.2 n hn
    · cases hk
  · cases hk

variable {c : Machine ι} {i : Slot}

/-- A write to the block of slot `i` makes the new number the current one. -/
theorem Placed.current_of_wrote (h : c.Placed i) {p : ι} {e : Effect} {j : Slot}
    (hk : Kept c.shared.shm (c.party p).handle e.shared.shm e.self.handle)
    (w : Wrote (c.party p) c.shared e j)
    (hkeep : c.shared.shm.active i → e.shared.shm.active i) {b k : ℕ}
    (hb : e.shared.origin b = some (i, k)) : e.shared.shm.active i ∧ Own e.shared.shm i b ∧
      ∀ n, e.shared.shm.segment.named n = some b → k = e.shared.written i := by
  obtain ⟨a, o, ha, ho⟩ := w.lands
  obtain ⟨n₀, hn₀⟩ := h.wf.home ho
  have haimed := (h.aimed p).kept (hk.segment.wf h.wf) hk hkeep
  have hslot : e.self.handle.slot = some j := by rw [w.handle, Shm.refresh_slot, w.slot]
  rw [w.origin ha] at hb
  by_cases hba : b = a
  · -- the address that was written
    subst hba
    rw [Function.update_self] at hb
    cases hb
    obtain ⟨hact, hown⟩ := haimed hslot
    refine ⟨hact, hown b ha, fun n _ => ?_⟩
    rw [w.written, Function.update_self]
  · rw [Function.update_of_ne hba] at hb
    obtain ⟨hact, hown, hnum⟩ := h.current b k hb
    refine ⟨hkeep hact, hown.kept hk hact (hkeep hact), fun n hn => ?_⟩
    rw [w.named] at hn
    by_cases hji : j = i
    · -- the slot has one block only, and `a` is its address
      subst hji
      have hkey : n₀ = e.shared.shm.key j := ((haimed hslot).2 a ha).2 n₀ (w.named ▸ hn₀)
      rw [hk.key j hact (hkeep hact), ← hown.2 n hn] at hkey
      rw [hkey, hn] at hn₀
      exact absurd (Option.some.inj hn₀) hba
    · rw [w.written, Function.update_of_ne (Ne.symm hji)]
      exact hnum n hn

variable [DecidableEq ι]

theorem Placed.step (h : c.Placed i) (hs : c.Sound) {a : ι × Act} (hkeep : c.Keeps i a) :
    (c.step a).Placed i := by
  rcases hs.step_cases a with heq | ⟨e, he, -, heq⟩
  · rwa [heq]
  · rw [Keeps, heq, Monitor.apply_shared] at hkeep
    rw [heq]
    have hk := he.kept
    have hwf := hk.segment.wf h.wf
    constructor
    · exact hwf
    · intro q
      by_cases hq : q = a.1
      · subst hq
        rw [Monitor.apply_shared, Monitor.apply_party_self]
        exact (h.aimed a.1).kept hwf hk hkeep
      · rw [Monitor.apply_shared, other_handle hq]
        exact (h.aimed q).other hk hkeep
    · intro b k hb
      rw [Monitor.apply_shared] at hb ⊢
      rcases he.wrote with ⟨j, w⟩ | ⟨hwritten, horigin⟩
      · exact h.current_of_wrote hk w hkeep hb
      · rw [horigin] at hb
        obtain ⟨hact, hown, hnum⟩ := h.current b k hb
        refine ⟨hkeep hact, hown.kept hk hact (hkeep hact), fun n hn => ?_⟩
        rw [hwritten]
        exact hnum n (hk.segment.kept hn hown.1)

end Machine

end Sync

end MessageTransport
