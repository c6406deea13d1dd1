import MessageTransport.Lib.Directory
import MessageTransport.Sharedmem.RepInv

/-!
# The table as a directory of topics

Forget the blocks, and what is left of the table is a directory: every topic in use has a slot. The
calls do to the table what the requests do to a directory with 100 handles, as long as nobody works
through a handle whose slot was given up.
-/

namespace MessageTransport

namespace ShmHandle

/-- The handle is the answer `r` of a directory: a valid handle to a slot, or `shm_handle()`. -/
def Denotes (h : ShmHandle) : Option Slot → Prop
  | some i => h.is_valid = true ∧ h.slot = some i
  | none => h = .null

end ShmHandle

namespace Shm

variable {m m' : Shm} {i j : Slot} {n : Name} {name : CString} {size : ℕ}

/-- The slots of the topics in use. -/
def directory (m : Shm) : Directory Name Slot where
  slot n := firstSlot fun i => (m.descriptors i).active_ && (m.key i == n)
  inj := by
    intro n n' i hn hn'
    have h := firstSlot_some hn
    have h' := firstSlot_some hn'
    rw [Bool.and_eq_true, beq_iff_eq] at h h'
    exact h.2.symm.trans h'.2

theorem slot_directory (m : Shm) (n : Name) :
    m.directory.slot n = firstSlot fun i => (m.descriptors i).active_ && (m.key i == n) := rfl

/-- The search of the operations is the look-up in the directory. -/
theorem slotOf_eq_directory (m : Shm) (name : CString) :
    m.slotOf name = m.directory.slot name.key := by
  rw [slotOf, slot_directory]
  congr 1
  funext i
  rw [Bool.eq_iff_iff, Bool.and_eq_true, Bool.and_eq_true, Descriptor.matchName_iff, beq_iff_eq]
  rfl

theorem owns_of_directory (h : m.directory.slot n = some i) : m.Owns i n := by
  have := firstSlot_some ((slot_directory m n).symm.trans h)
  rwa [Bool.and_eq_true, beq_iff_eq] at this

theorem directory_none : m.directory.slot n = none ↔ ∀ i, ¬ m.Owns i n := by
  rw [slot_directory, firstSlot_none]
  refine forall_congr' fun i => ?_
  rw [Bool.and_eq_true, beq_iff_eq]
  rfl

theorem RepInv.directory_iff (h : m.RepInv) : m.directory.slot n = some i ↔ m.Owns i n := by
  refine ⟨owns_of_directory, fun ho => ?_⟩
  cases hs : m.directory.slot n with
  | none => exact absurd ho (directory_none.1 hs i)
  | some j =>
    obtain ⟨hj, hk⟩ := owns_of_directory hs
    rw [h.distinct j i hj ho.1 (hk.trans ho.2.symm)]

/-- The directory is what the slots own. -/
theorem RepInv.directory_eq (h : m.RepInv) {d : Directory Name Slot}
    (ho : ∀ i n, m.Owns i n ↔ d.slot n = some i) : m.directory = d := by
  ext n i
  rw [h.directory_iff, ho]

theorem RepInv.free_iff (h : m.RepInv) : m.directory.Free i ↔ ¬ m.active i := by
  refine ⟨fun hf ha => hf (m.key i) (h.directory_iff.2 ⟨ha, rfl⟩), fun ha n hn => ?_⟩
  exact ha (owns_of_directory hn).1

/-- The table has no free slot when it has 100 topics. -/
theorem RepInv.full_iff (h : m.RepInv) :
    m.freeSlot = none ↔ m.directory.names.ncard = Nat.card Slot := by
  rw [freeSlot_none, Directory.ncard_names_eq_iff]
  refine forall_congr' fun i => ?_
  rw [h.free_iff, not_not]

/-! ### The changes of a slot -/

theorem Good.directory_resize (h : m.Good) (hs : size ≤ (m.descriptors i).allocated_) :
    (m.resize i size).directory = m.directory :=
  (h.resize hs).directory_eq fun j n => by rw [owns_resize, h.directory_iff]

theorem Good.directory_renew (h : m.Good) (ha : m.active i)
    (hs : (m.descriptors i).allocated_ < size) (hlt : size < 2 ^ 32) :
    (m.renew i size).directory = m.directory :=
  (h.renew ha hs hlt).directory_eq fun j n => by rw [owns_renew, h.directory_iff]

theorem Good.directory_occupy (h : m.Good) (hi : m.directory.Free i)
    (hm : name.key ≠ managerName) (hn : m.directory.slot name.key = none) (hlt : size < 2 ^ 32) :
    (m.occupy i name size).directory = m.directory.insert name.key i hi := by
  have hfree := h.free_iff.1 hi
  have hname : ∀ j, m.active j → m.key j ≠ name.key :=
    fun j ha hk => directory_none.1 hn j ⟨ha, hk⟩
  refine (h.occupy hfree hm hname hlt).directory_eq fun j n => ?_
  rw [Directory.slot_insert_iff]
  by_cases hj : j = i
  · subst hj
    have ho : (m.occupy j name size).Owns j name.key := owns_occupy
    constructor
    · exact fun ho' => .inl ⟨ho'.2.symm.trans ho.2, rfl⟩
    · rintro (⟨rfl, -⟩ | ⟨-, hs⟩)
      · exact ho
      · exact absurd hs (hi n)
  · have hsame : (m.occupy i name size).Owns j n ↔ m.Owns j n := by
      simp only [Owns, active, key, occupy_ne hj]
    rw [hsame, h.directory_iff]
    constructor
    · exact fun ho => .inr ⟨fun hk => hname j ho.1 (ho.2.trans hk), ho⟩
    · rintro (⟨-, hji⟩ | ⟨-, ho⟩)
      · exact absurd hji hj
      · exact ho

theorem Good.directory_resetSlot (h : m.Good) (ha : m.active i) :
    (m.resetSlot i).directory = m.directory.remove i := by
  refine (h.resetSlot fun hi => absurd ha hi).directory_eq fun j n => ?_
  rw [Directory.slot_remove_iff, h.directory_iff]
  by_cases hj : j = i
  · subst hj
    simp [Owns, active]
  · simp [Owns, active, key, resetSlot_ne hj, hj]

/-- `resetAllBlocks` leaves no slot in use. -/
theorem not_active_resetAllBlocks (m : Shm) (i : Slot) : ¬ m.resetAllBlocks.active i := by
  have hkeep : ∀ (l : List Slot) (m : Shm), ¬ m.active i ∨ i ∈ l →
      ¬ (l.foldl (fun m i => if (m.descriptors i).active_ then m.resetSlot i else m)
        m).active i := by
    intro l
    induction l with
    | nil => exact fun m h => h.resolve_right List.not_mem_nil
    | cons j l ih =>
      intro m h
      rw [List.foldl_cons]
      refine ih _ ?_
      by_cases hij : i = j
      · subst hij
        refine .inl ?_
        split_ifs with ha
        · simp [active]
        · exact ha
      · refine (h.imp (fun ha => ?_) fun hm => ?_)
        · split_ifs
          · rwa [active, resetSlot_ne hij]
          · exact ha
        · exact (List.mem_cons.1 hm).resolve_left hij
  have hmem := List.mem_finRange i
  unfold resetAllBlocks
  generalize List.finRange numBlock = l at hmem
  exact hkeep l m (.inr hmem)

/-- A table without topics is an empty directory. -/
theorem directory_empty (h : ∀ i, ¬ m.active i) : m.directory = .empty :=
  Directory.eq_empty fun _ i hi => h i (owns_of_directory hi).1

theorem directory_resetAllBlocks (m : Shm) : m.resetAllBlocks.directory = .empty :=
  directory_empty (not_active_resetAllBlocks m)

theorem directory_init (size : ℕ) : (init size).directory = .empty :=
  directory_empty fun i h => by cases h

/-! ### The operations -/

theorem Good.directory_allocateBlock (h : m.Good) (hp : name.key ≠ managerName)
    (hlt : size < 2 ^ 32) : ∃ hd r, (m.allocateBlock name size true).2 = some hd ∧ hd.Denotes r ∧
      Directory.Step m.directory (.allocate name.key) r
        (m.allocateBlock name size true).1.directory ∧
      (r = none → (m.allocateBlock name size true).1 = m) ∧
      (r ≠ none → (m.allocateBlock name size true).1.findHandle name = hd) := by
  have hgood := h.allocateBlock hp hlt
  rcases h.allocateBlock_cases hp size with
    ⟨i, ho, hfit, heq⟩ | ⟨i, ho, hl, heq⟩ | ⟨i, hn, hf, heq⟩ | ⟨hn, hf, heq⟩ <;>
    rw [heq] at hgood ⊢
  · have ho' : (m.resize i size).Owns i name.key := owns_resize.2 ho
    obtain ⟨a, ha⟩ := h.named_key ho.1
    refine ⟨_, some i, rfl, ⟨by rw [ha]; rfl, ShmHandle.slot_of ..⟩, ?_, nofun, fun _ => ?_⟩
    · rw [h.directory_resize hfit]
      exact .present (h.directory_iff.2 ho)
    · rw [findHandle_some (hgood.slotOf_eq ho'), resize_self, ho'.2, ho.2]
      rfl
  · have ho' : (m.renew i size).Owns i name.key := owns_renew.2 ho
    refine ⟨_, some i, rfl, ⟨rfl, ShmHandle.slot_of ..⟩, ?_, nofun, fun _ => ?_⟩
    · rw [h.directory_renew ho.1 hl hlt]
      exact .present (h.directory_iff.2 ho)
    · rw [findHandle_some (hgood.slotOf_eq ho'), renew_self, resize_count_recordSize hl,
        ho'.2, ← ho.2, renew_named]
  · have hfree := freeSlot_some hf
    have hi : m.directory.Free i := h.free_iff.2 hfree
    have hnone : m.directory.slot name.key = none := by rw [← slotOf_eq_directory, hn]
    refine ⟨_, some i, rfl, ⟨rfl, ShmHandle.slot_of ..⟩, ?_, nofun, fun _ => ?_⟩
    · rw [h.directory_occupy hi hp hnone hlt]
      exact .new hnone hi
    · rw [findHandle_some (hgood.slotOf_eq owns_occupy), owns_occupy.2, occupy_named, occupy_self]
      congr 1
      simp only [Descriptor.recordSize, Descriptor.allocate, (h.inactive i hfree).2.2.1,
        h.dormant i hfree]
      rfl
  · refine ⟨_, none, rfl, rfl, ?_, fun _ => rfl, fun hr => absurd rfl hr⟩
    exact .full (by rw [← slotOf_eq_directory, hn]) (h.full_iff.1 hf)

theorem Good.directory_findHandle (h : m.Good) (name : CString) :
    (m.findHandle name).Denotes (m.directory.slot name.key) := by
  rw [← slotOf_eq_directory]
  cases hs : m.slotOf name with
  | none => exact findHandle_none hs
  | some i =>
    obtain ⟨a, ha⟩ := h.named_key (slotOf_some hs).1
    rw [findHandle_some hs, ha]
    exact ⟨rfl, ShmHandle.slot_of ..⟩

/-- `reallocateBlock` on a slot in use, through a valid handle: a failure loses the name. -/
theorem Good.directory_reallocateSlot (h : m.Good) (ha : m.active i) {hd : ShmHandle}
    (hv : hd.is_valid = true) (hs : hd.slot = some i) {alloc : Bool} (hlt : size < 2 ^ 32) :
    ∃ r, (m.reallocateSlot i hd size alloc).2.Denotes r ∧
      Directory.Step m.directory (.resize i) r (m.reallocateSlot i hd size alloc).1.directory := by
  have hvalid : (m.refresh i hd).is_valid = true := by
    unfold refresh
    split_ifs
    · obtain ⟨a, hna⟩ := h.named_key ha
      show (m.segment.named (m.key i)).isSome = true
      rw [hna]
      rfl
    · exact hv
  rcases reallocateSlot_cases (fun hi => absurd ha hi) hd with
    ⟨hfit, heq⟩ | ⟨hl, -, -, heq⟩ | ⟨-, -, -, heq⟩ <;> rw [heq]
  · refine ⟨some i, ⟨hvalid, (refresh_slot hd).trans hs⟩, ?_⟩
    rw [h.directory_resize hfit]
    exact .resized ..
  · refine ⟨some i, ⟨rfl, (refresh_slot hd).trans hs⟩, ?_⟩
    rw [h.directory_renew ha hl hlt]
    exact .resized ..
  · refine ⟨none, rfl, ?_⟩
    rw [h.directory_resetSlot ha]
    exact .lost ..

end Shm

namespace World

variable {κ : Type*} [DecidableEq κ] {w : World κ}

/-- What a call asks of the directory. -/
def request (w : World κ) : Op κ → Option (Directory.Request Name Slot)
  | .findHandle _ name => some (.find name.chars)
  | .allocateBlock _ name _ _ => some (.allocate name.chars)
  | .reallocateBlock k _ _ => (w.handle k).slot.map .resize
  | .resetBlock k => (w.handle k).slot.map .remove
  | .resetAllBlocks => some .clear
  | .publish_msg _ _ _ | .read _ => none

/-- The call is one of those that manage the table. A call through a handle goes through a valid
one, to a slot that is in use. -/
def OnActive (w : World κ) : Op κ → Prop
  | .findHandle _ _ | .allocateBlock _ _ _ _ | .resetAllBlocks => True
  | .reallocateBlock k _ _ | .resetBlock k =>
    (w.handle k).is_valid = true ∧ ∃ i, (w.handle k).slot = some i ∧ w.shm.active i
  | .publish_msg _ _ _ | .read _ => False

/-- The call does what the directory does when it is asked: the handle that the caller is left with
is the answer. A table that is full stays as it is; a handle from `allocateBlock` is the one that
`findHandle` would give. -/
def Refines (w : World κ) (op : Op κ) : Prop :=
  ∃ a r, w.request op = some a ∧
    Directory.Step w.shm.directory a r (w.step op).shm.directory ∧
    (∀ k, op.client = some k → ((w.step op).handle k).Denotes r) ∧
    match op with
    | .allocateBlock k name _ _ =>
      (r = none → (w.step op).shm = w.shm) ∧
        (r ≠ none → (w.step op).shm.findHandle name = (w.step op).handle k)
    | _ => True

omit [DecidableEq κ] in
theorem sound_of_onActive {op : Op κ} (h : w.OnActive op) : w.Sound op := by
  cases op with
  | reallocateBlock k size alloc | resetBlock k =>
    obtain ⟨-, j, hj, ha⟩ := h
    intro i _ hi hna
    cases hj.symm.trans hi
    exact absurd ha hna
  | findHandle _ _ | allocateBlock _ _ _ _ | resetAllBlocks => trivial
  | publish_msg _ _ _ | read _ => exact h.elim

/-- One call on a good table. -/
theorem refines_step (hm : w.shm.Good) {op : Op κ} (ho : op.Ordinary) (h : w.OnActive op) :
    w.Refines op := by
  cases op with
  | findHandle k name =>
    refine ⟨_, _, rfl, .find .., ?_, trivial⟩
    rintro k' ⟨⟩
    rw [step, connect_handle_self, ← CString.Plain.key_eq ho]
    exact hm.directory_findHandle name
  | allocateBlock k name size alloc =>
    obtain ⟨hp, rfl⟩ := ho
    obtain ⟨hd, r, hres, hden, hstep, hfull, hfind⟩ :=
      hm.directory_allocateBlock hp.key_ne size.toNat_lt
    rw [hp.key_eq] at hstep
    have heq := step_allocateBlock (w := w) (k := k) (Prod.ext rfl hres)
    have hhandle : (w.step (.allocateBlock k name size true)).handle k = hd := by
      rw [heq, connect_handle_self]
    refine ⟨_, r, rfl, ?_, ?_, fun hr => ?_, fun hr => ?_⟩
    · rwa [step_allocateBlock_shm]
    · rintro k' ⟨⟩
      rwa [hhandle]
    · rw [step_allocateBlock_shm, hfull hr]
    · rw [step_allocateBlock_shm, hhandle, hfind hr]
  | reallocateBlock k size alloc =>
    obtain ⟨hv, i, hi, ha⟩ := h
    obtain ⟨r, hden, hstep⟩ := hm.directory_reallocateSlot ha hv hi size.toNat_lt
    refine ⟨.resize i, r, by simp only [request, hi, Option.map_some], ?_, ?_, trivial⟩
    · rwa [step, setHandle_shm, Shm.reallocateBlock_valid hv hi]
    · rintro k' ⟨⟩
      rwa [step, setHandle_self, Shm.reallocateBlock_valid hv hi]
  | resetBlock k =>
    obtain ⟨hv, i, hi, ha⟩ := h
    have heq : w.step (.resetBlock k) = w.setHandle k (w.shm.resetSlot i, .null) := by
      simp only [step, hi, Shm.resetBlock, hv, if_true]
    refine ⟨.remove i, none, by simp only [request, hi, Option.map_some], ?_, ?_, trivial⟩
    · rw [heq, setHandle_shm, hm.directory_resetSlot ha]
      exact .removed ..
    · rintro k' ⟨⟩
      rw [heq, setHandle_self]
      rfl
  | resetAllBlocks =>
    refine ⟨.clear, none, rfl, ?_, ?_, trivial⟩
    · simp only [step, Shm.directory_resetAllBlocks]
      exact .cleared _
    · rintro k' ⟨⟩
  | publish_msg _ _ _ | read _ => exact h.elim

/-- **The table is a directory with 100 handles.** Over any run of `allocateBlock`, `findHandle`,
`reallocateBlock`, `resetBlock` and `resetAllBlocks` with plain names, made through valid handles to
slots in use, every call answers as the directory of the topics does, and leaves the directory that
this answer leaves. -/
theorem table_refines (size : ℕ) (ops : List (Op κ)) (hops : ∀ op ∈ ops, op.Ordinary)
    (h : Run.Along step OnActive (init size) ops) :
    (init size : World κ).shm.directory = .empty ∧ Nat.card Slot = 100 ∧
      Run.Along step Refines (init size) ops := by
  refine ⟨Shm.directory_init size, Nat.card_fin _, ?_⟩
  exact Run.along_of_along step (fun w : World κ => w.shm.Good)
    (fun w op ho hm hp => good_step ho hm (sound_of_onActive hp))
    (fun w op ho hm hp => refines_step hm ho hp) (Shm.good_init size) hops h

/-- The second client finds a topic of the first, resets it, and takes the slot for another. -/
theorem table_refines_reuse :
    let ops : List (Op Client) := [.allocateBlock .first topicA 16 true, .findHandle .second topicA,
      .reallocateBlock .second 32 true, .resetBlock .second, .allocateBlock .second topicB 16 true]
    (init 0 : World Client).shm.directory = .empty ∧ Nat.card Slot = 100 ∧
      Run.Along step Refines (init 0) ops := by
  refine table_refines 0 _ (by decide) ⟨trivial, trivial, ?_, ?_, trivial, trivial⟩
  · exact ⟨by decide +kernel, 0, by decide +kernel, by decide +kernel⟩
  · exact ⟨by decide +kernel, 0, by decide +kernel, by decide +kernel⟩

end World

end MessageTransport
