import MessageTransport.Sharedmem.Steady

/-!
# Topics are isolated

What keeps topics apart is their names: `matchName` compares 256 characters, `allocate` copies 256
bytes, and the segment has one directory for the blocks and the manager. A name of 255 characters
at most, other than the manager's, is a topic of its own. A longer name is stored without its
terminator, and a topic called "Manager" gets the manager object for a block. `isolated_iff` says
that over runs without resets the topics are isolated exactly as long as no such name takes a slot.
-/

namespace MessageTransport

/-- The names in the call are in `T`. -/
def Op.Within {κ : Type*} (T : Set Name) : Op κ → Prop
  | .findHandle _ name | .allocateBlock _ name _ _ => name.chars ∈ T
  | _ => True

/-- A buffer that is longer than the C string in it holds the string's terminator. -/
theorem cstr_terminated {l : List UInt8} (h : (cstr l).length < l.length) : cstr l ++ [0] <+: l := by
  induction l with
  | nil => cases h
  | cons c cs ih =>
    by_cases hc : c = 0
    · subst hc
      exact ⟨cs, by simp [cstr]⟩
    · have hcons : cstr (c :: cs) = c :: cstr cs := by simp [cstr, hc]
      rw [hcons] at h ⊢
      exact List.cons_prefix_cons.2 ⟨rfl, ih (Nat.lt_of_succ_lt_succ h)⟩

/-- The buffer of a name that does not fit has no terminator. -/
theorem CString.zero_mem_buf {name : CString} (h : (0 : UInt8) ∈ name.buf.1) :
    name.chars.length < nameSize := by
  by_contra hlen
  have hbuf : name.buf.1 = name.chars.take nameSize := by
    show name.mem.take nameSize = _
    rw [mem, List.take_append_of_le_length (not_lt.1 hlen)]
  rw [hbuf] at h
  exact name.nonzero 0 (List.mem_of_mem_take h) rfl

namespace World

variable {κ : Type*} {w : World κ} {own : ℕ → Name} {T : Set Name}

/-- Valid handles of different topics have different slots and blocks, none of them the manager;
the name of a slot in use is the terminated string of a topic, and of the topic of each handle to
the slot, and denotes a byte block. -/
structure Isolated (T : Set Name) (w : World κ) : Prop where
  slots : ∀ k k', (w.handle k).is_valid = true → (w.handle k').is_valid = true →
    w.topic k ≠ w.topic k' → (w.handle k).slot ≠ (w.handle k').slot
  blocks : ∀ k k', (w.handle k).is_valid = true → (w.handle k').is_valid = true →
    w.topic k ≠ w.topic k' → (w.handle k).ptr ≠ (w.handle k').ptr
  not_manager : ∀ k, (w.handle k).is_valid = true →
    (w.handle k).ptr ≠ w.shm.segment.named Shm.managerName
  name : ∀ i, w.shm.active i → ∃ t ∈ T, t ++ [0] <+: (w.shm.descriptors i).name_.1
  block : ∀ i, w.shm.active i → ∃ data, w.shm.segment.lookup (w.shm.key i) = some (.bytes data)
  handle : ∀ k, (w.handle k).is_valid = true → ∃ i, (w.handle k).slot = some i ∧
    w.shm.active i ∧ w.topic k ++ [0] <+: (w.shm.descriptors i).name_.1

/-- A call on one topic leaves the descriptors, the blocks and the bytes of all other topics, the
manager object and its client count as they were. -/
def Separate [DecidableEq κ] (w : World κ) (op : Op κ) : Prop :=
  (w.step op).shm.num_clients = w.shm.num_clients ∧
    (∀ i, ¬ w.shm.Owns i (w.subject op) → ¬ (w.step op).shm.Owns i (w.subject op) →
      (w.step op).shm.descriptors i = w.shm.descriptors i) ∧
    ∀ n, n ≠ w.subject op → (n = Shm.managerName ∨ ∃ i, w.shm.Owns i n) →
      (w.step op).shm.segment.named n = w.shm.segment.named n ∧
        (w.step op).shm.segment.lookup n = w.shm.segment.lookup n

theorem Tracked.name_terminated (hw : w.Tracked own) {i : Slot} (ha : w.shm.active i) :
    w.shm.key i ++ [0] <+: (w.shm.descriptors i).name_.1 :=
  cstr_terminated ((hw.fits i ha).trans_eq (w.shm.descriptors i).name_.2.symm)

theorem Tracked.isolated (hw : w.Tracked own) (hT : ∀ i, w.shm.active i → w.shm.key i ∈ T) :
    w.Isolated T where
  slots k k' hv hv' ht := by
    obtain ⟨i, hs, ho, -⟩ := hw.handle k hv
    obtain ⟨i', hs', ho', -⟩ := hw.handle k' hv'
    rw [hs, hs']
    intro hi
    cases hi
    exact ht (ho.2.symm.trans ho'.2)
  blocks k k' hv hv' ht hp := by
    obtain ⟨a, ha⟩ := Option.isSome_iff_exists.1 hv
    have hown := (hw.own_ptr k a ha).2
    have hown' := (hw.own_ptr k' a (hp ▸ ha)).2
    exact ht (hown.symm.trans hown')
  not_manager k hv hp := by
    obtain ⟨a, ha⟩ := Option.isSome_iff_exists.1 hv
    obtain ⟨i, -, ho, -⟩ := hw.handle k hv
    have hman := hw.own_named _ a (hp ▸ ha)
    exact hw.steady.key_ne_manager ho.1
      (ho.2.trans ((hw.own_ptr k a ha).2.symm.trans hman))
  name i ha := ⟨w.shm.key i, hT i ha, hw.name_terminated ha⟩
  block i ha := by
    obtain ⟨data, hl, -⟩ := hw.steady.block i ha
    exact ⟨data, hl⟩
  handle k hv := by
    obtain ⟨i, hs, ho, -⟩ := hw.handle k hv
    exact ⟨i, hs, ho.1, ho.2 ▸ hw.name_terminated ho.1⟩

variable [DecidableEq κ] {op : Op κ}

theorem Tracked.separate (hw : w.Tracked own) (hop : op.Steady) (hc : w.Claims op) :
    w.Separate op := by
  have hsame : (w.step op).shm = w.shm → w.Separate op := by
    intro hm
    rw [Separate, hm]
    exact ⟨rfl, fun _ _ _ => rfl, fun _ _ _ => ⟨rfl, rfl⟩⟩
  obtain ⟨k, -, -, heq | ⟨hm, -⟩ | ⟨-, -, i, -, hs⟩⟩ := hw.step_cases hop hc
  · exact hsame (by rw [heq])
  · exact hsame hm
  · refine ⟨hs.frame.num_clients, fun j _ hj => hs.frame.descriptors j ?_, fun n hn hforeign => ?_⟩
    · rintro rfl
      exact hj hs.owns
    · have hf : w.shm.Foreign i n := by
        refine hforeign.imp id ?_
        rintro ⟨j, ho⟩
        refine ⟨j, ?_, ho⟩
        rintro rfl
        exact hn (ho.2.symm.trans (hs.before ho.1))
      exact ⟨hs.frame.named n hf, hs.frame.lookup hf⟩

/-- The names in the table stay within the topics of the calls. -/
theorem Tracked.keys_step (hw : w.Tracked own) (hop : op.Steady) (hc : w.Claims op)
    (hin : op.Within T) (hT : ∀ i, w.shm.active i → w.shm.key i ∈ T) :
    ∀ i, (w.step op).shm.active i → (w.step op).shm.key i ∈ T := by
  obtain ⟨k, -, -, heq | ⟨hm, -⟩ | ⟨-, -, i, hi, hs⟩⟩ := hw.step_cases hop hc
  · rwa [heq]
  · rwa [hm]
  · intro j hj
    by_cases hji : j = i
    · rw [hji, hs.owns.2]
      rcases hi with ha | ⟨name, size, rfl⟩
      · exact hs.before ha ▸ hT i ha
      · exact hin
    · rw [Shm.active, hs.frame.descriptors j hji] at hj
      rw [Shm.key, hs.frame.descriptors j hji]
      exact hT j hj

/-- A call after which the topics are isolated gave no slot to a name that is not plain. -/
theorem Tracked.claims_of_isolated (hw : w.Tracked own) (hop : op.Steady)
    (hi : (w.step op).Isolated T) : w.Claims op := by
  cases op with
  | allocateBlock k name size alloc =>
    obtain rfl : alloc = true := hop
    by_contra hc
    obtain ⟨hp, hf⟩ := not_or.1 hc
    have hn : w.shm.slotOf name = none := by
      by_contra hs
      obtain ⟨i, hi⟩ := Option.ne_none_iff_exists'.1 hs
      exact hp (hw.plain_of_slotOf hi)
    obtain ⟨i, hfree⟩ := Option.ne_none_iff_exists'.1 hf
    have hshm : (w.step (.allocateBlock k name size true)).shm
        = (w.shm.claim i name size.toNat true).1 := by
      rw [step_allocateBlock_shm, Shm.allocateBlock_claim hn hfree]
    have hdesc : (w.step (.allocateBlock k name size true)).shm.descriptors i
        = ((w.shm.descriptors i).allocate name).recordSize size.toNat size.toNat := by
      rw [hshm]
      exact Shm.claim_self ..
    have hact : (w.step (.allocateBlock k name size true)).shm.active i := by
      rw [Shm.active, hdesc]
      rfl
    have hkey : (w.step (.allocateBlock k name size true)).shm.key i = name.key := by
      rw [Shm.key, hdesc, Descriptor.key_recordSize, Descriptor.key_allocate]
    -- the terminator is in the buffer, so the name can only be the manager's
    obtain ⟨t, -, hpre⟩ := hi.name i hact
    have hzero : (0 : UInt8) ∈ name.buf.1 := by
      rw [hdesc] at hpre
      exact hpre.subset (by simp)
    have hlen := CString.zero_mem_buf hzero
    have hman : name.key = Shm.managerName := by
      rw [CString.key_of_lt hlen]
      by_contra hne
      exact hp ⟨hlen, hne⟩
    obtain ⟨data, hl⟩ := hi.block i hact
    obtain ⟨s, hs⟩ := hw.steady.manager
    obtain ⟨a, ha⟩ : ∃ a, w.shm.segment.named name.key = some a := by
      rw [hman, ← Option.ne_none_iff_exists', ne_eq, ← hw.steady.wf.lookup_none_iff, hs]
      simp
    rw [hkey, hman, hshm, Shm.claim_segment_of_named ha, hs] at hl
    cases hl
  | findHandle _ _ | reallocateBlock _ _ _ | publish_msg _ _ _ | read _ | resetBlock _
  | resetAllBlocks => trivial

/-- **Topic isolation.** Over any run without resets and failed allocations, whatever the names of
the topics, the topics are isolated in every state and every call leaves the other topics alone
exactly when every `allocateBlock` that finds a free slot has a name of at most 255 characters that
is not "Manager". -/
theorem isolated_iff (size : ℕ) (T : Set Name) (ops : List (Op κ))
    (hops : ∀ op ∈ ops, op.Steady ∧ op.Within T) :
    (Run.Always step (Isolated T) (init size) ops ∧ Run.Along step Separate (init size) ops) ↔
      Run.Along step Claims (init size) ops := by
  let Inv (w : World κ) : Prop :=
    (∃ own, w.Tracked own) ∧ ∀ i, w.shm.active i → w.shm.key i ∈ T
  have hinit : Inv (init size) := ⟨⟨_, tracked_init size⟩, fun i ha => by cases ha⟩
  have hstep : ∀ (w : World κ) op, op.Steady ∧ op.Within T → Inv w → w.Claims op →
      Inv (w.step op) := by
    rintro w op ⟨hop, hin⟩ ⟨⟨own, hw⟩, hT⟩ hc
    exact ⟨hw.step hop hc, hw.keys_step hop hc hin hT⟩
  have hiso : ∀ w, Inv w → w.Isolated T := by
    rintro w ⟨⟨own, hw⟩, hT⟩
    exact hw.isolated hT
  have hiff := Run.always_iff_along step (P := Claims) Inv hiso hstep
    (fun w op hop hi hq => hi.1.choose_spec.claims_of_isolated hop.1 hq) hinit hops
  have hsep : ∀ (w : World κ) op, op.Steady ∧ op.Within T → Inv w → w.Claims op →
      w.Separate op := by
    rintro w op hop ⟨⟨own, hw⟩, -⟩ hc
    exact hw.separate hop.1 hc
  exact ⟨fun h => hiff.1 h.1,
    fun h => ⟨hiff.2 h, Run.along_of_along step Inv hstep hsep hinit hops h⟩⟩

/-- The rule at two publishers of the topics "a" and "b". -/
theorem isolated_iff_two :
    (Run.Always step (Isolated {topicA.chars, topicB.chars}) (init 0)
        [.allocateBlock Client.first topicA 16 true, .allocateBlock .second topicB 16 true] ∧
      Run.Along step Separate (init 0)
        [.allocateBlock Client.first topicA 16 true, .allocateBlock .second topicB 16 true]) ↔
    Run.Along step Claims (init 0)
      [.allocateBlock Client.first topicA 16 true, .allocateBlock .second topicB 16 true] :=
  isolated_iff 0 _ _ (by simp [Op.Steady, Op.Within])

/-- The topic "Manager". -/
def topicManager : CString := .lit Shm.managerName (by simp [Shm.managerName])

/-- Topics of arbitrary names are not isolated: a publisher of the topic "Manager" gets the manager
object for its block. -/
theorem manager_topic : ¬ ∀ (size : ℕ) (T : Set Name) (ops : List (Op Client)),
    (∀ op ∈ ops, op.Steady ∧ op.Within T) → Run.Always step (Isolated T) (init size) ops ∧
      Run.Along step Separate (init size) ops := by
  intro h
  have hiso := (h 0 {Shm.managerName} [.allocateBlock .first topicManager 16 true]
    (by simp [Op.Steady, Op.Within, topicManager, CString.lit])).1.exec
  exact hiso.not_manager .first (by decide +kernel) (by decide +kernel)

end World

end MessageTransport
