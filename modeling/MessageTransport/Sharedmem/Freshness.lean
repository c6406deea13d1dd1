import MessageTransport.Sharedmem.Messages

/-!
# A read delivers the last message

Publishers and subscribers with raw messages, each call a whole operation. `Board` is what the
table is for: a notice board that keeps, for every topic, the message of the last `publish_msg`
since the last `initialise`, and forgets it at an `initialise`. `Board.Shows` is the simulation
between the board and the world of the table, and `read_last` what a reader gets from it.
-/

namespace MessageTransport

/-- The calls of publishers and subscribers. -/
inductive Call (κ : Type*)
  | initialise (k : κ) (name : CString)
  | publish_msg (k : κ) (msg : RawMessage)
  | findHandle (k : κ) (name : CString)
  | read (k : κ)

namespace Call

variable {κ : Type*}

/-- `initialise` asks for a block of 16 bytes. -/
def toOp : Call κ → Op κ
  | .initialise k name => .allocateBlock k name 16 true
  | .publish_msg k msg => .publish_msg k msg.toMessage true
  | .findHandle k name => .findHandle k name
  | .read k => .read k

/-- Names are plain, the topics are those of `T`, and messages have a length. -/
def Admissible (T : Finset Name) : Call κ → Prop
  | .initialise _ name => name.Plain ∧ name.chars ∈ T
  | .publish_msg _ msg => msg.encode.length < 2 ^ 32
  | .findHandle _ name => name.Plain
  | .read _ => True

instance (T : Finset Name) (c : Call κ) : Decidable (c.Admissible T) :=
  match c with
  | .initialise _ name => inferInstanceAs (Decidable (name.Plain ∧ name.chars ∈ T))
  | .publish_msg _ msg => inferInstanceAs (Decidable (msg.encode.length < 2 ^ 32))
  | .findHandle _ name => inferInstanceAs (Decidable name.Plain)
  | .read _ => inferInstanceAs (Decidable True)

end Call

/-- The notice board: the topic each client is connected to, and for each known topic the message
to be read, if there is one. -/
structure Board (κ : Type*) where
  topic : κ → Option Name
  last : Name → Option (Option RawMessage)

namespace Board

variable {κ : Type*}

def empty : Board κ := ⟨fun _ => none, fun _ => none⟩

variable [DecidableEq κ]

/-- What a call does to the board. -/
def step (b : Board κ) : Call κ → Board κ
  | .initialise k name =>
    { topic := Function.update b.topic k (some name.chars)
      last := Function.update b.last name.chars (some none) }
  | .publish_msg k msg =>
    match b.topic k with
    | some t => { b with last := Function.update b.last t (some (some msg)) }
    | none => b
  | .findHandle k name =>
    { b with topic := Function.update b.topic k
               (if (b.last name.chars).isSome then some name.chars else none) }
  | .read _ => b

end Board

/-- There is a free slot for a new topic as long as there are at most 100 topics. -/
theorem Shm.Good.freeSlot_ne_none {m : Shm} (hm : m.Good) {T : Finset Name} {t : Name}
    (hT : T.card ≤ numBlock) (hkeys : ∀ i, m.active i → m.key i ∈ T) (ht : t ∈ T)
    (hn : ∀ i, m.active i → m.key i ≠ t) : m.freeSlot ≠ none := by
  intro hf
  have hact := freeSlot_none.1 hf
  have hmaps : ∀ i ∈ (Finset.univ : Finset Slot), m.key i ∈ T.erase t :=
    fun i _ => Finset.mem_erase.2 ⟨hn i (hact i), hkeys i (hact i)⟩
  have hcard := Finset.card_le_card_of_injOn m.key hmaps
    fun i _ j _ hij => hm.distinct i j (hact i) (hact j) hij
  rw [Finset.card_univ, Fintype.card_fin, Finset.card_erase_of_mem ht] at hcard
  have hpos : 0 < numBlock := by decide
  omega

section Simulation

variable {κ : Type*} {T : Finset Name} {b b' : Board κ} {w w' : World κ} {k : κ} {i : Slot}
  {t : Name}

/-- The world of the table shows what is on the board. -/
structure Board.Shows (T : Finset Name) (b : Board κ) (w : World κ) : Prop where
  tracked : ∃ own, w.Tracked own
  keys : ∀ i, w.shm.active i → w.shm.key i ∈ T
  topic : ∀ k t, b.topic k = some t → (w.handle k).is_valid = true ∧ w.topic k = t
  silent : ∀ k, b.topic k = none → (w.handle k).is_valid = false
  known : ∀ t, (b.last t).isSome = true ↔ ∃ i, w.shm.Owns i t
  holds : ∀ t msg, b.last t = some (some msg) → w.shm.Holds t msg

/-- A call that serves a topic, with the board changed for that topic only. -/
theorem Board.Shows.served (h : b.Shows T w)
    (hs : Shm.Served w.shm w'.shm i t (w'.handle k)) (htop : w'.topic k = t)
    (hother : ∀ k', k' ≠ k → w'.handle k' = w.handle k' ∧ w'.topic k' = w.topic k')
    (hT : t ∈ T) (hlen : t.length < nameSize) (hk : b'.topic k = some t)
    (hbother : ∀ k', k' ≠ k → b'.topic k' = b.topic k')
    (hlast : ∀ t', t' ≠ t → b'.last t' = b.last t') (hknown : (b'.last t).isSome = true)
    (hholds : ∀ msg, b'.last t = some (some msg) → w'.shm.Holds t msg) : b'.Shows T w' where
  tracked := by
    obtain ⟨own, hw⟩ := h.tracked
    rw [← htop] at hs hlen
    exact hw.served hs hlen hother
  keys j hj := by
    by_cases hji : j = i
    · rw [hji, hs.owns.2]
      exact hT
    · rw [Shm.active, hs.frame.descriptors j hji] at hj
      rw [Shm.key, hs.frame.descriptors j hji]
      exact h.keys j hj
  topic k' t' hk' := by
    by_cases hkk : k' = k
    · rw [hkk] at hk' ⊢
      exact ⟨hs.valid, htop.trans (Option.some.inj (hk.symm.trans hk'))⟩
    · rw [hbother k' hkk] at hk'
      rw [(hother k' hkk).1, (hother k' hkk).2]
      exact h.topic k' t' hk'
  silent k' hk' := by
    by_cases hkk : k' = k
    · rw [hkk, hk] at hk'
      cases hk'
    · rw [hbother k' hkk] at hk'
      rw [(hother k' hkk).1]
      exact h.silent k' hk'
  known t' := by
    by_cases ht : t' = t
    · rw [ht]
      exact iff_of_true hknown ⟨i, hs.owns⟩
    · rw [hlast t' ht, h.known t']
      exact exists_congr fun j => (hs.owns_ne ht).symm
  holds t' msg hm := by
    by_cases ht : t' = t
    · rw [ht] at hm ⊢
      exact hholds msg hm
    · rw [hlast t' ht] at hm
      exact hs.holds_ne ht (h.holds t' msg hm)

theorem Board.shows_init (size : ℕ) : (Board.empty : Board κ).Shows T (World.init size) where
  tracked := ⟨_, World.tracked_init size⟩
  keys i ha := by cases ha
  topic k t hk := by cases hk
  silent k _ := rfl
  known t := by
    refine iff_of_false (by simp [Board.empty]) ?_
    rintro ⟨i, ha, -⟩
    cases ha
  holds t msg hm := by cases hm

variable [DecidableEq κ]

theorem Board.Shows.initialise (h : b.Shows T w) (hT : T.card ≤ numBlock) {name : CString}
    (hp : name.Plain) (hname : name.chars ∈ T) :
    (b.step (.initialise k name)).Shows T (w.step (.allocateBlock k name 16 true)) := by
  obtain ⟨own, hw⟩ := h.tracked
  rcases hw.steady.allocateBlock_served hp.key_ne (16 : UInt32).toNat_lt with
    ⟨m', i, hd, heq, hs⟩ | ⟨hn, hf, -⟩
  · rw [World.step_allocateBlock heq]
    rw [hp.key_eq] at hs
    refine h.served (by rw [World.connect_handle_self]; exact hs) (World.connect_topic_self ..)
      (fun k' hk => World.connect_ne w _ _ hk) hname hp.1 (Function.update_self ..)
      (fun k' hk => Function.update_of_ne hk ..) (fun t' ht => Function.update_of_ne ht ..) ?_ ?_
    · simp [step]
    · intro msg hm
      simp [step] at hm
  · -- the table is not full: there are at most as many topics as slots
    rw [← hp.key_eq] at hname
    exact absurd hf (hw.steady.freeSlot_ne_none hT h.keys hname (Shm.slotOf_none.1 hn))

theorem Board.Shows.findHandle (h : b.Shows T w) {name : CString} (hp : name.Plain) :
    (b.step (.findHandle k name)).Shows T (w.step (.findHandle k name)) := by
  obtain ⟨own, hw⟩ := h.tracked
  rw [World.step]
  rcases hw.steady.findHandle_served name with ⟨i, -, hs⟩ | ⟨hn, hnull⟩
  · rw [hp.key_eq] at hs
    have hknown : (b.last name.chars).isSome = true := (h.known _).2 ⟨i, hs.owns⟩
    refine h.served (by rw [World.connect_handle_self]; exact hs) (World.connect_topic_self ..)
      (fun k' hk => World.connect_ne w _ _ hk) (hs.owns.2 ▸ h.keys i hs.owns.1) hp.1 ?_
      (fun k' hk => Function.update_of_ne hk ..) (fun _ _ => rfl) hknown
      (fun msg hm => h.holds _ msg hm)
    rw [step, hknown, if_pos rfl]
    exact Function.update_self ..
  · have hunknown : ¬ (b.last name.chars).isSome = true := by
      rw [h.known]
      rintro ⟨i, ho⟩
      exact Shm.slotOf_none.1 hn i ho.1 (ho.2.trans hp.key_eq.symm)
    rw [hnull, step, if_neg hunknown]
    refine ⟨⟨own, hw.null (k := k) rfl (World.connect_handle_self ..)
      fun k' hk => World.connect_ne w _ _ hk⟩, h.keys, fun k' t' hk' => ?_, fun k' hk' => ?_,
      h.known, h.holds⟩
    · by_cases hk : k' = k
      · simp only [hk, Function.update_self] at hk'
        cases hk'
      · simp only [Function.update_of_ne hk] at hk'
        rw [(World.connect_ne w _ _ hk).1, (World.connect_ne w _ _ hk).2]
        exact h.topic k' t' hk'
    · by_cases hk : k' = k
      · rw [hk, World.connect_handle_self]
        rfl
      · simp only [Function.update_of_ne hk] at hk'
        rw [(World.connect_ne w _ _ hk).1]
        exact h.silent k' hk'

theorem Board.Shows.publish_msg (h : b.Shows T w) {msg : RawMessage}
    (hlen : msg.encode.length < 2 ^ 32) :
    (b.step (.publish_msg k msg)).Shows T (w.step (.publish_msg k msg.toMessage true)) := by
  obtain ⟨own, hw⟩ := h.tracked
  rw [World.step, step]
  cases hk : b.topic k with
  | none =>
    rw [Shm.publish_msg_invalid (h.silent k hk)]
    simpa [World.setHandle] using h
  | some t =>
    obtain ⟨hv, rfl⟩ := h.topic k t hk
    obtain ⟨i, hi, ho, -, hp⟩ := hw.handle k hv
    have hs := hw.steady.publish_msg_served ho hv hi hp msg.toMessage
    refine h.served (k := k) (by rw [World.setHandle_self]; exact hs) rfl
      (fun k' hk' => ⟨World.setHandle_ne w _ hk', rfl⟩) (ho.2 ▸ h.keys i ho.1) (hw.topic_fits ho)
      hk (fun _ _ => rfl) (fun t' ht => Function.update_of_ne ht ..) ?_ ?_
    · simp
    · intro msg' hm
      simp only [World.setHandle_topic, Function.update_self] at hm
      cases hm
      exact (hw.steady.publish_raw ho hv hi hp hlen).2

theorem Board.Shows.read (h : b.Shows T w) : b.Shows T (w.step (.read k)) := by
  obtain ⟨own, hw⟩ := h.tracked
  rw [World.step]
  cases hi : (w.handle k).slot with
  | none => exact h
  | some i =>
    have hv := hw.valid k i hi
    obtain ⟨j, hj, ho, -, hp⟩ := hw.handle k hv
    obtain rfl : i = j := Option.some.inj (hi.symm.trans hj)
    cases hk : b.topic k with
    | none =>
      rw [h.silent k hk] at hv
      cases hv
    | some t =>
      obtain ⟨-, rfl⟩ := h.topic k t hk
      simp only [Shm.deserialize_handle]
      have hs := hw.steady.refresh_served ho hi hp
      refine h.served (k := k) (by rw [World.setHandle_self]; exact hs) rfl
        (fun k' hk' => ⟨World.setHandle_ne w _ hk', rfl⟩) (ho.2 ▸ h.keys i ho.1)
        (hw.topic_fits ho) hk (fun _ _ => rfl) (fun _ _ => rfl) ((h.known _).2 ⟨i, ho⟩)
        (fun msg hm => h.holds _ msg hm)

/-- **Simulation.** Every call keeps the world in step with the board. -/
theorem Board.Shows.step (h : b.Shows T w) (hT : T.card ≤ numBlock) {c : Call κ}
    (hc : c.Admissible T) : (b.step c).Shows T (w.step c.toOp) := by
  cases c with
  | initialise k name => exact h.initialise hT hc.1 hc.2
  | publish_msg k msg => exact h.publish_msg hc
  | findHandle k name => exact h.findHandle hc
  | read k => exact h.read

theorem Board.shows_exec (hT : T.card ≤ numBlock) (h : b.Shows T w) {cs : List (Call κ)}
    (hcs : ∀ c ∈ cs, c.Admissible T) :
    (Run.exec Board.step b cs).Shows T (Run.exec World.step w (cs.map Call.toOp)) := by
  induction cs generalizing b w with
  | nil => exact h
  | cons c cs ih =>
    exact ih (h.step hT (hcs c (by simp))) fun c' hc' => hcs c' (by simp [hc'])

/-- **A read delivers the last message.** After any sequence of calls on at most 100 topics with
plain names, by any number of publishers and subscribers, a client connected to a topic reads
exactly the message of the last `publish_msg` on it, if no `initialise` of the topic came after. -/
theorem read_last (size : ℕ) (hT : T.card ≤ numBlock) (cs : List (Call κ))
    (hcs : ∀ c ∈ cs, c.Admissible T) {k : κ} {t : Name} {msg : RawMessage}
    (hk : (Run.exec Board.step Board.empty cs).topic k = some t)
    (hmsg : (Run.exec Board.step Board.empty cs).last t = some (some msg)) :
    let w := Run.exec World.step (World.init size) (cs.map Call.toOp)
    w.shm.received (w.handle k) = some (.ok msg) := by
  have h := Board.shows_exec hT (Board.shows_init size) hcs
  obtain ⟨own, hw⟩ := h.tracked
  obtain ⟨hv, rfl⟩ := h.topic k t hk
  obtain ⟨i, hi, ho, -, hp⟩ := hw.handle k hv
  exact (h.holds _ msg hmsg).received hw.steady.toGood ho hi (Shm.refresh_ptr ho hp)

end Simulation

/-- The second client connects to the topic "a", and the first publishes two messages on it: its
block grows for one, and is reused for the next. -/
def growThenReuse : List (Call Client) :=
  [.initialise .first topicA, .findHandle .second topicA, .publish_msg .first longMessage,
    .publish_msg .first RawMessage.empty]

/-- The subscriber's handle is from before both messages, and it reads the second. -/
theorem read_last_grown :
    let w := Run.exec World.step (World.init 0) (growThenReuse.map Call.toOp)
    w.shm.received (w.handle .second) = some (.ok RawMessage.empty) :=
  read_last (T := {topicA.chars}) 0 (by decide) growThenReuse (by decide) (t := topicA.chars) rfl rfl

end MessageTransport
