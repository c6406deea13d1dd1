import MessageTransport.Sharedmem.Messages

/-!
# Delivery when publishing takes two steps

Publishers and subscribers of one topic, with `reallocateBlock` and `serialize` as two steps of
`publish_msg`: each takes the lock by itself, and anything may happen in between. `reallocateBlock`
records the size for the message of its caller, but the `serialize` and the reads that rely on it
come later. Another publisher's `reallocateBlock`, or the `allocateBlock` of a publisher that comes
late, may have recorded another size by then, or replaced the block.

`Exchange.Undisturbed` is the condition that this did not happen, and `delivers_of_undisturbed`
that delivery is intact in every run that meets it.
-/

namespace MessageTransport

/-- Publishers and subscribers of one topic. -/
structure Exchange (κ : Type*) where
  world : World κ
  /-- The message of a client between its `reallocateBlock` and its `serialize`. -/
  pending : κ → Option RawMessage
  /-- The client was signalled by a `serialize` since its last read. -/
  signalled : κ → Bool
  /-- The messages of the completed `serialize` calls. -/
  published : List RawMessage
  /-- The pointer and the length of the message of the last completed `serialize`. -/
  written : Option (Ptr × ℕ)

/-- The steps, each a whole locked operation. -/
inductive Turn (κ : Type*)
  | initialise (k : κ)
  | findHandle (k : κ)
  | reallocateBlock (k : κ) (msg : RawMessage)
  | serialize (k : κ)
  | read (k : κ)

namespace Exchange

variable {κ : Type*}

def init (size : ℕ) : Exchange κ := ⟨World.init size, fun _ => none, fun _ => false, [], none⟩

/-- The two halves of `publish_msg`, a read after a signal, and connecting to the topic. -/
def step [DecidableEq κ] (name : CString) (x : Exchange κ) : Turn κ → Exchange κ
  | .initialise k =>
    if (x.pending k).isNone then { x with world := x.world.step (.allocateBlock k name 16 true) }
    else x
  | .findHandle k =>
    if (x.pending k).isNone then { x with world := x.world.step (.findHandle k name) } else x
  | .reallocateBlock k msg =>
    if (x.pending k).isNone && (x.world.handle k).is_valid then
      let w := x.world.step (.reallocateBlock k msg.toMessage.serlen true)
      { x with
        world := w
        pending := if (w.handle k).is_valid then Function.update x.pending k (some msg)
          else x.pending }
    else x
  | .serialize k =>
    match x.pending k, (x.world.handle k).slot with
    | some msg, some i =>
      let r := x.world.shm.serialize i (x.world.handle k) msg.write
      let x' := { x with world := x.world.setHandle k r.2,
                         pending := Function.update x.pending k none }
      match r.1 with
      | none =>
        { x' with signalled := fun _ => true, published := msg :: x.published,
                  written := some (r.2.2.ptr, msg.encode.length) }
      | some _ => x'
    | _, _ => x
  | .read k =>
    if x.signalled k && (x.pending k).isNone then
      { x with world := x.world.step (.read k), signalled := Function.update x.signalled k false }
    else x

/-- Delivery is intact in a step: a `serialize` succeeds, and what a read hands to the callback was
published before. -/
def Delivers (x : Exchange κ) : Turn κ → Prop
  | .serialize k => ∀ msg i, x.pending k = some msg → (x.world.handle k).slot = some i →
      (x.world.shm.serialize i (x.world.handle k) msg.write).1 = none
  | .read k => x.signalled k = true → ∀ msg,
      x.world.shm.received (x.world.handle k) = some (.ok msg) → msg ∈ x.published
  | _ => True

/-- A `serialize` finds a recorded size that its message fits; a read finds the block that the last
`serialize` wrote to, and the length of its message as the recorded size. -/
def Undisturbed (x : Exchange κ) : Turn κ → Prop
  | .serialize k => ∀ msg i, x.pending k = some msg → (x.world.handle k).slot = some i →
      msg.encode.length ≤ (x.world.shm.descriptors i).size_
  | .read k => x.signalled k = true → ∀ i, (x.world.handle k).slot = some i →
      x.written = some (x.world.shm.segment.named (x.world.shm.key i),
        (x.world.shm.descriptors i).size_)
  | _ => True

/-- All handles are to topic `t`, and as long as the block of the last `serialize` is the topic's,
it begins with the message written then. -/
structure Inv (t : Name) (x : Exchange κ) : Prop where
  tracked : ∃ own, x.world.Tracked own
  topic : ∀ k, (x.world.handle k).is_valid = true → x.world.topic k = t
  old : ∀ a len, x.written = some (some a, len) → a < x.world.shm.segment.next
  holds : ∀ len, x.written = some (x.world.shm.segment.named t, len) →
    ∃ msg ∈ x.published, msg.encode.length = len ∧
      ∃ data, x.world.shm.segment.lookup t = some (.bytes data) ∧ msg.encode <+: data

theorem inv_init (size : ℕ) (t : Name) : (init size : Exchange κ).Inv t where
  tracked := ⟨_, World.tracked_init size⟩
  topic k hv := by cases hv
  old a len hw := by cases hw
  holds len hw := by cases hw

variable {x x' : Exchange κ} {k : κ} {i : Slot} {t : Name} {name : CString}

/-- A call that writes no message keeps the invariant. -/
theorem Inv.served (h : x.Inv t)
    (hs : Shm.Served x.world.shm x'.world.shm i t (x'.world.handle k))
    (htop : x'.world.topic k = t) (hlen : t.length < nameSize)
    (hother : ∀ k', k' ≠ k → x'.world.handle k' = x.world.handle k' ∧
      x'.world.topic k' = x.world.topic k')
    (hbytes : x'.world.shm.segment.named t = x.world.shm.segment.named t →
      x'.world.shm.segment.lookup t = x.world.shm.segment.lookup t)
    (hwritten : x'.written = x.written) (hpub : x'.published = x.published) : x'.Inv t where
  tracked := by
    obtain ⟨own, hw⟩ := h.tracked
    rw [← htop] at hs hlen
    exact hw.served hs hlen hother
  topic k' hv := by
    by_cases hk : k' = k
    · rw [hk]
      exact htop
    · rw [(hother k' hk).1] at hv
      rw [(hother k' hk).2]
      exact h.topic k' hv
  old a len hw := (h.old a len (hwritten ▸ hw)).trans_le hs.next_le
  holds len hw := by
    rw [hwritten] at hw
    -- the block written to is still the topic's, so it is not a new one
    obtain ⟨a, ha⟩ := hs.steady.named_key hs.owns.1
    rw [hs.owns.2] at ha
    rw [ha] at hw
    have hold := h.old a len hw
    have hsame : x'.world.shm.segment.named t = x.world.shm.segment.named t := by
      rcases hs.fresh t a ha with ha' | ⟨-, rfl⟩
      · rw [ha, ha']
      · exact absurd hold (lt_irrefl _)
    rw [← ha, hsame] at hw
    rw [hpub, hbytes hsame]
    exact h.holds len hw

/-- The handle of a client, when it has one. -/
theorem Inv.handle (h : x.Inv t) (hs : (x.world.handle k).slot = some i) :
    x.world.shm.Steady ∧ t.length < nameSize ∧ x.world.topic k = t ∧ x.world.shm.Owns i t ∧
      ((x.world.handle k).resize_count = (x.world.shm.descriptors i).resize_count_ →
        (x.world.handle k).ptr = x.world.shm.segment.named t) := by
  obtain ⟨own, hw⟩ := h.tracked
  have hv := hw.valid k i hs
  have ht := h.topic k hv
  obtain ⟨j, hj, ho, -, hp⟩ := hw.handle k hv
  obtain rfl : i = j := Option.some.inj (hs.symm.trans hj)
  rw [ht] at ho hp
  exact ⟨hw.steady, hw.topic_fits ho, ht, ho, hp⟩

/-- What a `serialize` does that finds room for its message. -/
theorem Inv.serialize_eq (h : x.Inv t) {msg : RawMessage}
    (hi : (x.world.handle k).slot = some i)
    (hsize : msg.encode.length ≤ (x.world.shm.descriptors i).size_) :
    ∃ data rest, x.world.shm.serialize i (x.world.handle k) msg.write
        = (none, x.world.shm.fill (x.world.shm.refresh i (x.world.handle k)).ptr data,
            x.world.shm.refresh i (x.world.handle k)) ∧
      data = msg.encode ++ rest ∧
      (x.world.shm.fill (x.world.shm.refresh i (x.world.handle k)).ptr data).segment.lookup t
        = some (.bytes data) := by
  obtain ⟨hm, -, -, ho, hp⟩ := h.handle hi
  exact hm.serialize_raw ho (Shm.refresh_ptr ho hp) hsize

/-- In a step that meets the condition delivery is intact. -/
theorem Inv.delivers (h : x.Inv t) {s : Turn κ} (hu : x.Undisturbed s) : x.Delivers s := by
  cases s with
  | serialize k =>
    intro msg i hmsg hi
    obtain ⟨data, rest, heq, -⟩ := h.serialize_eq hi (hu msg i hmsg hi)
    rw [heq]
  | read k =>
    intro hsig msg hrec
    cases hi : (x.world.handle k).slot with
    | none =>
      rw [Shm.received, hi] at hrec
      cases hrec
    | some i =>
      obtain ⟨hm, -, -, ho, hp⟩ := h.handle hi
      have hw := hu hsig i hi
      rw [ho.2] at hw
      obtain ⟨msg', hmem, hlen, hdata⟩ := h.holds _ hw
      -- the recorded size is the length of that message, so the reader takes all of it
      have hholds : x.world.shm.Holds t msg' := by
        intro j hj
        obtain rfl : j = i := hm.distinct j i hj.1 ho.1 (hj.2.trans ho.2.symm)
        exact ⟨hlen.symm, hdata⟩
      rw [hholds.received hm.toGood ho hi (Shm.refresh_ptr ho hp)] at hrec
      cases hrec
      exact hmem
  | initialise k => trivial
  | findHandle k => trivial
  | reallocateBlock k msg => trivial

variable [DecidableEq κ]

theorem Inv.initialise (h : x.Inv name.chars) (hp : name.Plain) :
    (x.step name (.initialise k)).Inv name.chars := by
  simp only [step]
  split_ifs
  · obtain ⟨own, hw⟩ := h.tracked
    rcases hw.steady.allocateBlock_served hp.key_ne (16 : UInt32).toNat_lt with
      ⟨m', i, hd, heq, hs⟩ | ⟨-, -, heq⟩
    · have hb := hw.steady.allocateBlock_bytes hp.key_ne (16 : UInt32).toNat
      rw [heq] at hb
      rw [World.step_allocateBlock heq]
      rw [hp.key_eq] at hs hb
      refine h.served (k := k) (i := i) ?_ (World.connect_topic_self ..) hp.1
        (fun k' hk => World.connect_ne _ _ _ hk) hb rfl rfl
      simp only [World.connect_handle_self]
      exact hs
    · rw [World.step_allocateBlock heq]
      refine ⟨⟨own, hw.null (k := k) rfl (World.connect_handle_self ..)
        fun k' hk => World.connect_ne _ _ _ hk⟩, fun k' hv => ?_, h.old, h.holds⟩
      by_cases hk : k' = k
      · rw [hk]
        exact World.connect_topic_self ..
      · simp only [(World.connect_ne _ _ _ hk).1] at hv
        simp only [(World.connect_ne _ _ _ hk).2]
        exact h.topic k' hv
  · exact h

theorem Inv.findHandle (h : x.Inv name.chars) (hp : name.Plain) :
    (x.step name (.findHandle k)).Inv name.chars := by
  simp only [step]
  split_ifs
  · obtain ⟨own, hw⟩ := h.tracked
    rw [World.step]
    rcases hw.steady.findHandle_served name with ⟨i, -, hs⟩ | ⟨-, hnull⟩
    · rw [hp.key_eq] at hs
      refine h.served (k := k) (i := i) ?_ (World.connect_topic_self ..) hp.1
        (fun k' hk => World.connect_ne _ _ _ hk) (fun _ => rfl) rfl rfl
      simp only [World.connect_handle_self]
      exact hs
    · rw [hnull]
      refine ⟨⟨own, hw.null (k := k) rfl (World.connect_handle_self ..)
        fun k' hk => World.connect_ne _ _ _ hk⟩, fun k' hv => ?_, h.old, h.holds⟩
      by_cases hk : k' = k
      · rw [hk]
        exact World.connect_topic_self ..
      · simp only [(World.connect_ne _ _ _ hk).1] at hv
        simp only [(World.connect_ne _ _ _ hk).2]
        exact h.topic k' hv
  · exact h

theorem Inv.reallocateBlock (h : x.Inv t) {msg : RawMessage} :
    (x.step name (.reallocateBlock k msg)).Inv t := by
  simp only [step]
  by_cases hidle : ((x.pending k).isNone && (x.world.handle k).is_valid) = true
  · rw [if_pos hidle]
    obtain ⟨own, hw⟩ := h.tracked
    have hv := (Bool.and_eq_true_iff.1 hidle).2
    obtain ⟨i, hi, -⟩ := hw.handle k hv
    obtain ⟨hm, hlen, htop, ho, hp⟩ := h.handle hi
    rw [World.step, Shm.reallocateBlock_valid hv hi]
    refine h.served (k := k) (i := i) ?_ htop hlen
      (fun k' hk => ⟨World.setHandle_ne _ _ hk, rfl⟩) (hm.reallocateSlot_bytes ho) rfl rfl
    simp only [World.setHandle_self]
    exact (hm.reallocateSlot_served ho hi hp (UInt32.toNat_lt _)).1
  · rwa [if_neg hidle]

theorem Inv.read (h : x.Inv t) : (x.step name (.read k)).Inv t := by
  simp only [step]
  split_ifs
  · rw [World.step]
    cases hi : (x.world.handle k).slot with
    | none => exact ⟨h.tracked, h.topic, h.old, h.holds⟩
    | some i =>
      obtain ⟨hm, hlen, htop, ho, hp⟩ := h.handle hi
      simp only [Shm.deserialize_handle]
      refine h.served (k := k) (i := i) ?_ htop hlen
        (fun k' hk => ⟨World.setHandle_ne _ _ hk, rfl⟩) (fun _ => rfl) rfl rfl
      simp only [World.setHandle_self]
      exact hm.refresh_served ho hi hp
  · exact h

theorem Inv.serialize (h : x.Inv t) (hu : x.Undisturbed (.serialize k)) :
    (x.step name (.serialize k)).Inv t := by
  simp only [step]
  split
  · rename_i msg i hmsg hi
    obtain ⟨own, hw⟩ := h.tracked
    obtain ⟨hm, hlen, htop, ho, hp⟩ := h.handle hi
    obtain ⟨data, rest, heq, hdata, hl⟩ := h.serialize_eq hi (hu msg i hmsg hi)
    have hs := (hm.refresh_served ho hi hp).fill data
    simp only [heq]
    have hnamed : ∀ n, (x.world.shm.fill (x.world.shm.refresh i (x.world.handle k)).ptr
        data).segment.named n = x.world.shm.segment.named n := by simp [Shm.fill]
    refine ⟨?_, fun k' hv => ?_, fun a len hwr => ?_, fun len hwr => ?_⟩
    · refine hw.served (k := k) (i := i) ?_ (htop ▸ hlen)
        fun k' hk => ⟨World.setHandle_ne _ _ hk, rfl⟩
      simp only [World.setHandle_self, World.setHandle_topic, htop]
      exact hs
    · by_cases hk : k' = k
      · rw [hk]
        exact htop
      · simp only [World.setHandle_ne _ _ hk] at hv
        exact h.topic k' hv
    · obtain ⟨hpa, -⟩ := Prod.mk.inj (Option.some.inj hwr)
      exact hs.steady.wf.fresh (hs.ptr.symm.trans hpa)
    · obtain ⟨-, hlen'⟩ := Prod.mk.inj (Option.some.inj hwr)
      exact ⟨msg, List.mem_cons_self .., hlen', data, hl, rest, hdata.symm⟩
  · exact h

/-- A step that meets the condition keeps the invariant. -/
theorem Inv.step (h : x.Inv name.chars) (hp : name.Plain) {s : Turn κ} (hu : x.Undisturbed s) :
    (x.step name s).Inv name.chars := by
  cases s with
  | initialise k => exact h.initialise hp
  | findHandle k => exact h.findHandle hp
  | reallocateBlock k msg => exact h.reallocateBlock
  | serialize k => exact h.serialize hu
  | read k => exact h.read

/-- **Delivery.** In every run of publishers and subscribers of a plain topic in which every
`serialize` finds a recorded size that its message fits, and every read finds block and size as the
last `serialize` left them, every `serialize` succeeds and every message handed to a callback was
published before. -/
theorem delivers_of_undisturbed (size : ℕ) (name : CString) (hp : name.Plain) (ss : List (Turn κ))
    (h : Run.Along (step name) Undisturbed (init size) ss) :
    Run.Along (step name) Delivers (init size) ss :=
  Run.along_of_along (step name) (Inv name.chars) (fun _ _ (_ : True) hi hu => hi.step hp hu)
    (fun _ _ _ hi hu => hi.delivers hu) (inv_init size _)
    (fun _ _ => trivial) h

omit [DecidableEq κ] in
theorem undisturbed_serialize (msg : RawMessage) (hmsg : x.pending k = some msg)
    (hsize : ∀ i, (x.world.handle k).slot = some i →
      msg.encode.length ≤ (x.world.shm.descriptors i).size_) : x.Undisturbed (.serialize k) := by
  intro msg' i hmsg' hi
  obtain rfl : msg = msg' := Option.some.inj (hmsg.symm.trans hmsg')
  exact hsize i hi

/-- A message as long as `longMessage`. -/
def otherMessage : RawMessage := ⟨Vec.replicate 9, List.replicate 20 6, by decide⟩

/-- Two publishers with messages of one length, both in the middle of `publish_msg`, and a
subscriber. -/
def publishBoth : List (Turn Client) :=
  [.initialise .first, .initialise .second, .findHandle .third,
    .reallocateBlock .first longMessage, .reallocateBlock .second otherMessage,
    .serialize .first, .serialize .second, .read .third]

/-- The rule at this run. -/
theorem delivers_both : Run.Along (step topicA) Delivers (init 0) publishBoth := by
  let before (n : ℕ) : Exchange Client := Run.exec (step topicA) (init 0) (publishBoth.take n)
  have hfirst : (before 5).Undisturbed (.serialize .first) :=
    undisturbed_serialize longMessage (by decide +kernel) (by decide +kernel)
  have hsecond : (before 6).Undisturbed (.serialize .second) :=
    undisturbed_serialize otherMessage (by decide +kernel) (by decide +kernel)
  have hread : ∀ i, ((before 7).world.handle .third).slot = some i → (before 7).written
      = some ((before 7).world.shm.segment.named ((before 7).world.shm.key i),
        ((before 7).world.shm.descriptors i).size_) := by
    decide +kernel
  exact delivers_of_undisturbed 0 topicA (by decide) publishBoth
    ⟨trivial, trivial, trivial, trivial, trivial, hfirst, hsecond, fun _ => hread, trivial⟩

/-- The second publisher records the size of its own message between the two steps of the first. -/
def publishTogether : List (Turn Client) :=
  [.initialise .first, .initialise .second, .reallocateBlock .first longMessage,
    .reallocateBlock .second RawMessage.empty, .serialize .first]

/-- Delivery is not intact in all runs: the `serialize` of the longer message overruns its stream,
because the recorded size is that of the shorter one. -/
theorem serialize_overrun : ¬ ∀ (size : ℕ) (name : CString), name.Plain →
    ∀ ss : List (Turn Client), Run.Along (step name) Delivers (init size) ss := by
  intro h
  obtain ⟨-, -, -, -, hser, -⟩ := h 0 topicA (by decide) publishTogether
  have hok := hser longMessage 0 (by decide +kernel) (by decide +kernel)
  revert hok
  decide +kernel

end Exchange

end MessageTransport
