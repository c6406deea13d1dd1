import MessageTransport.Lib.DeadlineTimer
import MessageTransport.Lib.Run

/-!
# Timers

A `Timer` waits for its expiry, calls `timerCallback`, and waits again. `start` begins to wait
whether or not a wait is outstanding, `stop` clears a flag and leaves the wait, and the handler does
not ask whether its wait was cancelled, nor whether there still is a `Timer`.

* `timer_sound_iff`: there is one chain of callbacks, one timeout apart, and no handler is left when
  the timer is gone, if and only if no wait is outstanding whenever the timer is started or
  destroyed; a release pool, which is a timer, always leaves a handler behind.
-/

namespace MessageTransport

/-- `Timer`, with the expiry of its `deadline_timer`. -/
structure Timer where
  expiry : ℤ
  timeout : ℤ
  flag_isRunning : Bool

namespace Timer

variable (t : Timer) (ws : Waits ℤ)

/-- `start()`. -/
def start : Timer × Waits ℤ := ({ t with flag_isRunning := true }, ws.arm t.expiry)

/-- `stop()`. -/
def stop : Timer := { t with flag_isRunning := false }

/-- `callback()`, with the note whether `timerCallback` is called. What that throws is taken to be a
`std::exception`, which is caught; another exception would leave `callback` before the next wait. To
change the expiry cancels the waits. -/
def callback : Bool × Timer × Waits ℤ :=
  if t.flag_isRunning then
    let t := { t with expiry := t.expiry + t.timeout }
    (true, t, ws.cancel.arm t.expiry)
  else (false, t, ws)

end Timer

/-- A `Timer`, and the `io_service` that runs its handlers. -/
structure TimerService where
  /-- None after its destruction. -/
  object : Option Timer
  waits : Waits ℤ
  /-- The waits for which `timerCallback` was called, with `flag_isRunning` at that time. -/
  callbacks : List (Wait ℤ × Bool)
  /-- The waits whose handlers ran without a `Timer`. -/
  late : List (Wait ℤ)

namespace TimerService

/-- `Timer(io, timeout)`, at a time that makes its first expiry. -/
def init (expiry timeout : ℤ) : TimerService := ⟨some ⟨expiry, timeout, false⟩, [], [], []⟩

/-- What happens to a timer. -/
inductive Event
  | start
  | stop
  /-- The expiry has come. -/
  | expire
  /-- The handler of the `n`-th outstanding wait runs. -/
  | complete (n : ℕ)
  | destroy

/-- The state after an event. Nothing is called on a timer that was destroyed. -/
def step (s : TimerService) : Event → TimerService
  | .start =>
    match s.object with
    | some t => { s with object := some (t.start s.waits).1, waits := (t.start s.waits).2 }
    | none => s
  | .stop => { s with object := s.object.map Timer.stop }
  | .expire => { s with waits := s.waits.expire }
  | .complete n =>
    match s.waits.finish n with
    | some (w, waits) =>
      match s.object with
      | some t =>
        let r := t.callback waits
        { s with
          object := some r.2.1
          waits := r.2.2
          callbacks := if r.1 then s.callbacks ++ [(w, t.flag_isRunning)] else s.callbacks }
      | none => { s with waits, late := s.late ++ [w] }
    | none => s
  | .destroy => if s.object.isSome then { s with object := none, waits := s.waits.cancel } else s

/-- There is one chain of callbacks, and none without a timer. -/
structure Sound (timeout : ℤ) (s : TimerService) : Prop where
  one : s.waits.length ≤ 1
  callbacks : ∀ c ∈ s.callbacks, c.2 = true ∧ c.1.status = .expired
  apart : (s.callbacks.map fun c => c.1.expiry).IsChain fun a b => b = a + timeout
  late : s.late = []
  gone : s.object = none → s.waits = []

/-- No wait is outstanding when the timer is started or destroyed. -/
def Free (s : TimerService) : Event → Prop
  | .start => s.waits = []
  | .destroy => s.waits = []
  | _ => True

/-- What a timer waits for is its expiry, one timeout after its last callback. -/
structure Inv (timeout : ℤ) (s : TimerService) : Prop where
  sound : s.Sound timeout
  timeout_eq : ∀ t, s.object = some t → t.timeout = timeout
  waits : ∀ t, s.object = some t → s.waits.Uncancelled t.expiry
  last : ∀ t, s.object = some t → ∀ c, s.callbacks.getLast? = some c →
    t.expiry = c.1.expiry + timeout

variable {timeout : ℤ} {s : TimerService} {e : Event} {w : Wait ℤ} {ws : Waits ℤ} {n : ℕ}
  {t : Timer}

theorem inv_init (expiry timeout : ℤ) : (init expiry timeout).Inv timeout := by
  refine ⟨⟨by simp [init], by simp [init], by simp [init], rfl, fun _ => rfl⟩, ?_, ?_, ?_⟩
  · rintro t ⟨⟩
    rfl
  · rintro t ⟨⟩
    exact Waits.uncancelled_nil
  · rintro t ⟨⟩ c hc
    cases hc

/-- One more callback, for a wait that has expired. -/
theorem Inv.callback (hs : s.Inv timeout) (ht : s.object = some t)
    (hf : s.waits.finish n = some (w, ws)) :
    Inv timeout ⟨some { t with expiry := t.expiry + t.timeout },
      Waits.arm (Waits.cancel []) (t.expiry + t.timeout), s.callbacks ++ [(w, true)], s.late⟩ := by
  obtain ⟨hexpiry, hstatus, -⟩ := (hs.waits t ht).finish hf
  have htimeout := hs.timeout_eq t ht
  refine ⟨⟨by simp, ?_, ?_, hs.sound.late, nofun⟩, ?_, ?_, ?_⟩
  · intro c hc
    rcases List.mem_append.1 hc with hc | hc
    · exact hs.sound.callbacks c hc
    · rw [List.mem_singleton.1 hc]
      exact ⟨rfl, hstatus⟩
  · -- the last callback was for the expiry before this one
    rw [List.map_append, List.isChain_append]
    refine ⟨hs.sound.apart, by simp, ?_⟩
    intro a ha b hb
    rw [List.getLast?_map, Option.mem_def, Option.map_eq_some_iff] at ha
    obtain ⟨c, hc, rfl⟩ := ha
    obtain rfl : w.expiry = b := by simpa using hb
    rw [hexpiry]
    exact hs.last t ht c hc
  · rintro t' ⟨⟩
    exact htimeout
  · rintro t' ⟨⟩
    exact Waits.Uncancelled.arm Waits.uncancelled_nil
  · rintro t' ⟨⟩ c hc
    obtain rfl : (w, true) = c := by simpa using hc
    rw [hexpiry, htimeout]

/-- A timer that keeps its expiry. -/
theorem Inv.keep (hs : s.Inv timeout) (ht : s.object = some t) {t' : Timer}
    (hexpiry : t'.expiry = t.expiry) (htimeout : t'.timeout = t.timeout)
    (hws : ws.Uncancelled t.expiry) (hone : ws.length ≤ 1) :
    Inv timeout { s with object := some t', waits := ws } := by
  refine ⟨⟨hone, hs.sound.callbacks, hs.sound.apart, hs.sound.late, ?_⟩, ?_, ?_, ?_⟩
  · rintro ⟨⟩
  · rintro _ ⟨⟩
    exact htimeout.trans (hs.timeout_eq t ht)
  · rintro _ ⟨⟩
    exact hexpiry ▸ hws
  · rintro _ ⟨⟩ c hc
    exact hexpiry.trans (hs.last t ht c hc)

theorem Inv.destroy (hs : s.Inv timeout) : Inv timeout { s with object := none, waits := [] } := by
  have hsound : Sound timeout { s with object := none, waits := [] } :=
    ⟨by simp, hs.sound.callbacks, hs.sound.apart, hs.sound.late, fun _ => rfl⟩
  refine ⟨hsound, ?_, ?_, ?_⟩ <;> rintro t ⟨⟩

/-- Nothing happens without a timer and without waits. -/
theorem step_of_gone (ho : s.object = none) (hws : s.waits = []) (e : Event) : s.step e = s := by
  obtain ⟨object, waits, callbacks, late⟩ := s
  obtain rfl : object = none := ho
  obtain rfl : waits = [] := hws
  cases e <;> rfl

theorem Inv.step (hs : s.Inv timeout) (h : s.Free e) : (s.step e).Inv timeout := by
  cases ho : s.object with
  | none => rwa [step_of_gone ho (hs.sound.gone ho)]
  | some t =>
    have hwaits := hs.waits t ho
    cases e with
    | start =>
      have hws : s.waits = [] := h
      simp only [TimerService.step, ho, Timer.start]
      exact hs.keep ho rfl rfl hwaits.arm (by simp [hws])
    | stop =>
      simp only [TimerService.step, ho, Option.map_some]
      exact hs.keep ho rfl rfl hwaits hs.sound.one
    | expire =>
      have := hs.keep ho rfl rfl hwaits.expire (by simpa using hs.sound.one)
      rwa [← ho] at this
    | complete n =>
      cases hf : s.waits.finish n with
      | none =>
        simp only [TimerService.step, hf]
        exact hs
      | some r =>
        obtain ⟨w, ws⟩ := r
        -- it was the only wait
        obtain ⟨-, -, hlen, -⟩ := Waits.finish_cases hf
        obtain rfl : ws = [] := List.eq_nil_of_length_eq_zero (by have := hs.sound.one; omega)
        simp only [TimerService.step, hf, ho, Timer.callback]
        cases hrun : t.flag_isRunning with
        | true => simpa [hrun] using hs.callback ho hf
        | false =>
          have hkeep : Inv timeout { s with object := some t, waits := [] } :=
            hs.keep ho rfl rfl Waits.uncancelled_nil (by simp)
          simpa [hrun] using hkeep
    | destroy =>
      have hws : s.waits = [] := h
      simp only [TimerService.step, ho, Option.isSome_some, if_true, hws]
      exact hs.destroy

/-- A second wait, or one that outlives its timer, was outstanding before. -/
theorem Inv.free (hs : s.Inv timeout) (hq : (s.step e).Sound timeout) : s.Free e := by
  cases ho : s.object with
  | none =>
    have hws := hs.sound.gone ho
    cases e with
    | start => exact hws
    | destroy => exact hws
    | stop => trivial
    | expire => trivial
    | complete n => trivial
  | some t =>
    cases e with
    | start =>
      have hone := hq.one
      simp only [TimerService.step, ho, Timer.start, Waits.length_arm] at hone
      exact List.eq_nil_of_length_eq_zero (by omega)
    | destroy =>
      have hgone := hq.gone
      simp only [TimerService.step, ho, Option.isSome_some, if_true, forall_const] at hgone
      exact List.map_eq_nil_iff.1 hgone
    | stop => trivial
    | expire => trivial
    | complete n => trivial

/-! ### Release pools -/

/-- What happens to a `ReleasePool`, which is started when it is made and stopped when it is
destroyed. In between there are expiries and, for some `n`, handlers. -/
def releasePool (turns : List (Option ℕ)) : List Event :=
  .start :: (turns.map fun turn => turn.elim .expire .complete) ++ [.stop, .destroy]

/-- The timer runs, and waits once. -/
def Armed (s : TimerService) : Prop :=
  (∃ t, s.object = some t ∧ t.flag_isRunning = true) ∧ s.waits.length = 1

theorem Armed.turn (hs : s.Armed) (turn : Option ℕ) :
    (s.step (turn.elim .expire .complete)).Armed := by
  obtain ⟨⟨t, ho, hrun⟩, hone⟩ := hs
  cases turn with
  | none => exact ⟨⟨t, ho, hrun⟩, by simpa [TimerService.step] using hone⟩
  | some n =>
    cases hf : s.waits.finish n with
    | none =>
      simp only [Option.elim_some, TimerService.step, hf]
      exact ⟨⟨t, ho, hrun⟩, hone⟩
    | some r =>
      obtain ⟨w, ws⟩ := r
      -- the handler waits again
      obtain ⟨-, -, hlen, -⟩ := Waits.finish_cases hf
      simp only [Option.elim_some, TimerService.step, hf, ho, Timer.callback, hrun, if_true]
      refine ⟨⟨_, rfl, rfl⟩, ?_⟩
      rw [Waits.length_arm, Waits.length_cancel, hlen, hone]

theorem Armed.turns (hs : s.Armed) (turns : List (Option ℕ)) :
    (Run.exec step s (turns.map fun turn => turn.elim .expire .complete)).Armed := by
  induction turns generalizing s with
  | nil => exact hs
  | cons turn turns ih => exact ih (hs.turn turn)

/-- The wait that the destruction cancels is still outstanding, and its handler runs late. -/
theorem Armed.late (hs : s.Armed) :
    (Run.exec step s [.stop, .destroy, .complete 0]).late ≠ [] := by
  obtain ⟨⟨t, ho, -⟩, hone⟩ := hs
  obtain ⟨w, hw⟩ := List.length_eq_one_iff.1 hone
  obtain ⟨v, hf⟩ := Waits.finish_cancel_singleton w
  simp [Run.exec, step, ho, hw, hf]

/-- As long as no wait is outstanding when it is started or destroyed, and no longer, a timer has
one chain of callbacks and leaves no handler behind. A `ReleasePool` is destroyed with a wait
outstanding, whose handler runs late. -/
theorem timer_sound_iff (expiry timeout : ℤ) :
    (∀ es : List Event, Run.Always step (Sound timeout) (init expiry timeout) es ↔
      Run.Along step Free (init expiry timeout) es) ∧
    ∀ turns : List (Option ℕ),
      (Run.exec step (init expiry timeout) (releasePool turns ++ [.complete 0])).late ≠ [] := by
  refine ⟨fun es => ?_, fun turns => ?_⟩
  · exact Run.always_iff_along step (R := fun _ => True) (Inv timeout) (fun _ hs => hs.sound)
      (fun _ _ _ hs h => hs.step h) (fun _ _ _ hs hq => hs.free hq) (inv_init expiry timeout)
      fun _ _ => trivial
  · have hstart : ((init expiry timeout).step .start).Armed := ⟨⟨_, rfl, rfl⟩, rfl⟩
    have hlate := (hstart.turns turns).late
    rw [← Run.exec_append] at hlate
    rw [releasePool, List.append_assoc, List.cons_append]
    exact hlate

/-- Two waits; a callback for a wait that was cancelled; a handler without a timer. -/
theorem not_timer_sound :
    ¬ Run.Always step (Sound 1) (init 0 1) [.start, .stop, .start] ∧
    ¬ Run.Always step (Sound 1) (init 0 1) [.start, .expire, .start, .complete 0, .complete 0] ∧
    ¬ Run.Always step (Sound 1) (init 0 1) [.start, .stop, .destroy, .complete 0] := by
  refine ⟨fun h => ?_, fun h => ?_, fun h => ?_⟩
  · exact absurd h.exec.one (by decide)
  · exact absurd (h.exec.callbacks (⟨0, .cancelled⟩, true) (by decide)) (by decide)
  · exact absurd h.exec.late (by decide)

end TimerService

end MessageTransport
