import MessageTransport.Lib.Run
import MessageTransport.Sharedmem.Connection

/-!
# The start of a subscriber

`SubscriberPlugin::subscribe` sets `is_running` and has the subclass start to receive.
`SharedmemSubscriber` does so in steps that can fail, and only while it has no segment. The receive
thread ends when it finds `is_running` cleared, some time after a `shutdown`; that test is an action
of its own here.

`running_honest_iff`: a subscriber that says it is running is receiving, over all calls, if and only
if every `subscribe` that is not refused either meets a subscriber without a segment and succeeds,
or finds the thread of an earlier subscription of the same topic still there.
-/

namespace MessageTransport

/-- The receive thread. -/
inductive Thread
  /-- It is in its loop. -/
  | looping
  | ended
  deriving DecidableEq

/-- `SharedmemSubscriber`, with the members of `SubscriberPlugin`. -/
structure SharedmemSubscriber where
  connection : Connection
  shm_handle_ : ShmHandle
  /-- The topic that `shm_handle_` was looked up for. -/
  handle_topic : Name
  is_running : Bool
  base_topic_ : Name
  rec_thread_ : Option Thread

namespace SharedmemSubscriber

/-- `SharedmemSubscriber(config)`. -/
def init : SharedmemSubscriber := ⟨.init, .null, [], false, [], none⟩

/-- What a call of `subscribe` meets. -/
structure Environment where
  start : Start
  /-- The handle from `findHandle`, valid if the topic is there. -/
  findHandle : ShmHandle

/-- All steps of `startReceiving` would succeed. -/
def Environment.Good (env : Environment) : Prop :=
  env.start.Good ∧ env.findHandle.is_valid = true

/-- The calls on a subscriber, and the test in the loop of its thread. -/
inductive Action
  | subscribe (base_topic : Name) (env : Environment)
  | shutdown
  | loopTest

variable (s : SharedmemSubscriber)

/-- `startReceiving(user_cb)`. -/
def startReceiving (env : Environment) : Except Exn Unit × SharedmemSubscriber :=
  if s.connection.segment_.isNone then
    match s.connection.connect env.start with
    | (.error e, c) => (.error e, { s with connection := c })
    | (.ok false, c) => (.ok (), { s with connection := c })
    | (.ok true, c) =>
      if !c.isOpen then (.error .undefined, { s with connection := c })
      else
        let s := { s with connection := c
                          shm_handle_ := env.findHandle
                          handle_topic := s.base_topic_ }
        if s.shm_handle_.is_valid then (.ok (), { s with rec_thread_ := some .looping })
        else (.ok (), { s with connection := s.connection.close })
  else (.ok (), s)

/-- `subscribeImpl(base_topic, queue_size, callback)`. -/
def subscribeImpl (base_topic : Name) (env : Environment) :
    Except Exn Unit × SharedmemSubscriber :=
  if !s.is_running then
    { s with base_topic_ := base_topic, is_running := true }.startReceiving env
  else (.error (.runtime_error "Subscriber is already running."), s)

/-- `shutdown()`. -/
def shutdown : SharedmemSubscriber := { s with is_running := false }

/-- `getTopic()`. -/
def getTopic : Name := s.base_topic_

/-- `getNumPublishers()`: nobody counts them. -/
def getNumPublishers (_ : SharedmemSubscriber) : ℕ := 1

/-- `while (is_running)` in `receiveThread`. -/
def loopTest : SharedmemSubscriber :=
  if s.rec_thread_ = some .looping ∧ !s.is_running then { s with rec_thread_ := some .ended } else s

/-- The subscriber after an action; a `subscribe` may have been left by an exception. -/
def step : Action → SharedmemSubscriber
  | .subscribe base_topic env => (s.subscribeImpl base_topic env).2
  | .shutdown => s.shutdown
  | .loopTest => s.loopTest

/-- A thread is in its loop, on an open segment and with a valid handle for `base_topic_`. -/
structure Receiving (s : SharedmemSubscriber) : Prop where
  thread : s.rec_thread_ = some .looping
  isOpen : s.connection.isOpen = true
  valid : s.shm_handle_.is_valid = true
  topic : s.handle_topic = s.base_topic_

/-- If the subscriber says it is running, it is receiving. -/
def Honest : Prop := s.is_running = true → s.Receiving

/-- If a `subscribe` could start on a subscriber that is not receiving, it does. -/
def Restarts : Action → Prop
  | .subscribe base_topic env => env.Good → ¬ (s.is_running = true ∧ s.Receiving) →
      let r := s.subscribeImpl base_topic env
      r.1 = .ok () ∧ r.2.is_running = true ∧ r.2.Receiving ∧ r.2.base_topic_ = base_topic
  | _ => True

/-- A `subscribe` is refused, or succeeds on a subscriber without a segment, or is for the topic
that the thread is still receiving. -/
def Starts : Action → Prop
  | .subscribe base_topic env => s.is_running = true ∨
      (s.connection.segment_ = none ∧ env.Good) ∨
      (s.rec_thread_ = some .looping ∧ s.handle_topic = base_topic)
  | _ => True

/-- The thread was made with the segment, which is never closed again. -/
structure Inv (s : SharedmemSubscriber) : Prop where
  thread : s.rec_thread_.isSome = s.connection.segment_.isSome
  isOpen : s.connection.segment_.isSome = true → s.connection.isOpen = true
  valid : s.connection.segment_.isSome = true → s.shm_handle_.is_valid = true

variable {s : SharedmemSubscriber} {env : Environment} {base_topic : Name}

/-- A subscriber that has a segment starts nothing. -/
theorem startReceiving_segment (h : s.connection.segment_.isSome = true) (env : Environment) :
    s.startReceiving env = (.ok (), s) := by
  have hn : s.connection.segment_.isNone = false := by
    rw [← Option.not_isSome, h]
    rfl
  simp [startReceiving, hn]

/-- Where all steps succeed, the thread is there afterwards. -/
theorem startReceiving_good (h : s.connection.segment_ = none) (hg : env.Good) :
    ∃ q, s.startReceiving env = (.ok (), q) ∧ q.Receiving ∧ q.is_running = s.is_running ∧
      q.base_topic_ = s.base_topic_ ∧ q.connection.segment_.isSome = true := by
  obtain ⟨hstart, hv⟩ := hg
  obtain ⟨c, hc, hopen, hseg⟩ := s.connection.connect_good hstart
  refine ⟨⟨c, env.findHandle, s.base_topic_, s.is_running, s.base_topic_, some .looping⟩, ?_,
    ⟨rfl, hopen, hv, rfl⟩, rfl, rfl, Option.isSome_iff_ne_none.2 hseg⟩
  simp [startReceiving, h, hc, hopen, hv]

/-- Where a step fails, there is no segment and no new thread afterwards. -/
theorem startReceiving_bad (h : s.connection.segment_ = none) (hg : ¬ env.Good) :
    ∃ r q, s.startReceiving env = (r, q) ∧ q.connection.segment_ = none ∧
      q.rec_thread_ = s.rec_thread_ ∧ q.is_running = s.is_running ∧
      (r = .ok () ∨ r = .error .interprocess_exception) := by
  by_cases hstart : env.start.Good
  · obtain ⟨c, hc, hopen, -⟩ := s.connection.connect_good hstart
    have hv : env.findHandle.is_valid = false := by
      cases hv : env.findHandle.is_valid with
      | false => rfl
      | true => exact absurd ⟨hstart, hv⟩ hg
    refine ⟨.ok (), ⟨c.close, env.findHandle, s.base_topic_, s.is_running, s.base_topic_,
      s.rec_thread_⟩, ?_, rfl, rfl, rfl, .inl rfl⟩
    simp [startReceiving, h, hc, hopen, hv]
  · obtain ⟨r, c, hc, hr, hseg⟩ := s.connection.connect_bad hstart h
    rcases hr with rfl | rfl
    · refine ⟨.ok (), { s with connection := c }, ?_, hseg, rfl, rfl, .inl rfl⟩
      simp [startReceiving, h, hc]
    · refine ⟨.error .interprocess_exception, { s with connection := c }, ?_, hseg, rfl, rfl,
        .inr rfl⟩
      simp [startReceiving, h, hc]

/-- The start leaves `is_running` alone, and throws only if there is no segment to open. -/
theorem startReceiving_cases (s : SharedmemSubscriber) (env : Environment) :
    ((s.startReceiving env).1 = .ok () ∨
      (s.startReceiving env).1 = .error .interprocess_exception) ∧
    (s.startReceiving env).2.is_running = s.is_running := by
  cases hseg : s.connection.segment_ with
  | some a =>
    rw [startReceiving_segment (by simp [hseg])]
    exact ⟨.inl rfl, rfl⟩
  | none =>
    by_cases hg : env.Good
    · obtain ⟨q, heq, -, hrun, -⟩ := startReceiving_good hseg hg
      rw [heq]
      exact ⟨.inl rfl, hrun⟩
    · obtain ⟨r, q, heq, -, -, hrun, hr⟩ := startReceiving_bad hseg hg
      rw [heq]
      exact ⟨hr, hrun⟩

/-- A call that is not refused starts to receive, whatever comes of it. -/
theorem subscribeImpl_idle (h : s.is_running = false) (base_topic : Name) (env : Environment) :
    s.subscribeImpl base_topic env
      = { s with base_topic_ := base_topic, is_running := true }.startReceiving env := by
  simp [subscribeImpl, h]

theorem subscribeImpl_running (h : s.is_running = true) (base_topic : Name) (env : Environment) :
    s.subscribeImpl base_topic env
      = (.error (.runtime_error "Subscriber is already running."), s) := by
  simp [subscribeImpl, h]

theorem Inv.segment_none (hs : s.Inv) (h : s.connection.segment_ = none) :
    s.rec_thread_ = none := by
  have ht := hs.thread
  rw [h] at ht
  exact Option.not_isSome_iff_eq_none.1 (by simp [ht])

theorem Inv.segment_some (hs : s.Inv) {th : Thread} (h : s.rec_thread_ = some th) :
    s.connection.segment_.isSome = true := by
  rw [← hs.thread, h]
  rfl

theorem inv_startReceiving (hs : s.Inv) (env : Environment) : (s.startReceiving env).2.Inv := by
  cases hseg : s.connection.segment_ with
  | some a =>
    rw [startReceiving_segment (by simp [hseg])]
    exact hs
  | none =>
    by_cases hg : env.Good
    · obtain ⟨q, heq, hq, -, -, hsome⟩ := startReceiving_good hseg hg
      rw [heq]
      exact ⟨by rw [hq.thread, hsome]; rfl, fun _ => hq.isOpen, fun _ => hq.valid⟩
    · obtain ⟨r, q, heq, hnone, hthread, -⟩ := startReceiving_bad hseg hg
      rw [heq]
      refine ⟨by rw [hthread, hs.segment_none hseg, hnone]; rfl, ?_, ?_⟩ <;>
        exact fun h => by simp [hnone] at h

/-- The invariant holds whatever the calls meet. -/
theorem inv_step (hs : s.Inv) (a : Action) : (s.step a).Inv := by
  cases a with
  | subscribe base_topic env =>
    cases hr : s.is_running with
    | true => rwa [step, subscribeImpl_running hr]
    | false =>
      rw [step, subscribeImpl_idle hr]
      exact inv_startReceiving (s := { s with base_topic_ := base_topic, is_running := true })
        ⟨hs.thread, hs.isOpen, hs.valid⟩ env
  | shutdown => exact ⟨hs.thread, hs.isOpen, hs.valid⟩
  | loopTest =>
    rw [step, loopTest]
    split_ifs with h
    · refine ⟨?_, hs.isOpen, hs.valid⟩
      rw [hs.segment_some h.1]
      rfl
    · exact hs

/-- What a `subscribe` that starts leaves. -/
theorem subscribe_starts (hs : s.Inv) (hr : s.is_running = false)
    (h : s.Starts (.subscribe base_topic env)) :
    ∃ q, s.subscribeImpl base_topic env = (.ok (), q) ∧ q.Receiving ∧ q.is_running = true ∧
      q.base_topic_ = base_topic := by
  rw [subscribeImpl_idle hr]
  rcases h with h | ⟨hseg, hg⟩ | ⟨hthread, htopic⟩
  · rw [hr] at h
    cases h
  · obtain ⟨q, heq, hq, hrun, hbase, -⟩ := startReceiving_good
      (s := { s with base_topic_ := base_topic, is_running := true }) hseg hg
    exact ⟨q, heq, hq, hrun, hbase⟩
  · have hsome := hs.segment_some hthread
    exact ⟨{ s with base_topic_ := base_topic, is_running := true },
      startReceiving_segment
        (s := { s with base_topic_ := base_topic, is_running := true }) hsome env,
      ⟨hthread, hs.isOpen hsome, hs.valid hsome, htopic⟩, rfl, rfl⟩

theorem honest_step (hs : s.Inv) (hh : s.Honest) (a : Action) (h : s.Starts a) :
    (s.step a).Honest := by
  cases a with
  | subscribe base_topic env =>
    cases hr : s.is_running with
    | true => rwa [step, subscribeImpl_running hr]
    | false =>
      obtain ⟨q, heq, hq, -, -⟩ := subscribe_starts hs hr h
      rw [step, heq]
      exact fun _ => hq
  | shutdown => exact nofun
  | loopTest =>
    rw [step, loopTest]
    split_ifs with ht
    · intro hr
      have hidle : (!s.is_running) = true := ht.2
      rw [show s.is_running = true from hr] at hidle
      cases hidle
    · exact hh

/-- A `subscribe` after which the subscriber is honest is one that starts. -/
theorem starts_of_honest (hs : s.Inv) (a : Action) (h : (s.step a).Honest) : s.Starts a := by
  cases a with
  | shutdown => trivial
  | loopTest => trivial
  | subscribe base_topic env =>
    cases hr : s.is_running with
    | true => exact .inl hr
    | false =>
      rw [step, subscribeImpl_idle hr] at h
      cases hseg : s.connection.segment_ with
      | none =>
        by_cases hg : env.Good
        · exact .inr (.inl ⟨hseg, hg⟩)
        · obtain ⟨r, q, heq, -, hthread, hrun, -⟩ := startReceiving_bad
            (s := { s with base_topic_ := base_topic, is_running := true }) hseg hg
          rw [heq] at h
          have ht := (h hrun).thread
          rw [hthread, show _ = none from hs.segment_none hseg] at ht
          cases ht
      | some a =>
        rw [startReceiving_segment (by simp [hseg])] at h
        have hq := h rfl
        exact .inr (.inr ⟨hq.thread, hq.topic⟩)

theorem restarts_of_starts (hs : s.Inv) (hh : s.Honest) (a : Action) (h : s.Starts a) :
    s.Restarts a := by
  cases a with
  | shutdown => trivial
  | loopTest => trivial
  | subscribe base_topic env =>
    intro _ hidle
    cases hr : s.is_running with
    | true => exact absurd ⟨hr, hh hr⟩ hidle
    | false =>
      obtain ⟨q, heq, hq, hrun, hbase⟩ := subscribe_starts hs hr h
      simp only [heq]
      exact ⟨trivial, hrun, hq, hbase⟩

theorem inv_init : init.Inv := ⟨rfl, nofun, nofun⟩

/-- **A subscriber that says it is running is receiving,** and one that is not receiving can be
started, if and only if every `subscribe` of the run starts or is refused. -/
theorem running_honest_iff (as : List Action) :
    (Run.Always step Honest init as ∧ Run.Along step Restarts init as) ↔
      Run.Along step Starts init as := by
  have hinit : init.Inv ∧ init.Honest := ⟨inv_init, nofun⟩
  have hstep : ∀ (s : SharedmemSubscriber) a, True → (s.Inv ∧ s.Honest) → s.Starts a →
      (s.step a).Inv ∧ (s.step a).Honest :=
    fun s a _ hs h => ⟨inv_step hs.1 a, honest_step hs.1 hs.2 a h⟩
  have hiff := Run.always_iff_along step (fun s => s.Inv ∧ s.Honest) (fun _ hs => hs.2) hstep
    (fun s a _ hs h => starts_of_honest hs.1 a h) hinit fun _ (_ : _ ∈ as) => trivial
  rw [hiff]
  refine and_iff_left_of_imp fun h => ?_
  exact Run.along_of_along step (fun s => s.Inv ∧ s.Honest) hstep
    (fun s a _ hs h => restarts_of_starts hs.1 hs.2 a h) hinit (fun _ _ => trivial) h

/-- The consumer is started before the producer: there is no segment yet. -/
def tooEarly : Environment := ⟨⟨.interprocess_exception, false⟩, .null⟩

/-- The topic is there. -/
def available : Environment := ⟨⟨.opened, true⟩, .of 0 1 (some 8)⟩

/-- After a start that failed, the subscriber says it is running and cannot be started again. -/
theorem not_honest_tooEarly :
    ¬ Run.Always step Honest init [.subscribe [97] tooEarly] ∧
      ¬ Run.Along step Restarts init [.subscribe [97] tooEarly, .subscribe [97] available] := by
  refine ⟨fun h => ?_, fun h => ?_⟩
  · cases (h.2 rfl).thread
  · have hok := (h.2.1 ⟨⟨rfl, rfl⟩, rfl⟩ fun hr => by cases hr.2.thread).1
    cases hok

end SharedmemSubscriber

end MessageTransport
