import MessageTransport.Lib.Run
import MessageTransport.Sharedmem.Connection

/-!
# The start of a publisher

`SharedmemPublisher` connects to the shared segment in its first `publish`. Two flags keep it from
doing so again: `first_run_` is cleared when `initialise` returns, whatever it returns, and
`clientRegistered` is set before anything can fail. How the steps of `initialise` end is up to the
environment, anew for every call.

`publish_recovers_iff`: a publisher writes every message for which it could have connected if and
only if it could connect at its first call, or never. What it holds of the segment it uses only
while the segment is open.
-/

namespace MessageTransport

/-- `SharedmemPublisher`, with the `SharedmemPublisherImpl` in it. -/
structure SharedmemPublisher where
  connection : Connection
  clientRegistered : Bool
  shm_handle_ : ShmHandle
  first_run_ : Bool

namespace SharedmemPublisher

/-- `SharedmemPublisher(config, base_topic)`. -/
def init : SharedmemPublisher := ⟨.init, false, .null, true⟩

/-- What a call of `publish` meets. -/
structure Environment where
  start : Start
  /-- The handle from `allocateBlock`, valid or not; none if it throws `bad_alloc`. -/
  allocateBlock : Option ShmHandle
  /-- The handle after `reallocateBlock`. -/
  reallocateBlock : ShmHandle → ShmHandle
  /-- `reallocateBlock` does not fail. -/
  reallocate_valid : ∀ h, h.is_valid = true → (reallocateBlock h).is_valid = true

/-- All steps of `initialise` would succeed. -/
def Environment.Good (env : Environment) : Prop :=
  env.start.Good ∧ ∃ h, env.allocateBlock = some h ∧ h.is_valid = true

/-- What becomes of a message. -/
inductive Sent
  /-- "Ignoring publish request on an invalid handle". -/
  | ignored
  /-- The message was serialized into the block of the handle. -/
  | written (h : ShmHandle)

variable (p : SharedmemPublisher) (env : Environment)

/-- `initialise(topic)`: the handle's number, or -1. -/
def initialise : Except Exn ℕ × SharedmemPublisher :=
  if !p.clientRegistered then
    let p := { p with clientRegistered := true }
    match p.connection.connect env.start with
    | (.error e, c) => (.error e, { p with connection := c })
    | (.ok false, c) => (.ok ShmHandle.null.handle, { p with connection := c })
    | (.ok true, c) =>
      if !c.isOpen then (.error .undefined, { p with connection := c })
      else match env.allocateBlock with
        | some h => (.ok h.handle, { p with connection := c, shm_handle_ := h })
        | none => (.ok ShmHandle.null.handle, { p with connection := c.close })
  else (.ok p.shm_handle_.handle, p)

/-- `publish_msg(message)`. -/
def publish_msg : Except Exn Sent × SharedmemPublisher :=
  if !p.shm_handle_.is_valid then (.ok .ignored, p)
  else if !p.connection.isOpen then (.error .undefined, p)
  else
    let p := { p with shm_handle_ := env.reallocateBlock p.shm_handle_ }
    if p.shm_handle_.is_valid then (.ok (.written p.shm_handle_), p) else (.ok .ignored, p)

/-- `publish(message)`. -/
def publish : Except Exn Sent × SharedmemPublisher :=
  if p.first_run_ then
    match p.initialise env with
    | (.error e, p) => (.error e, p)
    | (.ok _, p) => { p with first_run_ := false }.publish_msg env
  else p.publish_msg env

/-- The publisher after a call, which may have been left by an exception. -/
def step : SharedmemPublisher := (p.publish env).2

/-- The call does not follow a pointer to a segment that is not open; and if it could have
connected, it writes its message. -/
def Recovers : Prop :=
  (p.publish env).1 ≠ .error .undefined ∧ (env.Good → ∃ h, (p.publish env).1 = .ok (.written h))

/-! ### The two kinds of publishers after a call -/

/-- The publisher has a handle, and the segment is open. -/
structure Connected (p : SharedmemPublisher) : Prop where
  registered : p.clientRegistered = true
  valid : p.shm_handle_.is_valid = true
  isOpen : p.connection.isOpen = true

/-- The publisher has tried to connect and has no handle. -/
structure Silent (p : SharedmemPublisher) : Prop where
  registered : p.clientRegistered = true
  invalid : p.shm_handle_.is_valid = false

variable {p : SharedmemPublisher} {env : Environment}

theorem Connected.publish_msg (hp : p.Connected) (env : Environment) :
    ∃ h p', p.publish_msg env = (.ok (.written h), p') ∧ p'.Connected := by
  have hv := env.reallocate_valid _ hp.valid
  refine ⟨env.reallocateBlock p.shm_handle_,
    { p with shm_handle_ := env.reallocateBlock p.shm_handle_ }, ?_, hp.registered, hv, hp.isOpen⟩
  simp [SharedmemPublisher.publish_msg, hp.valid, hp.isOpen, hv]

theorem Silent.publish_msg (hp : p.Silent) (env : Environment) :
    p.publish_msg env = (.ok .ignored, p) := by
  simp [SharedmemPublisher.publish_msg, hp.invalid]

/-- `initialise` does nothing the second time. -/
theorem initialise_registered (h : p.clientRegistered = true) (env : Environment) :
    p.initialise env = (.ok p.shm_handle_.handle, p) := by
  simp [initialise, h]

/-- An exception out of `initialise` leaves `publish`. -/
theorem publish_error {q : SharedmemPublisher} {e : Exn} (hf : p.first_run_ = true)
    (h : p.initialise env = (.error e, q)) : p.publish env = (.error e, q) := by
  simp only [publish, hf, if_true, h]

/-- When `initialise` returns, the message is published. -/
theorem publish_ok {q : SharedmemPublisher} {n : ℕ} (hf : p.first_run_ = true)
    (h : p.initialise env = (.ok n, q)) :
    p.publish env = { q with first_run_ := false }.publish_msg env := by
  simp only [publish, hf, if_true, h]

/-- After the first `initialise`, `publish` is `publish_msg`. -/
theorem publish_registered (h : p.clientRegistered = true) (env : Environment) :
    p.publish env = { p with first_run_ := false }.publish_msg env := by
  cases hf : p.first_run_ with
  | true => exact publish_ok hf (initialise_registered h env)
  | false =>
    have hp : { p with first_run_ := false } = p := by rw [← hf]
    rw [hp]
    simp [publish, hf]

/-- A connected publisher writes. -/
theorem Connected.publish (hp : p.Connected) (env : Environment) :
    (∃ h, (p.publish env).1 = .ok (.written h)) ∧ (p.step env).Connected := by
  have hp' : { p with first_run_ := false }.Connected := ⟨hp.registered, hp.valid, hp.isOpen⟩
  obtain ⟨h, q, heq, hq⟩ := hp'.publish_msg env
  rw [step, publish_registered hp.registered, heq]
  exact ⟨⟨h, rfl⟩, hq⟩

/-- A silent publisher stays silent, whatever the environment. -/
theorem Silent.publish (hp : p.Silent) (env : Environment) :
    (p.publish env).1 = .ok .ignored ∧ (p.step env).Silent := by
  have hp' : { p with first_run_ := false }.Silent := ⟨hp.registered, hp.invalid⟩
  rw [step, publish_registered hp.registered, hp'.publish_msg env]
  exact ⟨rfl, hp'⟩

/-- The first `initialise` obtains a handle if it can. -/
theorem initialise_good (h : env.Good) :
    ∃ n q, init.initialise env = (.ok n, q) ∧ q.Connected := by
  obtain ⟨hstart, h, halloc, hv⟩ := h
  obtain ⟨c, hc, hopen, -⟩ := Connection.connect_good init.connection hstart
  refine ⟨h.handle, ⟨c, true, h, true⟩, ?_, rfl, hv, hopen⟩
  simp only [initialise, init] at hc ⊢
  simp [hc, hopen, halloc]

/-- Otherwise it leaves no handle, whichever step fails. -/
theorem initialise_bad (h : ¬ env.Good) :
    ∃ r q, init.initialise env = (r, q) ∧ r ≠ .error .undefined ∧ q.Silent := by
  by_cases hstart : env.start.Good
  · obtain ⟨c, hc, hopen, -⟩ := Connection.connect_good init.connection hstart
    simp only [init] at hc
    cases halloc : env.allocateBlock with
    | none =>
      refine ⟨.ok ShmHandle.null.handle, ⟨c.close, true, .null, true⟩, ?_, nofun, rfl, rfl⟩
      simp [initialise, init, hc, hopen, halloc]
    | some k =>
      have hk : k.is_valid = false := by
        cases hv : k.is_valid with
        | false => rfl
        | true => exact absurd ⟨hstart, k, halloc, hv⟩ h
      refine ⟨.ok k.handle, ⟨c, true, k, true⟩, ?_, nofun, rfl, hk⟩
      simp [initialise, init, hc, hopen, halloc]
  · obtain ⟨r, c, hc, hr, -⟩ := Connection.connect_bad init.connection hstart rfl
    simp only [init] at hc
    rcases hr with rfl | rfl
    · refine ⟨.ok ShmHandle.null.handle, ⟨c, true, .null, true⟩, ?_, nofun, rfl, rfl⟩
      simp [initialise, init, hc]
    · refine ⟨.error .interprocess_exception, ⟨c, true, .null, true⟩, ?_, nofun, rfl, rfl⟩
      simp [initialise, init, hc]

/-- The first call connects if it can. -/
theorem publish_first_good (h : env.Good) :
    (∃ h, (init.publish env).1 = .ok (.written h)) ∧ (init.step env).Connected := by
  obtain ⟨n, q, hinit, hq⟩ := initialise_good h
  have hq' : { q with first_run_ := false }.Connected := ⟨hq.registered, hq.valid, hq.isOpen⟩
  obtain ⟨h', p', heq, hp'⟩ := hq'.publish_msg env
  rw [step, publish_ok rfl hinit, heq]
  exact ⟨⟨h', rfl⟩, hp'⟩

/-- Otherwise the publisher is silent from then on. -/
theorem publish_first_bad (h : ¬ env.Good) :
    (init.publish env).1 ≠ .error .undefined ∧ (init.step env).Silent := by
  obtain ⟨r, q, hinit, hr, hq⟩ := initialise_bad h
  cases r with
  | error e =>
    rw [step, publish_error rfl hinit]
    exact ⟨fun he => hr (by cases he; rfl), hq⟩
  | ok n =>
    have hq' : { q with first_run_ := false }.Silent := ⟨hq.registered, hq.invalid⟩
    rw [step, publish_ok rfl hinit, hq'.publish_msg env]
    exact ⟨nofun, hq'⟩

/-! ### Runs -/

theorem Connected.recovers (hp : p.Connected) (envs : List Environment) :
    Run.Along step Recovers p envs := by
  refine Run.along_of_inv step Connected (fun p env hp => ?_) hp
  obtain ⟨⟨h, hw⟩, hc⟩ := hp.publish env
  exact ⟨⟨hw ▸ nofun, fun _ => ⟨h, hw⟩⟩, hc⟩

theorem Silent.recovers_iff (hp : p.Silent) (envs : List Environment) :
    Run.Along step Recovers p envs ↔ ∀ env ∈ envs, ¬ env.Good := by
  induction envs generalizing p with
  | nil => simp [Run.Along]
  | cons env envs ih =>
    obtain ⟨hi, hs⟩ := hp.publish env
    have hfirst : p.Recovers env ↔ ¬ env.Good := by
      rw [Recovers, hi]
      refine ⟨fun h hg => ?_, fun hg => ⟨by simp, fun h => absurd h hg⟩⟩
      obtain ⟨h', hw⟩ := h.2 hg
      cases hw
    rw [List.forall_mem_cons, ← hfirst, ← ih hs]
    rfl

/-- **A publisher recovers only from failures it has not had.** Over all calls of `publish`,
whatever they meet: it follows no pointer to a closed segment and writes every message for which it
could have connected if and only if it could connect at the first call, or at none. -/
theorem publish_recovers_iff (envs : List Environment) :
    Run.Along step Recovers init envs ↔
      (∀ env, envs.head? = some env → env.Good) ∨ ∀ env ∈ envs, ¬ env.Good := by
  cases envs with
  | nil => simp [Run.Along]
  | cons env envs =>
    by_cases hg : env.Good
    · obtain ⟨⟨h, hw⟩, hc⟩ := publish_first_good hg
      refine iff_of_true ⟨⟨by simp [hw], fun _ => ⟨h, hw⟩⟩, hc.recovers envs⟩ (.inl ?_)
      rintro env' ⟨⟩
      exact hg
    · obtain ⟨hsafe, hs⟩ := publish_first_bad hg
      have hrest := hs.recovers_iff envs
      constructor
      · intro h
        exact .inr (List.forall_mem_cons.2 ⟨hg, hrest.1 h.2⟩)
      · rintro (h | h)
        · exact absurd (h env rfl) hg
        · exact ⟨⟨hsafe, fun h' => absurd h' hg⟩, hrest.2 (List.forall_mem_cons.1 h).2⟩

/-- There is no segment yet. -/
def noSegment : Environment := ⟨⟨.interprocess_exception, false⟩, none, id, fun _ h => h⟩

/-- A segment with its manager and a block for the topic. -/
def ready : Environment := ⟨⟨.opened, true⟩, some (.of 0 1 (some 8)), id, fun _ h => h⟩

/-- The segment is created after the first message: later messages are dropped. -/
theorem not_recovers_lateSegment : ¬ Run.Along step Recovers init [noSegment, ready] := by
  intro h
  obtain ⟨h', hw⟩ := h.2.1.2 ⟨⟨rfl, rfl⟩, _, rfl, rfl⟩
  cases hw

/-- Whether or not messages get lost, a handle never leads to a closed segment. -/
theorem publish_safe (envs : List Environment) :
    Run.Along step (fun p env => (p.publish env).1 ≠ .error .undefined) init envs := by
  refine Run.along_of_inv step (fun p => p = init ∨ p.Connected ∨ p.Silent) ?_ (.inl rfl)
  rintro p env (rfl | hp | hp)
  · by_cases hg : env.Good
    · obtain ⟨⟨h, hw⟩, hc⟩ := publish_first_good hg
      exact ⟨hw ▸ nofun, .inr (.inl hc)⟩
    · obtain ⟨hsafe, hs⟩ := publish_first_bad hg
      exact ⟨hsafe, .inr (.inr hs)⟩
  · obtain ⟨⟨h, hw⟩, hc⟩ := hp.publish env
    exact ⟨hw ▸ nofun, .inr (.inl hc)⟩
  · obtain ⟨hi, hs⟩ := hp.publish env
    exact ⟨hi ▸ nofun, .inr (.inr hs)⟩

end SharedmemPublisher

end MessageTransport
