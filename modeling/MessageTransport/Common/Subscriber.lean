import MessageTransport.Lib.SharedPtr
import MessageTransport.Sharedmem.Subscriber

/-!
# Subscribers

`Subscriber` is a handle on a `SubscriberImpl`, which owns the plugin of the chosen transport. The
copies of a `Subscriber` share the implementation, and the destructor of the last one shuts it down.
`do_subscribe` installs the new implementation before it knows the transport, so a transport that
there is not leaves an implementation without a plugin.

`subscribers_sound_iff`: over all calls on any number of subscribers, no pointer to a plugin is
followed that is empty, a subscriber that converts to true holds a running plugin, and a
`do_subscribe` with an invalid transport changes nothing, if and only if every `do_subscribe` names
the transport that there is.
-/

namespace MessageTransport

/-- `SubscriberImpl`. -/
structure SubscriberImpl where
  unsubscribed_ : Bool
  /-- The plugin that the implementation owns. -/
  subscriber_ : Option SharedmemSubscriber

namespace SubscriberImpl

/-- `SubscriberImpl(config)`. -/
def init : SubscriberImpl := ⟨false, none⟩

variable (impl : SubscriberImpl)

/-- `isValid()`. -/
def isValid : Bool := !impl.unsubscribed_

/-- `*getSubscriber()`. -/
def getSubscriber : Except Exn SharedmemSubscriber :=
  match impl.subscriber_ with
  | some p => .ok p
  | none => .error .undefined

/-- `shutdownImpl()`. -/
def shutdownImpl : Except Exn Unit × SubscriberImpl :=
  if !impl.unsubscribed_ then
    match impl.getSubscriber with
    | .ok p => (.ok (), ⟨true, some p.shutdown⟩)
    | .error e => (.error e, { impl with unsubscribed_ := true })
  else (.ok (), impl)

/-- `SubscriberPluginGen::getLookupName(transport_type)`. -/
def getLookupName (transport_type : String) : String := transport_type ++ "_sub"

/-- `reset(transport_name)`. -/
def reset (transport_name : String) : Except Exn SubscriberImpl :=
  if getLookupName transport_name = "sharedmem_sub" then
    .ok { impl with subscriber_ := some .init }
  else .error (.runtime_error "Invalid transport")

/-- `getTemplateSubscriber()->subscribe(base_topic, queue_size, callback)`. -/
def subscribe (base_topic : Name) (env : SharedmemSubscriber.Environment) :
    Except Exn Unit × SubscriberImpl :=
  match impl.getSubscriber with
  | .ok p =>
    match p.subscribeImpl base_topic env with
    | (r, p) => (r, { impl with subscriber_ := some p })
  | .error e => (.error e, impl)

/-- `~SubscriberImpl()`, of the implementation that has lost its last owner. -/
def destructor : Option SubscriberImpl → Except Exn Unit
  | some impl => impl.shutdownImpl.1
  | none => .ok ()

/-- There is a plugin, and it is running unless it was unsubscribed. -/
def Usable : Prop :=
  ∃ p, impl.subscriber_ = some p ∧ (impl.unsubscribed_ = false → p.is_running = true)

variable {impl} {transport_name : String}

theorem getLookupName_eq_iff :
    getLookupName transport_name = "sharedmem_sub" ↔ transport_name = "sharedmem" := by
  rw [getLookupName, show "sharedmem_sub" = "sharedmem" ++ "_sub" from rfl]
  exact String.append_left_inj _

/-- Shutting down an implementation with a plugin. -/
theorem Usable.shutdownImpl (h : impl.Usable) :
    ∃ impl', impl.shutdownImpl = (.ok (), impl') ∧ impl'.Usable := by
  obtain ⟨unsubscribed_, subscriber_⟩ := impl
  obtain ⟨p, rfl, hp⟩ := h
  cases unsubscribed_ with
  | true => exact ⟨_, rfl, p, rfl, nofun⟩
  | false => exact ⟨_, rfl, p.shutdown, rfl, nofun⟩

theorem destructor_ok {o : Option SubscriberImpl} (h : ∀ impl, o = some impl → impl.Usable) :
    destructor o = .ok () := by
  cases o with
  | none => rfl
  | some impl =>
    obtain ⟨impl', heq, -⟩ := (h impl rfl).shutdownImpl
    rw [destructor, heq]

/-- The first `subscribe` of a new plugin. -/
theorem subscribe_init (base_topic : Name) (env : SharedmemSubscriber.Environment) :
    ∃ r impl', SubscriberImpl.subscribe ⟨false, some .init⟩ base_topic env = (r, impl') ∧
      (r = .ok () ∨ r = .error .interprocess_exception) ∧ impl'.Usable := by
  have hidle := SharedmemSubscriber.subscribeImpl_idle (s := .init) rfl base_topic env
  obtain ⟨hr, hrun⟩ := SharedmemSubscriber.startReceiving_cases
    { SharedmemSubscriber.init with base_topic_ := base_topic, is_running := true } env
  rw [← hidle] at hr hrun
  exact ⟨_, _, rfl, hr, _, rfl, fun _ => hrun⟩

end SubscriberImpl

/-- The subscribers of a process, and the implementations they own. All of them were made with a
configuration. -/
abbrev Subscribers (κ : Type*) := SharedHeap κ SubscriberImpl

namespace Subscribers

variable {κ : Type*}

/-- Subscribers that were never subscribed. -/
def init : Subscribers κ := .empty

/-- The calls on subscribers. A subscriber that was destroyed may be made again. -/
inductive Call (κ : Type*)
  | do_subscribe (k : κ) (base_topic : Name) (transport_name : String)
      (env : SharedmemSubscriber.Environment)
  | getTopic (k : κ)
  | getNumPublishers (k : κ)
  | shutdown (k : κ)
  /-- `operator void*()`. -/
  | toBool (k : κ)
  /-- `k = j`. -/
  | copy (k j : κ)
  | destroy (k : κ)

/-- What a call returns. -/
inductive Reply
  | void
  | topic (name : Name)
  | number (n : ℕ)
  | bool (b : Bool)

/-- Ask the plugin, if there is an implementation. -/
def ask {α : Type} (s : Subscribers κ) (k : κ) (query : SharedmemSubscriber → α) (other : α) :
    Except Exn α :=
  match s.get k with
  | some impl => impl.getSubscriber.map query
  | none => .ok other

/-- `getTopic()`. -/
def getTopic (s : Subscribers κ) (k : κ) : Except Exn Name := s.ask k SharedmemSubscriber.getTopic []

/-- `getNumPublishers()`. -/
def getNumPublishers (s : Subscribers κ) (k : κ) : Except Exn ℕ :=
  s.ask k SharedmemSubscriber.getNumPublishers 0

/-- `shutdown()`. -/
def shutdown (s : Subscribers κ) (k : κ) : Except Exn Unit × Subscribers κ :=
  match s.get k with
  | some impl =>
    match impl.shutdownImpl with
    | (r, impl) => (r, s.modify k impl)
  | none => (.ok (), s)

/-- `operator void*()`. -/
def toBool (s : Subscribers κ) (k : κ) : Bool :=
  match s.get k with
  | some impl => impl.isValid
  | none => false

variable [DecidableEq κ]

/-- `do_subscribe(base_topic, transport_name, queue_size, callback)`. -/
def do_subscribe (s : Subscribers κ) (k : κ) (base_topic : Name) (transport_name : String)
    (env : SharedmemSubscriber.Environment) : Except Exn Unit × Subscribers κ :=
  match s.make k .init with
  | (s, old) =>
    match SubscriberImpl.destructor old with
    | .error e => (.error e, s)
    | .ok () =>
      match SubscriberImpl.init.reset transport_name with
      | .error e => (.error e, s)
      | .ok impl =>
        match impl.subscribe base_topic env with
        | (r, impl) => (r, s.modify k impl)

/-- A call: what it returns or throws, and the subscribers after it. -/
def run (s : Subscribers κ) : Call κ → Except Exn Reply × Subscribers κ
  | .do_subscribe k base_topic transport_name env =>
    match s.do_subscribe k base_topic transport_name env with
    | (r, s) => (r.map fun _ => .number 0, s)
  | .getTopic k => ((s.getTopic k).map .topic, s)
  | .getNumPublishers k => ((s.getNumPublishers k).map .number, s)
  | .shutdown k =>
    match s.shutdown k with
    | (r, s) => (r.map fun _ => .void, s)
  | .toBool k => (.ok (.bool (s.toBool k)), s)
  | .copy k j =>
    match s.share k j with
    | (s, old) => ((SubscriberImpl.destructor old).map fun _ => .void, s)
  | .destroy k =>
    match s.drop k with
    | (s, old) => ((SubscriberImpl.destructor old).map fun _ => .void, s)

/-- The subscribers after a call, which may have been left by an exception. -/
def step (s : Subscribers κ) (c : Call κ) : Subscribers κ := (s.run c).2

/-- A subscriber that converts to true holds a plugin that has not been shut down. -/
def Sound (s : Subscribers κ) : Prop :=
  ∀ k, s.toBool k = true →
    ∃ impl p, s.get k = some impl ∧ impl.subscriber_ = some p ∧ p.is_running = true

/-- The call does not follow an empty pointer; and if it is a `do_subscribe` left by "Invalid
transport", the subscriber holds what it held before. -/
def Proper (s : Subscribers κ) (c : Call κ) : Prop :=
  (s.run c).1 ≠ .error .undefined ∧
    match c with
    | .do_subscribe k _ _ _ => (s.run c).1 = .error (.runtime_error "Invalid transport") →
        (s.step c).owner k = s.owner k ∧ (s.step c).get k = s.get k
    | _ => True

/-- A `do_subscribe` names the transport that there is. -/
def Call.Named : Call κ → Prop
  | .do_subscribe _ _ transport_name _ => transport_name = "sharedmem"
  | _ => True

/-- The owners are counted, and all implementations have a plugin. -/
structure Inv (s : Subscribers κ) : Prop where
  wf : s.WF
  usable : s.All SubscriberImpl.Usable

variable {s : Subscribers κ} {c : Call κ} {k j : κ}

omit [DecidableEq κ] in
theorem Inv.sound (hs : s.Inv) : s.Sound := by
  intro k hk
  rw [toBool] at hk
  cases hget : s.get k with
  | none =>
    rw [hget] at hk
    cases hk
  | some impl =>
    obtain ⟨p, hp, hrun⟩ := hs.usable.get hget
    rw [hget] at hk
    exact ⟨impl, p, rfl, hp, hrun (by simpa [SubscriberImpl.isValid] using hk)⟩

omit [DecidableEq κ] in
/-- What a subscriber holds has a plugin to ask. -/
theorem Inv.ask {α : Type} (hs : s.Inv) (k : κ) (query : SharedmemSubscriber → α) (other : α) :
    ∃ r, s.ask k query other = .ok r := by
  rw [Subscribers.ask]
  cases hget : s.get k with
  | none => exact ⟨other, rfl⟩
  | some impl =>
    obtain ⟨p, hp, -⟩ := hs.usable.get hget
    exact ⟨query p, by simp [SubscriberImpl.getSubscriber, hp, Except.map]⟩

omit [DecidableEq κ] in
theorem Inv.shutdown (hs : s.Inv) (k : κ) : ∃ s', s.shutdown k = (.ok (), s') ∧ s'.Inv := by
  rw [Subscribers.shutdown]
  cases hget : s.get k with
  | none => exact ⟨s, rfl, hs⟩
  | some impl =>
    obtain ⟨impl', heq, husable⟩ := (hs.usable.get hget).shutdownImpl
    refine ⟨s.modify k impl', by simp [heq], hs.wf.modify k impl', ?_⟩
    exact SharedHeap.All.modify (fun a o _ => hs.usable a o) husable

/-- The destructor that an assignment runs. -/
theorem Inv.destructor (hs : s.Inv) (k : κ) (p : Option ℕ) :
    SubscriberImpl.destructor (s.assign k p).2 = .ok () :=
  SubscriberImpl.destructor_ok fun _ h => hs.usable.released h

/-- A `do_subscribe` up to the choice of the transport. -/
theorem Inv.do_subscribe (hs : s.Inv) (k : κ) (base_topic : Name) (transport_name : String)
    (env : SharedmemSubscriber.Environment) :
    s.do_subscribe k base_topic transport_name env
      = match SubscriberImpl.init.reset transport_name with
        | .error e => (.error e, (s.make k .init).1)
        | .ok impl => ((impl.subscribe base_topic env).1,
            (s.make k .init).1.modify k (impl.subscribe base_topic env).2) := by
  have hold : SubscriberImpl.destructor (s.make k .init).2 = .ok () :=
    SubscriberImpl.destructor_ok fun _ h => hs.usable.released_make hs.wf h
  simp only [Subscribers.do_subscribe, hold]

/-- With the transport that there is, the new implementation gets a plugin. -/
theorem Inv.do_subscribe_named (hs : s.Inv) (k : κ) (base_topic : Name)
    (env : SharedmemSubscriber.Environment) :
    ∃ r s', s.do_subscribe k base_topic "sharedmem" env = (r, s') ∧
      (r = .ok () ∨ r = .error .interprocess_exception) ∧ s'.Inv := by
  obtain ⟨r, impl, heq, hr, husable⟩ := SubscriberImpl.subscribe_init base_topic env
  have hreset : SubscriberImpl.init.reset "sharedmem" = .ok ⟨false, some .init⟩ :=
    if_pos (SubscriberImpl.getLookupName_eq_iff.2 rfl)
  refine ⟨r, (s.make k .init).1.modify k impl, ?_, hr, (hs.wf.make k _).modify k _,
    hs.usable.make_modify husable k _⟩
  rw [hs.do_subscribe, hreset]
  simp only [heq]

/-- With another, the new implementation is left without one. -/
theorem Inv.do_subscribe_invalid (hs : s.Inv) (k : κ) (base_topic : Name) {transport_name : String}
    (ht : transport_name ≠ "sharedmem") (env : SharedmemSubscriber.Environment) :
    s.do_subscribe k base_topic transport_name env
      = (.error (.runtime_error "Invalid transport"), (s.make k .init).1) := by
  have hreset : SubscriberImpl.init.reset transport_name
      = .error (.runtime_error "Invalid transport") :=
    if_neg fun h => ht (SubscriberImpl.getLookupName_eq_iff.1 h)
  rw [hs.do_subscribe, hreset]

/-- **One call.** If a `do_subscribe` names the transport that there is, every call is proper and
keeps the invariant. -/
theorem Inv.run (hs : s.Inv) (c : Call κ) (h : c.Named) :
    (∃ r s', s.run c = (r, s') ∧ s'.Inv ∧
      ((∃ reply, r = .ok reply) ∨ r = .error .interprocess_exception)) := by
  cases c with
  | do_subscribe k base_topic transport_name env =>
    obtain rfl : transport_name = "sharedmem" := h
    obtain ⟨r, s', heq, hr, hs'⟩ := hs.do_subscribe_named k base_topic env
    refine ⟨_, s', by rw [Subscribers.run, heq], hs', ?_⟩
    rcases hr with rfl | rfl
    · exact .inl ⟨_, rfl⟩
    · exact .inr rfl
  | getTopic k =>
    obtain ⟨name, heq⟩ := hs.ask k SharedmemSubscriber.getTopic []
    exact ⟨.ok (.topic name), s, by simp only [Subscribers.run, getTopic, heq, Except.map], hs,
      .inl ⟨_, rfl⟩⟩
  | getNumPublishers k =>
    obtain ⟨n, heq⟩ := hs.ask k SharedmemSubscriber.getNumPublishers 0
    exact ⟨.ok (.number n), s, by simp only [Subscribers.run, getNumPublishers, heq, Except.map], hs,
      .inl ⟨_, rfl⟩⟩
  | shutdown k =>
    obtain ⟨s', heq, hs'⟩ := hs.shutdown k
    exact ⟨.ok .void, s', by simp only [Subscribers.run, heq, Except.map], hs', .inl ⟨_, rfl⟩⟩
  | toBool k => exact ⟨_, s, rfl, hs, .inl ⟨_, rfl⟩⟩
  | copy k j =>
    have hd : SubscriberImpl.destructor (s.share k j).2 = .ok () := hs.destructor k _
    exact ⟨.ok .void, (s.share k j).1, by simp only [Subscribers.run, hd, Except.map],
      ⟨hs.wf.share k j, hs.usable.share k j⟩, .inl ⟨_, rfl⟩⟩
  | destroy k =>
    have hd : SubscriberImpl.destructor (s.drop k).2 = .ok () := hs.destructor k _
    exact ⟨.ok .void, (s.drop k).1, by simp only [Subscribers.run, hd, Except.map],
      ⟨hs.wf.drop k, hs.usable.drop k⟩, .inl ⟨_, rfl⟩⟩

theorem Inv.step (hs : s.Inv) (h : c.Named) : (s.step c).Inv := by
  obtain ⟨r, s', heq, hs', -⟩ := hs.run c h
  rwa [Subscribers.step, heq]

theorem Inv.proper (hs : s.Inv) (h : c.Named) : s.Proper c := by
  have hthrown : ∀ e, (s.run c).1 = .error e → e = .interprocess_exception := by
    obtain ⟨r, s', heq, -, hr⟩ := hs.run c h
    intro e he
    rw [heq] at he
    rcases hr with ⟨reply, rfl⟩ | rfl
    · cases he
    · cases he
      rfl
  have hempty : (s.run c).1 ≠ .error .undefined := fun he => by cases hthrown _ he
  refine ⟨hempty, ?_⟩
  cases c with
  | do_subscribe => exact fun he => by cases hthrown _ he
  | _ => trivial

/-- After a `do_subscribe` with an invalid transport the subscriber converts to true, without a
plugin. -/
theorem Inv.named_of_sound (hs : s.Inv) (h : (s.step c).Sound) : c.Named := by
  cases c with
  | do_subscribe k base_topic transport_name env =>
    by_contra ht
    have hstep : s.step (.do_subscribe k base_topic transport_name env) = (s.make k .init).1 := by
      rw [Subscribers.step, Subscribers.run, hs.do_subscribe_invalid k base_topic ht env]
    have hget : (s.make k .init).1.get k = some SubscriberImpl.init := hs.wf.get_make k _
    rw [hstep] at h
    obtain ⟨impl, p, hk, hp, -⟩ := h k (by rw [toBool, hget]; rfl)
    rw [hget] at hk
    cases hk
    cases hp
  | _ => trivial

omit [DecidableEq κ] in
theorem inv_init : (init : Subscribers κ).Inv := ⟨SharedHeap.wf_empty, nofun⟩

/-- **No call on a subscriber follows an empty pointer, a subscriber that converts to true holds a
running plugin, and a `do_subscribe` with an invalid transport changes nothing,** if and only if
there is no `do_subscribe` with an invalid transport. -/
theorem subscribers_sound_iff (cs : List (Call κ)) :
    (Run.Always step Sound (init : Subscribers κ) cs ∧
        Run.Along step Proper (init : Subscribers κ) cs) ↔
      ∀ c ∈ cs, c.Named := by
  have hiff := Run.always_iff_along (P := fun _ c => c.Named) (R := fun _ => True)
    (step : Subscribers κ → Call κ → Subscribers κ) Inv (fun _ hs => hs.sound)
    (fun _ _ _ hs h => hs.step h) (fun _ _ _ hs h => hs.named_of_sound h) inv_init
    fun _ (_ : _ ∈ cs) => trivial
  rw [hiff, ← Run.along_iff_forall step]
  refine and_iff_left_of_imp fun h => ?_
  exact Run.along_of_along (R := fun _ => True) step Inv (fun _ _ _ hs h => hs.step h)
    (fun _ _ _ hs h => hs.proper h) inv_init (fun _ _ => trivial) h

/-- A subscriber left by "Invalid transport" has lost its subscription, converts to true, and does
not survive `getTopic`. -/
theorem not_sound_invalidTransport :
    ¬ Run.Along step Proper (init : Subscribers Unit)
        [.do_subscribe () [97] "sharedmem" SharedmemSubscriber.available,
          .do_subscribe () [97] "udp" SharedmemSubscriber.available] ∧
      ¬ Run.Always step Sound (init : Subscribers Unit)
        [.do_subscribe () [97] "udp" SharedmemSubscriber.available] ∧
      ¬ Run.Along step Proper (init : Subscribers Unit)
        [.do_subscribe () [97] "udp" SharedmemSubscriber.available, .getTopic ()] := by
  refine ⟨fun h => ?_, fun h => ?_, fun h => ?_⟩
  · cases (h.2.1.2 rfl).1
  · obtain ⟨impl, p, hk, hp, -⟩ := h.2 () rfl
    cases hk
    cases hp
  · exact h.2.1.1 rfl

end Subscribers

end MessageTransport
