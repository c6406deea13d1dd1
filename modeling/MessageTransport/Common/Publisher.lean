import MessageTransport.Lib.SharedPtr
import MessageTransport.Sharedmem.Publisher

/-!
# Publishers

`Publisher` is a handle on a `PublisherImpl`, which owns one plugin for every declared transport.
The copies of a `Publisher` share the implementation. A `shutdown` through one of them shuts the
plugins down and lets go of them, but only the caller lets go of the implementation, and the flag
`unsubscribed_`, which the others ask, is never set.

* `plugin_shutdown_once`: over all calls on any number of publishers, the plugin of an
  implementation is shut down exactly once, by the first `shutdown` or by the destructor;
* `publishers_valid_iff`: a publish reaches the plugin whenever the publisher converts to true, and
  a publisher whose implementation was shut down converts to false, if and only if every `shutdown`
  goes through the only owner of the implementation.
-/

namespace MessageTransport

/-- A `PublisherPlugin`, with the implementation it was added to and its place there. -/
structure Plugin where
  id : ℕ × ℕ
  object : SharedmemPublisher

/-- `PublisherPlugin::getNumSubscribers()`. That of `SharedmemPublisher` is not `const` and does not
override it. -/
def Plugin.getNumSubscribers (_ : Plugin) : ℕ := 1

theorem Plugin.getNumSubscribers_pos (p : Plugin) : 0 < p.getNumSubscribers := Nat.one_pos

/-- What a plugin is called for. -/
inductive PluginCall
  | publish
  | shutdown
  deriving DecidableEq

/-- The calls that plugins get, in order. -/
abbrev PluginCalls := List ((ℕ × ℕ) × PluginCall)

/-- `PublisherImpl`. -/
structure PublisherImpl where
  base_topic_ : Name
  unsubscribed_ : Bool
  publishers_ : List Plugin

namespace PublisherImpl

/-- `PublisherImpl(config, topic)`. -/
def init (topic : Name) : PublisherImpl := ⟨topic, false, []⟩

variable (impl : PublisherImpl)

/-- `isValid()`. -/
def isValid : Bool := !impl.unsubscribed_

/-- `getTopic()`. -/
def getTopic : Name := impl.base_topic_

/-- `getNumSubscribers()`. -/
def getNumSubscribers : ℕ := (impl.publishers_.map Plugin.getNumSubscribers).sum

/-- `getNumPublishers()`. -/
def getNumPublishers : ℕ := impl.publishers_.length

/-- `shutdownImpl()`. -/
def shutdownImpl : PluginCalls × PublisherImpl :=
  if !impl.unsubscribed_ then
    (impl.publishers_.map fun p => (p.id, .shutdown), { impl with publishers_ := [] })
  else ([], impl)

/-- `getDeclaredClasses()`. -/
def getDeclaredClasses : List String := ["sharedmem_pub"]

/-- `addInstance(name)`, called on the implementation number `a`. -/
def addInstance (a : ℕ) (name : String) : Except Exn PublisherImpl :=
  if name = "sharedmem_pub" then
    .ok { impl with publishers_ := impl.publishers_ ++ [⟨(a, impl.publishers_.length), .init⟩] }
  else .error (.runtime_error "Invalid transport")

/-- The loop of `do_initialise` over the declared classes, which catches what `addInstance`
throws. -/
def addInstances (a : ℕ) : List String → PublisherImpl → PublisherImpl
  | [], impl => impl
  | lookup_name :: names, impl =>
    match impl.addInstance a lookup_name with
    | .ok impl => addInstances a names impl
    | .error _ => addInstances a names impl

/-- The loop of `publish(message)` over the plugins: the calls they get, what leaves the loop, and
the plugins after it. Every plugin meets an environment of its own. -/
def publishLoop (env : ℕ × ℕ → SharedmemPublisher.Environment) :
    List Plugin → PluginCalls × Except Exn Unit × List Plugin
  | [] => ([], .ok (), [])
  | p :: ps =>
    if 0 < p.getNumSubscribers then
      match p.object.publish (env p.id) with
      | (.error e, object) => ([(p.id, .publish)], .error e, { p with object } :: ps)
      | (.ok _, object) =>
        match publishLoop env ps with
        | (calls, r, ps) => ((p.id, .publish) :: calls, r, { p with object } :: ps)
    else
      match publishLoop env ps with
      | (calls, r, ps) => (calls, r, p :: ps)

/-- `publish(message)`. -/
def publish (env : ℕ × ℕ → SharedmemPublisher.Environment) :
    PluginCalls × Except Exn Unit × PublisherImpl :=
  match publishLoop env impl.publishers_ with
  | (calls, r, ps) => (calls, r, { impl with publishers_ := ps })

/-- `~PublisherImpl()`, of the implementation that has lost its last owner. -/
def destructor : Option PublisherImpl → PluginCalls
  | some impl => impl.shutdownImpl.1
  | none => []

/-- The flag is not set, and the plugins are those of the implementation number `a`. -/
structure Owns (a : ℕ) (impl : PublisherImpl) : Prop where
  subscribed : impl.unsubscribed_ = false
  own : ∀ p ∈ impl.publishers_, p.id.1 = a

variable {impl} {a : ℕ} {ps : List Plugin} {env : ℕ × ℕ → SharedmemPublisher.Environment}

theorem publishLoop_ids : (publishLoop env ps).2.2.map Plugin.id = ps.map Plugin.id := by
  induction ps with
  | nil => rfl
  | cons p ps ih =>
    rw [publishLoop, if_pos p.getNumSubscribers_pos]
    cases p.object.publish (env p.id) with
    | mk r object =>
      cases r with
      | error e => rfl
      | ok sent => exact congrArg (p.id :: ·) ih

/-- A publish calls the plugins to publish, the first one at least. -/
theorem publishLoop_calls (env : ℕ × ℕ → SharedmemPublisher.Environment) (ps : List Plugin) :
    (∀ c ∈ (publishLoop env ps).1, c.2 = .publish) ∧ ((publishLoop env ps).1 = [] ↔ ps = []) := by
  induction ps with
  | nil => exact ⟨by simp [publishLoop], by simp [publishLoop]⟩
  | cons p ps ih =>
    rw [publishLoop, if_pos p.getNumSubscribers_pos]
    cases p.object.publish (env p.id) with
    | mk r object =>
      cases r with
      | error e => simp
      | ok sent => exact ⟨List.forall_mem_cons.2 ⟨rfl, ih.1⟩, by simp⟩

/-- The implementation number `a` with its one plugin. -/
def equipped (a : ℕ) (topic : Name) : PublisherImpl := ⟨topic, false, [⟨(a, 0), .init⟩]⟩

theorem addInstances_init (a : ℕ) (topic : Name) :
    (init topic).addInstances a getDeclaredClasses = equipped a topic := rfl

theorem Owns.publish (h : impl.Owns a) (env : ℕ × ℕ → SharedmemPublisher.Environment) :
    (impl.publish env).2.2.Owns a ∧
      (impl.publish env).2.2.publishers_.length = impl.publishers_.length := by
  have hids : (impl.publish env).2.2.publishers_.map Plugin.id = impl.publishers_.map Plugin.id :=
    publishLoop_ids
  refine ⟨⟨h.subscribed, fun p hp => ?_⟩, by simpa using congrArg List.length hids⟩
  have hmem : p.id ∈ impl.publishers_.map Plugin.id := hids ▸ List.mem_map_of_mem hp
  obtain ⟨q, hq, hid⟩ := List.mem_map.1 hmem
  rw [← hid]
  exact h.own q hq

/-- Shutting down calls every plugin once, and leaves none. -/
theorem Owns.shutdownImpl (h : impl.Owns a) :
    impl.shutdownImpl = (impl.publishers_.map fun p => (p.id, .shutdown),
      { impl with publishers_ := [] }) := by
  simp [PublisherImpl.shutdownImpl, h.subscribed]

end PublisherImpl

/-- How often the plugins of the implementation `a` were shut down. -/
def PluginCalls.shutdowns (calls : PluginCalls) (a : ℕ) : ℕ :=
  calls.countP fun c => c.1.1 = a ∧ c.2 = .shutdown

namespace PluginCalls

variable {calls calls' : PluginCalls} {a b : ℕ}

theorem shutdowns_append :
    shutdowns (calls ++ calls') a = calls.shutdowns a + calls'.shutdowns a := List.countP_append

theorem shutdowns_publish (h : ∀ c ∈ calls, c.2 = .publish) : calls.shutdowns a = 0 := by
  refine List.countP_eq_zero.2 fun c hc => ?_
  simp [h c hc]

theorem shutdowns_shutdownImpl {impl : PublisherImpl} (h : impl.Owns b) :
    shutdowns impl.shutdownImpl.1 a = if a = b then impl.publishers_.length else 0 := by
  rw [h.shutdownImpl, shutdowns, List.countP_map]
  split_ifs with hab
  · rw [List.countP_eq_length]
    intro p hp
    simp [h.own p hp, hab]
  · rw [List.countP_eq_zero]
    intro p hp
    simp [h.own p hp, Ne.symm hab]

end PluginCalls

/-- The publishers of a process. All of them were made with a configuration. -/
structure Publishers (κ : Type*) where
  /-- The implementations they own. -/
  heap : SharedHeap κ PublisherImpl
  /-- The calls that the plugins have got so far. -/
  calls : PluginCalls
  /-- The implementations that `shutdown` was called on. -/
  closed : List ℕ

namespace Publishers

variable {κ : Type*}

/-- Publishers that were never initialised. -/
def init : Publishers κ := ⟨.empty, [], []⟩

/-- The calls on publishers. A publisher that was destroyed may be made again. -/
inductive Call (κ : Type*)
  | do_initialise (k : κ) (base_topic : Name)
  | publish (k : κ) (env : ℕ × ℕ → SharedmemPublisher.Environment)
  | getNumSubscribers (k : κ)
  | getTopic (k : κ)
  | shutdown (k : κ)
  /-- `operator void*()`. -/
  | toBool (k : κ)
  /-- `k = j`. -/
  | copy (k j : κ)
  | destroy (k : κ)

/-- What a call returns. -/
inductive Reply
  | void
  | topic (name : Name)
  | number (n : ℕ)
  | bool (b : Bool)

/-- `publish(message)`. -/
def publish (w : Publishers κ) (k : κ) (env : ℕ × ℕ → SharedmemPublisher.Environment) :
    Except Exn Unit × Publishers κ :=
  match w.heap.get k with
  | some impl =>
    if !impl.isValid then (.ok (), w)
    else
      match impl.publish env with
      | (calls, r, impl) => (r, { w with heap := w.heap.modify k impl, calls := w.calls ++ calls })
  | none => (.ok (), w)

/-- `getNumSubscribers()`. -/
def getNumSubscribers (w : Publishers κ) (k : κ) : ℕ :=
  match w.heap.get k with
  | some impl => if impl.isValid then impl.getNumSubscribers else 0
  | none => 0

/-- `getTopic()`. -/
def getTopic (w : Publishers κ) (k : κ) : Name :=
  match w.heap.get k with
  | some impl => impl.getTopic
  | none => []

/-- `operator void*()`. -/
def toBool (w : Publishers κ) (k : κ) : Bool :=
  match w.heap.get k with
  | some impl => impl.isValid
  | none => false

/-- A publish through `k` reaches a plugin. -/
def Reaches (w : Publishers κ) (k : κ) (env : ℕ × ℕ → SharedmemPublisher.Environment) : Prop :=
  ∃ id, (id, PluginCall.publish) ∈ (w.publish k env).2.calls.drop w.calls.length

/-- A publish reaches the plugin exactly through a publisher that converts to true. -/
def Valid (w : Publishers κ) : Prop := ∀ k env, w.Reaches k env ↔ w.toBool k = true

/-- The publishers of an implementation that was shut down convert to false, report no subscribers
and publish nothing. -/
def Closed (w : Publishers κ) : Prop :=
  ∀ a ∈ w.closed, ∀ k, w.heap.owner k = some a →
    w.toBool k = false ∧ w.getNumSubscribers k = 0 ∧ ∀ env, ¬ w.Reaches k env

/-- The implementation was shut down, or its last owner is gone. -/
def Ended (w : Publishers κ) (a : ℕ) : Prop := a ∈ w.closed ∨ ∀ k, w.heap.owner k ≠ some a

/-- The plugin of an implementation that has ended was shut down once, that of another never. -/
def Once (w : Publishers κ) : Prop :=
  ∀ a < w.heap.next,
    (w.Ended a → w.calls.shutdowns a = 1) ∧ (¬ w.Ended a → w.calls.shutdowns a = 0)

/-- A `shutdown` is called through the only owner of the implementation, or through a publisher
without one. -/
def Sole (w : Publishers κ) : Call κ → Prop
  | .shutdown k => ∀ a, w.heap.owner k = some a → ∀ j, w.heap.owner j = some a → j = k
  | _ => True

/-- How many plugins the implementation `a` has. -/
def plugins (w : Publishers κ) (a : ℕ) : ℕ :=
  match w.heap.object a with
  | some impl => impl.publishers_.length
  | none => 0

/-- Every call so far is accounted for: the implementations that were not shut down have one plugin,
the others none, and a plugin that is gone was shut down. -/
structure Accounted (w : Publishers κ) : Prop where
  closed_lt : ∀ a ∈ w.closed, a < w.heap.next
  owns : ∀ a impl, w.heap.object a = some impl → impl.Owns a
  left : ∀ a impl, w.heap.object a = some impl →
    impl.publishers_.length = if a ∈ w.closed then 0 else 1
  balance : ∀ a, w.calls.shutdowns a + w.plugins a = if a < w.heap.next then 1 else 0

variable {w : Publishers κ} {k j : κ} {a : ℕ} {impl : PublisherImpl}

theorem plugins_some (h : w.heap.object a = some impl) :
    w.plugins a = impl.publishers_.length := by rw [plugins, h]

theorem plugins_none (h : w.heap.object a = none) : w.plugins a = 0 := by rw [plugins, h]

theorem Accounted.once (hw : w.Accounted) (hwf : w.heap.WF) : w.Once := by
  intro a ha
  have hbalance := hw.balance a
  rw [if_pos ha] at hbalance
  constructor
  · intro hended
    have hnone : w.plugins a = 0 := by
      cases hobj : w.heap.object a with
      | none => exact plugins_none hobj
      | some impl =>
        rw [plugins_some hobj, hw.left a impl hobj]
        rcases hended with hc | hun
        · exact if_pos hc
        · rw [hwf.object_eq_none hun] at hobj
          cases hobj
    omega
  · intro hended
    obtain ⟨hc, k, hk⟩ : a ∉ w.closed ∧ ∃ k, w.heap.owner k = some a := by
      simpa [Ended] using hended
    obtain ⟨impl, hobj⟩ := hwf.live hk
    rw [plugins_some hobj, hw.left a impl hobj, if_neg hc] at hbalance
    omega

/-- A publisher that owns an implementation converts to true, and a publish through it reaches the
plugins that are left. -/
theorem Accounted.owner (hw : w.Accounted) (hk : w.heap.owner k = some a)
    (hobj : w.heap.object a = some impl) :
    w.toBool k = true ∧ ∀ env, w.Reaches k env ↔ impl.publishers_ ≠ [] := by
  have hget : w.heap.get k = some impl := SharedHeap.get_eq_some_iff.2 ⟨a, hk, hobj⟩
  have hvalid : impl.isValid = true := by
    rw [PublisherImpl.isValid, (hw.owns a impl hobj).subscribed, Bool.not_false]
  refine ⟨by rw [toBool, hget]; exact hvalid, fun env => ?_⟩
  obtain ⟨hpub, hnil⟩ := PublisherImpl.publishLoop_calls env impl.publishers_
  have hcalls : (w.publish k env).2.calls
      = w.calls ++ (PublisherImpl.publishLoop env impl.publishers_).1 := by
    simp only [publish, hget, hvalid, PublisherImpl.publish, Bool.not_true, Bool.false_eq_true,
      if_false]
  rw [Reaches, hcalls, List.drop_left, ne_eq, ← hnil]
  constructor
  · rintro ⟨id, h⟩
    exact List.ne_nil_of_mem h
  · intro h
    obtain ⟨c, hc⟩ := List.exists_mem_of_ne_nil _ h
    exact ⟨c.1, hpub c hc ▸ hc⟩

/-- A publisher without an implementation converts to false, and publishes nothing. -/
theorem no_owner (hk : w.heap.owner k = none) :
    w.toBool k = false ∧ ∀ env, ¬ w.Reaches k env := by
  have hget : w.heap.get k = none := by rw [SharedHeap.get, hk, Option.bind_none]
  refine ⟨by rw [toBool, hget], fun env => ?_⟩
  simp [Reaches, publish, hget]

/-- If nobody owns an implementation that was shut down, all publishers are valid. -/
theorem Accounted.valid (hw : w.Accounted) (hwf : w.heap.WF)
    (hc : ∀ a ∈ w.closed, ∀ k, w.heap.owner k ≠ some a) : w.Valid := by
  intro k env
  cases hk : w.heap.owner k with
  | none =>
    obtain ⟨hb, hr⟩ := no_owner hk
    simp [hb, hr env]
  | some a =>
    obtain ⟨impl, hobj⟩ := hwf.live hk
    obtain ⟨hb, hr⟩ := hw.owner hk hobj
    have hlen := hw.left a impl hobj
    rw [if_neg fun h => hc a h k hk] at hlen
    rw [hb, hr env, ← List.length_pos_iff, hlen]
    simp

variable [DecidableEq κ]

/-- Let `impl_` of a publisher own what `p` says. What it owned may be destroyed. -/
def assign (w : Publishers κ) (k : κ) (p : Option ℕ) : Publishers κ :=
  match w.heap.assign k p with
  | (heap, old) => { w with heap, calls := w.calls ++ PublisherImpl.destructor old }

/-- `shutdown()`. -/
def shutdown (w : Publishers κ) (k : κ) : Publishers κ :=
  match w.heap.get k with
  | some impl =>
    match impl.shutdownImpl with
    | (calls, impl) =>
      let w := { heap := w.heap.modify k impl, calls := w.calls ++ calls,
                 closed := w.closed ++ (w.heap.owner k).toList : Publishers κ }
      w.assign k none
  | none => w

/-- `do_initialise(base_topic)`. The assertion that `impl_` is empty is compiled out. -/
def do_initialise (w : Publishers κ) (k : κ) (base_topic : Name) :
    Except Exn Unit × Publishers κ :=
  let a := w.heap.next
  let impl := PublisherImpl.init base_topic
  match w.heap.make k impl with
  | (heap, old) =>
    let w := { w with heap, calls := w.calls ++ PublisherImpl.destructor old }
    let impl := impl.addInstances a PublisherImpl.getDeclaredClasses
    let w := { w with heap := w.heap.modify k impl }
    if impl.getNumPublishers = 0 then (.error (.runtime_error "No plugins found!"), w)
    else (.ok (), w)

/-- A call: what it returns or throws, and the publishers after it. -/
def run (w : Publishers κ) : Call κ → Except Exn Reply × Publishers κ
  | .do_initialise k base_topic =>
    match w.do_initialise k base_topic with
    | (r, w) => (r.map fun _ => .void, w)
  | .publish k env =>
    match w.publish k env with
    | (r, w) => (r.map fun _ => .void, w)
  | .getNumSubscribers k => (.ok (.number (w.getNumSubscribers k)), w)
  | .getTopic k => (.ok (.topic (w.getTopic k)), w)
  | .shutdown k => (.ok .void, w.shutdown k)
  | .toBool k => (.ok (.bool (w.toBool k)), w)
  | .copy k j => (.ok .void, w.assign k (w.heap.owner j))
  | .destroy k => (.ok .void, w.assign k none)

/-- The publishers after a call, which may have been left by an exception. -/
def step (w : Publishers κ) (c : Call κ) : Publishers κ := (w.run c).2

theorem owner_assign (w : Publishers κ) (k : κ) (p : Option ℕ) :
    (w.assign k p).heap.owner = Function.update w.heap.owner k p := (w.heap.assign_cases k p).1.1

@[simp] theorem closed_assign (w : Publishers κ) (k : κ) (p : Option ℕ) :
    (w.assign k p).closed = w.closed := rfl

/-- What an assignment takes away is shut down. -/
theorem Accounted.assign (hw : w.Accounted) (k : κ) (p : Option ℕ) :
    (w.assign k p).Accounted := by
  have hnext : (w.assign k p).heap.next = w.heap.next := (w.heap.assign_cases k p).1.2
  have hcalls : (w.assign k p).calls
      = w.calls ++ PublisherImpl.destructor (w.heap.assign k p).2 := rfl
  have hkeep : ∀ a impl, (w.assign k p).heap.object a = some impl →
      w.heap.object a = some impl := fun a impl h => SharedHeap.object_assign h
  refine ⟨fun a ha => hnext ▸ hw.closed_lt a ha, fun a impl h => hw.owns a impl (hkeep a impl h),
    fun a impl h => hw.left a impl (hkeep a impl h), fun b => ?_⟩
  have hbalance := hw.balance b
  rw [hnext, ← hbalance, hcalls, PluginCalls.shutdowns_append]
  rcases w.heap.assign_object k p with ⟨hnone, hobj⟩ | ⟨a, impl, -, ha, hsome, hobj⟩
  · have hplugins : (w.assign k p).plugins b = w.plugins b := by
      rw [plugins, plugins, Publishers.assign, hobj]
    rw [hnone, hplugins]
    rfl
  · rw [hsome, PublisherImpl.destructor, PluginCalls.shutdowns_shutdownImpl (hw.owns a impl ha)]
    have hobj' : (w.assign k p).heap.object = Function.update w.heap.object a none := hobj
    split_ifs with hab
    · rw [hab, plugins_some ha, plugins_none (by rw [hobj', Function.update_self]), add_zero]
    · have hplugins : (w.assign k p).plugins b = w.plugins b := by
        rw [plugins, plugins, hobj', Function.update_of_ne hab]
      rw [hplugins, add_zero]

omit [DecidableEq κ] in
/-- An implementation whose plugins change, without any getting lost. -/
theorem Accounted.modify (hw : w.Accounted) (hwf : w.heap.WF) (impl' : PublisherImpl)
    (calls : PluginCalls) (closed : List ℕ) (hk : w.heap.owner k = some a)
    (hobj : w.heap.object a = some impl) (howns : impl'.Owns a)
    (hclosed : ∀ b ∈ closed, b ∈ w.closed ∨ b = a) (hkept : ∀ b ∈ w.closed, b ∈ closed)
    (hleft : impl'.publishers_.length = if a ∈ closed then 0 else 1)
    (hcalls : ∀ b, calls.shutdowns b + (if b = a then impl'.publishers_.length else 0)
      = if b = a then impl.publishers_.length else 0) :
    Accounted ⟨w.heap.modify k impl', w.calls ++ calls, closed⟩ := by
  have hlt : a < w.heap.next := by
    by_contra h
    rw [hwf.fresh a (not_lt.1 h)] at hobj
    cases hobj
  have hobject : ∀ b, (w.heap.modify k impl').object b
      = if b = a then some impl' else w.heap.object b := by
    intro b
    rw [SharedHeap.modify_object hk, Function.update_apply]
  refine ⟨fun b hb => ?_, fun b impl'' h => ?_, fun b impl'' h => ?_, fun b => ?_⟩
  · rw [SharedHeap.modify_next]
    rcases hclosed b hb with h | rfl
    · exact hw.closed_lt b h
    · exact hlt
  · rw [hobject b] at h
    split_ifs at h with hb
    · cases h
      exact hb ▸ howns
    · exact hw.owns b impl'' h
  · rw [hobject b] at h
    split_ifs at h with hb
    · cases h
      rw [hleft, hb]
    · have hiff : b ∈ closed ↔ b ∈ w.closed :=
        ⟨fun h => (hclosed b h).resolve_right hb, hkept b⟩
      rw [hw.left b impl'' h]
      simp only [hiff]
  · have hbalance := hw.balance b
    have hb := hcalls b
    rw [SharedHeap.modify_next, PluginCalls.shutdowns_append, ← hbalance]
    by_cases hba : b = a
    · rw [if_pos hba, if_pos hba] at hb
      rw [hba] at hb ⊢
      rw [plugins_some hobj, plugins_some ((hobject a).trans (if_pos rfl))]
      omega
    · rw [if_neg hba, if_neg hba] at hb
      rw [plugins, plugins, hobject b, if_neg hba]
      omega

/-- The owners are counted, and so are the calls. -/
structure Inv (w : Publishers κ) : Prop where
  wf : w.heap.WF
  accounted : w.Accounted

omit [DecidableEq κ] in
theorem Inv.publish (hw : w.Inv) (k : κ) (env : ℕ × ℕ → SharedmemPublisher.Environment) :
    (w.publish k env).2.Inv := by
  rw [Publishers.publish]
  cases hget : w.heap.get k with
  | none => exact hw
  | some impl =>
    obtain ⟨a, hk, hobj⟩ := SharedHeap.get_eq_some_iff.1 hget
    have howns := hw.accounted.owns a impl hobj
    have hvalid : impl.isValid = true := by
      rw [PublisherImpl.isValid, howns.subscribed, Bool.not_false]
    obtain ⟨howns', hlen⟩ := howns.publish env
    have hzero : ∀ b, (impl.publish env).1.shutdowns b = 0 := fun b =>
      PluginCalls.shutdowns_publish (PublisherImpl.publishLoop_calls _ _).1
    simp only [hvalid, Bool.not_true, Bool.false_eq_true, if_false]
    refine ⟨hw.wf.modify k _, hw.accounted.modify hw.wf _ _ _ hk hobj howns' (fun b hb => .inl hb)
      (fun b hb => hb) (by rw [hlen, hw.accounted.left a impl hobj]) (fun b => ?_)⟩
    rw [hzero b, hlen, zero_add]

theorem Inv.copy (hw : w.Inv) (k j : κ) : (w.assign k (w.heap.owner j)).Inv :=
  ⟨hw.wf.share k j, hw.accounted.assign k _⟩

theorem Inv.reset (hw : w.Inv) (k : κ) : (w.assign k none).Inv :=
  ⟨hw.wf.drop k, hw.accounted.assign k none⟩

/-- `shutdown` through an owner: the plugins are shut down and gone, and the owner lets go. -/
theorem Inv.shutdown_cases (hw : w.Inv) (k : κ) :
    w.heap.owner k = none ∧ w.shutdown k = w ∨
      ∃ (a : ℕ) (w' : Publishers κ), w.heap.owner k = some a ∧
        w.shutdown k = w'.assign k none ∧ w'.Inv ∧ w'.heap.owner = w.heap.owner ∧
        w'.closed = w.closed ++ [a] := by
  cases hk : w.heap.owner k with
  | none =>
    have hget : w.heap.get k = none := by rw [SharedHeap.get, hk, Option.bind_none]
    exact .inl ⟨rfl, by rw [shutdown, hget]⟩
  | some a =>
    obtain ⟨impl, hobj⟩ := hw.wf.live hk
    have hget : w.heap.get k = some impl := SharedHeap.get_eq_some_iff.2 ⟨a, hk, hobj⟩
    have howns := hw.accounted.owns a impl hobj
    refine .inr ⟨a, ⟨w.heap.modify k { impl with publishers_ := [] },
      w.calls ++ impl.shutdownImpl.1, w.closed ++ [a]⟩, rfl, ?_, ⟨hw.wf.modify k _, ?_⟩,
      SharedHeap.modify_owner .., rfl⟩
    · rw [shutdown, hget]
      simp only [howns.shutdownImpl, hk, Option.toList_some]
    · have hself : a ∈ w.closed ++ [a] := by simp
      refine hw.accounted.modify hw.wf { impl with publishers_ := [] } _ _ hk hobj
        ⟨howns.subscribed, by simp⟩ (fun b hb => by simpa using hb) (fun b hb => by simp [hb])
        (if_pos hself).symm (fun b => ?_)
      rw [PluginCalls.shutdowns_shutdownImpl howns]
      simp

theorem Inv.shutdown (hw : w.Inv) (k : κ) : (w.shutdown k).Inv := by
  rcases hw.shutdown_cases k with ⟨-, h⟩ | ⟨a, w', -, h, hw', -⟩
  · rwa [h]
  · rw [h]
    exact hw'.reset k

omit [DecidableEq κ] in
/-- A new implementation, which nobody owns yet. -/
theorem Accounted.install (hw : w.Accounted) (hwf : w.heap.WF) (topic : Name) :
    Accounted { w with heap := { w.heap with
      object := Function.update w.heap.object w.heap.next
        (some (.equipped w.heap.next topic)), next := w.heap.next + 1 } } := by
  have hnew : w.heap.next ∉ w.closed := fun h => lt_irrefl _ (hw.closed_lt _ h)
  refine ⟨fun a ha => Nat.lt_succ_of_lt (hw.closed_lt a ha), fun a impl h => ?_,
    fun a impl h => ?_, fun a => ?_⟩
  · simp only [Function.update_apply] at h
    split_ifs at h with ha
    · cases h
      exact ⟨rfl, by simp [PublisherImpl.equipped, ha]⟩
    · exact hw.owns a impl h
  · simp only [Function.update_apply] at h
    split_ifs at h with ha
    · cases h
      rw [ha, if_neg hnew]
      rfl
    · exact hw.left a impl h
  · have hbalance := hw.balance a
    simp only [plugins, Function.update_apply]
    by_cases ha : a = w.heap.next
    · rw [ha, if_neg (lt_irrefl _), plugins_none (hwf.fresh _ le_rfl)] at hbalance
      rw [ha, if_pos rfl, if_pos (Nat.lt_succ_self _)]
      exact congrArg (· + 1) hbalance
    · rw [if_neg ha]
      rw [plugins] at hbalance
      rw [hbalance]
      exact if_congr (by omega) rfl rfl

/-- `do_initialise` finds a plugin, and the publisher owns a new implementation with it. -/
theorem Inv.do_initialise (hw : w.Inv) (k : κ) (base_topic : Name) :
    ∃ w' : Publishers κ, w.do_initialise k base_topic = (.ok (), w') ∧ w'.Inv ∧
      w'.closed = w.closed ∧ w'.heap.owner = Function.update w.heap.owner k (some w.heap.next) := by
  obtain ⟨hmodify, hold⟩ := hw.wf.modify_make k (PublisherImpl.init base_topic)
    (.equipped w.heap.next base_topic)
  refine ⟨_, ?_, ⟨hw.wf.make k (.equipped w.heap.next base_topic),
    (hw.accounted.install hw.wf base_topic).assign k (some w.heap.next)⟩, rfl, owner_assign ..⟩
  simp only [Publishers.do_initialise, PublisherImpl.addInstances_init, hmodify, hold]
  rfl

theorem Inv.step (hw : w.Inv) (c : Call κ) : (w.step c).Inv := by
  cases c with
  | do_initialise k base_topic =>
    obtain ⟨w', heq, hw', -⟩ := hw.do_initialise k base_topic
    rw [Publishers.step, run, heq]
    exact hw'
  | publish k env => exact hw.publish k env
  | shutdown k => exact hw.shutdown k
  | copy k j => exact hw.copy k j
  | destroy k => exact hw.reset k
  | getNumSubscribers k => exact hw
  | getTopic k => exact hw
  | toBool k => exact hw

omit [DecidableEq κ] in
theorem inv_init : (init : Publishers κ).Inv :=
  ⟨SharedHeap.wf_empty, by simp [init], by simp [init, SharedHeap.empty],
    by simp [init, SharedHeap.empty], fun _ => rfl⟩

/-- **Every plugin is shut down exactly once,** by the first `shutdown` through any owner of its
implementation, or when the last owner is gone; whatever the calls on the publishers. -/
theorem plugin_shutdown_once (cs : List (Call κ)) :
    Run.Always step Once (init : Publishers κ) cs :=
  (Run.always_of_inv step Inv (fun _ c hw => hw.step c) inv_init).mono
    fun _ hw => hw.accounted.once hw.wf

/-- Nobody owns an implementation that was shut down. -/
def Unowned (w : Publishers κ) : Prop := ∀ a ∈ w.closed, ∀ k, w.heap.owner k ≠ some a

/-- What an assignment gives a publisher is not shut down if somebody owned it, or it is new. -/
theorem Unowned.assign {p : Option ℕ} {owner : κ → Option ℕ} {closed : List ℕ}
    (hw : ∀ a ∈ closed, ∀ k, owner k ≠ some a) (hp : ∀ a ∈ closed, p ≠ some a) (k : κ) :
    ∀ a ∈ closed, ∀ j, Function.update owner k p j ≠ some a := by
  intro a ha j
  rw [Function.update_apply]
  split_ifs
  · exact hp a ha
  · exact hw a ha j

theorem Unowned.step (hw : w.Inv) (hun : w.Unowned) (c : Call κ) (h : w.Sole c) :
    (w.step c).Unowned := by
  cases c with
  | do_initialise k base_topic =>
    obtain ⟨w', heq, -, hclosed, howner⟩ := hw.do_initialise k base_topic
    rw [Publishers.step, run, heq, Unowned, hclosed, howner]
    refine Unowned.assign hun (fun a ha hp => ?_) k
    cases hp
    exact lt_irrefl _ (hw.accounted.closed_lt _ ha)
  | publish k env =>
    have hown : (w.publish k env).2.heap.owner = w.heap.owner ∧
        (w.publish k env).2.closed = w.closed := by
      rw [Publishers.publish]
      cases w.heap.get k with
      | none => exact ⟨rfl, rfl⟩
      | some impl =>
        dsimp only
        split_ifs
        · exact ⟨rfl, rfl⟩
        · exact ⟨SharedHeap.modify_owner .., rfl⟩
    obtain ⟨howner, hclosed⟩ := hown
    rw [Unowned, show (w.step (.publish k env)).closed = _ from hclosed,
      show (w.step (.publish k env)).heap.owner = _ from howner]
    exact hun
  | shutdown k =>
    rcases hw.shutdown_cases k with ⟨-, heq⟩ | ⟨a, w', hk, heq, -, howner, hclosed⟩
    · rw [Publishers.step, run, heq]
      exact hun
    · rw [Publishers.step, run, heq, Unowned, owner_assign, howner, closed_assign, hclosed]
      intro b hb j hj
      rw [Function.update_apply] at hj
      split_ifs at hj with hjk
      rcases List.mem_append.1 hb with hb | hb
      · exact hun b hb j hj
      · rw [List.mem_singleton.1 hb] at hj
        exact hjk (h a hk j hj)
  | copy k j =>
    rw [Publishers.step, run, Unowned, owner_assign]
    exact Unowned.assign hun (fun a ha => hun a ha j) k
  | destroy k =>
    rw [Publishers.step, run, Unowned, owner_assign]
    exact Unowned.assign hun (fun a ha => by simp) k
  | getNumSubscribers k => exact hun
  | getTopic k => exact hun
  | toBool k => exact hun

/-- A `shutdown` through one of several owners leaves the others true, without a plugin. -/
theorem Inv.sole_of_closed (hw : w.Inv) {c : Call κ} (h : (w.step c).Closed) : w.Sole c := by
  cases c with
  | shutdown k =>
    intro a hk j hj
    by_contra hjk
    have hinv := hw.shutdown k
    rcases hw.shutdown_cases k with ⟨hnone, -⟩ | ⟨b, w', hk', heq, -, howner, hclosed⟩
    · rw [hk] at hnone
      cases hnone
    obtain rfl : a = b := Option.some.inj (hk.symm.trans hk')
    have hj' : (w.shutdown k).heap.owner j = some a := by
      rw [heq, owner_assign, Function.update_of_ne hjk, howner, hj]
    have ha : a ∈ (w.shutdown k).closed := by
      rw [heq, closed_assign, hclosed]
      simp
    obtain ⟨impl, hobj⟩ := hinv.wf.live hj'
    have htrue := (hinv.accounted.owner hj' hobj).1
    have hfalse : (w.shutdown k).toBool j = false := (h a ha j hj').1
    rw [htrue] at hfalse
    cases hfalse
  | _ => trivial

/-- **Over all calls on publishers that share implementations, a publish reaches the plugin exactly
through a publisher that converts to true, the publishers of an implementation that was shut down
convert to false, report no subscribers and publish nothing, and every plugin is shut down exactly
once,** if and only if every `shutdown` goes through the only owner of the implementation. -/
theorem publishers_valid_iff (cs : List (Call κ)) :
    Run.Always step (fun w => w.Valid ∧ w.Closed ∧ w.Once) (init : Publishers κ) cs ↔
      Run.Along step Sole (init : Publishers κ) cs := by
  refine Run.always_iff_along (R := fun _ => True) step (fun w => w.Inv ∧ w.Unowned)
    (fun w hw => ⟨hw.1.accounted.valid hw.1.wf hw.2, fun a ha k hk => absurd hk (hw.2 a ha k),
      hw.1.accounted.once hw.1.wf⟩)
    (fun w c _ hw h => ⟨hw.1.step c, hw.2.step hw.1 c h⟩)
    (fun w c _ hw h => hw.1.sole_of_closed h.2.1) ⟨inv_init, by simp [Unowned, init]⟩
    fun _ _ => trivial

/-- A copy of a publisher that was shut down converts to true, although it publishes nothing. -/
theorem not_valid_copy :
    ¬ Run.Always step (fun w => w.Valid ∧ w.Closed ∧ w.Once) (init : Publishers Bool)
        [.do_initialise false [97], .copy true false, .shutdown false] := by
  intro h
  obtain ⟨-, hclosed, -⟩ := h.exec
  cases (hclosed 0 (by decide) true (by decide)).1

end Publishers

end MessageTransport
