import MessageTransport.Sync.Counts

/-!
# Registration and the operations it guards

`check_clients` and `check_global_clients` wait once: a party that was notified goes on as soon as
it has the mutex, without a second look at the count. Between the notification and that moment
another client may register, so registration does not exclude the guarded operations:
`not_exclusive`.

It does in every run in which a woken party finds the count at 0 when it gets the mutex back:
`exclusive_of_rechecked`. The invariant is that the count is 0 for every party past the check, and
that no count is below the number of registered clients.
-/

namespace MessageTransport

namespace Sync

namespace Position

variable {v : Position} {m n : Mutex}

theorem holds_of_past (h : v.past m = true) : v.holds m = true := by
  cases m with
  | global => exact (Bool.and_eq_true _ _ ▸ h).2
  | desc i => exact (Bool.and_eq_true _ _ ▸ h).2

theorem past_of_release (h : (v.release n).past m = true) : v.past m = true := by
  cases n <;> cases m <;> simp_all [release, past]

theorem past_of_acquire {slot : Option Slot} (hp : (Instr.lock n).Pre v slot)
    (h : (v.acquire n).past m = true) : v.past m = true := by
  cases n with
  | global =>
    cases m with
    | global => simp [acquire, past, hp.2] at h
    | desc i => exact h
  | desc j =>
    cases m with
    | global => exact h
    | desc i => simp [acquire, past, hp.2.1] at h

@[simp] theorem past_register : (v.register n).past m = v.past m := by cases n <;> cases m <;> rfl

@[simp] theorem past_unregister : (v.unregister n).past m = v.past m := by
  cases n <;> cases m <;> rfl

theorem past_of_pass (hv : v.holds n = true) (h : (v.pass n).past m = true) :
    m = n ∨ v.past m = true := by
  cases n with
  | global =>
    cases m with
    | global => exact .inl rfl
    | desc i => exact .inr h
  | desc j =>
    rw [holds_desc] at hv
    cases m with
    | global => exact .inr h
    | desc i =>
      simp only [pass, past, hv, Bool.true_and, beq_iff_eq, Option.some.injEq] at h
      exact .inl (congrArg Mutex.desc h.symm)

end Position

/-- A party that waits on a condition was not past the check of that mutex, and is past the same
checks of other mutexes. -/
theorem Instr.past_of_waitsOn {i : Instr} {c : Cond} {v : Position} {slot : Option Slot} {m : Mutex}
    (hi : i.waitsOn = some c) (hp : i.Pre v slot) (h : v.past m = true) :
    (v.release c.mutex).past m = true := by
  cases i with
  | check n =>
    cases hi
    cases n with
    | global =>
      cases m with
      | global => simp [Position.past, hp.2.1] at h
      | desc j => exact h
    | desc j =>
      rw [show v = _ from hp] at h
      cases m <;> simp [Position.past] at h
  | timed_wait j =>
    rw [show v = _ from hp] at h
    cases m <;> simp [Position.past] at h
  | _ => cases hi

section Steps

variable {x : Party} {s : Shared} {a : Act} {e : Effect} {m : Mutex}

/-- How a party comes to be past a check: it was there before, it found the count at 0, or it was
woken. -/
theorem Step.past (h : Step x s a e) (hm : e.self.pos.past m = true) :
    x.pos.past m = true ∨ clients e.shared.shm m = 0 ∨
      a = .go ∧ x.status = .woken (.clients m) ∧ e.take = some m ∧ e.shared = s := by
  cases h with
  | lock hx hp => exact .inl (Position.past_of_acquire hp hm)
  | unlock hx hp => exact .inl (Position.past_of_release hm)
  | pass hx hp hk h0 =>
    rename_i n k
    rcases Position.past_of_pass (Instr.holds_of_waitsOn (i := .check n) rfl hp) hm with rfl | hold
    · exact .inr (.inl h0)
    · exact .inl hold
  | wait hx hi hp => exact .inl (Position.past_of_release hm)
  | resume hx hi hp hr =>
    rename_i i c k _
    cases i with
    | check n =>
      cases hi
      rcases Position.past_of_pass (Instr.holds_of_waitsOn (i := .check n) rfl hp) hm
        with rfl | hold
      · exact .inr (.inr ⟨rfl, hx, rfl, rfl⟩)
      · left
        rw [← hr]
        exact Instr.past_of_waitsOn (i := .check n) rfl hp hold
    | timed_wait j =>
      cases hi
      have hdue :
          (Position.mk (some j) false none false false false (some j) none).past m = true := by
        have hv : x.pos.acquire (.desc j) = { desc := some j } := hp
        simpa only [Party.goto, Cond.mutex, Instr.post, hv] using hm
      cases m <;> simp [Position.past] at hdue
    | _ => cases hi
  | giveUp hx hp =>
    rename_i i
    have hlock : x.Reaches (.lock (.desc i)) := by
      rw [Party.Reaches, hp]
      exact ⟨rfl, rfl, rfl, rfl⟩
    exact .inl (Position.past_of_acquire hlock hm)
  | readThrows hx hp => cases m <;> simp [Party.goto, Position.past, Position.idle] at hm
  | register | unregister =>
    left
    simpa only [Party.goto, Position.past_register, Position.past_unregister] using hm
  | call | expire | signal | work | write | read | writeThrows => cases m <;> exact .inl hm

end Steps

/-- The mutex whose clients a notified party waited for. -/
def Status.wokenAt : Status → Option Mutex
  | .woken (.clients m) => some m
  | _ => none

namespace Machine

variable {ι : Type*}

/-- **Registration excludes.** While a party is registered at a count, no party is past the check
of that count and still holds its mutex. -/
def Exclusive (c : Machine ι) : Prop :=
  ∀ m p q, (c.party p).pos.registered m = true → (c.party q).pos.past m = false

/-- The act is not that of a party that was notified of a count at 0, gets its mutex back and finds
another count. -/
def Rechecked (c : Machine ι) : ι × Act → Prop
  | (p, .go) =>
    ∀ m ∈ (c.party p).status.wokenAt, c.owner m = none → clients c.shared.shm m = 0
  | _ => True

instance (c : Machine ι) (a : ι × Act) : Decidable (c.Rechecked a) :=
  match a with
  | (_, .go) => inferInstanceAs (Decidable (∀ m ∈ _, _))
  | (_, .call _) | (_, .timeout) => inferInstanceAs (Decidable True)

/-- A party past a check has found the count at 0, and it is 0 still. -/
def Checked (c : Machine ι) : Prop :=
  ∀ m p, (c.party p).pos.past m = true → clients c.shared.shm m = 0

theorem checked_init (size : ℕ) : (init size : Machine ι).Checked := by
  intro m p hp
  cases m <;> simp [init, Position.past, Position.idle] at hp

theorem Checked.exclusive [Fintype ι] {c : Machine ι} (h : c.Checked) (hcov : c.Covered) :
    c.Exclusive := by
  intro m p q hp
  by_contra hq
  have hzero := h m q (by simpa using hq)
  have hpos : 0 < c.registered m := registered_pos.2 ⟨p, hp⟩
  have := hcov m
  omega

variable [DecidableEq ι] {c : Machine ι}

theorem Checked.step (h : c.Checked) (hs : c.Sound) {a : ι × Act} (ha : c.Rechecked a) :
    (c.step a).Checked := by
  rcases hs.step_cases a with heq | ⟨e, he, hen, heq⟩
  · rwa [heq]
  · rw [heq]
    intro m q hq
    rw [Monitor.apply_shared]
    have hsame : ∀ p, (c.party p).pos.past m = true →
        clients e.shared.shm m = clients c.shared.shm m := by
      intro p hp
      by_contra hne
      obtain ⟨hheld, hpast⟩ := he.clients_change hne
      -- the party that changes the count holds the mutex that `p` holds
      obtain rfl := hs.unique (Position.holds_of_past hp) hheld
      cases hp.symm.trans hpast
    by_cases hqa : q = a.1
    · subst hqa
      rw [Monitor.apply_party_self] at hq
      -- it was past the check before, found the count at 0, or was woken
      rcases he.past hq with hold | hzero | ⟨hgo, hwoken, htake, hshared⟩
      · rw [hsame _ hold]
        exact h m _ hold
      · exact hzero
      · obtain ⟨p, act⟩ := a
        obtain rfl : act = .go := hgo
        rw [hshared]
        exact ha m (by rw [hwoken]; rfl) (e.owner_none hen htake)
    · have hold : (c.party q).pos.past m = true := by rwa [other_pos hqa] at hq
      rw [hsame q hold]
      exact h m q hold

/-- **Registration excludes the operations that it guards** in every run in which a woken party
finds the count at 0. -/
theorem exclusive_of_rechecked [Fintype ι] (size : ℕ) (as : List (ι × Act))
    (h : Run.Along step Rechecked (init size) as) : Run.Always step Exclusive (init size) as := by
  have hinv := Run.always_of_along (R := fun _ => True) step
    (fun c : Machine ι => c.Sound ∧ c.Covered ∧ c.Checked)
    (fun c a _ hc ha => ⟨hc.1.step a, hc.2.1.step hc.1 a, hc.2.2.step hc.1 ha⟩)
    ⟨sound_init size, (conserved_init size).covered, checked_init size⟩ (fun _ _ => trivial) h
  exact hinv.mono fun c hc => hc.2.2.exclusive hc.2.1

end Machine

/-! ### Runs -/

/-- The first party publishes twice. The second time it waits for the other to read, and goes on
when that is done. -/
def waitingRun : List (Client × Act) :=
  List.flatten
    [calls .first (.allocateBlock topicA 8 true) 4, calls .second (.findHandle topicA) 4,
      calls .second (.wait_data rawReader) 2, calls .first (.serialize shortMessage) 11,
      goes .second 6, calls .first (.serialize shortMessage) 2, goes .second 7, goes .first 1]

set_option maxRecDepth 4000 in
theorem exclusive_waitingRun : Run.Always Machine.step Machine.Exclusive
    (Machine.init 100 : Machine Client) waitingRun :=
  Machine.exclusive_of_rechecked 100 waitingRun (by decide +kernel)

/-- As `waitingRun`, with another subscriber: the third party was notified of the first message,
and registers between the notification of the publisher and the moment it has the mutex. -/
def reregisterRun : List (Client × Act) :=
  List.flatten
    [calls .first (.allocateBlock topicA 8 true) 4, calls .second (.findHandle topicA) 4,
      calls .third (.findHandle topicA) 4, calls .second (.wait_data rawReader) 2,
      calls .third (.wait_data rawReader) 2, calls .first (.serialize shortMessage) 11,
      goes .second 6, calls .first (.serialize shortMessage) 2, goes .second 10, goes .third 6,
      goes .first 1]

/-- The second party waits in `findHandle` for the first to leave its first `serialize`, and goes on
while that is in its second. -/
def republishRun : List (Client × Act) :=
  List.flatten
    [calls .first (.allocateBlock topicA 8 true) 4, calls .first (.serialize shortMessage) 5,
      calls .second (.findHandle topicA) 2, goes .first 6, calls .first (.serialize shortMessage) 5,
      goes .second 1]

set_option maxRecDepth 4000 in
/-- **Registration does not exclude.** A writer is past `check_clients` while a subscriber is
registered at the block, and `findHandle` is past `check_global_clients` while a writer is a global
client. -/
theorem not_exclusive :
    ¬ Run.Always Machine.step Machine.Exclusive (Machine.init 100 : Machine Client)
      reregisterRun ∧
    ¬ Run.Always Machine.step Machine.Exclusive (Machine.init 100 : Machine Client)
      republishRun := by
  constructor
  · intro h
    have hreg : ((Run.exec Machine.step (Machine.init 100 : Machine Client)
        reregisterRun).party .third).pos.registered (.desc 0) = true := by decide +kernel
    have hpast : ((Run.exec Machine.step (Machine.init 100 : Machine Client)
        reregisterRun).party .first).pos.past (.desc 0) = true := by decide +kernel
    cases hpast.symm.trans (h.exec _ _ _ hreg)
  · intro h
    have hreg : ((Run.exec Machine.step (Machine.init 100 : Machine Client)
        republishRun).party .first).pos.registered .global = true := by decide +kernel
    have hpast : ((Run.exec Machine.step (Machine.init 100 : Machine Client)
        republishRun).party .second).pos.past .global = true := by decide +kernel
    cases hpast.symm.trans (h.exec _ _ _ hreg)

end Sync

end MessageTransport
