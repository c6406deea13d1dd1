import Mathlib.Tactic

/-!
# Parties, mutexes and conditions

A system of parties that share a state and synchronize by mutexes and condition variables. What a
party does next is an `Effect`: a new shared state, its own new state, at most one mutex taken and
one given back, and at most one condition that is notified. What the parties are and what their
programs look like is left open.

* `Owned`: the owner of a mutex is the one party that holds it, by the party's own account;
* `count_apply`: how the number of parties with a property changes;
* `acyclic_of_rank`, `ends_of_rank`: a wait relation along which a rank goes down has no cycle, and
  every chain of blocked parties ends at one that can run.
-/

namespace Monitor

/-- The shared state, the owner of every mutex, and the state of every party. -/
structure Config (ι M S P : Type*) where
  shared : S
  owner : M → Option ι
  party : ι → P

/-- What one step of a party does. -/
structure Effect (M C S P : Type*) where
  shared : S
  self : P
  take : Option M := none
  give : Option M := none
  notify : Option C := none

section Step

variable {ι M C S P A : Type*}

/-- The mutex that the step takes, if any, is free. -/
def Effect.enabled (e : Effect M C S P) (c : Config ι M S P) : Bool :=
  match e.take with
  | some m => (c.owner m).isNone
  | none => true

theorem Effect.owner_none {e : Effect M C S P} {c : Config ι M S P} (h : e.enabled c = true) {m : M}
    (hm : e.take = some m) : c.owner m = none := by
  simpa [enabled, hm] using h

variable [DecidableEq ι] [DecidableEq M] (wake : C → P → P)

/-- The configuration after a step of party `p`: the others are changed by a notification only. -/
def Config.apply (c : Config ι M S P) (p : ι) (e : Effect M C S P) : Config ι M S P where
  shared := e.shared
  owner m := if e.take = some m then some p else if e.give = some m then none else c.owner m
  party q := if q = p then e.self
    else match e.notify with
      | some n => wake n (c.party q)
      | none => c.party q

/-- The step of a party, for programs given by `effect`. A step that is not possible changes
nothing. -/
def Config.step (effect : P → S → A → Option (Effect M C S P)) (c : Config ι M S P) (p : ι)
    (a : A) : Config ι M S P :=
  match effect (c.party p) c.shared a with
  | some e => if e.enabled c then c.apply wake p e else c
  | none => c

variable {c : Config ι M S P} {p q : ι} {e : Effect M C S P} {m : M}

theorem step_eq {effect : P → S → A → Option (Effect M C S P)} {a : A}
    (he : effect (c.party p) c.shared a = some e) (hen : e.enabled c = true) :
    c.step wake effect p a = c.apply wake p e := by
  simp only [Config.step, he, if_pos hen]

/-- A step changes nothing, or it is what the program of the party says. -/
theorem step_cases (effect : P → S → A → Option (Effect M C S P)) (c : Config ι M S P) (p : ι)
    (a : A) : c.step wake effect p a = c ∨ ∃ e, effect (c.party p) c.shared a = some e ∧
      e.enabled c = true ∧ c.step wake effect p a = c.apply wake p e := by
  unfold Config.step
  cases he : effect (c.party p) c.shared a with
  | none => exact .inl rfl
  | some e =>
    by_cases hen : e.enabled c = true
    · exact .inr ⟨e, rfl, hen, if_pos hen⟩
    · exact .inl (if_neg hen)

/-- A change of the shared state that commutes with what the program does commutes with the step. -/
theorem step_map {effect : P → S → A → Option (Effect M C S P)} (f : S → S) {a : A}
    (h : effect (c.party p) (f c.shared) a
      = (effect (c.party p) c.shared a).map fun e => { e with shared := f e.shared }) :
    Config.step wake effect { c with shared := f c.shared } p a
      = { c.step wake effect p a with shared := f (c.step wake effect p a).shared } := by
  simp only [Config.step, h]
  cases he : effect (c.party p) c.shared a with
  | none => rfl
  | some e =>
    have hen : Effect.enabled { e with shared := f e.shared } { c with shared := f c.shared }
        = e.enabled c := rfl
    simp only [Option.map_some, hen]
    split_ifs <;> rfl

variable {wake}

@[simp] theorem apply_shared : (c.apply wake p e).shared = e.shared := rfl

@[simp] theorem apply_party_self : (c.apply wake p e).party p = e.self := if_pos rfl

theorem apply_party_ne (h : q ≠ p) :
    (e.notify = none ∧ (c.apply wake p e).party q = c.party q) ∨
      ∃ n, e.notify = some n ∧ (c.apply wake p e).party q = wake n (c.party q) := by
  simp only [Config.apply, if_neg h]
  cases e.notify with
  | none => exact .inl ⟨rfl, rfl⟩
  | some n => exact .inr ⟨n, rfl, rfl⟩

/-- What waking up does not change stays the same in all other parties. -/
theorem apply_party_eq {β : Type*} {f : P → β} (hwake : ∀ n x, f (wake n x) = f x) (h : q ≠ p) :
    f ((c.apply wake p e).party q) = f (c.party q) := by
  simp only [Config.apply, if_neg h]
  cases e.notify with
  | none => rfl
  | some n => exact hwake n _

/-! ### Ownership -/

/-- A mutex is owned by the party that holds it. -/
def Owned (holds : P → M → Prop) (c : Config ι M S P) : Prop :=
  ∀ m p, c.owner m = some p ↔ holds (c.party p) m

variable {holds : P → M → Prop}

omit [DecidableEq ι] [DecidableEq M] in
/-- **Mutual exclusion.** -/
theorem Owned.unique (h : Owned holds c) (hp : holds (c.party p) m) (hq : holds (c.party q) m) :
    p = q :=
  Option.some.inj (((h m p).2 hp).symm.trans ((h m q).2 hq))

theorem apply_owner : (c.apply wake p e).owner m
    = if e.take = some m then some p else if e.give = some m then none else c.owner m := rfl

/-- A mutex that the step neither takes nor gives back keeps its owner. -/
theorem apply_owner_of_ne (ht : e.take ≠ some m) (hg : e.give ≠ some m) :
    (c.apply wake p e).owner m = c.owner m := by
  rw [apply_owner, if_neg ht, if_neg hg]

theorem Owned.apply (h : Owned holds c) (he : e.enabled c = true)
    (hwake : ∀ n x, holds (wake n x) = holds x)
    (hgive : ∀ m, e.give = some m → holds (c.party p) m)
    (hself : ∀ m, holds e.self m ↔ e.take = some m ∨ (holds (c.party p) m ∧ e.give ≠ some m)) :
    Owned holds (c.apply wake p e) := by
  intro m q
  by_cases hq : q = p
  · subst hq
    rw [apply_owner, apply_party_self, hself m, ← h m q]
    by_cases ht : e.take = some m
    · simp [ht]
    · by_cases hg : e.give = some m <;> simp [ht, hg]
  · have hother : holds ((c.apply wake p e).party q) m ↔ c.owner m = some q := by
      rw [apply_party_eq hwake hq, h m q]
    rw [hother]
    by_cases ht : e.take = some m
    · -- the mutex was free
      rw [apply_owner, if_pos ht, e.owner_none he ht]
      simp [Ne.symm hq]
    · by_cases hg : e.give = some m
      · -- it was held by `p`
        rw [apply_owner, if_neg ht, if_pos hg, (h m p).2 (hgive m hg)]
        simp [Ne.symm hq]
      · rw [apply_owner_of_ne ht hg]

/-! ### Counting -/

section Count

variable [Fintype ι] (f : P → Bool)

/-- The number of parties with the property `f`. -/
def count (c : Config ι M S P) : ℕ := (Finset.univ.filter fun p => f (c.party p) = true).card

variable {f}

omit [DecidableEq ι] [DecidableEq M] in
theorem count_pos : 0 < count f c ↔ ∃ p, f (c.party p) = true := by
  rw [count, Finset.card_pos]
  simp [Finset.Nonempty]

/-- A step moves one party in or out. -/
theorem count_apply (hwake : ∀ n x, f (wake n x) = f x) :
    count f (c.apply wake p e) + (f (c.party p)).toNat = count f c + (f e.self).toNat := by
  have hsplit : ∀ d : Config ι M S P, count f d
      = ((Finset.univ.erase p).filter fun q => f (d.party q) = true).card
        + (f (d.party p)).toNat := by
    intro d
    rw [count, ← Finset.insert_erase (Finset.mem_univ p), Finset.filter_insert]
    cases hp : f (d.party p) with
    | true => simp
    | false => simp
  have hrest : ((Finset.univ.erase p).filter fun q => f ((c.apply wake p e).party q) = true)
      = (Finset.univ.erase p).filter fun q => f (c.party q) = true := by
    refine Finset.filter_congr fun q hq => ?_
    rw [apply_party_eq hwake (Finset.ne_of_mem_erase hq)]
  rw [hsplit (c.apply wake p e), hsplit c, hrest, apply_party_self]
  omega

end Count

end Step

/-! ### Waiting for each other -/

section Wait

variable {ι : Type*} {R : ι → ι → Prop} {rank : ι → ℕ}

/-- Along a chain of waiting the rank goes down. -/
theorem rank_lt (hR : ∀ p q, R p q → rank q < rank p) {p q : ι} (h : Relation.TransGen R p q) :
    rank q < rank p := by
  induction h with
  | single h => exact hR _ _ h
  | tail _ h ih => exact (hR _ _ h).trans ih

theorem acyclic_of_rank (hR : ∀ p q, R p q → rank q < rank p) (p : ι) :
    ¬ Relation.TransGen R p p := fun h => lt_irrefl _ (rank_lt hR h)

/-- If every blocked party waits for one that is blocked or can run, its chain ends at one that can
run. -/
theorem ends_of_rank {Blocked Runs : ι → Prop} (hR : ∀ p q, R p q → rank q < rank p)
    (hnext : ∀ p, Blocked p → ∃ q, R p q) (hcase : ∀ p q, R p q → Blocked q ∨ Runs q) {p : ι}
    (hp : Blocked p) : ∃ q, Relation.TransGen R p q ∧ Runs q := by
  induction hn : rank p using Nat.strong_induction_on generalizing p with
  | _ n ih =>
    obtain ⟨q, hq⟩ := hnext p hp
    rcases hcase p q hq with hb | hr
    · obtain ⟨r, hqr, hr⟩ := ih (rank q) (hn ▸ hR p q hq) hb rfl
      exact ⟨r, .head hq hqr, hr⟩
    · exact ⟨q, .single hq, hr⟩

end Wait

end Monitor
