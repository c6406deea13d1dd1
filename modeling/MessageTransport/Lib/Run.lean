import Mathlib.Tactic

/-!
# Runs

A system that takes step after step: a step function, fed with a list of actions. A condition on
single steps (a state and the action taken in it) is set against a property of the states that are
reached.

* `always_of_along`: what every permitted step preserves holds in every state reached;
* `along_of_along`: what every permitted step does, every step of the run does;
* `always_of_inv`, `along_of_inv`: the same for steps that are all permitted;
* `along_iff_forall`: a condition on the actions alone is one on every action of the list;
* `along_congr`, `along_congr_of_inv`, `along_congr_of_along`: conditions that agree step by step
  agree on runs;
* `always_iff_along`: a property of all states of a run is the same as a condition on all its
  steps, if the condition is what one step needs to keep the property;
* `simulation`: a system that can follow every permitted step of another can follow its runs;
* `exec_comm`: what commutes with steps commutes with runs;
* `refines_trace`: if the steps with a label are those of another system, a run leads to where the
  labels lead;
* `trace_pending`: what is begun is pending until it is done, in the order in which it was begun;
* `exists_final`: a scheduler ends if all that it does makes a measure smaller.
-/

namespace Run

variable {S A : Type*} (step : S → A → S)

/-- The state after the actions of a list. -/
def exec (s : S) (as : List A) : S := as.foldl step s

/-- Every action of the list meets `P` in the state in which it is taken. -/
def Along (P : S → A → Prop) : S → List A → Prop
  | _, [] => True
  | s, a :: as => P s a ∧ Along P (step s a) as

/-- Every state of the run, the first and the last included, has the property `Q`. -/
def Always (Q : S → Prop) : S → List A → Prop
  | s, [] => Q s
  | s, a :: as => Q s ∧ Always Q (step s a) as

variable {step} {P P' : S → A → Prop} {Q Inv : S → Prop} {R : A → Prop}

theorem exec_append (s : S) (as bs : List A) :
    exec step s (as ++ bs) = exec step (exec step s as) bs := List.foldl_append ..

theorem along_append {s : S} {as bs : List A} :
    Along step P s (as ++ bs) ↔ Along step P s as ∧ Along step P (exec step s as) bs := by
  induction as generalizing s with
  | nil => exact (and_iff_right trivial).symm
  | cons a as ih => exact (and_congr_right fun _ => ih).trans and_assoc.symm

theorem along_and {s : S} {as : List A} :
    Along step (fun s a => P s a ∧ P' s a) s as ↔ Along step P s as ∧ Along step P' s as := by
  induction as generalizing s with
  | nil => exact (and_iff_left trivial).symm
  | cons a as ih => exact (and_congr_right fun _ => ih).trans and_and_and_comm

instance [∀ s a, Decidable (P s a)] : ∀ (s : S) (as : List A), Decidable (Along step P s as)
  | _, [] => inferInstanceAs (Decidable True)
  | s, a :: as =>
    have : Decidable (Along step P (step s a) as) := instDecidableAlong (step s a) as
    inferInstanceAs (Decidable (P s a ∧ Along step P (step s a) as))

theorem Along.mono (hP : ∀ s a, P s a → P' s a) {s : S} {as : List A} (h : Along step P s as) :
    Along step P' s as := by
  induction as generalizing s with
  | nil => trivial
  | cons a as ih => exact ⟨hP s a h.1, ih h.2⟩

theorem Always.mono (hQ : ∀ s, Inv s → Q s) {s : S} {as : List A} (h : Always step Inv s as) :
    Always step Q s as := by
  induction as generalizing s with
  | nil => exact hQ s h
  | cons a as ih => exact ⟨hQ s h.1, ih h.2⟩

theorem Always.head {s : S} {as : List A} (h : Always step Q s as) : Q s := by
  cases as with
  | nil => exact h
  | cons a as => exact h.1

theorem Always.exec {s : S} {as : List A} (h : Always step Q s as) : Q (exec step s as) := by
  induction as generalizing s with
  | nil => exact h
  | cons a as ih => exact ih h.2

variable (step)

theorem always_of_along (Inv : S → Prop) (hstep : ∀ s a, R a → Inv s → P s a → Inv (step s a))
    {s : S} {as : List A} (hs : Inv s) (hok : ∀ a ∈ as, R a) (h : Along step P s as) :
    Always step Inv s as := by
  induction as generalizing s with
  | nil => exact hs
  | cons a as ih =>
    obtain ⟨hp, h⟩ := h
    exact ⟨hs, ih (hstep s a (hok a (by simp)) hs hp) (fun b hb => hok b (by simp [hb])) h⟩

/-- What every permitted step does in a state with the invariant, every step of the run does. -/
theorem along_of_along (Inv : S → Prop) (hstep : ∀ s a, R a → Inv s → P s a → Inv (step s a))
    (hP : ∀ s a, R a → Inv s → P s a → P' s a) {s : S} {as : List A} (hs : Inv s)
    (hok : ∀ a ∈ as, R a) (h : Along step P s as) : Along step P' s as := by
  induction as generalizing s with
  | nil => trivial
  | cons a as ih =>
    obtain ⟨hp, h⟩ := h
    exact ⟨hP s a (hok a (by simp)) hs hp,
      ih (hstep s a (hok a (by simp)) hs hp) (fun b hb => hok b (by simp [hb])) h⟩

/-- Conditions that agree on permitted steps agree on runs of such steps. -/
theorem along_congr_of_along {Q Q' : S → A → Prop} (Inv : S → Prop)
    (hstep : ∀ s a, R a → Inv s → P s a → Inv (step s a))
    (hQ : ∀ s a, R a → Inv s → P s a → (Q s a ↔ Q' s a)) {s : S} {as : List A} (hs : Inv s)
    (hok : ∀ a ∈ as, R a) (h : Along step P s as) : Along step Q s as ↔ Along step Q' s as := by
  induction as generalizing s with
  | nil => exact Iff.rfl
  | cons a as ih =>
    obtain ⟨hp, h⟩ := h
    have ha : R a := hok a (by simp)
    exact and_congr (hQ s a ha hs hp)
      (ih (hstep s a ha hs hp) (fun b hb => hok b (by simp [hb])) h)

/-- **Commuting.** What commutes with every permitted step commutes with runs of such steps. -/
theorem exec_comm (f : S → S) (Inv : S → Prop)
    (hstep : ∀ s a, R a → Inv s → P s a → Inv (step s a))
    (hcomm : ∀ s a, R a → Inv s → P s a → step (f s) a = f (step s a)) {s : S} {as : List A}
    (hs : Inv s) (hok : ∀ a ∈ as, R a) (h : Along step P s as) :
    exec step (f s) as = f (exec step s as) := by
  induction as generalizing s with
  | nil => rfl
  | cons a as ih =>
    obtain ⟨hp, h⟩ := h
    have ha : R a := hok a (by simp)
    show exec step (step (f s) a) as = f (exec step (step s a) as)
    rw [hcomm s a ha hs hp]
    exact ih (hstep s a ha hs hp) (fun b hb => hok b (by simp [hb])) h

/-- What every step preserves holds in every state reached. -/
theorem always_of_inv (Inv : S → Prop) (hstep : ∀ s a, Inv s → Inv (step s a)) {s : S}
    {as : List A} (hs : Inv s) : Always step Inv s as := by
  induction as generalizing s with
  | nil => exact hs
  | cons a as ih => exact ⟨hs, ih (hstep s a hs)⟩

/-- What every step does in a state with the invariant, all steps of a run do. -/
theorem along_of_inv (Inv : S → Prop) (hstep : ∀ s a, Inv s → P s a ∧ Inv (step s a)) {s : S}
    {as : List A} (hs : Inv s) : Along step P s as := by
  induction as generalizing s with
  | nil => trivial
  | cons a as ih => exact ⟨(hstep s a hs).1, ih (hstep s a hs).2⟩

/-- Conditions that say the same of every step say the same of every run. -/
theorem along_congr (h : ∀ s a, P s a ↔ P' s a) {s : S} {as : List A} :
    Along step P s as ↔ Along step P' s as := by
  induction as generalizing s with
  | nil => exact Iff.rfl
  | cons a as ih => exact and_congr (h s a) ih

/-- The same for conditions that agree in states with the invariant. -/
theorem along_congr_of_inv (Inv : S → Prop)
    (h : ∀ s a, Inv s → (P s a ↔ P' s a) ∧ Inv (step s a)) {s : S} {as : List A} (hs : Inv s) :
    Along step P s as ↔ Along step P' s as := by
  induction as generalizing s with
  | nil => exact Iff.rfl
  | cons a as ih => exact and_congr (h s a hs).1 (ih (h s a hs).2)

/-- A condition on the actions alone. -/
theorem along_iff_forall {s : S} {as : List A} :
    Along step (fun _ a => R a) s as ↔ ∀ a ∈ as, R a := by
  induction as generalizing s with
  | nil => simp [Along]
  | cons a as ih => rw [List.forall_mem_cons, ← ih (s := step s a), Along]

/-- **Run lemma.** If the invariant gives the property, a step that meets the condition keeps the
invariant, and a step after which the property holds met the condition, then the property holds
all along a run exactly when every step meets the condition. -/
theorem always_iff_along (Inv : S → Prop) (hQ : ∀ s, Inv s → Q s)
    (hstep : ∀ s a, R a → Inv s → P s a → Inv (step s a))
    (hconv : ∀ s a, R a → Inv s → Q (step s a) → P s a) {s : S} {as : List A} (hs : Inv s)
    (hok : ∀ a ∈ as, R a) : Always step Q s as ↔ Along step P s as := by
  refine ⟨fun h => ?_, fun h => (always_of_along step Inv hstep hs hok h).mono hQ⟩
  induction as generalizing s with
  | nil => trivial
  | cons a as ih =>
    have ha : R a := hok a (by simp)
    have hp := hconv s a ha hs h.2.head
    exact ⟨hp, ih (hstep s a ha hs hp) (fun b hb => hok b (by simp [hb])) h.2⟩

/-- **Simulation.** If a system can follow every permitted step of another, by steps of its own
that lead to related states, it can follow every run of permitted steps. -/
theorem simulation {T B : Type*} {stepT : T → B → T} {Q : T → B → Prop} (Rel : S → T → Prop)
    (hstep : ∀ s t b, Rel s t → Q t b → ∃ as, Rel (exec step s as) (stepT t b)) {s : S} {t : T}
    {bs : List B} (hs : Rel s t) (h : Along stepT Q t bs) :
    ∃ as, Rel (exec step s as) (exec stepT t bs) := by
  induction bs generalizing s t with
  | nil => exact ⟨[], hs⟩
  | cons b bs ih =>
    obtain ⟨hq, h⟩ := h
    obtain ⟨as, has⟩ := hstep s t b hs hq
    obtain ⟨as', has'⟩ := ih has h
    exact ⟨as ++ as', by rwa [exec_append]⟩

/-! ### Labels -/

section Trace

variable {B C : Type*} (label : S → A → Option B)

/-- The labels of the steps of a run, in their order. -/
def trace : S → List A → List B
  | _, [] => []
  | s, a :: as => (label s a).toList ++ trace (step s a) as

/-- **Refinement.** If every permitted step with a label is a step of another system, and every one
without a label is none, a run leads to where the labels of its steps lead. -/
theorem refines_trace {T : Type*} {stepT : T → B → T} (Rel : S → T → Prop)
    (hstep : ∀ s t a, Rel s t → P s a → Rel (step s a) ((label s a).elim t (stepT t))) {s : S}
    {t : T} {as : List A} (hs : Rel s t) (h : Along step P s as) :
    Rel (exec step s as) (exec stepT t (trace step label s as)) := by
  induction as generalizing s t with
  | nil => exact hs
  | cons a as ih =>
    have hone : exec stepT t (label s a).toList = (label s a).elim t (stepT t) := by
      cases label s a <;> rfl
    rw [trace, exec_append, hone]
    exact ih (hstep s t a hs h.1) h.2

theorem filterMap_trace (f : B → Option C) (s : S) (as : List A) :
    (trace step label s as).filterMap f = trace step (fun s a => (label s a).bind f) s as := by
  induction as generalizing s with
  | nil => rfl
  | cons a as ih =>
    rw [trace, trace, List.filterMap_append, ih]
    cases hl : label s a with
    | none => rfl
    | some b => cases hf : f b <;> simp [hf]

/-- **Order.** What is begun is pending until it is done. If every permitted step keeps this account,
up to a preorder of lists that is compatible with `++`, runs do. -/
theorem trace_pending (Inv : S → Prop) (begun done : S → A → Option B) (pending : S → List B)
    (Le : List B → List B → Prop) (hrefl : ∀ l, Le l l) (htrans : ∀ k l m, Le k l → Le l m → Le k m)
    (happend : ∀ j k l m, Le j k → Le l m → Le (j ++ l) (k ++ m))
    (hstep : ∀ s a, Inv s →
      Le ((done s a).toList ++ pending (step s a)) (pending s ++ (begun s a).toList))
    (hinv : ∀ s a, Inv s → P s a → Inv (step s a)) {s : S} {as : List A} (hs : Inv s)
    (h : Along step P s as) :
    Le (trace step done s as ++ pending (exec step s as)) (pending s ++ trace step begun s as) := by
  induction as generalizing s with
  | nil =>
    rw [trace, trace, List.nil_append, List.append_nil]
    exact hrefl _
  | cons a as ih =>
    have hrest := happend _ _ _ _ (hrefl (done s a).toList) (ih (hinv s a hs h.1) h.2)
    have hfirst := happend _ _ _ _ (hstep s a hs) (hrefl (trace step begun (step s a) as))
    rw [List.append_assoc, List.append_assoc] at hfirst
    rw [← List.append_assoc] at hrest
    exact htrans _ _ _ hrest hfirst

end Trace

/-! ### Schedules -/

/-- The actions that a scheduler takes in `n` steps. -/
def schedule (pick : S → A) : ℕ → S → List A
  | 0, _ => []
  | n + 1, s => pick s :: schedule pick n (step s (pick s))

/-- **Termination.** If every permitted action that the scheduler takes outside of final states makes
a measure smaller, the scheduler gets to a final state, or to an action that is not permitted, within
as many steps as the measure says. -/
theorem exists_final (Inv Final : S → Prop) (pick : S → A) (μ : S → ℕ)
    (hstep : ∀ s, Inv s → ¬ Final s → P s (pick s) →
      Inv (step s (pick s)) ∧ μ (step s (pick s)) < μ s) {s : S} (hs : Inv s) :
    ∃ n ≤ μ s, Along step P s (schedule step pick n s) ∧
      (Final (exec step s (schedule step pick n s)) ∨
        ¬ P (exec step s (schedule step pick n s)) (pick (exec step s (schedule step pick n s)))) := by
  induction hn : μ s using Nat.strong_induction_on generalizing s with
  | _ k ih =>
    by_cases hfin : Final s
    · exact ⟨0, Nat.zero_le _, trivial, .inl hfin⟩
    · by_cases hp : P s (pick s)
      · obtain ⟨hinv, hlt⟩ := hstep s hs hfin hp
        obtain ⟨n, hle, halong, hend⟩ := ih _ (hn ▸ hlt) hinv rfl
        exact ⟨n + 1, by omega, ⟨hp, halong⟩, hend⟩
      · exact ⟨0, Nat.zero_le _, trivial, .inr hp⟩

end Run
