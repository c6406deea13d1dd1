import Mathlib.Data.Bool.Count
import MessageTransport.Clock.TimestampSync

/-!
# Outliers

A budget decides whether a measurement that fails the deviation test is rejected: every rejection
takes two from it, every measurement that is used gives one back, up to `40`, and below `0` nothing
is rejected. What the deviation test says is left open.

* `rejections_bounded`: over all measurements, the budget stays within its limits, the first `100`
  measurements are used, and in every window the rejections are bounded by the measurements used;
* `decisions_conversions`: the decisions of `convertNativeToLocal` are of this kind.
-/

namespace MessageTransport.Clock

/-- A measurement, with what the deviation test says of it. -/
structure Measurement where
  inlier : Bool
  native : ℚ
  local_ : Timestamp

namespace TimestampSync

variable (cast : ℚ → ℤ)

/-- The state after a measurement. -/
def measure (s : TimestampSync) (m : Measurement) : TimestampSync :=
  (s.convertTested cast m.inlier m.native m.local_).2

/-- Which of the measurements are used. -/
def decisions : TimestampSync → List Measurement → List Bool
  | _, [] => []
  | s, m :: ms => s.accepts m.inlier :: decisions (s.measure cast m) ms

/-- The limits of the budget. -/
def Budgeted (s : TimestampSync) : Prop := -100 ≤ s.m_outlierBudget ∧ s.m_outlierBudget ≤ 40

variable {s : TimestampSync} {m : Measurement}

/-- A measurement that is used. -/
theorem measure_accepted (h : s.accepts m.inlier = true) :
    (s.measure cast m).m_outlierBudget = min 40 (s.m_outlierBudget + 1) := by
  rw [measure, convertTested_budget, h, if_pos rfl]

/-- Nothing is rejected below `0`. -/
theorem measure_rejected (h : s.accepts m.inlier = false) :
    0 ≤ s.m_outlierBudget ∧ (s.measure cast m).m_outlierBudget = s.m_outlierBudget - 2 := by
  refine ⟨?_, by rw [measure, convertTested_budget, h, if_neg (by simp)]⟩
  rw [accepts, Bool.or_eq_false_iff] at h
  simpa using h.2

theorem Budgeted.measure (hs : s.Budgeted) (m : Measurement) : (s.measure cast m).Budgeted := by
  obtain ⟨hl, hu⟩ := hs
  cases h : s.accepts m.inlier with
  | true =>
    rw [Budgeted, measure_accepted cast h]
    omega
  | false =>
    obtain ⟨h0, hb⟩ := measure_rejected cast h
    rw [Budgeted, hb]
    omega

/-- As long as the budget stays below `0`, all measurements are used. -/
theorem decisions_take (n : ℕ) (hn : s.m_outlierBudget + n ≤ 0) (ms : List Measurement) :
    ∀ b ∈ (decisions cast s ms).take n, b = true := by
  induction n generalizing s ms with
  | zero => simp
  | succ n ih =>
    cases ms with
    | nil => simp [decisions]
    | cons m ms =>
      have h : s.accepts m.inlier = true := by
        rw [accepts, Bool.or_eq_true_iff]
        exact .inr (decide_eq_true (by omega))
      have hb := measure_accepted cast h
      rw [decisions, List.take_succ_cons, List.forall_mem_cons]
      exact ⟨h, ih (by omega) ms⟩

/-- **Amortization.** The budget pays for the rejections, and a rejection leaves at least `-2`. -/
theorem rejected_le (s : TimestampSync) (ms : List Measurement) :
    (decisions cast s ms).count false = 0 ∨
      2 * ((decisions cast s ms).count false : ℤ)
        ≤ s.m_outlierBudget + (decisions cast s ms).count true + 2 := by
  induction ms generalizing s with
  | nil => exact .inl rfl
  | cons m ms ih =>
    have hrest := ih (s.measure cast m)
    rw [decisions]
    cases h : s.accepts m.inlier with
    | true =>
      have hb := measure_accepted cast h
      simp only [List.count_cons_self, List.count_cons_of_ne (show true ≠ false by decide)]
      omega
    | false =>
      obtain ⟨h0, hb⟩ := measure_rejected cast h
      simp only [List.count_cons_self, List.count_cons_of_ne (show false ≠ true by decide)]
      omega

theorem length_decisions (s : TimestampSync) (ms : List Measurement) :
    (decisions cast s ms).length = ms.length := by
  induction ms generalizing s with
  | nil => rfl
  | cons m ms ih => rw [decisions, List.length_cons, List.length_cons, ih]

/-- In a state within the limits, the rejections of the next measurements are bounded. -/
theorem Budgeted.rejected_le (hs : s.Budgeted) (ms : List Measurement) :
    2 * (decisions cast s ms).count false ≤ (decisions cast s ms).count true + 42 := by
  have h := TimestampSync.rejected_le cast s ms
  have hu := hs.2
  omega

/-- More than `21` measurements are not all rejected. -/
theorem Budgeted.exists_accepted (hs : s.Budgeted) {ms : List Measurement}
    (hms : 21 < ms.length) : true ∈ decisions cast s ms := by
  have hle := hs.rejected_le cast ms
  have hlen := length_decisions cast s ms
  rw [← List.count_true_add_count_false] at hlen
  rw [← List.count_pos_iff]
  omega

/-- **Rejections are bounded.** For all measurements, whatever the deviation test says of them: the
budget stays between `-100` and `40`, the first `100` measurements are used, and after any number of
them, in every window, twice the number of rejections is at most the number of measurements used
plus `42`; so among any `22` in a row, one is used. -/
theorem rejections_bounded (cast : ℚ → ℤ) (memory : TimestampSync) (f l : ℚ)
    (ms : List Measurement) :
    Run.Always (measure cast) Budgeted (construct memory f l) ms ∧
      (∀ b ∈ (decisions cast (construct memory f l) ms).take 100, b = true) ∧
      ∀ window : List Measurement,
        let used := decisions cast (Run.exec (measure cast) (construct memory f l) ms) window
        2 * used.count false ≤ used.count true + 42 ∧ (21 < window.length → true ∈ used) := by
  have hinit : (construct memory f l).Budgeted := by
    rw [Budgeted, show (construct memory f l).m_outlierBudget = -100 from rfl]
    decide
  have hall : Run.Always (measure cast) Budgeted (construct memory f l) ms :=
    Run.always_of_inv (measure cast) Budgeted (fun _ m hs => hs.measure cast m) hinit
  refine ⟨hall, decisions_take cast 100 le_rfl ms, fun window => ?_⟩
  exact ⟨hall.exec.rejected_le cast window, hall.exec.exists_accepted cast⟩

/-- The measurements of a run of `convertNativeToLocal`, with what the deviation test says. -/
def tests (cast : ℚ → ℤ) : TimestampSync → List (ℚ × Timestamp) → List Measurement
  | _, [] => []
  | s, (native, local_) :: inputs =>
    ⟨(s.predicted cast native local_).isInlier local_, native, local_⟩ ::
      tests cast (s.convertNativeToLocal cast native local_).2 inputs

theorem decisions_conversions (s : TimestampSync) (inputs : List (ℚ × Timestamp)) :
    (s.conversions cast inputs).map Prod.fst = decisions cast s (s.tests cast inputs) := by
  induction inputs generalizing s with
  | nil => rfl
  | cons i inputs ih =>
    obtain ⟨native, local_⟩ := i
    rw [conversions, List.map_cons, ih, tests, decisions]
    rfl

end TimestampSync

end MessageTransport.Clock
