import Mathlib.Tactic

/-!
# A Kalman filter in two dimensions

The covariance of an offset and a gain. The time update moves the offset by `d` times the gain and
adds noise to both, the measurement update corrects both by a measurement of the offset. Over any
ordered field.

* `PosDef.predict`, `PosDef.update`: the covariance stays positive definite;
* `PosDef.gain1_pos`, `PosDef.gain1_lt_one`: a measurement is followed part of the way;
* `rescale_predict`, `rescale_update`: the filter does not depend on the unit of the gain.
-/

/-- The matrix `{ { p1, p2 }, { p2, p3 } }`. -/
@[ext] structure Covariance (K : Type*) where
  p1 : K
  p2 : K
  p3 : K

namespace Covariance

variable {K : Type*} [Field K]

/-- The determinant. -/
def det (P : Covariance K) : K := P.p1 * P.p3 - P.p2 ^ 2

/-- The time update over the time `d`, with the noise `q1` of the offset and `q3` of the gain. -/
def predict (P : Covariance K) (d q1 q3 : K) : Covariance K :=
  ⟨P.p1 + (2 * d * P.p2 + d * d * P.p3 + q1), P.p2 + d * P.p3, P.p3 + q3⟩

/-- The weight of a measurement with noise `r` in the offset. -/
def gain1 (P : Covariance K) (r : K) : K := P.p1 / (r + P.p1)

/-- The weight of a measurement with noise `r` in the gain. -/
def gain2 (P : Covariance K) (r : K) : K := P.p2 / (r + P.p1)

/-- The measurement update. -/
def update (P : Covariance K) (r : K) : Covariance K :=
  ⟨r * P.gain1 r, r * P.gain2 r, P.p3 - P.p2 * P.gain2 r⟩

/-- The time update of the determinant. -/
theorem det_predict (P : Covariance K) (d q1 q3 : K) :
    (P.predict d q1 q3).det
      = P.det + q1 * (P.p3 + q3) + q3 * (P.p1 + 2 * d * P.p2 + d * d * P.p3) := by
  simp only [det, predict]
  ring

/-- The measurement update of the determinant. -/
theorem det_update (P : Covariance K) {r : K} (hr : r + P.p1 ≠ 0) :
    (P.update r).det = r / (r + P.p1) * P.det := by
  simp only [det, update, gain1, gain2]
  field_simp
  ring

/-! ### Positive definite matrices -/

section Order

variable [LinearOrder K] [IsStrictOrderedRing K]

/-- The matrix is positive definite. -/
structure PosDef (P : Covariance K) : Prop where
  p1_pos : 0 < P.p1
  p3_pos : 0 < P.p3
  det_pos : 0 < P.det

variable {P : Covariance K} {d q1 q3 r : K}

/-- The variance of the offset after the time `d`. -/
theorem PosDef.variance_pos (h : P.PosDef) (d : K) :
    0 < P.p1 + 2 * d * P.p2 + d * d * P.p3 := by
  have hsq : P.p3 * (P.p1 + 2 * d * P.p2 + d * d * P.p3) = P.det + (P.p2 + d * P.p3) ^ 2 := by
    rw [det]
    ring
  have hpos : 0 < P.p3 * (P.p1 + 2 * d * P.p2 + d * d * P.p3) := by
    rw [hsq]
    exact add_pos_of_pos_of_nonneg h.det_pos (sq_nonneg _)
  exact pos_of_mul_pos_right hpos h.p3_pos.le

theorem PosDef.predict (h : P.PosDef) (d : K) (h1 : 0 < q1) (h3 : 0 < q3) :
    (P.predict d q1 q3).PosDef := by
  have hv := h.variance_pos d
  refine ⟨?_, add_pos h.p3_pos h3, ?_⟩
  · have hp1 : (P.predict d q1 q3).p1 = P.p1 + 2 * d * P.p2 + d * d * P.p3 + q1 := by
      rw [Covariance.predict]
      ring
    rw [hp1]
    exact add_pos hv h1
  · rw [det_predict]
    exact add_pos (add_pos h.det_pos (mul_pos h1 (add_pos h.p3_pos h3))) (mul_pos h3 hv)

/-- The divisor of the gains. -/
theorem PosDef.divisor_pos (h : P.PosDef) (hr : 0 < r) : 0 < r + P.p1 := add_pos hr h.p1_pos

theorem PosDef.gain1_pos (h : P.PosDef) (hr : 0 < r) : 0 < P.gain1 r :=
  div_pos h.p1_pos (h.divisor_pos hr)

theorem PosDef.gain1_lt_one (h : P.PosDef) (hr : 0 < r) : P.gain1 r < 1 := by
  rw [gain1, div_lt_one (h.divisor_pos hr)]
  exact lt_add_of_pos_left _ hr

theorem PosDef.update (h : P.PosDef) (hr : 0 < r) : (P.update r).PosDef := by
  have hs := h.divisor_pos hr
  refine ⟨mul_pos hr (h.gain1_pos hr), ?_, ?_⟩
  · have hp3 : (P.update r).p3 = (r * P.p3 + P.det) / (r + P.p1) := by
      simp only [Covariance.update, gain2, det]
      field_simp
      ring
    rw [hp3]
    exact div_pos (add_pos (mul_pos hr h.p3_pos) h.det_pos) hs
  · rw [det_update P hs.ne']
    exact mul_pos (div_pos hr hs) h.det_pos

end Order

/-! ### Units -/

/-- The covariance in a unit of time that is `s` times smaller: the gain is divided by `s`. -/
def rescale (s : K) (P : Covariance K) : Covariance K := ⟨P.p1, P.p2 / s, P.p3 / s ^ 2⟩

variable {s : K} (P : Covariance K) (r : K)

theorem rescale_predict (hs : s ≠ 0) (d q1 q3 : K) :
    (P.rescale s).predict (s * d) q1 (q3 / s ^ 2) = (P.predict d q1 q3).rescale s := by
  ext
  · simp only [rescale, predict]
    field_simp
  · simp only [rescale, predict]
    field_simp
  · simp only [rescale, predict]
    field_simp

theorem gain2_rescale : (P.rescale s).gain2 r = P.gain2 r / s := by
  simp only [gain2, rescale]
  exact div_right_comm ..

theorem rescale_update : (P.rescale s).update r = (P.update r).rescale s := by
  ext
  · rfl
  · simp only [update, gain2_rescale]
    exact (mul_div_assoc ..).symm
  · simp only [update, gain2_rescale]
    simp only [rescale]
    rw [sub_div, div_mul_div_comm, ← sq]

end Covariance
