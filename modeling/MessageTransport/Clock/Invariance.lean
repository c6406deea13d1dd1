import MessageTransport.Clock.TimestampSync

/-!
# Changing the clocks

Another native clock that ticks `s` times faster and was started at another time, and a local clock
that is `c` ahead. The filter commutes with the change of the clocks, whatever the cast to `long
long` does: both runs cast the same numbers.

`conversions_rescale`: with the frequency changed accordingly, the filter accepts the same
measurements and returns the same times, but for `c`.
-/

namespace MessageTransport.Clock

namespace TimestampSync

variable (s d : ℚ) (c : Timestamp)

/-- The same filter, for a native clock that shows `s * t + d` and a local clock that shows `t + c`
where they showed `t`. -/
def rescale (x : TimestampSync) : TimestampSync :=
  { x with
    m_lastNative := s * x.m_lastNative + d
    m_fGainNoise := x.m_fGainNoise / s ^ 2
    m_estLocal := x.m_estLocal + c
    m_estGain := x.m_estGain / s
    m_p2 := x.m_p2 / s
    m_p3 := x.m_p3 / s ^ 2 }

variable {s d c} (cast : ℚ → ℤ) (x y : TimestampSync) (native : ℚ) (local_ : Timestamp)
  (inlier : Bool)

/-! ### The steps of a conversion -/

theorem deltaL_rescale : (x.rescale s d c).deltaL (local_ + c) = x.deltaL local_ := by
  rw [deltaL, deltaL, show (x.rescale s d c).m_estLocal = x.m_estLocal + c from rfl,
    add_sub_add_right_eq_sub]

theorem isInlier_rescale : (x.rescale s d c).isInlier (local_ + c) = x.isInlier local_ := by
  rw [isInlier, isInlier, deviationSquare, deltaL_rescale]
  rfl

theorem timeUpdate_rescale (hs : s ≠ 0) :
    (x.rescale s d c).timeUpdate cast (s * native + d)
      = (x.timeUpdate cast native).rescale s d c := by
  have hdelta : s * native + d - (s * x.m_lastNative + d) = s * (native - x.m_lastNative) := by ring
  have hmove : s * (native - x.m_lastNative) * (x.m_estGain / s)
      = (native - x.m_lastNative) * x.m_estGain := by field_simp
  have hcov := Covariance.rescale_predict x.covariance hs (native - x.m_lastNative) x.m_fLocalNoise
    x.m_fGainNoise
  simp only [Covariance.rescale, Covariance.predict, covariance, Covariance.mk.injEq] at hcov
  obtain ⟨hp1, hp2, hp3⟩ := hcov
  simp only [timeUpdate, rescale, hdelta, hmove, hp1, hp2, hp3, add_right_comm _ _ c]

theorem measurementUpdate_rescale :
    (x.rescale s d c).measurementUpdate cast (local_ + c)
      = (x.measurementUpdate cast local_).rescale s d c := by
  have hcov := Covariance.rescale_update (s := s) x.covariance x.m_fMeasurementNoise
  simp only [Covariance.rescale, Covariance.update, Covariance.gain1, Covariance.gain2, covariance,
    Covariance.mk.injEq, true_and] at hcov
  obtain ⟨hp2, hp3⟩ := hcov
  have hgain : x.m_estGain / s + x.m_p2 / s / (x.m_fMeasurementNoise + x.m_p1) * x.deltaL local_
      = (x.m_estGain + x.m_p2 / (x.m_fMeasurementNoise + x.m_p1) * x.deltaL local_) / s := by
    rw [add_div, div_right_comm, div_mul_eq_mul_div]
  simp only [measurementUpdate, deviationSquare, deltaL_rescale]
  simp only [rescale, hp2, hp3, hgain, add_right_comm _ _ c]
  rfl

/-- Once both filters have been initialized, `y` is `x` after the change of the clocks. -/
def Rescaled (s d : ℚ) (c : Timestamp) (x y : TimestampSync) : Prop :=
  ∀ native local_,
    y.initialise (s * native + d) (local_ + c) = (x.initialise native local_).rescale s d c

theorem rescaled_rescale : Rescaled s d c x (x.rescale s d c) := by
  intro native local_
  rw [initialise, initialise]
  by_cases h : x.m_events = 0
  · rw [if_pos h, if_pos (show (x.rescale s d c).m_events = 0 from h)]
    rfl
  · rw [if_neg h, if_neg (show ¬ (x.rescale s d c).m_events = 0 from h)]

/-- A new filter, whatever the memory held. -/
theorem rescaled_construct (memory memory' : TimestampSync) (f l : ℚ) :
    Rescaled s d c (construct memory f l) (construct memory' (s * f) l) := by
  intro native local_
  have hgain : l / (s * f) = l / f / s := by rw [div_div, mul_comm f s]
  have hnoise : (g_fGainNoise * (l / f / s)) ^ 2 = (g_fGainNoise * (l / f)) ^ 2 / s ^ 2 := by
    rw [← div_pow, mul_div_assoc]
  have hp3 : (10 * (l / f / s)) ^ 2 = (10 * (l / f)) ^ 2 / s ^ 2 := by rw [← div_pow, mul_div_assoc]
  simp only [construct, setFrequency, initialise, rescale, if_true, hgain, hnoise, hp3, zero_div]

variable {x y}

theorem Rescaled.predicted (h : Rescaled s d c x y) (hs : s ≠ 0) :
    y.predicted cast (s * native + d) (local_ + c)
      = (x.predicted cast native local_).rescale s d c := by
  rw [TimestampSync.predicted, h native local_, timeUpdate_rescale _ _ _ hs]
  rfl

/-- **One conversion.** -/
theorem Rescaled.convertTested (h : Rescaled s d c x y) (hs : s ≠ 0) :
    y.accepts inlier = x.accepts inlier ∧
      y.convertTested cast inlier (s * native + d) (local_ + c)
        = ((x.convertTested cast inlier native local_).1 + c,
          (x.convertTested cast inlier native local_).2.rescale s d c) := by
  have hp := h.predicted cast native local_ hs
  have haccepts : y.accepts inlier = x.accepts inlier := by
    rw [← y.predicted_accepts cast (s * native + d) (local_ + c), hp,
      ← x.predicted_accepts cast native local_]
    rfl
  refine ⟨haccepts, ?_⟩
  rw [TimestampSync.convertTested, TimestampSync.convertTested, hp, measurementUpdate_rescale]
  cases h' : (x.predicted cast native local_).accepts inlier with
  | true =>
    have h'' : ((x.predicted cast native local_).rescale s d c).accepts inlier = true := h'
    simp only [h'', if_true]
    rfl
  | false =>
    have h'' : ((x.predicted cast native local_).rescale s d c).accepts inlier = false := h'
    simp only [h'', Bool.false_eq_true, if_false]
    rfl

theorem Rescaled.conversions (h : Rescaled s d c x y) (hs : s ≠ 0)
    (inputs : List (ℚ × Timestamp)) :
    y.conversions cast (inputs.map fun i => (s * i.1 + d, i.2 + c))
      = (x.conversions cast inputs).map fun o => (o.1, c + o.2) := by
  induction inputs generalizing x y with
  | nil => rfl
  | cons i inputs ih =>
    obtain ⟨native, local_⟩ := i
    have hinlier : (y.predicted cast (s * native + d) (local_ + c)).isInlier (local_ + c)
        = (x.predicted cast native local_).isInlier local_ := by
      rw [h.predicted cast native local_ hs, isInlier_rescale]
    obtain ⟨haccepts, hconvert⟩ := h.convertTested cast native local_
      ((x.predicted cast native local_).isInlier local_) hs
    have hnext := ih (rescaled_rescale (s := s) (d := d) (c := c)
      (x.convertNativeToLocal cast native local_).2)
    simp only [List.map_cons, TimestampSync.conversions, convertNativeToLocal, hinlier, haccepts,
      hconvert, add_comm c]
    rw [convertNativeToLocal] at hnext
    rw [hnext]
    simp only [add_comm c]

/-- **The filter depends on differences of clocks only.** Fed with a native clock that is `s` times
faster and was started at another time, and with a local clock that is `c` ahead, a filter built
with the frequency `s * f` accepts the same measurements as the one built with `f`, and returns `c`
plus what that one returns. -/
theorem conversions_rescale (cast : ℚ → ℤ) (memory memory' : TimestampSync) {s : ℚ} (hs : 0 < s)
    (d : ℚ) (c : Timestamp) (f l : ℚ) (inputs : List (ℚ × Timestamp)) :
    (construct memory' (s * f) l).conversions cast (inputs.map fun i => (s * i.1 + d, i.2 + c))
      = ((construct memory f l).conversions cast inputs).map fun o => (o.1, c + o.2) :=
  (rescaled_construct memory memory' f l).conversions cast hs.ne' inputs

theorem conversions_rescale_two :
    (0 : ℚ) < 2 ∧
      (construct zeroed (2 * 1000) 1000).conversions truncate
          ([(0, 5), (100, 107), (200, 9000)].map fun i => (2 * i.1 + 50, i.2 + 7))
        = ((construct zeroed 1000 1000).conversions truncate
          [(0, 5), (100, 107), (200, 9000)]).map fun o => (o.1, 7 + o.2) :=
  ⟨two_pos, conversions_rescale truncate zeroed zeroed two_pos 50 7 1000 1000 _⟩

end TimestampSync

end MessageTransport.Clock
