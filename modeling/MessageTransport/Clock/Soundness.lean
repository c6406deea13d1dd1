import MessageTransport.Clock.TimestampSync

/-!
# Soundness of the clock filter

A run of conversions and changes of the frequencies. The covariance stays positive definite, so that
a measurement is followed part of the way: its weight is between `0` and `1`.

`filter_sound`: whatever the clocks show, an accepted measurement moves the estimate from its
predicted value toward the local time and not beyond it, and a rejected one does not move it.
-/

namespace MessageTransport.Clock

/-- A frequency is not `0`. -/
abbrev Frequency := { f : ℚ // f ≠ 0 }

variable {k : ℚ} {d : ℤ}

/-- A part of a number, truncated, lies between `0` and the number. -/
theorem truncate_mul_mem (h0 : 0 < k) (h1 : k < 1) (d : ℤ) :
    truncate (k * d) ∈ Set.uIcc 0 d := by
  rw [truncate]
  rcases le_or_gt 0 d with hd | hd
  · have hd' : (0 : ℚ) ≤ d := by exact_mod_cast hd
    have hle : k * d ≤ d := mul_le_of_le_one_left hd' h1.le
    rw [if_pos (mul_nonneg h0.le hd'), Set.uIcc_of_le hd]
    exact ⟨Int.floor_nonneg.2 (mul_nonneg h0.le hd'), Int.floor_le_iff.2 (by linarith)⟩
  · have hd' : (d : ℚ) < 0 := by exact_mod_cast hd
    have hneg : k * d < 0 := mul_neg_of_pos_of_neg h0 hd'
    have hle : (d : ℚ) ≤ k * d := by nlinarith
    rw [if_neg hneg.not_ge, Set.uIcc_of_ge hd.le]
    exact ⟨Int.le_ceil_iff.2 (by linarith), Int.ceil_le.2 (by exact_mod_cast hneg.le)⟩

namespace LongLongCast

variable (cast : LongLongCast)

/-- A part of a 64-bit number is in range. -/
theorem cast_mul_mem (h0 : 0 < k) (h1 : k < 1) (hl : -2 ^ 63 ≤ d) (hu : d < 2 ^ 63) :
    cast.toFun (k * d) ∈ Set.uIcc 0 d := by
  have hl' : (-2 ^ 63 : ℚ) ≤ d := by exact_mod_cast hl
  have hu' : (d : ℚ) < 2 ^ 63 := by exact_mod_cast hu
  rw [cast.truncates]
  · exact truncate_mul_mem h0 h1 d
  · nlinarith
  · nlinarith

end LongLongCast

namespace TimestampSync

/-- The calls on a `TimestampSync`. -/
inductive Call
  | convertNativeToLocal (native : ℚ) (local_ : Timestamp)
  | setFrequency (approxNativeFreq approxLocalFreq : Frequency)

/-- The state after a call. -/
def step (cast : LongLongCast) (s : TimestampSync) : Call → TimestampSync
  | .convertNativeToLocal native local_ =>
    (s.convertNativeToLocal cast.toFun native local_).2
  | .setFrequency approxNativeFreq approxLocalFreq =>
    s.setFrequency approxNativeFreq approxLocalFreq

/-- The covariance is positive definite, and so is the average deviation. -/
structure Sound (s : TimestampSync) : Prop where
  covariance : s.covariance.PosDef
  deviation : 0 < s.m_avgDeviationSquare

/-- A conversion that returns the local time `t` follows the measurement part of the way; `p` is the
state after the time update. -/
structure Follows (p : TimestampSync) (local_ t : Timestamp) : Prop where
  sound : p.Sound
  divisor : p.m_fMeasurementNoise + p.m_p1 ≠ 0
  k1_pos : 0 < p.m_p1 / (p.m_fMeasurementNoise + p.m_p1)
  k1_lt_one : p.m_p1 / (p.m_fMeasurementNoise + p.m_p1) < 1
  accepted : p.accepts (p.isInlier local_) = true →
    ∃ e ∈ Set.uIcc 0 (local_ - p.m_estLocal).toInt, t = p.m_estLocal + BitVec.ofInt 64 e
  rejected : p.accepts (p.isInlier local_) = false → t = p.m_estLocal

/-- Every conversion follows its measurement. -/
def Call.Follows (cast : LongLongCast) (s : TimestampSync) : Call → Prop
  | .convertNativeToLocal native local_ =>
    (s.predicted cast.toFun native local_).Follows local_
      (s.convertNativeToLocal cast.toFun native local_).1
  | .setFrequency _ _ => True

/-- The filter is sound, and there is noise. -/
structure Inv (s : TimestampSync) : Prop where
  sound : s.Sound
  localNoise : 0 < s.m_fLocalNoise
  gainNoise : 0 < s.m_fGainNoise
  measurementNoise : 0 < s.m_fMeasurementNoise

variable {cast : LongLongCast} {s : TimestampSync} {native : ℚ} {local_ : Timestamp}

/-- The constants of a sound filter. -/
theorem inv_setFrequency (s : TimestampSync) (approxNativeFreq approxLocalFreq : Frequency) :
    (s.setFrequency approxNativeFreq approxLocalFreq).Inv := by
  obtain ⟨f, hf⟩ := approxNativeFreq
  obtain ⟨l, hl⟩ := approxLocalFreq
  have hg : l / f ≠ 0 := div_ne_zero hl hf
  have hp1 : 0 < l ^ 2 := by positivity
  have hp3 : 0 < (10 * (l / f)) ^ 2 := by positivity
  refine ⟨⟨⟨hp1, hp3, ?_⟩, ?_⟩, ?_, ?_, ?_⟩
  · show 0 < l ^ 2 * (10 * (l / f)) ^ 2 - 0 ^ 2
    rw [zero_pow two_ne_zero, sub_zero]
    exact mul_pos hp1 hp3
  · show 0 < (1 / 1000 * l) ^ 2
    positivity
  · show 0 < (g_fLocalNoise * l) ^ 2
    unfold g_fLocalNoise
    positivity
  · show 0 < (g_fGainNoise * (l / f)) ^ 2
    unfold g_fGainNoise
    positivity
  · show 0 < (g_fMeasurementNoise * l) ^ 2
    unfold g_fMeasurementNoise
    positivity

theorem Inv.predicted (hs : s.Inv) : (s.predicted cast.toFun native local_).Inv := by
  obtain ⟨-, hl, hg, hm, -, -, ha⟩ := s.predicted_frame cast.toFun native local_
  obtain ⟨deltaN, hc⟩ := s.predicted_covariance cast.toFun native local_
  refine ⟨⟨?_, ?_⟩, ?_, ?_, ?_⟩
  · rw [hc]
    exact hs.sound.covariance.predict deltaN hs.localNoise hs.gainNoise
  · rw [ha]
    exact hs.sound.deviation
  · rw [hl]
    exact hs.localNoise
  · rw [hg]
    exact hs.gainNoise
  · rw [hm]
    exact hs.measurementNoise

/-- The average is moved to a square by a part of the way. -/
theorem Inv.measurementUpdate (hs : s.Inv) (c : ℚ → ℤ) (local_ : Timestamp) :
    (s.measurementUpdate c local_).Inv := by
  have hsq : 0 ≤ s.deviationSquare local_ := mul_self_nonneg _
  have havg := hs.sound.deviation
  refine ⟨⟨?_, ?_⟩, hs.localNoise, hs.gainNoise, hs.measurementNoise⟩
  · rw [measurementUpdate_covariance]
    exact hs.sound.covariance.update hs.measurementNoise
  · simp only [TimestampSync.measurementUpdate]
    split_ifs
    · rw [g_fDeviationWeight]
      linarith
    · exact havg

/-- The members that a conversion sets at its end do not matter. -/
theorem Inv.setLast (hs : s.Inv) (native : ℚ) (n : BitVec 32) :
    Inv { s with m_lastNative := native, m_events := n } :=
  ⟨⟨hs.sound.covariance, hs.sound.deviation⟩, hs.localNoise, hs.gainNoise, hs.measurementNoise⟩

theorem Inv.convertNativeToLocal (hs : s.Inv) (native : ℚ) (local_ : Timestamp) :
    (s.convertNativeToLocal cast.toFun native local_).2.Inv := by
  have hp : (s.predicted cast.toFun native local_).Inv := hs.predicted
  rw [TimestampSync.convertNativeToLocal]
  cases h : s.accepts ((s.predicted cast.toFun native local_).isInlier local_) with
  | true =>
    rw [convertTested_accepted _ _ _ _ _ h]
    exact (hp.measurementUpdate _ local_).setLast native _
  | false =>
    rw [convertTested_rejected _ _ _ _ _ h]
    exact Inv.setLast (s := (s.predicted cast.toFun native local_).rejectOutlier)
      ⟨⟨hp.sound.covariance, hp.sound.deviation⟩, hp.localNoise, hp.gainNoise,
        hp.measurementNoise⟩ native _

theorem Inv.step (hs : s.Inv) (c : Call) : (s.step cast c).Inv := by
  cases c with
  | convertNativeToLocal native local_ => exact hs.convertNativeToLocal native local_
  | setFrequency f l => exact s.inv_setFrequency f l

/-- **One conversion.** -/
theorem Inv.follows (hs : s.Inv) (native : ℚ) (local_ : Timestamp) :
    (s.predicted cast.toFun native local_).Follows local_
      (s.convertNativeToLocal cast.toFun native local_).1 := by
  have hp : (s.predicted cast.toFun native local_).Inv := hs.predicted
  have hk0 := hp.sound.covariance.gain1_pos hp.measurementNoise
  have hk1 := hp.sound.covariance.gain1_lt_one hp.measurementNoise
  refine ⟨hp.sound, (hp.sound.covariance.divisor_pos hp.measurementNoise).ne', hk0, hk1,
    fun h => ?_, fun h => ?_⟩
  · rw [predicted_accepts] at h
    rw [TimestampSync.convertNativeToLocal, convertTested_accepted _ _ _ _ _ h]
    exact ⟨_, cast.cast_mul_mem hk0 hk1 (BitVec.le_toInt _) BitVec.toInt_lt, rfl⟩
  · rw [predicted_accepts] at h
    rw [TimestampSync.convertNativeToLocal, convertTested_rejected _ _ _ _ _ h]

theorem Call.follows (hs : s.Inv) (c : Call) : c.Follows cast s := by
  cases c with
  | convertNativeToLocal native local_ => exact hs.follows native local_
  | setFrequency f l => trivial

/-- **The clock filter is sound.** For all frequencies and over all conversions and changes of the
frequencies, the covariance and the average deviation stay positive, the divisor of the gains is
not `0`, and the estimate moves toward accepted measurements, without overshooting, only. -/
theorem filter_sound (cast : LongLongCast) (memory : TimestampSync)
    (approxNativeFreq approxLocalFreq : Frequency) (cs : List Call) :
    Run.Always (step cast) Sound (construct memory approxNativeFreq approxLocalFreq) cs ∧
      Run.Along (step cast) (fun s c => c.Follows cast s)
        (construct memory approxNativeFreq approxLocalFreq) cs := by
  have hinit : (construct memory approxNativeFreq approxLocalFreq).Inv := inv_setFrequency ..
  constructor
  · exact (Run.always_of_inv (step cast) Inv (fun _ c hs => hs.step c) hinit).mono
      fun _ hs => hs.sound
  · exact Run.along_of_inv (step cast) Inv (fun s c hs => ⟨c.follows hs, hs.step c⟩) hinit

/-- Clocks that count milliseconds. -/
def milliseconds : Frequency := ⟨1000, by norm_num⟩

/-- The second measurement is far from the first. Then `98` more follow. -/
def hundredCalls : List Call :=
  .convertNativeToLocal 0 0 :: .convertNativeToLocal 0 1000 ::
    List.replicate 98 (.convertNativeToLocal 0 500)

set_option maxRecDepth 4000 in
/-- The second measurement is accepted, and moves the estimate by not more than the distance. After
`100` calls an outlier is rejected, and the estimate is returned as it was. -/
theorem filter_sound_outlier :
    let s (n : ℕ) := Run.exec (step .truncating) (construct zeroed milliseconds milliseconds)
      (hundredCalls.take n)
    (∃ e ∈ Set.uIcc (0 : ℤ) 1000,
      ((s 1).convertNativeToLocal truncate 0 1000).1 = BitVec.ofInt 64 e) ∧
      ((s 100).convertNativeToLocal truncate 0 100000).1
        = ((s 100).predicted truncate 0 100000).m_estLocal := by
  intro s
  obtain ⟨-, -, hsecond, -⟩ := filter_sound .truncating zeroed milliseconds milliseconds
    hundredCalls
  obtain ⟨-, hall⟩ := filter_sound .truncating zeroed milliseconds milliseconds
    (hundredCalls ++ [.convertNativeToLocal 0 100000])
  obtain ⟨-, hlast, -⟩ := Run.along_append.1 hall
  replace hsecond : ((s 1).predicted truncate 0 1000).Follows 1000
      ((s 1).convertNativeToLocal truncate 0 1000).1 := hsecond
  constructor
  · have hest : ((s 1).predicted truncate 0 1000).m_estLocal = 0 := by decide +kernel
    obtain ⟨e, he, ht⟩ := hsecond.accepted (by decide +kernel)
    rw [hest] at he ht
    exact ⟨e, he, ht.trans (BitVec.zero_add _)⟩
  · exact hlast.rejected (by decide +kernel)

end TimestampSync

end MessageTransport.Clock
