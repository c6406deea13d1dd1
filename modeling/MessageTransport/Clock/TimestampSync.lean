import Mathlib.Data.BitVec
import MessageTransport.Lib.Kalman
import MessageTransport.Lib.Run

/-!
# Synchronization of two clocks

`TimestampSync` estimates the local time at which a sensor took a timestamp with a clock of its own,
by a Kalman filter over the offset and the gain between the two clocks. Rational numbers stand for
`double`, and what the cast of a number to `long long` gives is a parameter.

* `predicted_covariance`, `measurementUpdate_covariance`: the assignments to `m_p1`, `m_p2` and
  `m_p3` are, in their order, the updates of the filter.
-/

namespace MessageTransport.Clock

/-- Nanoseconds. The arithmetic wraps around. -/
abbrev Timestamp := BitVec 64

/-- The fractional part of a number is discarded. -/
def truncate (x : ℚ) : ℤ := if 0 ≤ x then ⌊x⌋ else ⌈x⌉

/-- The cast of `double` to `long long`. What it gives for numbers out of range is open. -/
structure LongLongCast where
  toFun : ℚ → ℤ
  truncates : ∀ x, -2 ^ 63 - 1 < x → x < 2 ^ 63 → toFun x = truncate x

/-- A cast that truncates all numbers. -/
def LongLongCast.truncating : LongLongCast := ⟨truncate, fun _ _ _ => rfl⟩

/-- Process noise of absolute local time. -/
def g_fLocalNoise : ℚ := 1 / 1000

/-- Process noise of gain. -/
def g_fGainNoise : ℚ := 1 / 10000

/-- Measurement noise. -/
def g_fMeasurementNoise : ℚ := 3 / 100

/-- Weight of measurements in outlier detection. -/
def g_fDeviationWeight : ℚ := 1 / 100

/-- `TimestampSync`. -/
structure TimestampSync where
  m_events : BitVec 32
  m_lastNative : ℚ
  m_fLocalNoise : ℚ
  m_fGainNoise : ℚ
  m_fMeasurementNoise : ℚ
  m_estLocal : Timestamp
  m_estGain : ℚ
  m_p1 : ℚ
  m_p2 : ℚ
  m_p3 : ℚ
  m_outlierBudget : ℤ
  m_avgDeviationSquare : ℚ

namespace TimestampSync

/-- `setFrequency(approxNativeFreq, approxLocalFreq)`. -/
def setFrequency (s : TimestampSync) (approxNativeFreq approxLocalFreq : ℚ) : TimestampSync :=
  let m_estGain := approxLocalFreq / approxNativeFreq
  { s with
    m_estGain
    m_fLocalNoise := (g_fLocalNoise * approxLocalFreq) ^ 2
    m_fGainNoise := (g_fGainNoise * m_estGain) ^ 2
    m_fMeasurementNoise := (g_fMeasurementNoise * approxLocalFreq) ^ 2
    m_p1 := approxLocalFreq ^ 2
    m_p2 := 0
    m_p3 := (10 * m_estGain) ^ 2
    m_avgDeviationSquare := (1 / 1000 * approxLocalFreq) ^ 2 }

/-- `TimestampSync(approxNativeFreq, approxLocalFreq)`. The other members keep what the memory
held. -/
def construct (memory : TimestampSync) (approxNativeFreq approxLocalFreq : ℚ) : TimestampSync :=
  { memory with m_events := 0, m_outlierBudget := -100 }.setFrequency approxNativeFreq
    approxLocalFreq

/-- Memory that holds zeros. -/
def zeroed : TimestampSync := ⟨0, 0, 0, 0, 0, 0, 0, 0, 0, 0, 0, 0⟩

/-- `getEventCount()`. -/
def getEventCount (s : TimestampSync) : BitVec 32 := s.m_events

/-- Initialization on first event. -/
def initialise (s : TimestampSync) (native : ℚ) (local_ : Timestamp) : TimestampSync :=
  if s.m_events = 0 then { s with m_lastNative := native, m_estLocal := local_ } else s

/-- The difference between a local time and the estimate, as a signed number. -/
def deltaL (s : TimestampSync) (local_ : Timestamp) : ℤ := (local_ - s.m_estLocal).toInt

def deviationSquare (s : TimestampSync) (local_ : Timestamp) : ℚ :=
  s.deltaL local_ * s.deltaL local_

def thresholdSquare (s : TimestampSync) : ℚ := s.m_avgDeviationSquare * 9

/-- The deviation test. -/
def isInlier (s : TimestampSync) (local_ : Timestamp) : Bool :=
  s.deviationSquare local_ < s.thresholdSquare

/-- What is done with an outlier. -/
def rejectOutlier (s : TimestampSync) : TimestampSync :=
  { s with m_outlierBudget := s.m_outlierBudget - 2 }

variable (cast : ℚ → ℤ)

/-- Time update. -/
def timeUpdate (s : TimestampSync) (native : ℚ) : TimestampSync :=
  let deltaN := native - s.m_lastNative
  { s with
    m_estLocal := s.m_estLocal + BitVec.ofInt 64 (cast (deltaN * s.m_estGain))
    m_p1 := s.m_p1 + (2 * deltaN * s.m_p2 + deltaN * deltaN * s.m_p3 + s.m_fLocalNoise)
    m_p2 := s.m_p2 + deltaN * s.m_p3
    m_p3 := s.m_p3 + s.m_fGainNoise }

/-- Measurement update. -/
def measurementUpdate (s : TimestampSync) (local_ : Timestamp) : TimestampSync :=
  let k1 := s.m_p1 / (s.m_fMeasurementNoise + s.m_p1)
  let k2 := s.m_p2 / (s.m_fMeasurementNoise + s.m_p1)
  { s with
    m_estGain := s.m_estGain + k2 * s.deltaL local_
    m_estLocal := s.m_estLocal + BitVec.ofInt 64 (cast (k1 * s.deltaL local_))
    m_p1 := s.m_fMeasurementNoise * k1
    m_p3 := s.m_p3 - s.m_p2 * k2
    m_p2 := s.m_fMeasurementNoise * k2
    m_avgDeviationSquare :=
      if 50 < s.m_events then
        s.m_avgDeviationSquare
          + (s.deviationSquare local_ - s.m_avgDeviationSquare) * g_fDeviationWeight
      else s.m_avgDeviationSquare
    m_outlierBudget := min 40 (s.m_outlierBudget + 1) }

/-- `convertNativeToLocal` up to the outlier detection. -/
def predicted (s : TimestampSync) (native : ℚ) (local_ : Timestamp) : TimestampSync :=
  (s.initialise native local_).timeUpdate cast native

/-- Whether a measurement is used, when the deviation test says `inlier`. -/
def accepts (inlier : Bool) (s : TimestampSync) : Bool := inlier || s.m_outlierBudget < 0

/-- `convertNativeToLocal` if the deviation test says `inlier`. -/
def convertTested (inlier : Bool) (s : TimestampSync) (native : ℚ) (local_ : Timestamp) :
    Timestamp × TimestampSync :=
  let s := s.predicted cast native local_
  let s := if s.accepts inlier then s.measurementUpdate cast local_ else s.rejectOutlier
  let s := { s with m_lastNative := native, m_events := s.m_events + 1 }
  (s.m_estLocal, s)

/-- `convertNativeToLocal(native, local)`. -/
def convertNativeToLocal (s : TimestampSync) (native : ℚ) (local_ : Timestamp) :
    Timestamp × TimestampSync :=
  s.convertTested cast ((s.predicted cast native local_).isInlier local_) native local_

/-- The conversions of a list of measurements: whether they are accepted, and what is returned. -/
def conversions (cast : ℚ → ℤ) : TimestampSync → List (ℚ × Timestamp) → List (Bool × Timestamp)
  | _, [] => []
  | x, (native, local_) :: inputs =>
    (x.accepts ((x.predicted cast native local_).isInlier local_),
      (x.convertNativeToLocal cast native local_).1) ::
      conversions cast (x.convertNativeToLocal cast native local_).2 inputs

/-! ### The steps of a conversion -/

variable (cast : ℚ → ℤ) (s : TimestampSync) (native approxNativeFreq approxLocalFreq : ℚ)
  (local_ : Timestamp) (inlier : Bool)

/-- The covariance matrix. -/
def covariance : Covariance ℚ := ⟨s.m_p1, s.m_p2, s.m_p3⟩

@[simp] theorem measurementUpdate_covariance :
    (s.measurementUpdate cast local_).covariance = s.covariance.update s.m_fMeasurementNoise := rfl

/-- What the initialization and the time update leave as it was. -/
theorem predicted_frame :
    (s.predicted cast native local_).m_events = s.m_events ∧
    (s.predicted cast native local_).m_fLocalNoise = s.m_fLocalNoise ∧
    (s.predicted cast native local_).m_fGainNoise = s.m_fGainNoise ∧
    (s.predicted cast native local_).m_fMeasurementNoise = s.m_fMeasurementNoise ∧
    (s.predicted cast native local_).m_estGain = s.m_estGain ∧
    (s.predicted cast native local_).m_outlierBudget = s.m_outlierBudget ∧
    (s.predicted cast native local_).m_avgDeviationSquare = s.m_avgDeviationSquare := by
  unfold predicted initialise
  split_ifs <;> exact ⟨rfl, rfl, rfl, rfl, rfl, rfl, rfl⟩

theorem predicted_accepts :
    (s.predicted cast native local_).accepts inlier = s.accepts inlier := by
  rw [accepts, accepts, (s.predicted_frame cast native local_).2.2.2.2.2.1]

/-- The time that the time update bridges. -/
theorem predicted_covariance :
    ∃ deltaN, (s.predicted cast native local_).covariance
      = s.covariance.predict deltaN s.m_fLocalNoise s.m_fGainNoise := by
  unfold predicted initialise
  split_ifs
  · exact ⟨native - native, rfl⟩
  · exact ⟨native - s.m_lastNative, rfl⟩

/-- A measurement that is used. -/
theorem convertTested_accepted (h : s.accepts inlier = true) :
    s.convertTested cast inlier native local_
      = (((s.predicted cast native local_).measurementUpdate cast local_).m_estLocal,
        { (s.predicted cast native local_).measurementUpdate cast local_ with
          m_lastNative := native, m_events := s.m_events + 1 }) := by
  simp only [convertTested, predicted_accepts, h, if_true]
  rw [measurementUpdate, (s.predicted_frame cast native local_).1]

/-- An outlier. -/
theorem convertTested_rejected (h : s.accepts inlier = false) :
    s.convertTested cast inlier native local_
      = ((s.predicted cast native local_).m_estLocal,
        { (s.predicted cast native local_).rejectOutlier with
          m_lastNative := native, m_events := s.m_events + 1 }) := by
  simp only [convertTested, predicted_accepts, h, Bool.false_eq_true, if_false]
  rw [rejectOutlier, (s.predicted_frame cast native local_).1]

theorem convertTested_events :
    (s.convertTested cast inlier native local_).2.m_events = s.m_events + 1 := by
  cases h : s.accepts inlier with
  | true => rw [convertTested_accepted _ _ _ _ _ h]
  | false => rw [convertTested_rejected _ _ _ _ _ h]

/-- What becomes of the budget. -/
theorem convertTested_budget :
    (s.convertTested cast inlier native local_).2.m_outlierBudget
      = if s.accepts inlier then min 40 (s.m_outlierBudget + 1) else s.m_outlierBudget - 2 := by
  have hbudget := (s.predicted_frame cast native local_).2.2.2.2.2.1
  cases h : s.accepts inlier with
  | true => rw [convertTested_accepted _ _ _ _ _ h, measurementUpdate, hbudget, if_pos rfl]
  | false => rw [convertTested_rejected _ _ _ _ _ h, rejectOutlier, hbudget, if_neg (by simp)]

end TimestampSync

end MessageTransport.Clock
