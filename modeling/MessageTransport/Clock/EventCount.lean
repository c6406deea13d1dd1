import MessageTransport.Clock.TimestampSync

/-!
# Counting events

`m_events` counts the conversions in 32 bits, and the decisions of the filter hang on it: whether
this is the first measurement, whether `now()` sets the frequency, whether the average deviation is
adapted. After `2 ^ 32` conversions the count is `0` again.

* `initialisesOnce_iff`: the filter initializes once, and adapts the average deviation after its
  51st measurement, if and only if it makes less than `2 ^ 32` conversions;
* `now_setFrequency_iff`: `now()` sets the frequency at its first call only, if and only if there
  are not more than `2 ^ 32` calls, or the frequency has changed before.
-/

namespace MessageTransport.Clock

theorem exists_split {α : Type*} {l : List α} {n : ℕ} (hn : n < l.length) :
    ∃ pre a post, l = pre ++ a :: post ∧ pre.length = n := by
  refine ⟨l.take n, l[n], l.drop (n + 1), ?_, by rw [List.length_take]; omega⟩
  rw [← List.drop_eq_getElem_cons hn, List.take_append_drop]

namespace TimestampSync

variable (cast : ℚ → ℤ)

/-- The state after a conversion. -/
def convert (s : TimestampSync) (i : ℚ × Timestamp) : TimestampSync :=
  (s.convertNativeToLocal cast i.1 i.2).2

/-- The average deviation is moved toward the deviation of the measurement. -/
def Adapts (s : TimestampSync) (i : ℚ × Timestamp) : Prop :=
  let p := s.predicted cast i.1 i.2
  (s.convert cast i).m_avgDeviationSquare
    = p.m_avgDeviationSquare
      + (p.deviationSquare i.2 - p.m_avgDeviationSquare) * g_fDeviationWeight

end TimestampSync

/-- The static variables of `now()` on Windows. -/
structure HpcClock where
  synchronizer : TimestampSync
  bUseHpc : Bool
  lastHpcFreq : ℚ

/-- What `now()` reads of the clocks. -/
structure HpcReading where
  hiPerf : ℤ
  rtc : Timestamp
  hpcFreq : ℚ

namespace HpcClock

/-- The variables before the first call; `lastHpcFreq` is `0`. -/
def init (memory : TimestampSync) : HpcClock := ⟨.construct memory (10 ^ 9) (10 ^ 9), true, 0⟩

variable (cast : ℚ → ℤ)

/-- The conversion at the end of `now()`. -/
def convert (w : HpcClock) (r : HpcReading) : Timestamp × HpcClock :=
  match w.synchronizer.convertNativeToLocal cast r.hiPerf r.rtc with
  | (t, synchronizer) => (t, { w with synchronizer })

/-- `now()`. -/
def now (w : HpcClock) (r : HpcReading) : Timestamp × HpcClock :=
  if w.bUseHpc then
    if 0 < w.synchronizer.getEventCount then
      if r.hpcFreq ≠ w.lastHpcFreq then (r.rtc, { w with bUseHpc := false })
      else w.convert cast r
    else
      { w with
        synchronizer := w.synchronizer.setFrequency r.hpcFreq (10 ^ 9)
        lastHpcFreq := r.hpcFreq }.convert cast r
  else (r.rtc, w)

/-- The next `now()` calls `setFrequency`. -/
def SetsFrequency (w : HpcClock) : Prop :=
  w.bUseHpc = true ∧ ¬ 0 < w.synchronizer.getEventCount

end HpcClock

namespace TimestampSync

/-- In a run of conversions, the first one initializes the filter, and no other does; after each,
the count is not `0`, and `now()` does not set the frequency; and from the 52nd on each adapts the
average deviation if it uses the measurement. -/
def InitialisesOnce (cast : ℚ → ℤ) (s : TimestampSync) (is : List (ℚ × Timestamp)) : Prop :=
  ∀ pre i post, is = pre ++ i :: post →
    let t := Run.exec (convert cast) s pre
    (t.m_events = 0 ↔ pre = []) ∧
    (t.convert cast i).getEventCount ≠ 0 ∧
    (∀ bUseHpc lastHpcFreq, ¬ HpcClock.SetsFrequency ⟨t.convert cast i, bUseHpc, lastHpcFreq⟩) ∧
    (51 ≤ pre.length → t.accepts ((t.predicted cast i.1 i.2).isInlier i.2) = true →
      t.Adapts cast i)

variable {cast : ℚ → ℤ} {s : TimestampSync} {i : ℚ × Timestamp} {is : List (ℚ × Timestamp)}

theorem convert_events : (s.convert cast i).m_events = s.m_events + 1 := convertTested_events ..

/-- The count, modulo `2 ^ 32`. -/
theorem exec_events (s : TimestampSync) (is : List (ℚ × Timestamp)) :
    (Run.exec (convert cast) s is).m_events = s.m_events + BitVec.ofNat 32 is.length := by
  induction is generalizing s with
  | nil => simp [Run.exec]
  | cons i is ih =>
    rw [show Run.exec (convert cast) s (i :: is) = Run.exec (convert cast) (s.convert cast i) is
      from rfl, ih, convert_events, List.length_cons, BitVec.ofNat_add, add_assoc,
      add_comm (1 : BitVec 32)]
    rfl

theorem adapts (h51 : 50 < s.m_events)
    (h : s.accepts ((s.predicted cast i.1 i.2).isInlier i.2) = true) : s.Adapts cast i := by
  have hevents := (s.predicted_frame cast i.1 i.2).1
  rw [Adapts, convert, convertNativeToLocal, convertTested_accepted _ _ _ _ _ h]
  simp only [measurementUpdate, hevents, h51, if_true]

/-- The count of a small number of conversions. -/
theorem toNat_exec_events (hs : s.m_events = 0) (hlen : is.length < 2 ^ 32) :
    (Run.exec (convert cast) s is).m_events.toNat = is.length := by
  rw [exec_events, hs, zero_add, BitVec.toNat_ofNat, Nat.mod_eq_of_lt hlen]

theorem initialisesOnce_of_lt (hs : s.m_events = 0) (hlen : is.length < 2 ^ 32) :
    s.InitialisesOnce cast is := by
  rintro pre i post rfl
  rw [List.length_append, List.length_cons] at hlen
  have hpre : (Run.exec (convert cast) s pre).m_events.toNat = pre.length :=
    toNat_exec_events hs (by omega)
  have hnext : ((Run.exec (convert cast) s pre).convert cast i).m_events.toNat
      = pre.length + 1 := by
    rw [convert_events, BitVec.toNat_add, hpre]
    exact Nat.mod_eq_of_lt (by simp; omega)
  have hne : ((Run.exec (convert cast) s pre).convert cast i).getEventCount ≠ 0 := by
    rw [getEventCount, ← BitVec.toNat_inj.ne, hnext]
    simp
  refine ⟨?_, hne, fun bUseHpc lastHpcFreq h => h.2 ?_, fun h51 => adapts ?_⟩
  · rw [← BitVec.toNat_inj, hpre]
    exact List.length_eq_zero_iff
  · exact (BitVec.pos_iff_ne_zero _).2 hne
  · rw [BitVec.lt_def, hpre]
    exact h51

/-- The conversion number `2 ^ 32` sets the count to `0` again. -/
theorem not_initialisesOnce_of_le (hs : s.m_events = 0) (hlen : 2 ^ 32 ≤ is.length) :
    ¬ s.InitialisesOnce cast is := by
  intro h
  obtain ⟨pre, i, post, heq, hpre⟩ :=
    exists_split (show 2 ^ 32 - 1 < is.length by omega)
  refine (h pre i post heq).2.1 ?_
  rw [getEventCount, convert_events, exec_events, hs, hpre]
  decide

/-- **The filter initializes once** in exactly the runs of less than `2 ^ 32` conversions. -/
theorem initialisesOnce_iff (cast : ℚ → ℤ) (memory : TimestampSync) (f l : ℚ)
    (is : List (ℚ × Timestamp)) :
    (construct memory f l).InitialisesOnce cast is ↔ is.length < 2 ^ 32 := by
  refine ⟨fun h => ?_, initialisesOnce_of_lt rfl⟩
  by_contra hlen
  exact not_initialisesOnce_of_le rfl (not_lt.1 hlen) h

/-- After `2 ^ 32` measurements of `0` the filter starts anew. -/
theorem not_initialisesOnce_wrap :
    ¬ (construct zeroed 1000 1000).InitialisesOnce truncate (List.replicate (2 ^ 32) (0, 0)) :=
  not_initialisesOnce_of_le rfl (by rw [List.length_replicate])

end TimestampSync

namespace HpcClock

variable (cast : ℚ → ℤ)

/-- The variables after a call of `now()`. -/
def tick (w : HpcClock) (r : HpcReading) : HpcClock := (w.now cast r).2

/-- The clock is used, its frequency has not changed, and `n` conversions were made. -/
structure Stable (f : ℚ) (n : ℕ) (w : HpcClock) : Prop where
  bUseHpc : w.bUseHpc = true
  lastHpcFreq : w.lastHpcFreq = f
  events : w.synchronizer.m_events = BitVec.ofNat 32 n

variable {w : HpcClock} {r : HpcReading} {f : ℚ} {n : ℕ}

theorem Stable.setsFrequency_iff (h : w.Stable f n) (hn : 0 < n) (hle : n ≤ 2 ^ 32) :
    w.SetsFrequency ↔ n = 2 ^ 32 := by
  rw [SetsFrequency, and_iff_right h.bUseHpc, TimestampSync.getEventCount, h.events, BitVec.lt_def,
    BitVec.toNat_ofNat, show (0 : BitVec 32).toNat = 0 from rfl]
  omega

theorem setsFrequency_init (memory : TimestampSync) : (init memory).SetsFrequency :=
  ⟨rfl, BitVec.lt_irrefl (0 : BitVec 32)⟩

/-- A call that sets the frequency. -/
theorem SetsFrequency.tick (h : w.SetsFrequency) (r : HpcReading) :
    (w.tick cast r).bUseHpc = true ∧ (w.tick cast r).lastHpcFreq = r.hpcFreq ∧
      (w.tick cast r).synchronizer.m_events = w.synchronizer.m_events + 1 := by
  rw [HpcClock.tick, now, if_pos h.1, if_neg h.2]
  exact ⟨h.1, rfl, TimestampSync.convertTested_events ..⟩

/-- After the first call. -/
theorem stable_first (memory : TimestampSync) (r : HpcReading) :
    ((init memory).tick cast r).Stable r.hpcFreq 1 := by
  obtain ⟨huse, hfreq, hevents⟩ := (setsFrequency_init memory).tick cast r
  exact ⟨huse, hfreq, hevents⟩

/-- A call of a stable clock converts, or it finds that the frequency has changed. -/
theorem Stable.tick (h : w.Stable f n) (hn : 0 < n) (hlt : n < 2 ^ 32) (r : HpcReading) :
    if r.hpcFreq = f then (w.tick cast r).Stable f (n + 1)
    else (w.tick cast r).bUseHpc = false := by
  have hpos : 0 < w.synchronizer.getEventCount := by
    have hsets := (h.setsFrequency_iff hn hlt.le).not.2 hlt.ne
    rw [SetsFrequency, and_iff_right h.bUseHpc, not_not] at hsets
    exact hsets
  split_ifs with hf
  · have htick : w.tick cast r = (w.convert cast r).2 := by
      rw [HpcClock.tick, now, if_pos h.bUseHpc, if_pos hpos, if_neg]
      rw [h.lastHpcFreq, hf]
      exact not_not.2 rfl
    rw [htick]
    refine ⟨h.bUseHpc, h.lastHpcFreq, ?_⟩
    have hevents : (w.convert cast r).2.synchronizer.m_events = w.synchronizer.m_events + 1 :=
      TimestampSync.convertTested_events ..
    rw [hevents, h.events, BitVec.ofNat_add]
    rfl
  · rw [HpcClock.tick, now, if_pos h.bUseHpc, if_pos hpos, if_pos]
    rwa [h.lastHpcFreq]

/-- A clock that is not used is never used again. -/
theorem exec_unused (h : w.bUseHpc = false) (rs : List HpcReading) :
    Run.exec (tick cast) w rs = w := by
  induction rs with
  | nil => rfl
  | cons r rs ih =>
    have htick : w.tick cast r = w := by rw [tick, now, if_neg (by simp [h])]
    rw [show Run.exec (tick cast) w (r :: rs) = Run.exec (tick cast) (w.tick cast r) rs from rfl,
      htick, ih]

/-- As long as the count does not wrap around. -/
theorem Stable.exec (h : w.Stable f n) (hn : 0 < n) (rs : List HpcReading)
    (hle : n + rs.length ≤ 2 ^ 32) :
    ((∀ r ∈ rs, r.hpcFreq = f) ∧ (Run.exec (HpcClock.tick cast) w rs).Stable f (n + rs.length)) ∨
      (∃ r ∈ rs, r.hpcFreq ≠ f) ∧ (Run.exec (HpcClock.tick cast) w rs).bUseHpc = false := by
  induction rs generalizing w n with
  | nil => exact .inl ⟨by simp, h⟩
  | cons r rs ih =>
    rw [List.length_cons] at hle
    have htick := h.tick cast hn (by omega) r
    rw [show Run.exec (HpcClock.tick cast) w (r :: rs)
      = Run.exec (HpcClock.tick cast) (w.tick cast r) rs from rfl]
    split_ifs at htick with hf
    · rcases ih htick (by omega) (by omega) with ⟨hall, hs⟩ | ⟨⟨r', hr', hne⟩, hs⟩
      · refine .inl ⟨List.forall_mem_cons.2 ⟨hf, hall⟩, ?_⟩
        rwa [List.length_cons, ← add_assoc, add_right_comm]
      · exact .inr ⟨⟨r', List.mem_cons_of_mem _ hr', hne⟩, hs⟩
    · exact .inr ⟨⟨r, List.mem_cons_self, hf⟩, by rwa [exec_unused cast htick]⟩

/-- No call sets the frequency that comes before the count wraps around, or after the frequency has
changed. -/
theorem Stable.not_setsFrequency (h : w.Stable f 1) {rs : List HpcReading} {m : ℕ}
    (hm : 2 ^ 32 = m + 1) (hrs : rs.length < m ∨ ∃ r ∈ rs.take m, r.hpcFreq ≠ f) :
    ¬ (Run.exec (HpcClock.tick cast) w rs).SetsFrequency := by
  rintro hsets
  rcases hrs with hlt | ⟨r, hr, hne⟩
  · rcases h.exec cast one_pos rs (by omega) with ⟨-, hs⟩ | ⟨-, hs⟩
    · have := (hs.setsFrequency_iff (by omega) (by omega)).1 hsets
      omega
    · rw [SetsFrequency, hs] at hsets
      cases hsets.1
  · have hlen : (rs.take m).length ≤ m := List.length_take_le ..
    rcases h.exec cast one_pos (rs.take m) (by omega) with ⟨hall, -⟩ | ⟨-, hs⟩
    · exact hne (hall r hr)
    · rw [← List.take_append_drop m rs, Run.exec_append, exec_unused cast hs, SetsFrequency,
        hs] at hsets
      cases hsets.1

/-- **`now()` sets the frequency once,** at its first call, in exactly the runs of at most `2 ^ 32`
calls and those in which the frequency has changed by then. -/
theorem now_setFrequency_iff (cast : ℚ → ℤ) (memory : TimestampSync) (r₀ : HpcReading)
    (rs : List HpcReading) :
    (∀ pre r post, r₀ :: rs = pre ++ r :: post →
        ((Run.exec (tick cast) (init memory) pre).SetsFrequency ↔ pre = [])) ↔
      (r₀ :: rs).length ≤ 2 ^ 32 ∨ ∃ r ∈ (r₀ :: rs).take (2 ^ 32), r.hpcFreq ≠ r₀.hpcFreq := by
  have hfirst := stable_first cast memory r₀
  obtain ⟨m, hm⟩ : ∃ m, 2 ^ 32 = m + 1 := ⟨2 ^ 32 - 1, rfl⟩
  rw [hm, List.take_succ_cons, List.length_cons]
  constructor
  · intro h
    by_contra hwrap
    obtain ⟨hlen, hfreq⟩ := not_or.1 hwrap
    obtain ⟨ps, r, post, rfl, hps⟩ := exists_split (show m < rs.length by omega)
    rw [List.take_left' hps] at hfreq
    have hsets := h (r₀ :: ps) r post rfl
    rcases hfirst.exec cast one_pos ps (by omega) with ⟨-, hs⟩ | ⟨⟨q, hq, hne⟩, -⟩
    · exact absurd (hsets.1 ((hs.setsFrequency_iff (by omega) (by omega)).2 (by omega)))
        (List.cons_ne_nil _ _)
    · exact hfreq ⟨q, List.mem_cons_of_mem _ hq, hne⟩
  · rintro h pre r post heq
    cases pre with
    | nil => exact iff_of_true (setsFrequency_init memory) rfl
    | cons p ps =>
      rw [List.cons_append] at heq
      obtain ⟨rfl, rfl⟩ := List.cons.inj heq
      refine iff_of_false (hfirst.not_setsFrequency cast hm ?_) (List.cons_ne_nil _ _)
      rw [List.length_append, List.length_cons] at h
      by_cases hlt : ps.length < m
      · exact .inl hlt
      · rcases h with hlen | ⟨q, hq, hne⟩
        · omega
        · rw [List.take_append_of_le_length (not_lt.1 hlt)] at hq
          rcases List.mem_cons.1 hq with rfl | hq
          · exact absurd rfl hne
          · exact .inr ⟨q, hq, hne⟩

end HpcClock

end MessageTransport.Clock
