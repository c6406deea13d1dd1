import MessageTransport.Lib.Run
import MessageTransport.Serialization.Accesses

/-!
# Streams after an overrun

`advance` moves the position before it compares it with the end. A stream whose overrun is caught
stays behind its end: there `getLength` wraps around, and `advance` returns no more.

* `StreamCall.attempts`: what a call of `next` does to the position is done by calls of `advance`;
* `Progress.usable_iff`: a stream knows the bytes that are left if and only if no call of `advance`
  has overrun it; in any case, no raw message takes more than the buffer has.
-/

namespace MessageTransport

open Bytes MessageTransport.Tape

/-- A stream whose overruns are caught, and the lengths with which `advance` has returned, the last
one in front. -/
structure Progress where
  stream : Stream
  returned : List ℕ

namespace Progress

/-- A stream as it is opened. -/
def open_ (mem : List UInt8) (count : UInt32) : Progress := ⟨Stream.open_ mem count.toNat, []⟩

/-- `advance(len)`, caught. -/
def advance (s : Progress) (len : UInt32) : Progress :=
  match (Stream.advance len.toNat).run s.stream with
  | .ok _ stream => ⟨stream, len.toNat :: s.returned⟩
  | .error _ stream => { s with stream }

/-- The stream knows what is left of its `count` bytes after the calls of `advance` that have
returned, and lets `advance` have that much. -/
structure Usable (count : UInt32) (s : Progress) : Prop where
  getLength : s.stream.getLength + s.returned.sum = count.toNat
  advance : ∀ len : UInt32, (∃ p stream, (Stream.advance len.toNat).run s.stream = .ok p stream) ↔
    s.returned.sum + len.toNat ≤ count.toNat

/-- `advance(len)` does not overrun. -/
def Fits (count : UInt32) (s : Progress) (len : UInt32) : Prop :=
  s.returned.sum + len.toNat ≤ count.toNat

/-- No call has overrun yet. -/
structure Inv (count : UInt32) (s : Progress) : Prop where
  data_eq : s.stream.data_ = s.returned.sum
  end_eq : s.stream.end_ = count.toNat
  le : s.returned.sum ≤ count.toNat

variable {count len : UInt32} {s : Progress}

theorem inv_open (mem : List UInt8) (count : UInt32) : (open_ mem count).Inv count :=
  ⟨rfl, rfl, Nat.zero_le _⟩

theorem advance_of_le (h : s.stream.data_ + len.toNat ≤ s.stream.end_) :
    s.advance len = ⟨s.stream.skip len.toNat, len.toNat :: s.returned⟩ := by
  rw [advance, Stream.advance_ok h]
  rfl

theorem advance_of_lt (h : s.stream.end_ < s.stream.data_ + len.toNat) :
    s.advance len = ⟨s.stream.skip len.toNat, s.returned⟩ := by
  rw [advance, Stream.advance_overrun h]
  rfl

/-- `advance` returns if it stays before the end. -/
theorem advance_returns_iff : (∃ p stream, (Stream.advance len.toNat).run s.stream = .ok p stream) ↔
    s.stream.data_ + len.toNat ≤ s.stream.end_ := by
  constructor
  · rintro ⟨p, stream, h⟩
    by_contra hlt
    rw [Stream.advance_overrun (not_le.1 hlt)] at h
    cases h
  · exact fun h => ⟨_, _, Stream.advance_ok h⟩

theorem Inv.usable (hs : s.Inv count) : s.Usable count := by
  obtain ⟨hdata, hend, hle⟩ := hs
  have hlt : count.toNat < 2 ^ 32 := count.toNat_lt
  refine ⟨?_, fun len => ?_⟩
  · rw [Stream.getLength_eq (by omega) (by omega), hdata, hend]
    omega
  · rw [advance_returns_iff, hdata, hend]

theorem Inv.advance_eq (hs : s.Inv count) (h : s.Fits count len) :
    s.advance len = ⟨s.stream.skip len.toNat, len.toNat :: s.returned⟩ := by
  refine advance_of_le ?_
  rw [hs.data_eq, hs.end_eq]
  exact h

theorem Inv.advance (hs : s.Inv count) (h : s.Fits count len) : (s.advance len).Inv count := by
  have hfits : s.returned.sum + len.toNat ≤ count.toNat := h
  rw [hs.advance_eq h]
  refine ⟨?_, hs.end_eq, ?_⟩
  · rw [Stream.skip, hs.data_eq, List.sum_cons, Nat.add_comm]
  · rw [List.sum_cons]
    omega

/-- Behind its end, a stream does not even advance by nothing. -/
theorem Inv.fits (hs : s.Inv count) (hq : (s.advance len).Usable count) : s.Fits count len := by
  obtain ⟨hdata, hend, hle⟩ := hs
  by_contra hover
  have hlt : s.stream.end_ < s.stream.data_ + len.toNat := by
    rw [Fits] at hover
    omega
  rw [advance_of_lt hlt] at hq
  have hzero := (hq.advance 0).2 (by simpa using hle)
  rw [advance_returns_iff] at hzero
  simp only [Stream.skip, UInt32.toNat_zero] at hzero
  omega

/-- The lengths add up as long as nothing overruns. -/
theorem along_fits_iff (hs : s.Inv count) (lens : List UInt32) :
    Run.Along advance (Fits count) s lens ↔
      s.returned.sum + (lens.map UInt32.toNat).sum ≤ count.toNat := by
  induction lens generalizing s with
  | nil => exact iff_of_true trivial hs.le
  | cons len lens ih =>
    rw [Run.Along, List.map_cons, List.sum_cons]
    by_cases hfits : s.Fits count len
    · rw [ih (hs.advance hfits), hs.advance_eq hfits, List.sum_cons]
      simp only [hfits, true_and]
      omega
    · refine iff_of_false (fun h => hfits h.1) fun h => hfits ?_
      rw [Fits]
      omega

end Progress

/-! ### Calls of `next` -/

/-- The lengths with which `advance` has returned. -/
def advanced : List Access → List ℕ
  | [] => []
  | .advance _ len :: log => len :: advanced log
  | .buffer _ _ :: log | .object _ _ :: log => advanced log

/-- A stream has come to the same place with the same calls of `advance` that returned. -/
structure Follows (s : Progress) (t : Tape) : Prop where
  data_eq : s.stream.data_ = t.stream.data_
  end_eq : s.stream.end_ = t.stream.end_
  returned : s.returned = advanced t.log

/-- What the action `w` does to the place of a stream is done by calls of `advance`. -/
def Attempts {α : Type} (w : TapeM α) : Prop :=
  ∀ s t, Follows s t → ∃ lens : List UInt32,
    Follows (Run.exec Progress.advance s lens) (final (w.run t))

namespace Attempts

variable {α β : Type}

/-- An action that leaves the stream where it is. -/
theorem still {w : TapeM α} (h : ∀ s t, Follows s t → Follows s (final (w.run t))) : Attempts w :=
  fun s t hst => ⟨[], h s t hst⟩

theorem pure (a : α) : Attempts (Pure.pure a) := still fun _ _ h => h

theorem bind {w : TapeM α} {f : α → TapeM β} (hw : Attempts w) (hf : ∀ a, Attempts (f a)) :
    Attempts (w >>= f) := by
  intro s t hst
  obtain ⟨lens, h⟩ := hw s t hst
  rw [EStateM.run_bind]
  cases hrun : w.run t with
  | error e t' =>
    rw [hrun] at h
    exact ⟨lens, h⟩
  | ok a t' =>
    rw [hrun] at h
    obtain ⟨lens', h'⟩ := hf a _ _ h
    exact ⟨lens ++ lens', by rwa [Run.exec_append]⟩

theorem ite {p : Prop} [Decidable p] {w w' : TapeM α} (h : Attempts w) (h' : Attempts w') :
    Attempts (if p then w else w') := by
  split_ifs
  · exact h
  · exact h'

theorem advance {n : ℕ} (hn : n < 2 ^ 32) : Attempts (Tape.advance n) := by
  intro s t hst
  have hlen : (UInt32.ofNat n).toNat = n := UInt32.toNat_ofNat_of_lt' hn
  refine ⟨[UInt32.ofNat n], ?_⟩
  rw [Run.exec, List.foldl_cons, List.foldl_nil]
  by_cases h : t.stream.data_ + n ≤ t.stream.end_
  · rw [Tape.advance_ok h,
      Progress.advance_of_le (by rw [hlen, hst.data_eq, hst.end_eq]; exact h), hlen]
    exact ⟨congrArg (· + n) hst.data_eq, hst.end_eq, congrArg (n :: ·) hst.returned⟩
  · rw [not_le] at h
    rw [Tape.advance_overrun h,
      Progress.advance_of_lt (by rw [hlen, hst.data_eq, hst.end_eq]; exact h), hlen]
    exact ⟨congrArg (· + n) hst.data_eq, hst.end_eq, hst.returned⟩

/-- An entry that is not one of `advance`. -/
theorem record {a : Access} (ha : ∀ log, advanced (a :: log) = advanced log) :
    Attempts (Tape.record a) :=
  still fun _ _ h => ⟨h.data_eq, h.end_eq, h.returned.trans (ha _).symm⟩

theorem lift {w : StreamM α} (h : ∀ s, match w.run s with
    | .ok _ s' | .error _ s' => s'.data_ = s.data_ ∧ s'.end_ = s.end_) :
    Attempts (Tape.lift w) := by
  refine still fun s t hst => ?_
  have hw := h t.stream
  cases hrun : w.run t.stream with
  | ok a s' =>
    rw [hrun] at hw
    rw [run_lift_ok hrun]
    exact ⟨hst.data_eq.trans hw.1.symm, hst.end_eq.trans hw.2.symm, hst.returned⟩
  | error e s' =>
    rw [hrun] at hw
    rw [run_lift_error hrun]
    exact ⟨hst.data_eq.trans hw.1.symm, hst.end_eq.trans hw.2.symm, hst.returned⟩

theorem memcpyTo (dst : ℕ) (src : List UInt8) (n : ℕ) : Attempts (Tape.memcpyTo dst src n) := by
  refine (record fun _ => rfl).bind fun _ => (record fun _ => rfl).bind fun _ => lift fun s => ?_
  by_cases h : n ≤ src.length ∧ dst + n ≤ s.mem.length
  · rw [Stream.memcpyTo_ok h.1 h.2]
    exact ⟨rfl, rfl⟩
  · simp only [Stream.memcpyTo, EStateM.run_bind, EStateM.run_get, if_neg h]
    exact ⟨rfl, rfl⟩

theorem memcpyFrom (room src n : ℕ) : Attempts (Tape.memcpyFrom room src n) := by
  refine (record fun _ => rfl).bind fun _ => (record fun _ => rfl).bind fun _ => lift fun s => ?_
  by_cases h : n ≤ room ∧ src + n ≤ s.mem.length
  · rw [Stream.memcpyFrom_ok h.1 h.2]
    exact ⟨rfl, rfl⟩
  · simp only [Stream.memcpyFrom, EStateM.run_bind, EStateM.run_get, if_neg h]
    exact ⟨rfl, rfl⟩

theorem get {f : Tape → TapeM α} (h : ∀ t, Attempts (f t)) : Attempts (MonadState.get >>= f) :=
  fun s t hst => h t s t hst

/-- A copy to the stream after one `advance`. -/
theorem write {n : ℕ} (hn : n < 2 ^ 32) (src : List UInt8) (m : ℕ) :
    Attempts (do let p ← Tape.advance n; Tape.memcpyTo p src m) :=
  (advance hn).bind fun _ => memcpyTo _ _ _

/-- A copy from the stream after one `advance`. -/
theorem read {n : ℕ} (hn : n < 2 ^ 32) (room m : ℕ) {f : List UInt8 → TapeM β}
    (hf : ∀ bs, Attempts (f bs)) :
    Attempts (do let p ← Tape.advance n; let bs ← Tape.memcpyFrom room p m; f bs) :=
  (advance hn).bind fun _ => (memcpyFrom _ _ _).bind hf

theorem sizeof_lt (s : Scalar) : s.sizeof < 2 ^ 32 := by cases s <;> decide

theorem scalarWrite (s : Scalar) (v : Vec UInt8 s.sizeof) : Attempts (s.tapeWrite v) :=
  write (sizeof_lt s) _ _

theorem scalarRead (s : Scalar) : Attempts s.tapeRead := read (sizeof_lt s) _ _ fun _ => pure _

theorem nextU32 (n : ℕ) : Attempts (tapeNextU32 n) := scalarWrite _ _

/-- A count is one of 32 bits. -/
theorem readU32 {f : ℕ → TapeM α} (hf : ∀ n < 2 ^ 32, Attempts (f n)) :
    Attempts (tapeReadU32 >>= f) := by
  rw [tapeReadU32, bind_assoc]
  refine (scalarRead .uint32).bind fun v => ?_
  rw [pure_bind]
  have hlt := leNat_lt v.1
  rw [v.2] at hlt
  exact hf _ hlt

theorem stringWrite (v : List UInt8) : Attempts (StringSerializer.tapeWrite v) :=
  (nextU32 _).bind fun _ => ite (write (u32_lt _) _ _) (pure _)

theorem stringRead : Attempts StringSerializer.tapeRead :=
  readU32 fun _ hn => ite ((advance hn).bind fun _ => memcpyFrom _ _ _) (pure _)

theorem writeEach {next : α → TapeM Unit} (h : ∀ x, Attempts (next x)) (v : List α) :
    Attempts (tapeWriteEach next v) := by
  induction v with
  | nil => exact pure _
  | cons x xs ih => exact (h x).bind fun _ => ih

theorem readEach {next : α → TapeM α} (h : ∀ x, Attempts (next x)) (v : List α) :
    Attempts (tapeReadEach next v) := by
  induction v with
  | nil => exact pure _
  | cons x xs ih => exact (h x).bind fun _ => ih.bind fun _ => pure _

theorem vectorWrite {t : Ty} {next : t.Val → TapeM Unit} (h : ∀ x, Attempts (next x))
    (v : List t.Val) : Attempts (VectorSerializer.tapeWrite t next v) :=
  ite ((nextU32 _).bind fun _ => ite (write (u32_lt _) _ _) (pure _))
    ((nextU32 _).bind fun _ => writeEach h v)

theorem vectorRead {t : Ty} {next : t.Val → TapeM t.Val} (h : ∀ x, Attempts (next x))
    (v : List t.Val) : Attempts (VectorSerializer.tapeRead t next v) :=
  ite (readU32 fun _ _ => ite (read (u32_lt _) _ _ fun _ => pure _) (pure _))
    (readU32 fun _ _ => readEach h _)

theorem arrayWrite {t : Ty} {n : ℕ+} {next : t.Val → TapeM Unit} (h : ∀ x, Attempts (next x))
    (v : Vec t.Val n) : Attempts (ArraySerializer.tapeWrite t n next v) :=
  ite (write (u32_lt _) _ _) (writeEach h v.1)

theorem arrayRead {t : Ty} {n : ℕ+} {next : t.Val → TapeM t.Val} (h : ∀ x, Attempts (next x))
    (v : Vec t.Val n) : Attempts (ArraySerializer.tapeRead t n next v) :=
  ite (read (u32_lt _) _ _ fun _ => pure _) ((readEach h v.1).bind fun _ => pure _)

theorem rawWrite (v : RawMessage) : Attempts v.tapeWrite :=
  (scalarWrite _ _).bind fun _ => ite (write v.length_lt _ _) (pure _)

theorem rawRead (v : RawMessage) (alloc : Bool) : Attempts (v.tapeRead alloc) :=
  (scalarRead _).bind fun _ => get fun t =>
    ite (read t.stream.getLength_lt _ _ fun _ => pure _) (pure _)

end Attempts

theorem Ty.attempts_write (t : Ty) (v : t.Val) : Attempts (t.tapeWrite v) := by
  induction t with
  | scalar s => exact Attempts.scalarWrite s v
  | bool => exact Attempts.write (by norm_num) _ _
  | string => exact Attempts.stringWrite v
  | vector t ih => exact Attempts.vectorWrite ih v
  | array t n ih => exact Attempts.arrayWrite ih v

theorem Ty.attempts_read (t : Ty) (v : t.Val) : Attempts (t.tapeRead v) := by
  induction t with
  | scalar s => exact Attempts.scalarRead s
  | bool => exact Attempts.read (by norm_num) _ _ fun _ => Attempts.pure _
  | string => exact Attempts.stringRead
  | vector t ih => exact Attempts.vectorRead ih v
  | array t n ih => exact Attempts.arrayRead ih v

/-- **A call moves its stream by calls of `advance`.** -/
theorem StreamCall.attempts (c : StreamCall) : Attempts c.tape := by
  cases c with
  | write t v => exact t.attempts_write v
  | read t v => exact (t.attempts_read v).bind fun _ => Attempts.pure _
  | writeRaw v => exact Attempts.rawWrite v
  | readRaw v alloc => exact (Attempts.rawRead v alloc).bind fun _ => Attempts.pure _

/-! ### Sequences of calls -/

/-- What a caller does with a stream: `advance(len)`, or `next`, `>>` or `<<`. -/
inductive StreamOp
  | advance (len : UInt32)
  | call (c : StreamCall)

/-- The stream after it was used, and what that threw was caught. -/
def Tape.perform (t : Tape) : StreamOp → Tape
  | .advance len => final ((Tape.advance len.toNat).run t)
  | .call c => final (c.tape.run t)

/-- What `Serializer<RawMessage>::read` gets from `getLength()`, if it comes that far. -/
def RawMessage.remaining (s : Stream) : ℕ :=
  match Scalar.uint64.read.run s with
  | .ok _ s => s.getLength
  | .error _ _ => 0

theorem StreamOp.attempts (op : StreamOp) {s : Progress} {t : Tape} (h : Follows s t) :
    ∃ lens, Follows (Run.exec Progress.advance s lens) (t.perform op) := by
  cases op with
  | advance len => exact Attempts.advance len.toNat_lt s t h
  | call c => exact c.attempts s t h

/-- The timestamp is read only before the end. -/
theorem RawMessage.remaining_le (s : Stream) (count : UInt32) (h : s.end_ = count.toNat) :
    RawMessage.remaining s ≤ count.toNat := by
  have hlt : count.toNat < 2 ^ 32 := count.toNat_lt
  rw [remaining, Scalar.read, EStateM.run_bind]
  by_cases hfits : s.data_ + Scalar.uint64.sizeof ≤ s.end_
  · rw [Stream.advance_ok hfits]
    simp only [EStateM.run_bind, Stream.memcpyFrom, EStateM.run_get]
    split_ifs
    · have hlen := Stream.getLength_eq (s := s.skip Scalar.uint64.sizeof) hfits
        (by simp only [Stream.skip]; omega)
      exact hlen.trans_le (by simp only [Stream.skip]; omega)
    · exact Nat.zero_le _
  · rw [Stream.advance_overrun (not_le.1 hfits)]
    exact Nat.zero_le _

namespace Progress

theorem end_advance (s : Progress) (len : UInt32) :
    (s.advance len).stream.end_ = s.stream.end_ := by
  by_cases h : s.stream.data_ + len.toNat ≤ s.stream.end_
  · rw [advance_of_le h, Stream.skip]
  · rw [advance_of_lt (not_le.1 h), Stream.skip]

theorem end_exec (s : Progress) (lens : List UInt32) :
    (Run.exec advance s lens).stream.end_ = s.stream.end_ := by
  induction lens generalizing s with
  | nil => rfl
  | cons len lens ih => exact (ih (s.advance len)).trans (s.end_advance len)

theorem follows_open (mem : List UInt8) (count : UInt32) :
    Follows (open_ mem count) (Tape.open_ mem count.toNat) := ⟨rfl, rfl, rfl⟩

theorem follows_exec (mem : List UInt8) (count : UInt32) (ops : List StreamOp) :
    ∃ lens, Follows (Run.exec advance (open_ mem count) lens)
      (Run.exec Tape.perform (Tape.open_ mem count.toNat) ops) :=
  Run.simulation advance (Q := fun _ _ => True) Follows (fun _ _ op h _ => op.attempts h)
    (follows_open mem count) ((Run.along_iff_forall _ (R := fun _ => True)).2 fun _ _ => trivial)

/-- As long as the lengths of the calls of `advance` add up to no more than the bytes of the buffer,
and no longer, the stream knows what is left. All that is done with a stream is done by such calls.
A raw message never finds more than the buffer has. -/
theorem usable_iff (mem : List UInt8) (count : UInt32) :
    (∀ lens : List UInt32, Run.Always advance (Usable count) (open_ mem count) lens ↔
      (lens.map UInt32.toNat).sum ≤ count.toNat) ∧
    (∀ ops : List StreamOp, ∃ lens, Follows (Run.exec advance (open_ mem count) lens)
      (Run.exec Tape.perform (Tape.open_ mem count.toNat) ops)) ∧
    ∀ ops : List StreamOp,
      RawMessage.remaining (Run.exec Tape.perform (Tape.open_ mem count.toNat) ops).stream
        ≤ count.toNat := by
  refine ⟨fun lens => ?_, follows_exec mem count, fun ops => ?_⟩
  · rw [Run.always_iff_along advance (R := fun _ => True) (P := Fits count) (Inv count)
      (fun _ hs => hs.usable) (fun _ _ _ hs h => hs.advance h) (fun _ _ _ hs hq => hs.fits hq)
      (inv_open mem count) fun _ _ => trivial, along_fits_iff (inv_open mem count)]
    simp [open_]
  · obtain ⟨lens, h⟩ := follows_exec mem count ops
    exact RawMessage.remaining_le _ count (h.end_eq.symm.trans (end_exec _ lens))

/-- One refused call, and 4 bytes become 4294967292. -/
theorem not_usable_overrun : ¬ Run.Always advance (Usable 4) (open_ [0, 0, 0, 0] 4) [8] :=
  fun h => absurd h.2.getLength (by decide)

end Progress

end MessageTransport
