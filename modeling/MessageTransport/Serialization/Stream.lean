import MessageTransport.Lib.Bytes

/-!
# Streams over a block of memory

`IStream` and `OStream` of `serialization.h` are one structure here: a window `[data_, end_)` of
the memory `mem` they were given. Positions count from the first byte of that memory. A stream
action either returns or leaves by a `Fault`, and in both cases the stream keeps the state it has
reached: `advance` moves the position before it compares it with the end.

An access that leaves `mem` has no defined behaviour in the source; it ends in `Fault.undefined`,
so that its absence can be proved.
-/

namespace MessageTransport

open Bytes

/-- Conversion to `uint32_t`. -/
def u32 (n : ℕ) : ℕ := n % 2 ^ 32

theorem u32_of_lt {n : ℕ} (h : n < 2 ^ 32) : u32 n = n := Nat.mod_eq_of_lt h

theorem u32_lt (n : ℕ) : u32 n < 2 ^ 32 := Nat.mod_lt _ (by norm_num)

/-- The ways a call is left without returning. -/
inductive Fault
  /-- `StreamOverrunException`, with its text. -/
  | streamOverrun (what : String)
  /-- `boost::interprocess::bad_alloc`. -/
  | badAlloc
  /-- An access to memory the program does not own. -/
  | undefined
  deriving DecidableEq

/-- `throwStreamOverrun()`. -/
def throwStreamOverrun : Fault := .streamOverrun "Buffer Overrun"

/-- A stream: the memory behind it, its position and its end. -/
structure Stream where
  mem : List UInt8
  data_ : ℕ
  end_ : ℕ
  deriving DecidableEq

/-- Actions on a stream; the state survives a fault. -/
abbrev StreamM := EStateM Fault Stream

namespace Stream

/-- `IStream(data, count)` and `OStream(data, count)`. -/
def open_ (mem : List UInt8) (count : ℕ) : Stream := ⟨mem, 0, count⟩

/-- `getLength()`: the pointer difference, converted to `uint32_t`. -/
def getLength (s : Stream) : ℕ := (((s.end_ : ℤ) - s.data_) % 2 ^ 32).toNat

/-- `advance(len)`: move on by `len` bytes and return the old position. -/
def advance (len : ℕ) : StreamM ℕ := do
  let s ← get
  set { s with data_ := s.data_ + len }
  if s.data_ + len > s.end_ then throw throwStreamOverrun
  return s.data_

/-- `memcpy(dst, src, n)` into the stream's memory, at position `dst`. -/
def memcpyTo (dst : ℕ) (src : List UInt8) (n : ℕ) : StreamM Unit := do
  let s ← get
  if n ≤ src.length ∧ dst + n ≤ s.mem.length then
    set { s with mem := overwrite s.mem dst (src.take n) }
  else throw .undefined

/-- `memcpy(dst, src, n)` out of the stream's memory, from position `src`, into an object of
`room` bytes; the bytes copied. -/
def memcpyFrom (room src n : ℕ) : StreamM (List UInt8) := do
  let s ← get
  if n ≤ room ∧ src + n ≤ s.mem.length then return (s.mem.drop src).take n
  else throw .undefined

theorem run_advance (s : Stream) (len : ℕ) :
    (advance len).run s = if s.data_ + len > s.end_
      then .error throwStreamOverrun { s with data_ := s.data_ + len }
      else .ok s.data_ { s with data_ := s.data_ + len } := by
  unfold advance
  split_ifs with h
  · simp only [EStateM.run_bind, EStateM.run_get, EStateM.run_set, if_pos h]
    rfl
  · simp only [EStateM.run_bind, EStateM.run_get, EStateM.run_set, if_neg h]
    rfl

theorem advance_ok {s : Stream} {len : ℕ} (h : s.data_ + len ≤ s.end_) :
    (advance len).run s = .ok s.data_ { s with data_ := s.data_ + len } := by
  rw [run_advance, if_neg (by omega)]

theorem advance_overrun {s : Stream} {len : ℕ} (h : s.end_ < s.data_ + len) :
    (advance len).run s = .error throwStreamOverrun { s with data_ := s.data_ + len } := by
  rw [run_advance, if_pos h]

theorem memcpyTo_ok {s : Stream} {dst : ℕ} {src : List UInt8} {n : ℕ} (hn : n ≤ src.length)
    (h : dst + n ≤ s.mem.length) :
    (memcpyTo dst src n).run s = .ok () { s with mem := overwrite s.mem dst (src.take n) } := by
  simp [memcpyTo, hn, h]

theorem memcpyFrom_ok {s : Stream} {room src n : ℕ} (hn : n ≤ room)
    (h : src + n ≤ s.mem.length) :
    (memcpyFrom room src n).run s = .ok ((s.mem.drop src).take n) s := by
  simp [memcpyFrom, hn, h]

theorem getLength_eq {s : Stream} (h : s.data_ ≤ s.end_) (hlt : s.end_ - s.data_ < 2 ^ 32) :
    s.getLength = s.end_ - s.data_ := by
  have h1 : (s.end_ : ℤ) - s.data_ = ((s.end_ - s.data_ : ℕ) : ℤ) := by omega
  rw [getLength, h1, Int.emod_eq_of_lt (by omega) (by exact_mod_cast hlt)]
  rfl

/-- An action that reaches memory through its stream only: on a stream inside its memory it makes
no undefined access, whatever it meets. -/
def Confined {α : Type} (w : StreamM α) : Prop :=
  ∀ s e s', s.end_ ≤ s.mem.length → w.run s = .error e s' → e ≠ .undefined

/-! ### Writing and reading a run of bytes -/

/-- There are `n` more bytes before the end, all of them in memory. -/
def Room (s : Stream) (n : ℕ) : Prop := s.data_ + n ≤ s.end_ ∧ s.end_ ≤ s.mem.length

/-- The stream after the bytes `bs` were written at its position. -/
def put (s : Stream) (bs : List UInt8) : Stream :=
  { s with mem := overwrite s.mem s.data_ bs, data_ := s.data_ + bs.length }

@[simp] theorem put_nil (s : Stream) : s.put [] = s := by simp [put]

@[simp] theorem put_data (s : Stream) (bs : List UInt8) :
    (s.put bs).data_ = s.data_ + bs.length := rfl

@[simp] theorem put_end (s : Stream) (bs : List UInt8) : (s.put bs).end_ = s.end_ := rfl

theorem Room.mono {s : Stream} {m n : ℕ} (h : s.Room n) (hmn : m ≤ n) : s.Room m :=
  ⟨by have := h.1; omega, h.2⟩

theorem put_put {s : Stream} {as bs : List UInt8} (h : s.Room (as.length + bs.length)) :
    (s.put as).put bs = s.put (as ++ bs) := by
  have hlen : s.data_ + as.length + bs.length ≤ s.mem.length := by
    have := h.1; have := h.2; omega
  simp only [put, overwrite_overwrite hlen, List.length_append, Nat.add_assoc]

theorem Room.put {s : Stream} {bs : List UInt8} {n : ℕ} (h : s.Room (bs.length + n)) :
    (s.put bs).Room n := by
  obtain ⟨h1, h2⟩ := h
  refine ⟨by simp; omega, ?_⟩
  show s.end_ ≤ (overwrite s.mem s.data_ bs).length
  rwa [length_overwrite (by omega)]

/-- One `advance` and one `memcpy` of as many bytes write these bytes. -/
theorem advance_memcpyTo {s : Stream} {src : List UInt8} {n : ℕ} (hn : n = src.length)
    (h : s.Room n) :
    (advance n >>= fun p => memcpyTo p src n).run s = .ok () (s.put src) := by
  obtain ⟨h1, h2⟩ := h
  rw [EStateM.run_bind, advance_ok h1]
  simp only
  rw [memcpyTo_ok hn.le (by simp only; omega)]
  simp [put, hn]

/-- The stream after `n` bytes were read. -/
def skip (s : Stream) (n : ℕ) : Stream := { s with data_ := s.data_ + n }

@[simp] theorem skip_skip (s : Stream) (m n : ℕ) : (s.skip m).skip n = s.skip (m + n) := by
  simp [skip, Nat.add_assoc]

/-- The bytes `bs` lie at the position, all of them before the end. -/
def Ahead (s : Stream) (bs : List UInt8) : Prop :=
  s.Room bs.length ∧ bs <+: s.mem.drop s.data_

theorem Ahead.left {s : Stream} {as bs : List UInt8} (h : s.Ahead (as ++ bs)) : s.Ahead as :=
  ⟨h.1.mono (by simp), (List.prefix_append as bs).trans h.2⟩

theorem Ahead.right {s : Stream} {as bs : List UInt8} (h : s.Ahead (as ++ bs)) :
    (s.skip as.length).Ahead bs := by
  obtain ⟨⟨h1, h2⟩, rest, h3⟩ := h
  rw [List.length_append] at h1
  refine ⟨⟨by simp only [skip]; omega, h2⟩, rest, ?_⟩
  show bs ++ rest = s.mem.drop (s.data_ + as.length)
  rw [← List.drop_drop, ← h3, List.append_assoc, List.drop_left]

/-- One `advance` and one `memcpy` of as many bytes read the bytes ahead. -/
theorem advance_memcpyFrom {s : Stream} {bs : List UInt8} {room n : ℕ} (hn : n = bs.length)
    (hroom : n ≤ room) (h : s.Ahead bs) :
    (advance n >>= fun p => memcpyFrom room p n).run s = .ok bs (s.skip n) := by
  obtain ⟨⟨h1, h2⟩, rest, h3⟩ := h
  subst hn
  rw [EStateM.run_bind, advance_ok h1]
  simp only
  rw [memcpyFrom_ok hroom (by simp only; omega)]
  simp [skip, ← h3]

end Stream

end MessageTransport
