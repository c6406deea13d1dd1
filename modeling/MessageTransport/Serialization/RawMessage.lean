import MessageTransport.Serialization.Serializer

/-!
# Raw messages

`RawMessage` of `message_types.h`: a timestamp and a buffer whose length is a `uint32_t`. On the
wire the buffer has no length of its own; a reader takes all that is left in the stream.

`allocate` reports a failed allocation by its result, after the old buffer is gone; whether the
allocator succeeds is an argument.
-/

namespace MessageTransport

open MessageTransport.Stream

/-- `Timestamp`, an `unsigned long long`. -/
abbrev Timestamp := Vec UInt8 (Scalar.sizeof .uint64)

/-- A timestamp and the `m_allocated_bytes` bytes at `m_value`. -/
structure RawMessage where
  timestamp : Timestamp
  m_value : List UInt8
  length_lt : m_value.length < 2 ^ 32
  deriving DecidableEq

namespace RawMessage

/-- `RawMessage_()`. -/
def empty : RawMessage := ⟨Vec.replicate 0, [], by simp⟩

/-- `getDataLength()`. -/
def getDataLength (v : RawMessage) : ℕ := v.m_value.length

/-- `allocate(size)`: its result and the message afterwards. The contents of a new buffer are
unspecified; they are zero here. -/
def allocate (v : RawMessage) (size : ℕ) (alloc : Bool) : Bool × RawMessage :=
  if size = v.getDataLength then (true, v)
  else if 0 < size ∧ !alloc then (false, { v with m_value := [], length_lt := by simp })
  else (true, { v with m_value := List.replicate (u32 size) 0,
                       length_lt := by simpa using u32_lt size })

/-- `memcpy(v.getDataPtr(), src, n)` of the bytes `bs` over the whole buffer. -/
def setData (v : RawMessage) (bs : List UInt8) : RawMessage :=
  if h : bs.length < 2 ^ 32 then { v with m_value := bs, length_lt := h } else v

/-- `Serializer<RawMessage>::write`. -/
def write (v : RawMessage) : StreamM Unit := do
  Scalar.uint64.write v.timestamp
  let data_size := v.getDataLength
  if data_size > 0 then
    let p ← advance data_size
    memcpyTo p v.m_value data_size

/-- `Serializer<RawMessage>::read`. -/
def read (v : RawMessage) (alloc : Bool) : StreamM RawMessage := do
  let timestamp ← Scalar.uint64.read
  let v := { v with timestamp := timestamp }
  let data_size := (← get).getLength
  let (ok, v) := v.allocate data_size alloc
  if ok && data_size > 0 then
    let p ← advance data_size
    let bs ← memcpyFrom v.getDataLength p data_size
    return v.setData bs
  else return v

/-- `Serializer<RawMessage>::serializedLength`. -/
def serializedLength (v : RawMessage) : ℕ := u32 (Scalar.sizeof .uint64 + v.getDataLength)

end RawMessage

end MessageTransport
