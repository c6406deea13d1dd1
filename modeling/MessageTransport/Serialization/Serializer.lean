import MessageTransport.Serialization.Stream

/-!
# The serializers of `serialization.h`

`Ty` is the universe of types that the header can serialize without user code: the fixed-width
scalars, `bool`, `std::string`, `std::vector<T>` and `boost::array<T, N>` with `N ≥ 1`, nested to
any depth. A value of a scalar type is its object representation, the bytes that `memcpy` and the
typed accesses of the header move; the bytes of a `uint32_t` count are least significant first.

The container serializers take the element serializer `next` as an argument; `Ty.write`,
`Ty.read` and `Ty.serializationLength` close the recursion the way the overloads of `serialize`,
`deserialize` and `serializationLength` do. Allocations made by the containers succeed.
-/

namespace MessageTransport

open Bytes MessageTransport.Stream

/-! ### Types and values -/

/-- The types of `MSGT_CREATE_SIMPLE_SERIALIZER`. -/
inductive Scalar
  | uint8 | int8 | uint16 | int16 | uint32 | int32 | uint64 | int64 | float | double
  deriving DecidableEq

def Scalar.sizeof : Scalar → ℕ
  | .uint8 | .int8 => 1
  | .uint16 | .int16 => 2
  | .uint32 | .int32 | .float => 4
  | .uint64 | .int64 | .double => 8

/-- The serializable types. -/
inductive Ty
  | scalar (s : Scalar)
  | bool
  | string
  | vector (t : Ty)
  | array (t : Ty) (n : ℕ+)
  deriving DecidableEq

/-- Objects of `n` elements. -/
abbrev Vec (α : Type) (n : ℕ) := {l : List α // l.length = n}

def Vec.replicate {α : Type} {n : ℕ} (a : α) : Vec α n := ⟨List.replicate n a, by simp⟩

/-- `bs` as an object of `n` elements, or the object `old` when the number of elements differs. -/
def vecOf {α : Type} {n : ℕ} (old : Vec α n) (bs : List α) : Vec α n :=
  if h : bs.length = n then ⟨bs, h⟩ else old

/-- The values of a type. -/
def Ty.Val : Ty → Type
  | .scalar s => Vec UInt8 s.sizeof
  | .bool => Bool
  | .string => List UInt8
  | .vector t => List t.Val
  | .array t n => Vec t.Val n

/-- `IsSimple<T>`. -/
def Ty.isSimple : Ty → Bool
  | .scalar _ => true
  | _ => false

/-- `IsFixedSize<T>`: the simple types and `bool`. -/
def Ty.isFixedSize : Ty → Bool
  | .scalar _ | .bool => true
  | _ => false

/-- `sizeof(T)`, for the simple types. -/
def Ty.sizeof : Ty → ℕ
  | .scalar s => s.sizeof
  | _ => 0

/-- The value-initialized object of a type. -/
def Ty.zero : (t : Ty) → t.Val
  | .scalar _ => Vec.replicate (0 : UInt8)
  | .bool => false
  | .string => ([] : List UInt8)
  | .vector t => ([] : List t.Val)
  | .array t _ => Vec.replicate t.zero

/-- The object representation of a value of a simple type. -/
def Ty.objectBytes : (t : Ty) → t.Val → List UInt8
  | .scalar _, v => v.1
  | _, _ => []

/-- The objects stored from `objs` on after the bytes `bs` were copied over them. -/
def copyOver {w : ℕ} : List (Vec UInt8 w) → List UInt8 → List (Vec UInt8 w)
  | [], _ => []
  | x :: xs, bs => if h : (bs.take w).length = w then ⟨bs.take w, h⟩ :: copyOver xs (bs.drop w)
      else x :: xs

/-- The elements of a contiguous container after `memcpy(&v.front(), src, n)` of the bytes `bs`. -/
def Ty.copyElements : (t : Ty) → List t.Val → List UInt8 → List t.Val
  | .scalar s, v, bs => copyOver (w := s.sizeof) v bs
  | _, v, _ => v

/-! ### Scalars, bool and string -/

def Scalar.write (s : Scalar) (v : Vec UInt8 s.sizeof) : StreamM Unit := do
  let p ← advance s.sizeof
  memcpyTo p v.1 s.sizeof

def Scalar.read (s : Scalar) : StreamM (Vec UInt8 s.sizeof) := do
  let p ← advance s.sizeof
  let bs ← memcpyFrom s.sizeof p s.sizeof
  return vecOf (Vec.replicate 0) bs

/-- `stream.next(n)` for a `uint32_t`. -/
def nextU32 (n : ℕ) : StreamM Unit := Scalar.uint32.write ⟨leBytes 4 n, length_leBytes 4 n⟩

/-- `stream.next(len)` into a `uint32_t`. -/
def readU32 : StreamM ℕ := do
  let v ← Scalar.uint32.read
  return leNat v.1

namespace BoolSerializer

def write (v : Bool) : StreamM Unit := do
  let b : UInt8 := if v then 1 else 0
  let p ← advance 1
  memcpyTo p [b] 1

def read : StreamM Bool := do
  let p ← advance 1
  let b ← memcpyFrom 1 p 1
  return b.any (· ≠ 0)

end BoolSerializer

namespace StringSerializer

/-- The length goes through `uint32_t`, the `memcpy` takes it whole. -/
def write (str : List UInt8) : StreamM Unit := do
  let len := str.length
  nextU32 (u32 len)
  if len > 0 then
    let p ← advance (u32 len)
    memcpyTo p str len

def read : StreamM (List UInt8) := do
  let len ← readU32
  if len > 0 then
    let p ← advance len
    memcpyFrom len p len
  else return []

def serializedLength (str : List UInt8) : ℕ := u32 (4 + u32 str.length)

end StringSerializer

/-! ### Containers -/

/-- `for (; it != end; ++it) stream.next(*it)` on an output stream. -/
def writeEach {α : Type} (next : α → StreamM Unit) : List α → StreamM Unit
  | [] => return ()
  | x :: xs => do
    next x
    writeEach next xs

/-- `for (; it != end; ++it) stream.next(*it)` on an input stream; `next` gets the element's
previous contents. -/
def readEach {α : Type} (next : α → StreamM α) : List α → StreamM (List α)
  | [] => return []
  | x :: xs => do
    let y ← next x
    let ys ← readEach next xs
    return y :: ys

/-- `size += serializationLength(*it)` over all elements, in `uint32_t`. -/
def sumLengths {α : Type} (len : α → ℕ) (size : ℕ) : List α → ℕ
  | [] => size
  | x :: xs => sumLengths len (u32 (size + len x)) xs

/-- `std::vector::resize`. -/
def resize {α : Type} (zero : α) (v : List α) (len : ℕ) : List α :=
  v.take len ++ List.replicate (len - v.length) zero

namespace VectorSerializer

variable (t : Ty)

/-- The specialization for simple types copies the storage; the two others write each element. -/
def write (next : t.Val → StreamM Unit) (v : List t.Val) : StreamM Unit :=
  if t.isSimple then do
    let len := u32 v.length
    nextU32 len
    if !v.isEmpty then
      let data_len := u32 (len * t.sizeof)
      let p ← advance data_len
      memcpyTo p (v.flatMap t.objectBytes) data_len
  else do
    nextU32 (u32 v.length)
    writeEach next v

def read (next : t.Val → StreamM t.Val) (v : List t.Val) : StreamM (List t.Val) :=
  if t.isSimple then do
    let len ← readU32
    let v := resize t.zero v len
    if len > 0 then
      let data_len := u32 (t.sizeof * len)
      let p ← advance data_len
      let bs ← memcpyFrom (v.length * t.sizeof) p data_len
      return t.copyElements v bs
    else return v
  else do
    let len ← readU32
    readEach next (resize t.zero v len)

/-- The three specializations: not fixed-size, simple, fixed-size and not simple. -/
def serializedLength (len : t.Val → ℕ) (v : List t.Val) : ℕ :=
  if !t.isFixedSize then sumLengths len 4 v
  else if t.isSimple then u32 (4 + v.length * t.sizeof)
  else match v with
    | [] => 4
    | front :: _ => u32 (4 + u32 (len front * u32 v.length))

end VectorSerializer

namespace ArraySerializer

variable (t : Ty) (n : ℕ+)

def write (next : t.Val → StreamM Unit) (v : Vec t.Val n) : StreamM Unit :=
  if t.isSimple then do
    let data_len := u32 (n * t.sizeof)
    let p ← advance data_len
    memcpyTo p (v.1.flatMap t.objectBytes) data_len
  else writeEach next v.1

def read (next : t.Val → StreamM t.Val) (v : Vec t.Val n) :
    StreamM (Vec t.Val n) :=
  if t.isSimple then do
    let data_len := u32 (n * t.sizeof)
    let p ← advance data_len
    let bs ← memcpyFrom (n * t.sizeof) p data_len
    return vecOf v (t.copyElements v.1 bs)
  else do
    let l ← readEach next v.1
    return vecOf v l

def serializedLength (len : t.Val → ℕ) (v : Vec t.Val n) : ℕ :=
  if !t.isFixedSize then sumLengths len 0 v.1
  else if t.isSimple then u32 (n * t.sizeof)
  else u32 (len (v.1.get ⟨0, by rw [v.2]; exact n.pos⟩) * n)

end ArraySerializer

/-! ### Dispatch -/

/-- `serialize(stream, t)`. -/
def Ty.write : (t : Ty) → t.Val → StreamM Unit
  | .scalar s, v => s.write v
  | .bool, v => BoolSerializer.write v
  | .string, v => StringSerializer.write v
  | .vector t, v => VectorSerializer.write t t.write v
  | .array t n, v => ArraySerializer.write t n t.write v

/-- `deserialize(stream, t)`, where `t` held a given value before. -/
def Ty.read : (t : Ty) → t.Val → StreamM t.Val
  | .scalar s, _ => s.read
  | .bool, _ => BoolSerializer.read
  | .string, _ => StringSerializer.read
  | .vector t, v => VectorSerializer.read t t.read v
  | .array t n, v => ArraySerializer.read t n t.read v

/-- `serializationLength(t)`. -/
def Ty.serializationLength : (t : Ty) → t.Val → ℕ
  | .scalar s, _ => s.sizeof
  | .bool, _ => 1
  | .string, v => StringSerializer.serializedLength v
  | .vector t, v => VectorSerializer.serializedLength t t.serializationLength v
  | .array t n, v => ArraySerializer.serializedLength t n t.serializationLength v

/-- The round trip of a small nested value, through a stream of the computed length. -/
example :
    let t : Ty := .vector .string
    let v : t.Val := [[104, 105], []]
    (t.write v).run (open_ (List.replicate 14 0) (t.serializationLength v)) =
      .ok () ⟨[2, 0, 0, 0, 2, 0, 0, 0, 104, 105, 0, 0, 0, 0], 14, 14⟩ := by
  rfl

end MessageTransport
