import MessageTransport.Serialization.Encoding

/-!
# What the writers put on the wire

`Ty.encode` counts without bound; the writers count in `uint32_t`. `Ty.wire` follows them: counts
are taken modulo `2 ^ 32`, and a block copy takes as many bytes as its 32-bit length says. The two
agree for every value whose encoding is shorter than `2 ^ 32` bytes (`Ty.wire_eq_encode`).

The computed lengths are those of the wire format, modulo `2 ^ 32` and for all values
(`Ty.serializationLength_eq_wire`).
-/

namespace MessageTransport

open Bytes MessageTransport.Stream

theorem u32_le (n : ℕ) : u32 n ≤ n := Nat.mod_le _ _

@[simp] theorem u32_u32_add (m n : ℕ) : u32 (u32 m + n) = u32 (m + n) := Nat.mod_add_mod ..

@[simp] theorem u32_add_u32 (m n : ℕ) : u32 (m + u32 n) = u32 (m + n) := Nat.add_mod_mod ..

@[simp] theorem u32_u32_mul (m n : ℕ) : u32 (u32 m * n) = u32 (m * n) := Nat.mod_mul_mod ..

@[simp] theorem u32_mul_u32 (m n : ℕ) : u32 (m * u32 n) = u32 (m * n) := Nat.mul_mod_mod ..

/-- The bytes that one block copy moves out of a container of simple elements. -/
def bulk (t : Ty) (v : List t.Val) : List UInt8 :=
  (v.flatMap t.objectBytes).take (u32 (v.length * t.sizeof))

namespace StringSerializer

/-- The bytes of a string on the wire. -/
def wire (v : List UInt8) : List UInt8 := encodeCounted (u32 v.length) (v.take (u32 v.length))

end StringSerializer

namespace VectorSerializer

/-- The bytes of a vector on the wire. -/
def wire (t : Ty) (next : t.Val → List UInt8) (v : List t.Val) : List UInt8 :=
  encodeCounted (u32 v.length) (if t.isSimple then bulk t v else v.flatMap next)

end VectorSerializer

namespace ArraySerializer

/-- The bytes of an array on the wire. -/
def wire (t : Ty) (next : t.Val → List UInt8) (v : List t.Val) : List UInt8 :=
  if t.isSimple then bulk t v else v.flatMap next

end ArraySerializer

/-- The bytes that `serialize` writes for a value. -/
def Ty.wire : (t : Ty) → t.Val → List UInt8
  | .scalar _, v => v.1
  | .bool, v => encodeBool v
  | .string, v => StringSerializer.wire v
  | .vector t, v => VectorSerializer.wire t t.wire v
  | .array t _, v => ArraySerializer.wire t t.wire v.1

/-- No string in the value has `2 ^ 32` or more characters. -/
def Ty.Short : (t : Ty) → t.Val → Prop
  | .scalar _, _ | .bool, _ => True
  | .string, v => List.length v < 2 ^ 32
  | .vector t, v => ∀ x ∈ (show List t.Val from v), t.Short x
  | .array t _, v => ∀ x ∈ v.1, t.Short x

/-! ### Simple types -/

theorem Ty.flatMap_objectBytes {t : Ty} (h : t.isSimple) (v : List t.Val) :
    v.flatMap t.objectBytes = v.flatMap t.encode := by
  simp only [funext (Ty.objectBytes_eq h)]

theorem length_objects {t : Ty} (h : t.isSimple) (v : List t.Val) :
    (v.flatMap t.objectBytes).length = v.length * t.sizeof := by
  rw [Ty.flatMap_objectBytes h, Ty.length_flatMap_simple h]

/-- A block copy stays within the container. -/
theorem bulk_le {t : Ty} (h : t.isSimple) (v : List t.Val) :
    u32 (v.length * t.sizeof) ≤ (v.flatMap t.objectBytes).length := by
  rw [length_objects h]
  exact u32_le _

theorem length_bulk {t : Ty} (h : t.isSimple) (v : List t.Val) :
    (bulk t v).length = u32 (v.length * t.sizeof) := by
  rw [bulk, List.length_take, min_eq_left (bulk_le h v)]

theorem bulk_eq_encode {t : Ty} (h : t.isSimple) {v : List t.Val}
    (hlt : v.length * t.sizeof < 2 ^ 32) : bulk t v = v.flatMap t.encode := by
  rw [bulk, u32_of_lt hlt, List.take_of_length_le (length_objects h v).le,
    Ty.flatMap_objectBytes h]

theorem Ty.wire_simple {t : Ty} (h : t.isSimple) (v : t.Val) : t.wire v = t.encode v := by
  cases t <;> first | rfl | cases h

theorem flatMap_congr {α β : Type} {f g : α → List β} {l : List α} (h : ∀ x ∈ l, f x = g x) :
    l.flatMap f = l.flatMap g := by
  induction l with
  | nil => rfl
  | cons x l ih =>
    rw [List.flatMap_cons, List.flatMap_cons, h x (by simp), ih fun y hy => h y (by simp [hy])]

theorem StringSerializer.wire_eq_encode {v : List UInt8} (hlt : v.length < 2 ^ 32) :
    StringSerializer.wire v = encodeCounted v.length v := by
  rw [StringSerializer.wire, u32_of_lt hlt, List.take_length]

theorem ArraySerializer.wire_eq_encode {t : Ty}
    (ih : ∀ v : t.Val, (t.encode v).length < 2 ^ 32 → t.wire v = t.encode v) {v : List t.Val}
    (hlt : (v.flatMap t.encode).length < 2 ^ 32) :
    ArraySerializer.wire t t.wire v = v.flatMap t.encode := by
  rw [ArraySerializer.wire]
  split_ifs with hs
  · exact bulk_eq_encode hs (by rwa [← Ty.length_flatMap_simple hs])
  · exact flatMap_congr fun x hx => ih x (lt_of_le_of_lt (length_le_flatMap hx) hlt)

theorem VectorSerializer.wire_eq_encode {t : Ty}
    (ih : ∀ v : t.Val, (t.encode v).length < 2 ^ 32 → t.wire v = t.encode v) {v : List t.Val}
    (hlt : (v.flatMap t.encode).length < 2 ^ 32) :
    VectorSerializer.wire t t.wire v = encodeCounted v.length (v.flatMap t.encode) := by
  have hle := t.length_le_encode v
  rw [VectorSerializer.wire, u32_of_lt (n := v.length) (by omega)]
  exact congrArg _ (ArraySerializer.wire_eq_encode ih hlt)

/-- The wire format is the encoding, up to `2 ^ 32` bytes. -/
theorem Ty.wire_eq_encode (t : Ty) (v : t.Val) (hlt : (t.encode v).length < 2 ^ 32) :
    t.wire v = t.encode v := by
  induction t with
  | scalar s => rfl
  | bool => rfl
  | string =>
    rw [Ty.length_encode_string] at hlt
    exact StringSerializer.wire_eq_encode (by omega)
  | vector t ih =>
    rw [Ty.length_encode_vector] at hlt
    exact VectorSerializer.wire_eq_encode ih (by omega)
  | array t n ih => exact ArraySerializer.wire_eq_encode ih hlt

/-! ### Computed lengths -/

/-- Lengths are added up modulo `2 ^ 32`. -/
theorem sumLengths_eq_wire {α : Type} {len : α → ℕ} {wire : α → List UInt8}
    (h : ∀ x, len x = u32 (wire x).length) (v : List α) {size : ℕ} (hsize : size < 2 ^ 32) :
    sumLengths len size v = u32 (size + (v.flatMap wire).length) := by
  induction v generalizing size with
  | nil => rw [List.flatMap_nil, List.length_nil, Nat.add_zero, u32_of_lt hsize, sumLengths]
  | cons x xs ih =>
    rw [sumLengths, ih (u32_lt _), h, length_flatMap_cons, u32_add_u32, u32_u32_add, Nat.add_assoc]

/-- Elements of one length. -/
theorem length_flatMap_const {α : Type} {wire : α → List UInt8} (v : List α) {n : ℕ}
    (h : ∀ x ∈ v, (wire x).length = n) : (v.flatMap wire).length = n * v.length := by
  induction v with
  | nil => simp
  | cons x xs ih =>
    rw [length_flatMap_cons, h x (by simp), ih fun y hy => h y (by simp [hy]), List.length_cons]
    ring

/-- The encodings on the wire of a type of fixed size have one length. -/
theorem Ty.length_wire_fixed {t : Ty} (h : t.isFixedSize) (v w : t.Val) :
    (t.wire v).length = (t.wire w).length := by
  cases t with
  | scalar s => exact v.2.trans w.2.symm
  | bool => rfl
  | string => cases h
  | vector t => cases h
  | array t n => cases h

theorem Ty.isFixedSize_of_simple {t : Ty} (h : t.isSimple) : t.isFixedSize := by
  cases t <;> first | rfl | cases h

theorem StringSerializer.length_wire (v : List UInt8) :
    (StringSerializer.wire v).length = 4 + u32 v.length := by
  rw [StringSerializer.wire, length_encodeCounted, List.length_take, min_eq_left (u32_le _)]

theorem VectorSerializer.serializedLength_eq_wire {t : Ty}
    (ih : ∀ v : t.Val, t.serializationLength v = u32 (t.wire v).length) (v : List t.Val) :
    VectorSerializer.serializedLength t t.serializationLength v
      = u32 (VectorSerializer.wire t t.wire v).length := by
  unfold VectorSerializer.serializedLength
  rw [VectorSerializer.wire, length_encodeCounted]
  by_cases hs : t.isSimple
  · have hf := Ty.isFixedSize_of_simple hs
    rw [if_neg (by simp [hf]), if_pos hs, if_pos hs, length_bulk hs, u32_add_u32]
  · rw [if_neg hs, if_neg hs]
    by_cases hf : t.isFixedSize
    · rw [if_neg (by simp [hf])]
      cases v with
      | nil => rfl
      | cons x xs =>
        have hlen := length_flatMap_const (x :: xs) fun y _ => Ty.length_wire_fixed hf y x
        simp only
        rw [ih x, hlen, u32_u32_mul, u32_mul_u32, u32_add_u32]
    · rw [if_pos (by simp [hf])]
      exact sumLengths_eq_wire ih v (by norm_num)

theorem ArraySerializer.serializedLength_eq_wire {t : Ty} {n : ℕ+}
    (ih : ∀ v : t.Val, t.serializationLength v = u32 (t.wire v).length) (v : Vec t.Val n) :
    ArraySerializer.serializedLength t n t.serializationLength v
      = u32 (ArraySerializer.wire t t.wire v.1).length := by
  rw [ArraySerializer.wire, ArraySerializer.serializedLength]
  by_cases hs : t.isSimple
  · have hf := Ty.isFixedSize_of_simple hs
    rw [if_neg (by simp [hf]), if_pos hs, if_pos hs, length_bulk hs, v.2, u32_of_lt (u32_lt _)]
  · rw [if_neg hs, if_neg hs]
    by_cases hf : t.isFixedSize
    · rw [if_neg (by simp [hf])]
      generalize v.1.get ⟨0, _⟩ = front
      have hlen := length_flatMap_const v.1 fun y _ => Ty.length_wire_fixed hf y front
      rw [ih front, hlen, v.2, u32_u32_mul]
    · rw [if_pos (by simp [hf]), sumLengths_eq_wire ih v.1 (by norm_num), Nat.zero_add]

/-- **The computed length is the number of bytes on the wire, modulo `2 ^ 32`.** -/
theorem Ty.serializationLength_eq_wire (t : Ty) (v : t.Val) :
    t.serializationLength v = u32 (t.wire v).length := by
  induction t with
  | scalar s =>
    have hlen : (Ty.wire (.scalar s) v).length = s.sizeof := v.2
    rw [hlen]
    cases s <;> rfl
  | bool => rfl
  | string =>
    have hlen : (Ty.string.wire v).length = _ := StringSerializer.length_wire v
    rw [hlen]
    rfl
  | vector t ih => exact VectorSerializer.serializedLength_eq_wire ih v
  | array t n ih => exact ArraySerializer.serializedLength_eq_wire ih v

end MessageTransport
