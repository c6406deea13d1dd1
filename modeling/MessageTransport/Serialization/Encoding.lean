import MessageTransport.Serialization.RawMessage

/-!
# The wire format

`Ty.encode` says what the bytes of a value are, without streams and without 32-bit arithmetic. The
writers, the readers and the computed lengths of the header are compared with it:

* `Ty.write_eq`: with room for the encoding, `write` puts exactly the encoding;
* `Ty.read_eq`: in front of an encoding, `read` returns the encoded value and skips the encoding,
  whatever the target held;
* `Ty.serializationLength_eq`: the computed length is the length of the encoding.

All three need the encoding to be shorter than `2 ^ 32`, and all three are inductions on the type
with an inner induction on the elements of a container.
-/

namespace MessageTransport

open Bytes MessageTransport.Stream

/-- The bytes of a `bool`. -/
def encodeBool (v : Bool) : List UInt8 := [if v then 1 else 0]

/-- A count in front of the bytes it counts. -/
def encodeCounted (n : ℕ) (bs : List UInt8) : List UInt8 := leBytes 4 n ++ bs

/-- The bytes of a value. -/
def Ty.encode : (t : Ty) → t.Val → List UInt8
  | .scalar _, v => v.1
  | .bool, v => encodeBool v
  | .string, v => encodeCounted (List.length v) v
  | .vector t, v => encodeCounted (List.length v) (List.flatMap t.encode v)
  | .array t _, v => List.flatMap t.encode v.1

/-- The bytes of a raw message: the timestamp, then the data up to the end of the stream. -/
def RawMessage.encode (v : RawMessage) : List UInt8 := v.timestamp.1 ++ v.m_value

/-! ### Lengths of encodings -/

@[simp] theorem length_encodeCounted (n : ℕ) (bs : List UInt8) :
    (encodeCounted n bs).length = 4 + bs.length := by simp [encodeCounted]

theorem Ty.length_encode_string (v : Ty.string.Val) :
    (Ty.string.encode v).length = 4 + List.length (α := UInt8) v := length_encodeCounted _ _

theorem Ty.length_encode_vector {t : Ty} (v : (Ty.vector t).Val) :
    ((Ty.vector t).encode v).length = 4 + (List.flatMap t.encode v).length :=
  length_encodeCounted _ _

theorem Ty.encode_pos (t : Ty) (v : t.Val) : 0 < (t.encode v).length := by
  induction t with
  | scalar s =>
    show 0 < v.1.length
    rw [v.2]
    cases s <;> decide
  | bool => exact Nat.one_pos
  | string => rw [Ty.length_encode_string]; omega
  | vector t => rw [Ty.length_encode_vector]; omega
  | array t n ih =>
    obtain ⟨l, hl⟩ := v
    cases l with
    | nil => exact absurd hl n.pos.ne
    | cons x xs =>
      show 0 < ((x :: xs).flatMap t.encode).length
      rw [List.flatMap_cons, List.length_append]
      have := ih x
      omega

/-- A container has at most as many elements as its encoding has bytes. -/
theorem Ty.length_le_encode (t : Ty) (v : List t.Val) :
    v.length ≤ (v.flatMap t.encode).length := by
  induction v with
  | nil => simp
  | cons x xs ih =>
    have := t.encode_pos x
    simp only [List.length_cons, List.flatMap_cons, List.length_append]
    omega

theorem Ty.objectBytes_eq {t : Ty} (h : t.isSimple) (v : t.Val) : t.objectBytes v = t.encode v := by
  cases t <;> first | rfl | cases h

theorem Ty.length_encode_simple {t : Ty} (h : t.isSimple) (v : t.Val) :
    (t.encode v).length = t.sizeof := by
  cases t with
  | scalar s => exact v.2
  | bool => cases h
  | string => cases h
  | vector t => cases h
  | array t n => cases h

theorem Ty.length_flatMap_simple {t : Ty} (h : t.isSimple) (v : List t.Val) :
    (v.flatMap t.encode).length = v.length * t.sizeof := by
  induction v with
  | nil => simp
  | cons x xs ih =>
    rw [List.flatMap_cons, List.length_append, ih, Ty.length_encode_simple h, List.length_cons]
    ring

theorem length_flatMap_cons {α : Type} (f : α → List UInt8) (x : α) (xs : List α) :
    ((x :: xs).flatMap f).length = (f x).length + (xs.flatMap f).length := by
  rw [List.flatMap_cons, List.length_append]

theorem length_le_flatMap {α : Type} {f : α → List UInt8} {x : α} {xs : List α} (h : x ∈ xs) :
    (f x).length ≤ (xs.flatMap f).length := by
  rw [List.length_flatMap]
  exact List.le_sum_of_mem (List.mem_map_of_mem h)

/-! ### Writing -/

theorem Scalar.write_eq (s : Scalar) (v : Vec UInt8 s.sizeof) {st : Stream}
    (h : st.Room s.sizeof) : (s.write v).run st = .ok () (st.put v.1) :=
  advance_memcpyTo v.2.symm h

theorem nextU32_eq {n : ℕ} {st : Stream} (h : st.Room 4) :
    (nextU32 n).run st = .ok () (st.put (leBytes 4 n)) :=
  Scalar.write_eq .uint32 _ h

/-- Writing elements one by one puts their encodings one after the other. -/
theorem writeEach_eq {α : Type} (next : α → StreamM Unit) (enc : α → List UInt8) (v : List α)
    (ih : ∀ x ∈ v, ∀ st, st.Room (enc x).length → (next x).run st = .ok () (st.put (enc x)))
    (st : Stream) (h : st.Room (v.flatMap enc).length) :
    (writeEach next v).run st = .ok () (st.put (v.flatMap enc)) := by
  induction v generalizing st with
  | nil => simp [writeEach]
  | cons x xs ihxs =>
    rw [length_flatMap_cons] at h
    rw [writeEach, EStateM.run_bind, ih x (by simp) st (h.mono (by omega))]
    simp only
    rw [ihxs (fun y hy => ih y (by simp [hy])) _ h.put, put_put h, List.flatMap_cons]

theorem Ty.forall_write {t : Ty}
    (ih : ∀ (v : t.Val) (st : Stream), (t.encode v).length < 2 ^ 32 →
      st.Room (t.encode v).length → (t.write v).run st = .ok () (st.put (t.encode v)))
    {v : List t.Val} (hlt : (v.flatMap t.encode).length < 2 ^ 32) :
    ∀ x ∈ v, ∀ st, st.Room (t.encode x).length →
      (t.write x).run st = .ok () (st.put (t.encode x)) :=
  fun x hx st hst => ih x st (lt_of_le_of_lt (length_le_flatMap hx) hlt) hst

theorem StringSerializer.write_eq (v : List UInt8) {st : Stream} (hlt : v.length < 2 ^ 32)
    (h : st.Room (4 + v.length)) :
    (StringSerializer.write v).run st = .ok () (st.put (encodeCounted v.length v)) := by
  have h' : st.Room ((leBytes 4 v.length).length + v.length) := by simpa using h
  simp only [StringSerializer.write]
  rw [u32_of_lt hlt, EStateM.run_bind, nextU32_eq (h.mono (by omega))]
  by_cases hv : v.length > 0
  · simp only [if_pos hv]
    rw [advance_memcpyTo rfl h'.put, put_put h', encodeCounted]
  · have : v = [] := List.length_eq_zero_iff.1 (by omega)
    subst this
    simp [encodeCounted]

theorem VectorSerializer.write_eq {t : Ty}
    (ih : ∀ (v : t.Val) (st : Stream), (t.encode v).length < 2 ^ 32 →
      st.Room (t.encode v).length → (t.write v).run st = .ok () (st.put (t.encode v)))
    (v : List t.Val) (st : Stream) (hlt : 4 + (v.flatMap t.encode).length < 2 ^ 32)
    (h : st.Room (4 + (v.flatMap t.encode).length)) :
    (VectorSerializer.write t t.write v).run st
      = .ok () (st.put (encodeCounted v.length (v.flatMap t.encode))) := by
  have hle := t.length_le_encode v
  have hv : u32 v.length = v.length := u32_of_lt (by omega)
  have h' : st.Room ((leBytes 4 v.length).length + (v.flatMap t.encode).length) := by simpa using h
  simp only [VectorSerializer.write, encodeCounted]
  by_cases ht : t.isSimple
  · have hobj : v.flatMap t.objectBytes = v.flatMap t.encode := by
      simp only [funext (Ty.objectBytes_eq ht)]
    have hlen := Ty.length_flatMap_simple ht v
    rw [if_pos ht, hv, EStateM.run_bind, nextU32_eq (h.mono (by omega)), hobj,
      u32_of_lt (n := v.length * t.sizeof) (by omega), ← hlen]
    cases v with
    | nil => simp
    | cons x xs =>
      simp only [List.isEmpty_cons, Bool.not_false, if_true]
      rw [advance_memcpyTo rfl h'.put, put_put h']
  · rw [if_neg ht, hv, EStateM.run_bind, nextU32_eq (h.mono (by omega))]
    simp only
    rw [writeEach_eq _ _ v (Ty.forall_write ih (by omega)) _ h'.put, put_put h']

theorem ArraySerializer.write_eq {t : Ty} {n : ℕ+}
    (ih : ∀ (v : t.Val) (st : Stream), (t.encode v).length < 2 ^ 32 →
      st.Room (t.encode v).length → (t.write v).run st = .ok () (st.put (t.encode v)))
    (v : Vec t.Val n) (st : Stream) (hlt : (v.1.flatMap t.encode).length < 2 ^ 32)
    (h : st.Room (v.1.flatMap t.encode).length) :
    (ArraySerializer.write t n t.write v).run st = .ok () (st.put (v.1.flatMap t.encode)) := by
  unfold ArraySerializer.write
  by_cases ht : t.isSimple
  · have hobj : v.1.flatMap t.objectBytes = v.1.flatMap t.encode := by
      simp only [funext (Ty.objectBytes_eq ht)]
    have hlen := Ty.length_flatMap_simple ht v.1
    rw [v.2] at hlen
    rw [if_pos ht, hobj, u32_of_lt (n := n * t.sizeof) (by omega), ← hlen,
      advance_memcpyTo rfl h]
  · rw [if_neg ht, writeEach_eq _ _ v.1 (Ty.forall_write ih hlt) st h]

/-- **Writing a value puts its encoding.** -/
theorem Ty.write_eq (t : Ty) (v : t.Val) (st : Stream) (hlt : (t.encode v).length < 2 ^ 32)
    (h : st.Room (t.encode v).length) : (t.write v).run st = .ok () (st.put (t.encode v)) := by
  induction t generalizing st with
  | scalar s => exact s.write_eq v (by simpa [Ty.encode, v.2] using h)
  | bool =>
    show (advance 1 >>= fun p => memcpyTo p (encodeBool v) 1).run st = _
    exact advance_memcpyTo rfl h
  | string =>
    rw [Ty.length_encode_string] at hlt h
    exact StringSerializer.write_eq v (by omega) h
  | vector t ih =>
    rw [Ty.length_encode_vector] at hlt h
    exact VectorSerializer.write_eq ih v st hlt h
  | array t n ih => exact ArraySerializer.write_eq ih v st hlt h

/-! ### Reading -/

theorem vecOf_val {α : Type} {n : ℕ} (old v : Vec α n) : vecOf old v.1 = v := by
  rw [vecOf, dif_pos v.2]

theorem Scalar.read_eq (s : Scalar) (v : Vec UInt8 s.sizeof) {st : Stream}
    (h : st.Ahead v.1) : s.read.run st = .ok v (st.skip s.sizeof) := by
  have hcopy := advance_memcpyFrom v.2.symm le_rfl h
  rw [EStateM.run_bind] at hcopy
  rw [Scalar.read, ← bind_assoc, EStateM.run_bind, EStateM.run_bind, hcopy]
  simp only [EStateM.run_pure, vecOf_val]

theorem readU32_eq {n : ℕ} {st : Stream} (hn : n < 2 ^ 32) (h : st.Ahead (leBytes 4 n)) :
    readU32.run st = .ok n (st.skip 4) := by
  rw [readU32, EStateM.run_bind,
    Scalar.read_eq .uint32 ⟨leBytes 4 n, length_leBytes 4 n⟩ h]
  simp only [EStateM.run_pure, Scalar.sizeof]
  rw [leNat_leBytes_of_lt (by simpa using hn)]

theorem BoolSerializer.read_eq (v : Bool) {st : Stream} (h : st.Ahead (encodeBool v)) :
    BoolSerializer.read.run st = .ok v (st.skip 1) := by
  have hcopy := advance_memcpyFrom (n := 1) rfl le_rfl h
  rw [EStateM.run_bind] at hcopy
  rw [BoolSerializer.read, ← bind_assoc, EStateM.run_bind, EStateM.run_bind, hcopy]
  cases v <;> rfl

theorem StringSerializer.read_eq (v : List UInt8) {st : Stream} (hlt : v.length < 2 ^ 32)
    (h : st.Ahead (encodeCounted v.length v)) :
    StringSerializer.read.run st = .ok v (st.skip (4 + v.length)) := by
  have h4 := h.right
  rw [length_leBytes] at h4
  rw [StringSerializer.read, EStateM.run_bind, readU32_eq hlt h.left]
  by_cases hv : v.length > 0
  · simp only [if_pos hv]
    rw [advance_memcpyFrom rfl le_rfl h4, skip_skip]
  · have : v = [] := List.length_eq_zero_iff.1 (by omega)
    subst this
    rfl

/-- Reading elements one by one in front of their encodings returns them. -/
theorem readEach_eq {α : Type} {next : α → StreamM α} {enc : α → List UInt8} {v old : List α}
    (ih : List.Forall₂ (fun x y => ∀ st, st.Ahead (enc x) →
      (next y).run st = .ok x (st.skip (enc x).length)) v old)
    (st : Stream) (h : st.Ahead (v.flatMap enc)) :
    (readEach next old).run st = .ok v (st.skip (v.flatMap enc).length) := by
  induction ih generalizing st with
  | nil => rfl
  | @cons x y xs ys hx _ ihxs =>
    rw [List.flatMap_cons] at h
    rw [readEach, EStateM.run_bind, hx st h.left]
    simp only
    rw [EStateM.run_bind, ihxs _ h.right]
    simp only [EStateM.run_pure, skip_skip, length_flatMap_cons]

/-- The previous elements of a container matter only by their number. -/
theorem Ty.forall₂_read {t : Ty}
    (ih : ∀ (v old : t.Val) (st : Stream), (t.encode v).length < 2 ^ 32 →
      st.Ahead (t.encode v) → (t.read old).run st = .ok v (st.skip (t.encode v).length))
    {v old : List t.Val} (hold : old.length = v.length)
    (hlt : (v.flatMap t.encode).length < 2 ^ 32) :
    List.Forall₂ (fun x y => ∀ st, st.Ahead (t.encode x) →
      (t.read y).run st = .ok x (st.skip (t.encode x).length)) v old := by
  refine List.forall₂_iff_get.2 ⟨hold.symm, fun i hi _ st hst => ?_⟩
  exact ih _ _ st (lt_of_le_of_lt (length_le_flatMap (List.get_mem v ⟨i, hi⟩)) hlt) hst

theorem length_resize {α : Type} (zero : α) (v : List α) (len : ℕ) :
    (resize zero v len).length = len := by
  simp only [resize, List.length_append, List.length_take, List.length_replicate]
  omega

theorem copyOver_eq {w : ℕ} (v old : List (Vec UInt8 w)) (hold : old.length = v.length) :
    copyOver old (v.flatMap fun x => x.1) = v := by
  induction v generalizing old with
  | nil =>
    have : old = [] := List.length_eq_zero_iff.1 hold
    subst this
    rfl
  | cons x xs ih =>
    obtain _ | ⟨y, ys⟩ := old
    · cases hold
    have htake : ((x :: xs).flatMap fun x => x.1).take w = x.1 := by
      rw [List.flatMap_cons, List.take_left' x.2]
    have hdrop : ((x :: xs).flatMap fun x => x.1).drop w = xs.flatMap fun x => x.1 := by
      rw [List.flatMap_cons, List.drop_left' x.2]
    have hx : (⟨x.1, x.2⟩ : Vec UInt8 w) = x := rfl
    simp only [copyOver, htake, hdrop, x.2, ih ys (by simpa using hold), dite_true, hx]

/-- Copying the encoding of as many simple elements over a container gives these elements. -/
theorem Ty.copyElements_eq {t : Ty} (ht : t.isSimple) (v old : List t.Val)
    (hold : old.length = v.length) : t.copyElements old (v.flatMap t.encode) = v := by
  cases t with
  | scalar s => exact copyOver_eq v old hold
  | bool => cases ht
  | string => cases ht
  | vector t => cases ht
  | array t n => cases ht

theorem VectorSerializer.read_eq {t : Ty}
    (ih : ∀ (v old : t.Val) (st : Stream), (t.encode v).length < 2 ^ 32 →
      st.Ahead (t.encode v) → (t.read old).run st = .ok v (st.skip (t.encode v).length))
    (v old : List t.Val) (st : Stream) (hlt : 4 + (v.flatMap t.encode).length < 2 ^ 32)
    (h : st.Ahead (encodeCounted v.length (v.flatMap t.encode))) :
    (VectorSerializer.read t t.read old).run st
      = .ok v (st.skip (4 + (v.flatMap t.encode).length)) := by
  have hle := t.length_le_encode v
  have hn := readU32_eq (n := v.length) (by omega) h.left
  have h4 := h.right
  rw [length_leBytes] at h4
  have hold := length_resize t.zero old v.length
  simp only [VectorSerializer.read]
  by_cases ht : t.isSimple
  · have hlen := Ty.length_flatMap_simple ht v
    rw [if_pos ht, EStateM.run_bind, hn]
    by_cases hv : v.length > 0
    · simp only [if_pos hv]
      rw [u32_of_lt (n := t.sizeof * v.length) (by rw [Nat.mul_comm]; omega), hold,
        ← bind_assoc, EStateM.run_bind,
        advance_memcpyFrom (by rw [Nat.mul_comm]; omega) (by rw [Nat.mul_comm]) h4]
      simp only [EStateM.run_pure, Ty.copyElements_eq ht v _ hold, skip_skip]
      rw [Nat.mul_comm, ← hlen]
    · have : v = [] := List.length_eq_zero_iff.1 (by omega)
      subst this
      simp [resize]
  · rw [if_neg ht, EStateM.run_bind, hn]
    simp only
    rw [readEach_eq (Ty.forall₂_read ih hold (by omega)) _ h4, skip_skip]

theorem ArraySerializer.read_eq {t : Ty} {n : ℕ+}
    (ih : ∀ (v old : t.Val) (st : Stream), (t.encode v).length < 2 ^ 32 →
      st.Ahead (t.encode v) → (t.read old).run st = .ok v (st.skip (t.encode v).length))
    (v old : Vec t.Val n) (st : Stream) (hlt : (v.1.flatMap t.encode).length < 2 ^ 32)
    (h : st.Ahead (v.1.flatMap t.encode)) :
    (ArraySerializer.read t n t.read old).run st
      = .ok v (st.skip (v.1.flatMap t.encode).length) := by
  have hold : old.1.length = v.1.length := old.2.trans v.2.symm
  simp only [ArraySerializer.read]
  by_cases ht : t.isSimple
  · have hlen := Ty.length_flatMap_simple ht v.1
    rw [v.2] at hlen
    rw [if_pos ht, u32_of_lt (n := n * t.sizeof) (by omega), ← bind_assoc, EStateM.run_bind,
      advance_memcpyFrom hlen.symm le_rfl h]
    simp only [EStateM.run_pure, Ty.copyElements_eq ht v.1 old.1 hold, vecOf_val, hlen]
  · rw [if_neg ht, EStateM.run_bind, readEach_eq (Ty.forall₂_read ih hold hlt) st h]
    simp only [EStateM.run_pure, vecOf_val]

/-- **Reading in front of an encoding returns the encoded value.** -/
theorem Ty.read_eq (t : Ty) (v old : t.Val) (st : Stream) (hlt : (t.encode v).length < 2 ^ 32)
    (h : st.Ahead (t.encode v)) :
    (t.read old).run st = .ok v (st.skip (t.encode v).length) := by
  induction t generalizing st with
  | scalar s =>
    have : (Ty.encode (.scalar s) v).length = s.sizeof := v.2
    rw [this]
    exact s.read_eq v h
  | bool => exact BoolSerializer.read_eq v h
  | string =>
    rw [Ty.length_encode_string] at hlt ⊢
    exact StringSerializer.read_eq v (by omega) h
  | vector t ih =>
    rw [Ty.length_encode_vector] at hlt ⊢
    exact VectorSerializer.read_eq ih v old st hlt h
  | array t n ih => exact ArraySerializer.read_eq ih v old st hlt h

/-! ### Computed lengths -/

theorem sumLengths_eq {t : Ty}
    (ih : ∀ v : t.Val, (t.encode v).length < 2 ^ 32 →
      t.serializationLength v = (t.encode v).length)
    (v : List t.Val) (size : ℕ) (hlt : size + (v.flatMap t.encode).length < 2 ^ 32) :
    sumLengths t.serializationLength size v = size + (v.flatMap t.encode).length := by
  induction v generalizing size with
  | nil => rfl
  | cons x xs ihxs =>
    rw [length_flatMap_cons] at hlt ⊢
    rw [sumLengths, ih x (by omega), u32_of_lt (by omega), ihxs _ (by omega)]
    omega

/-- The encodings of a type of fixed size have one length. -/
theorem Ty.length_encode_fixed {t : Ty} (h : t.isFixedSize) (v w : t.Val) :
    (t.encode v).length = (t.encode w).length := by
  cases t with
  | scalar s => exact v.2.trans w.2.symm
  | bool => rfl
  | string => cases h
  | vector t => cases h
  | array t n => cases h

theorem Ty.length_flatMap_fixed {t : Ty} (h : t.isFixedSize) (w : t.Val) (v : List t.Val) :
    (v.flatMap t.encode).length = (t.encode w).length * v.length := by
  induction v with
  | nil => simp
  | cons x xs ih =>
    rw [length_flatMap_cons, ih, Ty.length_encode_fixed h x w, List.length_cons]
    ring

theorem VectorSerializer.serializedLength_eq {t : Ty}
    (ih : ∀ v : t.Val, (t.encode v).length < 2 ^ 32 →
      t.serializationLength v = (t.encode v).length)
    (v : List t.Val) (hlt : 4 + (v.flatMap t.encode).length < 2 ^ 32) :
    VectorSerializer.serializedLength t t.serializationLength v
      = 4 + (v.flatMap t.encode).length := by
  have hle := t.length_le_encode v
  unfold VectorSerializer.serializedLength
  -- elements of any size, simple elements, and elements of one size, which the first one tells
  split_ifs with hf hs
  · exact sumLengths_eq ih v 4 hlt
  · rw [← Ty.length_flatMap_simple hs, u32_of_lt hlt]
  · cases v with
    | nil => rfl
    | cons x xs =>
      have hfix : t.isFixedSize := by simpa using hf
      have hmul := Ty.length_flatMap_fixed hfix x (x :: xs)
      have hx : (t.encode x).length < 2 ^ 32 := by
        rw [length_flatMap_cons] at hlt; omega
      simp only
      rw [ih x hx, u32_of_lt (n := (x :: xs).length) (by omega), ← hmul,
        u32_of_lt (n := ((x :: xs).flatMap t.encode).length) (by omega), u32_of_lt hlt]

theorem ArraySerializer.serializedLength_eq {t : Ty} {n : ℕ+}
    (ih : ∀ v : t.Val, (t.encode v).length < 2 ^ 32 →
      t.serializationLength v = (t.encode v).length)
    (v : Vec t.Val n) (hlt : (v.1.flatMap t.encode).length < 2 ^ 32) :
    ArraySerializer.serializedLength t n t.serializationLength v
      = (v.1.flatMap t.encode).length := by
  unfold ArraySerializer.serializedLength
  split_ifs with hf hs
  · rw [sumLengths_eq ih v.1 0 (by omega), Nat.zero_add]
  · have hlen := Ty.length_flatMap_simple hs v.1
    rw [v.2] at hlen
    rw [← hlen, u32_of_lt hlt]
  · have hfix : t.isFixedSize := by simpa using hf
    generalize v.1.get ⟨0, _⟩ = front
    have hmul := Ty.length_flatMap_fixed hfix front v.1
    rw [v.2] at hmul
    have hx : (t.encode front).length < 2 ^ 32 := by
      refine lt_of_le_of_lt ?_ hlt
      rw [hmul]
      exact Nat.le_mul_of_pos_right _ n.pos
    rw [ih _ hx, ← hmul, u32_of_lt hlt]

/-- **The computed length is the length of the encoding.** -/
theorem Ty.serializationLength_eq (t : Ty) (v : t.Val) (hlt : (t.encode v).length < 2 ^ 32) :
    t.serializationLength v = (t.encode v).length := by
  induction t with
  | scalar s => exact v.2.symm
  | bool => rfl
  | string =>
    rw [Ty.length_encode_string] at hlt ⊢
    show u32 (4 + u32 (List.length v)) = 4 + List.length v
    rw [u32_of_lt (n := List.length v) (by omega), u32_of_lt hlt]
  | vector t ih =>
    rw [Ty.length_encode_vector] at hlt ⊢
    exact VectorSerializer.serializedLength_eq ih v hlt
  | array t n ih => exact ArraySerializer.serializedLength_eq ih v hlt

/-! ### Raw messages -/

namespace RawMessage

@[simp] theorem length_encode (v : RawMessage) :
    v.encode.length = 8 + v.m_value.length := by
  rw [RawMessage.encode, List.length_append, v.timestamp.2]
  rfl

theorem write_eq (v : RawMessage) {st : Stream} (h : st.Room v.encode.length) :
    v.write.run st = .ok () (st.put v.encode) := by
  have h' : st.Room (v.timestamp.1.length + v.m_value.length) := by
    rwa [encode, List.length_append] at h
  have hts := Scalar.write_eq .uint64 v.timestamp (h'.mono (by rw [v.timestamp.2]; omega))
  rw [RawMessage.write, EStateM.run_bind, hts]
  by_cases hv : v.getDataLength > 0
  · simp only [if_pos hv]
    rw [getDataLength, advance_memcpyTo rfl h'.put, put_put h', encode]
  · have : v.m_value = [] := List.length_eq_zero_iff.1 (Nat.le_zero.1 (not_lt.1 hv))
    simp only [if_neg hv, EStateM.run_pure, encode, this, List.append_nil]

/-- A stream that is too short is overrun, and nothing else happens. -/
theorem write_overrun (v : RawMessage) {st : Stream} (hend : st.end_ ≤ st.mem.length)
    (h : ¬ st.Room v.encode.length) : ∃ st', v.write.run st = .error throwStreamOverrun st' := by
  rw [RawMessage.write, EStateM.run_bind]
  -- it is the time stamp or the data that does not fit
  by_cases h8 : st.Room 8
  · rw [Scalar.write_eq .uint64 v.timestamp (h8.mono (le_refl 8))]
    have hdata : (st.put v.timestamp.1).end_ <
        (st.put v.timestamp.1).data_ + v.getDataLength := by
      rw [length_encode] at h
      rw [put_end, put_data, v.timestamp.2, getDataLength, Scalar.sizeof]
      by_contra hle
      exact h ⟨by omega, hend⟩
    have hv : v.getDataLength > 0 := by
      have := h8.1
      rw [put_end, put_data, v.timestamp.2, Scalar.sizeof] at hdata
      omega
    simp only [if_pos hv]
    rw [EStateM.run_bind, advance_overrun hdata]
    exact ⟨_, rfl⟩
  · have h8' : st.end_ < st.data_ + Scalar.sizeof .uint64 := by
      by_contra hle
      exact h8 ⟨not_lt.1 hle, hend⟩
    rw [Scalar.write, EStateM.run_bind, advance_overrun h8']
    exact ⟨_, rfl⟩

theorem write_confined (v : RawMessage) : Confined v.write := by
  intro st e st' hend herr
  by_cases h : st.Room v.encode.length
  · rw [v.write_eq h] at herr
    cases herr
  · obtain ⟨st'', hrun⟩ := v.write_overrun hend h
    cases hrun.symm.trans herr
    simp [throwStreamOverrun]

/-- An allocation that succeeds leaves a buffer of the requested length. -/
theorem allocate_true (v : RawMessage) {size : ℕ} (h : size < 2 ^ 32) :
    (v.allocate size true).1 = true ∧ (v.allocate size true).2.getDataLength = size ∧
      (v.allocate size true).2.timestamp = v.timestamp := by
  unfold allocate
  split_ifs with h1 h2
  · exact ⟨rfl, h1.symm, rfl⟩
  · simp at h2
  · exact ⟨rfl, by simp [getDataLength, u32_of_lt h], rfl⟩

theorem setData_eq (v w : RawMessage) (h : w.timestamp = v.timestamp) :
    w.setData v.m_value = v := by
  obtain ⟨ts, m, hm⟩ := v
  simp only at h
  simp only [setData, hm, dite_true, h]

/-- A reader takes everything up to the end of the stream as data. -/
theorem read_eq (v old : RawMessage) {st : Stream} (h : st.Ahead v.encode)
    (hend : st.data_ + v.encode.length = st.end_) :
    (old.read true).run st = .ok v (st.skip v.encode.length) := by
  have hts := Scalar.read_eq .uint64 v.timestamp h.left
  have h8 : (st.skip 8).Ahead v.m_value := by
    have := h.right
    rwa [v.timestamp.2] at this
  have hdata : (st.skip 8).getLength = v.m_value.length := by
    rw [length_encode] at hend
    have hlt := v.length_lt
    rw [getLength_eq (by simp only [skip]; omega) (by simp only [skip]; omega)]
    simp only [skip]
    omega
  obtain ⟨hok, hlen, hstamp⟩ := allocate_true { old with timestamp := v.timestamp } v.length_lt
  have hlength : v.encode.length = 8 + v.m_value.length := length_encode v
  rw [RawMessage.read, EStateM.run_bind, hts]
  simp only
  rw [EStateM.run_bind, EStateM.run_get]
  simp only [Scalar.sizeof, hdata]
  generalize allocate { old with timestamp := v.timestamp } v.m_value.length true = r at *
  obtain ⟨ok, w⟩ := r
  simp only at hok hlen hstamp
  by_cases hv : v.m_value.length > 0
  · simp only [hok, hv, decide_true, Bool.and_self, if_true]
    rw [← bind_assoc, EStateM.run_bind, advance_memcpyFrom rfl hlen.ge h8]
    simp only [EStateM.run_pure, setData_eq v w hstamp, skip_skip, hlength]
  · have hnil : v.m_value = [] := List.length_eq_zero_iff.1 (by omega)
    have hw : w.m_value = [] := List.length_eq_zero_iff.1 (by rw [getDataLength] at hlen; omega)
    have hwv : w = v := by
      obtain ⟨ts, m, hm⟩ := v
      obtain ⟨ts', m', hm'⟩ := w
      simp_all
    simp only [hv, decide_false, Bool.and_false, Bool.false_eq_true, if_false, EStateM.run_pure,
      hwv, hlength]
    rw [hnil, List.length_nil]

/-- The published length of a message, below `2 ^ 32`. -/
theorem serializedLength_eq (v : RawMessage) (h : v.encode.length < 2 ^ 32) :
    v.serializedLength = v.encode.length := by
  rw [length_encode] at h ⊢
  exact u32_of_lt h

end RawMessage

end MessageTransport
