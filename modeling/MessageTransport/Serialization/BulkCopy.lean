import MessageTransport.Serialization.Decoding

/-!
# Block copies and elements

For simple element types `VectorSerializer` and `ArraySerializer` move the storage of the container
in one copy with one bounds check. `Ty.bulk_agrees` compares them with the specialization that goes
through the elements: up to `2 ^ 32` bytes the two write the same bytes, compute the same length,
and read the same values or overrun together.

The third specialization, for fixed-size types that are not simple, goes through the elements but
computes its length from the first one; `Ty.fixed_agrees` is about that.
-/

namespace MessageTransport

open Bytes MessageTransport.Stream

namespace VectorSerializer

variable (t : Ty)

/-- `write` of the specialization for types that are not of fixed size. -/
def writeElements (next : t.Val → StreamM Unit) (v : List t.Val) : StreamM Unit := do
  nextU32 (u32 v.length)
  writeEach next v

/-- `read` of that specialization. -/
def readElements (next : t.Val → StreamM t.Val) (v : List t.Val) : StreamM (List t.Val) := do
  let len ← readU32
  readEach next (resize t.zero v len)

/-- `serializedLength` of that specialization. -/
def elementsLength (len : t.Val → ℕ) (v : List t.Val) : ℕ := sumLengths len 4 v

/-- `serializedLength` of the specialization for fixed-size types that are not simple, for elements
of any type. -/
def fixedLength {α : Type} (len : α → ℕ) : List α → ℕ
  | [] => 4
  | front :: v => u32 (4 + u32 (len front * u32 (front :: v).length))

end VectorSerializer

namespace ArraySerializer

variable (t : Ty) (n : ℕ+)

/-- `write` of the specialization for types that are not of fixed size. -/
def writeElements (next : t.Val → StreamM Unit) (v : Vec t.Val n) : StreamM Unit :=
  writeEach next v.1

/-- `read` of that specialization. -/
def readElements (next : t.Val → StreamM t.Val) (v : Vec t.Val n) : StreamM (Vec t.Val n) := do
  let l ← readEach next v.1
  return vecOf v l

/-- `serializedLength` of that specialization. -/
def elementsLength (len : t.Val → ℕ) (v : Vec t.Val n) : ℕ := sumLengths len 0 v.1

/-- `serializedLength` of the specialization for fixed-size types that are not simple, for elements
of any type. -/
def fixedLength {α : Type} (n : ℕ+) (len : α → ℕ) (v : Vec α n) : ℕ :=
  u32 (len (v.1.get ⟨0, by rw [v.2]; exact n.pos⟩) * n)

end ArraySerializer

/-- Two runs that end alike: with the same value and the same stream, or both with an overrun. -/
def SameEnd {α : Type} : EStateM.Result Fault Stream α → EStateM.Result Fault Stream α → Prop
  | .ok a s, .ok a' s' => a = a' ∧ s = s'
  | .error e _, .error e' _ => e = throwStreamOverrun ∧ e' = throwStreamOverrun
  | _, _ => False

/-- The block copies for elements of type `t` do what the specialization for elements does, as long
as the bytes of the elements are less than `2 ^ 32`. -/
structure Ty.BulkAgrees (t : Ty) : Prop where
  vector_write (v : List t.Val) (s : Stream) (hlt : 4 + (v.flatMap t.encode).length < 2 ^ 32)
    (hs : s.Inside) : SameEnd ((VectorSerializer.write t t.write v).run s)
      ((VectorSerializer.writeElements t t.write v).run s)
  vector_length (v : List t.Val) (hlt : 4 + (v.flatMap t.encode).length < 2 ^ 32) :
    VectorSerializer.serializedLength t t.serializationLength v
      = VectorSerializer.elementsLength t t.serializationLength v
  /-- The count in front of the elements decides, if the buffer has one. -/
  vector_read (old : List t.Val) (s : Stream) (hs : s.Inside)
    (hlt : 4 ≤ s.window.length → leNat (s.window.take 4) * t.sizeof < 2 ^ 32) :
    SameEnd ((VectorSerializer.read t t.read old).run s)
      ((VectorSerializer.readElements t t.read old).run s)
  array_write {n : ℕ+} (v : Vec t.Val n) (s : Stream)
    (hlt : (v.1.flatMap t.encode).length < 2 ^ 32) (hs : s.Inside) :
    SameEnd ((ArraySerializer.write t n t.write v).run s)
      ((ArraySerializer.writeElements t n t.write v).run s)
  array_length {n : ℕ+} (v : Vec t.Val n) (hlt : (v.1.flatMap t.encode).length < 2 ^ 32) :
    ArraySerializer.serializedLength t n t.serializationLength v
      = ArraySerializer.elementsLength t n t.serializationLength v
  array_read {n : ℕ+} (old : Vec t.Val n) (s : Stream) (hs : s.Inside)
    (hlt : n * t.sizeof < 2 ^ 32) :
    SameEnd ((ArraySerializer.read t n t.read old).run s)
      ((ArraySerializer.readElements t n t.read old).run s)

/-- The lengths computed from the first element are the sums of the lengths of all elements. -/
structure FixedAgrees {α : Type} (len : α → ℕ) : Prop where
  vector (v : List α) : VectorSerializer.fixedLength len v = u32 (4 + (v.map len).sum)
  array {n : ℕ+} (v : Vec α n) : ArraySerializer.fixedLength n len v = u32 (v.1.map len).sum

/-! ### Writing -/

/-- Two ways to write the same bytes. -/
theorem Writes.sameEnd {w w' : TapeM Unit} {v v' : StreamM Unit} {bs : List UInt8}
    (h : Writes w bs fun _ => False) (hm : Mirrors w v) (h' : Writes w' bs fun _ => False)
    (hm' : Mirrors w' v') {s : Stream} (hs : s.Inside) : SameEnd (v.run s) (v'.run s) := by
  have hready : (⟨s, []⟩ : Tape).Ready := ⟨hs.1, hs.2, trivial⟩
  have hw := h ⟨s, []⟩ hready
  have hw' := h' ⟨s, []⟩ hready
  rw [← hm.forget ⟨s, []⟩, ← hm'.forget ⟨s, []⟩]
  generalize w.run ⟨s, []⟩ = r at hw
  generalize w'.run ⟨s, []⟩ = r' at hw'
  cases hw with
  | spilt hsp => cases hsp
  | ok _ hroom =>
    cases hw' with
    | spilt hsp => cases hsp
    | ok => exact ⟨rfl, rfl⟩
    | overrun _ hfull => exact absurd hroom (not_le.2 hfull)
  | overrun _ hfull =>
    cases hw' with
    | spilt hsp => cases hsp
    | ok _ hroom => exact absurd hroom (not_le.2 hfull)
    | overrun => exact ⟨rfl, rfl⟩

theorem Ty.wire_elements {t : Ty} (ht : t.isSimple) (v : List t.Val) :
    v.flatMap t.wire = v.flatMap t.encode := flatMap_congr fun x _ => Ty.wire_simple ht x

/-- Simple elements are written one by one without spilling. -/
theorem Writes.elements {t : Ty} (ht : t.isSimple) (v : List t.Val) :
    Writes (tapeWriteEach t.tapeWrite v) (v.flatMap t.encode) fun _ => False := by
  have h := (Writes.each t.writes t.mirrors_write v).congr fun room =>
    (Writes.simple_iff ht v room).symm
  rwa [Ty.wire_elements ht] at h

theorem VectorSerializer.write_sameEnd {t : Ty} (ht : t.isSimple) (v : List t.Val) {s : Stream}
    (hlt : 4 + (v.flatMap t.encode).length < 2 ^ 32) (hs : s.Inside) :
    SameEnd ((VectorSerializer.write t t.write v).run s)
      ((VectorSerializer.writeElements t t.write v).run s) := by
  have hlen := t.length_le_encode v
  have hbulk := (Writes.vector t.writes v).congr fun room =>
    (and_congr_right' (Writes.simple_iff ht v (room - 4)).symm).trans (iff_of_eq (and_false _))
  rw [VectorSerializer.wire_eq_encode t.wire_eq_encode (by omega)] at hbulk
  have hmirrors := mirrors_writeEach t.mirrors_write v
  have heach := ((Writes.elements ht v).counted (n := u32 v.length) hmirrors).congr
    fun _ => iff_of_eq (and_false _)
  have hcount : encodeCounted (u32 v.length) (v.flatMap t.encode)
      = encodeCounted v.length (v.flatMap t.encode) := by
    rw [u32_of_lt (n := v.length) (by omega)]
  rw [hcount] at heach
  exact hbulk.sameEnd (VectorSerializer.mirrors_write t.mirrors_write v) heach
    ((mirrors_nextU32 _).bind fun _ => hmirrors) hs

theorem ArraySerializer.write_sameEnd {t : Ty} {n : ℕ+} (ht : t.isSimple) (v : Vec t.Val n)
    {s : Stream} (hlt : (v.1.flatMap t.encode).length < 2 ^ 32) (hs : s.Inside) :
    SameEnd ((ArraySerializer.write t n t.write v).run s)
      ((ArraySerializer.writeElements t n t.write v).run s) := by
  have hbulk := (Writes.array t.writes v).congr fun room => (Writes.simple_iff ht v.1 room).symm
  rw [ArraySerializer.wire_eq_encode t.wire_eq_encode hlt] at hbulk
  exact hbulk.sameEnd (ArraySerializer.mirrors_write t.mirrors_write v) (Writes.elements ht v.1)
    (mirrors_writeEach t.mirrors_write v.1) hs

/-! ### Lengths -/

/-- Lengths of elements, added up modulo `2 ^ 32`. -/
theorem sumLengths_mod {α : Type} (len : α → ℕ) (v : List α) {size : ℕ} (hsize : size < 2 ^ 32) :
    sumLengths len size v = u32 (size + (v.map len).sum) := by
  induction v generalizing size with
  | nil => exact (u32_of_lt hsize).symm
  | cons x xs ih =>
    rw [sumLengths, ih (u32_lt _), u32_u32_add, List.map_cons, List.sum_cons, Nat.add_assoc]

theorem Ty.sum_serializationLength {t : Ty} (ht : t.isSimple) (v : List t.Val) :
    (v.map t.serializationLength).sum = v.length * t.sizeof := by
  have hconst : ∀ x ∈ v.map t.serializationLength, x = t.sizeof := by
    intro x hx
    obtain ⟨y, -, rfl⟩ := List.mem_map.1 hx
    cases t <;> first | rfl | cases ht
  rw [List.sum_eq_card_nsmul _ _ hconst, List.length_map, smul_eq_mul]

theorem VectorSerializer.length_elements {t : Ty} (ht : t.isSimple) (v : List t.Val) :
    VectorSerializer.serializedLength t t.serializationLength v
      = VectorSerializer.elementsLength t t.serializationLength v := by
  have hf := Ty.isFixedSize_of_simple ht
  rw [VectorSerializer.elementsLength, sumLengths_mod _ _ (by norm_num),
    Ty.sum_serializationLength ht]
  unfold VectorSerializer.serializedLength
  rw [if_neg (by simp [hf]), if_pos ht]

theorem ArraySerializer.length_elements {t : Ty} {n : ℕ+} (ht : t.isSimple) (v : Vec t.Val n) :
    ArraySerializer.serializedLength t n t.serializationLength v
      = ArraySerializer.elementsLength t n t.serializationLength v := by
  have hf := Ty.isFixedSize_of_simple ht
  rw [ArraySerializer.elementsLength, sumLengths_mod _ _ (by norm_num),
    Ty.sum_serializationLength ht, v.2, Nat.zero_add]
  unfold ArraySerializer.serializedLength
  rw [if_neg (by simp [hf]), if_pos ht]

/-! ### Reading -/

/-- Two readers for which the walks over the window agree, and which tell values apart by the bytes
consumed. -/
theorem Accepts.sameEnd {α : Type} {r r' : StreamM α}
    {scan scan' : List UInt8 → Option (Bool × List UInt8)} {wire full wire' full' : α → List UInt8}
    {good good' : α → Prop} (h : Accepts r scan wire full good)
    (h' : Accepts r' scan' wire' full' good') {s : Stream} (hs : s.Inside)
    (hscan : (scan s.window).map Prod.snd = (scan' s.window).map Prod.snd)
    (hinj : ∀ v v', good v → good' v' → wire v = wire' v' → v = v') :
    SameEnd (r.run s) (r'.run s) := by
  have hr := h s hs
  have hr' := h' s hs
  cases hsc : scan s.window with
  | none =>
    have hsc' : scan' s.window = none := by simpa [hsc] using hscan.symm
    rw [hsc] at hr
    rw [hsc'] at hr'
    obtain ⟨t, hrun⟩ := hr
    obtain ⟨t', hrun'⟩ := hr'
    rw [hrun, hrun']
    exact ⟨rfl, rfl⟩
  | some p =>
    obtain ⟨b, rest⟩ := p
    cases hsc' : scan' s.window with
    | none => simp [hsc, hsc'] at hscan
    | some p' =>
      obtain ⟨b', rest'⟩ := p'
      obtain rfl : rest = rest' := by simpa [hsc, hsc'] using hscan
      rw [hsc] at hr
      rw [hsc'] at hr'
      obtain ⟨v, hrun, hwin, hgood, -⟩ := hr
      obtain ⟨v', hrun', hwin', hgood', -⟩ := hr'
      have hwire : wire v = wire' v' := List.append_cancel_right (hwin.symm.trans hwin')
      obtain rfl := hinj v v' hgood hgood' hwire
      rw [hrun, hrun', hwire]
      exact ⟨rfl, rfl⟩

/-- Skipping `n` elements of `w` bytes each is skipping their bytes. -/
theorem scanEach_bytes (w n : ℕ) (bs : List UInt8) :
    scanEach (scanBytes w) n bs = scanBytes (n * w) bs := by
  induction n generalizing bs with
  | zero => simp [scanEach, scanBytes]
  | succ n ih =>
    have hlen : (bs.drop w).length = bs.length - w := List.length_drop
    rw [scanEach, Nat.succ_mul]
    by_cases hw : w ≤ bs.length
    · have hfirst : scanBytes w bs = some (true, bs.drop w) := if_pos hw
      rw [hfirst]
      simp only [Option.bind_eq_bind, Option.bind_some, ih, scanBytes, hlen]
      by_cases hn : n * w ≤ bs.length - w
      · rw [if_pos hn, if_pos (by omega)]
        simp only [Option.bind_some, Bool.and_true, List.drop_drop, Nat.add_comm w]
        rfl
      · rw [if_neg hn, if_neg (by omega)]
        rfl
    · have hfirst : scanBytes w bs = none := if_neg hw
      rw [hfirst, scanBytes, if_neg (by omega)]
      rfl

theorem Ty.scan_simple {t : Ty} (ht : t.isSimple) : t.scan = scanBytes t.sizeof := by
  cases t <;> first | rfl | cases ht

theorem Ty.noBool_of_simple {t : Ty} (ht : t.isSimple) : t.noBool := by
  cases t <;> first | rfl | cases ht

theorem Ty.encode_injective {t : Ty} (ht : t.isSimple) {v w : t.Val} (h : t.encode v = t.encode w) :
    v = w := by
  cases t with
  | scalar s => exact Subtype.ext h
  | bool => cases ht
  | string => cases ht
  | vector t => cases ht
  | array t n => cases ht

/-- As many simple elements are told apart by their bytes. -/
theorem Ty.elements_injective {t : Ty} (ht : t.isSimple) {v w : List t.Val}
    (hlen : v.length = w.length) (h : v.flatMap t.encode = w.flatMap t.encode) : v = w := by
  induction v generalizing w with
  | nil => exact (List.length_eq_zero_iff.1 hlen.symm).symm
  | cons x xs ih =>
    cases w with
    | nil => cases hlen
    | cons y ys =>
      rw [List.flatMap_cons, List.flatMap_cons] at h
      obtain ⟨hx, hxs⟩ := List.append_inj h (by
        rw [Ty.length_encode_simple ht, Ty.length_encode_simple ht])
      rw [Ty.encode_injective ht hx, ih (by simpa using hlen) hxs]

theorem VectorSerializer.read_sameEnd {t : Ty} (ht : t.isSimple) (old : List t.Val) {s : Stream}
    (hs : s.Inside) (hlt : 4 ≤ s.window.length → leNat (s.window.take 4) * t.sizeof < 2 ^ 32) :
    SameEnd ((VectorSerializer.read t t.read old).run s)
      ((VectorSerializer.readElements t t.read old).run s) := by
  unfold VectorSerializer.read VectorSerializer.readElements
  rw [if_pos ht, EStateM.run_bind, EStateM.run_bind]
  by_cases h4 : 4 ≤ s.window.length
  · obtain ⟨hread, -, hn⟩ := readU32_ok hs h4
    have hsize := hlt h4
    generalize leNat (s.window.take 4) = n at hread hn hsize
    rw [hread]
    have hbulk := Accepts.simpleElements ht old hn
    have heach := Accepts.each (t.accepts (Ty.noBool_of_simple ht)) t.length_wire_le
      (resize t.zero old n)
    rw [length_resize] at heach
    refine hbulk.sameEnd heach (hs.skip h4) ?_ ?_
    · rw [Ty.scan_simple ht, scanEach_bytes, scanBulk, scanBytes, u32_of_lt hsize]
      split_ifs <;> rfl
    · rintro v v' ⟨-, hv⟩ ⟨-, hv'⟩ hwire
      refine Ty.elements_injective ht (hv.trans hv'.symm) ?_
      rwa [bulk_eq_encode ht (by rwa [hv]), Ty.wire_elements ht] at hwire
  · rw [readU32_overrun hs h4]
    exact ⟨rfl, rfl⟩

theorem ArraySerializer.read_sameEnd {t : Ty} {n : ℕ+} (ht : t.isSimple) (old : Vec t.Val n)
    {s : Stream} (hs : s.Inside) (hlt : n * t.sizeof < 2 ^ 32) :
    SameEnd ((ArraySerializer.read t n t.read old).run s)
      ((ArraySerializer.readElements t n t.read old).run s) := by
  have h := t.accepts (Ty.noBool_of_simple ht)
  refine (Accepts.array h old).sameEnd (Accepts.arrayElements h old) hs ?_ ?_
  · rw [if_pos ht, Ty.scan_simple ht, scanEach_bytes, u32_of_lt hlt]
  · intro v v' _ _ hwire
    refine Subtype.ext (Ty.elements_injective ht (v.2.trans v'.2.symm) ?_)
    have hv : (v.1.flatMap t.encode).length < 2 ^ 32 := by
      rwa [Ty.length_flatMap_simple ht, v.2]
    rwa [ArraySerializer.wire_eq_encode t.wire_eq_encode hv, Ty.wire_elements ht] at hwire

theorem Scalar.bulk_agrees (s : Scalar) : (Ty.scalar s).BulkAgrees where
  vector_write v _ hlt hs := VectorSerializer.write_sameEnd rfl v hlt hs
  vector_length v _ := VectorSerializer.length_elements rfl v
  vector_read old _ hs hlt := VectorSerializer.read_sameEnd rfl old hs hlt
  array_write v _ hlt hs := ArraySerializer.write_sameEnd rfl v hlt hs
  array_length v _ := ArraySerializer.length_elements rfl v
  array_read old _ hs hlt := ArraySerializer.read_sameEnd rfl old hs hlt

/-! ### Elements of fixed size -/

theorem sum_const {α : Type} {len : α → ℕ} (h : ∀ x y, len x = len y) (x : α) (v : List α) :
    (v.map len).sum = len x * v.length := by
  have hconst : ∀ n ∈ v.map len, n = len x := by
    intro n hn
    obtain ⟨y, -, rfl⟩ := List.mem_map.1 hn
    exact h y x
  rw [List.sum_eq_card_nsmul _ _ hconst, List.length_map, smul_eq_mul, Nat.mul_comm]

theorem fixed_agrees {α : Type} {len : α → ℕ} (h : ∀ x y, len x = len y) : FixedAgrees len where
  vector v := by
    cases v with
    | nil => rfl
    | cons x xs =>
      rw [sum_const h x, VectorSerializer.fixedLength, u32_mul_u32, u32_add_u32]
  array {n} v := by
    unfold ArraySerializer.fixedLength
    generalize v.1.get ⟨0, _⟩ = front
    rw [sum_const h front, v.2]

theorem VectorSerializer.serializedLength_fixed {t : Ty} (hf : t.isFixedSize) (hs : ¬ t.isSimple)
    (len : t.Val → ℕ) (v : List t.Val) :
    VectorSerializer.serializedLength t len v = VectorSerializer.fixedLength len v := by
  unfold VectorSerializer.serializedLength
  rw [if_neg (by simp [hf]), if_neg hs]
  cases v <;> rfl

theorem ArraySerializer.serializedLength_fixed {t : Ty} {n : ℕ+} (hf : t.isFixedSize)
    (hs : ¬ t.isSimple) (len : t.Val → ℕ) (v : Vec t.Val n) :
    ArraySerializer.serializedLength t n len v = ArraySerializer.fixedLength n len v := by
  rw [ArraySerializer.serializedLength, if_neg (by simp [hf]), if_neg hs]
  rfl

/-- **The specializations agree.** For all scalars block copies do what copies of the elements do;
for all types of elements that have one length, this length times their number is the sum of their
lengths; and this is what is computed for the fixed-size types that are not simple. -/
theorem specializations_agree :
    (∀ s : Scalar, (Ty.scalar s).BulkAgrees) ∧
    (∀ (α : Type) (len : α → ℕ), (∀ x y, len x = len y) → FixedAgrees len) ∧
    ∀ t : Ty, t.isFixedSize → ¬ t.isSimple →
      (∀ v : List t.Val, VectorSerializer.serializedLength t t.serializationLength v
        = u32 (4 + (v.map t.serializationLength).sum)) ∧
      ∀ (n : ℕ+) (v : Vec t.Val n), ArraySerializer.serializedLength t n t.serializationLength v
        = u32 (v.1.map t.serializationLength).sum := by
  refine ⟨Scalar.bulk_agrees, fun _ _ h => fixed_agrees h, fun t hf hs => ?_⟩
  have hconst : ∀ x y, t.serializationLength x = t.serializationLength y := fun x y => by
    rw [t.serializationLength_eq_wire, t.serializationLength_eq_wire, Ty.length_wire_fixed hf x y]
  have h := fixed_agrees hconst
  refine ⟨fun v => ?_, fun n v => ?_⟩
  · rw [VectorSerializer.serializedLength_fixed hf hs, h.vector]
  · rw [ArraySerializer.serializedLength_fixed hf hs, h.array]

/-- A vector of two-byte integers and its element-wise length, and a vector of `bool`. -/
theorem specializations_agree_uint16 :
    VectorSerializer.serializedLength (.scalar .uint16) (Ty.serializationLength (.scalar .uint16))
        [⟨[1, 2], rfl⟩, ⟨[3, 4], rfl⟩]
      = VectorSerializer.elementsLength (.scalar .uint16)
        (Ty.serializationLength (.scalar .uint16)) [⟨[1, 2], rfl⟩, ⟨[3, 4], rfl⟩] ∧
    VectorSerializer.serializedLength .bool (Ty.serializationLength .bool) [true, false, true]
      = 7 :=
  ⟨(specializations_agree.1 .uint16).vector_length _ (by decide),
    (specializations_agree.2.2 .bool rfl (by decide)).1 [true, false, true]⟩

end MessageTransport
