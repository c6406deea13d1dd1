import Mathlib.Tactic

/-!
# Byte buffers

Two general tools for programs that copy bytes in memory.

* `leBytes w n` and `leNat`: the `w` low bytes of a natural number, least significant first, and
  the number read back from such bytes;
* `overwrite l p xs`: the list `l` after the elements `xs` were copied to position `p`.
-/

namespace Bytes

/-! ### Little-endian words -/

/-- The `w` low bytes of `n`, least significant first. -/
def leBytes : ℕ → ℕ → List UInt8
  | 0, _ => []
  | w + 1, n => UInt8.ofNat n :: leBytes w (n / 256)

/-- The number whose bytes are given, least significant first. -/
def leNat : List UInt8 → ℕ
  | [] => 0
  | b :: bs => b.toNat + 256 * leNat bs

@[simp] theorem length_leBytes (w n : ℕ) : (leBytes w n).length = w := by
  induction w generalizing n with
  | zero => rfl
  | succ w ih => simp [leBytes, ih]

theorem leNat_leBytes (w n : ℕ) : leNat (leBytes w n) = n % 256 ^ w := by
  induction w generalizing n with
  | zero => simp [leBytes, leNat, Nat.mod_one]
  | succ w ih =>
    have hb : (UInt8.ofNat n).toNat = n % 256 := UInt8.toNat_ofNat'
    rw [leBytes, leNat, ih, hb, pow_succ', Nat.mod_mul]

theorem leNat_leBytes_of_lt {w n : ℕ} (h : n < 256 ^ w) : leNat (leBytes w n) = n := by
  rw [leNat_leBytes, Nat.mod_eq_of_lt h]

theorem leNat_lt (bs : List UInt8) : leNat bs < 256 ^ bs.length := by
  induction bs with
  | nil => exact Nat.one_pos
  | cons b bs ih =>
    have hb := b.toNat_lt
    rw [leNat, List.length_cons, pow_succ']
    omega

theorem leBytes_leNat (bs : List UInt8) : leBytes bs.length (leNat bs) = bs := by
  induction bs with
  | nil => rfl
  | cons b bs ih =>
    have hb := b.toNat_lt
    have hdiv : (b.toNat + 256 * leNat bs) / 256 = leNat bs := by omega
    have hmod : UInt8.ofNat (b.toNat + 256 * leNat bs) = b := by
      apply UInt8.toNat_inj.1
      rw [UInt8.toNat_ofNat']
      omega
    rw [leNat, List.length_cons, leBytes, hdiv, hmod, ih]

/-! ### Overwriting a segment -/

variable {α : Type*}

/-- `l` after `xs` was copied over its elements from position `p` on. -/
def overwrite (l : List α) (p : ℕ) (xs : List α) : List α :=
  l.take p ++ xs ++ l.drop (p + xs.length)

@[simp] theorem overwrite_nil (l : List α) (p : ℕ) : overwrite l p [] = l := by
  simp [overwrite]

theorem length_overwrite {l xs : List α} {p : ℕ} (h : p + xs.length ≤ l.length) :
    (overwrite l p xs).length = l.length := by
  simp only [overwrite, List.length_append, List.length_take, List.length_drop]
  omega

/-- Two copies to adjacent positions are one copy. -/
theorem overwrite_overwrite {l xs ys : List α} {p : ℕ}
    (h : p + xs.length + ys.length ≤ l.length) :
    overwrite (overwrite l p xs) (p + xs.length) ys = overwrite l p (xs ++ ys) := by
  have hp : (l.take p).length = p := by rw [List.length_take]; omega
  have hpx : (l.take p ++ xs).length = p + xs.length := by rw [List.length_append, hp]
  have htake : (overwrite l p xs).take (p + xs.length) = l.take p ++ xs := by
    rw [overwrite, ← hpx, List.take_left]
  have hdrop : (overwrite l p xs).drop (p + xs.length + ys.length)
      = l.drop (p + (xs ++ ys).length) := by
    rw [overwrite, ← hpx, ← List.drop_drop, List.drop_left, hpx, List.drop_drop,
      List.length_append, Nat.add_assoc]
  rw [overwrite, htake, hdrop, overwrite, List.append_assoc (l.take p)]

/-- What was copied to the front is what the front holds. -/
theorem overwrite_zero {l xs : List α} : overwrite l 0 xs = xs ++ l.drop xs.length := by
  simp [overwrite]

end Bytes
