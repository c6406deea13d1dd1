import MessageTransport.Serialization.Stream
import MessageTransport.Serialization.Serializer

/-!
# Topic names

A topic reaches the block table as a `const char *`. `allocate` copies 256 bytes from it into
`name_`, whatever its length, and `matchName` compares at most 256 bytes. `CString` is a pointer to
a string together with the memory after its terminator, of which at least 256 bytes can be read in
all, as the `memcpy` needs.

The two functions depend on the first 256 characters of the name only: `strncmp_iff` and
`cstr_buf`.
-/

namespace MessageTransport

/-- A name as the segment's directory knows it. -/
abbrev Name := List UInt8

/-- `sizeof(name_)`. -/
def nameSize : ℕ := 256

/-- The memory behind a `const char *`: characters, terminator, and what follows. -/
structure CString where
  chars : List UInt8
  junk : List UInt8
  nonzero : ∀ c ∈ chars, c ≠ 0
  /-- The copy of `allocate` is in bounds. Callers pass `c_str()` of a string, whose memory may be
  shorter than that; what the source does then is undefined. -/
  readable : nameSize ≤ chars.length + 1 + junk.length

/-- The C string at the start of a piece of memory. -/
def cstr (l : List UInt8) : Name := l.takeWhile (· ≠ 0)

/-- `strncmp(a, b, n) == 0`. -/
def strncmpEq : ℕ → List UInt8 → List UInt8 → Bool
  | 0, _, _ => true
  | n + 1, a :: as, b :: bs => a == b && (a == 0 || strncmpEq n as bs)
  | _ + 1, _, _ => false

namespace CString

def mem (s : CString) : List UInt8 := s.chars ++ 0 :: s.junk

/-- The bytes `memcpy(name_, name, 256)` leaves in `name_`. -/
def buf (s : CString) : Vec UInt8 nameSize :=
  ⟨s.mem.take nameSize, by
    have := s.readable
    rw [List.length_take, mem, List.length_append, List.length_cons]
    omega⟩

/-- The part of the name that the table can tell apart. -/
def key (s : CString) : Name := s.chars.take nameSize

theorem key_of_lt {s : CString} (h : s.chars.length < nameSize) : s.key = s.chars :=
  List.take_of_length_le h.le

/-- A name that the table stores with its terminator is stored whole. -/
theorem key_eq_chars {s : CString} (h : s.key.length < nameSize) : s.key = s.chars := by
  rw [key, List.length_take] at h
  exact key_of_lt (by omega)

end CString

theorem cstr_take (n : ℕ) (chars junk : List UInt8) (h : ∀ c ∈ chars, c ≠ 0) :
    cstr ((chars ++ 0 :: junk).take n) = chars.take n := by
  induction chars generalizing n with
  | nil => cases n <;> simp [cstr]
  | cons c cs ih =>
    cases n with
    | zero => rfl
    | succ n =>
      have hc : c ≠ 0 := h c (by simp)
      have := ih n (fun x hx => h x (by simp [hx]))
      rw [List.cons_append, List.take_succ_cons, List.take_succ_cons, ← this]
      simp [cstr, hc]

/-- What `allocate` stores is read back as the first 256 characters. -/
theorem cstr_buf (s : CString) : cstr s.buf.1 = s.key := cstr_take _ _ _ s.nonzero

theorem strncmpEq_iff (n : ℕ) (l chars junk : List UInt8) (hl : l.length = n)
    (h : ∀ c ∈ chars, c ≠ 0) :
    strncmpEq n l (chars ++ 0 :: junk) = true ↔ cstr l = chars.take n := by
  induction n generalizing l chars with
  | zero =>
    have : l = [] := List.length_eq_zero_iff.1 hl
    subst this
    simp [strncmpEq, cstr]
  | succ n ih =>
    obtain _ | ⟨a, as⟩ := l
    · cases hl
    cases chars with
    | nil =>
      simp only [List.nil_append, strncmpEq, List.take_nil, cstr, List.takeWhile_cons]
      by_cases ha : a = 0 <;> simp [ha]
    | cons c cs =>
      have hc : c ≠ 0 := h c (by simp)
      have hrec := ih as cs (by simpa using hl) (fun x hx => h x (by simp [hx]))
      simp only [List.cons_append, strncmpEq, List.take_succ_cons, cstr, List.takeWhile_cons]
      by_cases hac : a = c
      · subst hac
        have hrec' : strncmpEq n as (cs ++ 0 :: junk) = true
            ↔ List.takeWhile (· ≠ 0) as = cs.take n := hrec
        simp [hc, hrec']
      · by_cases ha : a = 0 <;> simp [hac, ha, Ne.symm hc]

/-- `matchName` compares the stored name with the first 256 characters. -/
theorem strncmp_iff (b : Vec UInt8 nameSize) (s : CString) :
    strncmpEq nameSize b.1 s.mem = true ↔ cstr b.1 = s.key :=
  strncmpEq_iff _ _ _ _ b.2 s.nonzero

end MessageTransport
