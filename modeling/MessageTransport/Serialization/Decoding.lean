import MessageTransport.Serialization.Accesses

/-!
# What the readers accept

A reader that does not overrun has consumed the bytes that `serialize` writes for the value it
returns. The reader of a vector of simple elements takes the size of its data modulo `2 ^ 32`,
though, as the writer does: it accepts counts that are not backed by elements.

`Ty.scan` walks over a buffer by its counts, without reading values, and notes whether every count
was small enough; `Ty.read_faithful_iff` says that the readers accept nothing but encodings on the
buffers for which it was. `Accepts` is the invariant of the walk, for one value after the other.
-/

namespace MessageTransport

open Bytes MessageTransport.Stream

/-- There is no `bool` in the type. -/
def Ty.noBool : Ty → Bool
  | .scalar _ | .string => true
  | .bool => false
  | .vector t | .array t _ => t.noBool

/-- The bytes of a value with every counted element in them. Arrays are as they are written. -/
def Ty.full : (t : Ty) → t.Val → List UInt8
  | .scalar _, v => v.1
  | .bool, v => encodeBool v
  | .string, v => encodeCounted (List.length v) v
  | .vector t, v => encodeCounted (List.length v) (List.flatMap t.full v)
  | .array t _, v => if t.isSimple then bulk t v.1 else v.1.flatMap t.full

/-! ### Walking over a buffer -/

/-- Skip `n` bytes. -/
def scanBytes (n : ℕ) (bs : List UInt8) : Option (Bool × List UInt8) :=
  if n ≤ bs.length then some (true, bs.drop n) else none

/-- Skip `size` bytes modulo `2 ^ 32`, and note whether that is `size`. -/
def scanBulk (size : ℕ) (bs : List UInt8) : Option (Bool × List UInt8) :=
  if u32 size ≤ bs.length then some (decide (size < 2 ^ 32), bs.drop (u32 size)) else none

/-- Read a count, and go on as it says. -/
def scanCount (scan : ℕ → List UInt8 → Option (Bool × List UInt8)) (bs : List UInt8) :
    Option (Bool × List UInt8) :=
  if 4 ≤ bs.length then scan (leNat (bs.take 4)) (bs.drop 4) else none

/-- Skip `n` elements. -/
def scanEach (scan : List UInt8 → Option (Bool × List UInt8)) :
    ℕ → List UInt8 → Option (Bool × List UInt8)
  | 0, bs => some (true, bs)
  | n + 1, bs => do
    let (b, bs) ← scan bs
    let (b', bs) ← scanEach scan n bs
    return (b && b', bs)

/-- Skip a value. The result is what is behind it, with a note whether every count of simple
elements was one of less than `2 ^ 32` bytes; nothing if the buffer ends before. -/
def Ty.scan : Ty → List UInt8 → Option (Bool × List UInt8)
  | .scalar s => scanBytes s.sizeof
  | .bool => scanBytes 1
  | .string => scanCount scanBytes
  | .vector t => scanCount fun n =>
      if t.isSimple then scanBulk (n * t.sizeof) else scanEach t.scan n
  | .array t n => if t.isSimple then scanBytes (u32 (n * t.sizeof)) else scanEach t.scan n

/-! ### Lengths -/

theorem length_flatMap_le {α : Type} {f g : α → List UInt8} (h : ∀ x, (f x).length ≤ (g x).length)
    (v : List α) : (v.flatMap f).length ≤ (v.flatMap g).length := by
  induction v with
  | nil => exact le_rfl
  | cons x xs ih =>
    have := h x
    rw [length_flatMap_cons, length_flatMap_cons]
    omega

/-- Concatenations of encodings agree only element by element, if one side is never longer. -/
theorem flatMap_cons_eq_iff {α : Type} {f g : α → List UInt8}
    (h : ∀ x, (f x).length ≤ (g x).length) (x : α) (xs : List α) :
    (x :: xs).flatMap f = (x :: xs).flatMap g ↔ f x = g x ∧ xs.flatMap f = xs.flatMap g := by
  rw [List.flatMap_cons, List.flatMap_cons]
  constructor
  · intro heq
    have hlen := congrArg List.length heq
    have hx := h x
    have hxs := length_flatMap_le h xs
    rw [List.length_append, List.length_append] at hlen
    exact List.append_inj heq (by omega)
  · rintro ⟨hx, hxs⟩
    rw [hx, hxs]

theorem encodeCounted_inj {n : ℕ} {bs bs' : List UInt8} :
    encodeCounted n bs = encodeCounted n bs' ↔ bs = bs' := List.append_right_inj _

theorem Ty.full_simple {t : Ty} (h : t.isSimple) (v : t.Val) : t.full v = t.objectBytes v := by
  cases t <;> first | rfl | cases h

theorem Ty.flatMap_full {t : Ty} (h : t.isSimple) (v : List t.Val) :
    v.flatMap t.full = v.flatMap t.objectBytes := by
  simp only [funext (Ty.full_simple h)]

/-- A block copy is whole if its size fits 32 bits. -/
theorem bulk_eq_full_iff {t : Ty} (h : t.isSimple) (v : List t.Val) :
    bulk t v = v.flatMap t.full ↔ v.length * t.sizeof < 2 ^ 32 := by
  have hlen := length_objects h v
  rw [Ty.flatMap_full h, bulk, List.take_eq_self_iff, hlen]
  refine ⟨fun hle => lt_of_le_of_lt hle (u32_lt _), fun hlt => (u32_of_lt hlt).ge⟩

theorem ArraySerializer.length_wire_le {t : Ty}
    (ih : ∀ x, (t.wire x).length ≤ (t.full x).length) (v : List t.Val) :
    (ArraySerializer.wire t t.wire v).length ≤ (v.flatMap t.full).length := by
  rw [ArraySerializer.wire]
  split_ifs with ht
  · rw [Ty.flatMap_full ht, bulk, List.length_take]
    exact min_le_right _ _
  · exact length_flatMap_le ih v

theorem Ty.length_wire_le (t : Ty) (v : t.Val) : (t.wire v).length ≤ (t.full v).length := by
  induction t with
  | scalar s => exact le_rfl
  | bool => exact le_rfl
  | string =>
    have hfull : (Ty.string.full v).length = _ := length_encodeCounted _ _
    have hwire : (Ty.string.wire v).length = _ := StringSerializer.length_wire v
    rw [hfull, hwire]
    exact Nat.add_le_add_left (u32_le _) 4
  | vector t ih =>
    have hfull : ((Ty.vector t).full v).length = _ := length_encodeCounted _ _
    have hwire : ((Ty.vector t).wire v).length = _ := length_encodeCounted _ _
    rw [hfull, hwire]
    exact Nat.add_le_add_left (ArraySerializer.length_wire_le ih v) 4
  | array t n ih =>
    have hfull : (Ty.array t n).full v
        = if t.isSimple then bulk t v.1 else v.1.flatMap t.full := rfl
    have hwire : (Ty.array t n).wire v
        = if t.isSimple then bulk t v.1 else v.1.flatMap t.wire := rfl
    rw [hfull, hwire]
    split_ifs
    · exact le_rfl
    · exact length_flatMap_le ih v.1

/-! ### Copies over simple elements -/

theorem Scalar.sizeof_pos (s : Scalar) : 0 < s.sizeof := by cases s <;> decide

theorem Scalar.sizeof_dvd (s : Scalar) : s.sizeof ∣ 2 ^ 32 := by cases s <;> decide

/-- A copy of whole objects is what the first objects hold. -/
theorem copyOver_spec {w : ℕ} (hw : 0 < w) (v : List (Vec UInt8 w)) {bs : List UInt8} {k : ℕ}
    (hbs : bs.length = k * w) (hk : k ≤ v.length) :
    (copyOver v bs).length = v.length ∧
      ((copyOver v bs).flatMap fun x => x.1).take bs.length = bs := by
  induction v generalizing bs k with
  | nil =>
    obtain rfl : k = 0 := Nat.le_zero.1 hk
    rw [Nat.zero_mul] at hbs
    rw [List.length_eq_zero_iff.1 hbs]
    exact ⟨rfl, rfl⟩
  | cons x xs ih =>
    cases k with
    | zero =>
      rw [Nat.zero_mul] at hbs
      rw [List.length_eq_zero_iff.1 hbs, copyOver, dif_neg (by simpa using hw.ne)]
      exact ⟨rfl, rfl⟩
    | succ k =>
      rw [Nat.succ_mul] at hbs
      have htake : (bs.take w).length = w := by rw [List.length_take]; omega
      obtain ⟨hlen, hcopy⟩ := @ih (bs.drop w) k (by rw [List.length_drop]; omega)
        (by simpa using hk)
      rw [copyOver, dif_pos htake]
      refine ⟨by simp [hlen], ?_⟩
      have hsplit : bs.length = (bs.take w).length + (bs.drop w).length := by
        rw [htake, List.length_drop]
        omega
      rw [List.flatMap_cons, hsplit, List.take_length_add_append, hcopy, List.take_append_drop]

/-- The sizes of scalars divide `2 ^ 32`, so a copy cut to 32 bits is one of whole objects. -/
theorem Scalar.copyOver_spec (s : Scalar) (v : List (Vec UInt8 s.sizeof)) {bs : List UInt8}
    (hbs : bs.length = u32 (v.length * s.sizeof)) :
    (copyOver v bs).length = v.length ∧
      ((copyOver v bs).flatMap fun x => x.1).take (u32 ((copyOver v bs).length * s.sizeof))
        = bs := by
  obtain ⟨c, hc⟩ := s.sizeof_dvd
  have hk : u32 (v.length * s.sizeof) = v.length % c * s.sizeof := by
    rw [u32, hc, Nat.mul_comm s.sizeof, Nat.mul_mod_mul_right]
  obtain ⟨hlen, hcopy⟩ := MessageTransport.copyOver_spec s.sizeof_pos v (hbs.trans hk)
    (Nat.mod_le _ _)
  exact ⟨hlen, by rwa [hlen, ← hbs]⟩

theorem Ty.copyElements_spec {t : Ty} (ht : t.isSimple) (v : List t.Val) {bs : List UInt8}
    (hbs : bs.length = u32 (v.length * t.sizeof)) :
    (t.copyElements v bs).length = v.length ∧ bulk t (t.copyElements v bs) = bs := by
  cases t with
  | scalar s => exact s.copyOver_spec v hbs
  | bool => cases ht
  | string => cases ht
  | vector t => cases ht
  | array t n => cases ht

/-! ### Accepting -/

/-- The position is not behind the end, and the end not behind the memory. -/
def Stream.Inside (s : Stream) : Prop := s.data_ ≤ s.end_ ∧ s.end_ ≤ s.mem.length

/-- The bytes from the position to the end. -/
def Stream.window (s : Stream) : List UInt8 := (s.mem.take s.end_).drop s.data_

theorem Stream.Inside.length_window {s : Stream} (h : s.Inside) :
    s.window.length = s.end_ - s.data_ := by
  rw [window, List.length_drop, List.length_take, min_eq_left h.2]

theorem Stream.Inside.skip {s : Stream} (h : s.Inside) {n : ℕ} (hn : n ≤ s.window.length) :
    (s.skip n).Inside := by
  rw [h.length_window] at hn
  exact ⟨by have := h.1; simp only [Stream.skip]; omega, h.2⟩

theorem Stream.window_skip (s : Stream) (n : ℕ) : (s.skip n).window = s.window.drop n := by
  rw [window, window, List.drop_drop]
  rfl

/-- The first bytes of the window lie ahead. -/
theorem Stream.Inside.ahead {s : Stream} (h : s.Inside) {n : ℕ} (hn : n ≤ s.window.length) :
    s.Ahead (s.window.take n) := by
  have hlen : (s.window.take n).length = n := by rw [List.length_take, min_eq_left hn]
  rw [h.length_window] at hn
  refine ⟨⟨by have := h.1; omega, h.2⟩, ?_⟩
  refine (List.take_prefix n _).trans ?_
  rw [window, List.drop_take]
  exact List.take_prefix _ _

/-- A count that is all there. -/
theorem readU32_ok {s : Stream} (hs : s.Inside) (h4 : 4 ≤ s.window.length) :
    readU32.run s = .ok (leNat (s.window.take 4)) (s.skip 4) ∧
      leBytes 4 (leNat (s.window.take 4)) = s.window.take 4 ∧
      leNat (s.window.take 4) < 2 ^ 32 := by
  have htake : (s.window.take 4).length = 4 := by rw [List.length_take, min_eq_left h4]
  have hcount := leBytes_leNat (s.window.take 4)
  have hlt := leNat_lt (s.window.take 4)
  rw [htake] at hcount hlt
  exact ⟨readU32_eq hlt (by rw [hcount]; exact hs.ahead h4), hcount, hlt⟩

theorem readU32_overrun {s : Stream} (hs : s.Inside) (h4 : ¬ 4 ≤ s.window.length) :
    readU32.run s = .error throwStreamOverrun (s.skip 4) := by
  rw [hs.length_window] at h4
  have hshort : s.end_ < s.data_ + Scalar.sizeof .uint32 := by
    have := hs.1
    simp only [Scalar.sizeof]
    omega
  rw [readU32, Scalar.read, EStateM.run_bind, EStateM.run_bind, advance_overrun hshort]
  rfl

/-- A reader and a walk over the window agree: they overrun together, or the reader returns a value
and has consumed what a writer writes of it, up to where the walk is; the note says whether these
are all bytes of the value. -/
def Accepts {α : Type} (read : StreamM α) (scan : List UInt8 → Option (Bool × List UInt8))
    (wire full : α → List UInt8) (good : α → Prop) : Prop :=
  ∀ s : Stream, s.Inside → match scan s.window with
    | none => ∃ s', read.run s = .error throwStreamOverrun s'
    | some (b, rest) => ∃ v, read.run s = .ok v (s.skip (wire v).length) ∧
        s.window = wire v ++ rest ∧ good v ∧ (b = true ↔ wire v = full v)

namespace Accepts

variable {α β : Type}

/-- One `advance` and one copy of `n` bytes, from which a value is made. -/
theorem copy {room n : ℕ} (hn : n ≤ room) {f : List UInt8 → α} {wire full : α → List UInt8}
    {good : α → Prop} {b : Bool} (hf : ∀ bs : List UInt8, bs.length = n →
      wire (f bs) = bs ∧ good (f bs) ∧ (b = true ↔ wire (f bs) = full (f bs))) :
    Accepts (do let p ← advance n; let bs ← memcpyFrom room p n; return f bs)
      (fun bs => if n ≤ bs.length then some (b, bs.drop n) else none) wire full good := by
  intro s hs
  have hlen := hs.length_window
  by_cases hle : n ≤ s.window.length
  · have hbs : (s.window.take n).length = n := by rw [List.length_take, min_eq_left hle]
    obtain ⟨hwire, hgood, hb⟩ := hf _ hbs
    have hcopy := advance_memcpyFrom hbs.symm hn (hs.ahead hle)
    simp only [if_pos hle]
    refine ⟨f (s.window.take n), ?_, ?_, hgood, hb⟩
    · rw [← bind_assoc, EStateM.run_bind, hcopy, hwire, hbs]
      rfl
    · rw [hwire, List.take_append_drop]
  · simp only [if_neg hle]
    rw [EStateM.run_bind, advance_overrun (by have := hs.1; omega)]
    exact ⟨_, rfl⟩

theorem nothing {read : StreamM α} {v : α} (hread : read = pure v) {wire full : α → List UInt8}
    {good : α → Prop} (hwire : wire v = []) (hfull : full v = []) (hgood : good v) :
    Accepts read (fun bs => some (true, bs)) wire full good := by
  intro s _
  refine ⟨v, ?_, by rw [hwire, List.nil_append], hgood, iff_of_true rfl (hwire.trans hfull.symm)⟩
  rw [hread, hwire]
  rfl

/-- A value made from the one that was read. -/
theorem map {read : StreamM α} {scan : List UInt8 → Option (Bool × List UInt8)} {f : α → β}
    {wire full : α → List UInt8} {wire' full' : β → List UInt8} {good : α → Prop}
    {good' : β → Prop} (h : Accepts read scan wire full good)
    (hf : ∀ a, good a → wire' (f a) = wire a ∧ full' (f a) = full a ∧ good' (f a)) :
    Accepts (do let a ← read; return f a) scan wire' full' good' := by
  intro s hs
  have hr := h s hs
  rw [EStateM.run_bind]
  cases hscan : scan s.window with
  | none =>
    rw [hscan] at hr
    obtain ⟨s', hrun⟩ := hr
    rw [hrun]
    exact ⟨s', rfl⟩
  | some r =>
    rw [hscan] at hr
    obtain ⟨a, hrun, hwin, hgood, hb⟩ := hr
    obtain ⟨hwire, hfull, hgood'⟩ := hf a hgood
    rw [hrun]
    exact ⟨f a, by rw [hwire]; rfl, by rw [hwire, hwin], hgood', by rw [hwire, hfull, hb]⟩

/-- A count and what it counts. -/
theorem counted {k : ℕ → StreamM α} {scan : ℕ → List UInt8 → Option (Bool × List UInt8)}
    {wire full : α → List UInt8} {good : α → Prop} {len : α → ℕ}
    (h : ∀ n, n < 2 ^ 32 → Accepts (k n) (scan n) wire full fun v => good v ∧ len v = n) :
    Accepts (readU32 >>= k) (scanCount scan) (fun v => encodeCounted (u32 (len v)) (wire v))
      (fun v => encodeCounted (len v) (full v)) good := by
  intro s hs
  rw [scanCount]
  split_ifs with h4
  · obtain ⟨hread, hcount, hn⟩ := readU32_ok hs h4
    generalize leNat (s.window.take 4) = n at hread hcount hn ⊢
    have hk := h n hn (s.skip 4) (hs.skip h4)
    rw [window_skip] at hk
    rw [EStateM.run_bind, hread]
    cases hscan : scan n (s.window.drop 4) with
    | none => rwa [hscan] at hk
    | some r =>
      obtain ⟨b, rest⟩ := r
      rw [hscan] at hk
      obtain ⟨v, hv, hwin, ⟨hgood, rfl⟩, hb⟩ := hk
      refine ⟨v, ?_, ?_, hgood, ?_⟩
      · simp only [hv, skip_skip, length_encodeCounted]
      · simp only [u32_of_lt hn, encodeCounted, hcount]
        rw [List.append_assoc, ← hwin, List.take_append_drop]
      · simp only [u32_of_lt hn]
        rw [encodeCounted_inj]
        exact hb
  · rw [EStateM.run_bind, readU32_overrun hs h4]
    exact ⟨_, rfl⟩

/-- Elements one after the other. -/
theorem each {next : α → StreamM α} {scan : List UInt8 → Option (Bool × List UInt8)}
    {wire full : α → List UInt8} {good : α → Prop}
    (h : ∀ y, Accepts (next y) scan wire full good)
    (hle : ∀ x, (wire x).length ≤ (full x).length) (old : List α) :
    Accepts (readEach next old) (scanEach scan old.length) (List.flatMap wire) (List.flatMap full)
      fun v => (∀ x ∈ v, good x) ∧ v.length = old.length := by
  induction old with
  | nil => exact nothing rfl rfl rfl (by simp)
  | cons y ys ih =>
    intro s hs
    have hx := h y s hs
    rw [List.length_cons, scanEach, readEach, EStateM.run_bind]
    cases hscan : scan s.window with
    | none =>
      rw [hscan] at hx
      obtain ⟨s', hrun⟩ := hx
      rw [hrun]
      exact ⟨s', rfl⟩
    | some r =>
      obtain ⟨b, rest⟩ := r
      rw [hscan] at hx
      obtain ⟨x, hrun, hwin, hgood, hb⟩ := hx
      have hfits : (wire x).length ≤ s.window.length := by rw [hwin]; simp
      have hxs := ih (s.skip (wire x).length) (hs.skip hfits)
      rw [window_skip, hwin, List.drop_left] at hxs
      rw [hrun]
      simp only [Option.bind_eq_bind, Option.bind_some]
      rw [EStateM.run_bind]
      cases hscan' : scanEach scan ys.length rest with
      | none =>
        rw [hscan'] at hxs
        obtain ⟨s', hrun'⟩ := hxs
        rw [hrun']
        exact ⟨s', rfl⟩
      | some r' =>
        obtain ⟨b', rest'⟩ := r'
        rw [hscan'] at hxs
        obtain ⟨xs, hrun', hwin', ⟨hgood', hlen'⟩, hb'⟩ := hxs
        rw [hrun']
        refine ⟨x :: xs, ?_, ?_, ⟨?_, by simp [hlen']⟩, ?_⟩
        · simp only [EStateM.run_pure, skip_skip, length_flatMap_cons]
        · rw [hwin, hwin', List.flatMap_cons, List.append_assoc]
        · simpa using ⟨hgood, hgood'⟩
        · rw [flatMap_cons_eq_iff hle, Bool.and_eq_true, hb, hb']

theorem scalar (s : Scalar) :
    Accepts s.read (scanBytes s.sizeof) (Ty.wire (.scalar s)) (Ty.full (.scalar s))
      (Ty.Short (.scalar s)) := by
  refine copy le_rfl fun bs hbs => ?_
  have hof : (vecOf (Vec.replicate 0) bs : Vec UInt8 s.sizeof).1 = bs := by
    rw [vecOf, dif_pos hbs]
  exact ⟨hof, trivial, iff_of_true rfl rfl⟩

theorem string :
    Accepts StringSerializer.read (scanCount scanBytes) (Ty.wire .string) (Ty.full .string)
      (Ty.Short .string) := by
  refine @counted _ _ _ (fun v => v.take (u32 v.length)) id _ List.length fun n hn => ?_
  have htake : ∀ bs : List UInt8, bs.length = n → bs.take (u32 bs.length) = bs := by
    rintro bs rfl
    rw [u32_of_lt hn, List.take_length]
  by_cases h0 : n > 0
  · rw [if_pos h0]
    have h := @copy (List UInt8) n n le_rfl id (fun v => v.take (u32 v.length)) id
      (fun v => v.length < 2 ^ 32 ∧ v.length = n) true
      fun bs hbs => ⟨htake bs hbs, ⟨hbs ▸ hn, hbs⟩, iff_of_true rfl (htake bs hbs)⟩
    simp only [id, bind_pure] at h
    exact h
  · obtain rfl : n = 0 := Nat.le_zero.1 (not_lt.1 h0)
    have hscan : scanBytes 0 = fun bs => some (true, bs) := funext fun bs => by simp [scanBytes]
    rw [if_neg h0, hscan]
    exact nothing (v := ([] : List UInt8)) rfl rfl rfl ⟨Nat.two_pow_pos 32, rfl⟩

/-- A vector of simple elements, behind its count. -/
theorem simpleElements {t : Ty} (ht : t.isSimple) (v : List t.Val) {n : ℕ} (hn : n < 2 ^ 32) :
    Accepts (if n > 0 then do
        let p ← advance (u32 (t.sizeof * n))
        let bs ← memcpyFrom ((resize t.zero v n).length * t.sizeof) p (u32 (t.sizeof * n))
        return t.copyElements (resize t.zero v n) bs
      else return resize t.zero v n)
      (scanBulk (n * t.sizeof)) (MessageTransport.bulk t) (List.flatMap t.full)
      fun v => (∀ x ∈ v, t.Short x) ∧ v.length = n := by
  have hlen := length_resize t.zero v n
  by_cases h0 : n > 0
  · rw [if_pos h0, Nat.mul_comm t.sizeof, hlen]
    refine copy (b := decide (n * t.sizeof < 2 ^ 32)) (u32_le _) fun bs hbs => ?_
    obtain ⟨hlen', hbulk⟩ := Ty.copyElements_spec ht (resize t.zero v n) (hlen.symm ▸ hbs)
    refine ⟨hbulk, ⟨fun x _ => Ty.short_simple ht x, hlen'.trans hlen⟩, ?_⟩
    rw [bulk_eq_full_iff ht, hlen', hlen, decide_eq_true_iff]
  · obtain rfl : n = 0 := Nat.le_zero.1 (not_lt.1 h0)
    have hscan : scanBulk (0 * t.sizeof) = fun bs => some (true, bs) :=
      funext fun bs => by simp [scanBulk, u32]
    have hnil : resize t.zero v 0 = [] := List.length_eq_zero_iff.1 hlen
    rw [if_neg h0, hscan, hnil]
    exact nothing (v := []) rfl List.take_nil rfl ⟨by simp, rfl⟩

theorem vector {t : Ty} (h : ∀ v, Accepts (t.read v) t.scan t.wire t.full t.Short)
    (v : List t.Val) :
    Accepts (VectorSerializer.read t t.read v)
      (scanCount fun n => if t.isSimple then scanBulk (n * t.sizeof) else scanEach t.scan n)
      (VectorSerializer.wire t t.wire) (fun v => encodeCounted v.length (v.flatMap t.full))
      fun v => ∀ x ∈ v, t.Short x := by
  unfold VectorSerializer.read VectorSerializer.wire
  by_cases ht : t.isSimple
  · simp only [if_pos ht]
    exact counted fun n hn => simpleElements ht v hn
  · simp only [if_neg ht]
    refine counted fun n _ => ?_
    have heach := each h t.length_wire_le (resize t.zero v n)
    rwa [length_resize] at heach

/-- The elements of an array, one after the other. -/
theorem arrayElements {t : Ty} {n : ℕ+}
    (h : ∀ v, Accepts (t.read v) t.scan t.wire t.full t.Short) (v : Vec t.Val n) :
    Accepts (do let l ← readEach t.read v.1; return vecOf v l) (scanEach t.scan n)
      (fun v => v.1.flatMap t.wire) (fun v => v.1.flatMap t.full)
      fun v => ∀ x ∈ v.1, t.Short x := by
  have heach := each h t.length_wire_le v.1
  rw [v.2] at heach
  refine heach.map fun l hl => ?_
  have hof : (vecOf v l).1 = l := by rw [vecOf, dif_pos hl.2]
  rw [hof]
  exact ⟨rfl, rfl, hl.1⟩

theorem array {t : Ty} {n : ℕ+} (h : ∀ v, Accepts (t.read v) t.scan t.wire t.full t.Short)
    (v : Vec t.Val n) :
    Accepts (ArraySerializer.read t n t.read v)
      (if t.isSimple then scanBytes (u32 (n * t.sizeof)) else scanEach t.scan n)
      (fun v => ArraySerializer.wire t t.wire v.1)
      (fun v => if t.isSimple then MessageTransport.bulk t v.1 else v.1.flatMap t.full)
      fun v => ∀ x ∈ v.1, t.Short x := by
  unfold ArraySerializer.read ArraySerializer.wire
  by_cases ht : t.isSimple
  · simp only [if_pos ht]
    refine copy (u32_le _) fun bs hbs => ?_
    obtain ⟨hlen, hbulk⟩ := Ty.copyElements_spec ht v.1 (v.2.symm ▸ hbs)
    have hof : (vecOf v (t.copyElements v.1 bs)).1 = t.copyElements v.1 bs := by
      rw [vecOf, dif_pos (hlen.trans v.2)]
    exact ⟨by rw [hof, hbulk], fun x _ => Ty.short_simple ht x, iff_of_true rfl rfl⟩
  · simp only [if_neg ht]
    exact arrayElements h v

end Accepts

/-- **The readers accept** what the walk accepts. -/
theorem Ty.accepts (t : Ty) (hb : t.noBool) (v : t.Val) :
    Accepts (t.read v) t.scan t.wire t.full t.Short := by
  induction t with
  | scalar s => exact Accepts.scalar s
  | bool => cases hb
  | string => exact Accepts.string
  | vector t ih => exact Accepts.vector (ih hb) v
  | array t n ih => exact Accepts.array (ih hb) v

/-- Decoding accepts an encoding only: if the read returns a value, then the bytes it has consumed
are those that `serialize` writes for the value, and they have every counted element in them. -/
def Ty.Faithful (t : Ty) (old : t.Val) (bytes : List UInt8) : Prop :=
  ∀ v s, (t.read old).run (open_ bytes bytes.length) = .ok v s →
    (∀ mem : List UInt8, mem.length = s.data_ →
      (t.write v).run (open_ mem s.data_) = .ok () ⟨bytes.take s.data_, s.data_, s.data_⟩) ∧
    bytes.take s.data_ = t.full v

theorem Stream.inside_open (bytes : List UInt8) : (open_ bytes bytes.length).Inside :=
  ⟨Nat.zero_le _, le_rfl⟩

theorem Stream.window_open (bytes : List UInt8) : (open_ bytes bytes.length).window = bytes := by
  simp [window, open_]

/-- What a read has consumed of a buffer that the walk gets through. -/
theorem Ty.read_of_scan {t : Ty} (hb : t.noBool) (old : t.Val) {bytes rest : List UInt8} {b : Bool}
    (hscan : t.scan bytes = some (b, rest)) :
    ∃ v s, (t.read old).run (open_ bytes bytes.length) = .ok v s ∧
      s.data_ = (t.wire v).length ∧ bytes.take s.data_ = t.wire v ∧ t.Short v ∧
      (b = true ↔ t.wire v = t.full v) := by
  have h := t.accepts hb old _ (inside_open bytes)
  rw [window_open, hscan] at h
  obtain ⟨v, hrun, hbytes, hshort, hfull⟩ := h
  have hdata : ((open_ bytes bytes.length).skip (t.wire v).length).data_ = (t.wire v).length :=
    Nat.zero_add _
  exact ⟨v, _, hrun, hdata, by rw [hdata, hbytes, List.take_left], hshort, hfull⟩

theorem Ty.not_faithful_of_scan {t : Ty} (hb : t.noBool) (old : t.Val) {bytes rest : List UInt8}
    (hscan : t.scan bytes = some (false, rest)) : ¬ t.Faithful old bytes := by
  obtain ⟨v, s, hrun, -, htake, -, hfull⟩ := Ty.read_of_scan hb old hscan
  intro hf
  have hall := (hf v s hrun).2
  rw [htake] at hall
  exact Bool.false_ne_true (hfull.2 hall)

/-- **Decoding accepts encodings only, unless a count of simple elements is too large:** whatever
the reader accepts of a buffer is the encoding of a value if and only if the walk does not get
through the buffer with a count behind which there should be `2 ^ 32` bytes or more. -/
theorem Ty.read_faithful_iff (t : Ty) (hb : t.noBool) (old : t.Val) (bytes : List UInt8) :
    t.Faithful old bytes ↔ ∀ rest, t.scan bytes ≠ some (false, rest) := by
  refine ⟨fun hf rest hscan => Ty.not_faithful_of_scan hb old hscan hf, fun hne v s hok => ?_⟩
  cases hscan : t.scan bytes with
  | none =>
    -- the reader overruns
    have h := t.accepts hb old _ (inside_open bytes)
    rw [window_open, hscan] at h
    obtain ⟨s', hrun⟩ := h
    rw [hrun] at hok
    cases hok
  | some r =>
    obtain ⟨b, rest⟩ := r
    obtain ⟨v', s', hrun, hdata, htake, hshort, hfull⟩ := Ty.read_of_scan hb old hscan
    rw [hrun] at hok
    cases hok
    have htrue : b = true := by
      cases b with
      | true => rfl
      | false => exact absurd hscan (hne rest)
    rw [htake]
    refine ⟨fun mem hmem => ?_, hfull.1 htrue⟩
    rw [hdata] at hmem ⊢
    rw [t.write_eq_wire v hshort ⟨by simp [open_], hmem.ge⟩]
    simp [put, open_, overwrite_zero, hmem]

/-- One string, and a byte behind it. -/
theorem Ty.read_faithful_strings :
    (Ty.vector .string).Faithful ([] : List (List UInt8)) [1, 0, 0, 0, 2, 0, 0, 0, 104, 105, 7] :=
  (Ty.read_faithful_iff (.vector .string) rfl ([] : List (List UInt8))
    [1, 0, 0, 0, 2, 0, 0, 0, 104, 105, 7]).2 fun rest h => by
      have hscan : (Ty.vector .string).scan [1, 0, 0, 0, 2, 0, 0, 0, 104, 105, 7]
          = some (true, [7]) := by decide
      rw [hscan] at h
      cases h

/-- Four bytes are accepted as a vector of `2 ^ 30` integers of four bytes. -/
theorem Ty.not_faithful_count :
    ¬ (Ty.vector (.scalar .uint32)).Faithful ([] : List (Vec UInt8 4)) [0, 0, 0, 64] :=
  Ty.not_faithful_of_scan (t := .vector (.scalar .uint32)) rfl _
    (show _ = some (false, []) by decide)

end MessageTransport
