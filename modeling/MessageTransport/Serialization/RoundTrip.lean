import MessageTransport.Serialization.Encoding

/-!
# Round trip of a sequence of values

A `Packet` is what a sender writes and a receiver reads on one stream: a finite sequence of values
of serializable types, each with the variable it is received into, and at the end possibly one raw
message. `Packet.roundTrip` says that a packet of less than `2 ^ 32` bytes goes through a buffer of
exactly the computed length unchanged.
-/

namespace MessageTransport

open Bytes MessageTransport.Stream

/-- A value of some type, and the variable of that type that will receive it. -/
structure Transfer where
  ty : Ty
  value : ty.Val
  target : ty.Val

namespace Transfer

def write (x : Transfer) : StreamM Unit := x.ty.write x.value

/-- `in.next(target)`. -/
def read (x : Transfer) : StreamM Transfer := do
  let v ← x.ty.read x.target
  return { x with target := v }

/-- The target holds the value sent. -/
def delivered (x : Transfer) : Transfer := { x with target := x.value }

def encode (x : Transfer) : List UInt8 := x.ty.encode x.value

end Transfer

/-- `LStream`: the length of the items it was fed. -/
structure LStream where
  count_ : ℕ

namespace LStream

def init : LStream := ⟨0⟩

/-- `next(t)`, for an item of a given serialization length. -/
def next (s : LStream) (len : ℕ) : LStream := ⟨u32 (s.count_ + len)⟩

def getLength (s : LStream) : ℕ := s.count_

end LStream

/-- Values sent one after the other, and a final raw message with the message it is received
into. -/
structure Packet where
  items : List Transfer
  raw : Option (RawMessage × RawMessage)

namespace Packet

def write (p : Packet) : StreamM Unit := do
  writeEach Transfer.write p.items
  match p.raw with
  | none => return ()
  | some (m, _) => m.write

def read (p : Packet) : StreamM Packet := do
  let items ← readEach Transfer.read p.items
  match p.raw with
  | none => return ⟨items, none⟩
  | some (m, target) =>
    let target ← target.read true
    return ⟨items, some (m, target)⟩

/-- Every target holds the value sent. -/
def delivered (p : Packet) : Packet :=
  ⟨p.items.map Transfer.delivered, p.raw.map fun (m, _) => (m, m)⟩

/-- The lengths computed for the items, in order. -/
def serializationLengths (p : Packet) : List ℕ :=
  p.items.map (fun x => x.ty.serializationLength x.value) ++
    (p.raw.map fun (m, _) => m.serializedLength).toList

/-- An `LStream` fed the items. -/
def lstream (p : Packet) : LStream := p.serializationLengths.foldl LStream.next LStream.init

/-- The bytes of the packet. -/
def encode (p : Packet) : List UInt8 :=
  p.items.flatMap Transfer.encode ++ (p.raw.map fun (m, _) => m.encode).getD []

/-! ### Lengths -/

theorem sum_serializationLengths (p : Packet) (h : p.encode.length < 2 ^ 32) :
    p.serializationLengths.sum = p.encode.length := by
  obtain ⟨items, raw⟩ := p
  simp only [encode, List.length_append] at h
  have hitems : (items.map fun x => x.ty.serializationLength x.value).sum
      = (items.flatMap Transfer.encode).length := by
    rw [List.length_flatMap]
    congr 1
    refine List.map_congr_left fun x hx => x.ty.serializationLength_eq x.value ?_
    have : x.encode.length ≤ _ := length_le_flatMap (f := Transfer.encode) hx
    exact lt_of_le_of_lt this (by omega)
  simp only [serializationLengths, encode, List.sum_append, List.length_append, hitems]
  cases raw with
  | none => rfl
  | some m =>
    have : m.1.encode.length < 2 ^ 32 := by
      simp only [Option.map_some, Option.getD_some] at h; omega
    simp [RawMessage.serializedLength_eq m.1 this]

/-- Below `2 ^ 32` an `LStream` adds up what it is fed. -/
theorem lstream_foldl (l : List ℕ) (s : LStream) (h : s.count_ + l.sum < 2 ^ 32) :
    (l.foldl LStream.next s).getLength = s.count_ + l.sum := by
  induction l generalizing s with
  | nil => rfl
  | cons n l ih =>
    rw [List.sum_cons] at h ⊢
    have hn : (s.next n).count_ = s.count_ + n := u32_of_lt (by omega)
    rw [List.foldl_cons, ih _ (by rw [hn]; omega), hn, Nat.add_assoc]

/-! ### Writing and reading a packet -/

theorem write_eq (p : Packet) (st : Stream) (hlt : p.encode.length < 2 ^ 32)
    (h : st.Room p.encode.length) : p.write.run st = .ok () (st.put p.encode) := by
  obtain ⟨items, raw⟩ := p
  simp only [encode, List.length_append] at hlt h
  have hitems := writeEach_eq Transfer.write Transfer.encode items
    (fun x hx s hs => x.ty.write_eq x.value s
      (lt_of_le_of_lt (length_le_flatMap (f := Transfer.encode) hx) (by omega)) hs)
    st (h.mono (by omega))
  rw [Packet.write, EStateM.run_bind, hitems]
  cases raw with
  | none => simp [encode]
  | some m =>
    simp only [Option.map_some, Option.getD_some] at h
    simp only [encode, Option.map_some, Option.getD_some]
    rw [RawMessage.write_eq m.1 h.put, put_put h]

/-- In front of its bytes a packet is read back; a final raw message must end with the stream. -/
theorem read_eq (p : Packet) (st : Stream) (hlt : p.encode.length < 2 ^ 32)
    (h : st.Ahead p.encode) (hend : p.raw = none ∨ st.data_ + p.encode.length = st.end_) :
    p.read.run st = .ok p.delivered (st.skip p.encode.length) := by
  obtain ⟨items, raw⟩ := p
  simp only [encode, List.length_append] at hlt
  have hread : List.Forall₂ (fun x y => ∀ s, s.Ahead (Transfer.encode x) →
      (Transfer.read y).run s = .ok x (s.skip (Transfer.encode x).length))
      (items.map Transfer.delivered) items := by
    rw [List.forall₂_map_left_iff, List.forall₂_same]
    intro x hx s hs
    have hx' := length_le_flatMap (f := Transfer.encode) hx
    -- the value of the variable does not matter
    have := x.ty.read_eq x.value x.target s (lt_of_le_of_lt hx' (by omega)) hs
    rw [Transfer.read, EStateM.run_bind, this]
    rfl
  have henc : (items.map Transfer.delivered).flatMap Transfer.encode
      = items.flatMap Transfer.encode := by
    rw [List.flatMap_map]
    rfl
  have hitems := readEach_eq hread st (by rw [henc]; exact h.left)
  rw [henc] at hitems
  rw [Packet.read, EStateM.run_bind, hitems]
  cases raw with
  | none => simp [encode, delivered]
  | some m =>
    have hend' : st.data_ + ((items.flatMap Transfer.encode).length + m.1.encode.length)
        = st.end_ := by
      rcases hend with hend | hend
      · cases hend
      · simpa [encode] using hend
    simp only
    rw [EStateM.run_bind, RawMessage.read_eq m.1 m.2 h.right (by simp only [skip]; omega)]
    simp [encode, delivered]

/-! ### Round trip -/

/-- **A packet goes through a buffer of the computed length unchanged.** The buffer may hold
anything before; bytes after a packet without raw message are not read. -/
theorem roundTrip (p : Packet) (h : p.encode.length < 2 ^ 32) :
    let L := p.serializationLengths.sum
    p.lstream.getLength = L ∧
    ∀ mem : List UInt8, mem.length = L →
      ∃ out, p.write.run (open_ mem L) = .ok () out ∧ out.getLength = 0 ∧
        (∃ inp, p.read.run (open_ out.mem L) = .ok p.delivered inp ∧ inp.getLength = 0) ∧
        (p.raw = none → ∀ tail : List UInt8, L + tail.length < 2 ^ 32 →
          ∃ inp, p.read.run (open_ (out.mem ++ tail) (L + tail.length)) = .ok p.delivered inp ∧
            inp.getLength = tail.length ∧ inp.mem.drop inp.data_ = tail) := by
  intro L
  have hL : L = p.encode.length := p.sum_serializationLengths h
  refine ⟨?_, fun mem hmem => ?_⟩
  · have hlt : LStream.init.count_ + p.serializationLengths.sum < 2 ^ 32 := by
      simp only [LStream.init]; omega
    rw [lstream, lstream_foldl _ _ hlt]
    simp [LStream.init, L]
  have hroom : (open_ mem L).Room p.encode.length :=
    ⟨by simp only [open_]; omega, by simp only [open_]; omega⟩
  have hout : ((open_ mem L).put p.encode).mem = p.encode := by
    simp only [put, open_, overwrite_zero]
    rw [List.drop_eq_nil_of_le (by omega), List.append_nil]
  refine ⟨_, p.write_eq _ h hroom, ?_, ?_, ?_⟩
  · rw [getLength_eq] <;> simp [open_, hL]
  · rw [hout]
    have hahead : (open_ p.encode L).Ahead p.encode :=
      ⟨⟨by simp only [open_]; omega, by simp only [open_]; omega⟩, by simp [open_]⟩
    refine ⟨_, p.read_eq _ h hahead (Or.inr (by simp only [open_]; omega)), ?_⟩
    rw [getLength_eq] <;> simp [open_, skip, hL]
  · intro hraw tail htail
    rw [hout]
    have hahead : (open_ (p.encode ++ tail) (L + tail.length)).Ahead p.encode :=
      ⟨⟨by simp only [open_]; omega, by simp only [open_, List.length_append]; omega⟩,
        by simp [open_]⟩
    refine ⟨_, p.read_eq _ h hahead (Or.inl hraw), ?_, ?_⟩
    · rw [getLength_eq] <;> simp only [open_, skip] <;> omega
    · simp [open_, skip]

/-- A string, an array of two-byte integers and a raw message, with variables that hold other
values. -/
def mixed : Packet :=
  ⟨[⟨.string, ([104, 105] : List UInt8), ([120] : List UInt8)⟩,
    ⟨.array (.scalar .uint16) 2, ⟨[⟨[1, 2], rfl⟩, ⟨[3, 4], rfl⟩], rfl⟩,
      ⟨[⟨[0, 0], rfl⟩, ⟨[9, 9], rfl⟩], rfl⟩⟩],
    some (⟨⟨[1, 0, 0, 0, 0, 0, 0, 0], rfl⟩, [7, 7, 7], by decide⟩,
      ⟨⟨[5, 0, 0, 0, 0, 0, 0, 0], rfl⟩, [1], by decide⟩)⟩

theorem roundTrip_mixed :
    mixed.lstream.getLength = 21 ∧
    ∃ out, mixed.write.run (open_ (List.replicate 21 0) 21) = .ok () out ∧ out.getLength = 0 ∧
      ∃ inp, mixed.read.run (open_ out.mem 21) = .ok mixed.delivered inp ∧ inp.getLength = 0 := by
  obtain ⟨hlen, hrun⟩ := roundTrip mixed (by decide)
  obtain ⟨out, hwrite, hout, hread, -⟩ := hrun (List.replicate 21 0) rfl
  exact ⟨hlen, out, hwrite, hout, hread⟩

end Packet

end MessageTransport
