import MessageTransport.Serialization.Decoding
import MessageTransport.Serialization.RoundTrip

/-!
# Streams that end too early

A reader goes from the front to the back and asks for what it needs. So a stream that ends earlier
than another one makes no difference to it, or it overruns.

* `Yields`, `Incremental`: what an action makes of any stream that shows the first of some bytes;
* `Ty.incremental`, `Ty.read_incremental`: so are the readers of all types;
* `Packet.read_cut`: a packet of which only the first bytes are there is noticed, unless the end is
  in the data of a raw message.
-/

namespace MessageTransport

open Bytes MessageTransport.Stream

/-- The action throws `StreamOverrunException`. -/
def Overruns {α : Type} (w : StreamM α) (s : Stream) : Prop :=
  ∃ s', w.run s = .error throwStreamOverrun s'

/-- What the action makes of the streams that show the first of the bytes `bs`: it overruns all of
them, or it returns a value as soon as `n` bytes are there, and consumes these. -/
def Yields {α : Type} (w : StreamM α) (bs : List UInt8) : Option (α × ℕ) → Prop
  | none => ∀ s : Stream, s.Inside → s.window <+: bs → Overruns w s
  | some (v, n) => ∀ s : Stream, s.Inside → s.window <+: bs →
      if n ≤ s.window.length then w.run s = .ok v (s.skip n) else Overruns w s

/-- The action goes from the front to the back. -/
def Incremental {α : Type} (w : StreamM α) : Prop := ∀ bs, ∃ r, Yields w bs r

namespace Incremental

variable {α β : Type}

theorem pure (a : α) : Incremental (Pure.pure a) := fun bs => ⟨some (a, 0), fun s _ _ => by
  rw [if_pos (Nat.zero_le _)]
  rfl⟩

/-- One `advance` and one copy of `n` bytes, from which a value is made. -/
theorem copy {room n : ℕ} (hn : n ≤ room) (f : List UInt8 → α) :
    Incremental (do let p ← advance n; let bs ← memcpyFrom room p n; return f bs) := by
  refine fun bs => ⟨some (f (bs.take n), n), fun s hs hpre => ?_⟩
  split_ifs with hle
  · have htake : s.window.take n = bs.take n := by
      rw [List.prefix_iff_eq_take.1 hpre, List.take_take, min_eq_left hle]
    have hlen : (s.window.take n).length = n := List.length_take_of_le hle
    have hcopy := advance_memcpyFrom hlen.symm hn (hs.ahead hle)
    rw [← bind_assoc, EStateM.run_bind, hcopy, htake]
    rfl
  · have hlt : s.end_ < s.data_ + n := by
      have hlen := hs.length_window
      have hin := hs.1
      omega
    rw [Overruns, EStateM.run_bind, advance_overrun hlt]
    exact ⟨_, rfl⟩

/-- One action after another. -/
theorem bind {w : StreamM α} {f : α → StreamM β} (hw : Incremental w)
    (hf : ∀ a, Incremental (f a)) : Incremental (w >>= f) := by
  intro bs
  have hover : ∀ {s : Stream}, Overruns w s → Overruns (w >>= f) s := by
    rintro s ⟨s', hs'⟩
    exact ⟨s', by rw [EStateM.run_bind, hs']⟩
  obtain ⟨none | ⟨v, n⟩, hr⟩ := hw bs
  · exact ⟨none, fun s hs hpre => hover (hr s hs hpre)⟩
  obtain ⟨r', hr'⟩ := hf v (bs.drop n)
  -- what is behind the first value
  have hnext : ∀ s : Stream, s.Inside → s.window <+: bs → n ≤ s.window.length →
      (w >>= f).run s = (f v).run (s.skip n) ∧ (s.skip n).Inside ∧
        (s.skip n).window <+: bs.drop n := by
    intro s hs hpre hle
    have hrun := hr s hs hpre
    rw [if_pos hle] at hrun
    refine ⟨by rw [EStateM.run_bind, hrun], hs.skip hle, ?_⟩
    rw [window_skip]
    exact hpre.drop n
  have hshort : ∀ s : Stream, s.Inside → s.window <+: bs → ¬ n ≤ s.window.length →
      Overruns (w >>= f) s := by
    intro s hs hpre hle
    have hrun := hr s hs hpre
    rw [if_neg hle] at hrun
    exact hover hrun
  cases r' with
  | none =>
    refine ⟨none, fun s hs hpre => ?_⟩
    by_cases hle : n ≤ s.window.length
    · obtain ⟨heq, hin, hdrop⟩ := hnext s hs hpre hle
      rw [Overruns, heq]
      exact hr' _ hin hdrop
    · exact hshort s hs hpre hle
  | some r' =>
    obtain ⟨v', n'⟩ := r'
    refine ⟨some (v', n + n'), fun s hs hpre => ?_⟩
    by_cases hle : n ≤ s.window.length
    · obtain ⟨heq, hin, hdrop⟩ := hnext s hs hpre hle
      have hrun := hr' _ hin hdrop
      rw [window_skip, List.length_drop, skip_skip] at hrun
      rw [Overruns, heq]
      split_ifs at hrun ⊢ <;> first | exact hrun | omega
    · rw [if_neg (by omega)]
      exact hshort s hs hpre hle

theorem ite {p : Prop} [Decidable p] {w w' : StreamM α} (h : Incremental w)
    (h' : Incremental w') : Incremental (if p then w else w') := by
  split_ifs
  · exact h
  · exact h'

theorem scalar (s : Scalar) : Incremental s.read := copy le_rfl _

theorem readU32 : Incremental readU32 := (scalar .uint32).bind fun _ => pure _

/-- The bytes of a string. -/
theorem bytes (n : ℕ) : Incremental (do let p ← advance n; memcpyFrom n p n) := by
  have h := copy (le_refl n) (id : List UInt8 → List UInt8)
  simpa only [id, bind_pure] using h

theorem string : Incremental StringSerializer.read :=
  readU32.bind fun _ => ite (bytes _) (pure _)

/-- Elements one after the other. -/
theorem each {next : α → StreamM α} (h : ∀ y, Incremental (next y)) (old : List α) :
    Incremental (readEach next old) := by
  induction old with
  | nil => exact pure _
  | cons y ys ih => exact (h y).bind fun _ => ih.bind fun _ => pure _

theorem vector {t : Ty} (h : ∀ v, Incremental (t.read v)) (v : List t.Val) :
    Incremental (VectorSerializer.read t t.read v) := by
  refine ite (readU32.bind fun n => ite (copy ?_ _) (pure _)) (readU32.bind fun n => each h _)
  rw [length_resize, Nat.mul_comm]
  exact u32_le _

theorem array {t : Ty} {n : ℕ+} (h : ∀ v, Incremental (t.read v)) (v : Vec t.Val n) :
    Incremental (ArraySerializer.read t n t.read v) :=
  ite (copy (u32_le _) _) ((each h v.1).bind fun _ => pure _)

end Incremental

theorem Ty.incremental (t : Ty) (v : t.Val) : Incremental (t.read v) := by
  induction t with
  | scalar s => exact Incremental.scalar s
  | bool => exact Incremental.copy le_rfl _
  | string => exact Incremental.string
  | vector t ih => exact Incremental.vector ih v
  | array t n ih => exact Incremental.array ih v

/-- **A longer buffer changes nothing.** For every type and every content of the target, whatever
the bytes are: the reader overruns every stream that shows the first of them, or there are a number
of bytes and a value such that it overruns if fewer are shown, and else returns that value and
consumes that number. -/
theorem Ty.read_incremental (t : Ty) (old : t.Val) (bs : List UInt8) :
    (∀ s : Stream, s.Inside → s.window <+: bs → Overruns (t.read old) s) ∨
      ∃ v n, ∀ s : Stream, s.Inside → s.window <+: bs →
        if n ≤ s.window.length then (t.read old).run s = .ok v (s.skip n)
        else Overruns (t.read old) s := by
  obtain ⟨none | ⟨v, n⟩, h⟩ := t.incremental old bs
  · exact .inl h
  · exact .inr ⟨v, n, h⟩

/-- What the action has made of a stream, it makes of all that show the same bytes first. -/
theorem Incremental.yields {α : Type} {w : StreamM α} (hw : Incremental w) {s : Stream}
    (hs : s.Inside) {v : α} {n : ℕ} (hrun : w.run s = .ok v (s.skip n)) :
    Yields w s.window (some (v, n)) := by
  obtain ⟨none | ⟨v', n'⟩, hr⟩ := hw s.window
  · obtain ⟨s', hover⟩ := hr s hs List.prefix_rfl
    cases hover.symm.trans hrun
  · have hsame := hr s hs List.prefix_rfl
    split_ifs at hsame
    · have heq := hsame.symm.trans hrun
      simp only [EStateM.Result.ok.injEq, skip, Stream.mk.injEq, Nat.add_left_cancel_iff,
        true_and, and_true] at heq
      obtain ⟨rfl, rfl⟩ := heq
      exact hr
    · obtain ⟨s', hover⟩ := hsame
      cases hover.symm.trans hrun

/-! ### Packets -/

/-- The message with the first `n` bytes of its data. -/
def RawMessage.cut (v : RawMessage) (n : ℕ) : RawMessage :=
  ⟨v.timestamp, v.m_value.take n, (List.length_take_le' ..).trans_lt v.length_lt⟩

theorem RawMessage.encode_cut (v : RawMessage) (n : ℕ) :
    (v.cut n).encode = v.encode.take (8 + n) := by
  have h8 : v.timestamp.1.length = 8 := v.timestamp.2
  show v.timestamp.1 ++ v.m_value.take n = (v.timestamp.1 ++ v.m_value).take (8 + n)
  rw [List.take_append, h8, Nat.add_sub_cancel_left,
    List.take_of_length_le (l := v.timestamp.1) (by omega)]

/-- A raw message of which only the first bytes are there. -/
theorem RawMessage.read_first (v old : RawMessage) {s : Stream} (hs : s.Inside)
    (hpre : s.window <+: v.encode) :
    if 8 ≤ s.window.length then
      (old.read true).run s = .ok (v.cut (s.window.length - 8)) (s.skip s.window.length)
    else Overruns (old.read true) s := by
  have hlen := hs.length_window
  have hin := hs.1
  split_ifs with h8
  · have hwindow : (v.cut (s.window.length - 8)).encode = s.window := by
      rw [encode_cut, Nat.add_sub_cancel' h8]
      exact (List.prefix_iff_eq_take.1 hpre).symm
    have hahead := hs.ahead le_rfl
    rw [List.take_length, ← hwindow] at hahead
    have hrun := read_eq (v.cut (s.window.length - 8)) old hahead (by rw [hwindow]; omega)
    rwa [hwindow] at hrun
  · have hover : s.end_ < s.data_ + Scalar.sizeof .uint64 := by
      simp only [Scalar.sizeof]
      omega
    rw [Overruns, read, Scalar.read, EStateM.run_bind, EStateM.run_bind, advance_overrun hover]
    exact ⟨_, rfl⟩

namespace Packet

/-- The bytes that a reader of the packet needs. -/
def least (p : Packet) : ℕ :=
  (p.items.flatMap Transfer.encode).length + if p.raw.isSome then 8 else 0

/-- What is read of the first `n` bytes of the packet, if they are enough. -/
def cut (p : Packet) (n : ℕ) : Packet :=
  ⟨p.items.map Transfer.delivered, p.raw.map fun (m, _) => (m, m.cut (n - p.least))⟩

/-- The items are read back, if they are there. -/
theorem yields_items (p : Packet) (hlt : p.encode.length < 2 ^ 32) :
    Yields (readEach Transfer.read p.items) p.encode
      (some (p.items.map Transfer.delivered, (p.items.flatMap Transfer.encode).length)) := by
  have hread : Incremental (readEach Transfer.read p.items) :=
    Incremental.each (fun x => (x.ty.incremental x.target).bind fun _ => .pure _) _
  have hitems : (⟨p.items, none⟩ : Packet).encode = p.items.flatMap Transfer.encode :=
    List.append_nil _
  have hlen : (p.items.flatMap Transfer.encode).length ≤ p.encode.length := by
    rw [encode, List.length_append]
    exact Nat.le_add_right ..
  have hahead : (open_ p.encode p.encode.length).Ahead (p.items.flatMap Transfer.encode) :=
    ⟨⟨by simpa [open_] using hlen, le_rfl⟩, List.prefix_append ..⟩
  -- as in a packet without a raw message
  have hrun := (⟨p.items, none⟩ : Packet).read_eq (open_ p.encode p.encode.length)
    (by rw [hitems]; exact hlen.trans_lt hlt) (by rwa [hitems]) (.inl rfl)
  rw [Packet.read, EStateM.run_bind, hitems] at hrun
  rw [← window_open p.encode]
  refine hread.yields (inside_open _) ?_
  cases hr : (readEach Transfer.read p.items).run (open_ p.encode p.encode.length) with
  | error e s =>
    rw [hr] at hrun
    cases hrun
  | ok items s =>
    rw [hr] at hrun
    simp only [EStateM.run_pure, delivered, EStateM.Result.ok.injEq, Packet.mk.injEq] at hrun
    rw [hrun.1.1, hrun.2]

/-- **A packet that is cut off.** If a stream shows only the first bytes of what was sent, the
reader of the packet overruns, unless the end is in the data of a raw message: then everything is
delivered, but for the data that are not there. -/
theorem read_cut (p : Packet) (hlt : p.encode.length < 2 ^ 32) (s : Stream) (hs : s.Inside)
    (hpre : s.window <+: p.encode) :
    if p.least ≤ s.window.length then
      p.read.run s = .ok (p.cut s.window.length) (s.skip s.window.length)
    else Overruns p.read s := by
  have hrun := p.yields_items hlt s hs hpre
  obtain ⟨items, raw⟩ := p
  simp only [encode] at hpre hrun
  generalize hL : (items.flatMap Transfer.encode).length = L at *
  split_ifs at hrun with hle
  · rw [Overruns, Packet.read, EStateM.run_bind, hrun]
    cases raw with
    | none =>
      have hwhole : s.window.length ≤ L := by
        have := hpre.length_le
        simpa [hL] using this
      have hall : L = s.window.length := le_antisymm hle hwhole
      simp [least, cut, hL, hall]
    | some m =>
      have hdrop : (s.skip L).window <+: m.1.encode := by
        have h := hpre.drop L
        rw [window_skip]
        rwa [← hL, List.drop_left, hL] at h
      have hread := m.1.read_first m.2 (hs.skip hle) hdrop
      rw [window_skip, List.length_drop, skip_skip, Nat.add_sub_cancel' hle] at hread
      have hleast : L + 8 ≤ s.window.length ↔ 8 ≤ s.window.length - L := by omega
      simp only [least, hL, Option.isSome_some, if_true, hleast]
      split_ifs at hread ⊢
      · rw [EStateM.run_bind, hread]
        simp only [EStateM.run_pure, cut, least, hL, Option.isSome_some, if_true, Option.map_some,
          Nat.sub_sub]
      · obtain ⟨s', hover⟩ := hread
        exact ⟨s', by rw [EStateM.run_bind, hover]⟩
  · obtain ⟨s', hover⟩ := hrun
    rw [if_neg (by simp only [least, hL]; omega)]
    exact ⟨s', by rw [Packet.read, EStateM.run_bind, hover]⟩

/-- Of 21 bytes, 19 are enough and 17 are not. -/
theorem read_cut_mixed :
    mixed.read.run (open_ mixed.encode 19) = .ok (mixed.cut 19) (⟨mixed.encode, 19, 19⟩) ∧
      Overruns mixed.read (open_ mixed.encode 17) := by
  have hlt : mixed.encode.length < 2 ^ 32 := by decide
  have hin : ∀ n ≤ mixed.encode.length, (open_ mixed.encode n).Inside :=
    fun n hn => ⟨Nat.zero_le n, hn⟩
  refine ⟨?_, ?_⟩
  · exact read_cut mixed hlt (open_ mixed.encode 19) (hin 19 (by decide)) (by decide)
  · exact read_cut mixed hlt (open_ mixed.encode 17) (hin 17 (by decide)) (by decide)

end Packet

end MessageTransport
