import MessageTransport.Serialization.Tape
import MessageTransport.Serialization.Wire

/-!
# The ranges that serializers touch

A log is checked if every range of the buffer in it lies inside the range that the last `advance`
before it returned, that range inside the buffer, and every range of a value inside the storage of
the value. `StreamCall.orderly_iff` decides, for every type, value and stream, whether a call leaves
a checked log and no failure but an overrun.

All reads do, and all writes but one kind: a string of `2 ^ 32` or more characters advances by its
length modulo `2 ^ 32` and copies its whole length. `Ty.Spills` says when a write comes as far as
that copy.
-/

namespace MessageTransport

open Bytes MessageTransport.Tape

/-! ### Checked logs -/

/-- The range that the last `advance` returned. -/
def lastAdvance : List Access → Option (ℕ × ℕ)
  | [] => none
  | .advance pos len :: _ => some (pos, len)
  | _ :: log => lastAdvance log

/-- The entry `a` of a log is in order after the entries `log`, for a buffer that ends at `end_`. -/
def Access.InOrder (end_ : ℕ) (log : List Access) : Access → Prop
  | .advance pos len => pos + len ≤ end_
  | .buffer pos len => ∃ p n, lastAdvance log = some (p, n) ∧ p ≤ pos ∧ pos + len ≤ p + n
  | .object len storage => len ≤ storage

/-- Every entry of a log is in order. -/
def Checked (end_ : ℕ) : List Access → Prop
  | [] => True
  | a :: log => a.InOrder end_ log ∧ Checked end_ log

theorem Checked.of_suffix {end_ : ℕ} {l l' : List Access} (h : Checked end_ l') (hl : l <:+ l') :
    Checked end_ l := by
  induction l' with
  | nil =>
    rw [List.suffix_nil.1 hl]
    trivial
  | cons a l' ih =>
    rcases List.suffix_cons_iff.1 hl with rfl | hl'
    · exact h
    · exact ih h.2 hl'

/-- A range of the buffer is checked if it lies inside the window. -/
theorem Checked.buffer_le {end_ pos len : ℕ} {log : List Access}
    (h : Checked end_ (.buffer pos len :: log)) : pos + len ≤ end_ := by
  obtain ⟨⟨p, n, hlast, -, hle⟩, hlog⟩ := h
  have hn : p + n ≤ end_ := by
    induction log with
    | nil => cases hlast
    | cons a log ih =>
      cases a with
      | advance q m =>
        cases hlast
        exact hlog.1
      | buffer q m => exact ih hlog.2 hlast
      | object m storage => exact ih hlog.2 hlast
  omega

/-- A tape in the middle of an orderly run. -/
structure Tape.Ready (s : Tape) : Prop where
  data_le : s.stream.data_ ≤ s.stream.end_
  end_le : s.stream.end_ ≤ s.stream.mem.length
  checked : Checked s.stream.end_ s.log

/-- The bytes left. -/
def Tape.room (s : Tape) : ℕ := s.stream.end_ - s.stream.data_

theorem Tape.Ready.room_iff {s : Tape} (h : s.Ready) (n : ℕ) :
    s.stream.Room n ↔ n ≤ s.room := by
  have := h.data_le
  exact ⟨fun hn => by have := hn.1; unfold Tape.room; omega,
    fun hn => ⟨by unfold Tape.room at hn; omega, h.end_le⟩⟩

theorem Stream.memcpyTo_fault {s : Stream} {dst n : ℕ} {src : List UInt8}
    (h : s.mem.length < dst + n) : (Stream.memcpyTo dst src n).run s = .error .undefined s := by
  have hn : ¬ (n ≤ src.length ∧ dst + n ≤ s.mem.length) := by omega
  simp [Stream.memcpyTo, hn]

theorem Stream.length_put {s : Stream} {bs : List UInt8} (h : s.Room bs.length) :
    (s.put bs).mem.length = s.mem.length :=
  length_overwrite (by have := h.1; have := h.2; omega)

theorem Tape.run_lift_ok {α : Type} {w : StreamM α} {s : Tape} {a : α} {st : Stream}
    (h : w.run s.stream = .ok a st) : (lift w).run s = .ok a { s with stream := st } := by
  show lift w s = _
  simp only [lift, h]

theorem Tape.run_lift_error {α : Type} {w : StreamM α} {s : Tape} {e : Fault} {st : Stream}
    (h : w.run s.stream = .error e st) : (lift w).run s = .error e { s with stream := st } := by
  show lift w s = _
  simp only [lift, h]

theorem Tape.advance_ok {s : Tape} {n : ℕ} (h : s.stream.data_ + n ≤ s.stream.end_) :
    (advance n).run s
      = .ok s.stream.data_ ⟨s.stream.skip n, .advance s.stream.data_ n :: s.log⟩ := by
  rw [advance, EStateM.run_bind, run_lift_ok (Stream.advance_ok h)]
  rfl

theorem Tape.advance_overrun {s : Tape} {n : ℕ} (h : s.stream.end_ < s.stream.data_ + n) :
    (advance n).run s = .error throwStreamOverrun ⟨s.stream.skip n, s.log⟩ := by
  rw [advance, EStateM.run_bind, run_lift_error (Stream.advance_overrun h)]
  rfl

theorem Tape.memcpyTo_ok {dst n : ℕ} {src : List UInt8} {s : Tape} (hn : n ≤ src.length)
    (h : dst + n ≤ s.stream.mem.length) :
    (memcpyTo dst src n).run s
      = .ok () ⟨{ s.stream with mem := overwrite s.stream.mem dst (src.take n) },
          .buffer dst n :: .object n src.length :: s.log⟩ :=
  run_lift_ok (s := ⟨s.stream, .buffer dst n :: .object n src.length :: s.log⟩)
    (Stream.memcpyTo_ok hn h)

/-- A copy that does not fit the memory. -/
theorem Tape.memcpyTo_fault {dst n : ℕ} {src : List UInt8} {s : Tape}
    (h : s.stream.mem.length < dst + n) :
    (memcpyTo dst src n).run s
      = .error .undefined ⟨s.stream, .buffer dst n :: .object n src.length :: s.log⟩ :=
  run_lift_error (s := ⟨s.stream, .buffer dst n :: .object n src.length :: s.log⟩)
    (Stream.memcpyTo_fault h)

theorem Tape.memcpyFrom_ok {room src n : ℕ} {s : Tape} (hn : n ≤ room)
    (h : src + n ≤ s.stream.mem.length) :
    (memcpyFrom room src n).run s
      = .ok ((s.stream.mem.drop src).take n) ⟨s.stream, .object n room :: .buffer src n :: s.log⟩ :=
  run_lift_ok (s := ⟨s.stream, .object n room :: .buffer src n :: s.log⟩)
    (Stream.memcpyFrom_ok hn h)

theorem Tape.log_lift {α : Type} (w : StreamM α) (s : Tape) :
    (final ((lift w).run s)).log = s.log := by
  cases h : w.run s.stream with
  | ok a st => rw [run_lift_ok h]; rfl
  | error e st => rw [run_lift_error h]; rfl

theorem Tape.log_memcpyTo (dst n : ℕ) (src : List UInt8) (s : Tape) :
    (final ((memcpyTo dst src n).run s)).log
      = .buffer dst n :: .object n src.length :: s.log :=
  log_lift (Stream.memcpyTo dst src n) ⟨s.stream, .buffer dst n :: .object n src.length :: s.log⟩

/-! ### Writing -/

/-- How a write of the bytes `bs` on the tape `s` can end: with a log out of order, if it spills,
and then not at all if the memory is not that large; otherwise with a log in order, after all bytes
or with an overrun for want of room. -/
inductive Written (s : Tape) (bs : List UInt8) (spills : Prop) :
    EStateM.Result Fault Tape Unit → Prop
  | spilt {r : EStateM.Result Fault Tape Unit} (h : spills)
      (hlog : ¬ Checked s.stream.end_ (final r).log)
      (hfault : s.stream.mem.length < 2 ^ 32 → ∀ s', r ≠ .ok () s') : Written s bs spills r
  | ok {log : List Access} (h : ¬ spills) (hroom : bs.length ≤ s.room)
      (hlog : Checked s.stream.end_ log) : Written s bs spills (.ok () ⟨s.stream.put bs, log⟩)
  | overrun {s' : Tape} (h : ¬ spills) (hroom : s.room < bs.length)
      (hlog : Checked s.stream.end_ s'.log) : Written s bs spills (.error throwStreamOverrun s')

/-- The action `w` writes the bytes `bs`, and spills with as much room as `spills` says. -/
def Writes (w : TapeM Unit) (bs : List UInt8) (spills : ℕ → Prop) : Prop :=
  ∀ s : Tape, s.Ready → Written s bs (spills s.room) (w.run s)

namespace Writes

theorem congr {w : TapeM Unit} {bs : List UInt8} {spills spills' : ℕ → Prop}
    (h : Writes w bs spills) (hs : ∀ room, spills room ↔ spills' room) : Writes w bs spills' := by
  obtain rfl : spills = spills' := funext fun r => propext (hs r)
  exact h

theorem nothing : Writes (pure ()) [] fun _ => False := by
  intro s hs
  have h : Written s [] False (.ok () ⟨s.stream.put [], s.log⟩) :=
    .ok not_false (Nat.zero_le _) hs.checked
  rwa [Stream.put_nil] at h

/-- After bytes that fitted, the tape is in order again and has less room. -/
theorem ready_put {s : Tape} {bs : List UInt8} {log : List Access} (hs : s.Ready)
    (hroom : bs.length ≤ s.room) (hlog : Checked s.stream.end_ log) :
    (⟨s.stream.put bs, log⟩ : Tape).Ready := by
  have h : s.stream.Room (bs.length + 0) := (hs.room_iff _).2 hroom
  have h0 := h.put
  exact ⟨by have := h0.1; omega, h0.2, hlog⟩

theorem room_put (s : Tape) (bs : List UInt8) (log : List Access) :
    (⟨s.stream.put bs, log⟩ : Tape).room = s.room - bs.length := by
  simp only [Tape.room, Stream.put_end, Stream.put_data]
  omega

/-- One write after the other: the second may spill only if the first has fitted. -/
theorem seq {w w' : TapeM Unit} {bs bs' : List UInt8} {spills spills' : ℕ → Prop}
    (h : Writes w bs spills) (h' : Writes w' bs' spills')
    (grows : ∀ s : Tape, s.log <:+ (final (w'.run s)).log) :
    Writes (do w; w') (bs ++ bs') fun room =>
      spills room ∨ (bs.length ≤ room ∧ spills' (room - bs.length)) := by
  intro s hs
  have hw := h s hs
  rw [EStateM.run_bind]
  generalize w.run s = r at hw
  cases hw with
  | spilt hsp hlog hfault =>
    cases r with
    | error e s' => exact .spilt (Or.inl hsp) hlog nofun
    | ok a s' =>
      -- what is logged stays
      exact .spilt (Or.inl hsp) (fun hc => hlog (hc.of_suffix (grows s')))
        fun hmem => absurd rfl (hfault hmem s')
  | overrun hsp hroom hlog =>
    refine .overrun ?_ (by rw [List.length_append]; omega) hlog
    rintro (hsp' | ⟨hroom', -⟩)
    · exact hsp hsp'
    · omega
  | @ok log hsp hroom hlog =>
    have hw' := h' _ (ready_put hs hroom hlog)
    have hiff : (spills s.room ∨ (bs.length ≤ s.room ∧ spills' (s.room - bs.length))) ↔
        spills' (s.room - bs.length) := by simp [hsp, hroom]
    rw [room_put] at hw'
    simp only [hiff]
    generalize w'.run ⟨s.stream.put bs, log⟩ = r' at hw'
    cases hw' with
    | spilt hsp' hlog' hfault' =>
      refine .spilt hsp' hlog' fun hmem => hfault' ?_
      have hfits := (hs.room_iff _).2 hroom
      rwa [Stream.length_put hfits]
    | overrun hsp' hroom' hlog' =>
      rw [room_put] at hroom'
      exact .overrun hsp' (by rw [List.length_append]; omega) hlog'
    | ok hsp' hroom' hlog' =>
      rw [room_put] at hroom'
      have hlen : (bs ++ bs').length ≤ s.room := by rw [List.length_append]; omega
      have hput := Stream.put_put ((hs.room_iff _).2 (List.length_append ▸ hlen))
      simp only [hput]
      exact .ok hsp' hlen hlog'

/-- One `advance` by `n` bytes and one `memcpy` of `m`: as many, or more than any memory has. -/
theorem copy {src : List UInt8} {n m : ℕ} (hnm : n ≤ m) (hmany : n < m → 2 ^ 32 ≤ m)
    (hm : m ≤ src.length) :
    Writes (do let p ← advance n; memcpyTo p src m) (src.take n)
      fun room => n < m ∧ n ≤ room := by
  intro s hs
  have hlen : (src.take n).length = n := by rw [List.length_take]; omega
  have hroom := hs.room_iff n
  rw [EStateM.run_bind]
  by_cases hn : n ≤ s.room
  · obtain ⟨h1, h2⟩ := hroom.2 hn
    rw [advance_ok h1]
    simp only
    obtain rfl | hlt := hnm.eq_or_lt
    · -- the copy stays within the range that was returned
      have hput : { s.stream.skip n with
          mem := overwrite s.stream.mem s.stream.data_ (src.take n) }
          = s.stream.put (src.take n) := by simp only [Stream.skip, Stream.put, hlen]
      rw [memcpyTo_ok hm (by simp only [Stream.skip]; omega)]
      refine hput ▸ .ok (by simp) (by rwa [hlen]) ⟨⟨_, _, rfl, le_rfl, le_rfl⟩, hm, h1, hs.checked⟩
    · -- the copy is longer than that range
      refine .spilt ⟨hlt, hn⟩ (fun hc => ?_) fun hmem s' hrun => ?_
      · rw [log_memcpyTo] at hc
        obtain ⟨p, k, hlast, -, hle⟩ := hc.1
        cases hlast
        omega
      · have := hmany hlt
        rw [memcpyTo_fault (by simp only [Stream.skip]; omega)] at hrun
        cases hrun
  · rw [advance_overrun (not_le.1 fun h => hn (hroom.1 ⟨h, hs.end_le⟩))]
    exact .overrun (fun h => hn h.2) (by rw [hlen]; omega) hs.checked

end Writes

/-- Some element spills before the room is used up by those in front of it. -/
def spillsEach {α : Type} (spills : α → ℕ → Prop) (wire : α → List UInt8) : List α → ℕ → Prop
  | [], _ => False
  | x :: xs, room => spills x room ∨
      ((wire x).length ≤ room ∧ spillsEach spills wire xs (room - (wire x).length))

/-- With `room` bytes left, the write of a value comes to a string of `2 ^ 32` or more characters
for which there is room when its length is taken modulo `2 ^ 32`. -/
def Ty.Spills : (t : Ty) → t.Val → ℕ → Prop
  | .scalar _, _, _ | .bool, _, _ => False
  | .string, v, room => 2 ^ 32 ≤ List.length v ∧ 4 + u32 (List.length v) ≤ room
  | .vector t, v, room => 4 ≤ room ∧ spillsEach t.Spills t.wire v (room - 4)
  | .array t _, v, room => spillsEach t.Spills t.wire v.1 room

theorem not_spillsEach {α : Type} {spills : α → ℕ → Prop} {wire : α → List UInt8} {v : List α}
    (h : ∀ x ∈ v, ∀ room, ¬ spills x room) (room : ℕ) : ¬ spillsEach spills wire v room := by
  induction v generalizing room with
  | nil => exact not_false
  | cons x xs ih =>
    rintro (hx | ⟨-, hxs⟩)
    · exact h x (by simp) room hx
    · exact ih (fun y hy => h y (by simp [hy])) _ hxs

/-- Only a long string spills. -/
theorem Ty.not_spills_of_short (t : Ty) (v : t.Val) (h : t.Short v) (room : ℕ) :
    ¬ t.Spills v room := by
  induction t generalizing room with
  | scalar s => exact not_false
  | bool => exact not_false
  | string => exact fun hs => absurd hs.1 (not_le.2 h)
  | vector t ih => exact fun hs => not_spillsEach (fun x hx => ih x (h x hx)) _ hs.2
  | array t n ih => exact not_spillsEach (fun x hx => ih x (h x hx)) room

theorem spillsEach_of_mem {α : Type} {spills : α → ℕ → Prop} {wire : α → List UInt8} {v : List α}
    (h : ∃ x ∈ v, ∀ room, (wire x).length ≤ room → spills x room) {room : ℕ}
    (hroom : (v.flatMap wire).length ≤ room) : spillsEach spills wire v room := by
  induction v generalizing room with
  | nil => simp at h
  | cons y ys ih =>
    rw [length_flatMap_cons] at hroom
    obtain ⟨x, hx, hsp⟩ := h
    rcases List.mem_cons.1 hx with rfl | hys
    · exact .inl (hsp room (by omega))
    · exact .inr ⟨by omega, ih ⟨x, hys, hsp⟩ (by omega)⟩

theorem Ty.short_simple {t : Ty} (ht : t.isSimple) (v : t.Val) : t.Short v := by
  cases t <;> trivial

/-- Elements that are not all short are no simple ones, so they are written one by one. -/
theorem spillsEach_of_not_short {t : Ty}
    (ih : ∀ x, ¬ t.Short x → ∀ room, (t.wire x).length ≤ room → t.Spills x room)
    {v : List t.Val} (h : ¬ ∀ x ∈ v, t.Short x) {room : ℕ}
    (hroom : (ArraySerializer.wire t t.wire v).length ≤ room) :
    spillsEach t.Spills t.wire v room := by
  have ht : ¬ t.isSimple := fun ht => h fun x _ => Ty.short_simple ht x
  rw [ArraySerializer.wire, if_neg ht] at hroom
  push Not at h
  obtain ⟨x, hx, hlong⟩ := h
  exact spillsEach_of_mem ⟨x, hx, ih x hlong⟩ hroom

/-- A long string spills if there is room for what is written of the value. -/
theorem Ty.spills_of_not_short (t : Ty) (v : t.Val) (h : ¬ t.Short v) (room : ℕ)
    (hroom : (t.wire v).length ≤ room) : t.Spills v room := by
  induction t generalizing room with
  | scalar s => exact absurd trivial h
  | bool => exact absurd trivial h
  | string =>
    have hlen : (Ty.string.wire v).length = _ := StringSerializer.length_wire v
    exact ⟨not_lt.1 h, hlen ▸ hroom⟩
  | vector t ih =>
    have hlen : ((Ty.vector t).wire v).length = 4 + (ArraySerializer.wire t t.wire v).length :=
      length_encodeCounted _ _
    rw [hlen] at hroom
    exact ⟨by omega, spillsEach_of_not_short (v := v) ih h (by omega)⟩
  | array t n ih => exact spillsEach_of_not_short ih h hroom

namespace Writes

/-- As many bytes as were asked for. -/
theorem exact {src : List UInt8} {n : ℕ} (hn : n ≤ src.length) :
    Writes (do let p ← advance n; memcpyTo p src n) (src.take n) fun _ => False :=
  (copy le_rfl (fun h => absurd h (lt_irrefl _)) hn).congr fun room => by simp

theorem scalar (s : Scalar) (v : Vec UInt8 s.sizeof) :
    Writes (s.tapeWrite v) v.1 fun _ => False := by
  have h := exact (show s.sizeof ≤ v.1.length from v.2.ge)
  rwa [List.take_of_length_le v.2.le] at h

theorem nextU32 (n : ℕ) : Writes (tapeNextU32 n) (leBytes 4 n) fun _ => False :=
  scalar .uint32 _

/-- A count, and then a write that may spill. -/
theorem counted {w : TapeM Unit} {v : StreamM Unit} {bs : List UInt8} {spills : ℕ → Prop} {n : ℕ}
    (h : Writes w bs spills) (hm : Mirrors w v) :
    Writes (do tapeNextU32 n; w) (encodeCounted n bs) fun room => 4 ≤ room ∧ spills (room - 4) :=
  ((nextU32 n).seq h hm.grows).congr fun room => by simp

/-- Elements one after the other. -/
theorem each {α : Type} {next : α → TapeM Unit} {next' : α → StreamM Unit}
    {wire : α → List UInt8} {spills : α → ℕ → Prop}
    (h : ∀ x, Writes (next x) (wire x) (spills x)) (hm : ∀ x, Mirrors (next x) (next' x))
    (v : List α) : Writes (tapeWriteEach next v) (v.flatMap wire) (spillsEach spills wire v) := by
  induction v with
  | nil => exact nothing
  | cons x xs ih => exact (h x).seq ih (mirrors_writeEach hm xs).grows

/-- The characters of a string: the advance takes its length modulo `2 ^ 32`. -/
theorem string (v : List UInt8) :
    Writes (StringSerializer.tapeWrite v) (StringSerializer.wire v) fun room =>
      2 ^ 32 ≤ v.length ∧ 4 + u32 v.length ≤ room := by
  unfold StringSerializer.tapeWrite
  simp only
  by_cases hv : v.length > 0
  · simp only [if_pos hv]
    have hlt : u32 v.length < v.length ↔ 2 ^ 32 ≤ v.length := by
      unfold u32
      omega
    refine ((copy (u32_le _) hlt.1 le_rfl).counted
      ((Mirrors.advance _).bind fun _ => Mirrors.memcpyTo _ _ _)).congr fun room => ?_
    rw [hlt]
    omega
  · have : v = [] := List.length_eq_zero_iff.1 (by omega)
    subst this
    exact (nothing.counted (Mirrors.pure _)).congr fun room => by simp

/-- The objects of a container of simple elements, in one copy. -/
theorem bulk {t : Ty} (ht : t.isSimple) (v : List t.Val) {n : ℕ}
    (hn : n = u32 (v.length * t.sizeof)) :
    Writes (do let p ← advance n; memcpyTo p (v.flatMap t.objectBytes) n)
      (MessageTransport.bulk t v) fun _ => False := by
  subst hn
  exact exact (bulk_le ht v)

/-- Simple elements do not spill. -/
theorem simple_iff {t : Ty} (ht : t.isSimple) (v : List t.Val) (room : ℕ) :
    False ↔ spillsEach t.Spills t.wire v room := by
  refine ⟨False.elim, not_spillsEach (fun x _ => ?_) room⟩
  cases t <;> first | exact fun _ => not_false | cases ht

theorem vector {t : Ty} (h : ∀ x, Writes (t.tapeWrite x) (t.wire x) (t.Spills x))
    (v : List t.Val) :
    Writes (VectorSerializer.tapeWrite t t.tapeWrite v) (VectorSerializer.wire t t.wire v)
      fun room => 4 ≤ room ∧ spillsEach t.Spills t.wire v (room - 4) := by
  unfold VectorSerializer.tapeWrite VectorSerializer.wire
  by_cases ht : t.isSimple
  · rw [if_pos ht, if_pos ht]
    simp only
    refine Writes.congr ?_ fun room => and_congr_right' (simple_iff ht v _)
    cases v with
    | nil =>
      have hnil : MessageTransport.bulk t [] = [] := List.take_nil
      rw [hnil]
      exact nothing.counted (Mirrors.pure _)
    | cons x xs =>
      exact (bulk ht (x :: xs) (u32_u32_mul _ _)).counted
        ((Mirrors.advance _).bind fun _ => Mirrors.memcpyTo _ _ _)
  · rw [if_neg ht, if_neg ht]
    exact (each h t.mirrors_write v).counted (mirrors_writeEach t.mirrors_write v)

theorem array {t : Ty} {n : ℕ+} (h : ∀ x, Writes (t.tapeWrite x) (t.wire x) (t.Spills x))
    (v : Vec t.Val n) :
    Writes (ArraySerializer.tapeWrite t n t.tapeWrite v) (ArraySerializer.wire t t.wire v.1)
      (spillsEach t.Spills t.wire v.1) := by
  unfold ArraySerializer.tapeWrite ArraySerializer.wire
  by_cases ht : t.isSimple
  · rw [if_pos ht, if_pos ht]
    exact (bulk ht v.1 (by rw [v.2])).congr (simple_iff ht v.1)
  · rw [if_neg ht, if_neg ht]
    exact each h t.mirrors_write v.1

end Writes

/-- **A write puts the bytes of the wire format,** or overruns the stream, or spills. -/
theorem Ty.writes (t : Ty) (v : t.Val) : Writes (t.tapeWrite v) (t.wire v) (t.Spills v) := by
  induction t with
  | scalar s => exact Writes.scalar s v
  | bool => exact Writes.exact (le_refl (encodeBool v).length)
  | string => exact Writes.string v
  | vector t ih => exact Writes.vector ih v
  | array t n ih => exact Writes.array ih v

theorem RawMessage.writes (v : RawMessage) :
    Writes v.tapeWrite v.encode fun _ => False := by
  have hdata : Writes (if v.getDataLength > 0 then do
      let p ← advance v.getDataLength
      memcpyTo p v.m_value v.getDataLength else pure ()) v.m_value fun _ => False := by
    split_ifs with hv
    · have h := Writes.exact (le_refl v.m_value.length)
      rwa [List.take_length] at h
    · have hnil : v.m_value = [] := List.length_eq_zero_iff.1 (Nat.le_zero.1 (not_lt.1 hv))
      rw [hnil]
      exact Writes.nothing
  exact ((Writes.scalar .uint64 v.timestamp).seq hdata (Mirrors.ite ((Mirrors.advance _).bind
    fun _ => Mirrors.memcpyTo _ _ _) (Mirrors.pure _)).grows).congr fun room => by simp

/-- A value with short strings and room for it. -/
theorem Ty.write_eq_wire (t : Ty) (v : t.Val) (hshort : t.Short v) {s : Stream}
    (h : s.Room (t.wire v).length) : (t.write v).run s = .ok () (s.put (t.wire v)) := by
  have hs : (⟨s, []⟩ : Tape).Ready := ⟨by have := h.1; simp only; omega, h.2, trivial⟩
  have hw := t.writes v ⟨s, []⟩ hs
  rw [← (t.mirrors_write v).forget ⟨s, []⟩]
  generalize (t.tapeWrite v).run ⟨s, []⟩ = r at hw
  cases hw with
  | spilt hsp => exact absurd hsp (t.not_spills_of_short v hshort _)
  | ok => rfl
  | overrun _ hfull => exact absurd ((hs.room_iff _).1 h) (not_le.2 hfull)

/-- Where a write succeeds, in a memory of less than `2 ^ 32` bytes, and what it leaves. -/
theorem Ty.write_ok_iff (t : Ty) (v : t.Val) {s out : Stream} (hdata : s.data_ ≤ s.end_)
    (hend : s.end_ ≤ s.mem.length) (hmem : s.mem.length < 2 ^ 32) :
    (t.write v).run s = .ok () out ↔
      t.Short v ∧ s.data_ + (t.wire v).length ≤ s.end_ ∧ out = s.put (t.wire v) := by
  have hs : (⟨s, []⟩ : Tape).Ready := ⟨hdata, hend, trivial⟩
  have hroom := hs.room_iff (t.wire v).length
  have hw := t.writes v ⟨s, []⟩ hs
  rw [← (t.mirrors_write v).forget ⟨s, []⟩]
  generalize (t.tapeWrite v).run ⟨s, []⟩ = r at hw
  cases hw with
  | spilt hsp hlog hfault =>
    refine iff_of_false (fun hok => ?_) fun h => t.not_spills_of_short v h.1 _ hsp
    cases r with
    | ok a s' => exact hfault hmem s' rfl
    | error e s' => cases hok
  | @ok log hsp hfits hlog =>
    have hshort : t.Short v := by
      by_contra hlong
      exact hsp (t.spills_of_not_short v hlong _ hfits)
    constructor
    · intro hok
      cases hok
      exact ⟨hshort, (hroom.2 hfits).1, rfl⟩
    · rintro ⟨-, -, rfl⟩
      rfl
  | overrun hsp hfull hlog =>
    refine iff_of_false nofun fun h => ?_
    exact absurd (hroom.1 ⟨h.2.1, hend⟩) (not_le.2 hfull)

/-! ### Reading -/

/-- The action `w` reads: it keeps the tape in order, the buffer and its end, and fails by an
overrun only. -/
def Reads {α : Type} (w : TapeM α) : Prop :=
  ∀ s : Tape, s.Ready → match w.run s with
    | .ok _ s' => s'.Ready ∧ s'.stream.end_ = s.stream.end_
    | .error e s' => e = throwStreamOverrun ∧ Checked s.stream.end_ s'.log

namespace Reads

variable {α β : Type}

theorem pure (a : α) : Reads (Pure.pure a) := fun _ hs => ⟨hs, rfl⟩

theorem bind {w : TapeM α} {f : α → TapeM β} (hw : Reads w) (hf : ∀ a, Reads (f a)) :
    Reads (w >>= f) := by
  intro s hs
  have h := hw s hs
  rw [EStateM.run_bind]
  cases hrun : w.run s with
  | error e s' => rwa [hrun] at h
  | ok a s' =>
    rw [hrun] at h
    have h' := hf a s' h.1
    rwa [h.2] at h'

theorem ite {p : Prop} [Decidable p] {w w' : TapeM α} (h : p → Reads w) (h' : Reads w') :
    Reads (if p then w else w') := by
  split_ifs with hp
  · exact h hp
  · exact h'

/-- One `advance` and one `memcpy` of as many bytes, into an object with room for them. -/
theorem copy {room n : ℕ} (hn : n ≤ room) :
    Reads (do let p ← advance n; memcpyFrom room p n) := by
  intro s hs
  rw [EStateM.run_bind]
  by_cases h : s.stream.data_ + n ≤ s.stream.end_
  · rw [advance_ok h]
    simp only
    rw [memcpyFrom_ok hn (by have := hs.end_le; simp only [Stream.skip]; omega)]
    exact ⟨⟨h, hs.end_le, hn, ⟨_, _, rfl, le_rfl, le_rfl⟩, h, hs.checked⟩, rfl⟩
  · rw [advance_overrun (not_le.1 h)]
    exact ⟨rfl, hs.checked⟩

theorem copy_bind {room n : ℕ} (hn : n ≤ room) {f : List UInt8 → TapeM β}
    (hf : ∀ bs, Reads (f bs)) :
    Reads (do let p ← advance n; let bs ← memcpyFrom room p n; f bs) := by
  have h := (copy hn).bind hf
  rwa [bind_assoc] at h

theorem scalar (s : Scalar) : Reads s.tapeRead := copy_bind le_rfl fun _ => pure _

theorem readU32 : Reads tapeReadU32 := (scalar .uint32).bind fun _ => pure _

theorem string : Reads StringSerializer.tapeRead :=
  readU32.bind fun _ => ite (fun _ => copy le_rfl) (pure _)

theorem each {next : α → TapeM α} (h : ∀ x, Reads (next x)) (v : List α) :
    Reads (tapeReadEach next v) := by
  induction v with
  | nil => exact pure _
  | cons x xs ih => exact (h x).bind fun _ => ih.bind fun _ => pure _

/-- The vector is resized before the copy, which takes at most its new storage. -/
theorem vector {t : Ty} (h : ∀ x, Reads (t.tapeRead x)) (v : List t.Val) :
    Reads (VectorSerializer.tapeRead t t.tapeRead v) := by
  refine ite (fun _ => readU32.bind fun len => ite (fun _ => ?_) (pure _))
    (readU32.bind fun _ => each h _)
  refine copy_bind ?_ fun _ => pure _
  rw [length_resize, Nat.mul_comm len]
  exact u32_le _

theorem array {t : Ty} {n : ℕ+} (h : ∀ x, Reads (t.tapeRead x)) (v : Vec t.Val n) :
    Reads (ArraySerializer.tapeRead t n t.tapeRead v) :=
  ite (fun _ => copy_bind (u32_le _) fun _ => pure _) ((each h _).bind fun _ => pure _)

end Reads

/-- **A read keeps to checked ranges,** whatever the buffer and the target hold. -/
theorem Ty.reads (t : Ty) (v : t.Val) : Reads (t.tapeRead v) := by
  induction t with
  | scalar s => exact Reads.scalar s
  | bool => exact Reads.copy_bind le_rfl fun _ => Reads.pure _
  | string => exact Reads.string
  | vector t ih => exact Reads.vector ih v
  | array t n ih => exact Reads.array ih v

theorem RawMessage.length_allocate {v : RawMessage} {size : ℕ} {alloc : Bool}
    (h : (v.allocate size alloc).1) (hsize : size < 2 ^ 32) :
    (v.allocate size alloc).2.getDataLength = size := by
  unfold RawMessage.allocate at h ⊢
  split_ifs at h ⊢ with h1 h2
  · exact h1.symm
  · simp [getDataLength, u32_of_lt hsize]

theorem Stream.getLength_lt (s : Stream) : s.getLength < 2 ^ 32 := by
  unfold getLength
  omega

/-- The buffer of a raw message is copied to only if it has the length that is left. -/
theorem RawMessage.reads (v : RawMessage) (alloc : Bool) : Reads (v.tapeRead alloc) := by
  refine (Reads.scalar .uint64).bind fun ts => ?_
  have hcopy : ∀ s : Stream, Reads (
      let r := RawMessage.allocate { v with timestamp := ts } s.getLength alloc
      if r.1 && s.getLength > 0 then do
        let p ← advance s.getLength
        let bs ← memcpyFrom r.2.getDataLength p s.getLength
        return r.2.setData bs
      else return r.2) := fun s => by
    refine Reads.ite (fun h => ?_) (Reads.pure _)
    have hlen := length_allocate (Bool.and_eq_true_iff.1 h).1 s.getLength_lt
    exact Reads.copy_bind hlen.ge fun _ => Reads.pure _
  exact fun s hs => hcopy s.stream s hs

/-! ### All calls -/

/-- A call of `serialize` or of `deserialize`. -/
inductive StreamCall
  | write (t : Ty) (v : t.Val)
  | read (t : Ty) (v : t.Val)
  | writeRaw (v : RawMessage)
  | readRaw (v : RawMessage) (alloc : Bool)

namespace StreamCall

def perform : StreamCall → StreamM Unit
  | .write t v => t.write v
  | .read t v => do let _ ← t.read v
  | .writeRaw v => v.write
  | .readRaw v alloc => do let _ ← v.read alloc

/-- The call on record. -/
def tape : StreamCall → TapeM Unit
  | .write t v => t.tapeWrite v
  | .read t v => do let _ ← t.tapeRead v
  | .writeRaw v => v.tapeWrite
  | .readRaw v alloc => do let _ ← v.tapeRead alloc

theorem mirrors (c : StreamCall) : Mirrors c.tape c.perform := by
  cases c with
  | write t v => exact t.mirrors_write v
  | read t v => exact (t.mirrors_read v).bind fun _ => Mirrors.pure _
  | writeRaw v => exact v.mirrors_write
  | readRaw v alloc => exact (v.mirrors_read alloc).bind fun _ => Mirrors.pure _

/-- Every range that the call touches, on a stream over the first `count` bytes of `mem`, was
checked before, and the call fails by an overrun only. -/
def Orderly (c : StreamCall) (mem : List UInt8) (count : ℕ) : Prop :=
  Checked count (final (c.tape.run (Tape.open_ mem count))).log ∧
    ∀ e s, c.perform.run (Stream.open_ mem count) = .error e s → e = throwStreamOverrun

/-- The call writes a long string with room for the low part of its length. -/
def Spills (count : ℕ) : StreamCall → Prop
  | .write t v => t.Spills v count
  | _ => False

theorem ready_open {mem : List UInt8} {count : ℕ} (h : count ≤ mem.length) :
    (Tape.open_ mem count).Ready := ⟨Nat.zero_le _, h, trivial⟩

theorem run_perform (c : StreamCall) (mem : List UInt8) (count : ℕ) :
    c.perform.run (Stream.open_ mem count) = forget (c.tape.run (Tape.open_ mem count)) :=
  (c.mirrors.forget (Tape.open_ mem count)).symm

theorem orderly_of_reads {c : StreamCall} {mem : List UInt8} {count : ℕ} (hc : Reads c.tape)
    (h : count ≤ mem.length) : c.Orderly mem count := by
  have hrun := hc _ (ready_open h)
  unfold Orderly
  rw [run_perform]
  cases hr : c.tape.run (Tape.open_ mem count) with
  | ok a s =>
    rw [hr] at hrun
    refine ⟨?_, nofun⟩
    have hlog := hrun.1.checked
    rwa [hrun.2] at hlog
  | error e s =>
    rw [hr] at hrun
    refine ⟨hrun.2, fun e' s' he => ?_⟩
    cases he
    exact hrun.1

theorem orderly_of_writes {c : StreamCall} {mem : List UInt8} {count : ℕ} {bs : List UInt8}
    {spills : ℕ → Prop} (hc : Writes c.tape bs spills) (h : count ≤ mem.length) :
    c.Orderly mem count ↔ ¬ spills count := by
  have hrun := hc _ (ready_open h)
  unfold Orderly
  rw [run_perform]
  generalize c.tape.run (Tape.open_ mem count) = r at hrun
  cases hrun with
  | spilt hsp hlog _ => exact iff_of_false (fun ho => hlog ho.1) (not_not.2 hsp)
  | ok hsp hroom hlog => exact iff_of_true ⟨hlog, nofun⟩ hsp
  | overrun hsp hroom hlog =>
    refine iff_of_true ⟨hlog, fun e s he => ?_⟩ hsp
    cases he
    rfl

/-- **The ranges that a call touches were all checked, unless it spills.** -/
theorem orderly_iff (c : StreamCall) (mem : List UInt8) (count : ℕ) (h : count ≤ mem.length) :
    c.Orderly mem count ↔ ¬ c.Spills count := by
  cases c with
  | write t v => exact orderly_of_writes (c := .write t v) (t.writes v) h
  | read t v =>
    have hr : Reads (StreamCall.read t v).tape := (t.reads v).bind fun _ => Reads.pure _
    exact iff_of_true (orderly_of_reads hr h) not_false
  | writeRaw v => exact orderly_of_writes (c := .writeRaw v) v.writes h
  | readRaw v alloc =>
    have hr : Reads (StreamCall.readRaw v alloc).tape := (v.reads alloc).bind fun _ => Reads.pure _
    exact iff_of_true (orderly_of_reads hr h) not_false

theorem orderly_iff_string :
    (StreamCall.write .string ([104, 105] : List UInt8)).Orderly (List.replicate 8 0) 8 :=
  (orderly_iff (.write .string ([104, 105] : List UInt8)) (List.replicate 8 0) 8 (by simp)).2
    fun h => absurd h.1 (by decide)

/-- A string of `2 ^ 32` characters is copied whole to a place for none of them. -/
theorem not_orderly_longString :
    ¬ (StreamCall.write .string (List.replicate (2 ^ 32) (0 : UInt8))).Orderly [0, 0, 0, 0] 4 := by
  have hlen : (List.replicate (2 ^ 32) (0 : UInt8)).length = 2 ^ 32 := List.length_replicate
  have hw := Writes.string (List.replicate (2 ^ 32) 0)
  rw [hlen] at hw
  exact fun ho => (orderly_of_writes (c := .write .string _) hw (by simp)).1 ho (by decide)

end StreamCall

end MessageTransport
