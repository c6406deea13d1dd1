import MessageTransport.Serialization.RawMessage

/-!
# Serializers on record

The same serializers, run on a stream that keeps a log of the byte ranges they touch: the ranges
`advance` returned, the ranges of the stream's buffer that were read or written, and the ranges of
the values that were copied from or to. A refused `advance` leaves no entry, an access leaves its
entry before it is made.

`Mirrors` ties an action on record to the action itself: without the log the two do the same, and
an entry once made stays. `Ty.mirrors_write`, `Ty.mirrors_read` and their companions for raw
messages say so of the serializers.
-/

namespace MessageTransport

/-- An entry of the log. -/
inductive Access
  /-- `advance(len)` returned the position `pos`. -/
  | advance (pos len : ℕ)
  /-- The bytes `[pos, pos + len)` of the stream's buffer. -/
  | buffer (pos len : ℕ)
  /-- The first `len` bytes of an object whose storage has `storage` bytes. -/
  | object (len storage : ℕ)
  deriving DecidableEq

/-- A stream with the log of its accesses, the last one in front. -/
structure Tape where
  stream : Stream
  log : List Access
  deriving DecidableEq

/-- Actions on a stream with a log. -/
abbrev TapeM := EStateM Fault Tape

namespace Tape

/-- A stream as it is opened, with nothing logged. -/
def open_ (mem : List UInt8) (count : ℕ) : Tape := ⟨Stream.open_ mem count, []⟩

/-- An action on the stream that is not logged. -/
def lift {α : Type} (w : StreamM α) : TapeM α := fun s =>
  match w.run s.stream with
  | .ok a st => .ok a { s with stream := st }
  | .error e st => .error e { s with stream := st }

def record (a : Access) : TapeM Unit := modify fun s => { s with log := a :: s.log }

/-- `advance(len)`. -/
def advance (len : ℕ) : TapeM ℕ := do
  let p ← lift (Stream.advance len)
  record (.advance p len)
  return p

/-- `memcpy(dst, src, n)` into the stream's memory. -/
def memcpyTo (dst : ℕ) (src : List UInt8) (n : ℕ) : TapeM Unit := do
  record (.object n src.length)
  record (.buffer dst n)
  lift (Stream.memcpyTo dst src n)

/-- `memcpy(dst, src, n)` out of the stream's memory, into an object of `room` bytes. -/
def memcpyFrom (room src n : ℕ) : TapeM (List UInt8) := do
  record (.buffer src n)
  record (.object n room)
  lift (Stream.memcpyFrom room src n)

end Tape

open Bytes MessageTransport.Tape

/-! ### The serializers -/

def Scalar.tapeWrite (s : Scalar) (v : Vec UInt8 s.sizeof) : TapeM Unit := do
  let p ← advance s.sizeof
  memcpyTo p v.1 s.sizeof

def Scalar.tapeRead (s : Scalar) : TapeM (Vec UInt8 s.sizeof) := do
  let p ← advance s.sizeof
  let bs ← memcpyFrom s.sizeof p s.sizeof
  return vecOf (Vec.replicate 0) bs

theorem length_count (n : ℕ) : (leBytes 4 n).length = Scalar.uint32.sizeof := length_leBytes 4 n

def tapeNextU32 (n : ℕ) : TapeM Unit := Scalar.uint32.tapeWrite ⟨leBytes 4 n, length_count n⟩

def tapeReadU32 : TapeM ℕ := do
  let v ← Scalar.uint32.tapeRead
  return leNat v.1

namespace BoolSerializer

def tapeWrite (v : Bool) : TapeM Unit := do
  let b : UInt8 := if v then 1 else 0
  let p ← advance 1
  memcpyTo p [b] 1

def tapeRead : TapeM Bool := do
  let p ← advance 1
  let b ← memcpyFrom 1 p 1
  return b.any (· ≠ 0)

end BoolSerializer

namespace StringSerializer

def tapeWrite (str : List UInt8) : TapeM Unit := do
  let len := str.length
  tapeNextU32 (u32 len)
  if len > 0 then
    let p ← advance (u32 len)
    memcpyTo p str len

def tapeRead : TapeM (List UInt8) := do
  let len ← tapeReadU32
  if len > 0 then
    let p ← advance len
    memcpyFrom len p len
  else return []

end StringSerializer

def tapeWriteEach {α : Type} (next : α → TapeM Unit) : List α → TapeM Unit
  | [] => return ()
  | x :: xs => do
    next x
    tapeWriteEach next xs

def tapeReadEach {α : Type} (next : α → TapeM α) : List α → TapeM (List α)
  | [] => return []
  | x :: xs => do
    let y ← next x
    let ys ← tapeReadEach next xs
    return y :: ys

namespace VectorSerializer

variable (t : Ty)

def tapeWrite (next : t.Val → TapeM Unit) (v : List t.Val) : TapeM Unit :=
  if t.isSimple then do
    let len := u32 v.length
    tapeNextU32 len
    if !v.isEmpty then
      let data_len := u32 (len * t.sizeof)
      let p ← advance data_len
      memcpyTo p (v.flatMap t.objectBytes) data_len
  else do
    tapeNextU32 (u32 v.length)
    tapeWriteEach next v

def tapeRead (next : t.Val → TapeM t.Val) (v : List t.Val) : TapeM (List t.Val) :=
  if t.isSimple then do
    let len ← tapeReadU32
    let v := resize t.zero v len
    if len > 0 then
      let data_len := u32 (t.sizeof * len)
      let p ← advance data_len
      let bs ← memcpyFrom (v.length * t.sizeof) p data_len
      return t.copyElements v bs
    else return v
  else do
    let len ← tapeReadU32
    tapeReadEach next (resize t.zero v len)

end VectorSerializer

namespace ArraySerializer

variable (t : Ty) (n : ℕ+)

def tapeWrite (next : t.Val → TapeM Unit) (v : Vec t.Val n) : TapeM Unit :=
  if t.isSimple then do
    let data_len := u32 (n * t.sizeof)
    let p ← advance data_len
    memcpyTo p (v.1.flatMap t.objectBytes) data_len
  else tapeWriteEach next v.1

def tapeRead (next : t.Val → TapeM t.Val) (v : Vec t.Val n) : TapeM (Vec t.Val n) :=
  if t.isSimple then do
    let data_len := u32 (n * t.sizeof)
    let p ← advance data_len
    let bs ← memcpyFrom (n * t.sizeof) p data_len
    return vecOf v (t.copyElements v.1 bs)
  else do
    let l ← tapeReadEach next v.1
    return vecOf v l

end ArraySerializer

def Ty.tapeWrite : (t : Ty) → t.Val → TapeM Unit
  | .scalar s, v => s.tapeWrite v
  | .bool, v => BoolSerializer.tapeWrite v
  | .string, v => StringSerializer.tapeWrite v
  | .vector t, v => VectorSerializer.tapeWrite t t.tapeWrite v
  | .array t n, v => ArraySerializer.tapeWrite t n t.tapeWrite v

def Ty.tapeRead : (t : Ty) → t.Val → TapeM t.Val
  | .scalar s, _ => s.tapeRead
  | .bool, _ => BoolSerializer.tapeRead
  | .string, _ => StringSerializer.tapeRead
  | .vector t, v => VectorSerializer.tapeRead t t.tapeRead v
  | .array t n, v => ArraySerializer.tapeRead t n t.tapeRead v

namespace RawMessage

def tapeWrite (v : RawMessage) : TapeM Unit := do
  Scalar.uint64.tapeWrite v.timestamp
  let data_size := v.getDataLength
  if data_size > 0 then
    let p ← advance data_size
    memcpyTo p v.m_value data_size

def tapeRead (v : RawMessage) (alloc : Bool) : TapeM RawMessage := do
  let timestamp ← Scalar.uint64.tapeRead
  let v := { v with timestamp := timestamp }
  let data_size := (← get).stream.getLength
  let (ok, v) := v.allocate data_size alloc
  if ok && data_size > 0 then
    let p ← advance data_size
    let bs ← memcpyFrom v.getDataLength p data_size
    return v.setData bs
  else return v

end RawMessage

/-! ### On record and off -/

/-- The tape at the end of a run, however it ended. -/
def Tape.final {α : Type} : EStateM.Result Fault Tape α → Tape
  | .ok _ s => s
  | .error _ s => s

/-- The end of a run, without the log. -/
def Tape.forget {α : Type} : EStateM.Result Fault Tape α → EStateM.Result Fault Stream α
  | .ok a s => .ok a s.stream
  | .error e s => .error e s.stream

/-- `w` is the action `v` on record: without the log it does the same, and what is logged stays. -/
structure Mirrors {α : Type} (w : TapeM α) (v : StreamM α) : Prop where
  forget : ∀ s, Tape.forget (w.run s) = v.run s.stream
  grows : ∀ s, s.log <:+ (final (w.run s)).log

namespace Mirrors

variable {α β : Type}

theorem pure (a : α) : Mirrors (Pure.pure a) (Pure.pure a) :=
  ⟨fun _ => rfl, fun _ => List.suffix_rfl⟩

theorem bind {w : TapeM α} {v : StreamM α} {f : α → TapeM β} {g : α → StreamM β}
    (hw : Mirrors w v) (hf : ∀ a, Mirrors (f a) (g a)) : Mirrors (w >>= f) (v >>= g) := by
  constructor
  · intro s
    have h := hw.forget s
    rw [EStateM.run_bind, EStateM.run_bind, ← h]
    cases w.run s with
    | ok a s' => exact (hf a).forget s'
    | error e s' => rfl
  · intro s
    have h := hw.grows s
    rw [EStateM.run_bind]
    cases hrun : w.run s with
    | ok a s' =>
      rw [hrun] at h
      exact h.trans ((hf a).grows s')
    | error e s' => rwa [hrun] at h

theorem ite {p : Prop} [Decidable p] {w w' : TapeM α} {v v' : StreamM α} (h : Mirrors w v)
    (h' : Mirrors w' v') : Mirrors (if p then w else w') (if p then v else v') := by
  split_ifs
  · exact h
  · exact h'

theorem lift (v : StreamM α) : Mirrors (Tape.lift v) v := by
  constructor <;> intro s
  · show Tape.forget (Tape.lift v s) = _
    unfold Tape.lift
    cases v.run s.stream <;> rfl
  · show s.log <:+ (final (Tape.lift v s)).log
    unfold Tape.lift
    cases v.run s.stream <;> exact List.suffix_rfl

/-- An entry of the log is all that `record` leaves. -/
theorem record {w : TapeM α} {v : StreamM α} (a : Access) (h : Mirrors w v) :
    Mirrors (do Tape.record a; w) v :=
  ⟨fun s => h.forget ⟨s.stream, a :: s.log⟩,
    fun s => (List.suffix_cons a s.log).trans (h.grows ⟨s.stream, a :: s.log⟩)⟩

theorem advance (len : ℕ) : Mirrors (Tape.advance len) (Stream.advance len) := by
  have h := (lift (Stream.advance len)).bind fun p => (pure p).record (.advance p len)
  rwa [bind_pure] at h

theorem memcpyTo (dst : ℕ) (src : List UInt8) (n : ℕ) :
    Mirrors (Tape.memcpyTo dst src n) (Stream.memcpyTo dst src n) :=
  ((lift _).record _).record _

theorem memcpyFrom (room src n : ℕ) :
    Mirrors (Tape.memcpyFrom room src n) (Stream.memcpyFrom room src n) :=
  ((lift _).record _).record _

/-- Asking for the state of the stream is not an access. -/
theorem get {f : Tape → TapeM α} {g : Stream → StreamM α} (h : ∀ s, Mirrors (f s) (g s.stream)) :
    Mirrors (MonadState.get >>= f) (MonadState.get >>= g) :=
  ⟨fun s => (h s).forget s, fun s => (h s).grows s⟩

end Mirrors

theorem Scalar.mirrors_write (s : Scalar) (v : Vec UInt8 s.sizeof) :
    Mirrors (s.tapeWrite v) (s.write v) :=
  (Mirrors.advance _).bind fun _ => Mirrors.memcpyTo _ _ _

theorem Scalar.mirrors_read (s : Scalar) : Mirrors s.tapeRead s.read :=
  (Mirrors.advance _).bind fun _ => (Mirrors.memcpyFrom _ _ _).bind fun _ => Mirrors.pure _

theorem mirrors_nextU32 (n : ℕ) : Mirrors (tapeNextU32 n) (nextU32 n) := Scalar.mirrors_write _ _

theorem mirrors_readU32 : Mirrors tapeReadU32 readU32 :=
  (Scalar.mirrors_read _).bind fun _ => Mirrors.pure _

theorem BoolSerializer.mirrors_write (v : Bool) :
    Mirrors (BoolSerializer.tapeWrite v) (BoolSerializer.write v) :=
  (Mirrors.advance _).bind fun _ => Mirrors.memcpyTo _ _ _

theorem BoolSerializer.mirrors_read : Mirrors BoolSerializer.tapeRead BoolSerializer.read :=
  (Mirrors.advance _).bind fun _ => (Mirrors.memcpyFrom _ _ _).bind fun _ => Mirrors.pure _

theorem StringSerializer.mirrors_write (v : List UInt8) :
    Mirrors (StringSerializer.tapeWrite v) (StringSerializer.write v) :=
  (mirrors_nextU32 _).bind fun _ =>
    Mirrors.ite ((Mirrors.advance _).bind fun _ => Mirrors.memcpyTo _ _ _) (Mirrors.pure _)

theorem StringSerializer.mirrors_read : Mirrors StringSerializer.tapeRead StringSerializer.read :=
  mirrors_readU32.bind fun _ =>
    Mirrors.ite ((Mirrors.advance _).bind fun _ => Mirrors.memcpyFrom _ _ _) (Mirrors.pure _)

theorem mirrors_writeEach {α : Type} {next : α → TapeM Unit} {next' : α → StreamM Unit}
    (h : ∀ x, Mirrors (next x) (next' x)) (v : List α) :
    Mirrors (tapeWriteEach next v) (writeEach next' v) := by
  induction v with
  | nil => exact Mirrors.pure _
  | cons x xs ih => exact (h x).bind fun _ => ih

theorem mirrors_readEach {α : Type} {next : α → TapeM α} {next' : α → StreamM α}
    (h : ∀ x, Mirrors (next x) (next' x)) (v : List α) :
    Mirrors (tapeReadEach next v) (readEach next' v) := by
  induction v with
  | nil => exact Mirrors.pure _
  | cons x xs ih => exact (h x).bind fun _ => ih.bind fun _ => Mirrors.pure _

theorem VectorSerializer.mirrors_write {t : Ty} {next : t.Val → TapeM Unit}
    {next' : t.Val → StreamM Unit} (h : ∀ x, Mirrors (next x) (next' x)) (v : List t.Val) :
    Mirrors (VectorSerializer.tapeWrite t next v) (VectorSerializer.write t next' v) := by
  refine Mirrors.ite ?_ ?_
  · exact (mirrors_nextU32 _).bind fun _ =>
      Mirrors.ite ((Mirrors.advance _).bind fun _ => Mirrors.memcpyTo _ _ _) (Mirrors.pure _)
  · exact (mirrors_nextU32 _).bind fun _ => mirrors_writeEach h v

theorem VectorSerializer.mirrors_read {t : Ty} {next : t.Val → TapeM t.Val}
    {next' : t.Val → StreamM t.Val} (h : ∀ x, Mirrors (next x) (next' x)) (v : List t.Val) :
    Mirrors (VectorSerializer.tapeRead t next v) (VectorSerializer.read t next' v) := by
  refine Mirrors.ite ?_ ?_
  · exact mirrors_readU32.bind fun _ => Mirrors.ite ((Mirrors.advance _).bind fun _ =>
      (Mirrors.memcpyFrom _ _ _).bind fun _ => Mirrors.pure _) (Mirrors.pure _)
  · exact mirrors_readU32.bind fun _ => mirrors_readEach h _

theorem ArraySerializer.mirrors_write {t : Ty} {n : ℕ+} {next : t.Val → TapeM Unit}
    {next' : t.Val → StreamM Unit} (h : ∀ x, Mirrors (next x) (next' x)) (v : Vec t.Val n) :
    Mirrors (ArraySerializer.tapeWrite t n next v) (ArraySerializer.write t n next' v) := by
  refine Mirrors.ite ?_ (mirrors_writeEach h v.1)
  exact (Mirrors.advance _).bind fun _ => Mirrors.memcpyTo _ _ _

theorem ArraySerializer.mirrors_read {t : Ty} {n : ℕ+} {next : t.Val → TapeM t.Val}
    {next' : t.Val → StreamM t.Val} (h : ∀ x, Mirrors (next x) (next' x)) (v : Vec t.Val n) :
    Mirrors (ArraySerializer.tapeRead t n next v) (ArraySerializer.read t n next' v) := by
  refine Mirrors.ite ?_ ?_
  · exact (Mirrors.advance _).bind fun _ => (Mirrors.memcpyFrom _ _ _).bind fun _ => Mirrors.pure _
  · exact (mirrors_readEach h v.1).bind fun _ => Mirrors.pure _

/-- **`serialize` on record is `serialize`.** -/
theorem Ty.mirrors_write (t : Ty) (v : t.Val) : Mirrors (t.tapeWrite v) (t.write v) := by
  induction t with
  | scalar s => exact s.mirrors_write v
  | bool => exact BoolSerializer.mirrors_write v
  | string => exact StringSerializer.mirrors_write v
  | vector t ih => exact VectorSerializer.mirrors_write ih v
  | array t n ih => exact ArraySerializer.mirrors_write ih v

/-- **`deserialize` on record is `deserialize`.** -/
theorem Ty.mirrors_read (t : Ty) (v : t.Val) : Mirrors (t.tapeRead v) (t.read v) := by
  induction t with
  | scalar s => exact s.mirrors_read
  | bool => exact BoolSerializer.mirrors_read
  | string => exact StringSerializer.mirrors_read
  | vector t ih => exact VectorSerializer.mirrors_read ih v
  | array t n ih => exact ArraySerializer.mirrors_read ih v

theorem RawMessage.mirrors_write (v : RawMessage) : Mirrors v.tapeWrite v.write :=
  (Scalar.mirrors_write _ _).bind fun _ =>
    Mirrors.ite ((Mirrors.advance _).bind fun _ => Mirrors.memcpyTo _ _ _) (Mirrors.pure _)

theorem RawMessage.mirrors_read (v : RawMessage) (alloc : Bool) :
    Mirrors (v.tapeRead alloc) (v.read alloc) := by
  refine (Scalar.mirrors_read _).bind fun _ => Mirrors.get fun _ => ?_
  exact Mirrors.ite ((Mirrors.advance _).bind fun _ =>
    (Mirrors.memcpyFrom _ _ _).bind fun _ => Mirrors.pure _) (Mirrors.pure _)

end MessageTransport
