import MessageTransport.Serialization.Decoding
import MessageTransport.Sharedmem.Block

/-!
# Receiving raw messages

The reader of a raw message takes all that is left in the stream. It asks the message for a buffer
of that length, and if there is none it returns, without data and without an exception. Neither
`wait_data` nor the receive thread can tell.

`receive_whole_iff`: a read that returns has the whole message, and so has every message that
`wait_data` reports and the callback is given, if and only if the allocator is not asked for memory
that it does not have.
-/

namespace MessageTransport

open MessageTransport.Stream

namespace RawMessage

/-- The message is what the bytes say: a timestamp and data. -/
structure IsWhole (v : RawMessage) (bytes : List UInt8) : Prop where
  timestamp : v.timestamp.1 = bytes.take 8
  length : v.getDataLength = bytes.length - 8
  data : v.m_value = bytes.drop 8

/-- A read returns the whole message and exhausts the stream, or it is left by an exception. -/
def ReadsWhole (v : RawMessage) (alloc : Bool) (s : Stream) : Prop :=
  match (v.read alloc).run s with
  | .ok v' s' => 8 ≤ s.window.length ∧ v'.IsWhole s.window ∧ s'.data_ = s'.end_
  | .error e _ => e = throwStreamOverrun

/-- The message needs no new buffer to read `n` bytes, or it gets one. -/
def Allocates (v : RawMessage) (n : ℕ) (alloc : Bool) : Prop :=
  alloc = true ∨ n ≤ 8 ∨ n - 8 = v.getDataLength

variable {v : RawMessage} {alloc : Bool} {s : Stream}

theorem length_window (hs : s.end_ ≤ s.mem.length) : s.window.length = s.end_ - s.data_ := by
  rw [window, List.length_drop, List.length_take, min_eq_left hs]

/-- There is no timestamp. -/
theorem read_short (hs : s.end_ ≤ s.mem.length) (h8 : s.window.length < 8) :
    ∃ s', (v.read alloc).run s = .error throwStreamOverrun s' := by
  rw [length_window hs] at h8
  have hover : s.end_ < s.data_ + Scalar.sizeof .uint64 := by
    simp only [Scalar.sizeof]
    omega
  rw [read, Scalar.read, EStateM.run_bind, EStateM.run_bind, advance_overrun hover]
  exact ⟨_, rfl⟩

/-- With memory, the whole message is read. -/
theorem read_alloc (hs : s.end_ ≤ s.mem.length) (hlt : s.end_ < 2 ^ 32)
    (h8 : 8 ≤ s.window.length) (v : RawMessage) :
    ∃ v' s', (v.read true).run s = .ok v' s' ∧ v'.IsWhole s.window ∧ s'.data_ = s'.end_ := by
  have hlen := length_window hs
  have hinside : s.Inside := ⟨by omega, hs⟩
  let v' : RawMessage := ⟨⟨s.window.take 8, List.length_take_of_le h8⟩, s.window.drop 8, by
    rw [List.length_drop]
    omega⟩
  have hencode : v'.encode = s.window := List.take_append_drop 8 s.window
  have hahead := hinside.ahead le_rfl
  rw [List.take_length] at hahead
  have hend : s.data_ + s.window.length = s.end_ := by
    rw [hlen]
    exact Nat.add_sub_cancel' hinside.1
  refine ⟨v', _, read_eq v' v (by rwa [hencode]) (by rwa [hencode]),
    ⟨rfl, List.length_drop .., rfl⟩, ?_⟩
  rw [hencode]
  exact hend

/-- Without memory, the outcome differs only if there is need of it. -/
theorem allocate_of_allocates {n : ℕ} (h : n = 0 ∨ n = v.getDataLength) :
    v.allocate n alloc = v.allocate n true := by
  rw [allocate, allocate]
  rcases h with rfl | h
  · simp
  · rw [if_pos h, if_pos h]

/-- What is read after the timestamp. -/
theorem run_read (hs : s.end_ ≤ s.mem.length) (hlt : s.end_ < 2 ^ 32)
    (h8 : 8 ≤ s.window.length) (v : RawMessage) :
    ∃ w : RawMessage, w.getDataLength = v.getDataLength ∧ ∀ alloc, (v.read alloc).run s
      = (let r := w.allocate (s.window.length - 8) alloc
        if r.1 && s.window.length - 8 > 0 then do
          let p ← advance (s.window.length - 8)
          let bs ← memcpyFrom r.2.getDataLength p (s.window.length - 8)
          return r.2.setData bs
        else return r.2 : StreamM RawMessage).run (s.skip 8) := by
  have hlen := length_window hs
  have hinside : s.Inside := ⟨by omega, hs⟩
  let t : Timestamp := ⟨s.window.take 8, List.length_take_of_le h8⟩
  have hts : Scalar.uint64.read.run s = .ok t (s.skip 8) :=
    Scalar.read_eq .uint64 t (hinside.ahead h8)
  have hdata : (s.skip 8).getLength = s.window.length - 8 := by
    rw [getLength_eq (by simp only [skip]; omega) (by simp only [skip]; omega)]
    simp only [skip]
    omega
  refine ⟨{ v with timestamp := t }, rfl, fun alloc => ?_⟩
  rw [read, EStateM.run_bind, hts]
  simp only
  rw [EStateM.run_bind, EStateM.run_get]
  simp only [hdata]

theorem allocate_none {n : ℕ} (h0 : 0 < n) (hn : n ≠ v.getDataLength) :
    (v.allocate n false).1 = false ∧ (v.allocate n false).2.m_value = [] := by
  rw [allocate, if_neg hn, if_pos ⟨h0, rfl⟩]
  exact ⟨rfl, rfl⟩

/-- Where a new buffer is needed and there is no memory, the message is left without data. -/
theorem read_noAlloc (hs : s.end_ ≤ s.mem.length) (hlt : s.end_ < 2 ^ 32)
    (h8 : 8 < s.window.length) (hlen : s.window.length - 8 ≠ v.getDataLength) :
    ∃ v' s', (v.read false).run s = .ok v' s' ∧ v'.m_value = [] := by
  obtain ⟨w, hw, hrun⟩ := run_read hs hlt h8.le v
  obtain ⟨hfalse, hnil⟩ := allocate_none (by omega) (hw ▸ hlen)
  refine ⟨(w.allocate (s.window.length - 8) false).2, s.skip 8, ?_, hnil⟩
  rw [hrun false]
  simp only [hfalse, Bool.false_and, Bool.false_eq_true, if_false]
  rfl

/-- **One read.** It has the whole message or is left by an exception, unless a buffer is needed
that there is no memory for: then it returns without the data. -/
theorem read_cases (hs : s.end_ ≤ s.mem.length) (hlt : s.end_ < 2 ^ 32) (v : RawMessage)
    (alloc : Bool) :
    v.Allocates s.window.length alloc ∧
        ((∃ v' s', (v.read alloc).run s = .ok v' s' ∧ 8 ≤ s.window.length ∧ v'.IsWhole s.window ∧
            s'.data_ = s'.end_) ∨
          ∃ s', (v.read alloc).run s = .error throwStreamOverrun s') ∨
      ¬ v.Allocates s.window.length alloc ∧
        ∃ v' s', (v.read alloc).run s = .ok v' s' ∧ ¬ v'.IsWhole s.window := by
  by_cases h8 : 8 ≤ s.window.length
  · by_cases halloc : v.Allocates s.window.length alloc
    · have hread : (v.read alloc).run s = (v.read true).run s := by
        rcases halloc with rfl | hn
        · rfl
        · obtain ⟨w, hw, hrun⟩ := run_read hs hlt h8 v
          have hn' : s.window.length - 8 = 0 ∨ s.window.length - 8 = w.getDataLength := by
            rw [hw]
            exact hn.imp_left Nat.sub_eq_zero_of_le
          rw [hrun alloc, hrun true, allocate_of_allocates hn']
      obtain ⟨v', s', hok, hwhole, hend⟩ := read_alloc hs hlt h8 v
      exact .inl ⟨halloc, .inl ⟨v', s', hread.trans hok, h8, hwhole, hend⟩⟩
    · obtain ⟨rfl, hlong, hlen⟩ : alloc = false ∧ 8 < s.window.length ∧
          s.window.length - 8 ≠ v.getDataLength := by
        simpa [Allocates] using halloc
      obtain ⟨v', s', hok, hnil⟩ := read_noAlloc hs hlt hlong hlen
      refine .inr ⟨halloc, v', s', hok, fun hwhole => ?_⟩
      have h := hwhole.length
      rw [getDataLength, hnil, List.length_nil] at h
      omega
  · exact .inl ⟨.inr (.inl (not_le.1 h8).le), .inr (read_short hs (not_le.1 h8))⟩

theorem readsWhole_iff (hs : s.end_ ≤ s.mem.length) (hlt : s.end_ < 2 ^ 32) :
    v.ReadsWhole alloc s ↔ v.Allocates s.window.length alloc := by
  rcases read_cases hs hlt v alloc with ⟨halloc, ⟨v', s', hok, hwhole⟩ | ⟨s', hover⟩⟩ |
    ⟨halloc, v', s', hok, hpart⟩
  · refine iff_of_true ?_ halloc
    rw [ReadsWhole, hok]
    exact hwhole
  · refine iff_of_true ?_ halloc
    rw [ReadsWhole, hover]
  · refine iff_of_false ?_ halloc
    rw [ReadsWhole, hok]
    exact fun h => hpart h.2.1

end RawMessage

namespace Shm

/-- `wait_data`, for a raw message. If nobody signals in time, there is no message. -/
def wait_data (m : Shm) (i : Slot) (h : ShmHandle) (v : RawMessage) (signalled alloc : Bool) :
    Except Fault (Bool × RawMessage) × ShmHandle :=
  if !signalled then (.ok (false, v), h)
  else
    match m.deserialize i h (v.read alloc) with
    | (.ok v, h) => (.ok (true, v), h)
    | (.error e, h) => (.error e, h)

/-- One round of `receiveThread`: the message that the callback is given. -/
def receive (m : Shm) (i : Slot) (h : ShmHandle) (user_cb_ signalled alloc : Bool) :
    Except Fault (Option RawMessage) × ShmHandle :=
  match m.wait_data i h .empty signalled alloc with
  | (.ok (true, v), h) => (.ok (if user_cb_ then some v else none), h)
  | (.ok (false, _), h) => (.ok none, h)
  | (.error e, h) => (.error e, h)

/-- The bytes that `deserialize` reads. -/
def blockBytes (m : Shm) (i : Slot) (h : ShmHandle) : List UInt8 :=
  (m.segment.bytesAt (m.refresh i h).ptr).take (m.descriptors i).size_

/-- The block behind a handle has the size that is recorded for it. -/
def SizedBlock (m : Shm) (i : Slot) (h : ShmHandle) : Prop :=
  (m.descriptors i).size_ ≤ (m.segment.bytesAt (m.refresh i h).ptr).length ∧
    (m.descriptors i).size_ < 2 ^ 32

/-- If `wait_data` reports success, the message is whole; else it is left by an exception, or there
is no message. -/
def WaitsWhole (m : Shm) (i : Slot) (h : ShmHandle) (v : RawMessage) (signalled alloc : Bool) :
    Prop :=
  match (m.wait_data i h v signalled alloc).1 with
  | .ok (true, v') => v'.IsWhole (m.blockBytes i h)
  | .ok (false, _) => signalled = false
  | .error e => e = throwStreamOverrun

/-- What the callback is given is whole. -/
def ReceivesWhole (m : Shm) (i : Slot) (h : ShmHandle) (user_cb_ signalled alloc : Bool) : Prop :=
  match (m.receive i h user_cb_ signalled alloc).1 with
  | .ok (some v) => v.IsWhole (m.blockBytes i h)
  | .ok none => user_cb_ = false ∨ signalled = false
  | .error e => e = throwStreamOverrun

variable {m : Shm} {i : Slot} {h : ShmHandle} {v : RawMessage} {signalled alloc user_cb_ : Bool}

/-- `wait_data` ends as its read does. -/
theorem wait_data_cases (hsized : m.SizedBlock i h) (v : RawMessage) (alloc : Bool) :
    v.Allocates (m.blockBytes i h).length alloc ∧
        ((∃ v' h', m.wait_data i h v true alloc = (.ok (true, v'), h') ∧
            v'.IsWhole (m.blockBytes i h)) ∨
          ∃ h', m.wait_data i h v true alloc = (.error throwStreamOverrun, h')) ∨
      ¬ v.Allocates (m.blockBytes i h).length alloc ∧
        ∃ v' h', m.wait_data i h v true alloc = (.ok (true, v'), h') ∧
          ¬ v'.IsWhole (m.blockBytes i h) := by
  obtain ⟨hsize, hlt⟩ := hsized
  have hcases := RawMessage.read_cases
    (s := open_ (m.segment.bytesAt (m.refresh i h).ptr) (m.descriptors i).size_) hsize hlt v alloc
  rw [show (open_ (m.segment.bytesAt (m.refresh i h).ptr) (m.descriptors i).size_).window
    = m.blockBytes i h from rfl] at hcases
  rcases hcases with ⟨halloc, ⟨v', s', hok, -, hwhole, -⟩ | ⟨s', hover⟩⟩ |
    ⟨halloc, v', s', hok, hpart⟩
  · exact .inl ⟨halloc, .inl ⟨v', _, by simp [wait_data, deserialize, hok]; rfl, hwhole⟩⟩
  · exact .inl ⟨halloc, .inr ⟨_, by simp [wait_data, deserialize, hover]; rfl⟩⟩
  · exact .inr ⟨halloc, v', _, by simp [wait_data, deserialize, hok]; rfl, hpart⟩

theorem waitsWhole_iff (hsized : m.SizedBlock i h) :
    m.WaitsWhole i h v signalled alloc ↔
      signalled = false ∨ v.Allocates (m.blockBytes i h).length alloc := by
  cases signalled with
  | false => exact iff_of_true rfl (.inl rfl)
  | true =>
    rw [WaitsWhole, or_iff_right Bool.noConfusion]
    rcases wait_data_cases hsized v alloc with ⟨halloc, ⟨v', h', heq, hwhole⟩ | ⟨h', heq⟩⟩ |
      ⟨halloc, v', h', heq, hpart⟩
    · rw [heq]
      exact iff_of_true hwhole halloc
    · rw [heq]
      exact iff_of_true rfl halloc
    · rw [heq]
      exact iff_of_false hpart halloc

/-- A new message has no buffer. -/
theorem allocates_empty {n : ℕ} :
    RawMessage.empty.Allocates n alloc ↔ alloc = true ∨ n ≤ 8 := by
  have h0 : n - 8 = RawMessage.empty.getDataLength ↔ n ≤ 8 := Nat.sub_eq_zero_iff_le
  rw [RawMessage.Allocates, h0, or_self]

theorem receivesWhole_iff (hsized : m.SizedBlock i h) :
    m.ReceivesWhole i h user_cb_ signalled alloc ↔
      user_cb_ = false ∨ signalled = false ∨ alloc = true ∨ (m.blockBytes i h).length ≤ 8 := by
  cases signalled with
  | false => exact iff_of_true (.inr rfl) (.inr (.inl rfl))
  | true =>
    rw [ReceivesWhole, receive, ← allocates_empty]
    rcases wait_data_cases hsized .empty alloc with ⟨halloc, ⟨v, h', heq, hwhole⟩ | ⟨h', heq⟩⟩ |
      ⟨halloc, v, h', heq, hpart⟩ <;> rw [heq] <;> cases user_cb_
    · exact iff_of_true (.inl rfl) (.inl rfl)
    · exact iff_of_true hwhole (.inr (.inr halloc))
    · exact iff_of_true rfl (.inl rfl)
    · exact iff_of_true rfl (.inr (.inr halloc))
    · exact iff_of_true (.inl rfl) (.inl rfl)
    · refine iff_of_false hpart ?_
      rintro (h | h | h)
      · cases h
      · cases h
      · exact halloc h

/-- **Reading a raw message is all or nothing,** for every stream and every message that is read
into, if and only if the allocator has the memory it is asked for; and so are the messages that
`wait_data` reports and that the callback is given. -/
theorem receive_whole_iff (v : RawMessage) (alloc : Bool) :
    (∀ s : Stream, s.end_ ≤ s.mem.length → s.end_ < 2 ^ 32 →
      (v.ReadsWhole alloc s ↔ v.Allocates s.window.length alloc)) ∧
    (∀ (m : Shm) (i : Slot) (h : ShmHandle) (signalled : Bool), m.SizedBlock i h →
      (m.WaitsWhole i h v signalled alloc ↔
        signalled = false ∨ v.Allocates (m.blockBytes i h).length alloc)) ∧
    ∀ (m : Shm) (i : Slot) (h : ShmHandle) (user_cb_ signalled : Bool), m.SizedBlock i h →
      (m.ReceivesWhole i h user_cb_ signalled alloc ↔
        user_cb_ = false ∨ signalled = false ∨ alloc = true ∨ (m.blockBytes i h).length ≤ 8) :=
  ⟨fun _ hs hlt => RawMessage.readsWhole_iff hs hlt, fun _ _ _ _ => waitsWhole_iff,
    fun _ _ _ _ _ => receivesWhole_iff⟩

theorem receive_whole_nine :
    RawMessage.empty.ReadsWhole true ⟨[0, 0, 0, 0, 0, 0, 0, 0, 5], 0, 9⟩ ∧
      (Shm.init 64).ReceivesWhole 0 .null true true true :=
  ⟨((receive_whole_iff .empty true).1 _ (by decide) (by decide)).2 (.inl rfl),
    ((receive_whole_iff .empty true).2.2 (Shm.init 64) 0 .null true true
      ⟨Nat.zero_le _, by decide⟩).2 (.inr (.inr (.inl rfl)))⟩

/-- Nine bytes, a new message and no memory: the read returns, without the ninth byte. -/
theorem not_readsWhole_noAlloc :
    ¬ RawMessage.empty.ReadsWhole false ⟨[0, 0, 0, 0, 0, 0, 0, 0, 5], 0, 9⟩ := by
  rw [RawMessage.readsWhole_iff (by decide) (by decide)]
  unfold RawMessage.Allocates
  decide

end Shm

end MessageTransport
