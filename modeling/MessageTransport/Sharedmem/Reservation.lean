import MessageTransport.Serialization.Accesses
import MessageTransport.Sharedmem.Contracts

/-!
# The length a publisher reserves

`publish_msg` computes the serialization length of its message, sizes the block to it and writes
the message into the block. The lengths are computed in `uint32_t`.

* `publish_reserved_iff`: the length is the length of the encoding, and the write fills exactly that
  many bytes, if and only if the encoding has less than `2 ^ 32` bytes;
* `Sized.filled_iff`: where the write fills what was reserved, right or wrong.
-/

namespace MessageTransport

open Bytes MessageTransport.Stream

/-- What a publisher sends: a raw message, or a value of a serializable type. -/
inductive Payload
  | raw (v : RawMessage)
  | value (t : Ty) (v : t.Val)

namespace Payload

/-- `serializationLength(message)`. -/
def serializationLength : Payload → ℕ
  | .raw v => v.serializedLength
  | .value t v => t.serializationLength v

/-- `serialize(out, message)`. -/
def write : Payload → StreamM Unit
  | .raw v => v.write
  | .value t v => t.write v

/-- The bytes of the message. -/
def encode : Payload → List UInt8
  | .raw v => v.encode
  | .value t v => t.encode v

/-- The bytes that `serialize` writes. -/
def wire : Payload → List UInt8
  | .raw v => v.encode
  | .value t v => t.wire v

/-- No string in the message has `2 ^ 32` or more characters. -/
def Short : Payload → Prop
  | .raw _ => True
  | .value t v => t.Short v

theorem serializationLength_eq_wire (x : Payload) :
    x.serializationLength = u32 x.wire.length := by
  cases x with
  | raw v => rw [serializationLength, wire, RawMessage.length_encode]; rfl
  | value t v => exact t.serializationLength_eq_wire v

theorem serializationLength_lt (x : Payload) : x.serializationLength < 2 ^ 32 := by
  rw [serializationLength_eq_wire]
  exact u32_lt _

theorem wire_eq_encode (x : Payload) (h : x.encode.length < 2 ^ 32) : x.wire = x.encode := by
  cases x with
  | raw v => rfl
  | value t v => exact t.wire_eq_encode v h

/-- A short encoding is what a write puts. -/
theorem write_eq (x : Payload) {s : Stream} (hlt : x.encode.length < 2 ^ 32)
    (h : s.Room x.encode.length) : x.write.run s = .ok () (s.put x.encode) := by
  cases x with
  | raw v => exact v.write_eq h
  | value t v => exact t.write_eq v s hlt h

/-- Where a write succeeds, in a memory of less than `2 ^ 32` bytes, and what it leaves. -/
theorem write_ok_iff (x : Payload) {s out : Stream} (hdata : s.data_ ≤ s.end_)
    (hend : s.end_ ≤ s.mem.length) (hmem : s.mem.length < 2 ^ 32) :
    x.write.run s = .ok () out ↔
      x.Short ∧ s.data_ + x.wire.length ≤ s.end_ ∧ out = s.put x.wire := by
  cases x with
  | value t v => exact t.write_ok_iff v hdata hend hmem
  | raw v =>
    by_cases hroom : s.Room v.encode.length
    · have hrun : (Payload.raw v).write.run s = _ := v.write_eq hroom
      rw [hrun]
      constructor
      · intro h
        cases h
        exact ⟨trivial, hroom.1, rfl⟩
      · rintro ⟨-, -, rfl⟩
        rfl
    · obtain ⟨s', hrun⟩ := v.write_overrun hend hroom
      have hrun' : (Payload.raw v).write.run s = _ := hrun
      rw [hrun']
      exact iff_of_false nofun fun h => hroom ⟨h.2.1, hend⟩

end Payload

/-- The fault by which an action was left. -/
def faultOf : EStateM.Result Fault Stream Unit → Option Fault
  | .ok _ _ => none
  | .error e _ => some e

namespace Shm

variable {m : Shm} {i : Slot} {h : ShmHandle} {x : Payload} {alloc : Bool}

/-- The `OStream` that `serialize` opens on the block of slot `i`. -/
def ostream (m : Shm) (i : Slot) (h : ShmHandle) : Stream :=
  open_ (m.segment.bytesAt (m.refresh i h).ptr) (m.descriptors i).size_

theorem fault_serialize (m : Shm) (i : Slot) (h : ShmHandle) (w : StreamM Unit) :
    (m.serialize i h w).1 = faultOf (w.run (m.ostream i h)) := by
  unfold serialize ostream
  simp only
  cases w.run _ <;> rfl

/-- `publish_msg`, with the fault by which `serialize` is left, if it is. -/
def publish (m : Shm) (h : ShmHandle) (x : Payload) (alloc : Bool) :
    Option Fault × Shm × ShmHandle :=
  if !h.is_valid then (none, m, h)
  else
    let r := m.reallocateBlock h x.serializationLength alloc
    match r.2.is_valid, r.2.slot with
    | true, some i => r.1.serialize i r.2 x.write
    | _, _ => (none, r.1, r.2)

/-- The stream that `publish` writes to. -/
def published (m : Shm) (i : Slot) (h : ShmHandle) (x : Payload) (alloc : Bool) : Stream :=
  let r := m.reallocateBlock h x.serializationLength alloc
  r.1.ostream i r.2

/-- The message is written into the length reserved for it: the call is not left by an exception
and the stream has advanced over just that length. -/
def Filled (m : Shm) (i : Slot) (h : ShmHandle) (x : Payload) (alloc : Bool) : Prop :=
  (m.publish h x alloc).1 = none ∧
    ∃ out, x.write.run (m.published i h x alloc) = .ok () out ∧ out.data_ = x.serializationLength

/-- The length reserved for a message is the length of its encoding, and that is what is
written. -/
def Reserved (m : Shm) (i : Slot) (h : ShmHandle) (x : Payload) (alloc : Bool) : Prop :=
  m.Filled i h x alloc ∧ x.serializationLength = x.encode.length

/-- A stream over the block that `reallocateBlock` has sized. -/
theorem Resized.ostream {m' : Shm} {size : ℕ} {h' : ShmHandle} (hr : Resized m m' i size h') :
    ∃ data, m'.ostream i h' = open_ data size ∧
      data.length = max (m.descriptors i).allocated_ size := by
  obtain ⟨data, hl, hlen⟩ := hr.block
  refine ⟨data, ?_, by rw [hlen, hr.allocated]⟩
  have hb : m'.segment.bytesAt (m'.refresh i h').ptr = data := by
    rw [refresh_of_eq hr.current, hr.ptr]
    have hobj : (m'.segment.named (m.key i)).bind m'.segment.object = some (.bytes data) := hl
    rw [Segment.bytesAt, hobj]
  rw [Shm.ostream, hb, hr.size_eq]

/-- A `publish` whose `reallocateBlock` succeeds writes to a stream of the computed length. -/
theorem Sized.published (hm : m.Sized) (hv : h.is_valid = true) (hs : h.slot = some i)
    (ha : m.active i) (hp : m.Tells i h)
    (hok : (m.reallocateBlock h x.serializationLength alloc).2.is_valid = true) :
    ∃ data, m.published i h x alloc = open_ data x.serializationLength ∧
      data.length = max (m.descriptors i).allocated_ x.serializationLength ∧
      (m.publish h x alloc).1 = faultOf (x.write.run (m.published i h x alloc)) := by
  have hmem : (m.descriptors i).allocated_ < x.serializationLength → alloc = true := by
    intro hl
    by_contra halloc
    obtain rfl : alloc = false := Bool.eq_false_iff.2 halloc
    rw [reallocateBlock_valid hv hs, reallocateSlot_fails hl] at hok
    cases hok
  have hr := hm.resized hs ha hp x.serializationLength_lt hmem
  rw [← reallocateBlock_valid hv hs] at hr
  obtain ⟨data, hopen, hlen⟩ := hr.ostream
  refine ⟨data, hopen, hlen, ?_⟩
  rw [Shm.published, ← fault_serialize]
  simp only [publish, hv, Bool.not_true, Bool.false_eq_true, if_false]
  generalize m.reallocateBlock h x.serializationLength alloc = r at hr hok
  simp only [hok, hr.slot]

/-- Where the write fills what was reserved: the length was not cut, nor a string. -/
theorem Sized.filled_iff (hm : m.Sized) (hv : h.is_valid = true) (hs : h.slot = some i)
    (ha : m.active i) (hbound : (m.descriptors i).allocated_ < 2 ^ 32) (hp : m.Tells i h)
    (hok : (m.reallocateBlock h x.serializationLength alloc).2.is_valid = true) :
    m.Filled i h x alloc ↔ x.Short ∧ x.wire.length < 2 ^ 32 := by
  obtain ⟨data, hopen, hlen, hfault⟩ := hm.published hv hs ha hp hok
  have hlt := x.serializationLength_lt
  have hser := x.serializationLength_eq_wire
  have hwrite : ∀ out, x.write.run (open_ data x.serializationLength) = .ok () out ↔
      x.Short ∧ x.wire.length ≤ x.serializationLength ∧
        out = (open_ data x.serializationLength).put x.wire := fun out => by
    refine (x.write_ok_iff (Nat.zero_le _) (by simp only [open_]; omega)
      (by simp only [open_]; omega)).trans ?_
    simp only [open_, Nat.zero_add]
  constructor
  · rintro ⟨-, out, hrun, -⟩
    rw [hopen, hwrite] at hrun
    exact ⟨hrun.1, by omega⟩
  · rintro ⟨hshort, hwire⟩
    rw [u32_of_lt hwire] at hser
    have hrun := (hwrite _).2 ⟨hshort, hser.ge, rfl⟩
    refine ⟨?_, _, hopen ▸ hrun, ?_⟩
    · rw [hfault, hopen, hrun]
      rfl
    · rw [put_data, hser]
      exact Nat.zero_add _

/-- **The length reserved is the length written if the encoding has less than `2 ^ 32` bytes,** and
only then. -/
theorem publish_reserved_iff (hm : m.Sized) (h : ShmHandle) (hv : h.is_valid = true)
    (hs : h.slot = some i) (ha : m.active i) (hp : m.Tells i h) (x : Payload) (alloc : Bool)
    (hok : (m.reallocateBlock h x.serializationLength alloc).2.is_valid = true) :
    m.Reserved i h x alloc ↔ x.encode.length < 2 ^ 32 := by
  constructor
  · intro hr
    exact hr.2 ▸ x.serializationLength_lt
  · intro hlt
    obtain ⟨data, hopen, hlen, hfault⟩ := hm.published hv hs ha hp hok
    have hser : x.serializationLength = x.encode.length := by
      rw [x.serializationLength_eq_wire, x.wire_eq_encode hlt, u32_of_lt hlt]
    have hroom : (open_ data x.serializationLength).Room x.encode.length :=
      ⟨by simp only [open_]; omega, by simp only [open_]; omega⟩
    have hrun := x.write_eq hlt hroom
    refine ⟨⟨?_, _, hopen ▸ hrun, ?_⟩, hser⟩
    · rw [hfault, hopen, hrun]
      rfl
    · rw [put_data, hser]
      exact Nat.zero_add _

/-- A message of twenty bytes in the block of a new topic. -/
theorem publish_reserved_longMessage :
    newTopic.1.Reserved 0 newTopic.2 (.raw longMessage) true :=
  (publish_reserved_iff sized_newTopic newTopic.2 rfl (ShmHandle.slot_of 0 1 _)
    (by decide +kernel) (.inl occupy_named.symm) (.raw longMessage) true
    (by decide +kernel)).2 (by decide)

/-- A raw message for which eight bytes more are no bytes. -/
def hugeMessage : RawMessage :=
  ⟨Vec.replicate 0, List.replicate (2 ^ 32 - 8) 0, by rw [List.length_replicate]; norm_num⟩

theorem serializedLength_hugeMessage : hugeMessage.serializedLength = 0 := by
  have hlen : hugeMessage.m_value.length = 2 ^ 32 - 8 := List.length_replicate
  rw [RawMessage.serializedLength, RawMessage.getDataLength, hlen]
  rfl

/-- No byte is reserved for `hugeMessage`, and its time stamp overruns the stream. -/
theorem publish_not_reserved :
    (newTopic.1.reallocateBlock newTopic.2 hugeMessage.serializedLength true).2.is_valid = true ∧
      (newTopic.1.publish newTopic.2 (.raw hugeMessage) true).1 = some throwStreamOverrun ∧
      ¬ newTopic.1.Reserved 0 newTopic.2 (.raw hugeMessage) true := by
  have hser : (Payload.raw hugeMessage).serializationLength = 0 := serializedLength_hugeMessage
  have hok : (newTopic.1.reallocateBlock newTopic.2 (Payload.raw hugeMessage).serializationLength
      true).2.is_valid = true := by
    rw [hser]
    decide +kernel
  obtain ⟨data, hopen, -, hfault⟩ := sized_newTopic.published (i := 0) (h := newTopic.2) rfl
    (ShmHandle.slot_of 0 1 _) (by decide +kernel) (.inl occupy_named.symm) hok
  rw [hser] at hopen
  have hfull : ¬ (open_ data 0).Room hugeMessage.encode.length := by
    rw [RawMessage.length_encode]
    rintro ⟨h, -⟩
    simp only [open_] at h
    omega
  obtain ⟨s', hrun⟩ := hugeMessage.write_overrun (Nat.zero_le (open_ data 0).mem.length) hfull
  have hover : (newTopic.1.publish newTopic.2 (.raw hugeMessage) true).1
      = some throwStreamOverrun := by
    rw [hfault, hopen]
    exact congrArg faultOf hrun
  refine ⟨hok, hover, fun hr => ?_⟩
  have hnone := hr.1.1
  rw [hover] at hnone
  cases hnone

end Shm

end MessageTransport
