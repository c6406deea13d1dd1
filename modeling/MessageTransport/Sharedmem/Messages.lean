import MessageTransport.Sharedmem.Steady

/-!
# Messages in blocks

A block holds a raw message when the recorded size is the length of its encoding and the block
begins with that encoding. Writing a message into a block of the recorded size makes it hold the
message, reading from a block that holds a message delivers it, and calls on other topics leave it
there.
-/

namespace MessageTransport

open Bytes MessageTransport.Stream

namespace Segment

variable {g : Segment} {n : Name} {a : ℕ} {old data : List UInt8}

theorem bytesAt_named (hl : g.lookup n = some (.bytes data)) : g.bytesAt (g.named n) = data := by
  have hb : (g.named n).bind g.object = some (.bytes data) := hl
  rw [bytesAt, hb]

/-- Writing a whole block replaces its bytes. -/
theorem lookup_setBytes (hl : g.lookup n = some (.bytes old)) (hlen : data.length = old.length) :
    (g.setBytes (g.named n) data).lookup n = some (.bytes data) := by
  cases hn : g.named n with
  | none =>
    rw [ObjectStore.lookup, hn] at hl
    cases hl
  | some a =>
    rw [ObjectStore.lookup_eq hn] at hl
    have hsame : overwrite old 0 (data.take old.length) = data := by
      rw [overwrite_zero, List.take_of_length_le hlen.le, hlen, List.drop_length, List.append_nil]
    simp only [setBytes, hl, hsame]
    exact ObjectStore.store_lookup_self _ hn

end Segment

namespace Shm

variable {m m' : Shm} {i j : Slot} {t t' : Name} {h : ShmHandle} {msg : RawMessage}

/-- The block of topic `t` holds the message `msg`, in the recorded size. -/
def Holds (m : Shm) (t : Name) (msg : RawMessage) : Prop :=
  ∀ i, m.Owns i t → (m.descriptors i).size_ = msg.encode.length ∧
    ∃ data, m.segment.lookup t = some (.bytes data) ∧ msg.encode <+: data

/-- A call on one topic leaves the owners of the others. -/
theorem Served.owns_ne (hs : Served m m' i t h) (hne : t' ≠ t) : m'.Owns j t' ↔ m.Owns j t' := by
  by_cases hji : j = i
  · subst hji
    refine iff_of_false (fun ho => hne ?_) (fun ho => hne ?_)
    · exact ho.2.symm.trans hs.owns.2
    · exact ho.2.symm.trans (hs.before ho.1)
  · rw [Owns, Owns, active, active, key, key, hs.frame.descriptors j hji]

theorem Served.ne_of_owns (hs : Served m m' i t h) (hne : t' ≠ t) (ho : m.Owns j t') : j ≠ i := by
  rintro rfl
  exact hne (ho.2.symm.trans (hs.before ho.1))

/-- A call on one topic leaves what the others hold. -/
theorem Served.holds_ne (hs : Served m m' i t h) (hne : t' ≠ t) (hh : m.Holds t' msg) :
    m'.Holds t' msg := by
  intro j ho'
  have ho := (hs.owns_ne hne).1 ho'
  have hji := hs.ne_of_owns hne ho
  obtain ⟨hsize, data, hl, hpre⟩ := hh j ho
  rw [hs.frame.descriptors j hji, hs.frame.lookup (.inr ⟨j, hji, ho⟩)]
  exact ⟨hsize, data, hl, hpre⟩

/-- **Writing.** `serialize` of a message into a block with at least its length recorded succeeds,
and the block begins with the encoding afterwards. -/
theorem Good.serialize_raw (hm : m.Good) (ho : m.Owns i t)
    (hp : (m.refresh i h).ptr = m.segment.named t)
    (hsize : msg.encode.length ≤ (m.descriptors i).size_) :
    ∃ data rest, m.serialize i h msg.write
        = (none, m.fill (m.refresh i h).ptr data, m.refresh i h) ∧
      data = msg.encode ++ rest ∧
      (m.fill (m.refresh i h).ptr data).segment.lookup t = some (.bytes data) := by
  obtain ⟨old, hl, hlen, hle⟩ := hm.block i ho.1
  rw [ho.2] at hl
  have hroom : (open_ old (m.descriptors i).size_).Room msg.encode.length := by
    refine ⟨?_, ?_⟩
    · show 0 + msg.encode.length ≤ (m.descriptors i).size_
      omega
    · show (m.descriptors i).size_ ≤ old.length
      omega
  refine ⟨overwrite old 0 msg.encode, old.drop msg.encode.length, ?_, overwrite_zero, ?_⟩
  · unfold serialize
    simp only
    rw [hp, Segment.bytesAt_named hl, msg.write_eq hroom]
    rfl
  · rw [hp]
    refine Segment.lookup_setBytes hl (length_overwrite ?_)
    omega

/-- **Reading.** A read from a block that holds a message delivers it. -/
theorem Holds.received (hh : m.Holds t msg) (hm : m.Good) (ho : m.Owns i t)
    (hs : h.slot = some i) (hp : (m.refresh i h).ptr = m.segment.named t) :
    m.received h = some (.ok msg) := by
  obtain ⟨hsize, data, hl, rest, hpre⟩ := hh i ho
  obtain ⟨data', hl', hlen, hle⟩ := hm.block i ho.1
  obtain rfl : data = data' := by
    rw [ho.2, hl] at hl'
    cases hl'
    rfl
  have hahead : (open_ data (m.descriptors i).size_).Ahead msg.encode := by
    refine ⟨⟨?_, ?_⟩, rest, hpre⟩
    · show 0 + msg.encode.length ≤ (m.descriptors i).size_
      omega
    · show (m.descriptors i).size_ ≤ data.length
      omega
  have hread := msg.read_eq RawMessage.empty hahead
    (by show 0 + msg.encode.length = (m.descriptors i).size_; omega)
  rw [Shm.received, hs, Option.map_some, deserialize]
  rw [hp, Segment.bytesAt_named hl, hread]

/-- Where the topic's block is kept, `allocateBlock` keeps its bytes. -/
theorem Good.allocateBlock_bytes (hm : m.Good) {name : CString} (hk : name.key ≠ managerName)
    (size : ℕ) (hsame : (m.allocateBlock name size true).1.segment.named name.key
      = m.segment.named name.key) :
    (m.allocateBlock name size true).1.segment.lookup name.key = m.segment.lookup name.key := by
  have hnext : m.segment.named name.key ≠ some m.segment.next :=
    fun hn => (hm.wf.fresh hn).ne rfl
  rcases hm.allocateBlock_cases hk size with
    ⟨i, -, -, heq⟩ | ⟨i, ho, -, heq⟩ | ⟨i, -, -, heq⟩ | ⟨-, -, heq⟩ <;> rw [heq] at hsame ⊢
  · rfl
  · rw [← ho.2, renew_named] at hsame
    exact absurd (ho.2 ▸ hsame.symm) hnext
  · rw [occupy_named] at hsame
    exact absurd hsame.symm hnext

/-- Where the topic's block is kept, `reallocateBlock` keeps its bytes. -/
theorem Good.reallocateSlot_bytes (hm : m.Good) (ho : m.Owns i t) {size : ℕ}
    (hsame : (m.reallocateSlot i h size true).1.segment.named t = m.segment.named t) :
    (m.reallocateSlot i h size true).1.segment.lookup t = m.segment.lookup t := by
  rcases Nat.lt_or_ge (m.descriptors i).allocated_ size with hlt | hfit
  · rw [reallocateSlot_larger hlt, ← ho.2, renew_named] at hsame
    exact absurd hsame.symm fun hn => (hm.wf.fresh hn).ne rfl
  · rw [reallocateSlot_fits hfit]
    rfl

/-- `publish_msg` leaves its message in the topic's block. -/
theorem Steady.publish_raw (hm : m.Steady) (ho : m.Owns i t) (hv : h.is_valid = true)
    (hs : h.slot = some i)
    (hp : h.resize_count = (m.descriptors i).resize_count_ → h.ptr = m.segment.named t)
    (hlen : msg.encode.length < 2 ^ 32) :
    (m.publish_msg h msg.toMessage true).1 = none ∧
      (m.publish_msg h msg.toMessage true).2.1.Holds t msg := by
  obtain ⟨hserved, hsize⟩ := hm.reallocateSlot_served ho hs hp msg.toMessage.serlen.toNat_lt
  rcases publish_msg_valid (m := m) hv hs msg.toMessage true with ⟨hr, -⟩ | ⟨-, -, hf, heq⟩
  · rw [hserved.valid] at hr
    cases hr
  · rw [RawMessage.serlen_toMessage, msg.serializedLength_eq hlen] at hsize hserved hf heq
    generalize m.reallocateSlot i h msg.encode.length true = r at *
    obtain ⟨data, rest, hser, hdata, hl⟩ := hserved.steady.serialize_raw hserved.owns
      (h := r.2) (by rw [hf, hserved.ptr]) hsize.ge
    rw [hf] at hser hl
    rw [heq]
    simp only [RawMessage.toMessage]
    rw [hser]
    refine ⟨rfl, fun j hj => ?_⟩
    have hji : j = i := hserved.steady.distinct j i hj.1 hserved.owns.1
      (hj.2.trans hserved.owns.2.symm)
    subst hji
    exact ⟨hsize, data, hl, rest, hdata.symm⟩

end Shm

end MessageTransport
