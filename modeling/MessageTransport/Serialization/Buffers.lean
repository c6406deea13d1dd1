import MessageTransport.Lib.Allocator
import MessageTransport.Serialization.RawMessage

/-!
# The buffer of a raw message

`RawMessage_` of `message_types.h`, with the pointer it holds, against an allocator whose answers
are arguments. `allocate` gives the old buffer back before it asks for the new one.

* `release_eq`, `allocate_cases`: what is done to the buffer, and to the allocator;
* `allocate_eq_true_iff`: the result says whether the message has the length that was asked for;
* `allocate_refines`: the messages of `RawMessage` are the same but for where their bytes are.
-/

namespace MessageTransport

/-- The members of a message that say where its bytes are. The pointer may be stale, if there are
none. -/
structure RawMessage_ where
  m_value : Option ℕ
  m_allocated_bytes : UInt32
  eq_zero_of_null : m_value = none → m_allocated_bytes = 0

namespace RawMessage_

/-- `RawMessage_()`. -/
def init : RawMessage_ := ⟨none, 0, fun _ => rfl⟩

/-- `getDataPtr()`. -/
def getDataPtr (m : RawMessage_) : Option ℕ := if m.m_allocated_bytes = 0 then none else m.m_value

/-- `getDataLength()`. -/
def getDataLength (m : RawMessage_) : UInt32 := m.m_allocated_bytes

/-- The first half of `allocate`, which gives the old buffer back. -/
def release (m : RawMessage_) (alloc : Allocator ℕ ℕ) : RawMessage_ × Allocator ℕ ℕ :=
  if m.m_allocated_bytes > 0 then
    (⟨m.m_value, 0, fun _ => rfl⟩, alloc.deallocate m.m_value m.m_allocated_bytes.toNat)
  else (m, alloc)

theorem eq_zero_of_some {a : ℕ} {n : UInt32} (h : some a = none) : n = 0 := by cases h

/-- `allocate(size)`, with the allocator's answer to it. -/
def allocate (m : RawMessage_) (size : UInt32) (answer : Option ℕ) (alloc : Allocator ℕ ℕ) :
    Bool × RawMessage_ × Allocator ℕ ℕ :=
  if size = m.m_allocated_bytes then (true, m, alloc)
  else
    let (m, alloc) := m.release alloc
    if size > 0 then
      match alloc.allocate size.toNat answer with
      | (some a, alloc) => (true, ⟨some a, size, eq_zero_of_some⟩, alloc)
      | (none, alloc) => (false, m, alloc)
    else (true, m, alloc)

/-- The buffer of a message: its address and its size. -/
def buffer (m : RawMessage_) : Option (ℕ × ℕ) :=
  m.getDataPtr.map fun a => (a, m.getDataLength.toNat)

variable (m : RawMessage_) (size : UInt32) (answer : Option ℕ) (alloc : Allocator ℕ ℕ)

theorem getDataPtr_eq_none_iff : m.getDataPtr = none ↔ m.getDataLength = 0 := by
  unfold getDataPtr getDataLength
  split_ifs with h
  · exact iff_of_true rfl h
  · exact ⟨fun hn => m.eq_zero_of_null hn, fun h0 => absurd h0 h⟩

theorem buffer_eq_none_iff : m.buffer = none ↔ m.getDataLength = 0 := by
  rw [buffer, Option.map_eq_none_iff, getDataPtr_eq_none_iff]

theorem buffer_eq_some_iff {b : ℕ × ℕ} :
    m.buffer = some b ↔ m.getDataPtr = some b.1 ∧ b.2 = m.getDataLength.toNat := by
  obtain ⟨a, n⟩ := b
  simp [buffer, eq_comm]

@[simp] theorem buffer_init : init.buffer = none := rfl

theorem release_eq : m.release alloc = (⟨m.m_value, 0, fun _ => rfl⟩, alloc.release m.buffer) := by
  obtain ⟨v, n, hv⟩ := m
  by_cases hn : n = 0
  · subst hn
    rfl
  · cases v with
    | none => exact absurd (hv rfl) hn
    | some a =>
      have hpos : n > 0 := UInt32.pos_iff_ne_zero.2 hn
      simp [release, buffer, getDataPtr, getDataLength, hn, hpos, Allocator.release]

/-- **`allocate`.** The message is left as it is, loses its buffer, or gets a new one for it. -/
theorem allocate_cases :
    size = m.getDataLength ∧ m.allocate size answer alloc = (true, m, alloc) ∨
    (∃ m', m'.buffer = none ∧
      m.allocate size answer alloc = (decide (size = 0), m', alloc.release m.buffer)) ∨
    ∃ a m', answer = some a ∧ a ∉ (alloc.release m.buffer).addresses ∧
      m'.buffer = some (a, size.toNat) ∧ m.allocate size answer alloc
        = (true, m', (alloc.release m.buffer).add (a, size.toNat)) := by
  by_cases hsize : size = m.m_allocated_bytes
  · exact .inl ⟨hsize, if_pos hsize⟩
  · refine .inr ?_
    rw [allocate, if_neg hsize, release_eq]
    by_cases h0 : size = 0
    · refine .inl ⟨⟨m.m_value, 0, fun _ => rfl⟩, rfl, ?_⟩
      simp [h0]
    · have hpos : size > 0 := UInt32.pos_iff_ne_zero.2 h0
      simp only [if_pos hpos]
      rcases (alloc.release m.buffer).allocate_cases size.toNat answer with h | ⟨a, ha, hfree, h⟩
      · rw [h]
        refine .inl ⟨⟨m.m_value, 0, fun _ => rfl⟩, rfl, ?_⟩
        simp [h0]
      · rw [h]
        refine .inr ⟨a, _, ha, hfree, ?_, rfl⟩
        simp [buffer, getDataPtr, getDataLength, h0]

/-- An address that is free is what a message without a buffer gets. -/
theorem allocate_of_empty {a : ℕ} (hm : m.getDataLength = 0) (hsize : size ≠ 0)
    (ha : a ∉ alloc.addresses) : ∃ m', m'.buffer = some (a, size.toNat) ∧
      m.allocate size (some a) alloc = (true, m', alloc.add (a, size.toNat)) := by
  have hne : size ≠ m.m_allocated_bytes := fun h => hsize (h.trans hm)
  have hpos : size > 0 := UInt32.pos_iff_ne_zero.2 hsize
  refine ⟨⟨some a, size, eq_zero_of_some⟩, ?_, ?_⟩
  · simp [buffer, getDataPtr, getDataLength, hsize]
  · rw [allocate, if_neg hne, release_eq, m.buffer_eq_none_iff.2 hm]
    simp only [if_pos hpos, Allocator.release, Allocator.allocate_of_notMem ha]

/-- The result of `allocate` says whether the message has the length that was asked for. -/
theorem allocate_eq_true_iff : (m.allocate size answer alloc).1 = true ↔
    (m.allocate size answer alloc).2.1.getDataLength = size := by
  rcases m.allocate_cases size answer alloc with ⟨hsize, h⟩ | ⟨m', hm', h⟩ | ⟨a, m', -, -, hm', h⟩
  · rw [h]
    exact iff_of_true rfl hsize.symm
  · rw [h, (buffer_eq_none_iff m').1 hm']
    simp [eq_comm]
  · rw [h]
    simpa [← UInt32.toNat_inj, eq_comm] using ((buffer_eq_some_iff m').1 hm').2

/-- Where the bytes are makes no difference to the result of `allocate`, nor to the length. -/
theorem allocate_refines {v : RawMessage} (hv : v.getDataLength = m.getDataLength.toNat) :
    let ok := ((alloc.release m.buffer).allocate size.toNat answer).1.isSome
    (v.allocate size.toNat ok).1 = (m.allocate size answer alloc).1 ∧
      (v.allocate size.toNat ok).2.getDataLength
        = (m.allocate size answer alloc).2.1.getDataLength.toNat := by
  intro ok
  by_cases hsize : size = m.m_allocated_bytes
  · have hlen : size.toNat = v.getDataLength := by rw [hv, hsize, getDataLength]
    rw [RawMessage.allocate, if_pos hlen, allocate, if_pos hsize]
    exact ⟨rfl, hv⟩
  · have hlen : size.toNat ≠ v.getDataLength := by
      rw [hv]
      exact fun h => hsize (UInt32.toNat_inj.1 h)
    rw [RawMessage.allocate, if_neg hlen, allocate, if_neg hsize, release_eq]
    by_cases h0 : size = 0
    · simp [h0, RawMessage.getDataLength, getDataLength, u32]
    · have hpos : size > 0 := UInt32.pos_iff_ne_zero.2 h0
      have hpos' : 0 < size.toNat := UInt32.lt_iff_toNat_lt.1 hpos
      simp only [if_pos hpos, hpos', true_and]
      rcases (alloc.release m.buffer).allocate_cases size.toNat answer with h | ⟨a, -, -, h⟩
      · simp [ok, h, RawMessage.getDataLength, getDataLength]
      · simp [ok, h, RawMessage.getDataLength, getDataLength, u32_of_lt size.toNat_lt]

end RawMessage_

end MessageTransport
