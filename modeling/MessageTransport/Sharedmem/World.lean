import Mathlib.Data.Fintype.Defs
import MessageTransport.Lib.Run
import MessageTransport.Serialization.Encoding
import MessageTransport.Sharedmem.Operations

/-!
# Clients of the block table

The world of whole operations: the table, and for every client the handle it holds and the topic
that handle was obtained for. Clients call `findHandle`, `allocateBlock`, `reallocateBlock`,
`publish_msg`, the subscriber's read, `resetBlock` and `resetAllBlocks`; each call is one step.

Whether the allocator finds memory is part of the call. A call through a handle that the source
would use to index outside `descriptors` is not made; here it does nothing.
-/

namespace MessageTransport

open MessageTransport.Stream

/-- What `publish_msg` uses of a message: its serialization length and its writer. -/
structure Message where
  serlen : UInt32
  write : StreamM Unit
  confined : Confined write

/-- A raw message, as `publish_msg` sees it. -/
def RawMessage.toMessage (m : RawMessage) : Message :=
  ⟨.ofNat m.serializedLength, m.write, m.write_confined⟩

@[simp] theorem RawMessage.serlen_toMessage (m : RawMessage) :
    m.toMessage.serlen.toNat = m.serializedLength :=
  UInt32.toNat_ofNat_of_lt (u32_lt _)

/-- A topic name that fits `name_` with its terminator and is not the manager's. -/
def CString.Plain (name : CString) : Prop :=
  name.chars.length < nameSize ∧ name.chars ≠ Shm.managerName

instance (name : CString) : Decidable name.Plain := inferInstanceAs (Decidable (_ ∧ _))

theorem CString.Plain.key_eq {name : CString} (h : name.Plain) : name.key = name.chars :=
  CString.key_of_lt h.1

theorem CString.Plain.key_ne {name : CString} (h : name.Plain) : name.key ≠ Shm.managerName :=
  h.key_eq ▸ h.2

/-- A name of a few characters, in memory that is zero after it. -/
def CString.lit (chars : List UInt8) (h : ∀ c ∈ chars, c ≠ 0) : CString :=
  ⟨chars, List.replicate nameSize 0, h, by rw [List.length_replicate]; omega⟩

/-- The topic "a". -/
def topicA : CString := .lit [97] (by simp)

/-- The topic "b". -/
def topicB : CString := .lit [98] (by simp)

/-- The clients of the runs below. -/
inductive Client
  | first
  | second
  | third
  deriving DecidableEq

instance : Fintype Client := ⟨{.first, .second, .third}, fun k => by cases k <;> simp⟩

/-- A message of 20 bytes, which does not fit a new block. -/
def longMessage : RawMessage := ⟨Vec.replicate 7, List.replicate 20 5, by decide⟩

/-- `publish_msg`, with the fault by which `serialize` is left, if it is. -/
def Shm.publish_msg (m : Shm) (h : ShmHandle) (msg : Message) (alloc : Bool) :
    Option Fault × Shm × ShmHandle :=
  if !h.is_valid then (none, m, h)
  else
    let r := m.reallocateBlock h msg.serlen.toNat alloc
    match r.2.is_valid, r.2.slot with
    | true, some i => r.1.serialize i r.2 msg.write
    | _, _ => (none, r.1, r.2)

/-- What a subscriber's read delivers, into a new raw message. -/
def Shm.received (m : Shm) (h : ShmHandle) : Option (Except Fault RawMessage) :=
  h.slot.map fun i => (m.deserialize i h (RawMessage.empty.read true)).1

/-- The table, and the handle of every client with the topic it was obtained for. -/
structure World (κ : Type*) where
  shm : Shm
  handle : κ → ShmHandle
  topic : κ → Name

/-- The whole operations. -/
inductive Op (κ : Type*)
  | findHandle (k : κ) (name : CString)
  | allocateBlock (k : κ) (name : CString) (size : UInt32) (alloc : Bool)
  | reallocateBlock (k : κ) (size : UInt32) (alloc : Bool)
  | publish_msg (k : κ) (msg : Message) (alloc : Bool)
  | read (k : κ)
  | resetBlock (k : κ)
  | resetAllBlocks

namespace World

variable {κ : Type*}

/-- A new segment, and clients without handles. -/
def init (size : ℕ) : World κ := ⟨Shm.init size, fun _ => .null, fun _ => []⟩

variable [DecidableEq κ]

/-- The table and the handle of one client after a call. -/
def setHandle (w : World κ) (k : κ) (r : Shm × ShmHandle) : World κ :=
  { w with shm := r.1, handle := Function.update w.handle k r.2 }

/-- The same, for a client that asked for topic `t`. -/
def connect (w : World κ) (k : κ) (t : Name) (r : Shm × ShmHandle) : World κ :=
  { w.setHandle k r with topic := Function.update w.topic k t }

/-- One whole operation. -/
def step (w : World κ) : Op κ → World κ
  | .findHandle k name => w.connect k name.chars (w.shm, w.shm.findHandle name)
  | .allocateBlock k name size alloc =>
    match w.shm.allocateBlock name size.toNat alloc with
    | (m, some h) => w.connect k name.chars (m, h)
    | (m, none) => { w with shm := m }
  | .reallocateBlock k size alloc =>
    w.setHandle k (w.shm.reallocateBlock (w.handle k) size.toNat alloc)
  | .publish_msg k msg alloc => w.setHandle k (w.shm.publish_msg (w.handle k) msg alloc).2
  | .read k =>
    match (w.handle k).slot with
    | some i =>
      w.setHandle k (w.shm, (w.shm.deserialize i (w.handle k) (RawMessage.empty.read true)).2)
    | none => w
  | .resetBlock k =>
    match (w.handle k).slot with
    | some i => w.setHandle k (w.shm.resetBlock i (w.handle k))
    | none => w
  | .resetAllBlocks => { w with shm := w.shm.resetAllBlocks }

@[simp] theorem setHandle_shm (w : World κ) (k : κ) (r : Shm × ShmHandle) :
    (w.setHandle k r).shm = r.1 := rfl

@[simp] theorem setHandle_self (w : World κ) (k : κ) (r : Shm × ShmHandle) :
    (w.setHandle k r).handle k = r.2 := Function.update_self ..

theorem setHandle_ne (w : World κ) {k k' : κ} (r : Shm × ShmHandle) (h : k' ≠ k) :
    (w.setHandle k r).handle k' = w.handle k' := Function.update_of_ne h ..

@[simp] theorem setHandle_topic (w : World κ) (k : κ) (r : Shm × ShmHandle) :
    (w.setHandle k r).topic = w.topic := rfl

@[simp] theorem connect_shm (w : World κ) (k : κ) (t : Name) (r : Shm × ShmHandle) :
    (w.connect k t r).shm = r.1 := rfl

@[simp] theorem connect_handle_self (w : World κ) (k : κ) (t : Name) (r : Shm × ShmHandle) :
    (w.connect k t r).handle k = r.2 := Function.update_self ..

@[simp] theorem connect_topic_self (w : World κ) (k : κ) (t : Name) (r : Shm × ShmHandle) :
    (w.connect k t r).topic k = t := Function.update_self ..

theorem connect_ne (w : World κ) {k k' : κ} (t : Name) (r : Shm × ShmHandle) (h : k' ≠ k) :
    (w.connect k t r).handle k' = w.handle k' ∧ (w.connect k t r).topic k' = w.topic k' :=
  ⟨setHandle_ne w r h, Function.update_of_ne h ..⟩

theorem step_allocateBlock {w : World κ} {k : κ} {name : CString} {size : UInt32} {alloc : Bool}
    {m : Shm} {h : ShmHandle} (heq : w.shm.allocateBlock name size.toNat alloc = (m, some h)) :
    w.step (.allocateBlock k name size alloc) = w.connect k name.chars (m, h) := by
  simp only [step, heq]

theorem step_allocateBlock_shm (w : World κ) (k : κ) (name : CString) (size : UInt32)
    (alloc : Bool) : (w.step (.allocateBlock k name size alloc)).shm
      = (w.shm.allocateBlock name size.toNat alloc).1 := by
  simp only [step]
  split
  · rename_i heq
    rw [heq, connect_shm]
  · rename_i heq
    rw [heq]

end World

/-- The calls of a client of ordinary topics: names are plain, and `allocateBlock` finds memory.
`reallocateBlock` may fail at any point. -/
def Op.Ordinary {κ : Type*} : Op κ → Prop
  | .findHandle _ name => name.Plain
  | .allocateBlock _ name _ alloc => name.Plain ∧ alloc = true
  | _ => True

instance {κ : Type*} (op : Op κ) : Decidable op.Ordinary :=
  match op with
  | .findHandle _ name => inferInstanceAs (Decidable name.Plain)
  | .allocateBlock _ name _ alloc => inferInstanceAs (Decidable (name.Plain ∧ alloc = true))
  | .reallocateBlock _ _ _ | .publish_msg _ _ _ | .read _ | .resetBlock _ | .resetAllBlocks =>
    inferInstanceAs (Decidable True)

namespace Op

variable {κ : Type*}

/-- The client that makes the call. -/
def client : Op κ → Option κ
  | .findHandle k _ | .allocateBlock k _ _ _ | .reallocateBlock k _ _ | .publish_msg k _ _
  | .read k | .resetBlock k => some k
  | .resetAllBlocks => none

/-- The call resets nothing, and finds memory where it needs some. -/
def Steady : Op κ → Prop
  | .findHandle _ _ | .read _ => True
  | .allocateBlock _ _ _ alloc | .reallocateBlock _ _ alloc | .publish_msg _ _ alloc => alloc = true
  | .resetBlock _ | .resetAllBlocks => False

end Op

/-- The topic a call is about. -/
def World.subject {κ : Type*} (w : World κ) : Op κ → Name
  | .findHandle _ name | .allocateBlock _ name _ _ => name.chars
  | .reallocateBlock k _ _ | .publish_msg k _ _ | .read k | .resetBlock k => w.topic k
  | .resetAllBlocks => []

namespace Shm

variable {m : Shm} {i : Slot} {h : ShmHandle}

theorem good_init (size : ℕ) : (Shm.init size).Good := by
  refine Good.of_slotOk (fun i => ?_) (fun i j hi => ?_) (fun n data hl => ?_)
    (ObjectStore.wf_empty.construct _ rfl) ⟨size, ObjectStore.construct_lookup_self ..⟩
    (fun n s hl => ?_)
  · exact
      { block := fun ha => by cases ha
        free := fun _ => ⟨Descriptor.key_init, rfl, rfl⟩
        size_le := le_refl 0
        bound := by show 0 < 2 ^ 32; norm_num }
  · cases hi
  · by_cases hn : n = managerName
    · subst hn
      cases (ObjectStore.construct_lookup_self ..).symm.trans hl
    · cases (ObjectStore.wf_empty.construct_lookup_ne _ hn).symm.trans hl
  · by_contra hn
    cases (ObjectStore.wf_empty.construct_lookup_ne _ hn).symm.trans hl

theorem reallocateBlock_invalid (hv : h.is_valid = false) (size : ℕ) (alloc : Bool) :
    m.reallocateBlock h size alloc = (m, h) := by
  rw [reallocateBlock, hv]

theorem reallocateBlock_valid (hv : h.is_valid = true) (hi : h.slot = some i) (size : ℕ)
    (alloc : Bool) : m.reallocateBlock h size alloc = m.reallocateSlot i h size alloc := by
  rw [reallocateBlock, hv, hi]

theorem reallocateBlock_no_slot (hi : h.slot = none) (size : ℕ) (alloc : Bool) :
    m.reallocateBlock h size alloc = (m, h) := by
  cases hv : h.is_valid <;> rw [reallocateBlock, hv, hi]

theorem publish_msg_no_slot (hi : h.slot = none) (msg : Message) (alloc : Bool) :
    m.publish_msg h msg alloc = (none, m, h) := by
  simp [publish_msg, reallocateBlock_no_slot hi, hi]

theorem publish_msg_invalid (hv : h.is_valid = false) (msg : Message) (alloc : Bool) :
    m.publish_msg h msg alloc = (none, m, h) := by
  simp [publish_msg, hv]

theorem refresh_resize_count (m : Shm) (i : Slot) (h : ShmHandle) :
    (m.refresh i h).resize_count = (m.descriptors i).resize_count_ := by
  unfold refresh stale
  split_ifs with hs
  · rfl
  · simpa using hs

/-- A handle with the slot's count is left alone. -/
theorem refresh_of_eq (hc : h.resize_count = (m.descriptors i).resize_count_) :
    m.refresh i h = h := by
  simp [refresh, stale, hc]

theorem refresh_of_ne (hc : h.resize_count ≠ (m.descriptors i).resize_count_) :
    m.refresh i h = m.relookup i h := by
  simp [refresh, stale, hc]

/-- After `reallocateBlock` a valid handle has the slot's count, on the same slot. -/
theorem reallocateSlot_current (m : Shm) (i : Slot) (h : ShmHandle) (size : ℕ) (alloc : Bool)
    (hv : (m.reallocateSlot i h size alloc).2.is_valid = true) :
    (m.reallocateSlot i h size alloc).2.slot = h.slot ∧
      (m.reallocateSlot i h size alloc).2.resize_count
        = ((m.reallocateSlot i h size alloc).1.descriptors i).resize_count_ := by
  by_cases hs : size ≤ (m.descriptors i).allocated_
  · rw [reallocateSlot_fits hs]
    exact ⟨refresh_slot h, by simp [refresh_resize_count]⟩
  · cases alloc with
    | true =>
      rw [reallocateSlot_larger (not_le.1 hs)]
      exact ⟨refresh_slot h, by simp [resize_count_recordSize (not_le.1 hs)]⟩
    | false =>
      rw [reallocateSlot_fails (not_le.1 hs)] at hv
      cases hv

/-- `publish_msg` is `reallocateBlock` and then a write through the handle it leaves, unless that
is not valid. -/
theorem publish_msg_valid (hv : h.is_valid = true) (hi : h.slot = some i) (msg : Message)
    (alloc : Bool) :
    let r := m.reallocateSlot i h msg.serlen.toNat alloc
    (r.2.is_valid = false ∧ m.publish_msg h msg alloc = (none, r)) ∨
      (r.2.is_valid = true ∧ r.2.slot = some i ∧
        r.1.refresh i r.2 = r.2 ∧ m.publish_msg h msg alloc = r.1.serialize i r.2 msg.write) := by
  simp only [publish_msg, hv, Bool.not_true, Bool.false_eq_true, if_false,
    reallocateBlock_valid hv hi]
  have hcur := reallocateSlot_current m i h msg.serlen.toNat alloc
  generalize m.reallocateSlot i h msg.serlen.toNat alloc = r at hcur
  cases hr : r.2.is_valid with
  | false => exact .inl ⟨rfl, rfl⟩
  | true =>
    obtain ⟨hslot, hc⟩ := hcur hr
    rw [hi] at hslot
    exact .inr ⟨rfl, hslot, refresh_of_eq hc, by rw [hslot]⟩

theorem publish_msg_shm (hv : h.is_valid = true) (hi : h.slot = some i) (msg : Message)
    (alloc : Bool) : ∃ data, (m.publish_msg h msg alloc).2.1
      = (m.reallocateSlot i h msg.serlen.toNat alloc).1.fill
          (m.reallocateSlot i h msg.serlen.toNat alloc).2.ptr data := by
  rcases publish_msg_valid hv hi msg alloc with ⟨hr, heq⟩ | ⟨-, -, hf, heq⟩
  · refine ⟨[], ?_⟩
    rw [heq]
    generalize m.reallocateSlot i h msg.serlen.toNat alloc = r at hr
    obtain ⟨m', ⟨_, _, p⟩⟩ := r
    cases p with
    | none => rfl
    | some a => cases hr
  · obtain ⟨data, hd⟩ := serialize_shm (m := (m.reallocateSlot i h msg.serlen.toNat alloc).1)
      (i := i) (m.reallocateSlot i h msg.serlen.toNat alloc).2 msg.write
    exact ⟨data, by rw [heq, hd, hf]⟩

theorem publish_msg_handle (hv : h.is_valid = true) (hi : h.slot = some i) (msg : Message)
    (alloc : Bool) : (m.publish_msg h msg alloc).2.2
      = (m.reallocateSlot i h msg.serlen.toNat alloc).2 := by
  rcases publish_msg_valid hv hi msg alloc with ⟨-, heq⟩ | ⟨-, -, hf, heq⟩
  · rw [heq]
  · rw [heq, serialize_handle, hf]

end Shm

end MessageTransport
