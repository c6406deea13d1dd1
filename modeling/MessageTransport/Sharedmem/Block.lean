import MessageTransport.Lib.ObjectStore
import MessageTransport.Serialization.RawMessage
import MessageTransport.Sharedmem.Names

/-!
# The block table

`SharedMemoryBlockDescriptor` and `SharedMemoryBlock`: a table of 100 descriptors, kept in the
shared segment under the name "Manager", that gives each topic a slot and a byte block of its own.
The functions of this module are what the operations do to the table and the segment; the locks
around them are in `Sync`.

The segment is a store of named objects with fresh addresses. The bytes of the manager object are
the table itself; they are not accessible as bytes here. The allocator is an argument: `alloc` says
whether a construction finds memory.

A `name_` without terminator is read as its 256 characters: the padding that follows the array in
the descriptor is never written and holds the zero bytes of a new segment.
-/

namespace MessageTransport

open Bytes MessageTransport.Stream

/-! ### The segment -/

/-- An object in the segment: the block manager, or an array of `uint8_t`. -/
inductive Obj
  | manager (size : ℕ)
  | bytes (data : List UInt8)

/-- The number of bytes of an object. -/
def Obj.size : Obj → ℕ
  | .manager n => n
  | .bytes data => data.length

abbrev Segment := ObjectStore Name Obj

/-- A `uint8_t *`: an address of the segment or `NULL`. -/
abbrev Ptr := Option ℕ

namespace Segment

/-- `segment.find<uint8_t>(name)`: a pointer and a number of bytes. -/
def find (g : Segment) (n : Name) : Ptr × ℕ :=
  (g.named n, match g.lookup n with
    | some o => o.size
    | none => 0)

/-- `segment.find_or_construct<uint8_t>(name)[size](0)`; `none` when it throws `bad_alloc`. -/
def find_or_construct (g : Segment) (n : Name) (size : ℕ) (alloc : Bool) :
    Option (Ptr × Segment) :=
  match g.named n with
  | some a => some (some a, g)
  | none =>
    if alloc then some (some g.next, g.construct n (.bytes (List.replicate size 0))) else none

/-- The memory behind a pointer; none for `NULL`, a destroyed block and the manager. A handle to the
manager, from a call for its name, would give access to the table itself in the source; what becomes
of the table then is not followed. -/
def bytesAt (g : Segment) (p : Ptr) : List UInt8 :=
  match p.bind g.object with
  | some (.bytes data) => data
  | _ => []

/-- The segment after the memory behind a pointer was written. A block keeps its size. -/
def setBytes (g : Segment) (p : Ptr) (data : List UInt8) : Segment :=
  match p with
  | some a =>
    match g.object a with
    | some (.bytes old) => g.store a (.bytes (overwrite old 0 (data.take old.length)))
    | _ => g
  | none => g

end Segment

/-! ### Descriptors and handles -/

/-- `MSGTSharedMemoryNumBlock`. -/
def numBlock : ℕ := 100

instance : NeZero numBlock := ⟨by decide⟩

/-- An index into `descriptors`. -/
abbrev Slot := Fin numBlock

/-- `SharedMemoryBlockDescriptor`, without its mutex and its conditions. -/
structure Descriptor where
  num_clients : ℤ
  size_ : ℕ
  allocated_ : ℕ
  resize_count_ : ℕ
  active_ : Bool
  name_ : Vec UInt8 nameSize

namespace Descriptor

/-- `SharedMemoryBlockDescriptor()`. -/
def init : Descriptor := ⟨0, 0, 0, 0, false, Vec.replicate 0⟩

/-- `recordSize(newsize, alloc)`; `alloc` is 0 when it is left out. -/
def recordSize (d : Descriptor) (newsize alloc : ℕ) : Descriptor :=
  { d with
    resize_count_ := if newsize > d.allocated_ then u32 (d.resize_count_ + 1) else d.resize_count_
    allocated_ := if alloc ≠ 0 then alloc else d.allocated_
    size_ := newsize }

/-- `allocate(name)`. -/
def allocate (d : Descriptor) (name : CString) : Descriptor :=
  { d with name_ := name.buf, active_ := true }

/-- `reset()`: only the first character of the name is cleared. -/
def reset (d : Descriptor) : Descriptor :=
  { d with
    active_ := false
    name_ := ⟨d.name_.1.set 0 0, by rw [List.length_set, d.name_.2]⟩
    size_ := 0
    allocated_ := 0
    resize_count_ := 0 }

/-- `matchName(name)`. -/
def matchName (d : Descriptor) (name : CString) : Bool := strncmpEq nameSize d.name_.1 name.mem

/-- The C string in `name_`. -/
def key (d : Descriptor) : Name := cstr d.name_.1

theorem matchName_iff (d : Descriptor) (name : CString) :
    d.matchName name = true ↔ d.key = name.key := strncmp_iff _ _

@[simp] theorem active_allocate (d : Descriptor) (name : CString) :
    (d.allocate name).active_ = true := rfl

@[simp] theorem key_allocate (d : Descriptor) (name : CString) : (d.allocate name).key = name.key :=
  cstr_buf name

@[simp] theorem key_recordSize (d : Descriptor) (n a : ℕ) : (d.recordSize n a).key = d.key := rfl

@[simp] theorem active_recordSize (d : Descriptor) (n a : ℕ) :
    (d.recordSize n a).active_ = d.active_ := rfl

@[simp] theorem active_reset (d : Descriptor) : d.reset.active_ = false := rfl

@[simp] theorem key_reset (d : Descriptor) : d.reset.key = [] := by
  obtain ⟨nc, sz, al, rc, ac, ⟨l, hl⟩⟩ := d
  cases l with
  | nil => cases hl
  | cons c cs => simp [key, reset, cstr]

@[simp] theorem key_init : init.key = [] := by decide

end Descriptor

/-- `shm_handle`. -/
structure ShmHandle where
  handle : ℕ
  resize_count : ℕ
  ptr : Ptr
  deriving DecidableEq

namespace ShmHandle

/-- `shm_handle()`. -/
def null : ShmHandle := ⟨2 ^ 32 - 1, 0, none⟩

def is_valid (h : ShmHandle) : Bool := h.ptr.isSome

/-- The index `handle`, when `descriptors[handle]` exists. -/
def slot (h : ShmHandle) : Option Slot :=
  if hlt : h.handle < numBlock then some ⟨h.handle, hlt⟩ else none

/-- A handle to a slot. -/
def of (i : Slot) (resize_count : ℕ) (ptr : Ptr) : ShmHandle := ⟨i, resize_count, ptr⟩

@[simp] theorem slot_of (i : Slot) (c : ℕ) (p : Ptr) : (of i c p).slot = some i := by
  simp [slot, of]

end ShmHandle

/-! ### The manager and its segment -/

/-- `SharedMemoryBlock` and the segment it lives in. -/
structure Shm where
  num_clients : ℤ
  descriptors : Slot → Descriptor
  segment : Segment

namespace Shm

/-- The name under which the manager object itself is registered. -/
def managerName : Name := [77, 97, 110, 97, 103, 101, 114]

/-- A new segment with a `SharedMemoryBlock` of `size` bytes: what `main` of the manager makes. -/
def init (size : ℕ) : Shm :=
  ⟨0, fun _ => Descriptor.init, ObjectStore.empty.construct managerName (.manager size)⟩

/-- `descriptors[i] = d`. -/
def setDescriptor (m : Shm) (i : Slot) (d : Descriptor) : Shm :=
  { m with descriptors := Function.update m.descriptors i d }

/-- The name in slot `i`. -/
def key (m : Shm) (i : Slot) : Name := (m.descriptors i).key

/-- The first slot, in the order of the loops, with a given property. -/
def firstSlot (p : Slot → Bool) : Option Slot := (List.finRange numBlock).find? p

/-- The slot a search for `name` stops at. -/
def slotOf (m : Shm) (name : CString) : Option Slot :=
  firstSlot fun i => (m.descriptors i).active_ && (m.descriptors i).matchName name

/-- The slot a search for a free descriptor stops at. -/
def freeSlot (m : Shm) : Option Slot := firstSlot fun i => !(m.descriptors i).active_

/-- `connectBlock`. -/
def connectBlock (m : Shm) (i : Slot) : ShmHandle :=
  .of i (m.descriptors i).resize_count_ (m.segment.find (m.key i)).1

/-- `findHandle`. -/
def findHandle (m : Shm) (name : CString) : ShmHandle :=
  match m.slotOf name with
  | some i => m.connectBlock i
  | none => .null

/-- `allocateBlock` on a slot that has the name: the block is kept unless it is too small. -/
def reconnect (m : Shm) (i : Slot) (size : ℕ) (alloc : Bool) : Shm × Option ShmHandle :=
  let found := m.segment.find (m.key i)
  if size > found.2 then
    let segment := m.segment.destroy (m.key i)
    match Segment.find_or_construct segment (m.key i) size alloc with
    | none => ({ m with segment := segment }, none)
    | some (ptr, segment) =>
      let d := (m.descriptors i).recordSize size size
      ({ m with segment := segment }.setDescriptor i d, some (.of i d.resize_count_ ptr))
  else
    let d := (m.descriptors i).recordSize size (u32 found.2)
    (m.setDescriptor i d, some (.of i d.resize_count_ found.1))

/-- `allocateBlock` on a free slot: the descriptor is written before the block is made. -/
def claim (m : Shm) (i : Slot) (name : CString) (size : ℕ) (alloc : Bool) :
    Shm × Option ShmHandle :=
  let d := ((m.descriptors i).allocate name).recordSize size size
  let m := m.setDescriptor i d
  match Segment.find_or_construct m.segment (m.key i) size alloc with
  | none => (m, none)
  | some (ptr, segment) => ({ m with segment := segment }, some (.of i d.resize_count_ ptr))

/-- `allocateBlock`; no handle comes back when `bad_alloc` leaves it. -/
def allocateBlock (m : Shm) (name : CString) (size : ℕ) (alloc : Bool) : Shm × Option ShmHandle :=
  match m.slotOf name with
  | some i => m.reconnect i size alloc
  | none =>
    match m.freeSlot with
    | some i => m.claim i name size alloc
    | none => (m, some .null)

/-- Destroy the block of slot `i` and reset its descriptor. -/
def resetSlot (m : Shm) (i : Slot) : Shm :=
  { m with segment := m.segment.destroy (m.key i) }.setDescriptor i (m.descriptors i).reset

/-- `resetBlock`, with its locks held. -/
def resetBlock (m : Shm) (i : Slot) (h : ShmHandle) : Shm × ShmHandle :=
  if h.is_valid then (m.resetSlot i, .null) else (m, h)

/-- `resetAllBlocks`, with its lock held. -/
def resetAllBlocks (m : Shm) : Shm :=
  (List.finRange numBlock).foldl
    (fun m i => if (m.descriptors i).active_ then m.resetSlot i else m) m

/-- The test for a block that was changed since the last access. -/
def stale (m : Shm) (i : Slot) (h : ShmHandle) : Bool :=
  h.resize_count != (m.descriptors i).resize_count_

/-- The handle after the pointer was looked up again. -/
def relookup (m : Shm) (i : Slot) (h : ShmHandle) : ShmHandle :=
  { h with resize_count := (m.descriptors i).resize_count_, ptr := (m.segment.find (m.key i)).1 }

/-- The check that `reallocateBlock`, `serialize` and `deserialize` begin with. -/
def refresh (m : Shm) (i : Slot) (h : ShmHandle) : ShmHandle :=
  if m.stale i h then m.relookup i h else h

/-- `reallocateBlock`, the part that replaces the block. -/
def grow (m : Shm) (i : Slot) (h : ShmHandle) (size : ℕ) (alloc : Bool) : Shm × ShmHandle :=
  let segment := m.segment.destroy (m.key i)
  match Segment.find_or_construct segment (m.key i) size alloc with
  | some (ptr, segment) =>
    let d := (m.descriptors i).recordSize size size
    ({ m with segment := segment }.setDescriptor i d,
      { h with ptr := ptr, resize_count := d.resize_count_ })
  | none =>
    ({ m with segment := segment }.setDescriptor i (m.descriptors i).reset, .null)

/-- `reallocateBlock` on slot `i`, as a whole. -/
def reallocateSlot (m : Shm) (i : Slot) (h : ShmHandle) (size : ℕ) (alloc : Bool) :
    Shm × ShmHandle :=
  let h := m.refresh i h
  if size > (m.descriptors i).allocated_ then m.grow i h size alloc
  else (m.setDescriptor i ((m.descriptors i).recordSize size 0), h)

/-- `reallocateBlock`. An invalid handle is ignored. -/
def reallocateBlock (m : Shm) (h : ShmHandle) (size : ℕ) (alloc : Bool) : Shm × ShmHandle :=
  match h.is_valid, h.slot with
  | true, some i => m.reallocateSlot i h size alloc
  | _, _ => (m, h)

/-- The part of `serialize` between its locks: refresh the handle and run the writer `w` on an
`OStream` over the block. What was written before a fault stays. -/
def serialize (m : Shm) (i : Slot) (h : ShmHandle) (w : StreamM Unit) :
    Option Fault × Shm × ShmHandle :=
  let h := m.refresh i h
  match w.run (open_ (m.segment.bytesAt h.ptr) (m.descriptors i).size_) with
  | .ok _ out => (none, { m with segment := m.segment.setBytes h.ptr out.mem }, h)
  | .error e out => (some e, { m with segment := m.segment.setBytes h.ptr out.mem }, h)

/-- `deserialize`: refresh the handle and run the reader `r` on an `IStream` over the block. -/
def deserialize {α : Type} (m : Shm) (i : Slot) (h : ShmHandle) (r : StreamM α) :
    Except Fault α × ShmHandle :=
  let h := m.refresh i h
  match r.run (open_ (m.segment.bytesAt h.ptr) (m.descriptors i).size_) with
  | .ok a _ => (.ok a, h)
  | .error e _ => (.error e, h)

end Shm

end MessageTransport
