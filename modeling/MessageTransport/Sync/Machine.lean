import MessageTransport.Lib.Monitor
import MessageTransport.Sharedmem.World

/-!
# The operations as programs over mutexes and conditions

Any number of parties call the operations of `SharedMemoryBlock` at the same time. A call is a list
of instructions; one step of a party takes or gives back a mutex, tests and waits on a condition,
changes a count with the notification that belongs to it, or does the work between two of these.
Writing a block and reading a block are one step each.

The count of registered clients with its mutex and its condition occurs twice in the source: as
`SharedMemoryBlock::num_clients`, `mutex` and `cond`, and in every descriptor as `num_clients`,
`mutex` and `lockcond`. Here these are the mutexes `global` and `desc i` with their count
`Shm.clients` and their condition `Cond.clients`.

`Party.pos`, `Party.log`, `Shared.written` and `Shared.origin` are history: no step depends on
them.
-/

namespace MessageTransport

open MessageTransport.Stream

namespace Sync

/-! ### Mutexes, conditions and counts -/

/-- `SharedMemoryBlock::mutex`, and the `mutex` of a descriptor. -/
inductive Mutex
  | global
  | desc (i : Slot)
  deriving DecidableEq

/-- `cond` and `lockcond`, on which one waits for registered clients to leave, and `datacond`. -/
inductive Cond
  | clients (m : Mutex)
  | data (i : Slot)
  deriving DecidableEq

/-- The mutex that goes with a condition. -/
def Cond.mutex : Cond → Mutex
  | .clients m => m
  | .data i => .desc i

/-- `num_clients`. -/
def clients (s : Shm) : Mutex → ℤ
  | .global => s.num_clients
  | .desc i => (s.descriptors i).num_clients

/-- `num_clients += d`. -/
def addClients (s : Shm) (m : Mutex) (d : ℤ) : Shm :=
  match m with
  | .global => { s with num_clients := s.num_clients + d }
  | .desc i => s.setDescriptor i
    { s.descriptors i with num_clients := (s.descriptors i).num_clients + d }

@[simp] theorem clients_addClients_self (s : Shm) (m : Mutex) (d : ℤ) :
    clients (addClients s m d) m = clients s m + d := by
  cases m <;> simp [clients, addClients]

theorem clients_addClients_ne (s : Shm) {m n : Mutex} (d : ℤ) (h : n ≠ m) :
    clients (addClients s m d) n = clients s n := by
  cases m with
  | global =>
    cases n with
    | global => exact absurd rfl h
    | desc i => rfl
  | desc i =>
    cases n with
    | global => rfl
    | desc j =>
      have hj : j ≠ i := fun hji => h (congrArg Mutex.desc hji)
      simp only [clients, addClients, Shm.setDescriptor_ne _ _ hj]

/-! ### Instructions -/

/-- The work done while the global mutex is held. -/
inductive Body
  | findHandle (name : CString)
  | allocateBlock (name : CString) (size : UInt32) (alloc : Bool)
  | relookup (i : Slot)
  | grow (i : Slot) (size : UInt32) (alloc : Bool)
  | resetBlock (i : Slot)
  | resetAllBlocks

/-- The table and the caller's handle after the work. A `bad_alloc` that leaves `allocateBlock`
leaves the handle as it was. -/
def Body.run (s : Shm) (h : ShmHandle) : Body → Shm × ShmHandle
  | .findHandle name => (s, s.findHandle name)
  | .allocateBlock name size alloc =>
    let r := s.allocateBlock name size.toNat alloc
    (r.1, r.2.getD h)
  | .relookup i => (s, s.relookup i h)
  | .grow i size alloc => s.grow i h size.toNat alloc
  | .resetBlock i => s.resetBlock i h
  | .resetAllBlocks => (s.resetAllBlocks, h)

/-- The steps of a call. -/
inductive Instr
  /-- Construct a `scoped_lock`. -/
  | lock (m : Mutex)
  /-- Destroy it. -/
  | unlock (m : Mutex)
  /-- `if (num_clients) cond.wait(lock)`. -/
  | check (m : Mutex)
  /-- `num_clients++`. -/
  | register (m : Mutex)
  /-- `num_clients--`, and notify all if nobody is left. -/
  | unregister (m : Mutex)
  /-- `datacond.timed_wait(lock, max_wait)`. -/
  | timed_wait (i : Slot)
  /-- `datacond.notify_all()`. -/
  | signal_data (i : Slot)
  | body (b : Body)
  /-- `reallocateBlock`, the test of `resize_count`. -/
  | ifStale (i : Slot)
  /-- `reallocateBlock`, the test of `allocated_`. -/
  | ifLarger (i : Slot) (size : UInt32) (alloc : Bool)
  /-- The part of `serialize` that writes the block. -/
  | write (i : Slot) (msg : Message)
  /-- `deserialize`. What is read into is not kept. -/
  | read (i : Slot) (r : StreamM Unit)

/-- `SharedMemoryBlockDescriptor::check_clients`. -/
def check_clients (i : Slot) : Instr := .check (.desc i)

/-- `check_global_clients`. -/
def check_global_clients : Instr := .check .global

/-- `register_global_client`. -/
def register_global_client : List Instr :=
  [.lock .global, .register .global, .unlock .global]

/-- `unregister_global_client`. -/
def unregister_global_client : List Instr :=
  [.lock .global, .unregister .global, .unlock .global]

/-- `SharedMemoryBlockDescriptor::unregister_client`. -/
def unregister_client (i : Slot) : List Instr :=
  [.lock (.desc i), .unregister (.desc i), .unlock (.desc i)]

/-- `wait_data_and_register_client`. After a time-out the call is over, see `Party.effect`. -/
def wait_data_and_register_client (i : Slot) : List Instr :=
  [.timed_wait i, .register (.desc i)]

/-- Work under the global mutex, when no global client is left. -/
def globally (b : Body) : List Instr :=
  [.lock .global, check_global_clients, .body b, .unlock .global]

/-! ### Calls -/

/-- The operations a party may call. -/
inductive Call
  | findHandle (name : CString)
  | allocateBlock (name : CString) (size : UInt32) (alloc : Bool)
  | reallocateBlock (size : UInt32) (alloc : Bool)
  | serialize (msg : Message)
  | wait_data (r : StreamM Unit)
  | resetBlock
  | resetAllBlocks

/-- `reallocateBlock` with a valid handle to slot `i`. -/
def reallocateBlock (i : Slot) (size : UInt32) (alloc : Bool) : List Instr :=
  [.lock (.desc i), check_clients i, .ifStale i, .ifLarger i size alloc, .unlock (.desc i)]

/-- `serialize`. -/
def serialize (i : Slot) (msg : Message) : List Instr :=
  [.lock (.desc i), check_clients i] ++ register_global_client ++ [.write i msg] ++
    unregister_global_client ++ [.signal_data i, .unlock (.desc i)]

/-- `wait_data`. -/
def wait_data (i : Slot) (r : StreamM Unit) : List Instr :=
  [.lock (.desc i)] ++ wait_data_and_register_client i ++ register_global_client ++
    [.unlock (.desc i), .read i r] ++ unregister_global_client ++ unregister_client i

/-- `resetBlock`. -/
def resetBlock (i : Slot) : List Instr :=
  [.lock (.desc i), check_clients i] ++ globally (.resetBlock i) ++ [.unlock (.desc i)]

/-- The program of a call with the handle `h`. A call that would index outside `descriptors` is
not made. -/
def Call.prog (h : ShmHandle) : Call → List Instr
  | .findHandle name => globally (.findHandle name)
  | .allocateBlock name size alloc => globally (.allocateBlock name size alloc)
  | .reallocateBlock size alloc =>
    match h.is_valid, h.slot with
    | true, some i => Sync.reallocateBlock i size alloc
    | _, _ => []
  | .serialize msg =>
    match h.slot with
    | some i => Sync.serialize i msg
    | none => []
  | .wait_data r =>
    match h.slot with
    | some i => Sync.wait_data i r
    | none => []
  | .resetBlock =>
    match h.slot with
    | some i => Sync.resetBlock i
    | none => []
  | .resetAllBlocks => globally .resetAllBlocks

/-! ### Where a party is -/

/-- What a party has done so far in its call. -/
structure Position where
  /-- The descriptor whose mutex it holds. -/
  desc : Option Slot := none
  /-- It is past `check_clients` of that descriptor. -/
  pastDesc : Bool := false
  /-- The descriptor it is registered at. -/
  reg : Option Slot := none
  /-- It holds the global mutex. -/
  global : Bool := false
  /-- It is past `check_global_clients`. -/
  pastGlobal : Bool := false
  /-- It is registered as a global client. -/
  regGlobal : Bool := false
  /-- The slot of which it was notified, until it has read the data. -/
  due : Option Slot := none
  /-- The slot that it has written, until it has signalled the data. -/
  wrote : Option Slot := none
  deriving DecidableEq

namespace Position

/-- Outside all calls. -/
def idle : Position := {}

variable (v : Position)

def holds : Mutex → Bool
  | .global => v.global
  | .desc i => v.desc == some i

/-- Past the check of the clients of `m`, with `m` still held. -/
def past : Mutex → Bool
  | .global => v.pastGlobal && v.global
  | .desc i => v.pastDesc && v.desc == some i

def registered : Mutex → Bool
  | .global => v.regGlobal
  | .desc i => v.reg == some i

def acquire : Mutex → Position
  | .global => { v with global := true }
  | .desc i => { v with desc := some i }

def release : Mutex → Position
  | .global => { v with global := false, pastGlobal := false }
  | .desc _ => { v with desc := none, pastDesc := false }

def pass : Mutex → Position
  | .global => { v with pastGlobal := true }
  | .desc _ => { v with pastDesc := true }

def register : Mutex → Position
  | .global => { v with regGlobal := true }
  | .desc i => { v with reg := some i }

def unregister : Mutex → Position
  | .global => { v with regGlobal := false }
  | .desc _ => { v with reg := none }

end Position

/-! ### Parties and what they share -/

/-- What a party can do next: run, or wait. -/
inductive Status
  | ready
  /-- It waits and was not notified. -/
  | waiting (c : Cond)
  /-- It was notified and needs the mutex of the condition to go on. -/
  | woken (c : Cond)
  /-- Its `timed_wait` ran out, and it needs the mutex to go on. -/
  | timedOut (i : Slot)
  deriving DecidableEq

/-- A completed read: the slot, how many writes of the slot were complete, and the number of the
write of this slot whose content was read, if it was the content of one. -/
structure Reading where
  slot : Slot
  number : ℕ
  content : Option ℕ
  deriving DecidableEq

/-- A party. The instruction on which it waits stays at the head of its program. -/
structure Party where
  prog : List Instr
  status : Status
  pos : Position
  handle : ShmHandle
  log : List Reading

/-- The manager and its segment; how often each slot was written; which write was the last one at
an address, by its slot and its number. -/
structure Shared where
  shm : Shm
  written : Slot → ℕ
  origin : ℕ → Option (Slot × ℕ)

namespace Shared

/-- After a complete write of slot `i` through a pointer, which left the table `m`. -/
def record (s : Shared) (m : Shm) (i : Slot) (p : Ptr) : Shared where
  shm := m
  written := Function.update s.written i (s.written i + 1)
  origin := match p with
    | some a => Function.update s.origin a (some (i, s.written i + 1))
    | none => s.origin

/-- The write of slot `i` whose content a read through a pointer finds: none if the block is gone
or was not written since it was made. -/
def content (s : Shared) (i : Slot) (p : Ptr) : Option ℕ :=
  match p.filter fun a => (s.shm.segment.object a).isSome with
  | some a =>
    match s.origin a with
    | some (j, k) => if j = i then some k else none
    | none => none
  | none => none

/-- A complete read of slot `i` through a pointer. -/
def reading (s : Shared) (i : Slot) (p : Ptr) : Reading where
  slot := i
  number := s.written i
  content := s.content i p

end Shared

namespace Party

/-- The party at instruction list `k` and position `v`. -/
def goto (x : Party) (k : List Instr) (v : Position) : Party := { x with prog := k, pos := v }

/-- The party waiting on `c`, with the mutex given back. -/
def suspend (x : Party) (c : Cond) : Party :=
  { x with status := .waiting c, pos := x.pos.release c.mutex }

end Party

/-- The position after an instruction, when it does not wait and does not throw. -/
def Instr.post (v : Position) : Instr → Position
  | .lock m => v.acquire m
  | .unlock m => v.release m
  | .check m => v.pass m
  | .register m => v.register m
  | .unregister m => v.unregister m
  | .timed_wait i => { v with due := some i }
  | .signal_data _ => { v with wrote := none }
  | .write i _ => { v with wrote := some i }
  | .read _ _ => { v with due := none }
  | .body _ | .ifStale _ | .ifLarger _ _ _ => v

/-! ### Steps -/

/-- The stream action runs to its end on the block of slot `i`, as the handle `h` finds it. What an
access through a pointer to no block does is not defined; here it counts as one that throws. -/
def fits (s : Shm) (i : Slot) (h : ShmHandle) (w : StreamM Unit) : Bool :=
  let p := (s.refresh i h).ptr
  (p.bind s.segment.object).isSome &&
    match w.run (open_ (s.segment.bytesAt p) (s.descriptors i).size_) with
    | .ok _ _ => true
    | .error _ _ => false

/-- A step of the machine: what a party does to itself, to what is shared, and to the mutexes. -/
abbrev Effect := Monitor.Effect Mutex Cond Shared Party

/-- The step of a party at instruction `i`, with `k` to follow. An exception unwinds the stack: the
descriptor's mutex is given back if it is held, and nothing else of the call is done. -/
def Instr.effect (x : Party) (k : List Instr) (s : Shared) (i : Instr) : Effect :=
  let y := x.goto k (i.post x.pos)
  match i with
  | .lock m => { shared := s, self := y, take := some m }
  | .unlock m => { shared := s, self := y, give := some m }
  | .check m =>
    if clients s.shm m ≠ 0 then { shared := s, self := x.suspend (.clients m), give := some m }
    else { shared := s, self := y }
  | .register m => { shared := { s with shm := addClients s.shm m 1 }, self := y }
  | .unregister m =>
    { shared := { s with shm := addClients s.shm m (-1) }
      self := y
      notify := if clients s.shm m + -1 = 0 then some (.clients m) else none }
  | .timed_wait i => { shared := s, self := x.suspend (.data i), give := some (.desc i) }
  | .signal_data i => { shared := s, self := y, notify := some (.data i) }
  | .body b =>
    let r := b.run s.shm x.handle
    { shared := { s with shm := r.1 }, self := { y with handle := r.2 } }
  | .ifStale i =>
    { shared := s
      self := if s.shm.stale i x.handle then x.goto (globally (.relookup i) ++ k) x.pos else y }
  | .ifLarger i size alloc =>
    if size.toNat > (s.shm.descriptors i).allocated_ then
      { shared := s, self := x.goto (globally (.grow i size alloc) ++ k) x.pos }
    else
      let d := (s.shm.descriptors i).recordSize size.toNat 0
      { shared := { s with shm := s.shm.setDescriptor i d }, self := y }
  | .write i msg =>
    let r := s.shm.serialize i x.handle msg.write
    if fits s.shm i x.handle msg.write then
      { shared := s.record r.2.1 i r.2.2.ptr, self := { y with handle := r.2.2 } }
    else
      { shared := { s with shm := r.2.1 }
        self := { x.goto [.unlock (.desc i)] { x.pos with regGlobal := false } with
          handle := r.2.2 } }
  | .read i r =>
    let h := (s.shm.deserialize i x.handle r).2
    if fits s.shm i x.handle r then
      { shared := s, self := { y with handle := h, log := x.log ++ [s.reading i h.ptr] } }
    else { shared := s, self := { x.goto [] .idle with handle := h } }

/-- What happens to a party: it makes a call, takes its next step, or its wait for data ends. -/
inductive Act
  | call (c : Call)
  | go
  | timeout

/-- A party that was notified goes on behind the instruction on which it waited. -/
def Party.resume (x : Party) (c : Cond) : Party :=
  match x.prog with
  | i :: k => { x.goto k (i.post (x.pos.acquire c.mutex)) with status := .ready }
  | [] => x

/-- The step of a party, if the act is possible. Waiting for data in vain ends the call. -/
def Party.effect (x : Party) (s : Shared) : Act → Option Effect
  | .call c =>
    match x.status, x.prog with
    | .ready, [] => some { shared := s, self := { x with prog := c.prog x.handle } }
    | _, _ => none
  | .go =>
    match x.status, x.prog with
    | .ready, i :: k => some (i.effect x k s)
    | .ready, [] | .waiting _, _ => none
    | .woken c, _ => some { shared := s, self := x.resume c, take := some c.mutex }
    | .timedOut i, _ =>
      some { shared := s
             self := { x.goto [.unlock (.desc i)] (x.pos.acquire (.desc i)) with status := .ready }
             take := some (.desc i) }
  | .timeout =>
    match x.status with
    | .waiting (.data i) => some { shared := s, self := { x with status := .timedOut i } }
    | _ => none

/-- A notification reaches the parties that wait on the condition. -/
def wake (c : Cond) (x : Party) : Party :=
  if x.status = .waiting c then { x with status := .woken c } else x

/-- The manager, the mutexes and the parties. -/
abbrev Machine (ι : Type*) := Monitor.Config ι Mutex Shared Party

namespace Machine

variable {ι : Type*}

/-- A new segment of `size` bytes, and parties without handles. -/
def init (size : ℕ) : Machine ι where
  shared := ⟨Shm.init size, fun _ => 0, fun _ => none⟩
  owner _ := none
  party _ := ⟨[], .ready, .idle, .null, []⟩

/-- One step: party `a.1` does `a.2`. What is not possible changes nothing. -/
def step [DecidableEq ι] (c : Machine ι) (a : ι × Act) : Machine ι :=
  Monitor.Config.step wake Party.effect c a.1 a.2

end Machine

end Sync

end MessageTransport
