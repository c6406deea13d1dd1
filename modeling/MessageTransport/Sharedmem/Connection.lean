import MessageTransport.Sharedmem.Block

/-!
# Connecting to the segment

What publishers and subscribers share: the pointers a process keeps to the shared segment and to the
block manager in it, and the steps by which it opens the segment and looks the manager up.

A mapping of the segment is known by a number. A pointer may be used as long as its mapping is open;
`Connection.isOpen` is that check for both pointers.
-/

namespace MessageTransport

/-- How `new managed_shared_memory(open_only, name)` ends. -/
inductive OpenResult
  | opened
  | bad_alloc
  /-- The segment does not exist. -/
  | interprocess_exception
  deriving DecidableEq

/-- The ways a call of a client is left without returning. -/
inductive Exn
  | interprocess_exception
  | runtime_error (what : String)
  /-- A pointer was followed that points to nothing. -/
  | undefined
  deriving DecidableEq

/-- How the steps of connecting end. -/
structure Start where
  open_ : OpenResult
  /-- There is a "Manager" in the segment. -/
  manager : Bool
  deriving DecidableEq

/-- Both steps succeed. -/
def Start.Good (s : Start) : Prop := s.open_ = .opened ∧ s.manager = true

/-- The mappings of a process, and the pointers into them. -/
structure Connection where
  segment_ : Option ℕ
  /-- `none` also stands for a pointer that was never set. -/
  blockmgr_ : Option ℕ
  /-- The mappings that are open. -/
  mapped : List ℕ
  /-- The number of the next mapping. -/
  next : ℕ

namespace Connection

def init : Connection := ⟨none, none, [], 0⟩

/-- A pointer into an open mapping. -/
def pointsTo (c : Connection) : Option ℕ → Bool
  | some a => a ∈ c.mapped
  | none => false

/-- `*segment_` and `*blockmgr_` may be used. -/
def isOpen (c : Connection) : Bool := c.pointsTo c.segment_ && c.pointsTo c.blockmgr_

/-- `segment_ = new managed_shared_memory(open_only, name)`. -/
def map (c : Connection) : Connection :=
  { c with segment_ := some c.next, mapped := c.next :: c.mapped, next := c.next + 1 }

/-- `delete segment_; segment_ = NULL`. -/
def close (c : Connection) : Connection :=
  { c with segment_ := none, mapped := c.mapped.filter fun a => some a ≠ c.segment_ }

/-- Open the segment and find the manager: whether both were there. A `bad_alloc` is caught, an
`interprocess_exception` is not. -/
def connect (c : Connection) (s : Start) : Except Exn Bool × Connection :=
  match s.open_ with
  | .bad_alloc => (.ok false, { c with segment_ := none })
  | .interprocess_exception => (.error .interprocess_exception, c)
  | .opened =>
    let c := c.map
    let c := { c with blockmgr_ := if s.manager then c.segment_ else none }
    if c.blockmgr_.isNone then (.ok false, c.close) else (.ok true, c)

/-- **Connecting.** It succeeds if both steps do, and then the pointers may be used. -/
theorem connect_good (c : Connection) {s : Start} (h : s.Good) :
    ∃ c', c.connect s = (.ok true, c') ∧ c'.isOpen = true ∧ c'.segment_ ≠ none := by
  obtain ⟨open_, manager⟩ := s
  obtain ⟨rfl, rfl⟩ := h
  exact ⟨_, rfl, by simp [isOpen, pointsTo, map], nofun⟩

/-- Otherwise it fails, with or without an exception, and leaves no segment. -/
theorem connect_bad (c : Connection) {s : Start} (h : ¬ s.Good) (hc : c.segment_ = none) :
    ∃ r c', c.connect s = (r, c') ∧ (r = .ok false ∨ r = .error .interprocess_exception) ∧
      c'.segment_ = none := by
  obtain ⟨open_, manager⟩ := s
  cases open_ with
  | bad_alloc => exact ⟨_, _, rfl, .inl rfl, rfl⟩
  | interprocess_exception => exact ⟨_, _, rfl, .inr rfl, hc⟩
  | opened =>
    cases manager with
    | true => exact absurd ⟨rfl, rfl⟩ h
    | false => exact ⟨_, _, rfl, .inl rfl, rfl⟩

end Connection

end MessageTransport
