import MessageTransport.Sharedmem.Receiving
import MessageTransport.Sharedmem.World

/-!
# Indexing the descriptors

The operations once more, with every `descriptors[shm.handle]` checked: an operation with an index
that does not exist has no result. An empty handle has such an index, and the tests that keep it
away from the table are tests of its pointer. `resetBlock` takes the mutex of the descriptor before
it makes this test.

`indexed_iff`: over all calls, as callers make them, every index is in range, and to reset or to
reallocate an invalid handle changes nothing, if and only if no empty handle is reset.
-/

namespace MessageTransport

namespace Shm

variable (m : Shm) (h : ShmHandle)

/-- `resetBlock(segment, shm)`. -/
def resetBlockAt : Option (Shm × ShmHandle) := h.slot.map fun i => m.resetBlock i h

/-- `reallocateBlock(segment, shm, size)`. -/
def reallocateBlockAt (size : ℕ) (alloc : Bool) : Option (Shm × ShmHandle) :=
  if !h.is_valid then some (m, h) else h.slot.map fun i => m.reallocateSlot i h size alloc

/-- `serialize(segment, dest, msg)`. -/
def serializeAt (w : StreamM Unit) : Option (Option Fault × Shm × ShmHandle) :=
  h.slot.map fun i => m.serialize i h w

/-- `publish_msg(message)`. -/
def publish_msgAt (msg : Message) (alloc : Bool) : Option (Option Fault × Shm × ShmHandle) :=
  if !h.is_valid then some (none, m, h)
  else (m.reallocateBlockAt h msg.serlen.toNat alloc).bind fun r =>
    if r.2.is_valid then r.1.serializeAt r.2 msg.write else some (none, r.1, r.2)

/-- `wait_data(segment, src, msg)`: the handle afterwards. -/
def wait_dataAt (signalled alloc : Bool) : Option ShmHandle :=
  h.slot.map fun i => (m.wait_data i h .empty signalled alloc).2

end Shm

/-- The table, the handles of its callers, and those of the receive threads that were started. -/
structure Callers (κ τ : Type*) where
  shm : Shm
  handle : κ → ShmHandle
  thread : τ → Option ShmHandle

namespace Callers

variable {κ τ : Type*}

/-- A new segment, callers with empty handles, and no thread. -/
def init (size : ℕ) : Callers κ τ := ⟨Shm.init size, fun _ => .null, fun _ => none⟩

/-- The calls. Any handle may be passed to any of them, but `wait_data` is called by a receive
thread, with the handle that is its own. -/
inductive Call (κ τ : Type*)
  | allocateBlock (k : κ) (name : CString) (size : UInt32) (alloc : Bool)
  | findHandle (k : κ) (name : CString)
  | reallocateBlock (k : κ) (size : UInt32) (alloc : Bool)
  | resetBlock (k : κ)
  | publish_msg (k : κ) (msg : Message) (alloc : Bool)
  /-- The thread is started if `findHandle` finds the topic. -/
  | startReceiving (t : τ) (name : CString)
  | wait_data (t : τ) (signalled alloc : Bool)
  | resetAllBlocks

variable [DecidableEq κ] [DecidableEq τ]

/-- The table and the handle of a caller after a call. -/
def setHandle (w : Callers κ τ) (k : κ) (r : Shm × ShmHandle) : Callers κ τ :=
  { w with shm := r.1, handle := Function.update w.handle k r.2 }

/-- The handle of a thread after a call. -/
def setThread (w : Callers κ τ) (t : τ) (h : ShmHandle) : Callers κ τ :=
  { w with thread := Function.update w.thread t (some h) }

/-- A call, if all its indices are in range. -/
def run (w : Callers κ τ) : Call κ τ → Option (Callers κ τ)
  | .allocateBlock k name size alloc =>
    match w.shm.allocateBlock name size.toNat alloc with
    | (m, some h) => some (w.setHandle k (m, h))
    | (m, none) => some { w with shm := m }
  | .findHandle k name => some (w.setHandle k (w.shm, w.shm.findHandle name))
  | .reallocateBlock k size alloc =>
    (w.shm.reallocateBlockAt (w.handle k) size.toNat alloc).map (w.setHandle k)
  | .resetBlock k => (w.shm.resetBlockAt (w.handle k)).map (w.setHandle k)
  | .publish_msg k msg alloc =>
    (w.shm.publish_msgAt (w.handle k) msg alloc).map fun r => w.setHandle k r.2
  | .startReceiving t name =>
    if (w.thread t).isNone ∧ (w.shm.findHandle name).is_valid then
      some (w.setThread t (w.shm.findHandle name))
    else some w
  | .wait_data t signalled alloc =>
    match w.thread t with
    | some h => (w.shm.wait_dataAt h signalled alloc).map (w.setThread t)
    | none => some w
  | .resetAllBlocks => some { w with shm := w.shm.resetAllBlocks }

/-- The state after a call. A call with an index out of range is left out. -/
def step (w : Callers κ τ) (c : Call κ τ) : Callers κ τ := (w.run c).getD w

/-- To reset or to reallocate an invalid handle changes nothing. -/
def Idle (w : Callers κ τ) : Call κ τ → Prop
  | .resetBlock k => (w.handle k).is_valid = false → w.run (.resetBlock k) = some w
  | .reallocateBlock k size alloc =>
    (w.handle k).is_valid = false → w.run (.reallocateBlock k size alloc) = some w
  | _ => True

/-- The call indexes in range, and does nothing with an invalid handle. -/
def Indexed (w : Callers κ τ) (c : Call κ τ) : Prop := (w.run c).isSome = true ∧ w.Idle c

/-- A handle that is reset is not the empty one. -/
def Nonempty (w : Callers κ τ) : Call κ τ → Prop
  | .resetBlock k => w.handle k ≠ .null
  | _ => True

end Callers

/-! ### The handles -/

/-- A handle is the empty one, or its index is in range. -/
def ShmHandle.Proper (h : ShmHandle) : Prop := h = .null ∨ h.slot.isSome = true

namespace ShmHandle

variable {h : ShmHandle}

theorem proper_null : null.Proper := .inl rfl

theorem proper_of (i : Slot) (c : ℕ) (p : Ptr) : (of i c p).Proper :=
  .inr (by rw [slot_of, Option.isSome_some])

/-- The index of a handle that is not empty. -/
theorem Proper.slot_iff (hh : h.Proper) : (∃ i, h.slot = some i) ↔ h ≠ .null := by
  rw [← Option.isSome_iff_exists]
  rcases hh with rfl | hsome
  · decide
  · refine iff_of_true hsome ?_
    rintro rfl
    revert hsome
    decide

/-- A valid handle is not the empty one. -/
theorem Proper.slot_of_valid (hh : h.Proper) (hv : h.is_valid = true) : ∃ i, h.slot = some i := by
  refine hh.slot_iff.2 ?_
  rintro rfl
  cases hv

end ShmHandle

namespace Shm

variable {m : Shm} {h : ShmHandle} {i : Slot}

theorem proper_refresh (hi : h.slot = some i) : (m.refresh i h).Proper :=
  .inr (by rw [refresh_slot, hi, Option.isSome_some])

theorem proper_findHandle (m : Shm) (name : CString) : (m.findHandle name).Proper := by
  rw [findHandle]
  cases m.slotOf name with
  | none => exact ShmHandle.proper_null
  | some i => exact ShmHandle.proper_of ..

theorem proper_allocateBlock {m' : Shm} {name : CString} {size : ℕ} {alloc : Bool}
    (heq : m.allocateBlock name size alloc = (m', some h)) : h.Proper := by
  rw [allocateBlock] at heq
  cases hslot : m.slotOf name with
  | some i =>
    simp only [hslot, reconnect] at heq
    split_ifs at heq
    · split at heq <;> cases heq
      exact ShmHandle.proper_of ..
    · cases heq
      exact ShmHandle.proper_of ..
  | none =>
    cases hfree : m.freeSlot with
    | some i =>
      simp only [hslot, hfree, claim] at heq
      split at heq <;> cases heq
      exact ShmHandle.proper_of ..
    | none =>
      simp only [hslot, hfree] at heq
      cases heq
      exact ShmHandle.proper_null

/-- A handle keeps its index when its block is replaced, or it is emptied. -/
theorem proper_reallocateSlot (hi : h.slot = some i) (size : ℕ) (alloc : Bool) :
    (m.reallocateSlot i h size alloc).2.Proper := by
  have href := proper_refresh (m := m) hi
  rw [reallocateSlot]
  split_ifs
  · rw [grow]
    dsimp only
    split
    · exact .inr (show (m.refresh i h).slot.isSome = true by
        rw [refresh_slot, hi, Option.isSome_some])
    · exact ShmHandle.proper_null
  · exact href

/-- `reallocateBlock` indexes in range, whatever the handle. -/
theorem reallocateBlockAt_cases (hh : h.Proper) (size : ℕ) (alloc : Bool) :
    ∃ r, m.reallocateBlockAt h size alloc = some r ∧ r.2.Proper ∧
      (h.is_valid = false → r = (m, h)) := by
  rw [reallocateBlockAt]
  cases hv : h.is_valid with
  | false => exact ⟨(m, h), rfl, hh, fun _ => rfl⟩
  | true =>
    obtain ⟨i, hi⟩ := hh.slot_of_valid hv
    exact ⟨m.reallocateSlot i h size alloc, by rw [hi]; rfl, proper_reallocateSlot hi .., nofun⟩

/-- `resetBlock` indexes in range if the handle is not empty. -/
theorem resetBlockAt_cases (hh : h.Proper) (hne : h ≠ .null) :
    ∃ r, m.resetBlockAt h = some r ∧ r.2.Proper ∧ (h.is_valid = false → r = (m, h)) := by
  obtain ⟨i, hi⟩ := hh.slot_iff.2 hne
  refine ⟨m.resetBlock i h, by rw [resetBlockAt, hi]; rfl, ?_, fun hv => ?_⟩
  · rw [resetBlock]
    split_ifs
    · exact ShmHandle.proper_null
    · exact hh
  · rw [resetBlock, hv, if_neg (by decide)]

/-- `publish_msg` indexes in range, whatever the handle. -/
theorem publish_msgAt_cases (hh : h.Proper) (msg : Message) (alloc : Bool) :
    ∃ r, m.publish_msgAt h msg alloc = some r ∧ r.2.2.Proper := by
  rw [publish_msgAt]
  cases hv : h.is_valid with
  | false => exact ⟨(none, m, h), rfl, hh⟩
  | true =>
    obtain ⟨r, heq, hr, -⟩ := reallocateBlockAt_cases (m := m) hh msg.serlen.toNat alloc
    simp only [heq, Option.bind_some, Bool.not_true, Bool.false_eq_true, if_false]
    cases hv' : r.2.is_valid with
    | false => exact ⟨(none, r.1, r.2), by simp, hr⟩
    | true =>
      obtain ⟨i, hi⟩ := hr.slot_of_valid hv'
      refine ⟨r.1.serialize i r.2 msg.write, by simp [serializeAt, hi], ?_⟩
      rw [serialize_handle]
      exact proper_refresh hi

/-- `wait_data` indexes in range, and so it will with the handle it leaves. -/
theorem wait_dataAt_cases (hi : h.slot = some i) (signalled alloc : Bool) :
    ∃ h', m.wait_dataAt h signalled alloc = some h' ∧ h'.slot = some i := by
  refine ⟨(m.wait_data i h .empty signalled alloc).2, by rw [wait_dataAt, hi]; rfl, ?_⟩
  rw [wait_data]
  cases signalled with
  | false => exact hi
  | true =>
    have hhandle := deserialize_handle (m := m) (i := i) h (RawMessage.empty.read alloc)
    rw [if_neg (by decide)]
    split <;> rename_i heq <;> rw [heq] at hhandle <;> dsimp only at hhandle ⊢ <;>
      rw [hhandle, refresh_slot, hi]

end Shm

/-! ### Calls -/

namespace Callers

variable {κ τ : Type*} [DecidableEq κ] [DecidableEq τ] {w : Callers κ τ}

/-- The handles of callers are empty or in range, those of threads in range. -/
structure Inv (w : Callers κ τ) : Prop where
  handle : ∀ k, (w.handle k).Proper
  thread : ∀ t h, w.thread t = some h → ∃ i, h.slot = some i

omit [DecidableEq τ] in
theorem Inv.setHandle (hw : w.Inv) (k : κ) {r : Shm × ShmHandle} (hr : r.2.Proper) :
    (w.setHandle k r).Inv := by
  refine ⟨fun j => ?_, hw.thread⟩
  simp only [Callers.setHandle, Function.update_apply]
  split_ifs
  · exact hr
  · exact hw.handle j

omit [DecidableEq κ] in
theorem Inv.setThread (hw : w.Inv) (t : τ) {h : ShmHandle} {i : Slot} (hi : h.slot = some i) :
    (w.setThread t h).Inv := by
  refine ⟨hw.handle, fun u h' hu => ?_⟩
  simp only [Callers.setThread, Function.update_apply] at hu
  split_ifs at hu
  · cases hu
    exact ⟨i, hi⟩
  · exact hw.thread u h' hu

/-- **One call.** Unless the empty handle is reset, all indices are in range. -/
theorem Inv.run (hw : w.Inv) {c : Call κ τ} (h : w.Nonempty c) :
    ∃ w', w.run c = some w' ∧ w'.Inv ∧ w.Idle c := by
  cases c with
  | allocateBlock k name size alloc =>
    rw [Callers.run]
    cases hr : w.shm.allocateBlock name size.toNat alloc with
    | mk m h =>
      cases h with
      | some h =>
        exact ⟨_, rfl, hw.setHandle k (Shm.proper_allocateBlock hr), trivial⟩
      | none => exact ⟨_, rfl, ⟨hw.handle, hw.thread⟩, trivial⟩
  | findHandle k name =>
    exact ⟨_, rfl, hw.setHandle k (Shm.proper_findHandle ..), trivial⟩
  | reallocateBlock k size alloc =>
    obtain ⟨r, heq, hr, hsame⟩ :=
      Shm.reallocateBlockAt_cases (m := w.shm) (hw.handle k) size.toNat alloc
    have hrun : w.run (.reallocateBlock k size alloc) = some (w.setHandle k r) := by
      rw [Callers.run, heq, Option.map_some]
    refine ⟨_, hrun, hw.setHandle k hr, fun hv => ?_⟩
    rw [hrun, hsame hv, Callers.setHandle, Function.update_eq_self]
  | resetBlock k =>
    obtain ⟨r, heq, hr, hsame⟩ := Shm.resetBlockAt_cases (m := w.shm) (hw.handle k) h
    have hrun : w.run (.resetBlock k) = some (w.setHandle k r) := by
      rw [Callers.run, heq, Option.map_some]
    refine ⟨_, hrun, hw.setHandle k hr, fun hv => ?_⟩
    rw [hrun, hsame hv, Callers.setHandle, Function.update_eq_self]
  | publish_msg k msg alloc =>
    obtain ⟨r, heq, hr⟩ := Shm.publish_msgAt_cases (m := w.shm) (hw.handle k) msg alloc
    have hrun : w.run (.publish_msg k msg alloc) = some (w.setHandle k r.2) := by
      rw [Callers.run, heq, Option.map_some]
    exact ⟨_, hrun, hw.setHandle k hr, trivial⟩
  | startReceiving t name =>
    rw [Callers.run]
    split_ifs with hstart
    · obtain ⟨i, hi⟩ := (Shm.proper_findHandle w.shm name).slot_of_valid hstart.2
      exact ⟨_, rfl, hw.setThread t hi, trivial⟩
    · exact ⟨w, rfl, hw, trivial⟩
  | wait_data t signalled alloc =>
    cases ht : w.thread t with
    | none =>
      have hrun : w.run (.wait_data t signalled alloc) = some w := by rw [Callers.run, ht]
      exact ⟨w, hrun, hw, trivial⟩
    | some h =>
      obtain ⟨i, hi⟩ := hw.thread t h ht
      obtain ⟨h', heq, hi'⟩ := Shm.wait_dataAt_cases (m := w.shm) hi signalled alloc
      have hrun : w.run (.wait_data t signalled alloc) = some (w.setThread t h') := by
        simp only [Callers.run, ht, heq, Option.map_some]
      exact ⟨_, hrun, hw.setThread t hi', trivial⟩
  | resetAllBlocks => exact ⟨_, rfl, ⟨hw.handle, hw.thread⟩, trivial⟩

/-- To reset the empty handle is to index out of range. -/
theorem run_resetBlock_null {k : κ} (hk : w.handle k = .null) : w.run (.resetBlock k) = none := by
  rw [run, Shm.resetBlockAt, hk]
  rfl

/-- The invariant is kept by every call, one with an index out of range left out. -/
theorem Inv.step (hw : w.Inv) (c : Call κ τ) :
    (w.Indexed c ↔ w.Nonempty c) ∧ (w.step c).Inv := by
  by_cases h : w.Nonempty c
  · obtain ⟨w', hrun, hw', hidle⟩ := hw.run h
    refine ⟨iff_of_true ⟨by rw [hrun]; rfl, hidle⟩ h, ?_⟩
    rwa [Callers.step, hrun]
  · cases c with
    | resetBlock k =>
      have hrun := run_resetBlock_null (not_not.1 h)
      refine ⟨iff_of_false (fun hindexed => ?_) h, ?_⟩
      · rw [Indexed, hrun] at hindexed
        cases hindexed.1
      · rwa [Callers.step, hrun]
    | _ => exact absurd trivial h

omit [DecidableEq κ] [DecidableEq τ] in
theorem inv_init (size : ℕ) : (init size : Callers κ τ).Inv := ⟨fun _ => .inl rfl, nofun⟩

/-- **Over all calls, whatever the handles, every index into the descriptors is in range, and to
reset or to reallocate an invalid handle changes nothing,** if and only if no empty handle is
reset. -/
theorem indexed_iff (size : ℕ) (cs : List (Call κ τ)) :
    Run.Along step Indexed (init size : Callers κ τ) cs ↔
      Run.Along step Nonempty (init size : Callers κ τ) cs :=
  Run.along_congr_of_inv step Inv (fun _ c hw => hw.step c) (inv_init size)

/-- A handle that is reset twice: the second time it is empty. -/
theorem not_indexed_resetTwice :
    ¬ Run.Along step Indexed (init 0 : Callers Unit Unit)
        [.allocateBlock () topicA 16 true, .resetBlock (), .resetBlock ()] := by
  intro h
  have hrun := h.2.2.1.1
  rw [run_resetBlock_null (by decide +kernel)] at hrun
  cases hrun

end Callers

end MessageTransport
