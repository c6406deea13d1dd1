import Mathlib.Tactic

/-!
# Waiting for deadlines

The outstanding waits of a timer with asynchronous waits: those whose handlers have not run. A wait
is made for a time. It stays pending until that time has come or it is cancelled, and either way its
handler runs once, with the cause as its argument; the handlers of several waits run in any order.

* `length_expire`, `length_cancel`, `length_arm`: a wait is outstanding until its handler runs;
* `finish_cases`: the handler that runs is that of an outstanding wait that is not pending;
* `finish_cancel_singleton`: to cancel a wait does not keep its handler from running;
* `Uncancelled.expire`, `Uncancelled.arm`, `Uncancelled.finish`: who never cancels a pending wait
  sees none that was cancelled.
-/

/-- What became of a wait. -/
inductive WaitStatus
  | pending
  /-- The time has come. -/
  | expired
  | cancelled
  deriving DecidableEq

/-- A wait for a time. -/
structure Wait (T : Type*) where
  expiry : T
  status : WaitStatus
  deriving DecidableEq

/-- The outstanding waits. -/
abbrev Waits (T : Type*) := List (Wait T)

namespace Waits

variable {T : Type*}

/-- A new wait. -/
def arm (ws : Waits T) (expiry : T) : Waits T := ws ++ [⟨expiry, .pending⟩]

/-- All pending waits become what `status` says. -/
def settle (ws : Waits T) (status : WaitStatus) : Waits T :=
  ws.map fun w => if w.status = .pending then { w with status } else w

/-- The time has come. -/
def expire (ws : Waits T) : Waits T := ws.settle .expired

/-- The pending waits are cancelled. -/
def cancel (ws : Waits T) : Waits T := ws.settle .cancelled

/-- The handler of a wait runs, if the wait is not pending. -/
def finish (ws : Waits T) (n : ℕ) : Option (Wait T × Waits T) :=
  match ws[n]? with
  | some w => if w.status = .pending then none else some (w, ws.eraseIdx n)
  | none => none

/-- No wait was cancelled, and all are for the time `t`. -/
def Uncancelled (ws : Waits T) (t : T) : Prop :=
  ∀ w ∈ ws, w.expiry = t ∧ w.status ≠ .cancelled

variable {ws ws' : Waits T} {w : Wait T} {n : ℕ} {t : T}

@[simp] theorem length_arm (ws : Waits T) (t : T) : (ws.arm t).length = ws.length + 1 := by
  simp [arm]

@[simp] theorem length_expire (ws : Waits T) : ws.expire.length = ws.length := List.length_map ..

@[simp] theorem length_cancel (ws : Waits T) : ws.cancel.length = ws.length := List.length_map ..

theorem finish_cases (h : ws.finish n = some (w, ws')) :
    w ∈ ws ∧ w.status ≠ .pending ∧ ws'.length + 1 = ws.length ∧ ws' ⊆ ws := by
  rw [finish] at h
  cases hw : ws[n]? with
  | none =>
    rw [hw] at h
    cases h
  | some v =>
    simp only [hw] at h
    split_ifs at h with hv
    cases h
    obtain ⟨hn, -⟩ := List.getElem?_eq_some_iff.1 hw
    refine ⟨List.mem_of_getElem? hw, hv, ?_, List.eraseIdx_subset⟩
    rw [List.length_eraseIdx, if_pos hn]
    omega

/-- Of a wait that was cancelled, or has expired before, the handler runs. -/
theorem finish_cancel_singleton (w : Wait T) :
    ∃ v, (cancel [w]).finish 0 = some (v, []) := by
  obtain ⟨expiry, status⟩ := w
  cases status with
  | pending => exact ⟨⟨expiry, .cancelled⟩, rfl⟩
  | expired => exact ⟨⟨expiry, .expired⟩, rfl⟩
  | cancelled => exact ⟨⟨expiry, .cancelled⟩, rfl⟩

theorem uncancelled_nil : Uncancelled ([] : Waits T) t := by simp [Uncancelled]

theorem Uncancelled.expire (h : ws.Uncancelled t) : ws.expire.Uncancelled t := by
  intro w hw
  obtain ⟨v, hv, rfl⟩ := List.mem_map.1 hw
  have hv' := h v hv
  split_ifs
  · exact ⟨hv'.1, by simp⟩
  · exact hv'

theorem Uncancelled.arm (h : ws.Uncancelled t) : (ws.arm t).Uncancelled t := by
  intro w hw
  rcases List.mem_append.1 hw with hw | hw
  · exact h w hw
  · rw [List.mem_singleton.1 hw]
    exact ⟨rfl, by simp⟩

theorem Uncancelled.finish (h : ws.Uncancelled t) (hf : ws.finish n = some (w, ws')) :
    w.expiry = t ∧ w.status = .expired ∧ ws'.Uncancelled t := by
  obtain ⟨hw, hstatus, -, hsub⟩ := finish_cases hf
  obtain ⟨hexpiry, hcancel⟩ := h w hw
  refine ⟨hexpiry, ?_, fun v hv => h v (hsub hv)⟩
  cases hs : w.status with
  | pending => exact absurd hs hstatus
  | expired => rfl
  | cancelled => exact absurd hs hcancel

end Waits
