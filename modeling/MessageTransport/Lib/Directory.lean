import Mathlib.Data.Set.Card
import Mathlib.Tactic

/-!
# Directories

A table of names: a partial map from names to handles in which no handle has two names. Its
capacity is the number of handles.

`Directory.Step` says what a directory does when it is asked to allocate or to find a name, to
resize or to remove the entry of a handle, or to forget everything. A resize may fail, and then the
entry is lost. Which free handle a new name gets is left open.
-/

/-- A partial map from names to handles, different names having different handles. -/
@[ext] structure Directory (N S : Type*) where
  slot : N → Option S
  inj : ∀ {m n i}, slot m = some i → slot n = some i → m = n

namespace Directory

variable {N S : Type*}

def empty : Directory N S := ⟨fun _ => none, fun h => by cases h⟩

/-- The names that have a handle. -/
def names (d : Directory N S) : Set N := {n | d.slot n ≠ none}

/-- The handle `i` has no name. -/
def Free (d : Directory N S) (i : S) : Prop := ∀ n, d.slot n ≠ some i

/-- Give the free handle `i` to the name `n`. -/
def insert [DecidableEq N] (d : Directory N S) (n : N) (i : S) (h : d.Free i) : Directory N S where
  slot := Function.update d.slot n (some i)
  inj := by
    intro m m' j hm hm'
    by_cases hmn : m = n <;> by_cases hmn' : m' = n
    · rw [hmn, hmn']
    · subst hmn
      rw [Function.update_self] at hm
      rw [Function.update_of_ne hmn'] at hm'
      cases hm
      exact absurd hm' (h m')
    · subst hmn'
      rw [Function.update_self] at hm'
      rw [Function.update_of_ne hmn] at hm
      cases hm'
      exact absurd hm (h m)
    · rw [Function.update_of_ne hmn] at hm
      rw [Function.update_of_ne hmn'] at hm'
      exact d.inj hm hm'

/-- Remove the name that has the handle `i`, if there is one. -/
def remove [DecidableEq S] (d : Directory N S) (i : S) : Directory N S where
  slot n := if d.slot n = some i then none else d.slot n
  inj := by
    intro m n j hm hn
    split_ifs at hm
    split_ifs at hn
    exact d.inj hm hn

/-- What a directory can be asked. -/
inductive Request (N S : Type*)
  | allocate (n : N)
  | find (n : N)
  | resize (i : S)
  | remove (i : S)
  | clear

/-- `Step d a r d'`: the directory `d` answers the request `a` with the handle `r`, or with none,
and is `d'` afterwards. -/
inductive Step [DecidableEq N] [DecidableEq S] :
    Directory N S → Request N S → Option S → Directory N S → Prop
  /-- A name keeps the handle it has. -/
  | present {d : Directory N S} {n : N} {i : S} (h : d.slot n = some i) :
    Step d (.allocate n) (some i) d
  /-- A new name gets a handle that no name has. -/
  | new {d : Directory N S} {n : N} {i : S} (h : d.slot n = none) (hi : d.Free i) :
    Step d (.allocate n) (some i) (d.insert n i hi)
  /-- As many names are there as handles. -/
  | full {d : Directory N S} {n : N} (h : d.slot n = none) (hf : d.names.ncard = Nat.card S) :
    Step d (.allocate n) none d
  | find (d : Directory N S) (n : N) : Step d (.find n) (d.slot n) d
  | resized (d : Directory N S) (i : S) : Step d (.resize i) (some i) d
  /-- A resize that fails. -/
  | lost (d : Directory N S) (i : S) : Step d (.resize i) none (d.remove i)
  | removed (d : Directory N S) (i : S) : Step d (.remove i) none (d.remove i)
  | cleared (d : Directory N S) : Step d .clear none empty

section Lemmas

variable {d : Directory N S} {n : N} {i : S}

theorem slot_empty (n : N) : (empty : Directory N S).slot n = none := rfl

/-- A directory in which no name has a handle. -/
theorem eq_empty (h : ∀ n i, d.slot n ≠ some i) : d = empty := by
  ext n i
  rw [slot_empty]
  exact ⟨fun hi => absurd hi (h n i), fun hi => by cases hi⟩

theorem slot_insert_iff [DecidableEq N] {j : S} (hi : d.Free i) {m : N} :
    (d.insert n i hi).slot m = some j ↔ (m = n ∧ j = i) ∨ (m ≠ n ∧ d.slot m = some j) := by
  by_cases hm : m = n
  · subst hm
    simp [insert, eq_comm]
  · simp [insert, hm]

theorem slot_remove_iff [DecidableEq S] {j : S} :
    (d.remove i).slot n = some j ↔ j ≠ i ∧ d.slot n = some j := by
  simp only [remove]
  split_ifs with h
  · simp only [h, Option.some.injEq, false_iff, not_and]
    exact fun hj hij => hj hij.symm
  · refine ⟨fun hj => ⟨?_, hj⟩, fun hj => hj.2⟩
    rintro rfl
    exact h hj

/-! ### Capacity -/

/-- There are as many names as handles that are taken. -/
theorem ncard_names (d : Directory N S) : d.names.ncard = {i | ¬ d.Free i}.ncard := by
  refine Set.ncard_congr (fun n hn => (d.slot n).get (Option.isSome_iff_ne_none.2 hn)) ?_ ?_ ?_
  · exact fun n hn hfree => hfree n (Option.some_get _).symm
  · intro m n hm hn hmn
    refine d.inj (Option.some_get (Option.isSome_iff_ne_none.2 hm)).symm ?_
    rw [hmn, Option.some_get]
  · intro i hi
    obtain ⟨n, hn⟩ := not_forall.1 hi
    have hs : d.slot n = some i := not_not.1 hn
    refine ⟨n, ?_, ?_⟩
    · show d.slot n ≠ none
      rw [hs]
      exact Option.some_ne_none i
    · simp only [hs, Option.get_some]

variable [Finite S]

/-- A directory is full when every handle is taken. -/
theorem ncard_names_eq_iff : d.names.ncard = Nat.card S ↔ ∀ i, ¬ d.Free i := by
  rw [d.ncard_names, ← Set.eq_univ_iff_ncard, Set.eq_univ_iff_forall]
  rfl

end Lemmas

end Directory
