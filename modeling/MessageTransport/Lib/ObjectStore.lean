import Mathlib.Tactic

/-!
# Stores of named objects

A memory segment with a directory: every object lies at an address of its own and is registered
under a name. Addresses of constructed objects are fresh, so an address never denotes two objects,
not even one after the other.

`ObjectStore.WF` is the invariant of the operations: names and live addresses are in bijection and
all addresses in use lie below the next fresh one.
-/

/-- A directory from names to addresses, the live objects by address, and an address that was
never used. -/
structure ObjectStore (N O : Type*) where
  named : N → Option ℕ
  object : ℕ → Option O
  next : ℕ

namespace ObjectStore

variable {N O : Type*}

/-- The empty segment. -/
def empty : ObjectStore N O := ⟨fun _ => none, fun _ => none, 0⟩

/-- The object registered under a name. -/
def lookup (g : ObjectStore N O) (n : N) : Option O := (g.named n).bind g.object

section Operations

variable [DecidableEq N]

/-- Remove the object registered under `n`, if there is one. -/
def destroy (g : ObjectStore N O) (n : N) : ObjectStore N O :=
  match g.named n with
  | none => g
  | some a => { g with named := Function.update g.named n none
                       object := Function.update g.object a none }

/-- Register a new object under `n`. -/
def construct (g : ObjectStore N O) (n : N) (o : O) : ObjectStore N O :=
  { named := Function.update g.named n (some g.next)
    object := Function.update g.object g.next (some o)
    next := g.next + 1 }

end Operations

/-- Replace the object at a live address. -/
def store (g : ObjectStore N O) (a : ℕ) (o : O) : ObjectStore N O :=
  { g with object := Function.update g.object a (some o) }

/-- Names and live objects correspond to each other, at addresses below `next`. -/
structure WF (g : ObjectStore N O) : Prop where
  live : ∀ {n a}, g.named n = some a → ∃ o, g.object a = some o
  home : ∀ {a o}, g.object a = some o → ∃ n, g.named n = some a
  inj : ∀ {m n a}, g.named m = some a → g.named n = some a → m = n
  fresh : ∀ {n a}, g.named n = some a → a < g.next

theorem wf_empty : (empty : ObjectStore N O).WF where
  live := by intro n a h; cases h
  home := by intro a o h; cases h
  inj := by intro m n a h; cases h
  fresh := by intro n a h; cases h

theorem lookup_eq {g : ObjectStore N O} {n : N} {a : ℕ} (h : g.named n = some a) :
    g.lookup n = g.object a := by
  rw [lookup, h, Option.bind_some]

theorem WF.lookup_none_iff {g : ObjectStore N O} (h : g.WF) {n : N} :
    g.lookup n = none ↔ g.named n = none := by
  cases hn : g.named n with
  | none => simp [lookup, hn]
  | some a =>
    obtain ⟨o, ho⟩ := h.live hn
    simp [lookup, hn, ho]

/-! ### Destroying -/

section Destroy

variable [DecidableEq N] (g : ObjectStore N O) {m n : N}

@[simp] theorem destroy_next : (g.destroy n).next = g.next := by
  unfold destroy; split <;> rfl

@[simp] theorem destroy_named_self : (g.destroy n).named n = none := by
  unfold destroy; split
  · assumption
  · exact Function.update_self ..

theorem destroy_named_ne (h : m ≠ n) : (g.destroy n).named m = g.named m := by
  unfold destroy; split
  · rfl
  · exact Function.update_of_ne h ..

theorem destroy_of_none (h : g.named n = none) : g.destroy n = g := by
  unfold destroy; rw [h]

variable {g}

/-- The objects of other names stay where they are. -/
theorem WF.destroy_object (hg : g.WF) {a : ℕ} (ha : g.named m = some a) (h : m ≠ n) :
    (g.destroy n).object a = g.object a := by
  unfold destroy; split
  · rfl
  · rename_i b hb
    refine Function.update_of_ne ?_ ..
    rintro rfl
    exact h (hg.inj ha hb)

/-- An object that is left was there before, under a name other than the one destroyed. -/
theorem of_destroy_object {a : ℕ} {o : O} (h : (g.destroy n).object a = some o) :
    g.object a = some o ∧ g.named n ≠ some a := by
  unfold destroy at h
  cases hn : g.named n with
  | none => rw [hn] at h; exact ⟨h, by simp⟩
  | some b =>
    simp only [hn] at h
    by_cases hab : a = b
    · subst hab
      rw [Function.update_self] at h
      cases h
    · rw [Function.update_of_ne hab] at h
      exact ⟨h, fun hb => hab (Option.some.inj hb).symm⟩

theorem WF.destroy (hg : g.WF) (n : N) : (g.destroy n).WF where
  live := by
    intro m a hm
    by_cases h : m = n
    · subst h; simp at hm
    · rw [destroy_named_ne g h] at hm
      rw [hg.destroy_object hm h]
      exact hg.live hm
  home := by
    intro a o ho
    obtain ⟨ho, hne⟩ := of_destroy_object ho
    obtain ⟨m, hm⟩ := hg.home ho
    have hmn : m ≠ n := by rintro rfl; exact hne hm
    exact ⟨m, by rwa [destroy_named_ne g hmn]⟩
  inj := by
    intro m m' a hm hm'
    have h : m ≠ n := by rintro rfl; simp at hm
    have h' : m' ≠ n := by rintro rfl; simp at hm'
    rw [destroy_named_ne g h] at hm
    rw [destroy_named_ne g h'] at hm'
    exact hg.inj hm hm'
  fresh := by
    intro m a hm
    have h : m ≠ n := by rintro rfl; simp at hm
    rw [destroy_named_ne g h] at hm
    rw [destroy_next]
    exact hg.fresh hm

theorem destroy_lookup_self : (g.destroy n).lookup n = none := by simp [lookup]

theorem WF.destroy_lookup_ne (hg : g.WF) (h : m ≠ n) : (g.destroy n).lookup m = g.lookup m := by
  unfold lookup
  rw [destroy_named_ne g h]
  cases hm : g.named m with
  | none => rfl
  | some a => exact hg.destroy_object hm h

end Destroy

/-! ### Constructing -/

section Construct

variable [DecidableEq N] (g : ObjectStore N O) {m n : N} (o : O)

@[simp] theorem construct_named_self : (g.construct n o).named n = some g.next :=
  Function.update_self ..

theorem construct_named_ne (h : m ≠ n) : (g.construct n o).named m = g.named m :=
  Function.update_of_ne h ..

@[simp] theorem construct_object_self : (g.construct n o).object g.next = some o :=
  Function.update_self ..

@[simp] theorem construct_lookup_self : (g.construct n o).lookup n = some o := by simp [lookup]

variable {g}

theorem WF.construct_object (hg : g.WF) {a : ℕ} (ha : g.named m = some a) :
    (g.construct n o).object a = g.object a :=
  Function.update_of_ne (hg.fresh ha).ne ..

theorem WF.construct_lookup_ne (hg : g.WF) (h : m ≠ n) :
    (g.construct n o).lookup m = g.lookup m := by
  unfold lookup
  rw [construct_named_ne g o h]
  cases hm : g.named m with
  | none => rfl
  | some a => exact hg.construct_object o hm

theorem WF.construct (hg : g.WF) (hn : g.named n = none) : (g.construct n o).WF where
  live := by
    intro m a hm
    by_cases h : m = n
    · subst h
      rw [construct_named_self] at hm
      cases hm
      exact ⟨o, construct_object_self g o⟩
    · rw [construct_named_ne g o h] at hm
      rw [hg.construct_object o hm]
      exact hg.live hm
  home := by
    intro a o' ho
    by_cases h : a = g.next
    · subst h; exact ⟨n, construct_named_self g o⟩
    · have ho' : g.object a = some o' := (Function.update_of_ne h ..).symm.trans ho
      obtain ⟨m, hm⟩ := hg.home ho'
      have hmn : m ≠ n := by rintro rfl; rw [hn] at hm; cases hm
      exact ⟨m, by rwa [construct_named_ne g o hmn]⟩
  inj := by
    intro m m' a hm hm'
    by_cases h : m = n <;> by_cases h' : m' = n
    · rw [h, h']
    · subst h
      rw [construct_named_self] at hm
      rw [construct_named_ne g o h'] at hm'
      cases hm
      exact absurd (hg.fresh hm') (lt_irrefl _)
    · subst h'
      rw [construct_named_self] at hm'
      rw [construct_named_ne g o h] at hm
      cases hm'
      exact absurd (hg.fresh hm) (lt_irrefl _)
    · rw [construct_named_ne g o h] at hm
      rw [construct_named_ne g o h'] at hm'
      exact hg.inj hm hm'
  fresh := by
    intro m a hm
    show a < g.next + 1
    by_cases h : m = n
    · subst h
      rw [construct_named_self] at hm
      cases hm
      omega
    · rw [construct_named_ne g o h] at hm
      exact Nat.lt_succ_of_lt (hg.fresh hm)

end Construct

/-! ### Storing -/

section Store

variable {g : ObjectStore N O} {m n : N} {a : ℕ} (o : O)

theorem WF.store (hg : g.WF) (ha : g.named n = some a) : (g.store a o).WF where
  live := by
    intro m b hm
    by_cases h : b = a
    · subst h; exact ⟨o, Function.update_self ..⟩
    · obtain ⟨o', ho'⟩ := hg.live hm
      exact ⟨o', (Function.update_of_ne h ..).trans ho'⟩
  home := by
    intro b o' ho
    by_cases h : b = a
    · subst h; exact ⟨n, ha⟩
    · exact hg.home ((Function.update_of_ne h ..).symm.trans ho)
  inj := hg.inj
  fresh := hg.fresh

theorem store_lookup_self (ha : g.named n = some a) : (g.store a o).lookup n = some o := by
  rw [lookup_eq (g := g.store a o) ha]
  exact Function.update_self ..

end Store

/-! ### Addresses in the course of time -/

/-- The store `g'` comes after `g`: no address that was in use before has got another name. -/
structure Evolves (g g' : ObjectStore N O) : Prop where
  wf : g.WF → g'.WF
  next_le : g.next ≤ g'.next
  kept : ∀ {n a}, g'.named n = some a → a < g.next → g.named n = some a

namespace Evolves

variable {g g' g'' : ObjectStore N O} {n : N}

theorem refl (g : ObjectStore N O) : Evolves g g := ⟨id, le_refl _, fun h _ => h⟩

theorem trans (h : Evolves g g') (h' : Evolves g' g'') : Evolves g g'' where
  wf hg := h'.wf (h.wf hg)
  next_le := h.next_le.trans h'.next_le
  kept ha hlt := h.kept (h'.kept ha (hlt.trans_le h.next_le)) hlt

/-- Objects may change as long as the directory stays. -/
theorem of_named (hwf : g.WF → g'.WF) (hnamed : g'.named = g.named) (hnext : g'.next = g.next) :
    Evolves g g' where
  wf := hwf
  next_le := hnext.ge
  kept ha _ := hnamed ▸ ha

variable [DecidableEq N]

theorem destroy (g : ObjectStore N O) (n : N) : Evolves g (g.destroy n) where
  wf hg := hg.destroy n
  next_le := (destroy_next g).ge
  kept := by
    intro m a ha _
    have hmn : m ≠ n := by
      rintro rfl
      rw [destroy_named_self] at ha
      cases ha
    rwa [destroy_named_ne g hmn] at ha

theorem construct (o : O) (hn : g.named n = none) : Evolves g (g.construct n o) where
  wf hg := hg.construct o hn
  next_le := Nat.le_succ _
  kept := by
    intro m a ha hlt
    by_cases hmn : m = n
    · subst hmn
      rw [construct_named_self] at ha
      cases ha
      exact absurd hlt (lt_irrefl _)
    · rwa [construct_named_ne g o hmn] at ha

end Evolves

end ObjectStore
