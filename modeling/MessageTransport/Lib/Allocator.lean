import Mathlib.Tactic

/-!
# Allocators

The live buffers of an allocator, each with the size it was allocated with, and the owners they
have. An allocator never answers with an address in use; giving back what is not live, or not of
that size, is undefined and recorded.

`Allocator.Owned` says that owners and live buffers are in bijection.

* `Owned.update_iff`: where the allocator is left alone, it is kept exactly if no owner changes;
* `Owned.release`, `Owned.add`: it is kept where buffers are given back and obtained;
* `Leaked.update`, `Leaked.release`, `Leaked.add`: a buffer that nobody has stays live forever;
* `Owned.card_live_le`, `Leaked.card_lt`: how many live buffers there are.
-/

/-- The live buffers, an address and a size each, and the deallocations that named none of
them. -/
structure Allocator (A N : Type*) where
  live : Finset (A × N)
  invalid : List (Option A × N)

namespace Allocator

variable {A N κ : Type*}

/-- An allocator that was never used. -/
def empty : Allocator A N := ⟨∅, []⟩

/-- Every owner has a live buffer of its own, and every live buffer has an owner. -/
structure Owned (h : Allocator A N) (own : κ → Option (A × N)) : Prop where
  valid : h.invalid = []
  live : ∀ {k b}, own k = some b → b ∈ h.live
  owner : ∀ {b}, b ∈ h.live → ∃ k, own k = some b
  unique : ∀ {j k b c}, own j = some b → own k = some c → b.1 = c.1 → j = k

/-- A live buffer at an address that no owner has. -/
structure Leaked (h : Allocator A N) (own : κ → Option (A × N)) (b : A × N) : Prop where
  live : b ∈ h.live
  ne : ∀ k c, own k = some c → c.1 ≠ b.1

variable {h : Allocator A N} {own : κ → Option (A × N)} {j k : κ} {p : Option (A × N)} {a : A}
  {b : A × N}

/-! ### Owners that change -/

section Update

theorem owned_empty : (empty : Allocator A N).Owned (fun _ : κ => none) where
  valid := rfl
  live := by intro k b hk; cases hk
  owner := by intro b hb; simp [empty] at hb
  unique := by intro j k b c hj; cases hj

variable [DecidableEq κ]

/-- What somebody has after a change is the new buffer, or it was theirs before. -/
theorem of_update {c : A × N} (hj : Function.update own k p j = some c) :
    j = k ∧ p = some c ∨ j ≠ k ∧ own j = some c := by
  by_cases hjk : j = k
  · rw [hjk, Function.update_self] at hj
    exact .inl ⟨hjk, hj⟩
  · rw [Function.update_of_ne hjk] at hj
    exact .inr ⟨hjk, hj⟩

/-- **Moving bits.** If the allocator is left alone, the buffer of no owner may change. -/
theorem Owned.update_iff (ho : h.Owned own) :
    h.Owned (Function.update own k p) ↔ p = own k := by
  refine ⟨fun ho' => ?_, fun hp => by rwa [hp, Function.update_eq_self]⟩
  have hself : Function.update own k p k = p := Function.update_self ..
  cases hk : own k with
  | some b =>
    -- the buffer must still have an owner, and nobody else had it
    obtain ⟨i, hi⟩ := ho'.owner (ho.live hk)
    rcases of_update hi with ⟨-, hp⟩ | ⟨hik, hi⟩
    · exact hp
    · exact absurd (ho.unique hi hk rfl) hik
  | none =>
    cases p with
    | none => rfl
    | some c =>
      -- somebody else had the buffer, and still has it
      obtain ⟨i, hi⟩ := ho.owner (ho'.live hself)
      have hik : i ≠ k := by
        rintro rfl
        rw [hk] at hi
        cases hi
      have hi' : Function.update own k (some c) i = some c := by
        rwa [Function.update_of_ne hik]
      exact absurd (ho'.unique hi' hself rfl) hik

/-- A buffer that nobody has is not found with an owner that takes another address. -/
theorem Leaked.update (hl : h.Leaked own b) (hp : ∀ c, p = some c → c.1 ≠ b.1) :
    h.Leaked (Function.update own k p) b := by
  refine ⟨hl.live, fun i c hi => ?_⟩
  rcases of_update hi with ⟨-, hc⟩ | ⟨-, hi⟩
  · exact hp c hc
  · exact hl.ne i c hi

/-- The owner of a buffer that takes another address, or none, leaks it. -/
theorem Owned.leaked (ho : h.Owned own) (hk : own k = some b) (hp : ∀ c, p = some c → c.1 ≠ b.1) :
    h.Leaked (Function.update own k p) b := by
  refine ⟨ho.live hk, fun i c hi => ?_⟩
  rcases of_update hi with ⟨-, hc⟩ | ⟨hik, hi⟩
  · exact hp c hc
  · exact fun hcb => hik (ho.unique hi hk hcb)

end Update

/-! ### Single operations -/

variable [DecidableEq A]

/-- The addresses in use. -/
def addresses (h : Allocator A N) : Finset A := h.live.image Prod.fst

theorem mem_addresses (hb : b ∈ h.live) : b.1 ∈ h.addresses := Finset.mem_image_of_mem _ hb

theorem exists_notMem_addresses [Infinite A] (h : Allocator A N) : ∃ a, a ∉ h.addresses :=
  Infinite.exists_notMem_finset _

variable [DecidableEq N]

/-- A buffer becomes live. -/
def add (h : Allocator A N) (b : A × N) : Allocator A N := { h with live := insert b h.live }

/-- Ask for a buffer of size `n`. The answer is an address or a failure. -/
def allocate (h : Allocator A N) (n : N) (answer : Option A) : Option A × Allocator A N :=
  match answer with
  | some a => if a ∈ h.addresses then (none, h) else (some a, h.add (a, n))
  | none => (none, h)

/-- Give back the buffer of size `n` at an address. -/
def deallocate (h : Allocator A N) (p : Option A) (n : N) : Allocator A N :=
  match p with
  | some a =>
    if (a, n) ∈ h.live then { h with live := h.live.erase (a, n) }
    else { h with invalid := (some a, n) :: h.invalid }
  | none => { h with invalid := (none, n) :: h.invalid }

/-- Give back what an owner has. -/
def release (h : Allocator A N) (p : Option (A × N)) : Allocator A N :=
  match p with
  | some b => h.deallocate (some b.1) b.2
  | none => h

theorem mem_addresses_add : a ∈ (h.add b).addresses ↔ a = b.1 ∨ a ∈ h.addresses := by
  rw [addresses, add, Finset.image_insert, Finset.mem_insert, addresses]

theorem card_add (hb : b.1 ∉ h.addresses) : (h.add b).live.card = h.live.card + 1 :=
  Finset.card_insert_of_notMem fun hmem => hb (mem_addresses hmem)

theorem allocate_cases (h : Allocator A N) (n : N) (answer : Option A) :
    h.allocate n answer = (none, h) ∨
      ∃ a, answer = some a ∧ a ∉ h.addresses ∧ h.allocate n answer = (some a, h.add (a, n)) := by
  cases answer with
  | none => exact .inl rfl
  | some a =>
    by_cases ha : a ∈ h.addresses
    · exact .inl (if_pos ha)
    · exact .inr ⟨a, rfl, ha, if_neg ha⟩

theorem allocate_of_notMem (ha : a ∉ h.addresses) (n : N) :
    h.allocate n (some a) = (some a, h.add (a, n)) := if_neg ha

theorem deallocate_of_mem (hb : b ∈ h.live) :
    h.deallocate (some b.1) b.2 = { h with live := h.live.erase b } := if_pos hb

/-- A buffer stays live where another address is given back. -/
theorem mem_deallocate (hb : b ∈ h.live) (ha : a ≠ b.1) (n : N) :
    b ∈ (h.deallocate (some a) n).live := by
  simp only [deallocate]
  split_ifs
  · exact Finset.mem_erase.2 ⟨fun hba => ha (congrArg Prod.fst hba).symm, hb⟩
  · exact hb

/-! ### Giving back and obtaining -/

section Operations

variable [DecidableEq κ]

/-- **Giving back.** The owner has nothing afterwards. -/
theorem Owned.release (ho : h.Owned own) (k : κ) :
    (h.release (own k)).Owned (Function.update own k none) := by
  cases hk : own k with
  | none =>
    rw [← hk, Function.update_eq_self, hk]
    exact ho
  | some b =>
    rw [Allocator.release, deallocate_of_mem (ho.live hk)]
    -- what is left in the hands of others
    have hne : ∀ {i c}, Function.update own k none i = some c → i ≠ k ∧ own i = some c := by
      intro i c hi
      rcases of_update hi with ⟨-, hc⟩ | hi
      · cases hc
      · exact hi
    refine ⟨ho.valid, fun {i c} hi => ?_, fun {c} hc => ?_, fun {i j c d} hi hj hcd => ?_⟩
    · obtain ⟨hik, hi⟩ := hne hi
      refine Finset.mem_erase.2 ⟨?_, ho.live hi⟩
      rintro rfl
      exact hik (ho.unique hi hk rfl)
    · obtain ⟨hcb, hc⟩ := Finset.mem_erase.1 hc
      obtain ⟨i, hi⟩ := ho.owner hc
      refine ⟨i, ?_⟩
      rw [Function.update_of_ne, hi]
      rintro rfl
      exact hcb (Option.some.inj (hi.symm.trans hk))
    · exact ho.unique (hne hi).2 (hne hj).2 hcd

/-- **Obtaining.** An owner that had nothing has the new buffer. -/
theorem Owned.add (ho : h.Owned own) (hk : own k = none) (ha : a ∉ h.addresses) (n : N) :
    (h.add (a, n)).Owned (Function.update own k (some (a, n))) := by
  -- an owner has the new buffer or an old one, which lies elsewhere
  have hcases : ∀ {i c}, Function.update own k (some (a, n)) i = some c →
      i = k ∧ c = (a, n) ∨ own i = some c ∧ c.1 ≠ a := by
    intro i c hi
    rcases of_update hi with ⟨hik, hc⟩ | ⟨-, hi⟩
    · exact .inl ⟨hik, (Option.some.inj hc).symm⟩
    · exact .inr ⟨hi, fun hc => ha (hc ▸ mem_addresses (ho.live hi))⟩
  refine ⟨ho.valid, fun {i c} hi => ?_, fun {c} hc => ?_, fun {i j c d} hi hj hcd => ?_⟩
  · rcases hcases hi with ⟨-, rfl⟩ | ⟨hi, -⟩
    · exact Finset.mem_insert_self _ _
    · exact Finset.mem_insert_of_mem (ho.live hi)
  · rcases Finset.mem_insert.1 hc with rfl | hc
    · exact ⟨k, Function.update_self ..⟩
    · obtain ⟨i, hi⟩ := ho.owner hc
      refine ⟨i, ?_⟩
      rw [Function.update_of_ne, hi]
      rintro rfl
      rw [hk] at hi
      cases hi
  · rcases hcases hi with ⟨rfl, rfl⟩ | ⟨hi, hne⟩
    · rcases hcases hj with ⟨rfl, -⟩ | ⟨-, hne⟩
      · rfl
      · exact absurd hcd.symm hne
    · rcases hcases hj with ⟨-, rfl⟩ | ⟨hj, -⟩
      · exact absurd hcd hne
      · exact ho.unique hi hj hcd

theorem Leaked.release (hl : h.Leaked own b) (k : κ) :
    (h.release (own k)).Leaked (Function.update own k none) b := by
  have hne := (hl.update (k := k) (p := none) (by simp)).ne
  cases hk : own k with
  | none => exact ⟨hl.live, hne⟩
  | some c => exact ⟨mem_deallocate hl.live (hl.ne k c hk) _, hne⟩

theorem Leaked.add (hl : h.Leaked own b) (ha : a ∉ h.addresses) (n : N) :
    (h.add (a, n)).Leaked (Function.update own k (some (a, n))) b := by
  have hne : a ≠ b.1 := by
    rintro rfl
    exact ha (mem_addresses hl.live)
  refine ⟨Finset.mem_insert_of_mem hl.live, (hl.update fun c hc => ?_).ne⟩
  cases hc
  exact hne

end Operations

/-! ### Counting -/

/-- There are no more live buffers than owners. -/
theorem Owned.card_live_le (ho : h.Owned own) {S : Finset κ}
    (hS : ∀ k b, own k = some b → k ∈ S) : h.live.card ≤ S.card := by
  have hsub : h.live.image some ⊆ S.image own := by
    intro p hp
    obtain ⟨b, hb, rfl⟩ := Finset.mem_image.1 hp
    obtain ⟨k, hk⟩ := ho.owner hb
    exact Finset.mem_image.2 ⟨k, hS k b hk, hk⟩
  calc h.live.card = (h.live.image some).card :=
        (Finset.card_image_of_injective _ (Option.some_injective _)).symm
    _ ≤ (S.image own).card := Finset.card_le_card hsub
    _ ≤ S.card := Finset.card_image_le

/-- If every owner has a live buffer of its own and one more is leaked, there are more live buffers
than owners. -/
theorem Leaked.card_lt (hl : h.Leaked own b) {S : Finset κ}
    (hS : ∀ k ∈ S, ∃ c, own k = some c ∧ c ∈ h.live)
    (hinj : ∀ j k c, own j = some c → own k = some c → j = k) : S.card < h.live.card := by
  have hinjOn : Set.InjOn own S := by
    intro j hj k _ hjk
    obtain ⟨c, hc, -⟩ := hS j hj
    exact hinj j k c hc (hjk ▸ hc)
  have hsub : S.image own ⊆ (h.live.erase b).image some := by
    intro p hp
    obtain ⟨k, hk, rfl⟩ := Finset.mem_image.1 hp
    obtain ⟨c, hc, hlive⟩ := hS k hk
    refine Finset.mem_image.2 ⟨c, Finset.mem_erase.2 ⟨fun hcb => ?_, hlive⟩, hc.symm⟩
    exact hl.ne k c hc (congrArg Prod.fst hcb)
  calc S.card = (S.image own).card := (Finset.card_image_of_injOn hinjOn).symm
    _ ≤ ((h.live.erase b).image some).card := Finset.card_le_card hsub
    _ ≤ (h.live.erase b).card := Finset.card_image_le
    _ < h.live.card := Finset.card_erase_lt_of_mem hl.live

end Allocator
