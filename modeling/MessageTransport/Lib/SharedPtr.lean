import Mathlib.Tactic

/-!
# Shared pointers

A heap of objects that are owned together by pointers. Every object counts its owners, and the
object whose last owner lets go of it leaves the heap and is handed back, for its destructor.
Objects are named by numbers that are never used again; there may be any number of pointers.

* `encard_owners_update`: how the number of owners changes when a pointer is assigned;
* `WF.make`, `WF.share`, `WF.drop`, `WF.modify`: the counts are right, and an object is in the heap
  as long as it has an owner;
* `All.share`, `All.drop`, `All.make_modify`: what holds of all objects goes on to hold of them;
* `All.released`, `All.released_make`: it holds of the object handed back;
* `assign_object`: an assignment takes away the object it hands back, and no other.
-/

/-- Pointers, and the objects they own. -/
structure SharedHeap (κ O : Type*) where
  owner : κ → Option ℕ
  object : ℕ → Option O
  /-- The number of owners. -/
  count : ℕ → ℕ
  /-- The number of the next object. -/
  next : ℕ

namespace SharedHeap

variable {κ O : Type*}

/-- Pointers that own nothing. -/
def empty : SharedHeap κ O := ⟨fun _ => none, fun _ => none, fun _ => 0, 0⟩

/-- The object that a pointer owns. -/
def get (h : SharedHeap κ O) (k : κ) : Option O := (h.owner k).bind h.object

/-- The heap after the object of a pointer has changed. -/
def modify (h : SharedHeap κ O) (k : κ) (o : O) : SharedHeap κ O :=
  match h.owner k with
  | some a => { h with object := Function.update h.object a (some o) }
  | none => h

/-- One more owner for what `p` says. -/
def retain (h : SharedHeap κ O) (p : Option ℕ) : SharedHeap κ O :=
  match p with
  | some a => { h with count := Function.update h.count a (h.count a + 1) }
  | none => h

/-- One owner less. The last one hands the object back. -/
def release (h : SharedHeap κ O) (p : Option ℕ) : SharedHeap κ O × Option O :=
  match p with
  | some a =>
    let h := { h with count := Function.update h.count a (h.count a - 1) }
    if h.count a = 0 then ({ h with object := Function.update h.object a none }, h.object a)
    else (h, none)
  | none => (h, none)

/-- The pointers that own an object. -/
def owners (f : κ → Option ℕ) (a : ℕ) : Set κ := {j | f j = some a}

/-- The counts are right, and the objects with owners are those of the heap. -/
structure WF (h : SharedHeap κ O) : Prop where
  counted : ∀ a, (owners h.owner a).encard = h.count a
  alive : ∀ a, (h.object a).isSome ↔ h.count a ≠ 0
  fresh : ∀ a, h.next ≤ a → h.object a = none

/-- A property of all objects of the heap. -/
def All (P : O → Prop) (h : SharedHeap κ O) : Prop := ∀ a o, h.object a = some o → P o

variable {P : O → Prop} {h : SharedHeap κ O} {k j : κ} {p : Option ℕ} {a : ℕ} {o o' : O}

/-! ### Pointers and their objects -/

theorem encard_owners (f : κ → Option ℕ) (k : κ) (a : ℕ) :
    (owners f a).encard
      = {j | j ≠ k ∧ f j = some a}.encard + ((if f k = some a then 1 else 0 : ℕ) : ℕ∞) := by
  by_cases hk : f k = some a
  · have hset : owners f a = insert k {j | j ≠ k ∧ f j = some a} := by
      ext j
      by_cases hj : j = k
      · simp [owners, hj, hk]
      · simp [owners, hj]
    rw [hset, Set.encard_insert_of_notMem (by simp), if_pos hk, Nat.cast_one]
  · have hset : owners f a = {j | j ≠ k ∧ f j = some a} := by
      ext j
      by_cases hj : j = k
      · simp [owners, hj, hk]
      · simp [owners, hj]
    rw [hset, if_neg hk, Nat.cast_zero, add_zero]

/-- What a pointer owns is counted. -/
theorem WF.count_pos (hw : h.WF) (hk : h.owner k = some a) : 0 < h.count a := by
  have hpos : 0 < (owners h.owner a).encard := Set.encard_pos.2 ⟨k, hk⟩
  rw [hw.counted a] at hpos
  exact_mod_cast hpos

/-- A pointer owns an object of the heap. -/
theorem WF.live (hw : h.WF) (hk : h.owner k = some a) : ∃ o, h.object a = some o :=
  Option.isSome_iff_exists.1 ((hw.alive a).2 (hw.count_pos hk).ne')

theorem WF.ne_next (hw : h.WF) (hk : h.owner k = some a) : a ≠ h.next := by
  rintro rfl
  obtain ⟨o, ho⟩ := hw.live hk
  rw [hw.fresh _ le_rfl] at ho
  cases ho

/-- The objects without owners are gone. -/
theorem WF.object_eq_none (hw : h.WF) (ha : ∀ k, h.owner k ≠ some a) : h.object a = none := by
  have hempty : owners h.owner a = ∅ := Set.eq_empty_iff_forall_notMem.2 ha
  have hcount := hw.counted a
  rw [hempty, Set.encard_empty] at hcount
  have h0 : h.count a = 0 := by exact_mod_cast hcount.symm
  rw [← Option.not_isSome_iff_eq_none, hw.alive a]
  exact fun hne => hne h0

theorem wf_empty : (empty : SharedHeap κ O).WF :=
  ⟨fun a => by simp [empty, owners], fun a => by simp [empty], fun _ _ => rfl⟩

theorem WF.modify (hw : h.WF) (k : κ) (o : O) : (h.modify k o).WF := by
  unfold SharedHeap.modify
  cases hk : h.owner k with
  | none => exact hw
  | some b =>
    refine ⟨hw.counted, fun a => ?_, fun a ha => ?_⟩
    · by_cases hab : a = b
      · simp [hab, (hw.count_pos hk).ne']
      · simp only [Function.update_of_ne hab]
        exact hw.alive a
    · have hab : a ≠ b := by
        rintro rfl
        obtain ⟨o', ho'⟩ := hw.live hk
        rw [hw.fresh a ha] at ho'
        cases ho'
      simp only [Function.update_of_ne hab]
      exact hw.fresh a ha

theorem modify_owner (h : SharedHeap κ O) (k : κ) (o : O) : (h.modify k o).owner = h.owner := by
  unfold SharedHeap.modify
  cases h.owner k <;> rfl

theorem modify_next (h : SharedHeap κ O) (k : κ) (o : O) : (h.modify k o).next = h.next := by
  unfold SharedHeap.modify
  cases h.owner k <;> rfl

theorem modify_object (hk : h.owner k = some a) (o : O) :
    (h.modify k o).object = Function.update h.object a (some o) := by
  simp only [SharedHeap.modify, hk]

theorem get_eq_some_iff : h.get k = some o ↔ ∃ a, h.owner k = some a ∧ h.object a = some o := by
  rw [SharedHeap.get, Option.bind_eq_some_iff]

theorem All.get (ha : h.All P) (hk : h.get k = some o) : P o := by
  obtain ⟨a, -, hobj⟩ := Option.bind_eq_some_iff.1 hk
  exact ha a o hobj

/-- Only the object of the pointer changes. -/
theorem All.modify (ha : ∀ a o', h.owner k ≠ some a → h.object a = some o' → P o') (ho : P o) :
    (h.modify k o).All P := by
  unfold SharedHeap.modify
  cases hk : h.owner k with
  | none => exact fun a o' h' => ha a o' (by simp [hk]) h'
  | some b =>
    intro a o' h'
    by_cases hab : a = b
    · simp only [hab, Function.update_self, Option.some.injEq] at h'
      exact h' ▸ ho
    · simp only [Function.update_of_ne hab] at h'
      exact ha a o' (fun h => hab (Option.some.inj (hk.symm.trans h)).symm) h'

/-! ### One owner more or less -/

theorem retain_count (h : SharedHeap κ O) (p : Option ℕ) (a : ℕ) :
    (h.retain p).count a = h.count a + if p = some a then 1 else 0 := by
  cases p with
  | none => simp [retain]
  | some b =>
    by_cases hab : a = b
    · simp [retain, hab]
    · simp [retain, Function.update_of_ne hab, Ne.symm hab]

@[simp] theorem retain_object (h : SharedHeap κ O) (p : Option ℕ) :
    (h.retain p).object = h.object := by
  cases p <;> rfl

@[simp] theorem retain_next (h : SharedHeap κ O) (p : Option ℕ) : (h.retain p).next = h.next := by
  cases p <;> rfl

/-- Giving up an object changes its count, and its presence if the count reaches `0`. -/
theorem release_cases (h : SharedHeap κ O) (p : Option ℕ) :
    ((h.release p).1.owner = h.owner ∧ (h.release p).1.next = h.next) ∧
    (∀ a, (h.release p).1.count a = h.count a - if p = some a then 1 else 0) ∧
    (∀ a, (h.release p).1.object a
      = if p = some a ∧ (h.release p).1.count a = 0 then none else h.object a) ∧
    ∀ o, (h.release p).2 = some o → ∃ a, p = some a ∧ h.object a = some o := by
  cases p with
  | none => exact ⟨⟨rfl, rfl⟩, by simp [release], by simp [release], nofun⟩
  | some b =>
    have hcount : ∀ a, Function.update h.count b (h.count b - 1) a
        = h.count a - if some b = some a then 1 else 0 := by
      intro a
      by_cases hab : a = b
      · simp [hab]
      · simp [Function.update_of_ne hab, Ne.symm hab]
    by_cases hlast : Function.update h.count b (h.count b - 1) b = 0
    · simp only [release, if_pos hlast]
      refine ⟨⟨trivial, trivial⟩, hcount, fun a => ?_, fun o ho => ⟨b, rfl, ho⟩⟩
      by_cases hab : a = b
      · rw [hab, if_pos ⟨rfl, hlast⟩, Function.update_self]
      · rw [if_neg fun h => hab (Option.some.inj h.1).symm, Function.update_of_ne hab]
    · simp only [release, if_neg hlast]
      refine ⟨⟨trivial, trivial⟩, hcount, fun a => ?_, nofun⟩
      rw [if_neg]
      rintro ⟨hab, h0⟩
      cases hab
      exact hlast h0

/-! ### Assignment -/

variable [DecidableEq κ]

/-- Let the pointer `k` own what `p` says, and then give up what it owned. -/
def assign (h : SharedHeap κ O) (k : κ) (p : Option ℕ) : SharedHeap κ O × Option O :=
  release { h.retain p with owner := Function.update h.owner k p } (h.owner k)

/-- Let the pointer `k` own a new object. -/
def make (h : SharedHeap κ O) (k : κ) (o : O) : SharedHeap κ O × Option O :=
  { h with object := Function.update h.object h.next (some o), next := h.next + 1 }.assign k
    (some h.next)

/-- Let the pointer `k` own what `j` owns. -/
def share (h : SharedHeap κ O) (k j : κ) : SharedHeap κ O × Option O := h.assign k (h.owner j)

/-- Let the pointer `k` own nothing. -/
def drop (h : SharedHeap κ O) (k : κ) : SharedHeap κ O × Option O := h.assign k none

/-- **Counting owners.** An assignment takes one owner from what the pointer owned and gives one to
what it owns now. -/
theorem encard_owners_update (f : κ → Option ℕ) (k : κ) (p : Option ℕ) (a : ℕ) :
    (owners (Function.update f k p) a).encard + ((if f k = some a then 1 else 0 : ℕ) : ℕ∞)
      = (owners f a).encard + ((if p = some a then 1 else 0 : ℕ) : ℕ∞) := by
  have hrest : {j | j ≠ k ∧ Function.update f k p j = some a} = {j | j ≠ k ∧ f j = some a} := by
    ext j
    simp only [Set.mem_ofPred_eq]
    exact and_congr_right fun hj => by rw [Function.update_of_ne hj]
  rw [encard_owners (Function.update f k p) k a, encard_owners f k a, hrest, Function.update_self,
    add_right_comm]

/-- **Assignment.** What it does to the pointers, the counts and the objects. -/
theorem assign_cases (h : SharedHeap κ O) (k : κ) (p : Option ℕ) :
    ((h.assign k p).1.owner = Function.update h.owner k p ∧ (h.assign k p).1.next = h.next) ∧
    (∀ a, (h.assign k p).1.count a
      = h.count a + (if p = some a then 1 else 0) - if h.owner k = some a then 1 else 0) ∧
    (∀ a, (h.assign k p).1.object a
      = if h.owner k = some a ∧ (h.assign k p).1.count a = 0 then none else h.object a) ∧
    ∀ o, (h.assign k p).2 = some o → ∃ a, h.owner k = some a ∧ h.object a = some o := by
  obtain ⟨⟨howner, hnext⟩, hcount, hobject, hback⟩ :=
    release_cases { h.retain p with owner := Function.update h.owner k p } (h.owner k)
  refine ⟨⟨howner, hnext.trans (retain_next h p)⟩, fun a => ?_, fun a => ?_, fun o ho => ?_⟩
  · rw [← retain_count h p a]
    exact hcount a
  · rw [← retain_object h p]
    exact hobject a
  · rw [← retain_object h p]
    exact hback o ho

/-- **What is handed back.** An assignment changes no object, or it takes away the one it hands
back. -/
theorem assign_object (h : SharedHeap κ O) (k : κ) (p : Option ℕ) :
    (h.assign k p).2 = none ∧ (h.assign k p).1.object = h.object ∨
      ∃ a o, h.owner k = some a ∧ h.object a = some o ∧ (h.assign k p).2 = some o ∧
        (h.assign k p).1.object = Function.update h.object a none := by
  rw [assign, ← retain_object h p]
  cases h.owner k with
  | none => exact .inl ⟨rfl, rfl⟩
  | some a =>
    simp only [release]
    split_ifs
    · cases ho : (h.retain p).object a with
      | none =>
        refine .inl ⟨rfl, ?_⟩
        rw [← ho, Function.update_eq_self]
      | some o => exact .inr ⟨a, o, rfl, ho, rfl, rfl⟩
    · exact .inl ⟨rfl, rfl⟩

/-- The heap is well formed after an assignment if it was, but for what the pointer shall own. -/
theorem wf_assign (counted : ∀ a, (owners h.owner a).encard = h.count a)
    (alive : ∀ a, (h.object a).isSome ↔ h.count a ≠ 0 ∨ p = some a)
    (fresh : ∀ a, h.next ≤ a → h.object a = none) : (h.assign k p).1.WF := by
  obtain ⟨⟨howner, hnext⟩, hcount, hobject, -⟩ := h.assign_cases k p
  -- what the pointer gives up was counted
  have hpos : ∀ a, (if h.owner k = some a then 1 else 0) ≤ h.count a := by
    intro a
    have hle : ((if h.owner k = some a then 1 else 0 : ℕ) : ℕ∞) ≤ h.count a := by
      rw [← counted a, encard_owners h.owner k a]
      exact le_add_self
    exact_mod_cast hle
  refine ⟨fun a => ?_, fun a => ?_, fun a ha => ?_⟩
  · have hsum := encard_owners_update h.owner k p a
    have hnat : (h.assign k p).1.count a + (if h.owner k = some a then 1 else 0)
        = h.count a + if p = some a then 1 else 0 := by
      rw [hcount a, Nat.sub_add_cancel (le_add_right (hpos a))]
    rw [counted a, ← Nat.cast_add, ← hnat, Nat.cast_add, ← howner] at hsum
    exact ENat.add_left_injective_of_ne_top (ENat.natCast_ne_top _) hsum
  · rw [hobject a]
    have hle := hpos a
    have hc := hcount a
    by_cases hk : h.owner k = some a
    · simp only [hk, if_true] at hle hc
      by_cases h0 : (h.assign k p).1.count a = 0
      · simp [hk, h0]
      · have hsome : (h.object a).isSome = true := (alive a).2 (.inl (by omega))
        simp [hk, h0, hsome]
    · have hiff : (h.assign k p).1.count a ≠ 0 ↔ h.count a ≠ 0 ∨ p = some a := by
        rw [hc, if_neg hk]
        by_cases hp : p = some a <;> simp [hp]
      rw [if_neg fun h => hk h.1, alive a, hiff]
  · rw [hobject a, fresh a (hnext ▸ ha), ite_self]

theorem WF.make (hw : h.WF) (k : κ) (o : O) : (h.make k o).1.WF := by
  refine wf_assign hw.counted (fun a => ?_) fun a ha => ?_
  · by_cases hn : a = h.next
    · simp [hn]
    · simp only [Function.update_of_ne hn, Option.some.injEq, Ne.symm hn, or_false]
      exact hw.alive a
  · have hn : h.next + 1 ≤ a := ha
    simp only [Function.update_of_ne (show a ≠ h.next by omega)]
    exact hw.fresh a (by omega)

theorem WF.share (hw : h.WF) (k j : κ) : (h.share k j).1.WF := by
  refine wf_assign hw.counted (fun a => ?_) hw.fresh
  rw [hw.alive a]
  exact (or_iff_left_of_imp fun hj => (hw.count_pos hj).ne').symm

theorem WF.drop (hw : h.WF) (k : κ) : (h.drop k).1.WF :=
  wf_assign hw.counted (fun a => by rw [hw.alive a]; simp) hw.fresh

/-! ### Properties of all objects -/

/-- No assignment makes an object. -/
theorem object_assign (ho : (h.assign k p).1.object a = some o) : h.object a = some o := by
  obtain ⟨-, -, hobject, -⟩ := h.assign_cases k p
  rw [hobject a] at ho
  split_ifs at ho
  exact ho

theorem All.share (ha : h.All P) (k j : κ) : (h.share k j).1.All P :=
  fun a o ho => ha a o (object_assign ho)

theorem All.drop (ha : h.All P) (k : κ) : (h.drop k).1.All P :=
  fun a o ho => ha a o (object_assign ho)

theorem owner_make (h : SharedHeap κ O) (k : κ) (o : O) :
    (h.make k o).1.owner = Function.update h.owner k (some h.next) :=
  (assign_cases _ k _).1.1

/-- The pointer owns the new object. -/
theorem WF.get_make (hw : h.WF) (k : κ) (o : O) : (h.make k o).1.get k = some o := by
  have hobject : (h.make k o).1.object h.next = some o := by
    rw [show (h.make k o).1.object h.next = _ from (assign_cases _ k _).2.2.1 h.next,
      if_neg fun hk => hw.ne_next hk.1 rfl]
    exact Function.update_self ..
  rw [SharedHeap.get, owner_make, Function.update_self]
  exact hobject

/-- Changing the new object is the same as making it so. -/
theorem WF.modify_make (hw : h.WF) (k : κ) (o o' : O) :
    (h.make k o).1.modify k o' = (h.make k o').1 ∧ (h.make k o).2 = (h.make k o').2 := by
  rw [SharedHeap.modify, owner_make, Function.update_self, SharedHeap.make, SharedHeap.make, assign,
    assign]
  cases hk : h.owner k with
  | none => exact ⟨by simp [release, retain], rfl⟩
  | some a =>
    have hne := hw.ne_next hk
    simp only [retain, release, Function.update_self, Function.update_of_ne hne]
    by_cases h0 : h.count a - 1 = 0
    · simp only [if_pos h0, Function.update_comm hne, Function.update_idem, and_self]
    · simp only [if_neg h0, Function.update_idem, and_self]

/-- What holds of all objects, and of what a new one is changed to, holds of all again. -/
theorem All.make_modify (ha : h.All P) (ho : P o') (k : κ) (o : O) :
    ((h.make k o).1.modify k o').All P := by
  refine All.modify (fun a o₁ hne h₁ => ?_) ho
  have hn : a ≠ h.next := by
    rintro rfl
    exact hne (by rw [owner_make, Function.update_self])
  have h₂ := object_assign h₁
  simp only [Function.update_of_ne hn] at h₂
  exact ha a o₁ h₂

/-- The object handed back is one of the heap. -/
theorem All.released (ha : h.All P) (hr : (h.assign k p).2 = some o) : P o := by
  obtain ⟨a, -, hobj⟩ := (h.assign_cases k p).2.2.2 o hr
  exact ha a o hobj

/-- The object that a new one takes the place of is one of the heap. -/
theorem All.released_make (ha : h.All P) (hw : h.WF) (hr : (h.make k o).2 = some o') : P o' := by
  obtain ⟨a, hk, hobj⟩ := (assign_cases _ k _).2.2.2 o' hr
  simp only [Function.update_of_ne (hw.ne_next hk)] at hobj
  exact ha a o' hobj

end SharedHeap
