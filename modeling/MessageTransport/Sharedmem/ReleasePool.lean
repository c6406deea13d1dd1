import MessageTransport.Lib.RemoveIf
import MessageTransport.Lib.Run

/-!
# The release pool

A `ReleasePool` holds pointers to objects, so that these are not destroyed while others use them. At
every callback of its timer it lets go of those objects that only it still points to, which it tells
by their use counts. Its own pointers are counted there as well.

* `use_counted`: what a sweep removes, although the counts change while it does so;
* `twice_kept`: an object that was added twice is never released;
* `exact_iff`: the pool keeps exactly what others use if and only if, whenever it is swept, no
  object that nobody else uses is in it more than once.
-/

namespace MessageTransport

/-- A `ReleasePool`, and what points to the objects from outside. -/
structure ReleasePool (O : Type*) where
  /-- Pointers, which may be null. -/
  pool : List (Option O)
  /-- The number of pointers to an object outside of the pool. -/
  outside : O → ℕ
  /-- The objects that were added since they were made. -/
  added : List O

namespace ReleasePool

variable {O : Type*} [DecidableEq O]

/-- An empty pool. -/
def init (outside : O → ℕ) : ReleasePool O := ⟨[], outside, []⟩

/-- `use_count()` of a pointer, when the pool is `pool`. -/
def use_count (outside : O → ℕ) (pool : List (Option O)) : Option O → ℕ
  | some o => outside o + pool.count (some o)
  | none => 0

/-- `ptr_not_active`. -/
def ptr_not_active (outside : O → ℕ) (pool : List (Option O)) (object : Option O) : Bool :=
  use_count outside pool object ≤ 1

variable (s : ReleasePool O)

/-- `add(object)`. -/
def add : Option O → ReleasePool O
  | some o => { s with pool := s.pool ++ [some o], added := o :: s.added }
  | none => s

/-- `timerCallback()`. A pointer that was moved from is null. -/
def timerCallback : ReleasePool O :=
  { s with pool := RemoveIf.removeIf none (ptr_not_active s.outside) s.pool }

/-- What happens to a pool and to the objects, none of which points to another. -/
inductive Event (O : Type*)
  /-- An object is made, with a pointer to it. -/
  | create (o : O)
  /-- A pointer is copied, or made from a weak one. -/
  | copy (o : O)
  | drop (o : O)
  /-- Somebody adds what a pointer of theirs says. -/
  | add (object : Option O)
  | timerCallback

/-- The state after an event. An object can be made if it is not there, copied if it is, and added
by somebody who has a pointer to it. -/
def step (s : ReleasePool O) : Event O → ReleasePool O
  | .create o =>
    if use_count s.outside s.pool (some o) = 0 then
      { s with outside := Function.update s.outside o 1, added := s.added.filter (· ≠ o) }
    else s
  | .copy o =>
    if 0 < use_count s.outside s.pool (some o) then
      { s with outside := Function.update s.outside o (s.outside o + 1) }
    else s
  | .drop o => { s with outside := Function.update s.outside o (s.outside o - 1) }
  | .add object => if ∀ o ∈ object, 0 < s.outside o then s.add object else s
  | .timerCallback => s.timerCallback

/-- The pool lets go of nothing that is pointed to from outside, and after a sweep it has exactly
those of the added objects that are. -/
structure Exact (s : ReleasePool O) (e : Event O) : Prop where
  held : ∀ o, some o ∈ s.pool → some o ∉ (s.step e).pool → s.outside o = 0
  swept : e = .timerCallback → ∀ object, object ∈ (s.step e).pool ↔
    ∃ o ∈ (s.step e).added, object = some o ∧ 0 < (s.step e).outside o

/-- When the pool is swept, what is not pointed to from outside is in it at most once. -/
def SingleIdle (s : ReleasePool O) (e : Event O) : Prop :=
  e = .timerCallback → ∀ o, s.outside o = 0 → s.pool.count (some o) ≤ 1

/-- What was added is in the pool as long as it is pointed to from outside, and nothing else is. -/
structure Inv (s : ReleasePool O) : Prop where
  added : ∀ object ∈ s.pool, ∃ o ∈ s.added, object = some o
  kept : ∀ o ∈ s.added, 0 < s.outside o → some o ∈ s.pool

variable {s} {e : Event O} {o : O} {object : Option O}

/-! ### Sweeping -/

/-- The counts of the objects that stay are as in `pool`, and no other has risen. -/
def Counted (outside : O → ℕ) (pool v : List (Option O)) : Prop :=
  (∀ o, ptr_not_active outside pool (some o) = false → v.count (some o) = pool.count (some o)) ∧
    ∀ o, v.count (some o) ≤ pool.count (some o)

variable {outside : O → ℕ} {pool v : List (Option O)}

theorem Counted.ptr_not_active_eq (h : Counted outside pool v) (object : Option O) :
    ptr_not_active outside v object = ptr_not_active outside pool object := by
  cases object with
  | none => rfl
  | some o =>
    have hle := h.2 o
    cases hp : ptr_not_active outside pool (some o) with
    | false => rw [← hp, ptr_not_active, ptr_not_active, use_count, use_count, h.1 o hp]
    | true =>
      rw [ptr_not_active, decide_eq_true_eq, use_count] at hp ⊢
      omega

/-- The pointer that is overwritten is not to an object that stays. -/
theorem Counted.move {kept gap rest : List (Option O)} {x a : Option O}
    (hx : ptr_not_active outside pool x = true)
    (h : Counted outside pool (kept ++ x :: gap ++ a :: rest)) :
    Counted outside pool (kept ++ a :: gap ++ none :: rest) := by
  have hcount : ∀ o, (kept ++ x :: gap ++ a :: rest).count (some o)
      = (kept ++ a :: gap ++ none :: rest).count (some o) + if x = some o then 1 else 0 := by
    intro o
    simp only [List.count_append, List.count_cons, beq_iff_eq, reduceCtorEq, if_false]
    omega
  refine ⟨fun o ho => ?_, fun o => ?_⟩
  · have hne : x ≠ some o := by
      rintro rfl
      rw [hx] at ho
      cases ho
    have := h.1 o ho
    rwa [hcount, if_neg hne] at this
  · have := h.2 o
    rw [hcount] at this
    omega

/-- A pointer that goes is the last to its object, so no other count changes. -/
theorem use_counted (s : ReleasePool O) :
    s.timerCallback.pool = s.pool.filter (!ptr_not_active s.outside s.pool ·) :=
  RemoveIf.removeIf_eq_filter (Counted s.outside s.pool)
    (fun _ hv a _ => hv.ptr_not_active_eq a) rfl (fun _ _ _ _ _ hx hv => hv.move hx)
    ⟨fun _ _ => rfl, fun _ => le_rfl⟩

theorem mem_timerCallback : object ∈ s.timerCallback.pool ↔
    object ∈ s.pool ∧ 1 < use_count s.outside s.pool object := by
  rw [use_counted, List.mem_filter, ptr_not_active, Bool.not_eq_true', decide_eq_false_iff_not,
    not_le]

/-- What is pointed to from outside stays. -/
theorem mem_timerCallback_of_outside (ho : 0 < s.outside o) :
    some o ∈ s.timerCallback.pool ↔ some o ∈ s.pool := by
  refine mem_timerCallback.trans (and_iff_left_of_imp fun h => ?_)
  have := List.count_pos_iff.2 h
  rw [use_count]
  omega

/-- What is not pointed to from outside goes, unless it is there twice. -/
theorem mem_timerCallback_of_idle (ho : s.outside o = 0) :
    some o ∈ s.timerCallback.pool ↔ 1 < s.pool.count (some o) := by
  rw [mem_timerCallback, use_count, ho, zero_add]
  refine and_iff_right_of_imp fun h => ?_
  exact List.count_pos_iff.1 (by omega)

/-! ### Runs -/

omit [DecidableEq O] in
theorem inv_init (outside : O → ℕ) : (init outside).Inv := ⟨by simp [init], by simp [init]⟩

omit [DecidableEq O] in
theorem Inv.add (hs : s.Inv) (object : Option O) : (s.add object).Inv := by
  cases object with
  | none => exact hs
  | some o =>
    refine ⟨fun object h => ?_, fun o' ho' hout => ?_⟩
    · rcases List.mem_append.1 h with h | h
      · obtain ⟨o', ho', rfl⟩ := hs.added object h
        exact ⟨o', List.mem_cons_of_mem _ ho', rfl⟩
      · exact ⟨o, List.mem_cons_self, List.mem_singleton.1 h⟩
    · rcases List.mem_cons.1 ho' with rfl | ho'
      · exact List.mem_append_right _ (List.mem_singleton_self _)
      · exact List.mem_append_left _ (hs.kept o' ho' hout)

/-- An object that is made was not in the pool. -/
theorem Inv.create (hs : s.Inv) (ho : some o ∉ s.pool) :
    Inv { s with outside := Function.update s.outside o 1, added := s.added.filter (· ≠ o) } := by
  refine ⟨fun object h => ?_, fun o' ho' hout => ?_⟩
  · obtain ⟨o', ho', rfl⟩ := hs.added object h
    have hne : o' ≠ o := by
      rintro rfl
      exact ho h
    exact ⟨o', List.mem_filter.2 ⟨ho', by simpa using hne⟩, rfl⟩
  · obtain ⟨ho', hne⟩ := List.mem_filter.1 ho'
    simp only [Function.update_of_ne (show o' ≠ o by simpa using hne)] at hout
    exact hs.kept o' ho' hout

/-- The pointers to an object change, of which one was there. -/
theorem Inv.update (hs : s.Inv) {n : ℕ} (ho : 0 < n → 0 < s.outside o ∨ some o ∈ s.pool) :
    Inv { s with outside := Function.update s.outside o n } := by
  refine ⟨hs.added, fun o' ho' hout => ?_⟩
  by_cases hne : o' = o
  · subst hne
    simp only [Function.update_self] at hout
    rcases ho hout with h | h
    · exact hs.kept o' ho' h
    · exact h
  · simp only [Function.update_of_ne hne] at hout
    exact hs.kept o' ho' hout

theorem Inv.sweep (hs : s.Inv) : s.timerCallback.Inv := by
  refine ⟨fun object h => hs.added object (mem_timerCallback.1 h).1, fun o ho hout => ?_⟩
  exact (mem_timerCallback_of_outside (s := s) hout).2 (hs.kept o ho hout)

theorem Inv.step (hs : s.Inv) (e : Event O) : (s.step e).Inv := by
  cases e with
  | create o =>
    rw [ReleasePool.step]
    split_ifs with ho
    · rw [use_count, Nat.add_eq_zero_iff] at ho
      exact hs.create (List.count_eq_zero.1 ho.2)
    · exact hs
  | copy o =>
    rw [ReleasePool.step]
    split_ifs with ho
    · rw [use_count, Nat.add_pos_iff_pos_or_pos, List.count_pos_iff] at ho
      exact hs.update fun _ => ho
    · exact hs
  | drop o => exact hs.update fun h => .inl (by omega)
  | add object =>
    rw [ReleasePool.step]
    split_ifs
    · exact hs.add object
    · exact hs
  | timerCallback => exact hs.sweep

/-- Only a sweep takes anything out of the pool. -/
theorem pool_prefix_step (he : e ≠ .timerCallback) : s.pool <+: (s.step e).pool := by
  cases e with
  | create o =>
    rw [step]
    split_ifs <;> exact List.prefix_rfl
  | copy o =>
    rw [step]
    split_ifs <;> exact List.prefix_rfl
  | drop o => exact List.prefix_rfl
  | add object =>
    rw [step]
    split_ifs
    · cases object with
      | none => exact List.prefix_rfl
      | some o => exact List.prefix_append _ _
    · exact List.prefix_rfl
  | timerCallback => exact absurd rfl he

theorem Inv.sweep_exact (hs : s.Inv) : s.Exact .timerCallback ↔ s.SingleIdle .timerCallback := by
  constructor
  · intro h _ o hidle
    by_contra htwice
    -- it stays in the pool, although it is not pointed to from outside
    have hmem := (mem_timerCallback_of_idle hidle).2 (not_le.1 htwice)
    obtain ⟨o', -, ho', hout⟩ := (h.swept rfl _).1 hmem
    obtain rfl : o = o' := Option.some.inj ho'
    exact hout.ne' hidle
  · intro h
    refine ⟨fun o ho hgone => ?_, fun _ object => ⟨fun hmem => ?_, ?_⟩⟩
    · by_contra hout
      exact hgone ((mem_timerCallback_of_outside (Nat.pos_of_ne_zero hout)).2 ho)
    · obtain ⟨o, ho, rfl⟩ := hs.sweep.added object hmem
      refine ⟨o, ho, rfl, Nat.pos_of_ne_zero fun hidle => ?_⟩
      exact absurd ((mem_timerCallback_of_idle (s := s) hidle).1 hmem) (not_lt.2 (h rfl o hidle))
    · rintro ⟨o, ho, rfl, hout⟩
      exact hs.sweep.kept o ho hout

theorem Inv.exact_step_iff (hs : s.Inv) (e : Event O) : s.Exact e ↔ s.SingleIdle e := by
  by_cases he : e = .timerCallback
  · subst he
    exact hs.sweep_exact
  · refine ⟨fun _ h => absurd h he, fun _ => ⟨fun o ho hgone => ?_, fun h => absurd h he⟩⟩
    exact absurd ((pool_prefix_step he).subset ho) hgone

/-- An object that is in the pool twice is never released, whatever happens. -/
theorem twice_kept (es : List (Event O)) (ho : 2 ≤ s.pool.count (some o)) :
    2 ≤ (Run.exec step s es).pool.count (some o) := by
  induction es generalizing s with
  | nil => exact ho
  | cons e es ih =>
    refine ih (ho.trans ?_)
    by_cases he : e = .timerCallback
    · subst he
      have hactive : (!ptr_not_active s.outside s.pool (some o)) = true := by
        rw [ptr_not_active, use_count, Bool.not_eq_true', decide_eq_false_iff_not]
        omega
      rw [step, use_counted, List.count_filter (p := (!ptr_not_active s.outside s.pool ·)) hactive]
    · exact (pool_prefix_step he).sublist.count_le _

/-- In every run, the pool keeps exactly what is pointed to from outside if and only if at every
sweep all else is in it at most once. -/
theorem exact_iff (outside : O → ℕ) (es : List (Event O)) :
    Run.Along step Exact (init outside) es ↔ Run.Along step SingleIdle (init outside) es :=
  Run.along_congr_of_inv step Inv (fun _ e hs => ⟨hs.exact_step_iff e, hs.step e⟩) (inv_init outside)

/-- An object is added twice, and its last pointer dropped. -/
theorem not_exact_addTwice :
    ¬ Run.Along step Exact (init fun _ => 0)
      [.create 0, .add (some 0), .add (some 0), .drop 0, .timerCallback] := by
  intro h
  obtain ⟨o, -, ho, hout⟩ := (h.2.2.2.2.1.swept rfl (some 0)).1 (by decide)
  obtain rfl : 0 = o := Option.some.inj ho
  exact absurd hout (by decide)

end ReleasePool

end MessageTransport
