import Mathlib.Tactic

/-!
# Removing in place

The elements of a vector that meet a predicate are removed in place: those that remain are moved to
the front, one after the other, and leave an empty element behind. The predicate may look at the
vector as it is when it is asked about an element.

* `removeIf_eq_filter`: if no move changes what the predicate says, the elements that remain are
  those that do not meet it at the beginning.
-/

namespace RemoveIf

variable {E : Type*} (empty : E) (remove : List E → E → Bool)

/-- The places to fill after the first is filled with the element behind them. If there are none,
that element stays where it is. -/
def fill : List E → List E
  | [] => []
  | _ :: gap => gap ++ [empty]

/-- The loop: `kept` remain, the places of `gap` are to be filled, and of `rest` the predicate is
still to be asked. -/
def loop : List E → List E → List E → List E × List E
  | kept, gap, [] => (kept, gap)
  | kept, gap, a :: rest =>
    if remove (kept ++ gap ++ a :: rest) a then loop kept (gap ++ [a]) rest
    else loop (kept ++ [a]) (fill empty gap) rest

/-- What remains of a vector, without the places after it. -/
def removeIf (v : List E) : List E := (loop empty remove [] [] v).1

variable {empty remove} {p : E → Bool} (Inv : List E → Prop)

/-- What is in the gap meets the predicate, and may be overwritten. -/
theorem fst_loop (hp : ∀ v, Inv v → ∀ a ∈ v, remove v a = p a) (hempty : p empty = true)
    (hmove : ∀ kept x gap a rest, p x = true →
      Inv (kept ++ x :: gap ++ a :: rest) → Inv (kept ++ a :: gap ++ empty :: rest))
    (kept gap rest : List E) (hgap : ∀ x ∈ gap, p x = true) (hinv : Inv (kept ++ gap ++ rest)) :
    (loop empty remove kept gap rest).1 = kept ++ rest.filter (!p ·) := by
  induction rest generalizing kept gap with
  | nil => simp [loop]
  | cons a rest ih =>
    have ha : remove (kept ++ gap ++ a :: rest) a = p a := hp _ hinv a (by simp)
    rw [loop, ha]
    cases hpa : p a with
    | true =>
      rw [if_pos rfl, ih kept (gap ++ [a]) ?_ (by simpa using hinv), List.filter_cons_of_neg]
      · simp [hpa]
      · simpa [or_imp, forall_and, hpa] using hgap
    | false =>
      rw [if_neg (by simp), List.filter_cons_of_pos (by simp [hpa])]
      cases gap with
      | nil =>
        have := ih (kept ++ [a]) [] (by simp) (by simpa using hinv)
        simpa [fill] using this
      | cons x gap =>
        rw [fill]
        have hx : p x = true := hgap x (by simp)
        have hinv' := hmove kept x gap a rest hx hinv
        have := ih (kept ++ [a]) (gap ++ [empty]) ?_ (by simpa using hinv')
        · simpa using this
        · simpa [or_imp, forall_and, hempty] using fun y hy => hgap y (by simp [hy])

/-- The moves keep an invariant that fixes what the predicate says. -/
theorem removeIf_eq_filter (hp : ∀ v, Inv v → ∀ a ∈ v, remove v a = p a) (hempty : p empty = true)
    (hmove : ∀ kept x gap a rest, p x = true →
      Inv (kept ++ x :: gap ++ a :: rest) → Inv (kept ++ a :: gap ++ empty :: rest))
    {v : List E} (hinv : Inv v) : removeIf empty remove v = v.filter (!p ·) :=
  fst_loop Inv hp hempty hmove [] [] v (by simp) hinv

end RemoveIf
