import MessageTransport.Lib.Run

/-!
# Memory objects that outlive their names

Named memory objects of an operating system, for programs that call it. What the system does is left
open: `NamedMemory` has the calls, over states that are the system's own, and
`NamedMemory.Documented` is what the programs may rely on. A name is bound to at most one object; to
create an object takes a name that is free, and the object is none of the earlier ones; to remove a
name leaves the object to those who have it open. Every call may fail.

* `bound_exec_iff`: what a name is bound to, it is bound to as long as nobody removes the name. That
  it may be created again makes no difference, since that is another object;
* `ObjectTable.documented`: a system that keeps names and objects in a table does what it should.
-/

/-- The calls of a system with the states `M`, names `N`, and objects that hold an `O` each and are
told apart by numbers. `E` are the ways in which a call fails. -/
structure NamedMemory (M N O E : Type*) where
  /-- The object that a name is bound to. -/
  bound : M → N → Option ℕ
  /-- What is in an object, for those who have it open. -/
  object : M → ℕ → Option O
  /-- There was an object of this number. -/
  Used : M → ℕ → Prop
  /-- Take a name away: whether that was done. -/
  remove : M → N → Bool × M
  /-- A new object under a name. -/
  create_only : M → N → O → Except E ℕ × M
  /-- The object under a name. -/
  open_only : M → N → Except E ℕ × M
  /-- Change what is in an object that is open. -/
  write : M → ℕ → O → M

namespace NamedMemory

variable {M N O E : Type*} (os : NamedMemory M N O E)

/-- What is said of `remove`: the name is free if it returns true, and else what it was. -/
structure Removing (m : M) (n : N) : Prop where
  used : ∀ {a}, os.Used m a → os.Used (os.remove m n).2 a
  object : os.object (os.remove m n).2 = os.object m
  other : ∀ {n'}, n' ≠ n → os.bound (os.remove m n).2 n' = os.bound m n'
  done : (os.remove m n).1 = true → os.bound (os.remove m n).2 n = none
  failed : (os.remove m n).1 = false → os.bound (os.remove m n).2 n = os.bound m n

/-- What is said of `create_only`: it takes a free name, and the object is new. A creation that
fails half-way may leave a new object under the name. -/
structure Creating (m : M) (n : N) (o : O) : Prop where
  used : ∀ {a}, os.Used m a → os.Used (os.create_only m n o).2 a
  object : ∀ a, os.object (os.create_only m n o).2 a = os.object m a ∨
    ¬ os.Used m a ∧ os.object (os.create_only m n o).2 a = some o
  other : ∀ {n'}, n' ≠ n → os.bound (os.create_only m n o).2 n' = os.bound m n'
  created : ∀ {a}, (os.create_only m n o).1 = .ok a →
    os.bound (os.create_only m n o).2 n = some a ∧
      os.object (os.create_only m n o).2 a = some o
  fresh : os.bound (os.create_only m n o).2 n = os.bound m n ∨
    os.bound m n = none ∧ ∀ {a}, os.bound (os.create_only m n o).2 n = some a → ¬ os.Used m a
  taken : ∀ {a}, os.bound m n = some a → ∃ e, (os.create_only m n o).1 = .error e

/-- What is said of `open_only`: it opens what the name is bound to. -/
structure Opening (m : M) (n : N) : Prop where
  used : ∀ {a}, os.Used m a → os.Used (os.open_only m n).2 a
  object : os.object (os.open_only m n).2 = os.object m
  bound : os.bound (os.open_only m n).2 = os.bound m
  opened : ∀ {a}, (os.open_only m n).1 = .ok a → os.bound m n = some a

/-- What is said of a write: it changes this object. -/
structure Writing (m : M) (a : ℕ) (o : O) : Prop where
  used : ∀ {b}, os.Used m b → os.Used (os.write m a o) b
  bound : os.bound (os.write m a o) = os.bound m
  other : ∀ {b}, b ≠ a → os.object (os.write m a o) b = os.object m b
  written : ∀ {o'}, os.object m a = some o' → os.object (os.write m a o) a = some o
  missing : os.object m a = none → os.object (os.write m a o) a = none

/-- What programs may rely on, in every state of the system. -/
structure Documented : Prop where
  bound_used : ∀ {m n a}, os.bound m n = some a → os.Used m a
  object_used : ∀ {m a o}, os.object m a = some o → os.Used m a
  remove : ∀ m n, os.Removing m n
  create_only : ∀ m n o, os.Creating m n o
  open_only : ∀ m n, os.Opening m n
  write : ∀ m a o, os.Writing m a o

/-- What programs ask for. -/
inductive Request (N O : Type*)
  | remove (n : N)
  | create_only (n : N) (o : O)
  | open_only (n : N)
  | write (a : ℕ) (o : O)

def step (m : M) : Request N O → M
  | .remove n => (os.remove m n).2
  | .create_only n o => (os.create_only m n o).2
  | .open_only n => (os.open_only m n).2
  | .write a o => os.write m a o

/-- The request takes the name away. -/
def Removes (n : N) (m : M) (r : Request N O) : Prop := r = .remove n ∧ (os.remove m n).1 = true

section Names

variable {os} {m : M} {n : N} {a : ℕ} (hos : os.Documented)
include hos

theorem Documented.used_step (r : Request N O) (ha : os.Used m a) : os.Used (os.step m r) a := by
  cases r with
  | remove n => exact (hos.remove m n).used ha
  | create_only n o => exact (hos.create_only m n o).used ha
  | open_only n => exact (hos.open_only m n).used ha
  | write b o => exact (hos.write m b o).used ha

/-- **One step.** A name keeps what it is bound to, or it is removed, or it was free and has no
earlier object. -/
theorem Documented.bound_step (m : M) (r : Request N O) (n : N) :
    ¬ os.Removes n m r ∧ os.bound (os.step m r) n = os.bound m n ∨
      os.Removes n m r ∧ os.bound (os.step m r) n = none ∨
      os.bound m n = none ∧ ∀ a, os.bound (os.step m r) n = some a → ¬ os.Used m a := by
  cases r with
  | remove n' =>
    by_cases hn : n = n'
    · subst hn
      cases hr : (os.remove m n).1 with
      | true => exact .inr (.inl ⟨⟨rfl, hr⟩, (hos.remove m n).done hr⟩)
      | false =>
        refine .inl ⟨fun h => ?_, (hos.remove m n).failed hr⟩
        cases hr.symm.trans h.2
    · refine .inl ⟨fun h => hn ?_, (hos.remove m n').other hn⟩
      cases h.1
      rfl
  | create_only n' o =>
    by_cases hn : n = n'
    · subst hn
      exact (hos.create_only m n o).fresh.imp (fun h => ⟨nofun, h⟩)
        fun h => .inr ⟨h.1, fun _ => h.2⟩
    · exact .inl ⟨nofun, (hos.create_only m n' o).other hn⟩
  | open_only n' => exact .inl ⟨nofun, congrFun (hos.open_only m n').bound n⟩
  | write b o => exact .inl ⟨nofun, congrFun (hos.write m b o).bound n⟩

/-- An object that a name is not bound to any more, it is never bound to again. -/
theorem Documented.bound_ne_exec (rs : List (Request N O)) (hb : os.bound m n ≠ some a)
    (ha : os.Used m a) : os.bound (Run.exec os.step m rs) n ≠ some a := by
  have hgone : Run.Always os.step (fun m => os.bound m n ≠ some a ∧ os.Used m a) m rs := by
    refine Run.always_of_inv os.step _ (fun m r hm => ⟨?_, hos.used_step r hm.2⟩) ⟨hb, ha⟩
    rcases hos.bound_step m r n with ⟨-, heq⟩ | ⟨-, hnone⟩ | ⟨-, hnew⟩
    · rw [heq]
      exact hm.1
    · rw [hnone]
      nofun
    · exact fun heq => hnew a heq hm.2
  exact hgone.exec.1

/-- **A name keeps its object** exactly as long as nobody removes the name. -/
theorem Documented.bound_exec_iff (hb : os.bound m n = some a) (rs : List (Request N O)) :
    os.bound (Run.exec os.step m rs) n = some a ↔
      Run.Along os.step (fun m r => ¬ os.Removes n m r) m rs := by
  induction rs generalizing m with
  | nil => exact iff_of_true hb trivial
  | cons r rs ih =>
    rcases hos.bound_step m r n with ⟨hr, heq⟩ | ⟨hr, hnone⟩ | ⟨hfree, -⟩
    · exact (ih (heq.trans hb)).trans (and_iff_right hr).symm
    · refine iff_of_false (hos.bound_ne_exec rs ?_ (hos.used_step r (hos.bound_used hb)))
        fun h => h.1 hr
      rw [hnone]
      nofun
    · cases hb.symm.trans hfree

end Names

end NamedMemory

/-! ### A system -/

/-- The object that each name is bound to, the objects by their number, and a number that was never
used. -/
structure ObjectTable (N O : Type*) where
  bound : N → Option ℕ
  object : ℕ → Option O
  next : ℕ
  bound_lt : ∀ {n a}, bound n = some a → a < next
  object_lt : ∀ {a o}, object a = some o → a < next

namespace ObjectTable

variable {N O E : Type*}

def empty : ObjectTable N O := ⟨fun _ => none, fun _ => none, 0, nofun, nofun⟩

variable [DecidableEq N]

/-- No object is lost: who has it open goes on. -/
def remove (m : ObjectTable N O) (n : N) : ObjectTable N O where
  bound := Function.update m.bound n none
  object := m.object
  next := m.next
  bound_lt := by
    intro n' a ha
    by_cases hn : n' = n
    · subst hn
      rw [Function.update_self] at ha
      cases ha
    · rw [Function.update_of_ne hn] at ha
      exact m.bound_lt ha
  object_lt := m.object_lt

/-- A new object under a name. -/
def create (m : ObjectTable N O) (n : N) (o : O) : ObjectTable N O where
  bound := Function.update m.bound n (some m.next)
  object := Function.update m.object m.next (some o)
  next := m.next + 1
  bound_lt := by
    intro n' a ha
    by_cases hn : n' = n
    · subst hn
      rw [Function.update_self] at ha
      cases ha
      exact Nat.lt_succ_self _
    · rw [Function.update_of_ne hn] at ha
      exact (m.bound_lt ha).trans (Nat.lt_succ_self _)
  object_lt := by
    intro a o' ha
    by_cases hn : a = m.next
    · omega
    · rw [Function.update_of_ne hn] at ha
      exact (m.object_lt ha).trans (Nat.lt_succ_self _)

omit [DecidableEq N] in
/-- Change what is in an object, if there is one. -/
def write (m : ObjectTable N O) (a : ℕ) (o : O) : ObjectTable N O where
  bound := m.bound
  object b := if b = a then (m.object a).map fun _ => o else m.object b
  next := m.next
  bound_lt := m.bound_lt
  object_lt := by
    intro b o' hb
    split_ifs at hb with hab
    · obtain ⟨o'', ho, -⟩ := Option.map_eq_some_iff.1 hb
      exact hab ▸ m.object_lt ho
    · exact m.object_lt hb

/-- The table as a system whose calls fail for one reason: the name is not bound, or bound
already. -/
def system (e : E) : NamedMemory (ObjectTable N O) N O E where
  bound := bound
  object := object
  Used m a := a < m.next
  remove m n := ((m.bound n).isSome, m.remove n)
  create_only m n o :=
    match m.bound n with
    | some _ => (.error e, m)
    | none => (.ok m.next, m.create n o)
  open_only m n :=
    match m.bound n with
    | some a => (.ok a, m)
    | none => (.error e, m)
  write := write

variable {e : E}

theorem removing (m : ObjectTable N O) (n : N) : (system e).Removing m n where
  used := id
  object := rfl
  other hn := Function.update_of_ne hn ..
  done _ := Function.update_self ..
  failed h := by
    have hb : m.bound n = none := Option.not_isSome_iff_eq_none.1 (Bool.eq_false_iff.1 h)
    exact (Function.update_self ..).trans hb.symm

theorem creating (m : ObjectTable N O) (n : N) (o : O) : (system e).Creating m n o := by
  cases hb : m.bound n with
  | some b =>
    have heq : (system e).create_only m n o = (.error e, m) := by simp only [system, hb]
    constructor <;> simp [heq]
  | none =>
    have heq : (system e).create_only m n o = (.ok m.next, m.create n o) := by
      simp only [system, hb]
    constructor
    · rw [heq]
      exact fun ha => Nat.lt_succ_of_lt ha
    · intro a
      rw [heq]
      by_cases ha : a = m.next
      · subst ha
        exact .inr ⟨lt_irrefl _, Function.update_self ..⟩
      · exact .inl (Function.update_of_ne ha ..)
    · intro n' hn
      rw [heq]
      exact Function.update_of_ne hn ..
    · intro a ha
      rw [heq] at ha ⊢
      cases ha
      exact ⟨Function.update_self .., Function.update_self ..⟩
    · refine .inr ⟨hb, fun {a} ha => ?_⟩
      rw [heq] at ha
      cases (Function.update_self ..).symm.trans ha
      exact lt_irrefl _
    · intro a ha
      cases hb.symm.trans ha

theorem opening (m : ObjectTable N O) (n : N) : (system e).Opening m n := by
  cases hb : m.bound n with
  | some b =>
    have heq : (system e).open_only m n = (.ok b, m) := by simp only [system, hb]
    constructor <;> simp [system, hb]
  | none =>
    have heq : (system e).open_only m n = (.error e, m) := by simp only [system, hb]
    constructor <;> simp [heq]

theorem writing (m : ObjectTable N O) (a : ℕ) (o : O) : (system e).Writing m a o where
  used := id
  bound := rfl
  other hb := if_neg hb
  written ho := (if_pos rfl).trans (congrArg (Option.map fun _ => o) ho)
  missing ho := (if_pos rfl).trans (congrArg (Option.map fun _ => o) ho)

/-- **The table does what it should.** -/
theorem documented : (system e : NamedMemory (ObjectTable N O) N O E).Documented where
  bound_used := bound_lt _
  object_used := object_lt _
  remove := removing
  create_only := creating
  open_only := opening
  write := writing

end ObjectTable
