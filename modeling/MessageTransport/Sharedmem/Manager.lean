import MessageTransport.Lib.NamedMemory
import MessageTransport.Sharedmem.World

/-!
# Managers and their segments

`main` of the manager creates the segment and the block table in it, waits, resets all blocks and
removes the segment. Publishers and subscribers open the segment by its name when they first need
it, and keep it. Here any number of managers, one after the other or at the same time, and any
number of clients act in any order; every one of them may use a segment name of its own.

The operating system is a parameter, of which only `NamedMemory.Documented` is assumed. Its calls
may fail: to create the segment may throw, to open it may throw `bad_alloc` or another exception,
and `shared_memory_object::remove` may return false. Where it succeeds, it takes the name away, and a
process that has the segment open can go on with it. An exception that leaves `main` may or may not
run the destructors (`unwinds`).

* `connect_cases`: how the opening of a segment ends;
* `client_step`: what one call of a client can change;
* `memory_step`: what one deed asks of the operating system;
* `meet_iff`: of two clients that connect at different times, both get the same segment exactly when
  no manager of that name has removed it in between.
-/

namespace MessageTransport

/-- How far `main` of a manager is. -/
inductive Phase
  /-- Its options are read. -/
  | start
  /-- `remover` is constructed: the name was removed. -/
  | removed
  /-- `managed_shm` is constructed. -/
  | created (a : ℕ)
  /-- The block manager is there. It waits for input. -/
  | serving (a : ℕ)
  /-- All blocks are reset. -/
  | cleared (a : ℕ)
  | ended
  deriving DecidableEq

/-- What a publisher or a subscriber keeps: the segment that it has open, its handle, and the topic
it was obtained for. -/
structure SegmentClient where
  segment_ : Option ℕ
  shm_handle_ : ShmHandle
  topic : Name
  /-- For publishers. -/
  clientRegistered : Bool

/-- The calls of a client that has a segment. -/
inductive Use
  | reallocateBlock (size : UInt32) (alloc : Bool)
  | publish_msg (msg : Message) (alloc : Bool)
  | read
  | resetBlock

/-- The whole operation of a client. -/
def Use.toOp {κ : Type*} (k : κ) : Use → Op κ
  | .reallocateBlock size alloc => .reallocateBlock k size alloc
  | .publish_msg msg alloc => .publish_msg k msg alloc
  | .read => .read k
  | .resetBlock => .resetBlock k

section Use

variable {κ : Type*} [DecidableEq κ] {w w' : World κ} {k : κ}

/-- A call through a handle depends on the table and on the handle. -/
theorem World.step_use (hs : w'.shm = w.shm) (hh : w'.handle k = w.handle k) (u : Use) :
    (w'.step (u.toOp k)).shm = (w.step (u.toOp k)).shm ∧
      (w'.step (u.toOp k)).handle k = (w.step (u.toOp k)).handle k := by
  cases u with
  | reallocateBlock size alloc | publish_msg msg alloc =>
    simp only [Use.toOp, World.step, hs, hh, World.setHandle_shm, World.setHandle_self, and_self]
  | read | resetBlock =>
    simp only [Use.toOp, World.step, hs, hh]
    split
    · simp only [World.setHandle_shm, World.setHandle_self, and_self]
    · exact ⟨hs, hh⟩

/-- It changes no handle but that one. -/
theorem World.step_use_other (w : World κ) (k : κ) (u : Use) :
    (w.step (u.toOp k)).topic = w.topic ∧
      ∀ k', k' ≠ k → (w.step (u.toOp k)).handle k' = w.handle k' := by
  cases u with
  | reallocateBlock size alloc | publish_msg msg alloc =>
    exact ⟨rfl, fun k' hk => World.setHandle_ne w _ hk⟩
  | read | resetBlock =>
    simp only [Use.toOp, World.step]
    split
    · exact ⟨rfl, fun k' hk => World.setHandle_ne w _ hk⟩
    · exact ⟨rfl, fun _ _ => rfl⟩

end Use

/-- How a segment is not opened, or not created. -/
inductive OpenError
  | bad_alloc
  /-- The name is not bound, or bound already, or anything else. -/
  | interprocess_exception
  deriving DecidableEq

/-- An operating system with segments. A segment without a block table in it holds `none`. -/
abbrev SegmentMemory (M ν : Type*) := NamedMemory M ν (Option Shm) OpenError

/-- The block table in segment `a`. -/
def SegmentMemory.table {M ν : Type*} (os : SegmentMemory M ν) (memory : M) (a : ℕ) : Option Shm :=
  (os.object memory a).join

/-- The state of the operating system, the managers and the clients. -/
structure Deployment (M μ κ : Type*) where
  memory : M
  main : μ → Phase
  client : κ → SegmentClient

/-- The next step of a manager, and the calls of the clients. -/
inductive Deed (μ κ : Type*)
  | main (m : μ) (size : ℕ) (alloc unwinds : Bool)
  | initialise (k : κ) (topic : CString) (alloc : Bool)
  | startReceiving (k : κ) (topic : CString)
  | use (k : κ) (u : Use)
  /-- The client is destroyed; another one may take its place. -/
  | close (k : κ)

/-- The client that acts. -/
def Deed.client {μ κ : Type*} : Deed μ κ → Option κ
  | .initialise k _ _ | .startReceiving k _ | .use k _ | .close k => some k
  | .main _ _ _ _ => none

theorem Deed.eq_main {μ κ : Type*} {d : Deed μ κ} (hd : d.client = none) :
    ∃ m size alloc unwinds, d = .main m size alloc unwinds := by
  cases d with
  | main m size alloc unwinds => exact ⟨m, size, alloc, unwinds, rfl⟩
  | initialise k topic alloc | startReceiving k topic | use k u | close k => cases hd

/-- A client that has not opened a segment. -/
def SegmentClient.init : SegmentClient := ⟨none, .null, [], false⟩

namespace Deployment

variable {M ν μ κ : Type*}

/-- Nobody has done anything yet. -/
def init (memory : M) : Deployment M μ κ := ⟨memory, fun _ => .start, fun _ => .init⟩

/-- The world of a table, with the handles that the clients hold. -/
def world (D : Deployment M μ κ) (s : Shm) : World κ :=
  ⟨s, fun k => (D.client k).shm_handle_, fun k => (D.client k).topic⟩

variable (os : SegmentMemory M ν) (own : μ → ν) (config : κ → ν)

section Steps

variable [DecidableEq μ] [DecidableEq κ]

/-- The manager goes on, with the memory as it leaves it. -/
def goto (D : Deployment M μ κ) (m : μ) (memory : M) (phase : Phase) : Deployment M μ κ :=
  { D with memory := memory, main := Function.update D.main m phase }

/-- The client goes on. -/
def setClient (D : Deployment M μ κ) (k : κ) (memory : M) (c : SegmentClient) : Deployment M μ κ :=
  { D with memory := memory, client := Function.update D.client k c }

/-- An exception leaves `main`: `~shm_remove` removes the name if the stack is unwound. -/
def abort (D : Deployment M μ κ) (m : μ) (memory : M) (n : ν) (unwinds : Bool) :
    Deployment M μ κ :=
  D.goto m (if unwinds then (os.remove memory n).2 else memory) .ended

/-- The next step of `main`, with the segment name `n`. -/
def stepMain (D : Deployment M μ κ) (m : μ) (n : ν) (size : ℕ) (alloc unwinds : Bool) :
    Deployment M μ κ :=
  match D.main m with
  | .start => D.goto m (os.remove D.memory n).2 .removed
  | .removed =>
    match os.create_only D.memory n none with
    | (.ok a, memory) => D.goto m memory (.created a)
    | (.error _, memory) => D.abort os m memory n unwinds
  | .created a =>
    match os.table D.memory a with
    | some _ => D.goto m D.memory (.serving a)
    | none =>
      if alloc then D.goto m (os.write D.memory a (some (Shm.init size))) (.serving a)
      else D.abort os m D.memory n unwinds
  | .serving a =>
    match os.table D.memory a with
    | some s => D.goto m (os.write D.memory a (some s.resetAllBlocks)) (.cleared a)
    | none => D.goto m D.memory (.cleared a)
  | .cleared _ => D.goto m (os.remove D.memory n).2 .ended
  | .ended => D

/-- Open the segment, and find the manager in it: the segment and its table, if there is one. -/
def connect (memory : M) (n : ν) : Except OpenError (Option (ℕ × Shm)) × M :=
  match os.open_only memory n with
  | (.ok a, memory) => (.ok ((os.table memory a).map fun s => (a, s)), memory)
  | (.error e, memory) => (.error e, memory)

/-- `initialise(topic)` of a publisher. -/
def initialise (D : Deployment M μ κ) (k : κ) (n : ν) (topic : CString) (alloc : Bool) :
    Deployment M μ κ :=
  if (D.client k).clientRegistered then D
  else
    let c := { D.client k with clientRegistered := true }
    match connect os D.memory n with
    | (.error .interprocess_exception, memory) => D.setClient k memory c
    | (.error .bad_alloc, memory) | (.ok none, memory) =>
      D.setClient k memory { c with segment_ := none }
    | (.ok (some (a, s)), memory) =>
      match s.allocateBlock topic (16 : UInt32).toNat alloc with
      | (s', some h) => D.setClient k (os.write memory a (some s'))
          { c with segment_ := some a, shm_handle_ := h, topic := topic.chars }
      | (s', none) => D.setClient k (os.write memory a (some s')) { c with segment_ := none }

/-- `startReceiving` of a subscriber to `topic`. -/
def startReceiving (D : Deployment M μ κ) (k : κ) (n : ν) (topic : CString) : Deployment M μ κ :=
  match (D.client k).segment_ with
  | some _ => D
  | none =>
    match connect os D.memory n with
    | (.error .interprocess_exception, memory) => D.setClient k memory (D.client k)
    | (.error .bad_alloc, memory) | (.ok none, memory) =>
      D.setClient k memory { D.client k with segment_ := none }
    | (.ok (some (a, s)), memory) =>
      let h := s.findHandle topic
      D.setClient k memory { D.client k with
        segment_ := if h.is_valid then some a else none
        shm_handle_ := h
        topic := topic.chars }

/-- A call through the segment that the client has open. -/
def use (D : Deployment M μ κ) (k : κ) (u : Use) : Deployment M μ κ :=
  match (D.client k).segment_ with
  | some a =>
    match os.table D.memory a with
    | some s =>
      let w := (D.world s).step (u.toOp k)
      D.setClient k (os.write D.memory a (some w.shm)) { D.client k with shm_handle_ := w.handle k }
    | none => D
  | none => D

/-- One deed, with the segment names of the managers and of the clients. -/
def step (D : Deployment M μ κ) : Deed μ κ → Deployment M μ κ
  | .main m size alloc unwinds => D.stepMain os m (own m) size alloc unwinds
  | .initialise k topic alloc => D.initialise os k (config k) topic alloc
  | .startReceiving k topic => D.startReceiving os k (config k) topic
  | .use k u => D.use os k u
  | .close k => D.setClient k D.memory .init

end Steps

/-! ### Clients -/

/-- A request as clients make them: to open a segment, or to change a table that is there. -/
def ByClient (memory : M) : NamedMemory.Request ν (Option Shm) → Prop
  | .open_only _ => True
  | .write a o => os.table memory a ≠ none ∧ o ≠ none
  | .remove _ | .create_only _ _ => False

section Clients

variable {os own config} {memory : M} {n : ν} {a b : ℕ} {s : Shm} (hos : os.Documented)

include hos

theorem table_remove (memory : M) (n : ν) : os.table (os.remove memory n).2 = os.table memory := by
  funext a
  rw [SegmentMemory.table, (hos.remove memory n).object, SegmentMemory.table]

theorem table_open (memory : M) (n : ν) : os.table (os.open_only memory n).2 = os.table memory := by
  funext a
  rw [SegmentMemory.table, (hos.open_only memory n).object, SegmentMemory.table]

/-- A new segment has no table. -/
theorem table_create_only (memory : M) (n : ν) :
    os.table (os.create_only memory n none).2 = os.table memory := by
  funext a
  rcases (hos.create_only memory n none).object a with heq | ⟨hnew, heq⟩
  · rw [SegmentMemory.table, heq, SegmentMemory.table]
  · have hnone : os.object memory a = none := by
      by_contra hsome
      obtain ⟨o, ho⟩ := Option.ne_none_iff_exists'.1 hsome
      exact hnew (hos.object_used ho)
    rw [SegmentMemory.table, SegmentMemory.table, heq, hnone]
    rfl

theorem table_abort [DecidableEq μ] (D : Deployment M μ κ) (m : μ) (memory : M) (n : ν)
    (unwinds : Bool) : os.table (D.abort os m memory n unwinds).memory = os.table memory := by
  cases unwinds with
  | true => exact table_remove hos memory n
  | false => rfl

/-- **Inversion.** To open the segment fails, or there is no table in it, or what is found is the
table of the segment that the name is bound to. -/
theorem connect_cases (memory : M) (n : ν) :
    (∃ e, connect os memory n = (.error e, (os.open_only memory n).2)) ∨
    connect os memory n = (.ok none, (os.open_only memory n).2) ∨
    ∃ a s, connect os memory n = (.ok (some (a, s)), (os.open_only memory n).2) ∧
      os.bound memory n = some a ∧ os.table memory a = some s := by
  have htable := table_open hos memory n
  have hopened (a : ℕ) := (hos.open_only memory n).opened (a := a)
  unfold connect
  cases ho : os.open_only memory n with
  | mk r memory' =>
    rw [ho] at htable hopened
    cases r with
    | error e => exact .inl ⟨e, rfl⟩
    | ok a =>
      simp only [htable]
      cases hs : os.table memory a with
      | none => exact .inr (.inl rfl)
      | some s => exact .inr (.inr ⟨a, s, rfl, hopened a rfl, hs⟩)

theorem table_write_self (h : os.table memory a = some s) (o : Option Shm) :
    os.table (os.write memory a o) a = o := by
  have ho : os.object memory a = some (some s) := Option.join_eq_some_iff.1 h
  rw [SegmentMemory.table, (hos.write memory a o).written ho, Option.join_some]

theorem table_write_ne (hab : a ≠ b) (o : Option Shm) :
    os.table (os.write memory b o) a = os.table memory a := by
  rw [SegmentMemory.table, (hos.write memory b o).other hab, SegmentMemory.table]

/-- What clients ask for changes no name, and makes no table. -/
theorem exec_byClient {memory₀ : M} (hbound : os.bound memory = os.bound memory₀)
    (htable : ∀ a, os.table memory₀ a = none → os.table memory a = none)
    {rs : List (NamedMemory.Request ν (Option Shm))} (hrs : ∀ r ∈ rs, ByClient os memory₀ r) :
    os.bound (Run.exec os.step memory rs) = os.bound memory₀ ∧
      ∀ a, os.table memory₀ a = none → os.table (Run.exec os.step memory rs) a = none := by
  induction rs generalizing memory with
  | nil => exact ⟨hbound, htable⟩
  | cons r rs ih =>
    obtain ⟨hr, hrs'⟩ := List.forall_mem_cons.1 hrs
    cases r with
    | remove n => cases hr
    | create_only n o => cases hr
    | open_only n =>
      refine ih ((hos.open_only memory n).bound.trans hbound) (fun a ha => ?_) hrs'
      exact (congrFun (table_open hos memory n) a).trans (htable a ha)
    | write b o =>
      refine ih ((hos.write memory b o).bound.trans hbound) (fun a ha => ?_) hrs'
      have hab : a ≠ b := by
        rintro rfl
        exact hr.1 ha
      exact (table_write_ne hos hab o).trans (htable a ha)

variable [DecidableEq μ] [DecidableEq κ]

/-- **What a client can do**: it asks for the things that clients ask for, and may open the segment
that its name is bound to if there is a table in it. -/
theorem client_step (D : Deployment M μ κ) {d : Deed μ κ} {k : κ} (hd : d.client = some k) :
    ∃ rs c, D.step os own config d = D.setClient k (Run.exec os.step D.memory rs) c ∧
      (∀ r ∈ rs, ByClient os D.memory r) ∧
      ∀ a, c.segment_ = some a → (D.client k).segment_ = some a ∨
        os.bound D.memory (config k) = some a ∧ os.table D.memory a ≠ none := by
  have hid : D = D.setClient k D.memory (D.client k) := by
    rw [setClient, Function.update_eq_self]
  have hopen : ∀ r ∈ [NamedMemory.Request.open_only (O := Option Shm) (config k)],
      ByClient os D.memory r := by
    simp [ByClient]
  cases d with
  | main m size alloc unwinds => cases hd
  | initialise k topic alloc =>
    cases hd
    simp only [step, initialise]
    split_ifs
    · exact ⟨[], _, hid, nofun, fun _ => .inl⟩
    rcases connect_cases hos D.memory (config k) with ⟨e, hc⟩ | hc | ⟨a, s, hc, hbound, htable⟩ <;>
      simp only [hc]
    · cases e with
      | bad_alloc => exact ⟨[.open_only (config k)], _, rfl, hopen, nofun⟩
      | interprocess_exception => exact ⟨[.open_only (config k)], _, rfl, hopen, fun _ => .inl⟩
    · exact ⟨[.open_only (config k)], _, rfl, hopen, nofun⟩
    · have hwrite (s' : Shm) : ∀ r ∈ [.open_only (config k), .write a (some s')],
          ByClient os D.memory r := by
        simp [ByClient, htable]
      split
      · refine ⟨_, _, rfl, hwrite _, fun b hb => .inr ?_⟩
        cases hb
        exact ⟨hbound, by rw [htable]; nofun⟩
      · exact ⟨_, _, rfl, hwrite _, nofun⟩
  | startReceiving k topic =>
    cases hd
    simp only [step, startReceiving]
    split
    · exact ⟨[], _, hid, nofun, fun _ => .inl⟩
    rcases connect_cases hos D.memory (config k) with ⟨e, hc⟩ | hc | ⟨a, s, hc, hbound, htable⟩ <;>
      simp only [hc]
    · cases e with
      | bad_alloc => exact ⟨[.open_only (config k)], _, rfl, hopen, nofun⟩
      | interprocess_exception => exact ⟨[.open_only (config k)], _, rfl, hopen, fun _ => .inl⟩
    · exact ⟨[.open_only (config k)], _, rfl, hopen, nofun⟩
    · refine ⟨[.open_only (config k)], _, rfl, hopen, fun b hb => .inr ?_⟩
      simp only at hb
      split_ifs at hb
      cases hb
      exact ⟨hbound, by rw [htable]; nofun⟩
  | use k u =>
    cases hd
    simp only [step, use]
    split
    · rename_i b hseg
      split
      · rename_i s hs
        exact ⟨[.write b _], _, rfl, by simp [ByClient, hs], fun _ => .inl⟩
      · exact ⟨[], _, hid, nofun, fun _ => .inl⟩
    · exact ⟨[], _, hid, nofun, fun _ => .inl⟩
  | close k =>
    cases hd
    exact ⟨[], _, rfl, nofun, nofun⟩

end Clients

/-! ### Names -/

section Removing

variable [DecidableEq μ] [DecidableEq κ]

/-- The next step of `main` removes its segment name, `n`. -/
def removing (D : Deployment M μ κ) (m : μ) (n : ν) (alloc unwinds : Bool) : Bool :=
  match D.main m with
  | .start | .cleared _ => (os.remove D.memory n).1
  | .removed =>
    match os.create_only D.memory n none with
    | (.ok _, _) => false
    | (.error _, memory) => unwinds && (os.remove memory n).1
  | .created a =>
    (os.table D.memory a).isNone && !alloc && unwinds && (os.remove D.memory n).1
  | .serving _ | .ended => false

/-- The deed removes the segment name `n`. -/
def Removes (n : ν) (D : Deployment M μ κ) : Deed μ κ → Prop
  | .main m _ alloc unwinds => own m = n ∧ D.removing os m n alloc unwinds = true
  | _ => False

instance [DecidableEq ν] (n : ν) (D : Deployment M μ κ) (d : Deed μ κ) :
    Decidable (D.Removes os own n d) :=
  match d with
  | .main _ _ _ _ => inferInstanceAs (Decidable (_ ∧ _))
  | .initialise _ _ _ | .startReceiving _ _ | .use _ _ | .close _ =>
    inferInstanceAs (Decidable False)

end Removing

section Names

variable [DecidableEq μ] [DecidableEq κ]
variable {os own config} {D : Deployment M μ κ} {n : ν} {d : Deed μ κ} {k : κ} {a : ℕ}

omit [DecidableEq κ] in
theorem stepMain_client (D : Deployment M μ κ) (m : μ) (n : ν) (size : ℕ) (alloc unwinds : Bool) :
    (D.stepMain os m n size alloc unwinds).client = D.client := by
  unfold stepMain
  split
  · rfl
  · split <;> rfl
  · split
    · rfl
    · split_ifs <;> rfl
  · split <;> rfl
  · rfl
  · rfl

omit [DecidableEq μ] [DecidableEq κ] in
variable (os) in
/-- Nothing but one `remove`, if it is called at all. -/
theorem removal (memory : M) (n : ν) (b : Bool) :
    ∃ rs : List (NamedMemory.Request ν (Option Shm)),
      (if b then (os.remove memory n).2 else memory) = Run.exec os.step memory rs ∧
      ∀ n', Run.Along os.step (fun m r => ¬ os.Removes n' m r) memory rs ↔
        ¬ (n = n' ∧ (b && (os.remove memory n').1) = true) := by
  cases b with
  | false => exact ⟨[], rfl, fun n' => by simp [Run.Along]⟩
  | true =>
    refine ⟨[.remove n], rfl, fun n' => ?_⟩
    simp [Run.Along, NamedMemory.Removes]

variable (own config) in
/-- **What a deed asks of the operating system.** -/
theorem memory_step (hos : os.Documented) (D : Deployment M μ κ) (d : Deed μ κ) :
    ∃ rs : List (NamedMemory.Request ν (Option Shm)),
      (D.step os own config d).memory = Run.exec os.step D.memory rs ∧
      ∀ n, Run.Along os.step (fun m r => ¬ os.Removes n m r) D.memory rs ↔
        ¬ D.Removes os own n d := by
  cases hd : d.client with
  | some k =>
    obtain ⟨rs, c, hstep, hrs, -⟩ := client_step hos D hd
    refine ⟨rs, by rw [hstep]; rfl, fun n => iff_of_true ?_ ?_⟩
    · refine Run.Along.mono (fun m r h => ?_) ((Run.along_iff_forall os.step).2 hrs)
      rintro ⟨rfl, -⟩
      exact h
    · cases d with
      | main m size alloc unwinds => cases hd
      | initialise k topic alloc | startReceiving k topic | use k u | close k => exact id
  | none =>
    obtain ⟨m, size, alloc, unwinds, rfl⟩ := Deed.eq_main hd
    cases hm : D.main m with
    | start =>
      simp only [step, stepMain, Removes, removing, hm]
      exact removal os D.memory (own m) true
    | removed =>
      simp only [step, stepMain, Removes, removing, hm]
      have hcreate : os.step D.memory (.create_only (own m) none)
          = (os.create_only D.memory (own m) none).2 := rfl
      cases hc : os.create_only D.memory (own m) none with
      | mk r memory =>
        rw [hc] at hcreate
        cases r with
        | ok a =>
          refine ⟨[.create_only (own m) none], hcreate.symm, fun n => iff_of_true ?_ ?_⟩
          · simp [Run.Along, NamedMemory.Removes]
          · rintro ⟨rfl, hremoving⟩
            simp [hc] at hremoving
        | error e =>
          obtain ⟨rs, hrs, hiff⟩ := removal os memory (own m) unwinds
          refine ⟨.create_only (own m) none :: rs, ?_, fun n => ?_⟩
          · rw [Run.exec, List.foldl_cons, hcreate]
            exact hrs
          · rw [Run.Along, hcreate, hiff]
            refine (and_iff_right (by simp [NamedMemory.Removes])).trans (not_congr ?_)
            refine and_congr_right fun hn => ?_
            subst hn
            rw [hc]
    | created a =>
      simp only [step, stepMain, Removes, removing, hm]
      cases ht : os.table D.memory a with
      | some s => exact ⟨[], rfl, fun n => by simp [Run.Along]⟩
      | none =>
        cases alloc with
        | true =>
          exact ⟨[.write a (some (Shm.init size))], rfl, fun n => by
            simp [Run.Along, NamedMemory.Removes]⟩
        | false =>
          obtain ⟨rs, hrs, hiff⟩ := removal os D.memory (own m) unwinds
          exact ⟨rs, hrs, fun n => (hiff n).trans (by simp)⟩
    | serving a =>
      simp only [step, stepMain, Removes, removing, hm]
      cases ht : os.table D.memory a with
      | some s =>
        exact ⟨[.write a (some s.resetAllBlocks)], rfl, fun n => by
          simp [Run.Along, NamedMemory.Removes]⟩
      | none => exact ⟨[], rfl, fun n => by simp [Run.Along]⟩
    | cleared a =>
      simp only [step, stepMain, Removes, removing, hm]
      exact removal os D.memory (own m) true
    | ended =>
      simp only [step, stepMain, Removes, removing, hm]
      exact ⟨[], rfl, fun n => by simp [Run.Along]⟩

variable (own config) in
/-- The requests of a run. -/
theorem memory_exec (hos : os.Documented) (D : Deployment M μ κ) (ds : List (Deed μ κ)) (n : ν) :
    ∃ rs : List (NamedMemory.Request ν (Option Shm)),
      (Run.exec (step os own config) D ds).memory = Run.exec os.step D.memory rs ∧
      (Run.Along os.step (fun m r => ¬ os.Removes n m r) D.memory rs ↔
        Run.Along (step os own config) (fun D d => ¬ D.Removes os own n d) D ds) := by
  induction ds generalizing D with
  | nil => exact ⟨[], rfl, Iff.rfl⟩
  | cons d ds ih =>
    obtain ⟨rs, hrs, hiff⟩ := memory_step own config hos D d
    obtain ⟨rs', hrs', hiff'⟩ := ih (D.step os own config d)
    refine ⟨rs ++ rs', ?_, ?_⟩
    · rw [Run.exec_append, ← hrs]
      exact hrs'
    · rw [Run.along_append, ← hrs, hiff, hiff', Run.Along]

/-- **How a client gets a segment**: its name is bound to it, and there is a table in it. -/
theorem segment_step (hos : os.Documented)
    (ha : ((D.step os own config d).client k).segment_ = some a) :
    (D.client k).segment_ = some a ∨ os.bound D.memory (config k) = some a ∧
      os.table D.memory a ≠ none ∧ os.bound (D.step os own config d).memory = os.bound D.memory := by
  cases hd : d.client with
  | none =>
    obtain ⟨m, size, alloc, unwinds, rfl⟩ := Deed.eq_main hd
    rw [step, stepMain_client] at ha
    exact .inl ha
  | some k' =>
    obtain ⟨rs, c, hstep, hrs, hc⟩ := client_step hos D hd
    rw [hstep] at ha ⊢
    by_cases hk : k = k'
    · subst hk
      simp only [setClient, Function.update_self] at ha
      exact (hc a ha).imp_right fun ⟨hbound, htable⟩ =>
        ⟨hbound, htable, (exec_byClient hos rfl (fun _ => id) hrs).1⟩
    · simp only [setClient, Function.update_of_ne hk] at ha
      exact .inl ha

variable (os own config) in
/-- The client gets segment `a`. -/
def Connects (D : Deployment M μ κ) (k : κ) (a : ℕ) (d : Deed μ κ) : Prop :=
  (D.client k).segment_ = none ∧ ((D.step os own config d).client k).segment_ = some a

instance : Decidable (D.Connects os own config k a d) := inferInstanceAs (Decidable (_ ∧ _))

theorem Connects.bound (h : D.Connects os own config k a d) (hos : os.Documented) :
    os.bound D.memory (config k) = some a ∧
      os.bound (D.step os own config d).memory = os.bound D.memory := by
  obtain ⟨hnone, hsome⟩ := h
  rcases segment_step hos hsome with hseg | ⟨hbound, -, hmem⟩
  · cases hnone.symm.trans hseg
  · exact ⟨hbound, hmem⟩

/-- **Meeting.** Of two clients with one segment name, the later gets the segment that the earlier
got exactly when no manager removed the name in between. -/
theorem meet_iff (hos : os.Documented) (memory : M) {ds bs : List (Deed μ κ)} {d e : Deed μ κ}
    {k k' : κ} {a a' : ℕ}
    (hfirst : (Run.exec (step os own config) (init memory) ds).Connects os own config k a d)
    (hsecond : (Run.exec (step os own config) (init memory) (ds ++ d :: bs)).Connects os own config
      k' a' e)
    (hname : config k' = config k) :
    a' = a ↔ Run.Along (step os own config) (fun D d => ¬ D.Removes os own (config k) d)
      (Run.exec (step os own config) (init memory) (ds ++ [d])) bs := by
  obtain ⟨hbound, hmem⟩ := hfirst.bound hos
  obtain ⟨hbound', -⟩ := hsecond.bound hos
  have hsplit : ds ++ d :: bs = (ds ++ [d]) ++ bs := by simp
  rw [hname, hsplit, Run.exec_append] at hbound'
  generalize hD : Run.exec (step os own config) (init memory) (ds ++ [d]) = D at hbound' ⊢
  have hDbound : os.bound D.memory (config k) = some a := by
    rw [← hD, Run.exec_append]
    exact (congrFun hmem _).trans hbound
  obtain ⟨rs, hrs, hiff⟩ := memory_exec own config hos D bs (config k)
  rw [hrs] at hbound'
  rw [← hiff, ← hos.bound_exec_iff hDbound rs, hbound', Option.some_inj]

end Names

/-- Segments in a table. -/
def segments : SegmentMemory (ObjectTable Unit (Option Shm)) Unit :=
  ObjectTable.system .interprocess_exception

/-- A manager comes up, the first client connects, and a second manager takes the name away while
the first is waiting: the second client gets another segment. -/
theorem meet_iff_second_manager :
    let up (m : Bool) : List (Deed Bool Client) := List.replicate 3 (.main m 0 true true)
    let next := step segments (fun _ : Bool => ()) (fun _ : Client => ())
    ¬ Run.Along next (fun D d => ¬ D.Removes segments (fun _ => ()) () d)
      (Run.exec next (init .empty) (up false ++ [.initialise .first topicA true])) (up true) := by
  intro up next halong
  have hfirst : (Run.exec next (init .empty) (up false)).Connects segments
      (fun _ => ()) (fun _ => ()) .first 0 (.initialise .first topicA true) := by
    decide +kernel
  have hsecond : (Run.exec next (init .empty)
      (up false ++ .initialise .first topicA true :: up true)).Connects segments
      (fun _ => ()) (fun _ => ()) .second 1 (.initialise .second topicB true) := by
    decide +kernel
  cases (meet_iff ObjectTable.documented .empty hfirst hsecond rfl).2 halong

end Deployment

end MessageTransport
