import MessageTransport.Sharedmem.Manager

/-!
# The tables in the segments

What happens to the block table of one segment while managers come and go.

* `Shows.step`: a deed changes a table as one whole operation does in the world of one table, or not
  at all;
* `table_step_none`: a manager constructs a table, and it is empty then;
* `refines`: the table in every segment, whether its name is still there or not, with the handles of
  those that have it open, is the one that the calls on it lead to in the world of one table.
-/

namespace MessageTransport

namespace Deployment

variable {M ν μ κ : Type*}

section Calls

variable (os : SegmentMemory M ν) (config : κ → ν)

/-- The segment in which the client with name `n` finds a manager, when it opens it now. -/
def found (memory : M) (n : ν) : Option ℕ :=
  match (connect os memory n).1 with
  | .ok o => o.map Prod.fst
  | .error _ => none

/-- The table that the deed acts on, and the whole operation it does there. Where the segment is not
opened, there is none. -/
def call (D : Deployment M μ κ) : Deed μ κ → Option (ℕ × Op κ)
  | .main m _ _ _ =>
    match D.main m with
    | .serving a => some (a, .resetAllBlocks)
    | _ => none
  | .initialise k topic alloc =>
    if (D.client k).clientRegistered then none
    else (found os D.memory (config k)).map fun a => (a, .allocateBlock k topic 16 alloc)
  | .startReceiving k topic =>
    match (D.client k).segment_ with
    | some _ => none
    | none => (found os D.memory (config k)).map fun a => (a, .findHandle k topic)
  | .use k u => (D.client k).segment_.map fun a => (a, u.toOp k)
  | .close _ => none

/-- The operation that the deed does on the table in segment `a`, if there is one: the label of the
deed, as seen from `a`. -/
def callOn (a : ℕ) (D : Deployment M μ κ) (d : Deed μ κ) : Option (Op κ) :=
  (D.call os config d).bind fun c =>
    if c.1 = a ∧ (os.table D.memory a).isSome then some c.2 else none

end Calls

variable {os : SegmentMemory M ν} {own : μ → ν} {config : κ → ν} {D : Deployment M μ κ}
  {d : Deed μ κ} {k : κ} {a b : ℕ} {s : Shm} {w w' : World κ} {memory : M} {c : SegmentClient}

variable (os) in
/-- The world shows the table of segment `a`, with the handles of those that have the segment
open. -/
structure Shows (D : Deployment M μ κ) (a : ℕ) (w : World κ) : Prop where
  table : os.table D.memory a = some w.shm
  client : ∀ k, (D.client k).segment_ = some a →
    w.handle k = (D.client k).shm_handle_ ∧ w.topic k = (D.client k).topic

theorem callOn_of_call [DecidableEq κ] (op : Op κ) (h : D.Shows os a w)
    (hcall : D.call os config d = some (b, op)) :
    (D.callOn os config a d).elim w w.step = if b = a then w.step op else w := by
  simp only [callOn, hcall, Option.bind_some, h.table, Option.isSome_some, and_true]
  split_ifs <;> rfl

theorem callOn_none [DecidableEq κ] (hcall : D.call os config d = none) :
    (D.callOn os config a d).elim w w.step = w := by
  rw [callOn, hcall]
  rfl

theorem shows_world (hs : os.table D.memory a = some s) : D.Shows os a (D.world s) :=
  ⟨hs, fun _ _ => ⟨rfl, rfl⟩⟩

section Parts

variable [DecidableEq μ] [DecidableEq κ]

omit [DecidableEq κ] in
/-- A manager changes no client. -/
theorem Shows.main (h : D.Shows os a w) (m : μ) {phase : Phase}
    (hm : os.table memory a = some w'.shm) (hhandle : w'.handle = w.handle)
    (htopic : w'.topic = w.topic) : (D.goto m memory phase).Shows os a w' where
  table := hm
  client k hk := by
    rw [hhandle, htopic]
    exact h.client k hk

omit [DecidableEq κ] in
/-- Where the table is not touched, it still shows. -/
theorem Shows.goto (h : D.Shows os a w) (m : μ) {phase : Phase}
    (hm : os.table memory a = os.table D.memory a) : (D.goto m memory phase).Shows os a w :=
  h.main m (hm.trans h.table) rfl rfl

omit [DecidableEq μ] in
/-- The same, when a client goes on that does not have the segment open, or keeps its handle. -/
theorem Shows.keep (h : D.Shows os a w) (hm : os.table memory a = os.table D.memory a)
    (hc : c.segment_ = some a → (D.client k).segment_ = some a ∧
      c.shm_handle_ = (D.client k).shm_handle_ ∧ c.topic = (D.client k).topic) :
    (D.setClient k memory c).Shows os a w := by
  refine ⟨hm.trans h.table, fun k' hk' => ?_⟩
  by_cases hkk : k' = k
  · subst hkk
    simp only [setClient, Function.update_self] at hk' ⊢
    obtain ⟨hseg, hhandle, htopic⟩ := hc hk'
    rw [hhandle, htopic]
    exact h.client k' hseg
  · simp only [setClient, Function.update_of_ne hkk] at hk' ⊢
    exact h.client k' hk'

omit [DecidableEq μ] in
/-- A call of one client on the table. -/
theorem Shows.serve (h : D.Shows os a w) (hm : os.table memory a = some w'.shm)
    (hc : c.segment_ = some a → w'.handle k = c.shm_handle_ ∧ w'.topic k = c.topic)
    (hother : ∀ k', k' ≠ k → w'.handle k' = w.handle k' ∧ w'.topic k' = w.topic k') :
    (D.setClient k memory c).Shows os a w' := by
  refine ⟨hm, fun k' hk' => ?_⟩
  by_cases hkk : k' = k
  · subst hkk
    simp only [setClient, Function.update_self] at hk' ⊢
    exact hc hk'
  · simp only [setClient, Function.update_of_ne hkk] at hk' ⊢
    rw [(hother k' hkk).1, (hother k' hkk).2]
    exact h.client k' hk'

end Parts

/-! ### One deed -/

section Deeds

variable [DecidableEq μ] [DecidableEq κ] (hos : os.Documented)
include hos

/-- **What a manager does to a table** that is there: nothing but to reset all of its blocks. -/
theorem Shows.stepMain (h : D.Shows os a w) (m : μ) (size : ℕ) (alloc unwinds : Bool) :
    (D.step os own config (.main m size alloc unwinds)).Shows os a
      ((D.callOn os config a (.main m size alloc unwinds)).elim w w.step) := by
  have habort (memory : M) (hm : os.table memory a = os.table D.memory a) :
      (D.abort os m memory (own m) unwinds).Shows os a w :=
    h.goto m ((congrFun (table_abort hos D m memory (own m) unwinds) a).trans hm)
  cases hm : D.main m with
  | start =>
    rw [callOn_none (by simp only [call, hm])]
    simp only [step, Deployment.stepMain, hm]
    exact h.goto m (congrFun (table_remove hos ..) a)
  | removed =>
    rw [callOn_none (by simp only [call, hm])]
    simp only [step, Deployment.stepMain, hm]
    have htable := congrFun (table_create_only hos D.memory (own m)) a
    split <;> rename_i heq <;> rw [heq] at htable
    · exact h.goto m htable
    · exact habort _ htable
  | created b =>
    rw [callOn_none (by simp only [call, hm])]
    simp only [step, Deployment.stepMain, hm]
    cases hb : os.table D.memory b with
    | some s => exact h.goto m rfl
    | none =>
      cases alloc with
      | false => exact habort _ rfl
      | true =>
        have hab : a ≠ b := by
          rintro rfl
          cases hb.symm.trans h.table
        exact h.goto m (table_write_ne hos hab _)
  | serving b =>
    rw [callOn_of_call (b := b) .resetAllBlocks h (by simp only [call, hm])]
    simp only [step, Deployment.stepMain, hm]
    split_ifs with hba
    · subst hba
      simp only [h.table, World.step]
      generalize w.shm.resetAllBlocks = s
      exact h.main m (table_write_self hos h.table (some s)) rfl rfl
    · cases hb : os.table D.memory b with
      | some s => exact h.goto m (table_write_ne hos (Ne.symm hba) _)
      | none => exact h.goto m rfl
  | cleared b =>
    rw [callOn_none (by simp only [call, hm])]
    simp only [step, Deployment.stepMain, hm]
    exact h.goto m (congrFun (table_remove hos ..) a)
  | ended =>
    rw [callOn_none (by simp only [call, hm])]
    simp only [step, Deployment.stepMain, hm]
    exact h

theorem Shows.initialise (h : D.Shows os a w) (k : κ) (topic : CString) (alloc : Bool) :
    (D.step os own config (.initialise k topic alloc)).Shows os a
      ((D.callOn os config a (.initialise k topic alloc)).elim w w.step) := by
  have hopen := congrFun (table_open hos D.memory (config k)) a
  simp only [step, Deployment.initialise]
  by_cases hreg : (D.client k).clientRegistered = true
  · rw [callOn_none (by simp [call, hreg]), if_pos hreg]
    exact h
  rw [if_neg hreg]
  rcases connect_cases hos D.memory (config k) with ⟨e, hc⟩ | hc | ⟨b, s, hc, -, htable⟩ <;>
    simp only [hc]
  · rw [callOn_none (by simp [call, hreg, found, hc])]
    cases e with
    | bad_alloc => exact h.keep hopen fun hseg => by cases hseg
    | interprocess_exception => exact h.keep hopen fun hseg => ⟨hseg, rfl, rfl⟩
  · rw [callOn_none (by simp [call, hreg, found, hc])]
    exact h.keep hopen fun hseg => by cases hseg
  · rw [callOn_of_call (b := b) (.allocateBlock k topic 16 alloc) h
      (by simp [call, hreg, found, hc])]
    have hopenb := (congrFun (table_open hos D.memory (config k)) b).trans htable
    by_cases hba : b = a
    · subst hba
      obtain rfl : s = w.shm := Option.some.inj (htable.symm.trans h.table)
      rw [if_pos rfl]
      cases hr : w.shm.allocateBlock topic (16 : UInt32).toNat alloc with
      | mk s' o =>
        cases o with
        | some h' =>
          rw [World.step_allocateBlock hr]
          exact h.serve (table_write_self hos hopenb _)
            (fun _ => ⟨World.connect_handle_self .., World.connect_topic_self ..⟩)
            fun k' hk => World.connect_ne w _ _ hk
        | none =>
          simp only [World.step, hr]
          exact h.serve (table_write_self hos hopenb _) (fun hseg => by cases hseg) fun _ _ =>
            ⟨rfl, rfl⟩
    · rw [if_neg hba]
      have hne (o : Option Shm) := (table_write_ne hos (Ne.symm hba) o).trans hopen
      cases s.allocateBlock topic (16 : UInt32).toNat alloc with
      | mk s' o =>
        cases o with
        | some h' => exact h.keep (hne _) fun heq => absurd (Option.some.inj heq) hba
        | none => exact h.keep (hne _) fun hseg => by cases hseg

theorem Shows.startReceiving (h : D.Shows os a w) (k : κ) (topic : CString) :
    (D.step os own config (.startReceiving k topic)).Shows os a
      ((D.callOn os config a (.startReceiving k topic)).elim w w.step) := by
  have hopen := congrFun (table_open hos D.memory (config k)) a
  simp only [step, Deployment.startReceiving]
  cases hseg : (D.client k).segment_ with
  | some c =>
    rw [callOn_none (by simp [call, hseg])]
    exact h
  | none =>
    rcases connect_cases hos D.memory (config k) with ⟨e, hc⟩ | hc | ⟨b, s, hc, -, htable⟩ <;>
      simp only [hc]
    · rw [callOn_none (by simp [call, hseg, found, hc])]
      cases e with
      | bad_alloc => exact h.keep hopen fun hseg => by cases hseg
      | interprocess_exception => exact h.keep hopen fun heq => ⟨heq, rfl, rfl⟩
    · rw [callOn_none (by simp [call, hseg, found, hc])]
      exact h.keep hopen fun hseg => by cases hseg
    · rw [callOn_of_call (b := b) (.findHandle k topic) h (by simp [call, hseg, found, hc])]
      by_cases hba : b = a
      · subst hba
        obtain rfl : s = w.shm := Option.some.inj (htable.symm.trans h.table)
        rw [if_pos rfl]
        exact h.serve (hopen.trans h.table)
          (fun _ => ⟨World.connect_handle_self .., World.connect_topic_self ..⟩)
          fun k' hk => World.connect_ne w _ _ hk
      · rw [if_neg hba]
        refine h.keep hopen fun heq => ?_
        split_ifs at heq
        exact absurd (Option.some.inj heq) hba

theorem Shows.use (h : D.Shows os a w) (k : κ) (u : Use) :
    (D.step os own config (.use k u)).Shows os a
      ((D.callOn os config a (.use k u)).elim w w.step) := by
  simp only [step, Deployment.use]
  cases hseg : (D.client k).segment_ with
  | none =>
    rw [callOn_none (by simp [call, hseg])]
    exact h
  | some b =>
    rw [callOn_of_call (b := b) (u.toOp k) h (by simp [call, hseg])]
    simp only
    by_cases hba : b = a
    · subst hba
      rw [if_pos rfl]
      simp only [h.table]
      obtain ⟨hhandle, htopic⟩ := h.client k hseg
      have hworld : (D.world w.shm).shm = w.shm := rfl
      obtain ⟨hshm, hk⟩ := World.step_use hworld hhandle.symm u
      obtain ⟨htopics, hother⟩ := w.step_use_other k u
      rw [hshm, hk]
      exact h.serve (table_write_self hos h.table _)
        (fun _ => ⟨rfl, (congrFun htopics k).trans htopic⟩)
        fun k' hk' => ⟨hother k' hk', congrFun htopics k'⟩
    · rw [if_neg hba]
      cases os.table D.memory b with
      | none => exact h
      | some s =>
        exact h.keep (table_write_ne hos (Ne.symm hba) _) fun heq =>
          absurd (Option.some.inj heq) hba

/-- **One deed.** The table goes on as in its own world, by the operation that the deed does on
it. -/
theorem Shows.step (h : D.Shows os a w) (d : Deed μ κ) :
    (D.step os own config d).Shows os a ((D.callOn os config a d).elim w w.step) := by
  cases d with
  | main m size alloc unwinds => exact h.stepMain hos m size alloc unwinds
  | initialise k topic alloc => exact h.initialise hos k topic alloc
  | startReceiving k topic => exact h.startReceiving hos k topic
  | use k u => exact h.use hos k u
  | close k =>
    rw [callOn_none rfl]
    exact h.keep rfl fun hseg => by cases hseg

/-- **How a table begins**: a manager constructs it, empty. -/
theorem table_step_none (ha : os.table D.memory a = none) (d : Deed μ κ) :
    os.table (D.step os own config d).memory a = none ∨
      ∃ size, os.table (D.step os own config d).memory a = some (Shm.init size) ∧
        (D.step os own config d).client = D.client := by
  cases hd : d.client with
  | some k =>
    obtain ⟨rs, c, hstep, hrs, -⟩ := client_step hos D hd
    rw [hstep]
    exact .inl ((exec_byClient hos rfl (fun _ => id) hrs).2 a ha)
  | none =>
    obtain ⟨m, size, alloc, unwinds, rfl⟩ := Deed.eq_main hd
    have habort (memory : M) (hm : os.table memory a = none) :
        os.table (D.abort os m memory (own m) unwinds).memory a = none :=
      (congrFun (table_abort hos D m memory (own m) unwinds) a).trans hm
    rw [step]
    cases hm : D.main m with
    | start =>
      simp only [stepMain, hm]
      exact .inl ((congrFun (table_remove hos ..) a).trans ha)
    | removed =>
      simp only [stepMain, hm]
      have htable := (congrFun (table_create_only hos D.memory (own m)) a).trans ha
      split <;> rename_i heq <;> rw [heq] at htable
      · exact .inl htable
      · exact .inl (habort _ htable)
    | created b =>
      simp only [stepMain, hm]
      cases hb : os.table D.memory b with
      | some s => exact .inl ha
      | none =>
        cases alloc with
        | false => exact .inl (habort _ ha)
        | true =>
          by_cases hab : a = b
          · subst hab
            cases ho : os.object D.memory a with
            | none =>
              left
              simp only [goto, if_true, SegmentMemory.table, (hos.write D.memory a _).missing ho,
                Option.join_none]
            | some o =>
              refine .inr ⟨size, ?_, rfl⟩
              simp only [goto, if_true, SegmentMemory.table, (hos.write D.memory a _).written ho,
                Option.join_some]
          · exact .inl ((table_write_ne hos hab _).trans ha)
    | serving b =>
      simp only [stepMain, hm]
      cases hb : os.table D.memory b with
      | none => exact .inl ha
      | some s =>
        have hab : a ≠ b := by
          rintro rfl
          cases ha.symm.trans hb
        exact .inl ((table_write_ne hos hab _).trans ha)
    | cleared b =>
      simp only [stepMain, hm]
      exact .inl ((congrFun (table_remove hos ..) a).trans ha)
    | ended =>
      simp only [stepMain, hm]
      exact .inl ha

/-! ### Runs -/

omit hos [DecidableEq μ] [DecidableEq κ] in
variable (os) in
/-- What holds in every state: a client that has a segment open has a table in it. -/
def Linked (D : Deployment M μ κ) : Prop :=
  ∀ {k a}, (D.client k).segment_ = some a → os.table D.memory a ≠ none

theorem Linked.step (h : D.Linked os) (d : Deed μ κ) : (D.step os own config d).Linked os := by
  intro k a ha
  have htable : os.table D.memory a ≠ none := by
    rcases segment_step hos ha with hseg | ⟨-, hne, -⟩
    · exact h hseg
    · exact hne
  obtain ⟨s, hs⟩ := Option.ne_none_iff_exists'.1 htable
  rw [((shows_world hs).step hos d).table]
  nofun

/-- From where a table is there, it goes on by the operations on it. -/
theorem Shows.exec (h : D.Shows os a w) (ds : List (Deed μ κ)) :
    (Run.exec (Deployment.step os own config) D ds).Shows os a
      (Run.exec World.step w
        (Run.trace (Deployment.step os own config) (callOn os config a) D ds)) :=
  Run.refines_trace (Deployment.step os own config) (callOn os config a) (P := fun _ _ => True)
    (fun D w => D.Shows os a w) (fun _ _ d h _ => h.step hos d) h
    ((Run.along_iff_forall _).2 fun _ _ => trivial)

/-- **Refinement.** From a system that has no segments with a table, the table in a segment, with
the handles of those that have it open, is one that the calls on it lead to, in their order, in the
world of one table. -/
theorem refines {memory : M} (hnew : ∀ a, os.table memory a = none) (ds : List (Deed μ κ))
    (htable : os.table (Run.exec (step os own config) (init memory : Deployment M μ κ) ds).memory a
      ≠ none) :
    ∃ size, (Run.exec (step os own config) (init memory : Deployment M μ κ) ds).Shows os a
      (Run.exec World.step (World.init size)
        (Run.trace (step os own config) (callOn os config a) (init memory) ds)) := by
  have hnone : os.table (init memory : Deployment M μ κ).memory a = none := hnew a
  have hlinked : (init memory : Deployment M μ κ).Linked os := nofun
  generalize (init memory : Deployment M μ κ) = D at htable hnone hlinked ⊢
  induction ds generalizing D with
  | nil => exact absurd hnone htable
  | cons d ds ih =>
    have hcall : D.callOn os config a d = none := by simp [callOn, hnone]
    rw [Run.trace, hcall]
    rcases table_step_none hos hnone d with hnone' | ⟨size, hinit, hclient⟩
    · exact ih _ htable hnone' (hlinked.step hos d)
    · -- The table is new, so that nobody has the segment open yet.
      refine ⟨size, Shows.exec hos ⟨hinit, fun k hk => ?_⟩ ds⟩
      rw [hclient] at hk
      exact absurd hnone (hlinked hk)

end Deeds

/-- A subscriber comes too early, and a publisher goes on in the segment of a manager that is
gone. -/
theorem refines_manager_gone :
    let main : Deed Unit Client := .main () 0 true true
    let ds := .startReceiving .second topicA :: List.replicate 3 main ++
      .initialise .first topicA true :: List.replicate 2 main ++
      [.use .first (.publish_msg longMessage.toMessage true)]
    let next := step segments (fun _ : Unit => ()) (fun _ : Client => ())
    ∃ size, (Run.exec next (init .empty) ds).Shows segments 0
      (Run.exec World.step (World.init size)
        (Run.trace next (callOn segments (fun _ => ()) 0) (init .empty) ds)) := by
  intro main ds next
  exact refines ObjectTable.documented (fun _ => rfl) ds (by decide +kernel)

end Deployment

end MessageTransport
