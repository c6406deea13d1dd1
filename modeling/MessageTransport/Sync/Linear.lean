import MessageTransport.Sync.Commits
import MessageTransport.Sync.Deadlock

/-!
# Interleaved calls, one after the other

The steps of the calls are interleaved, and yet what comes of them is what the calls make as a
whole, one after the other: `allocateBlock`, `findHandle`, `resetBlock` and `resetAllBlocks` take
effect under the global mutex, `serialize` and the read of `wait_data` under the registration as a
global client. The exception is `reallocateBlock`, which tests `allocated_` first and takes the
global mutex only then, while `allocateBlock` does not take the mutex of the slot.

* `linearizable`: the outcome is one of whole calls if nobody touches the slot at which another party
  is in the middle of `reallocateBlock`;
* `linearizable_of_even`: this is so if all publishers begin with blocks of the same size;
* `not_linear_overtaken`: it is not so in general.
-/

namespace MessageTransport

open MessageTransport.Stream

namespace Sync

/-! ### The order of the calls -/

/-- A wait for data, which may be given up. -/
def Call.waits : Call → Bool
  | .wait_data _ => true
  | _ => false

/-- What is done is what was begun, in the same order, but for waits that were given up. -/
def Answers (done begun : List Call) : Prop :=
  done.Sublist begun ∧ done.filter (!·.waits) = begun.filter (!·.waits)

section Answers

variable {j k l m : List Call}

theorem Answers.refl (l : List Call) : Answers l l := ⟨List.Sublist.refl l, rfl⟩

theorem Answers.trans (h : Answers k l) (h' : Answers l m) : Answers k m :=
  ⟨h.1.trans h'.1, h.2.trans h'.2⟩

theorem Answers.append (h : Answers j k) (h' : Answers l m) : Answers (j ++ l) (k ++ m) := by
  refine ⟨h.1.append h'.1, ?_⟩
  rw [List.filter_append, List.filter_append, h.2, h'.2]

/-- Giving up waits, and nothing else. -/
theorem answers_nil (h : ∀ c ∈ l, c.waits = true) : Answers [] l := by
  refine ⟨List.nil_sublist l, (List.filter_eq_nil_iff.2 fun c hc => ?_).symm⟩
  simp [h c hc]

end Answers

/-- The call that the party is in, until it takes effect. -/
def Party.pending (x : Party) : List Call := x.prog.filterMap Instr.call

/-- The call, unless it is over at once. -/
def Call.starts (h : ShmHandle) (c : Call) : Option Call :=
  match c.prog h with
  | [] => none
  | _ :: _ => some c

/-- The call that the party begins with an act. -/
def Party.begun (x : Party) : Act → Option Call
  | .call c =>
    match x.status, x.prog with
    | .ready, [] => c.starts x.handle
    | _, _ => none
  | .go | .timeout => none

/-- A party is in at most one call, and what has timed out is a wait. -/
structure Party.Busy (x : Party) : Prop where
  one : x.pending.length ≤ 1
  timedOut : ∀ i, x.status = .timedOut i → ∀ c ∈ x.pending, c.waits = true

section Pending

variable {x : Party} {r : Shared} {a : Act} {e : Effect} {v : Position} {slot : Option Slot}
  {i : Slot} {k : List Instr}

theorem pending_prog (c : Call) (h : ShmHandle) :
    (c.prog h).filterMap Instr.call = (c.starts h).toList := by
  cases c with
  | findHandle | allocateBlock | resetAllBlocks => rfl
  | reallocateBlock size alloc =>
    cases hv : h.is_valid <;> cases hi : h.slot <;> simp only [Call.starts, Call.prog, hv, hi] <;>
      rfl
  | serialize | wait_data | resetBlock =>
    cases hi : h.slot <;> simp only [Call.starts, Call.prog, hi] <;> rfl

/-- Who was notified of data goes on to read it. -/
theorem waits_of_due (hwf : Wf v slot k) (hv : v.due = some i) :
    ∃ c ∈ k.filterMap Instr.call, c.waits = true := by
  induction k generalizing v slot i with
  | nil =>
    obtain rfl : v = .idle := hwf
    cases hv
  | cons ins k ih =>
    have hrest {j : Slot} (hpost : (ins.post v).due = some j) :
        ∃ c ∈ (ins :: k).filterMap Instr.call, c.waits = true := by
      obtain ⟨c, hc, hw⟩ := ih hwf.keep hpost
      refine ⟨c, ?_, hw⟩
      rw [List.filterMap_cons]
      split
      · exact hc
      · exact List.mem_cons_of_mem _ hc
    cases ins with
    | read j w => exact ⟨.wait_data w, List.mem_cons_self, rfl⟩
    | timed_wait j => exact hrest (j := j) rfl
    | lock m | unlock m | check m | register m | unregister m =>
      cases m <;> exact hrest hv
    | _ => exact hrest hv

theorem pending_instr {ins : Instr} (hx : x.status = .ready) (hprog : x.prog = ins :: k)
    (hone : x.pending.length ≤ 1) :
    (x.commits r.shm).toList ++ (ins.effect x k r).self.pending = x.pending := by
  have hpending : x.pending = ins.call.toList ++ k.filterMap Instr.call := by
    rw [Party.pending, hprog, List.filterMap_cons]
    cases ins.call <;> rfl
  -- the last instruction of the call at which it may take effect
  have hlast {c : Call} (hc : ins.call = some c) : k.filterMap Instr.call = [] := by
    rw [hpending, hc, List.length_append] at hone
    exact List.length_eq_zero_iff.1 (Nat.le_zero.1 (Nat.le_of_add_le_add_left hone))
  cases ins with
  | check m =>
    simp only [Instr.effect, Party.commits, hx, hprog]
    split_ifs
    · rfl
    · exact hpending.symm
  | ifStale j =>
    simp only [Instr.effect, Party.commits, hx, hprog]
    split_ifs
    · exact hpending.symm
    · exact hpending.symm
  | ifLarger j size alloc =>
    simp only [Instr.effect, Party.commits, hx, hprog]
    split_ifs
    · exact hpending.symm
    · exact hpending.symm
  | write j msg =>
    simp only [Instr.effect, Party.commits, hx, hprog]
    split_ifs
    · exact hpending.symm
    · rw [hpending, hlast rfl]
      rfl
  | read j w =>
    simp only [Instr.effect, Party.commits, hx, hprog]
    split_ifs
    · exact hpending.symm
    · rw [hpending, hlast rfl]
      rfl
  | timed_wait j =>
    simp only [Instr.effect, Party.commits, hx, hprog]
    rfl
  | _ =>
    simp only [Instr.effect, Party.commits, hx, hprog]
    exact hpending.symm

/-- **One step of a party.** A call begins, it takes effect, or it is a wait that is given up. -/
theorem pending_effect (hok : x.Ok) (hbusy : x.Busy) (he : x.effect r a = some e) :
    Answers ((x.label r.shm a).toList ++ e.self.pending) (x.pending ++ (x.begun a).toList) ∧
      e.self.Busy := by
  cases a with
  | call c =>
    simp only [Party.effect] at he
    split at he
    · rename_i hready hprog
      cases he
      have hnone : x.pending = [] := by rw [Party.pending, hprog, List.filterMap_nil]
      have hnew := pending_prog c x.handle
      have hbegun : x.begun (.call c) = c.starts x.handle := by
        simp only [Party.begun, hready, hprog]
      rw [hbegun, hnone, List.nil_append]
      refine ⟨?_, ?_, fun i hi => by cases hready.symm.trans hi⟩
      · rw [← hnew]
        exact .refl _
      · rw [Party.pending, hnew]
        exact Option.length_toList_le
    · cases he
  | go =>
    have hbegun : x.begun .go = none := rfl
    rw [hbegun, Option.toList_none, List.append_nil]
    simp only [Party.effect] at he
    split at he
    · rename_i ins k hready hprog
      cases he
      have heq := pending_instr (r := r) hready hprog hbusy.one
      refine ⟨heq ▸ .refl _, ?_, fun i hi => absurd hi (Instr.status_ne hready ins i)⟩
      refine le_trans ?_ hbusy.one
      rw [← heq, List.length_append]
      exact Nat.le_add_left _ _
    · cases he
    · cases he
    · rename_i n hwoken
      cases he
      obtain ⟨⟨ins, k, hprog, hw, -⟩, -⟩ := hok.waiting (.inr hwoken)
      have hcall : ins.call = none := by
        cases ins with
        | check | timed_wait => rfl
        | _ => cases hw
      have hsame : (x.resume n).pending = x.pending := by
        simp only [Party.resume, hprog, Party.pending, Party.goto, List.filterMap_cons, hcall]
      simp only [Party.label, Party.commits, hwoken, Option.toList_none, List.nil_append, hsame]
      refine ⟨.refl _, ?_, ?_⟩
      · exact hsame ▸ hbusy.one
      · simp only [Party.resume, hprog]
        exact fun i hi => by cases hi
    · rename_i i htime
      cases he
      simp only [Party.label, Party.commits, htime]
      exact ⟨answers_nil (hbusy.timedOut i htime), Nat.zero_le 1, fun j hj => by cases hj⟩
  | timeout =>
    simp only [Party.effect] at he
    split at he
    · rename_i j hwaits
      cases he
      refine ⟨?_, hbusy.one, fun i _ c hc => ?_⟩
      · simp only [Party.label, Party.begun, Option.toList_none, List.nil_append, List.append_nil]
        exact .refl _
      · obtain ⟨⟨ins, k, hprog, hw, -, hwf⟩, -⟩ := hok.waiting (.inl hwaits)
        cases ins with
        | timed_wait l =>
          obtain ⟨d, hd, hdw⟩ := waits_of_due hwf (i := l) rfl
          have hpending : x.pending = k.filterMap Instr.call := by
            rw [Party.pending, hprog]
            rfl
          obtain ⟨b, hb⟩ : ∃ b, x.pending = [b] := by
            refine List.length_eq_one_iff.1 (le_antisymm hbusy.one ?_)
            exact List.length_pos_of_mem (hpending ▸ hd)
          have hcb : c = b := List.mem_singleton.1 (hb ▸ hc)
          have hdb : d = b := List.mem_singleton.1 (hb ▸ hpending ▸ hd)
          rwa [hcb, ← hdb]
        | _ => cases hw
    · cases he

end Pending

/-! ### The machine -/

section Label

variable {x : Party} {r : Shared} {a : Act} {e : Effect} {c : Call}

/-- A call takes effect without waiting. -/
theorem effect_of_label (h : x.label r.shm a = some c) :
    ∃ e, x.effect r a = some e ∧ e.take = none := by
  cases a with
  | call | timeout => cases h
  | go =>
    cases hx : x.status with
    | waiting | woken | timedOut => simp [Party.label, Party.commits, hx] at h
    | ready =>
      cases hprog : x.prog with
      | nil => simp [Party.label, Party.commits, hx, hprog] at h
      | cons i k =>
        refine ⟨_, by simp only [Party.effect, hx, hprog]; rfl, ?_⟩
        by_contra htake
        obtain ⟨m, hm⟩ := Option.ne_none_iff_exists'.1 htake
        obtain rfl := Instr.take_effect hm
        simp [Party.label, Party.commits, hx, hprog, Instr.call] at h

/-- A call begins without waiting. -/
theorem effect_of_begun (h : x.begun a = some c) : ∃ e, x.effect r a = some e ∧ e.take = none := by
  cases a with
  | go | timeout => cases h
  | call d =>
    simp only [Party.begun] at h
    split at h
    · rename_i hx hprog
      exact ⟨_, by simp only [Party.effect, hx, hprog]; rfl, rfl⟩
    · cases h

/-- Being notified changes nothing of the call. -/
theorem Party.Busy.wake (hx : x.Busy) (n : Cond) :
    Answers (Sync.wake n x).pending x.pending ∧ (Sync.wake n x).Busy := by
  unfold Sync.wake
  split_ifs
  · exact ⟨.refl _, hx.one, nofun⟩
  · exact ⟨.refl _, hx⟩

theorem Tracks.wake {s : Shm} {h : ShmHandle} (hx : Tracks s x h) (n : Cond) :
    Tracks s (Sync.wake n x) h := by
  unfold Sync.wake
  split_ifs
  · exact ⟨hx.phase, nofun⟩
  · exact hx

end Label

end Sync

/-- A call of a client takes effect. -/
def World.commit {κ : Type*} [DecidableEq κ] (w : World κ) (b : κ × Sync.Call) : World κ :=
  w.setHandle b.1 (b.2.commit w.shm (w.handle b.1))

namespace Sync

namespace Machine

variable {ι : Type*} [DecidableEq ι] {c : Machine ι} {w : World ι} {a : ι × Act}

/-- The call that takes effect with an act, and whose it is. -/
def commits (c : Machine ι) (a : ι × Act) : Option (ι × Call) :=
  ((c.party a.1).label c.shared.shm a.2).map (Prod.mk a.1)

/-- The call that begins with an act, and whose it is. -/
def begun (c : Machine ι) (a : ι × Act) : Option (ι × Call) :=
  ((c.party a.1).begun a.2).map (Prod.mk a.1)

/-- The call, if it is one of party `p`. -/
def only (p : ι) (b : ι × Call) : Option Call := if b.1 = p then some b.2 else none

/-- The calls of one party. -/
def callsOf (p : ι) (bs : List (ι × Call)) : List Call := bs.filterMap (only p)

/-- The act leaves the slots alone at which others are in the middle of `reallocateBlock`. -/
def Spares (c : Machine ι) (a : ι × Act) : Prop :=
  ∀ p, p ≠ a.1 → ∀ i ∈ amid (c.party p).prog, Still c.shared.shm (c.step a).shared.shm i

instance [Fintype ι] (c : Machine ι) (a : ι × Act) : Decidable (c.Spares a) :=
  inferInstanceAs (Decidable (∀ p, p ≠ a.1 → ∀ i ∈ amid (c.party p).prog, Still _ _ i))

/-- The machine and the world of whole calls: the table is the same but for the counts, and every
party is in the middle of a call that it began with its handle in the world. -/
structure Follows (c : Machine ι) (w : World ι) : Prop where
  sound : c.Sound
  shm : c.shared.shm.seen = w.shm
  party : ∀ p, Tracks c.shared.shm (c.party p) (w.handle p)

/-- An act does what the program says, or it does nothing, and no call takes effect. -/
theorem moves_or_idle (c : Machine ι) (a : ι × Act) :
    (∃ e, (c.party a.1).effect c.shared a.2 = some e ∧ c.step a = c.apply wake a.1 e) ∨
      ((c.party a.1).label c.shared.shm a.2 = none ∧ (c.party a.1).begun a.2 = none ∧
        c.step a = c) := by
  by_cases hmoves : ∃ e, (c.party a.1).effect c.shared a.2 = some e ∧ e.enabled c = true
  · obtain ⟨e, he, hen⟩ := hmoves
    exact .inl ⟨e, he, Monitor.step_eq wake he hen⟩
  · refine .inr ⟨?_, ?_, ?_⟩
    · by_contra hne
      obtain ⟨call, hcall⟩ := Option.ne_none_iff_exists'.1 hne
      obtain ⟨e, he, htake⟩ := effect_of_label hcall
      exact hmoves ⟨e, he, by simp only [Monitor.Effect.enabled, htake]⟩
    · by_contra hne
      obtain ⟨call, hcall⟩ := Option.ne_none_iff_exists'.1 hne
      obtain ⟨e, he, htake⟩ := effect_of_begun hcall
      exact hmoves ⟨e, he, by simp only [Monitor.Effect.enabled, htake]⟩
    · rcases Monitor.step_cases wake Party.effect c a.1 a.2 with heq | ⟨e, he, hen, -⟩
      · exact heq
      · exact absurd ⟨e, he, hen⟩ hmoves

/-- **One step.** It is nothing to the world of whole calls, or it is a call there. -/
theorem Follows.step (h : c.Follows w) (ha : c.Spares a) :
    (c.step a).Follows ((c.commits a).elim w w.commit) := by
  rcases c.moves_or_idle a with ⟨e, he, heq⟩ | ⟨hlabel, -, heq⟩
  · have hok := h.sound.ok a.1
    obtain ⟨hlands, htime⟩ := lands_effect hok (h.party a.1) he
    have hothers : ∀ p, p ≠ a.1 →
        Tracks (c.step a).shared.shm ((c.step a).party p) (w.handle p) := by
      intro p hp
      have hstill : Tracks (c.step a).shared.shm (c.party p) (w.handle p) :=
        ⟨(h.party p).phase.still (ha p hp), (h.party p).timedOut⟩
      rw [heq] at hstill ⊢
      rcases apply_party_cases (c := c) (e := e) hp with ⟨-, hsame⟩ | ⟨n, -, hwoken⟩
      · rwa [hsame]
      · rw [hwoken]
        exact hstill.wake n
    have hself : (c.step a).party a.1 = e.self := by rw [heq, Monitor.apply_party_self]
    have hshared : (c.step a).shared = e.shared := by rw [heq, Monitor.apply_shared]
    rw [commits]
    cases hlabel : (c.party a.1).label c.shared.shm a.2 with
    | none =>
      rw [hlabel] at hlands
      refine ⟨h.sound.step a, ?_, fun p => ?_⟩
      · rw [hshared]
        exact hlands.1.trans h.shm
      · by_cases hp : p = a.1
        · subst hp
          rw [hshared, hself]
          exact ⟨hlands.2, fun i hi => (htime i hi).2⟩
        · exact hothers p hp
    | some call =>
      rw [hlabel] at hlands
      have hcommit := seen_commit call c.shared.shm (w.handle a.1)
      rw [h.shm] at hcommit
      have hworld : w.commit (a.1, call) = w.setHandle a.1
          ((call.commit c.shared.shm (w.handle a.1)).1.seen,
            (call.commit c.shared.shm (w.handle a.1)).2) := by
        rw [World.commit, hcommit]
      simp only [Option.map_some, Option.elim_some, hworld]
      refine ⟨h.sound.step a, ?_, fun p => ?_⟩
      · rw [hshared, hlands.1, World.setHandle_shm]
      · by_cases hp : p = a.1
        · subst hp
          rw [hshared, hself, World.setHandle_self]
          refine ⟨hlands.2, fun i hi => ?_⟩
          cases hlabel.symm.trans (htime i hi).1
        · rw [World.setHandle_ne w _ hp]
          exact hothers p hp
  · rw [commits, hlabel, heq]
    exact h

omit [DecidableEq ι] in
theorem follows_init (size : ℕ) : (init size : Machine ι).Follows (World.init size) where
  sound := sound_init size
  shm := rfl
  party _ := ⟨.plain nofun, nofun⟩

/-- **One step**, for the calls of one party. -/
theorem pending_step (h : c.Sound) {p : ι} (hp : (c.party p).Busy) (a : ι × Act) :
    Answers (((c.commits a).bind (only p)).toList ++ ((c.step a).party p).pending)
        ((c.party p).pending ++ ((c.begun a).bind (only p)).toList) ∧
      ((c.step a).party p).Busy := by
  by_cases hpa : a.1 = p
  · subst hpa
    have hcommits : (c.commits a).bind (only a.1) = (c.party a.1).label c.shared.shm a.2 := by
      rw [commits]
      cases (c.party a.1).label c.shared.shm a.2 <;> simp [only]
    have hbegun : (c.begun a).bind (only a.1) = (c.party a.1).begun a.2 := by
      rw [begun]
      cases (c.party a.1).begun a.2 <;> simp [only]
    rw [hcommits, hbegun]
    rcases c.moves_or_idle a with ⟨e, he, heq⟩ | ⟨hlabel, hbegun', heq⟩
    · rw [heq, Monitor.apply_party_self]
      exact pending_effect (h.ok a.1) hp he
    · rw [hlabel, hbegun', heq]
      simp only [Option.toList_none, List.nil_append, List.append_nil]
      exact ⟨.refl _, hp⟩
  · have hcommits : (c.commits a).bind (only p) = none := by
      rw [commits]
      cases (c.party a.1).label c.shared.shm a.2 <;> simp [only, hpa]
    have hbegun : (c.begun a).bind (only p) = none := by
      rw [begun]
      cases (c.party a.1).begun a.2 <;> simp [only, hpa]
    rw [hcommits, hbegun, Option.toList_none, List.nil_append, List.append_nil]
    rcases c.moves_or_idle a with ⟨e, -, heq⟩ | ⟨-, -, heq⟩
    · rw [heq]
      rcases apply_party_cases (c := c) (e := e) (Ne.symm hpa) with ⟨-, hsame⟩ | ⟨n, -, hwoken⟩
      · rw [hsame]
        exact ⟨.refl _, hp⟩
      · rw [hwoken]
        exact hp.wake n
    · rw [heq]
      exact ⟨.refl _, hp⟩

/-- The calls of a party that take effect in a run are those that it begins, in the same order, but
for waits that it gives up. What it is in the middle of is yet to come. -/
theorem answers_of_run (h : c.Sound) {p : ι} (hp : (c.party p).Busy) (as : List (ι × Act)) :
    Answers (callsOf p (Run.trace step commits c as) ++ ((Run.exec step c as).party p).pending)
      ((c.party p).pending ++ callsOf p (Run.trace step begun c as)) := by
  rw [callsOf, callsOf, Run.filterMap_trace, Run.filterMap_trace]
  exact Run.trace_pending (P := fun _ _ => True) step
    (fun c : Machine ι => c.Sound ∧ (c.party p).Busy)
    (fun c a => (begun c a).bind (only p)) (fun c a => (commits c a).bind (only p))
    (fun c => (c.party p).pending) Answers Answers.refl (fun _ _ _ => .trans)
    (fun _ _ _ _ => .append)
    (fun c a hc => (pending_step hc.1 hc.2 a).1)
    (fun c a hc _ => ⟨hc.1.step a, (pending_step hc.1 hc.2 a).2⟩) ⟨h, hp⟩
    (Run.along_of_inv step (fun _ => True) (fun _ _ _ => ⟨trivial, trivial⟩) trivial)

/-- What holds of every party in every state reached. -/
theorem busy_exec (size : ℕ) (as : List (ι × Act)) :
    (Run.exec step (init size : Machine ι) as).Sound ∧
      ∀ p, ((Run.exec step (init size : Machine ι) as).party p).Busy :=
  (Run.always_of_inv step (fun c : Machine ι => c.Sound ∧ ∀ p, (c.party p).Busy)
    (fun _ a hc => ⟨hc.1.step a, fun p => (pending_step hc.1 (hc.2 p) a).2⟩)
    ⟨sound_init size, fun _ => ⟨Nat.zero_le 1, nofun⟩⟩).exec

/-- The world of whole calls, after those that took effect in a run. -/
def replay (size : ℕ) (as : List (ι × Act)) : World ι :=
  Run.exec World.commit (World.init size) (Run.trace step commits (init size : Machine ι) as)

/-- The calls have the same outcome as if they were made as a whole, one after the other, in an order
that agrees with their beginnings and ends. -/
structure Linear (size : ℕ) (as bs : List (ι × Act)) : Prop where
  /-- The table is the one that the whole calls leave, but for the counts of clients. -/
  shm : (Run.exec step (init size : Machine ι) (as ++ bs)).shared.shm.seen
    = (replay size (as ++ bs)).shm
  /-- So are the handles, outside of the middle of `reallocateBlock`. -/
  handle (p : ι) : amid ((Run.exec step (init size) (as ++ bs)).party p).prog = none →
    ((Run.exec step (init size) (as ++ bs)).party p).handle = (replay size (as ++ bs)).handle p
  /-- A reader finds what it would find there. -/
  reads (p : ι) (i : Slot) (r : StreamM Unit) (k : List Instr) :
    ((Run.exec step (init size) (as ++ bs)).party p).prog = .read i r :: k →
    ((Run.exec step (init size) (as ++ bs)).shared.shm.deserialize i
      ((Run.exec step (init size) (as ++ bs)).party p).handle r).1
      = ((replay size (as ++ bs)).shm.deserialize i ((replay size (as ++ bs)).handle p) r).1
  /-- What takes effect during `bs` is what a party was in the middle of, and what it begins. -/
  order (p : ι) :
    Answers (callsOf p (Run.trace step commits (Run.exec step (init size) as) bs) ++
        ((Run.exec step (init size) (as ++ bs)).party p).pending)
      (((Run.exec step (init size) as).party p).pending ++
        callsOf p (Run.trace step begun (Run.exec step (init size) as) bs))

/-- The machine follows the world of whole calls. -/
theorem follows_exec (size : ℕ) {as : List (ι × Act)}
    (h : Run.Along step Spares (init size : Machine ι) as) :
    (Run.exec step (init size) as).Follows (replay size as) :=
  Run.refines_trace step commits Follows (fun _ _ _ => Follows.step) (follows_init size) h

theorem Follows.linear {size : ℕ} {as bs : List (ι × Act)}
    (h : (Run.exec Machine.step (init size) (as ++ bs)).Follows (replay size (as ++ bs))) :
    Linear size as bs := by
  obtain ⟨hsound, hbusy⟩ := busy_exec (ι := ι) size as
  refine ⟨h.shm, fun p hp => (h.party p).phase.handle hp, fun p i r k hp => ?_, fun p => ?_⟩
  · have hphase := (h.party p).phase
    have hnone := (hp ▸ hphase).amid_wait_data (.inr ⟨i, r, rfl⟩)
    rw [← h.shm, hphase.handle (hp ▸ hnone)]
    rfl
  · rw [Run.exec_append]
    exact answers_of_run hsound (hbusy p) bs

/-- **The calls take effect one after the other**, in every run in which nobody touches the slot at
which another party is in the middle of `reallocateBlock`. -/
theorem linearizable (size : ℕ) (as bs : List (ι × Act))
    (h : Run.Along step Spares (init size : Machine ι) (as ++ bs)) : Linear size as bs :=
  (follows_exec size h).linear

/-! ### Publishers that begin alike -/

/-- **One step.** Who is in the middle of `reallocateBlock` holds the mutex of its slot, and only an
`allocateBlock` that makes the block larger does not care. -/
theorem Follows.spares (h : c.Follows w) {n : UInt32} (hs : c.Settled) (he : c.Even n)
    (ha : c.Resetless a) : c.Spares a := by
  intro p hp i hamid
  obtain ⟨hdesc, hslot⟩ := (h.party p).held (h.sound.ok p) hamid
  have hact := ((hs.placed i).aimed p hslot).1
  rcases c.moves_or_idle a with ⟨e, heff, heq⟩ | ⟨-, -, heq⟩
  · have hstep := hs.slotStep ha heff heq
    rw [heq, Monitor.apply_shared]
    generalize e.shared.shm = t, e.self.handle = g, a.2 = act at hstep
    cases hstep with
    | still ht => exact ht i
    | occupied hb hj hg hf =>
      refine still_of_frame hf hact ?_
      rintro rfl
      exact hj hact
    | renewed hb hj hlt => exact absurd hlt (he.not_renewed hb hj)
    | grown hb hj =>
      refine still_of_frame (hs.tidy.good.frame_renew hj) hact ?_
      rintro rfl
      exact hp (hs.sound.unique (Position.holds_desc.2 hdesc)
        (Position.holds_desc.2 ((he.paced a.1).larger hb).1))
  · rw [heq]
    exact still_refl _ i

/-- **Publishers that begin alike.** If all calls of `allocateBlock` ask for the same number of
bytes, as `initialise` does, every run without resets is one of whole calls. -/
theorem linearizable_of_even (size : ℕ) (n : UInt32) (as bs : List (ι × Act))
    (hord : ∀ a ∈ as ++ bs, a.2.Ordinary ∧ a.2.Even n)
    (h : Run.Along step Resetless (init size : Machine ι) (as ++ bs)) : Linear size as bs := by
  refine (follows_exec size ?_).linear
  refine Run.along_of_along (R := fun a : ι × Act => a.2.Ordinary ∧ a.2.Even n) step
    (fun c : Machine ι => (∃ w, c.Follows w) ∧ c.Settled ∧ c.Even n) ?_ ?_
    ⟨⟨_, follows_init size⟩, settled_init size, even_init size n⟩ hord h
  · rintro c a ⟨hplain, heven⟩ ⟨⟨w, hw⟩, hs, he⟩ ha
    exact ⟨⟨_, hw.step (hw.spares hs he ha)⟩, hs.step hplain ha, he.step hs ha heven⟩
  · rintro c a - ⟨⟨w, hw⟩, hs, he⟩ ha
    exact hw.spares hs he ha

end Machine

/-! ### Runs -/

/-- Two publishers begin with 8 bytes each. -/
def startedRun : List (Client × Act) :=
  calls .first (.allocateBlock topicA 8 true) 4 ++ calls .second (.allocateBlock topicB 8 true) 4

/-- The first publisher tests the count of its slot; the second makes its own block larger; then
the first makes its block larger, and writes it. -/
def mixedRun : List (Client × Act) :=
  List.flatten
    [calls .first (.reallocateBlock 16 true) 3, calls .second (.reallocateBlock 32 true) 9,
      goes .first 6, calls .first (.serialize shortMessage) 11]

set_option maxRecDepth 4000 in
theorem linearizable_mixed : Machine.Linear 200 startedRun mixedRun :=
  Machine.linearizable 200 startedRun mixedRun (by decide +kernel)

set_option maxRecDepth 4000 in
theorem linearizable_of_even_mixed : Machine.Linear 200 startedRun mixedRun :=
  Machine.linearizable_of_even 200 8 startedRun mixedRun (by decide) (by decide +kernel)

set_option maxRecDepth 4000 in
/-- **A smaller block than anybody would make.** One publisher finds its block too small for 16
bytes, the other makes it one of 64, and the first one of 16. -/
theorem not_linear_overtaken : ¬ Machine.Linear 100 overtakenRun [] := by
  intro h
  have hsize := congrArg (fun s : Shm => (s.descriptors 0).allocated_) h.shm
  have hne : ((Run.exec Machine.step (Machine.init 100 : Machine Client)
      (overtakenRun ++ [])).shared.shm.descriptors 0).allocated_
        ≠ ((Machine.replay 100 (overtakenRun ++ [])).shm.descriptors 0).allocated_ := by
    decide +kernel
  exact hne hsize

end Sync

end MessageTransport
