import MessageTransport.Sync.Stuck

/-!
# Clients that are killed

A client that is killed takes no more steps. What it holds stays held, and where it is registered it
stays registered (`Occupies`): the counts and the mutexes are in the segment.

* `contained`: whoever is left comes out of its call, however the others are scheduled, unless it is
  stuck at the manager or at a descriptor that a killed client occupies. A client that is killed at
  one descriptor stops nobody at another one;
* `hangs`: who begins a call that needs the manager stays in it, if a killed client occupies the
  manager;
* `completes_iff`: `findHandle`, `allocateBlock` and `resetAllBlocks` come to an end exactly if no
  client was killed while it held the manager's mutex or was registered as a global client. The
  manager calls the last one when it ends.
-/

namespace MessageTransport

namespace Sync

/-! ### Work for the manager -/

/-- What the call is to do under the manager's mutex, if that is all of it. -/
def Call.work : Call → Option Body
  | .findHandle name => some (.findHandle name)
  | .allocateBlock name size alloc => some (.allocateBlock name size alloc)
  | .resetAllBlocks => some .resetAllBlocks
  | _ => none

/-- The party has not passed `check_global_clients`. -/
def Party.InFront (b : Body) (x : Party) : Prop :=
  (x.status = .ready ∧ x.prog = globally b) ∨
    ((x.status = .ready ∨ x.status = .waiting (.clients .global)) ∧
      x.prog = [check_global_clients, .body b, .unlock .global])

section Work

variable {x : Party} {s : Shared} {a : Act} {e : Effect} {b : Body} {m : Mutex}

theorem prog_of_work {c : Call} (h : c.work = some b) (k : ShmHandle) :
    c.prog k = globally b := by
  cases c with
  | findHandle | allocateBlock | resetAllBlocks =>
    cases h
    rfl
  | _ => cases h

/-- Only the end of a registration notifies those that wait for clients, and only when nobody is
left. -/
theorem Step.notify_clients (h : Step x s a e) (hn : e.notify = some (.clients m)) :
    x.pos.holds m = true ∧ clients e.shared.shm m = 0 := by
  cases h with
  | unregister hx hp =>
    rename_i n k _
    simp only at hn
    split_ifs at hn with h0
    cases hn
    refine ⟨?_, by rw [clients_addClients_self]; exact h0⟩
    cases m with
    | global => exact hp.1
    | desc i => simp [show x.pos = _ from hp, Position.holds]
  | signal => cases hn
  | _ => cases hn

/-- A step of the party itself leaves it in front, or it holds the mutex and finds no client. -/
theorem inFront_effect (hok : x.Ok) (hf : x.InFront b) (h : x.effect s a = some e) :
    e.self.InFront b ∨ x.pos.holds .global = true ∧ clients s.shm .global = 0 := by
  rcases hf with ⟨hx, hprog⟩ | ⟨hx | hx, hprog⟩
  · cases a with
    | go =>
      simp only [Party.effect, hx, hprog, globally] at h
      cases h
      exact .inl (.inr ⟨.inl hx, rfl⟩)
    | _ => simp [Party.effect, hx, hprog, globally] at h
  · cases a with
    | go =>
      simp only [Party.effect, hx, hprog, check_global_clients, Instr.effect] at h
      split_ifs at h with h0
      · cases h
        exact .inl (.inr ⟨.inr rfl, hprog⟩)
      · have hwf := hok.ready hx
        rw [hprog] at hwf
        exact .inr ⟨hwf.1.1, not_not.1 h0⟩
    | _ => simp [Party.effect, hx, hprog] at h
  · cases a <;> simp [Party.effect, hx] at h

/-- A notification for other clients, or for data, leaves it in front. -/
theorem inFront_wake {n : Cond} (hf : x.InFront b) (hn : n ≠ .clients .global) :
    (wake n x).InFront b := by
  have hsame : wake n x = x := by
    unfold wake
    refine if_neg fun hx => ?_
    rcases hf with ⟨hready, -⟩ | ⟨hready | hwaiting, -⟩
    · cases hx.symm.trans hready
    · cases hx.symm.trans hready
    · cases hx.symm.trans hwaiting
      exact hn rfl
  rwa [hsame]

/-- The party is in the call, before or after its work, or has come out of it. -/
structure Party.Gated (b : Body) (x : Party) : Prop where
  prog : x.prog <:+ globally b
  status : ∀ i, x.status ≠ .timedOut i

theorem Party.Gated.cases (h : x.Gated b) {i : Instr} {k : List Instr} (hprog : x.prog = i :: k) :
    k <:+ globally b ∧
      (i = .lock .global ∨ i = .check .global ∨ i = .body b ∨ i = .unlock .global) := by
  have hsuf := h.prog
  rw [hprog] at hsuf
  refine ⟨(List.suffix_cons i k).trans hsuf, ?_⟩
  have hmem : i ∈ globally b := hsuf.subset List.mem_cons_self
  simpa [globally, check_global_clients] using hmem

/-- Who is in such a call waits for the manager only. -/
theorem Party.Gated.waitsOn (h : x.Gated b) (hok : x.Ok) {n : Cond}
    (hx : x.status = .waiting n ∨ x.status = .woken n) : n = .clients .global := by
  obtain ⟨⟨i, k, hprog, hi, -⟩, -⟩ := hok.waiting hx
  rcases (h.cases hprog).2 with rfl | rfl | rfl | rfl <;> cases hi
  rfl

theorem gated_effect (hok : x.Ok) (h : x.Gated b) (ha : ∀ c, a ≠ .call c)
    (he : x.effect s a = some e) : e.self.Gated b := by
  cases a with
  | call c => exact absurd rfl (ha c)
  | go =>
    simp only [Party.effect] at he
    split at he
    · rename_i i k hx hprog
      cases he
      obtain ⟨hk, rfl | rfl | rfl | rfl⟩ := h.cases hprog
      · exact ⟨hk, fun i hi => h.status i hi⟩
      · simp only [Instr.effect]
        split_ifs
        · exact ⟨h.prog, fun i hi => by cases hi⟩
        · exact ⟨hk, fun i hi => h.status i hi⟩
      · exact ⟨hk, fun i hi => h.status i hi⟩
      · exact ⟨hk, fun i hi => h.status i hi⟩
    · cases he
    · cases he
    · rename_i n hx
      cases he
      obtain ⟨⟨i, k, hprog, -⟩, -⟩ := hok.waiting (.inr hx)
      simp only [Party.resume, hprog]
      exact ⟨(h.cases hprog).1, fun i hi => by cases hi⟩
    · rename_i i hx
      exact absurd hx (h.status i)
  | timeout =>
    simp only [Party.effect] at he
    split at he
    · rename_i i hx
      cases h.waitsOn hok (.inl hx)
    · cases he

theorem gated_wake (h : x.Gated b) (n : Cond) : (wake n x).Gated b := by
  unfold wake
  split_ifs
  · exact ⟨h.prog, nofun⟩
  · exact h

end Work

namespace Machine

variable {ι : Type*} {c : Machine ι} {p q : ι} {m : Mutex} {a : ι × Act}

/-! ### Runs -/

section Runs

variable [Fintype ι] [DecidableEq ι] {D : Set ι}

omit [Fintype ι] in
theorem Single.step (h : c.Single) (hs : c.Sound) (a : ι × Act) : (c.step a).Single := by
  rcases Monitor.step_cases wake Party.effect c a.1 a.2 with heq | ⟨e, he, -, heq⟩
  · rwa [Machine.step, heq]
  · rw [Machine.step, heq]
    intro p
    by_cases hp : p = a.1
    · subst hp
      rw [Monitor.apply_party_self]
      exact atSlot_effect (hs.ok _) (h _) he
    · rcases apply_party_cases (c := c) (e := e) hp with ⟨-, hsame⟩ | ⟨n, -, hwoken⟩
      · rw [hsame]
        exact h p
      · rw [hwoken]
        exact (h p).imp fun i => wake_atSlot n

omit [DecidableEq ι] in
theorem inv_init (size : ℕ) : (init size : Machine ι).Inv where
  toIntact := intact_init size
  single _ := ⟨0, nofun, nofun⟩

theorem Inv.step (h : c.Inv) (ha : c.Calm a) : (c.step a).Inv where
  toIntact := h.toIntact.step ha
  single := h.single.step h.sound a

theorem inv_exec {size : ℕ} {as : List (ι × Act)} (h : Run.Along step Calm (init size) as) :
    (Run.exec step (init size : Machine ι) as).Inv :=
  (Run.always_of_along (R := fun _ => True) Machine.step Inv (fun _ _ _ hc ha => hc.step ha)
    (inv_init size) (fun _ _ => trivial) h).exec

/-- The act is a step of a client that was not killed, and no stream action that throws. -/
structure Survives (D : Set ι) (c : Machine ι) (a : ι × Act) : Prop where
  alive : a.1 ∉ D
  possible : c.Possible a
  calm : c.Calm a

/-- The killed stay where they were. -/
structure Left (D : Set ι) (c e : Machine ι) : Prop where
  inv : e.Inv
  pos : ∀ p ∈ D, (e.party p).pos = (c.party p).pos

theorem Left.step {e : Machine ι} (h : Left D c e) (ha : e.Survives D a) :
    Left D c (e.step a) where
  inv := h.inv.step ha.calm
  pos p hp := by
    rw [step_pos (fun heq => ha.alive (heq ▸ hp)), h.pos p hp]

theorem left_exec (hc : c.Inv) {bs : List (ι × Act)} (h : Run.Along step (Survives D) c bs) :
    Left D c (Run.exec step c bs) :=
  (Run.always_of_along (R := fun _ => True) Machine.step (Left D c)
    (fun _ _ _ he ha => he.step ha) ⟨hc, fun _ _ => rfl⟩ (fun _ _ => trivial) h).exec

omit [DecidableEq ι] in
theorem Left.occupies {e : Machine ι} (h : Left D c e) (hp : p ∈ D) :
    e.Occupies p m ↔ c.Occupies p m := by
  rw [Occupies, Occupies, h.pos p hp]

/-- However those are scheduled that were not killed, they come to a halt, or to an exception. -/
theorem halts_or_throws (hc : c.Inv) (pick : Machine ι → ι × Act)
    (hpick : ∀ c : Machine ι, (∃ a, a.1 ∉ D ∧ c.Possible a) →
      (pick c).1 ∉ D ∧ c.Possible (pick c)) :
    ∃ n ≤ c.load,
      let bs := Run.schedule step pick n c
      Run.Along step (Survives D) c bs ∧
        (Halted D (Run.exec step c bs) ∨
          ¬ (Run.exec step c bs).Calm (pick (Run.exec step c bs))) := by
  have hgoes : ∀ e : Machine ι, ¬ e.Halted D → (pick e).1 ∉ D ∧ e.Possible (pick e) := by
    intro e he
    refine hpick e ?_
    by_contra hnone
    exact he fun a haD hposs => hnone ⟨a, haD, hposs⟩
  obtain ⟨n, hle, halong, hend⟩ := Run.exists_final step (P := Survives D) Inv (Halted D) pick load
    (fun e he hrun ha => ⟨he.step ha.calm, (hgoes e hrun).2.load_lt he.sound⟩) hc
  refine ⟨n, hle, halong, ?_⟩
  rcases hend with hhalt | hstop
  · exact .inl hhalt
  · by_cases hhalt : Halted D (Run.exec Machine.step c (Run.schedule step pick n c))
    · exact .inl hhalt
    · obtain ⟨halive, hposs⟩ := hgoes _ hhalt
      exact .inr fun hcalm => hstop ⟨halive, hposs, hcalm⟩

/-- **Contained.** After any run without exceptions some clients are killed. However the others are
scheduled, after 50 steps for each party they are out of their calls, but for those that are stuck
where a client was killed, or are stuck because one was killed at the manager; or there is an
exception. -/
theorem contained (size : ℕ) (as : List (ι × Act)) (h : Run.Along step Calm (init size) as)
    (D : Set ι) (pick : Machine ι → ι × Act)
    (hpick : ∀ c : Machine ι, (∃ a, a.1 ∉ D ∧ c.Possible a) →
      (pick c).1 ∉ D ∧ c.Possible (pick c)) :
    let c := Run.exec step (init size : Machine ι) as
    ∃ n ≤ 50 * Fintype.card ι,
      let bs := Run.schedule step pick n c
      let e := Run.exec step c bs
      Run.Along step (Survives D) c bs ∧
        ((∀ q ∉ D, e.Outside q ∨ ∃ m, e.StuckAt q m ∧
          ∃ p ∈ D, c.Occupies p m ∨ c.Occupies p .global) ∨ ¬ e.Calm (pick e)) := by
  intro c
  have hc : c.Inv := inv_exec h
  obtain ⟨n, hle, halong, hend⟩ := halts_or_throws hc pick hpick
  refine ⟨n, hle.trans (load_le size as), halong, hend.imp_left fun hhalt q hq => ?_⟩
  have hleft := left_exec hc halong
  by_cases hout : (Run.exec step c (Run.schedule step pick n c)).Outside q
  · exact .inl hout
  · obtain ⟨m, hm⟩ := stuckAt_of_stop hout fun act => hhalt (q, act) hq
    refine .inr ⟨m, hm, ?_⟩
    cases m with
    | global =>
      obtain ⟨p, hp, hocc⟩ := hm.global hleft.inv hhalt hq
      exact ⟨p, hp, .inl ((hleft.occupies hp).1 hocc)⟩
    | desc i =>
      obtain ⟨p, hp, hocc⟩ := hm.desc hleft.inv hhalt hq
      exact ⟨p, hp, hocc.imp (hleft.occupies hp).1 (hleft.occupies hp).1⟩

end Runs

/-! ### Calls that need the manager -/

section Manager

variable [Fintype ι] [DecidableEq ι] {D : Set ι} {b : Body}

/-- A party that is not past `check_global_clients`, while another one occupies the manager. -/
structure Jammed (p q : ι) (b : Body) (c : Machine ι) : Prop where
  sound : c.Sound
  covered : c.Covered
  occupies : c.Occupies p .global
  inFront : (c.party q).InFront b

omit [DecidableEq ι] in
/-- The owner of the manager's mutex is the one that occupies it, or there are clients. -/
theorem Jammed.busy (h : c.Jammed p q b) {r : ι} (hr : r ≠ p)
    (hheld : (c.party r).pos.holds .global = true) : 0 < clients c.shared.shm .global := by
  rcases h.occupies with hp | hp
  · exact absurd (h.sound.unique hheld hp) hr
  · have hpos := registered_pos.2 ⟨p, hp⟩
    have := h.covered .global
    omega

theorem Jammed.step (h : c.Jammed p q b) (hpq : q ≠ p) (ha : a.1 ≠ p) :
    (c.step a).Jammed p q b where
  sound := h.sound.step a
  covered := h.covered.step h.sound a
  occupies := by
    rw [Occupies, step_pos ha]
    exact h.occupies
  inFront := by
    rcases Monitor.step_cases wake Party.effect c a.1 a.2 with heq | ⟨e, he, -, heq⟩
    · rw [Machine.step, heq]
      exact h.inFront
    rw [Machine.step, heq]
    by_cases hq : q = a.1
    · subst hq
      rw [Monitor.apply_party_self]
      rcases inFront_effect (h.sound.ok _) h.inFront he with hfront | ⟨hheld, hzero⟩
      · exact hfront
      · exact absurd hzero (h.busy hpq hheld).ne'
    · rcases apply_party_cases (c := c) (e := e) hq with ⟨-, hsame⟩ | ⟨n, hn, hwoken⟩
      · rw [hsame]
        exact h.inFront
      · rw [hwoken]
        refine inFront_wake h.inFront fun hclients => ?_
        -- who notifies holds the mutex, and nobody is left
        obtain ⟨hheld, hzero⟩ := (step_of_effect (h.sound.ok a.1) he).notify_clients (hclients ▸ hn)
        have hreg : (c.party p).pos.registered .global = true :=
          h.occupies.resolve_left fun hp => ha (h.sound.unique hheld hp)
        have hpos : 0 < (c.step a).registered .global :=
          registered_pos.2 ⟨p, by rw [step_pos ha]; exact hreg⟩
        have hcov := h.covered.step h.sound a .global
        have hshared : clients (c.step a).shared.shm .global = 0 := by
          rw [Machine.step, heq]
          exact hzero
        omega

omit [Fintype ι] in
/-- The call is begun. -/
theorem step_call (hout : c.Outside q) {call : Call} (hcall : call.work = some b) :
    ((c.step (q, .call call)).party q).status = .ready ∧
      ((c.step (q, .call call)).party q).prog = globally b := by
  obtain ⟨hx, hprog⟩ := hout
  have he : (c.party q).effect c.shared (.call call)
      = some ⟨c.shared, { c.party q with prog := call.prog (c.party q).handle },
        none, none, none⟩ := by
    simp only [Party.effect, hx, hprog]
  have heq : c.step (q, .call call) = c.apply wake q _ := Monitor.step_eq wake he rfl
  rw [heq, Monitor.apply_party_self]
  exact ⟨hx, prog_of_work hcall _⟩

theorem covered_exec (size : ℕ) (as : List (ι × Act)) :
    (Run.exec step (init size : Machine ι) as).Sound ∧
      (Run.exec step (init size : Machine ι) as).Covered :=
  (Run.always_of_inv step (fun c : Machine ι => c.Sound ∧ c.Covered)
    (fun _ a hc => ⟨hc.1.step a, hc.2.step hc.1 a⟩)
    ⟨sound_init size, (conserved_init size).covered⟩).exec

/-- **Hanging.** Who begins a call that needs the manager stays in it as long as the party that
occupies the manager takes no step, whatever the others do. -/
theorem hangs (size : ℕ) (as : List (ι × Act)) {call : Call} (hcall : call.work = some b)
    (hout : (Run.exec step (init size : Machine ι) as).Outside q)
    (hocc : (Run.exec step (init size : Machine ι) as).Occupies p .global) (hpq : q ≠ p)
    {bs : List (ι × Act)} (hbs : ∀ a ∈ bs, a.1 ≠ p) :
    ¬ (Run.exec step (init size : Machine ι) (as ++ (q, .call call) :: bs)).Outside q := by
  obtain ⟨hs, hcov⟩ := covered_exec (ι := ι) size as
  rw [Run.exec_append]
  generalize Run.exec step (init size : Machine ι) as = c at hout hocc hs hcov
  have hbegin : (c.step (q, .call call)).Jammed p q b :=
    { sound := hs.step _
      covered := hcov.step hs _
      occupies := by
        rw [Occupies, step_pos hpq]
        exact hocc
      inFront := .inl (step_call hout hcall) }
  have hend := (Run.always_of_along (R := fun _ => True) (P := fun _ a => a.1 ≠ p) Machine.step
    (Jammed p q b) (fun _ _ _ h ha => h.step hpq ha) hbegin (fun _ _ => trivial)
    ((Run.along_iff_forall _).2 hbs)).exec
  rintro ⟨-, hnil⟩
  rcases hend.inFront with ⟨-, hprog⟩ | ⟨-, hprog⟩ <;> cases hprog.symm.trans hnil

omit [Fintype ι] in
theorem gated_step (hs : c.Sound) (h : (c.party q).Gated b) (ha : c.Possible a) :
    ((c.step a).party q).Gated b := by
  rcases Monitor.step_cases wake Party.effect c a.1 a.2 with heq | ⟨e, he, -, heq⟩
  · rwa [Machine.step, heq]
  rw [Machine.step, heq]
  by_cases hq : q = a.1
  · subst hq
    rw [Monitor.apply_party_self]
    exact gated_effect (hs.ok _) h ha.1 he
  · rcases apply_party_cases (c := c) (e := e) hq with ⟨-, hsame⟩ | ⟨n, -, hwoken⟩
    · rwa [hsame]
    · rw [hwoken]
      exact gated_wake h n

omit [Fintype ι] [DecidableEq ι] in
/-- Who is stuck in such a call is stuck at the manager. -/
theorem StuckAt.of_gated (h : c.StuckAt q m) (hs : c.Sound) (hg : (c.party q).Gated b) :
    m = .global := by
  have hok := hs.ok q
  rcases h with hneeds | hwaits
  · unfold Party.needs at hneeds
    split at hneeds
    · rename_i k hx hprog
      cases hneeds
      rcases (hg.cases hprog).2 with heq | heq | heq | heq <;> cases heq
      rfl
    · rename_i n hx
      cases hneeds
      rw [hg.waitsOn hok (.inr hx)]
      rfl
    · rename_i i hx
      exact absurd hx (hg.status i)
    · cases hneeds
  · cases hg.waitsOn hok (.inl hwaits)
    rfl

/-- **Completion.** After any run without exceptions some clients are killed, and then another one
calls `findHandle`, `allocateBlock` or `resetAllBlocks`. However those are scheduled that were not
killed, after 50 steps for each party the call is over exactly if nobody was killed who held the
manager's mutex or was registered there; or there is an exception. -/
theorem completes_iff (size : ℕ) (as : List (ι × Act))
    (h : Run.Along step Calm (init size : Machine ι) as) (D : Set ι)
    (pick : Machine ι → ι × Act)
    (hpick : ∀ c : Machine ι, (∃ a, a.1 ∉ D ∧ c.Possible a) →
      (pick c).1 ∉ D ∧ c.Possible (pick c))
    {call : Call} (hcall : call.work = some b) (hq : q ∉ D)
    (hout : (Run.exec step (init size : Machine ι) as).Outside q) :
    let c := Run.exec step (init size : Machine ι) as
    ∃ n ≤ 50 * Fintype.card ι,
      let bs := Run.schedule step pick n (c.step (q, .call call))
      let e := Run.exec step (c.step (q, .call call)) bs
      Run.Along step (Survives D) (c.step (q, .call call)) bs ∧
        ((e.Outside q ↔ ∀ p ∈ D, ¬ c.Occupies p .global) ∨ ¬ e.Calm (pick e)) := by
  intro c
  have hc : c.Inv := inv_exec h
  have hbegun : (c.step (q, .call call)).Inv := hc.step trivial
  obtain ⟨n, hle, halong, hend⟩ := halts_or_throws hbegun pick hpick
  have hload := load_le size (as ++ [(q, .call call)])
  rw [Run.exec_append] at hload
  refine ⟨n, hle.trans hload, halong, hend.imp_left fun hhalt => ⟨fun hdone p hp hocc => ?_, ?_⟩⟩
  · have halive : Run.Along step (fun _ a => a.1 ∉ D) _ _ := halong.mono fun _ _ ha => ha.alive
    have hbs := (Run.along_iff_forall step).1 halive
    have hhangs := hangs size as hcall hout hocc (fun heq => hq (heq ▸ hp))
      fun a ha heq => hbs a ha (heq ▸ hp)
    rw [Run.exec_append] at hhangs
    exact hhangs hdone
  · intro hclear
    by_contra hin
    obtain ⟨hready, hprog⟩ := step_call hout hcall
    have hgated := (Run.always_of_along (R := fun _ => True) Machine.step
      (fun e : Machine ι => e.Inv ∧ (e.party q).Gated b)
      (fun e a _ he ha => ⟨he.1.step ha.calm, gated_step he.1.sound he.2 ha.possible⟩)
      ⟨hbegun, hprog ▸ List.suffix_refl _, fun i hi => by cases hready.symm.trans hi⟩
      (fun _ _ => trivial) halong).exec.2
    have hleft := left_exec hbegun halong
    obtain ⟨m, hm⟩ := stuckAt_of_stop hin fun act => hhalt (q, act) hq
    obtain rfl := hm.of_gated hleft.inv.sound hgated
    obtain ⟨p, hp, hocc⟩ := hm.global hleft.inv hhalt hq
    refine hclear p hp ?_
    have hocc' := (hleft.occupies hp).1 hocc
    rwa [Occupies, step_pos fun heq : q = p => hq (heq ▸ hp)] at hocc'

end Manager

end Machine

/-! ### A run -/

/-- The second party is killed while it reads. -/
def killedRun : List (Client × Act) :=
  List.flatten
    [calls .first (.allocateBlock topicA 8 true) 4, calls .second (.findHandle topicA) 4,
      calls .second (.wait_data rawReader) 2, calls .first (.serialize shortMessage) 11,
      goes .second 6]

open Classical in
/-- Anybody who can go on and was not killed. -/
noncomputable def anySurvivor (D : Set Client) (c : Machine Client) : Client × Act :=
  if h : ∃ a, a.1 ∉ D ∧ c.Possible a then h.choose else (.first, .go)

theorem anySurvivor_spec (D : Set Client) (c : Machine Client)
    (h : ∃ a, a.1 ∉ D ∧ c.Possible a) :
    (anySurvivor D c).1 ∉ D ∧ c.Possible (anySurvivor D c) := by
  rw [anySurvivor, dif_pos h]
  exact h.choose_spec

set_option maxRecDepth 4000 in
theorem killedRun_calm :
    Run.Along Machine.step Machine.Calm (Machine.init 100 : Machine Client) killedRun := by
  decide +kernel

theorem contained_reading :
    let D : Set Client := {.second}
    let c := Run.exec Machine.step (Machine.init 100 : Machine Client) killedRun
    ∃ n ≤ 50 * Fintype.card Client,
      let bs := Run.schedule Machine.step (anySurvivor D) n c
      let e := Run.exec Machine.step c bs
      Run.Along Machine.step (Machine.Survives D) c bs ∧
        ((∀ q ∉ D, e.Outside q ∨ ∃ m, e.StuckAt q m ∧
          ∃ p ∈ D, c.Occupies p m ∨ c.Occupies p .global) ∨ ¬ e.Calm (anySurvivor D e)) :=
  Machine.contained 100 killedRun killedRun_calm {.second} _ (anySurvivor_spec _)

set_option maxRecDepth 4000 in
/-- The reader is registered as a global client, so that the manager does not end. -/
theorem completes_iff_reading :
    let D : Set Client := {.second}
    let c := Run.exec Machine.step (Machine.init 100 : Machine Client) killedRun
    ∃ n ≤ 50 * Fintype.card Client,
      let bs := Run.schedule Machine.step (anySurvivor D) n (c.step (.third, .call .resetAllBlocks))
      let e := Run.exec Machine.step (c.step (.third, .call .resetAllBlocks)) bs
      Run.Along Machine.step (Machine.Survives D) (c.step (.third, .call .resetAllBlocks)) bs ∧
        (¬ e.Outside .third ∨ ¬ e.Calm (anySurvivor D e)) := by
  obtain ⟨n, hle, halong, hend⟩ := Machine.completes_iff 100 killedRun killedRun_calm {.second} _
    (anySurvivor_spec _) (show Call.resetAllBlocks.work = some .resetAllBlocks from rfl)
    (q := .third) (by simp) (by decide +kernel)
  refine ⟨n, hle, halong, hend.imp_left fun hiff hout => ?_⟩
  exact hiff.1 hout .second rfl (by decide +kernel)

end Sync

end MessageTransport
