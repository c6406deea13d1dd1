import MessageTransport.Sync.Alone
import MessageTransport.Sync.Deadlock

/-!
# Calls come to an end

No party turns in circles: every step that is not a new call makes the rest of its call shorter
(`Party.load`), and being notified makes it no longer. Where no exception has left a count behind,
somebody can always go on as long as somebody is in a call (`Waited.quiet`). So whoever decides which
party goes on, all calls are over after a bounded number of steps: `calls_complete`.
-/

namespace MessageTransport

namespace Sync

/-! ### What is left of a call -/

/-- How many steps an instruction may stand for. -/
def Instr.cost : Instr → ℕ
  | .ifStale _ | .ifLarger _ _ _ => 5
  | .timed_wait _ => 3
  | .write _ _ => 2
  | _ => 1

/-- The instructions of a program, by their cost. -/
def cost (k : List Instr) : ℕ := (k.map Instr.cost).sum

@[simp] theorem cost_nil : cost [] = 0 := rfl

@[simp] theorem cost_cons (i : Instr) (k : List Instr) : cost (i :: k) = i.cost + cost k := by
  simp [cost]

@[simp] theorem cost_append (k l : List Instr) : cost (k ++ l) = cost k + cost l := by
  simp [cost]

theorem cost_globally (b : Body) : cost (globally b) = 4 := rfl

/-- What a party has left to do before its call is over. -/
def Party.load (x : Party) : ℕ :=
  match x.status with
  | .ready => 3 * cost x.prog + 2
  | .waiting _ => 3 * cost x.prog + 1
  | .woken _ => 3 * cost x.prog
  | .timedOut _ => 6

section Load

variable {x : Party} {s : Shared} {a : Act} {e : Effect} {i : Instr} {k : List Instr}

theorem Instr.cost_pos (i : Instr) : 0 < i.cost := by
  cases i <;> simp [cost]

theorem load_goto (hx : x.status = .ready) (k : List Instr) (v : Position) :
    (x.goto k v).load = 3 * cost k + 2 := by
  simp only [Party.load, Party.goto, hx]

theorem load_suspend (x : Party) (c : Cond) : (x.suspend c).load = 3 * cost x.prog + 1 := rfl

/-- An instruction makes the rest of the call shorter. -/
theorem load_instr (hx : x.status = .ready) (hp : x.prog = i :: k) :
    (i.effect x k s).self.load < x.load := by
  have hload : x.load = 3 * (i.cost + cost k) + 2 := by
    simp only [Party.load, hx, hp, cost_cons]
  have hpos := i.cost_pos
  have hnext : ∀ v, (x.goto k v).load < x.load := fun v => by
    rw [load_goto hx, hload]
    omega
  cases i with
  | check m =>
    simp only [Instr.effect]
    split_ifs
    · rw [load_suspend, hload, hp, cost_cons]
      omega
    · exact hnext _
  | timed_wait j =>
    simp only [Instr.effect]
    rw [load_suspend, hload, hp, cost_cons]
    omega
  | ifStale j =>
    simp only [Instr.effect]
    split_ifs
    · rw [load_goto hx, hload, cost_append, cost_globally]
      simp only [Instr.cost]
      omega
    · exact hnext _
  | ifLarger j size alloc =>
    simp only [Instr.effect]
    split_ifs
    · rw [load_goto hx, hload, cost_append, cost_globally]
      simp only [Instr.cost]
      omega
    · exact hnext _
  | write j msg =>
    simp only [Instr.effect]
    split_ifs
    · exact hnext { x.pos with wrote := some j }
    · show (x.goto [.unlock (.desc j)] { x.pos with regGlobal := false }).load < _
      rw [load_goto hx, hload]
      simp only [cost_cons, Instr.cost, cost_nil]
      omega
  | read j r =>
    simp only [Instr.effect]
    split_ifs
    · exact hnext { x.pos with due := none }
    · show (x.goto [] .idle).load < _
      rw [load_goto hx, hload, cost_nil]
      omega
  | body b => exact hnext x.pos
  | _ => exact hnext _

/-- **Every step of a call makes the rest of it shorter.** -/
theorem load_effect (hok : x.Ok) (ha : ∀ c, a ≠ .call c) (h : x.effect s a = some e) :
    e.self.load < x.load := by
  cases a with
  | call c => exact absurd rfl (ha c)
  | go =>
    simp only [Party.effect] at h
    split at h
    · rename_i i k hx hp
      cases h
      exact load_instr hx hp
    · cases h
    · cases h
    · rename_i c hx
      cases h
      obtain ⟨⟨i, k, hp, -⟩, -⟩ := hok.waiting (.inr hx)
      have hpos := i.cost_pos
      simp only [Party.resume, hp, Party.load, Party.goto, hx, cost_cons]
      omega
    · rename_i j hx
      cases h
      simp [Party.load, Party.goto, hx, Instr.cost]
  | timeout =>
    simp only [Party.effect] at h
    split at h
    · rename_i j hx
      cases h
      obtain ⟨⟨i, k, hp, hi, -⟩, -⟩ := hok.waiting (.inl hx)
      cases i with
      | timed_wait l =>
        simp only [Party.load, hx, hp, cost_cons, Instr.cost]
        omega
      | _ => cases hi
    · cases h

/-- Being notified makes no call longer. -/
theorem load_wake (c : Cond) (x : Party) : (wake c x).load ≤ x.load := by
  unfold wake
  split_ifs with hx
  · simp only [Party.load, hx]
    omega
  · exact le_refl _

/-- What a call has to do at its beginning. -/
theorem cost_prog (c : Call) (h : ShmHandle) : cost (c.prog h) ≤ 16 := by
  cases c with
  | findHandle | allocateBlock | resetAllBlocks =>
    simp [Call.prog, globally, check_global_clients, Instr.cost]
  | reallocateBlock =>
    simp only [Call.prog]
    split <;> simp [reallocateBlock, check_clients, Instr.cost]
  | serialize =>
    simp only [Call.prog]
    split <;> simp [serialize, check_clients, register_global_client, unregister_global_client,
      Instr.cost]
  | wait_data =>
    simp only [Call.prog]
    split <;> simp [wait_data, wait_data_and_register_client, register_global_client,
      unregister_global_client, unregister_client, Instr.cost]
  | resetBlock =>
    simp only [Call.prog]
    split <;> simp [resetBlock, globally, check_clients, check_global_clients, Instr.cost]

theorem load_call {c : Call} (h : x.effect s (.call c) = some e) : e.self.load ≤ 50 := by
  simp only [Party.effect] at h
  split at h
  · rename_i hx hp
    cases h
    have := cost_prog c x.handle
    simp only [Party.load, hx]
    omega
  · cases h

end Load

namespace Machine

variable {ι : Type*} {c : Machine ι}

/-- The act is the next step of a party in its call, or the end of its wait for data, and can be
done now. -/
def Possible (c : Machine ι) (a : ι × Act) : Prop :=
  (∀ call, a.2 ≠ .call call) ∧ ∃ e, (c.party a.1).effect c.shared a.2 = some e ∧ e.enabled c = true

/-- What all parties together have left to do. -/
def load [Fintype ι] (c : Machine ι) : ℕ := ∑ p, (c.party p).load

section Idle

/-- Outside all calls nobody has a mutex. -/
theorem Sound.owner_of_idle (hs : c.Sound) (hpos : ∀ p, (c.party p).pos = .idle) (m : Mutex) :
    c.owner m = none := by
  by_contra ho
  obtain ⟨p, hp⟩ := Option.ne_none_iff_exists'.1 ho
  have hheld : (c.party p).pos.holds m = true := (hs.owned m p).1 hp
  rw [hpos p] at hheld
  cases m <;> cases hheld

/-- Who has nothing before it and waits for nothing is outside all calls. -/
theorem Sound.idle_of_done (hs : c.Sound) (hprog : ∀ p, (c.party p).prog = [])
    (hstop : ∀ a, ¬ c.Possible a) (p : ι) : (c.party p).status = .ready := by
  have hnone : ∀ q i k, (c.party q).prog ≠ i :: k := fun q i k h => by
    rw [hprog q] at h
    cases h
  cases hx : (c.party p).status with
  | ready => rfl
  | waiting n =>
    obtain ⟨⟨i, k, hp, -⟩, -⟩ := (hs.ok p).waiting (.inl hx)
    exact absurd hp (hnone p i k)
  | woken n =>
    obtain ⟨⟨i, k, hp, -⟩, -⟩ := (hs.ok p).waiting (.inr hx)
    exact absurd hp (hnone p i k)
  | timedOut i =>
    -- it needs the descriptor's mutex, which nobody holds
    have he : ∃ e, (c.party p).effect c.shared .go = some e ∧ e.take = some (.desc i) := by
      simp [Party.effect, hx]
    obtain ⟨e, he, htake⟩ := he
    have hpos : ∀ q, (c.party q).pos = .idle := by
      intro q
      have hok := hs.ok q
      cases hq : (c.party q).status with
      | ready =>
        have hwf := hok.ready hq
        rwa [hprog q] at hwf
      | waiting n =>
        obtain ⟨⟨i, k, hp, -⟩, -⟩ := hok.waiting (.inl hq)
        exact absurd hp (hnone q i k)
      | woken n =>
        obtain ⟨⟨i, k, hp, -⟩, -⟩ := hok.waiting (.inr hq)
        exact absurd hp (hnone q i k)
      | timedOut j => rwa [Party.Ok, hq] at hok
    have hfree := hs.owner_of_idle hpos (.desc i)
    refine absurd ⟨?_, e, he, ?_⟩ (hstop (p, .go))
    · rintro call ⟨⟩
    · simp [Monitor.Effect.enabled, htake, hfree]

/-- **As long as somebody is in a call, somebody can go on.** -/
theorem Waited.quiet [Fintype ι] (hw : c.Waited) (hs : c.Sound) (hc : c.Conserved)
    (hstop : ∀ a, ¬ c.Possible a) : c.Quiet := by
  have hgo : ∀ p, ¬ c.CanGo p := fun p ⟨e, he, hen⟩ =>
    hstop (p, .go) ⟨by rintro call ⟨⟩, e, he, hen⟩
  have hdata : ∀ p i, (c.party p).status ≠ .waiting (.data i) := fun p i hx =>
    hstop (p, .timeout) ⟨by rintro call ⟨⟩, _, by simp only [Party.effect, hx]; rfl, rfl⟩
  have hprog : ∀ p, (c.party p).prog = [] := by
    intro p
    by_contra hp
    obtain ⟨q, -, hq⟩ := (hw.live hs hc).ends p ⟨hp, hdata p, hgo p⟩
    exact hgo q hq
  have hready := hs.idle_of_done hprog hstop
  have hpos : ∀ p, (c.party p).pos = .idle := fun p => by
    have hwf := (hs.ok p).ready (hready p)
    rwa [hprog p] at hwf
  exact ⟨hs, hs.owner_of_idle hpos, fun p => ⟨hready p, hprog p⟩, hc.zero hpos⟩

end Idle

section Runs

variable [Fintype ι]

/-- What holds in every state of a run without exceptions. -/
structure Intact (c : Machine ι) : Prop where
  sound : c.Sound
  conserved : c.Conserved
  waited : c.Waited

theorem intact_init (size : ℕ) : (init size : Machine ι).Intact :=
  ⟨sound_init size, conserved_init size, waited_init size⟩

variable [DecidableEq ι]

/-- **Every possible step makes less to do.** -/
theorem Possible.load_lt (hs : c.Sound) {a : ι × Act} (ha : c.Possible a) :
    (c.step a).load < c.load := by
  obtain ⟨hcall, e, he, hen⟩ := ha
  have heq : c.step a = c.apply wake a.1 e := Monitor.step_eq wake he hen
  have hother : ∀ p, p ≠ a.1 → ((c.step a).party p).load ≤ (c.party p).load := by
    intro p hp
    rw [heq]
    rcases apply_party_cases (c := c) (e := e) hp with ⟨-, hsame⟩ | ⟨n, -, hwoken⟩
    · rw [hsame]
    · rw [hwoken]
      exact load_wake n _
  have hself : ((c.step a).party a.1).load < (c.party a.1).load := by
    rw [heq, Monitor.apply_party_self]
    exact load_effect (hs.ok a.1) hcall he
  refine Finset.sum_lt_sum (fun p _ => ?_) ⟨a.1, Finset.mem_univ _, hself⟩
  by_cases hp : p = a.1
  · exact hp ▸ hself.le
  · exact hother p hp

omit [Fintype ι] in
theorem load_step (hs : c.Sound) (h : ∀ p, (c.party p).load ≤ 50) (a : ι × Act) (p : ι) :
    ((c.step a).party p).load ≤ 50 := by
  rcases Monitor.step_cases wake Party.effect c a.1 a.2 with heq | ⟨e, he, -, heq⟩
  · rw [Machine.step, heq]
    exact h p
  · rw [Machine.step, heq]
    by_cases hp : p = a.1
    · subst hp
      rw [Monitor.apply_party_self]
      by_cases ha : ∃ call, a.2 = .call call
      · obtain ⟨call, ha⟩ := ha
        rw [ha] at he
        exact load_call he
      · exact (load_effect (hs.ok a.1) (fun call hc => ha ⟨call, hc⟩) he).le.trans (h a.1)
    · rcases apply_party_cases (c := c) (e := e) hp with ⟨-, hsame⟩ | ⟨n, -, hwoken⟩
      · rw [hsame]
        exact h p
      · rw [hwoken]
        exact (load_wake n _).trans (h p)

/-- No call stands for more than 50 steps. -/
theorem load_le (size : ℕ) (as : List (ι × Act)) :
    (Run.exec step (init size : Machine ι) as).load ≤ 50 * Fintype.card ι := by
  have hinv : Run.Always step (fun c : Machine ι => c.Sound ∧ ∀ p, (c.party p).load ≤ 50)
      (init size) as :=
    Run.always_of_inv step _ (fun _ a hc => ⟨hc.1.step a, load_step hc.1 hc.2 a⟩)
      ⟨sound_init size, fun p => by simp [init, Party.load]⟩
  have hsum := Finset.sum_le_card_nsmul Finset.univ _ 50 fun p _ => hinv.exec.2 p
  rw [Finset.card_univ, smul_eq_mul, mul_comm] at hsum
  exact hsum

theorem Intact.step (h : c.Intact) {a : ι × Act} (ha : c.Calm a) : (c.step a).Intact where
  sound := h.sound.step a
  conserved := h.conserved.step h.sound ha
  waited := h.waited.step h.sound h.conserved.covered a

theorem Intact.exec (h : c.Intact) {as : List (ι × Act)} (has : Run.Along Machine.step Calm c as) :
    (Run.exec Machine.step c as).Intact :=
  (Run.always_of_along (R := fun _ => True) Machine.step Intact (fun _ _ _ hc ha => hc.step ha) h
    (fun _ _ => trivial) has).exec

/-- Whoever is chosen to go on, everybody is out of its call in the end, or somebody comes to a step
that throws. -/
theorem Intact.complete (h : c.Intact) (pick : Machine ι → ι × Act)
    (hpick : ∀ c : Machine ι, (∃ a, c.Possible a) → c.Possible (pick c)) :
    ∃ n ≤ c.load,
      let bs := Run.schedule Machine.step pick n c
      Run.Along Machine.step (fun c a => c.Calm a ∧ c.Possible a) c bs ∧
        ((Run.exec Machine.step c bs).Quiet ∨
          ¬ (Run.exec Machine.step c bs).Calm (pick (Run.exec Machine.step c bs))) := by
  have hsome : ∀ c : Machine ι, c.Intact → ¬ c.Quiet → c.Possible (pick c) := by
    intro c hc hq
    refine hpick c ?_
    by_contra hnone
    exact hq (hc.waited.quiet hc.sound hc.conserved fun a ha => hnone ⟨a, ha⟩)
  obtain ⟨n, hle, halong, hend⟩ := Run.exists_final Machine.step Intact Quiet pick load
    (P := fun c a => c.Calm a ∧ c.Possible a)
    (fun c hc _ ha => ⟨hc.step ha.1, ha.2.load_lt hc.sound⟩) h
  refine ⟨n, hle, halong, or_iff_not_imp_left.2 fun hq hcalm => ?_⟩
  have hlast := h.exec (halong.mono fun _ _ ha => ha.1)
  exact hend.resolve_left hq ⟨hcalm, hsome _ hlast hq⟩

/-- **Calls come to an end.** After any run without exceptions, if no new calls are made, any way to
choose who goes on brings all parties out of their calls, or to an exception, within 50 steps for
each party. -/
theorem calls_complete (size : ℕ) (as : List (ι × Act))
    (h : Run.Along step Calm (init size : Machine ι) as) (pick : Machine ι → ι × Act)
    (hpick : ∀ c : Machine ι, (∃ a, c.Possible a) → c.Possible (pick c)) :
    let c := Run.exec step (init size : Machine ι) as
    ∃ n ≤ 50 * Fintype.card ι,
      let bs := Run.schedule step pick n c
      Run.Along step Calm c bs ∧
        ((Run.exec step c bs).Quiet ∨
          ¬ (Run.exec step c bs).Calm (pick (Run.exec step c bs))) := by
  intro c
  obtain ⟨n, hle, halong, hend⟩ := ((intact_init size).exec h).complete pick hpick
  exact ⟨n, hle.trans (load_le size as), halong.mono fun _ _ ha => ha.1, hend⟩

end Runs

end Machine

/-! ### A run -/

open Classical in
/-- Anybody who can go on. -/
noncomputable def anybody (c : Machine Client) : Client × Act :=
  if h : ∃ a, c.Possible a then h.choose else (.first, .go)

theorem possible_anybody (c : Machine Client) (h : ∃ a, c.Possible a) : c.Possible (anybody c) := by
  rw [anybody, dif_pos h]
  exact h.choose_spec

set_option maxRecDepth 4000 in
/-- Two parties wait for the reader to leave. -/
theorem calls_complete_crowded :
    let c := Run.exec Machine.step (Machine.init 100 : Machine Client) crowdedRun
    ∃ n ≤ 50 * Fintype.card Client,
      let bs := Run.schedule Machine.step anybody n c
      Run.Along Machine.step Machine.Calm c bs ∧
        ((Run.exec Machine.step c bs).Quiet ∨
          ¬ (Run.exec Machine.step c bs).Calm (anybody (Run.exec Machine.step c bs))) :=
  Machine.calls_complete 100 crowdedRun (by decide +kernel) anybody possible_anybody

end Sync

end MessageTransport
