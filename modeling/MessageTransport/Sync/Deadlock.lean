import MessageTransport.Sync.Counts

/-!
# No deadlock and no lost notification

Who waits for whom: a party that needs a mutex waits for its owner, and a party that waits for the
clients of a count waits for everyone registered there. The parties are ranked by what they wait
for. From bottom to top: the global mutex, the global clients, a descriptor's mutex, a descriptor's
clients. The positions of `Instr.Pre` put the party waited for below the one that waits
(`Party.Ok.rank_le`), so the waiting has no cycle.

A notification is not lost: who waits for clients waits for a count that is not 0 (`Waited`), and in
a run without exceptions such a count is that of parties that are really there. So every chain of
waiting parties goes on until it reaches a party that can take a step: `live_of_calm`.
-/

namespace MessageTransport

namespace Sync

/-! ### Ranks -/

/-- The mutex without which the party cannot go on. -/
def Party.needs (x : Party) : Option Mutex :=
  match x.status, x.prog with
  | .ready, .lock m :: _ => some m
  | .woken c, _ => some c.mutex
  | .timedOut i, _ => some (.desc i)
  | _, _ => none

/-- The rank of a party by what it waits for. -/
def Party.rank (x : Party) : ℕ :=
  match x.status, x.needs with
  | .waiting (.clients (.desc _)), _ => 4
  | _, some (.desc _) => 3
  | .waiting (.clients .global), _ => 2
  | _, some .global => 1
  | _, none => 0

section Rank

variable {x : Party} {m : Mutex}

/-- What a party holds and where it is registered bounds what it waits for. -/
structure Bounded (x : Party) : Prop where
  busy : x.pos ≠ .idle → x.prog ≠ [] ∧ ∀ i, x.status ≠ .waiting (.data i)
  global : x.pos.holds .global = true → x.rank = 0
  desc : ∀ i, x.pos.holds (.desc i) = true → x.rank ≤ 2
  regGlobal : x.pos.registered .global = true → x.rank ≤ 1
  reg : ∀ i, x.pos.registered (.desc i) = true → x.rank ≤ 3

/-- A party that waits for global clients is no client itself, and every other party that waits has
let go of everything. -/
theorem Party.Ok.away (h : x.Ok) {c : Cond} (hs : x.status = .waiting c ∨ x.status = .woken c) :
    (c = .clients .global ∧ x.pos.global = false ∧ x.pos.reg = none ∧ x.pos.regGlobal = false) ∨
      x.pos = .idle := by
  obtain ⟨⟨i, k, -, hi, hp, -⟩, hr⟩ := h.waiting hs
  cases i with
  | check m =>
    cases hi
    cases m with
    | global =>
      obtain ⟨-, -, hreg, hregGlobal⟩ := hp
      refine .inl ⟨rfl, ?_, hreg, hregGlobal⟩
      rw [← hr]
      rfl
    | desc j =>
      refine .inr ?_
      rw [← hr, show x.pos.acquire _ = _ from hp]
      rfl
  | timed_wait j =>
    cases hi
    refine .inr ?_
    rw [← hr, show x.pos.acquire _ = _ from hp]
    rfl
  | _ => cases hi

theorem Party.Ok.bounded (h : x.Ok) : Bounded x := by
  obtain ⟨prog, status, v, handle, log⟩ := x
  cases hs : status with
  | ready =>
    subst hs
    have hwf : Wf v handle.slot prog := h
    cases prog with
    | nil =>
      obtain rfl : v = .idle := hwf
      constructor <;> simp [Position.holds, Position.registered, Position.idle]
    | cons i k =>
      obtain ⟨hp, -⟩ := hwf
      cases i with
      | lock m =>
        -- what may be held here is the order of the mutexes
        cases m with
        | global =>
          constructor <;> simp [Party.rank, Party.needs, Position.holds, hp.1]
        | desc i =>
          constructor <;>
            simp [Party.rank, Party.needs, Position.holds, Position.registered, hp.1, hp.2.2.1,
              hp.2.2.2]
      | _ => constructor <;> simp [Party.rank, Party.needs]
  | waiting c | woken c =>
    subst hs
    rcases h.away (c := c) (by simp) with ⟨rfl, hg, hreg, hrg⟩ | hidle
    · -- only a descriptor's mutex may still be held
      obtain ⟨⟨i, k, hprog, -⟩, -⟩ := h.waiting (c := .clients .global) (by simp)
      dsimp only at hg hreg hrg hprog
      constructor <;>
        simp [Party.rank, Party.needs, Cond.mutex, Position.holds, Position.registered, hg, hreg,
          hrg, hprog]
    · obtain rfl : v = .idle := hidle
      constructor <;> simp [Position.holds, Position.registered, Position.idle]
  | timedOut i =>
    subst hs
    obtain rfl : v = .idle := h
    constructor <;> simp [Position.holds, Position.registered, Position.idle]

end Rank

/-! ### Waiting steps -/

section Steps

variable {x : Party} {s : Shared} {a : Act} {e : Effect} {m : Mutex}

/-- A party starts to wait for clients when there are some. -/
theorem Step.waiting (h : Step x s a e) (hm : e.self.status = .waiting (.clients m)) :
    clients s.shm m ≠ 0 ∧ e.shared = s := by
  cases h with
  | wait hx hi hp hk h0 =>
    rename_i i c
    have hc : c = .clients m := by simpa [Party.suspend] using hm
    exact ⟨h0 m hc, rfl⟩
  | call hx hp => cases hx.symm.trans hm
  | resume | giveUp | expire => cases hm
  | lock hx | unlock hx | pass hx | register hx | unregister hx | signal hx | work hx | write hx
  | writeThrows hx | read hx | readThrows hx => cases hx.symm.trans hm

/-- Whoever brings a count to 0 notifies those that wait for it. -/
theorem Step.notifies (h : Step x s a e) (h0 : 0 ≤ clients s.shm m)
    (hm : clients e.shared.shm m = 0) :
    clients s.shm m = 0 ∨ e.notify = some (.clients m) := by
  cases h with
  | register hx hp =>
    rename_i n k _
    by_cases hmn : m = n
    · subst hmn
      rw [clients_addClients_self] at hm
      omega
    · rw [clients_addClients_ne _ _ hmn] at hm
      exact .inl hm
  | unregister hx hp =>
    rename_i n k _
    by_cases hmn : m = n
    · subst hmn
      rw [clients_addClients_self] at hm
      exact .inr (if_pos hm)
    · rw [clients_addClients_ne _ _ hmn] at hm
      exact .inl hm
  | work hx hk ht => exact .inl ((ht.counts m).symm.trans hm)
  | write | writeThrows => exact .inl ((clients_serialize ..).symm.trans hm)
  | _ => exact .inl hm

/-- The mutex that the next step of a party takes is the one it needs. -/
theorem Instr.take_effect {i : Instr} {k : List Instr} (ht : (i.effect x k s).take = some m) :
    i = .lock m := by
  cases i with
  | lock n =>
    cases ht
    rfl
  | check n =>
    simp only [Instr.effect] at ht
    split_ifs at ht
  | ifLarger j size alloc =>
    simp only [Instr.effect] at ht
    split_ifs at ht
  | write j msg =>
    simp only [Instr.effect] at ht
    split_ifs at ht
  | read j r =>
    simp only [Instr.effect] at ht
    split_ifs at ht
  | _ => cases ht

/-- A party in a call waits for clients or for data, or it has a next step, for which it needs the
mutex that the step takes. -/
theorem Party.next_step (s : Shared) (hp : x.prog ≠ []) (hd : ∀ i, x.status ≠ .waiting (.data i)) :
    (∃ m, x.status = .waiting (.clients m)) ∨
      ∃ e, x.effect s .go = some e ∧ ∀ m, e.take = some m → x.needs = some m := by
  cases hs : x.status with
  | ready =>
    right
    cases hprog : x.prog with
    | nil => exact absurd hprog hp
    | cons i k =>
      refine ⟨i.effect x k s, by simp only [Party.effect, hs, hprog], fun m ht => ?_⟩
      obtain rfl := Instr.take_effect ht
      simp only [Party.needs, hs, hprog]
  | waiting c =>
    cases c with
    | clients m => exact .inl ⟨m, rfl⟩
    | data i => exact absurd hs (hd i)
  | woken c =>
    refine .inr ⟨_, by simp only [Party.effect, hs]; rfl, fun m ht => ?_⟩
    simpa only [Party.needs, hs] using ht
  | timedOut i =>
    refine .inr ⟨_, by simp only [Party.effect, hs]; rfl, fun m ht => ?_⟩
    simpa only [Party.needs, hs] using ht

/-- The rank of a party that needs a mutex, or waits for clients. -/
theorem Party.rank_of_needs (h : x.needs = some m) :
    x.rank = match m with | .global => 1 | .desc _ => 3 := by
  have hs : ∀ c, x.status ≠ .waiting c := by
    intro c hc
    simp [Party.needs, hc] at h
  cases m with
  | global =>
    simp only [Party.rank, h]
    split <;> simp_all
  | desc i =>
    simp only [Party.rank, h]
    split <;> simp_all

theorem Party.rank_of_waiting (h : x.status = .waiting (.clients m)) :
    x.rank = match m with | .global => 2 | .desc _ => 4 := by
  have hn : x.needs = none := by simp [Party.needs, h]
  cases m <;> simp [Party.rank, hn, h]

end Steps

/-! ### Runs -/

namespace Machine

variable {ι : Type*}

/-- The party can take a step of its own, not counting the end of a wait for data. -/
def CanGo (c : Machine ι) (p : ι) : Prop :=
  ∃ e, (c.party p).effect c.shared .go = some e ∧ e.enabled c = true

/-- The party is in a call, does not wait for data and cannot go on. -/
def Blocked (c : Machine ι) (p : ι) : Prop :=
  (c.party p).prog ≠ [] ∧ (∀ i, (c.party p).status ≠ .waiting (.data i)) ∧ ¬ c.CanGo p

/-- What a party waits for: the owner of the mutex that it needs, or a client that will notify it
when it unregisters. -/
def WaitsFor (c : Machine ι) (p q : ι) : Prop :=
  (∃ m, (c.party p).needs = some m ∧ c.owner m = some q) ∨
    ∃ m, (c.party p).status = .waiting (.clients m) ∧ (c.party q).pos.registered m = true

/-- Who waits for clients waits for some. -/
def Waited (c : Machine ι) : Prop :=
  ∀ m p, (c.party p).status = .waiting (.clients m) → 0 < clients c.shared.shm m

/-- **No deadlock and no lost notification.** -/
structure Live (c : Machine ι) : Prop where
  waited : c.Waited
  acyclic : ∀ p, ¬ Relation.TransGen c.WaitsFor p p
  next : ∀ p q, c.WaitsFor p q → c.Blocked q ∨ c.CanGo q
  ends : ∀ p, c.Blocked p → ∃ q, Relation.TransGen c.WaitsFor p q ∧ c.CanGo q

theorem waited_init (size : ℕ) : (init size : Machine ι).Waited := by
  intro m p hp
  cases hp

section Chains

variable {c : Machine ι}

/-- Whoever is waited for holds a mutex or is registered, below the rank of the one that waits. -/
theorem Sound.waitsFor (h : c.Sound) {p q : ι} (hw : c.WaitsFor p q) :
    (c.party q).rank < (c.party p).rank ∧ (c.party q).pos ≠ .idle := by
  have hb := (h.ok q).bounded
  rcases hw with ⟨m, hneeds, howner⟩ | ⟨m, hwaits, hreg⟩
  · -- `q` owns the mutex that `p` needs
    have hheld : (c.party q).pos.holds m = true := (h.owned m q).1 howner
    rw [Party.rank_of_needs hneeds]
    constructor
    · cases m with
      | global => simp [hb.global hheld]
      | desc i => have := hb.desc i hheld; simp only; omega
    · intro hidle
      rw [hidle] at hheld
      cases m <;> simp [Position.holds, Position.idle] at hheld
  · -- `q` is one of the clients that `p` waits for
    rw [Party.rank_of_waiting hwaits]
    constructor
    · cases m with
      | global => have := hb.regGlobal hreg; simp only; omega
      | desc i => have := hb.reg i hreg; simp only; omega
    · intro hidle
      rw [hidle] at hreg
      cases m <;> simp [Position.registered, Position.idle] at hreg

theorem Sound.next (h : c.Sound) {p q : ι} (hw : c.WaitsFor p q) : c.Blocked q ∨ c.CanGo q := by
  obtain ⟨hprog, hdata⟩ := (h.ok q).bounded.busy (h.waitsFor hw).2
  by_cases hgo : c.CanGo q
  · exact .inr hgo
  · exact .inl ⟨hprog, hdata, hgo⟩

/-- A blocked party waits for someone. -/
theorem Blocked.waitsFor [Fintype ι] {p : ι} (h : c.Blocked p) (hw : c.Waited)
    (hc : c.Conserved) : ∃ q, c.WaitsFor p q := by
  obtain ⟨hprog, hdata, hstop⟩ := h
  rcases Party.next_step c.shared hprog hdata with ⟨m, hm⟩ | ⟨e, he, htake⟩
  · -- the count is not 0, and it is that of parties that are there
    have hpos := hw m p hm
    rw [hc m] at hpos
    obtain ⟨q, hq⟩ := registered_pos.1 (by exact_mod_cast hpos)
    exact ⟨q, .inr ⟨m, hm, hq⟩⟩
  · have hdis : ¬ e.enabled c = true := fun hen => hstop ⟨e, he, hen⟩
    cases ht : e.take with
    | none => exact absurd (by simp [Monitor.Effect.enabled, ht]) hdis
    | some m =>
      cases ho : c.owner m with
      | none => exact absurd (by simp [Monitor.Effect.enabled, ht, ho]) hdis
      | some q => exact ⟨q, .inl ⟨m, htake m ht, ho⟩⟩

theorem Waited.live [Fintype ι] (hw : c.Waited) (hs : c.Sound) (hc : c.Conserved) : c.Live where
  waited := hw
  acyclic := Monitor.acyclic_of_rank fun _ _ h => (hs.waitsFor h).1
  next _ _ := hs.next
  ends _ hp := Monitor.ends_of_rank (R := c.WaitsFor)
    (fun _ _ h => (hs.waitsFor h).1) (fun _ h => h.waitsFor hw hc) (fun _ _ h => hs.next h) hp

end Chains

section Runs

variable [Fintype ι] [DecidableEq ι] {c : Machine ι}

theorem Waited.step (h : c.Waited) (hs : c.Sound) (hcov : c.Covered) (a : ι × Act) :
    (c.step a).Waited := by
  have hcov' := hcov.step hs a
  rcases hs.step_cases a with heq | ⟨e, he, -, heq⟩
  · rwa [heq]
  · rw [heq] at hcov' ⊢
    intro m q hq
    have hnew := hcov'.nonneg m
    have hold := hcov.nonneg m
    rw [Monitor.apply_shared] at hnew ⊢
    by_cases hqa : q = a.1
    · subst hqa
      rw [Monitor.apply_party_self] at hq
      obtain ⟨hne, hshared⟩ := he.waiting hq
      rw [hshared]
      omega
    · have hwait := other_waiting hqa hq
      have hpos := h m q hwait.1
      -- whoever brought the count to 0 would have notified `q`
      by_contra hzero
      rcases he.notifies hold (by omega) with h0 | hnotify
      · omega
      · exact hwait.2 hnotify

/-- **No deadlock and no lost notification**, in every run without exceptions. -/
theorem live_of_calm (size : ℕ) (as : List (ι × Act)) (h : Run.Along step Calm (init size) as) :
    Run.Always step Live (init size) as := by
  have hinv := Run.always_of_along (R := fun _ => True) step
    (fun c : Machine ι => c.Sound ∧ c.Conserved ∧ c.Waited)
    (fun c a _ hc ha => ⟨hc.1.step a, hc.2.1.step hc.1 ha, hc.2.2.step hc.1 hc.2.1.covered a⟩)
    ⟨sound_init size, conserved_init size, waited_init size⟩ (fun _ _ => trivial) h
  exact hinv.mono fun c hc => hc.2.2.live hc.1 hc.2.1

end Runs

end Machine

/-! ### A run -/

/-- The second party reads. The first waits for it to leave the block, and the third waits for it in
`resetAllBlocks`. -/
def crowdedRun : List (Client × Act) :=
  List.flatten
    [calls .first (.allocateBlock topicA 8 true) 4, calls .second (.findHandle topicA) 4,
      calls .second (.wait_data rawReader) 2, calls .first (.serialize shortMessage) 11,
      goes .second 6, calls .first (.serialize shortMessage) 2, calls .third .resetAllBlocks 2]

set_option maxRecDepth 4000 in
theorem live_crowdedRun : Run.Always Machine.step Machine.Live
    (Machine.init 100 : Machine Client) crowdedRun :=
  Machine.live_of_calm 100 crowdedRun (by decide +kernel)

end Sync

end MessageTransport
