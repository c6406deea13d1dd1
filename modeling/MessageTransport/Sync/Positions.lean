import MessageTransport.Sync.Machine

/-!
# Programs keep to their positions

Every instruction has a precondition on the position of the party that reaches it, `Instr.Pre`, and
a position after it, `Instr.post`. A program is well formed at a position if it can be followed from
there to its end, where the party is idle again (`Wf`). All programs of the source are well formed
at the idle position (`wf_prog`).

The preconditions fix the order of the mutexes: a descriptor's mutex is taken by a party that holds
no mutex and is no global client, the global mutex by a party that does not hold it; and a party
that is registered anywhere never waits for clients to leave.

`Party.Ok` says the same of a party at any moment of a call. For such a party the possible steps are
listed with all that is known about them (`Step`, `step_of_effect`), and every step keeps it
(`Step.ok`). What a step does to the mutexes, the counts, the segment or the notifications is then
read off that list, here and in the modules that follow.
-/

namespace MessageTransport

namespace Sync

/-! ### Holding mutexes -/

namespace Position

variable {v : Position} {m n : Mutex}

theorem holds_desc {i : Slot} : v.holds (.desc i) = true ↔ v.desc = some i := by simp [holds]

/-- At most one descriptor's mutex is held, so that giving it back clears the entry. -/
theorem holds_release (h : v.holds m = true) :
    (v.release m).holds n = true ↔ v.holds n = true ∧ m ≠ n := by
  cases m with
  | global => cases n <;> simp [release, holds]
  | desc i =>
    rw [holds_desc] at h
    cases n with
    | global => simp [release, holds]
    | desc j => simp [release, holds, h]

theorem holds_acquire (h : ∀ i, m = .desc i → v.desc = none) :
    (v.acquire m).holds n = true ↔ m = n ∨ v.holds n = true := by
  cases m with
  | global => cases n <;> simp [acquire, holds]
  | desc i => cases n <;> simp [acquire, holds, h i rfl]

@[simp] theorem holds_pass : (v.pass m).holds n = v.holds n := by cases m <;> cases n <;> rfl

@[simp] theorem holds_register : (v.register m).holds n = v.holds n := by
  cases m <;> cases n <;> rfl

@[simp] theorem holds_unregister : (v.unregister m).holds n = v.holds n := by
  cases m <;> cases n <;> rfl

end Position

/-! ### Well-formed programs -/

/-- The slot that work needs the caller's handle to have. -/
def Body.slot : Body → Option Slot
  | .relookup i | .grow i _ _ | .resetBlock i => some i
  | _ => none

/-- What an instruction needs of the position at which it is reached, and of the slot of the
caller's handle. -/
def Instr.Pre (v : Position) (slot : Option Slot) : Instr → Prop
  | .lock .global => v.global = false ∧ v.pastGlobal = false
  | .lock (.desc _) => v.desc = none ∧ v.pastDesc = false ∧ v.global = false ∧ v.regGlobal = false
  | .unlock .global => v.global = true
  | .unlock (.desc i) => v.desc = some i ∧ v.global = false ∧ v.wrote = none
  | .check .global =>
    v.global = true ∧ v.pastGlobal = false ∧ v.reg = none ∧ v.regGlobal = false
  | .check (.desc i) => v = { desc := some i }
  | .register .global => v.global = true ∧ v.pastGlobal = false ∧ v.regGlobal = false
  | .register (.desc i) => v = { desc := some i, due := some i }
  | .unregister .global => v.global = true ∧ v.pastGlobal = false ∧ v.regGlobal = true
  | .unregister (.desc i) => v = { desc := some i, reg := some i }
  | .timed_wait i => v = { desc := some i }
  | .signal_data i => v = { desc := some i, pastDesc := true, wrote := some i }
  | .body b => v.global = true ∧ v.pastGlobal = true ∧ ∀ i, b.slot = some i → slot = some i
  | .ifStale i | .ifLarger i _ _ =>
    v = { desc := some i, pastDesc := true } ∧ slot = some i
  | .write i _ => v = { desc := some i, pastDesc := true, regGlobal := true } ∧ slot = some i
  | .read i _ => v = { reg := some i, regGlobal := true, due := some i } ∧ slot = some i

/-- The instruction may leave the caller with a handle to another slot, or with none. -/
def Instr.moves : Instr → Bool
  | .body (.relookup _) => false
  | .body _ | .ifLarger _ _ _ => true
  | _ => false

/-- The program can be followed from position `v` to its end, by a caller whose handle has a given
slot. -/
def Wf : Position → Option Slot → List Instr → Prop
  | v, _, [] => v = .idle
  | v, slot, i :: k =>
    i.Pre v slot ∧ ∀ slot', (i.moves = false → slot' = slot) → Wf (i.post v) slot' k

/-- Behind an instruction that keeps the handle the program is well formed for the same slot. -/
theorem Wf.keep {v : Position} {slot : Option Slot} {i : Instr} {k : List Instr}
    (h : Wf v slot (i :: k)) : Wf (i.post v) slot k := h.2 slot fun _ => rfl

/-- **Every program of the source is well formed.** -/
theorem wf_prog (c : Call) (h : ShmHandle) : Wf .idle h.slot (c.prog h) := by
  cases c with
  | findHandle | allocateBlock | resetAllBlocks =>
    simp [Call.prog, globally, check_global_clients, Wf, Instr.Pre, Instr.post, Instr.moves,
      Body.slot, Position.idle, Position.acquire, Position.pass, Position.release]
  | reallocateBlock size alloc =>
    simp only [Call.prog]
    split
    · rename_i hslot
      simp [reallocateBlock, check_clients, Wf, Instr.Pre, Instr.post, Instr.moves, Position.idle,
        Position.acquire, Position.pass, Position.release, hslot]
    · rfl
  | serialize msg =>
    simp only [Call.prog]
    split
    · rename_i hslot
      simp [serialize, check_clients, register_global_client, unregister_global_client, Wf,
        Instr.Pre, Instr.post, Instr.moves, Position.idle, Position.acquire, Position.pass,
        Position.release, Position.register, Position.unregister, hslot]
    · rfl
  | wait_data r =>
    simp only [Call.prog]
    split
    · rename_i hslot
      simp [wait_data, wait_data_and_register_client, register_global_client,
        unregister_global_client, unregister_client, Wf, Instr.Pre, Instr.post, Instr.moves,
        Position.idle, Position.acquire, Position.release, Position.register, Position.unregister,
        hslot]
    · rfl
  | resetBlock =>
    simp only [Call.prog]
    split
    · rename_i hslot
      simp [resetBlock, globally, check_clients, check_global_clients, Wf, Instr.Pre, Instr.post,
        Instr.moves, Body.slot, Position.idle, Position.acquire, Position.pass, Position.release,
        hslot]
    · rfl

/-- Looking up the pointer again, before a program that goes on with the same handle. -/
theorem wf_relookup {i : Slot} {k : List Instr}
    (h : Wf { desc := some i, pastDesc := true } (some i) k) :
    Wf { desc := some i, pastDesc := true } (some i) (globally (.relookup i) ++ k) := by
  simpa [globally, check_global_clients, Wf, Instr.Pre, Instr.post, Instr.moves, Body.slot,
    Position.acquire, Position.pass, Position.release] using h

/-- Replacing the block, before a program that goes on with whatever handle that leaves. -/
theorem wf_grow {i : Slot} {k : List Instr} (size : UInt32) (alloc : Bool)
    (h : ∀ slot, Wf { desc := some i, pastDesc := true } slot k) :
    Wf { desc := some i, pastDesc := true } (some i) (globally (.grow i size alloc) ++ k) := by
  simpa [globally, check_global_clients, Wf, Instr.Pre, Instr.post, Instr.moves, Body.slot,
    Position.acquire, Position.pass, Position.release] using h

/-! ### Parties -/

/-- The condition an instruction may wait on. -/
def Instr.waitsOn : Instr → Option Cond
  | .check m => some (.clients m)
  | .timed_wait i => some (.data i)
  | _ => none

/-- The party's handle and position are as the instruction needs them. -/
abbrev Party.Reaches (x : Party) (i : Instr) : Prop := i.Pre x.pos x.handle.slot

/-- The party can follow the program from position `v` on. -/
abbrev Party.Follows (x : Party) (v : Position) (k : List Instr) : Prop := Wf v x.handle.slot k

/-- A party stands where its program says. If it waits, it has given back one mutex only, and its
program is well formed for the position with that mutex. -/
def Party.Ok (x : Party) : Prop :=
  match x.status with
  | .ready => x.Follows x.pos x.prog
  | .waiting c | .woken c => (∃ i k, x.prog = i :: k ∧ i.waitsOn = some c) ∧
      (x.pos.acquire c.mutex).release c.mutex = x.pos ∧
      x.Follows (x.pos.acquire c.mutex) x.prog
  | .timedOut _ => x.pos = .idle

theorem Party.Ok.ready {x : Party} (h : x.Ok) (hs : x.status = .ready) :
    x.Follows x.pos x.prog := by
  rwa [Party.Ok, hs] at h

theorem Party.Ok.waiting {x : Party} {c : Cond} (h : x.Ok)
    (hs : x.status = .waiting c ∨ x.status = .woken c) : (∃ i k, x.prog = i :: k ∧
      i.waitsOn = some c ∧ i.Pre (x.pos.acquire c.mutex) x.handle.slot ∧
        x.Follows (i.post (x.pos.acquire c.mutex)) k) ∧
      (x.pos.acquire c.mutex).release c.mutex = x.pos := by
  have hall : (∃ i k, x.prog = i :: k ∧ i.waitsOn = some c) ∧
      (x.pos.acquire c.mutex).release c.mutex = x.pos ∧
      x.Follows (x.pos.acquire c.mutex) x.prog := by
    rcases hs with hs | hs <;> rwa [Party.Ok, hs] at h
  obtain ⟨⟨i, k, hp, hw⟩, hpos, hwf⟩ := hall
  rw [hp] at hwf
  refine ⟨⟨i, k, hp, hw, hwf.1, ?_⟩, hpos⟩
  exact hwf.keep

theorem Instr.holds_of_waitsOn {i : Instr} {c : Cond} {v : Position} {slot : Option Slot}
    (hi : i.waitsOn = some c) (hp : i.Pre v slot) : v.holds c.mutex = true := by
  cases i with
  | check m =>
    cases hi
    cases m with
    | global => exact hp.1
    | desc j => simp [show v = _ from hp, Cond.mutex, Position.holds]
  | timed_wait j =>
    cases hi
    simp [show v = _ from hp, Cond.mutex, Position.holds]
  | _ => cases hi

/-- Waiting for a mutex again does not change which others are held. -/
theorem Instr.holds_post_of_waitsOn {i : Instr} {c : Cond} {v : Position}
    (hi : i.waitsOn = some c) (n : Mutex) : (i.post v).holds n = v.holds n := by
  cases i with
  | check m => exact Position.holds_pass
  | timed_wait j => cases n <;> rfl
  | _ => cases hi

/-! ### What a step can do -/

/-- Work that a step of a call does on the table and the caller's handle, other than reading and
writing a block. -/
inductive Work (s : Shm) (h : ShmHandle) : Shm → ShmHandle → Prop
  | none : Work s h s h
  | body (b : Body) (hb : ∀ i, b.slot = some i → h.slot = some i) :
    Work s h (b.run s h).1 (b.run s h).2
  | recordSize (i : Slot) (size : ℕ) :
    Work s h (s.setDescriptor i ((s.descriptors i).recordSize size 0)) h

/-- The steps of a party that stands where its program says, with what is known before and after
each. -/
inductive Step (x : Party) (s : Shared) : Act → Effect → Prop
  | call {c : Call} (hx : x.status = .ready) (hp : x.pos = .idle) :
    Step x s (.call c) { shared := s, self := { x with prog := c.prog x.handle } }
  | lock {m : Mutex} {k : List Instr} (hx : x.status = .ready) (hp : x.Reaches (.lock m))
    (hk : x.Follows (x.pos.acquire m) k) :
    Step x s .go { shared := s, self := x.goto k (x.pos.acquire m), take := some m }
  | unlock {m : Mutex} {k : List Instr} (hx : x.status = .ready)
    (hp : x.Reaches (.unlock m)) (hk : x.Follows (x.pos.release m) k) :
    Step x s .go { shared := s, self := x.goto k (x.pos.release m), give := some m }
  | pass {m : Mutex} {k : List Instr} (hx : x.status = .ready) (hp : x.Reaches (.check m))
    (hk : x.Follows (x.pos.pass m) k) (h0 : clients s.shm m = 0) :
    Step x s .go { shared := s, self := x.goto k (x.pos.pass m) }
  | wait {i : Instr} {c : Cond} (hx : x.status = .ready) (hi : i.waitsOn = some c)
    (hp : x.Reaches i) (hk : (x.suspend c).Ok)
    (h0 : ∀ m, c = .clients m → clients s.shm m ≠ 0) :
    Step x s .go { shared := s, self := x.suspend c, give := some c.mutex }
  | resume {i : Instr} {c : Cond} {k : List Instr} (hx : x.status = .woken c)
    (hi : i.waitsOn = some c) (hp : i.Pre (x.pos.acquire c.mutex) x.handle.slot)
    (hr : (x.pos.acquire c.mutex).release c.mutex = x.pos)
    (hk : x.Follows (i.post (x.pos.acquire c.mutex)) k) :
    Step x s .go
      { shared := s
        self := { x.goto k (i.post (x.pos.acquire c.mutex)) with status := .ready }
        take := some c.mutex }
  | expire {i : Slot} (hx : x.status = .waiting (.data i)) (hp : x.pos = .idle) :
    Step x s .timeout { shared := s, self := { x with status := .timedOut i } }
  | giveUp {i : Slot} (hx : x.status = .timedOut i) (hp : x.pos = .idle) :
    Step x s .go
      { shared := s
        self := { x.goto [.unlock (.desc i)] (x.pos.acquire (.desc i)) with status := .ready }
        take := some (.desc i) }
  | register {m : Mutex} {k : List Instr} (hx : x.status = .ready)
    (hp : x.Reaches (.register m)) (hk : x.Follows (x.pos.register m) k) :
    Step x s .go
      { shared := { s with shm := addClients s.shm m 1 }, self := x.goto k (x.pos.register m) }
  | unregister {m : Mutex} {k : List Instr} (hx : x.status = .ready)
    (hp : x.Reaches (.unregister m)) (hk : x.Follows (x.pos.unregister m) k) :
    Step x s .go
      { shared := { s with shm := addClients s.shm m (-1) }
        self := x.goto k (x.pos.unregister m)
        notify := if clients s.shm m + -1 = 0 then some (.clients m) else none }
  | signal {i : Slot} {k : List Instr} (hx : x.status = .ready)
    (hp : x.Reaches (.signal_data i)) (hk : x.Follows { x.pos with wrote := none } k) :
    Step x s .go
      { shared := s, self := x.goto k { x.pos with wrote := none }, notify := some (.data i) }
  | work {k : List Instr} {t : Shm} {h : ShmHandle} (hx : x.status = .ready)
    (hk : Wf x.pos h.slot k) (ht : Work s.shm x.handle t h) :
    Step x s .go { shared := { s with shm := t }, self := { x.goto k x.pos with handle := h } }
  | write {i : Slot} {msg : Message} {k : List Instr} (hx : x.status = .ready)
    (hp : x.Reaches (.write i msg)) (hk : x.Follows { x.pos with wrote := some i } k)
    (hr : fits s.shm i x.handle msg.write = true) :
    Step x s .go
      { shared := s.record (s.shm.serialize i x.handle msg.write).2.1 i
          (s.shm.refresh i x.handle).ptr
        self := { x.goto k { x.pos with wrote := some i } with
          handle := s.shm.refresh i x.handle } }
  | writeThrows {i : Slot} {msg : Message} (hx : x.status = .ready)
    (hp : x.Reaches (.write i msg)) {k : List Instr} (hprog : x.prog = .write i msg :: k)
    (hr : fits s.shm i x.handle msg.write = false) :
    Step x s .go
      { shared := { s with shm := (s.shm.serialize i x.handle msg.write).2.1 }
        self := { x.goto [.unlock (.desc i)] { x.pos with regGlobal := false } with
          handle := s.shm.refresh i x.handle } }
  | read {i : Slot} {k : List Instr} (hx : x.status = .ready)
    {r : StreamM Unit} (hp : x.Reaches (.read i r)) (hk : x.Follows { x.pos with due := none } k) :
    Step x s .go
      { shared := s
        self := { x.goto k { x.pos with due := none } with
          handle := s.shm.refresh i x.handle
          log := x.log ++ [s.reading i (s.shm.refresh i x.handle).ptr] } }
  | readThrows {i : Slot} {r : StreamM Unit} (hx : x.status = .ready)
    (hp : x.Reaches (.read i r)) {k : List Instr} (hprog : x.prog = .read i r :: k)
    (hr : fits s.shm i x.handle r = false) :
    Step x s .go
      { shared := s, self := { x.goto [] .idle with handle := s.shm.refresh i x.handle } }

section Steps

variable {x : Party} {s : Shared} {a : Act} {e : Effect} {i : Instr} {k : List Instr}

/-- A party that waits keeps to its program. -/
theorem ok_suspend {c : Cond} (hi : i.waitsOn = some c) (hp : x.Reaches i)
    (hprog : x.prog = i :: k) (hk : x.Follows x.pos (i :: k)) : (x.suspend c).Ok := by
  have hback : (x.pos.release c.mutex).acquire c.mutex = x.pos := by
    obtain ⟨v⟩ := x
    cases i with
    | check m =>
      cases hi
      cases m with
      | global =>
        obtain ⟨hg, hpg, -, -⟩ := hp
        simp only at hg hpg
        simp [Cond.mutex, Position.release, Position.acquire, ← hg, ← hpg]
      | desc j =>
        simp only [Instr.Pre] at hp
        simp [hp, Cond.mutex, Position.release, Position.acquire]
    | timed_wait j =>
      cases hi
      simp only [Instr.Pre] at hp
      simp [hp, Cond.mutex, Position.release, Position.acquire]
    | _ => cases hi
  refine ⟨⟨i, k, hprog, hi⟩, ?_, ?_⟩
  · show ((x.pos.release c.mutex).acquire c.mutex).release c.mutex = x.pos.release c.mutex
    rw [hback]
  · show x.Follows ((x.pos.release c.mutex).acquire c.mutex) x.prog
    rw [hback, hprog]
    exact hk

theorem step_of_instr (hx : x.status = .ready) (hprog : x.prog = i :: k)
    (hk : x.Follows x.pos (i :: k)) : Step x s .go (i.effect x k s) := by
  have hp : x.Reaches i := hk.1
  cases i with
  | lock m => exact .lock hx hp hk.keep
  | unlock m => exact .unlock hx hp hk.keep
  | check m =>
    simp only [Instr.effect]
    split_ifs with h0
    · exact .wait (c := .clients m) hx rfl hp (ok_suspend rfl hp hprog hk)
        fun n hn => by cases hn; exact h0
    · exact .pass hx hp hk.keep (not_not.1 h0)
  | register m => exact .register hx hp hk.keep
  | unregister m => exact .unregister hx hp hk.keep
  | timed_wait j =>
    exact .wait (c := .data j) hx rfl hp (ok_suspend rfl hp hprog hk) fun n hn => by cases hn
  | signal_data j => exact .signal hx hp hk.keep
  | body b =>
    have hslot : (Instr.body b).moves = false →
        (b.run s.shm x.handle).2.slot = x.handle.slot := by
      intro hm
      cases b with
      | relookup j => rfl
      | _ => cases hm
    exact .work hx (hk.2 _ hslot) (.body b hp.2.2)
  | ifStale j =>
    obtain ⟨hv, hj⟩ := hp
    have hk' : x.Follows x.pos
        (if s.shm.stale j x.handle then globally (.relookup j) ++ k else k) := by
      split_ifs with hst
      · rw [Party.Follows, hv, hj]
        exact wf_relookup (hv ▸ hj ▸ hk.keep)
      · exact hk.keep
    have hstep := Step.work (s := s) hx hk' .none
    simp only [Instr.effect]
    split_ifs at hstep ⊢ with hst <;> exact hstep
  | ifLarger j size alloc =>
    obtain ⟨hv, hj⟩ := hp
    simp only [Instr.effect]
    split_ifs with hs
    · have hk' : x.Follows x.pos (globally (.grow j size alloc) ++ k) := by
        rw [Party.Follows, hv, hj]
        exact wf_grow size alloc fun slot => hv ▸ hk.2 slot fun hm => by cases hm
      exact .work (s := s) hx hk' .none
    · exact .work hx hk.keep (.recordSize j size.toNat)
  | write j msg =>
    simp only [Instr.effect, Shm.serialize_handle]
    split_ifs with hr
    · exact .write hx hp hk.keep hr
    · exact .writeThrows hx hp hprog (Bool.eq_false_iff.2 hr)
  | read j r =>
    simp only [Instr.effect, Shm.deserialize_handle]
    split_ifs with hr
    · exact .read hx hp hk.keep
    · exact .readThrows hx hp hprog (Bool.eq_false_iff.2 hr)

/-- **Inversion.** The steps of a party that stands where its program says. -/
theorem step_of_effect (hok : x.Ok) (h : x.effect s a = some e) : Step x s a e := by
  cases a with
  | call c =>
    simp only [Party.effect] at h
    split at h
    · rename_i hx hprog
      cases h
      have hwf := hok.ready hx
      rw [hprog] at hwf
      exact .call hx hwf
    · cases h
  | go =>
    simp only [Party.effect] at h
    split at h
    · rename_i i k hx hprog
      cases h
      have hwf := hok.ready hx
      rw [hprog] at hwf
      exact step_of_instr hx hprog hwf
    · cases h
    · cases h
    · rename_i c hx
      cases h
      obtain ⟨⟨i, k, hprog, hi, hp, hk⟩, hr⟩ := hok.waiting (.inr hx)
      have hres : x.resume c
          = { x.goto k (i.post (x.pos.acquire c.mutex)) with status := .ready } := by
        rw [Party.resume, hprog]
      rw [hres]
      exact .resume hx hi hp hr hk
    · rename_i j hx
      cases h
      rw [Party.Ok, hx] at hok
      exact .giveUp hx hok
  | timeout =>
    simp only [Party.effect] at h
    split at h
    · rename_i j hx
      cases h
      obtain ⟨⟨i, k, -, hi, hp, -⟩, hr⟩ := hok.waiting (.inl hx)
      refine .expire hx ?_
      cases i with
      | timed_wait l =>
        cases hi
        have hv : x.pos.acquire (.desc j) = { desc := some j } := hp
        rw [← hr]
        show (x.pos.acquire (.desc j)).release (.desc j) = _
        rw [hv]
        rfl
      | check m => cases hi
      | _ => cases hi
    · cases h

/-! ### What every step keeps -/

/-- A step keeps to the program. -/
theorem Step.ok (h : Step x s a e) : e.self.Ok := by
  cases h with
  | call hx hp =>
    rw [Party.Ok, hx]
    show Wf x.pos x.handle.slot _
    rw [hp]
    exact wf_prog ..
  | wait hx hi hp hk h0 => exact hk
  | resume hx hi hp hr hk => exact hk
  | expire hx hp => exact hp
  | giveUp hx hp => simp [Party.Ok, Party.goto, Wf, Instr.Pre, Instr.post, hp, Position.acquire,
      Position.release, Position.idle]
  | writeThrows hx hp =>
    simp only [Instr.Pre] at hp
    simp [Party.Ok, hx, Party.goto, Wf, Instr.Pre, Instr.post, hp, Position.release, Position.idle]
  | readThrows hx hp => simp [Party.Ok, hx, Party.goto, Wf]
  | write hx _ hk | read hx _ hk =>
    rw [Party.Ok]
    simpa only [Party.goto, hx, Party.Follows, Shm.refresh_slot] using hk
  | lock hx _ hk | unlock hx _ hk | pass hx _ hk | register hx _ hk | unregister hx _ hk
  | signal hx _ hk | work hx hk =>
    rw [Party.Ok]
    simp only [Party.goto, hx]
    exact hk

theorem wake_ok (c : Cond) (h : x.Ok) : (wake c x).Ok := by
  unfold wake
  split_ifs with hw
  · rw [Party.Ok, hw] at h
    exact h
  · exact h

@[simp] theorem wake_pos (c : Cond) (x : Party) : (wake c x).pos = x.pos := by
  unfold wake
  split_ifs <;> rfl

@[simp] theorem wake_handle (c : Cond) (x : Party) : (wake c x).handle = x.handle := by
  unfold wake
  split_ifs <;> rfl

@[simp] theorem wake_log (c : Cond) (x : Party) : (wake c x).log = x.log := by
  unfold wake
  split_ifs <;> rfl

theorem wake_waiting {n c : Cond} (h : (wake n x).status = .waiting c) :
    x.status = .waiting c ∧ n ≠ c := by
  unfold wake at h
  split_ifs at h with hn
  refine ⟨h, ?_⟩
  rintro rfl
  exact hn h

theorem wake_woken {n c : Cond} (h : (wake n x).status = .woken c) :
    x.status = .woken c ∨ n = c ∧ x.status = .waiting c := by
  unfold wake at h
  split_ifs at h with hn
  · cases h
    exact .inr ⟨rfl, hn⟩
  · exact .inl h

/-- Only a held mutex is given back. -/
theorem Step.give (h : Step x s a e) {m : Mutex} (hm : e.give = some m) :
    x.pos.holds m = true := by
  cases h with
  | unlock hx hp =>
    cases hm
    cases m with
    | global => exact hp
    | desc i => exact Position.holds_desc.2 hp.1
  | wait hx hi hp =>
    cases hm
    exact Instr.holds_of_waitsOn hi hp
  | _ => cases hm

/-- Only a mutex that is not held is taken. -/
theorem Step.take (h : Step x s a e) {m : Mutex} (hm : e.take = some m) :
    x.pos.holds m = false := by
  cases h with
  | lock hx hp =>
    cases hm
    cases m with
    | global => exact hp.1
    | desc i => simp [Position.holds, hp.1]
  | resume hx hi hp hr =>
    -- the mutex was given back when the party began to wait
    cases hm
    rw [← hr, ← Bool.not_eq_true, Position.holds_release (Instr.holds_of_waitsOn hi hp)]
    exact fun hheld => hheld.2 rfl
  | giveUp hx hp =>
    cases hm
    rw [hp]
    rfl
  | _ => cases hm

/-- The mutexes held after a step. -/
theorem Step.holds (h : Step x s a e) (m : Mutex) : e.self.pos.holds m = true ↔
    e.take = some m ∨ (x.pos.holds m = true ∧ e.give ≠ some m) := by
  cases h with
  | lock hx hp =>
    rename_i n k _
    show (x.pos.acquire n).holds m = true ↔ _
    rw [Position.holds_acquire]
    · simp
    · rintro i rfl
      exact hp.1
  | unlock hx hp hk =>
    rename_i n k
    show (x.pos.release n).holds m = true ↔ _
    rw [Position.holds_release ((Step.unlock (s := s) hx hp hk).give rfl)]
    simp
  | wait hx hi hp hk h0 =>
    rename_i i c
    show (x.pos.release c.mutex).holds m = true ↔ _
    rw [Position.holds_release (Instr.holds_of_waitsOn hi hp)]
    simp
  | resume hx hi hp hr hk =>
    rename_i i c k
    have hheld := Instr.holds_of_waitsOn hi hp
    have hold := Position.holds_release (n := m) hheld
    rw [hr] at hold
    show (i.post (x.pos.acquire c.mutex)).holds m = true ↔ _
    rw [Instr.holds_post_of_waitsOn hi, hold]
    by_cases hm : c.mutex = m
    · simp [← hm, hheld]
    · simp [hm]
  | giveUp hx hp =>
    rename_i i
    show (x.pos.acquire (.desc i)).holds m = true ↔ _
    rw [Position.holds_acquire fun j _ => by rw [hp]; rfl]
    simp
  | readThrows hx hp =>
    simp only [Instr.Pre] at hp
    cases m <;> simp [Party.goto, Position.holds, Position.idle, hp]
  | writeThrows hx hp => cases m <;> simp [Party.goto, Position.holds]
  | pass | register | unregister => simp [Party.goto]
  | call | expire | signal | work | write | read =>
    cases m <;> simp [Party.goto, Position.holds]

end Steps

/-! ### The machine -/

namespace Machine

variable {ι : Type*} {c : Machine ι} {a : ι × Act}

/-- Every party stands where its program says, and owns the mutexes that it holds there. -/
structure Sound (c : Machine ι) : Prop where
  owned : Monitor.Owned (fun x m => x.pos.holds m = true) c
  ok : ∀ p, (c.party p).Ok

theorem sound_init (size : ℕ) : (init size : Machine ι).Sound where
  owned m p := by cases m <;> simp [init, Position.holds, Position.idle]
  ok p := rfl

/-- Two parties never hold the same mutex. -/
theorem Sound.unique (h : c.Sound) {m : Mutex} {p q : ι}
    (hp : (c.party p).pos.holds m = true) (hq : (c.party q).pos.holds m = true) : p = q :=
  h.owned.unique hp hq

variable [DecidableEq ι]

/-- A step of the machine changes nothing, or it is one of the known steps of a party. -/
theorem Sound.step_cases (h : c.Sound) (a : ι × Act) : c.step a = c ∨
    ∃ e, Step (c.party a.1) c.shared a.2 e ∧ e.enabled c = true ∧
      c.step a = c.apply wake a.1 e := by
  rcases Monitor.step_cases wake Party.effect c a.1 a.2 with heq | ⟨e, he, hen, heq⟩
  · exact .inl heq
  · exact .inr ⟨e, step_of_effect (h.ok a.1) he, hen, heq⟩

section Others

variable {e : Effect} {p q : ι}

/-- The other parties do not move, but for being woken. -/
theorem apply_party_cases (hq : q ≠ p) :
    (e.notify = none ∧ (c.apply wake p e).party q = c.party q) ∨
      ∃ n, e.notify = some n ∧ (c.apply wake p e).party q = wake n (c.party q) :=
  Monitor.apply_party_ne hq

theorem other_pos (hq : q ≠ p) : ((c.apply wake p e).party q).pos = (c.party q).pos :=
  Monitor.apply_party_eq (f := fun x : Party => x.pos) (fun n x => wake_pos n x) hq

theorem other_handle (hq : q ≠ p) : ((c.apply wake p e).party q).handle = (c.party q).handle :=
  Monitor.apply_party_eq (f := fun x : Party => x.handle) (fun n x => wake_handle n x) hq

theorem other_log (hq : q ≠ p) : ((c.apply wake p e).party q).log = (c.party q).log :=
  Monitor.apply_party_eq (f := fun x : Party => x.log) (fun n x => wake_log n x) hq

/-- A party that is still waiting was not notified. -/
theorem other_waiting {n : Cond} (hq : q ≠ p)
    (h : ((c.apply wake p e).party q).status = .waiting n) :
    (c.party q).status = .waiting n ∧ e.notify ≠ some n := by
  rcases apply_party_cases hq with ⟨hn, hsame⟩ | ⟨m, hn, hwoken⟩
  · rw [hsame] at h
    exact ⟨h, by simp [hn]⟩
  · rw [hwoken] at h
    obtain ⟨hst, hne⟩ := wake_waiting h
    exact ⟨hst, fun hm => hne (Option.some.inj (hn.symm.trans hm))⟩

/-- A party that was notified had been before, or was waiting. -/
theorem other_woken {n : Cond} (hq : q ≠ p)
    (h : ((c.apply wake p e).party q).status = .woken n) :
    (c.party q).status = .woken n ∨ e.notify = some n ∧ (c.party q).status = .waiting n := by
  rcases apply_party_cases hq with ⟨-, hsame⟩ | ⟨m, hn, hwoken⟩
  · rw [hsame] at h
    exact .inl h
  · rw [hwoken] at h
    rcases wake_woken h with hst | ⟨rfl, hst⟩
    · exact .inl hst
    · exact .inr ⟨hn, hst⟩

end Others

/-- A party stays where it is while the others take steps. -/
theorem step_pos {p : ι} (h : a.1 ≠ p) : ((c.step a).party p).pos = (c.party p).pos := by
  rcases Monitor.step_cases wake Party.effect c a.1 a.2 with heq | ⟨e, -, -, heq⟩
  · rw [Machine.step, heq]
  · rw [Machine.step, heq]
    exact other_pos h.symm

theorem Sound.step (h : c.Sound) (a : ι × Act) : (c.step a).Sound := by
  rcases h.step_cases a with heq | ⟨e, he, hen, heq⟩
  · rwa [heq]
  · rw [heq]
    constructor
    · exact h.owned.apply hen (fun n x => by simp) (fun m => he.give) he.holds
    · intro q
      by_cases hq : q = a.1
      · subst hq
        rw [Monitor.apply_party_self]
        exact he.ok
      · rcases apply_party_cases hq with ⟨-, hsame⟩ | ⟨n, -, hwoken⟩
        · rw [hsame]
          exact h.ok q
        · rw [hwoken]
          exact wake_ok n (h.ok q)

end Machine

end Sync

end MessageTransport
