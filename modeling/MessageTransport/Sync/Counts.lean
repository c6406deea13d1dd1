import MessageTransport.Lib.Run
import MessageTransport.Sync.Positions

/-!
# Client counts

How the two kinds of client counts change. Only a registration and its end change a count
(`Work.counts`), each by one and each done by a party that holds the mutex of the count
(`Step.clients_change`). So a count is never below the number of registered parties
(`Machine.Covered`), and it is equal to that number as long as no stream action throws inside a
registered section: `conserved_iff`.

A party counts as registered until it unregisters or an exception leaves its call, whichever comes
first. Neither `serialize` nor `wait_data` catches the exception of a stream action, so the counts
stay behind: `stuck_clients`.
-/

namespace MessageTransport

open MessageTransport.Stream

namespace Sync

/-! ### Work does not touch the counts -/

section Work

variable {s t : Shm} {h h' : ShmHandle} {m : Mutex}

theorem clients_congr (hg : t.num_clients = s.num_clients)
    (hd : ∀ i, (t.descriptors i).num_clients = (s.descriptors i).num_clients) :
    clients t m = clients s m := by
  cases m with
  | global => exact hg
  | desc i => exact hd i

theorem clients_setDescriptor {i : Slot} {d : Descriptor} {g : Segment}
    (hd : d.num_clients = (s.descriptors i).num_clients) :
    clients ({ s with segment := g }.setDescriptor i d) m = clients s m := by
  refine clients_congr rfl fun j => ?_
  by_cases hj : j = i
  · subst hj
    rw [Shm.setDescriptor_self, hd]
  · rw [Shm.setDescriptor_ne _ _ hj]

theorem clients_reconnect (s : Shm) (i : Slot) (size : ℕ) (alloc : Bool) :
    clients (s.reconnect i size alloc).1 m = clients s m := by
  unfold Shm.reconnect
  simp only
  split_ifs
  · split
    · rfl
    · exact clients_setDescriptor rfl
  · exact clients_setDescriptor (g := s.segment) rfl

theorem clients_claim (s : Shm) (i : Slot) (name : CString) (size : ℕ) (alloc : Bool) :
    clients (s.claim i name size alloc).1 m = clients s m := by
  unfold Shm.claim
  simp only
  split
  · exact clients_setDescriptor (g := s.segment) rfl
  · exact clients_setDescriptor (g := s.segment) rfl

theorem clients_allocateBlock (s : Shm) (name : CString) (size : ℕ) (alloc : Bool) :
    clients (s.allocateBlock name size alloc).1 m = clients s m := by
  unfold Shm.allocateBlock
  split
  · exact clients_reconnect ..
  · split
    · exact clients_claim ..
    · rfl

theorem clients_resetSlot (s : Shm) (i : Slot) : clients (s.resetSlot i) m = clients s m :=
  clients_setDescriptor rfl

theorem clients_resetAllBlocks (s : Shm) : clients s.resetAllBlocks m = clients s m := by
  have hstep : ∀ t i, clients t m = clients s m → t.active i →
      clients (t.resetSlot i) m = clients s m := by
    intro t i ht _
    rw [clients_resetSlot, ht]
  exact Shm.resetAllBlocks_induction (P := fun t => clients t m = clients s m) rfl hstep

theorem clients_grow (s : Shm) (i : Slot) (h : ShmHandle) (size : ℕ) (alloc : Bool) :
    clients (s.grow i h size alloc).1 m = clients s m := by
  unfold Shm.grow
  simp only
  split <;> exact clients_setDescriptor rfl

/-- **Work leaves all counts alone.** -/
theorem Work.counts (hw : Work s h t h') (m : Mutex) : clients t m = clients s m := by
  cases hw with
  | none => rfl
  | recordSize i size => exact clients_setDescriptor (g := s.segment) rfl
  | body b =>
    cases b with
    | findHandle name => rfl
    | allocateBlock name size alloc => exact clients_allocateBlock ..
    | relookup i => rfl
    | grow i size alloc => exact clients_grow ..
    | resetBlock i =>
      show clients (s.resetBlock i h).1 m = _
      unfold Shm.resetBlock
      split_ifs
      · exact clients_resetSlot ..
      · rfl
    | resetAllBlocks =>
      simp only [Body.run]
      exact clients_resetAllBlocks s

theorem clients_serialize (s : Shm) (i : Slot) (h : ShmHandle) (w : StreamM Unit) :
    clients (s.serialize i h w).2.1 m = clients s m := by
  obtain ⟨data, hd⟩ := Shm.serialize_shm (m := s) (i := i) h w
  rw [hd]
  cases m <;> rfl

end Work

/-! ### Exceptions -/

/-- What fits is written to a block that exists, without a fault. -/
theorem fits_iff_serialize {s : Shm} {i : Slot} {h : ShmHandle} {w : StreamM Unit} :
    fits s i h w = true ↔ ((s.refresh i h).ptr.bind s.segment.object).isSome = true ∧
      (s.serialize i h w).1 = none := by
  simp only [fits, Shm.serialize, Bool.and_eq_true]
  cases w.run (open_ (s.segment.bytesAt (s.refresh i h).ptr) (s.descriptors i).size_) <;> simp

/-- What fits is read from a block that exists, without a fault. -/
theorem fits_iff_deserialize {s : Shm} {i : Slot} {h : ShmHandle} {r : StreamM Unit} :
    fits s i h r = true ↔ ((s.refresh i h).ptr.bind s.segment.object).isSome = true ∧
      (s.deserialize i h r).1 = .ok () := by
  simp only [fits, Shm.deserialize, Bool.and_eq_true]
  cases r.run (open_ (s.segment.bytesAt (s.refresh i h).ptr) (s.descriptors i).size_) <;> simp

/-- The next step of the party is a stream action that throws. -/
def Party.throws (x : Party) (s : Shared) : Bool :=
  match x.status, x.prog with
  | .ready, .write i msg :: _ => !fits s.shm i x.handle msg.write
  | .ready, .read i r :: _ => !fits s.shm i x.handle r
  | _, _ => false

/-- The act is not a stream action that throws. -/
def Machine.Calm {ι : Type*} (c : Machine ι) : ι × Act → Prop
  | (p, .go) => (c.party p).throws c.shared = false
  | _ => True

instance {ι : Type*} (c : Machine ι) (a : ι × Act) : Decidable (c.Calm a) :=
  match a with
  | (_, .go) => inferInstanceAs (Decidable (_ = _))
  | (_, .call _) | (_, .timeout) => inferInstanceAs (Decidable True)

/-! ### Counts and steps -/

namespace Position

variable {v : Position} {m n : Mutex}

@[simp] theorem registered_acquire : (v.acquire m).registered n = v.registered n := by
  cases m <;> cases n <;> rfl

@[simp] theorem registered_release : (v.release m).registered n = v.registered n := by
  cases m <;> cases n <;> rfl

@[simp] theorem registered_pass : (v.pass m).registered n = v.registered n := by
  cases m <;> cases n <;> rfl

theorem registered_register (h : ∀ i, m = .desc i → v.reg = none) :
    (v.register m).registered n = (decide (m = n) || v.registered n) := by
  cases m with
  | global => cases n <;> simp [register, registered]
  | desc i =>
    cases n with
    | global => simp [register, registered]
    | desc j => by_cases hj : i = j <;> simp [register, registered, h i rfl, hj]

theorem registered_unregister (h : v.registered m = true) :
    (v.unregister m).registered n = (!decide (m = n) && v.registered n) := by
  cases m with
  | global => cases n <;> simp [unregister, registered]
  | desc i =>
    have hi : v.reg = some i := by simpa [registered] using h
    cases n with
    | global => simp [unregister, registered]
    | desc j => by_cases hj : i = j <;> simp [unregister, registered, hi, hj]

end Position

section Steps

variable {x : Party} {s : Shared} {a : Act} {e : Effect}

theorem Instr.registered_post_of_waitsOn {i : Instr} {c : Cond} {v : Position}
    (hi : i.waitsOn = some c) (m : Mutex) : (i.post v).registered m = v.registered m := by
  cases i with
  | check n => exact Position.registered_pass
  | timed_wait j => cases m <;> rfl
  | _ => cases hi

/-- A party registers where it is not registered yet. -/
theorem Instr.registered_of_register {v : Position} {slot : Option Slot} {m : Mutex}
    (hp : (Instr.register m).Pre v slot) :
    v.registered m = false ∧ ∀ i, m = .desc i → v.reg = none := by
  cases m with
  | global => exact ⟨hp.2.2, fun i hi => by cases hi⟩
  | desc j =>
    have hv : v = { desc := some j, due := some j } := hp
    exact ⟨by rw [hv]; rfl, fun i _ => by rw [hv]⟩

theorem Instr.registered_of_unregister {v : Position} {slot : Option Slot} {m : Mutex}
    (hp : (Instr.unregister m).Pre v slot) : v.registered m = true := by
  cases m with
  | global => exact hp.2.2
  | desc j => simp [show v = _ from hp, Position.registered]

/-- What a step that throws does to the counts: nothing, while the party is registered no more. -/
structure Leak (x : Party) (s : Shared) (a : Act) (e : Effect) : Prop where
  go : a = .go
  throws : x.throws s = true
  counts : ∀ m, clients e.shared.shm m = clients s.shm m
  registered : ∀ m, e.self.pos.registered m = true → x.pos.registered m = true
  before : x.pos.registered .global = true
  after : e.self.pos.registered .global = false

section Throws

variable {i : Slot} {k : List Instr}

theorem leak_write {msg : Message} (hx : x.status = .ready) (hp : x.Reaches (.write i msg))
    (hprog : x.prog = .write i msg :: k) (hr : fits s.shm i x.handle msg.write = false) :
    Leak x s .go
      { shared := { s with shm := (s.shm.serialize i x.handle msg.write).2.1 }
        self := { x.goto [.unlock (.desc i)] { x.pos with regGlobal := false } with
          handle := s.shm.refresh i x.handle } } where
  go := rfl
  throws := by simp [Party.throws, hx, hprog, hr]
  counts m := clients_serialize ..
  registered m := by cases m <;> simp [Party.goto, Position.registered]
  before := by simp [show x.pos = _ from hp.1, Position.registered]
  after := rfl

theorem leak_read {r : StreamM Unit} (hx : x.status = .ready) (hp : x.Reaches (.read i r))
    (hprog : x.prog = .read i r :: k) (hr : fits s.shm i x.handle r = false) :
    Leak x s .go
      { shared := s, self := { x.goto [] .idle with handle := s.shm.refresh i x.handle } } where
  go := rfl
  throws := by simp [Party.throws, hx, hprog, hr]
  counts m := rfl
  registered m := by cases m <;> simp [Party.goto, Position.registered, Position.idle]
  before := by simp [show x.pos = _ from hp.1, Position.registered]
  after := rfl

end Throws

/-- **What a step does to the counts.** It counts its party in or out as it should, or it
throws. -/
theorem Step.counts (h : Step x s a e) : Leak x s a e ∨ ∀ m,
    clients e.shared.shm m + (x.pos.registered m).toNat
      = clients s.shm m + (e.self.pos.registered m).toNat := by
  cases h with
  | register hx hp hk =>
    rename_i n k
    obtain ⟨hout, hnone⟩ := Instr.registered_of_register hp
    refine .inr fun m => ?_
    simp only [Party.goto, Position.registered_register hnone]
    by_cases hm : n = m
    · subst hm
      simp [hout]
    · simp [clients_addClients_ne _ _ (Ne.symm hm), hm]
  | unregister hx hp hk =>
    rename_i n k
    have hin := Instr.registered_of_unregister hp
    refine .inr fun m => ?_
    simp only [Party.goto, Position.registered_unregister hin]
    by_cases hm : n = m
    · subst hm
      simp [hin]
    · simp [clients_addClients_ne _ _ (Ne.symm hm), hm]
  | resume hx hi hp hr hk =>
    refine .inr fun m => ?_
    simp [Party.goto, Instr.registered_post_of_waitsOn hi]
  | work hx hk ht =>
    refine .inr fun m => ?_
    simp [Party.goto, ht.counts]
  | write hx hp hk hr =>
    rename_i i msg k
    refine .inr fun m => ?_
    have hreg : ∀ v : Position, Position.registered { v with wrote := some i } m
        = v.registered m := fun v => by cases m <;> rfl
    simp [Party.goto, Shared.record, clients_serialize, hreg]
  | writeThrows hx hp hprog hr => exact .inl (leak_write hx hp hprog hr)
  | readThrows hx hp hprog hr => exact .inl (leak_read hx hp hprog hr)
  | signal | read =>
    refine .inr fun m => ?_
    cases m <;> rfl
  | call | lock | unlock | pass | wait | expire | giveUp =>
    refine .inr fun m => ?_
    simp [Party.goto, Party.suspend]

/-- A stream action that throws is a step, and it leaves the global count behind. -/
theorem effect_of_throws (hok : x.Ok) (ht : x.throws s = true) :
    ∃ e, x.effect s .go = some e ∧ e.take = none ∧ Leak x s .go e := by
  unfold Party.throws at ht
  split at ht
  · rename_i i msg k hx hprog
    have hp : x.Reaches (.write i msg) := by
      have hwf := hok.ready hx
      rw [hprog] at hwf
      exact hwf.1
    have hr : fits s.shm i x.handle msg.write = false := by simpa using ht
    refine ⟨_, ?_, ?_, leak_write hx hp hprog hr⟩
    · simp only [Party.effect, hx, hprog, Instr.effect, Shm.serialize_handle, hr,
        Bool.false_eq_true, if_false]
    · rfl
  · rename_i i r k hx hprog
    have hp : x.Reaches (.read i r) := by
      have hwf := hok.ready hx
      rw [hprog] at hwf
      exact hwf.1
    have hr : fits s.shm i x.handle r = false := by simpa using ht
    refine ⟨_, ?_, ?_, leak_read hx hp hprog hr⟩
    · simp only [Party.effect, hx, hprog, Instr.effect, Shm.deserialize_handle, hr,
        Bool.false_eq_true, if_false]
    · rfl
  · cases ht

/-- Only a party that holds the mutex of a count and is not past its check changes the count. -/
theorem Step.clients_change (h : Step x s a e) {m : Mutex}
    (hm : clients e.shared.shm m ≠ clients s.shm m) :
    x.pos.holds m = true ∧ x.pos.past m = false := by
  have hsame : ∀ {n : Mutex} {d : ℤ}, clients (addClients s.shm n d) m
      ≠ clients s.shm m → m = n := by
    intro n d hne
    by_contra hmn
    exact hne (clients_addClients_ne _ _ hmn)
  cases h with
  | register hx hp =>
    rename_i n k _
    cases hsame hm
    cases m with
    | global => exact ⟨hp.1, by simp [Position.past, hp.2.1]⟩
    | desc i => simp [show x.pos = _ from hp, Position.holds, Position.past]
  | unregister hx hp =>
    rename_i n k _
    cases hsame hm
    cases m with
    | global => exact ⟨hp.1, by simp [Position.past, hp.2.1]⟩
    | desc i => simp [show x.pos = _ from hp, Position.holds, Position.past]
  | work hx hk ht => exact absurd (ht.counts m) hm
  | write | writeThrows => exact absurd (clients_serialize ..) hm
  | _ => exact absurd rfl hm

end Steps

/-! ### Runs -/

namespace Machine

variable {ι : Type*} [Fintype ι]

/-- The number of parties that are registered at the count of `m`. -/
def registered (c : Machine ι) (m : Mutex) : ℕ :=
  Monitor.count (fun x => x.pos.registered m) c

/-- Every count is the number of parties registered there. -/
def Conserved (c : Machine ι) : Prop := ∀ m, clients c.shared.shm m = c.registered m

/-- No party is counted less than once. -/
def Covered (c : Machine ι) : Prop := ∀ m, (c.registered m : ℤ) ≤ clients c.shared.shm m

theorem registered_pos {c : Machine ι} {m : Mutex} :
    0 < c.registered m ↔ ∃ p, (c.party p).pos.registered m = true := Monitor.count_pos

theorem conserved_init (size : ℕ) : (init size : Machine ι).Conserved := by
  intro m
  have hzero : (init size : Machine ι).registered m = 0 := by
    refine Nat.eq_zero_of_not_pos fun hpos => ?_
    obtain ⟨p, hp⟩ := registered_pos.1 hpos
    cases m <;> simp [init, Position.registered, Position.idle] at hp
  rw [hzero]
  cases m <;> rfl

theorem Covered.nonneg {c : Machine ι} (h : c.Covered) (m : Mutex) :
    0 ≤ clients c.shared.shm m := by
  have := h m
  omega

theorem Conserved.covered {c : Machine ι} (h : c.Conserved) : c.Covered := fun m => (h m).ge

/-- Right counts are 0 when no party is inside a call. -/
theorem Conserved.zero {c : Machine ι} (h : c.Conserved) (hidle : ∀ p, (c.party p).pos = .idle)
    (m : Mutex) : clients c.shared.shm m = 0 := by
  have hnone : c.registered m = 0 := by
    refine Nat.eq_zero_of_not_pos fun hpos => ?_
    obtain ⟨p, hp⟩ := registered_pos.1 hpos
    rw [hidle p] at hp
    cases m <;> simp [Position.registered, Position.idle] at hp
  rw [h m, hnone]
  rfl

variable [DecidableEq ι] {c : Machine ι} {p : ι} {e : Effect}

theorem registered_apply (m : Mutex) : registered (c.apply wake p e) m
    + ((c.party p).pos.registered m).toNat = c.registered m + (e.self.pos.registered m).toNat :=
  Monitor.count_apply (f := fun x : Party => x.pos.registered m) fun n x => by rw [wake_pos]

theorem Covered.step (h : c.Covered) (hs : c.Sound) (a : ι × Act) : (c.step a).Covered := by
  rcases hs.step_cases a with heq | ⟨e, he, -, heq⟩
  · rwa [heq]
  · rw [heq]
    intro m
    have hcount := registered_apply (c := c) (p := a.1) (e := e) m
    have hold := h m
    rw [Monitor.apply_shared]
    rcases he.counts with hleak | hstep
    · -- the step threw: the count stays, and nobody new is registered
      have hreg : (e.self.pos.registered m).toNat
          ≤ ((c.party a.1).pos.registered m).toNat := Bool.toNat_le_toNat (hleak.registered m)
      rw [hleak.counts]
      omega
    · have := hstep m
      omega

/-- A step that does not throw keeps every count right. -/
theorem Conserved.step (h : c.Conserved) (hs : c.Sound) {a : ι × Act} (ha : c.Calm a) :
    (c.step a).Conserved := by
  rcases hs.step_cases a with heq | ⟨e, he, -, heq⟩
  · rwa [heq]
  · rw [heq]
    intro m
    have hcount := registered_apply (c := c) (p := a.1) (e := e) m
    have hold := h m
    rw [Monitor.apply_shared]
    rcases he.counts with hleak | hstep
    · -- the step threw
      obtain ⟨p, act⟩ := a
      obtain rfl : act = .go := hleak.go
      cases hleak.throws.symm.trans ha
    · have := hstep m
      omega

/-- A step that throws leaves a count wrong for good. -/
theorem Conserved.calm (h : c.Conserved) (hs : c.Sound) {a : ι × Act}
    (h' : (c.step a).Conserved) : c.Calm a := by
  obtain ⟨p, act⟩ := a
  cases act with
  | call | timeout => trivial
  | go =>
    by_contra ht
    have ht' : (c.party p).throws c.shared = true := by
      simpa only [Calm, Bool.not_eq_false] using ht
    obtain ⟨e, he, htake, hleak⟩ := effect_of_throws (hs.ok p) ht'
    have heq : c.step (p, .go) = c.apply wake p e :=
      Monitor.step_eq wake he (by simp [Monitor.Effect.enabled, htake])
    -- the count stays, but there is one global client less
    have hcount := registered_apply (c := c) (p := p) (e := e) .global
    have hnew := h' .global
    rw [heq, Monitor.apply_shared, hleak.counts, h .global] at hnew
    rw [hleak.before, hleak.after] at hcount
    simp only [Bool.toNat_true, Bool.toNat_false] at hcount
    omega

/-- **Counts are conserved** along a run exactly when no stream action of the run throws. -/
theorem conserved_iff (size : ℕ) (as : List (ι × Act)) :
    Run.Always step Conserved (init size) as ↔ Run.Along step Calm (init size) as := by
  refine Run.always_iff_along (R := fun _ => True) step (fun c => c.Sound ∧ c.Conserved)
    (fun c h => h.2) ?_ ?_ ⟨sound_init size, conserved_init size⟩ (fun _ _ => trivial)
  · rintro c a - ⟨hs, h⟩ ha
    exact ⟨hs.step a, h.step hs ha⟩
  · rintro c a - ⟨hs, h⟩ h'
    exact h.calm hs h'

end Machine

/-! ### A run with an exception -/

/-- A call of party `p` with its first `n` steps. -/
def calls {ι : Type*} (p : ι) (c : Call) (n : ℕ) : List (ι × Act) :=
  (p, .call c) :: List.replicate n (p, .go)

/-- `n` further steps of party `p`. -/
def goes {ι : Type*} (p : ι) (n : ℕ) : List (ι × Act) := List.replicate n (p, .go)

/-- A message of 8 bytes. -/
def shortMessage : Message := (RawMessage.mk (Vec.replicate 7) [] (by decide)).toMessage

/-- The reader of a raw message. -/
def rawReader : StreamM Unit := do
  let _ ← RawMessage.empty.read true

/-- The reader of a type of 9 bytes. -/
def wideReader : StreamM Unit := do
  let p ← advance 9
  let _ ← memcpyFrom 9 p 9

/-- The first party publishes 8 bytes, the second reads them as 9. -/
def overrunRun : List (Client × Act) :=
  List.flatten
    [calls .first (.allocateBlock topicA 8 true) 4, calls .second (.findHandle topicA) 4,
      calls .second (.wait_data wideReader) 2, calls .first (.serialize shortMessage) 11,
      goes .second 7]

set_option maxRecDepth 4000 in
/-- After the exception both parties are outside all calls, and both counts say that a client is
left: they are not conserved. -/
theorem stuck_clients :
    (let c : Machine Client := Run.exec Machine.step (Machine.init 100) overrunRun
     (∀ p, (c.party p).pos = .idle ∧ (c.party p).prog.length = 0) ∧
       clients c.shared.shm .global = 1 ∧ clients c.shared.shm (.desc 0) = 1) ∧
    ¬ Run.Always Machine.step Machine.Conserved (Machine.init 100 : Machine Client) overrunRun := by
  have hend : let c : Machine Client := Run.exec Machine.step (Machine.init 100) overrunRun
      (∀ p, (c.party p).pos = .idle ∧ (c.party p).prog.length = 0) ∧
        clients c.shared.shm .global = 1 ∧ clients c.shared.shm (.desc 0) = 1 := by
    decide +kernel
  refine ⟨hend, fun h => ?_⟩
  have hzero := h.exec.zero (fun p => (hend.1 p).1) .global
  rw [hend.2.1] at hzero
  cases hzero

end Sync

end MessageTransport
