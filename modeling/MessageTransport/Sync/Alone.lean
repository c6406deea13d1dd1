import MessageTransport.Sync.Counts

/-!
# Calls that nobody disturbs

A party that is alone with the table runs its call to the end: no mutex is taken by another party,
and there is no client to wait for. What its program does then is what the whole operation does,
`Quiet.call`; so every run of whole operations is a run of the machine in which one call follows
the other, `sequential`.
-/

namespace MessageTransport

open MessageTransport.Stream

namespace Sync

/-- What a call does as a whole. A `wait_data` that nobody signals does nothing. -/
def Call.whole (s : Shm) (h : ShmHandle) : Call → Shm × ShmHandle
  | .findHandle name => (s, s.findHandle name)
  | .allocateBlock name size alloc =>
    let r := s.allocateBlock name size.toNat alloc
    (r.1, r.2.getD h)
  | .reallocateBlock size alloc => s.reallocateBlock h size.toNat alloc
  | .serialize msg =>
    match h.slot with
    | some i => (s.serialize i h msg.write).2
    | none => (s, h)
  | .wait_data _ => (s, h)
  | .resetBlock =>
    match h.slot with
    | some i => s.resetBlock i h
    | none => (s, h)
  | .resetAllBlocks => (s.resetAllBlocks, h)

/-- The write of the call, if it makes one, ends within the recorded size. -/
def Call.Fits (s : Shm) (h : ShmHandle) : Call → Prop
  | .serialize msg => ∀ i, h.slot = some i → fits s i h msg.write = true
  | _ => True

/-! ### The steps of one party -/

/-- By acts of its own, a party that is `x` with `s` shared gets to be `y` with `t` shared. -/
inductive Runs (y : Party) (t : Shared) : Party → Shared → Prop
  | refl : Runs y t y t
  | head {x : Party} {s : Shared} {a : Act} {e : Effect} (he : x.effect s a = some e)
    (h : Runs y t e.self e.shared) : Runs y t x s

section Runs

variable {x y z : Party} {s t u : Shared} {i : Instr} {k : List Instr}

theorem Runs.trans (h : Runs y t x s) (h' : Runs z u y t) : Runs z u x s := by
  induction h with
  | refl => exact h'
  | head he _ ih => exact .head he ih

/-- The next instruction. -/
theorem Runs.instr (hx : x.status = .ready) (hp : x.prog = i :: k)
    (h : Runs y t (i.effect x k s).self (i.effect x k s).shared) : Runs y t x s := by
  refine .head (a := .go) (e := i.effect x k s) ?_ h
  simp only [Party.effect, hx, hp]

/-- A check that finds nobody. -/
theorem Runs.pass {m : Mutex} (hx : x.status = .ready) (hp : x.prog = .check m :: k)
    (hz : clients s.shm m = 0) (h : Runs y t (x.goto k (x.pos.pass m)) s) : Runs y t x s := by
  refine .instr hx hp ?_
  simpa [Instr.effect, hz, Instr.post] using h

/-- A write that fits. -/
theorem Runs.write {j : Slot} {msg : Message} (hx : x.status = .ready)
    (hp : x.prog = .write j msg :: k) (hf : fits s.shm j x.handle msg.write = true)
    (h : Runs y t
      { x.goto k { x.pos with wrote := some j } with
        handle := (s.shm.serialize j x.handle msg.write).2.2 }
      (s.record (s.shm.serialize j x.handle msg.write).2.1 j
        (s.shm.serialize j x.handle msg.write).2.2.ptr)) : Runs y t x s := by
  refine .instr hx hp ?_
  simpa only [Instr.effect, hf, if_true, Instr.post] using h

/-- Work under the global mutex, with no global client. -/
theorem Runs.globally {b : Body} (hx : x.status = .ready) (hp : x.prog = globally b ++ k)
    (hg : x.pos.global = false ∧ x.pos.pastGlobal = false) (hz : clients s.shm .global = 0)
    (hr : Runs y t { x with prog := k, handle := (b.run s.shm x.handle).2 }
      { s with shm := (b.run s.shm x.handle).1 }) : Runs y t x s := by
  obtain ⟨prog, status, ⟨desc, pd, reg, global, pg, rg, due, wrote⟩, h, log⟩ := x
  obtain ⟨rfl, rfl⟩ := hg
  cases hx
  cases hp
  exact .instr rfl rfl (.pass rfl rfl hz (.instr rfl rfl (.instr rfl rfl hr)))

/-- `reallocateBlock` by a party that is alone. -/
theorem runs_reallocateBlock {h : ShmHandle} {log : List Reading} (j : Slot) (size : UInt32)
    (alloc : Bool) (hz : ∀ m, clients s.shm m = 0) :
    Runs ⟨[], .ready, .idle, (s.shm.reallocateSlot j h size.toNat alloc).2, log⟩
      { s with shm := (s.shm.reallocateSlot j h size.toNat alloc).1 }
      ⟨Sync.reallocateBlock j size alloc, .ready, .idle, h, log⟩ s := by
  refine .instr rfl rfl (.pass rfl rfl (hz _) ?_)
  -- the first test: the handle is refreshed if it is stale
  have hstale : Runs ⟨[.ifLarger j size alloc, .unlock (.desc j)], .ready,
      { desc := some j, pastDesc := true }, s.shm.refresh j h, log⟩ s
      ⟨[.ifStale j, .ifLarger j size alloc, .unlock (.desc j)], .ready,
        { desc := some j, pastDesc := true }, h, log⟩ s := by
    refine .instr rfl rfl ?_
    simp only [Instr.effect, Shm.refresh]
    split_ifs
    · exact .globally rfl rfl ⟨rfl, rfl⟩ (hz _) .refl
    · exact .refl
  refine hstale.trans (.instr rfl rfl ?_)
  -- the second test: the block grows if it is too small
  simp only [Instr.effect, Shm.reallocateSlot]
  split_ifs
  · exact .globally rfl rfl ⟨rfl, rfl⟩ (hz _) (.instr rfl rfl .refl)
  · exact .instr rfl rfl .refl

/-- The count of global clients does not matter to `serialize`. -/
theorem serialize_addClients (m : Shm) (j : Slot) (h : ShmHandle) (w : StreamM Unit) (d : ℤ) :
    (addClients m .global d).serialize j h w = ((m.serialize j h w).1,
      addClients (m.serialize j h w).2.1 .global d, (m.serialize j h w).2.2) := by
  cases hrun : w.run (open_ (m.segment.bytesAt (m.refresh j h).ptr) (m.descriptors j).size_) with
  | ok _ out | error e out =>
    have hrun' : w.run (open_ ((addClients m .global d).segment.bytesAt
        ((addClients m .global d).refresh j h).ptr)
        ((addClients m .global d).descriptors j).size_) = _ := hrun
    simp only [Shm.serialize, hrun, hrun']
    rfl

theorem addClients_cancel (m : Shm) : addClients (addClients m .global 1) .global (-1) = m := by
  simp [addClients]

/-- `serialize` by a party that is alone, when the message fits. -/
theorem runs_serialize {h : ShmHandle} {log : List Reading} (j : Slot) (msg : Message)
    (hz : ∀ m, clients s.shm m = 0) (hf : fits s.shm j h msg.write = true) :
    ∃ t : Shared, t.shm = (s.shm.serialize j h msg.write).2.1 ∧
      Runs ⟨[], .ready, .idle, (s.shm.serialize j h msg.write).2.2, log⟩ t
        ⟨Sync.serialize j msg, .ready, .idle, h, log⟩ s := by
  have heq := serialize_addClients s.shm j h msg.write 1
  let r := (addClients s.shm .global 1).serialize j h msg.write
  let u := ({ s with shm := addClients s.shm .global 1 } : Shared).record r.2.1 j r.2.2.ptr
  refine ⟨{ u with shm := addClients r.2.1 .global (-1) }, ?_, ?_⟩
  · simp only [r, heq, addClients_cancel]
  have hhandle : (s.shm.serialize j h msg.write).2.2 = r.2.2 := by simp only [r, heq]
  rw [hhandle]
  refine .instr rfl rfl (.pass rfl rfl (hz _) ?_)
  refine .instr rfl rfl (.instr rfl rfl (.instr rfl rfl ?_))
  refine .write rfl rfl hf ?_
  refine .instr rfl rfl (.instr rfl rfl (.instr rfl rfl ?_))
  exact .instr rfl rfl (.instr rfl rfl .refl)

/-- **A party that is alone does the whole of its call**, and is idle again. -/
theorem runs_prog {h : ShmHandle} (log : List Reading) (c : Call)
    (hz : ∀ m, clients s.shm m = 0) (hf : c.Fits s.shm h) :
    ∃ t : Shared, t.shm = (c.whole s.shm h).1 ∧
      Runs ⟨[], .ready, .idle, (c.whole s.shm h).2, log⟩ t ⟨c.prog h, .ready, .idle, h, log⟩ s := by
  cases c with
  | findHandle name => exact ⟨_, rfl, .globally rfl rfl ⟨rfl, rfl⟩ (hz _) .refl⟩
  | allocateBlock name size alloc => exact ⟨_, rfl, .globally rfl rfl ⟨rfl, rfl⟩ (hz _) .refl⟩
  | resetAllBlocks =>
    have hrun := Runs.globally (y := ⟨[], .ready, .idle, h, log⟩)
      (x := ⟨globally .resetAllBlocks, .ready, .idle, h, log⟩)
      (t := { s with shm := (Body.resetAllBlocks.run s.shm h).1 }) (b := .resetAllBlocks) (k := [])
      rfl rfl ⟨rfl, rfl⟩ (hz _) .refl
    simp only [Body.run] at hrun
    exact ⟨_, by simp only [Call.whole], hrun⟩
  | reallocateBlock size alloc =>
    cases hv : h.is_valid <;> cases hj : h.slot <;>
      simp only [Call.prog, Call.whole, Shm.reallocateBlock, hv, hj]
    case true.some j => exact ⟨_, rfl, runs_reallocateBlock j size alloc hz⟩
    all_goals exact ⟨s, rfl, .refl⟩
  | serialize msg =>
    cases hj : h.slot with
    | none =>
      simp only [Call.prog, Call.whole, hj]
      exact ⟨s, rfl, .refl⟩
    | some j =>
      simp only [Call.prog, Call.whole, hj]
      exact runs_serialize j msg hz (hf j hj)
  | wait_data r =>
    cases hj : h.slot with
    | none =>
      simp only [Call.prog, Call.whole, hj]
      exact ⟨s, rfl, .refl⟩
    | some j =>
      -- it waits, the time runs out, and it gives the mutex back
      simp only [Call.prog, Call.whole, hj]
      refine ⟨s, rfl, .instr rfl rfl (.instr rfl rfl ?_)⟩
      exact .head (a := .timeout) rfl (.head (a := .go) rfl (.instr rfl rfl .refl))
  | resetBlock =>
    cases hj : h.slot with
    | none =>
      simp only [Call.prog, Call.whole, hj]
      exact ⟨s, rfl, .refl⟩
    | some j =>
      simp only [Call.prog, Call.whole, hj]
      refine ⟨{ s with shm := (s.shm.resetBlock j h).1 }, rfl, ?_⟩
      refine .instr rfl rfl (.pass rfl rfl (hz _) ?_)
      exact .globally (b := .resetBlock j) rfl rfl ⟨rfl, rfl⟩ (hz _) (.instr rfl rfl .refl)

/-- The whole of a call leaves all counts alone. -/
theorem clients_whole (c : Call) (m : Shm) (h : ShmHandle) (n : Mutex) :
    clients (c.whole m h).1 n = clients m n := by
  cases c with
  | findHandle name => rfl
  | allocateBlock name size alloc => exact clients_allocateBlock ..
  | reallocateBlock size alloc =>
    simp only [Call.whole, Shm.reallocateBlock]
    split
    · simp only [Shm.reallocateSlot]
      split_ifs
      · exact clients_grow ..
      · exact clients_setDescriptor (g := m.segment) rfl
    · rfl
  | serialize msg =>
    simp only [Call.whole]
    split
    · exact clients_serialize ..
    · rfl
  | wait_data r => rfl
  | resetBlock =>
    simp only [Call.whole]
    split
    · rw [Shm.resetBlock]
      split_ifs
      · exact clients_resetSlot ..
      · rfl
    · rfl
  | resetAllBlocks =>
    simp only [Call.whole]
    exact clients_resetAllBlocks m

end Runs

/-! ### The machine -/

namespace Machine

variable {ι : Type*}

/-- Party `p` is `x`, `s` is shared, and no other party owns a mutex. The others are as in `d`. -/
structure Alone (d : Machine ι) (p : ι) (x : Party) (s : Shared) (c : Machine ι) : Prop where
  sound : c.Sound
  owner : ∀ m q, c.owner m = some q → q = p
  party : c.party p = x
  shared : c.shared = s
  rest : ∀ q, q ≠ p → c.party q = d.party q

/-- No party is in a call, and nobody is registered. -/
structure Quiet (c : Machine ι) : Prop where
  sound : c.Sound
  owner : ∀ m, c.owner m = none
  idle : ∀ p, (c.party p).status = .ready ∧ (c.party p).prog = []
  clients : ∀ m, clients c.shared.shm m = 0

theorem Quiet.pos {c : Machine ι} (h : c.Quiet) (p : ι) : (c.party p).pos = .idle := by
  have hk := (h.sound.ok p).ready (h.idle p).1
  rwa [(h.idle p).2] at hk

variable [DecidableEq ι] {c d : Machine ι} {p : ι} {x y : Party} {s t : Shared}

theorem Alone.act {a : Act} {e : Effect} (h : Alone d p x s c)
    (hd : ∀ q, (d.party q).status = .ready) (he : x.effect s a = some e) :
    Alone d p e.self e.shared (c.step (p, a)) := by
  have hstep : Step (c.party p) c.shared a e :=
    step_of_effect (h.sound.ok p) (by rwa [h.party, h.shared])
  have hen : e.enabled c = true := by
    cases ht : e.take with
    | none => simp [Monitor.Effect.enabled, ht]
    | some m =>
      have hfree : c.owner m = none := by
        by_contra hm
        obtain ⟨q, hq⟩ := Option.ne_none_iff_exists'.1 hm
        obtain rfl := h.owner m q hq
        cases (hstep.take ht).symm.trans ((h.sound.owned m q).1 hq)
      simp [Monitor.Effect.enabled, ht, hfree]
  have heq : c.step (p, a) = c.apply wake p e :=
    Monitor.step_eq wake (by rwa [h.party, h.shared]) hen
  have hrest : ∀ q, q ≠ p → (c.apply wake p e).party q = d.party q := by
    intro q hq
    rcases apply_party_cases (c := c) (e := e) hq with ⟨-, hsame⟩ | ⟨n, -, hwoken⟩
    · rw [hsame, h.rest q hq]
    · rw [hwoken, h.rest q hq, wake, if_neg]
      rw [hd q]
      exact Status.noConfusion
  refine ⟨h.sound.step _, fun m q hq => ?_, ?_, ?_, ?_⟩
  · by_contra hne
    rw [(h.sound.step (p, a)).owned m q, heq, hrest q hne, ← h.rest q hne] at hq
    exact hne (h.owner m q ((h.sound.owned m q).2 hq))
  · rw [heq, Monitor.apply_party_self]
  · rw [heq, Monitor.apply_shared]
  · rwa [heq]

theorem Alone.runs (hr : Runs y t x s) (hd : ∀ q, (d.party q).status = .ready)
    (h : Alone d p x s c) :
    ∃ as : List Act, Alone d p y t (Run.exec step c (as.map (Prod.mk p))) := by
  induction hr generalizing c with
  | refl => exact ⟨[], h⟩
  | head he _ ih =>
    obtain ⟨as, has⟩ := ih (h.act hd he)
    exact ⟨_ :: as, has⟩

/-- **A call that nobody disturbs does what the whole operation does.** -/
theorem Quiet.call (h : c.Quiet) (p : ι) (call : Call)
    (hf : call.Fits c.shared.shm (c.party p).handle) : ∃ as : List Act,
      let c' := Run.exec step c (as.map (Prod.mk p))
      c'.Quiet ∧ c'.shared.shm = (call.whole c.shared.shm (c.party p).handle).1 ∧
        (c'.party p).handle = (call.whole c.shared.shm (c.party p).handle).2 ∧
        ∀ q, q ≠ p → c'.party q = c.party q := by
  obtain ⟨hready, hprog⟩ := h.idle p
  have hpos := h.pos p
  obtain ⟨t, ht, hruns⟩ := runs_prog (c.party p).log call h.clients hf
  have hstart : Runs ⟨[], .ready, .idle, (call.whole c.shared.shm (c.party p).handle).2,
      (c.party p).log⟩ t (c.party p) c.shared := by
    have hself : ({ c.party p with prog := call.prog (c.party p).handle } : Party)
        = ⟨call.prog (c.party p).handle, .ready, .idle, (c.party p).handle, (c.party p).log⟩ := by
      rw [← hready, ← hpos]
    rw [← hself] at hruns
    have hcall : (c.party p).effect c.shared (.call call) = some
        { shared := c.shared
          self := { c.party p with prog := call.prog (c.party p).handle } } := by
      simp only [Party.effect, hready, hprog]
    exact .head hcall hruns
  have halone : Alone c p (c.party p) c.shared c := by
    refine ⟨h.sound, fun m q hq => ?_, rfl, rfl, fun _ _ => rfl⟩
    rw [h.owner m] at hq
    cases hq
  obtain ⟨as, has⟩ := halone.runs hstart fun q => (h.idle q).1
  refine ⟨as, ⟨has.sound, fun m => ?_, fun q => ?_, fun m => ?_⟩, ?_, ?_, has.rest⟩
  · by_contra hm
    obtain ⟨q, hq⟩ := Option.ne_none_iff_exists'.1 hm
    obtain rfl := has.owner m q hq
    have hheld := (has.sound.owned m q).1 hq
    rw [has.party] at hheld
    cases m <;> cases hheld
  · by_cases hq : q = p
    · rw [hq, has.party]
      exact ⟨rfl, rfl⟩
    · rw [has.rest q hq]
      exact h.idle q
  · rw [has.shared, ht, clients_whole, h.clients m]
  · rw [has.shared, ht]
  · rw [has.party]

omit [DecidableEq ι] in
theorem quiet_init (size : ℕ) : (init size : Machine ι).Quiet where
  sound := sound_init size
  owner m := rfl
  idle p := ⟨rfl, rfl⟩
  clients m := by cases m <;> rfl

/-! ### Runs of whole operations -/

/-- Nobody is in a call, and the table and all handles are those of the world. -/
structure Shows (c : Machine ι) (w : World ι) : Prop where
  quiet : c.Quiet
  shm : c.shared.shm = w.shm
  handle : ∀ k, (c.party k).handle = w.handle k

/-- A call of client `k`, when the world changes as it says. -/
theorem Shows.call {w : World ι} (h : c.Shows w) (w' : World ι) (k : ι) (call : Call)
    (hf : call.Fits w.shm (w.handle k)) (hshm : w'.shm = (call.whole w.shm (w.handle k)).1)
    (hk : w'.handle k = (call.whole w.shm (w.handle k)).2)
    (hother : ∀ k', k' ≠ k → w'.handle k' = w.handle k') :
    ∃ as : List (ι × Act), (Run.exec step c as).Shows w' := by
  rw [← h.shm, ← h.handle k] at hf hshm hk
  obtain ⟨as, hq, hs, hh, hrest⟩ := h.quiet.call k call hf
  refine ⟨as.map (Prod.mk k), hq, hs.trans hshm.symm, fun k' => ?_⟩
  by_cases hkk : k' = k
  · rw [hkk, hh, hk]
  · rw [hrest k' hkk, h.handle k', hother k' hkk]

/-- The write of the operation, if it makes one, ends within the recorded size. A read needs a
signal, so it is no operation of a party that is alone. -/
def Performable {ι : Type*} (w : World ι) : Op ι → Prop
  | .publish_msg k msg alloc =>
    let r := w.shm.reallocateBlock (w.handle k) msg.serlen.toNat alloc
    r.2.is_valid = true → (Call.serialize msg).Fits r.1 r.2
  | .read _ => False
  | _ => True

omit [DecidableEq ι] in
/-- `publish_msg` is `reallocateBlock` and then, through a handle that is still valid, `serialize`. -/
theorem publish_msg_whole (m : Shm) (h : ShmHandle) (msg : Message) (alloc : Bool) :
    (m.publish_msg h msg alloc).2 =
      let r := m.reallocateBlock h msg.serlen.toNat alloc
      if r.2.is_valid then (Call.serialize msg).whole r.1 r.2 else r := by
  cases hv : h.is_valid with
  | false => simp [Shm.publish_msg, hv, Shm.reallocateBlock_invalid hv]
  | true =>
    simp only [Shm.publish_msg, hv, Call.whole]
    generalize m.reallocateBlock h msg.serlen.toNat alloc = r
    cases hr : r.2.is_valid <;> cases hs : r.2.slot <;> simp

/-- The machine follows an operation: its calls, one after the other, each by a party that is
alone. -/
theorem Shows.step [Nonempty ι] {w : World ι} (h : c.Shows w) {op : Op ι}
    (hf : Performable w op) :
    ∃ as : List (ι × Act), (Run.exec Machine.step c as).Shows (w.step op) := by
  cases op with
  | findHandle k name =>
    exact h.call _ k (.findHandle name) trivial rfl (World.connect_handle_self ..)
      fun k' hk => (World.connect_ne w _ _ hk).1
  | allocateBlock k name size alloc =>
    refine h.call _ k (.allocateBlock name size alloc) trivial (World.step_allocateBlock_shm ..) ?_ ?_
    · simp only [World.step, Call.whole]
      split
      · rename_i heq
        rw [heq, World.connect_handle_self]
        rfl
      · rename_i heq
        rw [heq]
        rfl
    · intro k' hk
      simp only [World.step]
      split
      · exact (World.connect_ne w _ _ hk).1
      · rfl
  | reallocateBlock k size alloc =>
    exact h.call _ k (.reallocateBlock size alloc) trivial rfl (World.setHandle_self ..)
      fun k' hk => World.setHandle_ne w _ hk
  | publish_msg k msg alloc =>
    have hne : ∀ r k', k' ≠ k → (w.setHandle k r).handle k' = w.handle k' :=
      fun r k' hk => World.setHandle_ne w r hk
    -- first `reallocateBlock`, then `serialize` if the handle is still valid
    let r := w.shm.reallocateBlock (w.handle k) msg.serlen.toNat alloc
    obtain ⟨as, has⟩ := h.call (w.setHandle k r) k (.reallocateBlock msg.serlen alloc) trivial rfl
      (World.setHandle_self ..) (hne r)
    have hpub : w.step (.publish_msg k msg alloc) = w.setHandle k
        (if r.2.is_valid then (Call.serialize msg).whole r.1 r.2 else r) := by
      rw [World.step, publish_msg_whole]
    rw [hpub]
    split_ifs with hv
    · have hk : (w.setHandle k r).handle k = r.2 := World.setHandle_self ..
      obtain ⟨bs, hbs⟩ := has.call (w.setHandle k ((Call.serialize msg).whole r.1 r.2)) k
        (.serialize msg) (by rw [hk]; exact hf hv) (by rw [hk]; rfl)
        (by rw [hk]; exact World.setHandle_self ..) fun k' hk' => by rw [hne _ k' hk', hne _ k' hk']
      refine ⟨as ++ bs, ?_⟩
      rwa [Run.exec_append]
    · exact ⟨as, has⟩
  | read k => exact hf.elim
  | resetBlock k =>
    simp only [World.step]
    cases hi : (w.handle k).slot with
    | none => exact ⟨[], h⟩
    | some i =>
      have hwhole : Call.resetBlock.whole w.shm (w.handle k) = w.shm.resetBlock i (w.handle k) := by
        simp only [Call.whole, hi]
      exact h.call _ k .resetBlock trivial (by rw [hwhole]; rfl)
        (by rw [hwhole]; exact World.setHandle_self ..) fun k' hk => World.setHandle_ne w _ hk
  | resetAllBlocks =>
    obtain ⟨k⟩ := ‹Nonempty ι›
    exact h.call _ k .resetAllBlocks trivial rfl rfl fun _ _ => rfl

/-- **Every run of whole operations is a run of the machine**, in which one call follows the
other. -/
theorem sequential [Nonempty ι] (size : ℕ) (ops : List (Op ι))
    (h : Run.Along World.step Performable (World.init size) ops) :
    ∃ as : List (ι × Act), (Run.exec Machine.step (Machine.init size) as).Shows
      (Run.exec World.step (World.init size) ops) :=
  Run.simulation step Shows (fun _ _ _ h hf => h.step hf) ⟨quiet_init size, rfl, fun _ => rfl⟩ h

end Machine

end Sync

end MessageTransport
