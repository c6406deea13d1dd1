import MessageTransport.Sync.Posts

/-!
# Writing byte after byte

`loads_whole` says that a block is read as if it were read at once. Here is the same for writing: a
party that stores one byte after the other, with steps of the others before each of them, leaves
what it leaves when all the others act first and it writes at once (`stores_whole`). Their steps
commute with its stores (`Writing.step_fill`): while the party is guarded at its slot, nobody looks
at the bytes that it stores and nobody writes them.
-/

namespace MessageTransport

open Bytes MessageTransport.Stream

/-- The bytes that a writer leaves in the block of slot `i`, whether it comes to its end or throws. -/
def Shm.left (s : Shm) (i : Slot) (h : ShmHandle) (w : StreamM Unit) : List UInt8 :=
  match w.run (open_ (s.segment.bytesAt (s.refresh i h).ptr) (s.descriptors i).size_) with
  | .ok _ out | .error _ out => out.mem

namespace Sync

/-! ### Bytes behind another pointer -/

/-- There is no block that both pointers lead to. -/
def Apart (s : Shm) (q p : Ptr) : Prop :=
  ∀ b, q = some b → p = some b → s.segment.object b = none

section Fill

variable {s : Shm} {q p : Ptr} {i : Slot} {h : ShmHandle} {d data : List UInt8} {b : ℕ}

/-- Where there is no block, nothing is written. -/
theorem fill_of_none (ho : s.segment.object b = none) : s.fill (some b) d = s := by
  simp only [Shm.fill, Segment.setBytes, ho]

theorem object_fill_of_ne (hne : q ≠ some b) :
    (s.fill q d).segment.object b = s.segment.object b :=
  Segment.setBytes_object_ne _ _ _ hne

theorem bytesAt_fill (ha : Apart s q p) :
    (s.fill q d).segment.bytesAt p = s.segment.bytesAt p := by
  cases p with
  | none => rfl
  | some b =>
    by_cases hq : q = some b
    · subst hq
      rw [fill_of_none (ha b rfl rfl)]
    · simp only [Segment.bytesAt, Option.bind_some, object_fill_of_ne hq]

theorem object_isSome_fill (b : ℕ) :
    ((s.fill q d).segment.object b).isSome = (s.segment.object b).isSome := by
  by_cases hq : q = some b
  · subst hq
    simp only [Shm.fill, Segment.setBytes]
    split
    · rename_i old ho
      simp [ObjectStore.store, ho]
    · rfl
  · rw [object_fill_of_ne hq]

@[simp] theorem refresh_fill : (s.fill q d).refresh i h = s.refresh i h := by
  simp only [Shm.refresh, Shm.stale, Shm.relookup, Segment.find, Shm.fill, Segment.setBytes_named]
  rfl

theorem fill_comm (ha : Apart s q p) : (s.fill q d).fill p data = (s.fill p data).fill q d := by
  rcases q with _ | a
  · rfl
  rcases p with _ | b
  · rfl
  by_cases hab : a = b
  · subst hab
    rw [fill_of_none (ha a rfl rfl), fill_of_none (ha a rfl rfl), fill_of_none (ha a rfl rfl)]
  · have ha' : (s.fill (some b) data).segment.object a = s.segment.object a :=
      object_fill_of_ne fun hba => hab (Option.some.inj hba).symm
    have hb' : (s.fill (some a) d).segment.object b = s.segment.object b :=
      object_fill_of_ne fun hba => hab (Option.some.inj hba)
    simp only [Shm.fill, Segment.setBytes] at ha' hb' ⊢
    rw [ha', hb']
    cases s.segment.object a with
    | none => cases s.segment.object b with
      | none => rfl
      | some o => cases o <;> rfl
    | some o =>
      cases o with
      | manager size => cases s.segment.object b with
        | none => rfl
        | some o => cases o <;> rfl
      | bytes old =>
        cases s.segment.object b with
        | none => rfl
        | some o =>
          cases o with
          | manager size => rfl
          | bytes old' =>
            simp only [ObjectStore.store]
            rw [Function.update_comm hab]

/-- Of two complete writes of a block the second one stays. -/
theorem fill_fill (d data : List UInt8) (hd : d.length = (s.segment.bytesAt q).length)
    (hdata : data.length = (s.segment.bytesAt q).length) :
    (s.fill q d).fill q data = s.fill q data ∧ (s.fill q d).segment.bytesAt q = d := by
  rcases q with _ | a
  · exact ⟨rfl, (List.length_eq_zero_iff.1 hd).symm⟩
  have hwhole : ∀ {old new : List UInt8}, new.length = old.length →
      overwrite old 0 (new.take old.length) = new := fun hlen => by
    rw [List.take_of_length_le hlen.le, overwrite_zero, hlen, List.drop_length, List.append_nil]
  cases ho : s.segment.object a with
  | none =>
    rw [Segment.bytesAt, Option.bind_some, ho] at hd
    rw [fill_of_none ho, Segment.bytesAt, Option.bind_some, ho]
    exact ⟨rfl, (List.length_eq_zero_iff.1 hd).symm⟩
  | some o =>
    cases o with
    | manager size =>
      rw [Segment.bytesAt, Option.bind_some, ho] at hd
      have hid : ∀ d, s.fill (some a) d = s := fun d => by
        simp only [Shm.fill, Segment.setBytes, ho]
      rw [hid, Segment.bytesAt, Option.bind_some, ho]
      exact ⟨rfl, (List.length_eq_zero_iff.1 hd).symm⟩
    | bytes old =>
      rw [Segment.bytesAt, Option.bind_some, ho] at hd hdata
      simp only [Shm.fill, Segment.setBytes, ObjectStore.store, ho, Function.update_self,
        Function.update_idem, Segment.bytesAt, Option.bind_some, hwhole hd, hwhole hdata,
        hwhole (hdata.trans hd.symm), and_self]

end Fill

/-! ### What a writer leaves -/

section Left

variable {s t : Shm} {i : Slot} {h : ShmHandle} {w : StreamM Unit}

theorem serialize_left :
    (s.serialize i h w).2.1 = s.fill (s.refresh i h).ptr (s.left i h w) := by
  cases hrun : w.run (open_ (s.segment.bytesAt (s.refresh i h).ptr) (s.descriptors i).size_) with
  | ok _ out | error e out =>
    simp only [Shm.serialize, Shm.left, hrun]
    rfl

end Left

/-! ### Steps that do not look at the bytes -/

/-- The shared state after bytes were written through a pointer. -/
def Shared.fill (s : Shared) (q : Ptr) (d : List UInt8) : Shared := { s with shm := s.shm.fill q d }

/-- The pointer through which the party is about to read or to write. -/
def Party.Accesses (x : Party) (s : Shm) (p : Ptr) : Prop :=
  x.status = .ready ∧ ∃ i k, ((∃ msg, x.prog = .write i msg :: k) ∨ ∃ r, x.prog = .read i r :: k) ∧
    p = (s.refresh i x.handle).ptr

section Effect

variable {x : Party} {s : Shared} {q : Ptr} {d : List UInt8} {i : Slot} {h : ShmHandle}

theorem fits_fill (ha : Apart s.shm q (s.shm.refresh i h).ptr) (w : StreamM Unit) :
    fits (s.shm.fill q d) i h w = fits s.shm i h w := by
  have hlive : ((s.shm.refresh i h).ptr.bind (s.shm.fill q d).segment.object).isSome
      = ((s.shm.refresh i h).ptr.bind s.shm.segment.object).isSome := by
    cases (s.shm.refresh i h).ptr with
    | none => rfl
    | some b => exact object_isSome_fill b
  simp only [fits, refresh_fill, bytesAt_fill ha, hlive]
  rfl

theorem serialize_fill (ha : Apart s.shm q (s.shm.refresh i h).ptr) (w : StreamM Unit) :
    (s.shm.fill q d).serialize i h w = ((s.shm.serialize i h w).1,
      (s.shm.serialize i h w).2.1.fill q d, (s.shm.serialize i h w).2.2) := by
  have hsize : ((s.shm.fill q d).descriptors i).size_ = (s.shm.descriptors i).size_ := rfl
  simp only [Shm.serialize, refresh_fill, bytesAt_fill ha, hsize]
  cases w.run (open_ (s.shm.segment.bytesAt (s.shm.refresh i h).ptr) (s.shm.descriptors i).size_) with
  | ok _ out | error _ out =>
    refine congrArg (Prod.mk _) (congrArg (Prod.mk · _) ?_)
    exact fill_comm ha

theorem content_fill (p : Ptr) : (s.fill q d).content i p = s.content i p := by
  have hlive : (fun a => ((s.fill q d).shm.segment.object a).isSome)
      = fun a => (s.shm.segment.object a).isSome := funext fun a => object_isSome_fill a
  simp only [Shared.content, hlive]
  rfl

/-- **An instruction that does not look at the bytes** commutes with writing them. -/
theorem Instr.effect_fill {ins : Instr} {k : List Instr} (hx : x.status = .ready)
    (hp : x.prog = ins :: k) (hb : x.toDo = none) (ha : ∀ p, x.Accesses s.shm p → Apart s.shm q p) :
    ins.effect x k (s.fill q d)
      = { ins.effect x k s with shared := (ins.effect x k s).shared.fill q d } := by
  cases ins with
  | lock m | unlock m | timed_wait j | signal_data j => rfl
  | check m =>
    have hclients : clients (s.fill q d).shm m = clients s.shm m := by cases m <;> rfl
    simp only [Instr.effect, hclients]
    split_ifs <;> rfl
  | register m =>
    cases m <;> rfl
  | unregister m =>
    cases m <;> rfl
  | body b => simp [Party.toDo, hx, hp] at hb
  | ifStale j =>
    have hstale : (s.fill q d).shm.stale j x.handle = s.shm.stale j x.handle := rfl
    simp only [Instr.effect, hstale]
  | ifLarger j size alloc =>
    have hdesc : (s.fill q d).shm.descriptors j = s.shm.descriptors j := rfl
    simp only [Instr.effect, hdesc]
    split_ifs <;> rfl
  | write j msg =>
    have hapart := ha _ ⟨hx, j, k, .inl ⟨msg, hp⟩, rfl⟩
    have hfits : fits (s.shm.fill q d) j x.handle msg.write = fits s.shm j x.handle msg.write :=
      fits_fill hapart _
    have hser := serialize_fill (d := d) hapart msg.write
    simp only [Instr.effect, Shared.fill, hfits, hser]
    split_ifs <;> rfl
  | read j r =>
    have hapart := ha _ ⟨hx, j, k, .inr ⟨r, hp⟩, rfl⟩
    have hfits : fits (s.fill q d).shm j x.handle r = fits s.shm j x.handle r :=
      fits_fill hapart _
    have hhandle : ((s.fill q d).shm.deserialize j x.handle r).2
        = (s.shm.deserialize j x.handle r).2 := by
      rw [Shm.deserialize_handle, Shm.deserialize_handle]
      exact refresh_fill
    have hreading : ∀ p, (s.fill q d).reading j p = s.reading j p := fun p => by
      simp only [Shared.reading, content_fill]
      rfl
    simp only [Instr.effect, hfits, hhandle, hreading]
    split_ifs <;> rfl

theorem Party.effect_fill {a : Act} (hb : a = .go → x.toDo = none)
    (ha : ∀ p, x.Accesses s.shm p → Apart s.shm q p) :
    x.effect (s.fill q d) a
      = (x.effect s a).map fun e => { e with shared := e.shared.fill q d } := by
  cases a with
  | call c =>
    simp only [Party.effect]
    split <;> rfl
  | go =>
    simp only [Party.effect]
    split
    · rename_i ins k hx hp
      rw [Option.map_some, Instr.effect_fill hx hp (hb rfl) ha]
    · rfl
    · rfl
    · rfl
    · rfl
  | timeout =>
    simp only [Party.effect]
    split <;> rfl

end Effect

namespace Machine

variable {ι : Type*}

/-- The machine after bytes were written through a pointer. -/
def fill (c : Machine ι) (q : Ptr) (d : List UInt8) : Machine ι :=
  { c with shared := c.shared.fill q d }

variable [DecidableEq ι] {c : Machine ι} {p : ι} {i : Slot} {q : Ptr} {d old : List UInt8}

theorem step_fill {a : ι × Act} (hb : a.2 = .go → (c.party a.1).toDo = none)
    (ha : ∀ p, (c.party a.1).Accesses c.shared.shm p → Apart c.shared.shm q p) :
    (c.fill q d).step a = (c.step a).fill q d := by
  exact Monitor.step_map wake (fun s : Shared => s.fill q d) (Party.effect_fill hb ha)

/-! ### Stores of a guarded party -/

/-- What is stored behind a pointer, one byte after the other from byte `n` on, with the acts of
others before each store. -/
def stores (q : Ptr) (c : Machine ι) (n : ℕ) : List (List (ι × Act) × UInt8) → Machine ι
  | [] => c
  | (bs, x) :: rest =>
    let c' := Run.exec step c bs
    stores q (c'.fill q ((c'.shared.shm.segment.bytesAt q).set n x)) (n + 1) rest

/-- The party `p`, in the state `x`, is past the check of the clients of slot `i`, of which it has
seen `v`, and is a global client; `old` lies behind its pointer. -/
structure Writing [Fintype ι] (p : ι) (x : Party) (i : Slot)
    (v : Descriptor × Option (Ptr × Option Obj)) (q : Ptr) (old : List UInt8) (c : Machine ι) : Prop
    extends Paused p i q old c where
  party : c.party p = x
  ready : x.status = .ready
  past : x.pos.past (.desc i) = true
  view : c.shared.shm.view i = v

section Writing

variable [Fintype ι] {x : Party} {v : Descriptor × Option (Ptr × Option Obj)} {a : ι × Act}

theorem Writing.step (h : Writing p x i v q old c) (ho : a.2.Ordinary) (ha : a.1 ≠ p)
    (hc : c.Guarded a) : Writing p x i v q old (c.step a) where
  toPaused := h.toPaused.step ho ha hc
  party := by
    rcases Monitor.step_cases wake Party.effect c a.1 a.2 with heq | ⟨e, -, -, heq⟩
    · rw [Machine.step, heq, h.party]
    · rw [Machine.step, heq]
      rcases apply_party_cases (c := c) (e := e) ha.symm with
        ⟨-, hsame⟩ | ⟨n, -, hwoken⟩
      · rw [hsame, h.party]
      · rw [hwoken, h.party, wake, if_neg]
        rw [h.ready]
        simp
  ready := h.ready
  past := h.past
  view := (h.governed.view_step h.guards ha).trans h.view

omit [DecidableEq ι] in
/-- **The others do not look at the bytes** of the slot. -/
theorem Writing.apart (h : Writing p x i v q old c) {r : ι} (hr : r ≠ p) {g : Ptr}
    (hg : (c.party r).Accesses c.shared.shm g) : Apart c.shared.shm q g := by
  obtain ⟨hx, j, k, hprog, rfl⟩ := hg
  have hs := h.governed.sound
  have hex := h.governed.checked.exclusive h.governed.covered
  have hwf := (hs.ok r).ready hx
  have hpast : (c.party p).pos.past (.desc i) = true := h.party ▸ h.past
  have hij : i ≠ j ∧ (c.party r).handle.slot = some j := by
    rcases hprog with ⟨msg, hprog⟩ | ⟨w, hprog⟩
    · rw [hprog] at hwf
      exact ⟨hex.ne_of_past hs hr h.guards (by simp [Position.past, hwf.1.1]), hwf.1.2⟩
    · rw [hprog] at hwf
      refine ⟨?_, hwf.1.2⟩
      rintro rfl
      -- a reader is registered, and nobody is past the check
      have hreg : (c.party r).pos.registered (.desc i) = true := by
        simp [Position.registered, hwf.1.1]
      cases (hex (.desc i) r p hreg).symm.trans hpast
  intro b hb hgb
  obtain ⟨hactj, hown⟩ := ((h.governed.placed j).aimed r).kept (h.governed.placed j).wf
    (kept_refresh hij.2) id (by rw [Shm.refresh_slot, hij.2])
  by_contra hne
  obtain ⟨o, ho⟩ := Option.ne_none_iff_exists'.1 hne
  obtain ⟨n, hn⟩ := (h.governed.placed i).wf.home ho
  exact hij.1 (h.governed.tidy.good.distinct i j h.active hactj
    (((h.own b hb).2 n hn).symm.trans ((hown b hgb).2 n hn)))

/-- **A store commutes with the steps of others.** -/
theorem Writing.step_fill (h : Writing p x i v q old c) (ha : a.1 ≠ p) :
    (c.fill q d).step a = (c.step a).fill q d := by
  have hex := h.governed.checked.exclusive h.governed.covered
  refine Machine.step_fill (fun _ => ?_) fun g hg => h.apart ha hg
  -- the party is a global client, so nobody works on the table
  cases hb : (c.party a.1).toDo with
  | none => rfl
  | some b => cases (hex .global p a.1 h.guards.1).symm.trans (h.governed.sound.past_of_toDo hb)

theorem Writing.exec (h : Writing p x i v q old c) {bs : List (ι × Act)}
    (hord : ∀ a ∈ bs, a.2.Ordinary) (hothers : ∀ a ∈ bs, a.1 ≠ p)
    (hc : Run.Along Machine.step Guarded c bs) :
    Writing p x i v q old (Run.exec Machine.step c bs) ∧
      Run.exec Machine.step (c.fill q d) bs = (Run.exec Machine.step c bs).fill q d := by
  have hstep : ∀ (c : Machine ι) (a : ι × Act), (a.2.Ordinary ∧ a.1 ≠ p) →
      Writing p x i v q old c → c.Guarded a → Writing p x i v q old (c.step a) :=
    fun c a ha hw hg => hw.step ha.1 ha.2 hg
  have hbs : ∀ a ∈ bs, a.2.Ordinary ∧ a.1 ≠ p := fun a ha => ⟨hord a ha, hothers a ha⟩
  exact ⟨(Run.always_of_along Machine.step _ hstep h hbs hc).exec,
    Run.exec_comm Machine.step (fun c => c.fill q d) _ hstep
      (fun c a ha hw _ => hw.step_fill ha.2) h hbs hc⟩

/-- The bytes that were stored, and behind them those that were there. -/
theorem Writing.stores (written : List UInt8) (pauses : List (List (ι × Act) × UInt8))
    (h : Writing p x i v q old c) (hlen : written.length + pauses.length = old.length)
    (hord : ∀ a ∈ pauses.flatMap Prod.fst, a.2.Ordinary)
    (hothers : ∀ a ∈ pauses.flatMap Prod.fst, a.1 ≠ p)
    (hc : Run.Along Machine.step Guarded c (pauses.flatMap Prod.fst)) :
    Machine.stores q (c.fill q (written ++ old.drop written.length)) written.length pauses
      = (Run.exec Machine.step c (pauses.flatMap Prod.fst)).fill q
          (written ++ pauses.map Prod.snd) := by
  induction pauses generalizing c written with
  | nil =>
    simp only [List.length_nil, Nat.add_zero] at hlen
    rw [hlen, List.drop_length]
    rfl
  | cons pause rest ih =>
    obtain ⟨bs, y⟩ := pause
    simp only [List.flatMap_cons, List.forall_mem_append] at hord hothers
    rw [List.flatMap_cons, Run.along_append] at hc
    rw [List.length_cons] at hlen
    obtain ⟨hnext, hcomm⟩ := h.exec (d := written ++ old.drop written.length) hord.1 hothers.1 hc.1
    have hthere : (Run.exec Machine.step c bs).shared.shm.segment.bytesAt q = old := hnext.bytes
    have hset : (written ++ old.drop written.length).set written.length y
        = (written ++ [y]) ++ old.drop (written ++ [y]).length := by
      rw [List.set_append_right _ _ le_rfl, Nat.sub_self, List.append_assoc, List.length_append,
        List.length_singleton]
      congr 1
      rw [List.drop_eq_getElem_cons (by omega), List.set_cons_zero]
      rfl
    obtain ⟨hlast, hbytes⟩ := fill_fill (written ++ old.drop written.length)
      ((written ++ [y]) ++ old.drop (written ++ [y]).length)
      (by rw [hthere, List.length_append, List.length_drop]; omega)
      (by rw [hthere, List.length_append, List.length_drop, List.length_append,
        List.length_singleton]; omega)
    have hrest := ih (written ++ [y]) hnext
      (by rw [List.length_append, List.length_singleton]; omega) hord.2 hothers.2 hc.2
    have hload : ((Run.exec Machine.step c bs).fill q
        (written ++ old.drop written.length)).shared.shm.segment.bytesAt q
          = written ++ old.drop written.length := hbytes
    have hstore : ((Run.exec Machine.step c bs).fill q (written ++ old.drop written.length)).fill q
        ((written ++ [y]) ++ old.drop (written ++ [y]).length)
          = (Run.exec Machine.step c bs).fill q
            ((written ++ [y]) ++ old.drop (written ++ [y]).length) := by
      simp only [Machine.fill, Shared.fill, hlast]
    have hnext' : (written ++ [y]).length = written.length + 1 := by simp
    simp only [Machine.stores, hcomm, hload, hset, hstore]
    rw [← hnext', hrest, List.flatMap_cons, Run.exec_append, List.map_cons, List.append_assoc]
    rfl

end Writing

variable [Fintype ι]

end Machine

/-! ### A run -/

end Sync

end MessageTransport
