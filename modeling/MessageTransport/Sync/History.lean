import MessageTransport.Sync.Linear

/-!
# The sizes that were asked for

What a descriptor records of its block is a summary of the sizes that publishers asked for: `size_`
is the last one, `allocated_` the largest one, and `resize_count_` tells how many of them were larger
than all before. Under every interleaving without resets in which every replaced block is larger,
the sizes are those of the calls of `allocateBlock` and `reallocateBlock` in the order in which they
take effect: `recorded_sizes`.
-/

namespace MessageTransport

/-- How many numbers of the list are larger than `m` and than all before. -/
def records (m : ℕ) : List ℕ → ℕ
  | [] => 0
  | n :: l => if m < n then records n l + 1 else records m l

theorem records_append (m n : ℕ) (l : List ℕ) :
    records m (l ++ [n]) = records m l + if l.foldl max m < n then 1 else 0 := by
  induction l generalizing m with
  | nil => by_cases hn : m < n <;> simp [records, hn]
  | cons a l ih =>
    rw [List.cons_append, records, records, List.foldl_cons]
    by_cases ha : m < a
    · rw [if_pos ha, if_pos ha, ih, max_eq_right ha.le]
      omega
    · rw [if_neg ha, if_neg ha, ih, max_eq_left (not_lt.1 ha)]

/-- The descriptor records what was asked for. -/
structure Descriptor.Records (d : Descriptor) (sizes : List ℕ) : Prop where
  size : d.size_ = sizes.getLastD 0
  allocated : d.allocated_ = sizes.foldl max 0
  count : d.resize_count_ = records 0 sizes

namespace Descriptor

variable {d d' : Descriptor} {sizes : List ℕ} {n : ℕ}

theorem Records.congr (h : d.Records sizes) (hd : d'.seen = d.seen) : d'.Records sizes where
  size := (congrArg Descriptor.size_ hd).trans h.size
  allocated := (congrArg Descriptor.allocated_ hd).trans h.allocated
  count := (congrArg Descriptor.resize_count_ hd).trans h.count

theorem Records.fits (h : d.Records sizes) (hn : n ≤ d.allocated_) :
    ({ d with size_ := n } : Descriptor).Records (sizes ++ [n]) where
  size := by rw [List.getLastD_concat]
  allocated := by
    rw [List.foldl_append, ← h.allocated]
    exact (max_eq_left hn).symm
  count := by
    rw [records_append, ← h.allocated, if_neg (not_lt.2 hn)]
    exact h.count

theorem Records.larger (h : d.Records sizes) (hn : d.allocated_ < n)
    (hc : d.resize_count_ + 1 < 2 ^ 32) : (d.recordSize n n).Records (sizes ++ [n]) where
  size := by
    rw [List.getLastD_concat]
    rfl
  allocated := by
    rw [Shm.allocated_recordSize hn.le, List.foldl_append, ← h.allocated]
    exact (max_eq_right hn.le).symm
  count := by
    rw [Shm.resize_count_recordSize hn, u32_of_lt hc, records_append, ← h.allocated, if_pos hn,
      h.count]

/-- The first size of a topic. -/
theorem records_first (hsize : d.allocated_ = 0) (hcount : d.resize_count_ = 0) (n : ℕ) :
    (d.recordSize n n).Records [n] where
  size := rfl
  allocated := by
    rw [Shm.allocated_recordSize (hsize ▸ Nat.zero_le n)]
    exact (Nat.zero_max n).symm
  count := by
    simp only [recordSize, hsize, hcount, records]
    rfl

end Descriptor

namespace Sync

/-! ### What a step records -/

/-- A step as far as the sizes go: it records nothing, a size that fits the block, or a size for a
block that it makes; or there is no slot for the topic. -/
inductive SizeStep (s : Shm) (asks : Name → Option ℕ) : Shm → Prop
  | still {t : Shm} (ht : ∀ i, (t.descriptors i).seen = (s.descriptors i).seen)
    (ha : ∀ n, asks n = none) : SizeStep s asks t
  | fits {j : Slot} {size : ℕ} (hj : s.active j) (hle : size ≤ (s.descriptors j).allocated_)
    (ha : ∀ n, asks n = if s.key j = n then some size else none) : SizeStep s asks (s.resize j size)
  | renewed {j : Slot} {size : ℕ} (hj : s.active j) (hlt : (s.descriptors j).allocated_ < size)
    (hsize : size < 2 ^ 32) (ha : ∀ n, asks n = if s.key j = n then some size else none) :
    SizeStep s asks (s.renew j size)
  | occupied {j : Slot} {name : CString} {size : ℕ} (hj : ¬ s.active j)
    (hn : ∀ i, s.active i → s.key i ≠ name.key)
    (ha : ∀ n, asks n = if name.key = n then some size else none) :
    SizeStep s asks (s.occupy j name size)
  | full {name : CString} {size : ℕ} (hn : ∀ i, s.active i → s.key i ≠ name.key)
    (hfull : ∀ i, s.active i) (ha : ∀ n, asks n = if name.key = n then some size else none) :
    SizeStep s asks s

/-- Every slot in use records the sizes of its topic; a topic without a slot has none, as long as
there are free ones. -/
structure Recorded (s : Shm) (sizes : Name → List ℕ) : Prop where
  slot : ∀ i, s.active i → (s.descriptors i).Records (sizes (s.key i))
  unused : ∀ n, (∀ i, s.active i → s.key i ≠ n) → (∃ i, ¬ s.active i) → sizes n = []

section Recorded

variable {s t : Shm} {asks : Name → Option ℕ} {sizes : Name → List ℕ}

theorem active_of_seen {i : Slot} (h : (t.descriptors i).seen = (s.descriptors i).seen) :
    t.active i ↔ s.active i := by
  rw [Shm.active, ← Descriptor.active_seen, h, Descriptor.active_seen]

theorem key_of_seen {i : Slot} (h : (t.descriptors i).seen = (s.descriptors i).seen) :
    t.key i = s.key i := by
  rw [Shm.key, ← Descriptor.key_seen, h, Descriptor.key_seen, Shm.key]

/-- A size for the topic of slot `j`, and nothing for the others. -/
theorem Recorded.record {j : Slot} (h : Recorded s sizes) (size : ℕ)
    (hkeys : ∀ i, s.active i → i ≠ j → s.key i ≠ t.key j) (hact : t.active j)
    (hkeep : s.active j → s.key j = t.key j)
    (hne : ∀ i, i ≠ j → t.descriptors i = s.descriptors i)
    (hrec : (t.descriptors j).Records (sizes (t.key j) ++ [size]))
    (ha : ∀ n, asks n = if t.key j = n then some size else none) :
    Recorded t fun n => sizes n ++ (asks n).toList where
  slot i hi := by
    by_cases hij : i = j
    · subst hij
      simpa only [ha, if_true, Option.toList_some] using hrec
    · have hact' : s.active i := by rwa [Shm.active, hne i hij] at hi
      have hkey : t.key i = s.key i := by rw [Shm.key, hne i hij, Shm.key]
      have hother : asks (t.key i) = none := by
        rw [ha, if_neg]
        exact fun heq => hkeys i hact' hij (hkey.symm.trans heq.symm)
      rw [hother, hkey, hne i hij]
      simpa using h.slot i hact'
  unused n hn := by
    rintro ⟨i, hi⟩
    have hij : i ≠ j := fun hij => hi (hij ▸ hact)
    have hother : asks n = none := by rw [ha, if_neg (hn j hact)]
    rw [hother, Option.toList_none, List.append_nil]
    refine h.unused n (fun k hk => ?_) ⟨i, by rwa [Shm.active, hne i hij] at hi⟩
    by_cases hkj : k = j
    · subst hkj
      rw [hkeep hk]
      exact hn k hact
    · have hkey : t.key k = s.key k := by rw [Shm.key, hne k hkj, Shm.key]
      rw [← hkey]
      exact hn k (by rwa [Shm.active, hne k hkj])

/-- **One step.** -/
theorem SizeStep.recorded (hstep : SizeStep s asks t) (hs : s.Good) (hc : Counted s)
    (h : Recorded s sizes) : Recorded t fun n => sizes n ++ (asks n).toList := by
  cases hstep with
  | still ht ha =>
    simp only [ha, Option.toList_none, List.append_nil]
    refine ⟨fun i hi => ?_, fun n hn => ?_⟩
    · rw [key_of_seen (ht i)]
      exact (h.slot i ((active_of_seen (ht i)).1 hi)).congr (ht i)
    · rintro ⟨i, hi⟩
      refine h.unused n (fun k hk => ?_) ⟨i, fun hact => hi ((active_of_seen (ht i)).2 hact)⟩
      rw [← key_of_seen (ht k)]
      exact hn k ((active_of_seen (ht k)).2 hk)
  | fits hj hle ha =>
    rename_i j size
    have hkey : (s.resize j size).key j = s.key j := by rw [Shm.key, Shm.resize_self]; rfl
    refine h.record size (fun i hi hij heq => ?_) ?_ (fun _ => hkey.symm) (fun i => Shm.resize_ne) ?_ ?_
    · exact hij (hs.distinct i j hi hj (heq.trans hkey))
    · rwa [Shm.active, Shm.resize_self]
    · rw [hkey, Shm.resize_self]
      exact (h.slot j hj).fits hle
    · rwa [hkey]
  | renewed hj hlt hsize ha =>
    rename_i j size
    have hcount := hc j
    refine h.record size (fun i hi hij heq => ?_) ?_ (fun _ => renew_key.symm) (fun i => Shm.renew_ne)
      ?_ ?_
    · exact hij (hs.distinct i j hi hj (heq.trans renew_key))
    · rwa [Shm.active, Shm.renew_self, Descriptor.active_recordSize]
    · rw [renew_key, Shm.renew_self]
      exact (h.slot j hj).larger hlt (by omega)
    · rwa [renew_key]
  | occupied hj hn ha =>
    rename_i j name size
    have howns : (s.occupy j name size).Owns j name.key := Shm.owns_occupy
    obtain ⟨-, hsize, halloc, -⟩ := hs.inactive j hj
    refine h.record size (fun i hi _ heq => hn i hi (heq.trans howns.2)) howns.1
      (fun hact => absurd hact hj) (fun i => Shm.occupy_ne) ?_ ?_
    · rw [howns.2, h.unused _ hn ⟨j, hj⟩, Shm.occupy_self]
      exact Descriptor.records_first (d := (s.descriptors j).allocate name) halloc
        (hs.dormant j hj) size
    · rwa [howns.2]
  | full hn hfull ha =>
    rename_i name size
    refine ⟨fun i hi => ?_, fun n _ => ?_⟩
    · have hother : asks (s.key i) = none := by rw [ha, if_neg (Ne.symm (hn i hi))]
      rw [hother, Option.toList_none, List.append_nil]
      exact h.slot i hi
    · rintro ⟨i, hi⟩
      exact absurd (hfull i) hi

end Recorded

/-! ### What a party asks for -/

/-- The size that the call asks for, for topic `t`. -/
def Call.asks (s : Shm) (h : ShmHandle) (t : Name) : Call → Option ℕ
  | .allocateBlock name size _ => if name.key = t then some size.toNat else none
  | .reallocateBlock size _ =>
    match h.slot with
    | some i => if s.key i = t then some size.toNat else none
    | none => none
  | _ => none

/-- The size that is asked for with an act, for topic `t`. -/
def Party.asks (x : Party) (s : Shm) (t : Name) (a : Act) : Option ℕ :=
  (x.label s a).bind (Call.asks s x.handle t)

section Asks

variable {x : Party} {r : Shared} {a : Act} {e : Effect} {i : Slot} {k : List Instr} {n : Name}

/-- No call takes effect that asks for a size. -/
theorem asks_none (hno : ∀ c ∈ x.commits r.shm, ∀ n, c.asks r.shm x.handle n = none) (n : Name) :
    x.asks r.shm n .go = none := by
  rw [Party.asks, Party.label]
  exact Option.bind_eq_none_iff.2 fun c hc => hno c hc n

/-- A call of `reallocateBlock` through a handle to slot `i`. -/
theorem asks_reallocateBlock (size : UInt32) (alloc : Bool) (hi : x.handle.slot = some i)
    (hcommits : x.commits r.shm = some (.reallocateBlock size alloc)) (n : Name) :
    x.asks r.shm n .go = if r.shm.key i = n then some size.toNat else none := by
  rw [Party.asks, Party.label, hcommits, Option.bind_some]
  simp only [Call.asks, hi]

theorem sizeStep_body {b : Body} (hx : x.status = .ready) (hprog : x.prog = .body b :: k)
    (hok : x.Ok) (hs : r.shm.Good) (haim : ∀ i, Aimed r.shm i x.handle)
    (hord : b.Ordinary) (hstay : ∀ i, r.shm.active i → (b.run r.shm x.handle).1.active i)
    (hgrow : b.Grows r.shm) :
    SizeStep r.shm (fun n => x.asks r.shm n .go) (b.run r.shm x.handle).1 := by
  have hslot : ∀ i, b.slot = some i → x.handle.slot = some i := by
    have hwf := hok.ready hx
    rw [hprog] at hwf
    exact hwf.1.2.2
  have hcommits : x.commits r.shm = (Instr.body b).call := by
    simp only [Party.commits, hx, hprog]
  cases b with
  | findHandle name =>
    exact .still (fun _ => rfl) (asks_none (by simp [hcommits, Instr.call, Call.asks]))
  | relookup i => exact .still (fun _ => rfl) (asks_none (by simp [hcommits, Instr.call]))
  | allocateBlock name size alloc =>
    obtain ⟨hplain, rfl⟩ := hord
    have hasks (n : Name) :
        x.asks r.shm n .go = if name.key = n then some size.toNat else none := by
      simp only [Party.asks, Party.label, hcommits, Instr.call, Option.bind_some, Call.asks]
    rcases hs.allocateBlock_cases hplain.key_ne size.toNat with
      ⟨j, ho, hfit, heq⟩ | ⟨j, ho, hlt, heq⟩ | ⟨j, hn, hf, heq⟩ | ⟨hn, hf, heq⟩
    · simp only [Body.run, heq]
      exact .fits ho.1 hfit (ho.2.symm ▸ hasks)
    · simp only [Body.run, heq]
      exact .renewed ho.1 hlt (UInt32.toNat_lt _) (ho.2.symm ▸ hasks)
    · simp only [Body.run, heq]
      exact .occupied (Shm.freeSlot_some hf) (Shm.slotOf_none.1 hn) hasks
    · simp only [Body.run, heq]
      exact .full (Shm.slotOf_none.1 hn) (Shm.freeSlot_none.1 hf) hasks
  | grow i size alloc =>
    have hi := hslot i rfl
    obtain ⟨rfl, heq⟩ := grow_of_stay (hstay i (haim i hi).1)
    simp only [Body.run, heq]
    refine .renewed (haim i hi).1 hgrow (UInt32.toNat_lt _) (asks_reallocateBlock size true hi ?_)
    simp only [hcommits, Instr.call]
  | resetBlock i =>
    have hact := (haim i (hslot i rfl)).1
    simp only [Body.run, resetBlock_of_stay (hstay i hact)]
    exact .still (fun _ => rfl) (asks_none (by simp [hcommits, Instr.call, Call.asks]))
  | resetAllBlocks =>
    simp only [Body.run] at hstay ⊢
    rw [resetAllBlocks_of_stay hstay]
    exact .still (fun _ => rfl) (asks_none (by simp [hcommits, Instr.call, Call.asks]))

theorem sizeStep_instr {ins : Instr} (hx : x.status = .ready) (hprog : x.prog = ins :: k)
    (hok : x.Ok) (hs : r.shm.Good) (haim : ∀ i, Aimed r.shm i x.handle)
    (hask : x.Asks Body.Ordinary)
    (hstay : ∀ i, r.shm.active i → (ins.effect x k r).shared.shm.active i)
    (hgrow : ∀ b ∈ x.toDo, b.Grows r.shm) :
    SizeStep r.shm (fun n => x.asks r.shm n .go) (ins.effect x k r).shared.shm := by
  have hcall (hno : ∀ i size alloc, ins ≠ .ifLarger i size alloc) : x.commits r.shm = ins.call := by
    cases ins with
    | ifLarger i size alloc => exact absurd rfl (hno i size alloc)
    | _ => simp only [Party.commits, hx, hprog]
  cases ins with
  | lock m | unlock m | timed_wait i | signal_data i | ifStale i =>
    exact .still (fun _ => rfl) (asks_none (by simp [hcall, Instr.call]))
  | check m =>
    simp only [Instr.effect]
    split_ifs <;> exact .still (fun _ => rfl) (asks_none (by simp [hcall, Instr.call]))
  | register m | unregister m =>
    refine .still (fun i => ?_) (asks_none (by simp [hcall, Instr.call]))
    exact congrFun (congrArg Shm.descriptors (Shm.seen_addClients ..)) i
  | read i w =>
    simp only [Instr.effect]
    split_ifs <;> exact .still (fun _ => rfl) (asks_none (by simp [hcall, Instr.call, Call.asks]))
  | write i msg =>
    have hsame (j : Slot) : ((r.shm.serialize i x.handle msg.write).2.1.descriptors j).seen
        = (r.shm.descriptors j).seen := by
      cases hrun : msg.write.run (Stream.open_
          (r.shm.segment.bytesAt (r.shm.refresh i x.handle).ptr) (r.shm.descriptors i).size_) with
      | ok _ out | error e out => simp only [Shm.serialize, hrun]
    simp only [Instr.effect]
    split_ifs <;> exact .still hsame (asks_none (by simp [hcall, Instr.call, Call.asks]))
  | ifLarger i size alloc =>
    have hwf := hok.ready hx
    rw [hprog] at hwf
    have hi : x.handle.slot = some i := hwf.1.2
    by_cases hgt : size.toNat > (r.shm.descriptors i).allocated_
    · simp only [Instr.effect, if_pos hgt]
      refine .still (fun _ => rfl) fun n => ?_
      simp only [Party.asks, Party.label, Party.commits, hx, hprog, if_pos hgt, Option.bind_none]
    · simp only [Instr.effect, if_neg hgt]
      rw [Shm.recordSize_fits (not_lt.1 hgt) (.inl rfl)]
      refine .fits (haim i hi).1 (not_lt.1 hgt) (asks_reallocateBlock size alloc hi ?_)
      simp only [Party.commits, hx, hprog, if_neg hgt]
  | body b =>
    exact sizeStep_body hx hprog hok hs haim (hask b (hprog ▸ List.mem_cons_self)) hstay
      (hgrow b (by simp only [Party.toDo, hx, hprog, Option.mem_some_iff]))

/-- **Inversion.** A step that resets no slot and makes no block smaller, as far as the sizes go. -/
theorem sizeStep_effect (hok : x.Ok) (hs : r.shm.Good) (haim : ∀ i, Aimed r.shm i x.handle)
    (hask : x.Asks Body.Ordinary) (he : x.effect r a = some e)
    (hstay : ∀ i, r.shm.active i → e.shared.shm.active i)
    (hgrow : a = .go → ∀ b ∈ x.toDo, b.Grows r.shm) :
    SizeStep r.shm (fun n => x.asks r.shm n a) e.shared.shm := by
  cases a with
  | call c =>
    simp only [Party.effect] at he
    split at he
    · cases he
      exact .still (fun _ => rfl) fun _ => rfl
    · cases he
  | go =>
    simp only [Party.effect] at he
    split at he
    · rename_i ins k hx hprog
      cases he
      exact sizeStep_instr hx hprog hok hs haim hask hstay (hgrow rfl)
    · cases he
    · cases he
    · rename_i c hx
      cases he
      refine .still (fun _ => rfl) fun n => ?_
      simp only [Party.asks, Party.label, Party.commits, hx, Option.bind_none]
    · rename_i i hx
      cases he
      refine .still (fun _ => rfl) fun n => ?_
      simp only [Party.asks, Party.label, Party.commits, hx, Option.bind_none]
  | timeout =>
    simp only [Party.effect] at he
    split at he
    · cases he
      exact .still (fun _ => rfl) fun _ => rfl
    · cases he

end Asks

namespace Machine

variable {ι : Type*} [DecidableEq ι] {c : Machine ι} {sizes : Name → List ℕ}

/-- The size that is asked for with an act, for topic `t`, when the call takes effect. -/
def asked (t : Name) (c : Machine ι) (a : ι × Act) : Option ℕ :=
  (c.party a.1).asks c.shared.shm t a.2

theorem Settled.recorded_step (hs : c.Settled) (hc : Counted c.shared.shm) {a : ι × Act}
    (ha : c.Resetless a) (hg : c.Growing a) (h : Recorded c.shared.shm sizes) :
    Recorded (c.step a).shared.shm fun t => sizes t ++ (asked t c a).toList := by
  rcases c.moves_or_idle a with ⟨e, he, heq⟩ | ⟨hlabel, -, heq⟩
  · have hstay : ∀ i, c.shared.shm.active i → e.shared.shm.active i := fun i hi => by
      have hkeep := ha i hi
      rwa [heq, Monitor.apply_shared] at hkeep
    have hgrow : a.2 = .go → ∀ b ∈ (c.party a.1).toDo, b.Grows c.shared.shm := by
      obtain ⟨p, act⟩ := a
      rintro rfl
      exact hg
    rw [heq, Monitor.apply_shared]
    exact (sizeStep_effect (hs.sound.ok a.1) hs.tidy.good (fun i => (hs.placed i).aimed a.1)
      (hs.tidy.programs a.1) he hstay hgrow).recorded hs.tidy.good hc h
  · have hnone (t : Name) : asked t c a = none := by
      rw [asked, Party.asks, hlabel, Option.bind_none]
    simpa only [heq, hnone, Option.toList_none, List.append_nil] using h

theorem recorded_exec (as : List (ι × Act)) (hord : ∀ a ∈ as, a.2.Ordinary) (hs : c.Settled)
    (ht : c.Tracking) (h : Recorded c.shared.shm sizes)
    (hrun : Run.Along step (fun c a => c.Resetless a ∧ c.Growing a) c as) :
    Recorded (Run.exec step c as).shared.shm fun t => sizes t ++ Run.trace step (asked t) c as := by
  induction as generalizing c sizes with
  | nil =>
    simp only [Run.trace, List.append_nil]
    exact h
  | cons a as ih =>
    obtain ⟨⟨ha, hg⟩, hrun⟩ := hrun
    have hnext := ih (fun b hb => hord b (List.mem_cons_of_mem _ hb))
      (hs.step (hord a List.mem_cons_self) ha) (ht.step hs ha hg)
      (hs.recorded_step ht.counted ha hg h) hrun
    simp only [Run.trace, ← List.append_assoc]
    exact hnext

/-- **The descriptor of a topic is the summary of what was asked for.** In every interleaved run
without resets in which every replaced block is larger, `size_` is the last size that was asked for,
`allocated_` the largest one, and `resize_count_` the number of those that were larger than all
before. -/
theorem recorded_sizes (size : ℕ) (as : List (ι × Act)) (hord : ∀ a ∈ as, a.2.Ordinary)
    (h : Run.Along step (fun c a => c.Resetless a ∧ c.Growing a) (init size : Machine ι) as)
    (i : Slot) (hi : (Run.exec step (init size : Machine ι) as).shared.shm.active i) :
    let s := (Run.exec step (init size : Machine ι) as).shared.shm
    let sizes := Run.trace step (asked (s.key i)) (init size : Machine ι) as
    (s.descriptors i).size_ = sizes.getLastD 0 ∧
      (s.descriptors i).allocated_ = sizes.foldl max 0 ∧
      (s.descriptors i).resize_count_ = records 0 sizes := by
  have hinit : Recorded (init size : Machine ι).shared.shm fun _ => [] :=
    ⟨fun i hi => (by cases hi), fun _ _ _ => rfl⟩
  have hrec := (recorded_exec as hord (settled_init size) (tracking_init size) hinit h).slot i hi
  exact ⟨hrec.size, hrec.allocated, hrec.count⟩

end Machine

/-! ### A run -/

set_option maxRecDepth 4000 in
theorem recorded_sizes_two :
    let s := (Run.exec Machine.step (Machine.init 100 : Machine Client) evenRun).shared.shm
    let sizes := Run.trace Machine.step (Machine.asked (s.key 0)) (Machine.init 100 : Machine Client)
      evenRun
    (s.descriptors 0).size_ = sizes.getLastD 0 ∧
      (s.descriptors 0).allocated_ = sizes.foldl max 0 ∧
      (s.descriptors 0).resize_count_ = records 0 sizes :=
  Machine.recorded_sizes 100 evenRun (by decide) (by decide +kernel) 0 (by decide +kernel)

end Sync

end MessageTransport
