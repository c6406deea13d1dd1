import MessageTransport.Sync.Blocks

/-!
# Delivery in order

The complete writes of a slot are numbered. A subscriber that waits for data has read nothing newer
than the newest write; a writer keeps the descriptor's mutex from its write to its notification, so
that nobody starts to wait in between, and whoever was waiting is notified of a write newer than all
it has read (`Machine.Ordered.pending`). It may read a still newer one, but never the same one
twice: what a subscriber reads of one slot has increasing numbers, `inOrder_of_clean`.
-/

namespace MessageTransport

namespace Sync

/-! ### Steps -/

namespace Position

variable (v : Position) (m : Mutex)

@[simp] theorem wrote_acquire : (v.acquire m).wrote = v.wrote := by cases m <;> rfl

@[simp] theorem wrote_release : (v.release m).wrote = v.wrote := by cases m <;> rfl

@[simp] theorem wrote_pass : (v.pass m).wrote = v.wrote := by cases m <;> rfl

@[simp] theorem wrote_register : (v.register m).wrote = v.wrote := by cases m <;> rfl

@[simp] theorem wrote_unregister : (v.unregister m).wrote = v.wrote := by cases m <;> rfl

@[simp] theorem due_acquire : (v.acquire m).due = v.due := by cases m <;> rfl

@[simp] theorem due_release : (v.release m).due = v.due := by cases m <;> rfl

@[simp] theorem due_pass : (v.pass m).due = v.due := by cases m <;> rfl

@[simp] theorem due_register : (v.register m).due = v.due := by cases m <;> rfl

@[simp] theorem due_unregister : (v.unregister m).due = v.due := by cases m <;> rfl

end Position

/-- The party was notified of data of slot `i` that it has not read. -/
def Party.expects (x : Party) (i : Slot) : Prop :=
  x.status = .woken (.data i) ∨ x.pos.due = some i

section Steps

variable {x : Party} {s : Shared} {a : Act} {e : Effect} {i : Slot}

/-- A party that waits has nothing to signal. -/
theorem Instr.wrote_of_waitsOn {j : Instr} {c : Cond} {v : Position} {slot : Option Slot}
    (hj : j.waitsOn = some c) (hp : j.Pre v slot) (hc : c.mutex = .desc i) : v.wrote = none := by
  cases j with
  | check m =>
    cases hj
    cases m with
    | global => cases hc
    | desc l => rw [show v = _ from hp]
  | timed_wait l => rw [show v = _ from hp]
  | _ => cases hj

/-- A written slot's mutex is not given back before the data is signalled. -/
theorem Step.give_desc (h : Step x s a e) (hg : e.give = some (.desc i)) : x.pos.wrote = none := by
  cases h with
  | unlock hx hp =>
    cases hg
    exact hp.2.2
  | wait hx hi hp => exact Instr.wrote_of_waitsOn hi hp (Option.some.inj hg)
  | _ => cases hg

/-- Data to be signalled was written before or is written now. -/
theorem Step.wrote_pos (h : Step x s a e) (hi : e.self.pos.wrote = some i) :
    x.pos.wrote = some i ∨ Wrote x s e i := by
  cases h with
  | write hx hp hk hr =>
    cases hi
    exact .inr (wrote_write hp hr)
  | signal | readThrows => cases hi
  | resume hx hj hp hr hk =>
    rename_i j c k
    left
    cases j with
    | check m => simpa [Party.goto, Instr.post] using hi
    | timed_wait l => simpa [Party.goto, Instr.post] using hi
    | _ => cases hj
  | _ => exact .inl (by simpa [Party.goto, Party.suspend] using hi)

/-- A party that expects data has expected it before, and has read nothing since. -/
theorem Step.expects (h : Step x s a e) (hi : e.self.expects i) :
    x.expects i ∧ e.self.log = x.log := by
  cases h with
  | read hx hp => simp [Party.expects, Party.goto, hx] at hi
  | readThrows hx hp => simp [Party.expects, Party.goto, hx, Position.idle] at hi
  | wait hx hj hp => exact ⟨.inr (by simpa [Party.expects, Party.suspend] using hi), rfl⟩
  | resume hx hj hp hr hk =>
    rename_i j c k
    cases j with
    | check m =>
      exact ⟨.inr (by simpa [Party.expects, Party.goto, Instr.post] using hi), rfl⟩
    | timed_wait l =>
      cases hj
      obtain rfl : l = i := by simpa [Party.expects, Party.goto, Instr.post] using hi
      exact ⟨.inl hx, rfl⟩
    | _ => cases hj
  | expire hx hp => simp [Party.expects, hp, Position.idle] at hi
  | giveUp hx hp => simp [Party.expects, Party.goto, hp, Position.idle] at hi
  | call hx | lock hx | unlock hx | pass hx | register hx | unregister hx | signal hx | work hx
  | write hx | writeThrows hx =>
    exact ⟨.inr (by simpa [Party.expects, Party.goto, hx] using hi), rfl⟩

/-- A party reads what it expects. -/
theorem Step.log (h : Step x s a e) : e.self.log = x.log ∨
    ∃ i p, e.self.log = x.log ++ [s.reading i p] ∧ x.expects i ∧ e.shared = s := by
  cases h with
  | read hx hp =>
    obtain ⟨hv, -⟩ := hp
    exact .inr ⟨_, _, rfl, .inr (by rw [hv]), rfl⟩
  | _ => exact .inl rfl

/-- A party starts to wait for data with the descriptor's mutex in its hands. -/
theorem Step.waits (h : Step x s a e) (hi : e.self.status = .waiting (.data i)) :
    x.pos.holds (.desc i) = true ∧ e.self.pos.wrote = none := by
  cases h with
  | wait hx hj hp =>
    obtain rfl : _ = Cond.data i := by simpa [Party.suspend] using hi
    refine ⟨Instr.holds_of_waitsOn hj hp, ?_⟩
    simpa [Party.suspend] using Instr.wrote_of_waitsOn hj hp rfl
  | resume | expire | giveUp => cases hi
  | call hx | lock hx | unlock hx | pass hx | register hx | unregister hx | signal hx | work hx
  | write hx | writeThrows hx | read hx | readThrows hx => cases hx.symm.trans hi

/-- Only who has written notifies of data. -/
theorem Step.notify_data (h : Step x s a e) (hn : e.notify = some (.data i)) :
    x.pos.wrote = some i ∧ e.shared = s := by
  cases h with
  | signal hx hp =>
    cases hn
    exact ⟨by rw [show x.pos = _ from hp], rfl⟩
  | unregister hx hp =>
    simp only at hn
    split_ifs at hn
    cases hn
  | _ => cases hn

end Steps

/-! ### The invariant -/

namespace Machine

variable {ι : Type*}

/-- What a party has read of a slot, in order. -/
def readings (c : Machine ι) (p : ι) (i : Slot) : List Reading :=
  (c.party p).log.filter fun r => r.slot = i

/-- Every write so far is newer than what the party has read of the slot. -/
def Behind (c : Machine ι) (p : ι) (i : Slot) : Prop :=
  ∀ r ∈ (c.party p).log, r.slot = i → r.number < c.shared.written i

/-- **Notifications and writes.** -/
structure Ordered (c : Machine ι) : Prop where
  /-- A writer keeps the mutex until it signals. -/
  signals : ∀ p i, (c.party p).pos.wrote = some i →
    (c.party p).pos.holds (.desc i) = true ∧ 0 < c.shared.written i
  /-- Nothing is read before it is written. -/
  bounded : ∀ p, ∀ r ∈ (c.party p).log, 0 < r.number ∧ r.number ≤ c.shared.written r.slot
  /-- A write that is to be signalled is new for all who wait. -/
  pending : ∀ p q i, (c.party p).pos.wrote = some i →
    (c.party q).status = .waiting (.data i) → c.Behind q i
  /-- A party that was notified has something new to read. -/
  expecting : ∀ q i, (c.party q).expects i → 0 < c.shared.written i ∧ c.Behind q i
  /-- Later reads are of newer writes. -/
  increasing : ∀ q, (c.party q).log.Pairwise fun r r' => r.slot = r'.slot → r.number < r'.number

theorem ordered_init (size : ℕ) : (init size : Machine ι).Ordered where
  signals p i h := by cases h
  bounded p r hr := by cases hr
  pending p q i h := by cases h
  expecting q i h := by rcases h with h | h <;> cases h
  increasing q := .nil

variable [DecidableEq ι] {c : Machine ι}

section Apply

variable {e : Effect} {p q : ι} {i : Slot}

/-- Numbers of writes only grow. -/
theorem written_le {x : Party} {s : Shared} {a : Act} (h : Step x s a e) (i : Slot) :
    s.written i ≤ e.shared.written i := by
  rcases h.wrote with ⟨j, w⟩ | ⟨hw, -⟩
  · rw [w.written]
    by_cases hij : i = j
    · subst hij
      simp
    · rw [Function.update_of_ne hij]
  · rw [hw]

theorem Behind.apply (h : c.Behind q i) (hlog : ((c.apply wake p e).party q).log = (c.party q).log)
    (hle : c.shared.written i ≤ e.shared.written i) : Behind (c.apply wake p e) q i := by
  intro r hr hslot
  rw [hlog] at hr
  exact (h r hr hslot).trans_le hle

end Apply

/-! ### Steps keep the invariant -/

section Step

variable {e : Effect} {p : ι} {a : Act}

theorem Ordered.signals_step (h : c.Ordered) (he : Step (c.party p) c.shared a e) (q : ι) (i : Slot)
    (hq : ((c.apply wake p e).party q).pos.wrote = some i) :
    ((c.apply wake p e).party q).pos.holds (.desc i) = true ∧ 0 < e.shared.written i := by
  have hle := written_le he i
  by_cases hqp : q = p
  · subst hqp
    rw [Monitor.apply_party_self] at hq ⊢
    rcases he.wrote_pos hq with hold | w
    · obtain ⟨hheld, hpos⟩ := h.signals q i hold
      refine ⟨(he.holds _).2 (.inr ⟨hheld, fun hgive => ?_⟩), hpos.trans_le hle⟩
      cases (he.give_desc hgive).symm.trans hold
    · refine ⟨w.holds, ?_⟩
      rw [w.written, Function.update_self]
      exact Nat.succ_pos _
  · rw [other_pos hqp] at hq ⊢
    obtain ⟨hheld, hpos⟩ := h.signals q i hq
    exact ⟨hheld, hpos.trans_le hle⟩

theorem Ordered.bounded_step (h : c.Ordered) (he : Step (c.party p) c.shared a e) (q : ι)
    (r : Reading) (hr : r ∈ ((c.apply wake p e).party q).log) :
    0 < r.number ∧ r.number ≤ e.shared.written r.slot := by
  have hold : ∀ q, r ∈ (c.party q).log → 0 < r.number ∧ r.number ≤ e.shared.written r.slot :=
    fun q hr => ⟨(h.bounded q r hr).1, (h.bounded q r hr).2.trans (written_le he r.slot)⟩
  by_cases hqp : q = p
  · subst hqp
    rw [Monitor.apply_party_self] at hr
    rcases he.log with hlog | ⟨i, ptr, hlog, hexp, hshared⟩
    · rw [hlog] at hr
      exact hold q hr
    · rw [hlog, List.mem_append, List.mem_singleton] at hr
      rcases hr with hr | rfl
      · exact hold q hr
      · exact ⟨(h.expecting q i hexp).1, hshared ▸ le_refl _⟩
  · rw [other_log hqp] at hr
    exact hold q hr

theorem Ordered.pending_step (h : c.Ordered) (hs : c.Sound)
    (he : Step (c.party p) c.shared a e) (r q : ι) (i : Slot)
    (hr : ((c.apply wake p e).party r).pos.wrote = some i)
    (hq : ((c.apply wake p e).party q).status = .waiting (.data i)) :
    Behind (c.apply wake p e) q i := by
  have hle := written_le he i
  by_cases hqp : q = p
  · -- the party starts to wait: nobody else holds the mutex
    subst hqp
    rw [Monitor.apply_party_self] at hq
    obtain ⟨hheld, hnone⟩ := he.waits hq
    by_cases hrq : r = q
    · subst hrq
      rw [Monitor.apply_party_self] at hr
      cases hnone.symm.trans hr
    · rw [other_pos hrq] at hr
      exact absurd (hs.unique (h.signals r i hr).1 hheld) hrq
  · obtain ⟨hwait, -⟩ := other_waiting hqp hq
    by_cases hrp : r = p
    · subst hrp
      rw [Monitor.apply_party_self] at hr
      rcases he.wrote_pos hr with hold | w
      · exact (h.pending r q i hold hwait).apply (other_log hqp) hle
      · -- the write is newer than everything read so far
        intro x hx hslot
        rw [other_log hqp] at hx
        rw [Monitor.apply_shared, w.written, Function.update_self]
        exact Nat.lt_succ_of_le (hslot ▸ (h.bounded q x hx).2)
    · rw [other_pos hrp] at hr
      exact (h.pending r q i hr hwait).apply (other_log hqp) hle

theorem Ordered.expecting_step (h : c.Ordered) (he : Step (c.party p) c.shared a e) (q : ι)
    (i : Slot) (hq : ((c.apply wake p e).party q).expects i) :
    0 < e.shared.written i ∧ Behind (c.apply wake p e) q i := by
  have hle := written_le he i
  by_cases hqp : q = p
  · subst hqp
    rw [Monitor.apply_party_self] at hq
    obtain ⟨hold, hlog⟩ := he.expects hq
    obtain ⟨hpos, hbehind⟩ := h.expecting q i hold
    refine ⟨hpos.trans_le hle, hbehind.apply ?_ hle⟩
    rw [Monitor.apply_party_self, hlog]
  · have hlog := other_log (c := c) (e := e) hqp
    have hold : (c.party q).expects i →
        0 < e.shared.written i ∧ Behind (c.apply wake p e) q i := by
      intro hexp
      obtain ⟨hpos, hbehind⟩ := h.expecting q i hexp
      exact ⟨hpos.trans_le hle, hbehind.apply hlog hle⟩
    rcases hq with hwoken | hdue
    · rcases other_woken hqp hwoken with hst | ⟨hnotify, hwait⟩
      · exact hold (.inl hst)
      · -- it is notified now, by a party that has written
        obtain ⟨hwrote, -⟩ := he.notify_data hnotify
        refine ⟨(h.signals p i hwrote).2.trans_le hle, ?_⟩
        exact (h.pending p q i hwrote hwait).apply hlog hle
    · rw [other_pos hqp] at hdue
      exact hold (.inr hdue)

theorem Ordered.increasing_step (h : c.Ordered) (he : Step (c.party p) c.shared a e) (q : ι) :
    ((c.apply wake p e).party q).log.Pairwise
      fun r r' => r.slot = r'.slot → r.number < r'.number := by
  by_cases hqp : q = p
  · subst hqp
    rw [Monitor.apply_party_self]
    rcases he.log with hlog | ⟨i, ptr, hlog, hexp, -⟩
    · rw [hlog]
      exact h.increasing q
    · rw [hlog, List.pairwise_append]
      refine ⟨h.increasing q, List.pairwise_singleton .., fun r hr r' hr' hslot => ?_⟩
      obtain rfl := List.mem_singleton.1 hr'
      exact (h.expecting q i hexp).2 r hr hslot
  · rw [other_log hqp]
    exact h.increasing q

end Step

theorem Ordered.step (h : c.Ordered) (hs : c.Sound) (a : ι × Act) : (c.step a).Ordered := by
  rcases hs.step_cases a with heq | ⟨e, he, -, heq⟩
  · rwa [heq]
  · rw [heq]
    exact
      { signals := h.signals_step he
        bounded := h.bounded_step he
        pending := h.pending_step hs he
        expecting := h.expecting_step he
        increasing := h.increasing_step he }

/-! ### What is read -/

/-- Whatever was read of slot `i` and came from one of its writes, came from the newest. -/
def Faithful (i : Slot) (c : Machine ι) : Prop :=
  ∀ p, ∀ r ∈ (c.party p).log, r.slot = i → ∀ k, r.content = some k → k = r.number

omit [DecidableEq ι] in
theorem faithful_init (i : Slot) (size : ℕ) : (init size : Machine ι).Faithful i := by
  intro p r hr
  cases hr

theorem Faithful.step {i : Slot} (h : c.Faithful i) (hs : c.Sound) (hp : c.Placed i)
    (a : ι × Act) : (c.step a).Faithful i := by
  rcases hs.step_cases a with heq | ⟨e, he, -, heq⟩
  · rwa [heq]
  · rw [heq]
    intro q r hr hslot k hk
    by_cases hqp : q = a.1
    · subst hqp
      rw [Monitor.apply_party_self] at hr
      rcases he.log with hlog | ⟨j, ptr, hlog, -, -⟩
      · rw [hlog] at hr
        exact h _ r hr hslot k hk
      · rw [hlog, List.mem_append, List.mem_singleton] at hr
        rcases hr with hr | rfl
        · exact h _ r hr hslot k hk
        · obtain rfl : j = i := hslot
          exact hp.content hk
    · rw [other_log hqp] at hr
      exact h q r hr hslot k hk

/-- The numbers of the writes whose content a party has read of slot `i`, in the order of its
reads. -/
def delivered (c : Machine ι) (p : ι) (i : Slot) : List ℕ :=
  (c.readings p i).filterMap Reading.content

/-- **No duplicate and no reordered delivery** for slot `i`: what a party reads has increasing
numbers. Each of its reads is of the newest write, or of a block that has the content of none, and
from one read to the next the number of writes has grown. -/
structure InOrder (i : Slot) (c : Machine ι) : Prop where
  delivered : ∀ p, (c.delivered p i).Pairwise (· < ·)
  newest : ∀ p, ∀ r ∈ c.readings p i, r.content = none ∨ r.content = some r.number
  published : ∀ p, ∀ r ∈ c.readings p i, 0 < r.number ∧ r.number ≤ c.shared.written i
  increasing : ∀ p, ((c.readings p i).map Reading.number).Pairwise (· < ·)

omit [DecidableEq ι] in
theorem Ordered.inOrder (h : c.Ordered) {i : Slot} (hf : c.Faithful i) : c.InOrder i := by
  have hmem : ∀ p, ∀ r ∈ c.readings p i, r ∈ (c.party p).log ∧ r.slot = i := by
    intro p r hr
    simpa [readings] using hr
  have hpair : ∀ p, (c.readings p i).Pairwise fun r r' => r.number < r'.number := by
    intro p
    have hsub := (h.increasing p).filter fun r => r.slot = i
    refine hsub.imp_of_mem fun {r r'} hr hr' hlt => hlt ?_
    rw [(hmem p r hr).2, (hmem p r' hr').2]
  have hcontent : ∀ p, ∀ r ∈ c.readings p i, ∀ k, r.content = some k → k = r.number :=
    fun p r hr => hf p r (hmem p r hr).1 (hmem p r hr).2
  constructor
  · intro p
    rw [delivered, List.pairwise_filterMap]
    refine (hpair p).imp_of_mem fun {r r'} hr hr' hlt k hk k' hk' => ?_
    rw [hcontent p r hr k hk, hcontent p r' hr' k' hk']
    exact hlt
  · intro p r hr
    cases hk : r.content with
    | none => exact .inl rfl
    | some k => exact .inr (congrArg some (hcontent p r hr k hk))
  · intro p r hr
    obtain ⟨hlog, hslot⟩ := hmem p r hr
    rw [← hslot]
    exact h.bounded p r hlog
  · intro p
    rw [List.pairwise_map]
    exact hpair p

/-- The act is not a stream action that throws, and does not reset slot `i`. -/
def Clean (i : Slot) (c : Machine ι) (a : ι × Act) : Prop := c.Calm a ∧ c.Keeps i a

/-- **Delivery in order.** -/
theorem inOrder_of_clean (i : Slot) (size : ℕ) (as : List (ι × Act))
    (h : Run.Along step (Clean i) (init size) as) : Run.Always step (InOrder i) (init size) as := by
  have hinv := Run.always_of_along (R := fun _ => True) step
    (fun c : Machine ι => c.Sound ∧ c.Ordered ∧ c.Placed i ∧ c.Faithful i)
    (fun c a _ ⟨hs, ho, hp, hf⟩ ha =>
      ⟨hs.step a, ho.step hs a, hp.step hs ha.2, hf.step hs hp a⟩)
    ⟨sound_init size, ordered_init size, placed_init i size, faithful_init i size⟩
    (fun _ _ => trivial) h
  exact hinv.mono fun c hc => hc.2.1.inOrder hc.2.2.2

end Machine

/-! ### A run -/

instance {ι : Type*} [DecidableEq ι] (i : Slot) (c : Machine ι) (a : ι × Act) :
    Decidable (c.Clean i a) :=
  inferInstanceAs (Decidable (c.Calm a ∧ (_ → _)))

/-- The first party publishes twice and the second reads twice, with a time-out in between. -/
def twiceRun : List (Client × Act) :=
  List.flatten
    [calls .first (.allocateBlock topicA 8 true) 4, calls .second (.findHandle topicA) 4,
      calls .second (.wait_data rawReader) 2, calls .first (.serialize shortMessage) 11,
      goes .second 13, calls .second (.wait_data rawReader) 2, [(.second, .timeout)],
      goes .second 2, calls .second (.wait_data rawReader) 2,
      calls .first (.serialize shortMessage) 11, goes .second 13]

set_option maxRecDepth 4000 in
theorem inOrder_twiceRun : Run.Always Machine.step (Machine.InOrder 0)
    (Machine.init 100 : Machine Client) twiceRun :=
  Machine.inOrder_of_clean 0 100 twiceRun (by decide +kernel)

end Sync

end MessageTransport
