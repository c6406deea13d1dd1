import MessageTransport.Sync.Completion

/-!
# Where parties are stuck

In a run without exceptions a party that is in a call and cannot go on is stuck at a mutex: it needs
it, or waits for its clients to leave, and somebody else is there (`StuckAt.next`). If only parties of
a set `D` can go on, all that are stuck are so because of parties of `D`.

* `StuckAt.global`: who is stuck at the manager is so because of one that occupies the manager;
* `StuckAt.desc`: who is stuck at a descriptor is so because of one that occupies this descriptor, or
  the manager. No chain of waiting parties leads from one descriptor to another, since every call is
  about one slot (`Party.AtSlot`).
-/

namespace MessageTransport

namespace Sync

/-! ### One slot for each call -/

/-- The descriptor that the instruction locks, or registers at. -/
def Instr.target : Instr → Option Slot
  | .lock (.desc i) | .register (.desc i) => some i
  | _ => none

/-- The call is about slot `i` only. -/
structure Party.AtSlot (x : Party) (i : Slot) : Prop where
  reg : ∀ j, x.pos.reg = some j → j = i
  prog : ∀ ins ∈ x.prog, ∀ j, ins.target = some j → j = i

section AtSlot

variable {x : Party} {s : Shared} {a : Act} {e : Effect} {i : Slot} {k : List Instr}

theorem target_globally {b : Body} {ins : Instr} (h : ins ∈ globally b) : ins.target = none := by
  simp only [globally, check_global_clients, List.mem_cons, List.not_mem_nil, or_false] at h
  rcases h with rfl | rfl | rfl | rfl <;> rfl

/-- The program of a call locks one descriptor at most. -/
theorem target_prog (c : Call) (h : ShmHandle) :
    ∃ i, ∀ ins ∈ c.prog h, ∀ j, ins.target = some j → j = i := by
  have hglobally (b : Body) : ∃ i : Slot, ∀ ins ∈ globally b, ∀ j, ins.target = some j → j = i :=
    ⟨0, fun ins hins j hj => by cases (target_globally hins).symm.trans hj⟩
  cases c with
  | findHandle | allocateBlock | resetAllBlocks => exact hglobally _
  | reallocateBlock size alloc =>
    simp only [Call.prog]
    split
    · rename_i i _ _
      refine ⟨i, ?_⟩
      simp [reallocateBlock, check_clients, Instr.target]
    · exact ⟨0, fun ins hins => by cases hins⟩
  | serialize msg =>
    simp only [Call.prog]
    split
    · rename_i i _
      refine ⟨i, ?_⟩
      simp [serialize, check_clients, register_global_client, unregister_global_client, Instr.target]
    · exact ⟨0, fun ins hins => by cases hins⟩
  | wait_data r =>
    simp only [Call.prog]
    split
    · rename_i i _
      refine ⟨i, ?_⟩
      simp [wait_data, wait_data_and_register_client, register_global_client,
        unregister_global_client, unregister_client, Instr.target]
    · exact ⟨0, fun ins hins => by cases hins⟩
  | resetBlock =>
    simp only [Call.prog]
    split
    · rename_i i _
      refine ⟨i, ?_⟩
      simp [resetBlock, globally, check_clients, check_global_clients, Instr.target]
    · exact ⟨0, fun ins hins => by cases hins⟩

theorem Party.AtSlot.goto (h : x.AtSlot i) {l : List Instr} {v : Position}
    (hl : ∀ ins ∈ l, ins ∈ x.prog ∨ ins.target = none)
    (hv : ∀ j, v.reg = some j → x.pos.reg = some j ∨ ∃ ins ∈ x.prog, ins.target = some j) :
    (x.goto l v).AtSlot i where
  reg j hj := by
    rcases hv j hj with hreg | ⟨ins, hins, htarget⟩
    · exact h.reg j hreg
    · exact h.prog ins hins j htarget
  prog ins hins j hj := by
    rcases hl ins hins with hmem | hnone
    · exact h.prog ins hmem j hj
    · cases hnone.symm.trans hj

/-- What an instruction does to the place where the party is registered. -/
theorem Instr.reg_post {v : Position} {j : Slot} {ins : Instr} (h : (ins.post v).reg = some j) :
    v.reg = some j ∨ ins.target = some j := by
  cases ins with
  | lock m | unlock m | check m => cases m <;> exact .inl h
  | register m =>
    cases m with
    | global => exact .inl h
    | desc l => exact .inr h
  | unregister m =>
    cases m with
    | global => exact .inl h
    | desc l => cases h
  | _ => exact .inl h

theorem Instr.target_of_waitsOn {ins : Instr} {c : Cond} (h : ins.waitsOn = some c) :
    ins.target = none := by
  cases ins with
  | check m | timed_wait l => rfl
  | _ => cases h

theorem Party.AtSlot.instr (h : x.AtSlot i) {ins : Instr} (hprog : x.prog = ins :: k) :
    (ins.effect x k s).self.AtSlot i := by
  have hk {l : List Instr} (hl : ∀ b ∈ l, b.target = none) :
      ∀ b ∈ l ++ k, b ∈ x.prog ∨ b.target = none := by
    intro b hb
    rcases List.mem_append.1 hb with hb | hb
    · exact .inr (hl b hb)
    · exact .inl (hprog ▸ List.mem_cons_of_mem _ hb)
  have hpost : ∀ j, (ins.post x.pos).reg = some j →
      x.pos.reg = some j ∨ ∃ b ∈ x.prog, b.target = some j := fun j hj =>
    (Instr.reg_post hj).imp_right fun htarget => ⟨ins, hprog ▸ List.mem_cons_self, htarget⟩
  have hnext : (x.goto k (ins.post x.pos)).AtSlot i := h.goto (hk (l := []) fun b hb => by cases hb) hpost
  cases ins with
  | check m =>
    simp only [Instr.effect]
    split_ifs
    · exact ⟨fun j hj => h.reg j (by cases m <;> exact hj), h.prog⟩
    · exact hnext
  | ifStale l =>
    simp only [Instr.effect]
    split_ifs
    · exact h.goto (hk fun b => target_globally) fun j => .inl
    · exact hnext
  | ifLarger l size alloc =>
    simp only [Instr.effect]
    split_ifs
    · exact h.goto (hk fun b => target_globally) fun j => .inl
    · exact hnext
  | timed_wait l => exact ⟨h.reg, h.prog⟩
  | write l msg =>
    simp only [Instr.effect]
    split_ifs
    · exact ⟨hnext.reg, hnext.prog⟩
    · refine ⟨h.reg, ?_⟩
      simp [Party.goto, Instr.target]
  | read l r =>
    simp only [Instr.effect]
    split_ifs
    · exact ⟨hnext.reg, hnext.prog⟩
    · refine ⟨fun j hj => ?_, fun b hb => ?_⟩
      · cases hj
      · cases hb
  | body b => exact ⟨hnext.reg, hnext.prog⟩
  | _ => exact hnext

/-- A step stays at the slot of the call. -/
theorem atSlot_effect (hok : x.Ok) (h : ∃ i, x.AtSlot i) (he : x.effect s a = some e) :
    ∃ i, e.self.AtSlot i := by
  obtain ⟨i, h⟩ := h
  cases a with
  | call c =>
    simp only [Party.effect] at he
    split at he
    · rename_i hx hprog
      cases he
      have hidle : x.pos = .idle := by
        have hwf := hok.ready hx
        rwa [hprog] at hwf
      obtain ⟨j, hj⟩ := target_prog c x.handle
      refine ⟨j, fun l hl => ?_, hj⟩
      simp only [hidle] at hl
      cases hl
    · cases he
  | go =>
    simp only [Party.effect] at he
    split at he
    · rename_i hprog
      cases he
      exact ⟨i, h.instr hprog⟩
    · cases he
    · cases he
    · rename_i c hx
      cases he
      obtain ⟨⟨ins, k, hprog, hw, -⟩, -⟩ := hok.waiting (.inr hx)
      simp only [Party.resume, hprog]
      refine ⟨i, fun j hj => ?_, fun b hb => h.prog b (hprog ▸ List.mem_cons_of_mem _ hb)⟩
      rcases Instr.reg_post hj with hreg | htarget
      · exact h.reg j (by rw [← hreg]; cases c.mutex <;> rfl)
      · cases (Instr.target_of_waitsOn hw).symm.trans htarget
    · cases he
      refine ⟨i, fun j hj => h.reg j hj, ?_⟩
      simp [Party.goto, Instr.target]
  | timeout =>
    simp only [Party.effect] at he
    split at he
    · cases he
      exact ⟨i, h.reg, h.prog⟩
    · cases he

theorem wake_atSlot (c : Cond) (h : x.AtSlot i) : (wake c x).AtSlot i := by
  unfold wake
  split_ifs
  · exact ⟨h.reg, h.prog⟩
  · exact h

end AtSlot

/-! ### Stuck parties -/

theorem Party.effect_of_needs {x : Party} {m : Mutex} (s : Shared) (h : x.needs = some m) :
    ∃ e, x.effect s .go = some e ∧ e.take = some m := by
  unfold Party.needs at h
  split at h
  · rename_i k hx hprog
    cases h
    exact ⟨_, by simp only [Party.effect, hx, hprog]; rfl, rfl⟩
  · rename_i n hx
    cases h
    exact ⟨_, by simp only [Party.effect, hx]; rfl, rfl⟩
  · rename_i i hx
    cases h
    exact ⟨_, by simp only [Party.effect, hx]; rfl, rfl⟩
  · cases h

namespace Machine

variable {ι : Type*} {c : Machine ι} {p q r : ι} {m : Mutex} {i : Slot} {a : ι × Act}

/-- The party keeps others from `m`: it holds the mutex, or it is one of the clients that they wait
for. -/
def Occupies (c : Machine ι) (p : ι) (m : Mutex) : Prop :=
  (c.party p).pos.holds m = true ∨ (c.party p).pos.registered m = true

/-- The party needs `m`, or it waits for the clients of `m` to leave. -/
def StuckAt (c : Machine ι) (q : ι) (m : Mutex) : Prop :=
  (c.party q).needs = some m ∨ (c.party q).status = .waiting (.clients m)

/-- The party is in no call. -/
def Outside (c : Machine ι) (q : ι) : Prop := (c.party q).status = .ready ∧ (c.party q).prog = []

instance : Decidable (c.Occupies p m) := inferInstanceAs (Decidable (_ ∨ _))

instance : Decidable (c.Outside q) := inferInstanceAs (Decidable (_ ∧ _))

/-- Nobody but the killed can go on. -/
def Halted (D : Set ι) (c : Machine ι) : Prop := ∀ a : ι × Act, a.1 ∉ D → ¬ c.Possible a

/-- All calls are about one slot each. -/
def Single (c : Machine ι) : Prop := ∀ p, ∃ i, (c.party p).AtSlot i

theorem Outside.pos (hs : c.Sound) (h : c.Outside q) : (c.party q).pos = .idle := by
  have hwf := (hs.ok q).ready h.1
  rwa [h.2] at hwf

theorem Occupies.pos_ne (h : c.Occupies p m) : (c.party p).pos ≠ .idle := by
  rintro hidle
  rcases h with h | h <;> rw [hidle] at h <;> cases m <;> cases h

/-- Who is in a call and cannot go on is stuck somewhere. -/
theorem stuckAt_of_stop (hin : ¬ c.Outside q) (hstop : ∀ act, ¬ c.Possible (q, act)) :
    ∃ m, c.StuckAt q m := by
  have hgo {e : Effect} (he : (c.party q).effect c.shared .go = some e) (hen : e.take = none) :
      False := hstop .go ⟨by rintro call ⟨⟩, e, he, by simp [Monitor.Effect.enabled, hen]⟩
  cases hx : (c.party q).status with
  | ready =>
    cases hprog : (c.party q).prog with
    | nil => exact absurd ⟨hx, hprog⟩ hin
    | cons ins k =>
      have he : (c.party q).effect c.shared .go = some (ins.effect (c.party q) k c.shared) := by
        simp only [Party.effect, hx, hprog]
      cases htake : (ins.effect (c.party q) k c.shared).take with
      | none => exact (hgo he htake).elim
      | some m =>
        obtain rfl := Instr.take_effect htake
        exact ⟨m, .inl (by simp only [Party.needs, hx, hprog])⟩
  | waiting n =>
    cases n with
    | clients m => exact ⟨m, .inr hx⟩
    | data i =>
      exact (hstop .timeout ⟨by rintro call ⟨⟩, _, by simp only [Party.effect, hx]; rfl, rfl⟩).elim
  | woken n => exact ⟨n.mutex, .inl (by simp only [Party.needs, hx])⟩
  | timedOut i => exact ⟨.desc i, .inl (by simp only [Party.needs, hx])⟩

/-- Where somebody is stuck, there is somebody else. -/
theorem StuckAt.occupied [Fintype ι] (h : c.StuckAt q m) (hs : c.Sound) (hc : c.Conserved)
    (hw : c.Waited) (hstop : ¬ c.CanGo q) :
    ∃ r, c.Occupies r m ∧ (c.party r).rank < (c.party q).rank := by
  rcases h with hneeds | hwaits
  · have howner : c.owner m ≠ none := by
      intro hfree
      obtain ⟨e, he, htake⟩ := Party.effect_of_needs c.shared hneeds
      exact hstop ⟨e, he, by simp [Monitor.Effect.enabled, htake, hfree]⟩
    obtain ⟨r, hr⟩ := Option.ne_none_iff_exists'.1 howner
    exact ⟨r, .inl ((hs.owned m r).1 hr), (hs.waitsFor (.inl ⟨m, hneeds, hr⟩)).1⟩
  · have hpos := hw m q hwaits
    rw [hc m] at hpos
    obtain ⟨r, hr⟩ := registered_pos.1 (by exact_mod_cast hpos)
    exact ⟨r, .inr hr, (hs.waitsFor (.inr ⟨m, hwaits, hr⟩)).1⟩

/-- The rank of a party that is stuck. -/
theorem StuckAt.rank (h : c.StuckAt q m) :
    match m with
    | .global => 1 ≤ (c.party q).rank
    | .desc _ => 3 ≤ (c.party q).rank := by
  rcases h with h | h
  · rw [Party.rank_of_needs h]
    cases m <;> exact le_refl _
  · rw [Party.rank_of_waiting h]
    cases m <;> simp

section Halted

variable [Fintype ι] {D : Set ι}

/-- What is known of a state that a run without exceptions leads to. -/
structure Inv (c : Machine ι) : Prop extends Intact c where
  single : c.Single

/-- Where a party that was not killed is stuck, there is a killed one, or another one that is
stuck itself. -/
theorem StuckAt.next (h : c.StuckAt q m) (hi : c.Inv) (hstop : c.Halted D) (hq : q ∉ D) :
    ∃ r, c.Occupies r m ∧ (r ∈ D ∨
      r ∉ D ∧ ∃ n, c.StuckAt r n ∧ (c.party r).rank < (c.party q).rank) := by
  have hcan : ¬ c.CanGo q := fun ⟨e, he, hen⟩ =>
    hstop (q, .go) hq ⟨by rintro call ⟨⟩, e, he, hen⟩
  obtain ⟨r, hr, hrank⟩ := h.occupied hi.sound hi.conserved hi.waited hcan
  refine ⟨r, hr, ?_⟩
  by_cases hrD : r ∈ D
  · exact .inl hrD
  · obtain ⟨n, hn⟩ := stuckAt_of_stop (fun hout => hr.pos_ne (hout.pos hi.sound))
      fun act => hstop (r, act) hrD
    exact .inr ⟨hrD, n, hn, hrank⟩

/-- **The manager.** Who is stuck there is stuck because of a killed client. -/
theorem StuckAt.global (h : c.StuckAt q .global) (hi : c.Inv) (hstop : c.Halted D)
    (hq : q ∉ D) : ∃ p ∈ D, c.Occupies p .global := by
  induction hn : (c.party q).rank using Nat.strong_induction_on generalizing q with
  | _ n ih =>
    obtain ⟨r, hr, hrD | ⟨hrD, m, hm, hrank⟩⟩ := h.next hi hstop hq
    · exact ⟨r, hrD, hr⟩
    · -- who occupies the manager waits for nothing but the manager
      have hle : (c.party r).rank ≤ 1 := by
        have hb := (hi.sound.ok r).bounded
        rcases hr with hr | hr
        · exact (hb.global hr).trans_le (Nat.zero_le _)
        · exact hb.regGlobal hr
      cases m with
      | global => exact ih _ (hn ▸ hrank) hm hrD rfl
      | desc i =>
        have hge : 3 ≤ (c.party r).rank := hm.rank
        omega

/-- Who is registered at a descriptor needs no other descriptor. -/
theorem Inv.same_desc {j : Slot} (hi : c.Inv) (hreg : (c.party r).pos.registered (.desc i) = true)
    (hm : c.StuckAt r (.desc j)) : j = i := by
  have hreg' : (c.party r).pos.reg = some i := by simpa [Position.registered] using hreg
  have hok := hi.sound.ok r
  have hidle {n : Cond} (hx : (c.party r).status = .waiting n ∨ (c.party r).status = .woken n) :
      False := by
    rcases hok.away hx with ⟨-, -, hnone, -⟩ | hidle
    · cases hreg'.symm.trans hnone
    · rw [hidle] at hreg'
      cases hreg'
  rcases hm with hneeds | hwaits
  · unfold Party.needs at hneeds
    split at hneeds
    · rename_i k hx hprog
      cases hneeds
      obtain ⟨l, hl⟩ := hi.single r
      rw [hl.reg i hreg', hl.prog _ (hprog ▸ List.mem_cons_self) j rfl]
    · exact (hidle (.inr ‹_›)).elim
    · rename_i l hx
      rw [Party.Ok, hx] at hok
      rw [hok] at hreg'
      cases hreg'
    · cases hneeds
  · exact (hidle (.inl hwaits)).elim

/-- **A descriptor.** Who is stuck there is stuck because of a client that was killed there, or at
the manager. -/
theorem StuckAt.desc (h : c.StuckAt q (.desc i)) (hi : c.Inv) (hstop : c.Halted D)
    (hq : q ∉ D) : ∃ p ∈ D, c.Occupies p (.desc i) ∨ c.Occupies p .global := by
  induction hn : (c.party q).rank using Nat.strong_induction_on generalizing q with
  | _ n ih =>
    obtain ⟨r, hr, hrD | ⟨hrD, m, hm, hrank⟩⟩ := h.next hi hstop hq
    · exact ⟨r, hrD, .inl hr⟩
    · cases m with
      | global =>
        obtain ⟨p, hp, hglobal⟩ := hm.global hi hstop hrD
        exact ⟨p, hp, .inr hglobal⟩
      | desc j =>
        have hge : 3 ≤ (c.party r).rank := hm.rank
        rcases hr with hr | hr
        · -- the owner of a descriptor's mutex needs no descriptor
          have hle := (hi.sound.ok r).bounded.desc i hr
          omega
        · obtain rfl := hi.same_desc hr hm
          exact ih _ (hn ▸ hrank) hm hrD rfl

end Halted

end Machine

end Sync

end MessageTransport
