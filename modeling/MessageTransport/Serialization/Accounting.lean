import Mathlib.Data.List.AList
import MessageTransport.Lib.Run
import MessageTransport.Serialization.Buffers

/-!
# Accounting for buffers

Any number of raw messages, and one allocator that may fail at any time. `RawMessage_` declares no
destructor, no copy constructor and no assignment; the compiler's copy the members, and give
nothing back.

* `accounted_step_iff`: a step keeps messages and live buffers in bijection exactly if it is tidy,
  that is, if it neither copies, assigns to nor destroys a message that has a buffer;
* `Accounted.allocate_live`: what a message is read into is a live buffer of its length;
* `Leaked.step`, `Leaked.exists_calls`: a buffer that no message has is never given back, and makes
  the books wrong as soon as all messages have buffers;
* `sound_iff_tidy`: the books are right in a run, however its messages are resized in the end,
  if and only if all its steps are tidy;
* `received_card`: a thread that receives messages leaks the buffer of every one of them.
-/

namespace MessageTransport

/-- The messages there are, and the allocator. -/
structure RawMessages (κ : Type*) where
  messages : AList fun _ : κ => RawMessage_
  allocator : Allocator ℕ ℕ

namespace RawMessages

variable {κ : Type*}

/-- No messages yet. -/
def init : RawMessages κ := ⟨∅, .empty⟩

/-- What can happen to messages. -/
inductive Event (κ : Type*)
  | construct (k : κ)
  /-- A new message `k` is a copy of `j`. -/
  | copy (k j : κ)
  /-- The message `j` is assigned to `k`. -/
  | assign (k j : κ)
  | destroy (k : κ)
  | allocate (k : κ) (size : UInt32) (answer : Option ℕ)

variable [DecidableEq κ]

/-- The state after an event. A message can be made if it is not there, and used if it is. -/
def step (s : RawMessages κ) : Event κ → RawMessages κ
  | .construct k => if k ∈ s.messages then s else { s with messages := s.messages.insert k .init }
  | .copy k j =>
    match s.messages.lookup k, s.messages.lookup j with
    | none, some m => { s with messages := s.messages.insert k m }
    | _, _ => s
  | .assign k j =>
    match s.messages.lookup k, s.messages.lookup j with
    | some _, some m => { s with messages := s.messages.insert k m }
    | _, _ => s
  | .destroy k => { s with messages := s.messages.erase k }
  | .allocate k size answer =>
    match s.messages.lookup k with
    | some m =>
      let (_, m, alloc) := m.allocate size answer s.allocator
      ⟨s.messages.insert k m, alloc⟩
    | none => s

/-- The buffers of the messages. -/
def owned (ms : AList fun _ : κ => RawMessage_) (k : κ) : Option (ℕ × ℕ) :=
  (ms.lookup k).bind RawMessage_.buffer

/-- The books are right: all deallocations named live buffers of their size, every message with a
length has a live buffer of that length for itself, and there are no more buffers than messages. -/
structure Sound (s : RawMessages κ) : Prop where
  deallocated : s.allocator.invalid = []
  owned_once : ∀ j k m n a, s.messages.lookup j = some m → s.messages.lookup k = some n →
    m.getDataPtr = some a → n.getDataPtr = some a → j = k
  null_iff : ∀ k m, s.messages.lookup k = some m → (m.getDataPtr = none ↔ m.getDataLength = 0)
  names_live : ∀ k m a, s.messages.lookup k = some m → m.getDataPtr = some a →
    (a, m.getDataLength.toNat) ∈ s.allocator.live
  card_le : s.allocator.live.card ≤ s.messages.keys.length

/-- When a message is destroyed, its buffer is not live any more. -/
def Released (s : RawMessages κ) (e : Event κ) : Prop :=
  ∀ k m a, e = .destroy k → s.messages.lookup k = some m → m.getDataPtr = some a →
    (a, m.getDataLength.toNat) ∉ (s.step e).allocator.live

/-- There is no message `k` with a buffer. -/
def Empty (s : RawMessages κ) (k : κ) : Prop :=
  ∀ m, s.messages.lookup k = some m → m.getDataLength = 0

/-- No message that has a buffer is copied, is assigned to or from (but to itself), or is
destroyed. -/
def Tidy (s : RawMessages κ) : Event κ → Prop
  | .copy k j => k ∉ s.messages → s.Empty j
  | .assign k j => k ∈ s.messages → j ∈ s.messages → k = j ∨ s.Empty k ∧ s.Empty j
  | .destroy k => s.Empty k
  | .construct _ | .allocate .. => True

/-- Messages with buffers and live buffers are in bijection. -/
def Accounted (s : RawMessages κ) : Prop := s.allocator.Owned (owned s.messages)

/-- A live buffer that no message has. -/
def Leaked (s : RawMessages κ) (b : ℕ × ℕ) : Prop := s.allocator.Leaked (owned s.messages) b

variable {s : RawMessages κ} {e : Event κ} {k j : κ} {b : ℕ × ℕ}
  {ms : AList fun _ : κ => RawMessage_}

/-! ### The buffers of the messages -/

theorem mem_of_lookup {m : RawMessage_} (hk : ms.lookup k = some m) : k ∈ ms :=
  AList.lookup_isSome.1 (by rw [hk]; rfl)

theorem exists_lookup (hk : k ∈ ms) : ∃ m, ms.lookup k = some m :=
  Option.isSome_iff_exists.1 (AList.lookup_isSome.2 hk)

@[simp] theorem owned_insert (ms : AList fun _ : κ => RawMessage_) (k : κ) (m : RawMessage_) :
    owned (ms.insert k m) = Function.update (owned ms) k m.buffer := by
  funext i
  by_cases hik : i = k
  · rw [hik, Function.update_self, owned, AList.lookup_insert, Option.bind_some]
  · rw [Function.update_of_ne hik, owned, owned, AList.lookup_insert_ne hik]

@[simp] theorem owned_erase (ms : AList fun _ : κ => RawMessage_) (k : κ) :
    owned (ms.erase k) = Function.update (owned ms) k none := by
  funext i
  by_cases hik : i = k
  · rw [hik, Function.update_self, owned, AList.lookup_erase, Option.bind_none]
  · rw [Function.update_of_ne hik, owned, owned, AList.lookup_erase_ne hik]

theorem owned_of_notMem (hk : k ∉ ms) : owned ms k = none := by
  rw [owned, AList.lookup_eq_none.2 hk, Option.bind_none]

theorem owned_of_lookup {m : RawMessage_} (hk : ms.lookup k = some m) :
    owned ms k = m.buffer := by
  rw [owned, hk, Option.bind_some]

theorem owned_eq_some_iff : owned ms k = some b ↔ ∃ m, ms.lookup k = some m ∧
    m.getDataPtr = some b.1 ∧ b.2 = m.getDataLength.toNat := by
  simp only [owned, Option.bind_eq_some_iff, RawMessage_.buffer_eq_some_iff]

theorem empty_iff : s.Empty k ↔ owned s.messages k = none := by
  simp only [Empty, owned, Option.bind_eq_none_iff, RawMessage_.buffer_eq_none_iff]

/-! ### Steps -/

/-- The step says nothing to the allocator: the message `k` gets the buffer that another has, or
none. -/
structure Moves (s : RawMessages κ) (e : Event κ) (k : κ) (p : Option (ℕ × ℕ)) : Prop where
  held : p = none ∨ ∃ j, p = owned s.messages j
  allocator : (s.step e).allocator = s.allocator
  owned : owned (s.step e).messages = Function.update (owned s.messages) k p
  tidy : s.Accounted → (p = RawMessages.owned s.messages k ↔ s.Tidy e)

/-- The step gives the buffer of the message `k` back, and may replace it. -/
def Renews (s : RawMessages κ) (e : Event κ) (k : κ) : Prop :=
  ((s.step e).allocator = s.allocator.release (owned s.messages k) ∧
    owned (s.step e).messages = Function.update (owned s.messages) k none) ∨
  ∃ a n, a ∉ (s.allocator.release (owned s.messages k)).addresses ∧
    (s.step e).allocator = (s.allocator.release (owned s.messages k)).add (a, n) ∧
    owned (s.step e).messages = Function.update (owned s.messages) k (some (a, n))

/-- A step that does nothing. -/
theorem moves_of_eq (hs : s.step e = s) (ht : s.Tidy e) : ∃ p, s.Moves e k p := by
  refine ⟨owned s.messages k, .inr ⟨k, rfl⟩, by rw [hs], ?_, fun _ => iff_of_true rfl ht⟩
  rw [hs, Function.update_eq_self]

theorem step_construct (s : RawMessages κ) (k : κ) : ∃ p, s.Moves (.construct k) k p := by
  by_cases hk : k ∈ s.messages
  · exact moves_of_eq (if_pos hk) trivial
  · refine ⟨none, .inl rfl, ?_, ?_, fun _ => iff_of_true (owned_of_notMem hk).symm trivial⟩
    · rw [step, if_neg hk]
    · rw [step, if_neg hk, owned_insert, RawMessage_.buffer_init]

theorem step_copy (s : RawMessages κ) (k j : κ) : ∃ p, s.Moves (.copy k j) k p := by
  by_cases hk : k ∈ s.messages
  · obtain ⟨m, hm⟩ := exists_lookup hk
    exact moves_of_eq (by simp only [step, hm]) fun h => absurd hk h
  · have hk' := AList.lookup_eq_none.2 hk
    cases hj : s.messages.lookup j with
    | none =>
      refine moves_of_eq (by simp only [step, hk', hj]) fun _ m hm => ?_
      rw [hj] at hm
      cases hm
    | some m =>
      refine ⟨owned s.messages j, .inr ⟨j, rfl⟩, ?_, ?_, fun _ => ?_⟩
      · simp only [step, hk', hj]
      · simp only [step, hk', hj, owned_insert, owned_of_lookup hj]
      · rw [owned_of_notMem hk, ← empty_iff]
        exact ⟨fun h _ => h, fun h => h hk⟩

theorem step_assign (s : RawMessages κ) (k j : κ) : ∃ p, s.Moves (.assign k j) k p := by
  by_cases hmem : k ∈ s.messages ∧ j ∈ s.messages
  · obtain ⟨m, hk⟩ := exists_lookup hmem.1
    obtain ⟨n, hj⟩ := exists_lookup hmem.2
    refine ⟨owned s.messages j, .inr ⟨j, rfl⟩, ?_, ?_, fun ha => ⟨fun h _ _ => ?_, fun h => ?_⟩⟩
    · simp only [step, hk, hj]
    · simp only [step, hk, hj, owned_insert, owned_of_lookup hj]
    · -- two messages with the same buffer are one, or have none
      cases ho : owned s.messages k with
      | some b => exact .inl (ha.unique ho (h.trans ho) rfl)
      | none => exact .inr ⟨empty_iff.2 ho, empty_iff.2 (h.trans ho)⟩
    · rcases h hmem.1 hmem.2 with rfl | ⟨hk0, hj0⟩
      · rfl
      · rw [empty_iff.1 hk0, empty_iff.1 hj0]
  · refine moves_of_eq ?_ fun hk hj => absurd ⟨hk, hj⟩ hmem
    cases hk : s.messages.lookup k with
    | none => simp only [step, hk]
    | some m =>
      cases hj : s.messages.lookup j with
      | none => simp only [step, hk, hj]
      | some n => exact absurd ⟨mem_of_lookup hk, mem_of_lookup hj⟩ hmem

theorem step_destroy (s : RawMessages κ) (k : κ) : s.Moves (.destroy k) k none where
  held := .inl rfl
  allocator := rfl
  owned := owned_erase ..
  tidy := fun _ => eq_comm.trans empty_iff.symm

theorem step_allocate (s : RawMessages κ) (k : κ) (size : UInt32) (answer : Option ℕ) :
    (∃ p, s.Moves (.allocate k size answer) k p) ∨ s.Renews (.allocate k size answer) k := by
  cases hk : s.messages.lookup k with
  | none => exact .inl (moves_of_eq (by simp only [step, hk]) trivial)
  | some m =>
    rcases m.allocate_cases size answer s.allocator with
      ⟨-, h⟩ | ⟨m', hm', h⟩ | ⟨a, m', -, hfree, hm', h⟩
    · refine .inl ⟨owned s.messages k, .inr ⟨k, rfl⟩, ?_, ?_, fun _ => iff_of_true rfl trivial⟩
      · simp only [step, hk, h]
      · simp only [step, hk, h, owned_insert, owned_of_lookup hk]
    · refine .inr (.inl ⟨?_, ?_⟩)
      · simp only [step, hk, h, owned_of_lookup hk]
      · simp only [step, hk, h, owned_insert, hm']
    · refine .inr (.inr ⟨a, size.toNat, ?_, ?_, ?_⟩)
      · rwa [owned_of_lookup hk]
      · simp only [step, hk, h, owned_of_lookup hk]
      · simp only [step, hk, h, owned_insert, hm']

/-- **What a step can do.** Only `allocate` talks to the allocator. -/
theorem step_cases (s : RawMessages κ) (e : Event κ) :
    (∃ k p, s.Moves e k p) ∨ s.Tidy e ∧ ∃ k, s.Renews e k := by
  cases e with
  | construct k => exact .inl ⟨k, s.step_construct k⟩
  | copy k j => exact .inl ⟨k, s.step_copy k j⟩
  | assign k j => exact .inl ⟨k, s.step_assign k j⟩
  | destroy k => exact .inl ⟨k, none, s.step_destroy k⟩
  | allocate k size answer =>
    exact (s.step_allocate k size answer).imp (fun h => ⟨k, h⟩) fun h => ⟨trivial, k, h⟩

/-- What giving back and obtaining keep, a step that does these keeps. -/
theorem Renews.keeps (h : s.Renews e k) {P : Allocator ℕ ℕ → (κ → Option (ℕ × ℕ)) → Prop}
    (hrelease : P (s.allocator.release (owned s.messages k))
      (Function.update (owned s.messages) k none))
    (hadd : ∀ {alloc own a}, P alloc own → own k = none → a ∉ alloc.addresses →
      ∀ n, P (alloc.add (a, n)) (Function.update own k (some (a, n)))) :
    P (s.step e).allocator (owned (s.step e).messages) := by
  rcases h with ⟨halloc, howned⟩ | ⟨a, n, hfree, halloc, howned⟩
  · rwa [halloc, howned]
  · have hkeep := hadd hrelease (Function.update_self ..) hfree n
    rwa [Function.update_idem, ← halloc, ← howned] at hkeep

/-- **Step lemma.** The books stay in order exactly if the step is tidy. -/
theorem accounted_step_iff (ha : s.Accounted) : (s.step e).Accounted ↔ s.Tidy e := by
  rcases s.step_cases e with ⟨k, p, h⟩ | ⟨ht, k, h⟩
  · rw [Accounted, h.allocator, h.owned, ← h.tidy ha]
    exact Allocator.Owned.update_iff ha
  · refine iff_of_true (h.keeps (P := Allocator.Owned) (Allocator.Owned.release ha k) ?_) ht
    exact fun ho hk hfree n => ho.add hk hfree n

/-- A buffer that no message has is never given back, whatever happens. -/
theorem Leaked.step (hl : s.Leaked b) (e : Event κ) : (s.step e).Leaked b := by
  rcases s.step_cases e with ⟨k, p, h⟩ | ⟨-, k, h⟩
  · rw [Leaked, h.allocator, h.owned]
    refine Allocator.Leaked.update hl fun c hc => ?_
    rcases h.held with rfl | ⟨j, rfl⟩
    · cases hc
    · exact Allocator.Leaked.ne hl j c hc
  · refine h.keeps (P := fun alloc own => alloc.Leaked own b) (Allocator.Leaked.release hl k) ?_
    exact fun hl _ hfree n => hl.add hfree n

/-! ### Books that are right -/

theorem owned_of_ptr {m : RawMessage_} {a : ℕ} (hk : ms.lookup k = some m)
    (ha : m.getDataPtr = some a) : owned ms k = some (a, m.getDataLength.toNat) :=
  owned_eq_some_iff.2 ⟨m, hk, ha, rfl⟩

theorem accounted_init : (init : RawMessages κ).Accounted := by
  have hnone : owned (∅ : AList fun _ : κ => RawMessage_) = fun _ => none := by
    funext k
    exact owned_of_notMem (AList.notMem_empty k)
  rw [Accounted, init, hnone]
  exact Allocator.owned_empty

theorem Accounted.sound (h : s.Accounted) : s.Sound where
  deallocated := h.valid
  owned_once := fun _ _ _ _ _ hj hk hm hn =>
    h.unique (owned_of_ptr hj hm) (owned_of_ptr hk hn) rfl
  null_iff := fun _ m _ => m.getDataPtr_eq_none_iff
  names_live := fun _ _ _ hk hm => h.live (owned_of_ptr hk hm)
  card_le := by
    have hmem : ∀ k b, owned s.messages k = some b → k ∈ s.messages.keys.toFinset := by
      intro k b hk
      obtain ⟨m, hm, -⟩ := owned_eq_some_iff.1 hk
      exact List.mem_toFinset.2 (mem_of_lookup hm)
    calc s.allocator.live.card ≤ s.messages.keys.toFinset.card := h.card_live_le hmem
      _ = s.messages.keys.length := List.toFinset_card_of_nodup s.messages.keys_nodup

/-- Two messages with one buffer are one message. -/
theorem Sound.unique (hs : s.Sound) (hj : owned s.messages j = some b)
    (hk : owned s.messages k = some b) : j = k := by
  obtain ⟨m, hm, hmb, -⟩ := owned_eq_some_iff.1 hj
  obtain ⟨n, hn, hnb, -⟩ := owned_eq_some_iff.1 hk
  exact hs.owned_once j k m n _ hm hn hmb hnb

/-- What is copied to `getDataPtr()` after a successful `allocate`, as a message is read, goes to a
live buffer of the size that was asked for. -/
theorem Accounted.allocate_live (ha : s.Accounted) {m : RawMessage_} {size : UInt32}
    {answer : Option ℕ} (hk : s.messages.lookup k = some m) (hsize : size ≠ 0)
    (hok : (m.allocate size answer s.allocator).1 = true) :
    ∃ a, (m.allocate size answer s.allocator).2.1.getDataPtr = some a ∧
      (a, size.toNat) ∈ (s.step (.allocate k size answer)).allocator.live := by
  have hlen := (m.allocate_eq_true_iff size answer s.allocator).1 hok
  have hsound : (s.step (.allocate k size answer)).Sound :=
    Accounted.sound ((accounted_step_iff ha).2 trivial)
  have hk' : (s.step (.allocate k size answer)).messages.lookup k
      = some (m.allocate size answer s.allocator).2.1 := by
    simp only [step, hk, AList.lookup_insert]
  generalize (m.allocate size answer s.allocator).2.1 = m' at hlen hk' ⊢
  have hptr : m'.getDataPtr ≠ none := fun h => hsize (hlen ▸ m'.getDataPtr_eq_none_iff.1 h)
  obtain ⟨a, ha'⟩ := Option.ne_none_iff_exists'.1 hptr
  exact ⟨a, ha', hlen ▸ hsound.names_live k m' a hk' ha'⟩

theorem released_of_tidy (ht : s.Tidy e) : s.Released e := by
  rintro k m a rfl hk ha
  rw [m.getDataPtr_eq_none_iff.2 (ht m hk)] at ha
  cases ha

/-- A step that is not tidy leaks a buffer, or lets two messages have one. -/
theorem Accounted.untidy (ha : s.Accounted) (ht : ¬ s.Tidy e) :
    (∃ b, (s.step e).Leaked b) ∨ ¬ (s.step e).Sound := by
  rcases s.step_cases e with ⟨k, p, h⟩ | ⟨ht', -⟩
  · have hp : p ≠ owned s.messages k := fun hp => ht ((h.tidy ha).1 hp)
    cases hk : owned s.messages k with
    | some b =>
      refine .inl ⟨b, ?_⟩
      rw [Leaked, h.allocator, h.owned]
      refine Allocator.Owned.leaked ha hk fun c hc hcb => ?_
      -- another message with that address would be `k` itself
      rcases h.held with hnone | ⟨j, hj⟩
      · rw [hnone] at hc
        cases hc
      · have hjk := ha.unique (hj.symm.trans hc) hk hcb
        exact hp (hjk ▸ hj)
    | none =>
      rw [hk] at hp
      obtain ⟨c, rfl⟩ := Option.ne_none_iff_exists'.1 hp
      rcases h.held with hnone | ⟨j, hj⟩
      · cases hnone
      · have hjk : j ≠ k := by
          rintro rfl
          rw [hk] at hj
          cases hj
        -- now both `j` and `k` have the buffer
        have hk' : owned (s.step e).messages k = some c := by rw [h.owned, Function.update_self]
        have hj' : owned (s.step e).messages j = some c := by
          rw [h.owned, Function.update_of_ne hjk, ← hj]
        exact .inr fun hs => hjk (hs.unique hj' hk')
  · exact absurd ht' ht

/-! ### Leaks come out -/

/-- When all messages have buffers, there is none left for a leaked one. -/
theorem Leaked.not_sound (hl : s.Leaked b)
    (hfull : ∀ k ∈ s.messages, owned s.messages k ≠ none) : ¬ s.Sound := by
  intro hs
  have hlive : ∀ k ∈ s.messages.keys.toFinset,
      ∃ c, owned s.messages k = some c ∧ c ∈ s.allocator.live := by
    intro k hk
    obtain ⟨c, hc⟩ := Option.ne_none_iff_exists'.1 (hfull k (List.mem_toFinset.1 hk))
    obtain ⟨m, hm, hptr, hlen⟩ := owned_eq_some_iff.1 hc
    have hmem := hs.names_live k m c.1 hm hptr
    rw [← hlen] at hmem
    exact ⟨c, hc, hmem⟩
  have hlt := Allocator.Leaked.card_lt hl hlive fun j k c hj hk => hs.unique hj hk
  rw [List.toFinset_card_of_nodup s.messages.keys_nodup] at hlt
  exact absurd hs.card_le (not_le.2 hlt)

/-- A call of `allocate`: the message, the size and the allocator's answer. -/
def call (c : κ × UInt32 × Option ℕ) : Event κ := .allocate c.1 c.2.1 c.2.2

theorem mem_step_call (s : RawMessages κ) (c : κ × UInt32 × Option ℕ) :
    k ∈ (s.step (call c)).messages ↔ k ∈ s.messages := by
  simp only [call, step]
  cases hc : s.messages.lookup c.1 with
  | none => rfl
  | some m =>
    simp only [AList.mem_insert]
    exact or_iff_right_of_imp fun h => h ▸ mem_of_lookup hc

/-- Any of the messages can be given buffers. -/
theorem exists_calls (s : RawMessages κ) (ks : List κ) :
    ∃ calls : List (κ × UInt32 × Option ℕ),
      (∀ k, k ∈ (Run.exec step s (calls.map call)).messages ↔ k ∈ s.messages) ∧
      ∀ k ∈ ks, k ∈ s.messages → owned (Run.exec step s (calls.map call)).messages k ≠ none := by
  induction ks with
  | nil => exact ⟨[], fun k => Iff.rfl, by simp⟩
  | cons k ks ih =>
    obtain ⟨calls, hmem, hfull⟩ := ih
    generalize ht : Run.exec step s (calls.map call) = t at hmem hfull
    by_cases hk : k ∈ s.messages ∧ owned t.messages k = none
    · obtain ⟨m, hm⟩ := exists_lookup ((hmem k).2 hk.1)
      have hempty : m.getDataLength = 0 := by
        rw [← RawMessage_.buffer_eq_none_iff, ← owned_of_lookup hm, hk.2]
      obtain ⟨a, ha⟩ := t.allocator.exists_notMem_addresses
      obtain ⟨m', hm', halloc⟩ := m.allocate_of_empty 1 t.allocator hempty (by decide) ha
      refine ⟨calls ++ [(k, 1, some a)], fun i => ?_, fun i hi hmem' => ?_⟩
      · rw [List.map_append, Run.exec_append, ht]
        exact (mem_step_call t _).trans (hmem i)
      · have hstep : owned (Run.exec step s ((calls ++ [(k, 1, some a)]).map call)).messages
            = Function.update (owned t.messages) k (some (a, 1)) := by
          rw [List.map_append, Run.exec_append, ht]
          simp only [List.map_cons, List.map_nil, Run.exec, List.foldl_cons, List.foldl_nil, call,
            step, hm, halloc, owned_insert, hm']
          rfl
        rw [hstep]
        by_cases hik : i = k
        · simp [hik]
        · rw [Function.update_of_ne hik]
          exact hfull i ((List.mem_cons.1 hi).resolve_left hik) hmem'
    · refine ⟨calls, ht ▸ hmem, fun i hi hmem' => ?_⟩
      rw [ht]
      rcases List.mem_cons.1 hi with rfl | hi
      · exact fun h => hk ⟨hmem', h⟩
      · exact hfull i hi hmem'

/-- **Leaks come out.** A buffer that no message has makes the books wrong, as soon as all messages
have buffers. -/
theorem Leaked.exists_calls (hl : s.Leaked b) :
    ∃ calls : List (κ × UInt32 × Option ℕ),
      ¬ (Run.exec RawMessages.step s (calls.map call)).Sound := by
  obtain ⟨calls, hmem, hfull⟩ := s.exists_calls s.messages.keys
  have hleak : (Run.exec RawMessages.step s (calls.map call)).Leaked b :=
    (Run.always_of_inv RawMessages.step (fun s => s.Leaked b) (fun s e h => h.step e) hl).exec
  exact ⟨calls, hleak.not_sound fun k hk => hfull k ((hmem k).1 hk) ((hmem k).1 hk)⟩

/-! ### Runs -/

theorem tidy_calls (s : RawMessages κ) (calls : List (κ × UInt32 × Option ℕ)) :
    Run.Along step Tidy s (calls.map call) := by
  induction calls generalizing s with
  | nil => trivial
  | cons c calls ih => exact ⟨trivial, ih _⟩

/-- **Run lemma.** The books are in order all along a run exactly if its steps are tidy. -/
theorem accounted_iff_tidy (ha : s.Accounted) {es : List (Event κ)} :
    Run.Always step Accounted s es ↔ Run.Along step Tidy s es :=
  Run.always_iff_along step (R := fun _ => True) Accounted (fun _ h => h)
    (fun _ _ _ ha ht => (accounted_step_iff ha).2 ht)
    (fun _ _ _ ha ht => (accounted_step_iff ha).1 ht) ha fun _ _ => trivial

theorem tidy_of_sound (ha : s.Accounted) {es : List (Event κ)}
    (h : ∀ calls : List (κ × UInt32 × Option ℕ), Run.Always step Sound s (es ++ calls.map call)) :
    Run.Along step Tidy s es := by
  induction es generalizing s with
  | nil => trivial
  | cons e es ih =>
    have ht : s.Tidy e := by
      by_contra ht
      rcases ha.untidy ht with ⟨b, hb⟩ | hns
      · -- the leaked buffer is still there in the end
        have hend : (Run.exec step (s.step e) es).Leaked b :=
          (Run.always_of_inv step (fun s => s.Leaked b) (fun s e h => h.step e) hb).exec
        obtain ⟨calls, hns⟩ := hend.exists_calls
        rw [← Run.exec_append] at hns
        exact hns (h calls).2.exec
      · exact hns (h []).2.head
    exact ⟨ht, ih ((accounted_step_iff ha).2 ht) fun calls => (h calls).2⟩

/-- **Accounting.** The books are right in every state of a run, and every message that is destroyed
leaves nothing behind, whatever calls of `allocate` may follow, if and only if no message with a
buffer is ever copied, assigned to or from, or destroyed. -/
theorem sound_iff_tidy (es : List (Event κ)) :
    (∀ calls : List (κ × UInt32 × Option ℕ),
      Run.Always step Sound init (es ++ calls.map call) ∧
      Run.Along step Released init (es ++ calls.map call)) ↔
    Run.Along step Tidy init es := by
  refine ⟨fun h => tidy_of_sound accounted_init fun calls => (h calls).1, fun h calls => ?_⟩
  have htidy : Run.Along step Tidy init (es ++ calls.map call) :=
    Run.along_append.2 ⟨h, tidy_calls _ calls⟩
  refine ⟨((accounted_iff_tidy accounted_init).2 htidy).mono fun _ h => h.sound, ?_⟩
  exact Run.along_of_along step (R := fun _ => True) (fun _ => True) (fun _ _ _ _ _ => trivial)
    (fun _ _ _ _ ht => released_of_tidy ht) trivial (fun _ _ => trivial) htidy

/-- One message with five bytes, as a thread receives it, and lets go of it. -/
theorem not_sound_received :
    ¬ (Run.Always step Sound init [.construct 0, .allocate 0 5 (some 0), .destroy 0] ∧
      Run.Along step Released init [.construct 0, .allocate 0 5 (some 0), .destroy 0]) := by
  rintro ⟨hs, -⟩
  exact absurd hs.exec.card_le (by decide)

/-! ### The receive thread -/

/-- What a thread does that receives a message of some size, whose buffer is put at an address. -/
def received (k : κ) (r : UInt32 × ℕ) : List (Event κ) :=
  [.construct k, .allocate k r.1 (some r.2), .destroy k]

/-- The message goes, and its buffer stays. -/
theorem exec_received {r : UInt32 × ℕ} (hk : k ∉ s.messages) (hsize : r.1 ≠ 0)
    (hfree : r.2 ∉ s.allocator.addresses) :
    Run.exec step s (received k r) = ⟨s.messages, s.allocator.add (r.2, r.1.toNat)⟩ := by
  obtain ⟨m', -, halloc⟩ := RawMessage_.init.allocate_of_empty r.1 s.allocator rfl hsize hfree
  have herase : (s.messages.insert k m').erase k = s.messages := by
    refine AList.ext ?_
    calc ((s.messages.insert k m').erase k).entries
        = (s.messages.insert k m').entries.kerase k := rfl
      _ = s.messages.entries := by
        rw [AList.entries_insert_of_notMem hk]
        exact List.kerase_cons_eq rfl
  simp only [received, Run.exec, List.foldl_cons, List.foldl_nil, step, if_neg hk,
    AList.lookup_insert, halloc, AList.insert_insert, herase]

/-- **Slow growth.** A thread that receives messages with payloads is left with the buffers of all
of them, and with none of the messages. -/
theorem received_card {rs : List (UInt32 × ℕ)} (hk : k ∉ s.messages) (hsize : ∀ r ∈ rs, r.1 ≠ 0)
    (hfree : ∀ r ∈ rs, r.2 ∉ s.allocator.addresses) (hnodup : (rs.map Prod.snd).Nodup) :
    (Run.exec step s (rs.flatMap (received k))).messages = s.messages ∧
    (Run.exec step s (rs.flatMap (received k))).allocator.live.card
      = s.allocator.live.card + rs.length := by
  induction rs generalizing s with
  | nil => exact ⟨rfl, rfl⟩
  | cons r rs ih =>
    obtain ⟨hnotMem, hnodup⟩ := List.nodup_cons.1 hnodup
    have hr := hfree r (by simp)
    rw [List.flatMap_cons, Run.exec_append, exec_received hk (hsize r (by simp)) hr]
    -- the next messages get other addresses
    have hfree' : ∀ q ∈ rs, q.2 ∉ (s.allocator.add (r.2, r.1.toNat)).addresses := by
      intro q hq h
      rcases Allocator.mem_addresses_add.1 h with h | h
      · exact hnotMem (List.mem_map.2 ⟨q, hq, h⟩)
      · exact hfree q (by simp [hq]) h
    obtain ⟨hmessages, hlive⟩ := ih (s := ⟨s.messages, s.allocator.add (r.2, r.1.toNat)⟩) hk
      (fun q hq => hsize q (by simp [hq])) hfree' hnodup
    refine ⟨hmessages, hlive.trans ?_⟩
    rw [Allocator.card_add hr, List.length_cons]
    omega

end RawMessages

end MessageTransport
