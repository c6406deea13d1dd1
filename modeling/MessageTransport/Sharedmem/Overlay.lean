import MessageTransport.Serialization.Truncation
import MessageTransport.Sharedmem.Delivery
import MessageTransport.Sharedmem.Receiving

/-!
# What is in a shared block

`Delivery` has a condition under which subscribers get what was published. Here is what they get in
any run of publishers and subscribers of one topic, two publishers in the middle of `publish_msg`
included: the first bytes of the block, as many as the recorded size says. In the block the messages
written since it was made lie one over the other.

* `RawMessage.left`: what a `serialize` leaves in a block, also if it is left by an exception;
* `Stroke`: what happens to the bytes of a block, as a system of its own;
* `Exchange.received_overlay`: a run leads to a block of the bytes to which its strokes lead, and
  every reader gets these;
* `Exchange.received_published`: the message that was written last is read whole, cut, or with more
  bytes behind it, as the recorded size says.
-/

namespace MessageTransport

open Bytes MessageTransport.Stream

/-! ### Writing -/

/-- What `serialize` leaves in front of a block with a recorded size: the message if it fits, else
the timestamp if that fits. -/
def RawMessage.left (v : RawMessage) (size : ℕ) : List UInt8 :=
  if v.encode.length ≤ size then v.encode else if 8 ≤ size then v.timestamp.1 else []

/-- The memory behind a stream after an action, however it was left. -/
def memAfter {α : Type} : EStateM.Result Fault Stream α → List UInt8
  | .ok _ s | .error _ s => s.mem

theorem RawMessage.length_left {v : RawMessage} {size : ℕ} : (v.left size).length ≤ size := by
  unfold left
  split_ifs with hfit h8
  · exact hfit
  · rw [v.timestamp.2]
    exact h8
  · exact Nat.zero_le _

theorem RawMessage.write_left (v : RawMessage) {old : List UInt8} {size : ℕ}
    (hsize : size ≤ old.length) :
    memAfter (v.write.run (open_ old size)) = overwrite old 0 (v.left size) := by
  unfold left
  split_ifs with hfit h8
  · have hroom : (open_ old size).Room v.encode.length :=
      ⟨(Nat.zero_add _).trans_le hfit, hsize⟩
    rw [v.write_eq hroom]
    rfl
  · -- the timestamp is written, and `advance` throws before the data are
    have hroom : (open_ old size).Room (Scalar.sizeof .uint64) :=
      ⟨(Nat.zero_add _).trans_le h8, hsize⟩
    have hdata : ((open_ old size).put v.timestamp.1).end_ <
        ((open_ old size).put v.timestamp.1).data_ + v.getDataLength := by
      rw [length_encode] at hfit
      rw [put_end, put_data, v.timestamp.2, getDataLength, Scalar.sizeof]
      simp only [open_]
      omega
    have hpos : v.getDataLength > 0 := by
      rw [length_encode] at hfit
      rw [getDataLength]
      omega
    rw [write, EStateM.run_bind, Scalar.write_eq .uint64 v.timestamp hroom]
    simp only [if_pos hpos]
    rw [EStateM.run_bind, advance_overrun hdata]
    rfl
  · have hover : (open_ old size).end_ < (open_ old size).data_ + Scalar.sizeof .uint64 := by
      simp only [open_, Scalar.sizeof]
      omega
    rw [write, EStateM.run_bind, Scalar.write, EStateM.run_bind, advance_overrun hover,
      overwrite_nil]
    rfl

/-- A message is told by its bytes. -/
theorem RawMessage.encode_inj {v w : RawMessage} (h : v.encode = w.encode) : v = w := by
  obtain ⟨hts, hdata⟩ := List.append_inj h (v.timestamp.2.trans w.timestamp.2.symm)
  obtain ⟨ts, data, hlt⟩ := v
  obtain ⟨ts', data', hlt'⟩ := w
  obtain rfl : ts = ts' := Subtype.ext hts
  obtain rfl : data = data' := hdata
  rfl

namespace Shm

variable {m : Shm} {i : Slot} {t : Name} {h : ShmHandle} {old : List UInt8}

/-- `serialize`, however it is left. -/
theorem Good.serialize_left (hm : m.Good) (ho : m.Owns i t)
    (hp : (m.refresh i h).ptr = m.segment.named t) (hl : m.segment.lookup t = some (.bytes old))
    (msg : RawMessage) :
    (m.serialize i h msg.write).2 = (m.fill (m.refresh i h).ptr
        (overwrite old 0 (msg.left (m.descriptors i).size_)), m.refresh i h) ∧
      (m.fill (m.refresh i h).ptr
        (overwrite old 0 (msg.left (m.descriptors i).size_))).segment.lookup t
          = some (.bytes (overwrite old 0 (msg.left (m.descriptors i).size_))) := by
  obtain ⟨old', hl', hlen, hle⟩ := hm.block i ho.1
  obtain rfl : old = old' := by
    rw [ho.2, hl] at hl'
    cases hl'
    rfl
  have hsize : (m.descriptors i).size_ ≤ old.length := hle.trans_eq hlen.symm
  have hmem := msg.write_left hsize
  refine ⟨?_, ?_⟩
  · rw [← hmem, serialize, hp, Segment.bytesAt_named hl]
    cases msg.write.run (open_ old (m.descriptors i).size_) <;> rfl
  · rw [hp]
    refine Segment.lookup_setBytes hl (length_overwrite ?_)
    rw [Nat.zero_add]
    exact RawMessage.length_left.trans hsize

/-- **Reading.** A reader gets the first bytes of the block, as many as the recorded size says. -/
theorem Good.received_take (hm : m.Good) (ho : m.Owns i t) (hs : h.slot = some i)
    (hp : (m.refresh i h).ptr = m.segment.named t)
    (hl : m.segment.lookup t = some (.bytes old)) :
    (old.take (m.descriptors i).size_).length = (m.descriptors i).size_ ∧
      if 8 ≤ (m.descriptors i).size_ then
        ∃ v, m.received h = some (.ok v) ∧ v.encode = old.take (m.descriptors i).size_
      else m.received h = some (.error throwStreamOverrun) := by
  obtain ⟨old', hl', hlen, hle⟩ := hm.block i ho.1
  obtain rfl : old = old' := by
    rw [ho.2, hl] at hl'
    cases hl'
    rfl
  have hsize : (m.descriptors i).size_ ≤ old.length := hle.trans_eq hlen.symm
  have hlt : (m.descriptors i).size_ < 2 ^ 32 := hle.trans_lt (hm.bound i)
  have hwindow : (open_ old (m.descriptors i).size_).window
      = old.take (m.descriptors i).size_ := rfl
  have htake : (old.take (m.descriptors i).size_).length = (m.descriptors i).size_ :=
    List.length_take_of_le hsize
  refine ⟨htake, ?_⟩
  rw [received, hs, Option.map_some, deserialize, hp, Segment.bytesAt_named hl]
  split_ifs with h8
  · obtain ⟨v, s, hrun, hwhole, -⟩ := RawMessage.read_alloc (s := open_ old _) hsize hlt
      (by rwa [hwindow, htake]) RawMessage.empty
    refine ⟨v, by rw [hrun], ?_⟩
    rw [RawMessage.encode, hwhole.timestamp, hwhole.data, List.take_append_drop, hwindow]
  · obtain ⟨s, hrun⟩ : ∃ s, (RawMessage.empty.read true).run (open_ old (m.descriptors i).size_)
        = .error throwStreamOverrun s :=
      RawMessage.read_short hsize (by rw [hwindow, htake]; omega)
    rw [hrun]

/-- A call that keeps the topic's block keeps its bytes, and a new block is empty. -/
def Redone (m m' : Shm) (t : Name) (size : ℕ) : Prop :=
  if m'.segment.named t = m.segment.named t then m'.segment.lookup t = m.segment.lookup t
  else m'.segment.lookup t = some (.bytes (List.replicate size 0))

theorem redone_refl {size : ℕ} : Redone m m t size := by
  rw [Redone, if_pos rfl]

theorem Good.allocateBlock_redone (hm : m.Good) {name : CString} (hk : name.key ≠ managerName)
    (size : ℕ) : Redone m (m.allocateBlock name size true).1 name.key size := by
  unfold Redone
  split_ifs with hsame
  · exact hm.allocateBlock_bytes hk size hsame
  · rcases hm.allocateBlock_cases hk size with
      ⟨i, -, -, heq⟩ | ⟨i, ho, -, heq⟩ | ⟨i, -, -, heq⟩ | ⟨-, -, heq⟩ <;> rw [heq] at hsame ⊢
    · exact absurd rfl hsame
    · rw [← ho.2, renew_segment]
      exact ObjectStore.construct_lookup_self ..
    · rw [occupy_segment]
      exact ObjectStore.construct_lookup_self ..
    · exact absurd rfl hsame

theorem Good.reallocateSlot_redone (hm : m.Good) (ho : m.Owns i t) (size : ℕ) :
    Redone m (m.reallocateSlot i h size true).1 t size := by
  unfold Redone
  split_ifs with hsame
  · exact hm.reallocateSlot_bytes ho hsame
  · rcases Nat.lt_or_ge (m.descriptors i).allocated_ size with hlt | hfit
    · rw [reallocateSlot_larger hlt, ← ho.2, renew_segment]
      exact ObjectStore.construct_lookup_self ..
    · rw [reallocateSlot_fits hfit] at hsame
      exact absurd rfl hsame

end Shm

/-! ### Strokes -/

/-- What happens to the bytes of a block: they are set to zero, as many as there are to be, or some
are written over the first of them. -/
inductive Stroke
  | clear (size : ℕ)
  | put (bs : List UInt8)
  deriving DecidableEq

/-- The bytes after a stroke. -/
def Stroke.apply (data : List UInt8) : Stroke → List UInt8
  | .clear size => List.replicate size 0
  | .put bs => overwrite data 0 bs

namespace Exchange

variable {κ : Type*} {name : CString} {x : Exchange κ} {data : List UInt8}

/-- All handles are to topic `t`, and its block is of the bytes `data`. -/
structure Shows (t : Name) (x : Exchange κ) (data : List UInt8) : Prop where
  -- without what is said of the message that was written last
  linked : ({ x with written := none } : Exchange κ).Inv t
  bytes : ∀ data', x.world.shm.segment.lookup t = some (.bytes data') → data' = data

theorem shows_init (size : ℕ) (t : Name) : (init size : Exchange κ).Shows t [] where
  linked := inv_init size t
  bytes data' hl := by
    obtain ⟨i, ho⟩ := (Shm.good_init size).owned t data' hl
    cases ho.1.1

theorem Shows.good {t : Name} (h : x.Shows t data) : x.world.shm.Good := by
  obtain ⟨own, hw⟩ := h.linked.tracked
  exact hw.steady.toGood

/-- The handle of a client, when it has one, and the block behind it. -/
theorem Shows.handle {t : Name} {k : κ} {i : Slot} (h : x.Shows t data)
    (hi : (x.world.handle k).slot = some i) :
    x.world.shm.Steady ∧ t.length < nameSize ∧ x.world.topic k = t ∧ x.world.shm.Owns i t ∧
      ((x.world.handle k).resize_count = (x.world.shm.descriptors i).resize_count_ →
        (x.world.handle k).ptr = x.world.shm.segment.named t) ∧
      x.world.shm.segment.lookup t = some (.bytes data) := by
  obtain ⟨hm, hlen, htop, ho, hp⟩ := h.linked.handle hi
  obtain ⟨old, hl, -⟩ := hm.block i ho.1
  rw [ho.2] at hl
  exact ⟨hm, hlen, htop, ho, hp, h.bytes old hl ▸ hl⟩

/-- The table is as it was. -/
theorem Shows.keep {t : Name} {x' : Exchange κ} (h : x.Shows t data)
    (hl : ({ x' with written := none } : Exchange κ).Inv t)
    (hshm : x'.world.shm = x.world.shm) : x'.Shows t data :=
  ⟨hl, fun data' hd => h.bytes data' (hshm ▸ hd)⟩

/-- The block was kept, or replaced by a new one. -/
theorem Shows.redone {t : Name} {x' : Exchange κ} {size : ℕ} (h : x.Shows t data)
    (hl : ({ x' with written := none } : Exchange κ).Inv t)
    (hr : Shm.Redone x.world.shm x'.world.shm t size) :
    x'.Shows t (Option.elim (if x'.world.shm.segment.named t = x.world.shm.segment.named t then none
      else some (Stroke.clear size)) data (Stroke.apply data)) := by
  refine ⟨hl, fun data' hd => ?_⟩
  unfold Shm.Redone at hr
  split_ifs at hr ⊢
  · rw [hr] at hd
    exact h.bytes data' hd
  · cases hr.symm.trans hd
    rfl

variable [DecidableEq κ]

/-- What a turn does to the bytes of the topic's block: a call that replaces the block clears it,
and `serialize` writes what it leaves in the block. -/
def stroke (name : CString) (x : Exchange κ) (s : Turn κ) : Option Stroke :=
  let renewed (size : ℕ) : Option Stroke :=
    if (x.step name s).world.shm.segment.named name.chars
      = x.world.shm.segment.named name.chars then none else some (.clear size)
  match s with
  | .initialise _ => renewed 16
  | .reallocateBlock _ msg => renewed msg.toMessage.serlen.toNat
  | .serialize k =>
    match x.pending k, (x.world.handle k).slot with
    | some msg, some i => some (.put (msg.left (x.world.shm.descriptors i).size_))
    | _, _ => none
  | .findHandle _ | .read _ => none

/-- Only `serialize` looks at what is said of the message that was written last. -/
theorem step_forget {s : Turn κ} (hs : ∀ k, s ≠ .serialize k) :
    ({ x with written := none } : Exchange κ).step name s
      = { x.step name s with written := none } := by
  cases s with
  | serialize k => exact absurd rfl (hs k)
  | initialise | findHandle | reallocateBlock | read =>
    simp only [step]
    split_ifs <;> rfl

theorem Shows.initialise (h : x.Shows name.chars data) (hp : name.Plain) (k : κ) :
    (x.step name (.initialise k)).Shows name.chars
      ((x.stroke name (.initialise k)).elim data (Stroke.apply data)) := by
  refine h.redone ?_ ?_
  · rw [← step_forget (by simp)]
    exact h.linked.initialise hp
  · simp only [step]
    split_ifs
    · rw [World.step_allocateBlock_shm]
      have hr := h.good.allocateBlock_redone hp.key_ne (16 : UInt32).toNat
      rwa [hp.key_eq] at hr
    · exact Shm.redone_refl

theorem Shows.reallocateBlock (h : x.Shows name.chars data) (k : κ) (msg : RawMessage) :
    (x.step name (.reallocateBlock k msg)).Shows name.chars
      ((x.stroke name (.reallocateBlock k msg)).elim data (Stroke.apply data)) := by
  refine h.redone ?_ ?_
  · rw [← step_forget (by simp)]
    exact h.linked.reallocateBlock
  · simp only [step]
    by_cases hidle : ((x.pending k).isNone && (x.world.handle k).is_valid) = true
    · rw [if_pos hidle]
      obtain ⟨own, hw⟩ := h.linked.tracked
      have hv := (Bool.and_eq_true_iff.1 hidle).2
      obtain ⟨i, hi, -⟩ := hw.handle k hv
      obtain ⟨hm, -, -, ho, -⟩ := h.handle hi
      rw [World.step, Shm.reallocateBlock_valid hv hi]
      exact hm.reallocateSlot_redone ho _
    · rw [if_neg hidle]
      exact Shm.redone_refl

theorem Shows.findHandle (h : x.Shows name.chars data) (hp : name.Plain) (k : κ) :
    (x.step name (.findHandle k)).Shows name.chars data := by
  refine h.keep ?_ ?_
  · rw [← step_forget (by simp)]
    exact h.linked.findHandle hp
  · simp only [step]
    split_ifs <;> rfl

theorem Shows.read (h : x.Shows name.chars data) (k : κ) :
    (x.step name (.read k)).Shows name.chars data := by
  refine h.keep ?_ ?_
  · rw [← step_forget (by simp)]
    exact h.linked.read
  · simp only [step]
    split_ifs
    · rw [World.step]
      split <;> rfl
    · rfl

/-- **Writing,** whether the message fits the recorded size or not. -/
theorem Shows.serialize (h : x.Shows name.chars data) (k : κ) :
    (x.step name (.serialize k)).Shows name.chars
      ((x.stroke name (.serialize k)).elim data (Stroke.apply data)) := by
  cases hmsg : x.pending k with
  | none => simpa only [step, stroke, hmsg, Option.elim_none] using h
  | some msg =>
    cases hi : (x.world.handle k).slot with
    | none => simpa only [step, stroke, hmsg, hi, Option.elim_none] using h
    | some i =>
      obtain ⟨own, hw⟩ := h.linked.tracked
      obtain ⟨hm, hlen, htop, ho, hp, hl⟩ := h.handle hi
      obtain ⟨heq, hnew⟩ := hm.serialize_left ho (Shm.refresh_ptr ho hp) hl msg
      have hs := (hm.refresh_served ho hi hp).fill
        (overwrite data 0 (msg.left (x.world.shm.descriptors i).size_))
      have hworld : (x.step name (.serialize k)).world = x.world.setHandle k
          (x.world.shm.serialize i (x.world.handle k) msg.write).2 := by
        simp only [step, hmsg, hi]
        split <;> rfl
      rw [heq] at hworld
      simp only [stroke, hmsg, hi, Option.elim_some, Stroke.apply]
      have htracked : ∃ own, (x.step name (.serialize k)).world.Tracked own := by
        rw [hworld]
        refine hw.served (k := k) (i := i) ?_ (htop ▸ hlen)
          fun k' hk => ⟨World.setHandle_ne _ _ hk, rfl⟩
        simp only [World.setHandle_self, World.setHandle_topic, htop]
        exact hs
      refine ⟨⟨htracked, fun k' hv => ?_, fun a len hw => ?_, fun len hw => ?_⟩,
        fun data' hd => ?_⟩
      · simp only [hworld] at hv ⊢
        by_cases hk : k' = k
        · rw [hk]
          exact htop
        · rw [World.setHandle_ne _ _ hk] at hv
          exact h.linked.topic k' hv
      · cases hw
      · cases hw
      · rw [hworld, World.setHandle_shm] at hd
        exact Obj.bytes.inj (Option.some.inj (hd.symm.trans hnew))

/-- **One turn.** -/
theorem Shows.step (h : x.Shows name.chars data) (hp : name.Plain) (s : Turn κ) :
    (x.step name s).Shows name.chars ((x.stroke name s).elim data (Stroke.apply data)) := by
  cases s with
  | initialise k => exact h.initialise hp k
  | findHandle k => exact h.findHandle hp k
  | reallocateBlock k msg => exact h.reallocateBlock k msg
  | serialize k => exact h.serialize k
  | read k => exact h.read k

/-- **A run** leads to the bytes to which its strokes lead. -/
theorem Shows.exec (h : x.Shows name.chars data) (hp : name.Plain) (ss : List (Turn κ)) :
    (Run.exec (Exchange.step name) x ss).Shows name.chars
      (Run.exec Stroke.apply data (Run.trace (Exchange.step name) (stroke name) x ss)) :=
  Run.refines_trace (Exchange.step name) (P := fun _ _ => True) (stroke name) (Shows name.chars)
    (fun _ _ s h _ => h.step hp s) h
    ((Run.along_iff_forall _ (R := fun _ => True)).2 fun _ _ => trivial)

/-- **What readers get.** In every run of publishers and subscribers of a plain topic, any number of
them in the middle of `publish_msg`, the block has the bytes to which the strokes of the run have
led, and a reader gets the message whose bytes are the first of them, as many as the recorded size
says, or an exception if these are no timestamp. -/
theorem received_overlay (size : ℕ) (name : CString) (hp : name.Plain) (ss : List (Turn κ)) :
    let x := Run.exec (step name) (init size) ss
    let data := Run.exec Stroke.apply [] (Run.trace (step name) (stroke name) (init size) ss)
    ∀ k i, (x.world.handle k).slot = some i →
      let n := (x.world.shm.descriptors i).size_
      x.world.shm.segment.lookup name.chars = some (.bytes data) ∧ (data.take n).length = n ∧
        if 8 ≤ n then
          ∃ v, x.world.shm.received (x.world.handle k) = some (.ok v) ∧ v.encode = data.take n
        else x.world.shm.received (x.world.handle k) = some (.error throwStreamOverrun) := by
  intro x data k i hi
  obtain ⟨hm, -, -, ho, hptr, hl⟩ := ((shows_init size _).exec hp ss).handle hi
  exact ⟨hl, hm.received_take ho hi (Shm.refresh_ptr ho hptr) hl⟩

/-- Two publishers and a subscriber, and the longer message is ready to be written. -/
def beforeLonger : List (Turn Client) :=
  [.initialise .first, .initialise .second, .findHandle .third, .reallocateBlock .first longMessage]

/-- The longer message is written. Then the first publisher makes room for another one, and before
it writes that the second records the size of a shorter one. -/
def overlapping : List (Turn Client) :=
  beforeLonger ++ [.serialize .first, .reallocateBlock .first otherMessage,
    .reallocateBlock .second ⟨Vec.replicate 3, List.replicate 8 4, by decide⟩, .serialize .first]

/-- The second `serialize` of the first publisher overruns its stream when its timestamp is written.
The subscriber gets that timestamp, with the data of the message before. -/
theorem received_overlay_overlap :
    let x := Run.exec (step topicA) (init 0) overlapping
    ∃ v, x.world.shm.received (x.world.handle .third) = some (.ok v) ∧
      v.encode = List.replicate 8 9 ++ List.replicate 8 5 := by
  obtain ⟨-, -, h⟩ := received_overlay 0 topicA (by decide) overlapping .third 0 (by decide +kernel)
  have hsize : ((Run.exec (step topicA) (init 0) overlapping).world.shm.descriptors 0).size_
      = 16 := by
    decide +kernel
  have hstrokes : Run.trace (step topicA) (stroke topicA) (init 0) overlapping
      = [.clear 16, .clear 28, .put longMessage.encode, .put (List.replicate 8 9)] := by
    decide +kernel
  rw [hsize, hstrokes] at h
  exact h

/-- As long as nothing happens to the bytes, a reader gets the message that was written last: whole
if its length is recorded, cut if it is less, and with the bytes behind it if it is more. -/
theorem received_published (size : ℕ) (name : CString) (hp : name.Plain) (ss ss' : List (Turn κ))
    (k : κ) (msg : RawMessage) (i : Slot) :
    let x := Run.exec (step name) (init size) ss
    x.pending k = some msg → (x.world.handle k).slot = some i →
    msg.encode.length ≤ (x.world.shm.descriptors i).size_ →
    Run.trace (step name) (stroke name) (x.step name (.serialize k)) ss' = [] →
    let y := Run.exec (step name) (x.step name (.serialize k)) ss'
    ∀ k' j, (y.world.handle k').slot = some j →
      let n := (y.world.shm.descriptors j).size_
      let r := y.world.shm.received (y.world.handle k')
      if n < 8 then r = some (.error throwStreamOverrun)
      else if n ≤ msg.encode.length then r = some (.ok (msg.cut (n - 8)))
      else ∃ v bs, bs ≠ [] ∧ v.encode = msg.encode ++ bs ∧ r = some (.ok v) := by
  intro x hmsg hi hfits hnone y k' j hj
  have hput : x.stroke name (.serialize k) = some (.put msg.encode) := by
    simp only [stroke, hmsg, hi, RawMessage.left, if_pos hfits]
  have hnext := ((shows_init size _).exec hp ss).step hp (.serialize k)
  rw [hput, Option.elim_some, Stroke.apply, overwrite_zero] at hnext
  -- nothing is added by the other turns
  obtain ⟨rest, hshows⟩ : ∃ rest, y.Shows name.chars (msg.encode ++ rest) := by
    have h := hnext.exec hp ss'
    rw [hnone] at h
    exact ⟨_, h⟩
  obtain ⟨hm, -, -, ho, hptr, hl⟩ := hshows.handle hj
  obtain ⟨hlen, hread⟩ := hm.received_take ho hj (Shm.refresh_ptr ho hptr) hl
  intro n r
  split_ifs with h8 hle
  · rwa [if_neg (not_le.2 h8)] at hread
  · rw [if_pos (not_lt.1 h8), List.take_append_of_le_length hle] at hread
    obtain ⟨v, hv, hencode⟩ := hread
    have hcut : v.encode = (msg.cut (n - 8)).encode := by
      rw [msg.encode_cut, Nat.add_sub_cancel' (not_lt.1 h8)]
      exact hencode
    rwa [RawMessage.encode_inj hcut] at hv
  · rw [if_pos (not_lt.1 h8), List.take_append, List.take_of_length_le (not_le.1 hle).le] at hread
    obtain ⟨v, hv, hencode⟩ := hread
    refine ⟨v, _, fun hnil => hle ?_, hencode, hv⟩
    rw [List.take_append, List.take_of_length_le (not_le.1 hle).le, hnil, List.append_nil] at hlen
    exact hlen.ge

/-- The second publisher has the size of a shorter message recorded before the subscriber reads: it
gets the timestamp of the longer one, without its data. -/
theorem received_published_cut :
    let y := Run.exec (step topicA) ((Run.exec (step topicA) (init 0) beforeLonger).step topicA
      (.serialize .first)) [.reallocateBlock .second RawMessage.empty]
    y.world.shm.received (y.world.handle .third) = some (.ok (longMessage.cut 0)) := by
  have h := received_published 0 topicA (by decide) beforeLonger
    [.reallocateBlock .second RawMessage.empty] .first longMessage 0 (by decide +kernel)
    (by decide +kernel) (by decide +kernel) (by decide +kernel) .third 0 (by decide +kernel)
  generalize hy : Run.exec (step topicA) ((Run.exec (step topicA) (init 0) beforeLonger).step topicA
    (.serialize .first)) [.reallocateBlock .second RawMessage.empty] = y at h ⊢
  have hsize : (y.world.shm.descriptors 0).size_ = 8 := by
    rw [← hy]
    decide +kernel
  rw [hsize] at h
  exact h

end Exchange

end MessageTransport
