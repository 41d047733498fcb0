import Que.Lossless.Invariant

/-! # Order, exclusion and the ring inequality

The results about every run of a lossless channel that starts freshly initialised:

* `fifo_exactly_once`: what a consumer has received is the published sequence from its join on;
* `ring_invariant`: head, local head, tail, local tail and `head + N` are in this order, and
  the producer never writes a slot that the consumer may still access. -/

namespace Que.Lossless

open Lib

variable {V : Type} {C : Config}

/-! ### The freshly initialised channel -/

/-- What the constructors leave behind when the magic is zero: the head is not touched. -/
structure Fresh (C : Config) (m : Channel V) (s : State V) : Prop where
  tail : s.ch.tail = 0
  head : s.ch.head = m.head
  magic : s.ch.magic = MAGIC
  capacity : s.ch.capacity = C.N
  buffer : s.ch.buffer = m.buffer
  producer : s.producer = .rest .ready
  handle : s.handle.producer = ⟨0, 0, 0⟩

theorem initial_fresh {op : ProducerOp V} (hop : op.initialises = true) {m : Channel V}
    (hm : m.magic = 0) : Fresh C m (State.initial C op m) := by
  have hz : ¬ (0 = MAGIC) := fun h => MAGIC_ne_zero h.symm
  have hmode : C.mode = .shmem ∨ C.mode = .local := by cases C.mode <;> simp
  cases op with
  | joinOrInitializeIn =>
      rcases hmode with e | e <;> constructor <;>
        simp [State.initial, ProducerOp.code, joinOrInitializeIn, Proc.run, C.valid, load, store,
          fetchAdd, update, incrementStrongCount, Mode.backedByArcc, e, Act.step, Channel.get,
          Channel.set, hm, hz, ProducerOp.install]
  | joinOrCreateShmem =>
      constructor <;>
        simp [State.initial, ProducerOp.code, joinOrCreateShmem, Proc.run, load, store, update,
          Act.step, Channel.get, Channel.set, hm, hz, ProducerOp.install]
  | _ => cases hop

theorem initial_sound {op : ProducerOp V} (hop : op.initialises = true) {m : Channel V}
    (hm : m.magic = 0) (hh : m.head = 0) : Sound C (State.initial C op m) := by
  have F := initial_fresh (C := C) hop hm
  have hlt : 0 < 2 ^ C.w := Nat.two_pow_pos _
  refine ⟨⟨⟨F.magic, F.capacity, ?_, ?_, fun p _ => rfl⟩, ?_, trivial, ?_, ?_⟩, ?_⟩
  · rw [F.head, hh]
    exact Nat.zero_le _
  · rw [F.tail]
    exact hlt
  · rw [F.producer]
    refine ⟨⟨?_, ?_, ?_, ?_, ?_, ?_⟩, ?_⟩ <;>
      simp [State.producerView, F.handle, F.tail, F.head, hh, hlt]
  · intro i x hi
    simp [State.initial] at hi
  · exact fun h => absurd rfl h
  · rw [F.tail]
    exact Nat.zero_le _

/-! ### First in, first out -/

/-- The next pop of a consumer at rest, run alone: the published element at the cursor, or
nothing when the cursor has reached the tail. -/
theorem Invariant.pop_run {s : State V} (S : Invariant C s) (hc : s.consumer = .rest .ready) :
    ((pop C.w C.N).run C.w s.ch s.cursor).1 =
      if s.cursor.head < s.ch.tail then s.published s.cursor.head else none := by
  have hf := S.consumer
  rw [hc] at hf
  have hvalue := hf.2.value s.cursor.head le_rfl
  by_cases hlt : s.cursor.head < s.ch.tail
  · rw [if_pos hlt, show s.published s.cursor.head = _ from hvalue hlt]
    simp [pop, Channel.get, Nat.not_le.mpr hlt, slot, moduloMask, State.consumerView]
  · rw [if_neg hlt]
    simp [pop, Channel.get, Nat.not_lt.mp hlt]

theorem Invariant.received_eq {s : State V} (I : Invariant C s) :
    s.received.map some =
      (List.range s.received.length).map fun i => s.published (s.joinedAt + i) := by
  apply List.ext_getElem
  · simp
  · intro i h1 h2
    have hi : i < s.received.length := by simpa using h1
    simpa using (I.received i _ (List.getElem?_eq_getElem hi)).symm

/-- What the live (or last) consumer has received is the published sequence from the tail that its
join read, without gaps or repetitions, and its next pop continues it. -/
structure Delivered (C : Config) (s : State V) : Prop where
  received : s.received.map some =
    (List.range s.received.length).map fun i => s.published (s.joinedAt + i)
  next : s.consumer = .rest .ready →
    s.joinedAt + s.received.length ≤ s.ch.tail ∧
    (s.joinedAt + s.received.length < s.ch.tail →
      ∃ v, s.published (s.joinedAt + s.received.length) = some v ∧
        ((pop C.w C.N).run C.w s.ch s.cursor).1 = some v) ∧
    (s.joinedAt + s.received.length = s.ch.tail →
      ((pop C.w C.N).run C.w s.ch s.cursor).1 = none)

theorem Invariant.delivered {s : State V} (I : Invariant C s) : Delivered C s := by
  refine ⟨I.received_eq, fun hc => ?_⟩
  have hpop := I.pop_run hc
  have hf := I.consumer
  have hh := I.handed
  rw [hc] at hf hh
  have hnext : s.joinedAt + s.received.length = s.cursor.head := hh (by simp)
  rw [hnext]
  refine ⟨hf.2.le_tail, fun hlt => ?_, fun heq => ?_⟩
  · have hv := hf.2.value _ le_rfl hlt
    rw [if_pos hlt] at hpop
    exact ⟨_, hv, hpop.trans hv⟩
  · rw [hpop, if_neg (by omega)]

/-- **First in, first out, exactly once.**  In every run of a freshly initialised channel, the
values that the live (or last) consumer has received are the published ones at the positions
`joinedAt`, `joinedAt + 1`, …, where `joinedAt` is the tail that its join read.  All of them are
below the tail, and as long as the consumer has not caught up, its next pop returns the next
published value. -/
theorem fifo_exactly_once (C : Config) {op : ProducerOp V} (hop : op.initialises = true) (z : V)
    {s : State V} (h : Reach C (State.initial C op (Channel.zeroed z)) s) :
    (s.received.map some =
      (List.range s.received.length).map fun i => s.published (s.joinedAt + i)) ∧
    (s.consumer = .rest .ready →
      s.joinedAt + s.received.length ≤ s.ch.tail ∧
      (s.joinedAt + s.received.length < s.ch.tail →
        ∃ v, s.published (s.joinedAt + s.received.length) = some v ∧
          ((pop C.w C.N).run C.w s.ch s.cursor).1 = some v) ∧
      (s.joinedAt + s.received.length = s.ch.tail →
        ((pop C.w C.N).run C.w s.ch s.cursor).1 = none)) := by
  obtain ⟨h1, h2⟩ := ((initial_sound (C := C) hop (m := Channel.zeroed z) rfl rfl).run h).delivered
  exact ⟨h1, h2⟩

/-- Two pushes and a sync while the consumer is joined, then one pop. -/
theorem fifo_exactly_once_small : ∃ s : State ℕ,
    Reach Config.small (State.initial Config.small .joinOrInitializeIn (Channel.zeroed 0)) s ∧
    s.received = [7] ∧
    s.received.map some =
      (List.range s.received.length).map fun i => s.published (s.joinedAt + i) := by
  have h : ((State.initial Config.small .joinOrInitializeIn (Channel.zeroed 0)).moves Config.small
      (consumerRuns .join 8 ++ producerRuns (.push 7) 6 ++ producerRuns (.push 8) 6 ++
        producerRuns .sync 4 ++ consumerRuns .pop 10)).map State.received = some [7] := by
    decide +kernel
  obtain ⟨s, hs, hr⟩ := Option.map_eq_some_iff.mp h
  exact ⟨s, State.moves_reach hs, hr, (fifo_exactly_once _ rfl 0 (State.moves_reach hs)).1⟩

/-! ### The ring inequality and slot exclusion -/

/-- The producer's local tail; the shared one while no producer is joined. -/
def State.producerTail (s : State V) : ℕ :=
  match s.producer with
  | .rest .gone => s.ch.tail
  | .rest _ => s.handle.producer.tail
  | .busy _ op _ => if op.isJoin then s.ch.tail else s.handle.producer.tail

/-- The consumer's local head; the shared one while no consumer is joined. -/
def State.consumerHead (s : State V) : ℕ :=
  match s.consumer with
  | .rest .gone => s.ch.head
  | .rest _ => s.cursor.head
  | .busy _ op _ => if op.isJoin then s.ch.head else s.cursor.head

/-- The slot that the producer is about to write. -/
def State.writing (s : State V) : Option ℕ :=
  match s.producer with
  | .busy _ _ (.act a _) => a.written
  | _ => none

/-- The slot that the consumer is about to access, or holds as a live `Element`. -/
def State.holding (s : State V) : Option ℕ :=
  match s.consumer with
  | .rest (.element i) => some i
  | .busy _ _ (.act a _) => a.accessed
  | _ => none

def State.producerJoined (s : State V) : Bool :=
  match s.producer with
  | .rest st => st != .gone
  | .busy _ op _ => !op.isJoin

namespace Invariant
variable {s : State V} (I : Invariant C s)
include I

theorem producerTail_bounds (hj : s.producerJoined = true) :
    s.ch.tail ≤ s.producerTail ∧ s.producerTail ≤ s.ch.head + C.N := by
  have hf := I.producer
  unfold State.producerJoined at hj
  unfold State.producerTail
  cases hp : s.producer with
  | rest st =>
      rw [hp] at hf hj
      cases st with
      | gone => cases hj
      | ready => exact Ready.tailBound hf
      | reserved => exact Open.tailBound hf
  | busy start op code =>
      rw [hp] at hf hj
      have hb := hf.1
      have hop : op.isJoin = false := by simpa using hj
      simpa [producerBound, hop, TailBound, State.producerView] using hb

theorem consumerHead_bounds :
    s.ch.head ≤ s.consumerHead ∧ s.consumerHead ≤ s.ch.tail := by
  have hf := I.consumer
  unfold State.consumerHead
  cases hc : s.consumer with
  | rest st =>
      rw [hc] at hf
      have hr : ConsumerRest C st s.consumerView := hf
      cases st with
      | gone => exact ⟨le_rfl, I.base.head_le⟩
      | ready => exact hr.headBound (by simp)
      | element i => exact hr.headBound (by simp)
  | busy start op code =>
      rw [hc] at hf
      have hb := hf.1
      unfold consumerBound at hb
      simp only
      split_ifs at hb ⊢ with hop
      · exact ⟨le_rfl, I.base.head_le⟩
      · exact hb

/-- A slot that the producer writes belongs to no position from the shared head up to the
producer's tail, shared or local. -/
theorem writing_free {i : ℕ} (hw : s.writing = some i) :
    s.ch.tail ≤ s.producerTail ∧
      ∀ q, s.ch.head ≤ q → q < s.producerTail → slot C.N q ≠ i := by
  unfold State.writing at hw
  unfold State.producerTail
  cases hp : s.producer with
  | rest st => simp [hp] at hw
  | busy start op code =>
      rw [hp] at hw
      cases code with
      | ret r => cases hw
      | act a k =>
          -- an action that writes a slot is not the load of the tail
          have hroom : a = .load .tail → s.ch.tail ≤ s.ch.head + C.N := by
            rintro rfl
            cases hw
          obtain ⟨htail, hfree⟩ := (I.producer_act hroom hp).1.free i hw
          simp only
          split_ifs with hop
          · exact ⟨le_rfl, fun q h1 h2 => hfree q h1 (h2.trans_le htail)⟩
          · exact ⟨htail, hfree⟩

/-- A slot that the consumer holds belongs to a published position not yet given back. -/
theorem holding_published {i : ℕ} (hh : s.holding = some i) :
    ∃ q, s.ch.head ≤ q ∧ q < s.ch.tail ∧ i = slot C.N q := by
  have hf := I.consumer
  unfold State.holding at hh
  cases hc : s.consumer with
  | rest st =>
      rw [hc] at hf hh
      cases st with
      | gone => cases hh
      | ready => cases hh
      | element j =>
          obtain ⟨_, hav, hj, hlt, _⟩ := hf
          cases hh
          exact ⟨_, hav.head_le, hlt, hj⟩
  | busy start op code =>
      rw [hc] at hh
      cases code with
      | ret r => cases hh
      | act a k =>
          obtain ⟨hi, h1, h2⟩ := (I.consumer_act hc).1.held i hh
          exact ⟨_, h1, h2, hi⟩

/-- A slot that the producer is about to write is neither the slot of a position between the
consumer's head and the producer's tail nor one that the consumer holds. -/
theorem exclusion {i : ℕ} (hw : s.writing = some i) :
    (∀ q, s.consumerHead ≤ q → q < s.producerTail → slot C.N q ≠ i) ∧ s.holding ≠ some i := by
  obtain ⟨htail, hfree⟩ := I.writing_free hw
  refine ⟨fun q hq hlt => hfree q (I.consumerHead_bounds.1.trans hq) hlt, fun hh => ?_⟩
  obtain ⟨q, hq, hlt, rfl⟩ := I.holding_published hh
  exact hfree q hq (hlt.trans_le htail) rfl

end Invariant

theorem Sound.producerTail_bounds {s : State V} (S : Sound C s) :
    s.ch.tail ≤ s.producerTail ∧ s.producerTail ≤ s.ch.head + C.N := by
  cases hj : s.producerJoined with
  | true => exact S.toInvariant.producerTail_bounds hj
  | false =>
      have htail : s.producerTail = s.ch.tail := by
        unfold State.producerJoined at hj
        unfold State.producerTail
        cases hp : s.producer with
        | rest st =>
            rw [hp] at hj
            cases st with
            | gone => rfl
            | ready => cases hj
            | reserved => cases hj
        | busy start op code =>
            rw [hp] at hj
            have hop : op.isJoin = true := by simpa using hj
            simp [hop]
      rw [htail]
      exact ⟨le_rfl, S.room⟩

/-- **The ring inequality and slot exclusion.**  In every reachable state of a freshly initialised
channel the counters are in order, between two consumer calls the shared head lags by less than a
burst, and a slot that the producer is about to write is neither the slot of a position between
the consumer's head and the producer's tail nor one that the consumer holds. -/
theorem ring_invariant (C : Config) {op : ProducerOp V} (hop : op.initialises = true) (z : V)
    {s : State V} (h : Reach C (State.initial C op (Channel.zeroed z)) s) :
    s.ch.head ≤ s.consumerHead ∧ s.consumerHead ≤ s.ch.tail ∧ s.ch.tail ≤ s.producerTail ∧
    s.producerTail ≤ s.ch.head + C.N ∧
    (∀ st, s.consumer = .rest st → st ≠ .gone →
      s.ch.head + s.cursor.itemsSinceLastSync = s.cursor.head ∧
      s.cursor.itemsSinceLastSync < burstAmount C.N) ∧
    (∀ i, s.writing = some i →
      (∀ q, s.consumerHead ≤ q → q < s.producerTail → slot C.N q ≠ i) ∧ s.holding ≠ some i) := by
  have S := (initial_sound (C := C) hop (m := Channel.zeroed z) rfl rfl).run h
  obtain ⟨h1, h2⟩ := S.consumerHead_bounds
  obtain ⟨h3, h4⟩ := S.producerTail_bounds
  refine ⟨h1, h2, h3, h4, fun st hc hst => ?_, fun i hw => S.exclusion hw⟩
  have hf := S.consumer
  rw [hc] at hf
  cases st with
  | gone => exact absurd rfl hst
  | ready => exact ⟨hf.1.head, hf.1.items⟩
  | element i => exact ⟨hf.1.head, hf.1.items⟩

/-- The producer is about to write slot 1 while the consumer holds the element in slot 0. -/
theorem ring_invariant_small : ∃ s : State ℕ,
    Reach Config.small (State.initial Config.small .joinOrCreateShmem (Channel.zeroed 0)) s ∧
    s.writing = some 1 ∧ s.holding = some 0 ∧ s.producerTail ≤ s.ch.head + 2 ∧
    s.holding ≠ some 1 := by
  have h : ((State.initial Config.small .joinOrCreateShmem (Channel.zeroed 0)).moves Config.small
      (consumerRuns .join 8 ++ producerRuns (.push 7) 6 ++ producerRuns .sync 4 ++
        consumerRuns .popZerocopy 3 ++ producerRuns (.push 8) 2)).map
      (fun s => (s.writing, s.holding)) = some (some 1, some 0) := by
    decide +kernel
  obtain ⟨s, hs, hr⟩ := Option.map_eq_some_iff.mp h
  obtain ⟨h1, h2⟩ : s.writing = some 1 ∧ s.holding = some 0 := by simpa using hr
  obtain ⟨_, _, _, h3, _, h4⟩ := ring_invariant _ rfl 0 (State.moves_reach hs)
  exact ⟨s, State.moves_reach hs, h1, h2, h3, (h4 1 h1).2⟩

end Que.Lossless
