import Que.Lossless.ProducerCalls
import Que.Lossless.ConsumerSafe

/-! # The invariant of the lossless channel

`Invariant C s` combines the two verified sides: the base facts, each thread safe for the code it
still has to run, and the history of the consumer.

* One step keeps it (`Invariant.step`).  A step of one side is a change that the other side
  relies on, so the other thread stays safe.
* A producer that loads the tail in its constructor must find at most `N` positions between head
  and tail.  `Roomy` is this condition on the step that loads, `Invariant.run` the result for runs
  whose steps meet it; on a channel that was initialised with head and tail equal every step does
  (`Sound`). -/

namespace Que.Lossless

open Lib

variable {V : Type} {C : Config}

/-- The producer's thread is safe. -/
def ProducerFine (C : Config) : ProducerThread V → ProducerView V → Prop
  | .rest st, v => ProducerRest C st v
  | .busy start op code, v => producerBound C op v ∧
      Safe (producerContract C (producerBound C op)) code (ProducerPost C op start) v

/-- The consumer's thread is safe. -/
def ConsumerFine (C : Config) : ConsumerThread V → ConsumerView V → Prop
  | .rest st, v => ConsumerRest C st v
  | .busy start op code, v => consumerBound op v ∧
      Safe (consumerContract C (consumerBound op)) code (ConsumerPost C op start) v

/-- The number of positions handed out since the join, as the thread knows it. -/
def HandedOut (joinedAt count : ℕ) (c : Consumer) : ConsumerThread V → Prop
  | .rest st => st ≠ .gone → joinedAt + count = handedOut st c
  | .busy start op _ => op.isJoin = false → joinedAt + count = op.handedOut start

structure Invariant (C : Config) (s : State V) : Prop where
  base : Base C s.ch s.published
  producer : ProducerFine C s.producer s.producerView
  consumer : ConsumerFine C s.consumer s.consumerView
  received : ∀ i x, s.received[i]? = some x → s.published (s.joinedAt + i) = some x
  handed : HandedOut s.joinedAt s.received.length s.cursor s.consumer

theorem ProducerFine.stable {t : ProducerThread V} {v u : ProducerView V} (h : ProducerFine C t v)
    (hr : ProducerRely C v u) : ProducerFine C t u := by
  cases t with
  | rest st => exact ProducerRest.stable h hr
  | busy start op code =>
      refine ⟨?_, h.2.stable hr⟩
      have hb := h.1
      unfold producerBound at hb ⊢
      split_ifs at hb ⊢ with hop
      · trivial
      · exact hb.stable hr

theorem ConsumerFine.stable {t : ConsumerThread V} {v u : ConsumerView V} (h : ConsumerFine C t v)
    (hr : ConsumerRely C v u) : ConsumerFine C t u := by
  cases t with
  | rest st => exact ConsumerRest.stable h hr
  | busy start op code =>
      refine ⟨?_, h.2.stable hr⟩
      have hb := h.1
      unfold consumerBound at hb ⊢
      split_ifs at hb ⊢ with hop
      · trivial
      · exact hb.stable hr

/-! ### Calls and statuses -/

theorem ProducerOp.isJoin_of_enabled_gone {op : ProducerOp V} (h : op.enabled .gone = true) :
    op.isJoin = true := by
  cases op <;> first | rfl | cases h

theorem ProducerRest.tailBound {st : ProducerStatus} {v : ProducerView V} (h : ProducerRest C st v)
    (hst : st ≠ .gone) : TailBound C v := by
  cases st with
  | gone => exact absurd rfl hst
  | ready => exact Ready.tailBound h
  | reserved => exact Open.tailBound h

theorem ConsumerOp.isJoin_of_enabled_gone {op : ConsumerOp V} (h : op.enabled .gone = true) :
    op.isJoin = true := by
  cases op <;> first | rfl | cases h

theorem ConsumerOp.handedOut_of_enabled {op : ConsumerOp V} {st : ConsumerStatus} {c : Consumer}
    (h : op.enabled st = true) : Lossless.handedOut st c = op.handedOut c := by
  cases op <;> cases st <;> first | rfl | cases h

/-- A call starts within the bound that it has to keep. -/
theorem ProducerRest.bound {st : ProducerStatus} {v : ProducerView V} {op : ProducerOp V}
    (h : ProducerRest C st v) (hen : op.enabled st = true) : producerBound C op v := by
  unfold producerBound
  split_ifs with hop
  · trivial
  · exact h.tailBound fun hst => hop (ProducerOp.isJoin_of_enabled_gone (hst ▸ hen))

theorem ConsumerRest.bound {st : ConsumerStatus} {v : ConsumerView V} {op : ConsumerOp V}
    (h : ConsumerRest C st v) (hen : op.enabled st = true) : consumerBound op v := by
  unfold consumerBound
  split_ifs with hop
  · trivial
  · exact h.headBound fun hst => hop (ConsumerOp.isJoin_of_enabled_gone (hst ▸ hen))

/-! ### Steps -/

/-- The step from `s` to `t` is the producer's load of the tail, in a constructor. -/
def LoadsTail (C : Config) (s t : State V) : Prop :=
  ∃ start op k, s.producer = .busy start op (.act (.load .tail) k) ∧
    t = s.producerDoes C (.load .tail) fun x => .busy start op (k x)

/-- If the step loads the tail, it finds the free space not negative. -/
def Roomy (C : Config) (s t : State V) : Prop := LoadsTail C s t → s.ch.tail ≤ s.ch.head + C.N

namespace Invariant
variable {s t : State V}

/-- The producer's next action keeps its guarantee, and its thread stays safe. -/
theorem producer_act (I : Invariant C s) {start : Handle} {op : ProducerOp V} {a : Act Handle V}
    {k : a.Ans → Proc Handle V (ProducerStatus × List V)}
    (hroom : a = .load .tail → s.ch.tail ≤ s.ch.head + C.N)
    (hp : s.producer = .busy start op (.act a k)) :
    let r := (producerContract C (producerBound C op)).step a s.producerView
    ProducerGuar C (producerBound C op) a s.producerView r.2 ∧
      Safe (producerContract C (producerBound C op)) (k r.1) (ProducerPost C op start) r.2 := by
  have hf := I.producer
  rw [hp] at hf
  exact hf.2.own ⟨I.base, hroom⟩

/-- The same for the consumer. -/
theorem consumer_act (I : Invariant C s) {start : Consumer} {op : ConsumerOp V}
    {a : Act Consumer V} {k : a.Ans → Proc Consumer V (ConsumerStatus × Option V)}
    (hc : s.consumer = .busy start op (.act a k)) :
    let r := (consumerContract C (consumerBound op)).step a s.consumerView
    ConsumerGuar C (consumerBound op) a s.consumerView r.2 ∧
      Safe (consumerContract C (consumerBound op)) (k r.1) (ConsumerPost C op start) r.2 := by
  have hf := I.consumer
  rw [hc] at hf
  exact hf.2.own I.base

/-- The history stays right when a call of the consumer returns. -/
theorem returned (I : Invariant C s) {start : Consumer} {op : ConsumerOp V}
    {r : ConsumerStatus × Option V} (hc : s.consumer = .busy start op (.ret r)) :
    (∀ i x, (s.receivedAfter op r)[i]? = some x →
      s.published ((if op.isJoin then s.cursor.head else s.joinedAt) + i) = some x) ∧
    HandedOut (if op.isJoin then s.cursor.head else s.joinedAt) (s.receivedAfter op r).length
      s.cursor (.rest r.1 : ConsumerThread V) := by
  have hf := I.consumer
  have hh := I.handed
  rw [hc] at hf hh
  obtain ⟨hrest, hpost⟩ := hf.2.done
  unfold State.receivedAfter
  cases hop : op.isJoin with
  | true =>
      rw [hop] at hpost
      refine ⟨fun i x hi => by simp at hi, fun hst => ?_⟩
      cases hr : r.1 with
      | gone => exact absurd hr hst
      | ready => rfl
      | element i => exact absurd hr (hpost i)
  | false =>
      rw [hop] at hpost
      obtain ⟨hcount, hvalue⟩ : Delivers op start r s.consumerView := hpost
      simp only [Bool.false_eq_true, if_false]
      have hstart : s.joinedAt + s.received.length = op.handedOut start := hh hop
      constructor
      · intro i x hi
        rcases Nat.lt_or_ge i s.received.length with hlt | hge
        · rw [List.getElem?_append_left hlt] at hi
          exact I.received i x hi
        · rw [List.getElem?_append_right hge] at hi
          have := hvalue _ x hi
          rwa [← hstart, show s.joinedAt + s.received.length + (i - s.received.length) =
            s.joinedAt + i by omega] at this
      · intro hst
        rw [List.length_append, ← Nat.add_assoc, hstart]
        exact (hcount hst).symm

/-- **One step keeps the invariant.** -/
theorem step (I : Invariant C s) (hroom : Roomy C s t) (h : Step C s t) : Invariant C t := by
  cases h with
  | producerCall op hp hen hlt =>
      have hf := I.producer
      rw [hp] at hf
      exact ⟨I.base, ⟨hf.bound hen, op.code_safe hf hen hlt⟩, I.consumer, I.received, I.handed⟩
  | @producerAct start op a k hp =>
      have hload : a = .load .tail → s.ch.tail ≤ s.ch.head + C.N := by
        rintro rfl
        exact hroom ⟨start, op, k, hp, rfl⟩
      obtain ⟨hg, hk⟩ := I.producer_act hload hp
      refine ⟨hg.base, ⟨hg.bound, hk⟩, I.consumer.stable ⟨rfl, hg.change⟩, ?_, I.handed⟩
      exact fun i x hi => hg.change.kept _ _ (I.received i x hi)
  | producerReturn hp =>
      have hf := I.producer
      rw [hp] at hf
      exact ⟨I.base, hf.2.done, I.consumer, I.received, I.handed⟩
  | producerStop => exact ⟨I.base, trivial, I.consumer, I.received, I.handed⟩
  | consumerCall op hc hen =>
      have hf := I.consumer
      have hh := I.handed
      rw [hc] at hf hh
      refine ⟨I.base, I.producer, ⟨hf.bound hen, op.code_safe hf hen⟩, I.received, fun hop => ?_⟩
      rw [← ConsumerOp.handedOut_of_enabled hen]
      apply hh
      intro hst
      rw [ConsumerOp.isJoin_of_enabled_gone (hst ▸ hen)] at hop
      cases hop
  | consumerAct hc =>
      obtain ⟨hg, hk⟩ := I.consumer_act hc
      refine ⟨I.base.consumer hg.change, I.producer.stable ⟨rfl, rfl, rfl, hg.change⟩,
        ⟨hg.bound, hk⟩, I.received, ?_⟩
      have hh := I.handed
      rw [hc] at hh
      exact hh
  | consumerReturn hc =>
      obtain ⟨h1, h2⟩ := I.returned hc
      have hf := I.consumer
      rw [hc] at hf
      exact ⟨I.base, I.producer, hf.2.done.1, h1, h2⟩
  | consumerStop => exact ⟨I.base, I.producer, trivial, I.received, fun h => absurd rfl h⟩

end Invariant

/-! ### Runs -/

/-- A run in which no load of the tail by a producer finds the free space negative. -/
abbrev RoomyReach (C : Config) : State V → State V → Prop :=
  Relation.ReflTransGen fun s t => Step C s t ∧ Roomy C s t

/-- **A run keeps the invariant**, as long as producers find the free space not negative. -/
theorem Invariant.run {s t : State V} (I : Invariant C s) (h : RoomyReach C s t) :
    Invariant C t := by
  induction h with
  | refl => exact I
  | tail _ hstep ih => exact ih.step hstep.2 hstep.1

/-- The invariant together with at most `N` positions between head and tail. -/
structure Sound (C : Config) (s : State V) : Prop extends Invariant C s where
  room : s.ch.tail ≤ s.ch.head + C.N

theorem Sound.step {s t : State V} (S : Sound C s) (h : Step C s t) : Sound C t := by
  refine ⟨S.toInvariant.step (fun _ => S.room) h, ?_⟩
  cases h with
  | producerAct hp =>
      have hc := (S.producer_act (fun _ => S.room) hp).1.change
      rcases Decidable.em ((s.producerDoes C _ _).ch.tail = s.ch.tail) with e | e
      · rw [e]
        exact S.room.trans (Nat.add_le_add_right hc.head.ge _)
      · exact hc.room e
  | consumerAct hc =>
      have hc := (S.consumer_act hc).1.change
      have h1 := hc.tail
      have h2 := hc.head_le
      exact (h1.trans_le S.room).trans (Nat.add_le_add_right h2 _)
  | _ => exact S.room

/-- **Every run keeps the invariant** once at most `N` positions lie between head and tail. -/
theorem Sound.run {s t : State V} (S : Sound C s) (h : Reach C s t) : Sound C t := by
  induction h with
  | refl => exact S
  | tail _ hstep ih => exact ih.step hstep

end Que.Lossless
