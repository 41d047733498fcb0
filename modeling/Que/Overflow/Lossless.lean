import Que.Overflow.Sure
import Que.Lossless.Fifo
import Que.Lossless.Backpressure

/-! # The lossless channel in a build with overflow checks

The system of `Lossless/System.lean` once more, with the code of a build with overflow checks: at a
mark the thread goes on if the result is in range, and panics if it is not.

As long as fewer than `2 ^ w - N - 64` positions are used, the two builds do the same, step by step
(`InStepWith.step`, `InStepWith.back`): all arithmetic is in range, so no mark ever stops a
thread. -/

namespace Que.Lossless

open Lib

variable {V : Type}

/-! ### States and steps -/

structure CheckedState (V : Type) where
  ch : Channel V
  producer : CheckedThread Handle V ProducerStatus (ProducerOp V) (ProducerStatus × List V)
  handle : Handle
  consumer : CheckedThread Consumer V ConsumerStatus (ConsumerOp V) (ConsumerStatus × Option V)
  cursor : Consumer

namespace CheckedState

/-- The state after the producer performed the action `a`. -/
def producerDoes (C : Config) (x : CheckedState V) (a : Act Handle V) (op : ProducerOp V)
    (k : a.Ans → CheckedProc Handle V (ProducerStatus × List V)) : CheckedState V :=
  let r := a.step C.w (x.ch, x.handle)
  { x with ch := r.2.1, handle := r.2.2, producer := .busy op (k r.1) }

/-- The state after the consumer performed the action `a`. -/
def consumerDoes (C : Config) (x : CheckedState V) (a : Act Consumer V) (op : ConsumerOp V)
    (k : a.Ans → CheckedProc Consumer V (ConsumerStatus × Option V)) : CheckedState V :=
  let r := a.step C.w (x.ch, x.cursor)
  { x with ch := r.2.1, cursor := r.2.2, consumer := .busy op (k r.1) }

/-- The state in which the constructor `op` has just been run on the memory `m`; constructors of the
producer have no arithmetic. -/
def initial (C : Config) (op : ProducerOp V) (m : Channel V) : CheckedState V :=
  let r := (op.code C).run C.w m ⟨⟨0, 0, 0⟩, ⟨0, 0, 0, false⟩⟩
  { ch := r.2.1
    producer := .rest r.1.1
    handle := r.2.2
    consumer := .rest .gone
    cursor := ⟨0, 0, 0⟩ }

end CheckedState

/-- One step of the build with overflow checks. -/
inductive CheckedStep (C : Config) : CheckedState V → CheckedState V → Prop
  | producerCall {x : CheckedState V} {st : ProducerStatus} (op : ProducerOp V) :
      x.producer = .rest st → op.enabled st = true →
      CheckedStep C x { x with producer := .busy op (op.checkedCode C) }
  | producerAct {x : CheckedState V} {op : ProducerOp V} {a : Act Handle V}
      {k : a.Ans → CheckedProc Handle V (ProducerStatus × List V)} :
      x.producer = .busy op (.act (.inl a) k) → CheckedStep C x (x.producerDoes C a op k)
  | producerCheck {x : CheckedState V} {op : ProducerOp V} {site : Handle → Site}
      {k : Unit → CheckedProc Handle V (ProducerStatus × List V)} :
      x.producer = .busy op (.act (.inr site) k) → ¬ (site x.handle).Panics C.w →
      CheckedStep C x { x with producer := .busy op (k ()) }
  | producerPanic {x : CheckedState V} {op : ProducerOp V} {site : Handle → Site}
      {k : Unit → CheckedProc Handle V (ProducerStatus × List V)} :
      x.producer = .busy op (.act (.inr site) k) → (site x.handle).Panics C.w →
      CheckedStep C x { x with producer := .panicked }
  | producerReturn {x : CheckedState V} {op : ProducerOp V} {r : ProducerStatus × List V} :
      x.producer = .busy op (.ret r) → CheckedStep C x { x with producer := .rest r.1 }
  | producerStop {x : CheckedState V} : CheckedStep C x { x with producer := .rest .gone }
  | consumerCall {x : CheckedState V} {st : ConsumerStatus} (op : ConsumerOp V) :
      x.consumer = .rest st → op.enabled st = true →
      CheckedStep C x { x with consumer := .busy op (op.checkedCode C st) }
  | consumerAct {x : CheckedState V} {op : ConsumerOp V} {a : Act Consumer V}
      {k : a.Ans → CheckedProc Consumer V (ConsumerStatus × Option V)} :
      x.consumer = .busy op (.act (.inl a) k) → CheckedStep C x (x.consumerDoes C a op k)
  | consumerCheck {x : CheckedState V} {op : ConsumerOp V} {site : Consumer → Site}
      {k : Unit → CheckedProc Consumer V (ConsumerStatus × Option V)} :
      x.consumer = .busy op (.act (.inr site) k) → ¬ (site x.cursor).Panics C.w →
      CheckedStep C x { x with consumer := .busy op (k ()) }
  | consumerPanic {x : CheckedState V} {op : ConsumerOp V} {site : Consumer → Site}
      {k : Unit → CheckedProc Consumer V (ConsumerStatus × Option V)} :
      x.consumer = .busy op (.act (.inr site) k) → (site x.cursor).Panics C.w →
      CheckedStep C x { x with consumer := .panicked }
  | consumerReturn {x : CheckedState V} {op : ConsumerOp V} {r : ConsumerStatus × Option V} :
      x.consumer = .busy op (.ret r) → CheckedStep C x { x with consumer := .rest r.1 }
  | consumerStop {x : CheckedState V} : CheckedStep C x { x with consumer := .rest .gone }

/-! ### The counter range -/

/-- Fewer than `2 ^ w - N - 64` positions are used. -/
structure FewUsed (C : Config) (ch : Channel V) (h : Handle) : Prop where
  shared : ch.tail + C.N + 64 < 2 ^ C.w
  own : h.producer.tail + C.N + 64 < 2 ^ C.w

/-- The runs of the two builds inside the counter range. -/
abbrev CheckedReach (C : Config) : CheckedState V → CheckedState V → Prop :=
  RunIn (CheckedStep C) fun x => FewUsed C x.ch x.handle

abbrev FewReach (C : Config) : State V → State V → Prop :=
  RunIn (Step C) fun s => FewUsed C s.ch s.handle

/-! ### The two builds side by side -/

/-- The two builds have the same memory and structures, and their threads are at the same place. -/
structure SamePlace (x : CheckedState V) (s : State V) : Prop where
  ch : x.ch = s.ch
  handle : x.handle = s.handle
  cursor : x.cursor = s.cursor
  producer : x.producer.Erases s.producer
  consumer : x.consumer.Erases s.consumer

/-- The same, and the arithmetic that is still to come is in range. -/
structure InStepWith (C : Config) (x : CheckedState V) (s : State V) : Prop extends
    SamePlace x s where
  sureProducer : ∀ op code, x.producer = .busy op code →
    Sure C.w (ProducerKnows C op.isJoin) code (fun _ _ => True) x.handle
  sureConsumer : ∀ op code, x.consumer = .busy op code →
    Sure C.w (ConsumerKnows C) code (fun _ _ => True) x.cursor

section sound
variable {C : Config} {s : State V}

/-- A producer between two calls is within its bounds. -/
theorem Sound.bounded (S : Sound C s) (F : FewUsed C s.ch s.handle) {st : ProducerStatus}
    (hp : s.producer = .rest st) (hst : st ≠ .gone) : Bounded C s.handle := by
  have hf := S.producer
  rw [hp] at hf
  have h1 := S.base.head_le
  have hwritten : s.ch.tail + s.handle.producer.written = s.handle.producer.tail := by
    cases st with
    | gone => exact absurd rfl hst
    | ready => exact hf.2
    | reserved => exact hf.2.1
  obtain ⟨-, h2⟩ : TailBound C s.producerView := ProducerRest.tailBound hf hst
  have h3 : s.handle.producer.tail ≤ s.ch.head + C.N := h2
  exact ⟨F.own, by omega⟩

theorem Sound.reserving (S : Sound C s) (F : FewUsed C s.ch s.handle)
    (hp : s.producer = .rest .reserved) : Reserving C s.handle := by
  have B := S.bounded F hp (by simp)
  have hf := S.producer
  rw [hp] at hf
  obtain ⟨own, hcount, hstart⟩ : Open C s.producerView := hf
  have h1 : s.handle.producer.tail + s.handle.reservation.written + 0 ≤
    s.handle.producer.tail + s.handle.reservation.count := own.fill_le
  have h2 : s.handle.producer.tail + s.handle.reservation.count ≤ s.ch.head + C.N := own.room
  have h3 : s.ch.tail + s.handle.producer.written = s.handle.producer.tail := hcount
  have h4 := S.base.head_le
  exact ⟨B, hstart, by omega, by omega⟩

/-- What the producer loads during a call. -/
theorem Sound.producerKnows (S : Sound C s) {start : Handle} {op : ProducerOp V}
    {code : Proc Handle V (ProducerStatus × List V)} (hp : s.producer = .busy start op code)
    (w : Word) : ProducerKnows C op.isJoin w s.handle (s.ch.get w) := by
  rintro rfl hjoin
  have hf := S.producer
  rw [hp] at hf
  have hb := hf.1
  simp only [producerBound, hjoin, Bool.false_eq_true, if_false] at hb
  exact ⟨S.base.head_le.trans hb.1, hb.2⟩

theorem Sound.consumerKnows (S : Sound C s) (w : Word) :
    ConsumerKnows C w s.cursor (s.ch.get w) := by
  rintro rfl
  exact S.base.tail_lt

end sound

/-! ### Steps of both builds -/

namespace InStepWith
variable {C : Config} {x : CheckedState V} {s : State V}

section producer

/-- Replace the threads of the producer. -/
theorem withProducer (I : InStepWith C x s)
    {p : CheckedThread Handle V ProducerStatus (ProducerOp V) (ProducerStatus × List V)}
    {q : ProducerThread V} (h : p.Erases q)
    (hsure : ∀ op code, p = .busy op code →
      Sure C.w (ProducerKnows C op.isJoin) code (fun _ _ => True) x.handle)
    (wrote : ℕ → Option V) :
    InStepWith C { x with producer := p } { s with producer := q, wrote := wrote } :=
  ⟨⟨I.ch, I.handle, I.cursor, h, I.consumer⟩, hsure, I.sureConsumer⟩

theorem producerRest (I : InStepWith C x s) (st : ProducerStatus) (wrote : ℕ → Option V) :
    InStepWith C { x with producer := .rest st } { s with producer := .rest st, wrote := wrote } :=
  I.withProducer (.rest st) (fun _ _ h => by cases h) wrote

/-- A call can be made in both builds. -/
theorem producerCall (I : InStepWith C x s) (S : Sound C s) (F : FewUsed C s.ch s.handle)
    {st : ProducerStatus} {op : ProducerOp V} (hp : s.producer = .rest st)
    (hen : op.enabled st = true) :
    InStepWith C { x with producer := .busy op (op.checkedCode C) }
      { s with producer := .busy s.handle op (op.code C) } := by
  refine I.withProducer (.call (op.checkedCode_erase C) s.handle op) ?_ s.wrote
  rintro _ _ ⟨⟩
  rw [I.handle]
  refine op.checkedCode_sure (fun hjoin => S.bounded F hp ?_) fun hres => S.reserving F ?_
  · rintro rfl
    rw [ProducerOp.isJoin_of_enabled_gone hen] at hjoin
    cases hjoin
  · rw [hp, ProducerOp.reserved_of_onReservation hres hen]

/-- An action has the same effect in both builds. -/
theorem producerAct (I : InStepWith C x s) (S : Sound C s) {start : Handle} {op : ProducerOp V}
    {a : Act Handle V} {k : a.Ans → CheckedProc Handle V (ProducerStatus × List V)}
    (hx : x.producer = .busy op (.act (.inl a) k))
    (hs : s.producer = .busy start op (.act a fun r => (k r).erase)) :
    InStepWith C (x.producerDoes C a op k)
      (s.producerDoes C a fun r => .busy start op (k r).erase) := by
  have hsure := I.sureProducer _ _ hx
  rw [I.handle] at hsure
  have hnext := hsure.act s.ch (S.producerKnows hs) C.w
  refine ⟨⟨?_, ?_, I.cursor, ?_, I.consumer⟩, ?_, I.sureConsumer⟩
  · simp only [CheckedState.producerDoes, State.producerDoes, I.ch, I.handle]
  · simp only [CheckedState.producerDoes, State.producerDoes, I.ch, I.handle]
  · simp only [CheckedState.producerDoes, State.producerDoes, I.ch, I.handle]
    exact .busy start op _
  · rintro _ _ ⟨⟩
    simp only [CheckedState.producerDoes, I.ch, I.handle]
    exact hnext

/-- Passing a mark is not noticed by the build without checks. -/
theorem producerPass (I : InStepWith C x s) {op : ProducerOp V}
    {code code' : CheckedProc Handle V (ProducerStatus × List V)}
    (hx : x.producer = .busy op code) (hp : Passes C.w x.handle code code') :
    InStepWith C { x with producer := .busy op code' } s := by
  obtain ⟨start, hs⟩ := I.producer.of_busy hx
  refine ⟨⟨I.ch, I.handle, I.cursor, ?_, I.consumer⟩, ?_, I.sureConsumer⟩
  · rw [hs, ← hp.erase]
    exact .busy start op code'
  · rintro _ _ ⟨⟩
    exact (I.sureProducer _ _ hx).passes hp

end producer

section consumer

/-- Replace the threads of the consumer. -/
theorem withConsumer (I : InStepWith C x s)
    {p : CheckedThread Consumer V ConsumerStatus (ConsumerOp V) (ConsumerStatus × Option V)}
    {q : ConsumerThread V} (h : p.Erases q)
    (hsure : ∀ op code, p = .busy op code →
      Sure C.w (ConsumerKnows C) code (fun _ _ => True) x.cursor)
    (joinedAt : ℕ) (received : List V) :
    InStepWith C { x with consumer := p }
      { s with consumer := q, joinedAt := joinedAt, received := received } :=
  ⟨⟨I.ch, I.handle, I.cursor, I.producer, h⟩, I.sureProducer, hsure⟩

theorem consumerRest (I : InStepWith C x s) (st : ConsumerStatus) (joinedAt : ℕ)
    (received : List V) :
    InStepWith C { x with consumer := .rest st }
      { s with consumer := .rest st, joinedAt := joinedAt, received := received } :=
  I.withConsumer (.rest st) (fun _ _ h => by cases h) joinedAt received

theorem consumerCall (I : InStepWith C x s) (S : Sound C s) (F : FewUsed C s.ch s.handle)
    {st : ConsumerStatus} {op : ConsumerOp V} (hc : s.consumer = .rest st)
    (hen : op.enabled st = true) :
    InStepWith C { x with consumer := .busy op (op.checkedCode C st) }
      { s with consumer := .busy s.cursor op (op.code C st) } := by
  refine I.withConsumer (.call (op.checkedCode_erase C st) s.cursor op) ?_ s.joinedAt s.received
  rintro _ _ ⟨⟩
  rw [I.cursor]
  refine op.checkedCode_sure st (fun hjoin => ?_) ?_
  · have hst : st ≠ .gone := by
      rintro rfl
      rw [ConsumerOp.isJoin_of_enabled_gone hen] at hjoin
      cases hjoin
    have h1 : s.cursor.itemsSinceLastSync < burstAmount C.N := (S.inStep_of_rest hc hst).items
    have h2 := burstAmount_le C.pos
    have h3 := F.shared
    omega
  · rintro rfl
    have hf := S.consumer
    rw [hc] at hf
    cases st with
    | element i => exact hf.2.2.2.2
    | _ => cases hen

theorem consumerAct (I : InStepWith C x s) (S : Sound C s) {start : Consumer} {op : ConsumerOp V}
    {a : Act Consumer V} {k : a.Ans → CheckedProc Consumer V (ConsumerStatus × Option V)}
    (hx : x.consumer = .busy op (.act (.inl a) k)) :
    InStepWith C (x.consumerDoes C a op k)
      (s.consumerDoes C a fun r => .busy start op (k r).erase) := by
  have hsure := I.sureConsumer _ _ hx
  rw [I.cursor] at hsure
  have hnext := hsure.act s.ch S.consumerKnows C.w
  refine ⟨⟨?_, I.handle, ?_, I.producer, ?_⟩, I.sureProducer, ?_⟩
  · simp only [CheckedState.consumerDoes, State.consumerDoes, I.ch, I.cursor]
  · simp only [CheckedState.consumerDoes, State.consumerDoes, I.ch, I.cursor]
  · simp only [CheckedState.consumerDoes, State.consumerDoes, I.ch, I.cursor]
    exact .busy start op _
  · rintro _ _ ⟨⟩
    simp only [CheckedState.consumerDoes, I.ch, I.cursor]
    exact hnext

theorem consumerPass (I : InStepWith C x s) {op : ConsumerOp V}
    {code code' : CheckedProc Consumer V (ConsumerStatus × Option V)}
    (hx : x.consumer = .busy op code) (hp : Passes C.w x.cursor code code') :
    InStepWith C { x with consumer := .busy op code' } s := by
  obtain ⟨start, hs⟩ := I.consumer.of_busy hx
  refine ⟨⟨I.ch, I.handle, I.cursor, I.producer, ?_⟩, I.sureProducer, ?_⟩
  · rw [hs, ← hp.erase]
    exact .busy start op code'
  · rintro _ _ ⟨⟩
    exact (I.sureConsumer _ _ hx).passes hp

end consumer

/-! ### From the build with checks to the one without -/

/-- **One step with overflow checks** is a step without them, or none. -/
theorem step {y : CheckedState V} (I : InStepWith C x s) (S : Sound C s)
    (F : FewUsed C x.ch x.handle) (h : CheckedStep C x y) :
    ∃ t, (t = s ∨ Step C s t) ∧ InStepWith C y t := by
  rw [I.ch, I.handle] at F
  cases h with
  | producerCall op hx hen =>
      have hp := I.producer.rest_iff.mp hx
      refine ⟨_, .inr (.producerCall op hp hen ?_), I.producerCall S F hp hen⟩
      have h1 := op.demand_le C
      have h2 := F.own
      omega
  | producerAct hx =>
      obtain ⟨start, hs⟩ := I.producer.of_busy hx
      exact ⟨_, .inr (.producerAct hs), I.producerAct S hx hs⟩
  | producerCheck hx hsite => exact ⟨s, .inl rfl, I.producerPass hx ⟨_, _, rfl, hsite, rfl⟩⟩
  | producerPanic hx hsite =>
      exact absurd hsite (Site.not_panics (I.sureProducer _ _ hx).1)
  | producerReturn hx =>
      obtain ⟨start, hs⟩ := I.producer.of_busy hx
      exact ⟨_, .inr (.producerReturn hs), I.producerRest _ _⟩
  | producerStop => exact ⟨_, .inr .producerStop, I.producerRest _ _⟩
  | consumerCall op hx hen =>
      have hc := I.consumer.rest_iff.mp hx
      exact ⟨_, .inr (.consumerCall op hc hen), I.consumerCall S F hc hen⟩
  | consumerAct hx =>
      obtain ⟨start, hs⟩ := I.consumer.of_busy hx
      exact ⟨_, .inr (.consumerAct hs), I.consumerAct S hx⟩
  | consumerCheck hx hsite => exact ⟨s, .inl rfl, I.consumerPass hx ⟨_, _, rfl, hsite, rfl⟩⟩
  | consumerPanic hx hsite =>
      exact absurd hsite (Site.not_panics (I.sureConsumer _ _ hx).1)
  | consumerReturn hx =>
      obtain ⟨start, hs⟩ := I.consumer.of_busy hx
      exact ⟨_, .inr (.consumerReturn hs), I.consumerRest _ _ _⟩
  | consumerStop => exact ⟨_, .inr .consumerStop, I.consumerRest _ _ _⟩

/-! ### From the build without checks to the one with them -/

/-- The build with checks goes on to the next action of the producer. -/
theorem settleProducer (I : InStepWith C x s) (F : FewUsed C x.ch x.handle) {op : ProducerOp V}
    {code code' : CheckedProc Handle V (ProducerStatus × List V)}
    (hx : x.producer = .busy op code) (hs : Settles C.w x.handle code code') :
    CheckedReach C x { x with producer := .busy op code' } ∧
      InStepWith C { x with producer := .busy op code' } s := by
  induction hs with
  | refl =>
      rw [← hx]
      exact ⟨⟨F, .refl⟩, I⟩
  | tail _ hpass ih =>
      refine ⟨⟨F, .tail ih.1.run ⟨?_, F⟩⟩, ih.2.producerPass rfl hpass⟩
      obtain ⟨site, k, rfl, hsite, rfl⟩ := hpass
      exact .producerCheck rfl hsite

theorem settleConsumer (I : InStepWith C x s) (F : FewUsed C x.ch x.handle) {op : ConsumerOp V}
    {code code' : CheckedProc Consumer V (ConsumerStatus × Option V)}
    (hx : x.consumer = .busy op code) (hs : Settles C.w x.cursor code code') :
    CheckedReach C x { x with consumer := .busy op code' } ∧
      InStepWith C { x with consumer := .busy op code' } s := by
  induction hs with
  | refl =>
      rw [← hx]
      exact ⟨⟨F, .refl⟩, I⟩
  | tail _ hpass ih =>
      refine ⟨⟨F, .tail ih.1.run ⟨?_, F⟩⟩, ih.2.consumerPass rfl hpass⟩
      obtain ⟨site, k, rfl, hsite, rfl⟩ := hpass
      exact .consumerCheck rfl hsite

/-- One more step of the build with checks, into the range. -/
theorem andThen {x' y : CheckedState V} {t : State V} (hr : CheckedReach C x x')
    (h : CheckedStep C x' y) (I : InStepWith C y t) (F : FewUsed C t.ch t.handle) :
    ∃ y, CheckedReach C x y ∧ InStepWith C y t := by
  refine ⟨y, ⟨hr.start, .tail hr.run ⟨h, ?_⟩⟩, I⟩
  rw [I.ch, I.handle]
  exact F

/-- **One step without overflow checks** is a step with them, after some marks. -/
theorem back {t : State V} (I : InStepWith C x s) (S : Sound C s) (F : FewUsed C s.ch s.handle)
    (h : Step C s t) (F' : FewUsed C t.ch t.handle) :
    ∃ y, CheckedReach C x y ∧ InStepWith C y t := by
  have Fx : FewUsed C x.ch x.handle := by
    rw [I.ch, I.handle]
    exact F
  cases h with
  | producerCall op hp hen _ =>
      exact andThen ⟨Fx, .refl⟩ (.producerCall op (I.producer.rest_iff.mpr hp) hen)
        (I.producerCall S F hp hen) F'
  | producerAct hp =>
      obtain ⟨code, hx, he⟩ := I.producer.to_busy hp
      obtain ⟨k, hsettle, rfl⟩ := (I.sureProducer _ _ hx).settle_act he
      obtain ⟨hr, I'⟩ := I.settleProducer Fx hx hsettle
      exact andThen hr (.producerAct rfl) (I'.producerAct S rfl hp) F'
  | producerReturn hp =>
      obtain ⟨code, hx, he⟩ := I.producer.to_busy hp
      obtain ⟨hr, I'⟩ := I.settleProducer Fx hx ((I.sureProducer _ _ hx).settle_ret he)
      exact andThen hr (.producerReturn rfl) (I'.producerRest _ _) F'
  | producerStop => exact andThen ⟨Fx, .refl⟩ .producerStop (I.producerRest _ _) F'
  | consumerCall op hc hen =>
      exact andThen ⟨Fx, .refl⟩ (.consumerCall op (I.consumer.rest_iff.mpr hc) hen)
        (I.consumerCall S F hc hen) F'
  | consumerAct hc =>
      obtain ⟨code, hx, he⟩ := I.consumer.to_busy hc
      obtain ⟨k, hsettle, rfl⟩ := (I.sureConsumer _ _ hx).settle_act he
      obtain ⟨hr, I'⟩ := I.settleConsumer Fx hx hsettle
      exact andThen hr (.consumerAct rfl) (I'.consumerAct S rfl) F'
  | consumerReturn hc =>
      obtain ⟨code, hx, he⟩ := I.consumer.to_busy hc
      obtain ⟨hr, I'⟩ := I.settleConsumer Fx hx ((I.sureConsumer _ _ hx).settle_ret he)
      exact andThen hr (.consumerReturn rfl) (I'.consumerRest _ _ _) F'
  | consumerStop => exact andThen ⟨Fx, .refl⟩ .consumerStop (I.consumerRest _ _ _) F'

end InStepWith

/-! ### Runs -/

section runs
variable {C : Config} {x₀ x : CheckedState V} {s₀ s : State V}

theorem FewReach.sound (S : Sound C s₀) (h : FewReach C s₀ s) : Sound C s :=
  h.induct S fun _ _ _ hstep _ ih => ih.step hstep

/-- **Every run with overflow checks is one without.** -/
theorem InStepWith.run (I : InStepWith C x₀ s₀) (S : Sound C s₀) (h : CheckedReach C x₀ x) :
    ∃ s, FewReach C s₀ s ∧ InStepWith C x s := by
  have hstart : FewUsed C s₀.ch s₀.handle := by
    rw [← I.ch, ← I.handle]
    exact h.start
  refine h.induct (motive := fun y => ∃ s, FewReach C s₀ s ∧ InStepWith C y s)
    ⟨s₀, .refl hstart, I⟩ fun a b ha hstep hb ih => ?_
  obtain ⟨s, hs, Ia⟩ := ih
  obtain ⟨t, ht, Ib⟩ := Ia.step (FewReach.sound S hs) ha.last hstep
  refine ⟨t, ?_, Ib⟩
  rcases ht with rfl | ht
  · exact hs
  · apply hs.tail ht
    rw [← Ib.ch, ← Ib.handle]
    exact hb

/-- **Every run without overflow checks is one with them.** -/
theorem InStepWith.runBack (I : InStepWith C x₀ s₀) (S : Sound C s₀) (h : FewReach C s₀ s) :
    ∃ x, CheckedReach C x₀ x ∧ InStepWith C x s := by
  have hstart : FewUsed C x₀.ch x₀.handle := by
    rw [I.ch, I.handle]
    exact h.start
  refine h.induct (motive := fun t => ∃ x, CheckedReach C x₀ x ∧ InStepWith C x t)
    ⟨x₀, .refl hstart, I⟩ fun a b ha hstep hb ih => ?_
  obtain ⟨x, hx, Ia⟩ := ih
  obtain ⟨y, hy, Ib⟩ := Ia.back (FewReach.sound S ha) ha.last hstep hb
  exact ⟨y, hx.trans hy, Ib⟩

end runs

/-! ### What the build with checks does -/

/-- The arithmetic that is next is in range, no thread has panicked, and `remaining` of an open
reservation can be computed. -/
structure CheckedState.Fine (C : Config) (x : CheckedState V) : Prop where
  producer : ∀ op site k, x.producer = .busy op (.act (.inr site) k) →
    (site x.handle).arith.InRange C.w
  consumer : ∀ op site k, x.consumer = .busy op (.act (.inr site) k) →
    (site x.cursor).arith.InRange C.w
  producer_goes_on : x.producer ≠ .panicked
  consumer_goes_on : x.consumer ≠ .panicked
  remaining : x.producer = .rest .reserved →
    (Arith.sub x.handle.reservation.count x.handle.reservation.written).InRange C.w

theorem InStepWith.fine {C : Config} {x : CheckedState V} {s : State V} (I : InStepWith C x s)
    (S : Sound C s) (F : FewUsed C s.ch s.handle) : x.Fine C := by
  refine ⟨fun op site k hx => (I.sureProducer _ _ hx).1, fun op site k hx =>
    (I.sureConsumer _ _ hx).1, fun hx => ?_, fun hx => ?_, fun hx => ?_⟩
  · have h := I.producer
    rw [hx] at h
    cases h
  · have h := I.consumer
    rw [hx] at h
    cases h
  · have R := S.reserving F (I.producer.rest_iff.mp hx)
    have h1 := R.count
    have h2 := C.fits
    rw [I.handle]
    exact .sub R.filled (by omega)

/-- Inside the counter range, all arithmetic of the build with overflow checks is in range, and the
two builds have the same runs. -/
structure BuildsAgree (C : Config) (op : ProducerOp V) (z : V) : Prop where
  fine : ∀ x, CheckedReach C (.initial C op (.zeroed z)) x → x.Fine C
  withoutChecks : ∀ x, CheckedReach C (.initial C op (.zeroed z)) x →
    ∃ s, FewReach C (State.initial C op (.zeroed z)) s ∧ SamePlace x s
  withChecks : ∀ s, FewReach C (State.initial C op (.zeroed z)) s →
    ∃ x, CheckedReach C (.initial C op (.zeroed z)) x ∧ SamePlace x s

theorem buildsAgree (C : Config) {op : ProducerOp V} (hop : op.initialises = true) (z : V) :
    BuildsAgree C op z := by
  have S : Sound C (State.initial C op (.zeroed z)) := initial_sound hop rfl rfl
  have I : InStepWith C (.initial C op (.zeroed z)) (State.initial C op (.zeroed z)) :=
    ⟨⟨rfl, rfl, rfl, .rest _, .rest _⟩, fun _ _ h => (by cases h), fun _ _ h => (by cases h)⟩
  refine ⟨fun x hx => ?_, fun x hx => ?_, fun s hs => ?_⟩
  · obtain ⟨s, hs, Ix⟩ := I.run S hx
    exact Ix.fine (FewReach.sound S hs) hs.last
  · obtain ⟨s, hs, Ix⟩ := I.run S hx
    exact ⟨s, hs, Ix.toSamePlace⟩
  · obtain ⟨x, hx, Ix⟩ := I.runBack S hs
    exact ⟨x, hx, Ix.toSamePlace⟩

end Que.Lossless
