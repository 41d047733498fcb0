import Que.Overflow.Lossless
import Que.Headless.Invariant

/-! # The headless channel in a build with overflow checks

The system of `Headless/System.lean` with the code of a build with overflow checks, as in
`Overflow/Lossless.lean`.  The consumers' wrapping methods do not panic in either build; inside the
counter range they do not wrap. -/

namespace Que.Headless

open Lib

variable {W : Type} {K : ℕ}

/-! ### States and steps -/

abbrev CheckedProducer (W : Type) (K : ℕ) :=
  CheckedThread Producer W ProducerStatus (ProducerOp W K) ProducerStatus

abbrev CheckedConsumer (W : Type) (K : ℕ) :=
  CheckedThread Consumer W ConsumerStatus ConsumerOp (ConsumerResult W K)

structure CheckedState (W : Type) (K : ℕ) where
  ch : Channel W
  producer : CheckedProducer W K
  own : Producer
  consumer : ℕ → CheckedConsumer W K
  cursor : ℕ → Consumer

namespace CheckedState

/-- The state after the producer performed the action `a`. -/
def producerDoes (P : Params) (x : CheckedState W K) (a : Act Producer W) (op : ProducerOp W K)
    (k : a.Ans → CheckedProc Producer W ProducerStatus) : CheckedState W K :=
  let r := a.step P.w (x.ch, x.own)
  { x with ch := r.2.1, own := r.2.2, producer := .busy op (k r.1) }

/-- The state after consumer `i` performed the action `a`. -/
def consumerDoes (P : Params) (x : CheckedState W K) (i : ℕ) (a : Act Consumer W) (op : ConsumerOp)
    (k : a.Ans → CheckedProc Consumer W (ConsumerResult W K)) : CheckedState W K :=
  let r := a.step P.w (x.ch, x.cursor i)
  { x with
    ch := r.2.1
    cursor := Function.update x.cursor i r.2.2
    consumer := Function.update x.consumer i (.busy op (k r.1)) }

/-- The state in which the thread of consumer `i` is replaced. -/
def setConsumer (x : CheckedState W K) (i : ℕ) (thread : CheckedConsumer W K) : CheckedState W K :=
  { x with consumer := Function.update x.consumer i thread }

theorem setConsumer_consumer (x : CheckedState W K) (i : ℕ) (p : CheckedConsumer W K) :
    (x.setConsumer i p).consumer i = p := Function.update_self _ _ _

/-- The state in which the constructor `op` has just been run on the memory `m`; constructors of the
producer have no arithmetic. -/
def initial (P : Params) (op : ProducerOp W K) (m : Channel W) : CheckedState W K :=
  let r := (op.code P).run P.w m ⟨0, 0, 0⟩
  { ch := r.2.1
    producer := .rest r.1
    own := r.2.2
    consumer := fun _ => .rest .gone
    cursor := fun _ => ⟨0, 0, 0, 0⟩ }

end CheckedState

/-- One step of the build with overflow checks. -/
inductive CheckedStep (P : Params) : CheckedState W K → CheckedState W K → Prop
  | producerCall {x : CheckedState W K} {st : ProducerStatus} (op : ProducerOp W K) :
      x.producer = .rest st → op.enabled st = true →
      CheckedStep P x { x with producer := .busy op (op.checkedCode P) }
  | producerAct {x : CheckedState W K} {op : ProducerOp W K} {a : Act Producer W}
      {k : a.Ans → CheckedProc Producer W ProducerStatus} :
      x.producer = .busy op (.act (.inl a) k) → CheckedStep P x (x.producerDoes P a op k)
  | producerCheck {x : CheckedState W K} {op : ProducerOp W K} {site : Producer → Site}
      {k : Unit → CheckedProc Producer W ProducerStatus} :
      x.producer = .busy op (.act (.inr site) k) → ¬ (site x.own).Panics P.w →
      CheckedStep P x { x with producer := .busy op (k ()) }
  | producerPanic {x : CheckedState W K} {op : ProducerOp W K} {site : Producer → Site}
      {k : Unit → CheckedProc Producer W ProducerStatus} :
      x.producer = .busy op (.act (.inr site) k) → (site x.own).Panics P.w →
      CheckedStep P x { x with producer := .panicked }
  | producerReturn {x : CheckedState W K} {op : ProducerOp W K} {st : ProducerStatus} :
      x.producer = .busy op (.ret st) → CheckedStep P x { x with producer := .rest st }
  | producerStop {x : CheckedState W K} : CheckedStep P x { x with producer := .rest .gone }
  | consumerCall {x : CheckedState W K} {st : ConsumerStatus} (i : ℕ) (op : ConsumerOp) :
      x.consumer i = .rest st → op.enabled st = true →
      CheckedStep P x (x.setConsumer i (.busy op (op.checkedCode P)))
  | consumerAct {x : CheckedState W K} {i : ℕ} {op : ConsumerOp} {a : Act Consumer W}
      {k : a.Ans → CheckedProc Consumer W (ConsumerResult W K)} :
      x.consumer i = .busy op (.act (.inl a) k) → CheckedStep P x (x.consumerDoes P i a op k)
  | consumerCheck {x : CheckedState W K} {i : ℕ} {op : ConsumerOp} {site : Consumer → Site}
      {k : Unit → CheckedProc Consumer W (ConsumerResult W K)} :
      x.consumer i = .busy op (.act (.inr site) k) → ¬ (site (x.cursor i)).Panics P.w →
      CheckedStep P x (x.setConsumer i (.busy op (k ())))
  | consumerPanic {x : CheckedState W K} {i : ℕ} {op : ConsumerOp} {site : Consumer → Site}
      {k : Unit → CheckedProc Consumer W (ConsumerResult W K)} :
      x.consumer i = .busy op (.act (.inr site) k) → (site (x.cursor i)).Panics P.w →
      CheckedStep P x (x.setConsumer i .panicked)
  | consumerAgain {x : CheckedState W K} {i : ℕ} {op : ConsumerOp} :
      x.consumer i = .busy op (.ret .again) →
      CheckedStep P x (x.setConsumer i (.busy op (op.checkedCode P)))
  | consumerReturn {x : CheckedState W K} {i : ℕ} {op : ConsumerOp} {st : ConsumerStatus}
      {value : Option (Vector W K)} :
      x.consumer i = .busy op (.ret (.done (st, value))) →
      CheckedStep P x (x.setConsumer i (.rest st))
  | consumerStop {x : CheckedState W K} (i : ℕ) :
      CheckedStep P x (x.setConsumer i (.rest .gone))

/-! ### The counter range -/

/-- Fewer than `2 ^ w - N - 64` positions are used. -/
structure FewUsed (P : Params) (ch : Channel W) (p : Producer) : Prop where
  shared : ch.tail + P.N + 64 < 2 ^ P.w
  own : p.tail + P.N + 64 < 2 ^ P.w

/-- The runs of the two builds inside the counter range. -/
abbrev CheckedReach (P : Params) : CheckedState W K → CheckedState W K → Prop :=
  RunIn (CheckedStep P) fun x => FewUsed P x.ch x.own

abbrev FewReach (P : Params) : State W K → State W K → Prop :=
  RunIn (Step P) fun s => FewUsed P s.ch s.own

/-! ### The two builds side by side -/

/-- The two builds have the same memory and structures, and their threads are at the same place. -/
structure SamePlace (x : CheckedState W K) (s : State W K) : Prop where
  ch : x.ch = s.ch
  own : x.own = s.own
  cursor : x.cursor = s.cursor
  producer : x.producer.Erases s.producer
  consumer : ∀ i, (x.consumer i).Erases (s.consumer i)

/-- The arithmetic that a consumer still has to do is in range. -/
def ConsumerSure (P : Params) : CheckedConsumer W K → Consumer → Prop
  | .rest st, c => st = .ready → c.WellFormed
  | .busy _ code, c => Sure P.w (ConsumerKnows P) code Keeps c
  | .panicked, _ => False

/-- The same place, and the arithmetic that is still to come is in range. -/
structure InStepWith (P : Params) (x : CheckedState W K) (s : State W K) : Prop extends
    SamePlace x s where
  sureProducer : ∀ op code, x.producer = .busy op code →
    Sure P.w (fun _ _ _ => True) code (fun _ _ => True) x.own
  sureConsumer : ∀ i, ConsumerSure P (x.consumer i) (x.cursor i)

/-! ### Steps of both builds -/

namespace InStepWith
variable {P : Params} {x : CheckedState W K} {s : State W K}

section producer

theorem producerRest (I : InStepWith P x s) (st : ProducerStatus)
    (wrote : ℕ → Option (Vector W K)) :
    InStepWith P { x with producer := .rest st } { s with producer := .rest st, wrote := wrote } :=
  ⟨⟨I.ch, I.own, I.cursor, .rest st, I.consumer⟩, fun _ _ h => (by cases h), I.sureConsumer⟩

/-- A call can be made in both builds. -/
theorem producerCall (I : InStepWith P x s) (V : Invariant P 0 s) (F : FewUsed P s.ch s.own)
    {st : ProducerStatus} {op : ProducerOp W K} (hp : s.producer = .rest st)
    (hen : op.enabled st = true) :
    InStepWith P { x with producer := .busy op (op.checkedCode P) }
      { s with producer := .busy s.own op (op.code P) } := by
  refine ⟨⟨I.ch, I.own, I.cursor, .call (op.checkedCode_erase P) s.own op, I.consumer⟩, ?_,
    I.sureConsumer⟩
  rintro _ _ ⟨⟩
  have h1 := F.own
  rw [I.own]
  apply op.checkedCode_sure (by omega)
  intro hjoin
  have hf := V.producer
  rw [hp] at hf
  cases st with
  | gone =>
      rw [show op.isJoin = true from hen] at hjoin
      cases hjoin
  | ready =>
      have h2 : s.ch.tail + s.own.written = s.own.tail := hf.2
      omega

/-- An action has the same effect in both builds. -/
theorem producerAct (I : InStepWith P x s) {start : Producer} {op : ProducerOp W K}
    {a : Act Producer W} {k : a.Ans → CheckedProc Producer W ProducerStatus}
    (hx : x.producer = .busy op (.act (.inl a) k)) :
    InStepWith P (x.producerDoes P a op k)
      (s.producerDoes P a fun r => .busy start op (k r).erase) := by
  have hsure := I.sureProducer _ _ hx
  rw [I.own] at hsure
  have hnext := hsure.act s.ch (fun _ => trivial) P.w
  refine ⟨⟨?_, ?_, I.cursor, ?_, I.consumer⟩, ?_, I.sureConsumer⟩
  · simp only [CheckedState.producerDoes, State.producerDoes, I.ch, I.own]
  · simp only [CheckedState.producerDoes, State.producerDoes, I.ch, I.own]
  · simp only [CheckedState.producerDoes, State.producerDoes, I.ch, I.own]
    exact .busy start op _
  · rintro _ _ ⟨⟩
    simp only [CheckedState.producerDoes, I.ch, I.own]
    exact hnext

/-- Passing a mark is not noticed by the build without checks. -/
theorem producerPass (I : InStepWith P x s) {op : ProducerOp W K}
    {code code' : CheckedProc Producer W ProducerStatus}
    (hx : x.producer = .busy op code) (hp : Passes P.w x.own code code') :
    InStepWith P { x with producer := .busy op code' } s := by
  obtain ⟨start, hs⟩ := I.producer.of_busy hx
  refine ⟨⟨I.ch, I.own, I.cursor, ?_, I.consumer⟩, ?_, I.sureConsumer⟩
  · rw [hs, ← hp.erase]
    exact .busy start op code'
  · rintro _ _ ⟨⟩
    exact (I.sureProducer _ _ hx).passes hp

end producer

section consumer
variable {i : ℕ}

theorem sure_busy (I : InStepWith P x s) {op : ConsumerOp}
    {code : CheckedProc Consumer W (ConsumerResult W K)} (hx : x.consumer i = .busy op code) :
    Sure P.w (ConsumerKnows P) code Keeps (s.cursor i) := by
  have hsure := I.sureConsumer i
  rw [hx, I.cursor] at hsure
  exact hsure

/-- Replace the threads of consumer `i`; the history does not matter. -/
theorem withConsumer (I : InStepWith P x s) (i : ℕ) {p : CheckedConsumer W K}
    {q : ConsumerThread W K} (h : p.Erases q) (hsure : ConsumerSure P p (s.cursor i))
    (trace : ℕ → Trace W K) (all : List ℕ) :
    InStepWith P (x.setConsumer i p)
      { s with consumer := Function.update s.consumer i q, trace := trace, all := all } := by
  rw [← I.cursor] at hsure
  refine ⟨⟨I.ch, I.own, I.cursor, I.producer, fun j => ?_⟩, I.sureProducer, fun j => ?_⟩
  · by_cases hj : j = i
    · subst hj
      simpa only [CheckedState.setConsumer, Function.update_self] using h
    · simpa only [CheckedState.setConsumer, Function.update_of_ne hj] using I.consumer j
  · by_cases hj : j = i
    · subst hj
      simpa only [CheckedState.setConsumer, Function.update_self] using hsure
    · simpa only [CheckedState.setConsumer, Function.update_of_ne hj] using I.sureConsumer j

/-- A round of a call can begin in both builds. -/
theorem consumerCode (I : InStepWith P x s) (i : ℕ) {op : ConsumerOp}
    (F : op.isJoin = false → (s.cursor i).WellFormed) :
    InStepWith P (x.setConsumer i (.busy op (op.checkedCode P)))
      { s with consumer := Function.update s.consumer i (.busy (s.cursor i) op (op.code P)) } := by
  exact I.withConsumer i (.call (op.checkedCode_erase P) (s.cursor i) op) (op.checkedCode_sure F)
    s.trace s.all

theorem consumerAct (I : InStepWith P x s) (F : FewUsed P s.ch s.own) {start : Consumer}
    {op : ConsumerOp} {a : Act Consumer W}
    {k : a.Ans → CheckedProc Consumer W (ConsumerResult W K)}
    (hx : x.consumer i = .busy op (.act (.inl a) k)) :
    InStepWith P (x.consumerDoes P i a op k)
      (s.consumerDoes P i op a fun r => .busy start op (k r).erase) := by
  have hnext := (I.sure_busy hx).act s.ch (fun w hw => by subst hw; exact F.shared) P.w
  refine ⟨⟨?_, I.own, ?_, I.producer, fun j => ?_⟩, I.sureProducer, fun j => ?_⟩
  · simp only [CheckedState.consumerDoes, State.consumerDoes, I.ch, I.cursor]
  · simp only [CheckedState.consumerDoes, State.consumerDoes, I.ch, I.cursor]
  · by_cases hj : j = i
    · subst hj
      simp only [CheckedState.consumerDoes, State.consumerDoes, I.ch, I.cursor,
        Function.update_self]
      exact .busy start op _
    · simpa only [CheckedState.consumerDoes, State.consumerDoes, Function.update_of_ne hj]
        using I.consumer j
  · by_cases hj : j = i
    · subst hj
      simp only [CheckedState.consumerDoes, I.ch, I.cursor, Function.update_self]
      exact hnext
    · simpa only [CheckedState.consumerDoes, Function.update_of_ne hj] using I.sureConsumer j

theorem consumerPass (I : InStepWith P x s) {op : ConsumerOp}
    {code code' : CheckedProc Consumer W (ConsumerResult W K)}
    (hx : x.consumer i = .busy op code) (hp : Passes P.w (x.cursor i) code code') :
    InStepWith P (x.setConsumer i (.busy op code')) s := by
  have hsure := I.sure_busy hx
  obtain ⟨start, hs⟩ := (I.consumer i).of_busy hx
  have herase : CheckedThread.Erases (.busy op code') (s.consumer i) := by
    rw [hs, ← hp.erase]
    exact .busy start op code'
  rw [I.cursor] at hp
  have := I.withConsumer i herase (hsure.passes hp) s.trace s.all
  rwa [Function.update_eq_self] at this

theorem consumerCall (I : InStepWith P x s) {st : ConsumerStatus} {op : ConsumerOp}
    (hc : s.consumer i = .rest st) (hen : op.enabled st = true) :
    InStepWith P (x.setConsumer i (.busy op (op.checkedCode P)))
      { s with consumer := Function.update s.consumer i (.busy (s.cursor i) op (op.code P)) } := by
  apply I.consumerCode i
  intro hjoin
  have hsure := I.sureConsumer i
  rw [(I.consumer i).rest_iff.mpr hc, I.cursor] at hsure
  cases st with
  | gone =>
      rw [show op.isJoin = true from hen] at hjoin
      cases hjoin
  | ready => exact hsure rfl

theorem consumerAgain (I : InStepWith P x s) {op : ConsumerOp}
    (hx : x.consumer i = .busy op (.ret .again)) :
    InStepWith P (x.setConsumer i (.busy op (op.checkedCode P)))
      { s with consumer := Function.update s.consumer i (.busy (s.cursor i) op (op.code P)) } :=
  I.consumerCode i fun _ => (I.sure_busy hx)

theorem consumerReturn (I : InStepWith P x s) {op : ConsumerOp} {st : ConsumerStatus}
    {value : Option (Vector W K)} (hx : x.consumer i = .busy op (.ret (.done (st, value))))
    (start : Consumer) :
    InStepWith P (x.setConsumer i (.rest st)) (s.consumerGets i start st value) := by
  refine I.withConsumer i (.rest st) (fun hst => ?_) _ _
  subst hst
  exact (I.sure_busy hx)

theorem consumerStop (I : InStepWith P x s) (i : ℕ) :
    InStepWith P (x.setConsumer i (.rest .gone))
      { s with consumer := Function.update s.consumer i (.rest .gone) } :=
  I.withConsumer i (.rest _) (fun h => (by cases h)) s.trace s.all

end consumer

/-! ### From the build with checks to the one without -/

/-- **One step with overflow checks** is a step without them, or none. -/
theorem step {y : CheckedState W K} (hlimit : P.limit = 2 ^ P.w) (I : InStepWith P x s)
    (V : Invariant P 0 s) (F : FewUsed P x.ch x.own) (h : CheckedStep P x y) :
    ∃ t, (t = s ∨ Step P s t) ∧ InStepWith P y t := by
  rw [I.ch, I.own] at F
  cases h with
  | producerCall op hx hen =>
      have hp := I.producer.rest_iff.mp hx
      refine ⟨_, .inr (.producerCall op hp hen ?_), I.producerCall V F hp hen⟩
      have h1 := F.own
      have h2 : op.values.length ≤ 1 := by cases op <;> simp [ProducerOp.values]
      omega
  | producerAct hx =>
      obtain ⟨start, hs⟩ := I.producer.of_busy hx
      exact ⟨_, .inr (.producerAct hs), I.producerAct hx⟩
  | producerCheck hx hsite => exact ⟨s, .inl rfl, I.producerPass hx ⟨_, _, rfl, hsite, rfl⟩⟩
  | producerPanic hx hsite =>
      exact absurd hsite (Site.not_panics (I.sureProducer _ _ hx).1)
  | producerReturn hx =>
      obtain ⟨start, hs⟩ := I.producer.of_busy hx
      exact ⟨_, .inr (.producerReturn hs), I.producerRest _ _⟩
  | producerStop => exact ⟨_, .inr .producerStop, I.producerRest _ _⟩
  | consumerCall i op hx hen =>
      have hc := (I.consumer i).rest_iff.mp hx
      exact ⟨_, .inr (.consumerCall i op hc hen), I.consumerCall hc hen⟩
  | consumerAct hx =>
      obtain ⟨start, hs⟩ := (I.consumer _).of_busy hx
      exact ⟨_, .inr (.consumerAct hs), I.consumerAct F hx⟩
  | consumerCheck hx hsite => exact ⟨s, .inl rfl, I.consumerPass hx ⟨_, _, rfl, hsite, rfl⟩⟩
  | consumerPanic hx hsite =>
      rw [I.cursor] at hsite
      exact absurd hsite (Site.not_panics (I.sure_busy hx).1)
  | consumerAgain hx =>
      obtain ⟨start, hs⟩ := (I.consumer _).of_busy hx
      exact ⟨_, .inr (.consumerAgain hs), I.consumerAgain hx⟩
  | consumerReturn hx =>
      obtain ⟨start, hs⟩ := (I.consumer _).of_busy hx
      exact ⟨_, .inr (.consumerReturn hs), I.consumerReturn hx start⟩
  | consumerStop i => exact ⟨_, .inr (.consumerStop i), I.consumerStop i⟩

/-! ### From the build without checks to the one with them -/

/-- The build with checks goes on to the next action of the producer. -/
theorem settleProducer (I : InStepWith P x s) (F : FewUsed P x.ch x.own) {op : ProducerOp W K}
    {code code' : CheckedProc Producer W ProducerStatus}
    (hx : x.producer = .busy op code) (hs : Settles P.w x.own code code') :
    CheckedReach P x { x with producer := .busy op code' } ∧
      InStepWith P { x with producer := .busy op code' } s := by
  induction hs with
  | refl =>
      rw [← hx]
      exact ⟨.refl F, I⟩
  | tail _ hpass ih =>
      refine ⟨ih.1.tail ?_ F, ih.2.producerPass rfl hpass⟩
      obtain ⟨site, k, rfl, hsite, rfl⟩ := hpass
      exact .producerCheck rfl hsite

theorem settleConsumer (I : InStepWith P x s) (F : FewUsed P x.ch x.own) {i : ℕ} {op : ConsumerOp}
    {code code' : CheckedProc Consumer W (ConsumerResult W K)}
    (hx : x.consumer i = .busy op code) (hs : Settles P.w (s.cursor i) code code') :
    ∃ x', CheckedReach P x x' ∧ InStepWith P x' s ∧ x'.consumer i = .busy op code' := by
  induction hs with
  | refl => exact ⟨x, .refl F, I, hx⟩
  | @tail _ c _ hpass ih =>
      obtain ⟨x', hr, I', hx'⟩ := ih
      rw [← I'.cursor] at hpass
      have F' : FewUsed P (x'.setConsumer i (.busy op c)).ch (x'.setConsumer i (.busy op c)).own :=
        hr.last
      refine ⟨_, hr.tail ?_ F', I'.consumerPass hx' hpass, x'.setConsumer_consumer _ _⟩
      obtain ⟨site, k, rfl, hsite, rfl⟩ := hpass
      exact .consumerCheck hx' hsite

/-- One more step of the build with checks, into the range. -/
theorem andThen {x' y : CheckedState W K} {t : State W K} (hr : CheckedReach P x x')
    (h : CheckedStep P x' y) (I : InStepWith P y t) (F : FewUsed P t.ch t.own) :
    ∃ y, CheckedReach P x y ∧ InStepWith P y t := by
  refine ⟨y, hr.tail h ?_, I⟩
  rw [I.ch, I.own]
  exact F

/-- **One step without overflow checks** is a step with them, after some marks. -/
theorem back {t : State W K} (I : InStepWith P x s) (V : Invariant P 0 s)
    (F : FewUsed P s.ch s.own) (h : Step P s t) (F' : FewUsed P t.ch t.own) :
    ∃ y, CheckedReach P x y ∧ InStepWith P y t := by
  have Fx : FewUsed P x.ch x.own := by
    rw [I.ch, I.own]
    exact F
  cases h with
  | producerCall op hp hen _ =>
      exact andThen (.refl Fx) (.producerCall op (I.producer.rest_iff.mpr hp) hen)
        (I.producerCall V F hp hen) F'
  | producerAct hp =>
      obtain ⟨code, hx, he⟩ := I.producer.to_busy hp
      obtain ⟨k, hsettle, rfl⟩ := (I.sureProducer _ _ hx).settle_act he
      obtain ⟨hr, I'⟩ := I.settleProducer Fx hx hsettle
      exact andThen hr (.producerAct rfl) (I'.producerAct rfl) F'
  | producerReturn hp =>
      obtain ⟨code, hx, he⟩ := I.producer.to_busy hp
      obtain ⟨hr, I'⟩ := I.settleProducer Fx hx ((I.sureProducer _ _ hx).settle_ret he)
      exact andThen hr (.producerReturn rfl) (I'.producerRest _ _) F'
  | producerStop => exact andThen (.refl Fx) .producerStop (I.producerRest _ _) F'
  | consumerCall i op hc hen =>
      exact andThen (.refl Fx) (.consumerCall i op ((I.consumer i).rest_iff.mpr hc) hen)
        (I.consumerCall hc hen) F'
  | consumerAct hc =>
      obtain ⟨code, hx, he⟩ := (I.consumer _).to_busy hc
      obtain ⟨k, hsettle, rfl⟩ := (I.sure_busy hx).settle_act he
      obtain ⟨x', hr, I', hx'⟩ := I.settleConsumer Fx hx hsettle
      exact andThen hr (.consumerAct hx') (I'.consumerAct F hx') F'
  | consumerAgain hc =>
      obtain ⟨code, hx, he⟩ := (I.consumer _).to_busy hc
      obtain ⟨x', hr, I', hx'⟩ := I.settleConsumer Fx hx ((I.sure_busy hx).settle_ret he)
      exact andThen hr (.consumerAgain hx') (I'.consumerAgain hx') F'
  | consumerReturn hc =>
      obtain ⟨code, hx, he⟩ := (I.consumer _).to_busy hc
      obtain ⟨x', hr, I', hx'⟩ := I.settleConsumer Fx hx ((I.sure_busy hx).settle_ret he)
      exact andThen hr (.consumerReturn hx') (I'.consumerReturn hx' _) F'
  | consumerStop i => exact andThen (.refl Fx) (.consumerStop i) (I.consumerStop i) F'

end InStepWith

/-! ### Runs -/

section runs
variable {P : Params} {x₀ x : CheckedState W K} {s₀ s : State W K}

theorem FewReach.invariant (V : Invariant P 0 s₀) (h : FewReach P s₀ s) : Invariant P 0 s :=
  h.induct V fun _ _ _ hstep _ ih => ih.step hstep

/-- **Every run with overflow checks is one without.** -/
theorem InStepWith.run (hlimit : P.limit = 2 ^ P.w) (I : InStepWith P x₀ s₀) (V : Invariant P 0 s₀)
    (h : CheckedReach P x₀ x) : ∃ s, FewReach P s₀ s ∧ InStepWith P x s := by
  have hstart : FewUsed P s₀.ch s₀.own := by
    rw [← I.ch, ← I.own]
    exact h.start
  refine h.induct (motive := fun y => ∃ s, FewReach P s₀ s ∧ InStepWith P y s)
    ⟨s₀, .refl hstart, I⟩ fun a b ha hstep hb ih => ?_
  obtain ⟨s, hs, Ia⟩ := ih
  obtain ⟨t, ht, Ib⟩ := Ia.step hlimit (FewReach.invariant V hs) ha.last hstep
  refine ⟨t, ?_, Ib⟩
  rcases ht with rfl | ht
  · exact hs
  · apply hs.tail ht
    rw [← Ib.ch, ← Ib.own]
    exact hb

/-- **Every run without overflow checks is one with them.** -/
theorem InStepWith.runBack (I : InStepWith P x₀ s₀) (V : Invariant P 0 s₀) (h : FewReach P s₀ s) :
    ∃ x, CheckedReach P x₀ x ∧ InStepWith P x s := by
  have hstart : FewUsed P x₀.ch x₀.own := by
    rw [I.ch, I.own]
    exact h.start
  refine h.induct (motive := fun t => ∃ x, CheckedReach P x₀ x ∧ InStepWith P x t)
    ⟨x₀, .refl hstart, I⟩ fun a b ha hstep hb ih => ?_
  obtain ⟨x, hx, Ia⟩ := ih
  obtain ⟨y, hy, Ib⟩ := Ia.back (FewReach.invariant V ha) ha.last hstep hb
  exact ⟨y, hx.trans hy, Ib⟩

end runs

/-! ### What the build with checks does -/

/-- The arithmetic that is next is in range, wrapping methods included, and no thread has
panicked. -/
structure CheckedState.Fine (P : Params) (x : CheckedState W K) : Prop where
  producer : ∀ op site k, x.producer = .busy op (.act (.inr site) k) →
    (site x.own).arith.InRange P.w
  consumer : ∀ i op site k, x.consumer i = .busy op (.act (.inr site) k) →
    (site (x.cursor i)).arith.InRange P.w
  producer_goes_on : x.producer ≠ .panicked
  consumer_goes_on : ∀ i, x.consumer i ≠ .panicked

theorem InStepWith.fine {P : Params} {x : CheckedState W K} {s : State W K}
    (I : InStepWith P x s) : x.Fine P := by
  refine ⟨fun op site k hx => (I.sureProducer _ _ hx).1, fun i op site k hx => ?_, fun hx => ?_,
    fun i hx => ?_⟩
  · rw [I.cursor]
    exact (I.sure_busy hx).1
  · have h := I.producer
    rw [hx] at h
    cases h
  · have h := I.consumer i
    rw [hx] at h
    cases h

/-- Inside the counter range, all arithmetic of the build with overflow checks is in range, and the
two builds have the same runs. -/
structure BuildsAgree (P : Params) (op : ProducerOp W K) (z : W) : Prop where
  fine : ∀ x, CheckedReach P (.initial P op (.zeroed z)) x → x.Fine P
  withoutChecks : ∀ x, CheckedReach P (.initial P op (.zeroed z)) x →
    ∃ s, FewReach P (State.initial P op (.zeroed z)) s ∧ SamePlace x s
  withChecks : ∀ s, FewReach P (State.initial P op (.zeroed z)) s →
    ∃ x, CheckedReach P (.initial P op (.zeroed z)) x ∧ SamePlace x s

theorem buildsAgree (C : Config) {op : ProducerOp W K} (hop : op.initialises = true) (z : W) :
    BuildsAgree (.ofConfig C) op z := by
  have V : Invariant (.ofConfig C) 0 (State.initial (.ofConfig C) op (.zeroed z)) :=
    initial_invariant hop rfl
  have I : InStepWith (.ofConfig C) (.initial (.ofConfig C) op (.zeroed z))
      (State.initial (.ofConfig C) op (.zeroed z)) :=
    ⟨⟨rfl, rfl, rfl, .rest _, fun _ => .rest _⟩, fun _ _ h => (by cases h),
      fun _ h => (by cases h)⟩
  refine ⟨fun x hx => ?_, fun x hx => ?_, fun s hs => ?_⟩
  · obtain ⟨s, -, Ix⟩ := I.run rfl V hx
    exact Ix.fine
  · obtain ⟨s, hs, Ix⟩ := I.run rfl V hx
    exact ⟨s, hs, Ix.toSamePlace⟩
  · obtain ⟨x, hx, Ix⟩ := I.runBack V hs
    exact ⟨x, hx, Ix.toSamePlace⟩

end Que.Headless

namespace Que.Overflow

open Lib

/-- **No arithmetic fault inside the counter range.**  In every run of either flavour in which fewer
than `2 ^ w - N - 64` positions are used, every addition and subtraction has its exact result, and
the builds with and without overflow checks have the same runs. -/
theorem no_arithmetic_fault (C : Config) {V W : Type} {K : ℕ} {op : Lossless.ProducerOp V}
    (hop : op.initialises = true) {op' : Headless.ProducerOp W K} (hop' : op'.initialises = true)
    (z : V) (z' : W) :
    Lossless.BuildsAgree C op z ∧ Headless.BuildsAgree (.ofConfig C) op' z' :=
  ⟨Lossless.buildsAgree C hop z, Headless.buildsAgree C hop' z'⟩

/-- A producer on a ring of two slots that is about to compute `head + N`. -/
theorem no_arithmetic_fault_push : ∃ x : Lossless.CheckedState ℕ,
    Lossless.CheckedReach Config.small (.initial Config.small .joinOrInitializeIn (.zeroed 0)) x ∧
    (∃ op site k, x.producer = .busy op (.act (.inr site) k) ∧
      site x.handle = .checked (.add 0 2)) ∧ x.Fine Config.small := by
  have F : ∀ t, t ≤ 2 → t + Config.small.N + 64 < 2 ^ Config.small.w := by decide
  have hstart : Lossless.CheckedReach Config.small
      (.initial Config.small .joinOrInitializeIn (.zeroed 0) : Lossless.CheckedState ℕ)
      (.initial Config.small .joinOrInitializeIn (.zeroed 0)) :=
    .refl ⟨F _ (by decide +kernel), F _ (by decide +kernel)⟩
  have hrun := ((hstart.tail
    (.producerCall (.push 7) rfl rfl) ⟨F _ (by decide +kernel), F _ (by decide +kernel)⟩).tail
    (.producerAct rfl) ⟨F _ (by decide +kernel), F _ (by decide +kernel)⟩).tail
    (.producerAct rfl) ⟨F _ (by decide +kernel), F _ (by decide +kernel)⟩
  let op : Headless.ProducerOp ℕ 2 := .joinOrInitializeIn
  have hop : op.initialises = true := rfl
  have hfine := (no_arithmetic_fault Config.small (V := ℕ) rfl hop 0 0).1.fine _ hrun
  exact ⟨_, hrun, ⟨_, _, _, rfl, rfl⟩, hfine⟩

end Que.Overflow
