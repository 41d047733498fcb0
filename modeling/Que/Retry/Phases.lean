import Que.Retry.Calls
import Que.Lossless.WaitFree
import Mathlib.Data.Prod.Lex

/-! # Phases of the two loops

Where each loop stands inside a call, what it still owes, and how its own steps bring it forward.

* **Phases.** `Producing` and `Consuming` list the phases.  A call that is `undecided` has not
  loaded the word that decides it; one that `passes` is bound to write or to return a value; one
  that is `refused` returns without having done anything.
* **Ranks.** `producerRank` and `consumerRank` fall with every own step, except where an undecided
  call is refused. -/

namespace Que.Retry

open Lib Lossless

variable {V : Type} {C : Config}

/-! ### The phases -/

/-- The producer is inside the call `op`, which it made at `start`. -/
structure Calling (C : Config) (c : Client V) (F : ℕ) (st : ProducerStatus) (start : Handle)
    (op : ProducerOp V) (ops : List (ProducerOp V))
    (code : Proc Handle V (ProducerStatus × List V)) : Prop where
  busy : c.s.producer = .busy start op code
  todo : c.todo = op :: ops
  plan : Plan C st start (op :: ops)
  fill : fill start st = F
  takes : ∃ n, Takes anyAnswer n code c.s.handle

/-- The phases of the producer; what it had written before the call ends at `F`. -/
inductive Producing (C : Config) (c : Client V) (F : ℕ) : Prop
  | rest {st : ProducerStatus} : c.s.producer = .rest st → Plan C st c.s.handle c.todo →
      fill c.s.handle st = F → Producing C c F
  | passes {st : ProducerStatus} {start : Handle} {op : ProducerOp V} {ops : List (ProducerOp V)}
      {code : Proc Handle V (ProducerStatus × List V)} : Calling C c F st start op ops code →
      Obeys anyAnswer (StoresUpTo F) code (Passed C F op ops) c.s.handle → Producing C c F
  | undecided {start : Handle} {op : ProducerOp V} {ops : List (ProducerOp V)}
      {code : Proc Handle V (ProducerStatus × List V)} : Calling C c F .ready start op ops code →
      c.s.handle = start → c.s.ch.tail + start.producer.written = start.producer.tail →
      Hesitates C start op ops code → Producing C c F
  | refused {start : Handle} {op : ProducerOp V} {ops : List (ProducerOp V)}
      {code : Proc Handle V (ProducerStatus × List V)} : Calling C c F .ready start op ops code →
      c.s.handle = start → Refused (refusal op) code start → Producing C c F

/-- The consumer is inside a pop, which it made at `start`. -/
structure Polling (c : Client V) (start : Consumer)
    (code : Proc Consumer V (ConsumerStatus × Option V)) : Prop where
  busy : c.s.consumer = .busy start .pop code
  wanted : 0 < c.wanted
  takes : ∃ n, Takes anyAnswer n code c.s.cursor

/-- The pop returns a value. -/
def Pops (r : ConsumerStatus × Option V) (_ : Consumer) : Prop := r.1 = .ready ∧ r.2.isSome = true

/-- The pop finds nothing. -/
def Nothing (r : ConsumerStatus × Option V) : Prop := r = (.ready, none)

/-- The rest of a pop made at `start` that has not loaded the tail yet. -/
abbrev Looks (start : Consumer) (code : Proc Consumer V (ConsumerStatus × Option V)) : Prop :=
  Undecided .tail (start.head < ·) (fun _ => True) Pops Nothing start code

/-- The phases of the consumer. -/
inductive Consuming (C : Config) (c : Client V) : Prop
  | rest : c.s.consumer = .rest .ready → Consuming C c
  | passes {start : Consumer} {code : Proc Consumer V (ConsumerStatus × Option V)} :
      Polling c start code → c.Avail → Obeys anyAnswer (fun _ => True) code Pops c.s.cursor →
      Consuming C c
  | undecided {start : Consumer} {code : Proc Consumer V (ConsumerStatus × Option V)} :
      Polling c start code → c.s.cursor = start → InStep C c.s.consumerView → Looks start code →
      Consuming C c
  | refused {start : Consumer} {code : Proc Consumer V (ConsumerStatus × Option V)} :
      Polling c start code → c.s.cursor = start → InStep C c.s.consumerView →
      Refused Nothing code start → Consuming C c

theorem pop_looks (start : Consumer) :
    Looks start ((ConsumerOp.pop : ConsumerOp V).code C .ready) := by
  rw [poll_code rfl]
  refine .self (.load (fun tail hlt => ?_) fun tail hge => ?_)
  · unfold pollRest
    rw [if_neg (Nat.not_le.mpr hlt)]
    simp only [Element.drop, maybeSync, obeys_bind, obeys_read, obeys_update, obeys_self, obeys_ite,
      obeys_store, obeys_pure, Pops, true_and]
    exact fun _ => ⟨fun _ => rfl, fun _ => rfl⟩
  · unfold pollRest
    rw [if_pos (Nat.not_lt.mp hge)]
    exact rfl

/-! ### Ranks -/

section ranks
variable {L St Op R : Type}

open Classical in
/-- How far a call has come: a refused call is behind the next one. -/
noncomputable def stage (bad : Op → R → Prop) (l : L) : Thread L V St Op R → ℕ
  | .rest _ => 2
  | .busy _ op code => if Refused (bad op) code l then 3 else 1

end ranks

/-- What the producer has still to do. -/
noncomputable def Client.producerRank (c : Client V) : ℕ ×ₗ ℕ :=
  toLex (4 * c.todo.length + stage refusal c.s.handle c.s.producer, toGo c.s.handle c.s.producer)

/-- What the consumer has still to do for the next value. -/
noncomputable def Client.consumerRank (c : Client V) : ℕ ×ₗ ℕ :=
  toLex (stage (fun _ => Nothing) c.s.cursor c.s.consumer, toGo c.s.cursor c.s.consumer)

/-! ### The steps -/

section steps
variable {c : Client V}

theorem produce_done {st : ProducerStatus} (hp : c.s.producer = .rest st) (htodo : c.todo = []) :
    c.produce C = c := by
  simp only [Client.produce, hp, htodo]

theorem produce_call {st : ProducerStatus} {op : ProducerOp V} {ops : List (ProducerOp V)}
    (hp : c.s.producer = .rest st) (htodo : c.todo = op :: ops) (hen : op.enabled st = true)
    (hlt : c.s.handle.producer.tail + op.demand C < 2 ^ C.w) :
    c.produce C = { c with s := { c.s with producer := .busy c.s.handle op (op.code C) } } := by
  simp only [Client.produce, hp, htodo, State.move, hen, hlt, and_self, if_true, Option.getD_some]

theorem produce_act {start : Handle} {op : ProducerOp V} {a : Act Handle V}
    {k : a.Ans → Proc Handle V (ProducerStatus × List V)}
    (hp : c.s.producer = .busy start op (.act a k)) :
    c.produce C = { c with s := c.s.producerDoes C a fun x => .busy start op (k x) } := by
  simp only [Client.produce, hp, State.move, Option.getD_some]

theorem produce_ret {start : Handle} {op : ProducerOp V} {r : ProducerStatus × List V}
    (hp : c.s.producer = .busy start op (.ret r)) :
    c.produce C = { c with
      s := { c.s with producer := .rest r.1, wrote := wroteAfter op start r.2 c.s.wrote }
      todo := if passed op r then c.todo.tail else c.todo } := by
  simp only [Client.produce, hp, State.move, Option.getD_some]

theorem consume_done {st : ConsumerStatus} (hc : c.s.consumer = .rest st) (hw : c.wanted = 0) :
    c.consume C = c := by
  simp only [Client.consume, hc, hw, if_true]

theorem consume_call (hc : c.s.consumer = .rest .ready) (hw : c.wanted ≠ 0) :
    c.consume C = { c with s := { c.s with
      consumer := .busy c.s.cursor .pop (ConsumerOp.pop.code C .ready) } } := by
  simp only [Client.consume, hc, hw, if_false, State.move, ConsumerOp.enabled, if_true,
    Option.getD_some]

theorem consume_act {start : Consumer} {op : ConsumerOp V} {a : Act Consumer V}
    {k : a.Ans → Proc Consumer V (ConsumerStatus × Option V)}
    (hc : c.s.consumer = .busy start op (.act a k)) :
    c.consume C = { c with s := c.s.consumerDoes C a fun x => .busy start op (k x) } := by
  simp only [Client.consume, hc, State.move, Option.getD_some]

theorem consume_ret {start : Consumer} {op : ConsumerOp V} {r : ConsumerStatus × Option V}
    (hc : c.s.consumer = .busy start op (.ret r)) :
    c.consume C = { c with
      s := { c.s with
        consumer := .rest r.1
        joinedAt := if op.isJoin then c.s.cursor.head else c.s.joinedAt
        received := c.s.receivedAfter op r }
      wanted := if r.2.isSome then c.wanted - 1 else c.wanted } := by
  simp only [Client.consume, hc, State.move, Option.getD_some]

end steps

/-! ### The consumer -/

/-- What a step of the consumer leaves alone. -/
structure SameProducing (c d : Client V) : Prop where
  todo : d.todo = c.todo
  producer : d.s.producer = c.s.producer
  handle : d.s.handle = c.s.handle
  wrote : d.s.wrote = c.s.wrote
  published : d.s.published = c.s.published
  tail : d.s.ch.tail = c.s.ch.tail
  joinedAt : d.s.joinedAt = c.s.joinedAt

/-- A step of the consumer: it hands out no value, or one. -/
structure Consumed (C : Config) (c d : Client V) : Prop where
  same : SameProducing c d
  consuming : Consuming C d
  received : (d.wanted = c.wanted ∧ d.s.received = c.s.received) ∨
    (d.wanted + 1 = c.wanted ∧ ∃ v, d.s.received = c.s.received ++ [v])
  forward : c.Avail → d.wanted < c.wanted ∨ d.wanted = c.wanted ∧ d.consumerRank < c.consumerRank
  idle : ¬ c.Avail → d.wanted = c.wanted

section consumer
variable {c : Client V}

theorem stage_of_not_refused {L St Op R : Type} {bad : Op → R → Prop} {start l : L} {op : Op}
    {code : Proc L V R} (h : ¬ Refused (bad op) code l) :
    stage bad l (.busy start op code : Thread L V St Op R) = 1 := by
  simp only [stage, h, if_false]

theorem stage_of_refused {L St Op R : Type} {bad : Op → R → Prop} {start l : L} {op : Op}
    {code : Proc L V R} (h : Refused (bad op) code l) :
    stage bad l (.busy start op code : Thread L V St Op R) = 3 := by
  simp only [stage, h, if_true]

theorem not_nothing_of_pops (r : ConsumerStatus × Option V) (l : Consumer) (h : Pops r l) :
    ¬ Nothing r := by
  rintro rfl
  exact absurd h.2 (by simp)

/-- A step inside a pop. -/
theorem consumed_act (S : Sound C c.s) {start : Consumer} {a : Act Consumer V}
    {k : a.Ans → Proc Consumer V (ConsumerStatus × Option V)}
    (P : Polling c start (.act a k)) : SameProducing c (c.consume C) ∧
      (c.consume C).wanted = c.wanted ∧ (c.consume C).s.received = c.s.received ∧
      Polling (c.consume C) start (k (a.step C.w (c.s.ch, c.s.cursor)).1) ∧
      (c.consume C).s.cursor = (a.step C.w (c.s.ch, c.s.cursor)).2.2 ∧
      (c.consume C).s.ch = (a.step C.w (c.s.ch, c.s.cursor)).2.1 ∧
      toGo (c.consume C).s.cursor (c.consume C).s.consumer < toGo c.s.cursor c.s.consumer := by
  have hchange := (S.consumer_act P.busy).1.change
  obtain ⟨n, ht⟩ := P.takes
  obtain ⟨-, ht', hlt⟩ := takes_answered ht C.w c.s.ch
  rw [consume_act P.busy, P.busy]
  exact ⟨⟨rfl, rfl, rfl, rfl, rfl, hchange.tail, rfl⟩, rfl, rfl, ⟨rfl, P.wanted, n - 1, ht'⟩, rfl,
    rfl, hlt⟩

theorem consumed_of_rank {d : Client V} (hsame : SameProducing c d) (hcons : Consuming C d)
    (hw : d.wanted = c.wanted) (hr : d.s.received = c.s.received)
    (hrank : c.Avail → d.consumerRank < c.consumerRank) : Consumed C c d :=
  ⟨hsame, hcons, .inl ⟨hw, hr⟩, fun hav => .inr ⟨hw, hrank hav⟩, fun _ => hw⟩

theorem consumed_rest (S : Sound C c.s) (hc : c.s.consumer = .rest .ready)
    (hw : c.Avail → 0 < c.wanted) : Consumed C c (c.consume C) := by
  by_cases h0 : c.wanted = 0
  · rw [consume_done hc h0]
    refine consumed_of_rank ⟨rfl, rfl, rfl, rfl, rfl, rfl, rfl⟩ (.rest hc) rfl rfl fun hav => ?_
    exact absurd h0 (hw hav).ne'
  · rw [consume_call hc h0]
    have hlooks := pop_looks (V := V) (C := C) c.s.cursor
    refine consumed_of_rank ⟨rfl, rfl, rfl, rfl, rfl, rfl, rfl⟩ ?_ rfl rfl fun _ => ?_
    · exact .undecided ⟨rfl, Nat.pos_of_ne_zero h0, _, ConsumerOp.code_takes .pop⟩ rfl
        (S.inStep_of_rest hc (by decide)) hlooks
    · refine Prod.Lex.toLex_lt_toLex.mpr (.inl ?_)
      rw [stage_of_not_refused hlooks.not_refused, hc]
      exact Nat.one_lt_two

theorem consumed_passes (S : Sound C c.s) {start : Consumer}
    {code : Proc Consumer V (ConsumerStatus × Option V)} (P : Polling c start code)
    (hav : c.Avail) (h : Obeys anyAnswer (fun _ => True) code Pops c.s.cursor) :
    Consumed C c (c.consume C) := by
  cases code with
  | ret r =>
      obtain ⟨hst, hsome⟩ : Pops r c.s.cursor := h
      obtain ⟨v, hv⟩ := Option.isSome_iff_exists.mp hsome
      have hpos := P.wanted
      rw [consume_ret P.busy]
      refine ⟨⟨rfl, rfl, rfl, rfl, rfl, rfl, rfl⟩, .rest (congrArg Thread.rest hst),
        .inr ⟨?_, v, ?_⟩, fun _ => .inl ?_, fun hno => absurd hav hno⟩
      · simp only [hv, Option.isSome_some, if_true]
        omega
      · simp only [State.receivedAfter, ConsumerOp.isJoin, Bool.false_eq_true, if_false, given, hv,
          Option.toList_some]
      · simp only [hv, Option.isSome_some, if_true]
        omega
  | act a k =>
      obtain ⟨hsame, hw, hr, hP, hcursor, -, hlt⟩ := consumed_act S P
      have hnext := (obeys_answered h C.w c.s.ch).2
      rw [← hcursor] at hnext
      have hav' : (c.consume C).Avail := by
        unfold Client.Avail
        rw [hsame.joinedAt, hr, hsame.tail]
        exact hav
      refine consumed_of_rank hsame (.passes hP hav' hnext) hw hr fun _ => ?_
      refine Prod.Lex.toLex_lt_toLex.mpr (.inr ⟨?_, hlt⟩)
      rw [hP.busy, P.busy, stage_of_not_refused (not_refused_of_passes not_nothing_of_pops hnext),
        stage_of_not_refused (not_refused_of_passes not_nothing_of_pops h)]

theorem avail_iff (S : Sound C c.s) {start : Consumer}
    {code : Proc Consumer V (ConsumerStatus × Option V)} (P : Polling c start code) :
    c.Avail ↔ start.head < c.s.ch.tail := by
  have hh := S.handed
  rw [P.busy] at hh
  unfold Client.Avail
  rw [hh rfl]
  rfl

/-- A step that changes neither the channel nor the consumer's own structure. -/
theorem inStep_of_unchanged {d : Client V} (hsame : SameProducing c d)
    (hcursor : d.s.cursor = c.s.cursor) (hch : d.s.ch = c.s.ch) (h : InStep C c.s.consumerView) :
    InStep C d.s.consumerView := by
  unfold State.consumerView
  rw [hcursor, hch, hsame.published]
  exact h

theorem consumed_undecided (S : Sound C c.s) {start : Consumer}
    {code : Proc Consumer V (ConsumerStatus × Option V)} (P : Polling c start code)
    (hstart : c.s.cursor = start) (hstep : InStep C c.s.consumerView) (h : Looks start code) :
    Consumed C c (c.consume C) := by
  subst hstart
  cases code with
  | ret r => nomatch h
  | act a k =>
      obtain ⟨hsame, hw, hr, hP, hcursor, hch, hlt⟩ := consumed_act S P
      obtain ⟨heq, hcase⟩ := h.step C.w c.s.ch
      rw [heq] at hcursor hch
      have hstep' := inStep_of_unchanged hsame hcursor hch hstep
      have hstage : stage (fun _ => Nothing) c.s.cursor c.s.consumer = 1 := by
        rw [P.busy]
        exact stage_of_not_refused h.not_refused
      rcases hcase with hnext | ⟨hok, hnext⟩ | ⟨hno, hnext⟩
      · refine consumed_of_rank hsame (.undecided hP hcursor hstep' hnext) hw hr fun _ => ?_
        refine Prod.Lex.toLex_lt_toLex.mpr (.inr ⟨?_, hlt⟩)
        rw [hstage, hP.busy, hcursor, stage_of_not_refused hnext.not_refused]
      · have hav : (c.consume C).Avail := by
          rw [avail_iff (S.run consume_reach) hP, hsame.tail]
          exact hok
        refine consumed_of_rank hsame (.passes hP hav (hcursor ▸ hnext)) hw hr fun _ => ?_
        refine Prod.Lex.toLex_lt_toLex.mpr (.inr ⟨?_, hlt⟩)
        rw [hstage, hP.busy, hcursor,
          stage_of_not_refused (not_refused_of_passes not_nothing_of_pops hnext)]
      · refine consumed_of_rank hsame (.refused hP hcursor hstep' hnext) hw hr fun hav => ?_
        exact absurd ((avail_iff S P).mp hav) hno

theorem consumed_refused (S : Sound C c.s) {start : Consumer}
    {code : Proc Consumer V (ConsumerStatus × Option V)} (P : Polling c start code)
    (hstart : c.s.cursor = start) (hstep : InStep C c.s.consumerView)
    (h : Refused Nothing code start) : Consumed C c (c.consume C) := by
  subst hstart
  cases code with
  | ret r =>
      have hr : r = (.ready, none) := h
      subst hr
      rw [consume_ret P.busy]
      refine consumed_of_rank ⟨rfl, rfl, rfl, rfl, rfl, rfl, rfl⟩ (.rest rfl) rfl ?_ fun _ => ?_
      · exact List.append_nil _
      · refine Prod.Lex.toLex_lt_toLex.mpr (.inl ?_)
        rw [P.busy, stage_of_refused h]
        exact Nat.lt_succ_self 2
  | act a k =>
      obtain ⟨hsame, hw, hr, hP, hcursor, hch, hlt⟩ := consumed_act S P
      obtain ⟨heq, hnext⟩ := h.step C.w c.s.ch
      rw [heq] at hcursor hch
      have hstep' := inStep_of_unchanged hsame hcursor hch hstep
      refine consumed_of_rank hsame (.refused hP hcursor hstep' hnext) hw hr fun _ => ?_
      refine Prod.Lex.toLex_lt_toLex.mpr (.inr ⟨?_, hlt⟩)
      rw [hP.busy, hcursor, stage_of_refused hnext, P.busy, stage_of_refused h]

/-- **A step of the consumer's loop.** -/
theorem Consuming.step (S : Sound C c.s) (H : Consuming C c) (hw : c.Avail → 0 < c.wanted) :
    Consumed C c (c.consume C) := by
  cases H with
  | rest hc => exact consumed_rest S hc hw
  | passes P hav h => exact consumed_passes S P hav h
  | undecided P hstart hstep h => exact consumed_undecided S P hstart hstep h
  | refused P hstart hstep h => exact consumed_refused S P hstart hstep h

end consumer

/-! ### The producer -/

/-- What a step of the producer leaves alone. -/
structure SameConsuming (c d : Client V) : Prop where
  wanted : d.wanted = c.wanted
  consumer : d.s.consumer = c.s.consumer
  cursor : d.s.cursor = c.s.cursor
  received : d.s.received = c.s.received
  joinedAt : d.s.joinedAt = c.s.joinedAt

/-- A step of the producer: it is still at the same call, or the call has passed. -/
structure Produced (C : Config) (F : ℕ) (c d : Client V) : Prop where
  same : SameConsuming c d
  change : ProducerChange C c.s.ch d.s.ch c.s.published d.s.published
  call : (d.todo = c.todo ∧ d.s.wrote = c.s.wrote ∧ Producing C d F) ∨
    ∃ op ops, c.todo = op :: ops ∧ d.todo = ops ∧ d.s.wrote = record F (written op) c.s.wrote ∧
      Producing C d (F + (written op).length)
  published : ∀ p v, d.s.published p = some v →
    c.s.published p = some v ∨ p < F ∧ c.s.wrote p = some v
  forward : ¬ c.Avail → c.todo ≠ [] → d.producerRank < c.producerRank

section producer
variable {c : Client V} {F : ℕ}

theorem not_refusal_of_passed {op : ProducerOp V} {ops : List (ProducerOp V)}
    (r : ProducerStatus × List V) (h : Handle) (H : Passed C F op ops r h) : ¬ refusal op r := by
  intro hr
  have hp := H.passed
  rw [hr.2] at hp
  cases hp

/-- There is room for a planned call when everything was received. -/
theorem roomy_of_lag {start : Handle} {op : ProducerOp V} {ops : List (ProducerOp V)}
    {ch : Channel V} (P : Plan C .ready start (op :: ops)) (hle : ch.head ≤ ch.tail)
    (htail : ch.tail + start.producer.written = start.producer.tail)
    (hlag : ch.tail < ch.head + burstAmount C.N) : roomy C start op ch.head := by
  have hw : start.producer.tail < 2 ^ C.w := by
    have := P.word
    simp only [fill] at this
    omega
  have hf := P.feasible
  have hle' : ch.head ≤ start.producer.tail := by omega
  cases op with
  | push v =>
      simp only [feasible_push, Bool.and_eq_true, decide_eq_true_eq] at hf
      intro hfull
      have := (eq_wadd_iff hw C.fits hle').mp hfull
      omega
  | reserve count =>
      simp only [feasible_reserve, Bool.and_eq_true, decide_eq_true_eq] at hf
      show count ≤ wsub C.w C.N (wsub C.w start.producer.tail ch.head)
      rw [wsub_of_le hle' hw, wsub_of_le (by omega) C.fits]
      omega
  | _ => trivial

/-- A planned call does not feed an iterator. -/
theorem Plan.countFits {st : ProducerStatus} {h : Handle} {op : ProducerOp V}
    {ops : List (ProducerOp V)} (P : Plan C st h (op :: ops)) : op.CountFits C h := by
  cases op with
  | writeIter items i => cases st <;> exact absurd P.feasible Bool.false_ne_true
  | _ => trivial

/-- A step inside a call. -/
theorem produced_act (S : Sound C c.s) {st : ProducerStatus} {start : Handle} {op : ProducerOp V}
    {ops : List (ProducerOp V)} {a : Act Handle V}
    {k : a.Ans → Proc Handle V (ProducerStatus × List V)}
    (P : Calling C c F st start op ops (.act a k)) : SameConsuming c (c.produce C) ∧
      ProducerChange C c.s.ch (c.produce C).s.ch c.s.published (c.produce C).s.published ∧
      (c.produce C).todo = c.todo ∧ (c.produce C).s.wrote = c.s.wrote ∧
      (c.produce C).s.published = publish a c.s.wrote c.s.published ∧
      Calling C (c.produce C) F st start op ops (k (a.step C.w (c.s.ch, c.s.handle)).1) ∧
      (c.produce C).s.handle = (a.step C.w (c.s.ch, c.s.handle)).2.2 ∧
      (c.produce C).s.ch = (a.step C.w (c.s.ch, c.s.handle)).2.1 ∧
      toGo (c.produce C).s.handle (c.produce C).s.producer < toGo c.s.handle c.s.producer := by
  have hchange := (S.producer_act (fun _ => S.room) P.busy).1.change
  obtain ⟨n, ht⟩ := P.takes
  obtain ⟨-, ht', hlt⟩ := takes_answered ht C.w c.s.ch
  rw [produce_act P.busy, P.busy]
  exact ⟨⟨rfl, rfl, rfl, rfl, rfl⟩, hchange, rfl, rfl, rfl,
    ⟨rfl, P.todo, P.plan, P.fill, n - 1, ht'⟩, rfl, rfl, hlt⟩

theorem Produced.of_same {d : Client V} (hsame : SameConsuming c d)
    (hchange : ProducerChange C c.s.ch d.s.ch c.s.published d.s.published)
    (htodo : d.todo = c.todo) (hwrote : d.s.wrote = c.s.wrote) (hnext : Producing C d F)
    (hpub : ∀ p v, d.s.published p = some v →
      c.s.published p = some v ∨ p < F ∧ c.s.wrote p = some v)
    (hrank : ¬ c.Avail → c.todo ≠ [] → d.producerRank < c.producerRank) : Produced C F c d :=
  ⟨hsame, hchange, .inl ⟨htodo, hwrote, hnext⟩, hpub, hrank⟩

theorem produced_rest (S : Sound C c.s) {st : ProducerStatus} (hp : c.s.producer = .rest st)
    (P : Plan C st c.s.handle c.todo) (hF : fill c.s.handle st = F) :
    Produced C F c (c.produce C) := by
  cases htodo : c.todo with
  | nil =>
      rw [produce_done hp htodo]
      exact .of_same ⟨rfl, rfl, rfl, rfl, rfl⟩ (.of_quiet (.refl _)) rfl rfl (.rest hp P hF)
        (fun _ _ h => .inl h) fun _ hne => absurd htodo hne
  | cons op ops =>
      rw [htodo] at P
      obtain ⟨hen, hlt⟩ := P.enabled
      rw [produce_call hp htodo hen hlt]
      have hcalling : Calling C { c with s := { c.s with
          producer := .busy c.s.handle op (op.code C) } } F st c.s.handle op ops (op.code C) :=
        ⟨rfl, htodo, P, hF, _, op.code_takes P.countFits⟩
      have hrank : ¬ Refused (refusal op) (op.code C) c.s.handle →
          Client.producerRank { c with s := { c.s with
            producer := .busy c.s.handle op (op.code C) } } < c.producerRank := by
        intro hno
        refine Prod.Lex.toLex_lt_toLex.mpr (.inl ?_)
        rw [stage_of_not_refused hno, hp]
        exact Nat.lt_succ_self _
      rcases P.starts with hpass | ⟨rfl, hhes⟩
      · rw [hF] at hpass
        exact .of_same ⟨rfl, rfl, rfl, rfl, rfl⟩ (.of_quiet (.refl _)) rfl rfl
          (.passes hcalling hpass) (fun _ _ h => .inl h)
          fun _ _ => hrank (not_refused_of_passes not_refusal_of_passed hpass)
      · have hready := S.producer
        rw [hp] at hready
        exact .of_same ⟨rfl, rfl, rfl, rfl, rfl⟩ (.of_quiet (.refl _)) rfl rfl
          (.undecided hcalling rfl hready.2 hhes) (fun _ _ h => .inl h)
          fun _ _ => hrank hhes.not_refused

/-- What a planned call has written when it returns. -/
theorem wroteAfter_written {st : ProducerStatus} {start : Handle} {op : ProducerOp V}
    {ops : List (ProducerOp V)} (P : Plan C st start (op :: ops)) (wrote : ℕ → Option V) :
    wroteAfter op start (written op) wrote = record (fill start st) (written op) wrote := by
  obtain ⟨hjoin, hpos⟩ := P.position
  unfold wroteAfter
  rw [if_neg (by simp [hjoin])]
  by_cases hnil : written op = []
  · rw [hnil, record_nil, record_nil]
  · rw [hpos hnil]

theorem produced_passes (S : Sound C c.s) {st : ProducerStatus} {start : Handle}
    {op : ProducerOp V} {ops : List (ProducerOp V)}
    {code : Proc Handle V (ProducerStatus × List V)} (P : Calling C c F st start op ops code)
    (h : Obeys anyAnswer (StoresUpTo F) code (Passed C F op ops) c.s.handle) :
    Produced C F c (c.produce C) := by
  have hno := not_refused_of_passes not_refusal_of_passed h
  cases code with
  | ret r =>
      have H : Passed C F op ops r c.s.handle := h
      have hwrote := wroteAfter_written P.plan c.s.wrote
      rw [P.fill] at hwrote
      rw [produce_ret P.busy, H.passed, H.values, hwrote, P.todo]
      refine ⟨⟨rfl, rfl, rfl, rfl, rfl⟩, .of_quiet (.refl _), .inr ⟨op, ops, P.todo, rfl, rfl, ?_⟩,
        fun _ _ h => .inl h, fun _ _ => ?_⟩
      · exact .rest rfl H.plan H.fill
      · refine Prod.Lex.toLex_lt_toLex.mpr (.inl ?_)
        rw [P.todo, P.busy, stage_of_not_refused hno]
        simp only [stage, if_true, List.tail_cons, List.length_cons]
        omega
  | act a k =>
      obtain ⟨hsame, hchange, htodo, hwrote, hpub, hP, hhandle, -, hlt⟩ := produced_act S P
      obtain ⟨ha, hnext⟩ := obeys_answered h C.w c.s.ch
      rw [← hhandle] at hnext
      refine .of_same hsame hchange htodo hwrote (.passes hP hnext) (fun p v hv => ?_) fun _ _ => ?_
      · rw [hpub] at hv
        exact ha.of_published hv
      · refine Prod.Lex.toLex_lt_toLex.mpr (.inr ⟨?_, hlt⟩)
        rw [htodo, P.busy, hP.busy, stage_of_not_refused hno,
          stage_of_not_refused (not_refused_of_passes not_refusal_of_passed hnext)]

theorem produced_undecided (S : Sound C c.s) {start : Handle} {op : ProducerOp V}
    {ops : List (ProducerOp V)} {code : Proc Handle V (ProducerStatus × List V)}
    (P : Calling C c F .ready start op ops code) (hstart : c.s.handle = start)
    (htail : c.s.ch.tail + start.producer.written = start.producer.tail)
    (h : Hesitates C start op ops code)
    (hlag : ¬ c.Avail → c.s.ch.tail < c.s.ch.head + burstAmount C.N) :
    Produced C F c (c.produce C) := by
  subst hstart
  cases code with
  | ret r => nomatch h
  | act a k =>
      obtain ⟨hsame, hchange, htodo, hwrote, hpub, hP, hhandle, hch, hlt⟩ := produced_act S P
      obtain ⟨heq, hcase⟩ := h.step C.w c.s.ch
      rw [heq] at hhandle hch
      have hpub' : ∀ p v, (c.produce C).s.published p = some v →
          c.s.published p = some v ∨ p < F ∧ c.s.wrote p = some v := by
        intro p v hv
        rw [hpub] at hv
        cases h <;> exact .inl hv
      have htail' : (c.produce C).s.ch.tail + c.s.handle.producer.written =
          c.s.handle.producer.tail := by
        rw [hch]
        exact htail
      have hrank : ¬ Refused (refusal op) (k (a.step C.w (c.s.ch, c.s.handle)).1) c.s.handle →
          (c.produce C).producerRank < c.producerRank := by
        intro hno
        refine Prod.Lex.toLex_lt_toLex.mpr (.inr ⟨?_, hlt⟩)
        rw [htodo, P.busy, hP.busy, hhandle, stage_of_not_refused h.not_refused,
          stage_of_not_refused hno]
      rcases hcase with hnext | ⟨-, hnext⟩ | ⟨hno, hnext⟩
      · exact .of_same hsame hchange htodo hwrote (.undecided hP hhandle htail' hnext) hpub'
          fun _ _ => hrank hnext.not_refused
      · have hfill := P.fill
        rw [hfill] at hnext
        exact .of_same hsame hchange htodo hwrote (.passes hP (hhandle ▸ hnext)) hpub'
          fun _ _ => hrank (not_refused_of_passes not_refusal_of_passed hnext)
      · exact .of_same hsame hchange htodo hwrote (.refused hP hhandle hnext) hpub'
          fun hidle _ => absurd (roomy_of_lag P.plan S.base.head_le htail (hlag hidle)) hno

theorem produced_refused (S : Sound C c.s) {start : Handle} {op : ProducerOp V}
    {ops : List (ProducerOp V)} {code : Proc Handle V (ProducerStatus × List V)}
    (P : Calling C c F .ready start op ops code) (hstart : c.s.handle = start)
    (h : Refused (refusal op) code start) : Produced C F c (c.produce C) := by
  subst hstart
  cases code with
  | ret r =>
      have hr : refusal op r := h
      obtain ⟨rfl, hpass⟩ := hr
      have hwrote : wroteAfter op c.s.handle [] c.s.wrote = c.s.wrote := by
        unfold wroteAfter
        rw [if_neg (by simp [P.plan.position.1]), record_nil]
      rw [produce_ret P.busy, hpass, hwrote]
      refine .of_same ⟨rfl, rfl, rfl, rfl, rfl⟩ (.of_quiet (.refl _)) rfl rfl
        (.rest rfl (P.todo ▸ P.plan) P.fill) (fun _ _ h => .inl h) fun _ _ => ?_
      refine Prod.Lex.toLex_lt_toLex.mpr (.inl ?_)
      rw [P.busy, stage_of_refused h]
      exact Nat.lt_succ_self _
  | act a k =>
      obtain ⟨hsame, hchange, htodo, hwrote, hpub, hP, hhandle, hch, hlt⟩ := produced_act S P
      obtain ⟨heq, hnext⟩ := h.step C.w c.s.ch
      obtain rfl : a = .self := h.1
      rw [heq] at hhandle
      refine .of_same hsame hchange htodo hwrote (.refused hP hhandle hnext)
        (fun p v hv => .inl (by rwa [hpub] at hv)) fun _ _ => ?_
      refine Prod.Lex.toLex_lt_toLex.mpr (.inr ⟨?_, hlt⟩)
      rw [htodo, P.busy, hP.busy, hhandle, stage_of_refused h, stage_of_refused hnext]

/-- **A step of the producer's loop.** -/
theorem Producing.step (S : Sound C c.s) (H : Producing C c F)
    (hlag : ¬ c.Avail → c.s.ch.tail < c.s.ch.head + burstAmount C.N) :
    Produced C F c (c.produce C) := by
  cases H with
  | rest hp P hF => exact produced_rest S hp P hF
  | passes P h => exact produced_passes S P h
  | undecided P hstart htail h => exact produced_undecided S P hstart htail h hlag
  | refused P hstart h => exact produced_refused S P hstart h

end producer

end Que.Retry
