import Que.Polling.Phases
import Mathlib.Data.Prod.Lex

/-! # Steps of the polling loops

How a step of each loop brings it forward (`consumed`, `produced`), and what it leaves alone.

A consumer that is behind the tail is `lag s i` steps away from having dealt with everything, if the
tail stands still: its cursor moves on at the latest in the second round from now, by a pop or by a
reset, and every other step of its own ends a round or comes closer to its end. -/

namespace Que.Polling

open Lib Headless

variable {W : Type} {K k : ℕ} {P : Params}

/-! ### A consumer inside `pop` -/

section round
variable {s : State W K} {i : ℕ} {start : Consumer} {r : ConsumerResult W K}
  {code : Proc Consumer W (ConsumerResult W K)}

theorem advances_of_busy (I : Partition P k s) (hc : s.consumer i = .busy start .pop code) :
    Advances k start (s.cursor i) := by
  have ho := I.orderly i
  rw [hc] at ho
  obtain ⟨tr, htidy, -⟩ := ho
  exact (htidy rfl).2.1

theorem tidy_of_rest (I : Partition P k s) (hc : s.consumer i = .rest .ready) :
    Tidy P k (s.cursor i) (s.trace i) s.ch.tail s.all := by
  have ho := I.orderly i
  rw [hc] at ho
  exact ho

/-- After a round the consumer is tidy, once its value is recorded. -/
theorem tidy_of_ret (I : Partition P k s)
    (hc : s.consumer i = .busy start .pop (.ret r)) :
    ∃ tr all, Tidy P k (s.cursor i) (tr : Trace W K) s.ch.tail all := by
  have ho := I.orderly i
  rw [hc] at ho
  exact ⟨_, _, ho.popped I.inv.base.tail_lt⟩

/-- A round asks for another one, or leaves a consumer that can be used further. -/
theorem round_result (I : Partition P k s) (hc : s.consumer i = .busy start .pop (.ret r)) :
    r = .again ∨ ∃ value, r = .done (.ready, value) := by
  have ho := I.orderly i
  rw [hc] at ho
  obtain ⟨tr, -, hsafe⟩ := ho
  obtain ⟨new, hm, -⟩ := hsafe.done.round
  generalize (s.consumerView i).cursor = c at hm
  cases hm with
  | caughtUp => exact .inr ⟨_, rfl⟩
  | overrun => exact .inl rfl
  | overtaken => exact .inl rfl
  | taken => exact .inr ⟨_, rfl⟩

end round

/-! ### How far a consumer lags behind -/

open Classical in
/-- Bounds the number of steps of consumer `i` until its cursor moves, while the tail stands still
at a position beyond it. -/
noncomputable def phase (s : State W K) (i : ℕ) : ℕ :=
  match s.consumer i with
  | .rest _ => roundCost K + 1
  | .busy start _ code =>
      if Gains s.ch.tail start code (s.cursor i) then height anyAnswer code (s.cursor i)
      else roundCost K + 2 + height anyAnswer code (s.cursor i)

/-- Bounds the number of steps of consumer `i` until it has dealt with every position below the
tail, while the tail stands still. -/
noncomputable def lag (s : State W K) (i : ℕ) : ℕ :=
  if s.ch.tail ≤ s.position i then 0
  else (s.ch.tail - s.position i) * (2 * roundCost K + 3) + phase s i

section lag
variable {s t : State W K} {i : ℕ} {start : Consumer} {op : ConsumerOp}
  {code : Proc Consumer W (ConsumerResult W K)}

theorem lag_of_caught_up (h : s.ch.tail ≤ s.position i) : lag s i = 0 := if_pos h

theorem phase_rest {st : ConsumerStatus} (hc : s.consumer i = .rest st) :
    phase s i = roundCost K + 1 := by
  simp only [phase, hc]

theorem phase_gains (hc : s.consumer i = .busy start op code)
    (h : Gains s.ch.tail start code (s.cursor i)) :
    phase s i = height anyAnswer code (s.cursor i) := by
  simp only [phase, hc, h, if_true]

theorem phase_stale (hc : s.consumer i = .busy start op code)
    (h : ¬ Gains s.ch.tail start code (s.cursor i)) :
    phase s i = roundCost K + 2 + height anyAnswer code (s.cursor i) := by
  simp only [phase, hc, h, if_false]

/-- A consumer that is as far as before is closer to the next move of its cursor. -/
theorem lag_lt (hlt : s.position i < s.ch.tail) (htail : t.ch.tail = s.ch.tail)
    (hle : s.position i ≤ t.position i)
    (h : t.position i < t.ch.tail → phase t i < phase s i ∨
      s.position i < t.position i ∧ phase t i ≤ roundCost K + 1) : lag t i < lag s i := by
  unfold lag
  rw [if_neg (Nat.not_le.mpr hlt)]
  by_cases hcaught : t.ch.tail ≤ t.position i
  · rw [if_pos hcaught]
    have hpos : 0 < (s.ch.tail - s.position i) * (2 * roundCost K + 3) :=
      Nat.mul_pos (Nat.sub_pos_of_lt hlt) (Nat.succ_pos _)
    omega
  rw [if_neg hcaught, htail]
  rcases h (Nat.not_le.mp hcaught) with hphase | ⟨hmoved, hphase⟩
  · have := Nat.mul_le_mul_right (2 * roundCost K + 3) (Nat.sub_le_sub_left hle s.ch.tail)
    omega
  · have hsub : s.ch.tail - t.position i + 1 ≤ s.ch.tail - s.position i := by omega
    have := Nat.mul_le_mul_right (2 * roundCost K + 3) hsub
    rw [Nat.add_mul, Nat.one_mul] at this
    omega

end lag

/-! ### A step of a consumer -/

/-- The loop of consumer `i` is at rest or inside a round of `pop`. -/
inductive Popping (s : State W K) (i : ℕ) : Prop
  | rest : s.consumer i = .rest .ready → Popping s i
  | busy {start : Consumer} {code : Proc Consumer W (ConsumerResult W K)} :
      s.consumer i = .busy start .pop code → Takes anyAnswer (roundCost K) code (s.cursor i) →
      Popping s i

/-- A step of the loop of consumer `i`. -/
structure Consumed (P : Params) (i : ℕ) (s t : State W K) : Prop where
  step : Step P s t
  live : ∀ j, t.live j = s.live j
  producer : t.producer = s.producer ∧ t.own = s.own ∧ t.wrote = s.wrote
  published : t.published = s.published
  tail : t.ch.tail = s.ch.tail
  joinedAt : ∀ j, (t.trace j).joinedAt = (s.trace j).joinedAt
  others : ∀ j, j ≠ i → t.consumer j = s.consumer j ∧ t.cursor j = s.cursor j
  popping : Popping t i
  position_le : s.position i ≤ t.position i
  forward : s.position i < s.ch.tail → lag t i < lag s i

section consumer
variable {c : Client W K} {i : ℕ} {start : Consumer}

theorem position_rest {s : State W K} {st : ConsumerStatus} (hc : s.consumer i = .rest st) :
    s.position i = (s.cursor i).head := by
  simp only [State.position, hc]

theorem position_busy {s : State W K} {op : ConsumerOp}
    {code : Proc Consumer W (ConsumerResult W K)} (hc : s.consumer i = .busy start op code) :
    s.position i = start.head := by
  simp only [State.position, hc]

theorem live_rest {s : State W K} (hc : s.consumer i = .rest .ready) :
    s.live i = some ((s.cursor i).consumerIndex, (s.cursor i).interval) := by
  simp only [State.live, hc]

theorem live_busy {s : State W K} {code : Proc Consumer W (ConsumerResult W K)}
    (hc : s.consumer i = .busy start .pop code) :
    s.live i = some (start.consumerIndex, start.interval) := by
  simp only [State.live, hc]
  rfl

theorem begun_busy (s : State W K) :
    (begun P s i).consumer i = .busy (s.cursor i) .pop (ConsumerOp.pop.code P) :=
  Function.update_self _ _ _

theorem begun_others (s : State W K) {j : ℕ} (hne : j ≠ i) :
    (begun P s i).consumer j = s.consumer j := Function.update_of_ne hne _ _

/-- A round begins: it will move the cursor if that is behind the tail. -/
theorem phase_begun {s : State W K} {tr : Trace W K} {all : List ℕ} (hP : Roomy P) (hk : k ≤ 64)
    (I : Partition P k s) (htidy : Tidy P k (s.cursor i) tr s.ch.tail all)
    (hlt : (s.cursor i).head < s.ch.tail) : phase (begun P s i) i ≤ roundCost K := by
  have hlimit := I.inv.base.tail_lt
  rw [phase_gains (begun_busy s) (pop_gains htidy hP hk hlimit hlt hlimit)]
  exact Nat.sInf_le (pop_takes (s.cursor i))

theorem consumed_begun {s : State W K} {tr : Trace W K} {all : List ℕ} (hP : Roomy P) (hk : k ≤ 64)
    (I : Partition P k s) (htidy : Tidy P k (s.cursor i) tr s.ch.tail all)
    (hstep : Step P s (begun P s i))
    (hlive : s.live i = some ((s.cursor i).consumerIndex, (s.cursor i).interval))
    (hle : s.position i ≤ (s.cursor i).head)
    (hphase : roundCost K < phase s i ∨ s.position i < (s.cursor i).head) :
    Consumed P i s (begun P s i) := by
  have hposition : (begun P s i).position i = (s.cursor i).head := position_busy (begun_busy s)
  refine ⟨hstep, fun j => ?_, ⟨rfl, rfl, rfl⟩, rfl, rfl, fun _ => rfl,
    fun j hne => ⟨begun_others s hne, rfl⟩, .busy (begun_busy s) (pop_takes _),
    hposition.symm ▸ hle, fun hlt => lag_lt hlt rfl (hposition.symm ▸ hle) fun hlt' => ?_⟩
  · rcases Decidable.em (j = i) with rfl | hne
    · rw [hlive, live_busy (begun_busy s)]
    · simp only [State.live, begun_others s hne]
      rfl
  · rw [hposition] at hlt' ⊢
    have := phase_begun (P := P) hP hk I htidy hlt'
    omega

theorem joinedAt_after (tr : Trace W K) (a : Act Consumer W) (ch : Channel W) (c : Consumer) :
    (tr.after false a ch c).joinedAt = tr.joinedAt := by
  unfold Trace.after
  split <;> rfl

/-- While the tail stands still, a step of a round that gains leaves one that gains. -/
theorem Gains.act {T : ℕ} {a : Act Consumer W} {m : a.Ans → Proc Consumer W (ConsumerResult W K)}
    {c : Consumer} (h : Gains T start (.act a m) c) (w : ℕ) {ch : Channel W} (ht : ch.tail = T) :
    Gains T start (m (a.step w (ch, c)).1) (a.step w (ch, c)).2.2 := by
  have hanswer : ∀ x : Word, x = .tail → ch.get x = T := by
    rintro x rfl
    exact ht
  obtain ⟨h1, h2⟩ : a.MayAnswer (fun x _ n => x = .tail → n = T) c (a.step w (ch, c)).1 ∧
      (a.step w (ch, c)).2.2 = a.own c := a.step_mayAnswer w hanswer
  rw [h2]
  exact h.2 _ h1

theorem consumed_act {s : State W K} (I : Partition P k s) {a : Act Consumer W}
    {m : a.Ans → Proc Consumer W (ConsumerResult W K)}
    (hc : s.consumer i = .busy start .pop (.act a m))
    (htakes : Takes anyAnswer (roundCost K) (.act a m) (s.cursor i)) :
    Consumed P i s (s.consumerDoes P i .pop a fun x => .busy start .pop (m x)) := by
  set t := s.consumerDoes P i .pop a fun x => .busy start .pop (m x) with ht
  have hf := I.inv.consumer i
  rw [hc] at hf
  have htail : t.ch.tail = s.ch.tail :=
    (Safe.own hf ⟨I.inv.base, I.inv.all, fun _ _ => trivial⟩).1.quiet.tail
  have hbusy : t.consumer i = .busy start .pop (m (a.step P.w (s.ch, s.cursor i)).1) :=
    Function.update_self _ _ _
  have hcursor : t.cursor i = (a.step P.w (s.ch, s.cursor i)).2.2 := Function.update_self _ _ _
  have hothers : ∀ j, j ≠ i → t.consumer j = s.consumer j ∧ t.cursor j = s.cursor j := fun j hne =>
    ⟨Function.update_of_ne hne _ _, Function.update_of_ne hne _ _⟩
  have hposition : t.position i = s.position i :=
    (position_busy hbusy).trans (position_busy hc).symm
  obtain ⟨hpos, hless, hheight⟩ := takes_answered htakes P.w s.ch
  rw [← hcursor] at hless hheight
  refine ⟨.consumerAct hc, fun j => ?_, ⟨rfl, rfl, rfl⟩, rfl, htail, fun j => ?_, hothers,
    .busy hbusy (hless.mono (Nat.sub_le _ _)), hposition.ge, fun hlt => ?_⟩
  · rcases Decidable.em (j = i) with rfl | hne
    · rw [live_busy hbusy, live_busy hc]
    · simp only [State.live, hothers j hne]
  · rcases Decidable.em (j = i) with rfl | hne
    · simp only [ht, State.consumerDoes, Function.update_self]
      exact joinedAt_after _ _ _ _
    · simp only [ht, State.consumerDoes, Function.update_of_ne hne]
  · refine lag_lt hlt htail hposition.ge fun _ => .inl ?_
    by_cases hg : Gains s.ch.tail start (.act a m) (s.cursor i)
    · have hg' : Gains s.ch.tail start (m (a.step P.w (s.ch, s.cursor i)).1)
          (a.step P.w (s.ch, s.cursor i)).2.2 := hg.act P.w rfl
      rw [← hcursor, ← htail] at hg'
      rw [phase_gains hc hg, phase_gains hbusy hg']
      exact hheight
    · rw [phase_stale hc hg]
      by_cases hg' : Gains t.ch.tail start (m (a.step P.w (s.ch, s.cursor i)).1) (t.cursor i)
      · rw [phase_gains hbusy hg']
        omega
      · rw [phase_stale hbusy hg']
        omega

theorem consumed_done {s : State W K} (I : Partition P k s) {value : Option (Vector W K)}
    (hc : s.consumer i = .busy start .pop (.ret (.done (.ready, value)))) :
    Consumed P i s (s.consumerGets i start .ready value) := by
  set t := s.consumerGets i start .ready value with ht
  have hadv := advances_of_busy I hc
  have hrest : t.consumer i = .rest .ready := Function.update_self _ _ _
  have hothers : ∀ j, j ≠ i → t.consumer j = s.consumer j ∧ t.cursor j = s.cursor j := fun j hne =>
    ⟨Function.update_of_ne hne _ _, rfl⟩
  have hposition : t.position i = (s.cursor i).head := position_rest hrest
  have hle : s.position i ≤ t.position i := by
    rw [hposition, position_busy hc]
    exact hadv.le
  refine ⟨.consumerReturn hc, fun j => ?_, ⟨rfl, rfl, rfl⟩, rfl, rfl, fun j => ?_, hothers,
    .rest hrest, hle, fun hlt => lag_lt hlt rfl hle fun _ => ?_⟩
  · rcases Decidable.em (j = i) with rfl | hne
    · rw [live_rest hrest, live_busy hc, ← hadv.index, ← hadv.interval]
      rfl
    · simp only [State.live, hothers j hne]
  · rcases Decidable.em (j = i) with rfl | hne
    · simp only [ht, State.consumerGets, Function.update_self]
    · simp only [ht, State.consumerGets, Function.update_of_ne hne]
  · rw [phase_rest hrest, hposition, position_busy hc]
    by_cases hg : Gains s.ch.tail start (.ret (.done (.ready, value)) :
        Proc Consumer W (ConsumerResult W K)) (s.cursor i)
    · exact .inr ⟨hg, le_rfl⟩
    · rw [phase_stale hc hg]
      exact .inl (by omega)

/-- **A step of a polling consumer**: it never goes back, and comes closer to a tail that it has not
reached. -/
theorem consumed (hP : Roomy P) (hk : k ≤ 64) (I : Partition P k c.s) (h : Popping c.s i) :
    Consumed P i c.s (c.consume P i).s := by
  cases h with
  | rest hc =>
      rw [consume_call hc]
      refine consumed_begun hP hk I (tidy_of_rest I hc) (.consumerCall i .pop hc rfl)
        (live_rest hc) (position_rest hc).le (.inl ?_)
      rw [phase_rest hc]
      exact Nat.lt_succ_self _
  | @busy start code hc htakes =>
      cases code with
      | act a m =>
          rw [consume_act hc]
          exact consumed_act I hc htakes
      | ret r =>
          rcases round_result I hc with rfl | ⟨value, rfl⟩
          · have hadv := advances_of_busy I hc
            obtain ⟨tr, all, htidy⟩ := tidy_of_ret I hc
            rw [consume_again hc]
            refine consumed_begun hP hk I htidy (.consumerAgain hc) ?_ ?_ ?_
            · rw [live_busy hc, hadv.index, hadv.interval]
            · rw [position_busy hc]
              exact hadv.le
            · rw [position_busy hc]
              by_cases hg : Gains c.s.ch.tail start (.ret .again :
                  Proc Consumer W (ConsumerResult W K)) (c.s.cursor i)
              · exact .inr hg
              · rw [phase_stale hc hg]
                exact .inl (by omega)
          · rw [consume_ret hc]
            exact consumed_done I hc

end consumer

/-! ### A step of the producer -/

/-- The producer's loop; what was written before the call in progress ends at `F`. -/
inductive Producing (c : Client W K) (F : ℕ) : Prop
  | rest : c.s.producer = .rest .ready → c.s.own.tail = F → Producing c F
  | busy {start : Producer} {op : ProducerOp W K} {ops : List (ProducerOp W K)}
      {code : Proc Producer W ProducerStatus} : c.s.producer = .busy start op code →
      c.todo = op :: ops → start.tail = F → (∃ n, Takes anyAnswer n code c.s.own) →
      Obeys anyAnswer (StoresUpTo F) code (Returned F op) c.s.own → Producing c F

/-- The thread is between two calls. -/
def resting : ProducerThread W K → ℕ
  | .rest _ => 1
  | .busy _ _ _ => 0

/-- What the producer has still to do. -/
noncomputable def producerRank (c : Client W K) : ℕ ×ₗ ℕ :=
  toLex (2 * c.todo.length + resting c.s.producer, toGo c.s.own c.s.producer)

/-- A step of the producer's loop. -/
structure Produced (P : Params) (F : ℕ) (c d : Client W K) : Prop where
  step : Step P c.s d.s
  consumer : d.s.consumer = c.s.consumer
  cursor : d.s.cursor = c.s.cursor
  trace : d.s.trace = c.s.trace
  call : (d.todo = c.todo ∧ d.s.wrote = c.s.wrote ∧ Producing d F) ∨
    ∃ op ops, c.todo = op :: ops ∧ d.todo = ops ∧
      d.s.wrote = record F op.values c.s.wrote ∧ Producing d (F + op.values.length) ∧
      (op = .sync → d.s.own.written = 0)
  published : ∀ p, p < d.s.ch.tail → p < c.s.ch.tail ∧ d.s.published p = c.s.published p ∨
    p < F ∧ d.s.published p = (c.s.published p).or (c.s.wrote p)
  forward : producerRank d < producerRank c

section producer
variable {c : Client W K} {F : ℕ} {op : ProducerOp W K} {ops : List (ProducerOp W K)}

theorem isJoin_of_working (h : working op = true) : op.isJoin = false := by
  cases op <;> first | rfl | cases h

/-- **A step of the producer's loop** that has a call to make: it never waits. -/
theorem produced (h : Producing c F) (htodo : c.todo = op :: ops) (hop : working op = true)
    (hlt : F + op.values.length < P.limit) : Produced P F c (c.produce P) := by
  cases h with
  | rest hp htail =>
      subst htail
      have hen : op.enabled .ready = true := by
        simp only [ProducerOp.enabled, isJoin_of_working hop, Bool.not_false]
      rw [produce_call hp htodo hen hlt]
      refine ⟨.producerCall op hp hen hlt, rfl, rfl, rfl, .inl ⟨rfl, rfl, ?_⟩,
        fun p hp => .inl ⟨hp, rfl⟩, ?_⟩
      · exact .busy rfl htodo rfl (call_takes hop _) (call_obeys hop hlt)
      · refine Prod.Lex.toLex_lt_toLex.mpr (.inl ?_)
        simp only [hp, resting]
        omega
  | @busy start op' ops' code hp htodo' hstart htakes hobeys =>
      obtain ⟨rfl, rfl⟩ : op' = op ∧ ops' = ops := by
        rw [htodo'] at htodo
        exact List.cons.inj htodo
      cases code with
      | act a m =>
          obtain ⟨n, ht⟩ := htakes
          obtain ⟨-, hless, hheight⟩ := takes_answered ht P.w c.s.ch
          obtain ⟨ha, hnext⟩ := obeys_answered hobeys P.w c.s.ch
          rw [produce_act hp]
          refine ⟨.producerAct hp, rfl, rfl, rfl, .inl ⟨rfl, rfl, ?_⟩,
            fun p hlt => ha.published P.w hlt, ?_⟩
          · exact .busy rfl htodo' hstart ⟨_, hless⟩ hnext
          · refine Prod.Lex.toLex_lt_toLex.mpr (.inr ⟨?_, ?_⟩)
            · simp only [hp, resting, State.producerDoes]
            · rw [hp]
              exact hheight
      | ret st =>
          obtain ⟨rfl, htail, hsync⟩ : Returned F op' st c.s.own := hobeys
          rw [produce_ret hp]
          refine ⟨.producerReturn hp, rfl, rfl, rfl, .inr ⟨op', ops', htodo', ?_, ?_, ?_, hsync⟩,
            fun p hp => .inl ⟨hp, rfl⟩, ?_⟩
          · rw [htodo', List.tail_cons]
          · simp only [wroteAfter, isJoin_of_working hop, Bool.false_eq_true, if_false, hstart]
          · exact .rest rfl htail
          · refine Prod.Lex.toLex_lt_toLex.mpr (.inl ?_)
            simp only [htodo', hp, resting, List.tail_cons, List.length_cons]
            omega

end producer

end Que.Polling
