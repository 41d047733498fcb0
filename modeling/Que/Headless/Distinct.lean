import Que.Headless.Cursor

/-! # Consumers with distinct indices

A headless channel is shared out by giving its consumers distinct indices.

* **Runs.** `Distinct k s` says that the live consumers of `s` are consumers of `k` with distinct
  indices; `DistinctReach` are the runs in which this always holds.
* **Alone.** A call that one endpoint makes while nothing else moves is such a run, with the effect
  that its code has by itself (`producer_alone`, `consumer_alone`).
* **The last positions.** Calls made alone lead to every position that a word can count
  (`exists_published`). -/

namespace Que.Headless

open Lib

variable {W : Type} {K : ℕ} {P : Params} {k : ℕ}

/-! ### Indices -/

/-- The index that a consumer has, or is about to have. -/
def ConsumerOp.index (start : Consumer) : ConsumerOp → ℕ
  | .join index _ => index
  | _ => start.consumerIndex

/-- The interval that a consumer has, or is about to have. -/
def ConsumerOp.interval (start : Consumer) : ConsumerOp → ℕ
  | .join _ consumers => consumers
  | _ => start.interval

/-- The index and the interval of consumer `i`, if it is live. -/
def State.live (s : State W K) (i : ℕ) : Option (ℕ × ℕ) :=
  match s.consumer i with
  | .rest .gone => none
  | .rest .ready => some ((s.cursor i).consumerIndex, (s.cursor i).interval)
  | .busy start op _ => some (op.index start, op.interval start)

/-- The live consumers are consumers of `k` with distinct indices. -/
structure Distinct (k : ℕ) (s : State W K) : Prop where
  of_k : ∀ i x, s.live i = some x → x.1 < k ∧ x.2 = k
  index : ∀ i j x y, s.live i = some x → s.live j = some y → x.1 = y.1 → i = j

theorem Distinct.of_live {s t : State W K} (h : Distinct k s) (ht : ∀ i, t.live i = s.live i) :
    Distinct k t := by
  refine ⟨fun i x hx => h.of_k i x (ht i ▸ hx), fun i j x y hx hy => ?_⟩
  exact h.index i j x y (ht i ▸ hx) (ht j ▸ hy)

/-- Runs in which the live consumers are always consumers of `k` with distinct indices. -/
abbrev DistinctReach (P : Params) (k : ℕ) : State W K → State W K → Prop :=
  Relation.ReflTransGen fun s t => Step P s t ∧ Distinct k t

/-! ### Calls made alone -/

/-- The consumers and what they popped are as they were. -/
structure SameConsumers (s t : State W K) : Prop where
  consumer : t.consumer = s.consumer
  cursor : t.cursor = s.cursor
  all : t.all = s.all

theorem SameConsumers.trans {s t u : State W K} (h : SameConsumers s t) (h' : SameConsumers t u) :
    SameConsumers s u :=
  ⟨h'.consumer.trans h.consumer, h'.cursor.trans h.cursor, h'.all.trans h.all⟩

theorem SameConsumers.distinct {s t : State W K} (h : SameConsumers s t) (hd : Distinct k s) :
    Distinct k t :=
  hd.of_live fun i => by simp only [State.live, h.consumer, h.cursor]

/-- Everything but the thread, the structure and the history of consumer `i` is as it was, and no
word of the header was written. -/
structure SameOthers (i : ℕ) (s t : State W K) : Prop where
  producer : t.producer = s.producer
  own : t.own = s.own
  all : t.all = s.all
  consumer : ∀ j, j ≠ i → t.consumer j = s.consumer j

/-- The producer finishes a call while nothing else moves. -/
theorem producer_alone {s : State W K} {start : Producer} {op : ProducerOp W K}
    (code : Proc Producer W ProducerStatus) (hp : s.producer = .busy start op code)
    (hd : Distinct k s) :
    ∃ t, DistinctReach P k s t ∧ t.producer = .rest (code.run P.w s.ch s.own).1 ∧
      t.ch = (code.run P.w s.ch s.own).2.1 ∧ t.own = (code.run P.w s.ch s.own).2.2 ∧
      SameConsumers s t := by
  induction code generalizing s with
  | ret st =>
      have hsame : SameConsumers s { s with
          producer := .rest st, wrote := wroteAfter op start s.wrote } := ⟨rfl, rfl, rfl⟩
      exact ⟨_, .single ⟨.producerReturn hp, hsame.distinct hd⟩, rfl, rfl, rfl, hsame⟩
  | act a m ih =>
      have hsame : SameConsumers s (s.producerDoes P a fun x => .busy start op (m x)) :=
        ⟨rfl, rfl, rfl⟩
      obtain ⟨t, hr, h1, h2, h3, h4⟩ :=
        ih _ (s := s.producerDoes P a fun x => .busy start op (m x)) rfl (hsame.distinct hd)
      exact ⟨t, .head ⟨.producerAct hp, hsame.distinct hd⟩ hr, h1, h2, h3, hsame.trans h4⟩

/-- The producer makes a call and finishes it. -/
theorem producer_calls {s : State W K} {st : ProducerStatus} (op : ProducerOp W K)
    (hp : s.producer = .rest st) (hen : op.enabled st = true)
    (hlt : s.own.tail + op.values.length < P.limit) (hd : Distinct k s) :
    ∃ t, DistinctReach P k s t ∧ t.producer = .rest ((op.code P).run P.w s.ch s.own).1 ∧
      t.ch = ((op.code P).run P.w s.ch s.own).2.1 ∧
      t.own = ((op.code P).run P.w s.ch s.own).2.2 ∧ SameConsumers s t := by
  have hsame : SameConsumers s { s with producer := .busy s.own op (op.code P) } :=
    ⟨rfl, rfl, rfl⟩
  obtain ⟨t, hr, h1, h2, h3, h4⟩ := producer_alone (P := P)
    (s := { s with producer := .busy s.own op (op.code P) }) (op.code P) rfl (hsame.distinct hd)
  exact ⟨t, .head ⟨.producerCall op hp hen hlt, hsame.distinct hd⟩ hr, h1, h2, h3, hsame.trans h4⟩

/-- A consumer finishes a round while nothing else moves. -/
theorem consumer_alone {s : State W K} {i : ℕ} {start : Consumer} {op : ConsumerOp}
    (code : Proc Consumer W (ConsumerResult W K)) (hc : s.consumer i = .busy start op code)
    (hd : Distinct k s) :
    ∃ t, DistinctReach P k s t ∧ Distinct k t ∧
      t.consumer i = .busy start op (.ret (code.run P.w s.ch (s.cursor i)).1) ∧
      t.ch = (code.run P.w s.ch (s.cursor i)).2.1 ∧
      t.cursor i = (code.run P.w s.ch (s.cursor i)).2.2 ∧ SameOthers i s t := by
  induction code generalizing s with
  | ret r => exact ⟨s, .refl, hd, hc, rfl, rfl, rfl, rfl, rfl, fun _ _ => rfl⟩
  | act a m ih =>
      set u := s.consumerDoes P i op a fun x => .busy start op (m x) with hu
      have hcu : u.consumer i = .busy start op (m (a.step P.w (s.ch, s.cursor i)).1) :=
        Function.update_self _ _ _
      have hcursor : u.cursor i = (a.step P.w (s.ch, s.cursor i)).2.2 := Function.update_self _ _ _
      have hlive : ∀ j, u.live j = s.live j := by
        intro j
        rcases Decidable.em (j = i) with rfl | hne
        · simp only [State.live, hcu, hc]
        · simp only [State.live, hu, State.consumerDoes, Function.update_of_ne hne]
      have hdu := hd.of_live hlive
      obtain ⟨t, hr, hdt, h1, h2, h3, h4⟩ := ih _ hcu hdu
      rw [hcursor] at h1 h2 h3
      refine ⟨t, .head ⟨.consumerAct hc, hdu⟩ hr, hdt, h1, h2, h3, h4.producer, h4.own, h4.all,
        fun j hne => ?_⟩
      rw [h4.consumer j hne]
      exact Function.update_of_ne hne _ _

/-! ### A lone consumer -/

/-- Consumer `i` begins a call, or a further round of it. -/
def State.begins (P : Params) (s : State W K) (i : ℕ) (op : ConsumerOp) : State W K :=
  { s with consumer := Function.update s.consumer i (.busy (s.cursor i) op (op.code P)) }

@[simp] theorem State.begins_self (s : State W K) (i : ℕ) (op : ConsumerOp) :
    (s.begins P i op).consumer i = .busy (s.cursor i) op (op.code P) := Function.update_self _ _ _

theorem State.begins_other (s : State W K) {i j : ℕ} (h : j ≠ i) (op : ConsumerOp) :
    (s.begins P i op).consumer j = s.consumer j := Function.update_of_ne h _ _

theorem State.consumerGets_self (s : State W K) (i : ℕ) (start : Consumer) (st : ConsumerStatus)
    (value : Option (Vector W K)) : (s.consumerGets i start st value).consumer i = .rest st :=
  Function.update_self _ _ _

theorem State.consumerGets_other (s : State W K) {i j : ℕ} (h : j ≠ i) (start : Consumer)
    (st : ConsumerStatus) (value : Option (Vector W K)) :
    (s.consumerGets i start st value).consumer j = s.consumer j := Function.update_of_ne h _ _

/-- Consumer `0`, the only one, is at rest with its cursor at `h`. -/
structure Lone (h : ℕ) (s : State W K) : Prop where
  consumer : s.consumer 0 = .rest .ready
  head : (s.cursor 0).head = h
  interval : (s.cursor 0).interval = 1
  index : (s.cursor 0).consumerIndex = 0
  others : ∀ j, j ≠ 0 → s.consumer j = .rest .gone

/-- Consumer `0`, the only one, begins a round of `pop` with its cursor at `h`. -/
structure InPop (P : Params) (h : ℕ) (s : State W K) : Prop where
  consumer : s.consumer 0 = .busy (s.cursor 0) .pop (ConsumerOp.pop.code P)
  head : (s.cursor 0).head = h
  interval : (s.cursor 0).interval = 1
  index : (s.cursor 0).consumerIndex = 0
  others : ∀ j, j ≠ 0 → s.consumer j = .rest .gone

theorem distinct_of_lone {s : State W K} (h0 : s.live 0 = some (0, 1))
    (h : ∀ j, j ≠ 0 → s.consumer j = .rest .gone) : Distinct 1 s := by
  have hlive : ∀ {i x}, s.live i = some x → i = 0 ∧ x = (0, 1) := by
    intro i x hx
    rcases Decidable.em (i = 0) with rfl | hne
    · rw [h0] at hx
      exact ⟨rfl, (Option.some.inj hx).symm⟩
    · simp [State.live, h i hne] at hx
  refine ⟨fun i x hx => ?_, fun i j x y hx hy _ => (hlive hx).1.trans (hlive hy).1.symm⟩
  rw [(hlive hx).2]
  exact ⟨Nat.one_pos, rfl⟩

theorem Lone.distinct {h : ℕ} {s : State W K} (L : Lone h s) : Distinct 1 s := by
  refine distinct_of_lone ?_ L.others
  simp only [State.live, L.consumer, L.index, L.interval]

theorem Lone.congr {h : ℕ} {s t : State W K} (L : Lone h s) (hsame : SameConsumers s t) :
    Lone h t := by
  refine ⟨?_, ?_, ?_, ?_, fun j hj => ?_⟩
  · rw [hsame.consumer, L.consumer]
  · rw [hsame.cursor, L.head]
  · rw [hsame.cursor, L.interval]
  · rw [hsame.cursor, L.index]
  · rw [hsame.consumer, L.others j hj]

theorem InPop.distinct {h : ℕ} {s : State W K} (L : InPop P h s) : Distinct 1 s := by
  refine distinct_of_lone ?_ L.others
  simp only [State.live, L.consumer, ConsumerOp.index, ConsumerOp.interval, L.index, L.interval]

theorem run_readWords (w : ℕ) (ch : Channel W) (c : Consumer) (i n : ℕ) :
    ∃ xs : Vector W n, (readWords i n).run w ch c = (xs, ch, c) := by
  induction n with
  | zero => exact ⟨_, rfl⟩
  | succ n ih =>
      obtain ⟨xs, hxs⟩ := ih
      refine ⟨xs.push (ch.buffer (i + n)), ?_⟩
      simp [readWords, hxs]

section code
variable {ch : Channel W} {c : Consumer} (hlt : c.head < ch.tail)
include hlt

theorem run_pop_taken (hle : ch.tail ≤ wadd P.w c.head (readable P.N)) : ∃ x : Vector W K,
    (ConsumerOp.pop.code P).run P.w ch c =
      (.done (.ready, some x), ch, { c with head := wadd P.w c.head c.interval }) := by
  obtain ⟨xs, hxs⟩ := run_readWords P.w ch c ((c.head &&& moduloMask P.N) * K) K
  refine ⟨xs, ?_⟩
  have hcheck : ¬ wadd P.w c.head (readable P.N) < ch.tail := Nat.not_lt.mpr hle
  simp [ConsumerOp.code, popIter, Channel.get, Nat.not_le.mpr hlt, hcheck, hxs]

theorem run_pop_overrun (hover : wadd P.w c.head (readable P.N) < ch.tail) :
    (ConsumerOp.pop.code P : Proc Consumer W (ConsumerResult W K)).run P.w ch c =
      (.again, ch, resetTo P.w P.N ch.tail c) := by
  simp [ConsumerOp.code, popIter, Channel.get, Nat.not_le.mpr hlt, hover]

end code

namespace InPop
variable {s : State W K} {h : ℕ}

/-- A round that takes the element at the cursor. -/
theorem taken (L : InPop P h s) (hlt : h < s.ch.tail)
    (hle : s.ch.tail ≤ wadd P.w h (readable P.N)) :
    ∃ t, DistinctReach P 1 s t ∧ Lone (wadd P.w h 1) t ∧ t.ch = s.ch ∧ t.all = s.all ++ [h] := by
  obtain ⟨t, hr, hdt, h1, h2, h3, h4⟩ := consumer_alone (P := P) _ L.consumer L.distinct
  obtain ⟨x, hx⟩ : ∃ x : Vector W K, (ConsumerOp.pop.code P).run P.w s.ch (s.cursor 0) =
      (.done (.ready, some x), s.ch,
        { s.cursor 0 with head := wadd P.w (s.cursor 0).head (s.cursor 0).interval }) :=
    run_pop_taken (by rw [L.head]; exact hlt) (by rw [L.head]; exact hle)
  rw [hx] at h1 h2 h3
  have hlone : Lone (wadd P.w h 1) (t.consumerGets 0 (s.cursor 0) .ready (some x)) := by
    have hcursor : (t.consumerGets 0 (s.cursor 0) .ready (some x)).cursor 0 = t.cursor 0 := rfl
    refine ⟨t.consumerGets_self _ _ _ _, ?_, ?_, ?_, fun j hj => ?_⟩
    · rw [hcursor, h3, L.interval, L.head]
    · rw [hcursor, h3, L.interval]
    · rw [hcursor, h3, L.index]
    · rw [t.consumerGets_other hj, h4.consumer j hj, L.others j hj]
  refine ⟨_, .tail hr ⟨.consumerReturn h1, hlone.distinct⟩, hlone, h2, ?_⟩
  simp [State.consumerGets, h4.all, L.head]

/-- A round that finds the cursor overrun, rightly or not. -/
theorem overrun (L : InPop P h s) (hlt : h < s.ch.tail)
    (hover : wadd P.w h (readable P.N) < s.ch.tail) :
    ∃ t, DistinctReach P 1 s t ∧
      InPop P (nextModulo P.w (wsub P.w s.ch.tail (readable P.N)) 0 1) t ∧ t.ch = s.ch ∧
      t.all = s.all := by
  obtain ⟨t, hr, hdt, h1, h2, h3, h4⟩ := consumer_alone (P := P) _ L.consumer L.distinct
  rw [run_pop_overrun (by rw [L.head]; exact hlt) (by rw [L.head]; exact hover)] at h1 h2 h3
  have hpop : InPop P (nextModulo P.w (wsub P.w s.ch.tail (readable P.N)) 0 1)
      (t.begins P 0 .pop) := by
    have hcursor : (t.begins P 0 .pop).cursor 0 = t.cursor 0 := rfl
    refine ⟨t.begins_self _ _, ?_, ?_, ?_, fun j hj => ?_⟩
    · rw [hcursor, h3, resetTo, L.index, L.interval]
    · rw [hcursor, h3, resetTo, L.interval]
    · rw [hcursor, h3, resetTo, L.index]
    · rw [t.begins_other hj, h4.consumer j hj, L.others j hj]
  exact ⟨_, .tail hr ⟨.consumerAgain h1, hpop.distinct⟩, hpop, h2, h4.all⟩

end InPop

/-- The lone consumer calls `pop`. -/
theorem Lone.pops {s : State W K} {h : ℕ} (L : Lone h s) :
    ∃ t, DistinctReach P 1 s t ∧ InPop P h t ∧ t.ch = s.ch ∧ t.all = s.all := by
  have hpop : InPop P h (s.begins P 0 .pop) :=
    ⟨s.begins_self _ _, L.head, L.interval, L.index, fun j hj =>
      (s.begins_other hj _).trans (L.others j hj)⟩
  exact ⟨_, .single ⟨.consumerCall 0 .pop L.consumer rfl, hpop.distinct⟩, hpop, rfl, rfl⟩

/-! ### Up to the last position -/

/-- The producer is at rest, and everything below `T` is published. -/
structure Published (P : Params) (T : ℕ) (s : State W K) : Prop where
  tail : s.ch.tail = T
  magic : s.ch.magic = MAGIC
  capacity : s.ch.capacity = P.N
  producer : s.producer = .rest .ready
  own : s.own.tail = T
  written : s.own.written = 0

theorem run_assignWords (w : ℕ) (ch : Channel W) (p : Producer) (i : ℕ) (xs : List W) :
    ∃ b, (assignWords i xs).run w ch p = ((), { ch with buffer := b }, p) := by
  induction xs generalizing ch i with
  | nil => exact ⟨_, rfl⟩
  | cons x xs ih =>
      obtain ⟨b, hb⟩ := ih (ch.write i x) (i + 1)
      refine ⟨b, ?_⟩
      simp only [assignWords, Proc.run_bind, Proc.run_assign, hb]
      rfl

namespace Published
variable {T : ℕ} {s : State W K}

/-- The producer pushes and publishes one element. -/
theorem pushed (h : Published P T s) (hT : T + 1 < P.limit) (hd : Distinct k s) (v : Vector W K) :
    ∃ t, DistinctReach P k s t ∧ Published P (T + 1) t ∧ SameConsumers s t := by
  have hadd : wadd P.w T 1 = T + 1 := wadd_of_lt (hT.trans_le P.limit_le)
  obtain ⟨b, hb⟩ := run_assignWords P.w s.ch s.own ((T &&& moduloMask P.N) * K) v.toList
  have hburst : ¬ 0 = burstAmount P.N := (burstAmount_pos P.N).ne
  have hpush : ((ProducerOp.push v).code P).run P.w s.ch s.own =
      (.ready, { s.ch with buffer := b },
        ⟨T + 1, wadd P.w 0 1, s.own.lastConsumerHeartbeat⟩) := by
    simp [ProducerOp.code, push, h.written, hburst, h.own, hb, hadd]
  obtain ⟨t, hr, h1, h2, h3, h4⟩ := producer_calls (.push v) h.producer rfl
    (by simpa [ProducerOp.values, h.own] using hT) hd
  rw [hpush] at h1 h2 h3
  obtain ⟨u, hr', h1', h2', h3', h4'⟩ := producer_calls (P := P) .sync h1 rfl
    (by simpa [ProducerOp.values, h3] using hT) (h4.distinct hd)
  refine ⟨u, hr.trans hr', ⟨?_, ?_, ?_, h1', ?_, ?_⟩, h4.trans h4'⟩
  · simp [h2', ProducerOp.code, sync, h3, Channel.set]
  · simpa [h2', ProducerOp.code, sync, Channel.set, h2] using h.magic
  · simpa [h2', ProducerOp.code, sync, Channel.set, h2] using h.capacity
  · simp [h3', ProducerOp.code, sync, h3]
  · simp [h3', ProducerOp.code, sync]

/-- The producer pushes and publishes `n` elements. -/
theorem pushes (h : Published P T s) {n : ℕ} (hn : T + n < P.limit) (hd : Distinct k s)
    (v : Vector W K) :
    ∃ t, DistinctReach P k s t ∧ Published P (T + n) t ∧ SameConsumers s t := by
  induction n with
  | zero => exact ⟨s, .refl, h, rfl, rfl, rfl⟩
  | succ n ih =>
      obtain ⟨t, hr, ht, hsame⟩ := ih (by omega)
      obtain ⟨u, hr', hu, hsame'⟩ := ht.pushed hn (hsame.distinct hd) v
      exact ⟨u, hr.trans hr', hu, hsame.trans hsame'⟩

/-- The first consumer joins. -/
theorem joined (h : Published P T s) (hT : T < 2 ^ P.w) (hgone : ∀ i, s.consumer i = .rest .gone) :
    ∃ t, DistinctReach P 1 s t ∧ Published P T t ∧ Lone T t ∧ t.all = s.all := by
  have hothers : ∀ j, j ≠ 0 → (s.begins P 0 (.join 0 1)).consumer j = .rest .gone := fun j hj =>
    (s.begins_other hj _).trans (hgone j)
  have hdistinct : Distinct 1 (s.begins P 0 (.join 0 1)) := by
    refine distinct_of_lone ?_ hothers
    simp only [State.live, State.begins_self, ConsumerOp.index, ConsumerOp.interval]
  -- what the constructor does to the memory and to the structure
  obtain ⟨ch, m, q, hrun⟩ : ∃ ch m, Quiet s.ch ch ∧
      ((ConsumerOp.join 0 1).code P).run P.w s.ch (s.cursor 0) =
        ((.done (.ready, none) : ConsumerResult W K), ch, ⟨T, 1, 0, m⟩) := by
    have hnext : nextModulo P.w T 0 1 = T := by
      have hword := P.fits
      have hpos := P.pos
      have hfit : NextFits P.w T 0 1 := ⟨by omega, by simpa [nextResidue, Nat.mod_one] using hT⟩
      rw [hfit.eq Nat.one_pos]
      simp [nextResidue, Nat.mod_one]
    cases hmode : P.mode.backedByArcc
    · refine ⟨s.ch, s.ch.producerHeartbeat, .refl _, ?_⟩
      simp [ConsumerOp.code, joinMulti, P.valid, Channel.get, h.magic, h.capacity, h.tail, hnext,
        incrementStrongCount, hmode, ConsumerOp.install]
    · refine ⟨s.ch.set .strong (wadd P.w s.ch.strong 1), s.ch.producerHeartbeat,
        Quiet.set _ _ (by simp), ?_⟩
      simp [ConsumerOp.code, joinMulti, P.valid, Channel.get, Channel.set, h.magic, h.capacity,
        h.tail, hnext, incrementStrongCount, hmode, ConsumerOp.install]
  obtain ⟨t, hr, hdt, h1, h2, h3, h4⟩ := consumer_alone (P := P) _ (s.begins_self 0 _) hdistinct
  rw [show (s.begins P 0 (.join 0 1)).ch = s.ch from rfl,
    show (s.begins P 0 (.join 0 1)).cursor 0 = s.cursor 0 from rfl, hrun] at h1 h2 h3
  have hlone : Lone T (t.consumerGets 0 (s.cursor 0) .ready none) := by
    have hcursor : (t.consumerGets 0 (s.cursor 0) .ready none).cursor 0 = t.cursor 0 := rfl
    refine ⟨t.consumerGets_self _ _ _ _, ?_, ?_, ?_, fun j hj => ?_⟩
    · rw [hcursor, h3]
    · rw [hcursor, h3]
    · rw [hcursor, h3]
    · rw [t.consumerGets_other hj, h4.consumer j hj, hothers j hj]
  refine ⟨_, .head ⟨.consumerCall 0 (.join 0 1) (hgone 0) rfl, hdistinct⟩
    (.tail hr ⟨.consumerReturn h1, hlone.distinct⟩), ?_, hlone, ?_⟩
  · have hch : (t.consumerGets 0 (s.cursor 0) .ready none).ch = t.ch := rfl
    refine ⟨?_, ?_, ?_, h4.producer.trans h.producer, ?_, ?_⟩
    · rw [hch, h2, q.tail, h.tail]
    · rw [hch, h2, q.magic, h.magic]
    · rw [hch, h2, q.capacity, h.capacity]
    · exact (congrArg Producer.tail h4.own).trans h.own
    · exact (congrArg Producer.written h4.own).trans h.written
  · simp [State.consumerGets, h4.all, State.begins]

end Published

theorem published_initial {op : ProducerOp W K} (hop : op.initialises = true) {m : Channel W}
    (hm : m.magic = 0) : Published P 0 (State.initial P op m) := by
  have F := initial_fresh (P := P) hop hm
  exact ⟨F.tail, F.magic, F.capacity, F.producer, congrArg Producer.tail F.own,
    congrArg Producer.written F.own⟩

theorem distinct_initial (op : ProducerOp W K) (m : Channel W) :
    Distinct k (State.initial P op m) := by
  refine ⟨fun i x hx => ?_, fun i j x y hx => ?_⟩
  · simp [State.initial, State.opened, State.live] at hx
  · simp [State.initial, State.opened, State.live] at hx

/-! ### Schedules with distinct indices -/

/-- A move of the producer or of one of the first `n` consumers. -/
def Move.within (n : ℕ) : Move W K → Bool
  | .consumerCall i _ | .consumerGo i | .consumerStop i => decide (i < n)
  | _ => true

/-- Executable form of `Distinct` for the first `n` consumers. -/
def State.distinct (s : State W K) (k n : ℕ) : Bool :=
  (List.range n).all fun i => (List.range n).all fun j =>
    match s.live i, s.live j with
    | some x, some y => decide (x.1 < k ∧ x.2 = k ∧ (x.1 = y.1 → i = j))
    | _, _ => true

/-- The state after a schedule of the first `n` consumers, if their indices stay distinct. -/
def State.distinctMoves (P : Params) (k n : ℕ) (s : State W K) :
    List (Move W K) → Option (State W K)
  | [] => some s
  | m :: ms =>
      (s.move P m).bind fun t =>
        if m.within n && t.distinct k n then t.distinctMoves P k n ms else none

theorem State.move_consumer {s t : State W K} {m : Move W K} (h : s.move P m = some t) {n j : ℕ}
    (hm : m.within n = true) (hj : n ≤ j) : t.consumer j = s.consumer j := by
  have hne : ∀ {i}, decide (i < n) = true → j ≠ i := fun hi e => by
    rw [decide_eq_true_iff] at hi
    omega
  cases m with
  | producerCall op =>
      simp only [move] at h
      split at h
      · split_ifs at h
        cases h
        rfl
      · cases h
  | producerGo =>
      simp only [move] at h
      split at h <;> cases h <;> rfl
  | producerStop =>
      cases h
      rfl
  | consumerCall i op =>
      simp only [move] at h
      split at h
      · split_ifs at h
        cases h
        exact Function.update_of_ne (hne hm) _ _
      · cases h
  | consumerGo i =>
      simp only [move] at h
      split at h <;> cases h <;> exact Function.update_of_ne (hne hm) _ _
  | consumerStop i =>
      cases h
      exact Function.update_of_ne (hne hm) _ _

theorem State.distinct_spec {s : State W K} {k n : ℕ} (h : s.distinct k n = true)
    (hgone : ∀ j, n ≤ j → s.consumer j = .rest .gone) : Distinct k s := by
  have hlive : ∀ {j x}, s.live j = some x → j < n := by
    intro j x hx
    by_contra hge
    simp [State.live, hgone j (Nat.not_lt.mp hge)] at hx
  have hpair : ∀ {i j x y}, s.live i = some x → s.live j = some y →
      x.1 < k ∧ x.2 = k ∧ (x.1 = y.1 → i = j) := by
    intro i j x y hx hy
    have h1 := List.all_eq_true.mp h i (List.mem_range.mpr (hlive hx))
    have h2 := List.all_eq_true.mp h1 j (List.mem_range.mpr (hlive hy))
    simp only [hx, hy] at h2
    exact of_decide_eq_true h2
  exact ⟨fun i x hx => ⟨(hpair hx hx).1, (hpair hx hx).2.1⟩,
    fun i j x y hx hy => (hpair hx hy).2.2⟩

/-- A schedule whose indices stay distinct is a run with distinct indices. -/
theorem State.distinctMoves_reach {k n : ℕ} {ms : List (Move W K)} {s t : State W K}
    (hgone : ∀ j, n ≤ j → s.consumer j = .rest .gone) (h : s.distinctMoves P k n ms = some t) :
    DistinctReach P k s t := by
  induction ms generalizing s with
  | nil =>
      cases h
      exact .refl
  | cons m ms ih =>
      simp only [distinctMoves, Option.bind_eq_some_iff] at h
      obtain ⟨u, hu, ht⟩ := h
      split_ifs at ht with hc
      rw [Bool.and_eq_true] at hc
      have hgone' : ∀ j, n ≤ j → u.consumer j = .rest .gone := fun j hj =>
        (move_consumer hu hc.1 hj).trans (hgone j hj)
      exact .head ⟨move_step hu, distinct_spec hc.2 hgone'⟩ (ih hgone' ht)

end Que.Headless
