import Que.Lossless.Agree

/-! # Counters that wrap

The system of `Lossless/System.lean` makes a call only while the positions it asks for are below
`2 ^ w`.  Here calls are made whatever the counters are (`WrapStep`), so the words wrap.

Every run with wrapping words is followed by a run with words of a greater width, in which nothing
wraps (`Image.step`, `WrapReach.twins`).  That run does not take part in the calls that leave the
counters alone (heartbeats), nor in pops that return `None`: it makes the call of a pop when the
tail that was loaded shows something to read. -/

namespace Que.Lossless

open Lib

variable {V : Type}

/-! ### Steps without a limit -/

/-- One step of the channel when the counters may wrap: a call is made whatever they are. -/
inductive WrapStep (C : Config) : State V → State V → Prop
  | step {s t : State V} : Step C s t → WrapStep C s t
  | producerCall {s : State V} {st : ProducerStatus} (op : ProducerOp V) :
      s.producer = .rest st → op.enabled st = true →
      WrapStep C s { s with producer := .busy s.handle op (op.code C) }

/-- `WrapReach C s₀ s`: a run of any length leads from `s₀` to `s`. -/
abbrev WrapReach (C : Config) : State V → State V → Prop := Relation.ReflTransGen (WrapStep C)

/-! ### Images -/

/-- The channel `a` is `b` with wrapped counters; heartbeats and the strong count do not matter. -/
structure Wraps (w : ℕ) (a b : Channel V) : Prop where
  word : ∀ x, SameWord w x (a.get x) (b.get x)
  buffer : a.buffer = b.buffer

/-- An action after which the own structure is still related to `l'`, and which leaves the counters
and slots of the channel alone. -/
def StandsBack {L : Type} (rel : L → L → Prop) : Act L V → Prop
  | .load _ | .self | .dropArc => True
  | .fetchAdd x _ => x = .producerHeartbeat ∨ x = .consumerHeartbeat ∨ x = .strong
  | .update f => ∀ l l', rel l l' → rel (f l) l'
  | _ => False

/-- The producer's threads: they take the same steps, or the first makes a call that leaves the
counters alone while the second is at rest. -/
inductive ProducerImage (C : Config) (w' : ℕ) (h h' : Handle) :
    ProducerThread V → ProducerThread V → Prop
  | rest (st : ProducerStatus) : ProducerImage C w' h h' (.rest st) (.rest st)
  | busy {start start' : Handle} {op : ProducerOp V}
      {code code' : Proc Handle V (ProducerStatus × List V)} :
      AgreeP C w' op.isJoin code code' h h' →
      ProducerImage C w' h h' (.busy start op code) (.busy start' op code')
  | apart {start : Handle} {op : ProducerOp V} {code : Proc Handle V (ProducerStatus × List V)}
      {st : ProducerStatus} :
      code.All (StandsBack (HandleWraps C.w w')) (fun r => r.1 = st ∨ r.1 = .gone) →
      ProducerImage C w' h h' (.busy start op code) (.rest st)

/-- The consumer's threads: they take the same steps, or the second is at rest while the first makes
a call that leaves the counters alone, or has not yet found out whether there is something to
read. -/
inductive ConsumerImage (C : Config) (c c' : Consumer) :
    ConsumerThread V → ConsumerThread V → Prop
  | rest (st : ConsumerStatus) : ConsumerImage C c c' (.rest st) (.rest st)
  | busy {start start' : Consumer} {op : ConsumerOp V}
      {code code' : Proc Consumer V (ConsumerStatus × Option V)} :
      AgreeC C code code' c c' → ConsumerImage C c c' (.busy start op code) (.busy start' op code')
  | apart {start : Consumer} {op : ConsumerOp V}
      {code : Proc Consumer V (ConsumerStatus × Option V)} : op.isJoin = false →
      code.All (StandsBack (CursorWraps C.w)) (fun r => r.2 = none ∧ (r.1 = .ready ∨ r.1 = .gone)) →
      ConsumerImage C c c' (.busy start op code) (.rest .ready)
  | asking {start : Consumer} {op : ConsumerOp V} : op.polls = true →
      ConsumerImage C c c'
        (.busy start op (.act .self fun c => .act (.load .tail) (pollRest C op c))) (.rest .ready)
  | loading {start : Consumer} {op : ConsumerOp V} : op.polls = true →
      ConsumerImage C c c' (.busy start op (.act (.load .tail) (pollRest C op c))) (.rest .ready)

/-- The state `s` with wrapped counters, and the state `u` with positions. -/
structure Image (C : Config) (w' : ℕ) (s u : State V) : Prop where
  ch : Wraps C.w s.ch u.ch
  handle : HandleWraps C.w w' s.handle u.handle
  cursor : CursorWraps C.w s.cursor u.cursor
  producer : ProducerImage C w' s.handle u.handle s.producer u.producer
  consumer : ConsumerImage C s.cursor u.cursor s.consumer u.consumer
  received : s.received = u.received

namespace Wraps
variable {w : ℕ} {a b : Channel V}

theorem set (W : Wraps w a b) {x : Word} {m n : ℕ} (h : SameWord w x m n) :
    Wraps w (a.set x m) (b.set x n) := by
  constructor
  · intro y
    have hy := W.word y
    cases x <;> cases y <;> first | exact h | exact hy
  · cases x <;> exact W.buffer

/-- Heartbeats and the strong count do not matter. -/
theorem count (W : Wraps w a b) {x : Word} (m : ℕ)
    (h : x = .producerHeartbeat ∨ x = .consumerHeartbeat ∨ x = .strong) :
    Wraps w (a.set x m) b := by
  constructor
  · intro y
    have hy := W.word y
    rcases h with rfl | rfl | rfl <;> cases y <;> exact hy
  · rcases h with rfl | rfl | rfl <;> exact W.buffer

theorem write (W : Wraps w a b) (i : ℕ) (v : V) : Wraps w (a.write i v) (b.write i v) := by
  constructor
  · intro y
    have hy := W.word y
    cases y <;> exact hy
  · simp only [Channel.write, W.buffer]

/-- An action that stands back changes nothing that matters. -/
theorem standsBack {L : Type} {rel : L → L → Prop} (W : Wraps w a b) {act : Act L V}
    (h : StandsBack rel act) (w₀ : ℕ) {l l' : L} (hl : rel l l') :
    Wraps w (act.step w₀ (a, l)).2.1 b ∧ rel (act.step w₀ (a, l)).2.2 l' := by
  cases act with
  | load x => exact ⟨W, hl⟩
  | self => exact ⟨W, hl⟩
  | fetchAdd x n => exact ⟨W.count _ h, hl⟩
  | update f => exact ⟨W, h l l' hl⟩
  | dropArc => exact ⟨W.count _ (.inr (.inr rfl)), hl⟩
  | _ => exact h.elim

end Wraps

/-- One action of two codes that agree. -/
theorem Agree.act {w : ℕ} {L α : Type} {rel : L → L → Prop} {cond : Word → L → ℕ → ℕ → Prop}
    {Q : α → α → L → L → Prop} {a : Act L V} {k : a.Ans → Proc L V α} {c' : Proc L V α} {l l' : L}
    (A : Agree w rel cond Q (.act a k) c' l l') {ch ch' : Channel V} (W : Wraps w ch ch')
    (hl : rel l l') (hcond : ∀ x, cond x l' (ch.get x) (ch'.get x)) (w₁ w₂ : ℕ) :
    ∃ (a' : Act L V) (k' : a'.Ans → Proc L V α), c' = .act a' k' ∧
      Wraps w (a.step w₁ (ch, l)).2.1 (a'.step w₂ (ch', l')).2.1 ∧
      rel (a.step w₁ (ch, l)).2.2 (a'.step w₂ (ch', l')).2.2 ∧
      Agree w rel cond Q (k (a.step w₁ (ch, l)).1) (k' (a'.step w₂ (ch', l')).1)
        (a.step w₁ (ch, l)).2.2 (a'.step w₂ (ch', l')).2.2 := by
  cases A with
  | self h => exact ⟨_, _, rfl, W, hl, h⟩
  | update hr h => exact ⟨_, _, rfl, W, hr, h⟩
  | load h => exact ⟨_, _, rfl, W, hl, h _ _ (hcond _)⟩
  | store hs h => exact ⟨_, _, rfl, W.set hs, hl, h⟩
  | @fetchAdd x v _ _ _ _ hx h =>
      refine ⟨_, _, rfl, W.set ?_, hl, h _ _⟩
      rcases hx with rfl | rfl | rfl <;> trivial
  | read h =>
      refine ⟨_, _, rfl, W, hl, ?_⟩
      simp only [Act.step, W.buffer]
      exact h _
  | assign h => exact ⟨_, _, rfl, W.write _ _, hl, h⟩
  | copy h => exact ⟨_, _, rfl, W.write _ _, hl, h⟩

theorem given_congr {ch ch' : Channel V} (h : ch.buffer = ch'.buffer) (op : ConsumerOp V)
    (r : ConsumerStatus × Option V) : given ch op r = given ch' op r := by
  unfold given
  rw [h]

/-- A call that ends without a value and without an element gives nothing. -/
theorem given_eq_nil {ch : Channel V} {op : ConsumerOp V} {r : ConsumerStatus × Option V}
    (hnone : r.2 = none) (hst : r.1 = .ready ∨ r.1 = .gone) : given ch op r = [] := by
  obtain ⟨st, value⟩ := r
  subst hnone
  rcases hst with rfl | rfl <;> cases op <;> rfl

/-! ### Following one step -/

/-- Some run from `u` leads to a state whose wrapped image is `t`; it uses up at most one ring of
positions. -/
def Followed (C : Config) {w' : ℕ} (hw : C.w ≤ w') (t u : State V) : Prop :=
  ∃ u', Reach (C.widen w' hw) u u' ∧ Image C w' t u' ∧ u'.ch.tail ≤ u.ch.tail + C.N

/-- One step of the producer publishes at most one ring. -/
theorem ProducerChange.tail_le_add {C : Config} {a b : Channel V} {pub pub' : ℕ → Option V}
    (h : ProducerChange C a b pub pub') (hle : a.head ≤ a.tail) : b.tail ≤ a.tail + C.N := by
  have h1 := h.head
  by_cases e : b.tail = a.tail
  · omega
  · have := h.room e
    omega

theorem Sound.tail_step {C : Config} {s t : State V} (S : Sound C s) (h : Step C s t) :
    t.ch.tail ≤ s.ch.tail + C.N := by
  cases h with
  | producerAct hp =>
      exact (S.producer_act (fun _ => S.room) hp).1.change.tail_le_add S.base.head_le
  | consumerAct hc => exact (S.consumer_act hc).1.change.tail.trans_le (Nat.le_add_right _ _)
  | _ => exact Nat.le_add_right _ _

section follow
variable {C : Config} {w' : ℕ} {hw : C.w ≤ w'} {s t u u' : State V}

/-- The second run stays where it is. -/
theorem Image.stay (I : Image C w' t u) : Followed C hw t u :=
  ⟨u, .refl, I, Nat.le_add_right _ _⟩

/-- The second run takes one step as well. -/
theorem Image.along (S : Sound (C.widen w' hw) u) (h : Step (C.widen w' hw) u u')
    (I : Image C w' t u') : Followed C hw t u :=
  ⟨u', .single h, I, S.tail_step h⟩

/-! ### Steps of the producer -/

/-- What the producer loads, with wrapped counters and with positions. -/
theorem Image.producerLoads (I : Image C w' s u) (S : Sound (C.widen w' hw) u)
    {start' : Handle} {op : ProducerOp V} {code' : Proc Handle V (ProducerStatus × List V)}
    (hp : u.producer = .busy start' op code') (x : Word) :
    ProducerLoads C w' op.isJoin x u.handle (s.ch.get x) (u.ch.get x) := by
  refine ⟨I.ch.word x, ?_, ?_, ?_, ?_⟩
  · rintro rfl
    exact S.base.magic
  · rintro rfl
    exact S.base.capacity
  · rintro rfl
    exact S.base.tail_lt
  · rintro rfl hjoin
    have hf := S.producer
    rw [hp] at hf
    have hb := hf.1
    simp only [producerBound, hjoin, Bool.false_eq_true, if_false] at hb
    exact ⟨S.base.head_le.trans hb.1, hb.2⟩

theorem ProducerOp.all_apart {op : ProducerOp V} (h : op.apart = true) (w' : ℕ) :
    (op.code C).All (StandsBack (HandleWraps C.w w')) fun r => r.1 = .ready ∨ r.1 = .gone := by
  cases op with
  | beat => exact ⟨.inl rfl, fun _ => .inl rfl⟩
  | consumerHeartbeat =>
      refine ⟨trivial, fun n => ⟨trivial, fun h => ?_⟩⟩
      show Prog.All _ _ ((if _ then _ else _ : Proc Handle V Bool) >>= _)
      rw [Prog.all_bind, Prog.all_ite]
      refine ⟨fun _ => ⟨fun l l' hl => ?_, fun _ => .inl rfl⟩, fun _ => .inl rfl⟩
      exact ⟨hl.tail, hl.written, hl.startTail, hl.count, hl.filled, hl.lt⟩
  | drop =>
      simp only [ProducerOp.code, dropEndpoint]
      cases C.mode.backedByArcc with
      | false => exact .inr rfl
      | true => exact ⟨trivial, fun _ => .inr rfl⟩
  | _ => cases h

theorem ProducerOp.ready_of_apart {op : ProducerOp V} {st : ProducerStatus} (h : op.apart = true)
    (hen : op.enabled st = true) : st = .ready := by
  cases op <;> cases st <;> first | rfl | (cases hen; done) | cases h

/-- A call on a reservation finds it within the free space. -/
theorem Sound.reserved (S : Sound (C.widen w' hw) u) (hp : u.producer = .rest .reserved) :
    Reserved C u.handle := by
  have hf := S.producer
  rw [hp] at hf
  obtain ⟨own, hcount, -⟩ : Open (C.widen w' hw) u.producerView := hf
  have h1 : u.handle.producer.tail + u.handle.reservation.written + 0 ≤
    u.handle.producer.tail + u.handle.reservation.count := own.fill_le
  have h2 : u.handle.producer.tail + u.handle.reservation.count ≤ u.ch.head + C.N := own.room
  have h3 : u.ch.tail + u.handle.producer.written = u.handle.producer.tail := hcount
  have h4 := S.base.head_le
  have h5 := C.fits
  exact ⟨⟨by omega, by omega⟩, by omega⟩

/-- A call of the producer: the second run makes it too, unless it leaves the counters alone. -/
theorem Image.producerCall (S : Sound (C.widen w' hw) u) (I : Image C w' s u)
    (hroom : u.ch.tail + 2 * C.N < 2 ^ w') {st : ProducerStatus} (op : ProducerOp V)
    (hp : s.producer = .rest st) (hen : op.enabled st = true) :
    Followed C hw { s with producer := .busy s.handle op (op.code C) } u := by
  have himage := I.producer
  rw [hp] at himage
  generalize hq : u.producer = thread at himage
  cases himage with
  | rest _ =>
      cases hop : op.apart with
      | true =>
          obtain rfl := ProducerOp.ready_of_apart hop hen
          refine Image.stay ⟨I.ch, I.handle, I.cursor, ?_, I.consumer, I.received⟩
          rw [hq]
          exact .apart (ProducerOp.all_apart hop w')
      | false =>
          have hlt : u.handle.producer.tail + op.demand (C.widen w' hw) < 2 ^ w' := by
            rcases Decidable.em (st = .gone) with rfl | hst
            · have hzero : op.demand (C.widen w' hw) = 0 := by
                cases op <;> first | rfl | cases hen
              rw [hzero]
              exact I.handle.lt
            · have hf := S.producer
              rw [hq] at hf
              obtain ⟨h1, h2⟩ : TailBound (C.widen w' hw) u.producerView :=
                ProducerRest.tailBound hf hst
              have h3 : u.handle.producer.tail ≤ u.ch.head + C.N := h2
              have h4 := S.base.head_le
              have h5 : op.demand (C.widen w' hw) ≤ C.N := op.demand_le _
              omega
          have hres : op.onReservation = true → Reserved C u.handle := by
            intro h
            rw [ProducerOp.reserved_of_onReservation h hen] at hq
            exact S.reserved hq
          refine Image.along S (.producerCall op hq hen hlt)
            ⟨I.ch, I.handle, I.cursor, ?_, I.consumer, I.received⟩
          exact .busy (op.code_agree hw I.handle hres hop)

/-- An action of the producer. -/
theorem Image.producerAct (S : Sound (C.widen w' hw) u) (I : Image C w' s u) {start : Handle}
    {op : ProducerOp V} {a : Act Handle V} {k : a.Ans → Proc Handle V (ProducerStatus × List V)}
    (hp : s.producer = .busy start op (.act a k)) :
    Followed C hw (s.producerDoes C a fun x => .busy start op (k x)) u := by
  have himage := I.producer
  rw [hp] at himage
  generalize hq : u.producer = thread at himage
  cases himage with
  | busy A =>
      obtain ⟨a', k', rfl, hch, hhandle, A'⟩ :=
        A.act I.ch I.handle (I.producerLoads S hq) C.w w'
      exact Image.along S (.producerAct hq)
        ⟨hch, hhandle, I.cursor, .busy A', I.consumer, I.received⟩
  | apart h =>
      obtain ⟨hch, hhandle⟩ := I.ch.standsBack h.1 C.w I.handle
      refine Image.stay ⟨hch, hhandle, I.cursor, ?_, I.consumer, I.received⟩
      rw [hq]
      exact .apart (h.2 _)

/-- A call of the producer returns. -/
theorem Image.producerReturn (S : Sound (C.widen w' hw) u) (I : Image C w' s u) {start : Handle}
    {op : ProducerOp V} {r : ProducerStatus × List V}
    (hp : s.producer = .busy start op (.ret r)) (wrote : ℕ → Option V) :
    Followed C hw { s with producer := .rest r.1, wrote := wrote } u := by
  have himage := I.producer
  rw [hp] at himage
  generalize hq : u.producer = thread at himage
  cases himage with
  | busy A =>
      cases A with
      | ret h =>
          subst h
          exact Image.along S (.producerReturn hq)
            ⟨I.ch, I.handle, I.cursor, .rest _, I.consumer, I.received⟩
  | apart h =>
      rcases h with h | h
      · refine Image.stay ⟨I.ch, I.handle, I.cursor, ?_, I.consumer, I.received⟩
        rw [hq, h]
        exact .rest _
      · refine Image.along S .producerStop ⟨I.ch, I.handle, I.cursor, ?_, I.consumer, I.received⟩
        rw [h]
        exact .rest _

/-! ### Steps of the consumer -/

/-- What the consumer loads, with wrapped counters and with positions. -/
theorem Image.consumerLoads (I : Image C w' s u) (S : Sound (C.widen w' hw) u) (x : Word) :
    ConsumerLoads C x (s.ch.get x) (u.ch.get x) := by
  refine ⟨I.ch.word x, ?_, ?_⟩
  · rintro rfl
    exact S.base.magic
  · rintro rfl
    exact S.base.capacity

theorem ConsumerOp.all_apart {op : ConsumerOp V} (h : op.apart = true) (st : ConsumerStatus) :
    (op.code C st).All (StandsBack (CursorWraps C.w))
      fun r => r.2 = none ∧ (r.1 = .ready ∨ r.1 = .gone) := by
  cases op with
  | beat => exact ⟨.inr (.inl rfl), fun _ => ⟨rfl, .inl rfl⟩⟩
  | producerHeartbeat =>
      refine ⟨trivial, fun n => ⟨trivial, fun c => ?_⟩⟩
      show Prog.All _ _ ((if _ then _ else _ : Proc Consumer V Bool) >>= _)
      rw [Prog.all_bind, Prog.all_ite]
      refine ⟨fun _ => ⟨fun l l' hl => ?_, fun _ => ⟨rfl, .inl rfl⟩⟩, fun _ => ⟨rfl, .inl rfl⟩⟩
      exact ⟨hl.head, hl.items⟩
  | drop =>
      simp only [ConsumerOp.code, dropEndpoint]
      cases C.mode.backedByArcc with
      | false => exact ⟨rfl, .inr rfl⟩
      | true => exact ⟨trivial, fun _ => ⟨rfl, .inr rfl⟩⟩
  | _ => cases h

theorem ConsumerOp.ready_of_apart {op : ConsumerOp V} {st : ConsumerStatus} (h : op.apart = true)
    (hen : op.enabled st = true) : st = .ready ∧ op.isJoin = false := by
  cases op <;> cases st <;> first | exact ⟨rfl, rfl⟩ | (cases hen; done) | cases h

theorem ConsumerOp.ready_of_polls {op : ConsumerOp V} {st : ConsumerStatus} (h : op.polls = true)
    (hen : op.enabled st = true) : st = .ready := by
  cases op <;> cases st <;> first | rfl | (cases hen; done) | cases h

theorem ConsumerOp.enabled_of_polls {op : ConsumerOp V} (h : op.polls = true) :
    op.enabled .ready = true := by
  cases op <;> first | rfl | cases h

theorem ConsumerOp.isJoin_of_polls {op : ConsumerOp V} (h : op.polls = true) :
    op.isJoin = false := by
  cases op <;> first | rfl | cases h

/-- Between two calls, the consumer has counted less than a burst. -/
theorem Sound.items_lt (S : Sound (C.widen w' hw) u) {st : ConsumerStatus}
    (hc : u.consumer = .rest st) (hst : st ≠ .gone) :
    u.cursor.itemsSinceLastSync + 1 < 2 ^ C.w := by
  have hs : InStep (C.widen w' hw) u.consumerView := S.inStep_of_rest hc hst
  have h1 : u.cursor.itemsSinceLastSync < burstAmount C.N := hs.items
  have h2 := burstAmount_le C.pos
  have h3 := C.fits
  omega

/-- A call of the consumer. -/
theorem Image.consumerCall (S : Sound (C.widen w' hw) u) (I : Image C w' s u) {st : ConsumerStatus}
    (op : ConsumerOp V) (hc : s.consumer = .rest st) (hen : op.enabled st = true) :
    Followed C hw { s with consumer := .busy s.cursor op (op.code C st) } u := by
  have himage := I.consumer
  rw [hc] at himage
  generalize hq : u.consumer = thread at himage
  cases himage with
  | rest _ =>
      rcases hop : op.apart with _ | _
      · rcases hpoll : op.polls with _ | _
        · have hlt : op = .elementDrop → u.cursor.itemsSinceLastSync + 1 < 2 ^ C.w := by
            rintro rfl
            apply S.items_lt hq
            rintro rfl
            cases hen
          exact Image.along S (.consumerCall op hq hen) ⟨I.ch, I.handle, I.cursor, I.producer,
            .busy (op.code_agree hw st I.cursor hlt hop hpoll), I.received⟩
        -- a pop: the second run waits for the tail
        · obtain rfl := ConsumerOp.ready_of_polls hpoll hen
          refine Image.stay ⟨I.ch, I.handle, I.cursor, I.producer, ?_, I.received⟩
          rw [hq, poll_code hpoll]
          exact .asking hpoll
      · obtain ⟨rfl, hjoin⟩ := ConsumerOp.ready_of_apart hop hen
        refine Image.stay ⟨I.ch, I.handle, I.cursor, I.producer, ?_, I.received⟩
        rw [hq]
        exact .apart hjoin (ConsumerOp.all_apart hop _)

/-- A pop, up to the load of the tail. -/
theorem reach_polled {op : ConsumerOp V} (hpoll : op.polls = true)
    (hc : s.consumer = .rest .ready) :
    Reach C s { s with consumer := .busy s.cursor op (pollRest C op s.cursor s.ch.tail) } := by
  have hcall := Step.consumerCall (C := C) op hc (ConsumerOp.enabled_of_polls hpoll)
  rw [poll_code hpoll] at hcall
  have hself := Step.consumerAct (C := C) (s := State.mk s.ch s.producer s.handle
    (.busy s.cursor op (.act .self fun c => .act (.load .tail) (pollRest C op c)))
    s.cursor s.wrote s.published s.joinedAt s.received) rfl
  have hload := Step.consumerAct (C := C) (s := State.mk s.ch s.producer s.handle
    (.busy s.cursor op (.act (.load .tail) (pollRest C op s.cursor)))
    s.cursor s.wrote s.published s.joinedAt s.received) rfl
  exact .tail (.tail (.single hcall) hself) hload

/-- The tail is loaded: the second run makes the call if there is something to read. -/
theorem Image.loaded (S : Sound (C.widen w' hw) u) (I : Image C w' s u) {start : Consumer}
    {op : ConsumerOp V} (hpoll : op.polls = true) (hq : u.consumer = .rest .ready) :
    Followed C hw { s with consumer := .busy start op (pollRest C op s.cursor s.ch.tail) } u := by
  by_cases hle : s.ch.tail ≤ s.cursor.head
  · refine Image.stay ⟨I.ch, I.handle, I.cursor, I.producer, ?_, I.received⟩
    rw [hq]
    refine .apart (ConsumerOp.isJoin_of_polls hpoll) ?_
    unfold pollRest
    rw [if_pos hle]
    exact ⟨rfl, .inl rfl⟩
  · have hf := S.consumer
    rw [hq] at hf
    have hbound : u.cursor.head ≤ u.ch.tail := hf.2.le_tail
    have hlt : ¬ u.ch.tail ≤ u.cursor.head := by
      intro hge
      have heq : u.ch.tail = u.cursor.head := Nat.le_antisymm hge hbound
      have hword : s.ch.tail = u.ch.tail % 2 ^ C.w := I.ch.word .tail
      rw [hword, I.cursor.head, heq] at hle
      exact hle le_rfl
    exact ⟨_, reach_polled hpoll hq, ⟨I.ch, I.handle, I.cursor, I.producer,
      .busy (pollRest_agree hw I.cursor (S.items_lt hq (by simp)) hle hlt), I.received⟩,
      Nat.le_add_right _ _⟩

/-- An action of the consumer. -/
theorem Image.consumerAct (S : Sound (C.widen w' hw) u) (I : Image C w' s u) {start : Consumer}
    {op : ConsumerOp V} {a : Act Consumer V}
    {k : a.Ans → Proc Consumer V (ConsumerStatus × Option V)}
    (hc : s.consumer = .busy start op (.act a k)) :
    Followed C hw (s.consumerDoes C a fun x => .busy start op (k x)) u := by
  have himage := I.consumer
  rw [hc] at himage
  generalize hq : u.consumer = thread at himage
  cases himage with
  | busy A =>
      obtain ⟨a', k', rfl, hch, hcursor, A'⟩ :=
        A.act I.ch I.cursor (I.consumerLoads S) C.w w'
      exact Image.along S (.consumerAct hq)
        ⟨hch, I.handle, hcursor, I.producer, .busy A', I.received⟩
  | apart hjoin h =>
      obtain ⟨hch, hcursor⟩ := I.ch.standsBack h.1 C.w I.cursor
      refine Image.stay ⟨hch, I.handle, hcursor, I.producer, ?_, I.received⟩
      rw [hq]
      exact .apart hjoin (h.2 _)
  | asking hpoll =>
      refine Image.stay ⟨I.ch, I.handle, I.cursor, I.producer, ?_, I.received⟩
      rw [hq]
      exact .loading hpoll
  | loading hpoll => exact I.loaded S hpoll hq

/-- A call of the consumer returns. -/
theorem Image.consumerReturn (S : Sound (C.widen w' hw) u) (I : Image C w' s u) {start : Consumer}
    {op : ConsumerOp V} {r : ConsumerStatus × Option V}
    (hc : s.consumer = .busy start op (.ret r)) (joinedAt : ℕ) :
    Followed C hw { s with
      consumer := .rest r.1
      joinedAt := joinedAt
      received := s.receivedAfter op r } u := by
  have himage := I.consumer
  rw [hc] at himage
  generalize hq : u.consumer = thread at himage
  cases himage with
  | busy A =>
      cases A with
      | ret h =>
          subst h
          refine Image.along S (.consumerReturn hq)
            ⟨I.ch, I.handle, I.cursor, I.producer, .rest _, ?_⟩
          simp only [State.receivedAfter, I.received, given_congr I.ch.buffer]
  | apart hjoin h =>
      obtain ⟨hnone, hst⟩ := h
      have hreceived : s.receivedAfter op r = u.received := by
        rw [State.receivedAfter, hjoin, if_neg (by simp), given_eq_nil hnone hst, List.append_nil]
        exact I.received
      rcases hst with hst | hst
      · refine Image.stay ⟨I.ch, I.handle, I.cursor, I.producer, ?_, hreceived⟩
        rw [hq, hst]
        exact .rest _
      · refine Image.along S .consumerStop ⟨I.ch, I.handle, I.cursor, I.producer, ?_, hreceived⟩
        rw [hst]
        exact .rest _

/-- **One step with wrapping words is followed**, while one more ring of positions fits into the
wide words. -/
theorem Image.step (I : Image C w' s u) (S : Sound (C.widen w' hw) u)
    (hroom : u.ch.tail + 2 * C.N < 2 ^ w') (h : WrapStep C s t) : Followed C hw t u := by
  cases h with
  | producerCall op hp hen => exact I.producerCall S hroom op hp hen
  | step h =>
      cases h with
      | producerCall op hp hen _ => exact I.producerCall S hroom op hp hen
      | producerAct hp => exact I.producerAct S hp
      | producerReturn hp => exact I.producerReturn S hp _
      | producerStop =>
          exact Image.along S .producerStop
            ⟨I.ch, I.handle, I.cursor, .rest _, I.consumer, I.received⟩
      | consumerCall op hc hen => exact I.consumerCall S op hc hen
      | consumerAct hc => exact I.consumerAct S hc
      | consumerReturn hc => exact I.consumerReturn S hc _
      | consumerStop =>
          exact Image.along S .consumerStop
            ⟨I.ch, I.handle, I.cursor, I.producer, .rest _, I.received⟩

end follow

/-! ### Following a run -/

theorem initial_reservation {C : Config} {op : ProducerOp V} (hop : op.initialises = true)
    {m : Channel V} (hm : m.magic = 0) :
    (State.initial C op m).handle.reservation = ⟨0, 0, 0, false⟩ := by
  have hz : ¬ (0 = MAGIC) := fun h => MAGIC_ne_zero h.symm
  have hmode : C.mode = .shmem ∨ C.mode = .local := by cases C.mode <;> simp
  cases op with
  | joinOrInitializeIn =>
      rcases hmode with e | e <;>
        simp [State.initial, ProducerOp.code, joinOrInitializeIn, C.valid, incrementStrongCount,
          Mode.backedByArcc, e, Channel.get, Channel.set, hm, hz, ProducerOp.install]
  | joinOrCreateShmem =>
      simp [State.initial, ProducerOp.code, joinOrCreateShmem, Channel.get, hm, hz,
        ProducerOp.install]
  | _ => cases hop

/-- Both runs start alike. -/
theorem initial_image {C : Config} {w' : ℕ} (hw : C.w ≤ w') {op : ProducerOp V}
    (hop : op.initialises = true) (z : V) :
    Image C w' (State.initial C op (.zeroed z)) (State.initial (C.widen w' hw) op (.zeroed z)) := by
  have F := initial_fresh (C := C) hop (m := .zeroed z) rfl
  have F' := initial_fresh (C := C.widen w' hw) hop (m := .zeroed z) rfl
  have r := initial_reservation (C := C) hop (m := .zeroed z) rfl
  have r' := initial_reservation (C := C.widen w' hw) hop (m := .zeroed z) rfl
  refine ⟨⟨fun x => ?_, F.buffer.trans F'.buffer.symm⟩, ⟨?_, ?_, ?_, ?_, ?_, ?_⟩,
    ⟨(Nat.zero_mod _).symm, (Nat.zero_mod _).symm⟩, ?_, .rest _, rfl⟩
  · cases x with
    | tail => simp [SameWord, Channel.get, F.tail, F'.tail]
    | head =>
        simp only [SameWord, Channel.get, F.head, F'.head]
        exact (Nat.zero_mod _).symm
    | magic => exact F.magic.trans F'.magic.symm
    | capacity => exact F.capacity.trans F'.capacity.symm
    | _ => trivial
  · simp [F.handle, F'.handle]
  · simp [F.handle, F'.handle]
  · simp [r, r']
  · rw [r, r']
  · rw [r, r']
  · rw [F'.handle]
    exact Nat.two_pow_pos _
  · rw [F.producer, F'.producer]
    exact .rest _

/-- Two runs side by side from a freshly initialised channel, to `s` with wrapping words and to `u`
with words of width `w'`: after every step of the first, the second is brought to a state of which
the first is the wrapped image. -/
inductive Twins (C : Config) {w' : ℕ} (hw : C.w ≤ w') (op : ProducerOp V) (z : V) :
    State V → State V → Prop
  | start : Twins C hw op z (State.initial C op (.zeroed z))
      (State.initial (C.widen w' hw) op (.zeroed z))
  | step {s t u u' : State V} : Twins C hw op z s u → WrapStep C s t →
      Reach (C.widen w' hw) u u' → Image C w' t u' → Twins C hw op z t u'

section twins
variable {C : Config} {w' : ℕ} {hw : C.w ≤ w'} {op : ProducerOp V} {z : V} {s u : State V}

theorem Twins.image (hop : op.initialises = true) (h : Twins C hw op z s u) : Image C w' s u := by
  cases h with
  | start => exact initial_image hw hop z
  | step _ _ _ I => exact I

theorem Twins.sound (hop : op.initialises = true) (h : Twins C hw op z s u) :
    Sound (C.widen w' hw) u := by
  induction h with
  | start => exact initial_sound hop rfl rfl
  | step _ _ hr _ ih => exact ih.run hr

/-- **Every run with wrapping words is followed** by a run with words that are wide enough. -/
theorem WrapReach.twins (hop : op.initialises = true)
    (h : WrapReach C (State.initial C op (.zeroed z)) s) :
    ∃ n, ∀ w' (hw : C.w ≤ w'), (n + 2) * C.N < 2 ^ w' →
      ∃ u, Twins C hw op z s u ∧ u.ch.tail ≤ n * C.N := by
  induction h with
  | refl =>
      refine ⟨0, fun w' hw _ => ⟨_, .start, ?_⟩⟩
      rw [(initial_fresh (C := C.widen w' hw) hop (m := .zeroed z) rfl).tail]
      exact Nat.zero_le _
  | tail _ hstep ih =>
      obtain ⟨n, hn⟩ := ih
      refine ⟨n + 1, fun w' hw hlt => ?_⟩
      have hsmaller : (n + 2) * C.N < 2 ^ w' :=
        (Nat.mul_le_mul_right _ (by omega)).trans_lt hlt
      obtain ⟨u, T, htail⟩ := hn w' hw hsmaller
      have hroom : u.ch.tail + 2 * C.N < 2 ^ w' := by
        rw [Nat.add_mul] at hsmaller
        omega
      obtain ⟨u', hr, I, hgrow⟩ := (T.image hop).step (T.sound hop) hroom hstep
      refine ⟨u', .step T hstep hr I, ?_⟩
      rw [Nat.add_mul]
      omega

end twins

end Que.Lossless
