import Que.Lossless.Abandon
import Que.Lossless.Sequential

/-! # Several calls that act as one step

A series of calls of the producer writes some values, counts them and publishes at most once, while
the consumer keeps moving.  `State.append C s vs` does the same in one step.  This module carries a
series of calls, action by action, to that step.

* **Twin states.** `real` is the state of the run; in `shadow` the producer has done nothing yet,
  and the consumer makes the same moves.  The two channels differ in the slots behind the local
  tail of the shadow only (`Overlaid`), which the consumer never looks at.
* **The step.** When the run stores the tail, the shadow appends all values; a series that does not
  store the tail appends them at its end.
* **Calls.** `SafeCalls` is `Safe` for a list of calls.  A schedule that performs calls that are
  safe ends like the consumer's moves with one `append` among them (`Shadowed.performed`), and
  calls that are safe can be performed alone (`SafeCalls.alone`). -/

namespace Que

open Lib

variable {V : Type}

/-! ### Writes that do not meet -/

namespace Channel

theorem set_write (ch : Channel V) (x : Word) (n i : ℕ) (v : V) :
    (ch.write i v).set x n = (ch.set x n).write i v := by
  cases x <;> rfl

theorem writeAlong_set (ch : Channel V) (f : ℕ → ℕ) (vs : List V) (x : Word) (n : ℕ) :
    (ch.writeAlong f vs).set x n = (ch.set x n).writeAlong f vs := by
  induction vs generalizing ch f with
  | nil => rfl
  | cons v vs ih => simp only [writeAlong, ih, set_write]

theorem writeAlong_write {f : ℕ → ℕ} {vs : List V} {i : ℕ} (ch : Channel V) (v : V)
    (h : ∀ j, j < vs.length → f j ≠ i) :
    (ch.writeAlong f vs).write i v = (ch.write i v).writeAlong f vs := by
  induction vs generalizing ch f with
  | nil => rfl
  | cons x xs ih =>
      have hne : f 0 ≠ i := h 0 (by simp)
      have hcomm : (ch.write (f 0) x).write i v = (ch.write i v).write (f 0) x := by
        simp only [write, Function.update_comm hne]
      simp only [writeAlong]
      rw [ih _ fun j hj => h (j + 1) (by simpa using hj), hcomm]

end Channel

/-- An action on other cells does not see the values written to the ring, and leaves them there. -/
theorem Act.step_writeRing {L : Type} {w N p : ℕ} {vs : List V} (a : Act L V) (ch : Channel V)
    (l : L) (h : ∀ i, a.accessed = some i → ∀ j, j < vs.length → slot N (p + j) ≠ i) :
    a.step w (ch.writeRing N p vs, l) =
      ((a.step w (ch, l)).1, (a.step w (ch, l)).2.1.writeRing N p vs, (a.step w (ch, l)).2.2) := by
  have hget : ∀ x, (ch.writeRing N p vs).get x = ch.get x := ch.writeRing_get N p vs
  have hset : ∀ x n, (ch.writeRing N p vs).set x n = (ch.set x n).writeRing N p vs := fun x n =>
    ch.writeAlong_set _ vs x n
  have hstrong : (ch.writeRing N p vs).strong = ch.strong := hget .strong
  cases a with
  | load x => simp only [Act.step, hget]
  | store x n => simp only [Act.step, hset]
  | fetchAdd x n => simp only [Act.step, hget, hset]
  | read i =>
      have hcell : (ch.writeRing N p vs).buffer i = ch.buffer i := ch.writeAlong_of_ne (h i rfl)
      simp only [Act.step, hcell]
  | assign i v => simp only [Act.step, Channel.writeRing, ch.writeAlong_write v (h i rfl)]
  | copy i v => simp only [Act.step, Channel.writeRing, ch.writeAlong_write v (h i rfl)]
  | self => rfl
  | update f => rfl
  | dropArc => simp only [Act.step, hset, hstrong]

theorem record_nil {E : Type} (p : ℕ) (wrote : ℕ → Option E) : record p [] wrote = wrote := by
  funext q
  simp only [record, List.length_nil]
  rw [if_neg (by omega)]

/-- What two calls record one behind the other, one call would record. -/
theorem record_append {E : Type} (p : ℕ) (xs ys : List E) (wrote : ℕ → Option E) :
    record (p + xs.length) ys (record p xs wrote) = record p (xs ++ ys) wrote := by
  funext q
  simp only [record, List.length_append]
  by_cases h1 : p + xs.length ≤ q ∧ q < p + xs.length + ys.length
  · rw [if_pos h1, if_pos (by omega), List.getElem?_append_right (by omega)]
    congr 1
    omega
  · rw [if_neg h1]
    by_cases h2 : p ≤ q ∧ q < p + xs.length
    · rw [if_pos h2, if_pos (by omega), List.getElem?_append_left (by omega)]
    · rw [if_neg h2, if_neg (by omega)]

end Que

namespace Que.Lossless

open Lib

variable {V : Type} {C : Config}

/-! ### One step for many values -/

/-- A producer at rest appends the values `vs`: they are written, recorded and counted, and if a
burst is pending then, everything is published. -/
def ProducerView.append (C : Config) (v : ProducerView V) (vs : List V) : ProducerView V :=
  let tail := v.handle.producer.tail + vs.length
  let written := v.handle.producer.written + vs.length
  let ch := v.ch.writeRing C.N v.handle.producer.tail vs
  let wrote := record v.handle.producer.tail vs v.wrote
  if burstAmount C.N ≤ written then
    { ch := ch.set .tail tail
      handle := (v.handle.setTail tail).setWritten 0
      wrote := wrote
      published := publish (.store .tail tail : Act Handle V) wrote v.published }
  else
    { ch := ch
      handle := (v.handle.setTail tail).setWritten written
      wrote := wrote
      published := v.published }

namespace State

/-- The state with the producer's view replaced. -/
def withView (s : State V) (v : ProducerView V) : State V :=
  { s with ch := v.ch, handle := v.handle, wrote := v.wrote, published := v.published }

/-- A producer at rest appends the values `vs` in one step. -/
def append (C : Config) (s : State V) (vs : List V) : State V :=
  s.withView (s.producerView.append C vs)

/-- The state with the reservation of the handle replaced. -/
def withReservation (s : State V) (r : Reservation) : State V :=
  { s with handle := s.handle.setReservation r }

end State

/-- The view with the reservation of the handle replaced. -/
def ProducerView.withReservation (v : ProducerView V) (r : Reservation) : ProducerView V :=
  { v with handle := v.handle.setReservation r }

/-! ### Twin states -/

/-- What a series of calls is to do: append the values, which fit into `space` slots.  If `sure`,
the space is known to be free when the series begins, and every call must be possible. -/
structure Batch (V : Type) where
  values : List V
  space : ℕ
  sure : Bool

/-- The producer's view in the run, and in the run in which the producer has not begun; `done`
says that the shadow has appended the values. -/
structure Twin (V : Type) where
  real : ProducerView V
  shadow : ProducerView V
  done : Bool

/-- The real channel is the shadow's with some values written behind its local tail. -/
def Overlaid (C : Config) (d : Twin V) : Prop :=
  d.shadow.ch.tail ≤ d.shadow.handle.producer.tail ∧
  ∃ ws, d.shadow.handle.producer.tail + ws.length ≤ d.shadow.ch.head + C.N ∧
    d.real.ch = d.shadow.ch.writeRing C.N d.shadow.handle.producer.tail ws

/-- Free space for `c` values behind the local tail, with counters below the limit. -/
def Room (C : Config) (c : ℕ) (v : ProducerView V) : Prop :=
  v.handle.producer.tail + c ≤ v.ch.head + C.N ∧ v.handle.producer.tail + c < 2 ^ C.w

/-- What the producer relies on: the consumer makes the same step in both states, and does not
touch the values written behind the local tail. -/
structure TwinRely (C : Config) (d d' : Twin V) : Prop where
  real : d'.real = { d.real with ch := d'.real.ch }
  shadow : d'.shadow = { d.shadow with ch := d'.shadow.ch }
  done : d'.done = d.done
  tail : d'.shadow.ch.tail = d.shadow.ch.tail
  head_le : d.shadow.ch.head ≤ d'.shadow.ch.head
  overlay : d.shadow.ch.tail ≤ d.shadow.handle.producer.tail → ∀ ws,
    d.shadow.handle.producer.tail + ws.length ≤ d.shadow.ch.head + C.N →
    d.real.ch = d.shadow.ch.writeRing C.N d.shadow.handle.producer.tail ws →
    d'.real.ch = d'.shadow.ch.writeRing C.N d.shadow.handle.producer.tail ws

theorem TwinRely.refl (d : Twin V) : TwinRely C d d :=
  ⟨rfl, rfl, rfl, rfl, le_rfl, fun _ _ _ h => h⟩

theorem TwinRely.trans {d d' d'' : Twin V} (h : TwinRely C d d') (h' : TwinRely C d' d'') :
    TwinRely C d d'' := by
  have hhandle : d'.shadow.handle = d.shadow.handle := by rw [h.shadow]
  refine ⟨?_, ?_, h'.done.trans h.done, h'.tail.trans h.tail, h.head_le.trans h'.head_le, ?_⟩
  · rw [h'.real, h.real]
  · rw [h'.shadow, h.shadow]
  · intro htail ws hfit e
    have hle := h.head_le
    have := h'.overlay (by rw [h.tail, hhandle]; exact htail) ws (by rw [hhandle]; omega)
      (by rw [hhandle]; exact h.overlay htail ws hfit e)
    rwa [hhandle] at this

theorem Overlaid.stable {d d' : Twin V} (h : Overlaid C d) (hr : TwinRely C d d') :
    Overlaid C d' := by
  obtain ⟨htail, ws, hfit, e⟩ := h
  have hhandle : d'.shadow.handle = d.shadow.handle := by rw [hr.shadow]
  have hle := hr.head_le
  refine ⟨by rw [hhandle, hr.tail]; exact htail, ws, by rw [hhandle]; omega, ?_⟩
  rw [hhandle]
  exact hr.overlay htail ws hfit e

/-- The contract of a series of calls: where the tail is stored, the space is free. -/
def twinContract (C : Config) (B : Batch V) : Contract (Act Handle V) Act.Ans (Twin V) where
  step a d :=
    let r := a.step C.w (d.real.ch, d.real.handle)
    (r.1,
      { real := ⟨r.2.1, r.2.2, d.real.wrote, publish a d.real.wrote d.real.published⟩
        shadow :=
          match a with
          | .store .tail _ => d.shadow.append C B.values
          | _ => d.shadow
        done :=
          match a with
          | .store .tail _ => true
          | _ => d.done })
  asm _ d := d.real.ch.head ≤ d.real.ch.tail
  rely := TwinRely C
  guar a d d' := Overlaid C d' ∧ ∀ t, a = .store .tail t → d.done = false ∧ Room C B.space d.shadow
  rely_refl := TwinRely.refl
  rely_trans h h' := h.trans h'

/-! ### A series of calls -/

/-- The views after the call `op` made at `start` has returned. -/
def Twin.returned (d : Twin V) (op : ProducerOp V) (start : Handle) (values : List V) : Twin V :=
  { d with real := { d.real with wrote := wroteAfter op start values d.real.wrote } }

section calls
variable (C) (B : Batch V) (Q : ProducerStatus → Twin V → Prop)

/-- From `d` at the status `st`, in every environment: the calls, as far as they are possible one
after the other, keep the contract, and they end in `Q`. -/
def SafeCalls : List (ProducerOp V) → ProducerStatus → Twin V → Prop
  | [], st, d => ∀ d', TwinRely C d d' → Q st d'
  | op :: calls, st, d => ∀ d', TwinRely C d d' →
      let inRange := d'.real.handle.producer.tail + op.demand C < 2 ^ C.w
      (B.sure = true → op.enabled st = true ∧ inRange) ∧
      (op.enabled st = true → inRange → Safe (twinContract C B) (op.code C)
        (fun r u => SafeCalls calls r.1 (u.returned op d'.real.handle r.2)) d')

/-- The thread has still to perform `calls`. -/
def Performing (calls : List (ProducerOp V)) : ProducerThread V → Twin V → Prop
  | .rest st, d => SafeCalls C B Q calls st d
  | .busy start op code, d => Safe (twinContract C B) code
      (fun r u => SafeCalls C B Q calls r.1 (u.returned op start r.2)) d

end calls

section performing
variable {B : Batch V} {Q : ProducerStatus → Twin V → Prop}

theorem SafeCalls.stable {calls : List (ProducerOp V)} {st : ProducerStatus} {d d' : Twin V}
    (h : SafeCalls C B Q calls st d) (hr : TwinRely C d d') : SafeCalls C B Q calls st d' := by
  cases calls with
  | nil => exact fun u hu => h u (hr.trans hu)
  | cons op calls => exact fun u hu => h u (hr.trans hu)

theorem Performing.stable {calls : List (ProducerOp V)} {P : ProducerThread V} {d d' : Twin V}
    (h : Performing C B Q calls P d) (hr : TwinRely C d d') :
    Performing C B Q calls P d' := by
  cases P with
  | rest st => exact SafeCalls.stable h hr
  | busy start op code => exact Safe.stable h hr

theorem Performing.done {calls : List (ProducerOp V)} {start : Handle} {op : ProducerOp V}
    {r : ProducerStatus × List V} {d : Twin V}
    (h : Performing C B Q calls (.busy start op (.ret r)) d) :
    SafeCalls C B Q calls r.1 (d.returned op start r.2) :=
  h d (TwinRely.refl d)

/-! ### The consumer moves in both states -/

/-- The state `s` of a run in which the producer has still to perform `calls`, and the shadow `s'`
in which it is at rest; `done` says that the shadow has appended the values. -/
structure Shadowed (C : Config) (B : Batch V) (Q : ProducerStatus → Twin V → Prop)
    (calls : List (ProducerOp V)) (done : Bool) (s s' : State V) : Prop where
  thread : Performing C B Q calls s.producer ⟨s.producerView, s'.producerView, done⟩
  overlaid : Overlaid C ⟨s.producerView, s'.producerView, done⟩
  resting : s'.producer = .rest .ready
  consumer : s'.consumer = s.consumer
  cursor : s'.cursor = s.cursor
  joinedAt : s'.joinedAt = s.joinedAt
  received : s'.received = s.received

variable {calls : List (ProducerOp V)} {done : Bool} {s s' : State V}

/-- The values behind the local tail are in no slot between head and tail. -/
theorem Shadowed.slot_ne (A : Shadowed C B Q calls done s s') {ws : List V}
    (hfit : s'.handle.producer.tail + ws.length ≤ s'.ch.head + C.N) {p : ℕ} (h1 : s'.ch.head ≤ p)
    (h2 : p < s'.ch.tail) {j : ℕ} (hj : j < ws.length) :
    slot C.N (s'.handle.producer.tail + j) ≠ slot C.N p := by
  have htail : s'.ch.tail ≤ s'.handle.producer.tail := A.overlaid.1
  exact Lib.slot_ne C.pow (by omega) (by omega)

theorem Overlaid.header {d : Twin V} (h : Overlaid C d) (x : Word) :
    d.real.ch.get x = d.shadow.ch.get x := by
  obtain ⟨_, ws, _, e⟩ := h
  rw [e, Channel.writeRing_get]

theorem Shadowed.consumerAct (S : Sound C s) (A : Shadowed C B Q calls done s s')
    {start : Consumer} {op : ConsumerOp V} {a : Act Consumer V}
    {k : a.Ans → Proc Consumer V (ConsumerStatus × Option V)}
    (hc : s.consumer = .busy start op (.act a k)) :
    Shadowed C B Q calls done (s.consumerDoes C a fun x => .busy start op (k x))
      (s'.consumerDoes C a fun x => .busy start op (k x)) := by
  have hg := (S.consumer_act hc).1
  have hhead : s.ch.head = s'.ch.head := A.overlaid.header .head
  have htail : s.ch.tail = s'.ch.tail := A.overlaid.header .tail
  have hcell : ∀ ws : List V, s'.handle.producer.tail + ws.length ≤ s'.ch.head + C.N →
      ∀ i, a.accessed = some i → ∀ j, j < ws.length →
        slot C.N (s'.handle.producer.tail + j) ≠ i := by
    intro ws hfit i hi j hj
    obtain ⟨rfl, h1, h2⟩ := hg.held i hi
    exact A.slot_ne hfit (hhead.symm.trans_le h1) (h2.trans_eq htail) hj
  -- the same step on both channels
  have hstep : ∀ ws : List V, s'.handle.producer.tail + ws.length ≤ s'.ch.head + C.N →
      s.ch = s'.ch.writeRing C.N s'.handle.producer.tail ws →
      a.step C.w (s.ch, s.cursor) = ((a.step C.w (s'.ch, s'.cursor)).1,
        (a.step C.w (s'.ch, s'.cursor)).2.1.writeRing C.N s'.handle.producer.tail ws,
        (a.step C.w (s'.ch, s'.cursor)).2.2) := by
    intro ws hfit e
    rw [e, ← A.cursor]
    exact a.step_writeRing _ _ (hcell ws hfit)
  obtain ⟨htl, ws, hfit, e⟩ := A.overlaid
  have hsame := hstep ws hfit e
  have hchange := hg.change
  have hr : TwinRely C ⟨s.producerView, s'.producerView, done⟩
      ⟨(s.consumerDoes C a fun x => .busy start op (k x)).producerView,
        (s'.consumerDoes C a fun x => .busy start op (k x)).producerView, done⟩ := by
    have hget : ∀ x, (a.step C.w (s.ch, s.cursor)).2.1.get x =
        (a.step C.w (s'.ch, s'.cursor)).2.1.get x := by
      intro x
      rw [hsame, Channel.writeRing_get]
    refine ⟨rfl, rfl, rfl, ?_, ?_, fun _ ws' hfit' e' => ?_⟩
    · have h1 : (a.step C.w (s.ch, s.cursor)).2.1.tail = s.ch.tail := hchange.tail
      exact (hget .tail).symm.trans (h1.trans htail)
    · have h1 : s.ch.head ≤ (a.step C.w (s.ch, s.cursor)).2.1.head := hchange.head_le
      exact hhead.symm.trans_le (h1.trans_eq (hget .head))
    · exact congrArg (fun r => r.2.1) (hstep ws' hfit' e')
  refine ⟨A.thread.stable hr, A.overlaid.stable hr, A.resting, ?_, ?_, A.joinedAt, A.received⟩
  · exact congrArg (fun r => Thread.busy start op (k r.1)) hsame.symm
  · exact congrArg (fun r => r.2.2) hsame.symm

theorem Shadowed.consumerReturn (S : Sound C s) (A : Shadowed C B Q calls done s s')
    {start : Consumer} {op : ConsumerOp V} {r : ConsumerStatus × Option V}
    (hc : s.consumer = .busy start op (.ret r)) :
    Shadowed C B Q calls done
      { s with
        consumer := .rest r.1
        joinedAt := if op.isJoin then s.cursor.head else s.joinedAt
        received := s.receivedAfter op r }
      { s' with
        consumer := .rest r.1
        joinedAt := if op.isJoin then s'.cursor.head else s'.joinedAt
        received := s'.receivedAfter op r } := by
  have hf := S.consumer
  rw [hc] at hf
  have hrest : ConsumerRest C r.1 s.consumerView := hf.2.done.1
  have hhead : s.ch.head = s'.ch.head := A.overlaid.header .head
  have htail : s.ch.tail = s'.ch.tail := A.overlaid.header .tail
  have hgiven : given s'.ch op r = given s.ch op r := by
    obtain ⟨st, value⟩ := r
    cases op with
    | popZerocopy =>
        cases st with
        | element i =>
            obtain ⟨_, hav, rfl, hlt, _⟩ := hrest
            obtain ⟨_, ws, hfit, e⟩ := A.overlaid
            have h1 : s'.ch.head ≤ s.cursor.head := hhead.symm.trans_le hav.head_le
            have h2 : s.cursor.head < s'.ch.tail := lt_of_lt_of_eq hlt htail
            have hcell : s.ch.buffer (slot C.N s.cursor.head) =
                s'.ch.buffer (slot C.N s.cursor.head) := by
              have e : s.ch = _ := e
              rw [e]
              exact s'.ch.writeAlong_of_ne fun j hj => A.slot_ne hfit h1 h2 hj
            exact congrArg (fun v => [v]) hcell.symm
        | gone => rfl
        | ready => rfl
    | _ => rfl
  refine ⟨A.thread, A.overlaid, A.resting, rfl, A.cursor, ?_, ?_⟩
  · simp only [A.cursor, A.joinedAt]
  · simp only [State.receivedAfter, A.received, hgiven]

/-- A move of the consumer is made in both states. -/
theorem Shadowed.consumerMove (S : Sound C s) (A : Shadowed C B Q calls done s s') {m : Move V}
    (hm : m.ofConsumer = true) {t : State V} (ht : s.move C m = some t) :
    ∃ t', s'.move C m = some t' ∧ Shadowed C B Q calls done t t' := by
  cases m with
  | consumerCall op =>
      cases hc : s.consumer with
      | rest st =>
          simp only [State.move, hc] at ht
          split_ifs at ht with hen
          cases ht
          refine ⟨{ s' with consumer := .busy s'.cursor op (op.code C st) }, ?_, A.thread,
            A.overlaid, A.resting, ?_, A.cursor, A.joinedAt, A.received⟩
          · simp only [State.move, A.consumer, hc, hen, if_true]
          · simp only [A.cursor]
      | busy start op' code => simp [State.move, hc] at ht
  | consumerGo =>
      cases hc : s.consumer with
      | rest st => simp [State.move, hc] at ht
      | busy start op code =>
          cases code with
          | act a k =>
              simp only [State.move, hc, Option.some.injEq] at ht
              subst ht
              exact ⟨_, by simp only [State.move, A.consumer, hc], A.consumerAct S hc⟩
          | ret r =>
              simp only [State.move, hc, Option.some.injEq] at ht
              subst ht
              exact ⟨_, by simp only [State.move, A.consumer, hc], A.consumerReturn S hc⟩
  | consumerStop =>
      cases ht
      exact ⟨_, rfl, A.thread, A.overlaid, A.resting, rfl, A.cursor, A.joinedAt, A.received⟩
  | _ => cases hm

/-! ### Performing the calls -/

theorem Shadowed.producerCall {op : ProducerOp V} {st : ProducerStatus}
    (A : Shadowed C B Q (op :: calls) done s s') (hp : s.producer = .rest st)
    (hen : op.enabled st = true) (hlt : s.handle.producer.tail + op.demand C < 2 ^ C.w) :
    Shadowed C B Q calls done { s with producer := .busy s.handle op (op.code C) } s' := by
  have hthread := A.thread
  rw [hp] at hthread
  exact ⟨(hthread _ (TwinRely.refl _)).2 hen hlt, A.overlaid, A.resting, A.consumer, A.cursor,
    A.joinedAt, A.received⟩

theorem Shadowed.producerReturn {start : Handle} {op : ProducerOp V} {r : ProducerStatus × List V}
    (A : Shadowed C B Q calls done s s') (hp : s.producer = .busy start op (.ret r)) :
    Shadowed C B Q calls done
      { s with producer := .rest r.1, wrote := wroteAfter op start r.2 s.wrote } s' := by
  have hthread := A.thread
  rw [hp] at hthread
  exact ⟨hthread.done, A.overlaid, A.resting, A.consumer, A.cursor, A.joinedAt, A.received⟩

/-- An action of the producer: the shadow stays, or the tail is stored and the shadow appends the
values. -/
theorem Shadowed.producerAct (S : Sound C s) {start : Handle} {op : ProducerOp V} {a : Act Handle V}
    {k : a.Ans → Proc Handle V (ProducerStatus × List V)}
    (A : Shadowed C B Q calls done s s') (hp : s.producer = .busy start op (.act a k)) :
    Shadowed C B Q calls done (s.producerDoes C a fun x => .busy start op (k x)) s' ∨
    done = false ∧ Room C B.space s'.producerView ∧
      Shadowed C B Q calls true (s.producerDoes C a fun x => .busy start op (k x))
        (s'.append C B.values) := by
  have hthread := A.thread
  rw [hp] at hthread
  obtain ⟨⟨hover, hroom⟩, hk⟩ := Safe.own hthread S.base.head_le
  by_cases hstore : ∃ t, a = .store .tail t
  · obtain ⟨t, rfl⟩ := hstore
    right
    exact ⟨(hroom t rfl).1, (hroom t rfl).2, hk, hover, A.resting, A.consumer, A.cursor,
      A.joinedAt, A.received⟩
  · left
    have hshadow : ((twinContract C B).step a ⟨s.producerView, s'.producerView, done⟩).2 =
        ⟨(s.producerDoes C a fun x => .busy start op (k x)).producerView, s'.producerView,
          done⟩ := by
      cases a with
      | store x t =>
          cases x with
          | tail => exact absurd ⟨t, rfl⟩ hstore
          | _ => rfl
      | _ => rfl
    rw [hshadow] at hk hover
    exact ⟨hk, hover, A.resting, A.consumer, A.cursor, A.joinedAt, A.received⟩

end performing

/-- The call that a move makes. -/
def Move.call : Move V → Option (ProducerOp V)
  | producerCall op => some op
  | _ => none

/-- In the schedule the producer makes the calls `calls`, and is not lost. -/
structure Performs (phase : List (Move V)) (calls : List (ProducerOp V)) : Prop where
  calls : phase.filterMap Move.call = calls
  stays : ∀ m ∈ phase, m ≠ .producerStop

/-- The consumer's moves `cs` lead from `s₀` to `s`, with the values appended at one point of them
if `done`; there is space for `c` values at that point. -/
def Linear (C : Config) (B : Batch V) (s₀ : State V) (cs : List (Move V)) (s : State V) :
    Bool → Prop
  | false => s₀.moves C cs = some s
  | true => ∃ before after u, cs = before ++ after ∧ s₀.moves C before = some u ∧
      Room C B.space u.producerView ∧ (u.append C B.values).moves C after = some s

theorem State.moves_append (s : State V) (xs ys : List (Move V)) :
    s.moves C (xs ++ ys) = (s.moves C xs).bind fun t => t.moves C ys := by
  induction xs generalizing s with
  | nil => rfl
  | cons m xs ih =>
      simp only [List.cons_append, State.moves, ih]
      cases s.move C m <;> rfl

theorem State.moves_concat {s t u : State V} {xs : List (Move V)} {m : Move V}
    (ht : s.moves C xs = some t) (hu : t.move C m = some u) : s.moves C (xs ++ [m]) = some u := by
  rw [State.moves_append, ht]
  simp only [Option.bind_some, State.moves, hu]

theorem Linear.move {B : Batch V} {s₀ s t : State V} {cs : List (Move V)} {m : Move V}
    {done : Bool} (h : Linear C B s₀ cs s done) (hm : s.move C m = some t) :
    Linear C B s₀ (cs ++ [m]) t done := by
  cases done with
  | false => exact State.moves_concat h hm
  | true =>
      obtain ⟨before, after, u, rfl, hu, hroom, hs⟩ := h
      exact ⟨before, after ++ [m], u, by simp, hu, hroom, State.moves_concat hs hm⟩

section schedule
variable {B : Batch V} {Q : ProducerStatus → Twin V → Prop}

/-- One move of a schedule that performs calls. -/
theorem Shadowed.move {calls : List (ProducerOp V)} {done : Bool} {s₀ s s' t : State V}
    {cs ms : List (Move V)} {m : Move V} (S : Sound C s) (A : Shadowed C B Q calls done s s')
    (L : Linear C B s₀ cs s' done) (hp : Performs (m :: ms) calls) (ht : s.move C m = some t) :
    ∃ calls' done' t', Performs ms calls' ∧ Shadowed C B Q calls' done' t t' ∧
      Linear C B s₀ (cs ++ [m].filter Move.ofConsumer) t' done' := by
  have hstays : ∀ m ∈ ms, m ≠ .producerStop := fun m' h => hp.stays m' (List.mem_cons_of_mem m h)
  have same : m.call = none → Performs ms calls := fun h =>
    ⟨by rw [← hp.calls, List.filterMap_cons_none h], hstays⟩
  have hfilter : m.ofConsumer = false → cs ++ [m].filter Move.ofConsumer = cs := fun h => by
    simp [h]
  have consumerMoves : m.ofConsumer = true → m.call = none → ∃ calls' done' t', Performs ms calls' ∧
      Shadowed C B Q calls' done' t t' ∧
      Linear C B s₀ (cs ++ [m].filter Move.ofConsumer) t' done' := by
    intro hm hcall
    obtain ⟨t', ht', A'⟩ := A.consumerMove S hm ht
    refine ⟨calls, done, t', same hcall, A', ?_⟩
    rw [List.filter_cons_of_pos hm]
    exact L.move ht'
  cases m with
  | producerCall op =>
      obtain ⟨rfl, _⟩ := hp
      have A : Shadowed C B Q (op :: ms.filterMap Move.call) done s s' := A
      cases hrest : s.producer with
      | rest st =>
          simp only [State.move, hrest] at ht
          split_ifs at ht with hc
          cases ht
          refine ⟨_, done, s', ⟨rfl, hstays⟩, A.producerCall hrest hc.1 hc.2, ?_⟩
          rw [hfilter rfl]
          exact L
      | busy start op' code => simp [State.move, hrest] at ht
  | producerGo =>
      cases hbusy : s.producer with
      | rest st => simp [State.move, hbusy] at ht
      | busy start op code =>
          cases code with
          | act a k =>
              simp only [State.move, hbusy, Option.some.injEq] at ht
              subst ht
              rcases A.producerAct S hbusy with A' | ⟨rfl, hroom, A'⟩
              · refine ⟨calls, done, s', same rfl, A', ?_⟩
                rw [hfilter rfl]
                exact L
              · refine ⟨calls, true, _, same rfl, A', cs, [], s', by simp [Move.ofConsumer], L,
                  hroom, rfl⟩
          | ret r =>
              simp only [State.move, hbusy, Option.some.injEq] at ht
              subst ht
              refine ⟨calls, done, s', same rfl, A.producerReturn hbusy, ?_⟩
              rw [hfilter rfl]
              exact L
  | producerStop => exact absurd rfl (hp.stays _ List.mem_cons_self)
  | consumerCall op => exact consumerMoves rfl rfl
  | consumerGo => exact consumerMoves rfl rfl
  | consumerStop => exact consumerMoves rfl rfl

theorem Shadowed.moves {calls : List (ProducerOp V)} {done : Bool} {s₀ s s' t : State V}
    {cs phase : List (Move V)} (S : Sound C s) (A : Shadowed C B Q calls done s s')
    (L : Linear C B s₀ cs s' done) (hp : Performs phase calls) (ht : s.moves C phase = some t) :
    ∃ done' t', Shadowed C B Q [] done' t t' ∧
      Linear C B s₀ (cs ++ phase.filter Move.ofConsumer) t' done' := by
  induction phase generalizing s s' calls done cs with
  | nil =>
      cases ht
      obtain ⟨rfl, _⟩ := hp
      exact ⟨done, s', A, by simpa using L⟩
  | cons m ms ih =>
      simp only [State.moves, Option.bind_eq_some_iff] at ht
      obtain ⟨u, hu, ht⟩ := ht
      obtain ⟨calls', done', u', hp', A', L'⟩ := A.move S L hp hu
      obtain ⟨done'', t', A'', L''⟩ := ih (S.step (State.move_step hu)) A' L' hp' ht
      refine ⟨done'', t', A'', ?_⟩
      rw [← List.singleton_append, List.filter_append, ← List.append_assoc]
      exact L''

/-- Code that is safe can be run to its end alone. -/
theorem Performing.finish {calls : List (ProducerOp V)} {start : Handle} {op : ProducerOp V}
    {code : Proc Handle V (ProducerStatus × List V)} {s : State V} {v : ProducerView V}
    {done : Bool} (S : Sound C s) (hp : s.producer = .busy start op code)
    (h : Performing C B Q calls s.producer ⟨s.producerView, v, done⟩) :
    ∃ n t st v' done', s.moves C (List.replicate n .producerGo) = some t ∧
      t.producer = .rest st ∧ SafeCalls C B Q calls st ⟨t.producerView, v', done'⟩ := by
  rw [hp] at h
  induction code generalizing s v done with
  | ret r =>
      refine ⟨1, { s with producer := .rest r.1, wrote := wroteAfter op start r.2 s.wrote }, r.1, v,
        done, ?_, rfl, Performing.done h⟩
      simp only [List.replicate_one, State.moves, State.move, hp, Option.bind_some]
  | act a k ih =>
      obtain ⟨_, hk⟩ := Safe.own (K := twinContract C B) h S.base.head_le
      have hmove : s.move C .producerGo =
          some (s.producerDoes C a fun x => .busy start op (k x)) := by
        simp only [State.move, hp]
      obtain ⟨n, t, st, v', done', ht, hst, hsafe⟩ :=
        ih _ (S.step (State.move_step hmove)) rfl hk
      refine ⟨n + 1, t, st, v', done', ?_, hst, hsafe⟩
      simp only [List.replicate_succ, State.moves, hmove, Option.bind_some]
      exact ht

/-- **Calls that are safe can be performed alone.** -/
theorem SafeCalls.alone (hB : B.sure = true) {calls : List (ProducerOp V)} {s : State V}
    {st : ProducerStatus} {v : ProducerView V} {done : Bool} (S : Sound C s)
    (hp : s.producer = .rest st)
    (h : SafeCalls C B Q calls st ⟨s.producerView, v, done⟩) :
    ∃ phase t st', Performs phase calls ∧ phase.filter Move.ofConsumer = [] ∧
      s.moves C phase = some t ∧ t.producer = .rest st' := by
  induction calls generalizing s st v done with
  | nil => exact ⟨[], s, st, ⟨rfl, by simp⟩, rfl, rfl, hp⟩
  | cons op calls ih =>
      obtain ⟨hen, hlt⟩ := (h _ (TwinRely.refl _)).1 hB
      have hcode := (h _ (TwinRely.refl _)).2 hen hlt
      have hmove : s.move C (.producerCall op) = some (s.called C op) := by
        simp only [State.move, hp, hen, true_and]
        exact if_pos hlt
      have Su := S.step (State.move_step hmove)
      have hbusy : Performing C B Q calls (s.called C op).producer
          ⟨(s.called C op).producerView, v, done⟩ := hcode
      obtain ⟨n, t, st', v', done', ht, hst, hsafe⟩ := Performing.finish Su rfl hbusy
      obtain ⟨phase, t', st'', hperf, hcons, ht', hst'⟩ :=
        ih (Su.run (State.moves_reach ht)) hst hsafe
      refine ⟨.producerCall op :: (List.replicate n .producerGo ++ phase), t', st'', ⟨?_, ?_⟩, ?_,
        ?_, hst'⟩
      · simp [Move.call, hperf.calls]
      · simp only [List.mem_cons, List.mem_append, List.mem_replicate]
        rintro m (rfl | ⟨_, rfl⟩ | hm)
        · intro e
          cases e
        · intro e
          cases e
        · exact hperf.stays m hm
      · simp [Move.ofConsumer, hcons]
      · simp only [State.moves, hmove, Option.bind_some, State.moves_append, ht]
        exact ht'

end schedule

/-! ### The result -/

/-- At the end the producer is at rest, and the run is where the shadow is once the values are
appended, up to the reservation that the handle still holds. -/
def Appended (C : Config) (B : Batch V) (st : ProducerStatus) (d : Twin V) : Prop :=
  st = .ready ∧ (d.done = false → Room C B.space d.shadow) ∧
    d.real = (if d.done then d.shadow else d.shadow.append C B.values).withReservation
      d.real.handle.reservation

theorem Shadowed.eq_withReservation {B : Batch V} {Q : ProducerStatus → Twin V → Prop}
    {calls : List (ProducerOp V)} {done : Bool} {t t' : State V} {v : ProducerView V}
    (A : Shadowed C B Q calls done t t') (ht : t.producer = .rest .ready) {r : Reservation}
    (e : t.producerView = v.withReservation r) : t = (t'.withView v).withReservation r := by
  obtain ⟨_, _, h1, h2, h3, h4, h5⟩ := A
  cases t
  cases t'
  cases e
  cases ht
  cases h1
  cases h2
  cases h3
  cases h4
  cases h5
  rfl

/-- **A schedule that performs the calls** ends like the consumer's moves with one `append` among
them. -/
theorem SafeCalls.performed {B : Batch V} {calls : List (ProducerOp V)} {s t : State V}
    {phase : List (Move V)} {st : ProducerStatus} (S : Sound C s) (hs : s.producer = .rest .ready)
    (h : SafeCalls C B (Appended C B) calls .ready ⟨s.producerView, s.producerView, false⟩)
    (hp : Performs phase calls) (ht : s.moves C phase = some t) (hst : t.producer = .rest st) :
    ∃ before after u t', phase.filter Move.ofConsumer = before ++ after ∧
      s.moves C before = some u ∧ Room C B.space u.producerView ∧
      (u.append C B.values).moves C after = some t' ∧
      t = t'.withReservation t.handle.reservation := by
  have hready := S.producer
  rw [hs] at hready
  have A : Shadowed C B (Appended C B) calls false s s := by
    refine ⟨?_, ⟨Ready.tailBound hready |>.1, [], ?_, rfl⟩, hs, rfl, rfl, rfl, rfl⟩
    · rw [hs]
      exact h
    · exact (Ready.tailBound hready).2
  have L₀ : Linear C B s [] s false := rfl
  obtain ⟨done, t', A', L⟩ := A.moves S L₀ hp ht
  have hend := A'.thread
  rw [hst] at hend
  obtain ⟨rfl, hroom, e⟩ := hend _ (TwinRely.refl _)
  have e := A'.eq_withReservation hst e
  cases done with
  | false => exact ⟨_, [], t', t'.append C B.values, by simp, L, hroom rfl, rfl, e⟩
  | true =>
      obtain ⟨before, after, u, hcs, hu, hroom, ht'⟩ := L
      exact ⟨before, after, u, t', hcs, hu, hroom, ht', e⟩

end Que.Lossless
