import Que.Lossless.Producer
import Que.Lossless.Consumer
import Mathlib.Logic.Relation

/-! # The lossless channel as a concurrent system

One producer and one consumer on one channel, interleaved action by action.

* **Threads.** A thread is either at `rest`, with a status that says which calls are possible, or
  `busy` with the rest of the code of a call.  A step is a call, one action, a return, or the
  loss of the endpoint (`stop`), which is possible at every moment.  A lost endpoint is replaced
  by a new one through the constructors.
* **Calls.** `ProducerOp` and `ConsumerOp` list the calls.  The code of a call is the transcribed
  function, followed by the bookkeeping of the caller: the endpoint that a constructor returns is
  installed, and the status after the call is computed from the result.
* **Counters.** A call of `push` or `reserve` is only made while the positions it asks for are
  below `2 ^ w`; this is the assumption that counters stay below the limit of `usize`.
* **History.** `wrote p` is the value that the live producer wrote at position `p`, recorded when
  the writing call returns.  `published p` is the value that had been written at `p` by the
  producer that first stored a tail beyond `p`.  `received` lists what the live consumer was
  given, starting from `joinedAt`, the tail that its join read; an element lent out by
  `popZerocopy` counts with the content of its slot when the call returns.  The history is never
  read by the code. -/

namespace Que.Lossless

open Lib

variable {V : Type}

/-! ### Statuses and calls -/

/-- Which calls the producer side can make. -/
inductive ProducerStatus where
  | gone
  | ready
  | reserved
deriving DecidableEq, Repr

inductive ProducerOp (V : Type) where
  | join
  | joinOrInitializeIn
  | joinOrCreateShmem
  | push (value : V)
  | sync
  | beat
  | consumerHeartbeat
  | reserve (count : ℕ)
  | writeNext (value : V)
  | writeAll (values : List V)
  | writeIter (items : ℕ → Option V) (i : ℕ)
  | commit
  | cancel
  | drop

/-- Which calls the consumer side can make; `element i` means that a live `Element` borrows
slot `i`. -/
inductive ConsumerStatus where
  | gone
  | ready
  | element (i : ℕ)
deriving DecidableEq, Repr

inductive ConsumerOp (V : Type) where
  | join
  | pop
  | popZerocopy
  | elementWrite (value : V)
  | elementDrop
  | beat
  | producerHeartbeat
  | drop

/-! ### The producer's calls -/

namespace ProducerOp

/-- The constructors. -/
def isJoin : ProducerOp V → Bool
  | join | joinOrInitializeIn | joinOrCreateShmem => true
  | _ => false

/-- The constructors that initialise a channel whose magic is zero. -/
def initialises : ProducerOp V → Bool
  | joinOrInitializeIn | joinOrCreateShmem => true
  | _ => false

/-- The calls possible at a status. -/
def enabled : ProducerStatus → ProducerOp V → Bool
  | .gone, join | .gone, joinOrInitializeIn | .gone, joinOrCreateShmem => true
  | .ready, push _ | .ready, sync | .ready, beat | .ready, consumerHeartbeat
  | .ready, reserve _ | .ready, drop => true
  | .reserved, writeNext _ | .reserved, writeAll _ | .reserved, writeIter _ _
  | .reserved, commit | .reserved, cancel => true
  | _, _ => false

/-- Number of positions beyond the local tail that a call asks for. -/
def demand (C : Config) : ProducerOp V → ℕ
  | push _ => 1
  | reserve count => if count ≤ C.N then count else 0
  | _ => 0

/-- The position of the first value that a call writes. -/
def position (h : Handle) : ProducerOp V → ℕ
  | push _ => h.producer.tail
  | _ => h.reservation.startTail + h.reservation.written

/-- Install the producer that a constructor returned. -/
def install : Outcome Producer → Proc Handle V (ProducerStatus × List V)
  | .ok p => do
      update fun h => { h with producer := p }
      return (.ready, [])
  | _ => return (.gone, [])

/-- The code of a call.  The result is the status afterwards and the values that were written to
consecutive positions. -/
def code (C : Config) : ProducerOp V → Proc Handle V (ProducerStatus × List V)
  | join => do install (← joinProducer C.mode C.N C.buffer)
  | joinOrInitializeIn => do install (← Lossless.joinOrInitializeIn C.mode C.N C.buffer)
  | joinOrCreateShmem => do install (← Lossless.joinOrCreateShmem C.N)
  | push value => do
      match ← Lossless.push C.w C.N value with
      | .ok () => return (.ready, [value])
      | _ => return (.ready, [])
  | sync => do Lossless.sync; return (.ready, [])
  | beat => do Lossless.beat; return (.ready, [])
  | consumerHeartbeat => do let _ ← Lossless.consumerHeartbeat; return (.ready, [])
  | reserve count => do
      match ← Lossless.reserve C.w C.N count with
      | .ok () => return (.reserved, [])
      | _ => return (.ready, [])
  | writeNext value => do
      match ← Reservation.writeNext C.w C.N value with
      | .ok () => return (.reserved, [value])
      | _ => return (.reserved, [])
  | writeAll values => do
      match ← Reservation.writeAll C.w C.N values with
      | .ok () => return (.reserved, values)
      | _ => return (.reserved, [])
  | writeIter items i => do
      let r ← Reservation.writeIter C.w C.N items i
      return (.reserved, (List.range r.1).filterMap fun k => items (i + k))
  | commit => do Reservation.commit C.w C.N; return (.ready, [])
  | cancel => do Reservation.cancel; return (.ready, [])
  | drop => do dropEndpoint C.mode; return (.gone, [])

end ProducerOp

/-! ### The consumer's calls -/

namespace ConsumerOp

def isJoin : ConsumerOp V → Bool
  | join => true
  | _ => false

/-- The calls possible at a status. -/
def enabled : ConsumerStatus → ConsumerOp V → Bool
  | .gone, join => true
  | .ready, pop | .ready, popZerocopy | .ready, beat | .ready, producerHeartbeat
  | .ready, drop => true
  | .element _, elementWrite _ | .element _, elementDrop => true
  | _, _ => false

/-- Install the consumer that the constructor returned. -/
def install : Outcome Consumer → Proc Consumer V (ConsumerStatus × Option V)
  | .ok c => do
      update fun _ => c
      return (.ready, none)
  | _ => return (.gone, none)

/-- The slot lent out at a status. -/
def borrowed : ConsumerStatus → ℕ
  | .element i => i
  | _ => 0

/-- The code of a call made at the status `st`.  The result is the status afterwards and the
value popped. -/
def code (C : Config) (st : ConsumerStatus) :
    ConsumerOp V → Proc Consumer V (ConsumerStatus × Option V)
  | join => do install (← joinConsumer C.mode C.N C.buffer)
  | pop => do return (.ready, ← Lossless.pop C.w C.N)
  | popZerocopy => do
      match ← Lossless.popZerocopy C.N with
      | none => return (.ready, none)
      | some i => return (.element i, none)
  | elementWrite value => do Element.write (borrowed st) value; return (st, none)
  | elementDrop => do Element.drop C.w C.N; return (.ready, none)
  | beat => do beatConsumer; return (.ready, none)
  | producerHeartbeat => do let _ ← Lossless.producerHeartbeat; return (.ready, none)
  | drop => do dropEndpoint C.mode; return (.gone, none)

end ConsumerOp

/-! ### States and steps -/

abbrev ProducerThread (V : Type) :=
  Thread Handle V ProducerStatus (ProducerOp V) (ProducerStatus × List V)

abbrev ConsumerThread (V : Type) :=
  Thread Consumer V ConsumerStatus (ConsumerOp V) (ConsumerStatus × Option V)

structure State (V : Type) where
  ch : Channel V
  producer : ProducerThread V
  handle : Handle
  consumer : ConsumerThread V
  cursor : Consumer
  wrote : ℕ → Option V
  published : ℕ → Option V
  joinedAt : ℕ
  received : List V

/-- What the live producer has written, after the call `op` made at `start` has returned; a new
producer has written nothing. -/
def wroteAfter (op : ProducerOp V) (start : Handle) (values : List V) (wrote : ℕ → Option V) :
    ℕ → Option V :=
  if op.isJoin then fun _ => none else record (op.position start) values wrote

/-- What the consumer is given when the call `op` returns. -/
def given (ch : Channel V) : ConsumerOp V → ConsumerStatus × Option V → List V
  | .popZerocopy, (.element i, _) => [ch.buffer i]
  | _, (_, value) => value.toList

namespace State

/-- What the live consumer has received, after a call has returned; a new consumer has received
nothing. -/
def receivedAfter (s : State V) (op : ConsumerOp V) (r : ConsumerStatus × Option V) : List V :=
  if op.isJoin then [] else s.received ++ given s.ch op r

/-- The state after the producer performed the action `a`. -/
def producerDoes (C : Config) (s : State V) (a : Act Handle V)
    (thread : a.Ans → ProducerThread V) : State V :=
  let r := a.step C.w (s.ch, s.handle)
  { s with
    ch := r.2.1
    handle := r.2.2
    producer := thread r.1
    published := publish a s.wrote s.published }

/-- The state after the consumer performed the action `a`. -/
def consumerDoes (C : Config) (s : State V) (a : Act Consumer V)
    (thread : a.Ans → ConsumerThread V) : State V :=
  let r := a.step C.w (s.ch, s.cursor)
  { s with ch := r.2.1, cursor := r.2.2, consumer := thread r.1 }

/-- The state in which the constructor `op` has just been run on the memory `m`, and no consumer
has joined. -/
def initial (C : Config) (op : ProducerOp V) (m : Channel V) : State V :=
  let r := (op.code C).run C.w m ⟨⟨0, 0, 0⟩, ⟨0, 0, 0, false⟩⟩
  { ch := r.2.1
    producer := .rest r.1.1
    handle := r.2.2
    consumer := .rest .gone
    cursor := ⟨0, 0, 0⟩
    wrote := fun _ => none
    published := fun _ => none
    joinedAt := 0
    received := [] }

end State

/-- One step of the system. -/
inductive Step (C : Config) : State V → State V → Prop
  | producerCall {s : State V} {st : ProducerStatus} (op : ProducerOp V) :
      s.producer = .rest st → op.enabled st = true →
      s.handle.producer.tail + op.demand C < 2 ^ C.w →
      Step C s { s with producer := .busy s.handle op (op.code C) }
  | producerAct {s : State V} {start : Handle} {op : ProducerOp V} {a : Act Handle V}
      {k : a.Ans → Proc Handle V (ProducerStatus × List V)} :
      s.producer = .busy start op (.act a k) →
      Step C s (s.producerDoes C a fun x => .busy start op (k x))
  | producerReturn {s : State V} {start : Handle} {op : ProducerOp V}
      {r : ProducerStatus × List V} :
      s.producer = .busy start op (.ret r) →
      Step C s { s with producer := .rest r.1, wrote := wroteAfter op start r.2 s.wrote }
  | producerStop {s : State V} : Step C s { s with producer := .rest .gone }
  | consumerCall {s : State V} {st : ConsumerStatus} (op : ConsumerOp V) :
      s.consumer = .rest st → op.enabled st = true →
      Step C s { s with consumer := .busy s.cursor op (op.code C st) }
  | consumerAct {s : State V} {start : Consumer} {op : ConsumerOp V} {a : Act Consumer V}
      {k : a.Ans → Proc Consumer V (ConsumerStatus × Option V)} :
      s.consumer = .busy start op (.act a k) →
      Step C s (s.consumerDoes C a fun x => .busy start op (k x))
  | consumerReturn {s : State V} {start : Consumer} {op : ConsumerOp V}
      {r : ConsumerStatus × Option V} :
      s.consumer = .busy start op (.ret r) →
      Step C s { s with
        consumer := .rest r.1
        joinedAt := if op.isJoin then s.cursor.head else s.joinedAt
        received := s.receivedAfter op r }
  | consumerStop {s : State V} : Step C s { s with consumer := .rest .gone }

/-- `Reach C s₀ s`: a run of the system leads from `s₀` to `s`. -/
abbrev Reach (C : Config) : State V → State V → Prop := Relation.ReflTransGen (Step C)

/-! ### Running a schedule -/

/-- A choice of the scheduler: a call, the next step of a busy thread, or the loss of an
endpoint. -/
inductive Move (V : Type) where
  | producerCall (op : ProducerOp V)
  | producerGo
  | producerStop
  | consumerCall (op : ConsumerOp V)
  | consumerGo
  | consumerStop

/-- The producer makes a call and takes `n` steps. -/
def producerRuns (op : ProducerOp V) (n : ℕ) : List (Move V) :=
  .producerCall op :: List.replicate n .producerGo

/-- The consumer makes a call and takes `n` steps. -/
def consumerRuns (op : ConsumerOp V) (n : ℕ) : List (Move V) :=
  .consumerCall op :: List.replicate n .consumerGo

namespace State

/-- The state after a move, if it is possible. -/
def move (C : Config) (s : State V) : Move V → Option (State V)
  | .producerCall op =>
      match s.producer with
      | .rest st =>
          if op.enabled st = true ∧ s.handle.producer.tail + op.demand C < 2 ^ C.w then
            some { s with producer := .busy s.handle op (op.code C) }
          else
            none
      | .busy _ _ _ => none
  | .producerGo =>
      match s.producer with
      | .rest _ => none
      | .busy start op (.act a k) => some (s.producerDoes C a fun x => .busy start op (k x))
      | .busy start op (.ret r) =>
          some { s with producer := .rest r.1, wrote := wroteAfter op start r.2 s.wrote }
  | .producerStop => some { s with producer := .rest .gone }
  | .consumerCall op =>
      match s.consumer with
      | .rest st =>
          if op.enabled st = true then
            some { s with consumer := .busy s.cursor op (op.code C st) }
          else
            none
      | .busy _ _ _ => none
  | .consumerGo =>
      match s.consumer with
      | .rest _ => none
      | .busy start op (.act a k) => some (s.consumerDoes C a fun x => .busy start op (k x))
      | .busy _ op (.ret r) =>
          some { s with
            consumer := .rest r.1
            joinedAt := if op.isJoin then s.cursor.head else s.joinedAt
            received := s.receivedAfter op r }
  | .consumerStop => some { s with consumer := .rest .gone }

/-- The state after a schedule. -/
def moves (C : Config) (s : State V) : List (Move V) → Option (State V)
  | [] => some s
  | m :: ms => (s.move C m).bind fun t => t.moves C ms

end State

theorem State.move_step {C : Config} {s t : State V} {m : Move V} (h : s.move C m = some t) :
    Step C s t := by
  cases m with
  | producerCall op =>
      cases hp : s.producer with
      | rest st =>
          simp only [move, hp] at h
          split_ifs at h with hc
          cases h
          exact .producerCall op hp hc.1 hc.2
      | busy start op' code => simp [move, hp] at h
  | producerGo =>
      cases hp : s.producer with
      | rest st => simp [move, hp] at h
      | busy start op code =>
          cases code with
          | act a k =>
              simp only [move, hp, Option.some.injEq] at h
              exact h ▸ .producerAct hp
          | ret r =>
              simp only [move, hp, Option.some.injEq] at h
              exact h ▸ .producerReturn hp
  | producerStop =>
      cases h
      exact .producerStop
  | consumerCall op =>
      cases hc : s.consumer with
      | rest st =>
          simp only [move, hc] at h
          split_ifs at h with he
          cases h
          exact .consumerCall op hc he
      | busy start op' code => simp [move, hc] at h
  | consumerGo =>
      cases hc : s.consumer with
      | rest st => simp [move, hc] at h
      | busy start op code =>
          cases code with
          | act a k =>
              simp only [move, hc, Option.some.injEq] at h
              exact h ▸ .consumerAct hc
          | ret r =>
              simp only [move, hc, Option.some.injEq] at h
              exact h ▸ .consumerReturn hc
  | consumerStop =>
      cases h
      exact .consumerStop

/-- A schedule that can be run is a run of the system. -/
theorem State.moves_reach {C : Config} {ms : List (Move V)} {s t : State V}
    (h : s.moves C ms = some t) : Reach C s t := by
  induction ms generalizing s with
  | nil =>
      cases h
      exact .refl
  | cons m ms ih =>
      simp only [moves, Option.bind_eq_some_iff] at h
      obtain ⟨u, hu, ht⟩ := h
      exact .head (move_step hu) (ih ht)

end Que.Lossless
