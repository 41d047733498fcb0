import Que.Headless.Producer
import Que.Headless.Consumer
import Mathlib.Logic.Relation

/-! # The headless channel as a concurrent system

One producer and any number of consumers on one channel, interleaved action by action; elements
are written and read word by word.  As in the lossless system, endpoints can be lost at every
moment and replaced through the constructors.

* **Counters.** A push is only made while the position after it is below `limit`, at most `2 ^ w`;
  this is the assumption that counters stay below the limit of `usize`.
* **History.** `wrote` and `published` are as in the lossless system.  Each consumer has a
  `Trace`: the tail its join loaded, the tails that `pop` loaded since then with the cursor at
  that moment, and what it popped, with the cursor at which the slot was read.  `all` lists the
  positions popped by all consumers. -/

namespace Que.Headless

open Lib

variable {W : Type} {K : ℕ}

/-- The constants of a headless channel: those of every channel, and the bound on the
positions. -/
structure Params extends Config where
  limit : ℕ
  limit_pos : 0 < limit
  limit_le : limit ≤ 2 ^ w

/-- The constants without a further bound on the positions. -/
def Params.ofConfig (C : Config) : Params :=
  { C with limit := 2 ^ C.w, limit_pos := Nat.two_pow_pos _, limit_le := le_rfl }

/-! ### Calls -/

inductive ProducerStatus where
  | gone
  | ready
deriving DecidableEq, Repr

inductive ProducerOp (W : Type) (K : ℕ) where
  | join
  | joinOrInitializeIn
  | joinOrCreateShmem
  | push (value : Vector W K)
  | sync
  | beat
  | consumerHeartbeat
  | drop

inductive ConsumerStatus where
  | gone
  | ready
deriving DecidableEq, Repr

inductive ConsumerOp where
  | join (index consumers : ℕ)
  | pop
  | beat
  | producerHeartbeat
  | drop
deriving DecidableEq, Repr

namespace ProducerOp

/-- The constructors. -/
def isJoin : ProducerOp W K → Bool
  | join | joinOrInitializeIn | joinOrCreateShmem => true
  | _ => false

/-- The constructors that initialise a channel whose magic is zero. -/
def initialises : ProducerOp W K → Bool
  | joinOrInitializeIn | joinOrCreateShmem => true
  | _ => false

/-- The calls possible at a status. -/
def enabled : ProducerStatus → ProducerOp W K → Bool
  | .gone, op => op.isJoin
  | .ready, op => !op.isJoin

/-- The elements that a call writes, from the local tail on. -/
def values : ProducerOp W K → List (Vector W K)
  | push value => [value]
  | _ => []

/-- Install the producer that a constructor returned. -/
def install : Outcome Producer → Proc Producer W ProducerStatus
  | .ok p => do
      update fun _ => p
      return .ready
  | _ => return .gone

/-- The code of a call; the result is the status afterwards. -/
def code (P : Params) : ProducerOp W K → Proc Producer W ProducerStatus
  | join => do install (← joinProducer P.mode P.N P.buffer)
  | joinOrInitializeIn => do install (← Headless.joinOrInitializeIn P.mode P.N P.buffer)
  | joinOrCreateShmem => do install (← Headless.joinOrCreateShmem P.N)
  | push value => do Headless.push P.w P.N value; return .ready
  | sync => do Headless.sync; return .ready
  | beat => do Headless.beat; return .ready
  | consumerHeartbeat => do let _ ← Headless.consumerHeartbeat; return .ready
  | drop => do dropEndpoint P.mode; return .gone

end ProducerOp

/-- The result of the code of a consumer's call. -/
abbrev ConsumerResult (W : Type) (K : ℕ) : Type :=
  Round (ConsumerStatus × Option (Vector W K))

namespace ConsumerOp

def isJoin : ConsumerOp → Bool
  | join _ _ => true
  | _ => false

/-- The calls possible at a status. -/
def enabled : ConsumerStatus → ConsumerOp → Bool
  | .gone, op => op.isJoin
  | .ready, op => !op.isJoin

/-- Install the consumer that the constructor returned. -/
def install : Outcome Consumer → Proc Consumer W (ConsumerResult W K)
  | .ok c => do
      update fun _ => c
      return .done (.ready, none)
  | _ => return .done (.gone, none)

/-- The code of a call, for `pop` of one round. -/
def code (P : Params) : ConsumerOp → Proc Consumer W (ConsumerResult W K)
  | join index consumers => do
      install (← joinMulti P.w P.mode P.N P.buffer index consumers)
  | pop => do
      match ← popIter P.w P.N K with
      | .again => return .again
      | .done value => return .done (.ready, value)
  | beat => do beatConsumer; return .done (.ready, none)
  | producerHeartbeat => do let _ ← Headless.producerHeartbeat; return .done (.ready, none)
  | drop => do dropEndpoint P.mode; return .done (.gone, none)

end ConsumerOp

/-! ### States and steps -/

/-- The history of a consumer since its last join. -/
structure Trace (W : Type) (K : ℕ) where
  /-- The tail that the join loaded. -/
  joinedAt : ℕ
  /-- The tails loaded by `pop`, each with the cursor at that moment. -/
  loads : List (ℕ × ℕ)
  /-- The elements popped, each with the cursor at which its slot was read. -/
  popped : List (ℕ × Vector W K)

/-- Effect of an action on the history: a load of the tail is recorded. -/
def Trace.after (t : Trace W K) (join : Bool) (a : Act Consumer W) (ch : Channel W)
    (c : Consumer) : Trace W K :=
  match a with
  | .load .tail =>
      if join then ⟨ch.tail, [], []⟩ else { t with loads := t.loads ++ [(c.head, ch.tail)] }
  | _ => t

abbrev ProducerThread (W : Type) (K : ℕ) :=
  Thread Producer W ProducerStatus (ProducerOp W K) ProducerStatus

abbrev ConsumerThread (W : Type) (K : ℕ) :=
  Thread Consumer W ConsumerStatus ConsumerOp (ConsumerResult W K)

structure State (W : Type) (K : ℕ) where
  ch : Channel W
  producer : ProducerThread W K
  own : Producer
  wrote : ℕ → Option (Vector W K)
  published : ℕ → Option (Vector W K)
  consumer : ℕ → ConsumerThread W K
  cursor : ℕ → Consumer
  trace : ℕ → Trace W K
  all : List ℕ

/-- What the live producer has written, after the call `op` made at `start` has returned; a new
producer has written nothing. -/
def wroteAfter (op : ProducerOp W K) (start : Producer) (wrote : ℕ → Option (Vector W K)) :
    ℕ → Option (Vector W K) :=
  if op.isJoin then fun _ => none else record start.tail op.values wrote

namespace State

/-- The state after the producer performed the action `a`. -/
def producerDoes (P : Params) (s : State W K) (a : Act Producer W)
    (thread : a.Ans → ProducerThread W K) : State W K :=
  let r := a.step P.w (s.ch, s.own)
  { s with
    ch := r.2.1
    own := r.2.2
    producer := thread r.1
    published := publish a s.wrote s.published }

/-- The state after consumer `i` performed the action `a` of the call `op`. -/
def consumerDoes (P : Params) (s : State W K) (i : ℕ) (op : ConsumerOp) (a : Act Consumer W)
    (thread : a.Ans → ConsumerThread W K) : State W K :=
  let r := a.step P.w (s.ch, s.cursor i)
  { s with
    ch := r.2.1
    cursor := Function.update s.cursor i r.2.2
    consumer := Function.update s.consumer i (thread r.1)
    trace := Function.update s.trace i ((s.trace i).after op.isJoin a s.ch (s.cursor i)) }

/-- The state after a call of consumer `i`, whose last round began at `start`, returned. -/
def consumerGets (s : State W K) (i : ℕ) (start : Consumer) (st : ConsumerStatus)
    (value : Option (Vector W K)) : State W K :=
  { s with
    consumer := Function.update s.consumer i (.rest st)
    trace := Function.update s.trace i { s.trace i with
      popped := (s.trace i).popped ++ value.toList.map fun v => (start.head, v) }
    all := s.all ++ value.toList.map fun _ => start.head }

/-- The state of a session that begins on the memory `ch`, with no endpoint joined. -/
def opened (ch : Channel W) : State W K :=
  { ch := ch
    producer := .rest .gone
    own := ⟨0, 0, 0⟩
    wrote := fun _ => none
    published := fun _ => none
    consumer := fun _ => .rest .gone
    cursor := fun _ => ⟨0, 0, 0, 0⟩
    trace := fun _ => ⟨0, [], []⟩
    all := [] }

/-- The state in which the constructor `op` has just been run on the memory `m`, and no consumer
has joined. -/
def initial (P : Params) (op : ProducerOp W K) (m : Channel W) : State W K :=
  let r := (op.code P).run P.w m ⟨0, 0, 0⟩
  { opened r.2.1 with producer := .rest r.1, own := r.2.2 }

end State

/-- One step of the system. -/
inductive Step (P : Params) : State W K → State W K → Prop
  | producerCall {s : State W K} {st : ProducerStatus} (op : ProducerOp W K) :
      s.producer = .rest st → op.enabled st = true →
      s.own.tail + op.values.length < P.limit →
      Step P s { s with producer := .busy s.own op (op.code P) }
  | producerAct {s : State W K} {start : Producer} {op : ProducerOp W K} {a : Act Producer W}
      {k : a.Ans → Proc Producer W ProducerStatus} :
      s.producer = .busy start op (.act a k) →
      Step P s (s.producerDoes P a fun x => .busy start op (k x))
  | producerReturn {s : State W K} {start : Producer} {op : ProducerOp W K}
      {st : ProducerStatus} :
      s.producer = .busy start op (.ret st) →
      Step P s { s with producer := .rest st, wrote := wroteAfter op start s.wrote }
  | producerStop {s : State W K} : Step P s { s with producer := .rest .gone }
  | consumerCall {s : State W K} {st : ConsumerStatus} (i : ℕ) (op : ConsumerOp) :
      s.consumer i = .rest st → op.enabled st = true →
      Step P s { s with
        consumer := Function.update s.consumer i (.busy (s.cursor i) op (op.code P)) }
  | consumerAct {s : State W K} {i : ℕ} {start : Consumer} {op : ConsumerOp}
      {a : Act Consumer W} {k : a.Ans → Proc Consumer W (ConsumerResult W K)} :
      s.consumer i = .busy start op (.act a k) →
      Step P s (s.consumerDoes P i op a fun x => .busy start op (k x))
  | consumerAgain {s : State W K} {i : ℕ} {start : Consumer} {op : ConsumerOp} :
      s.consumer i = .busy start op (.ret .again) →
      Step P s { s with
        consumer := Function.update s.consumer i (.busy (s.cursor i) op (op.code P)) }
  | consumerReturn {s : State W K} {i : ℕ} {start : Consumer} {op : ConsumerOp}
      {st : ConsumerStatus} {value : Option (Vector W K)} :
      s.consumer i = .busy start op (.ret (.done (st, value))) →
      Step P s (s.consumerGets i start st value)
  | consumerStop {s : State W K} (i : ℕ) :
      Step P s { s with consumer := Function.update s.consumer i (.rest .gone) }

/-- `Reach P s₀ s`: a run of the system leads from `s₀` to `s`. -/
abbrev Reach (P : Params) : State W K → State W K → Prop := Relation.ReflTransGen (Step P)

/-! ### Running a schedule -/

/-- A choice of the scheduler: a call, the next step of a busy thread, or the loss of an
endpoint. -/
inductive Move (W : Type) (K : ℕ) where
  | producerCall (op : ProducerOp W K)
  | producerGo
  | producerStop
  | consumerCall (i : ℕ) (op : ConsumerOp)
  | consumerGo (i : ℕ)
  | consumerStop (i : ℕ)

/-- The producer makes a call and takes `n` steps. -/
def producerRuns (op : ProducerOp W K) (n : ℕ) : List (Move W K) :=
  .producerCall op :: List.replicate n .producerGo

/-- Consumer `i` makes a call and takes `n` steps. -/
def consumerRuns (i : ℕ) (op : ConsumerOp) (n : ℕ) : List (Move W K) :=
  .consumerCall i op :: List.replicate n (.consumerGo i)

namespace State

/-- The state after a move, if it is possible. -/
def move (P : Params) (s : State W K) : Move W K → Option (State W K)
  | .producerCall op =>
      match s.producer with
      | .rest st =>
          if op.enabled st = true ∧ s.own.tail + op.values.length < P.limit then
            some { s with producer := .busy s.own op (op.code P) }
          else
            none
      | .busy _ _ _ => none
  | .producerGo =>
      match s.producer with
      | .rest _ => none
      | .busy start op (.act a k) => some (s.producerDoes P a fun x => .busy start op (k x))
      | .busy start op (.ret st) =>
          some { s with producer := .rest st, wrote := wroteAfter op start s.wrote }
  | .producerStop => some { s with producer := .rest .gone }
  | .consumerCall i op =>
      match s.consumer i with
      | .rest st =>
          if op.enabled st = true then
            some { s with
              consumer := Function.update s.consumer i (.busy (s.cursor i) op (op.code P)) }
          else
            none
      | .busy _ _ _ => none
  | .consumerGo i =>
      match s.consumer i with
      | .rest _ => none
      | .busy start op (.act a k) => some (s.consumerDoes P i op a fun x => .busy start op (k x))
      | .busy _ op (.ret .again) =>
          some { s with
            consumer := Function.update s.consumer i (.busy (s.cursor i) op (op.code P)) }
      | .busy start _ (.ret (.done (st, value))) => some (s.consumerGets i start st value)
  | .consumerStop i => some { s with consumer := Function.update s.consumer i (.rest .gone) }

/-- The state after a schedule. -/
def moves (P : Params) (s : State W K) : List (Move W K) → Option (State W K)
  | [] => some s
  | m :: ms => (s.move P m).bind fun t => t.moves P ms

end State

theorem State.move_step {P : Params} {s t : State W K} {m : Move W K} (h : s.move P m = some t) :
    Step P s t := by
  cases m with
  | producerCall op =>
      cases hp : s.producer with
      | rest st =>
          simp only [move, hp] at h
          split_ifs at h with hc
          cases h
          exact .producerCall op hp hc.1 hc.2
      | busy start op' code => simp [move, hp] at h
  | producerGo =>
      cases hp : s.producer with
      | rest st => simp [move, hp] at h
      | busy start op code =>
          cases code with
          | act a k =>
              simp only [move, hp, Option.some.injEq] at h
              exact h ▸ .producerAct hp
          | ret st =>
              simp only [move, hp, Option.some.injEq] at h
              exact h ▸ .producerReturn hp
  | producerStop =>
      cases h
      exact .producerStop
  | consumerCall i op =>
      cases hc : s.consumer i with
      | rest st =>
          simp only [move, hc] at h
          split_ifs at h with he
          cases h
          exact .consumerCall i op hc he
      | busy start op' code => simp [move, hc] at h
  | consumerGo i =>
      cases hc : s.consumer i with
      | rest st => simp [move, hc] at h
      | busy start op code =>
          cases code with
          | act a k =>
              simp only [move, hc, Option.some.injEq] at h
              exact h ▸ .consumerAct hc
          | ret r =>
              cases r with
              | again =>
                  simp only [move, hc, Option.some.injEq] at h
                  exact h ▸ .consumerAgain hc
              | done r =>
                  simp only [move, hc, Option.some.injEq] at h
                  exact h ▸ .consumerReturn hc
  | consumerStop i =>
      cases h
      exact .consumerStop i

/-- A schedule that can be run is a run of the system. -/
theorem State.moves_reach {P : Params} {ms : List (Move W K)} {s t : State W K}
    (h : s.moves P ms = some t) : Reach P s t := by
  induction ms generalizing s with
  | nil =>
      cases h
      exact .refl
  | cons m ms ih =>
      simp only [moves, Option.bind_eq_some_iff] at h
      obtain ⟨u, hu, ht⟩ := h
      exact .head (move_step hu) (ih ht)

/-- A ring of four slots in shared memory, with 64-bit counters and room to spare. -/
def Params.small : Params where
  mode := .shmem
  N := 4
  w := 64
  buffer := 0
  valid := by decide +kernel
  fits := by decide
  limit := 2 ^ 63
  limit_pos := by decide
  limit_le := by decide

/-- The constants of `examples/broadcast.rs`. -/
def Params.broadcast : Params where
  mode := .local
  N := 1024
  w := 64
  buffer := 0
  valid := by decide +kernel
  fits := by decide
  limit := 2 ^ 63
  limit_pos := by decide
  limit_le := by decide

end Que.Headless
