import Que.Headless.Partition
import Que.Answers
import Que.Lib.Fair

/-! # Clients that poll

The main loops of `examples/broadcast.rs` and of the benchmark, on a headless channel: the producer
makes a list of calls one after the other, and each of `k` consumers pops again and again.

* **Schedules.** The loops run on the headless system, action by action.  A schedule says who
  moves next; a producer whose list is empty stays where it is.
* **Steps.** The steps of a loop are steps of the system, in which the live consumers keep their
  indices (`produce_step`, `consume_step`). -/

namespace Que.Polling

open Lib Headless

variable {W : Type} {K k : ℕ} {P : Params}

/-- The calls of the producer's loop. -/
def working : ProducerOp W K → Bool
  | .push _ | .sync | .beat | .consumerHeartbeat => true
  | _ => false

/-- The elements that a list of calls pushes. -/
def pushed (ops : List (ProducerOp W K)) : List (Vector W K) := ops.flatMap ProducerOp.values

inductive Side (k : ℕ) where
  | producer
  | consumer (i : Fin k)
deriving DecidableEq, Repr

/-- The headless system, and the calls that the producer has still to make, the one in progress
included. -/
structure Client (W : Type) (K : ℕ) where
  s : State W K
  todo : List (ProducerOp W K)

namespace Client

/-- The next step of the producer's loop. -/
def produce (P : Params) (c : Client W K) : Client W K :=
  match c.s.producer with
  | .rest _ =>
      match c.todo with
      | [] => c
      | op :: _ => { c with s := (c.s.move P (.producerCall op)).getD c.s }
  | .busy _ _ (.ret _) => ⟨(c.s.move P .producerGo).getD c.s, c.todo.tail⟩
  | .busy _ _ (.act _ _) => { c with s := (c.s.move P .producerGo).getD c.s }

/-- The next step of the loop of consumer `i`. -/
def consume (P : Params) (i : ℕ) (c : Client W K) : Client W K :=
  match c.s.consumer i with
  | .rest _ => { c with s := (c.s.move P (.consumerCall i .pop)).getD c.s }
  | .busy _ _ _ => { c with s := (c.s.move P (.consumerGo i)).getD c.s }

/-- A step of one of the loops. -/
def next (P : Params) (side : Side k) (c : Client W K) : Client W K :=
  match side with
  | .producer => c.produce P
  | .consumer i => c.consume P i

end Client

/-! ### The steps -/

section steps
variable {c : Client W K} {i : ℕ}

theorem produce_done {st : ProducerStatus} (hp : c.s.producer = .rest st) (htodo : c.todo = []) :
    c.produce P = c := by
  simp only [Client.produce, hp, htodo]

theorem produce_call {st : ProducerStatus} {op : ProducerOp W K} {ops : List (ProducerOp W K)}
    (hp : c.s.producer = .rest st) (htodo : c.todo = op :: ops) (hen : op.enabled st = true)
    (hlt : c.s.own.tail + op.values.length < P.limit) :
    c.produce P = { c with s := { c.s with producer := .busy c.s.own op (op.code P) } } := by
  simp only [Client.produce, hp, htodo, State.move, hen, hlt, and_self, if_true, Option.getD_some]

theorem produce_act {start : Producer} {op : ProducerOp W K} {a : Act Producer W}
    {k : a.Ans → Proc Producer W ProducerStatus} (hp : c.s.producer = .busy start op (.act a k)) :
    c.produce P = { c with s := c.s.producerDoes P a fun x => .busy start op (k x) } := by
  simp only [Client.produce, hp, State.move, Option.getD_some]

theorem produce_ret {start : Producer} {op : ProducerOp W K} {st : ProducerStatus}
    (hp : c.s.producer = .busy start op (.ret st)) : c.produce P =
      ⟨{ c.s with producer := .rest st, wrote := wroteAfter op start c.s.wrote }, c.todo.tail⟩ := by
  simp only [Client.produce, hp, State.move, Option.getD_some]

/-- Consumer `i` begins a round of `pop`. -/
def begun (P : Params) (s : State W K) (i : ℕ) : State W K :=
  { s with
    consumer := Function.update s.consumer i
      (.busy (s.cursor i) .pop (ConsumerOp.pop.code P)) }

theorem consume_call (hc : c.s.consumer i = .rest .ready) :
    c.consume P i = { c with s := begun P c.s i } := by
  simp only [Client.consume, hc, State.move, ConsumerOp.enabled, ConsumerOp.isJoin, Bool.not_false,
    if_true, Option.getD_some, begun]

theorem consume_act {start : Consumer} {op : ConsumerOp} {a : Act Consumer W}
    {k : a.Ans → Proc Consumer W (ConsumerResult W K)}
    (hc : c.s.consumer i = .busy start op (.act a k)) :
    c.consume P i = { c with s := c.s.consumerDoes P i op a fun x => .busy start op (k x) } := by
  simp only [Client.consume, hc, State.move, Option.getD_some]

theorem consume_again {start : Consumer} (hc : c.s.consumer i = .busy start .pop (.ret .again)) :
    c.consume P i = { c with s := begun P c.s i } := by
  simp only [Client.consume, hc, State.move, Option.getD_some, begun]

theorem consume_ret {start : Consumer} {op : ConsumerOp} {st : ConsumerStatus}
    {value : Option (Vector W K)}
    (hc : c.s.consumer i = .busy start op (.ret (.done (st, value)))) :
    c.consume P i = { c with s := c.s.consumerGets i start st value } := by
  simp only [Client.consume, hc, State.move, Option.getD_some]

end steps

end Que.Polling
