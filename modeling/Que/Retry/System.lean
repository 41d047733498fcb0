import Que.Lossless.WriteIter
import Que.Lib.Fair

/-! # Clients that retry

The main loops of `examples/lossless.rs`, of the loom tests (`push_retry`, `drain_all`) and of the
interprocess example: the producer makes a list of calls one after the other, and makes a `push` or
a `reserve` again and again until it succeeds; the consumer pops until it has got as many values as
it expects.

* **Schedules.** The two loops run on the lossless system, action by action.  A schedule says who
  moves next; a loop that has ended stays where it is.
* **Feasible calls.** A push into a full ring is only repeated, and never publishes what was pushed
  before it.  The consumer may hold back one slot less than a burst.  So a loop may only ask for
  slots that fit into the ring beside these and the elements that it has not published
  (`feasible`); a push asks for one slot. -/

namespace Que.Retry

open Lib Lossless

variable {V : Type}

/-! ### The producer's calls -/

/-- The values that a call writes. -/
def written : ProducerOp V → List V
  | .push value => [value]
  | .writeNext value => [value]
  | .writeAll values => values
  | _ => []

/-- The values that a list of calls writes. -/
def values (ops : List (ProducerOp V)) : List V := ops.flatMap written

/-- The call has not returned an error that makes the loop repeat it. -/
def passed : ProducerOp V → ProducerStatus × List V → Bool
  | .push _, r => !r.2.isEmpty
  | .reserve _, r => r.1 = .reserved
  | _, _ => true

/-- The calls can be made one after the other.  `u` positions are written and not yet published;
`left` is what remains of an open reservation, and `done` what was written through it. -/
def feasible (N : ℕ) : ProducerStatus → (u left done : ℕ) → List (ProducerOp V) → Bool
  | .ready, u, _, _, [] => u = 0
  | .ready, u, _, _, .push _ :: ops => u + burstAmount N ≤ N && feasible N .ready (u + 1) 0 0 ops
  | .ready, _, _, _, .sync :: ops => feasible N .ready 0 0 0 ops
  | .ready, u, _, _, .beat :: ops => feasible N .ready u 0 0 ops
  | .ready, u, _, _, .reserve count :: ops =>
      0 < count && u + count + burstAmount N ≤ N + 1 && feasible N .reserved u count 0 ops
  | .reserved, u, left, done, .writeNext _ :: ops =>
      0 < left && feasible N .reserved u (left - 1) (done + 1) ops
  | .reserved, u, left, done, .writeAll vs :: ops =>
      vs.length ≤ left && feasible N .reserved u (left - vs.length) (done + vs.length) ops
  | .reserved, u, _, done, .commit :: ops =>
      feasible N .ready (if u + done ≥ burstAmount N then 0 else u + done) 0 0 ops
  | _, _, _, _, _ => false

section feasible
variable {N u l d : ℕ} {ops : List (ProducerOp V)}

theorem feasible_nil : feasible N .ready u l d ([] : List (ProducerOp V)) = decide (u = 0) := rfl

theorem feasible_push {v : V} : feasible N .ready u l d (.push v :: ops) =
    (decide (u + burstAmount N ≤ N) && feasible N .ready (u + 1) 0 0 ops) := rfl

theorem feasible_sync :
    feasible N .ready u l d (.sync :: ops) = feasible N .ready 0 0 0 ops := rfl

theorem feasible_beat :
    feasible N .ready u l d (.beat :: ops) = feasible N .ready u 0 0 ops := rfl

theorem feasible_reserve {count : ℕ} : feasible N .ready u l d (.reserve count :: ops) =
    (decide (0 < count) && decide (u + count + burstAmount N ≤ N + 1) &&
      feasible N .reserved u count 0 ops) := rfl

theorem feasible_writeNext {v : V} : feasible N .reserved u l d (.writeNext v :: ops) =
    (decide (0 < l) && feasible N .reserved u (l - 1) (d + 1) ops) := rfl

theorem feasible_writeAll {vs : List V} : feasible N .reserved u l d (.writeAll vs :: ops) =
    (decide (vs.length ≤ l) && feasible N .reserved u (l - vs.length) (d + vs.length) ops) := rfl

theorem feasible_commit : feasible N .reserved u l d (.commit :: ops) =
    feasible N .ready (if u + d ≥ burstAmount N then 0 else u + d) 0 0 ops := rfl

end feasible

/-- The values on their way to the consumer: those that are published from its cursor on, and those
that are written behind them. -/
def onTheWay (C : Config) (s : State V) : List V :=
  ringValues C.N s.ch s.cursor.head (s.handle.producer.tail - s.cursor.head)

/-- The number of positions that the calls ask for. -/
def demands (C : Config) (ops : List (ProducerOp V)) : ℕ := (ops.map (·.demand C)).sum

/-! ### The two loops -/

inductive Side where
  | producer
  | consumer
deriving DecidableEq, Repr

/-- The lossless system, the calls that the producer has still to make, the one in progress
included, and the number of values that the consumer still expects. -/
structure Client (V : Type) where
  s : State V
  todo : List (ProducerOp V)
  wanted : ℕ

namespace Client

/-- The next step of the producer's loop. -/
def produce (C : Config) (c : Client V) : Client V :=
  match c.s.producer with
  | .rest _ =>
      match c.todo with
      | [] => c
      | op :: _ => { c with s := (c.s.move C (.producerCall op)).getD c.s }
  | .busy _ op (.ret r) =>
      { c with
        s := (c.s.move C .producerGo).getD c.s
        todo := if passed op r then c.todo.tail else c.todo }
  | .busy _ _ (.act _ _) => { c with s := (c.s.move C .producerGo).getD c.s }

/-- The next step of the consumer's loop. -/
def consume (C : Config) (c : Client V) : Client V :=
  match c.s.consumer with
  | .rest _ =>
      if c.wanted = 0 then c else { c with s := (c.s.move C (.consumerCall .pop)).getD c.s }
  | .busy _ _ (.ret r) =>
      { c with
        s := (c.s.move C .consumerGo).getD c.s
        wanted := if r.2.isSome then c.wanted - 1 else c.wanted }
  | .busy _ _ (.act _ _) => { c with s := (c.s.move C .consumerGo).getD c.s }

/-- A step of one of the loops. -/
def next (C : Config) (side : Side) (c : Client V) : Client V :=
  match side with
  | .producer => c.produce C
  | .consumer => c.consume C

/-- Both loops have ended. -/
def Done (c : Client V) : Prop := c.todo = [] ∧ c.wanted = 0

/-- There is a published value that the consumer has not got yet. -/
def Avail (c : Client V) : Prop := c.s.joinedAt + c.s.received.length < c.s.ch.tail

end Client

/-! ### Steps of the loops are steps of the system -/

section steps
variable {C : Config} {c : Client V}

theorem move_reach (s : State V) (m : Move V) : Reach C s ((s.move C m).getD s) := by
  cases h : s.move C m with
  | none => exact .refl
  | some t => exact .single (State.move_step h)

theorem produce_reach : Reach C c.s (c.produce C).s := by
  unfold Client.produce
  split
  · split
    · exact .refl
    · exact move_reach c.s _
  · exact move_reach c.s _
  · exact move_reach c.s _

theorem consume_reach : Reach C c.s (c.consume C).s := by
  unfold Client.consume
  split
  · split_ifs
    · exact .refl
    · exact move_reach c.s _
  · exact move_reach c.s _
  · exact move_reach c.s _

theorem runs_reach (sched : ℕ → Side) (c : Client V) (n : ℕ) :
    Reach C c.s (runs (Client.next C) sched c n).s := by
  induction n with
  | zero => exact .refl
  | succ n ih =>
      apply ih.trans
      cases hside : sched n with
      | producer =>
          simp only [runs, hside]
          exact produce_reach
      | consumer =>
          simp only [runs, hside]
          exact consume_reach

end steps

end Que.Retry
