import Que.Lossless.System
import Que.Headless.System

/-! # Who drops a value

`lossless_pair` and `headless_pair` build a channel inside an `Arc` for any `T : Send`, so the
elements may have a destructor.  This module runs the two pairs with a ledger of ownership.

* **Cells.** A slot is `none` as long as it holds the zeroed memory of the construction, and
  `some t` once the token `t` was written to it.
* **Ledger.** `*slot = value` drops the old content of the slot; `core::ptr::read` makes a copy
  that its receiver drops once; the drop of the last `Arc` handle drops all `N` slots.
* **Calls.** All calls that a handle offers for such a `T`; `write_all` needs `T : Copy`, and no
  type with a destructor is `Copy`.
* **Interleaving.** The two handles are used by two threads, action by action. -/

namespace Que.Ownership

open Lib

/-! ### The ledger -/

/-- The history of ownership. -/
structure Ledger (V : Type) where
  /-- What was written to slots. -/
  written : List V
  /-- The copies that `core::ptr::read` handed out; each is dropped once by its receiver. -/
  handed : List V
  /-- What the channel has dropped. -/
  dropped : List V
deriving DecidableEq, Repr

namespace Ledger
variable {L V : Type}

def empty : Ledger V := ⟨[], [], []⟩

/-- The effect of an action on a channel of `N` slots. -/
def after (N : ℕ) (a : Act L V) (ch : Channel V) (l : Ledger V) : Ledger V :=
  match a with
  | .read i => { l with handed := l.handed ++ [ch.buffer i] }
  | .assign i v => { l with written := l.written ++ [v], dropped := l.dropped ++ [ch.buffer i] }
  | .dropArc =>
      if ch.strong = 1 then { l with dropped := l.dropped ++ (List.range N).map ch.buffer } else l
  | _ => l

end Ledger

/-- How often the destructor of the token `t` runs. -/
def Ledger.destructions {T : Type} [DecidableEq T] (l : Ledger (Option T)) (t : T) : ℕ :=
  l.handed.count (some t) + l.dropped.count (some t)

/-- Proper accounting: the destructor of a value that was written runs at most once, and no slot
that never received a value is dropped. -/
structure Accounted {T : Type} [DecidableEq T] (l : Ledger (Option T)) : Prop where
  once : ∀ t, l.written.count (some t) = 1 → l.destructions t ≤ 1
  received : none ∉ l.dropped

/-! ### Handles -/

section steps
variable {V : Type}

/-- A handle: its structure, the calls possible at a status, and their code; a loop asks for
another round of the same code. -/
structure Endpoint (V : Type) where
  Own : Type
  Status : Type
  Call : Type
  gone : Status
  enabled : Status → Call → Bool
  code : Status → Call → Proc Own V (Headless.Round Status)

/-- What a handle is doing: at rest, or inside a call with the code `whole`, of which `code` is
left. -/
inductive Doing (E : Endpoint V) where
  | rest (st : E.Status)
  | busy (whole code : Proc E.Own V (Headless.Round E.Status))

/-- The status of a handle at rest. -/
def Doing.status {E : Endpoint V} : Doing E → Option E.Status
  | .rest st => some st
  | .busy _ _ => none

/-- A handle in use; `released` says that it has given up its share of the `Arc`. -/
structure Side (E : Endpoint V) where
  own : E.Own
  doing : Doing E
  released : Bool

/-- A choice of the thread that uses a handle: a call, or the next step of the running call. -/
inductive Choice (E : Endpoint V) where
  | call (c : E.Call)
  | go

/-- The action gives up a share of the `Arc`. -/
def releases {L : Type} : Act L V → Bool
  | .dropArc => true
  | _ => false

/-- The memory, the ledger and the handle after a step, if it is possible. -/
def Side.move {E : Endpoint V} (w N : ℕ) (ch : Channel V) (l : Ledger V) (e : Side E) :
    Choice E → Option (Channel V × Ledger V × Side E)
  | .call c =>
      match e.doing with
      | .rest st =>
          if E.enabled st c then
            some (ch, l, { e with doing := .busy (E.code st c) (E.code st c) })
          else
            none
      | .busy _ _ => none
  | .go =>
      match e.doing with
      | .rest _ => none
      | .busy whole (.act a k) =>
          let r := a.step w (ch, e.own)
          some (r.2.1, l.after N a ch, ⟨r.2.2, .busy whole (k r.1), releases a || e.released⟩)
      | .busy whole (.ret .again) => some (ch, l, { e with doing := .busy whole whole })
      | .busy _ (.ret (.done st)) => some (ch, l, { e with doing := .rest st })

/-- The two handles of a channel. -/
structure State (A B : Endpoint V) where
  ch : Channel V
  ledger : Ledger V
  producer : Side A
  consumer : Side B

inductive Move (A B : Endpoint V) where
  | producer (m : Choice A)
  | consumer (m : Choice B)

/-- The producer makes a call and takes `n` steps. -/
def producerRuns {A B : Endpoint V} (c : A.Call) (n : ℕ) : List (Move A B) :=
  .producer (.call c) :: List.replicate n (.producer .go)

/-- The consumer makes a call and takes `n` steps. -/
def consumerRuns {A B : Endpoint V} (c : B.Call) (n : ℕ) : List (Move A B) :=
  .consumer (.call c) :: List.replicate n (.consumer .go)

namespace State
variable {A B : Endpoint V}

/-- The state after a move, if it is possible. -/
def move (w N : ℕ) (s : State A B) : Move A B → Option (State A B)
  | .producer m =>
      (s.producer.move w N s.ch s.ledger m).map fun r => ⟨r.1, r.2.1, r.2.2, s.consumer⟩
  | .consumer m =>
      (s.consumer.move w N s.ch s.ledger m).map fun r => ⟨r.1, r.2.1, s.producer, r.2.2⟩

/-- The state after a schedule. -/
def moves (w N : ℕ) (s : State A B) : List (Move A B) → Option (State A B)
  | [] => some s
  | m :: ms => (s.move w N m).bind fun t => t.moves w N ms

/-- Both handles have been dropped. -/
def Dropped (s : State A B) : Prop :=
  s.producer.doing.status = some A.gone ∧ s.consumer.doing.status = some B.gone

end State

/-- One step of either thread. -/
def Step (w N : ℕ) {A B : Endpoint V} (s t : State A B) : Prop := ∃ m, s.move w N m = some t

abbrev Reach (w N : ℕ) {A B : Endpoint V} : State A B → State A B → Prop :=
  Relation.ReflTransGen (Step w N)

theorem State.moves_reach {w N : ℕ} {A B : Endpoint V} {ms : List (Move A B)} {s t : State A B}
    (h : s.moves w N ms = some t) : Reach w N s t := by
  induction ms generalizing s with
  | nil =>
      cases h
      exact .refl
  | cons m ms ih =>
      obtain ⟨u, hu, ht⟩ := Option.bind_eq_some_iff.mp h
      exact .head ⟨m, hu⟩ (ih ht)

end steps

/-! ### The calls of the handles -/

section handles
variable {T : Type}

/-- The calls of a lossless producer. -/
inductive ProducerCall (T : Type) where
  | push (value : T)
  | sync
  | beat
  | consumerHeartbeat
  | reserve (count : ℕ)
  | writeNext (value : T)
  | writeIter (items : ℕ → Option T) (i : ℕ)
  | commit
  | cancel
  | drop

def ProducerCall.op : ProducerCall T → Lossless.ProducerOp (Option T)
  | push value => .push (some value)
  | sync => .sync
  | beat => .beat
  | consumerHeartbeat => .consumerHeartbeat
  | reserve count => .reserve count
  | writeNext value => .writeNext (some value)
  | writeIter items i => .writeIter (fun n => (items n).map some) i
  | commit => .commit
  | cancel => .cancel
  | drop => .drop

/-- The calls of a lossless consumer. -/
inductive ConsumerCall (T : Type) where
  | pop
  | popZerocopy
  | elementWrite (value : T)
  | elementDrop
  | beat
  | producerHeartbeat
  | drop

def ConsumerCall.op : ConsumerCall T → Lossless.ConsumerOp (Option T)
  | pop => .pop
  | popZerocopy => .popZerocopy
  | elementWrite value => .elementWrite (some value)
  | elementDrop => .elementDrop
  | beat => .beat
  | producerHeartbeat => .producerHeartbeat
  | drop => .drop

/-- The calls of a headless producer. -/
inductive HeadlessProducerCall (T : Type) where
  | push (value : T)
  | sync
  | beat
  | consumerHeartbeat
  | drop

def HeadlessProducerCall.op : HeadlessProducerCall T → Headless.ProducerOp (Option T) 1
  | push value => .push #v[some value]
  | sync => .sync
  | beat => .beat
  | consumerHeartbeat => .consumerHeartbeat
  | drop => .drop

/-- The calls of a headless consumer. -/
inductive HeadlessConsumerCall where
  | pop
  | beat
  | producerHeartbeat
  | drop

def HeadlessConsumerCall.op : HeadlessConsumerCall → Headless.ConsumerOp
  | pop => .pop
  | beat => .beat
  | producerHeartbeat => .producerHeartbeat
  | drop => .drop

/-- A channel inside an `Arc`.  (`usize` has at least 16 bits.) -/
structure InProcess extends Config where
  arc : mode = .local
  wide : 16 ≤ w

def losslessProducer (C : InProcess) (T : Type) : Endpoint (Option T) where
  Own := Lossless.Handle
  Status := Lossless.ProducerStatus
  Call := ProducerCall T
  gone := .gone
  enabled st c := c.op.enabled st
  code _ c := do
    let r ← c.op.code C.toConfig
    return .done r.1

def losslessConsumer (C : InProcess) (T : Type) : Endpoint (Option T) where
  Own := Lossless.Consumer
  Status := Lossless.ConsumerStatus
  Call := ConsumerCall T
  gone := .gone
  enabled st c := c.op.enabled st
  code st c := do
    let r ← c.op.code C.toConfig st
    return .done r.1

def headlessProducer (C : InProcess) (T : Type) : Endpoint (Option T) where
  Own := Producer
  Status := Headless.ProducerStatus
  Call := HeadlessProducerCall T
  gone := .gone
  enabled st c := c.op.enabled st
  code _ c := do
    let st ← c.op.code (.ofConfig C.toConfig)
    return .done st

def headlessConsumer (C : InProcess) (T : Type) : Endpoint (Option T) where
  Own := Headless.Consumer
  Status := Headless.ConsumerStatus
  Call := HeadlessConsumerCall
  gone := .gone
  enabled st c := c.op.enabled st
  code _ c := do
    match ←
        (c.op.code (.ofConfig C.toConfig) : Proc _ _ (Headless.ConsumerResult (Option T) 1)) with
    | .again => return .again
    | .done r => return .done r.1

end handles

/-! ### Construction -/

section pairs
variable {V T : Type}

/-- `lossless_pair`, from the zeroed memory inside the new `Arc` on. -/
def losslessPair (N buffer : ℕ) : Proc Unit V (Outcome (Producer × Lossless.Consumer)) := do
  match ← Lossless.joinOrInitializeIn .local N buffer with
  | .ok producer =>
      match ← Lossless.joinConsumer .local N buffer with
      | .ok consumer => do
          Prog.perform Act.dropArc
          return .ok (producer, consumer)
      | _ => return .panic
  | _ => return .panic

/-- `headless_pair`, from the zeroed memory inside the new `Arc` on. -/
def headlessPair (w N buffer : ℕ) : Proc Unit V (Outcome (Producer × Headless.Consumer)) := do
  match ← Headless.joinOrInitializeIn .local N buffer with
  | .ok producer =>
      match ← Headless.joinMulti w .local N buffer 0 1 with
      | .ok consumer => do
          Prog.perform Act.dropArc
          return .ok (producer, consumer)
      | _ => return .panic
  | _ => return .panic

/-- The memory inside a new `Arc`. -/
def arcMemory : Channel (Option T) := { Channel.zeroed none with strong := 1 }

inductive Flavour where
  | lossless
  | headless

namespace Flavour

def producer (C : InProcess) (T : Type) : Flavour → Endpoint (Option T)
  | lossless => losslessProducer C T
  | headless => headlessProducer C T

def consumer (C : InProcess) (T : Type) : Flavour → Endpoint (Option T)
  | lossless => losslessConsumer C T
  | headless => headlessConsumer C T

/-- The two handles as the construction returns them; after a panic there are none. -/
def pair (C : InProcess) (T : Type) : (f : Flavour) → State (f.producer C T) (f.consumer C T)
  | lossless =>
      match (losslessPair C.N C.buffer).run C.w arcMemory () with
      | (.ok (p, c), ch, _) =>
          { ch := ch
            ledger := .empty
            producer := ⟨(⟨p, ⟨0, 0, 0, false⟩⟩ : Lossless.Handle), .rest .ready, false⟩
            consumer := ⟨(c : Lossless.Consumer), .rest .ready, false⟩ }
      | (_, ch, _) =>
          { ch := ch
            ledger := .empty
            producer := ⟨(⟨⟨0, 0, 0⟩, ⟨0, 0, 0, false⟩⟩ : Lossless.Handle), .rest .gone, true⟩
            consumer := ⟨(⟨0, 0, 0⟩ : Lossless.Consumer), .rest .gone, true⟩ }
  | headless =>
      match (headlessPair C.w C.N C.buffer).run C.w arcMemory () with
      | (.ok (p, c), ch, _) =>
          { ch := ch
            ledger := .empty
            producer := ⟨(p : Producer), .rest .ready, false⟩
            consumer := ⟨(c : Headless.Consumer), .rest .ready, false⟩ }
      | (_, ch, _) =>
          { ch := ch
            ledger := .empty
            producer := ⟨(⟨0, 0, 0⟩ : Producer), .rest .gone, true⟩
            consumer := ⟨(⟨0, 0, 0, 0⟩ : Headless.Consumer), .rest .gone, true⟩ }

end Flavour

end pairs

end Que.Ownership
