import Que.Channel

/-! # The headless consumer

Transcription of `headless_spmc/consumer.rs`.  A consumer with index `i` of `k` consumers reads
the positions congruent to `i` modulo `k`.  It does not publish its cursor; `pop` reads
optimistically and checks the tail before and after the read.

The loop of `pop` has no bound, so its body is a program of its own: `popIter` is one round,
which either asks for another round or returns. -/

namespace Que.Headless

open Lib

/-- The consumer's structure. -/
structure Consumer where
  head : ℕ
  interval : ℕ
  consumerIndex : ℕ
  lastProducerHeartbeat : ℕ
deriving DecidableEq, Repr

/-- `next_modulo`: the first number from `head` on that is `targetMod` modulo `modValue`. -/
def nextModulo (w head targetMod modValue : ℕ) : ℕ :=
  let headMod := head % modValue
  let addValue := wsub w (wadd w targetMod modValue) headMod % modValue
  wadd w head addValue

/-- `Consumer::join_multi_`. -/
def joinMulti {L W : Type} (w : ℕ) (M : Mode) (N buffer index consumers : ℕ) :
    Proc L W (Outcome Consumer) := do
  if validBuffer N buffer = false then
    return .panic
  else if ¬ consumers ≤ 64 then
    return .panic
  else if ¬ index < consumers then
    return .panic
  else
    let magic ← load .magic
    let capacity ← load .capacity
    if magic = MAGIC then
      if capacity ≠ N then
        return .err (.incorrectCapacity capacity)
      else
        let head ← load .tail
        incrementStrongCount M
        let lastProducerHeartbeat ← load .producerHeartbeat
        return .ok ⟨nextModulo w head index consumers, consumers, index, lastProducerHeartbeat⟩
    else if magic = 0 then
      return .err .uninitialized
    else
      return .err .corruptionDetected

/-- The outcome of one round of a loop. -/
inductive Round (α : Type) where
  | again
  | done (x : α)
deriving DecidableEq, Repr

section methods
variable {W : Type} (w N K : ℕ)

/-- `core::ptr::read`: the first `n` words from cell `i` on, word by word. -/
def readWords (i : ℕ) : (n : ℕ) → Proc Consumer W (Vector W n)
  | 0 => return #v[]
  | n + 1 => do
      let xs ← readWords i n
      let x ← read (i + n)
      return xs.push x

/-- How far the tail may be ahead of a cursor that can still be read. -/
def readable : ℕ := N - burstAmount N

/-- Move the cursor of an overrun consumer to the oldest readable position of its residue. -/
def resetTo (tail : ℕ) (c : Consumer) : Consumer :=
  { c with head := nextModulo w (wsub w tail (readable N)) c.consumerIndex c.interval }

/-- One round of `Consumer::pop`. -/
def popIter : Proc Consumer W (Round (Option (Vector W K))) := do
  let initialTail ← load .tail
  let c ← self
  let previouslyReadOrUninitialized := initialTail ≤ c.head
  if previouslyReadOrUninitialized then
    return .done none
  else
    let notOverrun := initialTail ≤ wadd w c.head (readable N)
    if ¬ notOverrun then
      update (resetTo w N initialTail)
      return .again
    else
      let headIndex := c.head &&& moduloMask N
      let value ← readWords (headIndex * K) K
      let currentTail ← load .tail
      let c ← self
      let stillNotOverrun := currentTail ≤ wadd w c.head (readable N)
      if ¬ stillNotOverrun then
        update (resetTo w N currentTail)
        return .again
      else
        update fun c => { c with head := wadd w c.head c.interval }
        return .done (some value)

/-- `Consumer::beat`. -/
def beatConsumer : Proc Consumer W Unit := do
  let _ ← fetchAdd .consumerHeartbeat 1

/-- `Consumer::producer_heartbeat`. -/
def producerHeartbeat : Proc Consumer W Bool := do
  let heartbeat ← load .producerHeartbeat
  let c ← self
  if heartbeat ≠ c.lastProducerHeartbeat then
    update fun c => { c with lastProducerHeartbeat := heartbeat }
    return true
  else
    return false

end methods

end Que.Headless
