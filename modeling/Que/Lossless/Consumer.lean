import Que.Channel

/-! # The lossless consumer

Transcription of `lossless/consumer.rs`.  `pop` copies the element out of its slot;
`popZerocopy` hands out an `Element`, a mutable borrow of the slot, and the cursor moves when the
element is dropped (`Element.drop`).  The shared head is stored only every `burstAmount N`
elements (`maybeSync`). -/

namespace Que.Lossless

open Lib

/-- The consumer's structure.  (`consumer_index` is always zero here and never read.) -/
structure Consumer where
  head : ℕ
  itemsSinceLastSync : ℕ
  lastProducerHeartbeat : ℕ
deriving DecidableEq, Repr

/-- `Consumer::join`. -/
def joinConsumer {L V : Type} (M : Mode) (N buffer : ℕ) : Proc L V (Outcome Consumer) := do
  if validBuffer N buffer = false then
    return .panic
  else
    let magic ← load .magic
    let capacity ← load .capacity
    if magic = MAGIC then
      if capacity ≠ N then
        return .err (.incorrectCapacity capacity)
      else
        let newHead ← load .tail
        store .head newHead
        incrementStrongCount M
        let lastProducerHeartbeat ← load .producerHeartbeat
        return .ok ⟨newHead, 0, lastProducerHeartbeat⟩
    else if magic = 0 then
      return .err .uninitialized
    else
      return .err .corruptionDetected

section methods
variable {V : Type} (w N : ℕ)

/-- `Consumer::maybe_sync`. -/
def maybeSync : Proc Consumer V Unit := do
  let c ← self
  let doSync := c.itemsSinceLastSync ≥ burstAmount N
  if doSync then
    update fun c => { c with itemsSinceLastSync := 0 }
    let c ← self
    store .head c.head

/-- `Consumer::pop`. -/
def pop : Proc Consumer V (Option V) := do
  let c ← self
  let headIndex := c.head &&& moduloMask N
  let tail ← load .tail
  let previouslyReadOrUninitialized := tail ≤ c.head
  if previouslyReadOrUninitialized then
    return none
  else
    let value ← read headIndex
    update fun c => { c with head := wadd w c.head 1 }
    update fun c => { c with itemsSinceLastSync := wadd w c.itemsSinceLastSync 1 }
    maybeSync N
    return some value

/-- `Consumer::pop_zerocopy`: the slot that the returned `Element` borrows. -/
def popZerocopy : Proc Consumer V (Option ℕ) := do
  let c ← self
  let headIndex := c.head &&& moduloMask N
  let tail ← load .tail
  let previouslyReadOrUninitialized := tail ≤ c.head
  if previouslyReadOrUninitialized then
    return none
  else
    return some headIndex

/-- A write through the `Element` that borrows slot `i` (`DerefMut`). -/
def Element.write (i : ℕ) (value : V) : Proc Consumer V Unit := assign i value

/-- `Drop for Element`. -/
def Element.drop : Proc Consumer V Unit := do
  update fun c => { c with head := wadd w c.head 1 }
  update fun c => { c with itemsSinceLastSync := wadd w c.itemsSinceLastSync 1 }
  maybeSync N

/-- `Consumer::beat`. -/
def beatConsumer : Proc Consumer V Unit := do
  let _ ← fetchAdd .consumerHeartbeat 1

/-- `Consumer::producer_heartbeat`. -/
def producerHeartbeat : Proc Consumer V Bool := do
  let heartbeat ← load .producerHeartbeat
  let c ← self
  if heartbeat ≠ c.lastProducerHeartbeat then
    update fun c => { c with lastProducerHeartbeat := heartbeat }
    return true
  else
    return false

end methods

end Que.Lossless
