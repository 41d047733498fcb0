import Que.Lossless.Producer

/-! # The headless producer

Transcription of `headless_spmc/producer.rs`.  The producer never looks at the consumers: `push`
always succeeds and overwrites the oldest slot, and publishes on its own when a burst has been
written since the last sync.

An element consists of `K` words, and the cells of the channel are single words: the element of
slot `i` is in the cells `i * K`, …, `i * K + K - 1`, and is written word by word. -/

namespace Que.Headless

open Lib

section constructors
variable {L W : Type}

/-- `Producer::join_or_create_shmem`, from the mapped memory on. -/
def joinOrCreateShmem (N : ℕ) : Proc L W (Outcome Producer) := do
  let magic ← load .magic
  let capacity ← load .capacity
  if magic = MAGIC then
    if capacity ≠ N then
      return .err (.incorrectCapacity capacity)
    else
      let _ ← fetchAdd .producerHeartbeat 1
      let tail ← load .tail
      let lastConsumerHeartbeat ← load .consumerHeartbeat
      return .ok ⟨tail, 0, lastConsumerHeartbeat⟩
  else if magic = 0 then
    store .tail 0
    store .producerHeartbeat 0
    store .consumerHeartbeat 0
    store .capacity N
    store .magic MAGIC
    let lastConsumerHeartbeat ← load .consumerHeartbeat
    return .ok ⟨0, 0, lastConsumerHeartbeat⟩
  else
    return .err .corruptionDetected

/-- `Producer::join_`, the same text as in the lossless flavour. -/
def joinProducer (M : Mode) (N buffer : ℕ) : Proc L W (Outcome Producer) :=
  Lossless.joinProducer M N buffer

/-- `Producer::join_or_initialize_in_`. -/
def joinOrInitializeIn (M : Mode) (N buffer : ℕ) : Proc L W (Outcome Producer) := do
  if validBuffer N buffer = false then
    return .panic
  else
    let magic ← load .magic
    let capacity ← load .capacity
    if magic = MAGIC then
      if capacity ≠ N then
        return .err (.incorrectCapacity capacity)
      else
        let _ ← fetchAdd .producerHeartbeat 1
        incrementStrongCount M
        let tail ← load .tail
        let lastConsumerHeartbeat ← load .consumerHeartbeat
        return .ok ⟨tail, 0, lastConsumerHeartbeat⟩
    else if magic = 0 then
      store .magic 0
      store .tail 0
      store .producerHeartbeat 0
      store .consumerHeartbeat 0
      store .capacity N
      store .magic MAGIC
      incrementStrongCount M
      let lastConsumerHeartbeat ← load .consumerHeartbeat
      return .ok ⟨0, 0, lastConsumerHeartbeat⟩
    else
      return .err .corruptionDetected

end constructors

section methods
variable {W : Type} (w N : ℕ) {K : ℕ}

/-- `Producer::sync`. -/
def sync : Proc Producer W Unit := do
  update fun p => { p with written := 0 }
  let p ← self
  store .tail p.tail

/-- Write words to the cells from `i` on. -/
def assignWords (i : ℕ) : List W → Proc Producer W Unit
  | [] => pure ()
  | x :: xs => do
      assign i x
      assignWords (i + 1) xs

/-- `Producer::push`. -/
def push (value : Vector W K) : Proc Producer W Unit := do
  let p ← self
  if p.written = burstAmount N then
    sync
  let p ← self
  let index := p.tail &&& moduloMask N
  assignWords (index * K) value.toList
  update fun p => { p with tail := wadd w p.tail 1 }
  update fun p => { p with written := wadd w p.written 1 }

/-- `Producer::beat`. -/
def beat : Proc Producer W Unit := do
  let _ ← fetchAdd .producerHeartbeat 1

/-- `Producer::consumer_heartbeat`. -/
def consumerHeartbeat : Proc Producer W Bool := do
  let heartbeat ← load .consumerHeartbeat
  let p ← self
  if heartbeat ≠ p.lastConsumerHeartbeat then
    update fun p => { p with lastConsumerHeartbeat := heartbeat }
    return true
  else
    return false

end methods

end Que.Headless
