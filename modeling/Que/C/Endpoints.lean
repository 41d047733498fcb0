import Que.Lossless.Producer
import Que.Lossless.Consumer

/-! # The C endpoints

Transcription of `c/producer.c` and `c/consumer.c`, the lossless endpoints for programs that
share a channel with the Rust ones.  The structures have the fields of the Rust structures, so
`Handle` and `Consumer` are used for them; a reservation is again kept beside its producer.
Words are `uint64_t`.  A call returns an `int`, zero for success; the constructors and `reserve`
fill in a structure of the caller.  The macros `CHANNEL_N` and `CHANNEL_T` are the arguments `N`
and `V`. -/

namespace Que.C

open Lib Lossless

/-! ### `spsc.c` -/

/-- The marker of an initialised channel. -/
def MAGIC : ℕ := 5494763520971851092

def burstAmount (N : ℕ) : ℕ :=
  let x := N / 4
  if x = 0 then 1 else x

/-- The assertions that open the producer's constructors. -/
def validRegion (N region : ℕ) : Bool :=
  decide (0 < N) && decide (N &&& (N - 1) = 0) && decide (region % 128 = 0)

section producer
variable {V : Type} (N : ℕ)

/-! ### `producer.c` -/

/-- `join_or_initialize`. -/
def joinOrInitialize (region : ℕ) : Proc Handle V (Outcome ℕ) := do
  if validRegion N region = false then
    return .panic
  else
    let magic ← load .magic
    let capacity ← load .capacity
    if magic = MAGIC then
      if capacity ≠ N then
        return .ok 1
      else
        let _ ← fetchAdd .producerHeartbeat 1
        let tail ← load .tail
        update fun h => h.setTail tail
        update fun h => h.setWritten 0
        let lastConsumerHeartbeat ← load .consumerHeartbeat
        update fun h => h.setLastConsumerHeartbeat lastConsumerHeartbeat
        return .ok 0
    else if magic = 0 then
      store .tail 0
      store .head 0
      store .producerHeartbeat 0
      store .consumerHeartbeat 0
      store .capacity N
      store .magic MAGIC
      update fun h => h.setTail 0
      update fun h => h.setWritten 0
      let lastConsumerHeartbeat ← load .consumerHeartbeat
      update fun h => h.setLastConsumerHeartbeat lastConsumerHeartbeat
      return .ok 0
    else
      return .ok 1

/-- `join` of the producer. -/
def joinProducer (region : ℕ) : Proc Handle V (Outcome ℕ) := do
  if validRegion N region = false then
    return .panic
  else
    let magic ← load .magic
    let capacity ← load .capacity
    if magic = MAGIC then
      if capacity ≠ N then
        return .ok 1
      else
        let tail ← load .tail
        update fun h => h.setTail tail
        update fun h => h.setWritten 0
        let lastConsumerHeartbeat ← load .consumerHeartbeat
        update fun h => h.setLastConsumerHeartbeat lastConsumerHeartbeat
        return .ok 0
    else if magic = 0 then
      return .ok 1
    else
      return .ok 1

/-- `sync`. -/
def sync : Proc Handle V Unit := do
  update fun h => h.setWritten 0
  let h ← self
  store .tail h.producer.tail

/-- `push`. -/
def push (value : V) : Proc Handle V ℕ := do
  let head ← load .head
  let h ← self
  let isFull := h.producer.tail = wadd 64 head N
  if isFull then
    return 1
  else
    let index := h.producer.tail &&& (N - 1)
    copyTo index [value]
    update fun h => h.setTail (wadd 64 h.producer.tail 1)
    update fun h => h.setWritten (wadd 64 h.producer.written 1)
    return 0

/-- `beat` of the producer. -/
def beat : Proc Handle V Unit := do
  let _ ← fetchAdd .producerHeartbeat 1

/-- `consumer_heartbeat`. -/
def consumerHeartbeat : Proc Handle V ℕ := do
  let heartbeat ← load .consumerHeartbeat
  let h ← self
  if heartbeat ≠ h.producer.lastConsumerHeartbeat then
    update fun h => h.setLastConsumerHeartbeat heartbeat
    return 1
  else
    return 0

/-- `reserve`. -/
def reserve (count : ℕ) : Proc Handle V ℕ := do
  if count = 0 ∨ count > N then
    return 1
  else
    let head ← load .head
    let h ← self
    let availableSpace := wsub 64 N (wsub 64 h.producer.tail head)
    if count > availableSpace then
      return 1
    else
      update fun h => h.setReservation ⟨h.producer.tail, count, 0, false⟩
      return 0

/-- `reservation_get_next`: the slot that the returned pointer addresses. -/
def reservationGetNext : Proc Handle V ℕ := do
  let h ← self
  let r := h.reservation
  return wadd 64 r.startTail r.written &&& (N - 1)

/-- `reservation_write_next`. -/
def reservationWriteNext : Proc Handle V Unit :=
  update fun h => h.setReservation { h.reservation with written := wadd 64 h.reservation.written 1 }

/-- `reservation_write_all`, with `count` the number of `values`. -/
def reservationWriteAll (values : List V) : Proc Handle V Unit := do
  let count := values.length
  if count = 0 then
    return ()
  else
    let h ← self
    let r := h.reservation
    let startIndex := wadd 64 r.startTail r.written &&& (N - 1)
    let endIndex := wadd 64 startIndex count
    if endIndex ≤ N then
      copyTo startIndex values
    else
      let firstPartLen := wsub 64 N startIndex
      copyTo startIndex (values.take firstPartLen)
      copyTo 0 (values.drop firstPartLen)
    update fun h =>
      h.setReservation { h.reservation with written := wadd 64 h.reservation.written count }

/-- `reservation_commit`. -/
def reservationCommit : Proc Handle V Unit := do
  update fun h => h.setReservation { h.reservation with committed := true }
  update fun h => h.setTail (wadd 64 h.producer.tail h.reservation.written)
  update fun h => h.setWritten (wadd 64 h.producer.written h.reservation.written)
  sync

/-- `reservation_cancel`. -/
def reservationCancel : Proc Handle V Unit :=
  update fun h => h.setReservation { h.reservation with committed := true }

end producer

section consumer
variable {V : Type} (N : ℕ)

/-! ### `consumer.c` -/

/-- `join` of the consumer. -/
def joinConsumer (region : ℕ) : Proc Consumer V (Outcome ℕ) := do
  if region % 128 ≠ 0 then
    return .panic
  else
    let magic ← load .magic
    if magic = MAGIC then
      let capacity ← load .capacity
      if capacity ≠ N then
        return .ok 1
      else
        let newHead ← load .tail
        update fun c => { c with head := newHead }
        store .head newHead
        update fun c => { c with itemsSinceLastSync := 0 }
        let lastProducerHeartbeat ← load .producerHeartbeat
        update fun c => { c with lastProducerHeartbeat := lastProducerHeartbeat }
        return .ok 0
    else
      let magic ← load .magic
      if magic = 0 then
        return .ok 1
      else
        return .ok 1

/-- `maybe_sync`. -/
def maybeSync : Proc Consumer V Unit := do
  let c ← self
  let doSync := c.itemsSinceLastSync ≥ burstAmount N
  if doSync then
    update fun c => { c with itemsSinceLastSync := 0 }
    let c ← self
    store .head c.head

/-- `pop`: the value that is stored through the caller's pointer, if the call succeeds. -/
def pop : Proc Consumer V (Option V) := do
  let tail ← load .tail
  let c ← self
  let previouslyReadOrUninitialized := tail ≤ c.head
  if previouslyReadOrUninitialized then
    return none
  else
    let index := c.head &&& (N - 1)
    let value ← read index
    update fun c => { c with head := wadd 64 c.head 1 }
    update fun c => { c with itemsSinceLastSync := wadd 64 c.itemsSinceLastSync 1 }
    maybeSync N
    return some value

/-- `beat` of the consumer. -/
def beatConsumer : Proc Consumer V Unit := do
  let _ ← fetchAdd .consumerHeartbeat 1

/-- `producer_heartbeat`. -/
def producerHeartbeat : Proc Consumer V ℕ := do
  let heartbeat ← load .producerHeartbeat
  let c ← self
  if heartbeat ≠ c.lastProducerHeartbeat then
    update fun c => { c with lastProducerHeartbeat := heartbeat }
    return 1
  else
    return 0

end consumer

/-! ### Constants -/

theorem MAGIC_eq : MAGIC = Que.MAGIC := by decide +kernel

theorem burstAmount_eq (N : ℕ) : burstAmount N = Que.burstAmount N := rfl

/-- The C test for a power of two accepts every capacity that the Rust assertion accepts. -/
theorem validRegion_of_validBuffer {N buffer : ℕ} (h : validBuffer N buffer = true) :
    validRegion N buffer = true := by
  simp only [validBuffer, Bool.and_eq_true] at h
  have hmask : N &&& (N - 1) = 0 := by
    have := slot_eq_mod h.1.2 N
    rwa [Nat.mod_self] at this
  simp [validRegion, h.1.1, h.2, hmask]

end Que.C
