import Que.Channel

/-! # The lossless producer

Transcription of `lossless/producer.rs`: the constructors, `push`, `sync`, the heartbeats, and
the reservation of several slots at once.

A `Reservation` borrows its producer mutably, so a producer has at most one open reservation and
no other call is possible while it is open; the two structures are therefore kept together in
`Handle`, the own structure of producer code.  Every line of the source that loads or stores a
header word, accesses a slot or updates a field of `self` is one action here, in source order. -/

namespace Que.Lossless

open Lib

/-- A reservation of space in the queue that can be written to. -/
structure Reservation where
  startTail : ℕ
  count : ℕ
  written : ℕ
  committed : Bool
deriving DecidableEq, Repr

/-- A producer together with the reservation that borrows it. -/
structure Handle where
  producer : Producer
  reservation : Reservation
deriving DecidableEq, Repr

section constructors
variable {L V : Type}

/-- `Producer::join_or_create_shmem`, from the mapped memory on. -/
def joinOrCreateShmem (N : ℕ) : Proc L V (Outcome Producer) := do
  let magic ← load .magic
  let capacity ← load .capacity
  if magic = MAGIC then
    if capacity ≠ N then
      return .err (.incorrectCapacity capacity)
    else
      let tail ← load .tail
      let lastConsumerHeartbeat ← load .consumerHeartbeat
      return .ok ⟨tail, 0, lastConsumerHeartbeat⟩
  else if magic = 0 then
    store .tail 0
    store .producerHeartbeat 0
    store .consumerHeartbeat 0
    store .capacity N
    store .magic MAGIC
    let lastConsumerHeartbeat ← load .consumerHeartbeat
    return .ok ⟨0, 0, lastConsumerHeartbeat⟩
  else
    return .err .corruptionDetected

/-- `Producer::join_or_initialize_in_`. -/
def joinOrInitializeIn (M : Mode) (N buffer : ℕ) : Proc L V (Outcome Producer) := do
  if validBuffer N buffer = false then
    return .panic
  else
    let magic ← load .magic
    let capacity ← load .capacity
    if magic = MAGIC then
      if capacity ≠ N then
        return .err (.incorrectCapacity capacity)
      else
        let _ ← fetchAdd .producerHeartbeat 1
        incrementStrongCount M
        let tail ← load .tail
        let lastConsumerHeartbeat ← load .consumerHeartbeat
        return .ok ⟨tail, 0, lastConsumerHeartbeat⟩
    else if magic = 0 then
      store .tail 0
      store .consumerHeartbeat 0
      store .producerHeartbeat 0
      store .capacity N
      store .magic MAGIC
      incrementStrongCount M
      let lastConsumerHeartbeat ← load .consumerHeartbeat
      return .ok ⟨0, 0, lastConsumerHeartbeat⟩
    else
      return .err .corruptionDetected

/-- `Producer::join_`. -/
def joinProducer (M : Mode) (N buffer : ℕ) : Proc L V (Outcome Producer) := do
  if validBuffer N buffer = false then
    return .panic
  else
    let magic ← load .magic
    let capacity ← load .capacity
    if magic = MAGIC then
      if capacity ≠ N then
        return .err (.incorrectCapacity capacity)
      else
        incrementStrongCount M
        let tail ← load .tail
        let lastConsumerHeartbeat ← load .consumerHeartbeat
        return .ok ⟨tail, 0, lastConsumerHeartbeat⟩
    else if magic = 0 then
      return .err .uninitialized
    else
      return .err .corruptionDetected

end constructors

namespace Handle

def setTail (h : Handle) (v : ℕ) : Handle := { h with producer := { h.producer with tail := v } }
def setWritten (h : Handle) (v : ℕ) : Handle :=
  { h with producer := { h.producer with written := v } }
def setLastConsumerHeartbeat (h : Handle) (v : ℕ) : Handle :=
  { h with producer := { h.producer with lastConsumerHeartbeat := v } }
def setReservation (h : Handle) (r : Reservation) : Handle := { h with reservation := r }

end Handle

section methods
variable {V : Type} (w N : ℕ)

/-- `Producer::push`. -/
def push (value : V) : Proc Handle V (Outcome Unit) := do
  let h ← self
  let head ← load .head
  let isFull := h.producer.tail = wadd w head N
  if isFull then
    return .err .full
  else
    let index := h.producer.tail &&& moduloMask N
    assign index value
    update fun h => h.setTail (wadd w h.producer.tail 1)
    update fun h => h.setWritten (wadd w h.producer.written 1)
    return .ok ()

/-- `Producer::beat`. -/
def beat : Proc Handle V Unit := do
  let _ ← fetchAdd .producerHeartbeat 1

/-- `Producer::sync`. -/
def sync : Proc Handle V Unit := do
  update fun h => h.setWritten 0
  let h ← self
  store .tail h.producer.tail

/-- `Producer::consumer_heartbeat`. -/
def consumerHeartbeat : Proc Handle V Bool := do
  let heartbeat ← load .consumerHeartbeat
  let h ← self
  if heartbeat ≠ h.producer.lastConsumerHeartbeat then
    update fun h => h.setLastConsumerHeartbeat heartbeat
    return true
  else
    return false

/-- `Producer::reserve`.  On success the reservation is the one now held by the handle. -/
def reserve (count : ℕ) : Proc Handle V (Outcome Unit) := do
  if count = 0 then
    return .err .invalidSize
  else if count > N then
    return .err .invalidSize
  else
    let head ← load .head
    let h ← self
    let availableSpace := wsub w N (wsub w h.producer.tail head)
    if count > availableSpace then
      return .err .full
    else
      update fun h => h.setReservation ⟨h.producer.tail, count, 0, false⟩
      return .ok ()

namespace Reservation

/-- `Reservation::remaining`. -/
def remaining (r : Reservation) : ℕ := wsub w r.count r.written

/-- `Reservation::write_next`. -/
def writeNext (value : V) : Proc Handle V (Outcome Unit) := do
  let h ← self
  let r := h.reservation
  if r.written ≥ r.count then
    return .panic
  else
    let index := wadd w r.startTail r.written &&& moduloMask N
    assign index value
    update fun h =>
      h.setReservation { h.reservation with written := wadd w h.reservation.written 1 }
    return .ok ()

/-- The copies of `Reservation::write_all`: one block, or two when the block runs over the end of
the ring. -/
def copyValues (startIndex : ℕ) (values : List V) : Proc Handle V Unit := do
  let endIndex := wadd w startIndex values.length
  if endIndex ≤ N then
    copyTo startIndex values
  else
    let firstPartLen := wsub w N startIndex
    copyTo startIndex (values.take firstPartLen)
    copyTo 0 (values.drop firstPartLen)

/-- `Reservation::write_all`. -/
def writeAll (values : List V) : Proc Handle V (Outcome Unit) := do
  let h ← self
  let r := h.reservation
  if values.length > r.remaining w then
    return .panic
  else if values.isEmpty then
    return .ok ()
  else
    let startIndex := wadd w r.startTail r.written &&& moduloMask N
    copyValues w N startIndex values
    update fun h =>
      h.setReservation { h.reservation with written := wadd w h.reservation.written values.length }
    return .ok ()

/-- The loop of `Reservation::write_iter` over an iterator at position `i` of the items `items`
(`none` ends it); the result is the position at which the iterator is left.  An item is drawn
before the space is checked.  `fuel` bounds the number of draws. -/
def writeIterLoop (items : ℕ → Option V) : ℕ → ℕ → Proc Handle V ℕ
  | 0, i => return i
  | fuel + 1, i =>
      match items i with
      | none => return i
      | some value => do
          let h ← self
          if h.reservation.written ≥ h.reservation.count then
            return i + 1
          else
            let _ ← writeNext w N value
            writeIterLoop items fuel (i + 1)

/-- `Reservation::write_iter`: the number of values written, and the position of the iterator
afterwards.  A reservation of `count` slots draws at most `count + 1` items. -/
def writeIter (items : ℕ → Option V) (i : ℕ) : Proc Handle V (ℕ × ℕ) := do
  let h ← self
  let startWritten := h.reservation.written
  let j ← writeIterLoop w N items (h.reservation.count + 1) i
  let h ← self
  return (wsub w h.reservation.written startWritten, j)

/-- `Reservation::commit`. -/
def commit : Proc Handle V Unit := do
  update fun h => h.setReservation { h.reservation with committed := true }
  update fun h => h.setTail (wadd w h.producer.tail h.reservation.written)
  update fun h => h.setWritten (wadd w h.producer.written h.reservation.written)
  let h ← self
  if h.producer.written ≥ burstAmount N then
    sync

/-- `Reservation::cancel` does nothing. -/
def cancel : Proc Handle V Unit := return ()

/-- The copies of a block that fits into the ring: no word wraps. -/
theorem copyValues_eq {C : Config} {i : ℕ} {vs : List V} (hi : i < C.N) (hlen : vs.length ≤ C.N) :
    copyValues C.w C.N i vs =
      if i + vs.length ≤ C.N then copyTo i vs
      else copyTo i (vs.take (C.N - i)) >>= fun _ => copyTo 0 (vs.drop (C.N - i)) := by
  have hdouble := two_mul_le_of_isPowerOfTwo C.pow C.fits
  have hend : wadd C.w i vs.length = i + vs.length := wadd_of_lt (by omega)
  have hfirst : wsub C.w C.N i = C.N - i := wsub_of_le hi.le C.fits
  unfold copyValues
  rw [hend, hfirst]

end Reservation

end methods

end Que.Lossless
