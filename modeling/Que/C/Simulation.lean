import Que.C.Endpoints

/-! # A C endpoint can replace a Rust endpoint

A channel in shared memory whose producer and consumer are each written in Rust or in C, driven
by a sequence of calls.  `c_simulates_rust` says that the languages do not matter: every sequence
gives the same responses, the same memory and the same local counters.

* **Reservations.** The C functions do not check how a reservation is used, so a sequence has to
  use it as intended: `reserve`, writes of at most the reserved count, then one `commit` or
  `cancel` before any other call of the producer (`State.permits`).
* **Commit.** The C function publishes at once; its counterpart is the Rust `commit` followed by
  `sync`.
* **What is compared.** Everything except the flag `committed` of a reservation, which no function
  of either language reads (`State.forget`). -/

namespace Que.C

open Lib Lossless

variable {V : Type}

/-! ### Calls in two languages -/

inductive Language where
  | rust
  | c
deriving DecidableEq, Repr

inductive ProducerOp (V : Type) where
  | join
  | joinOrInitialize
  | push (value : V)
  | sync
  | beat
  | consumerHeartbeat
  | reserve (count : ℕ)
  | writeNext (value : V)
  | writeAll (values : List V)
  | commit
  | cancel

inductive ConsumerOp where
  | join
  | pop
  | beat
  | producerHeartbeat

/-- What a call returns: whether it succeeded (or what a heartbeat poll answers), or the value
popped. -/
inductive Response (V : Type) where
  | flag (b : Bool)
  | value (v : Option V)
deriving DecidableEq, Repr

/-- A channel in shared memory, with 64-bit words. -/
structure Shared extends Config where
  shmem : mode = .shmem
  wide : w = 64

/-- Keep the producer that a Rust constructor returned. -/
def keepProducer : Outcome Producer → Proc Handle V (Response V)
  | .ok p => do
      update fun h => { h with producer := p }
      return .flag true
  | _ => return .flag false

/-- Keep the consumer that the Rust constructor returned. -/
def keepConsumer : Outcome Consumer → Proc Consumer V (Response V)
  | .ok c => do
      update fun _ => c
      return .flag true
  | _ => return .flag false

def rustProducer (C : Shared) : ProducerOp V → Proc Handle V (Response V)
  | .join => do keepProducer (← Lossless.joinProducer C.mode C.N C.buffer)
  | .joinOrInitialize => do keepProducer (← Lossless.joinOrInitializeIn C.mode C.N C.buffer)
  | .push value => do
      let r ← Lossless.push C.w C.N value
      return .flag (r = .ok ())
  | .sync => do Lossless.sync; return .flag true
  | .beat => do Lossless.beat; return .flag true
  | .consumerHeartbeat => do return .flag (← Lossless.consumerHeartbeat)
  | .reserve count => do
      let r ← Lossless.reserve C.w C.N count
      return .flag (r = .ok ())
  | .writeNext value => do
      let r ← Reservation.writeNext C.w C.N value
      return .flag (r = .ok ())
  | .writeAll values => do
      let r ← Reservation.writeAll C.w C.N values
      return .flag (r = .ok ())
  | .commit => do
      Reservation.commit C.w C.N
      Lossless.sync
      return .flag true
  | .cancel => do Reservation.cancel; return .flag true

def cProducer (C : Shared) : ProducerOp V → Proc Handle V (Response V)
  | .join => do
      let r ← joinProducer C.N C.buffer
      return .flag (r = .ok 0)
  | .joinOrInitialize => do
      let r ← joinOrInitialize C.N C.buffer
      return .flag (r = .ok 0)
  | .push value => do
      let r ← push C.N value
      return .flag (r = 0)
  | .sync => do sync; return .flag true
  | .beat => do beat; return .flag true
  | .consumerHeartbeat => do
      let r ← consumerHeartbeat
      return .flag (r = 1)
  | .reserve count => do
      let r ← reserve C.N count
      return .flag (r = 0)
  | .writeNext value => do
      let i ← reservationGetNext C.N
      copyTo i [value]
      reservationWriteNext
      return .flag true
  | .writeAll values => do reservationWriteAll C.N values; return .flag true
  | .commit => do reservationCommit; return .flag true
  | .cancel => do reservationCancel; return .flag true

def rustConsumer (C : Shared) : ConsumerOp → Proc Consumer V (Response V)
  | .join => do keepConsumer (← Lossless.joinConsumer C.mode C.N C.buffer)
  | .pop => do return .value (← Lossless.pop C.w C.N)
  | .beat => do Lossless.beatConsumer; return .flag true
  | .producerHeartbeat => do return .flag (← Lossless.producerHeartbeat)

def cConsumer (C : Shared) : ConsumerOp → Proc Consumer V (Response V)
  | .join => do
      let r ← joinConsumer C.N C.buffer
      return .flag (r = .ok 0)
  | .pop => do return .value (← pop C.N)
  | .beat => do beatConsumer; return .flag true
  | .producerHeartbeat => do
      let r ← producerHeartbeat
      return .flag (r = 1)

def Language.producer (C : Shared) : Language → ProducerOp V → Proc Handle V (Response V)
  | rust => rustProducer C
  | c => cProducer C

def Language.consumer (C : Shared) : Language → ConsumerOp → Proc Consumer V (Response V)
  | rust => rustConsumer C
  | c => cConsumer C

/-! ### Sequences of calls -/

inductive Op (V : Type) where
  | producer (op : ProducerOp V)
  | consumer (op : ConsumerOp)

/-- The memory and the two endpoints.  `space` is the number of writes left in the open
reservation, if there is one. -/
structure State (V : Type) where
  ch : Channel V
  handle : Handle
  producerJoined : Bool
  space : Option ℕ
  cursor : Consumer
  consumerJoined : Bool

/-- The handle without the flag that nobody reads. -/
def forgetCommitted (h : Handle) : Handle :=
  h.setReservation { h.reservation with committed := false }

namespace State

def forget (s : State V) : State V := { s with handle := forgetCommitted s.handle }

/-- The calls that may come next. -/
def permits (s : State V) : Op V → Bool
  | .producer .join | .producer .joinOrInitialize => s.space.isNone
  | .producer (.writeNext _) => s.space.any (1 ≤ ·)
  | .producer (.writeAll values) => s.space.any (values.length ≤ ·)
  | .producer .commit | .producer .cancel => s.space.isSome
  | .producer _ => s.producerJoined && s.space.isNone
  | .consumer .join => true
  | .consumer _ => s.consumerJoined

end State

/-- The writes left after a call of the producer. -/
def spaceAfter (space : Option ℕ) : ProducerOp V → Response V → Option ℕ
  | .reserve count, .flag true => some count
  | .writeNext _, _ => space.map (· - 1)
  | .writeAll values, _ => space.map (· - values.length)
  | .commit, _ => none
  | .cancel, _ => none
  | _, _ => space

/-- Whether the endpoint is joined after a call: a constructor has to succeed. -/
def joinedAfter (joined isJoin : Bool) : Response V → Bool
  | .flag true => joined || isJoin
  | _ => joined

def ProducerOp.isJoin : ProducerOp V → Bool
  | join | joinOrInitialize => true
  | _ => false

def ConsumerOp.isJoin : ConsumerOp → Bool
  | join => true
  | _ => false

namespace State

/-- The state after a call of the producer with the outcome `r`. -/
def afterProducer (s : State V) (op : ProducerOp V) (r : Response V × (Channel V × Handle)) :
    State V :=
  { s with
    ch := r.2.1
    handle := r.2.2
    producerJoined := joinedAfter s.producerJoined op.isJoin r.1
    space := spaceAfter s.space op r.1 }

def afterConsumer (s : State V) (op : ConsumerOp) (r : Response V × (Channel V × Consumer)) :
    State V :=
  { s with
    ch := r.2.1
    cursor := r.2.2
    consumerJoined := joinedAfter s.consumerJoined op.isJoin r.1 }

/-- The next call, with the producer and the consumer in the given languages. -/
def call (C : Shared) (l : Language × Language) (s : State V) (op : Op V) :
    Option (Response V × State V) :=
  if s.permits op then
    match op with
    | .producer op =>
        let r := (l.1.producer C op).run 64 s.ch s.handle
        some (r.1, s.afterProducer op r)
    | .consumer op =>
        let r := (l.2.consumer C op).run 64 s.ch s.cursor
        some (r.1, s.afterConsumer op r)
  else
    none

/-- A sequence of calls; `none` if one of them may not be made. -/
def run (C : Shared) (l : Language × Language) (s : State V) :
    List (Op V) → Option (List (Response V) × State V)
  | [] => some ([], s)
  | op :: ops =>
      (s.call C l op).bind fun r => (r.2.run C l ops).map fun rs => (r.1 :: rs.1, rs.2)

end State

/-- What the sequences start from and keep: where the magic is still zero, the head is zero and
no consumer has joined; an open reservation has room for the writes that are left. -/
structure Consistent (C : Shared) (s : State V) : Prop where
  zeroed : s.ch.magic = 0 → s.ch.head = 0 ∧ s.consumerJoined = false
  space : ∀ k, s.space = some k →
    s.handle.reservation.written + k = s.handle.reservation.count ∧
      s.handle.reservation.count ≤ C.N

/-! ### What a call does

The meaning of each call, without a language: the response, the memory and the own structure
after it. -/

/-- The block copy, run alone. -/
def copied (ch : Channel V) (i : ℕ) : List V → Channel V
  | [] => ch
  | v :: vs => copied (ch.write i v) (i + 1) vs

theorem run_copyTo {L : Type} (w i : ℕ) (vs : List V) (ch : Channel V) (l : L) :
    (copyTo i vs : Proc L V Unit).run w ch l = ((), copied ch i vs, l) := by
  induction vs generalizing i ch with
  | nil => rfl
  | cons v vs ih =>
      simp only [copyTo, Prog.perform_bind, Proc.run_act, Act.step, copied]
      exact ih (i + 1) (ch.write i v)

/-- The copy of a block from slot `i` on, around the end of the ring. -/
def copiedAround (N : ℕ) (ch : Channel V) (i : ℕ) (vs : List V) : Channel V :=
  if wadd 64 i vs.length ≤ N then
    copied ch i vs
  else
    copied (copied ch i (vs.take (wsub 64 N i))) 0 (vs.drop (wsub 64 N i))

/-- The slot of the next write of the reservation. -/
def nextSlot (N : ℕ) (h : Handle) : ℕ :=
  wadd 64 h.reservation.startTail h.reservation.written &&& moduloMask N

/-- The handle after `n` writes of the reservation. -/
def wroteMore (h : Handle) (n : ℕ) : Handle :=
  h.setReservation { h.reservation with written := wadd 64 h.reservation.written n }

/-- What a call of the producer does. -/
def ProducerOp.effect (N : ℕ) (ch : Channel V) (h : Handle) :
    ProducerOp V → Response V × (Channel V × Handle)
  | join =>
      if ch.magic = Que.MAGIC ∧ ch.capacity = N then
        (.flag true, ch, { h with producer := ⟨ch.tail, 0, ch.consumerHeartbeat⟩ })
      else
        (.flag false, ch, h)
  | joinOrInitialize =>
      if ch.magic = Que.MAGIC ∧ ch.capacity = N then
        (.flag true, ch.set .producerHeartbeat (wadd 64 ch.producerHeartbeat 1),
          { h with producer := ⟨ch.tail, 0, ch.consumerHeartbeat⟩ })
      else if ch.magic = 0 then
        (.flag true, ⟨0, 0, 0, 0, N, Que.MAGIC, ch.strong, ch.buffer⟩,
          { h with producer := ⟨0, 0, 0⟩ })
      else
        (.flag false, ch, h)
  | push value =>
      if h.producer.tail = wadd 64 ch.head N then
        (.flag false, ch, h)
      else
        (.flag true, ch.write (h.producer.tail &&& moduloMask N) value,
          (h.setTail (wadd 64 h.producer.tail 1)).setWritten (wadd 64 h.producer.written 1))
  | sync => (.flag true, ch.set .tail h.producer.tail, h.setWritten 0)
  | beat => (.flag true, ch.set .producerHeartbeat (wadd 64 ch.producerHeartbeat 1), h)
  | consumerHeartbeat =>
      (.flag (ch.consumerHeartbeat ≠ h.producer.lastConsumerHeartbeat), ch,
        h.setLastConsumerHeartbeat ch.consumerHeartbeat)
  | reserve count =>
      if count = 0 ∨ count > N ∨ count > wsub 64 N (wsub 64 h.producer.tail ch.head) then
        (.flag false, ch, h)
      else
        (.flag true, ch, h.setReservation ⟨h.producer.tail, count, 0, false⟩)
  | writeNext value => (.flag true, ch.write (nextSlot N h) value, wroteMore h 1)
  | writeAll values =>
      if values.isEmpty then
        (.flag true, ch, h)
      else
        (.flag true, copiedAround N ch (nextSlot N h) values, wroteMore h values.length)
  | commit =>
      (.flag true, ch.set .tail (wadd 64 h.producer.tail h.reservation.written),
        (h.setTail (wadd 64 h.producer.tail h.reservation.written)).setWritten 0)
  | cancel => (.flag true, ch, h)

/-- What a call of the consumer does. -/
def ConsumerOp.effect (N : ℕ) (ch : Channel V) (c : Consumer) :
    ConsumerOp → Response V × (Channel V × Consumer)
  | join =>
      if ch.magic = Que.MAGIC ∧ ch.capacity = N then
        (.flag true, ch.set .head ch.tail, ⟨ch.tail, 0, ch.producerHeartbeat⟩)
      else
        (.flag false, ch, c)
  | pop =>
      if ch.tail ≤ c.head then
        (.value none, ch, c)
      else
        let value := ch.buffer (c.head &&& moduloMask N)
        let head := wadd 64 c.head 1
        let items := wadd 64 c.itemsSinceLastSync 1
        if items ≥ Que.burstAmount N then
          (.value (some value), ch.set .head head, ⟨head, 0, c.lastProducerHeartbeat⟩)
        else
          (.value (some value), ch, ⟨head, items, c.lastProducerHeartbeat⟩)
  | beat => (.flag true, ch.set .consumerHeartbeat (wadd 64 ch.consumerHeartbeat 1), c)
  | producerHeartbeat =>
      (.flag (ch.producerHeartbeat ≠ c.lastProducerHeartbeat), ch,
        { c with lastProducerHeartbeat := ch.producerHeartbeat })

/-! ### Both languages do it -/

/-- What is compared of a run of the producer. -/
def observed (r : Response V × (Channel V × Handle)) : Response V × (Channel V × Handle) :=
  (r.1, (r.2.1, forgetCommitted r.2.2))

/-- The writes fit into the reservation. -/
def Fits (N : ℕ) (h : Handle) : ProducerOp V → Prop
  | .writeNext _ => h.reservation.written < h.reservation.count
  | .writeAll values =>
      h.reservation.written + values.length ≤ h.reservation.count ∧ h.reservation.count ≤ N
  | _ => True

section calls
variable (C : Shared) {ch : Channel V}

theorem lt_two_pow_64 : C.N < 2 ^ 64 := by
  have h := C.fits
  rwa [C.wide] at h

theorem run_copyValues (N i : ℕ) (vs : List V) (h : Handle) :
    (Reservation.copyValues 64 N i vs).run 64 ch h = ((), copiedAround N ch i vs, h) := by
  by_cases hfit : wadd 64 i vs.length ≤ N <;>
    simp [Reservation.copyValues, copiedAround, run_copyTo, hfit]

theorem run_rustProducer (op : ProducerOp V) {h : Handle} (hz : ch.magic = 0 → ch.head = 0)
    (hf : Fits C.N h op) :
    observed ((rustProducer C op).run 64 ch h) = observed (op.effect C.N ch h) := by
  cases op with
  | join =>
      by_cases hm : ch.magic = Que.MAGIC
      · by_cases hc : ch.capacity = C.N <;>
          simp [observed, rustProducer, Lossless.joinProducer, keepProducer, incrementStrongCount,
            Mode.backedByArcc, ProducerOp.effect, Channel.get, C.shmem, C.valid, hm, hc]
      · by_cases h0 : ch.magic = 0 <;>
          simp [observed, rustProducer, Lossless.joinProducer, keepProducer, ProducerOp.effect,
            Channel.get, C.valid, hm, h0, MAGIC_ne_zero.symm]
  | joinOrInitialize =>
      by_cases hm : ch.magic = Que.MAGIC
      · by_cases hc : ch.capacity = C.N <;>
          simp [observed, rustProducer, Lossless.joinOrInitializeIn, keepProducer,
            incrementStrongCount, Mode.backedByArcc, ProducerOp.effect, Channel.get, Channel.set,
            C.shmem, C.valid, hm, hc, MAGIC_ne_zero]
      · by_cases h0 : ch.magic = 0
        · simp [observed, rustProducer, Lossless.joinOrInitializeIn, keepProducer,
            incrementStrongCount, Mode.backedByArcc, ProducerOp.effect, Channel.get, Channel.set,
            C.shmem, C.valid, h0, MAGIC_ne_zero.symm, hz h0]
        · simp [observed, rustProducer, Lossless.joinOrInitializeIn, keepProducer,
            ProducerOp.effect, Channel.get, C.valid, hm, h0]
  | push value =>
      by_cases hfull : h.producer.tail = wadd 64 ch.head C.N <;>
        simp [observed, rustProducer, Lossless.push, ProducerOp.effect, Channel.get,
          Handle.setTail, C.wide, hfull]
  | sync => rfl
  | beat => rfl
  | consumerHeartbeat =>
      by_cases hb : ch.consumerHeartbeat = h.producer.lastConsumerHeartbeat <;>
        simp [observed, rustProducer, Lossless.consumerHeartbeat, ProducerOp.effect, Channel.get,
          Handle.setLastConsumerHeartbeat, hb]
  | reserve count =>
      by_cases h0 : count = 0
      · simp [observed, rustProducer, Lossless.reserve, ProducerOp.effect, h0]
      · by_cases hN : count > C.N
        · simp [observed, rustProducer, Lossless.reserve, ProducerOp.effect, h0, hN]
        · by_cases hs : count > wsub 64 C.N (wsub 64 h.producer.tail ch.head) <;>
            simp [observed, rustProducer, Lossless.reserve, ProducerOp.effect, Channel.get, C.wide,
              h0, hN, hs]
  | writeNext value =>
      have hw : ¬ h.reservation.count ≤ h.reservation.written := Nat.not_le.mpr hf
      simp [observed, rustProducer, Reservation.writeNext, ProducerOp.effect, nextSlot, wroteMore,
        C.wide, hw]
  | writeAll values =>
      have hr : ¬ h.reservation.remaining 64 < values.length := by
        have := lt_two_pow_64 C
        unfold Reservation.remaining
        rw [wsub_of_le (by have := hf.1; omega) (hf.2.trans_lt this)]
        have := hf.1
        omega
      by_cases he : values.isEmpty = true
      · simp [observed, rustProducer, Reservation.writeAll, ProducerOp.effect, C.wide, hr, he]
      · simp [observed, rustProducer, Reservation.writeAll, ProducerOp.effect, nextSlot, wroteMore,
          run_copyValues, C.wide, hr, he]
  | commit =>
      by_cases hb : wadd 64 h.producer.written h.reservation.written ≥ Que.burstAmount C.N <;>
        simp [observed, rustProducer, Reservation.commit, Lossless.sync, ProducerOp.effect,
          forgetCommitted, Handle.setReservation, Handle.setTail, Handle.setWritten, Channel.set,
          C.wide, hb]
  | cancel => rfl

theorem run_cProducer (op : ProducerOp V) {h : Handle} :
    observed ((cProducer C op).run 64 ch h) = observed (op.effect C.N ch h) := by
  have hv := validRegion_of_validBuffer C.valid
  cases op with
  | join =>
      by_cases hm : ch.magic = Que.MAGIC
      · by_cases hc : ch.capacity = C.N <;>
          simp [observed, cProducer, joinProducer, ProducerOp.effect, Channel.get, Handle.setTail,
            Handle.setWritten, Handle.setLastConsumerHeartbeat, MAGIC_eq, hv, hm, hc]
      · by_cases h0 : ch.magic = 0 <;>
          simp [observed, cProducer, joinProducer, ProducerOp.effect, Channel.get, MAGIC_eq, hv,
            hm, h0, MAGIC_ne_zero.symm]
  | joinOrInitialize =>
      by_cases hm : ch.magic = Que.MAGIC
      · by_cases hc : ch.capacity = C.N <;>
          simp [observed, cProducer, joinOrInitialize, ProducerOp.effect, Channel.get, Channel.set,
            Handle.setTail, Handle.setWritten, Handle.setLastConsumerHeartbeat, MAGIC_eq, hv, hm,
            hc, MAGIC_ne_zero]
      · by_cases h0 : ch.magic = 0 <;>
          simp [observed, cProducer, joinOrInitialize, ProducerOp.effect, Channel.get, Channel.set,
            Handle.setTail, Handle.setWritten, Handle.setLastConsumerHeartbeat, MAGIC_eq, hv, hm,
            h0, MAGIC_ne_zero.symm]
  | push value =>
      by_cases hfull : h.producer.tail = wadd 64 ch.head C.N <;>
        simp [observed, cProducer, push, ProducerOp.effect, Channel.get, Handle.setTail, moduloMask,
          run_copyTo, copied, hfull]
  | sync => rfl
  | beat => rfl
  | consumerHeartbeat =>
      by_cases hb : ch.consumerHeartbeat = h.producer.lastConsumerHeartbeat <;>
        simp [observed, cProducer, consumerHeartbeat, ProducerOp.effect, Channel.get,
          Handle.setLastConsumerHeartbeat, hb]
  | reserve count =>
      by_cases h0 : count = 0 ∨ count > C.N
      · rcases h0 with h0 | h0 <;> simp [observed, cProducer, reserve, ProducerOp.effect, h0]
      · by_cases hs : count > wsub 64 C.N (wsub 64 h.producer.tail ch.head) <;>
          simp [observed, cProducer, reserve, ProducerOp.effect, Channel.get, h0, hs]
  | writeNext value => rfl
  | writeAll values =>
      by_cases he : values = []
      · simp [observed, cProducer, reservationWriteAll, ProducerOp.effect, he]
      · by_cases hfit : wadd 64 (wadd 64 h.reservation.startTail h.reservation.written &&&
            (C.N - 1)) values.length ≤ C.N <;>
          simp [observed, cProducer, reservationWriteAll, ProducerOp.effect, copiedAround, nextSlot,
            moduloMask, wroteMore, run_copyTo, he, hfit]
  | commit => rfl
  | cancel => rfl

theorem run_rustConsumer (op : ConsumerOp) (c : Consumer) :
    (rustConsumer C op).run 64 ch c = op.effect C.N ch c := by
  cases op with
  | join =>
      by_cases hm : ch.magic = Que.MAGIC
      · by_cases hc : ch.capacity = C.N <;>
          simp [rustConsumer, Lossless.joinConsumer, keepConsumer, incrementStrongCount,
            Mode.backedByArcc, ConsumerOp.effect, Channel.get, Channel.set, C.shmem, C.valid, hm,
            hc]
      · by_cases h0 : ch.magic = 0 <;>
          simp [rustConsumer, Lossless.joinConsumer, keepConsumer, ConsumerOp.effect,
            Channel.get, C.valid, hm, h0, MAGIC_ne_zero.symm]
  | pop =>
      by_cases hr : ch.tail ≤ c.head
      · simp [rustConsumer, Lossless.pop, ConsumerOp.effect, Channel.get, hr]
      · by_cases hb : wadd 64 c.itemsSinceLastSync 1 ≥ Que.burstAmount C.N <;>
          simp [rustConsumer, Lossless.pop, Lossless.maybeSync, ConsumerOp.effect, Channel.get,
            Channel.set, C.wide, hr, hb]
  | beat => rfl
  | producerHeartbeat =>
      by_cases hb : ch.producerHeartbeat = c.lastProducerHeartbeat <;>
        simp [rustConsumer, Lossless.producerHeartbeat, ConsumerOp.effect, Channel.get, hb]

theorem run_cConsumer (op : ConsumerOp) (c : Consumer) :
    (cConsumer C op).run 64 ch c = op.effect C.N ch c := by
  have ha : C.buffer % 128 = 0 := by
    have h := C.valid
    simp only [validBuffer, Bool.and_eq_true, decide_eq_true_eq] at h
    exact h.2
  cases op with
  | join =>
      by_cases hm : ch.magic = Que.MAGIC
      · by_cases hc : ch.capacity = C.N <;>
          simp [cConsumer, joinConsumer, ConsumerOp.effect, Channel.get, Channel.set, MAGIC_eq, ha,
            hm, hc]
      · by_cases h0 : ch.magic = 0 <;>
          simp [cConsumer, joinConsumer, ConsumerOp.effect, Channel.get, MAGIC_eq, ha, hm, h0,
            MAGIC_ne_zero.symm]
  | pop =>
      by_cases hr : ch.tail ≤ c.head
      · simp [cConsumer, pop, ConsumerOp.effect, Channel.get, hr]
      · by_cases hb : wadd 64 c.itemsSinceLastSync 1 ≥ Que.burstAmount C.N <;>
          simp [cConsumer, pop, maybeSync, ConsumerOp.effect, Channel.get, Channel.set, moduloMask,
            burstAmount_eq, hr, hb]
  | beat => rfl
  | producerHeartbeat =>
      by_cases hb : ch.producerHeartbeat = c.lastProducerHeartbeat <;>
        simp [cConsumer, producerHeartbeat, ConsumerOp.effect, Channel.get, hb]

end calls

/-! ### Sequences without a language -/

namespace State

/-- The next call, by its meaning. -/
def perform (C : Shared) (s : State V) (op : Op V) : Option (Response V × State V) :=
  if s.permits op then
    match op with
    | .producer op =>
        let r := op.effect C.N s.ch s.handle
        some (r.1, s.afterProducer op r)
    | .consumer op =>
        let r := op.effect C.N s.ch s.cursor
        some (r.1, s.afterConsumer op r)
  else
    none

def performAll (C : Shared) (s : State V) : List (Op V) → Option (List (Response V) × State V)
  | [] => some ([], s)
  | op :: ops =>
      (s.perform C op).bind fun r => (r.2.performAll C ops).map fun rs => (r.1 :: rs.1, rs.2)

end State

section runs
variable {C : Shared} {s : State V}

theorem copied_header (ch : Channel V) (i : ℕ) (vs : List V) :
    (copied ch i vs).magic = ch.magic ∧ (copied ch i vs).head = ch.head := by
  induction vs generalizing ch i with
  | nil => exact ⟨rfl, rfl⟩
  | cons v vs ih => exact ih (ch.write i v) (i + 1)

/-- No call of the producer zeroes the magic, and none touches the head while it is zero. -/
theorem ProducerOp.effect_zeroed (N : ℕ) (ch : Channel V) (h : Handle) (op : ProducerOp V)
    (h0 : (op.effect N ch h).2.1.magic = 0) :
    ch.magic = 0 ∧ (op.effect N ch h).2.1.head = ch.head := by
  cases op with
  | join =>
      simp only [effect] at h0 ⊢
      split_ifs at h0 ⊢ <;> exact ⟨h0, rfl⟩
  | joinOrInitialize =>
      simp only [effect] at h0 ⊢
      split_ifs at h0 ⊢
      · exact ⟨h0, rfl⟩
      · exact absurd h0 MAGIC_ne_zero
      · exact ⟨h0, rfl⟩
  | push value =>
      simp only [effect] at h0 ⊢
      split_ifs at h0 ⊢ <;> exact ⟨h0, rfl⟩
  | reserve count =>
      simp only [effect] at h0 ⊢
      split_ifs at h0 ⊢ <;> exact ⟨h0, rfl⟩
  | writeAll values =>
      simp only [effect, copiedAround] at h0 ⊢
      split_ifs at h0 ⊢ <;> simp_all [copied_header]
  | _ => exact ⟨h0, rfl⟩

theorem Consistent.fits (hs : Consistent C s) {op : ProducerOp V}
    (hp : s.permits (.producer op) = true) : Fits C.N s.handle op := by
  cases op with
  | writeNext value =>
      obtain ⟨k, hk, hle⟩ := (Option.any_eq_true _ _).mp hp
      have hle : 1 ≤ k := of_decide_eq_true hle
      have h1 := (hs.space k hk).1
      change s.handle.reservation.written < s.handle.reservation.count
      omega
  | writeAll values =>
      obtain ⟨k, hk, hle⟩ := (Option.any_eq_true _ _).mp hp
      have hle : values.length ≤ k := of_decide_eq_true hle
      obtain ⟨h1, h2⟩ := hs.space k hk
      exact ⟨by omega, h2⟩
  | _ => trivial

/-- The counters of an open reservation after a call of the producer. -/
theorem Consistent.space_perform (hs : Consistent C s) {op : ProducerOp V}
    (hp : s.permits (.producer op) = true) {k : ℕ}
    (hk : spaceAfter s.space op (op.effect C.N s.ch s.handle).1 = some k) :
    (op.effect C.N s.ch s.handle).2.2.reservation.written + k =
        (op.effect C.N s.ch s.handle).2.2.reservation.count ∧
      (op.effect C.N s.ch s.handle).2.2.reservation.count ≤ C.N := by
  have hN := lt_two_pow_64 C
  have hf := hs.fits hp
  cases op with
  | join =>
      simp only [ProducerOp.effect] at hk ⊢
      split_ifs at hk ⊢ <;> exact hs.space k hk
  | joinOrInitialize =>
      simp only [ProducerOp.effect] at hk ⊢
      split_ifs at hk ⊢ <;> exact hs.space k hk
  | push value =>
      simp only [ProducerOp.effect] at hk ⊢
      split_ifs at hk ⊢ <;> exact hs.space k hk
  | reserve count =>
      simp only [ProducerOp.effect] at hk ⊢
      split_ifs at hk ⊢ with hc
      · exact hs.space k hk
      · cases hk
        simp only [not_or, not_lt] at hc
        exact ⟨Nat.zero_add _, hc.2.1⟩
  | writeNext value =>
      obtain ⟨n, hn, rfl⟩ := Option.map_eq_some_iff.mp hk
      obtain ⟨h1, h2⟩ := hs.space n hn
      have h3 : s.handle.reservation.written < s.handle.reservation.count := hf
      have hw : wadd 64 s.handle.reservation.written 1 = s.handle.reservation.written + 1 :=
        wadd_of_lt (by omega)
      refine ⟨?_, h2⟩
      change wadd 64 s.handle.reservation.written 1 + (n - 1) = s.handle.reservation.count
      omega
  | writeAll values =>
      obtain ⟨n, hn, rfl⟩ := Option.map_eq_some_iff.mp hk
      obtain ⟨h1, h2⟩ := hs.space n hn
      have h3 := hf.1
      have hw : wadd 64 s.handle.reservation.written values.length =
          s.handle.reservation.written + values.length := wadd_of_lt (by omega)
      simp only [ProducerOp.effect]
      split_ifs with he
      · have hl : values.length = 0 := by simpa using he
        refine ⟨?_, h2⟩
        change s.handle.reservation.written + (n - values.length) = s.handle.reservation.count
        omega
      · refine ⟨?_, h2⟩
        change wadd 64 s.handle.reservation.written values.length + (n - values.length) =
          s.handle.reservation.count
        omega
  | commit => cases hk
  | cancel => cases hk
  | _ => exact hs.space k hk

theorem Consistent.perform (hs : Consistent C s) {op : Op V} {r : Response V × State V}
    (hr : s.perform C op = some r) : Consistent C r.2 := by
  by_cases hp : s.permits op = true
  swap
  · simp [State.perform, hp] at hr
  cases op with
  | producer op =>
      simp only [State.perform, hp, if_true, Option.some.injEq] at hr
      subst hr
      refine ⟨fun h0 => ?_, fun k hk => hs.space_perform hp hk⟩
      obtain ⟨hm, hh⟩ := op.effect_zeroed C.N s.ch s.handle h0
      exact ⟨hh.trans (hs.zeroed hm).1, (hs.zeroed hm).2⟩
  | consumer op =>
      simp only [State.perform, hp, if_true, Option.some.injEq] at hr
      subst hr
      refine ⟨fun h0 => ?_, hs.space⟩
      cases op with
      | join =>
          simp only [State.afterConsumer, ConsumerOp.effect] at h0 ⊢
          split_ifs at h0 ⊢ with hj
          · exact absurd (hj.1.symm.trans h0) MAGIC_ne_zero
          · exact hs.zeroed h0
      | pop =>
          have hm : s.ch.magic = 0 := by
            simp only [State.afterConsumer, ConsumerOp.effect] at h0
            split_ifs at h0 <;> exact h0
          exact absurd ((hs.zeroed hm).2.symm.trans hp) Bool.false_ne_true
      | beat => exact absurd ((hs.zeroed h0).2.symm.trans hp) Bool.false_ne_true
      | producerHeartbeat => exact absurd ((hs.zeroed h0).2.symm.trans hp) Bool.false_ne_true

theorem Consistent.forget (hs : Consistent C s) : Consistent C s.forget := ⟨hs.zeroed, hs.space⟩

theorem Consistent.of_forget (hs : Consistent C s.forget) : Consistent C s :=
  ⟨hs.zeroed, hs.space⟩

theorem ProducerOp.effect_forget (N : ℕ) (ch : Channel V) (h : Handle) (op : ProducerOp V) :
    observed (op.effect N ch h) = op.effect N ch (forgetCommitted h) := by
  cases op with
  | join => simp only [effect]; split_ifs <;> rfl
  | joinOrInitialize => simp only [effect]; split_ifs <;> rfl
  | push value =>
      change observed (if h.producer.tail = wadd 64 ch.head N then _ else _) =
        if h.producer.tail = wadd 64 ch.head N then _ else _
      split_ifs <;> rfl
  | reserve count =>
      change observed (if count = 0 ∨ count > N ∨
          count > wsub 64 N (wsub 64 h.producer.tail ch.head) then _ else _) =
        if count = 0 ∨ count > N ∨
          count > wsub 64 N (wsub 64 h.producer.tail ch.head) then _ else _
      split_ifs <;> rfl
  | writeAll values => simp only [effect]; split_ifs <;> rfl
  | _ => rfl

/-- A call in any language is the call by its meaning. -/
theorem Consistent.call_forget (hs : Consistent C s) (l : Language × Language) (op : Op V) :
    (s.call C l op).map (fun r => (r.1, r.2.forget)) = s.forget.perform C op := by
  have hpf : s.forget.permits op = s.permits op := by cases op <;> rfl
  by_cases hp : s.permits op = true
  swap
  · simp [State.call, State.perform, hp, hpf]
  cases op with
  | producer op =>
      have hrun : observed ((l.1.producer C op).run 64 s.ch s.handle) =
          op.effect C.N s.ch (forgetCommitted s.handle) := by
        rw [← op.effect_forget]
        cases l.1 with
        | rust => exact run_rustProducer C op (fun h0 => (hs.zeroed h0).1) (hs.fits hp)
        | c => exact run_cProducer C op
      simp only [State.call, State.perform, hpf, hp, if_true, Option.map_some]
      change some ((observed _).1, s.forget.afterProducer op (observed _)) = some _
      rw [hrun]
      rfl
  | consumer op =>
      have hrun : (l.2.consumer C op).run 64 s.ch s.cursor = op.effect C.N s.ch s.cursor := by
        cases l.2 with
        | rust => exact run_rustConsumer C op s.cursor
        | c => exact run_cConsumer C op s.cursor
      simp only [State.call, State.perform, hpf, hp, if_true, Option.map_some, hrun]
      rfl

theorem Consistent.run_forget (hs : Consistent C s) (l : Language × Language) (ops : List (Op V)) :
    (s.run C l ops).map (fun r => (r.1, r.2.forget)) = s.forget.performAll C ops := by
  induction ops generalizing s with
  | nil => rfl
  | cons op ops ih =>
      have hcall := hs.call_forget l op
      simp only [State.run, State.performAll]
      rw [← hcall]
      cases hc : s.call C l op with
      | none => rfl
      | some r =>
        have hr : Consistent C r.2 := by
          rw [hc] at hcall
          exact (hs.forget.perform hcall.symm).of_forget
        have := ih hr
        simp only [Option.bind_some, Option.map_some, ← this, Option.map_map]
        rfl

/-- **A C endpoint can replace a Rust endpoint on either side of the channel.**  From the same
memory and the same own structures, every permitted sequence of calls gives the same responses,
the same memory and the same counters, whichever of the two endpoints are in C. -/
theorem c_simulates_rust (C : Shared) (l : Language × Language) {s : State V}
    (hs : Consistent C s) (ops : List (Op V)) :
    (s.run C l ops).map (fun r => (r.1, r.2.forget)) =
      (s.run C (.rust, .rust) ops).map (fun r => (r.1, r.2.forget)) := by
  rw [hs.run_forget l ops, hs.run_forget (.rust, .rust) ops]

end runs

def Shared.small : Shared := ⟨⟨.shmem, 2, 64, 0, Config.small.valid, Config.small.fits⟩, rfl, rfl⟩

/-- Zeroed memory that nobody has joined. -/
def State.fresh : State ℕ :=
  ⟨Channel.zeroed 0, ⟨⟨0, 0, 0⟩, ⟨0, 0, 0, false⟩⟩, false, none, ⟨0, 0, 0⟩, false⟩

/-- Two values through the ring, a push into the full ring, and a cancelled reservation. -/
def smallCalls : List (Op ℕ) :=
  [.producer .joinOrInitialize, .consumer .join, .producer (.reserve 2), .producer (.writeNext 5),
    .producer (.writeAll [6]), .producer .commit, .consumer .pop, .producer (.push 7),
    .producer (.push 8), .producer (.reserve 1), .consumer .pop, .producer (.reserve 1),
    .producer .cancel]

/-- Rust endpoints answer these calls as C endpoints do. -/
theorem c_simulates_rust_small :
    (State.fresh.run Shared.small (.c, .c) smallCalls).map (fun r => (r.1, r.2.forget)) =
      (State.fresh.run Shared.small (.rust, .rust) smallCalls).map (fun r => (r.1, r.2.forget)) ∧
    (State.fresh.run Shared.small (.rust, .rust) smallCalls).map (·.1) =
      some [.flag true, .flag true, .flag true, .flag true, .flag true, .flag true,
        .value (some 5), .flag true, .flag false, .flag false, .value (some 6), .flag true,
        .flag true] := by
  have h : (State.fresh.run Shared.small (.c, .c) smallCalls).map (·.1) =
      some [.flag true, .flag true, .flag true, .flag true, .flag true, .flag true,
        .value (some 5), .flag true, .flag false, .flag false, .value (some 6), .flag true,
        .flag true] := by
    decide +kernel
  have hsame := c_simulates_rust Shared.small (.c, .c) (s := State.fresh)
    ⟨fun _ => ⟨rfl, rfl⟩, fun k hk => by cases hk⟩ smallCalls
  refine ⟨hsame, ?_⟩
  have hresponses := congrArg (Option.map Prod.fst) hsame
  rw [Option.map_map, Option.map_map] at hresponses
  exact hresponses.symm.trans h

end Que.C
