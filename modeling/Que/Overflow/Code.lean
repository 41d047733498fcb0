import Que.Lib.Checked
import Que.Lossless.System
import Que.Headless.System

/-! # The code with its arithmetic

Every function of the source that adds or subtracts words is written here once more, with the
arithmetic marked in source order (`check`); the operands may depend on the endpoint's own
structure.  The addition or subtraction belongs to the action that follows it.  Without the marks
the code is that of the transcription (`checkedCode_erase`).

* A build without overflow checks runs the code without the marks.
* A build with overflow checks panics at a mark whose result is out of range, unless the source uses
  a wrapping method there. -/

namespace Que

open Lib

/-- Endpoint code with its arithmetic. -/
abbrev CheckedProc (L V α : Type) : Type := Marked (Act L V) Act.Ans (L → Site) α

section actions
variable {L V α : Type}

/-- Code without arithmetic. -/
def plain (c : Proc L V α) : CheckedProc L V α := Marked.lift c

/-- An addition or subtraction with the operators of the language. -/
def check (a : L → Arith) : CheckedProc L V Unit := Marked.mark fun l => .checked (a l)

/-- An addition or subtraction with a wrapping method. -/
def checkWrapping (a : L → Arith) : CheckedProc L V Unit := Marked.mark fun l => .wrapping (a l)

@[simp] theorem erase_plain (c : Proc L V α) : (plain c).erase = c := Marked.erase_lift c

@[simp] theorem erase_check (a : L → Arith) :
    (check a : CheckedProc L V Unit).erase = .ret () := rfl

@[simp] theorem erase_checkWrapping (a : L → Arith) :
    (checkWrapping a : CheckedProc L V Unit).erase = .ret () := rfl

end actions

/-! ### Threads -/

/-- A thread of a build with overflow checks; `panicked` is a thread that an overflow has ended. -/
inductive CheckedThread (L V St Op R : Type) where
  | rest (st : St)
  | busy (op : Op) (code : CheckedProc L V R)
  | panicked

/-- The threads of the two builds are at the same place. -/
inductive CheckedThread.Erases {L V St Op R : Type} :
    CheckedThread L V St Op R → Thread L V St Op R → Prop
  | rest (st : St) : Erases (.rest st) (.rest st)
  | busy (start : L) (op : Op) (code : CheckedProc L V R) :
      Erases (.busy op code) (.busy start op code.erase)

namespace CheckedThread.Erases
variable {L V St Op R : Type} {p : CheckedThread L V St Op R} {q : Thread L V St Op R} {op : Op}

theorem rest_iff (h : p.Erases q) {st : St} : p = .rest st ↔ q = .rest st := by
  cases h with
  | rest st' => simp
  | busy start op code => simp

/-- A call in progress in the build with checks is one in the build without. -/
theorem of_busy (h : p.Erases q) {code : CheckedProc L V R} (hp : p = .busy op code) :
    ∃ start, q = .busy start op code.erase := by
  subst hp
  cases h with
  | busy start _ _ => exact ⟨start, rfl⟩

theorem to_busy (h : p.Erases q) {start : L} {code : Proc L V R} (hq : q = .busy start op code) :
    ∃ code', p = .busy op code' ∧ code'.erase = code := by
  subst hq
  cases h with
  | busy _ _ code' => exact ⟨code', rfl, rfl⟩

/-- The beginning of a call. -/
theorem call {code : CheckedProc L V R} {code' : Proc L V R} (h : code.erase = code') (start : L)
    (op : Op) :
    CheckedThread.Erases (.busy op code : CheckedThread L V St Op R) (.busy start op code') := by
  subst h
  exact .busy start op code

end CheckedThread.Erases

/-- A run all of whose states satisfy `p`. -/
structure RunIn {S : Type} (step : S → S → Prop) (p : S → Prop) (s t : S) : Prop where
  start : p s
  run : Relation.ReflTransGen (fun a b => step a b ∧ p b) s t

namespace RunIn
variable {S : Type} {step : S → S → Prop} {p : S → Prop} {s t u : S}

theorem refl (h : p s) : RunIn step p s s := ⟨h, .refl⟩

theorem tail (h : RunIn step p s t) (hstep : step t u) (hu : p u) : RunIn step p s u :=
  ⟨h.start, .tail h.run ⟨hstep, hu⟩⟩

theorem trans (h : RunIn step p s t) (h' : RunIn step p t u) : RunIn step p s u :=
  ⟨h.start, h.run.trans h'.run⟩

theorem last (h : RunIn step p s t) : p t := by
  obtain ⟨hs, hr⟩ := h
  cases hr with
  | refl => exact hs
  | tail _ hstep => exact hstep.2

/-- Induction along a run. -/
theorem induct {motive : S → Prop} (h : RunIn step p s t) (start : motive s)
    (next : ∀ a b, RunIn step p s a → step a b → p b → motive a → motive b) : motive t := by
  obtain ⟨hs, hr⟩ := h
  induction hr with
  | refl => exact start
  | tail hr hstep ih => exact next _ _ ⟨hs, hr⟩ hstep.1 hstep.2 ih

end RunIn

/-! ### The lossless producer -/

namespace Lossless

section producer
variable {V : Type} (w N : ℕ)

/-- `Producer::push`. -/
def pushChecked (value : V) : CheckedProc Handle V (Outcome Unit) := do
  let h ← plain self
  let head ← plain (load .head)
  check fun _ => .add head N
  let isFull := h.producer.tail = wadd w head N
  if isFull then
    return .err .full
  else
    let index := h.producer.tail &&& moduloMask N
    plain (assign index value)
    check fun h => .add h.producer.tail 1
    plain (update fun h => h.setTail (wadd w h.producer.tail 1))
    check fun h => .add h.producer.written 1
    plain (update fun h => h.setWritten (wadd w h.producer.written 1))
    return .ok ()

/-- `Producer::reserve`. -/
def reserveChecked (count : ℕ) : CheckedProc Handle V (Outcome Unit) := do
  if count = 0 then
    return .err .invalidSize
  else if count > N then
    return .err .invalidSize
  else
    let head ← plain (load .head)
    let h ← plain self
    check fun h => .sub h.producer.tail head
    check fun h => .sub N (wsub w h.producer.tail head)
    let availableSpace := wsub w N (wsub w h.producer.tail head)
    if count > availableSpace then
      return .err .full
    else
      plain (update fun h => h.setReservation ⟨h.producer.tail, count, 0, false⟩)
      return .ok ()

namespace Reservation

/-- `Reservation::write_next`. -/
def writeNextChecked (value : V) : CheckedProc Handle V (Outcome Unit) := do
  let h ← plain self
  let r := h.reservation
  if r.written ≥ r.count then
    return .panic
  else
    check fun h => .add h.reservation.startTail h.reservation.written
    let index := wadd w r.startTail r.written &&& moduloMask N
    plain (assign index value)
    check fun h => .add h.reservation.written 1
    plain (update fun h =>
      h.setReservation { h.reservation with written := wadd w h.reservation.written 1 })
    return .ok ()

/-- The copies of `Reservation::write_all`. -/
def copyValuesChecked (startIndex : ℕ) (values : List V) : CheckedProc Handle V Unit := do
  check fun _ => .add startIndex values.length
  let endIndex := wadd w startIndex values.length
  if endIndex ≤ N then
    plain (copyTo startIndex values)
  else
    check fun _ => .sub N startIndex
    let firstPartLen := wsub w N startIndex
    plain (copyTo startIndex (values.take firstPartLen))
    check fun _ => .sub values.length firstPartLen
    plain (copyTo 0 (values.drop firstPartLen))

/-- `Reservation::write_all`, with the subtraction of `Reservation::remaining`. -/
def writeAllChecked (values : List V) : CheckedProc Handle V (Outcome Unit) := do
  let h ← plain self
  let r := h.reservation
  check fun h => .sub h.reservation.count h.reservation.written
  if values.length > r.remaining w then
    return .panic
  else if values.isEmpty then
    return .ok ()
  else
    check fun h => .add h.reservation.startTail h.reservation.written
    let startIndex := wadd w r.startTail r.written &&& moduloMask N
    copyValuesChecked w N startIndex values
    check fun h => .add h.reservation.written values.length
    plain (update fun h =>
      h.setReservation { h.reservation with written := wadd w h.reservation.written values.length })
    return .ok ()

/-- The loop of `Reservation::write_iter`. -/
def writeIterLoopChecked (items : ℕ → Option V) : ℕ → ℕ → CheckedProc Handle V ℕ
  | 0, i => return i
  | fuel + 1, i =>
      match items i with
      | none => return i
      | some value => do
          let h ← plain self
          if h.reservation.written ≥ h.reservation.count then
            return i + 1
          else
            let _ ← writeNextChecked w N value
            writeIterLoopChecked items fuel (i + 1)

/-- `Reservation::write_iter`. -/
def writeIterChecked (items : ℕ → Option V) (i : ℕ) : CheckedProc Handle V (ℕ × ℕ) := do
  let h ← plain self
  let startWritten := h.reservation.written
  let j ← writeIterLoopChecked w N items (h.reservation.count + 1) i
  let h ← plain self
  check fun h => .sub h.reservation.written startWritten
  return (wsub w h.reservation.written startWritten, j)

/-- `Reservation::commit`. -/
def commitChecked : CheckedProc Handle V Unit := do
  plain (update fun h => h.setReservation { h.reservation with committed := true })
  check fun h => .add h.producer.tail h.reservation.written
  plain (update fun h => h.setTail (wadd w h.producer.tail h.reservation.written))
  check fun h => .add h.producer.written h.reservation.written
  plain (update fun h => h.setWritten (wadd w h.producer.written h.reservation.written))
  let h ← plain self
  if h.producer.written ≥ burstAmount N then
    plain sync

end Reservation

end producer

/-! ### The lossless consumer -/

section consumer
variable {V : Type} (w N : ℕ)

/-- `Drop for Element`, and the end of `Consumer::pop`. -/
def Element.dropChecked : CheckedProc Consumer V Unit := do
  check fun c => .add c.head 1
  plain (update fun c => { c with head := wadd w c.head 1 })
  check fun c => .add c.itemsSinceLastSync 1
  plain (update fun c => { c with itemsSinceLastSync := wadd w c.itemsSinceLastSync 1 })
  plain (maybeSync N)

/-- `Consumer::pop`. -/
def popChecked : CheckedProc Consumer V (Option V) := do
  let c ← plain self
  let headIndex := c.head &&& moduloMask N
  let tail ← plain (load .tail)
  let previouslyReadOrUninitialized := tail ≤ c.head
  if previouslyReadOrUninitialized then
    return none
  else
    let value ← plain (read headIndex)
    check fun c => .add c.head 1
    plain (update fun c => { c with head := wadd w c.head 1 })
    check fun c => .add c.itemsSinceLastSync 1
    plain (update fun c => { c with itemsSinceLastSync := wadd w c.itemsSinceLastSync 1 })
    plain (maybeSync N)
    return some value

end consumer

/-! ### The lossless calls -/

/-- The code of a call with its arithmetic; the other calls have none. -/
def ProducerOp.checkedCode {V : Type} (C : Config) :
    ProducerOp V → CheckedProc Handle V (ProducerStatus × List V)
  | push value => do
      match ← pushChecked C.w C.N value with
      | .ok () => return (.ready, [value])
      | _ => return (.ready, [])
  | reserve count => do
      match ← reserveChecked C.w C.N count with
      | .ok () => return (.reserved, [])
      | _ => return (.ready, [])
  | writeNext value => do
      match ← Reservation.writeNextChecked C.w C.N value with
      | .ok () => return (.reserved, [value])
      | _ => return (.reserved, [])
  | writeAll values => do
      match ← Reservation.writeAllChecked C.w C.N values with
      | .ok () => return (.reserved, values)
      | _ => return (.reserved, [])
  | writeIter items i => do
      let r ← Reservation.writeIterChecked C.w C.N items i
      return (.reserved, (List.range r.1).filterMap fun k => items (i + k))
  | commit => do Reservation.commitChecked C.w C.N; return (.ready, [])
  | op => plain (op.code C)

def ConsumerOp.checkedCode {V : Type} (C : Config) (st : ConsumerStatus) :
    ConsumerOp V → CheckedProc Consumer V (ConsumerStatus × Option V)
  | pop => do return (.ready, ← popChecked C.w C.N)
  | elementDrop => do Element.dropChecked C.w C.N; return (.ready, none)
  | op => plain (op.code C st)

section erase
variable {V : Type} (w N : ℕ)

theorem pushChecked_erase (value : V) : (pushChecked w N value).erase = push w N value := by
  simp [pushChecked, push]

theorem reserveChecked_erase (count : ℕ) :
    (reserveChecked w N count : CheckedProc Handle V _).erase = reserve w N count := by
  simp [reserveChecked, reserve]

namespace Reservation

theorem writeNextChecked_erase (value : V) :
    (writeNextChecked w N value).erase = writeNext w N value := by
  simp [writeNextChecked, writeNext]

theorem copyValuesChecked_erase (i : ℕ) (values : List V) :
    (copyValuesChecked w N i values).erase = copyValues w N i values := by
  simp [copyValuesChecked, copyValues]

theorem writeAllChecked_erase (values : List V) :
    (writeAllChecked w N values).erase = writeAll w N values := by
  simp [writeAllChecked, writeAll, copyValuesChecked_erase]

theorem writeIterLoopChecked_erase (items : ℕ → Option V) (fuel i : ℕ) :
    (writeIterLoopChecked w N items fuel i).erase = writeIterLoop w N items fuel i := by
  induction fuel generalizing i with
  | zero => rfl
  | succ fuel ih =>
      unfold writeIterLoopChecked writeIterLoop
      cases items i with
      | none => rfl
      | some value => simp [writeNextChecked_erase, ih]

theorem writeIterChecked_erase (items : ℕ → Option V) (i : ℕ) :
    (writeIterChecked w N items i).erase = writeIter w N items i := by
  simp [writeIterChecked, writeIter, writeIterLoopChecked_erase]

theorem commitChecked_erase :
    (commitChecked w N : CheckedProc Handle V _).erase = commit w N := by
  simp [commitChecked, commit]

end Reservation

theorem popChecked_erase : (popChecked w N : CheckedProc Consumer V _).erase = pop w N := by
  simp [popChecked, pop]

theorem Element.dropChecked_erase :
    (Element.dropChecked w N : CheckedProc Consumer V _).erase = Element.drop w N := by
  simp [Element.dropChecked, Element.drop]

/-- Without its marks, the code of a call is the transcribed one. -/
theorem ProducerOp.checkedCode_erase (C : Config) (op : ProducerOp V) :
    (op.checkedCode C).erase = op.code C := by
  cases op with
  | push value =>
      simp only [checkedCode, code, Marked.erase_bind, pushChecked_erase]
      congr 1
      funext r
      cases r <;> rfl
  | reserve count =>
      simp only [checkedCode, code, Marked.erase_bind, reserveChecked_erase]
      congr 1
      funext r
      cases r <;> rfl
  | writeNext value =>
      simp only [checkedCode, code, Marked.erase_bind, Reservation.writeNextChecked_erase]
      congr 1
      funext r
      cases r <;> rfl
  | writeAll values =>
      simp only [checkedCode, code, Marked.erase_bind, Reservation.writeAllChecked_erase]
      congr 1
      funext r
      cases r <;> rfl
  | writeIter items i => simp [checkedCode, code, Reservation.writeIterChecked_erase]
  | commit => simp [checkedCode, code, Reservation.commitChecked_erase]
  | _ => exact erase_plain _

theorem ConsumerOp.checkedCode_erase (C : Config) (st : ConsumerStatus) (op : ConsumerOp V) :
    (op.checkedCode C st).erase = op.code C st := by
  cases op with
  | pop => simp [checkedCode, code, popChecked_erase]
  | elementDrop => simp [checkedCode, code, Element.dropChecked_erase]
  | _ => exact erase_plain _

end erase

end Lossless

/-! ### The headless flavour -/

namespace Headless

section code
variable {W : Type} (w N : ℕ)

/-- `Producer::push`. -/
def pushChecked {K : ℕ} (value : Vector W K) : CheckedProc Producer W Unit := do
  let p ← plain self
  if p.written = burstAmount N then
    plain sync
  let p ← plain self
  let index := p.tail &&& moduloMask N
  plain (assignWords (index * K) value.toList)
  check fun p => .add p.tail 1
  plain (update fun p => { p with tail := wadd w p.tail 1 })
  check fun p => .add p.written 1
  plain (update fun p => { p with written := wadd w p.written 1 })

/-- The arithmetic of `next_modulo`. -/
def nextModuloChecked {L : Type} (head targetMod modValue : L → ℕ) : CheckedProc L W Unit := do
  check fun l => .add (targetMod l) (modValue l)
  check fun l => .sub (wadd w (targetMod l) (modValue l)) (head l % modValue l)
  check fun l => .add (head l)
    (wsub w (wadd w (targetMod l) (modValue l)) (head l % modValue l) % modValue l)

/-- `Consumer::join_multi_`. -/
def joinMultiChecked {L : Type} (M : Mode) (buffer index consumers : ℕ) :
    CheckedProc L W (Outcome Consumer) := do
  if validBuffer N buffer = false then
    return .panic
  else if ¬ consumers ≤ 64 then
    return .panic
  else if ¬ index < consumers then
    return .panic
  else
    let magic ← plain (load .magic)
    let capacity ← plain (load .capacity)
    if magic = MAGIC then
      if capacity ≠ N then
        return .err (.incorrectCapacity capacity)
      else
        let head ← plain (load .tail)
        plain (incrementStrongCount M)
        nextModuloChecked w (fun _ => head) (fun _ => index) (fun _ => consumers)
        let lastProducerHeartbeat ← plain (load .producerHeartbeat)
        return .ok ⟨nextModulo w head index consumers, consumers, index, lastProducerHeartbeat⟩
    else if magic = 0 then
      return .err .uninitialized
    else
      return .err .corruptionDetected

/-- How far the tail may be ahead of a readable cursor: `head.wrapping_add(N - burst_amount)`. -/
def readableChecked : CheckedProc Consumer W Unit := do
  check fun _ => .sub N (burstAmount N)
  checkWrapping fun c => .add c.head (readable N)

/-- Moving the cursor of an overrun consumer: `wrapping_sub`, then `next_modulo`. -/
def resetToChecked (tail : ℕ) : CheckedProc Consumer W Unit := do
  check fun _ => .sub N (burstAmount N)
  checkWrapping fun _ => .sub tail (readable N)
  nextModuloChecked w (fun _ => wsub w tail (readable N)) (fun c => c.consumerIndex)
    (fun c => c.interval)
  plain (update (resetTo w N tail))

/-- One round of `Consumer::pop`. -/
def popIterChecked (K : ℕ) : CheckedProc Consumer W (Round (Option (Vector W K))) := do
  let initialTail ← plain (load .tail)
  let c ← plain self
  let previouslyReadOrUninitialized := initialTail ≤ c.head
  if previouslyReadOrUninitialized then
    return .done none
  else
    readableChecked N
    let notOverrun := initialTail ≤ wadd w c.head (readable N)
    if ¬ notOverrun then
      resetToChecked w N initialTail
      return .again
    else
      let headIndex := c.head &&& moduloMask N
      let value ← plain (readWords (headIndex * K) K)
      let currentTail ← plain (load .tail)
      let c ← plain self
      readableChecked N
      let stillNotOverrun := currentTail ≤ wadd w c.head (readable N)
      if ¬ stillNotOverrun then
        resetToChecked w N currentTail
        return .again
      else
        check fun c => .add c.head c.interval
        plain (update fun c => { c with head := wadd w c.head c.interval })
        return .done (some value)

end code

/-- The code of a call with its arithmetic; the other calls have none. -/
def ProducerOp.checkedCode {W : Type} {K : ℕ} (P : Params) :
    ProducerOp W K → CheckedProc Producer W ProducerStatus
  | push value => do pushChecked P.w P.N value; return .ready
  | op => plain (op.code P)

def ConsumerOp.checkedCode {W : Type} {K : ℕ} (P : Params) :
    ConsumerOp → CheckedProc Consumer W (ConsumerResult W K)
  | join index consumers => do
      match ← joinMultiChecked P.w P.N P.mode P.buffer index consumers with
      | .ok c => do
          plain (update fun _ => c)
          return .done (.ready, none)
      | _ => return .done (.gone, none)
  | pop => do
      match ← popIterChecked P.w P.N K with
      | .again => return .again
      | .done value => return .done (.ready, value)
  | op => plain (op.code P)

section erase
variable {W : Type} {K : ℕ}

theorem pushChecked_erase (w N : ℕ) (value : Vector W K) :
    (pushChecked w N value).erase = push w N value := by
  simp [pushChecked, push]

theorem nextModuloChecked_erase {L : Type} (w : ℕ) (head targetMod modValue : L → ℕ) :
    (nextModuloChecked w head targetMod modValue : CheckedProc L W Unit).erase = .ret () := rfl

theorem joinMultiChecked_erase {L : Type} (w N : ℕ) (M : Mode) (buffer index consumers : ℕ) :
    (joinMultiChecked w N M buffer index consumers : CheckedProc L W _).erase =
      joinMulti w M N buffer index consumers := by
  simp [joinMultiChecked, joinMulti, nextModuloChecked_erase]

theorem popIterChecked_erase (w N : ℕ) :
    (popIterChecked w N K : CheckedProc Consumer W _).erase = popIter w N K := by
  simp [popIterChecked, popIter, readableChecked, resetToChecked, nextModuloChecked_erase]

theorem ProducerOp.checkedCode_erase (P : Params) (op : ProducerOp W K) :
    (op.checkedCode P).erase = op.code P := by
  cases op with
  | push value => simp [checkedCode, code, pushChecked_erase]
  | _ => exact erase_plain _

theorem ConsumerOp.checkedCode_erase (P : Params) (op : ConsumerOp) :
    (op.checkedCode P : CheckedProc Consumer W (ConsumerResult W K)).erase = op.code P := by
  cases op with
  | join index consumers =>
      simp only [checkedCode, code, Marked.erase_bind, joinMultiChecked_erase]
      congr 1
      funext r
      cases r <;> rfl
  | pop =>
      simp only [checkedCode, code, Marked.erase_bind, popIterChecked_erase]
      congr 1
      funext r
      cases r <;> rfl
  | _ => exact erase_plain _

end erase

end Headless
end Que
