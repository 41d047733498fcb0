import Que.Retry.System
import Que.Answers
import Que.Lossless.Agree
import Que.Lossless.Backpressure

/-! # The calls of the retry loops

What a call of the producer makes of its own structure, whatever the loads are answered, and how
many actions a call takes.

* **Plans.** `Plan C st h ops`: the loop can go on with the calls `ops`.
* **Passing.** The load of the head decides whether a push or a reservation passes
  (`push_undecided`, `reserve_undecided`); the other calls always pass.  A call that passes leaves a
  plan for the rest (`Passed`), and one that is refused leaves everything as it was (`refusal`). -/

namespace Que.Retry

open Lib Lossless

variable {V : Type} {C : Config}

/-! ### Plans -/

/-- The position after the last value written at a status. -/
def fill (h : Handle) : ProducerStatus → ℕ
  | .reserved => h.reservation.startTail + h.reservation.written
  | _ => h.producer.tail

/-- What is left of an open reservation. -/
def left (h : Handle) : ProducerStatus → ℕ
  | .reserved => h.reservation.count - h.reservation.written
  | _ => 0

/-- What was written through an open reservation. -/
def through (h : Handle) : ProducerStatus → ℕ
  | .reserved => h.reservation.written
  | _ => 0

/-- The calls `ops` can be made next, and the positions they ask for are words. -/
structure Plan (C : Config) (st : ProducerStatus) (h : Handle) (ops : List (ProducerOp V)) :
    Prop where
  feasible : feasible C.N st h.producer.written (left h st) (through h st) ops = true
  word : fill h st + left h st + demands C ops < 2 ^ C.w
  le : h.producer.written ≤ h.producer.tail
  start : st = .reserved →
    h.reservation.startTail = h.producer.tail ∧ h.reservation.written ≤ h.reservation.count

/-- A producer without a reservation. -/
theorem ready_ne_reserved {p : Prop} (h : ProducerStatus.ready = .reserved) : p := by cases h

/-- A call that passed: it wrote its values, and the rest of the calls can be made. -/
structure Passed (C : Config) (F : ℕ) (op : ProducerOp V) (ops : List (ProducerOp V))
    (r : ProducerStatus × List V) (h : Handle) : Prop where
  passed : passed op r = true
  values : r.2 = written op
  plan : Plan C r.1 h ops
  fill : fill h r.1 = F + (written op).length

/-- The call was refused: it does not pass, and there is no reservation and nothing written. -/
def refusal (op : ProducerOp V) (r : ProducerStatus × List V) : Prop :=
  r = (.ready, []) ∧ passed op r = false

/-- A call made at `h` finds room for what it asks for, if it finds this head. -/
def roomy (C : Config) (h : Handle) : ProducerOp V → ℕ → Prop
  | .push _, head => h.producer.tail ≠ wadd C.w head C.N
  | .reserve count, head => count ≤ wsub C.w C.N (wsub C.w h.producer.tail head)
  | _, _ => True

/-- The rest of a call made at `h` that has not loaded the head yet. -/
abbrev Hesitates (C : Config) (h : Handle) (op : ProducerOp V) (ops : List (ProducerOp V))
    (code : Proc Handle V (ProducerStatus × List V)) : Prop :=
  Undecided .head (roomy C h op) (StoresUpTo (fill h .ready)) (Passed C (fill h .ready) op ops)
    (refusal op) h code

theorem demands_cons (op : ProducerOp V) (ops : List (ProducerOp V)) :
    demands C (op :: ops) = op.demand C + demands C ops := rfl

section calls
variable {h : Handle} {ops : List (ProducerOp V)} {F : ℕ}

/-! ### Calls on a producer without a reservation -/

theorem push_passes {v : V} {head : ℕ} (P : Plan C .ready h (.push v :: ops))
    (hroom : h.producer.tail ≠ wadd C.w head C.N) :
    Obeys anyAnswer (StoresUpTo h.producer.tail) (pushRest C h v head)
      (Passed C h.producer.tail (.push v) ops) h := by
  obtain ⟨hf, hw, hle, -⟩ := P
  have hburst := burstAmount_pos C.N
  have hfits := C.fits
  simp only [feasible_push, Bool.and_eq_true, decide_eq_true_eq] at hf
  simp only [demands_cons, ProducerOp.demand, fill, left] at hw
  have h1 : wadd C.w h.producer.tail 1 = h.producer.tail + 1 := wadd_of_lt (by omega)
  have h2 : wadd C.w h.producer.written 1 = h.producer.written + 1 := wadd_of_lt (by omega)
  unfold pushRest
  rw [if_neg hroom]
  simp only [obeys_bind, obeys_assign, obeys_update, obeys_pure, StoresUpTo, true_and]
  refine ⟨rfl, rfl, ⟨?_, ?_, ?_, ready_ne_reserved⟩, ?_⟩
  · simpa only [Handle.setTail, Handle.setWritten, left, through, h2] using hf.2
  · simp only [fill, left, Handle.setTail, Handle.setWritten, h1]
    omega
  · simp only [Handle.setTail, Handle.setWritten, h1, h2]
    omega
  · exact h1

theorem push_undecided {v : V} (P : Plan C .ready h (.push v :: ops)) :
    Hesitates C h (.push v) ops ((ProducerOp.push v).code C) := by
  rw [push_code]
  refine .self (.load (fun head => push_passes P) fun head hfull => ?_)
  unfold pushRest
  rw [if_pos (not_not.mp hfull)]
  exact ⟨rfl, rfl⟩

theorem reserve_passes {count head : ℕ} (P : Plan C .ready h (.reserve count :: ops))
    (hroom : count ≤ wsub C.w C.N (wsub C.w h.producer.tail head)) :
    Obeys anyAnswer (StoresUpTo h.producer.tail) (reserveRest C count head)
      (Passed C h.producer.tail (.reserve count) ops) h := by
  obtain ⟨hf, hw, hle, -⟩ := P
  have hburst := burstAmount_pos C.N
  simp only [feasible_reserve, Bool.and_eq_true, decide_eq_true_eq] at hf
  have hcount : count ≤ C.N := by omega
  simp only [demands_cons, ProducerOp.demand, fill, left, if_pos hcount] at hw
  simp only [reserveRest, obeys_bind, obeys_self, obeys_ite, obeys_update, obeys_pure, StoresUpTo,
    true_and]
  refine ⟨fun hgt => absurd hgt (Nat.not_lt.mpr hroom), fun _ =>
    ⟨rfl, rfl, ⟨?_, ?_, hle, ?_⟩, rfl⟩⟩
  · simpa only [Handle.setReservation, left, through, Nat.sub_zero] using hf.2
  · simp only [fill, left, Handle.setReservation]
    omega
  · exact fun _ => ⟨rfl, Nat.zero_le _⟩

theorem reserve_undecided {count : ℕ} (P : Plan C .ready h (.reserve count :: ops)) :
    Hesitates C h (.reserve count) ops ((ProducerOp.reserve count).code C) := by
  have hf := P.feasible
  have hburst := burstAmount_pos C.N
  simp only [feasible_reserve, Bool.and_eq_true, decide_eq_true_eq] at hf
  rw [reserve_code, if_pos (show 0 < count ∧ count ≤ C.N by omega)]
  refine .load (fun head => reserve_passes P) fun head hfull => ?_
  simp only [Refused, reserveRest, obeys_bind, obeys_self, obeys_ite, true_and]
  exact ⟨fun _ => ⟨rfl, rfl⟩, fun hle => absurd (Nat.not_lt.mp hle) hfull⟩

theorem sync_passes (P : Plan C .ready h (.sync :: ops)) :
    Obeys anyAnswer (StoresUpTo h.producer.tail) (ProducerOp.sync.code C)
      (Passed C h.producer.tail .sync ops) h := by
  obtain ⟨hf, hw, hle, -⟩ := P
  simp only [feasible_sync] at hf
  simp only [demands_cons, ProducerOp.demand, fill, left] at hw
  simp only [ProducerOp.code, Lossless.sync, obeys_bind, obeys_self, obeys_update, obeys_store,
    obeys_pure, StoresUpTo, true_and]
  refine ⟨le_rfl, rfl, rfl, ⟨?_, ?_, Nat.zero_le _, ready_ne_reserved⟩, rfl⟩
  · simpa only [Handle.setWritten, left, through] using hf
  · simp only [fill, left, Handle.setWritten]
    omega

theorem beat_passes (P : Plan C .ready h (.beat :: ops)) :
    Obeys anyAnswer (StoresUpTo h.producer.tail) (ProducerOp.beat.code C)
      (Passed C h.producer.tail .beat ops) h := by
  obtain ⟨hf, hw, hle, -⟩ := P
  simp only [feasible_beat] at hf
  simp only [demands_cons, ProducerOp.demand] at hw
  simp only [ProducerOp.code, Lossless.beat, obeys_bind, obeys_fetchAdd, obeys_pure, StoresUpTo,
    true_and]
  refine fun _ => ⟨rfl, rfl, ⟨hf, ?_, hle, ready_ne_reserved⟩, rfl⟩
  simpa only [Nat.zero_add] using hw

/-! ### Calls on a reservation -/

/-- Writing `n` values keeps the plan. -/
theorem plan_wroteMore {n : ℕ} (hw : fill h .reserved + left h .reserved + demands C ops < 2 ^ C.w)
    (hle : h.producer.written ≤ h.producer.tail)
    (hs : h.reservation.startTail = h.producer.tail ∧ h.reservation.written ≤ h.reservation.count)
    (hn : n ≤ left h .reserved)
    (hf : feasible C.N .reserved h.producer.written (left h .reserved - n)
      (through h .reserved + n) ops = true) :
    Plan C .reserved (h.wroteMore C.w n) ops ∧
      fill (h.wroteMore C.w n) .reserved = fill h .reserved + n := by
  simp only [fill, left] at hw hn hf
  have h1 : wadd C.w h.reservation.written n = h.reservation.written + n := wadd_of_lt (by omega)
  constructor
  · constructor
    · simpa only [Handle.wroteMore, Handle.setReservation, left, through, h1, Nat.sub_sub] using hf
    · simp only [fill, left, Handle.wroteMore, Handle.setReservation, h1]
      omega
    · exact hle
    · intro _
      simp only [Handle.wroteMore, Handle.setReservation, h1]
      exact ⟨hs.1, by omega⟩
  · simp only [fill, Handle.wroteMore, Handle.setReservation, h1]
    omega

theorem writeNext_passes {v : V} (P : Plan C .reserved h (.writeNext v :: ops)) :
    Obeys anyAnswer (StoresUpTo F) ((ProducerOp.writeNext v).code C)
      (Passed C (fill h .reserved) (.writeNext v) ops) h := by
  obtain ⟨hf, hw, hle, hs⟩ := P
  simp only [feasible_writeNext, Bool.and_eq_true, decide_eq_true_eq] at hf
  simp only [demands_cons, ProducerOp.demand, Nat.zero_add] at hw
  have hlt : ¬ h.reservation.written ≥ h.reservation.count := by
    have hpos := hf.1
    simp only [left] at hpos
    omega
  obtain ⟨hplan, hfill⟩ := plan_wroteMore (n := 1) hw hle (hs rfl) hf.1 hf.2
  simp only [ProducerOp.code, Reservation.writeNext, obeys_bind, obeys_self, obeys_ite,
    obeys_assign, obeys_update, obeys_pure, StoresUpTo, true_and]
  exact ⟨fun hge => absurd hge hlt, fun _ => ⟨rfl, rfl, hplan, hfill⟩⟩

theorem copyTo_obeys_any (i : ℕ) (vs : List V) :
    Obeys anyAnswer (StoresUpTo F) (copyTo i vs) (fun _ h' => h' = h) h := by
  induction vs generalizing i with
  | nil => exact rfl
  | cons v vs ih => exact ⟨trivial, fun _ _ => ih (i + 1)⟩

theorem copyValues_obeys_any (i : ℕ) (vs : List V) :
    Obeys anyAnswer (StoresUpTo F) (Reservation.copyValues C.w C.N i vs) (fun _ h' => h' = h)
      h := by
  unfold Reservation.copyValues
  refine .ite (fun _ => copyTo_obeys_any i vs) fun _ => .bind ?_
  refine (copyTo_obeys_any i _).mono ?_
  rintro _ h' rfl
  exact copyTo_obeys_any 0 _

theorem writeAll_passes {vs : List V} (P : Plan C .reserved h (.writeAll vs :: ops)) :
    Obeys anyAnswer (StoresUpTo F) ((ProducerOp.writeAll vs).code C)
      (Passed C (fill h .reserved) (.writeAll vs) ops) h := by
  obtain ⟨hf, hw, hle, hs⟩ := P
  simp only [feasible_writeAll, Bool.and_eq_true, decide_eq_true_eq] at hf
  simp only [demands_cons, ProducerOp.demand, Nat.zero_add] at hw
  have hcount : h.reservation.count < 2 ^ C.w := by
    have := (hs rfl).2
    simp only [fill, left] at hw
    omega
  have hrem : h.reservation.remaining C.w = left h .reserved := wsub_of_le (hs rfl).2 hcount
  obtain ⟨hplan, hfill⟩ := plan_wroteMore hw hle (hs rfl) hf.1 hf.2
  simp only [ProducerOp.code, Reservation.writeAll, obeys_bind, obeys_self, hrem, StoresUpTo,
    true_and]
  rw [if_neg (Nat.not_lt.mpr hf.1)]
  by_cases hnil : vs = []
  · subst hnil
    simp only [List.length_nil, Nat.sub_zero, Nat.add_zero] at hf
    exact ⟨rfl, rfl, ⟨hf.2, hw, hle, hs⟩, rfl⟩
  · rw [if_neg (by simpa using hnil)]
    refine .bind ((copyValues_obeys_any _ vs).mono ?_)
    rintro _ h' rfl
    simp only [obeys_bind, obeys_update, obeys_pure, StoresUpTo, true_and]
    exact ⟨rfl, rfl, hplan, hfill⟩

theorem commit_passes (P : Plan C .reserved h (.commit :: ops)) :
    Obeys anyAnswer (StoresUpTo (fill h .reserved)) (ProducerOp.commit.code C)
      (Passed C (fill h .reserved) .commit ops) h := by
  obtain ⟨hf, hw, hle, hs⟩ := P
  obtain ⟨hstart, hwritten⟩ := hs rfl
  simp only [feasible_commit] at hf
  simp only [demands_cons, ProducerOp.demand, Nat.zero_add, fill, left] at hw
  have h1 : wadd C.w h.producer.tail h.reservation.written =
      h.producer.tail + h.reservation.written := wadd_of_lt (by omega)
  have h2 : wadd C.w h.producer.written h.reservation.written =
      h.producer.written + h.reservation.written := wadd_of_lt (by omega)
  simp only [ProducerOp.code, Reservation.commit, Lossless.sync, obeys_bind, obeys_self, obeys_ite,
    obeys_update, obeys_store, obeys_pure, StoresUpTo, true_and, Handle.setReservation,
    Handle.setTail, Handle.setWritten, h1, h2]
  constructor
  · intro hburst
    rw [if_pos (show h.producer.written + through h .reserved ≥ _ from hburst)] at hf
    refine ⟨?_, rfl, rfl, ⟨hf, ?_, Nat.zero_le _, ready_ne_reserved⟩, ?_⟩
    · simp only [fill]
      omega
    · simp only [fill, left]
      omega
    · simp only [fill, written, List.length_nil]
      omega
  · intro hburst
    rw [if_neg (show ¬ h.producer.written + through h .reserved ≥ _ from hburst)] at hf
    refine ⟨rfl, rfl, ⟨hf, ?_, Nat.add_le_add_right hle _, ready_ne_reserved⟩, ?_⟩
    · simp only [fill, left]
      omega
    · simp only [fill, written, List.length_nil]
      omega

/-! ### Every planned call -/

/-- A planned call can be made. -/
theorem Plan.enabled {st : ProducerStatus} {op : ProducerOp V} (P : Plan C st h (op :: ops)) :
    op.enabled st = true ∧ h.producer.tail + op.demand C < 2 ^ C.w := by
  obtain ⟨hf, hw, -, hs⟩ := P
  have htail : h.producer.tail ≤ fill h st := by
    cases st with
    | reserved => exact ((hs rfl).1.symm.trans_le (Nat.le_add_right _ _))
    | _ => exact le_rfl
  rw [demands_cons] at hw
  refine ⟨?_, by omega⟩
  cases op <;> cases st <;> first | rfl | exact absurd hf Bool.false_ne_true

/-- It passes, or it has to load the head first. -/
theorem Plan.starts {st : ProducerStatus} {op : ProducerOp V} (P : Plan C st h (op :: ops)) :
    Obeys anyAnswer (StoresUpTo (fill h st)) (op.code C) (Passed C (fill h st) op ops) h ∨
      st = .ready ∧ Hesitates C h op ops (op.code C) := by
  have hen := P.enabled.1
  cases st with
  | gone => exact absurd P.feasible Bool.false_ne_true
  | ready =>
      cases op with
      | push v => exact .inr ⟨rfl, push_undecided P⟩
      | reserve count => exact .inr ⟨rfl, reserve_undecided P⟩
      | sync => exact .inl (sync_passes P)
      | beat => exact .inl (beat_passes P)
      | consumerHeartbeat => exact absurd P.feasible Bool.false_ne_true
      | drop => exact absurd P.feasible Bool.false_ne_true
      | _ => cases hen
  | reserved =>
      cases op with
      | writeNext v => exact .inl (writeNext_passes P)
      | writeAll vs => exact .inl (writeAll_passes P)
      | commit => exact .inl (commit_passes P)
      | writeIter items i => exact absurd P.feasible Bool.false_ne_true
      | cancel => exact absurd P.feasible Bool.false_ne_true
      | _ => cases hen

/-- The values of a planned call are written from the end of what was written on. -/
theorem Plan.position {st : ProducerStatus} {op : ProducerOp V} (P : Plan C st h (op :: ops)) :
    op.isJoin = false ∧ (written op ≠ [] → op.position h = fill h st) := by
  have hen := P.enabled.1
  constructor
  · cases op <;> first | rfl | (cases st <;> exact absurd P.feasible Bool.false_ne_true)
  · intro hne
    cases op <;> cases st <;> first | rfl | exact absurd rfl hne | cases hen

end calls

end Que.Retry
