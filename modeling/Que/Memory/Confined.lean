import Que.Memory.Cells
import Que.Lossless.System
import Que.Headless.System
import Que.C.Mixed

/-! # Endpoint code stays inside its segment

Every call of a Rust endpoint obeys the rule of `Memory/Cells.lean` whatever the loads answer: what
another process has done to the header or to the slots cannot move an access out of the segment.
What the code relies on is its own structure (`HandleFits`, `CursorFits`): the position is a word,
and an open reservation covers at most a whole ring.  The values that a caller passes have the size
of an element (`Sized`). -/

namespace Que

open Lib Segment

namespace Segment

/-- The channel of a configuration in the cells of a segment, `K` cells for each slot. -/
structure Fitting (C : Config) (K u : ℕ) (M : Cells) : Prop where
  mode : C.mode = .shmem
  word : C.w = 8 * u
  count : M.count = C.N * K

section fitting
variable {C : Config} {K u : ℕ} {M : Cells} (F : Fitting C K u M)
include F

theorem Fitting.range {x : Word} (hx : x ≠ .magic) : range u x = 2 ^ C.w := by
  rw [F.word]
  cases x with
  | magic => exact absurd rfl hx
  | _ => rfl

end fitting

@[simp] theorem range_pos (u : ℕ) (x : Word) : 0 < range u x := Nat.two_pow_pos _

theorem MAGIC_lt_range (u : ℕ) : MAGIC < range u .magic := (by decide : MAGIC < 2 ^ (8 * 8))

end Segment

namespace Lossless

variable {C : Config} {u : ℕ} {M : Cells}

/-- The position of a constructed producer is a word. -/
def TailFits (w : ℕ) : Outcome Producer → Prop
  | .ok p => p.tail < 2 ^ w
  | _ => True

section constructors
variable {L : Type} {l : L} {K : ℕ}

theorem joinProducer_obeys (F : Fitting C K u M) :
    Obeys (answers u) (Fits u M) (joinProducer C.mode C.N C.buffer)
      (fun r l' => TailFits C.w r ∧ l' = l) l := by
  have hword := F.range (x := .tail)
  simp only [joinProducer, F.mode, incrementStrongCount, Mode.backedByArcc]
  simp [Fits, TailFits, hword]
  tauto

theorem joinOrInitializeIn_obeys (F : Fitting C K u M) :
    Obeys (answers u) (Fits u M) (joinOrInitializeIn C.mode C.N C.buffer)
      (fun r l' => TailFits C.w r ∧ l' = l) l := by
  have hword := F.range (x := .tail)
  have hcap := F.range (x := .capacity)
  have hN := C.fits
  have hpos := Nat.two_pow_pos C.w
  simp only [joinOrInitializeIn, F.mode, incrementStrongCount, Mode.backedByArcc]
  simp [Fits, TailFits, hword, hcap, MAGIC_lt_range]
  tauto

theorem joinOrCreateShmem_obeys (F : Fitting C K u M) :
    Obeys (answers u) (Fits u M) (joinOrCreateShmem C.N)
      (fun r l' => TailFits C.w r ∧ l' = l) l := by
  have hword := F.range (x := .tail)
  have hcap := F.range (x := .capacity)
  have hN := C.fits
  have hpos := Nat.two_pow_pos C.w
  simp [joinOrCreateShmem, Fits, TailFits, hword, hcap, MAGIC_lt_range]
  tauto

theorem joinConsumer_obeys (F : Fitting C K u M) :
    Obeys (answers u) (Fits u M) (joinConsumer C.mode C.N C.buffer)
      (fun r l' => (∀ c, r = .ok c → c.head < 2 ^ C.w) ∧ l' = l) l := by
  have hword := F.range (x := .tail)
  have hhead := F.range (x := .head)
  simp only [joinConsumer, F.mode, incrementStrongCount, Mode.backedByArcc]
  simp [Fits, hword, hhead]
  tauto

end constructors

/-! ### The lossless producer -/

/-- What the producer's own structure satisfies between its calls. -/
def HandleFits (C : Config) : ProducerStatus → Handle → Prop
  | .gone, _ => True
  | .ready, h => h.producer.tail < 2 ^ C.w
  | .reserved, h => h.producer.tail < 2 ^ C.w ∧ h.reservation.count ≤ C.N ∧
      h.reservation.written ≤ h.reservation.count

/-- The values that a call passes have the size of an element. -/
def ProducerOp.Sized (size : ℕ) : ProducerOp Bytes → Prop
  | push value => value.length = size
  | writeNext value => value.length = size
  | writeAll values => ∀ v ∈ values, v.length = size
  | writeIter items _ => ∀ i v, items i = some v → v.length = size
  | _ => True

section producer
variable {h : Handle} (F : Fitting C 1 u M)
include F

theorem slot_lt_count (p : ℕ) : slot C.N p < M.count := by
  rw [F.count, Nat.mul_one]
  exact slot_lt C.pow p

theorem sync_obeys (hh : h.producer.tail < 2 ^ C.w) :
    Obeys (answers u) (Fits u M) sync (fun _ h' => h'.producer.tail < 2 ^ C.w) h := by
  have hword := F.range (x := .tail)
  simp [sync, Fits, Handle.setWritten, hword, hh]

theorem push_obeys (hh : h.producer.tail < 2 ^ C.w) {v : Bytes} (hv : v.length = M.size) :
    Obeys (answers u) (Fits u M) (push C.w C.N v) (fun _ h' => h'.producer.tail < 2 ^ C.w) h := by
  have hslot := slot_lt_count F h.producer.tail
  simp [push, Fits, Handle.setTail, Handle.setWritten, and_moduloMask, hslot, hv, hh, wadd_lt]

omit F in
theorem reserve_obeys (hh : h.producer.tail < 2 ^ C.w) (count : ℕ) :
    Obeys (answers u) (Fits u M) (reserve C.w C.N count) (fun r h' =>
      HandleFits C (match r with | .ok () => .reserved | _ => .ready) h') h := by
  simp [reserve, Fits, Handle.setReservation, HandleFits, hh]
  omega

omit F in
/-- Writing `n` more values keeps an open reservation within its count. -/
theorem HandleFits.more (hh : HandleFits C .reserved h) {n : ℕ}
    (hn : h.reservation.written + n ≤ h.reservation.count) :
    HandleFits C .reserved (h.setReservation
      { h.reservation with written := wadd C.w h.reservation.written n }) := by
  have hfits := C.fits
  obtain ⟨h1, h2, h3⟩ := hh
  refine ⟨h1, h2, ?_⟩
  show wadd C.w h.reservation.written n ≤ h.reservation.count
  rw [wadd_of_lt (by omega)]
  exact hn

theorem writeNext_obeys (hh : HandleFits C .reserved h) {v : Bytes} (hv : v.length = M.size) :
    Obeys (answers u) (Fits u M) (Reservation.writeNext C.w C.N v)
      (fun _ h' => HandleFits C .reserved h') h := by
  have hslot := slot_lt_count F (wadd C.w h.reservation.startTail h.reservation.written)
  simp only [Reservation.writeNext, obeys_bind, obeys_self, obeys_ite, obeys_pure, obeys_assign,
    obeys_update, Fits, and_moduloMask, hslot, hv, true_and]
  exact ⟨fun _ => hh, fun hlt => HandleFits.more hh (by omega)⟩

theorem copyTo_obeys {i : ℕ} {vs : List Bytes} (hi : i + vs.length ≤ C.N)
    (hvs : ∀ v ∈ vs, v.length = M.size) :
    Obeys (answers u) (Fits u M) (copyTo i vs) (fun _ h' => h' = h) h := by
  induction vs generalizing i with
  | nil => exact rfl
  | cons v vs ih =>
      rw [List.length_cons] at hi
      refine ⟨⟨?_, hvs v (List.mem_cons_self ..)⟩, fun _ _ => ih (by omega) ?_⟩
      · rw [F.count]
        omega
      · exact fun v' hv' => hvs v' (List.mem_cons_of_mem _ hv')

theorem copyValues_obeys {i : ℕ} {vs : List Bytes} (hi : i < C.N) (hlen : vs.length ≤ C.N)
    (hvs : ∀ v ∈ vs, v.length = M.size) :
    Obeys (answers u) (Fits u M) (Reservation.copyValues C.w C.N i vs) (fun _ h' => h' = h) h := by
  rw [Reservation.copyValues_eq hi hlen]
  refine .ite (fun h1 => copyTo_obeys F h1 hvs) fun _ => .bind ?_
  refine (copyTo_obeys F ?_ fun v hv => hvs v (List.mem_of_mem_take hv)).mono ?_
  · rw [List.length_take]
    omega
  · rintro _ h' rfl
    refine copyTo_obeys F ?_ fun v hv => hvs v (List.mem_of_mem_drop hv)
    rw [List.length_drop]
    omega

theorem writeAll_obeys (hh : HandleFits C .reserved h) {vs : List Bytes}
    (hvs : ∀ v ∈ vs, v.length = M.size) :
    Obeys (answers u) (Fits u M) (Reservation.writeAll C.w C.N vs)
      (fun _ h' => HandleFits C .reserved h') h := by
  have hfits := C.fits
  have hrem : h.reservation.remaining C.w = h.reservation.count - h.reservation.written :=
    wsub_of_le hh.2.2 (hh.2.1.trans_lt hfits)
  unfold Reservation.writeAll
  simp only [obeys_bind, obeys_self, obeys_ite, obeys_pure, Fits, true_and, hrem]
  refine ⟨fun _ => hh, fun hlen => ⟨fun _ => hh, fun _ => ?_⟩⟩
  obtain ⟨-, hcount, hwritten⟩ := id hh
  apply (copyValues_obeys F (slot_lt C.pow _) (by omega) hvs).mono
  rintro _ h' rfl
  have hmore := HandleFits.more hh (n := vs.length) (by omega)
  simpa only [obeys_bind, obeys_update, obeys_pure, Fits, true_and] using hmore

theorem writeIterLoop_obeys (hh : HandleFits C .reserved h) {items : ℕ → Option Bytes}
    (hitems : ∀ i v, items i = some v → v.length = M.size) (fuel i : ℕ) :
    Obeys (answers u) (Fits u M) (Reservation.writeIterLoop C.w C.N items fuel i)
      (fun _ h' => HandleFits C .reserved h') h := by
  induction fuel generalizing i h with
  | zero => exact hh
  | succ fuel ih =>
      unfold Reservation.writeIterLoop
      cases hi : items i with
      | none => exact hh
      | some v =>
          simp only [obeys_bind, obeys_self, obeys_ite, obeys_pure, Fits, true_and]
          refine ⟨fun _ => hh, fun _ => ?_⟩
          exact (writeNext_obeys F hh (hitems i v hi)).mono fun _ _ hh' => ih hh' (i + 1)

theorem commit_obeys :
    Obeys (answers u) (Fits u M) (Reservation.commit C.w C.N : Proc Handle Bytes Unit)
      (fun _ h' => h'.producer.tail < 2 ^ C.w) h := by
  simp only [Reservation.commit, obeys_bind, obeys_update, obeys_self, obeys_ite, obeys_pure, Fits,
    true_and]
  refine ⟨fun _ => sync_obeys F ?_, fun _ => ?_⟩
  · exact wadd_lt _ _ _
  · exact wadd_lt _ _ _

omit F in
theorem install_obeys {r : Outcome Producer} (hr : TailFits C.w r) :
    Obeys (answers u) (Fits u M) (ProducerOp.install r : Proc Handle Bytes _)
      (fun r h' => HandleFits C r.1 h') h := by
  cases r with
  | ok p =>
      simp only [ProducerOp.install, obeys_bind, obeys_update, obeys_pure, Fits, true_and]
      exact hr
  | err e => trivial
  | panic => trivial

/-- Every call of the producer stays inside the segment, and leaves the producer's structure fit for
the next one. -/
theorem ProducerOp.code_obeys {op : ProducerOp Bytes} {st : ProducerStatus}
    (hen : op.enabled st = true) (hop : op.Sized M.size) (hh : HandleFits C st h) :
    Obeys (answers u) (Fits u M) (op.code C) (fun r h' => HandleFits C r.1 h') h := by
  have next : ∀ {α : Type} {c : Proc Handle Bytes α} {r : ProducerStatus × List Bytes},
      Obeys (answers u) (Fits u M) c (fun _ h' => HandleFits C r.1 h') h →
      Obeys (answers u) (Fits u M) (c >>= fun _ => pure r) (fun r h' => HandleFits C r.1 h') h :=
    fun hc => .bind hc
  cases op with
  | join => exact .bind ((joinProducer_obeys F).mono fun r _ hr => install_obeys hr.1)
  | joinOrInitializeIn =>
      exact .bind ((joinOrInitializeIn_obeys F).mono fun r _ hr => install_obeys hr.1)
  | joinOrCreateShmem =>
      exact .bind ((joinOrCreateShmem_obeys F).mono fun r _ hr => install_obeys hr.1)
  | push v =>
      cases st <;> cases hen
      refine .bind ((push_obeys F hh hop).mono fun r h' hh' => ?_)
      cases r <;> exact hh'
  | sync =>
      cases st <;> cases hen
      exact next (sync_obeys F hh)
  | beat =>
      cases st <;> cases hen
      simpa [ProducerOp.code, Lossless.beat, Fits] using hh
  | consumerHeartbeat =>
      cases st <;> cases hen
      simp [ProducerOp.code, Lossless.consumerHeartbeat, Fits, Handle.setLastConsumerHeartbeat]
      exact fun _ _ => ⟨fun _ => hh, fun _ => hh⟩
  | reserve count =>
      cases st <;> cases hen
      refine .bind ((reserve_obeys hh count).mono fun r h' hh' => ?_)
      cases r <;> exact hh'
  | writeNext v =>
      cases st <;> cases hen
      refine .bind ((writeNext_obeys F hh hop).mono fun r h' hh' => ?_)
      cases r <;> exact hh'
  | writeAll vs =>
      cases st <;> cases hen
      refine .bind ((writeAll_obeys F hh hop).mono fun r h' hh' => ?_)
      cases r <;> exact hh'
  | writeIter items i =>
      cases st <;> cases hen
      simp only [ProducerOp.code, Reservation.writeIter, obeys_bind, obeys_self, obeys_pure, Fits,
        true_and]
      exact writeIterLoop_obeys F hh hop _ _
  | commit =>
      cases st <;> cases hen
      exact next (commit_obeys F)
  | cancel =>
      cases st <;> cases hen
      exact hh.1
  | drop =>
      simp only [ProducerOp.code, dropEndpoint, F.mode, Mode.backedByArcc]
      trivial

end producer

/-! ### The lossless consumer -/

/-- What the consumer's own structure satisfies between its calls. -/
def CursorFits (C : Config) : ConsumerStatus → Consumer → Prop
  | .gone, _ => True
  | .ready, c => c.head < 2 ^ C.w
  | .element i, c => c.head < 2 ^ C.w ∧ i < C.N

def ConsumerOp.Sized (size : ℕ) : ConsumerOp Bytes → Prop
  | elementWrite value => value.length = size
  | _ => True

section consumer
variable {c : Consumer} (F : Fitting C 1 u M)
include F

theorem maybeSync_obeys (hc : c.head < 2 ^ C.w) :
    Obeys (answers u) (Fits u M) (maybeSync C.N) (fun _ c' => c'.head < 2 ^ C.w) c := by
  have hword := F.range (x := .head)
  simp [maybeSync, Fits, hword, hc]

theorem pop_obeys (hc : c.head < 2 ^ C.w) :
    Obeys (answers u) (Fits u M) (pop C.w C.N) (fun _ c' => c'.head < 2 ^ C.w) c := by
  have hslot := slot_lt_count F c.head
  simp only [pop, obeys_bind, obeys_self, obeys_load, obeys_ite, obeys_pure, obeys_read,
    obeys_update, Fits, and_moduloMask, hslot, ne_eq, reduceCtorEq, not_false_eq_true, true_and]
  exact fun _ _ => ⟨fun _ => hc, fun _ _ => maybeSync_obeys F (wadd_lt _ _ _)⟩

theorem elementDrop_obeys :
    Obeys (answers u) (Fits u M) (Element.drop C.w C.N : Proc Consumer Bytes Unit)
      (fun _ c' => c'.head < 2 ^ C.w) c := by
  simp only [Element.drop, obeys_bind, obeys_update, Fits, true_and]
  exact maybeSync_obeys F (wadd_lt _ _ _)

theorem ConsumerOp.code_obeys {op : ConsumerOp Bytes} {st : ConsumerStatus}
    (hen : op.enabled st = true) (hop : op.Sized M.size) (hc : CursorFits C st c) :
    Obeys (answers u) (Fits u M) (op.code C st) (fun r c' => CursorFits C r.1 c') c := by
  cases op with
  | join =>
      refine .bind ((joinConsumer_obeys F).mono fun r c' hr => ?_)
      cases r with
      | ok c₁ =>
          simp only [ConsumerOp.install, obeys_bind, obeys_update, obeys_pure, Fits, true_and]
          exact hr.1 c₁ rfl
      | err e => trivial
      | panic => trivial
  | pop =>
      cases st <;> cases hen
      exact .bind (pop_obeys F hc)
  | popZerocopy =>
      cases st <;> cases hen
      simp only [ConsumerOp.code, Lossless.popZerocopy, obeys_bind, obeys_self, obeys_load,
        obeys_ite, obeys_pure, Fits, and_moduloMask, ne_eq, reduceCtorEq, not_false_eq_true,
        true_and]
      exact fun _ _ => ⟨fun _ => hc, fun _ => ⟨hc, slot_lt C.pow _⟩⟩
  | elementWrite v =>
      cases st <;> cases hen
      have hi : ∀ i, i < C.N → i < M.count := by
        intro i hi
        rw [F.count]
        omega
      simp only [ConsumerOp.code, Element.write, obeys_bind, obeys_assign, obeys_pure, Fits]
      exact ⟨⟨hi _ hc.2, hop⟩, hc⟩
  | elementDrop =>
      cases st <;> cases hen
      exact .bind (elementDrop_obeys F)
  | beat =>
      cases st <;> cases hen
      simpa [ConsumerOp.code, beatConsumer, Fits] using hc
  | producerHeartbeat =>
      cases st <;> cases hen
      simp only [ConsumerOp.code, Lossless.producerHeartbeat, obeys_bind, obeys_load, obeys_self,
        obeys_ite, obeys_update, obeys_pure, Fits, ne_eq, reduceCtorEq, not_false_eq_true,
        true_and]
      exact fun _ _ => ⟨fun _ => hc, fun _ => hc⟩
  | drop =>
      simp only [ConsumerOp.code, dropEndpoint, F.mode, Mode.backedByArcc]
      trivial

end consumer

end Lossless

/-! ### The C endpoints -/

namespace C

open Lossless

variable {C : Shared} {u : ℕ} {M : Cells}

def ProducerOp.Sized (size : ℕ) : ProducerOp Bytes → Prop := fun op => op.counterpart.Sized size

section producer
variable {h : Handle} (F : Fitting C.toConfig 1 u M)
include F

theorem joinProducer_obeys :
    Obeys (answers u) (Segment.Fits u M) (joinProducer C.N C.buffer : Proc Handle Bytes _)
      (fun r h' => r = .ok 0 → h'.producer.tail < 2 ^ C.w) h := by
  have hword := F.range (x := .tail)
  simp [joinProducer, Segment.Fits, hword, Handle.setTail, Handle.setWritten,
    Handle.setLastConsumerHeartbeat]
  tauto

theorem joinOrInitialize_obeys :
    Obeys (answers u) (Segment.Fits u M) (joinOrInitialize C.N C.buffer : Proc Handle Bytes _)
      (fun r h' => r = .ok 0 → h'.producer.tail < 2 ^ C.w) h := by
  have hword := F.range (x := .tail)
  have hcap := F.range (x := .capacity)
  have hN := C.fits
  have hpos := Nat.two_pow_pos C.w
  simp [joinOrInitialize, Segment.Fits, hword, hcap, Handle.setTail, Handle.setWritten,
    Handle.setLastConsumerHeartbeat, MAGIC_eq, MAGIC_lt_range]
  tauto

omit F in
theorem word_eq : 2 ^ C.w = 2 ^ 64 := by
  rw [C.wide]

theorem push_obeys (hh : h.producer.tail < 2 ^ C.w) {v : Bytes} (hv : v.length = M.size) :
    Obeys (answers u) (Segment.Fits u M) (push C.N v)
      (fun _ h' => h'.producer.tail < 2 ^ C.w) h := by
  have hslot : slot C.N h.producer.tail + [v].length ≤ C.N := slot_lt C.pow _
  simp only [push, obeys_bind, obeys_load, obeys_self, obeys_ite, obeys_pure, Segment.Fits, ne_eq,
    reduceCtorEq, not_false_eq_true, true_and]
  refine fun _ _ => ⟨fun _ => hh, fun _ => ?_⟩
  refine (copyTo_obeys F hslot (by simpa using hv)).mono fun _ h' e => ?_
  simp only [obeys_update, Segment.Fits, true_and, e, word_eq]
  exact wadd_lt _ _ _

omit F in
theorem reserve_obeys (hh : h.producer.tail < 2 ^ C.w) (count : ℕ) :
    Obeys (answers u) (Segment.Fits u M) (reserve C.N count : Proc Handle Bytes ℕ) (fun r h' =>
      HandleFits C.toConfig (if r = 0 then .reserved else .ready) h') h := by
  simp [reserve, Segment.Fits, Handle.setReservation, HandleFits, hh]
  omega

omit F in
/-- Writing `n` more values keeps an open reservation within its count. -/
theorem handleFits_more (hh : HandleFits C.toConfig .reserved h) {n : ℕ}
    (hn : h.reservation.written + n ≤ h.reservation.count) :
    HandleFits C.toConfig .reserved (h.setReservation
      { h.reservation with written := wadd 64 h.reservation.written n }) := by
  have hmore := Lossless.HandleFits.more hh hn
  rwa [C.wide] at hmore

theorem reservationWriteAll_obeys (hh : HandleFits C.toConfig .reserved h) {vs : List Bytes}
    (hvs : ∀ v ∈ vs, v.length = M.size)
    (hlen : h.reservation.written + vs.length ≤ h.reservation.count) :
    Obeys (answers u) (Segment.Fits u M) (reservationWriteAll C.N vs)
      (fun _ h' => HandleFits C.toConfig .reserved h') h := by
  have hcount := hh.2.1
  simp only [reservationWriteAll]
  refine .ite (fun _ => hh) fun _ => ?_
  simp only [obeys_bind, obeys_self, Segment.Fits, true_and]
  rw [copyValues_bind (C := C)]
  refine .bind ((copyValues_obeys F (slot_lt C.pow _) (by omega) hvs).mono ?_)
  rintro _ h' rfl
  simp only [obeys_update, Segment.Fits, true_and]
  exact handleFits_more hh hlen

/-- Every call of the C producer stays inside the segment. -/
theorem ProducerOp.threadCode_obeys {op : ProducerOp Bytes} {st : ProducerStatus}
    (hen : op.counterpart.enabled st = true) (hok : op.allowed h = true) (hop : op.Sized M.size)
    (hh : HandleFits C.toConfig st h) :
    Obeys (answers u) (Segment.Fits u M) (op.threadCode C)
      (fun r h' => HandleFits C.toConfig r.1 h') h := by
  have joined : ∀ {op : ProducerOp Bytes} {c : Proc Handle Bytes (Outcome ℕ)},
      op = .join ∨ op = .joinOrInitialize →
      Obeys (answers u) (Segment.Fits u M) c
        (fun r h' => r = .ok 0 → h'.producer.tail < 2 ^ C.w) h →
      Obeys (answers u) (Segment.Fits u M) (do
        let x ← (do
          let r ← c
          return .flag (r = .ok 0))
        return op.outcome x) (fun r h' => HandleFits C.toConfig r.1 h') h := by
    intro op c hop hc
    refine .bind (.bind (hc.mono fun r h' hr => ?_))
    by_cases e : r = .ok 0
    · rcases hop with rfl | rfl <;> simpa [outcome, e, HandleFits] using hr e
    · rcases hop with rfl | rfl <;> simp [outcome, e, HandleFits]
  cases op with
  | join => exact joined (.inl rfl) (joinProducer_obeys F)
  | joinOrInitialize => exact joined (.inr rfl) (joinOrInitialize_obeys F)
  | push v =>
      cases st <;> cases hen
      refine .bind (.bind ((push_obeys F hh hop).mono fun r h' hh' => ?_))
      by_cases e : r = 0 <;> simpa [outcome, e, HandleFits] using hh'
  | sync =>
      cases st <;> cases hen
      exact .bind (.bind (sync_obeys F hh))
  | beat =>
      cases st <;> cases hen
      simpa [threadCode, cProducer, Que.C.beat, Segment.Fits, outcome] using hh
  | consumerHeartbeat =>
      cases st <;> cases hen
      simp only [threadCode, cProducer, Que.C.consumerHeartbeat, obeys_bind, obeys_load, obeys_self,
        obeys_ite, obeys_update, obeys_pure, Segment.Fits, ne_eq, reduceCtorEq, not_false_eq_true,
        true_and]
      exact fun _ _ => ⟨fun _ => hh, fun _ => hh⟩
  | reserve count =>
      cases st <;> cases hen
      refine .bind (.bind ((reserve_obeys hh count).mono fun r h' hh' => ?_))
      by_cases e : r = 0 <;> simpa [outcome, e, HandleFits] using hh'
  | writeNext v =>
      cases st <;> cases hen
      have hlt : h.reservation.written < h.reservation.count := of_decide_eq_true hok
      have hslot := slot_lt C.pow (wadd 64 h.reservation.startTail h.reservation.written)
      simp only [threadCode, cProducer, reservationGetNext, reservationWriteNext, obeys_bind,
        obeys_self, obeys_pure, Segment.Fits, true_and]
      have hv : v.length = M.size := hop
      have hvs : ∀ x ∈ [v], x.length = M.size := by simpa using hv
      apply (copyTo_obeys F hslot hvs).mono
      rintro _ h' rfl
      simp only [obeys_update, Segment.Fits, true_and]
      exact handleFits_more hh hlt
  | writeAll vs =>
      cases st <;> cases hen
      exact .bind (.bind (reservationWriteAll_obeys F hh hop (of_decide_eq_true hok)))
  | commit =>
      cases st <;> cases hen
      simp only [threadCode, cProducer, reservationCommit, obeys_bind, obeys_update, obeys_pure,
        Segment.Fits, true_and]
      apply sync_obeys F
      show wadd 64 _ _ < 2 ^ C.w
      rw [word_eq]
      exact wadd_lt _ _ _
  | cancel =>
      cases st <;> cases hen
      simpa [threadCode, cProducer, reservationCancel, Segment.Fits, outcome, HandleFits,
        Handle.setReservation] using hh.1

end producer

section consumer
variable {c : Consumer} (F : Fitting C.toConfig 1 u M)
include F

/-- Every call of the C consumer stays inside the segment. -/
theorem ConsumerOp.threadCode_obeys {op : ConsumerOp} {st : ConsumerStatus}
    (hen : (op.counterpart : Lossless.ConsumerOp Bytes).enabled st = true)
    (hc : CursorFits C.toConfig st c) :
    Obeys (answers u) (Segment.Fits u M) (op.threadCode C)
      (fun r c' => CursorFits C.toConfig r.1 c') c := by
  have hword := F.range (x := .tail)
  have hhead := F.range (x := .head)
  cases op with
  | join =>
      simp only [threadCode, cConsumer, joinConsumer]
      simp [Segment.Fits, hword, hhead, outcome, CursorFits]
      tauto
  | pop =>
      cases st <;> cases hen
      have hslot := slot_lt_count F c.head
      simp only [threadCode, cConsumer, Que.C.pop, obeys_bind, obeys_self, obeys_load, obeys_ite,
        obeys_pure, obeys_read, obeys_update, Segment.Fits, ne_eq, reduceCtorEq,
        not_false_eq_true, true_and]
      refine fun _ _ => ⟨fun _ => hc, fun _ => ⟨hslot, fun _ => maybeSync_obeys F ?_⟩⟩
      show wadd 64 _ _ < 2 ^ C.w
      rw [word_eq]
      exact wadd_lt _ _ _
  | beat =>
      cases st <;> cases hen
      simpa [threadCode, cConsumer, beatConsumer, Segment.Fits, outcome] using hc
  | producerHeartbeat =>
      cases st <;> cases hen
      simp only [threadCode, cConsumer, Que.C.producerHeartbeat, obeys_bind, obeys_load, obeys_self,
        obeys_ite, obeys_update, obeys_pure, Segment.Fits, ne_eq, reduceCtorEq, not_false_eq_true,
        true_and]
      exact fun _ _ => ⟨fun _ => hc, fun _ => hc⟩

end consumer

end C

/-! ### The headless endpoints -/

namespace Headless

variable {P : Params} {u K : ℕ} {M : Cells}

/-- What the producer's own structure satisfies between its calls. -/
def OwnFits (P : Params) : ProducerStatus → Producer → Prop
  | .gone, _ => True
  | .ready, p => p.tail < 2 ^ P.w

/-- The words that a call passes have the size of a cell. -/
def ProducerOp.Sized (size : ℕ) : ProducerOp Bytes K → Prop
  | push value => ∀ x ∈ value.toList, x.length = size
  | _ => True

section endpoints
variable (F : Fitting P.toConfig K u M)
include F

theorem joinOrInitializeIn_obeys {L : Type} {l : L} :
    Obeys (answers u) (Segment.Fits u M) (joinOrInitializeIn P.mode P.N P.buffer)
      (fun r l' => Lossless.TailFits P.w r ∧ l' = l) l := by
  have hword := F.range (x := .tail)
  have hcap := F.range (x := .capacity)
  have hN := P.fits
  have hpos := Nat.two_pow_pos P.w
  simp only [joinOrInitializeIn, F.mode, incrementStrongCount, Mode.backedByArcc]
  simp [Segment.Fits, Lossless.TailFits, hword, hcap, MAGIC_lt_range]
  tauto

theorem joinOrCreateShmem_obeys {L : Type} {l : L} :
    Obeys (answers u) (Segment.Fits u M) (joinOrCreateShmem P.N)
      (fun r l' => Lossless.TailFits P.w r ∧ l' = l) l := by
  have hword := F.range (x := .tail)
  have hcap := F.range (x := .capacity)
  have hN := P.fits
  have hpos := Nat.two_pow_pos P.w
  simp [joinOrCreateShmem, Segment.Fits, Lossless.TailFits, hword, hcap, MAGIC_lt_range]
  tauto

variable {p : Producer} {c : Consumer}

theorem sync_obeys (hp : p.tail < 2 ^ P.w) :
    Obeys (answers u) (Segment.Fits u M) sync (fun _ p' => p' = { p with written := 0 }) p := by
  have hword := F.range (x := .tail)
  simp [sync, Segment.Fits, hword, hp]

omit F in
theorem assignWords_obeys {i : ℕ} {xs : List Bytes} (hi : i + xs.length ≤ M.count)
    (hxs : ∀ x ∈ xs, x.length = M.size) :
    Obeys (answers u) (Segment.Fits u M) (assignWords i xs) (fun _ p' => p' = p) p := by
  induction xs generalizing i with
  | nil => exact rfl
  | cons x xs ih =>
      rw [List.length_cons] at hi
      simp only [assignWords, obeys_bind, obeys_assign, Segment.Fits]
      refine ⟨⟨by omega, hxs x (List.mem_cons_self ..)⟩, ih (by omega) ?_⟩
      exact fun x' hx' => hxs x' (List.mem_cons_of_mem _ hx')

theorem push_obeys (hp : p.tail < 2 ^ P.w) {value : Vector Bytes K}
    (hv : ∀ x ∈ value.toList, x.length = M.size) :
    Obeys (answers u) (Segment.Fits u M) (push P.w P.N value)
      (fun _ p' => p'.tail < 2 ^ P.w) p := by
  have hcells : slot P.N p.tail * K + value.toList.length ≤ M.count := by
    have h : (slot P.N p.tail + 1) * K ≤ P.N * K := Nat.mul_le_mul_right _ (slot_lt P.pow _)
    rw [Nat.add_mul, Nat.one_mul] at h
    rwa [F.count, Vector.length_toList]
  -- the sync before the write leaves the position alone
  have rest : ∀ p' : Producer, p'.tail = p.tail → Obeys (answers u) (Segment.Fits u M) (do
      let p ← self
      assignWords ((p.tail &&& moduloMask P.N) * K) value.toList
      update fun p => { p with tail := wadd P.w p.tail 1 }
      update fun p => { p with written := wadd P.w p.written 1 } : Proc Producer Bytes Unit)
      (fun _ p' => p'.tail < 2 ^ P.w) p' := by
    intro p' htail
    simp only [obeys_bind, obeys_self, and_moduloMask, htail, Segment.Fits, true_and]
    refine (assignWords_obeys hcells hv).mono fun _ l hl => ?_
    simp only [obeys_update, Segment.Fits, true_and, hl, htail]
    exact wadd_lt _ _ _
  unfold push
  simp only [obeys_bind, obeys_self, Segment.Fits, true_and]
  refine .ite (fun _ => ?_) fun _ => ?_
  · refine .bind ((sync_obeys F hp).mono fun _ p' hp' => ?_)
    have hrest := rest p' (by rw [hp'])
    simpa only [obeys_bind, obeys_self, Segment.Fits, true_and] using hrest
  · have hrest := rest p rfl
    simpa only [obeys_bind, obeys_self, Segment.Fits, true_and] using hrest

omit F in
theorem install_obeys {r : Outcome Producer} (hr : Lossless.TailFits P.w r) :
    Obeys (answers u) (Segment.Fits u M) (ProducerOp.install r)
      (fun st p' => OwnFits P st p') p := by
  cases r with
  | ok p =>
      simp only [ProducerOp.install, obeys_bind, obeys_update, obeys_pure, Segment.Fits, true_and]
      exact hr
  | err e => trivial
  | panic => trivial

/-- Every call of the producer stays inside the segment, and leaves the producer's structure fit for
the next one. -/
theorem ProducerOp.code_obeys {op : ProducerOp Bytes K} {st : ProducerStatus}
    (hen : op.enabled st = true) (hop : op.Sized M.size) (hp : OwnFits P st p) :
    Obeys (answers u) (Segment.Fits u M) (op.code P) (fun st p' => OwnFits P st p') p := by
  cases op with
  | join => exact .bind ((Lossless.joinProducer_obeys F).mono fun r _ hr => install_obeys hr.1)
  | joinOrInitializeIn =>
      exact .bind ((joinOrInitializeIn_obeys F).mono fun r _ hr => install_obeys hr.1)
  | joinOrCreateShmem =>
      exact .bind ((joinOrCreateShmem_obeys F).mono fun r _ hr => install_obeys hr.1)
  | push value =>
      cases st <;> cases hen
      exact .bind (push_obeys F hp hop)
  | sync =>
      cases st <;> cases hen
      refine .bind ((sync_obeys F hp).mono fun _ p' hp' => ?_)
      rw [hp']
      exact hp
  | beat =>
      cases st <;> cases hen
      simpa [ProducerOp.code, Headless.beat, Segment.Fits] using hp
  | consumerHeartbeat =>
      cases st <;> cases hen
      simp only [ProducerOp.code, Headless.consumerHeartbeat, obeys_bind, obeys_load, obeys_self,
        obeys_ite, obeys_update, obeys_pure, Segment.Fits, ne_eq, reduceCtorEq, not_false_eq_true,
        true_and]
      exact fun _ _ => ⟨fun _ => hp, fun _ => hp⟩
  | drop =>
      simp only [ProducerOp.code, dropEndpoint, F.mode, Mode.backedByArcc]
      trivial

omit F in
theorem readWords_obeys {i n : ℕ} (hi : i + n ≤ M.count) :
    Obeys (answers u) (Segment.Fits u M) (readWords i n : Proc Consumer Bytes _)
      (fun _ _ => True) c := by
  induction n with
  | zero => trivial
  | succ n ih =>
      refine .bind ((ih (by omega)).mono fun _ c' _ => ?_)
      simp only [obeys_bind, obeys_read, obeys_pure, Segment.Fits, implies_true, and_true]
      omega

/-- Every round of a call of a consumer stays inside the segment. -/
theorem ConsumerOp.code_obeys (op : ConsumerOp) :
    Obeys (answers u) (Segment.Fits u M) (op.code P : Proc Consumer Bytes (ConsumerResult Bytes K))
      (fun _ _ => True) c := by
  have hcells : ∀ p, slot P.N p * K + K ≤ M.count := by
    intro p
    have h : (slot P.N p + 1) * K ≤ P.N * K := Nat.mul_le_mul_right _ (slot_lt P.pow p)
    rw [Nat.add_mul, Nat.one_mul] at h
    rwa [F.count]
  cases op with
  | join index consumers =>
      simp only [ConsumerOp.code, joinMulti, F.mode, incrementStrongCount, Mode.backedByArcc]
      refine .bind (Obeys.mono (Q := fun _ _ => True) ?_ fun r c' _ => ?_)
      · simp [Segment.Fits]
      · cases r with
        | ok c₁ =>
            simp only [ConsumerOp.install, obeys_bind, obeys_update, obeys_pure, Segment.Fits,
              true_and]
        | err e => trivial
        | panic => trivial
  | pop =>
      refine .bind (Obeys.mono (Q := fun _ _ => True) ?_ fun r c' _ => by cases r <;> trivial)
      simp only [popIter, obeys_bind, obeys_load, obeys_self, obeys_ite, obeys_update, obeys_pure,
        Segment.Fits, and_moduloMask, ne_eq, reduceCtorEq, not_false_eq_true, true_and,
        implies_true]
      refine fun _ _ _ _ => (readWords_obeys (hcells _)).mono fun _ _ _ => ?_
      simp
  | beat => simp [ConsumerOp.code, beatConsumer, Segment.Fits]
  | producerHeartbeat => simp [ConsumerOp.code, Headless.producerHeartbeat, Segment.Fits]
  | drop =>
      simp only [ConsumerOp.code, dropEndpoint, F.mode, Mode.backedByArcc]
      trivial

end endpoints

end Headless

end Que
