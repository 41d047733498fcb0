import Que.Lossless.Sequential
import Que.Lossless.Backpressure
import Que.Lossless.Alike

/-! # Words and positions

The code of a call for the width `w`, run where the counters have wrapped, and the code of the same
call for a greater width `w'`, where they have not: there a word is a position, and the words of
the one are those of the other modulo `2 ^ w`.

`Agree` says that two codes take the same steps, whatever the loads answer, and give the same
results.  It holds of every call that moves a counter (`ProducerOp.code_agree`,
`ConsumerOp.code_agree`, `pollRest_agree`): the test for a full ring and the free space are computed
from differences, which do not depend on the width.  The test whether there is something to read
compares two words, and is left out. -/

namespace Que

open Lib

theorem Config.fits_of_le (C : Config) {w' : ℕ} (h : C.w ≤ w') : C.N < 2 ^ w' :=
  C.fits.trans_le (Nat.pow_le_pow_right Nat.two_pos h)

/-- The same channel, accessed with wider words. -/
def Config.widen (C : Config) (w' : ℕ) (h : C.w ≤ w') : Config :=
  { C with w := w', fits := C.fits_of_le h }

namespace Lib

theorem two_pow_dvd {w w' : ℕ} (h : w ≤ w') : 2 ^ w ∣ 2 ^ w' := Nat.pow_dvd_pow 2 h

/-- Wrapping sums of a word, and of the position it stands for. -/
theorem wadd_mod {w w' : ℕ} (h : w ≤ w') (a b : ℕ) :
    wadd w (a % 2 ^ w) b = wadd w' a b % 2 ^ w := by
  unfold wadd
  rw [Nat.mod_add_mod, Nat.mod_mod_of_dvd _ (two_pow_dvd h)]

/-- Wrapping differences of words, and of the positions they stand for. -/
theorem wsub_mod (w a b : ℕ) : wsub w (a % 2 ^ w) (b % 2 ^ w) = wsub w a b := by
  unfold wsub
  rw [Nat.mod_add_mod, Nat.mod_mod]

theorem slot_mod {N w : ℕ} (hN : isPowerOfTwo N = true) (hw : N < 2 ^ w) (p : ℕ) :
    slot N (p % 2 ^ w) = slot N p := by
  have := slot_wadd hN hw p 0
  rwa [wadd, Nat.add_zero] at this

/-- Positions less than `2 ^ w` apart are equal if their words are. -/
theorem mod_eq_iff {w a b : ℕ} (h : a ≤ b) (hlt : b < a + 2 ^ w) :
    a % 2 ^ w = b % 2 ^ w ↔ a = b := by
  refine ⟨fun e => ?_, fun e => by rw [e]⟩
  have hd : 2 ^ w ∣ b - a := (Nat.modEq_iff_dvd' h).mp e
  rcases Nat.eq_zero_or_pos (b - a) with h0 | h0
  · omega
  · have := Nat.le_of_dvd h0 hd
    omega

end Lib

end Que

namespace Que.Lossless

open Lib

variable {V : Type}

/-! ### Words and positions -/

/-- The header word `m` of a channel whose counters wrap, and the word `n` where they do not. -/
def SameWord (w : ℕ) (x : Word) (m n : ℕ) : Prop :=
  match x with
  | .tail | .head => m = n % 2 ^ w
  | .magic | .capacity => m = n
  | _ => True

/-- The handle `h` is `h'` with wrapped counters. -/
structure HandleWraps (w w' : ℕ) (h h' : Handle) : Prop where
  tail : h.producer.tail = h'.producer.tail % 2 ^ w
  written : h.producer.written = h'.producer.written % 2 ^ w
  startTail : h.reservation.startTail = h'.reservation.startTail % 2 ^ w
  count : h.reservation.count = h'.reservation.count
  filled : h.reservation.written = h'.reservation.written
  lt : h'.producer.tail < 2 ^ w'

/-- The consumer `c` is `c'` with wrapped counters. -/
structure CursorWraps (w : ℕ) (c c' : Consumer) : Prop where
  head : c.head = c'.head % 2 ^ w
  items : c.itemsSinceLastSync = c'.itemsSinceLastSync % 2 ^ w

/-! ### Code that agrees -/

/-- Two codes that take the same steps, where the own structures are `l` and `l'` and loads answer
as `cond` says; the own structures stay related by `rel`, the results are related by `Q`. -/
inductive Agree (w : ℕ) {L V α : Type} (rel : L → L → Prop) (cond : Word → L → ℕ → ℕ → Prop)
    (Q : α → α → L → L → Prop) : Proc L V α → Proc L V α → L → L → Prop
  | ret {x y : α} {l l' : L} : Q x y l l' → Agree w rel cond Q (.ret x) (.ret y) l l'
  | self {k k' : L → Proc L V α} {l l' : L} : Agree w rel cond Q (k l) (k' l') l l' →
      Agree w rel cond Q (.act .self k) (.act .self k') l l'
  | update {f f' : L → L} {k k' : Unit → Proc L V α} {l l' : L} : rel (f l) (f' l') →
      Agree w rel cond Q (k ()) (k' ()) (f l) (f' l') →
      Agree w rel cond Q (.act (.update f) k) (.act (.update f') k') l l'
  | load {x : Word} {k k' : ℕ → Proc L V α} {l l' : L} :
      (∀ m n, cond x l' m n → Agree w rel cond Q (k m) (k' n) l l') →
      Agree w rel cond Q (.act (.load x) k) (.act (.load x) k') l l'
  | store {x : Word} {m n : ℕ} {k k' : Unit → Proc L V α} {l l' : L} : SameWord w x m n →
      Agree w rel cond Q (k ()) (k' ()) l l' →
      Agree w rel cond Q (.act (.store x m) k) (.act (.store x n) k') l l'
  | fetchAdd {x : Word} {v : ℕ} {k k' : ℕ → Proc L V α} {l l' : L} :
      (x = .producerHeartbeat ∨ x = .consumerHeartbeat ∨ x = .strong) →
      (∀ m n, Agree w rel cond Q (k m) (k' n) l l') →
      Agree w rel cond Q (.act (.fetchAdd x v) k) (.act (.fetchAdd x v) k') l l'
  | read {i : ℕ} {k k' : V → Proc L V α} {l l' : L} :
      (∀ v, Agree w rel cond Q (k v) (k' v) l l') →
      Agree w rel cond Q (.act (.read i) k) (.act (.read i) k') l l'
  | assign {i : ℕ} {v : V} {k k' : Unit → Proc L V α} {l l' : L} :
      Agree w rel cond Q (k ()) (k' ()) l l' →
      Agree w rel cond Q (.act (.assign i v) k) (.act (.assign i v) k') l l'
  | copy {i : ℕ} {v : V} {k k' : Unit → Proc L V α} {l l' : L} :
      Agree w rel cond Q (k ()) (k' ()) l l' →
      Agree w rel cond Q (.act (.copy i v) k) (.act (.copy i v) k') l l'

namespace Agree
variable {w : ℕ} {L α β : Type} {rel : L → L → Prop} {cond : Word → L → ℕ → ℕ → Prop}
  {Q : α → α → L → L → Prop} {P : β → β → L → L → Prop} {l l' : L}

theorem bind {c c' : Proc L V β} {f f' : β → Proc L V α} (h : Agree w rel cond P c c' l l')
    (hf : ∀ x y l l', P x y l l' → Agree w rel cond Q (f x) (f' y) l l') :
    Agree w rel cond Q (c >>= f) (c' >>= f') l l' := by
  induction h with
  | ret h => exact hf _ _ _ _ h
  | self _ ih => exact .self ih
  | update hr _ ih => exact .update hr ih
  | load _ ih => exact .load ih
  | store hw _ ih => exact .store hw ih
  | fetchAdd hx _ ih => exact .fetchAdd hx ih
  | read _ ih => exact .read ih
  | assign _ ih => exact .assign ih
  | copy _ ih => exact .copy ih

theorem ite {p p' : Prop} [Decidable p] [Decidable p'] {c d c' d' : Proc L V α} (hp : p ↔ p')
    (h1 : p' → Agree w rel cond Q c c' l l') (h2 : ¬ p' → Agree w rel cond Q d d' l l') :
    Agree w rel cond Q (if p then c else d) (if p' then c' else d') l l' := by
  by_cases h : p'
  · rw [if_pos h, if_pos (hp.mpr h)]
    exact h1 h
  · rw [if_neg h, if_neg fun hc => h (hp.mp hc)]
    exact h2 h

theorem self_bind {k k' : L → Proc L V α} (h : Agree w rel cond Q (k l) (k' l') l l') :
    Agree w rel cond Q (Que.self >>= k) (Que.self >>= k') l l' := .self h

theorem load_bind {x : Word} {k k' : ℕ → Proc L V α}
    (h : ∀ m n, cond x l' m n → Agree w rel cond Q (k m) (k' n) l l') :
    Agree w rel cond Q (Que.load x >>= k) (Que.load x >>= k') l l' := .load h

theorem update_bind {f f' : L → L} {k k' : Unit → Proc L V α} (hr : rel (f l) (f' l'))
    (h : Agree w rel cond Q (k ()) (k' ()) (f l) (f' l')) :
    Agree w rel cond Q (Que.update f >>= k) (Que.update f' >>= k') l l' := .update hr h

theorem assign_bind {i i' : ℕ} {v : V} {k k' : Unit → Proc L V α} (hi : i = i')
    (h : Agree w rel cond Q (k ()) (k' ()) l l') :
    Agree w rel cond Q (Que.assign i v >>= k) (Que.assign i' v >>= k') l l' := by
  subst hi
  exact .assign h

theorem fetchAdd_bind {x : Word} {v : ℕ} {k k' : ℕ → Proc L V α}
    (hx : x = .producerHeartbeat ∨ x = .consumerHeartbeat ∨ x = .strong)
    (h : ∀ m n, Agree w rel cond Q (k m) (k' n) l l') :
    Agree w rel cond Q (Que.fetchAdd x v >>= k) (Que.fetchAdd x v >>= k') l l' := .fetchAdd hx h

theorem copyTo {i : ℕ} {vs : List V} {f f' : Unit → Proc L V α}
    (h : Agree w rel cond Q (f ()) (f' ()) l l') :
    Agree w rel cond Q (Que.copyTo i vs >>= f) (Que.copyTo i vs >>= f') l l' := by
  induction vs generalizing i with
  | nil => exact h
  | cons v vs ih => exact .copy ih

theorem incrementStrongCount {M : Mode} {f f' : Unit → Proc L V α}
    (hf : Agree w rel cond Q (f ()) (f' ()) l l') :
    Agree w rel cond Q (Que.incrementStrongCount M >>= f) (Que.incrementStrongCount M >>= f')
      l l' := by
  unfold Que.incrementStrongCount
  cases M.backedByArcc with
  | false => exact hf
  | true => exact .fetchAdd (.inr (.inr rfl)) fun _ _ => hf

end Agree

/-! ### The producer's calls -/

/-- What a load of the producer may answer: `m` with wrapped counters, `n` with positions. -/
structure ProducerLoads (C : Config) (w' : ℕ) (join : Bool) (x : Word) (h' : Handle) (m n : ℕ) :
    Prop where
  word : SameWord C.w x m n
  magic : x = .magic → n = MAGIC
  capacity : x = .capacity → n = C.N
  tail : x = .tail → n < 2 ^ w'
  head : x = .head → join = false → n ≤ h'.producer.tail ∧ h'.producer.tail ≤ n + C.N

section producer
variable {C : Config} {w' : ℕ} (hw : C.w ≤ w') {h h' : Handle} {join : Bool} {α : Type}

/-- Codes of the producer with equal results. -/
abbrev AgreeP (C : Config) (w' : ℕ) (join : Bool) (c c' : Proc Handle V α) (h h' : Handle) : Prop :=
  Agree C.w (HandleWraps C.w w') (ProducerLoads C w' join) (fun x y _ _ => x = y) c c' h h'

theorem HandleWraps.slot_tail (R : HandleWraps C.w w' h h') :
    h.producer.tail &&& moduloMask C.N = h'.producer.tail &&& moduloMask C.N := by
  rw [and_moduloMask, and_moduloMask, R.tail, slot_mod C.pow C.fits]

include hw in
theorem HandleWraps.addTail (R : HandleWraps C.w w' h h') {n n' : ℕ} (hn : n = n') :
    HandleWraps C.w w' (h.setTail (wadd C.w h.producer.tail n))
      (h'.setTail (wadd w' h'.producer.tail n')) := by
  refine ⟨?_, R.written, R.startTail, R.count, R.filled, wadd_lt _ _ _⟩
  simp only [Handle.setTail, R.tail, wadd_mod hw, hn]

include hw in
theorem HandleWraps.addWritten (R : HandleWraps C.w w' h h') {n n' : ℕ} (hn : n = n') :
    HandleWraps C.w w' (h.setWritten (wadd C.w h.producer.written n))
      (h'.setWritten (wadd w' h'.producer.written n')) := by
  refine ⟨R.tail, ?_, R.startTail, R.count, R.filled, R.lt⟩
  simp only [Handle.setWritten, R.written, wadd_mod hw, hn]

theorem push_agree (R : HandleWraps C.w w' h h') (v : V) :
    AgreeP C w' false (ProducerOp.code C (.push v)) (ProducerOp.code (C.widen w' hw) (.push v))
      h h' := by
  rw [push_code, push_code]
  refine .self (.load fun m n hc => ?_)
  obtain ⟨h1, h2⟩ := hc.head rfl rfl
  have hm : m = n % 2 ^ C.w := hc.word
  have hfits := C.fits
  have hfull : h.producer.tail = wadd C.w m C.N ↔ h'.producer.tail = wadd w' n C.N := by
    rw [eq_wadd_iff R.lt (C.fits_of_le hw) h1, R.tail, hm]
    unfold wadd
    rw [Nat.mod_add_mod]
    exact mod_eq_iff h2 (by omega)
  unfold pushRest
  refine .ite hfull (fun _ => .ret rfl) ?_
  intro _
  have R' := R.addTail hw (rfl : 1 = 1)
  exact .assign_bind R.slot_tail (.update_bind R' (.update_bind (R'.addWritten hw rfl) (.ret rfl)))

theorem sync_agree (R : HandleWraps C.w w' h h') {f f' : Unit → Proc Handle V α}
    (hf : AgreeP C w' join (f ()) (f' ()) (h.setWritten 0) (h'.setWritten 0)) :
    AgreeP C w' join (sync >>= f) (sync >>= f') h h' := by
  have R' : HandleWraps C.w w' (h.setWritten 0) (h'.setWritten 0) :=
    ⟨R.tail, rfl, R.startTail, R.count, R.filled, R.lt⟩
  exact .update R' (.self (.store R.tail hf))

theorem reserve_agree (R : HandleWraps C.w w' h h') (count : ℕ) :
    AgreeP C w' false (ProducerOp.code C (.reserve count) : Proc Handle V _)
      (ProducerOp.code (C.widen w' hw) (.reserve count)) h h' := by
  rw [reserve_code, reserve_code]
  refine .ite Iff.rfl (fun _ => .load fun m n hc => ?_) fun _ => .ret rfl
  obtain ⟨h1, h2⟩ := hc.head rfl rfl
  have hm : m = n % 2 ^ C.w := hc.word
  have hfits := C.fits
  have hused : wsub C.w h.producer.tail m = h'.producer.tail - n := by
    rw [R.tail, hm, wsub_mod, wsub_of_sub_lt h1 (by omega)]
  have hspace : wsub C.w C.N (wsub C.w h.producer.tail m) =
      wsub w' C.N (wsub w' h'.producer.tail n) := by
    rw [hused, wsub_of_le h1 R.lt, wsub_of_le (by omega) hfits,
      wsub_of_le (by omega) (C.fits_of_le hw)]
  have R' : HandleWraps C.w w' (h.setReservation ⟨h.producer.tail, count, 0, false⟩)
      (h'.setReservation ⟨h'.producer.tail, count, 0, false⟩) :=
    ⟨R.tail, R.written, R.tail, rfl, rfl, R.lt⟩
  refine .self (.ite (by rw [hspace]; rfl) (fun _ => .ret rfl) fun _ => ?_)
  exact .update_bind R' (.ret rfl)

/-! ### Writing through a reservation -/

include hw in
theorem HandleWraps.slot_next (R : HandleWraps C.w w' h h') :
    wadd C.w h.reservation.startTail h.reservation.written &&& moduloMask C.N =
      wadd w' h'.reservation.startTail h'.reservation.written &&& moduloMask C.N := by
  rw [and_moduloMask, and_moduloMask, slot_wadd C.pow C.fits, slot_wadd C.pow (C.fits_of_le hw),
    R.startTail, R.filled]
  have h1 := slot_wadd C.pow C.fits (h'.reservation.startTail % 2 ^ C.w) h'.reservation.written
  have h2 := slot_wadd C.pow C.fits h'.reservation.startTail h'.reservation.written
  rw [← h1, ← h2, wadd, wadd, Nat.mod_add_mod]

include hw in
theorem HandleWraps.wroteMore (R : HandleWraps C.w w' h h') (hr : h'.InReservation C) {n : ℕ}
    (hn : n ≤ h'.remaining) :
    HandleWraps C.w w' (h.wroteMore C.w n) (h'.wroteMore w' n) := by
  have h1 := hr.written
  have h2 := hr.count
  have h3 := C.fits
  have h4 := C.fits_of_le hw
  unfold Handle.remaining at hn
  refine ⟨R.tail, R.written, R.startTail, R.count, ?_, R.lt⟩
  simp only [Handle.wroteMore, Handle.setReservation, R.filled]
  rw [wadd_of_lt (by omega), wadd_of_lt (show h'.reservation.written + n < 2 ^ w' from ?_)]
  exact lt_of_le_of_lt (show _ ≤ C.N by omega) h4

include hw in
theorem writeNext_agree (R : HandleWraps C.w w' h h') (hr : h'.InReservation C) (v : V)
    {f f' : Outcome Unit → Proc Handle V α} {Q : α → α → Handle → Handle → Prop}
    (full : Agree C.w (HandleWraps C.w w') (ProducerLoads C w' join) Q (f .panic) (f' .panic) h h')
    (next : 0 < h'.remaining →
      Agree C.w (HandleWraps C.w w') (ProducerLoads C w' join) Q (f (.ok ())) (f' (.ok ()))
        (h.wroteMore C.w 1) (h'.wroteMore w' 1)) :
    Agree C.w (HandleWraps C.w w') (ProducerLoads C w' join) Q
      (Reservation.writeNext C.w C.N v >>= f) (Reservation.writeNext w' C.N v >>= f') h h' := by
  have hnext := R.slot_next hw
  rw [R.filled] at hnext
  unfold Reservation.writeNext
  rw [Prog.bind_assoc, Prog.bind_assoc]
  refine .self_bind ?_
  simp only [R.filled, R.count]
  split_ifs with hfull
  · exact full
  · have hrem : 0 < h'.remaining := by
      unfold Handle.remaining
      omega
    exact .assign_bind hnext (.update (R.wroteMore hw hr hrem) (next hrem))

include hw in
theorem copyValues_agree {i : ℕ} {vs : List V} (hi : i < C.N) (hlen : vs.length ≤ C.N)
    {f f' : Unit → Proc Handle V α} (hf : AgreeP C w' join (f ()) (f' ()) h h') :
    AgreeP C w' join (Reservation.copyValues C.w C.N i vs >>= f)
      (Reservation.copyValues w' C.N i vs >>= f') h h' := by
  have hwide : Reservation.copyValues w' C.N i vs = _ :=
    Reservation.copyValues_eq (C := C.widen w' hw) hi hlen
  rw [hwide, Reservation.copyValues_eq hi hlen]
  change AgreeP C w' join (ite (i + vs.length ≤ C.N) _ _ >>= f)
    (ite (i + vs.length ≤ C.N) _ _ >>= f') h h'
  split_ifs with hin
  · exact .copyTo hf
  · rw [Prog.bind_assoc, Prog.bind_assoc]
    exact .copyTo (.copyTo hf)

include hw in
theorem writeAll_agree (R : HandleWraps C.w w' h h') (hr : h'.InReservation C) (vs : List V)
    {f f' : Outcome Unit → Proc Handle V α} (same : ∀ r, AgreeP C w' join (f r) (f' r) h h')
    (next : vs.length ≤ h'.remaining → AgreeP C w' join (f (.ok ())) (f' (.ok ()))
      (h.wroteMore C.w vs.length) (h'.wroteMore w' vs.length)) :
    AgreeP C w' join (Reservation.writeAll C.w C.N vs >>= f)
      (Reservation.writeAll w' C.N vs >>= f') h h' := by
  have h1 := hr.written
  have h2 := hr.count
  have hrem : h.reservation.remaining C.w = h'.remaining := by
    rw [Reservation.remaining, R.count, R.filled, wsub_of_le h1 (h2.trans_lt C.fits)]
    rfl
  have hrem' : h'.reservation.remaining w' = h'.remaining :=
    wsub_of_le h1 (h2.trans_lt (C.fits_of_le hw))
  have hslot : wadd w' h'.reservation.startTail h'.reservation.written &&& moduloMask C.N < C.N :=
    slot_lt C.pow _
  unfold Reservation.writeAll
  rw [Prog.bind_assoc, Prog.bind_assoc]
  refine .self_bind ?_
  simp only [hrem, hrem', R.slot_next hw]
  split_ifs with hlong hnil
  · exact same _
  · exact same _
  · have hfit : vs.length ≤ h'.remaining := by omega
    have hN : vs.length ≤ C.N := by
      unfold Handle.remaining at hfit
      omega
    simp only [Prog.bind_assoc]
    apply copyValues_agree hw hslot hN
    exact .update (R.wroteMore hw hr hfit) (next hfit)

/-- What the loop of `write_iter` keeps. -/
structure Filling (C : Config) (w' start : ℕ) (h h' : Handle) : Prop where
  wraps : HandleWraps C.w w' h h'
  inReservation : h'.InReservation C
  start_le : start ≤ h'.reservation.written

include hw in
theorem Filling.more {start : ℕ} (F : Filling C w' start h h') (hrem : 0 < h'.remaining) :
    Filling C w' start (h.wroteMore C.w 1) (h'.wroteMore w' 1) := by
  have hr := F.inReservation
  have hr' : h'.InReservation (C.widen w' hw) := ⟨hr.written, hr.count⟩
  obtain ⟨h1, _, _⟩ := hr'.wroteMore hrem
  refine ⟨F.wraps.wroteMore hw hr hrem, ⟨h1.written, h1.count⟩, F.start_le.trans ?_⟩
  have hadd : wadd w' h'.reservation.written 1 = h'.reservation.written + 1 := hr'.wadd_written hrem
  simp only [Handle.wroteMore, Handle.setReservation, hadd]
  omega

include hw in
theorem writeIterLoop_agree {start : ℕ} (F : Filling C w' start h h') (items : ℕ → Option V)
    (fuel i : ℕ) :
    Agree C.w (HandleWraps C.w w') (ProducerLoads C w' join)
      (fun x y l l' => x = y ∧ Filling C w' start l l')
      (Reservation.writeIterLoop C.w C.N items fuel i)
      (Reservation.writeIterLoop w' C.N items fuel i) h h' := by
  induction fuel generalizing i h h' with
  | zero => exact .ret ⟨rfl, F⟩
  | succ fuel ih =>
      unfold Reservation.writeIterLoop
      cases items i with
      | none => exact .ret ⟨rfl, F⟩
      | some v =>
          refine .self_bind ?_
          simp only [F.wraps.filled, F.wraps.count]
          split_ifs with hfull
          · exact .ret ⟨rfl, F⟩
          · exact writeNext_agree hw F.wraps F.inReservation v (ih F _) fun hrem =>
              ih (F.more hw hrem) _

include hw in
theorem writeIter_agree (R : HandleWraps C.w w' h h') (hr : h'.InReservation C)
    (items : ℕ → Option V) (i : ℕ) {f f' : ℕ × ℕ → Proc Handle V α}
    (next : ∀ r l l', AgreeP C w' join (f r) (f' r) l l') :
    AgreeP C w' join (Reservation.writeIter C.w C.N items i >>= f)
      (Reservation.writeIter w' C.N items i >>= f') h h' := by
  unfold Reservation.writeIter
  rw [Prog.bind_assoc, Prog.bind_assoc]
  refine .self_bind ?_
  rw [Prog.bind_assoc, Prog.bind_assoc, R.filled, R.count]
  refine .bind (writeIterLoop_agree hw ⟨R, hr, le_rfl⟩ items _ i) ?_
  rintro j j' l l' ⟨rfl, F⟩
  refine .self_bind ?_
  have hlt : l'.reservation.written < 2 ^ C.w :=
    (F.inReservation.written.trans F.inReservation.count).trans_lt C.fits
  have hpow : 2 ^ C.w ≤ 2 ^ w' := Nat.pow_le_pow_right Nat.two_pos hw
  rw [F.wraps.filled, wsub_of_le F.start_le hlt, wsub_of_le F.start_le (hlt.trans_le hpow)]
  exact next _ l l'

/-! ### Committing -/

theorem commitSync_agree (R : HandleWraps C.w w' h h')
    (hwritten : h.producer.written = h'.producer.written)
    {f f' : Unit → Proc Handle V α} (next : ∀ l l', AgreeP C w' join (f ()) (f' ()) l l') :
    AgreeP C w' join ((if h.producer.written ≥ burstAmount C.N then sync else pure ()) >>= f)
      ((if h'.producer.written ≥ burstAmount C.N then sync else pure ()) >>= f') h h' := by
  rw [hwritten]
  split_ifs
  · exact sync_agree R (next _ _)
  · exact next _ _

include hw in
theorem commit_agree (R : HandleWraps C.w w' h h')
    (hlt : h'.producer.written + h'.reservation.written < 2 ^ C.w)
    {f f' : Unit → Proc Handle V α} (next : ∀ l l', AgreeP C w' join (f ()) (f' ()) l l') :
    AgreeP C w' join (Reservation.commit C.w C.N >>= f) (Reservation.commit w' C.N >>= f')
      h h' := by
  have R₁ : HandleWraps C.w w'
      (h.setReservation { h.reservation with committed := true })
      (h'.setReservation { h'.reservation with committed := true }) :=
    ⟨R.tail, R.written, R.startTail, R.count, R.filled, R.lt⟩
  have R₂ := R₁.addTail hw R.filled
  have R₃ := R₂.addWritten hw R.filled
  have hpow : 2 ^ C.w ≤ 2 ^ w' := Nat.pow_le_pow_right Nat.two_pos hw
  have hburst : wadd C.w h.producer.written h.reservation.written =
      wadd w' h'.producer.written h'.reservation.written := by
    rw [R.written, R.filled, wadd_mod hw, wadd_of_lt (hlt.trans_le hpow), Nat.mod_eq_of_lt hlt]
  unfold Reservation.commit
  simp only [Prog.bind_assoc]
  refine .update_bind R₁ (.update_bind R₂ (.update_bind R₃ (.self_bind ?_)))
  exact commitSync_agree R₃ hburst next


/-! ### Joining -/

/-- The end of every constructor that joins an existing channel. -/
theorem readTail_agree (R : HandleWraps C.w w' h h') :
    AgreeP C w' join
      ((do
        let tail ← load .tail
        let lastConsumerHeartbeat ← load .consumerHeartbeat
        return .ok ⟨tail, 0, lastConsumerHeartbeat⟩) >>= ProducerOp.install (V := V))
      ((do
        let tail ← load .tail
        let lastConsumerHeartbeat ← load .consumerHeartbeat
        return .ok ⟨tail, 0, lastConsumerHeartbeat⟩) >>= ProducerOp.install) h h' := by
  refine .load fun m n hc => .load fun m' n' _ => .update ?_ (.ret rfl)
  exact ⟨hc.word, rfl, R.startTail, R.count, R.filled, hc.tail rfl⟩

theorem join_agree (R : HandleWraps C.w w' h h') {op : ProducerOp V} (hop : op.isJoin = true) :
    AgreeP C w' true (op.code C) (op.code (C.widen w' hw)) h h' := by
  have hsame : op.code (C.widen w' hw) = op.code C := by
    cases op <;> first | rfl | cases hop
  have hvalid : ¬ validBuffer C.N C.buffer = false := by simp [C.valid]
  rw [hsame]
  cases op with
  | join =>
      simp only [ProducerOp.code, joinProducer, if_neg hvalid, Prog.bind_assoc]
      refine .load_bind fun m n hm => .load_bind ?_
      intro m' n' hc
      obtain rfl : m = n := hm.word
      obtain rfl : m' = n' := hc.word
      rw [if_pos (hm.magic rfl), if_neg (not_not.mpr (hc.capacity rfl)), Prog.bind_assoc]
      exact .incrementStrongCount (readTail_agree R)
  | joinOrInitializeIn =>
      simp only [ProducerOp.code, joinOrInitializeIn, if_neg hvalid, Prog.bind_assoc]
      refine .load_bind fun m n hm => .load_bind ?_
      intro m' n' hc
      obtain rfl : m = n := hm.word
      obtain rfl : m' = n' := hc.word
      rw [if_pos (hm.magic rfl), if_neg (not_not.mpr (hc.capacity rfl)), Prog.bind_assoc]
      refine .fetchAdd_bind (.inl rfl) ?_
      intro _ _
      rw [Prog.bind_assoc]
      exact .incrementStrongCount (readTail_agree R)
  | joinOrCreateShmem =>
      simp only [ProducerOp.code, joinOrCreateShmem, Prog.bind_assoc]
      refine .load_bind fun m n hm => .load_bind ?_
      intro m' n' hc
      obtain rfl : m = n := hm.word
      obtain rfl : m' = n' := hc.word
      rw [if_pos (hm.magic rfl), if_neg (not_not.mpr (hc.capacity rfl))]
      exact readTail_agree R
  | _ => cases hop

/-- The calls that leave the counters alone. -/
def ProducerOp.apart : ProducerOp V → Bool
  | beat | consumerHeartbeat | drop => true
  | _ => false

/-- What a call on a reservation needs to know of the handle. -/
structure Reserved (C : Config) (h' : Handle) : Prop where
  inReservation : h'.InReservation C
  lt : h'.producer.written + h'.reservation.written < 2 ^ C.w

/-- **Every call of the producer that moves a counter** takes the same steps with wrapped words as
with positions. -/
theorem ProducerOp.code_agree (op : ProducerOp V) (R : HandleWraps C.w w' h h')
    (hr : op.onReservation = true → Reserved C h') (hop : op.apart = false) :
    AgreeP C w' op.isJoin (op.code C) (op.code (C.widen w' hw)) h h' := by
  cases op with
  | join => exact join_agree hw R rfl
  | joinOrInitializeIn => exact join_agree hw R rfl
  | joinOrCreateShmem => exact join_agree hw R rfl
  | push v => exact push_agree hw R v
  | sync => exact sync_agree R (.ret rfl)
  | reserve count => exact reserve_agree hw R count
  | writeNext v =>
      exact writeNext_agree hw R (hr rfl).inReservation v (.ret rfl) fun _ => .ret rfl
  | writeAll vs =>
      refine writeAll_agree hw R (hr rfl).inReservation vs (fun r => ?_) fun _ => .ret rfl
      cases r <;> exact .ret rfl
  | writeIter items i =>
      exact writeIter_agree hw R (hr rfl).inReservation items i fun _ _ _ => .ret rfl
  | commit => exact commit_agree hw R (hr rfl).lt fun _ _ => .ret rfl
  | cancel => exact .ret rfl
  | beat => cases hop
  | consumerHeartbeat => cases hop
  | drop => cases hop

end producer

/-! ### The consumer's calls -/

/-- What a load of the consumer may answer. -/
structure ConsumerLoads (C : Config) (x : Word) (m n : ℕ) : Prop where
  word : SameWord C.w x m n
  magic : x = .magic → n = MAGIC
  capacity : x = .capacity → n = C.N

section consumer
variable {C : Config} {w' : ℕ} (hw : C.w ≤ w') {c c' : Consumer} {α : Type}

/-- Codes of the consumer with equal results. -/
abbrev AgreeC (C : Config) (d d' : Proc Consumer V α) (c c' : Consumer) : Prop :=
  Agree C.w (CursorWraps C.w) (fun x _ m n => ConsumerLoads C x m n) (fun x y _ _ => x = y)
    d d' c c'

theorem maybeSync_agree (R : CursorWraps C.w c c') (hlt : c'.itemsSinceLastSync < 2 ^ C.w)
    {f f' : Unit → Proc Consumer V α} (next : ∀ l l', AgreeC C (f ()) (f' ()) l l') :
    AgreeC C (maybeSync C.N >>= f) (maybeSync C.N >>= f') c c' := by
  have hitems : c.itemsSinceLastSync = c'.itemsSinceLastSync := by
    rw [R.items, Nat.mod_eq_of_lt hlt]
  unfold maybeSync
  rw [Prog.bind_assoc, Prog.bind_assoc]
  refine .self_bind ?_
  simp only [hitems]
  split_ifs
  · exact .update ⟨R.head, rfl⟩ (.self (.store R.head (next _ _)))
  · exact next _ _

include hw in
/-- Counting one element: the end of `pop` and of the drop of an `Element`. -/
theorem advance_agree (R : CursorWraps C.w c c') (hlt : c'.itemsSinceLastSync + 1 < 2 ^ C.w)
    {f f' : Unit → Proc Consumer V α} (next : ∀ l l', AgreeC C (f ()) (f' ()) l l') :
    AgreeC C
      (Element.drop C.w C.N >>= f) (Element.drop w' C.N >>= f') c c' := by
  have hpow : 2 ^ C.w ≤ 2 ^ w' := Nat.pow_le_pow_right Nat.two_pos hw
  have R₁ : CursorWraps C.w { c with head := wadd C.w c.head 1 }
      { c' with head := wadd w' c'.head 1 } :=
    ⟨by simp only [R.head, wadd_mod hw], R.items⟩
  have R₂ : CursorWraps C.w
      { c with head := wadd C.w c.head 1, itemsSinceLastSync := wadd C.w c.itemsSinceLastSync 1 }
      { c' with head := wadd w' c'.head 1
                itemsSinceLastSync := wadd w' c'.itemsSinceLastSync 1 } :=
    ⟨R₁.head, by simp only [R.items, wadd_mod hw]⟩
  unfold Element.drop
  simp only [Prog.bind_assoc]
  refine .update_bind R₁ (.update_bind R₂ (maybeSync_agree R₂ ?_ next))
  rw [wadd_of_lt (hlt.trans_le hpow)]
  exact hlt

/-- The calls that ask whether there is something to read. -/
def ConsumerOp.polls : ConsumerOp V → Bool
  | pop | popZerocopy => true
  | _ => false

/-- The calls that leave the counters alone. -/
def ConsumerOp.apart : ConsumerOp V → Bool
  | beat | producerHeartbeat | drop => true
  | _ => false

/-- The code of such a call after the load of the tail. -/
def pollRest (C : Config) (op : ConsumerOp V) (c : Consumer) (tail : ℕ) :
    Proc Consumer V (ConsumerStatus × Option V) :=
  if tail ≤ c.head then
    return (.ready, none)
  else
    match op with
    | .pop => do
        let value ← read (c.head &&& moduloMask C.N)
        Element.drop C.w C.N
        return (.ready, some value)
    | _ => return (.element (c.head &&& moduloMask C.N), none)

theorem poll_code {op : ConsumerOp V} (hop : op.polls = true) (st : ConsumerStatus) :
    op.code C st = .act .self fun c => .act (.load .tail) (pollRest C op c) := by
  cases op with
  | pop =>
      simp only [ConsumerOp.code, Lossless.pop, self, load, Prog.perform_bind]
      refine congrArg (Prog.act Act.self) (funext fun c => ?_)
      refine congrArg (Prog.act (Act.load .tail)) (funext fun tail => ?_)
      by_cases hc : tail ≤ c.head
      · simp only [pollRest, hc, if_true]
        rfl
      · simp only [pollRest, hc, if_false, Element.drop, Prog.bind_assoc]
        apply (Prog.bind_assoc _ _ _).trans
        simp only [Prog.bind_assoc]
        rfl
  | popZerocopy =>
      simp only [ConsumerOp.code, Lossless.popZerocopy, self, load, Prog.perform_bind]
      refine congrArg (Prog.act Act.self) (funext fun c => ?_)
      refine congrArg (Prog.act (Act.load .tail)) (funext fun tail => ?_)
      by_cases hc : tail ≤ c.head
      · simp only [pollRest, hc, if_true]
        rfl
      · simp only [pollRest, hc, if_false]
        rfl
  | _ => cases hop

theorem CursorWraps.slot_head (R : CursorWraps C.w c c') :
    c.head &&& moduloMask C.N = c'.head &&& moduloMask C.N := by
  rw [and_moduloMask, and_moduloMask, R.head, slot_mod C.pow C.fits]

theorem pollRest_agree (R : CursorWraps C.w c c') (hlt : c'.itemsSinceLastSync + 1 < 2 ^ C.w)
    {op : ConsumerOp V} {m n : ℕ} (hm : ¬ m ≤ c.head) (hn : ¬ n ≤ c'.head) :
    AgreeC C (pollRest C op c m) (pollRest (C.widen w' hw) op c' n) c c' := by
  unfold pollRest
  rw [if_neg hm, if_neg hn]
  split
  · rw [R.slot_head]
    exact .read fun v => advance_agree hw R hlt fun _ _ => .ret rfl
  · rw [R.slot_head]
    exact .ret rfl

/-- **The other calls of the consumer that move a counter** take the same steps. -/
theorem ConsumerOp.code_agree (op : ConsumerOp V) (st : ConsumerStatus) (R : CursorWraps C.w c c')
    (hlt : op = .elementDrop → c'.itemsSinceLastSync + 1 < 2 ^ C.w) (hop : op.apart = false)
    (hpoll : op.polls = false) :
    AgreeC C (op.code C st) (op.code (C.widen w' hw) st) c c' := by
  cases op with
  | join =>
      have hsame : (ConsumerOp.join : ConsumerOp V).code (C.widen w' hw) st =
          ConsumerOp.join.code C st := rfl
      have hvalid : ¬ validBuffer C.N C.buffer = false := by simp [C.valid]
      rw [hsame]
      simp only [ConsumerOp.code, joinConsumer, if_neg hvalid, Prog.bind_assoc]
      refine .load_bind fun m n hm => .load_bind ?_
      intro m' n' hc
      obtain rfl : m = n := hm.word
      obtain rfl : m' = n' := hc.word
      rw [if_pos (hm.magic rfl), if_neg (not_not.mpr (hc.capacity rfl))]
      simp only [Prog.bind_assoc]
      refine .load_bind fun t t' ht => .store ht.word (.incrementStrongCount ?_)
      exact .load_bind fun _ _ _ => .update ⟨ht.word, rfl⟩ (.ret rfl)
  | elementWrite v => exact .assign (.ret rfl)
  | elementDrop => exact advance_agree hw R (hlt rfl) fun _ _ => .ret rfl
  | pop => cases hpoll
  | popZerocopy => cases hpoll
  | beat => cases hop
  | producerHeartbeat => cases hop
  | drop => cases hop

end consumer

end Que.Lossless
