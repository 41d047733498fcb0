import Que.Lossless.ProducerCalls

/-! # The producer's calls, run alone

What each call of the producer does when no other thread moves: its result, the channel and the
handle after it, with counters of any size.

`Channel.writeAlong cell` writes a list of values to the cells `cell 0`, `cell 1`, and so on.  The
writes of a reservation are `writeRing`, whichever calls they are made of: one by one, as a block,
or as two blocks around the end of the ring. -/

namespace Que

open Lib

variable {V : Type}

/-! ### Writing several cells -/

namespace Channel

/-- Write the values to the cells `cell 0`, `cell 1`, … in this order. -/
def writeAlong (ch : Channel V) (cell : ℕ → ℕ) : List V → Channel V
  | [] => ch
  | v :: vs => (ch.write (cell 0) v).writeAlong (fun j => cell (j + 1)) vs

/-- Write the values to the slots of the positions from `p` on. -/
def writeRing (ch : Channel V) (N p : ℕ) (vs : List V) : Channel V :=
  ch.writeAlong (fun j => slot N (p + j)) vs

@[simp] theorem writeRing_nil (ch : Channel V) (N p : ℕ) : ch.writeRing N p [] = ch := rfl

theorem writeAlong_congr {f g : ℕ → ℕ} {vs : List V} (ch : Channel V)
    (h : ∀ j, j < vs.length → f j = g j) : ch.writeAlong f vs = ch.writeAlong g vs := by
  induction vs generalizing ch f g with
  | nil => rfl
  | cons v vs ih =>
      simp only [writeAlong]
      rw [h 0 (by simp)]
      exact ih _ fun j hj => h (j + 1) (by simpa using hj)

theorem writeAlong_append (ch : Channel V) (f : ℕ → ℕ) (xs ys : List V) :
    ch.writeAlong f (xs ++ ys) =
      (ch.writeAlong f xs).writeAlong (fun j => f (xs.length + j)) ys := by
  induction xs generalizing ch f with
  | nil => simp [writeAlong]
  | cons x xs ih =>
      simp only [List.cons_append, writeAlong, ih, List.length_cons]
      congr 1
      funext j
      congr 1
      omega

theorem writeRing_append (ch : Channel V) (N p : ℕ) (xs ys : List V) :
    ch.writeRing N p (xs ++ ys) = (ch.writeRing N p xs).writeRing N (p + xs.length) ys := by
  simp only [writeRing, writeAlong_append, Nat.add_assoc]

theorem writeRing_cons (ch : Channel V) (N p : ℕ) (v : V) (vs : List V) :
    ch.writeRing N p (v :: vs) = (ch.write (slot N p) v).writeRing N (p + 1) vs := by
  rw [← List.singleton_append, writeRing_append]
  rfl

/-- The header is not touched. -/
@[simp] theorem writeAlong_get (ch : Channel V) (f : ℕ → ℕ) (vs : List V) (x : Word) :
    (ch.writeAlong f vs).get x = ch.get x := by
  induction vs generalizing ch f with
  | nil => rfl
  | cons v vs ih =>
      rw [writeAlong, ih]
      cases x <;> rfl

@[simp] theorem writeRing_get (ch : Channel V) (N p : ℕ) (vs : List V) (x : Word) :
    (ch.writeRing N p vs).get x = ch.get x := writeAlong_get _ _ _ _

/-- Other cells keep their content. -/
theorem writeAlong_of_ne {f : ℕ → ℕ} {vs : List V} {c : ℕ} (ch : Channel V)
    (h : ∀ j, j < vs.length → f j ≠ c) : (ch.writeAlong f vs).buffer c = ch.buffer c := by
  induction vs generalizing ch f with
  | nil => rfl
  | cons v vs ih =>
      rw [writeAlong, ih _ fun j hj => h (j + 1) (by simpa using hj)]
      exact Function.update_of_ne (h 0 (by simp)).symm _ _

/-- Written to distinct cells, every value is found in its cell. -/
theorem writeAlong_buffer {f : ℕ → ℕ} {vs : List V} (ch : Channel V)
    (hf : ∀ i j, i < j → j < vs.length → f j ≠ f i) {j : ℕ} {v : V} (h : vs[j]? = some v) :
    (ch.writeAlong f vs).buffer (f j) = v := by
  induction vs generalizing ch f j with
  | nil => simp at h
  | cons x xs ih =>
      rw [writeAlong]
      cases j with
      | zero =>
          have hx : x = v := by simpa using h
          rw [writeAlong_of_ne _ fun k hk => hf 0 (k + 1) (by omega) (by simpa using hk), ← hx]
          exact Function.update_self _ _ _
      | succ j =>
          exact @ih (fun j => f (j + 1)) _
            (fun a b hab hb => hf (a + 1) (b + 1) (by omega) (by simpa using hb)) j
            (by simpa using h)

theorem writeRing_buffer {N p : ℕ} (hN : isPowerOfTwo N = true) {vs : List V}
    (hlen : vs.length ≤ N) (ch : Channel V) {j : ℕ} {v : V} (h : vs[j]? = some v) :
    (ch.writeRing N p vs).buffer (slot N (p + j)) = v :=
  ch.writeAlong_buffer (fun i j hij hj => slot_ne hN (by omega) (by omega)) h

end Channel

theorem run_copyTo {L : Type} (w i : ℕ) (vs : List V) (ch : Channel V) (l : L) :
    (copyTo i vs : Proc L V Unit).run w ch l = ((), ch.writeAlong (fun j => i + j) vs, l) := by
  induction vs generalizing i ch with
  | nil => rfl
  | cons v vs ih =>
      have hcell : ∀ j, j < vs.length → i + 1 + j = i + (j + 1) := fun j _ => by omega
      simp only [copyTo, Prog.perform_bind, Proc.run_act, Act.step]
      rw [ih, Channel.writeAlong_congr _ hcell]
      rfl

end Que

namespace Que.Lossless

open Lib

variable {V : Type} {C : Config} {ch : Channel V} {h : Handle}

/-! ### The writes of a reservation -/

/-- A reservation as `reserve` and its writes leave it. -/
structure Handle.InReservation (C : Config) (h : Handle) : Prop where
  written : h.reservation.written ≤ h.reservation.count
  count : h.reservation.count ≤ C.N

/-- The position of the next write. -/
def Handle.next (h : Handle) : ℕ := h.reservation.startTail + h.reservation.written

/-- The number of values that can still be written. -/
def Handle.remaining (h : Handle) : ℕ := h.reservation.count - h.reservation.written

namespace Handle.InReservation

theorem wadd_written (hr : h.InReservation C) {n : ℕ} (hn : n ≤ h.remaining) :
    wadd C.w h.reservation.written n = h.reservation.written + n := by
  have h1 := hr.written
  have h2 := hr.count
  have h3 := C.fits
  unfold remaining at hn
  exact wadd_of_lt (by omega)

theorem wroteMore (hr : h.InReservation C) {n : ℕ} (hn : n ≤ h.remaining) :
    (h.wroteMore C.w n).InReservation C ∧ (h.wroteMore C.w n).next = h.next + n ∧
      (h.wroteMore C.w n).remaining = h.remaining - n := by
  have h1 := hr.written
  have h2 := hr.count
  have hadd := hr.wadd_written hn
  unfold remaining at hn
  refine ⟨⟨?_, hr.count⟩, ?_, ?_⟩ <;>
    simp only [Handle.wroteMore, setReservation, next, remaining, hadd] <;> omega

end Handle.InReservation

theorem Handle.wroteMore_add (hr : h.InReservation C) {m n : ℕ} (hn : m + n ≤ h.remaining) :
    (h.wroteMore C.w m).wroteMore C.w n = h.wroteMore C.w (m + n) := by
  have h1 := hr.wadd_written (show m ≤ h.remaining by omega)
  have h2 := hr.wadd_written hn
  have h3 : wadd C.w (h.reservation.written + m) n = h.reservation.written + (m + n) := by
    rw [← h2, wadd, wadd, Nat.add_assoc]
  simp only [Handle.wroteMore, setReservation, h1, h2, h3]

theorem Handle.wroteMore_zero (hr : h.InReservation C) : h.wroteMore C.w 0 = h := by
  have h1 := hr.wadd_written (Nat.zero_le h.remaining)
  simp only [Handle.wroteMore, setReservation, h1, Nat.add_zero]

theorem run_writeNext (hlt : 0 < h.remaining) (v : V) :
    (Reservation.writeNext C.w C.N v).run C.w ch h =
      (.ok (), ch.write (slot C.N h.next) v, h.wroteMore C.w 1) := by
  unfold Handle.remaining at hlt
  have hfull : ¬ h.reservation.count ≤ h.reservation.written := by omega
  simp [Reservation.writeNext, hfull, and_moduloMask, slot_wadd C.pow C.fits, Handle.next,
    Handle.wroteMore]

/-- The block copy, around the end of the ring or not. -/
theorem run_copyValues (p : ℕ) {vs : List V} (hlen : vs.length ≤ C.N) :
    (Reservation.copyValues C.w C.N (slot C.N p) vs).run C.w ch h =
      ((), ch.writeRing C.N p vs, h) := by
  have hs := slot_lt C.pow p
  rw [Reservation.copyValues_eq hs hlen]
  simp only [Proc.run_ite, Proc.run_bind, run_copyTo]
  split_ifs with hfit
  · rw [Channel.writeRing, Channel.writeAlong_congr]
    intro j hj
    rw [slot_add C.pow (by omega), if_pos (by omega)]
  · have hlen' : (vs.take (C.N - slot C.N p)).length = C.N - slot C.N p := by
      rw [List.length_take]
      omega
    have h1 : ch.writeAlong (fun j => slot C.N p + j) (vs.take (C.N - slot C.N p)) =
        ch.writeRing C.N p (vs.take (C.N - slot C.N p)) := by
      apply Channel.writeAlong_congr
      intro j hj
      rw [hlen'] at hj
      rw [slot_add C.pow (by omega), if_pos (by omega)]
    have h2 : ∀ c : Channel V, c.writeAlong (fun j => 0 + j) (vs.drop (C.N - slot C.N p)) =
        c.writeRing C.N (p + (C.N - slot C.N p)) (vs.drop (C.N - slot C.N p)) := by
      intro c
      apply Channel.writeAlong_congr
      intro j hj
      rw [List.length_drop] at hj
      rw [Nat.add_assoc, slot_add C.pow (by omega), if_neg (by omega)]
      omega
    rw [h1, h2]
    congr 2
    nth_rewrite 3 [← List.take_append_drop (C.N - slot C.N p) vs]
    rw [Channel.writeRing_append, hlen']

theorem run_writeAll (hr : h.InReservation C) {vs : List V} (hlen : vs.length ≤ h.remaining) :
    (Reservation.writeAll C.w C.N vs).run C.w ch h =
      (.ok (), ch.writeRing C.N h.next vs, h.wroteMore C.w vs.length) := by
  have h1 := hr.written
  have h2 := hr.count
  have hrem : h.reservation.remaining C.w = h.remaining :=
    wsub_of_le hr.written (h2.trans_lt C.fits)
  have hlong : ¬ h.remaining < vs.length := by omega
  unfold Reservation.writeAll
  cases vs with
  | nil => simp [Handle.wroteMore_zero hr]
  | cons v vs =>
      have hN : (v :: vs).length ≤ C.N := by
        unfold Handle.remaining at hlen
        omega
      simp only [hrem, gt_iff_lt, hlong, List.isEmpty_cons, Bool.false_eq_true, if_false,
        and_moduloMask, slot_wadd C.pow C.fits, Proc.run_bind, Proc.run_self,
        run_copyValues _ hN, Proc.run_update, Prog.pure_eq_ret, Proc.run_ret]
      rfl

/-! ### Opening and ending a reservation -/

/-- A reservation fails, or it is within the free space and is now held by the handle. -/
theorem run_reserve (C : Config) (ch : Channel V) (h : Handle) (count : ℕ) :
    (∃ e, (reserve C.w C.N count).run C.w ch h = (.err e, ch, h)) ∨
    (0 < count ∧ count ≤ C.N ∧ count ≤ wsub C.w C.N (wsub C.w h.producer.tail ch.head) ∧
      (reserve C.w C.N count).run C.w ch h =
        (.ok (), ch, h.setReservation ⟨h.producer.tail, count, 0, false⟩)) := by
  by_cases h0 : count = 0
  · left
    exact ⟨.invalidSize, by simp [reserve, h0]⟩
  by_cases hN : count > C.N
  · left
    exact ⟨.invalidSize, by simp [reserve, h0, hN]⟩
  by_cases hs : count > wsub C.w C.N (wsub C.w h.producer.tail ch.head)
  · left
    exact ⟨.full, by simp [reserve, h0, hN, Channel.get, hs]⟩
  · right
    refine ⟨by omega, by omega, by omega, ?_⟩
    simp [reserve, h0, hN, Channel.get, hs]

/-- The handle after a commit that does not sync. -/
def Handle.commit (w : ℕ) (h : Handle) : Handle where
  producer := { h.producer with
    tail := wadd w h.producer.tail h.reservation.written
    written := wadd w h.producer.written h.reservation.written }
  reservation := { h.reservation with committed := true }

theorem run_commit (C : Config) (ch : Channel V) (h : Handle) :
    (Reservation.commit C.w C.N).run C.w ch h =
      if burstAmount C.N ≤ (h.commit C.w).producer.written then
        ((), ch.set .tail (h.commit C.w).producer.tail, (h.commit C.w).setWritten 0)
      else ((), ch, h.commit C.w) := by
  by_cases hb : burstAmount C.N ≤ wadd C.w h.producer.written h.reservation.written
  · simp [Reservation.commit, sync, Handle.setReservation, Handle.setTail, Handle.setWritten,
      Handle.commit, hb]
  · simp [Reservation.commit, Handle.setReservation, Handle.setTail, Handle.setWritten,
      Handle.commit, hb]

end Que.Lossless
