import Que.Lossless.Sequential

/-! # Feeding an iterator into reservations

`write_iter` takes an item from the iterator before it checks that there is space for it.  The item
for which there is none is gone: it is in no slot, and the iterator continues behind it.  Nothing
is lost exactly when the iterator ends within the space that is left (`writeIter_lossless_iff`).

The items of an iterator are a function `items`, with `none` at the end if there is one, and the
iterator is a position in it. -/

namespace Que.Lossless

open Lib

variable {V : Type} {C : Config} {ch : Channel V} {h : Handle}

/-! ### One call -/

/-- The next items of an iterator at position `i`, at most `r` of them. -/
def upcoming (items : ℕ → Option V) (i : ℕ) : ℕ → List V
  | 0 => []
  | r + 1 =>
      match items i with
      | none => []
      | some v => v :: upcoming items (i + 1) r

theorem length_upcoming_le (items : ℕ → Option V) (i r : ℕ) :
    (upcoming items i r).length ≤ r := by
  induction r generalizing i with
  | zero => simp [upcoming]
  | succ r ih =>
      unfold upcoming
      cases items i with
      | none => simp
      | some v => simpa using ih (i + 1)

theorem upcoming_of_none {items : ℕ → Option V} {i : ℕ} (hi : items i = none) (r : ℕ) :
    upcoming items i r = [] := by
  cases r with
  | zero => rfl
  | succ r => simp [upcoming, hi]

theorem upcoming_of_some {items : ℕ → Option V} {i : ℕ} {v : V} (hi : items i = some v) (r : ℕ) :
    upcoming items i (r + 1) = v :: upcoming items (i + 1) r := by
  simp [upcoming, hi]

theorem upcoming_length (items : ℕ → Option V) (i r : ℕ) :
    upcoming items i (upcoming items i r).length = upcoming items i r := by
  induction r generalizing i with
  | zero => rfl
  | succ r ih =>
      cases hi : items i with
      | none => rw [upcoming_of_none hi, upcoming_of_none hi]
      | some v => rw [upcoming_of_some hi, List.length_cons, upcoming_of_some hi, ih]

/-- The loop writes the next items and stops behind the item that it could not write. -/
theorem run_writeIterLoop (items : ℕ → Option V) (hr : h.InReservation C) {fuel i : ℕ}
    (hfuel : h.remaining < fuel) :
    (Reservation.writeIterLoop C.w C.N items fuel i).run C.w ch h =
      (i + (upcoming items i (h.remaining + 1)).length,
        ch.writeRing C.N h.next (upcoming items i h.remaining),
        h.wroteMore C.w (upcoming items i h.remaining).length) := by
  induction fuel generalizing i ch h with
  | zero => omega
  | succ fuel ih =>
      unfold Reservation.writeIterLoop
      cases hi : items i with
      | none =>
          simp [upcoming_of_none hi, Handle.wroteMore_zero hr]
      | some v =>
          rcases Nat.eq_zero_or_pos h.remaining with hz | hpos
          · have hfull : h.reservation.written ≥ h.reservation.count := by
              unfold Handle.remaining at hz
              omega
            simp [hz, hi, hfull, upcoming, Handle.wroteMore_zero hr]
          · have hfull : ¬ h.reservation.written ≥ h.reservation.count := by
              unfold Handle.remaining at hpos
              omega
            obtain ⟨hr', hnext, hrem⟩ := hr.wroteMore (n := 1) hpos
            obtain ⟨k, hk⟩ : ∃ k, h.remaining = k + 1 := ⟨h.remaining - 1, by omega⟩
            have hlen := length_upcoming_le items (i + 1) k
            simp only [Proc.run_bind, Proc.run_self, hfull, if_false,
              run_writeNext hpos, ih hr' (by omega), hnext, hrem, hk, Nat.add_sub_cancel,
              upcoming_of_some hi, List.length_cons, Channel.writeRing_cons]
            rw [Handle.wroteMore_add hr (by omega)]
            refine Prod.ext ?_ (Prod.ext rfl ?_)
            · simp only
              omega
            · simp only
              rw [Nat.add_comm]

theorem run_writeIter (items : ℕ → Option V) (hr : h.InReservation C) (i : ℕ) :
    (Reservation.writeIter C.w C.N items i).run C.w ch h =
      (((upcoming items i h.remaining).length,
          i + (upcoming items i (h.remaining + 1)).length),
        ch.writeRing C.N h.next (upcoming items i h.remaining),
        h.wroteMore C.w (upcoming items i h.remaining).length) := by
  have h1 := hr.written
  have h2 := hr.count
  have h3 := C.fits
  have hlen := length_upcoming_le items i h.remaining
  have hfuel : h.remaining < h.reservation.count + 1 := by
    unfold Handle.remaining
    omega
  have hn : wsub C.w (h.wroteMore C.w (upcoming items i h.remaining).length).reservation.written
      h.reservation.written = (upcoming items i h.remaining).length := by
    simp only [Handle.wroteMore, Handle.setReservation, hr.wadd_written hlen]
    unfold Handle.remaining at hlen ⊢
    rw [wsub_of_le (by omega) (by omega)]
    omega
  simp only [Reservation.writeIter, Proc.run_bind, Proc.run_self, run_writeIterLoop items hr hfuel,
    Prog.pure_eq_ret, Proc.run_ret, hn]

/-- The iterator ends within the next `r` items. -/
def EndsWithin (items : ℕ → Option V) (i r : ℕ) : Prop := ∃ k, k ≤ r ∧ items (i + k) = none

/-- An iterator that ends within `r` items does not have another one. -/
theorem EndsWithin.upcoming_eq {items : ℕ → Option V} {i r : ℕ} (h : EndsWithin items i r) :
    upcoming items i (r + 1) = upcoming items i r ∧
      items (i + (upcoming items i r).length) = none := by
  obtain ⟨k, hk, hnone⟩ := h
  induction r generalizing i k with
  | zero =>
      obtain rfl : k = 0 := by omega
      rw [Nat.add_zero] at hnone
      exact ⟨upcoming_of_none hnone _, hnone⟩
  | succ r ih =>
      cases hi : items i with
      | none =>
          rw [upcoming_of_none hi, upcoming_of_none hi]
          exact ⟨rfl, hi⟩
      | some v =>
          rw [upcoming_of_some hi, upcoming_of_some hi]
          cases k with
          | zero => rw [Nat.add_zero, hi] at hnone; cases hnone
          | succ k =>
              obtain ⟨h1, h2⟩ := @ih (i + 1) k (by omega) (by rw [← hnone]; congr 1; omega)
              rw [h1]
              refine ⟨rfl, ?_⟩
              rw [← h2, List.length_cons]
              congr 1
              omega

theorem endsWithin_of_length_le {items : ℕ → Option V} {i r : ℕ}
    (h : (upcoming items i (r + 1)).length ≤ r) : EndsWithin items i r := by
  induction r generalizing i with
  | zero =>
      refine ⟨0, le_rfl, ?_⟩
      cases hi : items i with
      | none => rfl
      | some v => simp [upcoming_of_some hi] at h
  | succ r ih =>
      cases hi : items i with
      | none => exact ⟨0, by omega, hi⟩
      | some v =>
          rw [upcoming_of_some hi, List.length_cons] at h
          obtain ⟨k, hk, hnone⟩ := @ih (i + 1) (by omega)
          exact ⟨k + 1, by omega, by rw [← hnone]; congr 1; omega⟩

/-- What a call of `write_iter` should do: as many items as there are and as fit are written, they
are in the next slots in order, and the iterator continues behind the last one. -/
def LosesNothing (C : Config) (items : ℕ → Option V) (i : ℕ) (ch : Channel V) (h : Handle) :
    Prop :=
  let r := (Reservation.writeIter C.w C.N items i).run C.w ch h
  r.1.1 = (upcoming items i h.remaining).length ∧
  (∀ k v, (upcoming items i h.remaining)[k]? = some v →
    r.2.1.buffer (slot C.N (h.next + k)) = v) ∧
  r.1.2 = i + r.1.1

theorem losesNothing_iff (items : ℕ → Option V) (hr : h.InReservation C) (i : ℕ) :
    LosesNothing C items i ch h ↔ EndsWithin items i h.remaining := by
  have hlen := length_upcoming_le items i h.remaining
  have hN : (upcoming items i h.remaining).length ≤ C.N := by
    have := hr.count
    unfold Handle.remaining at hlen ⊢
    omega
  unfold LosesNothing
  rw [run_writeIter items hr]
  constructor
  · rintro ⟨_, _, e⟩
    simp only at e
    exact endsWithin_of_length_le (by omega)
  · intro hend
    refine ⟨rfl, fun k v hv => ?_, ?_⟩
    · exact Channel.writeRing_buffer C.pow hN ch hv
    · simp only [hend.upcoming_eq.1]

/-! ### A series of reservations -/

/-- Feed the open reservation and commit it. -/
def feedOpen (w N : ℕ) (items : ℕ → Option V) (i : ℕ) : Proc Handle V (ℕ × ℕ) := do
  let r ← Reservation.writeIter w N items i
  Reservation.commit w N
  return r

/-- A further reservation of `count` slots that is fed and committed; if it fails, nothing is
drawn. -/
def feedNext (w N : ℕ) (items : ℕ → Option V) (count i : ℕ) : Proc Handle V (ℕ × ℕ) := do
  match ← reserve w N count with
  | .ok () => feedOpen w N items i
  | _ => return (0, i)

/-- What a series of reservations has done: the values committed, the position of the iterator
and the published tail. -/
structure Fed (V : Type) where
  values : List V
  position : ℕ
  tail : ℕ

/-- The values in the `n` slots from position `p` on. -/
def ringValues (N : ℕ) (ch : Channel V) (p n : ℕ) : List V :=
  (List.range n).map fun k => ch.buffer (slot N (p + k))

/-- Further reservations, given by the head that the consumer has reached and the number of slots;
at the end everything is synced.  The values of a reservation are read from the ring after its
commit. -/
def feedAll (C : Config) (items : ℕ → Option V) :
    List (ℕ × ℕ) → ℕ → Channel V → Handle → Fed V
  | [], i, ch, h => ⟨[], i, ((sync : Proc Handle V Unit).run C.w ch h).2.1.tail⟩
  | (head, count) :: rounds, i, ch, h =>
      let r := (feedNext C.w C.N items count i).run C.w (ch.set .head head) h
      let rest := feedAll C items rounds r.1.2 r.2.1 r.2.2
      { rest with values := ringValues C.N r.2.1 h.producer.tail r.1.1 ++ rest.values }

/-- Feed the open reservation and go on with the further ones. -/
def feed (C : Config) (items : ℕ → Option V) (rounds : List (ℕ × ℕ)) (i : ℕ) (ch : Channel V)
    (h : Handle) : Fed V :=
  let r := (feedOpen C.w C.N items i).run C.w ch h
  let rest := feedAll C items rounds r.1.2 r.2.1 r.2.2
  { rest with values := ringValues C.N r.2.1 h.next r.1.1 ++ rest.values }

/-- What a series of reservations should do: the values committed are the items of the iterator,
in order and without a gap, the iterator continues behind the last of them, and in the end all of
them are published. -/
def SeriesLosesNothing (C : Config) (items : ℕ → Option V) (i : ℕ) (ch : Channel V) (h : Handle) :
    Prop :=
  ∀ rounds,
    let r := feed C items rounds i ch h
    r.values = upcoming items i r.values.length ∧ r.position = i + r.values.length ∧
    r.tail = (h.next + r.values.length) % 2 ^ C.w

@[simp] theorem length_ringValues (N : ℕ) (ch : Channel V) (p n : ℕ) :
    (ringValues N ch p n).length = n := by
  simp [ringValues]

theorem getElem?_ringValues (N : ℕ) (ch : Channel V) {p n i : ℕ} (hi : i < n) :
    (ringValues N ch p n)[i]? = some (ch.buffer (slot N (p + i))) := by
  unfold ringValues
  rw [List.getElem?_map, List.getElem?_range hi, Option.map_some]

theorem ringValues_add (N : ℕ) (ch : Channel V) (p m n : ℕ) :
    ringValues N ch p (m + n) = ringValues N ch p m ++ ringValues N ch (p + m) n := by
  unfold ringValues
  rw [List.range_add, List.map_append, List.map_map]
  simp only [Function.comp_def, Nat.add_assoc]

theorem ringValues_writeRing {p : ℕ} {vs : List V} (hlen : vs.length ≤ C.N) (ch : Channel V) :
    ringValues C.N (ch.writeRing C.N p vs) p vs.length = vs := by
  apply List.ext_getElem?
  intro k
  unfold ringValues
  rcases Nat.lt_or_ge k vs.length with hk | hk
  · rw [List.getElem?_map, List.getElem?_range hk, List.getElem?_eq_getElem hk]
    exact congrArg some (Channel.writeRing_buffer C.pow hlen ch (List.getElem?_eq_getElem hk))
  · rw [List.getElem?_eq_none (by simpa using hk), List.getElem?_eq_none hk]

theorem run_feedOpen (ch : Channel V) (items : ℕ → Option V) (hr : h.InReservation C) (i : ℕ) :
    ∃ ch' h', (feedOpen C.w C.N items i).run C.w ch h =
        (((upcoming items i h.remaining).length,
          i + (upcoming items i (h.remaining + 1)).length), ch', h') ∧
      ch'.buffer = (ch.writeRing C.N h.next (upcoming items i h.remaining)).buffer ∧
      h'.producer.tail = wadd C.w h.producer.tail
        (h.reservation.written + (upcoming items i h.remaining).length) := by
  have hlen := length_upcoming_le items i h.remaining
  simp only [feedOpen, Proc.run_bind, run_writeIter items hr, run_commit, Prog.pure_eq_ret,
    Proc.run_ret]
  rw [← hr.wadd_written hlen]
  split_ifs with hb
  · exact ⟨_, _, rfl, rfl, rfl⟩
  · exact ⟨_, _, rfl, rfl, rfl⟩

/-- Once the iterator has ended, further reservations draw and commit nothing. -/
theorem feedAll_of_none {items : ℕ → Option V} {i : ℕ} (hi : items i = none)
    (rounds : List (ℕ × ℕ)) (hlt : h.producer.tail < 2 ^ C.w) :
    feedAll C items rounds i ch h = ⟨[], i, h.producer.tail⟩ := by
  induction rounds generalizing ch h with
  | nil => rfl
  | cons round rounds ih =>
      obtain ⟨head, count⟩ := round
      rcases run_reserve C (ch.set .head head) h count with ⟨e, he⟩ | ⟨_, hN, _, hok⟩
      · simp [feedAll, feedNext, he, ih hlt, ringValues]
      · have hr : (h.setReservation ⟨h.producer.tail, count, 0, false⟩).InReservation C :=
          ⟨Nat.zero_le _, hN⟩
        obtain ⟨ch', h', hrun, _, htail⟩ := run_feedOpen (ch.set .head head) items hr i
        rw [upcoming_of_none hi] at htail
        have hsame : h'.producer.tail = h.producer.tail :=
          htail.trans (Nat.mod_eq_of_lt hlt)
        simp [feedAll, feedNext, hok, hrun, upcoming_of_none hi, ringValues,
          ih (hsame ▸ hlt), hsame]

/-- **When `write_iter` loses nothing.**  For every open reservation and every iterator: the items
written are the next ones, the iterator continues behind the last of them, and a series of
reservations publishes all items in order without a gap, exactly if the iterator ends within the
space that is left in the reservation. -/
theorem writeIter_lossless_iff (C : Config) (items : ℕ → Option V) (i : ℕ) (ch : Channel V)
    {h : Handle} (hr : h.InReservation C) (hstart : h.reservation.startTail = h.producer.tail) :
    LosesNothing C items i ch h ∧ SeriesLosesNothing C items i ch h ↔
      EndsWithin items i h.remaining := by
  refine ⟨fun hlaw => (losesNothing_iff items hr i).mp hlaw.1, fun hend => ?_⟩
  refine ⟨(losesNothing_iff items hr i).mpr hend, fun rounds => ?_⟩
  obtain ⟨heq, hnone⟩ := hend.upcoming_eq
  obtain ⟨ch', h', hrun, hbuf, htail⟩ := run_feedOpen ch items hr i
  have hlen := length_upcoming_le items i h.remaining
  have hN : (upcoming items i h.remaining).length ≤ C.N := by
    have := hr.count
    unfold Handle.remaining at hlen ⊢
    omega
  have hvalues : ringValues C.N ch' h.next (upcoming items i h.remaining).length =
      upcoming items i h.remaining := by
    unfold ringValues
    rw [hbuf]
    exact ringValues_writeRing hN ch
  have hrest : feedAll C items rounds (i + (upcoming items i h.remaining).length) ch' h' =
      ⟨[], i + (upcoming items i h.remaining).length, h'.producer.tail⟩ :=
    feedAll_of_none hnone rounds (htail ▸ wadd_lt _ _ _)
  simp only [feed, hrun, heq, hvalues, hrest, List.append_nil]
  refine ⟨(upcoming_length _ _ _).symm, trivial, ?_⟩
  rw [htail, ← hstart, Handle.next, Nat.add_assoc]
  rfl

/-- A reservation of four slots and an iterator with three items. -/
theorem writeIter_lossless_three :
    LosesNothing Config.eight (fun k => [10, 11, 12][k]?) 0 (Channel.zeroed 0)
      ⟨⟨0, 0, 0⟩, ⟨0, 4, 0, false⟩⟩ ∧
    SeriesLosesNothing Config.eight (fun k => [10, 11, 12][k]?) 0 (Channel.zeroed 0)
      ⟨⟨0, 0, 0⟩, ⟨0, 4, 0, false⟩⟩ := by
  refine (writeIter_lossless_iff Config.eight _ 0 _ ⟨by decide, by decide⟩ rfl).mpr ?_
  exact ⟨3, by decide, rfl⟩

/-- Two reservations of one slot and an iterator over all numbers: the second item is in neither. -/
theorem not_writeIter_lossless_endless :
    ((Reservation.writeIter 64 8 some 0).run 64 (Channel.zeroed 0)
      ⟨⟨0, 0, 0⟩, ⟨0, 1, 0, false⟩⟩).1 = (1, 2) ∧
    (feed Config.eight some [(0, 1)] 0 (Channel.zeroed 0)
      ⟨⟨0, 0, 0⟩, ⟨0, 1, 0, false⟩⟩).values = [0, 2] ∧
    ¬ LosesNothing Config.eight some 0 (Channel.zeroed 0) ⟨⟨0, 0, 0⟩, ⟨0, 1, 0, false⟩⟩ := by
  refine ⟨by decide +kernel, by decide +kernel, ?_⟩
  rintro ⟨_, _, h⟩
  revert h
  decide +kernel

end Que.Lossless
