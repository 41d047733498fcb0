import Que.Lossless.Append
import Que.Lossless.Backpressure

/-! # A reservation is a series of pushes

`reserve`, some writes and `commit` append their values like as many pushes, followed by a `sync`
if a burst is pending then.  Both series, interleaved with the consumer in any way, act as one
`append` (`batch_safe`, `pushes_safe`), so each can take the place of the other
(`reservation_eq_pushes`). -/

namespace Que.Lossless

open Lib

variable {V : Type} {C : Config}

/-! ### The state of a series -/

/-- Inside a series begun with the handle `h₀`: the values `ws` are written behind its tail, `rs` of
them are recorded, and there is space for `e` values in all. -/
structure Ahead (C : Config) (h₀ : Handle) (e : ℕ) (ws rs : List V) (h : Handle) (d : Twin V) :
    Prop where
  handle : d.real.handle = h
  shadow : d.shadow.handle = h₀
  done : d.done = false
  ch : d.real.ch = d.shadow.ch.writeRing C.N h₀.producer.tail ws
  wrote : d.real.wrote = record h₀.producer.tail rs d.shadow.wrote
  published : d.real.published = d.shadow.published
  count : d.shadow.ch.tail + h₀.producer.written = h₀.producer.tail
  len : ws.length ≤ e
  room : h₀.producer.tail + e ≤ d.shadow.ch.head + C.N
  lt : h₀.producer.tail + e < 2 ^ C.w

/-- The tail was stored, and the shadow has caught up. -/
structure Caught (C : Config) (r : Reservation) (d : Twin V) : Prop where
  done : d.done = true
  real : d.real = d.shadow.withReservation r
  tail : d.shadow.ch.tail ≤ d.shadow.handle.producer.tail
  room : d.shadow.handle.producer.tail ≤ d.shadow.ch.head + C.N

section rules
variable {h₀ h : Handle} {e : ℕ} {ws rs : List V} {d u : Twin V}

namespace Ahead

theorem stable (A : Ahead C h₀ e ws rs h d) (hr : TwinRely C d u) : Ahead C h₀ e ws rs h u := by
  have hhandle : u.shadow.handle = d.shadow.handle := by rw [hr.shadow]
  have hlen := A.len
  have hroom := A.room
  have hle := hr.head_le
  refine ⟨?_, ?_, hr.done.trans A.done, ?_, ?_, ?_, ?_, A.len, by omega, A.lt⟩
  · rw [hr.real]
    exact A.handle
  · rw [hhandle]
    exact A.shadow
  · have := hr.overlay (by rw [A.shadow]; have := A.count; omega) ws (by rw [A.shadow]; omega)
      (by rw [A.shadow]; exact A.ch)
    rwa [A.shadow] at this
  · rw [hr.real, hr.shadow]
    exact A.wrote
  · rw [hr.real, hr.shadow]
    exact A.published
  · rw [hr.tail]
    exact A.count

theorem overlaid (A : Ahead C h₀ e ws rs h d) : Overlaid C d := by
  have h1 := A.count
  have h2 := A.len
  have h3 := A.room
  unfold Overlaid
  rw [A.shadow]
  exact ⟨by omega, ws, by omega, A.ch⟩

theorem head_eq (A : Ahead C h₀ e ws rs h d) : d.real.ch.head = d.shadow.ch.head :=
  A.overlaid.header .head

end Ahead

namespace Caught
variable {r : Reservation}

theorem overlaid (A : Caught C r d) : Overlaid C d := by
  refine ⟨A.tail, [], A.room, ?_⟩
  rw [A.real]
  rfl

theorem stable (A : Caught C r d) (hr : TwinRely C d u) : Caught C r u := by
  have hhandle : u.shadow.handle = d.shadow.handle := by rw [hr.shadow]
  have hle := hr.head_le
  have hroom := A.room
  have hch : u.real.ch = u.shadow.ch := hr.overlay A.tail [] A.room (by rw [A.real]; rfl)
  refine ⟨hr.done.trans A.done, ?_, ?_, ?_⟩
  · rw [hr.real, hr.shadow, A.real, hch]
    rfl
  · rw [hhandle, hr.tail]
    exact A.tail
  · rw [hhandle]
    omega

end Caught

variable {B : Batch V} {α : Type} {Q : α → Twin V → Prop}

theorem Caught.ret {r : Reservation} (A : Caught C r d) {x : α}
    (next : ∀ u, Caught C r u → Q x u) : Safe (twinContract C B) (pure x) Q d :=
  fun u hr => next u (A.stable hr)

theorem Ahead.ret (A : Ahead C h₀ e ws rs h d) {x : α}
    (next : ∀ u, Ahead C h₀ e ws rs h u → Q x u) : Safe (twinContract C B) (pure x) Q d :=
  fun u hr => next u (A.stable hr)

theorem Ahead.self (A : Ahead C h₀ e ws rs h d) {k : Handle → Proc Handle V α}
    (next : ∀ u, Ahead C h₀ e ws rs h u → Safe (twinContract C B) (k h) Q u) :
    Safe (twinContract C B) (Que.self >>= k) Q d := by
  intro u hr _
  have A := A.stable hr
  have hk := next u A
  rw [← A.handle] at hk
  exact ⟨⟨A.overlaid, fun t ht => by cases ht⟩, hk⟩

theorem Ahead.loadHead (A : Ahead C h₀ e ws rs h d) {k : ℕ → Proc Handle V α}
    (next : ∀ u, Ahead C h₀ e ws rs h u → u.shadow.ch.head ≤ h₀.producer.tail →
      Safe (twinContract C B) (k u.shadow.ch.head) Q u) :
    Safe (twinContract C B) (load .head >>= k) Q d := by
  intro u hr hle
  have A := A.stable hr
  have htail : u.real.ch.tail = u.shadow.ch.tail := A.overlaid.header .tail
  have hle : u.real.ch.head ≤ u.real.ch.tail := hle
  have hk := next u A (by have := A.head_eq; have := A.count; omega)
  rw [← A.head_eq] at hk
  exact ⟨⟨A.overlaid, fun t ht => by cases ht⟩, hk⟩

theorem Ahead.update (A : Ahead C h₀ e ws rs h d) {f : Handle → Handle}
    {k : Unit → Proc Handle V α}
    (next : ∀ u, Ahead C h₀ e ws rs (f h) u → Safe (twinContract C B) (k ()) Q u) :
    Safe (twinContract C B) (Que.update f >>= k) Q d := by
  intro u hr _
  have A := A.stable hr
  have A' : Ahead C h₀ e ws rs (f h) { u with real := { u.real with handle := f u.real.handle } } :=
    ⟨by rw [A.handle], A.shadow, A.done, A.ch, A.wrote, A.published, A.count, A.len, A.room, A.lt⟩
  exact ⟨⟨A'.overlaid, fun t ht => by cases ht⟩, next _ A'⟩

/-- Writing the slot behind the last value. -/
theorem Ahead.write (A : Ahead C h₀ e ws rs h d) {a : Act Handle V} {x : V} {i : ℕ}
    {k : a.Ans → Proc Handle V α} (ha : a = .assign i x ∨ a = .copy i x) (hlt : ws.length < e)
    (hi : i = slot C.N (h₀.producer.tail + ws.length))
    (next : ∀ u r, Ahead C h₀ e (ws ++ [x]) rs h u → Safe (twinContract C B) (k r) Q u) :
    Safe (twinContract C B) (.act a k) Q d := by
  intro u hr _
  have A := A.stable hr
  have A' : Ahead C h₀ e (ws ++ [x]) rs h { u with real := { u.real with
      ch := u.real.ch.write i x } } := by
    refine ⟨A.handle, A.shadow, A.done, ?_, A.wrote, A.published, A.count, by simp; omega, A.room,
      A.lt⟩
    rw [Channel.writeRing_append, ← A.ch, hi]
    rfl
  rcases ha with rfl | rfl
  · exact ⟨⟨A'.overlaid, fun t ht => by cases ht⟩, next _ () A'⟩
  · exact ⟨⟨A'.overlaid, fun t ht => by cases ht⟩, next _ () A'⟩

/-- Once there is more space, more can be claimed. -/
theorem Ahead.extend (A : Ahead C h₀ e ws rs h d) {c : ℕ} (hc : e ≤ c)
    (hroom : h₀.producer.tail + c ≤ d.shadow.ch.head + C.N) (hlt : h₀.producer.tail + c < 2 ^ C.w) :
    Ahead C h₀ c ws rs h d :=
  ⟨A.handle, A.shadow, A.done, A.ch, A.wrote, A.published, A.count, A.len.trans hc, hroom, hlt⟩

/-- The values of a call are recorded when it returns. -/
theorem Ahead.returned {xs : List V} (A : Ahead C h₀ e (ws ++ xs) ws h d) {op : ProducerOp V}
    {start : Handle} (hop : op.isJoin = false)
    (hpos : xs ≠ [] → op.position start = h₀.producer.tail + ws.length) :
    Ahead C h₀ e (ws ++ xs) (ws ++ xs) h (d.returned op start xs) := by
  refine ⟨A.handle, A.shadow, A.done, A.ch, ?_, A.published, A.count, A.len, A.room, A.lt⟩
  simp only [Twin.returned, wroteAfter, hop, Bool.false_eq_true, if_false, A.wrote]
  rcases Decidable.em (xs = []) with rfl | hne
  · rw [record_nil, List.append_nil]
  · rw [hpos hne, record_append]

end rules

/-! ### Pushing one by one -/

/-- The handle after `n` pushes. -/
def Handle.pushed (h : Handle) (n : ℕ) : Handle :=
  (h.setTail (h.producer.tail + n)).setWritten (h.producer.written + n)

/-- The values pushed one by one by the producer `p`, and a `sync` if a burst is pending then. -/
def pushes (C : Config) (p : Producer) (vs : List V) : List (ProducerOp V) :=
  vs.map .push ++ if burstAmount C.N ≤ p.written + vs.length then [.sync] else []

section calls
variable {B : Batch V} {h₀ h : Handle} {e : ℕ} {ws rs : List V} {d : Twin V}

theorem Ahead.call {Q : ProducerStatus → Twin V → Prop} (A : Ahead C h₀ e ws rs h d)
    {op : ProducerOp V} {calls : List (ProducerOp V)} {st : ProducerStatus}
    (hen : op.enabled st = true) (hlt : h.producer.tail + op.demand C < 2 ^ C.w)
    (next : ∀ u, Ahead C h₀ e ws rs h u → Safe (twinContract C B) (op.code C)
      (fun r u => SafeCalls C B Q calls r.1 (u.returned op h r.2)) u) :
    SafeCalls C B Q (op :: calls) st d := by
  intro u hr
  have A := A.stable hr
  have hcode := next u A
  rw [← A.handle] at hlt hcode
  exact ⟨fun _ => ⟨hen, hlt⟩, fun _ _ => hcode⟩

/-- A call that need not be possible, and is not. -/
theorem SafeCalls.impossible {Q : ProducerStatus → Twin V → Prop} {op : ProducerOp V}
    {calls : List (ProducerOp V)} {st : ProducerStatus} (hB : B.sure = false)
    (hop : op.enabled st = false) : SafeCalls C B Q (op :: calls) st d := by
  intro u _
  constructor
  · intro h
    rw [hB] at h
    cases h
  · intro h
    rw [hop] at h
    cases h

theorem Ahead.push {Q : ProducerStatus × List V → Twin V → Prop}
    (A : Ahead C h₀ e ws ws (h₀.pushed ws.length) d) {x : V} (hlt : ws.length < e)
    (next : ∀ u, Ahead C h₀ e (ws ++ [x]) ws (h₀.pushed (ws ++ [x]).length) u → Q (.ready, [x]) u) :
    Safe (twinContract C B) (ProducerOp.code C (.push x)) Q d := by
  have hw := A.lt
  have hcount := A.count
  have htail : (h₀.pushed ws.length).producer.tail = h₀.producer.tail + ws.length := rfl
  simp only [ProducerOp.code]
  apply Safe.bind
  unfold Lossless.push
  refine A.self fun u A => A.loadHead ?_
  intro u A hle
  have hroom := A.room
  have hfull : ¬ h₀.producer.tail + ws.length = wadd C.w u.shadow.ch.head C.N := by
    rw [eq_wadd_iff (by omega) C.fits (by omega)]
    omega
  simp only [htail, hfull, if_false]
  apply A.write (.inl rfl) hlt (by simp [slot, moduloMask])
  intro u _ A
  have hpushed : ((h₀.pushed ws.length).setTail
      (wadd C.w (h₀.producer.tail + ws.length) 1)).setWritten
      (wadd C.w (h₀.producer.written + ws.length) 1) = h₀.pushed (ws ++ [x]).length := by
    rw [wadd_of_lt (by omega), wadd_of_lt (by omega), List.length_append]
    rfl
  refine A.update fun u A => A.update ?_
  intro u A
  exact A.ret fun u A => A.ret fun u A => next u (hpushed ▸ A)

/-- Storing the tail lets the shadow catch up. -/
theorem Ahead.storeTail {α : Type} {Q : α → Twin V → Prop} {k : Unit → Proc Handle V α}
    {r : Reservation} (A : Ahead C h₀ B.space B.values B.values
      (((h₀.pushed B.values.length).setWritten 0).setReservation r) d)
    (hburst : burstAmount C.N ≤ h₀.producer.written + B.values.length)
    (next : ∀ u, Caught C r u → Safe (twinContract C B) (k ()) Q u) :
    Safe (twinContract C B)
      (store .tail (h₀.producer.tail + B.values.length) >>= k) Q d := by
  intro u hr _
  have A := A.stable hr
  have hlen := A.len
  have hroom := A.room
  have happend : u.shadow.append C B.values =
      { ch := u.real.ch.set .tail (h₀.producer.tail + B.values.length)
        handle := (h₀.pushed B.values.length).setWritten 0
        wrote := u.real.wrote
        published := publish (.store .tail (h₀.producer.tail + B.values.length) : Act Handle V)
          u.real.wrote u.real.published } := by
    simp only [ProducerView.append, A.shadow, if_pos hburst, A.ch, A.wrote, A.published]
    rfl
  have hcaught : Caught C r ((twinContract C B).step
      (.store .tail (h₀.producer.tail + B.values.length)) u).2 := by
    refine ⟨rfl, ?_, ?_, ?_⟩ <;>
      simp only [twinContract, happend, Act.step, ProducerView.withReservation, A.handle]
    · exact le_rfl
    · have := A.head_eq
      simp only [Channel.set, Handle.setWritten, Handle.pushed, Handle.setTail]
      omega
  refine ⟨⟨hcaught.overlaid, fun _ _ => ⟨A.done, ?_⟩⟩, next _ hcaught⟩
  unfold Room
  rw [A.shadow]
  exact ⟨hroom, A.lt⟩

theorem Ahead.sync {Q : Unit → Twin V → Prop} {r : Reservation}
    (A : Ahead C h₀ B.space B.values B.values ((h₀.pushed B.values.length).setReservation r) d)
    (hburst : burstAmount C.N ≤ h₀.producer.written + B.values.length)
    (next : ∀ u, Caught C r u → Q () u) : Safe (twinContract C B) sync Q d := by
  unfold Lossless.sync
  refine A.update fun u A => A.self ?_
  intro u A
  rw [← Prog.bind_ret (store .tail _)]
  exact Ahead.storeTail A hburst fun u A => A.ret next

/-! ### The end of a series -/

theorem Caught.ends {r : Reservation} (A : Caught C r d) :
    SafeCalls C B (Appended C B) [] .ready d := by
  intro u hr
  have A := A.stable hr
  refine ⟨rfl, fun h => ?_, ?_⟩
  · rw [A.done] at h
    cases h
  · rw [A.done, A.real]
    rfl

theorem Ahead.ends {r : Reservation}
    (A : Ahead C h₀ B.space B.values B.values ((h₀.pushed B.values.length).setReservation r) d)
    (hburst : ¬ burstAmount C.N ≤ h₀.producer.written + B.values.length) :
    SafeCalls C B (Appended C B) [] .ready d := by
  intro u hr
  have A := A.stable hr
  refine ⟨rfl, fun _ => ?_, ?_⟩
  · unfold Room
    rw [A.shadow]
    exact ⟨A.room, A.lt⟩
  · calc u.real = ⟨u.real.ch, u.real.handle, u.real.wrote, u.real.published⟩ := rfl
      _ = ⟨u.shadow.ch.writeRing C.N h₀.producer.tail B.values,
          (h₀.pushed B.values.length).setReservation r,
          record h₀.producer.tail B.values u.shadow.wrote, u.shadow.published⟩ := by
        rw [A.ch, A.handle, A.wrote, A.published]
      _ = (u.shadow.append C B.values).withReservation r := by
        simp only [ProducerView.append, A.shadow, if_neg hburst, ProducerView.withReservation]
        rfl
      _ = _ := by
        rw [A.done, A.handle]
        rfl

/-- A call that writes nothing leaves the history as it is. -/
theorem Twin.returned_nil {op : ProducerOp V} (hop : op.isJoin = false) (start : Handle) :
    d.returned op start [] = d := by
  simp only [Twin.returned, wroteAfter, hop, Bool.false_eq_true, if_false, record_nil]

/-- **Pushes and a `sync` act as one `append`.** -/
theorem pushes_safe {vs : List V} (hvs : ws ++ vs = B.values)
    (A : Ahead C h₀ B.space ws ws (h₀.pushed ws.length) d) (hlen : B.values.length ≤ B.space) :
    SafeCalls C B (Appended C B)
      (vs.map .push ++
        if burstAmount C.N ≤ h₀.producer.written + B.values.length then [.sync] else [])
      .ready d := by
  induction vs generalizing ws d with
  | nil =>
      have hvs : ws = B.values := by simpa using hvs
      subst hvs
      rw [List.map_nil, List.nil_append]
      split_ifs with hburst
      · refine A.call rfl ?_ fun u A => ?_
        · have := A.lt
          simp only [ProducerOp.demand, Handle.pushed, Handle.setWritten, Handle.setTail]
          omega
        · refine Safe.bind (Ahead.sync (r := h₀.reservation) A hburst fun u A => ?_)
          refine A.ret fun u A => ?_
          rw [Twin.returned_nil rfl]
          exact A.ends
      · exact Ahead.ends (r := h₀.reservation) A hburst
  | cons v vs ih =>
      have hlt : ws.length < B.space := by
        rw [← hvs] at hlen
        simp only [List.length_append, List.length_cons] at hlen
        omega
      rw [List.map_cons, List.cons_append]
      refine A.call rfl ?_ fun u A => ?_
      · have := A.lt
        simp only [ProducerOp.demand, Handle.pushed, Handle.setWritten, Handle.setTail]
        omega
      · refine A.push hlt fun u A => ?_
        have A : Ahead C h₀ B.space (ws ++ [v]) (ws ++ [v]) (h₀.pushed (ws ++ [v]).length)
            (u.returned (.push v) (h₀.pushed ws.length) [v]) := A.returned rfl fun _ => rfl
        exact ih (by simpa using hvs) A

/-! ### A reservation -/

/-- The handle with a reservation of `c` slots of which `n` are written. -/
def Handle.reserved (h : Handle) (c n : ℕ) : Handle :=
  h.setReservation ⟨h.producer.tail, c, n, false⟩

/-- A reservation succeeds where the space is known to be free; otherwise it may fail. -/
theorem Ahead.reserve {Q : ProducerStatus × List V → Twin V → Prop} {c : ℕ}
    (A : Ahead C h₀ e [] [] h₀ d) (hsure : B.sure = true → 0 < c ∧ c ≤ C.N ∧ e = c)
    (he : e ≤ c) (hlt : c ≤ C.N → h₀.producer.tail + c < 2 ^ C.w)
    (fails : B.sure = false → ∀ u, Q (.ready, []) u)
    (next : c ≤ C.N → ∀ u, Ahead C h₀ c [] [] (h₀.reserved c 0) u → Q (.reserved, []) u) :
    Safe (twinContract C B) (ProducerOp.code C (.reserve c)) Q d := by
  have hfail : (B.sure = true → False) → ∀ v : Twin V,
      Safe (twinContract C B) (pure (.ready, [])) Q v := by
    intro h v u _
    cases hB : B.sure with
    | false => exact fails hB u
    | true => exact (h hB).elim
  rw [reserve_code]
  by_cases hc : 0 < c ∧ c ≤ C.N
  · rw [if_pos hc]
    apply A.loadHead
    intro u A hle
    have hw := A.lt
    have hroom := A.room
    have hspace : wsub C.w C.N (wsub C.w h₀.producer.tail u.shadow.ch.head) =
        C.N - (h₀.producer.tail - u.shadow.ch.head) := by
      rw [wsub_of_le hle (by omega), wsub_of_le (by omega) C.fits]
    by_cases hfree : h₀.producer.tail + c ≤ u.shadow.ch.head + C.N
    · have A := A.extend he hfree (hlt hc.2)
      apply A.self
      intro u A
      rw [hspace, if_neg (by omega)]
      exact A.update fun u A => A.ret (next hc.2)
    · apply A.self
      intro u A
      rw [hspace, if_pos (by omega)]
      exact hfail (fun h => by have := hsure h; omega) u
  · rw [if_neg hc]
    exact hfail (fun h => hc ⟨(hsure h).1, (hsure h).2.1⟩) d

theorem Handle.reserved_next (h : Handle) {c n : ℕ} :
    wadd C.w (h.reserved c n).reservation.startTail (h.reserved c n).reservation.written &&&
      moduloMask C.N = slot C.N (h.producer.tail + n) := by
  rw [and_moduloMask, slot_wadd C.pow C.fits]
  rfl

theorem Handle.reserved_more (h : Handle) {c n m : ℕ} (hc : c ≤ C.N) (hle : n + m ≤ c) :
    (h.reserved c n).setReservation { (h.reserved c n).reservation with
      written := wadd C.w (h.reserved c n).reservation.written m } = h.reserved c (n + m) := by
  have hfits := C.fits
  have hadd : wadd C.w n m = n + m := wadd_of_lt (by omega)
  simp only [Handle.reserved, Handle.setReservation, hadd]

theorem Ahead.writeNext {Q : ProducerStatus × List V → Twin V → Prop} {c : ℕ} {x : V}
    (A : Ahead C h₀ c ws ws (h₀.reserved c ws.length) d) (hc : c ≤ C.N) (hlt : ws.length < c)
    (next : ∀ u, Ahead C h₀ c (ws ++ [x]) ws (h₀.reserved c (ws ++ [x]).length) u →
      Q (.reserved, [x]) u) :
    Safe (twinContract C B) (ProducerOp.code C (.writeNext x)) Q d := by
  simp only [ProducerOp.code]
  apply Safe.bind
  unfold Reservation.writeNext
  apply A.self
  intro u A
  have hfull : ¬ (h₀.reserved c ws.length).reservation.written ≥
      (h₀.reserved c ws.length).reservation.count := Nat.not_le.mpr hlt
  simp only [h₀.reserved_next, if_neg hfull]
  refine A.write (.inl rfl) hlt rfl fun u _ A => A.update ?_
  intro u A
  rw [h₀.reserved_more hc (by omega)] at A
  refine A.ret fun u A => A.ret fun u A => next u ?_
  rw [List.length_append]
  exact A

/-- A block copy to consecutive slots. -/
theorem Ahead.copyTo {α : Type} {Q : α → Twin V → Prop} {i : ℕ} {xs : List V}
    {k : Unit → Proc Handle V α} (A : Ahead C h₀ e ws rs h d) (hfit : ws.length + xs.length ≤ e)
    (hi : ∀ j, j < xs.length → i + j = slot C.N (h₀.producer.tail + (ws.length + j)))
    (next : ∀ u, Ahead C h₀ e (ws ++ xs) rs h u → Safe (twinContract C B) (k ()) Q u) :
    Safe (twinContract C B) (Que.copyTo i xs >>= k) Q d := by
  induction xs generalizing i ws d with
  | nil => exact next d (by simpa using A)
  | cons x xs ih =>
      simp only [List.length_cons] at hfit hi
      unfold Que.copyTo
      rw [Prog.bind_assoc]
      apply A.write (.inr rfl) (by omega) (hi 0 (by omega))
      intro u _ A
      refine ih A (by simp; omega) (fun j hj => ?_) (fun u A => next u (by simpa using A))
      rw [List.length_append, List.length_singleton, show i + 1 + j = i + (j + 1) by omega,
        hi (j + 1) (by omega)]
      congr 2
      omega

/-- The copies of `write_all`, across the end of the ring or not. -/
theorem Ahead.copyValues {α : Type} {Q : α → Twin V → Prop} {xs : List V}
    {k : Unit → Proc Handle V α} (A : Ahead C h₀ e ws rs h d) (hfit : ws.length + xs.length ≤ e)
    (hN : e ≤ C.N)
    (next : ∀ u, Ahead C h₀ e (ws ++ xs) rs h u → Safe (twinContract C B) (k ()) Q u) :
    Safe (twinContract C B)
      (Reservation.copyValues C.w C.N (slot C.N (h₀.producer.tail + ws.length)) xs >>= k) Q d := by
  generalize hp : h₀.producer.tail + ws.length = p
  have hs := slot_lt C.pow p
  rw [Reservation.copyValues_eq hs (by omega)]
  split_ifs with hin
  · refine A.copyTo hfit (fun j hj => ?_) next
    rw [← Nat.add_assoc, hp, slot_add C.pow (by omega), if_pos (by omega)]
  · have hlen : (xs.take (C.N - slot C.N p)).length = C.N - slot C.N p := by
      rw [List.length_take]
      omega
    rw [Prog.bind_assoc]
    refine A.copyTo (by omega) (fun j hj => ?_) fun u A => ?_
    · rw [← Nat.add_assoc, hp, slot_add C.pow (by omega), if_pos (by omega)]
    · refine A.copyTo (by simp; omega) (fun j hj => ?_) (fun u A => next u ?_)
      · rw [List.length_drop] at hj
        rw [List.length_append, hlen, Nat.add_assoc, ← Nat.add_assoc, hp, slot_add C.pow (by omega),
          if_neg (by omega)]
        omega
      · simpa using A

theorem Ahead.writeAll {Q : ProducerStatus × List V → Twin V → Prop} {c : ℕ} {xs : List V}
    (A : Ahead C h₀ c ws ws (h₀.reserved c ws.length) d) (hc : c ≤ C.N)
    (hle : ws.length + xs.length ≤ c)
    (next : ∀ u, Ahead C h₀ c (ws ++ xs) ws (h₀.reserved c (ws ++ xs).length) u →
      Q (.reserved, xs) u) :
    Safe (twinContract C B) (ProducerOp.code C (.writeAll xs)) Q d := by
  have hrem : Reservation.remaining C.w (h₀.reserved c ws.length).reservation = c - ws.length :=
    wsub_of_le (show ws.length ≤ c by omega) (hc.trans_lt C.fits)
  simp only [ProducerOp.code]
  apply Safe.bind
  unfold Reservation.writeAll
  apply A.self
  intro u A
  simp only [h₀.reserved_next, hrem]
  rw [if_neg (by omega)]
  split_ifs with hnil
  · obtain rfl : xs = [] := by simpa using hnil
    exact A.ret fun u A => A.ret fun u A => next u (by simpa using A)
  · refine A.copyValues hle hc fun u A => A.update ?_
    intro u A
    rw [h₀.reserved_more hc hle] at A
    refine A.ret fun u A => A.ret fun u A => next u ?_
    rw [List.length_append]
    exact A

theorem Ahead.commit {Q : ProducerStatus × List V → Twin V → Prop}
    (A : Ahead C h₀ B.space B.values B.values (h₀.reserved B.space B.values.length) d)
    (next : ∀ u, SafeCalls C B (Appended C B) [] .ready u → Q (.ready, []) u) :
    Safe (twinContract C B) (ProducerOp.code C .commit) Q d := by
  have hw := A.lt
  have hlen := A.len
  have hcount := A.count
  have h1 : wadd C.w h₀.producer.tail B.values.length = h₀.producer.tail + B.values.length :=
    wadd_of_lt (by omega)
  have h2 : wadd C.w h₀.producer.written B.values.length =
      h₀.producer.written + B.values.length := wadd_of_lt (by omega)
  simp only [ProducerOp.code]
  apply Safe.bind
  unfold Reservation.commit
  refine A.update fun u A => A.update fun u A => A.update ?_
  intro u A
  simp only [Handle.reserved, Handle.setReservation, Handle.setTail, Handle.setWritten, h1, h2] at A
  apply A.self
  intro u A
  simp only
  split_ifs with hburst
  · refine Ahead.sync (r := ⟨h₀.producer.tail, B.space, B.values.length, true⟩) A hburst ?_
    exact fun u A => A.ret fun u A => next u A.ends
  · refine A.ret fun u A => A.ret fun u A => next u ?_
    exact Ahead.ends (r := ⟨h₀.producer.tail, B.space, B.values.length, true⟩) A hburst

namespace ProducerOp

/-- The writes that a reservation is filled with. -/
def fills : ProducerOp V → Bool
  | writeNext _ | writeAll _ => true
  | _ => false

/-- The values that such a write writes. -/
def values : ProducerOp V → List V
  | writeNext v => [v]
  | writeAll vs => vs
  | _ => []

end ProducerOp

/-- A reservation of `c` slots that is filled by `writes` and committed. -/
def batch (c : ℕ) (writes : List (ProducerOp V)) : List (ProducerOp V) :=
  .reserve c :: (writes ++ [.commit])

/-- The writes and the commit act as one `append`. -/
theorem writes_safe {writes : List (ProducerOp V)} (hfill : ∀ op ∈ writes, op.fills = true)
    (hvs : ws ++ writes.flatMap ProducerOp.values = B.values)
    (A : Ahead C h₀ B.space ws ws (h₀.reserved B.space ws.length) d) (hN : B.space ≤ C.N)
    (hlen : B.values.length ≤ B.space) :
    SafeCalls C B (Appended C B) (writes ++ [.commit]) .reserved d := by
  have hlt := A.lt
  induction writes generalizing ws d with
  | nil =>
      have hvs : ws = B.values := by simpa using hvs
      subst hvs
      refine A.call rfl ?_ fun u A => ?_
      · simp only [ProducerOp.demand, Handle.reserved, Handle.setReservation]
        omega
      · apply A.commit
        intro u h
        rw [Twin.returned_nil rfl]
        exact h
  | cons op writes ih =>
      have hop := hfill op List.mem_cons_self
      have hrest : ∀ op ∈ writes, op.fills = true := fun op h => hfill op (List.mem_cons_of_mem _ h)
      have hfit : ws.length + op.values.length ≤ B.space := by
        rw [← hvs] at hlen
        simp only [List.flatMap_cons, List.length_append] at hlen
        omega
      have hstep : ∀ u, Ahead C h₀ B.space (ws ++ op.values) ws
          (h₀.reserved B.space (ws ++ op.values).length) u →
          SafeCalls C B (Appended C B) (writes ++ [.commit]) .reserved
            (u.returned op (h₀.reserved B.space ws.length) op.values) := by
        intro u A
        have A : Ahead C h₀ B.space (ws ++ op.values) (ws ++ op.values)
            (h₀.reserved B.space (ws ++ op.values).length)
            (u.returned op (h₀.reserved B.space ws.length) op.values) := by
          refine A.returned ?_ fun _ => ?_ <;> cases op <;> first | rfl | cases hop
        exact ih hrest (by simpa using hvs) A
      rw [List.cons_append]
      cases op with
      | writeNext v =>
          refine A.call rfl ?_ fun u A => ?_
          · simp only [ProducerOp.demand, Handle.reserved, Handle.setReservation]
            omega
          · exact A.writeNext hN hfit hstep
      | writeAll vs =>
          refine A.call rfl ?_ fun u A => ?_
          · simp only [ProducerOp.demand, Handle.reserved, Handle.setReservation]
            omega
          · exact A.writeAll hN hfit hstep
      | _ => cases hop

/-- **A reservation acts as one `append`**, if it succeeds. -/
theorem batch_safe {writes : List (ProducerOp V)} (hfill : ∀ op ∈ writes, op.fills = true)
    (hvs : writes.flatMap ProducerOp.values = B.values) (A : Ahead C h₀ e [] [] h₀ d)
    (hsure : B.sure = true → 0 < B.space ∧ B.space ≤ C.N ∧ e = B.space ∧
      h₀.producer.tail + B.space < 2 ^ C.w)
    (he : e ≤ B.space) (hlen : B.values.length ≤ B.space) :
    SafeCalls C B (Appended C B) (batch B.space writes) .ready d := by
  intro u hr
  have A := A.stable hr
  refine ⟨fun h => ⟨rfl, ?_⟩, fun _ hlt => ?_⟩
  · obtain ⟨_, h1, _, h2⟩ := hsure h
    rw [A.handle, ProducerOp.demand, if_pos h1]
    exact h2
  · refine A.reserve (fun h => ⟨(hsure h).1, (hsure h).2.1, (hsure h).2.2.1⟩) he (fun hc => ?_)
      (fun h v => ?_) fun hc v A => ?_
    · rwa [A.handle, ProducerOp.demand, if_pos hc] at hlt
    · -- after a reservation that failed, neither a write nor a commit is possible
      cases writes with
      | nil => exact .impossible h rfl
      | cons op writes =>
          have hop := hfill op List.mem_cons_self
          refine .impossible h ?_
          cases op <;> first | rfl | cases hop
    · rw [Twin.returned_nil rfl]
      exact writes_safe hfill hvs A hc hlen

end calls

/-! ### Taking each other's place -/

/-- A producer at rest, at the beginning of a series. -/
theorem Ready.ahead {v : ProducerView V} (h : Ready C v) {e : ℕ} (hroom : Room C e v) :
    Ahead C v.handle e [] [] v.handle ⟨v, v, false⟩ :=
  ⟨rfl, rfl, rfl, rfl, (record_nil _ _).symm, rfl, h.2, Nat.zero_le e, hroom.1, hroom.2⟩

theorem Sound.ready {s : State V} (S : Sound C s) (hs : s.producer = .rest .ready) :
    Ready C s.producerView := by
  have hf := S.producer
  rw [hs] at hf
  exact hf

/-- Where a reservation succeeds, there is space for it. -/
theorem Sound.room_of_reserve {s : State V} (S : Sound C s) (hs : s.producer = .rest .ready) {c : ℕ}
    (hlt : s.handle.producer.tail + c < 2 ^ C.w)
    (hres : ((reserve C.w C.N c : Proc Handle V _).run C.w s.ch s.handle).1 = .ok ()) :
    0 < c ∧ c ≤ C.N ∧ Room C c s.producerView := by
  have hbase : s.ch.head ≤ s.ch.tail := S.base.head_le
  obtain ⟨h1, h2⟩ := (S.ready hs).tailBound
  simp only [State.producerView] at h1 h2
  rcases run_reserve C s.ch s.handle c with ⟨e, he⟩ | ⟨h3, h4, h5, _⟩
  · rw [he] at hres
    cases hres
  · have hused : wsub C.w s.handle.producer.tail s.ch.head = s.handle.producer.tail - s.ch.head :=
      wsub_of_le (by omega) (by omega)
    rw [hused, wsub_of_le (by omega) C.fits] at h5
    refine ⟨h3, h4, ?_, hlt⟩
    simp only [State.producerView]
    omega

theorem ProducerView.append_tail (v : ProducerView V) (vs : List V) :
    (v.append C vs).handle.producer.tail = v.handle.producer.tail + vs.length := by
  simp only [ProducerView.append]
  split_ifs <;> rfl

theorem State.withReservation_move (s : State V) (r : Reservation) {m : Move V}
    (hm : m.ofConsumer = true) :
    (s.withReservation r).move C m = (s.move C m).map fun t => t.withReservation r := by
  cases m with
  | consumerCall op =>
      cases hc : s.consumer with
      | rest st =>
          simp only [State.move, State.withReservation, hc]
          split_ifs <;> rfl
      | busy start op' code => simp only [State.move, State.withReservation, hc, Option.map_none]
  | consumerGo =>
      cases hc : s.consumer with
      | rest st => simp only [State.move, State.withReservation, hc, Option.map_none]
      | busy start op code =>
          cases code with
          | act a k =>
              simp only [State.move, State.withReservation, hc, Option.map_some]
              rfl
          | ret x =>
              simp only [State.move, State.withReservation, hc, Option.map_some]
              rfl
  | consumerStop => rfl
  | _ => cases hm

theorem State.withReservation_moves (s : State V) (r : Reservation) {ms : List (Move V)}
    (hms : ∀ m ∈ ms, m.ofConsumer = true) :
    (s.withReservation r).moves C ms = (s.moves C ms).map fun t => t.withReservation r := by
  induction ms generalizing s with
  | nil => rfl
  | cons m ms ih =>
      have hrest : ∀ m ∈ ms, m.ofConsumer = true := fun m' h => hms m' (List.mem_cons_of_mem m h)
      simp only [State.moves, s.withReservation_move r (hms m List.mem_cons_self)]
      cases s.move C m with
      | none => rfl
      | some t => exact ih t hrest

theorem Unmoved.move {s t : State V} {m : Move V} (hm : m.ofConsumer = true)
    (h : s.move C m = some t) : Unmoved s t := by
  cases m with
  | consumerCall op =>
      cases hc : s.consumer with
      | rest st =>
          simp only [State.move, hc] at h
          split_ifs at h
          cases h
          exact ⟨rfl, rfl, rfl⟩
      | busy start op' code => simp [State.move, hc] at h
  | consumerGo =>
      cases hc : s.consumer with
      | rest st => simp [State.move, hc] at h
      | busy start op code =>
          cases code <;>
          · simp only [State.move, hc, Option.some.injEq] at h
            subst h
            exact ⟨rfl, rfl, rfl⟩
  | consumerStop =>
      cases h
      exact ⟨rfl, rfl, rfl⟩
  | _ => cases hm

/-- The consumer's moves leave the producer's side as it is. -/
theorem Unmoved.moves {s t : State V} {ms : List (Move V)}
    (hms : ∀ m ∈ ms, m.ofConsumer = true) (h : s.moves C ms = some t) : Unmoved s t := by
  induction ms generalizing s with
  | nil =>
      cases h
      exact ⟨rfl, rfl, rfl⟩
  | cons m ms ih =>
      simp only [State.moves, Option.bind_eq_some_iff] at h
      obtain ⟨u, hu, ht⟩ := h
      have h1 := Unmoved.move (hms m List.mem_cons_self) hu
      have h2 := ih (fun m' h => hms m' (List.mem_cons_of_mem m h)) ht
      exact ⟨h2.producer.trans h1.producer, h2.handle.trans h1.handle, h2.wrote.trans h1.wrote⟩

/-- States that differ in a reservation no longer open behave the same. -/
theorem Alike.withReservation (s : State V) (hs : s.producer = .rest .ready) (r : Reservation) :
    Alike C s (s.withReservation r) := by
  refine ⟨⟨⟨fun _ => rfl, fun _ _ _ => rfl⟩, rfl, rfl, rfl, rfl, rfl⟩, ?_, fun _ _ => rfl⟩
  simp only [State.withReservation]
  rw [hs]
  exact .rest rfl nofun

theorem Performs.append {xs ys : List (Move V)} {calls calls' : List (ProducerOp V)}
    (h : Performs xs calls) (h' : Performs ys calls') : Performs (xs ++ ys) (calls ++ calls') := by
  refine ⟨by rw [List.filterMap_append, h.calls, h'.calls], fun m hm => ?_⟩
  rcases List.mem_append.mp hm with hm | hm
  · exact h.stays m hm
  · exact h'.stays m hm

theorem Performs.of_consumer {ms : List (Move V)} (hms : ∀ m ∈ ms, m.ofConsumer = true) :
    Performs ms [] := by
  refine ⟨List.filterMap_eq_nil_iff.mpr fun m hm => ?_, fun m hm => ?_⟩
  · have := hms m hm
    cases m <;> first | rfl | cases this
  · rintro rfl
    cases hms _ hm

/-- The schedule `phase` from `s` to `t` can be replaced by one in which the producer makes the
calls `calls` instead, with the same moves of the consumer in the same order: the state at the end
is the same up to the reservation that the handle still holds, and every later schedule gives the
same results. -/
def Replaceable (C : Config) (s : State V) (phase : List (Move V)) (t : State V)
    (calls : List (ProducerOp V)) : Prop :=
  ∃ phase' t', Performs phase' calls ∧
    phase'.filter Move.ofConsumer = phase.filter Move.ofConsumer ∧ s.moves C phase' = some t' ∧
    t' = t.withReservation t'.handle.reservation ∧
    ∀ ms, Option.Rel SameResults (t.moves C ms) (t'.moves C ms)

section exchange
variable {s t : State V} {B : Batch V} {calls calls' : List (ProducerOp V)} {phase : List (Move V)}
  {st : ProducerStatus}

/-- Two series of calls that both act as one `append` of the same values can be exchanged. -/
theorem SafeCalls.replaceable (S : Sound C s) (T : Trimmed C s) (hs : s.producer = .rest .ready)
    (h : SafeCalls C B (Appended C B) calls .ready ⟨s.producerView, s.producerView, false⟩)
    (hp : Performs phase calls) (ht : s.moves C phase = some t) (hst : t.producer = .rest st)
    (h' : ∀ u : State V, Sound C u → u.producer = .rest .ready → u.handle = s.handle →
      Room C B.space u.producerView → SafeCalls C { B with sure := true }
        (Appended C { B with sure := true }) calls' .ready
        ⟨u.producerView, u.producerView, false⟩) :
    t.handle.producer.tail = s.handle.producer.tail + B.values.length ∧
      Replaceable C s phase t calls' := by
  obtain ⟨before, after, u, t₁, hfilter, hu, hroom, ht₁, e⟩ := h.performed S hs hp ht hst
  have hofc : ∀ m ∈ before ++ after, m.ofConsumer = true := by
    rw [← hfilter]
    exact fun m hm => (List.mem_filter.mp hm).2
  have hbefore : ∀ m ∈ before, m.ofConsumer = true := fun m hm =>
    hofc m (List.mem_append_left _ hm)
  have hafter : ∀ m ∈ after, m.ofConsumer = true := fun m hm => hofc m (List.mem_append_right _ hm)
  have Un := Unmoved.moves hbefore hu
  have Un₁ := Unmoved.moves hafter ht₁
  have Su := S.run (State.moves_reach hu)
  have hrest : u.producer = .rest .ready := Un.producer.trans hs
  have hsafe := h' u Su hrest Un.handle hroom
  -- the other series, performed alone where the first one acted
  obtain ⟨phase', a, st', hperf, hnone, ha, hst'⟩ := hsafe.alone rfl Su hrest
  obtain ⟨b', a', u', t₂, hsplit, hu', _, ht₂, e'⟩ := hsafe.performed Su hrest hperf ha hst'
  rw [hnone] at hsplit
  obtain ⟨rfl, rfl⟩ := List.append_eq_nil_iff.mp hsplit.symm
  cases hu'
  cases ht₂
  generalize a.handle.reservation = ra at e'
  have hend : s.moves C (before ++ (phase' ++ after)) = some (t₁.withReservation ra) := by
    rw [State.moves_append, hu, Option.bind_some, State.moves_append, ha, Option.bind_some, e',
      State.withReservation_moves _ _ hafter, ht₁]
    rfl
  have hready : t.producer = .rest .ready := by
    rw [e]
    exact Un₁.producer.trans hrest
  have hsame : t₁.withReservation ra = t.withReservation ra := by
    rw [e]
    rfl
  have hreach := State.moves_reach ht
  constructor
  · rw [e]
    simp only [State.withReservation, Handle.setReservation, Un₁.handle]
    exact (u.producerView.append_tail B.values).trans (by rw [State.producerView, Un.handle])
  · refine ⟨before ++ (phase' ++ after), t₁.withReservation ra, ?_, ?_, hend, hsame, fun ms => ?_⟩
    · have := (Performs.of_consumer hbefore).append (hperf.append (Performs.of_consumer hafter))
      simpa using this
    · rw [List.filter_append, List.filter_append, hnone, List.nil_append, ← List.filter_append,
        hfilter, List.filter_eq_self]
      exact hofc
    · have A : Alike C t (t₁.withReservation ra) := by
        rw [hsame]
        exact .withReservation t hready ra
      exact A.moves_sameResults (S.run hreach) (S.run (State.moves_reach hend)) (T.run S hreach) ms

end exchange

/-! ### Blocks and single writes -/

namespace Reservation

/-- The values written one by one. -/
def writeEach (w N : ℕ) : List V → Proc Handle V (Outcome Unit)
  | [] => return .ok ()
  | v :: vs => do
      match ← writeNext w N v with
      | .ok () => writeEach w N vs
      | r => return r

end Reservation

theorem run_writeEach {ch : Channel V} {h : Handle} (hr : h.InReservation C) {vs : List V}
    (hlen : vs.length ≤ h.remaining) :
    (Reservation.writeEach C.w C.N vs).run C.w ch h =
      (.ok (), ch.writeRing C.N h.next vs, h.wroteMore C.w vs.length) := by
  induction vs generalizing ch h with
  | nil =>
      rw [List.length_nil, Handle.wroteMore_zero hr]
      rfl
  | cons v vs ih =>
      simp only [List.length_cons] at hlen
      obtain ⟨hr', hnext, hrem⟩ := hr.wroteMore (show 1 ≤ h.remaining by omega)
      unfold Reservation.writeEach
      rw [Proc.run_bind, run_writeNext (by omega)]
      simp only
      rw [ih hr' (by omega), hnext, Handle.wroteMore_add hr (by omega), Channel.writeRing_cons,
        List.length_cons, Nat.add_comm vs.length]

/-- Every cell that the code accesses is one of the `N` slots. -/
def InSlots (N : ℕ) {L α : Type} (c : Proc L V α) : Prop :=
  c.All (fun a => ∀ i, a.accessed = some i → i < N) (fun _ => True)

theorem copyTo_inSlots {L : Type} {N i : ℕ} {vs : List V} (h : i + vs.length ≤ N) :
    InSlots N (copyTo i vs : Proc L V Unit) := by
  induction vs generalizing i with
  | nil => trivial
  | cons v vs ih =>
      simp only [List.length_cons] at h
      refine ⟨fun j hj => ?_, fun _ => ih (by omega)⟩
      cases hj
      omega

/-- The copies of `write_all` stay inside the ring, for every start index and length. -/
theorem copyValues_inSlots (C : Config) {i : ℕ} {vs : List V} (hi : i < C.N)
    (hlen : vs.length ≤ C.N) : InSlots C.N (Reservation.copyValues C.w C.N i vs) := by
  rw [Reservation.copyValues_eq hi hlen]
  split_ifs with h
  · exact copyTo_inSlots h
  · refine Prog.All.bind ((copyTo_inSlots ?_).mono fun _ _ => copyTo_inSlots ?_)
    · rw [List.length_take]
      omega
    · rw [List.length_drop]
      omega

/-! ### The exchange -/

/-- **A reservation equals the corresponding pushes.**  Take a reachable state with the producer at
rest, and writes of `vs` to a reservation of `c` slots, split in any way.

* However the consumer moves meanwhile, once the reservation has been made, filled and committed,
  the pushes of `vs` with a `sync` if a burst is pending could have been made instead.
* If the reservation succeeds in the state, the pushes can be made; all of them succeed however the
  consumer moves meanwhile, and the reservation could have been made instead.
* The copies of a block stay inside the ring, and a block is written like its values one by one. -/
theorem reservation_eq_pushes (C : Config) {op : ProducerOp V} (hop : op.initialises = true) (z : V)
    {s : State V} (h : Reach C (State.initial C op (Channel.zeroed z)) s)
    (hs : s.producer = .rest .ready) {c : ℕ} {writes : List (ProducerOp V)}
    (hfill : ∀ op ∈ writes, op.fills = true) {vs : List V}
    (hvs : writes.flatMap ProducerOp.values = vs) (hlen : vs.length ≤ c) :
    (∀ phase t st, Performs phase (batch c writes) → s.moves C phase = some t →
      t.producer = .rest st → t.handle.producer.tail = s.handle.producer.tail + vs.length ∧
      Replaceable C s phase t (pushes C s.handle.producer vs)) ∧
    (s.handle.producer.tail + c < 2 ^ C.w →
      ((reserve C.w C.N c : Proc Handle V _).run C.w s.ch s.handle).1 = .ok () →
      (∃ phase t st, Performs phase (pushes C s.handle.producer vs) ∧ s.moves C phase = some t ∧
        t.producer = .rest st) ∧
      ∀ phase t st, Performs phase (pushes C s.handle.producer vs) → s.moves C phase = some t →
        t.producer = .rest st → t.handle.producer.tail = s.handle.producer.tail + vs.length ∧
        Replaceable C s phase t (batch c writes)) ∧
    (∀ i (xs : List V), i < C.N → xs.length ≤ C.N →
      InSlots C.N (Reservation.copyValues C.w C.N i xs)) ∧
    (∀ (ch : Channel V) (hd : Handle) (xs : List V), hd.InReservation C →
      xs.length ≤ hd.remaining → (Reservation.writeAll C.w C.N xs).run C.w ch hd =
        (Reservation.writeEach C.w C.N xs).run C.w ch hd) := by
  have S₀ := initial_sound (C := C) hop (m := Channel.zeroed z) rfl rfl
  have T₀ : Trimmed C (State.initial C op (Channel.zeroed z)) := by
    intro start op' code hp
    cases hp
  have S := S₀.run h
  have T := T₀.run S₀ h
  have hready := S.ready hs
  have pushesSafe : ∀ {b u}, Sound C u → u.producer = .rest .ready → u.handle = s.handle →
      Room C c u.producerView → SafeCalls C ⟨vs, c, b⟩ (Appended C ⟨vs, c, b⟩)
        (pushes C s.handle.producer vs) .ready ⟨u.producerView, u.producerView, false⟩ := by
    intro b u Su hu he hroom
    rw [← he]
    exact pushes_safe (B := ⟨vs, c, b⟩) rfl ((Su.ready hu).ahead hroom) hlen
  refine ⟨fun phase t st hp ht hst => ?_, fun hlt hres => ?_, fun i xs hi hx =>
    copyValues_inSlots C hi hx, fun ch hd xs hr hx => ?_⟩
  · have hroom : Room C 0 s.producerView := ⟨hready.tailBound.2, hready.1.lt⟩
    have hbatch := batch_safe (B := ⟨vs, c, false⟩) hfill hvs (hready.ahead hroom) nofun
      (Nat.zero_le c) hlen
    exact SafeCalls.replaceable S T hs hbatch hp ht hst fun u Su hu he hroom =>
      pushesSafe Su hu he hroom
  · obtain ⟨hc, hN, hroom⟩ := S.room_of_reserve hs hlt hres
    have hpushes := pushesSafe (b := true) S hs rfl hroom
    constructor
    · obtain ⟨phase, t, st, hp, _, ht, hst⟩ := hpushes.alone rfl S hs
      exact ⟨phase, t, st, hp, ht, hst⟩
    · intro phase t st hp ht hst
      refine SafeCalls.replaceable S T hs hpushes hp ht hst fun u Su hu _ hroom => ?_
      exact batch_safe (B := ⟨vs, c, true⟩) hfill hvs ((Su.ready hu).ahead hroom)
        (fun _ => ⟨hc, hN, rfl, hroom.2⟩) le_rfl hlen
  · rw [run_writeAll hr hx, run_writeEach hr hx]

/-- Three slots are reserved, filled with a single value, an empty block and a block of two, and
committed, while the consumer pops. -/
def filledPhase : List (Move ℕ) :=
  producerRuns (.reserve 3) 4 ++ producerRuns (.writeNext 7) 4 ++ consumerRuns .pop 3 ++
    producerRuns (.writeAll []) 2 ++ producerRuns (.writeAll [8, 9]) 3 ++
    List.replicate 4 .consumerGo ++ List.replicate 2 .producerGo ++ producerRuns .commit 8

/-- The states before and after it; one value was published before. -/
def filledRun : Option (State ℕ × State ℕ) :=
  ((State.initial Config.eight .joinOrInitializeIn (Channel.zeroed 0)).moves Config.eight
    (consumerRuns .join 8 ++ producerRuns (.push 1) 6 ++ producerRuns .sync 4)).bind fun s =>
    (s.moves Config.eight filledPhase).map fun t => (s, t)

/-- The values 7, 8 and 9 could have been pushed and synced instead. -/
theorem reservation_eq_pushes_three : ∃ s t : State ℕ, filledRun = some (s, t) ∧
    t.received = [1] ∧ t.handle.producer.tail = 4 ∧
    Replaceable Config.eight s filledPhase t [.push 7, .push 8, .push 9, .sync] := by
  have h : filledRun.map (fun st => (st.1.resting, st.1.handle.producer.tail,
      st.1.handle.producer.written, st.2.resting, st.2.received)) =
      some (some .ready, 1, 0, some .ready, [1]) := by
    decide +kernel
  obtain ⟨⟨s, t⟩, hst, e⟩ := Option.map_eq_some_iff.mp h
  simp only [Prod.mk.injEq] at e
  obtain ⟨h1, h2, h3, h4, h5⟩ := e
  have hrun := hst
  simp only [filledRun, Option.bind_eq_some_iff, Option.map_eq_some_iff] at hrun
  obtain ⟨s', hs, t', ht, e⟩ := hrun
  cases e
  have hperf : Performs filledPhase
      (batch 3 [.writeNext 7, .writeAll [], .writeAll [8, 9]]) := by
    refine ⟨rfl, fun m hm hstop => ?_⟩
    subst hstop
    simp [filledPhase, producerRuns, consumerRuns] at hm
  have hfill : ∀ op ∈ ([.writeNext 7, .writeAll [], .writeAll [8, 9]] : List (ProducerOp ℕ)),
      op.fills = true := by
    simp [ProducerOp.fills]
  obtain ⟨htail, hrep⟩ := (reservation_eq_pushes Config.eight rfl 0 (State.moves_reach hs)
    (State.rest_of_resting h1) (c := 3) hfill rfl (by decide)).1 filledPhase t .ready hperf ht
    (State.rest_of_resting h4)
  rw [h2] at htail
  refine ⟨s, t, hst, h5, htail, ?_⟩
  have hcalls : pushes Config.eight s.handle.producer
      ([.writeNext 7, .writeAll [], .writeAll [8, 9]].flatMap ProducerOp.values) =
      [.push 7, .push 8, .push 9, .sync] := by
    simp only [pushes, h3]
    rfl
  rwa [hcalls] at hrep

end Que.Lossless
