import Que.Lossless.ProducerSafe

/-! # The producer's calls

Each call of `ProducerOp` keeps the producer's contract and ends in the assertion of the status
that it returns (`ProducerOp.code_safe`).  The proofs walk through the code with the rules of
`Point`. -/

namespace Que.Lossless

open Lib

variable {V : Type} {C : Config}

/-! ### From a point to the assertion at rest -/

section posts
variable {h : Handle} {v : ProducerView V} {T t e : ℕ} {pend : List V}

/-- The view after the values of a call have been recorded. -/
theorem Point.record (P : Point C v h T t e pend) (op : ProducerOp V) (start : Handle)
    (hop : op.isJoin = false)
    (hpos : pend ≠ [] → op.position start = t) :
    Point C { v with wrote := wroteAfter op start pend v.wrote } h T (t + pend.length) e [] := by
  refine ⟨P.handle, P.tail, ?_⟩
  have e1 : wroteAfter op start pend v.wrote = Que.record t pend v.wrote := by
    unfold wroteAfter
    rw [if_neg (by simp [hop])]
    rcases Decidable.em (pend = []) with rfl | hne
    · funext p
      simp [Que.record, show ∀ n : ℕ, ¬ (n ≤ p ∧ p < n) from fun n hn => by omega]
    · rw [hpos hne]
  rw [e1]
  exact P.own.record_pending

theorem Point.ready (P : Point C v h T t e []) (h1 : T ≤ h.producer.tail)
    (h2 : h.producer.tail ≤ t) (hcount : T + h.producer.written = h.producer.tail) :
    Ready C v := by
  obtain ⟨rfl, rfl, own⟩ := P
  have hfill : t ≤ e := by simpa using own.fill_le
  exact ⟨own.shrink h1 h2 le_rfl (h2.trans hfill), hcount⟩

theorem Point.open (P : Point C v h T t e []) (h1 : h.producer.tail + h.reservation.written = t)
    (h2 : h.producer.tail + h.reservation.count = e)
    (hcount : T + h.producer.written = h.producer.tail)
    (hstart : h.reservation.startTail = h.producer.tail) : Open C v := by
  obtain ⟨rfl, rfl, own⟩ := P
  exact ⟨by rw [h1, h2]; exact own, hcount, hstart⟩

/-- A producer at rest, as the first point of a call. -/
theorem Ready.point (h : Ready C v) :
    Point C v v.handle v.ch.tail v.handle.producer.tail v.handle.producer.tail [] :=
  ⟨rfl, rfl, h.1⟩

theorem Open.point (h : Open C v) :
    Point C v v.handle v.ch.tail (v.handle.producer.tail + v.handle.reservation.written)
      (v.handle.producer.tail + v.handle.reservation.count) [] :=
  ⟨rfl, rfl, h.1⟩

end posts

/-! ### Pushing and publishing -/

section calls
variable {v : ProducerView V} {hd : Handle} {T t e : ℕ} {pend : List V}

theorem push_safe {x : V} (P : Point C v hd T t t []) (htail : hd.producer.tail = t)
    (hcount : T + hd.producer.written = t) (hlt : t + 1 < 2 ^ C.w) :
    Safe (producerContract C (TailBound C)) (ProducerOp.code C (.push x))
      (ProducerPost C (.push x) hd) v := by
  have hw : Within hd T t := ⟨by omega, by omega⟩
  simp only [ProducerOp.code]
  apply Safe.bind
  unfold push
  apply P.safe_self hw
  intro u P _
  apply P.safe_load hw
  intro u P hb
  have hfull : t = wadd C.w (u.ch.get .head) C.N ↔ t = u.ch.head + C.N :=
    eq_wadd_iff (by omega) C.fits (hb.head_le.trans P.own.tail_le)
  simp only [htail]
  by_cases hf : t = u.ch.head + C.N
  · rw [if_pos (hfull.mpr hf)]
    exact P.ret fun u P => P.ret fun u P =>
      (P.record _ _ rfl (by simp)).ready (by omega) (by simp; omega) (by omega)
  · rw [if_neg (fun hc => hf (hfull.mp hc))]
    have P := P.extend (t + 1) (by simp) (by have := P.own.room; omega) hlt
    refine P.safe_write ⟨by omega, by omega⟩ (.inl rfl) (by simp) (by simp; omega)
      (by simp [slot, moduloMask]) fun u _ P => ?_
    have h1 : wadd C.w t 1 = t + 1 := wadd_of_lt hlt
    have h2 : wadd C.w hd.producer.written 1 = hd.producer.written + 1 := wadd_of_lt (by omega)
    refine P.safe_update ?_ fun u P => ?_
    · simp only [Within, Handle.setTail, htail, h1]
      omega
    refine P.safe_update ?_ fun u P => ?_
    · simp only [Within, Handle.setTail, Handle.setWritten, htail, h1]
      omega
    refine P.ret fun u P => P.ret ?_
    intro u P
    refine (P.record (.push x) hd rfl fun _ => htail).ready ?_ ?_ ?_ <;>
      simp only [Handle.setTail, Handle.setWritten, htail, h1, h2, List.nil_append,
        List.length_singleton] <;> omega

/-- `sync` publishes everything up to the local tail. -/
theorem sync_safe {Q : Unit → ProducerView V → Prop} (P : Point C v hd T t e [])
    (htail : hd.producer.tail = t) (hT : T ≤ t)
    (next : ∀ u, Point C u (hd.setWritten 0) t t e [] → Q () u) :
    Safe (producerContract C (TailBound C)) sync Q v := by
  have hte : t ≤ e := by simpa using P.own.fill_le
  have hw : Within (hd.setWritten 0) T e :=
    ⟨by simp only [Handle.setWritten]; omega, by simp only [Handle.setWritten]; omega⟩
  unfold sync
  apply P.safe_update hw
  intro u P
  apply P.safe_self hw
  intro u P _
  rw [show (hd.setWritten 0).producer.tail = t from htail, ← Prog.bind_ret (store .tail t)]
  exact P.safe_storeTail ⟨by simp only [Handle.setWritten]; omega, hw.2⟩ fun u P => P.ret next

theorem reserve_safe {n : ℕ} (P : Point C v hd T t t []) (htail : hd.producer.tail = t)
    (hcount : T + hd.producer.written = t) (hlt : n ≤ C.N → t + n < 2 ^ C.w) :
    Safe (producerContract C (TailBound C)) (ProducerOp.code C (.reserve n))
      (ProducerPost C (.reserve n) hd) v := by
  have hw : Within hd T t := ⟨by omega, by omega⟩
  have hfail : ∀ u : ProducerView V, Point C u hd T t t [] →
      ProducerPost C (.reserve n) hd (.ready, []) u :=
    fun u P => (P.record _ _ rfl (by simp)).ready (by omega) (by simp; omega) (by omega)
  simp only [ProducerOp.code]
  apply Safe.bind
  unfold reserve
  split_ifs with h1 h2
  · exact P.ret fun u P => P.ret hfail
  · exact P.ret fun u P => P.ret hfail
  apply P.safe_load hw
  intro u P hb
  have hhead : u.ch.head ≤ t := hb.head_le.trans P.own.tail_le
  have hroom : t ≤ u.ch.head + C.N := P.own.room
  have hspace : wsub C.w C.N (wsub C.w hd.producer.tail (u.ch.get .head)) =
      C.N - (t - u.ch.head) := by
    have hlt' := P.own.lt
    rw [htail, show u.ch.get .head = u.ch.head from rfl, wsub_of_le hhead hlt',
      wsub_of_le (by omega) C.fits]
  by_cases hn : n > C.N - (t - u.ch.head)
  · apply P.safe_self hw
    intro u' P _
    rw [hspace, if_pos hn]
    exact P.ret fun u P => P.ret hfail
  · -- the space is claimed for the head that was loaded; a later head only leaves more
    have P := P.extend (t + n) (by simp) (by omega) (hlt (by omega))
    have hw : Within hd T (t + n) := ⟨by omega, by omega⟩
    apply P.safe_self hw
    intro u' P _
    rw [hspace, if_neg hn]
    refine P.safe_update ⟨hw.1, hw.2⟩ ?_
    intro u P
    refine P.ret fun u P => P.ret ?_
    intro u P
    refine (P.record (.reserve n) hd rfl (by simp)).open ?_ ?_ ?_ ?_ <;>
      simp only [Handle.setReservation, List.length_nil] <;> omega

/-! ### Writing through a reservation -/

/-- The reservation of `hd` starts at the local tail, has been written up to `pos` and ends at
`e`. -/
structure Writing (hd : Handle) (pos e : ℕ) : Prop where
  start : hd.reservation.startTail = hd.producer.tail
  written : hd.producer.tail + hd.reservation.written = pos
  count : hd.producer.tail + hd.reservation.count = e

/-- Count `n` more values as written. -/
def Handle.wroteMore (w n : ℕ) (h : Handle) : Handle :=
  h.setReservation { h.reservation with written := wadd w h.reservation.written n }

theorem Writing.more {pos n : ℕ} (hr : Writing hd pos e) (hn : pos + n ≤ e) (he : e < 2 ^ C.w) :
    Writing (hd.wroteMore C.w n) (pos + n) e := by
  obtain ⟨h1, h2, h3⟩ := hr
  have hadd : wadd C.w hd.reservation.written n = hd.reservation.written + n :=
    wadd_of_lt (by omega)
  refine ⟨h1, ?_, h3⟩
  simp only [Handle.wroteMore, Handle.setReservation, hadd]
  omega

theorem Writing.slot_next {pos : ℕ} (hr : Writing hd pos e) (hn : pos < 2 ^ C.w) :
    wadd C.w hd.reservation.startTail hd.reservation.written &&& moduloMask C.N =
      slot C.N pos := by
  obtain ⟨h1, h2, h3⟩ := hr
  rw [h1, wadd_of_lt (by omega), h2]
  rfl

theorem writeNext_safe {x : V} {α : Type} {Q : α → ProducerView V → Prop}
    {k : Outcome Unit → Proc Handle V α} (P : Point C v hd T t e pend)
    (hr : Writing hd (t + pend.length) e) (hT : T ≤ hd.producer.tail) (hlt : t + pend.length < e)
    (next : ∀ u, Point C u (hd.wroteMore C.w 1) T t e (pend ++ [x]) →
      Safe (producerContract C (TailBound C)) (k (.ok ())) Q u) :
    Safe (producerContract C (TailBound C)) (Reservation.writeNext C.w C.N x >>= k) Q v := by
  have hw : Within hd T e := ⟨hT, by have := hr.count; omega⟩
  have he := P.own.lt
  unfold Reservation.writeNext
  rw [Prog.bind_assoc]
  apply P.safe_self hw
  intro u P _
  rw [if_neg (by have := hr.written; have := hr.count; omega), Prog.bind_assoc]
  refine P.safe_write hw (.inl rfl) hlt (by have := hr.written; omega)
    (hr.slot_next (by omega)) fun u _ P => ?_
  rw [Prog.bind_assoc]
  exact P.safe_update ⟨hw.1, hw.2⟩ next

theorem writeNextCall_safe {x : V} (P : Point C v hd T t e []) (hr : Writing hd t e)
    (hcount : T + hd.producer.written = hd.producer.tail) :
    Safe (producerContract C (TailBound C)) (ProducerOp.code C (.writeNext x))
      (ProducerPost C (.writeNext x) hd) v := by
  have hw : Within hd T e := ⟨by omega, by have := hr.count; omega⟩
  have he := P.own.lt
  have h1 := hr.written
  have h2 := hr.count
  have hpos : (ProducerOp.writeNext x).position hd = t := by
    simp only [ProducerOp.position, hr.start, hr.written]
  simp only [ProducerOp.code]
  rcases Nat.lt_or_ge hd.reservation.written hd.reservation.count with hlt | hge
  · refine writeNext_safe P hr hw.1 (by simp; omega) fun u P => P.ret ?_
    intro u P
    have hr' := hr.more (C := C) (n := 1) (by omega) he
    exact (P.record (.writeNext x) hd rfl fun _ => hpos).open hr'.written hr'.count hcount hr'.start
  · unfold Reservation.writeNext
    rw [Prog.bind_assoc]
    apply P.safe_self hw
    intro u P _
    rw [if_pos hge]
    exact P.ret fun u P => (P.record (.writeNext x) hd rfl (by simp)).open h1 h2 hcount hr.start

/-- A block copy to consecutive slots. -/
theorem copyTo_safe {i : ℕ} {xs : List V} {α : Type} {Q : α → ProducerView V → Prop}
    {k : Unit → Proc Handle V α} (P : Point C v hd T t e pend) (hw : Within hd T e)
    (hle : hd.producer.tail ≤ t) (hfit : t + pend.length + xs.length ≤ e)
    (hi : ∀ j, j < xs.length → i + j = slot C.N (t + pend.length + j))
    (next : ∀ u, Point C u hd T t e (pend ++ xs) →
      Safe (producerContract C (TailBound C)) (k ()) Q u) :
    Safe (producerContract C (TailBound C)) (copyTo i xs >>= k) Q v := by
  induction xs generalizing i pend v with
  | nil => exact next v (by simpa using P)
  | cons x xs ih =>
      simp only [List.length_cons] at hfit hi
      unfold copyTo
      rw [Prog.bind_assoc]
      apply P.safe_write hw (.inr rfl) (by omega) (by omega) (hi 0 (by omega))
      intro u _ P
      refine ih P (by simp; omega) (fun j hj => ?_) (fun u P => next u (by simpa using P))
      have := hi (j + 1) (by omega)
      rw [List.length_append, List.length_singleton]
      rw [show i + 1 + j = i + (j + 1) by omega, this]
      congr 1
      omega

/-- The copies of `write_all` go to the slots of consecutive positions, across the end of the
ring or not. -/
theorem copyValues_safe {xs : List V} {α : Type} {Q : α → ProducerView V → Prop}
    {k : Unit → Proc Handle V α} (P : Point C v hd T t e []) (hw : Within hd T e)
    (hle : hd.producer.tail ≤ t) (hfit : t + xs.length ≤ e) (hN : xs.length ≤ C.N)
    (next : ∀ u, Point C u hd T t e xs → Safe (producerContract C (TailBound C)) (k ()) Q u) :
    Safe (producerContract C (TailBound C))
      (Reservation.copyValues C.w C.N (slot C.N t) xs >>= k) Q v := by
  have hs := slot_lt C.pow t
  rw [Reservation.copyValues_eq hs hN]
  split_ifs with h
  · refine copyTo_safe P hw hle (by simpa using hfit) (fun j hj => ?_) next
    rw [List.length_nil, Nat.add_zero, slot_add C.pow (by omega), if_pos (by omega)]
  · rw [Prog.bind_assoc]
    have hlen : (xs.take (C.N - slot C.N t)).length = C.N - slot C.N t := by
      rw [List.length_take]
      omega
    refine copyTo_safe P hw hle (by simp; omega) (fun j hj => ?_) fun u P => ?_
    · rw [hlen] at hj
      rw [List.length_nil, Nat.add_zero, slot_add C.pow (by omega), if_pos (by omega)]
    · refine copyTo_safe P hw hle (by simp; omega) (fun j hj => ?_) (fun u P => next u ?_)
      · rw [List.length_drop] at hj
        rw [List.nil_append, hlen,
          show t + (C.N - slot C.N t) + j = t + (C.N - slot C.N t + j) by omega,
          slot_add C.pow (by omega), if_neg (by omega)]
        omega
      · simpa using P

theorem writeAll_safe {xs : List V} (P : Point C v hd T t e []) (hr : Writing hd t e)
    (hcount : T + hd.producer.written = hd.producer.tail) :
    Safe (producerContract C (TailBound C)) (ProducerOp.code C (.writeAll xs))
      (ProducerPost C (.writeAll xs) hd) v := by
  have hw : Within hd T e := ⟨by omega, by have := hr.count; omega⟩
  have hpos : (ProducerOp.writeAll xs).position hd = t := by
    simp only [ProducerOp.position, hr.start, hr.written]
  have hstop : ∀ u : ProducerView V, Point C u hd T t e [] →
      ProducerPost C (.writeAll xs) hd (.reserved, []) u :=
    fun u P =>
      (P.record _ _ rfl (by simp)).open (by simpa using hr.written) hr.count hcount hr.start
  have he := P.own.lt
  have hte : t ≤ e := by simpa using P.own.fill_le
  simp only [ProducerOp.code]
  apply Safe.bind
  unfold Reservation.writeAll
  apply P.safe_self hw
  intro u P hb
  have hrem : Reservation.remaining C.w hd.reservation = e - t := by
    have h1 := hr.written
    have h2 := hr.count
    rw [Reservation.remaining, wsub_of_le (by omega) (by omega)]
    omega
  simp only [hrem, hr.slot_next (hte.trans_lt he)]
  split_ifs with hlong hnil
  · exact P.ret fun u P => P.ret hstop
  · obtain rfl : xs = [] := by simpa using hnil
    exact P.ret fun u P => P.ret hstop
  · have hN : xs.length ≤ C.N := by
      have h1 := hb.head_le
      have h2 := P.own.tail_le
      have h3 := P.own.room
      omega
    apply copyValues_safe P hw (by have := hr.written; omega) (by omega) hN
    intro u P
    have hr' := hr.more (C := C) (n := xs.length) (by omega) he
    refine P.safe_update ⟨hw.1, hw.2⟩ fun u P => P.ret fun u P => P.ret ?_
    intro u P
    exact (P.record (.writeAll xs) hd rfl fun _ => hpos).open hr'.written hr'.count hcount hr'.start

/-- `hd` after `n` calls of `write_next`. -/
def Handle.wroteTimes (w : ℕ) (h : Handle) : ℕ → Handle
  | 0 => h
  | n + 1 => (h.wroteTimes w n).wroteMore w 1

theorem Handle.wroteTimes_producer (w : ℕ) (h : Handle) (n : ℕ) :
    (h.wroteTimes w n).producer = h.producer := by
  induction n with
  | zero => rfl
  | succ n ih => exact ih

theorem Writing.times {n : ℕ} (hr : Writing hd t e) (hn : t + n ≤ e) (he : e < 2 ^ C.w) :
    Writing (hd.wroteTimes C.w n) (t + n) e := by
  induction n with
  | zero => exact hr
  | succ n ih => exact (ih (by omega)).more (by omega) he

/-- The loop of `write_iter`: whatever it leaves of the iterator, the values it wrote are the
next items, in order. -/
theorem writeIterLoop_safe {items : ℕ → Option V} {i fuel : ℕ} {α : Type}
    {Q : α → ProducerView V → Prop} {k : ℕ → Proc Handle V α} (pend : List V)
    (P : Point C v (hd.wroteTimes C.w pend.length) T t e pend) (hr : Writing hd t e)
    (hT : T ≤ hd.producer.tail)
    (hitems : ∀ j, j < pend.length → items (i + j) = pend[j]?)
    (next : ∀ u ys j, Point C u (hd.wroteTimes C.w ys.length) T t e ys →
      (∀ j, j < ys.length → items (i + j) = ys[j]?) →
      Safe (producerContract C (TailBound C)) (k j) Q u) :
    Safe (producerContract C (TailBound C))
      (Reservation.writeIterLoop C.w C.N items fuel (i + pend.length) >>= k) Q v := by
  induction fuel generalizing pend v with
  | zero => exact next v pend _ P hitems
  | succ fuel ih =>
      have he := P.own.lt
      have hfill := P.own.fill_le
      have hr' := hr.times (C := C) hfill he
      have hT' : T ≤ (hd.wroteTimes C.w pend.length).producer.tail := by
        rw [Handle.wroteTimes_producer]
        exact hT
      have hw : Within (hd.wroteTimes C.w pend.length) T e :=
        ⟨hT', by have := hr'.count; omega⟩
      unfold Reservation.writeIterLoop
      cases hi : items (i + pend.length) with
      | none => exact next v pend _ P hitems
      | some x =>
          simp only [Prog.bind_assoc]
          apply P.safe_self hw
          intro u P _
          split_ifs with hfull
          · exact next u pend _ P hitems
          · have hlt : t + pend.length < e := by
              have h1 := hr'.written
              have h2 := hr'.count
              omega
            rw [Prog.bind_assoc]
            apply writeNext_safe P hr' hT' hlt
            intro u P
            have e1 : (pend ++ [x]).length = pend.length + 1 := by simp
            have hitems' : ∀ j, j < (pend ++ [x]).length → items (i + j) = (pend ++ [x])[j]? := by
              intro j hj
              rcases Nat.lt_or_ge j pend.length with hlt' | hge
              · rw [List.getElem?_append_left hlt', hitems j hlt']
              · obtain rfl : j = pend.length := by omega
                simpa using hi
            have := ih (pend ++ [x]) (by rw [e1]; exact P) hitems'
            rwa [e1] at this

/-- The items of an iterator, read off from a list of them. -/
theorem filterMap_items {items : ℕ → Option V} {i : ℕ} {xs : List V}
    (h : ∀ j, j < xs.length → items (i + j) = xs[j]?) :
    (List.range xs.length).filterMap (fun k => items (i + k)) = xs := by
  have e : (List.range xs.length).map (fun k => items (i + k)) = xs.map some := by
    apply List.ext_getElem
    · simp
    · intro n h1 h2
      simp only [List.length_map, List.length_range] at h1
      simp [h n h1, List.getElem?_eq_getElem h1]
  calc (List.range xs.length).filterMap (fun k => items (i + k))
      = ((List.range xs.length).map (fun k => items (i + k))).filterMap id := by
        rw [List.filterMap_map]
        rfl
    _ = (xs.map some).filterMap id := by rw [e]
    _ = xs := by rw [List.filterMap_map]; exact List.filterMap_some

theorem writeIter_safe {items : ℕ → Option V} {i : ℕ} (P : Point C v hd T t e [])
    (hr : Writing hd t e) (hcount : T + hd.producer.written = hd.producer.tail) :
    Safe (producerContract C (TailBound C)) (ProducerOp.code C (.writeIter items i))
      (ProducerPost C (.writeIter items i) hd) v := by
  have hw : Within hd T e := ⟨by omega, by have := hr.count; omega⟩
  have hpos : (ProducerOp.writeIter items i).position hd = t := by
    simp only [ProducerOp.position, hr.start, hr.written]
  simp only [ProducerOp.code]
  apply Safe.bind
  unfold Reservation.writeIter
  apply P.safe_self hw
  intro u P _
  apply writeIterLoop_safe [] P hr (by omega) (by simp)
  intro u ys j P hys
  have he := P.own.lt
  have hr' := hr.times (C := C) P.own.fill_le he
  refine P.safe_self ⟨?_, by have := hr'.count; omega⟩ fun u P _ => ?_
  · rw [Handle.wroteTimes_producer]
    omega
  have hn : wsub C.w (hd.wroteTimes C.w ys.length).reservation.written hd.reservation.written =
      ys.length := by
    have h1 := hr'.written
    have h2 := hr.written
    have h3 := hr'.count
    have h4 := P.own.fill_le
    rw [Handle.wroteTimes_producer] at h1 h3
    rw [wsub_of_le (by omega) (by omega)]
    omega
  rw [hn]
  refine P.ret fun u P => P.ret ?_
  intro u P
  rw [filterMap_items hys]
  refine (P.record (.writeIter items i) hd rfl fun _ => hpos).open hr'.written hr'.count ?_
    hr'.start
  rw [Handle.wroteTimes_producer]
  exact hcount

/-! ### Ending a reservation -/

theorem commit_safe (P : Point C v hd T t e []) (hr : Writing hd t e)
    (hcount : T + hd.producer.written = hd.producer.tail) :
    Safe (producerContract C (TailBound C)) (ProducerOp.code C .commit)
      (ProducerPost C .commit hd) v := by
  obtain ⟨h1, h2, h3⟩ := hr
  have he := P.own.lt
  have hte : t ≤ e := by simpa using P.own.fill_le
  have hadd1 : wadd C.w hd.producer.tail hd.reservation.written = t := by
    rw [wadd_of_lt (by omega), h2]
  have hadd2 : wadd C.w hd.producer.written hd.reservation.written =
      hd.producer.written + hd.reservation.written := wadd_of_lt (by omega)
  simp only [ProducerOp.code, Reservation.commit, Prog.bind_assoc]
  refine P.safe_update ⟨by simp only [Handle.setReservation]; omega,
    by simp only [Handle.setReservation]; omega⟩ fun u P => ?_
  refine P.safe_update ⟨by simp only [Handle.setReservation, Handle.setTail, hadd1]; omega,
    by simp only [Handle.setReservation, Handle.setTail, hadd1]; omega⟩ fun u P => ?_
  have hw : Within ((((hd.setReservation { hd.reservation with committed := true }).setTail
      (wadd C.w hd.producer.tail hd.reservation.written))).setWritten
      (wadd C.w hd.producer.written hd.reservation.written)) T e :=
    ⟨by simp only [Handle.setReservation, Handle.setTail, Handle.setWritten, hadd1]; omega,
      by simp only [Handle.setReservation, Handle.setTail, Handle.setWritten, hadd1]; omega⟩
  refine P.safe_update hw fun u P => ?_
  refine P.safe_self hw fun u P _ => ?_
  split_ifs with hsync
  · refine Safe.bind (sync_safe P hadd1 (by omega) fun u P => P.ret fun u P => ?_)
    refine (P.record .commit hd rfl (by simp)).ready ?_ ?_ ?_ <;>
      simp only [Handle.setReservation, Handle.setTail, Handle.setWritten, hadd1,
        List.length_nil] <;> omega
  · refine P.ret fun u P => ?_
    refine (P.record .commit hd rfl (by simp)).ready ?_ ?_ ?_ <;>
      simp only [Handle.setReservation, Handle.setTail, Handle.setWritten, hadd1, hadd2,
        List.length_nil] <;> omega

theorem consumerHeartbeat_safe (P : Point C v hd T t t []) (htail : hd.producer.tail = t)
    (hcount : T + hd.producer.written = t) :
    Safe (producerContract C (TailBound C)) (ProducerOp.code C .consumerHeartbeat)
      (ProducerPost C .consumerHeartbeat hd) v := by
  have hw : Within hd T t := ⟨by omega, by omega⟩
  simp only [ProducerOp.code, consumerHeartbeat, Prog.bind_assoc]
  refine P.safe_load hw fun u P _ => ?_
  refine P.safe_self hw fun u P _ => ?_
  split_ifs with hne
  · refine P.safe_update ⟨by simp only [Handle.setLastConsumerHeartbeat]; omega,
      by simp only [Handle.setLastConsumerHeartbeat]; omega⟩ fun u P => P.ret fun u P => ?_
    refine (P.record .consumerHeartbeat hd rfl (by simp)).ready ?_ ?_ ?_ <;>
      simp only [Handle.setLastConsumerHeartbeat, List.length_nil] <;> omega
  · refine P.ret fun u P => ?_
    exact (P.record .consumerHeartbeat hd rfl (by simp)).ready (by omega) (by simp; omega)
      (by omega)

/-- **Every call keeps the producer's contract** and returns in the assertion of the status it
reports. -/
theorem ProducerOp.code_safe (op : ProducerOp V) {st : ProducerStatus} (h : ProducerRest C st v)
    (hen : op.enabled st = true) (hlt : v.handle.producer.tail + op.demand C < 2 ^ C.w) :
    Safe (producerContract C (producerBound C op)) (op.code C) (ProducerPost C op v.handle) v := by
  have hready : ∀ {op : ProducerOp V}, op.isJoin = false → Ready C v → ∀ u : ProducerView V,
      Point C u v.handle v.ch.tail v.handle.producer.tail v.handle.producer.tail [] →
      ProducerPost C op v.handle (.ready, []) u := fun hop h u P =>
    (P.record _ _ hop (by simp)).ready (by have := h.2; omega) (by simp) h.2
  cases op with
  | join =>
      exact Safe.bind ((joinProducer_safe v).mono fun r u hj => install_safe hj)
  | joinOrInitializeIn =>
      exact Safe.bind ((joinOrInitializeIn_safe v).mono fun r u hj => install_safe hj)
  | joinOrCreateShmem =>
      exact Safe.bind ((joinOrCreateShmem_safe v).mono fun r u hj => install_safe hj)
  | push x =>
      cases st with
      | ready => exact push_safe h.point rfl h.2 hlt
      | _ => simp [enabled] at hen
  | sync =>
      cases st with
      | ready =>
          have hcount := h.2
          refine Safe.bind (sync_safe h.point rfl (by omega) fun u P => P.ret fun u P => ?_)
          exact (P.record .sync v.handle rfl (by simp)).ready le_rfl (by simp [Handle.setWritten])
            (by simp [Handle.setWritten])
      | _ => simp [enabled] at hen
  | beat =>
      cases st with
      | ready =>
          have hcount := h.2
          refine h.point.safe_fetchAdd ⟨by omega, le_rfl⟩ (by simp) fun u r P => P.ret ?_
          exact hready rfl h
      | _ => simp [enabled] at hen
  | consumerHeartbeat =>
      cases st with
      | ready => exact consumerHeartbeat_safe h.point rfl h.2
      | _ => simp [enabled] at hen
  | reserve n =>
      cases st with
      | ready =>
          refine reserve_safe h.point rfl h.2 fun hn => ?_
          simpa [demand, hn] using hlt
      | _ => simp [enabled] at hen
  | writeNext x =>
      cases st with
      | reserved =>
          exact writeNextCall_safe h.point ⟨h.2.2, rfl, rfl⟩ h.2.1
      | _ => simp [enabled] at hen
  | writeAll xs =>
      cases st with
      | reserved => exact writeAll_safe h.point ⟨h.2.2, rfl, rfl⟩ h.2.1
      | _ => simp [enabled] at hen
  | writeIter items i =>
      cases st with
      | reserved => exact writeIter_safe h.point ⟨h.2.2, rfl, rfl⟩ h.2.1
      | _ => simp [enabled] at hen
  | commit =>
      cases st with
      | reserved => exact commit_safe h.point ⟨h.2.2, rfl, rfl⟩ h.2.1
      | _ => simp [enabled] at hen
  | cancel =>
      cases st with
      | reserved =>
          refine h.point.ret fun u P => ?_
          exact (P.record .cancel v.handle rfl (by simp)).ready (by have := h.2.1; omega) (by simp)
            h.2.1
      | _ => simp [enabled] at hen
  | drop =>
      cases st with
      | ready =>
          have hcount := h.2
          unfold ProducerOp.code dropEndpoint
          cases C.mode.backedByArcc with
          | false => exact h.point.ret fun u P => trivial
          | true =>
              exact h.point.safe_dropArc ⟨by omega, le_rfl⟩ fun u P => P.ret fun u P => trivial
      | _ => simp [enabled] at hen

end calls

end Que.Lossless
