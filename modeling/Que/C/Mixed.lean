import Que.C.Simulation
import Que.Lossless.Fifo

/-! # Channels with endpoints in both languages

The lossless system of `Lossless/System.lean`, in which every call may be made by Rust code or by
the C code of `C/Endpoints.lean`, interleaved action by action.  `Simulation.lean` compares whole
calls; here calls overlap.

* **Contract.** The C functions do not check how a reservation is used: the caller writes no more
  than what is left of it (`ProducerOp.allowed`).
* **Verification.** The C code keeps the contracts that the Rust code keeps
  (`ProducerOp.threadCode_safe`, `ConsumerOp.threadCode_safe`), so the invariant of the lossless
  system holds in all mixed runs (`Sound.mixed`). -/

namespace Que.C

open Lib Lossless

variable {V : Type} {C : Shared}

/-! ### Calls -/

namespace ProducerOp

/-- The Rust call with the same purpose. -/
def counterpart : ProducerOp V → Lossless.ProducerOp V
  | join => .join
  | joinOrInitialize => .joinOrInitializeIn
  | push value => .push value
  | sync => .sync
  | beat => .beat
  | consumerHeartbeat => .consumerHeartbeat
  | reserve count => .reserve count
  | writeNext value => .writeNext value
  | writeAll values => .writeAll values
  | commit => .commit
  | cancel => .cancel

/-- The status after a call, and the values that were written to consecutive positions. -/
def outcome : ProducerOp V → Response V → ProducerStatus × List V
  | join, .flag true | joinOrInitialize, .flag true => (.ready, [])
  | join, _ | joinOrInitialize, _ => (.gone, [])
  | push value, .flag true => (.ready, [value])
  | reserve _, .flag true => (.reserved, [])
  | writeNext value, _ => (.reserved, [value])
  | writeAll values, _ => (.reserved, values)
  | _, _ => (.ready, [])

/-- The C code of a call. -/
def threadCode (C : Shared) (op : ProducerOp V) : Proc Handle V (ProducerStatus × List V) := do
  return op.outcome (← cProducer C op)

/-- How a caller may use a reservation. -/
def allowed (h : Handle) : ProducerOp V → Bool
  | writeNext _ => h.reservation.written < h.reservation.count
  | writeAll values => h.reservation.written + values.length ≤ h.reservation.count
  | _ => true

end ProducerOp

namespace ConsumerOp

def counterpart : ConsumerOp → Lossless.ConsumerOp V
  | join => .join
  | pop => .pop
  | beat => .beat
  | producerHeartbeat => .producerHeartbeat

/-- The status after a call, and the value popped. -/
def outcome : ConsumerOp → Response V → ConsumerStatus × Option V
  | join, .flag true => (.ready, none)
  | join, _ => (.gone, none)
  | pop, .value v => (.ready, v)
  | _, _ => (.ready, none)

def threadCode (C : Shared) (op : ConsumerOp) : Proc Consumer V (ConsumerStatus × Option V) := do
  return op.outcome (← cConsumer C op)

end ConsumerOp

/-! ### The producer's code -/

section producer
variable {v : ProducerView V} {hd : Handle} {T t e : ℕ}

/-- The shared tail is `n`, and there is room in the ring. -/
structure TailAt (C : Config) (n : ℕ) (v : ProducerView V) : Prop where
  tail : v.ch.tail = n
  room : n ≤ v.ch.head + C.N
  lt : n < 2 ^ C.w

theorem TailAt.stable {C : Config} {n : ℕ} {v u : ProducerView V} (h : TailAt C n v)
    (hr : ProducerRely C v u) : TailAt C n u :=
  ⟨hr.change.tail.trans h.tail, h.room.trans (Nat.add_le_add_right hr.change.head_le _), h.lt⟩

theorem TailAt.ready {C : Config} {n : ℕ} {v : ProducerView V} (h : TailAt C n v)
    (htail : v.handle.producer.tail = n) (hwritten : v.handle.producer.written = 0)
    (wrote : ℕ → Option V) : Ready C { v with wrote := wrote } := by
  obtain ⟨rfl, hroom, hlt⟩ := h
  unfold Ready
  simp only [htail, hwritten]
  refine ⟨⟨le_rfl, le_rfl, hroom, hlt, fun p h1 h2 => absurd h2 (Nat.not_lt.mpr h1), ?_⟩, rfl⟩
  intro i x hi
  simp at hi

/-- The end of the constructors on an existing channel. -/
theorem readTail_safe {α : Type} {c : Proc Handle V α} {Q : α → ProducerView V → Prop}
    (next : ∀ u n, TailAt C.toConfig n u → u.handle.producer.tail = n →
      u.handle.producer.written = 0 →
      Safe (producerContract C.toConfig fun _ => True) c Q u) :
    Safe (producerContract C.toConfig fun _ => True)
      (do
        let tail ← load .tail
        update fun h => h.setTail tail
        update fun h => h.setWritten 0
        let lastConsumerHeartbeat ← load .consumerHeartbeat
        update fun h => h.setLastConsumerHeartbeat lastConsumerHeartbeat
        c) Q v := by
  refine safe_load fun u _ hb hroom => ⟨trivial, ?_⟩
  have hu : TailAt C.toConfig u.ch.tail u := ⟨rfl, hroom rfl, hb.tail_lt⟩
  refine safe_update fun u₁ h₁ => ⟨trivial, ?_⟩
  refine safe_update fun u₂ h₂ => ⟨trivial, ?_⟩
  refine safe_load fun u₃ h₃ _ _ => ⟨trivial, ?_⟩
  refine safe_update fun u₄ h₄ => ⟨trivial, ?_⟩
  have hhandle : u₃.handle = (u.handle.setTail u.ch.tail).setWritten 0 := h₃.handle
  have htail : TailAt C.toConfig u.ch.tail u₄ := by
    have t₁ := hu.stable h₁
    have t₂ := (show TailAt C.toConfig u.ch.tail
      { u₁ with handle := u.handle.setTail u.ch.tail } from ⟨t₁.tail, t₁.room, t₁.lt⟩).stable h₂
    have t₃ := (show TailAt C.toConfig u.ch.tail { u₂ with
      handle := (u.handle.setTail u.ch.tail).setWritten 0 } from
      ⟨t₂.tail, t₂.room, t₂.lt⟩).stable h₃
    exact t₃.stable h₄
  refine next _ u.ch.tail ⟨htail.tail, htail.room, htail.lt⟩ ?_ ?_
  · show (u₃.handle.setLastConsumerHeartbeat _).producer.tail = _
    rw [hhandle]
    rfl
  · show (u₃.handle.setLastConsumerHeartbeat _).producer.written = _
    rw [hhandle]
    rfl

theorem joinProducer_safe {start : Handle} :
    Safe (producerContract C.toConfig fun _ => True) (ProducerOp.threadCode C .join)
      (ProducerPost C.toConfig .join start) v := by
  simp only [ProducerOp.threadCode, cProducer, joinProducer]
  rw [if_neg (by simp [validRegion_of_validBuffer C.valid])]
  simp only [Prog.bind_assoc]
  refine safe_load fun u _ hb _ => ⟨trivial, ?_⟩
  refine safe_load fun u' _ hb' _ => ⟨trivial, ?_⟩
  rw [if_pos (show u.ch.get .magic = MAGIC from hb.magic.trans MAGIC_eq.symm),
    if_neg (not_not.mpr (show u'.ch.get .capacity = C.N from hb'.capacity))]
  simp only [Prog.bind_assoc]
  refine readTail_safe fun u n hu htail hwritten => ?_
  exact Safe.ret fun t ht =>
    (hu.stable ht).ready (by rw [ht.handle, htail]) (by rw [ht.handle, hwritten]) _

theorem joinOrInitialize_safe {start : Handle} :
    Safe (producerContract C.toConfig fun _ => True) (ProducerOp.threadCode C .joinOrInitialize)
      (ProducerPost C.toConfig .joinOrInitializeIn start) v := by
  simp only [ProducerOp.threadCode, cProducer, joinOrInitialize]
  rw [if_neg (by simp [validRegion_of_validBuffer C.valid])]
  simp only [Prog.bind_assoc]
  refine safe_load fun u _ hb _ => ⟨trivial, ?_⟩
  refine safe_load fun u' _ hb' _ => ⟨trivial, ?_⟩
  rw [if_pos (show u.ch.get .magic = MAGIC from hb.magic.trans MAGIC_eq.symm),
    if_neg (not_not.mpr (show u'.ch.get .capacity = C.N from hb'.capacity))]
  simp only [Prog.bind_assoc]
  refine safe_fetchAdd (by simp) fun u ch _ _ _ => ⟨trivial, ?_⟩
  refine readTail_safe fun u n hu htail hwritten => ?_
  exact Safe.ret fun t ht =>
    (hu.stable ht).ready (by rw [ht.handle, htail]) (by rw [ht.handle, hwritten]) _

theorem push_safe {x : V} (P : Point C.toConfig v hd T t t []) (htail : hd.producer.tail = t)
    (hcount : T + hd.producer.written = t) (hlt : t + 1 < 2 ^ C.w) :
    Safe (producerContract C.toConfig (TailBound C.toConfig)) (ProducerOp.threadCode C (.push x))
      (ProducerPost C.toConfig (.push x) hd) v := by
  have hw : Within hd T t := ⟨by omega, by omega⟩
  simp only [ProducerOp.threadCode, cProducer, push, Prog.bind_assoc]
  apply P.safe_load hw
  intro u P hb
  have hfull : t = wadd C.w (u.ch.get .head) C.N ↔ t = u.ch.head + C.N :=
    eq_wadd_iff (by omega) C.fits (hb.head_le.trans P.own.tail_le)
  have hspace : t ≠ u.ch.head + C.N → t + 1 ≤ u.ch.head + C.N := by
    have := P.own.room
    omega
  rw [C.wide] at hfull
  by_cases hf : t = u.ch.head + C.N
  · apply P.safe_self hw
    intro u' P _
    rw [htail, if_pos (hfull.mpr hf)]
    exact P.ret fun u P => (P.record (.push x) hd rfl (by simp)).ready (by omega) (by simp; omega)
      (by omega)
  · -- the space is claimed for the head that was loaded
    have P := P.extend (t + 1) (by simp) (hspace hf) hlt
    apply P.safe_self ⟨by omega, by omega⟩
    intro u' P _
    simp only [htail]
    rw [if_neg (fun hc => hf (hfull.mp hc))]
    simp only [Prog.bind_assoc]
    refine P.safe_write ⟨by omega, by omega⟩ (.inr rfl) (by simp) (by simp; omega)
      (by simp [slot]) fun u _ P => ?_
    have h1 : wadd 64 t 1 = t + 1 := wadd_of_lt (by rw [← C.wide]; exact hlt)
    have h2 : wadd 64 hd.producer.written 1 = hd.producer.written + 1 :=
      wadd_of_lt (by rw [← C.wide]; omega)
    refine P.safe_update ?_ fun u P => ?_
    · simp only [Within, Handle.setTail, htail, h1]
      omega
    refine P.safe_update ?_ fun u P => ?_
    · simp only [Within, Handle.setTail, Handle.setWritten, htail, h1]
      omega
    refine P.ret fun u P => ?_
    refine (P.record (.push x) hd rfl fun _ => htail).ready ?_ ?_ ?_ <;>
      simp only [Handle.setTail, Handle.setWritten, htail, h1, h2, List.nil_append,
        List.length_singleton] <;> omega

theorem reserve_safe {n : ℕ} (P : Point C.toConfig v hd T t t []) (htail : hd.producer.tail = t)
    (hcount : T + hd.producer.written = t) (hlt : n ≤ C.N → t + n < 2 ^ C.w) :
    Safe (producerContract C.toConfig (TailBound C.toConfig)) (ProducerOp.threadCode C (.reserve n))
      (ProducerPost C.toConfig (.reserve n) hd) v := by
  have hw : Within hd T t := ⟨by omega, by omega⟩
  have hfail : ∀ u : ProducerView V, Point C.toConfig u hd T t t [] →
      ProducerPost C.toConfig (.reserve n) hd (.ready, []) u :=
    fun u P => (P.record _ _ rfl (by simp)).ready (by omega) (by simp; omega) (by omega)
  simp only [ProducerOp.threadCode, cProducer, reserve]
  by_cases hn : n = 0 ∨ n > C.N
  · rw [if_pos hn]
    exact P.ret hfail
  rw [if_neg hn]
  simp only [Prog.bind_assoc]
  apply P.safe_load hw
  intro u P hb
  have hhead : u.ch.head ≤ t := hb.head_le.trans P.own.tail_le
  have hroom : t ≤ u.ch.head + C.N := P.own.room
  have hspace : wsub 64 C.N (wsub 64 hd.producer.tail (u.ch.get .head)) =
      C.N - (t - u.ch.head) := by
    have hlt' := P.own.lt
    have hfits := C.fits
    rw [C.wide] at hlt' hfits
    rw [htail, show u.ch.get .head = u.ch.head from rfl, wsub_of_le hhead hlt',
      wsub_of_le (by omega) hfits]
  by_cases hfull : n > C.N - (t - u.ch.head)
  · apply P.safe_self hw
    intro u' P _
    simp only [hspace]
    rw [if_pos hfull]
    exact P.ret hfail
  · have P := P.extend (t + n) (by simp) (by omega) (hlt (by omega))
    have hw : Within hd T (t + n) := ⟨by omega, by omega⟩
    apply P.safe_self hw
    intro u' P _
    simp only [hspace]
    rw [if_neg hfull]
    simp only [Prog.bind_assoc]
    refine P.safe_update ⟨hw.1, hw.2⟩ fun u P => P.ret ?_
    intro u P
    refine (P.record (.reserve n) hd rfl (by simp)).open ?_ ?_ ?_ ?_ <;>
      simp only [Handle.setReservation, List.length_nil] <;> omega

/-- The slot after what has been written through a reservation. -/
theorem slot_next {pos : ℕ} (hr : Writing hd pos e) (hn : pos < 2 ^ C.w) :
    wadd 64 hd.reservation.startTail hd.reservation.written &&& (C.N - 1) = slot C.N pos := by
  have h := hr.slot_next (C := C.toConfig) hn
  rwa [C.wide] at h

theorem wroteMore_eq (h : Handle) (n : ℕ) : h.setReservation
    { h.reservation with written := wadd 64 h.reservation.written n } = h.wroteMore C.w n := by
  rw [C.wide]
  rfl

theorem writeNext_safe {x : V} (P : Point C.toConfig v hd T t e []) (hr : Writing hd t e)
    (hcount : T + hd.producer.written = hd.producer.tail)
    (hlt : hd.reservation.written < hd.reservation.count) :
    Safe (producerContract C.toConfig (TailBound C.toConfig))
      (ProducerOp.threadCode C (.writeNext x)) (ProducerPost C.toConfig (.writeNext x) hd) v := by
  have hw : Within hd T e := ⟨by omega, by have := hr.count; omega⟩
  have he := P.own.lt
  have h1 := hr.written
  have h2 := hr.count
  have hpos : (Lossless.ProducerOp.writeNext x).position hd = t := by
    simp only [Lossless.ProducerOp.position, hr.start, hr.written]
  simp only [ProducerOp.threadCode, cProducer, reservationGetNext, reservationWriteNext,
    Prog.bind_assoc]
  apply P.safe_self hw
  intro u P _
  refine P.safe_write hw (.inr rfl) (by simp; omega) (by simp; omega)
    (slot_next (C := C) (by simpa using hr) (by simp; omega)) fun u _ P => ?_
  have hr' := hr.more (C := C.toConfig) (n := 1) (by omega) he
  refine P.safe_update (by rw [wroteMore_eq (C := C)]; exact ⟨hw.1, hw.2⟩) fun u P => P.ret ?_
  intro u P
  rw [wroteMore_eq (C := C)] at P
  exact (P.record (.writeNext x) hd rfl fun _ => hpos).open hr'.written hr'.count hcount hr'.start

/-- The copies of `reservation_write_all` are those of `Reservation::write_all`. -/
theorem copyValues_bind {α : Type} (i : ℕ) (xs : List V) (k : Unit → Proc Handle V α) :
    (if wadd 64 i xs.length ≤ C.N then copyTo i xs >>= k
      else do
        copyTo i (xs.take (wsub 64 C.N i))
        copyTo 0 (xs.drop (wsub 64 C.N i))
        k ()) = Reservation.copyValues C.w C.N i xs >>= k := by
  unfold Reservation.copyValues
  rw [C.wide]
  dsimp only
  split_ifs
  · rfl
  · rw [Prog.bind_assoc]

theorem writeAll_safe {xs : List V} (P : Point C.toConfig v hd T t e []) (hr : Writing hd t e)
    (hcount : T + hd.producer.written = hd.producer.tail)
    (hlen : hd.reservation.written + xs.length ≤ hd.reservation.count) :
    Safe (producerContract C.toConfig (TailBound C.toConfig))
      (ProducerOp.threadCode C (.writeAll xs)) (ProducerPost C.toConfig (.writeAll xs) hd) v := by
  have hw : Within hd T e := ⟨by omega, by have := hr.count; omega⟩
  have he := P.own.lt
  have hte : t ≤ e := by simpa using P.own.fill_le
  have h1 := hr.written
  have h2 := hr.count
  have hpos : (Lossless.ProducerOp.writeAll xs).position hd = t := by
    simp only [Lossless.ProducerOp.position, hr.start, hr.written]
  simp only [ProducerOp.threadCode, cProducer, reservationWriteAll]
  by_cases hnil : xs.length = 0
  · rw [if_pos hnil]
    obtain rfl : xs = [] := List.eq_nil_of_length_eq_zero hnil
    exact P.ret fun u P =>
      (P.record (.writeAll []) hd rfl (by simp)).open (by simpa using hr.written) hr.count hcount
        hr.start
  rw [if_neg hnil]
  simp only [Prog.bind_assoc]
  apply P.safe_self hw
  intro u P hb
  have hN : xs.length ≤ C.N := by
    have h1 := hb.head_le
    have h2 := P.own.tail_le
    have h3 := P.own.room
    omega
  simp only [slot_next (C := C) hr (hte.trans_lt he)]
  rw [copyValues_bind (C := C), Prog.bind_assoc]
  refine copyValues_safe P hw (by omega) (by omega) hN fun u P => ?_
  have hr' := hr.more (C := C.toConfig) (n := xs.length) (by omega) he
  refine P.safe_update (by rw [wroteMore_eq (C := C)]; exact ⟨hw.1, hw.2⟩) fun u P => P.ret ?_
  intro u P
  rw [wroteMore_eq (C := C)] at P
  exact (P.record (.writeAll xs) hd rfl fun _ => hpos).open hr'.written hr'.count hcount hr'.start

theorem commit_safe (P : Point C.toConfig v hd T t e []) (hr : Writing hd t e)
    (hcount : T + hd.producer.written = hd.producer.tail) :
    Safe (producerContract C.toConfig (TailBound C.toConfig)) (ProducerOp.threadCode C .commit)
      (ProducerPost C.toConfig .commit hd) v := by
  obtain ⟨h1, h2, h3⟩ := hr
  have he := P.own.lt
  have hte : t ≤ e := by simpa using P.own.fill_le
  have hadd : wadd 64 hd.producer.tail hd.reservation.written = t := by
    rw [wadd_of_lt (by rw [← C.wide]; omega), h2]
  simp only [ProducerOp.threadCode, cProducer, reservationCommit, Prog.bind_assoc]
  refine P.safe_update ⟨by simp only [Handle.setReservation]; omega,
    by simp only [Handle.setReservation]; omega⟩ fun u P => ?_
  refine P.safe_update ⟨by simp only [Handle.setReservation, Handle.setTail, hadd]; omega,
    by simp only [Handle.setReservation, Handle.setTail, hadd]; omega⟩ fun u P => ?_
  have hw : Within ((((hd.setReservation { hd.reservation with committed := true }).setTail
      (wadd 64 hd.producer.tail hd.reservation.written))).setWritten
      (wadd 64 hd.producer.written hd.reservation.written)) T e :=
    ⟨by simp only [Handle.setReservation, Handle.setTail, Handle.setWritten, hadd]; omega,
      by simp only [Handle.setReservation, Handle.setTail, Handle.setWritten, hadd]; omega⟩
  refine P.safe_update hw fun u P => ?_
  refine Safe.bind (sync_safe P hadd (by omega) fun u P => P.ret fun u P => ?_)
  refine (P.record .commit hd rfl (by simp)).ready ?_ ?_ ?_ <;>
    simp only [Handle.setReservation, Handle.setTail, Handle.setWritten, hadd,
      List.length_nil] <;> omega

theorem consumerHeartbeat_safe (P : Point C.toConfig v hd T t t []) (htail : hd.producer.tail = t)
    (hcount : T + hd.producer.written = t) :
    Safe (producerContract C.toConfig (TailBound C.toConfig))
      (ProducerOp.threadCode C .consumerHeartbeat)
      (ProducerPost C.toConfig .consumerHeartbeat hd) v := by
  have hw : Within hd T t := ⟨by omega, by omega⟩
  simp only [ProducerOp.threadCode, cProducer, consumerHeartbeat, Prog.bind_assoc]
  refine P.safe_load hw fun u P _ => ?_
  refine P.safe_self hw fun u P _ => ?_
  split_ifs with hne
  · refine P.safe_update ⟨by simp only [Handle.setLastConsumerHeartbeat]; omega,
      by simp only [Handle.setLastConsumerHeartbeat]; omega⟩ fun u P => P.ret fun u P => ?_
    refine (P.record .consumerHeartbeat hd rfl (by simp)).ready ?_ ?_ ?_ <;>
      simp only [Handle.setLastConsumerHeartbeat, List.length_nil] <;> omega
  · refine P.ret fun u P => ?_
    exact (P.record .consumerHeartbeat hd rfl (by simp)).ready (by omega) (by simp; omega)
      (by omega)

/-- **Every call of the C producer keeps the contract of the Rust producer.** -/
theorem ProducerOp.threadCode_safe (op : ProducerOp V) {st : ProducerStatus}
    (h : ProducerRest C.toConfig st v) (hen : (op.counterpart).enabled st = true)
    (hlt : v.handle.producer.tail + (op.counterpart).demand C.toConfig < 2 ^ C.w)
    (hok : op.allowed v.handle = true) :
    Safe (producerContract C.toConfig (producerBound C.toConfig op.counterpart))
      (op.threadCode C) (ProducerPost C.toConfig op.counterpart v.handle) v := by
  cases op with
  | join => exact joinProducer_safe
  | joinOrInitialize => exact joinOrInitialize_safe
  | push x =>
      cases st <;> cases hen
      exact push_safe h.point rfl h.2 hlt
  | sync =>
      cases st <;> cases hen
      have hcount := h.2
      refine Safe.bind (Safe.bind (sync_safe h.point rfl (by omega) fun u P => P.ret fun u P => ?_))
      exact P.ret fun u P => (P.record .sync v.handle rfl (by simp)).ready le_rfl
        (by simp [Handle.setWritten]) (by simp [Handle.setWritten])
  | beat =>
      cases st <;> cases hen
      have hcount := h.2
      refine h.point.safe_fetchAdd ⟨by omega, le_rfl⟩ (by simp) fun u r P => P.ret ?_
      intro u P
      exact (P.record .beat _ rfl (by simp)).ready (by omega) (by simp) hcount
  | consumerHeartbeat =>
      cases st <;> cases hen
      exact consumerHeartbeat_safe h.point rfl h.2
  | reserve n =>
      cases st <;> cases hen
      refine reserve_safe h.point rfl h.2 fun hn => ?_
      simpa [counterpart, Lossless.ProducerOp.demand, hn] using hlt
  | writeNext x =>
      cases st <;> cases hen
      exact writeNext_safe h.point ⟨h.2.2, rfl, rfl⟩ h.2.1 (of_decide_eq_true hok)
  | writeAll xs =>
      cases st <;> cases hen
      exact writeAll_safe h.point ⟨h.2.2, rfl, rfl⟩ h.2.1 (of_decide_eq_true hok)
  | commit =>
      cases st <;> cases hen
      exact commit_safe h.point ⟨h.2.2, rfl, rfl⟩ h.2.1
  | cancel =>
      cases st <;> cases hen
      have hcount := h.2.1
      simp only [threadCode, cProducer, reservationCancel, Prog.bind_assoc]
      refine h.point.safe_update ⟨?_, ?_⟩ fun u P => P.ret fun u P => ?_
      · simp only [Handle.setReservation]
        omega
      · simp only [Handle.setReservation]
        omega
      · exact (P.record .cancel v.handle rfl (by simp)).ready
          (by simp only [Handle.setReservation]; omega)
          (by simp only [Handle.setReservation, List.length_nil]; omega) hcount

end producer

/-! ### The consumer's code -/

section consumer
variable {v : ConsumerView V}

section joining
variable {C : Config} {c : Consumer} {H h : ℕ} {α : Type} {Q : α → ConsumerView V → Prop}
  (S : Spot C v c H h h)
include S

theorem joining_load {x : Word} {k : ℕ → Proc Consumer V α}
    (next : ∀ u, Spot C u c H h h → Safe (consumerContract C fun _ => True) (k (u.ch.get x)) Q u) :
    Safe (consumerContract C fun _ => True) (load x >>= k) Q v :=
  Joining.safe_load fun u hu _ => next u (S.stable hu)

theorem joining_update {g : Consumer → Consumer} {k : Unit → Proc Consumer V α}
    (next : ∀ u, Spot C u (g c) H h h → Safe (consumerContract C fun _ => True) (k ()) Q u) :
    Safe (consumerContract C fun _ => True) (update g >>= k) Q v := by
  intro u hu _
  have Su := S.stable hu
  refine ⟨⟨.of_quiet (.refl _), rfl, trivial, slotHeld_of_none rfl⟩, next _ ⟨?_, Su.head, ?_⟩⟩
  · show g u.cursor = g c
    rw [Su.cursor]
  · exact Su.avail.cursor _

/-- What is published before the head is stored can be read. -/
theorem joining_storeHead {k : Unit → Proc Consumer V α}
    (next : ∀ u, Spot C u c h h h → Safe (consumerContract C fun _ => True) (k ()) Q u) :
    Safe (consumerContract C fun _ => True) (store .head h >>= k) Q v := by
  intro u hu _
  have Su := S.stable hu
  have hav := Su.avail
  refine ⟨⟨⟨rfl, rfl, rfl, hav.head_le, fun _ => hav.le_tail, fun _ _ _ => rfl⟩, rfl, trivial,
    slotHeld_of_none rfl⟩, next _ ⟨Su.cursor, rfl, ?_⟩⟩
  exact ⟨le_rfl, hav.le_tail, hav.room, le_rfl, hav.value⟩

end joining

theorem joinConsumer_safe {start : Consumer} :
    Safe (consumerContract C.toConfig fun _ => True) (ConsumerOp.threadCode C .join)
      (ConsumerPost C.toConfig (.join : Lossless.ConsumerOp V) start) v := by
  have halign : C.buffer % 128 = 0 := by
    have h := C.valid
    simp only [validBuffer, Bool.and_eq_true, decide_eq_true_eq] at h
    exact h.2
  simp only [ConsumerOp.threadCode, cConsumer, joinConsumer]
  rw [if_neg (not_not.mpr halign)]
  simp only [Prog.bind_assoc]
  refine Joining.safe_load fun u _ hb => ?_
  rw [if_pos (show u.ch.get .magic = MAGIC from hb.magic.trans MAGIC_eq.symm)]
  simp only [Prog.bind_assoc]
  refine Joining.safe_load fun u _ hb => ?_
  rw [if_neg (not_not.mpr (show u.ch.get .capacity = C.N from hb.capacity))]
  simp only [Prog.bind_assoc]
  refine Joining.safe_load fun u _ hb => ?_
  have S : Spot C.toConfig u u.cursor u.ch.head u.ch.tail u.ch.tail :=
    ⟨rfl, rfl, hb.head_le, le_rfl, by omega, le_rfl, fun p h1 h2 => absurd h2 (by omega)⟩
  refine joining_update S fun _ S => joining_storeHead S fun _ S => ?_
  refine joining_update S fun _ S => joining_load S fun _ S => joining_update S fun _ S => ?_
  refine Safe.ret fun t ht => ⟨?_, fun _ h => by cases h⟩
  obtain ⟨hcursor, hhead, havail⟩ := S.stable ht
  refine ⟨⟨?_, ?_⟩, ?_⟩
  · rw [hcursor, hhead]
    rfl
  · rw [hcursor]
    exact burstAmount_pos _
  · rw [hcursor]
    exact havail

/-- The own structure may be read after a load as well as before it. -/
theorem self_load_comm {C : Config} {J : ConsumerView V → Prop} {α : Type} {x : Word}
    {k : Consumer → ℕ → Proc Consumer V α} {Q : α → ConsumerView V → Prop}
    (h : Safe (consumerContract C J) (self >>= fun c => load x >>= fun n => k c n) Q v) :
    Safe (consumerContract C J) (load x >>= fun n => self >>= fun c => k c n) Q v := by
  intro u hu ha
  obtain ⟨hg, hload⟩ := (h u hu ha).2 u ((consumerContract C J).rely_refl u) ha
  refine ⟨hg, fun t ht hat => ⟨(h t ((consumerContract C J).rely_trans hu ht) hat).1, ?_⟩⟩
  have hcursor : t.cursor = u.cursor := ht.cursor
  show Safe _ (k t.cursor (u.ch.get x)) Q t
  rw [hcursor]
  exact hload.stable ht

theorem pop_safe (h : ConsumerRest C.toConfig .ready v) :
    Safe (consumerContract C.toConfig HeadBound) (ConsumerOp.threadCode C .pop)
      (ConsumerPost C.toConfig (.pop : Lossless.ConsumerOp V) v.cursor) v := by
  have hrust := Lossless.pop_safe h
  simp only [Lossless.ConsumerOp.code, Lossless.pop, Prog.bind_assoc, C.wide] at hrust
  simp only [ConsumerOp.threadCode, cConsumer, pop, Prog.bind_assoc]
  exact self_load_comm hrust

theorem producerHeartbeat_safe (h : ConsumerRest C.toConfig .ready v) :
    Safe (consumerContract C.toConfig HeadBound) (ConsumerOp.threadCode C .producerHeartbeat)
      (ConsumerPost C.toConfig (.producerHeartbeat : Lossless.ConsumerOp V) v.cursor) v := by
  obtain ⟨hin, hitems⟩ := h.1
  simp only [ConsumerOp.threadCode, cConsumer, producerHeartbeat, Prog.bind_assoc]
  refine h.spot.safe_load (by omega) le_rfl fun u S _ => S.safe_self (by omega) le_rfl ?_
  intro u S
  split_ifs with hne
  · refine S.safe_update (by simp only; omega) le_rfl fun u S => S.ret fun u S => ?_
    refine ⟨S.ready hin hitems, Delivers.nothing rfl fun _ => ?_⟩
    simp only [handedOut, Lossless.ConsumerOp.handedOut, S.cursor]
  · refine S.ret fun u S => ⟨S.ready hin hitems, Delivers.nothing rfl fun _ => ?_⟩
    simp only [handedOut, Lossless.ConsumerOp.handedOut, S.cursor]

/-- **Every call of the C consumer keeps the contract of the Rust consumer.** -/
theorem ConsumerOp.threadCode_safe (op : ConsumerOp) {st : ConsumerStatus}
    (h : ConsumerRest C.toConfig st v)
    (hen : (op.counterpart : Lossless.ConsumerOp V).enabled st = true) :
    Safe (consumerContract C.toConfig (consumerBound (op.counterpart : Lossless.ConsumerOp V)))
      (op.threadCode C) (ConsumerPost C.toConfig (op.counterpart : Lossless.ConsumerOp V) v.cursor)
      v := by
  cases op with
  | join => exact joinConsumer_safe
  | pop =>
      cases st <;> cases hen
      exact pop_safe h
  | beat =>
      cases st <;> cases hen
      obtain ⟨hin, hitems⟩ := h.1
      refine h.spot.safe_fetchAdd (by omega) le_rfl (by simp) fun u r S => S.ret ?_
      intro u S
      refine ⟨S.ready hin hitems, Delivers.nothing rfl fun _ => ?_⟩
      simp only [Lossless.handedOut, Lossless.ConsumerOp.handedOut, counterpart, S.cursor]
  | producerHeartbeat =>
      cases st <;> cases hen
      exact producerHeartbeat_safe h

end consumer

/-! ### The mixed system -/

/-- One step: a step of the lossless system, or a call into C code. -/
inductive MixedStep (C : Shared) : Lossless.State V → Lossless.State V → Prop
  | step {s t : Lossless.State V} : Step C.toConfig s t → MixedStep C s t
  | producerCall {s : Lossless.State V} {st : ProducerStatus} (op : ProducerOp V) :
      s.producer = .rest st → op.counterpart.enabled st = true →
      s.handle.producer.tail + op.counterpart.demand C.toConfig < 2 ^ C.w →
      op.allowed s.handle = true →
      MixedStep C s { s with producer := .busy s.handle op.counterpart (op.threadCode C) }
  | consumerCall {s : Lossless.State V} {st : ConsumerStatus} (op : ConsumerOp) :
      s.consumer = .rest st → (op.counterpart : Lossless.ConsumerOp V).enabled st = true →
      MixedStep C s { s with consumer := .busy s.cursor op.counterpart (op.threadCode C) }

/-- A run of the mixed system. -/
abbrev MixedReach (C : Shared) : Lossless.State V → Lossless.State V → Prop :=
  Relation.ReflTransGen (MixedStep C)

/-- The state in which a constructor has just been run on the memory `m`, in either language. -/
def mixedInitial (C : Shared) (l : Language) (m : Channel V) : Lossless.State V :=
  match l with
  | .rust => .initial C.toConfig .joinOrInitializeIn m
  | .c =>
      let r := (ProducerOp.threadCode C .joinOrInitialize).run C.w m ⟨⟨0, 0, 0⟩, ⟨0, 0, 0, false⟩⟩
      { Lossless.State.initial C.toConfig .joinOrInitializeIn m with
        ch := r.2.1
        producer := .rest r.1.1
        handle := r.2.2 }

/-- A choice of the scheduler. -/
inductive MixedMove (V : Type) where
  | move (m : Move V)
  | producerCall (op : ProducerOp V)
  | consumerCall (op : ConsumerOp)

/-- The C producer makes a call and takes `n` steps. -/
def producerRuns (op : ProducerOp V) (n : ℕ) : List (MixedMove V) :=
  .producerCall op :: List.replicate n (.move .producerGo)

/-- The C consumer makes a call and takes `n` steps. -/
def consumerRuns (op : ConsumerOp) (n : ℕ) : List (MixedMove V) :=
  .consumerCall op :: List.replicate n (.move .consumerGo)

/-- The state after a move, if it is possible. -/
def mixedMove (C : Shared) (s : Lossless.State V) : MixedMove V → Option (Lossless.State V)
  | .move m => s.move C.toConfig m
  | .producerCall op =>
      match s.producer with
      | .rest st =>
          if op.counterpart.enabled st = true ∧
              s.handle.producer.tail + op.counterpart.demand C.toConfig < 2 ^ C.w ∧
              op.allowed s.handle = true then
            some { s with producer := .busy s.handle op.counterpart (op.threadCode C) }
          else
            none
      | .busy _ _ _ => none
  | .consumerCall op =>
      match s.consumer with
      | .rest st =>
          if (op.counterpart : Lossless.ConsumerOp V).enabled st = true then
            some { s with consumer := .busy s.cursor op.counterpart (op.threadCode C) }
          else
            none
      | .busy _ _ _ => none

/-- The state after a schedule. -/
def mixedMoves (C : Shared) (s : Lossless.State V) :
    List (MixedMove V) → Option (Lossless.State V)
  | [] => some s
  | m :: ms => (mixedMove C s m).bind fun t => mixedMoves C t ms

theorem mixedMove_step {s t : Lossless.State V} {m : MixedMove V} (h : mixedMove C s m = some t) :
    MixedStep C s t := by
  cases m with
  | move m => exact .step (State.move_step h)
  | producerCall op =>
      cases hp : s.producer with
      | rest st =>
          simp only [mixedMove, hp] at h
          split_ifs at h with hc
          cases h
          exact .producerCall op hp hc.1 hc.2.1 hc.2.2
      | busy start op' code => simp [mixedMove, hp] at h
  | consumerCall op =>
      cases hc : s.consumer with
      | rest st =>
          simp only [mixedMove, hc] at h
          split_ifs at h with he
          cases h
          exact .consumerCall op hc he
      | busy start op' code => simp [mixedMove, hc] at h

theorem mixedMoves_reach {ms : List (MixedMove V)} {s t : Lossless.State V}
    (h : mixedMoves C s ms = some t) : MixedReach C s t := by
  induction ms generalizing s with
  | nil =>
      cases h
      exact .refl
  | cons m ms ih =>
      simp only [mixedMoves, Option.bind_eq_some_iff] at h
      obtain ⟨u, hu, ht⟩ := h
      exact .head (mixedMove_step hu) (ih ht)

/-- A call into C code keeps the invariant. -/
theorem Sound.mixedStep {s t : Lossless.State V} (S : Sound C.toConfig s) (h : MixedStep C s t) :
    Sound C.toConfig t := by
  cases h with
  | step h => exact S.step h
  | producerCall op hp hen hlt hok =>
      have hf := S.producer
      rw [hp] at hf
      exact ⟨⟨S.base, ⟨hf.bound hen, op.threadCode_safe hf hen hlt hok⟩, S.consumer, S.received,
        S.handed⟩, S.room⟩
  | consumerCall op hc hen =>
      have hf := S.consumer
      have hh := S.handed
      rw [hc] at hf hh
      refine ⟨⟨S.base, S.producer, ⟨hf.bound hen, op.threadCode_safe hf hen⟩, S.received,
        fun hop => ?_⟩, S.room⟩
      rw [← Lossless.ConsumerOp.handedOut_of_enabled hen]
      apply hh
      intro hst
      rw [Lossless.ConsumerOp.isJoin_of_enabled_gone (hst ▸ hen)] at hop
      cases hop

/-- **Every mixed run keeps the invariant.** -/
theorem Sound.mixed {s t : Lossless.State V} (S : Sound C.toConfig s) (h : MixedReach C s t) :
    Sound C.toConfig t := by
  induction h with
  | refl => exact S
  | tail _ hstep ih => exact Sound.mixedStep ih hstep

/-- What the C constructor leaves behind when the magic is zero. -/
theorem run_joinOrInitialize (C : Shared) {m : Channel V} (hm : m.magic = 0) (h : Handle) :
    ∃ n, (ProducerOp.threadCode C .joinOrInitialize).run C.w m h = ((.ready, []),
      { m with tail := 0, head := 0, producerHeartbeat := 0, consumerHeartbeat := 0,
               capacity := C.N, magic := Que.MAGIC }, ⟨⟨0, 0, n⟩, h.reservation⟩) := by
  have hz : ¬ (0 = Que.MAGIC) := fun h => MAGIC_ne_zero h.symm
  refine ⟨0, ?_⟩
  simp only [ProducerOp.threadCode, cProducer, joinOrInitialize]
  rw [if_neg (by simp [validRegion_of_validBuffer C.valid])]
  simp [hm, hz, Channel.get, Channel.set, ProducerOp.outcome, Handle.setTail, Handle.setWritten,
    Handle.setLastConsumerHeartbeat, MAGIC_eq]

/-- The C constructor also stores the head, so it does not matter what the head was. -/
theorem mixedInitial_sound {l : Language} {m : Channel V} (hm : m.magic = 0)
    (hh : l = .rust → m.head = 0) : Sound C.toConfig (mixedInitial C l m) := by
  cases l with
  | rust => exact initial_sound rfl hm (hh rfl)
  | c =>
      obtain ⟨n, hrun⟩ := run_joinOrInitialize C hm ⟨⟨0, 0, 0⟩, ⟨0, 0, 0, false⟩⟩
      have hlt : 0 < 2 ^ C.w := Nat.two_pow_pos _
      unfold mixedInitial
      simp only [hrun]
      refine ⟨⟨⟨rfl, rfl, le_rfl, hlt, fun p _ => rfl⟩, ⟨⟨le_rfl, le_rfl, Nat.zero_le _, hlt,
        fun p _ hp => absurd hp (Nat.not_lt_zero p), fun i x hi => ?_⟩, rfl⟩, trivial, ?_,
        fun h => absurd rfl h⟩, Nat.zero_le _⟩
      · simp at hi
      · intro i x hi
        simp [State.initial] at hi

/-! ### Order and exclusion -/

/-- The next pop of a consumer at rest gives the same in both languages. -/
theorem pop_run (C : Shared) (ch : Channel V) (c : Consumer) :
    ((pop C.N).run C.w ch c).1 = ((Lossless.pop C.w C.N).run C.w ch c).1 := by
  simp only [pop, Lossless.pop, Proc.run_bind, Proc.run_load, Proc.run_self, Proc.run_ite]
  split_ifs <;> rfl

/-- **Mixed channels deliver in order.**  Let a channel be initialised by a producer in either
language, and let each later call of the producer and of the consumer be made by Rust or by C code,
with any interleaving, losses and rejoins; the callers of the C code write no more to a reservation
than is left of it.  The values that the consumer has received are the
published ones from the tail that its join read on, its next pop in either language continues them,
the counters stay in order, and no slot is written while the consumer may still access it. -/
theorem mixed_fifo (C : Shared) {l : Language} {m : Channel V} (hm : m.magic = 0)
    (hh : l = .rust → m.head = 0) {s : Lossless.State V} (h : MixedReach C (mixedInitial C l m) s) :
    (s.received.map some =
      (List.range s.received.length).map fun i => s.published (s.joinedAt + i)) ∧
    (s.consumer = .rest .ready → s.joinedAt + s.received.length < s.ch.tail →
      ∃ v, s.published (s.joinedAt + s.received.length) = some v ∧
        ((pop C.N).run C.w s.ch s.cursor).1 = some v ∧
        ((Lossless.pop C.w C.N).run C.w s.ch s.cursor).1 = some v) ∧
    (s.ch.head ≤ s.consumerHead ∧ s.consumerHead ≤ s.ch.tail ∧ s.ch.tail ≤ s.producerTail ∧
      s.producerTail ≤ s.ch.head + C.N) ∧
    (∀ i, s.writing = some i →
      (∀ q, s.consumerHead ≤ q → q < s.producerTail → slot C.N q ≠ i) ∧ s.holding ≠ some i) := by
  have S : Sound C.toConfig s := Sound.mixed (mixedInitial_sound hm hh) h
  obtain ⟨h1, h2⟩ := S.consumerHead_bounds
  obtain ⟨h3, h4⟩ := S.producerTail_bounds
  refine ⟨S.delivered.received, fun hc hlt => ?_, ⟨h1, h2, h3, h4⟩, fun i hw => S.exclusion hw⟩
  obtain ⟨v, hv, hpop⟩ := (S.delivered.next hc).2.1 hlt
  exact ⟨v, hv, (pop_run C s.ch s.cursor).trans hpop, hpop⟩

/-- A C producer initialises a channel with an arbitrary head, and publishes a reserved value and a
pushed one; a Rust consumer pops the first. -/
theorem mixed_fifo_small : ∃ s : Lossless.State ℕ,
    MixedReach Shared.small (mixedInitial Shared.small .c { Channel.zeroed 0 with head := 5 }) s ∧
    s.received = [7] ∧
    ((pop 2).run 64 s.ch s.cursor).1 = some 8 ∧ s.producerTail ≤ s.ch.head + 2 := by
  have h : (mixedMoves Shared.small
      (mixedInitial Shared.small .c { Channel.zeroed 0 with head := 5 })
      ((Lossless.consumerRuns .join 7).map .move ++ producerRuns (.reserve 1) 4 ++
        producerRuns (.writeNext 7) 4 ++ producerRuns .commit 7 ++ producerRuns (.push 8) 6 ++
        producerRuns .sync 4 ++ (Lossless.consumerRuns .pop 10).map .move)).map
      (fun s => (s.received, ((pop 2).run 64 s.ch s.cursor).1)) = some ([7], some 8) := by
    decide +kernel
  obtain ⟨s, hs, hr⟩ := Option.map_eq_some_iff.mp h
  obtain ⟨h1, h2⟩ : s.received = [7] ∧ ((pop 2).run 64 s.ch s.cursor).1 = some 8 := by
    simpa using hr
  obtain ⟨_, _, ⟨_, _, _, h3⟩, _⟩ := mixed_fifo Shared.small (l := .c) rfl (fun e => by cases e)
    (mixedMoves_reach hs)
  exact ⟨s, mixedMoves_reach hs, h1, h2, h3⟩

end Que.C
