import Que.Lossless.Footprint
import Que.Lossless.Fifo

/-! # Two runs that cannot be told apart

`Alike C s s'` relates two states of the system that behave the same from then on: the header, the
consumer, the producer's own counters and the published values are equal, and so are the slots
between head and tail.  They may differ in the rest of the ring, in the reservation that the handle
still holds after it was given up, and in what the history says about positions that are not part
of the channel yet.

* **What a call may publish.** During a call the tail only moves up to the positions that were
  recorded when the call was made, and a call that returns has recorded what it wrote
  (`Trimmed`).  Both follow from the contract by running the call with a history that knows nothing
  of the positions beyond.
* **What a call looks at.** Two handles that differ in a reservation that was given up take the
  same steps (`Follows`).
* **Simulation.** A move that is possible in one of two alike states is possible in the other, and
  the results are alike (`Alike.move`); so every schedule gives the same results (`Alike.moves`). -/

namespace Que.Lossless

open Lib

variable {V : Type} {C : Config}

/-! ### What a call may publish -/

namespace ProducerOp

/-- The calls on an open reservation. -/
def onReservation : ProducerOp V → Bool
  | writeNext _ | writeAll _ | writeIter _ _ | commit | cancel => true
  | _ => false

theorem reserved_of_onReservation {op : ProducerOp V} {st : ProducerStatus}
    (h : op.onReservation = true) (hen : op.enabled st = true) : st = .reserved := by
  cases op <;> cases st <;> first | rfl | (cases hen; done) | cases h

theorem demand_le (op : ProducerOp V) (C : Config) : op.demand C ≤ C.N := by
  cases op with
  | push _ => exact C.pos
  | reserve count =>
      simp only [demand]
      split_ifs <;> omega
  | _ => exact Nat.zero_le _

/-- The end of the positions that are recorded when the call is made with the handle `h`. -/
def bound (h : Handle) (op : ProducerOp V) : ℕ :=
  if op.isJoin then 0
  else if op.onReservation then h.producer.tail + h.reservation.written
  else h.producer.tail

end ProducerOp

/-- The end of the recorded positions between two calls. -/
def restBound : ProducerStatus → Handle → ℕ
  | .gone, _ => 0
  | .ready, h => h.producer.tail
  | .reserved, h => h.producer.tail + h.reservation.written

theorem ProducerOp.bound_of_enabled {op : ProducerOp V} {st : ProducerStatus} {h : Handle}
    (hen : op.enabled st = true) : op.bound h = restBound st h := by
  cases st <;> cases op <;> first | rfl | cases hen

/-- The history up to position `b`. -/
def trim (b : ℕ) (wrote : ℕ → Option V) : ℕ → Option V := fun p => if p < b then wrote p else none

theorem trim_of_lt {b p : ℕ} {wrote : ℕ → Option V} (h : p < b) : trim b wrote p = wrote p :=
  if_pos h

theorem trim_of_le {b p : ℕ} {wrote : ℕ → Option V} (h : b ≤ p) : trim b wrote p = none :=
  if_neg (Nat.not_lt.mpr h)

/-- A call in progress would also be safe if the history knew nothing of the positions from its
bound on. -/
def Trimmed (C : Config) (s : State V) : Prop :=
  ∀ start op code, s.producer = .busy start op code → op.isJoin = false →
    s.ch.tail ≤ op.bound start ∧ ∃ pub, Base C s.ch pub ∧
      Safe (producerContract C (producerBound C op)) code (ProducerPost C op start)
        ⟨s.ch, s.handle, trim (op.bound start) s.wrote, pub⟩

/-- A history that is right up to `b` is right if it ends there. -/
theorem ProducerRest.trim {st : ProducerStatus} {v : ProducerView V} (h : ProducerRest C st v) :
    ProducerRest C st { v with wrote := trim (restBound st v.handle) v.wrote } := by
  have trimmed : ∀ {t e}, Own C v t e [] →
      Own C { v with wrote := Lossless.trim t v.wrote } t e [] := by
    intro t e own
    refine ⟨own.tail_le, own.fill_le, own.room, own.lt, fun p h1 h2 => ?_, own.pending⟩
    exact (trim_of_lt h2).trans (own.recorded p h1 h2)
  cases st with
  | gone => trivial
  | ready => exact ⟨trimmed h.1, h.2⟩
  | reserved => exact ⟨trimmed h.1, h.2⟩

theorem ProducerRest.tail_le {st : ProducerStatus} {v : ProducerView V} (h : ProducerRest C st v)
    (hst : st ≠ .gone) : v.ch.tail ≤ restBound st v.handle := by
  cases st with
  | gone => exact absurd rfl hst
  | ready => exact h.1.tail_le
  | reserved => exact h.1.tail_le

theorem ProducerRest.recorded {st : ProducerStatus} {v : ProducerView V} (h : ProducerRest C st v)
    {p : ℕ} (h1 : v.ch.tail ≤ p) (h2 : p < restBound st v.handle) :
    v.wrote p = some (v.ch.buffer (slot C.N p)) := by
  cases st with
  | gone => exact absurd h2 (Nat.not_lt_zero p)
  | ready => exact h.1.recorded p h1 h2
  | reserved => exact h.1.recorded p h1 h2

/-- Positions that become published had been recorded. -/
theorem ProducerGuar.tail_le {J : ProducerView V → Prop} {a : Act Handle V} {v : ProducerView V}
    {b : ℕ} {wrote : ℕ → Option V} (hw : v.wrote = trim b wrote) (hb : Base C v.ch v.published)
    (h : ProducerGuar C J a v ((producerContract C J).step a v).2) (hle : v.ch.tail ≤ b) :
    ((producerContract C J).step a v).2.ch.tail ≤ b := by
  by_contra hlt
  generalize ht : ((producerContract C J).step a v).2.ch.tail = t at hlt
  have hfresh := h.change.fresh (t - 1) (by have := hb.head_le; omega) (by omega)
    (by rw [ht]; omega)
  have hnone : publish a v.wrote v.published (t - 1) = none := by
    have hp := hb.beyond (t - 1) (by omega)
    unfold publish
    split
    · rw [hp, hw, trim_of_le (by omega)]
      exact ite_self none
    · exact hp
  have hsome : publish a v.wrote v.published (t - 1) = some _ := hfresh
  rw [hnone] at hsome
  cases hsome

theorem Trimmed.step {s t : State V} (S : Sound C s) (H : Trimmed C s) (h : Step C s t) :
    Trimmed C t := by
  intro start op code hp hop
  cases h with
  | producerCall op' hrest hen hlt =>
      cases hp
      have hf := S.producer
      rw [hrest] at hf
      have hst : _ ≠ ProducerStatus.gone := fun e => by
        rw [ProducerOp.isJoin_of_enabled_gone (e ▸ hen)] at hop
        cases hop
      rw [ProducerOp.bound_of_enabled hen]
      refine ⟨ProducerRest.tail_le hf hst, s.published, S.base, ?_⟩
      exact op.code_safe (ProducerRest.trim hf) hen hlt
  | producerAct hbusy =>
      cases hp
      obtain ⟨hle, pub, hb, hs⟩ := H _ _ _ hbusy hop
      obtain ⟨hg, hk⟩ := hs.own ⟨hb, fun _ => S.room⟩
      exact ⟨hg.tail_le rfl hb hle, _, hg.base, hk⟩
  | producerReturn _ => cases hp
  | producerStop => cases hp
  | consumerCall _ _ _ => exact H _ _ _ hp hop
  | consumerAct hbusy =>
      obtain ⟨hle, pub, hb, hs⟩ := H _ _ _ hp hop
      have hc := (S.consumer_act hbusy).1.change
      refine ⟨hc.tail.trans_le hle, pub, hb.consumer hc, hs.stable ⟨rfl, rfl, rfl, hc⟩⟩
  | consumerReturn _ => exact H _ _ _ hp hop
  | consumerStop => exact H _ _ _ hp hop

theorem Trimmed.run {s₀ s : State V} (S : Sound C s₀) (H : Trimmed C s₀) (h : Reach C s₀ s) :
    Trimmed C s := by
  induction h with
  | refl => exact H
  | tail hreach hstep ih => exact ih.step (S.run hreach) hstep

/-- A call that returns has recorded what it wrote beyond its bound. -/
theorem Trimmed.returned {s : State V} (H : Trimmed C s) {start : Handle} {op : ProducerOp V}
    {r : ProducerStatus × List V} (hp : s.producer = .busy start op (.ret r))
    (hop : op.isJoin = false) {p : ℕ} (h1 : op.bound start ≤ p) (h2 : p < restBound r.1 s.handle) :
    op.position start ≤ p ∧ p < op.position start + r.2.length := by
  obtain ⟨hle, pub, hb, hs⟩ := H _ _ _ hp hop
  have hrec : wroteAfter op start r.2 (trim (op.bound start) s.wrote) p = some _ :=
    ProducerRest.recorded hs.done (hle.trans h1) h2
  by_contra hout
  simp only [wroteAfter, hop, Bool.false_eq_true, if_false, record] at hrec
  rw [if_neg hout, trim_of_le h1] at hrec
  cases hrec

/-! ### The relation -/

/-- Equal header words. -/
def SameHeader (a b : Channel V) : Prop := ∀ x, a.get x = b.get x

/-- Equal header words, and equal slots between head and tail. -/
structure AlikeChannel (C : Config) (a b : Channel V) : Prop where
  header : SameHeader a b
  cells : ∀ p, a.head ≤ p → p < a.tail → a.buffer (slot C.N p) = b.buffer (slot C.N p)

/-- Code run with two handles that takes the same steps with both. -/
def Follows (c : Proc Handle V (ProducerStatus × List V)) (h h' : Handle) : Prop :=
  h.producer = h'.producer ∧
    (Blind (fun _ => True) Unreserved c ∨ h = h' ∧ c.All NoRead (fun _ => True))

/-- The values that the rest of the call may return are recorded at the same position. -/
def Placed (op : ProducerOp V) (start start' : Handle)
    (c : Proc Handle V (ProducerStatus × List V)) : Prop :=
  op.position start = op.position start' ∨ c.All (fun _ => True) (fun r => r.2 = [])

/-- Two threads of the producer, with their handles, that take the same steps. -/
inductive AlikeProducer : ProducerThread V → Handle → ProducerThread V → Handle → Prop
  | rest {st : ProducerStatus} {h h' : Handle} : h.producer = h'.producer →
      (st = .reserved → h = h') → AlikeProducer (.rest st) h (.rest st) h'
  | busy {start start' h h' : Handle} {op : ProducerOp V}
      {code : Proc Handle V (ProducerStatus × List V)} :
      op.bound start = op.bound start' → Placed op start start' code →
      (op.isJoin = true → code.All StoresZero (fun _ => True)) → Follows code h h' →
      AlikeProducer (.busy start op code) h (.busy start' op code) h'

theorem AlikeProducer.inv {P P' : ProducerThread V} {h h' : Handle} (A : AlikeProducer P h P' h') :
    (∃ st, P = .rest st ∧ P' = .rest st ∧ h.producer = h'.producer ∧ (st = .reserved → h = h')) ∨
    (∃ start start' op code, P = .busy start op code ∧ P' = .busy start' op code ∧
      op.bound start = op.bound start' ∧ Placed op start start' code ∧
      (op.isJoin = true → code.All StoresZero (fun _ => True)) ∧ Follows code h h') := by
  cases A with
  | rest e hr => exact .inl ⟨_, rfl, rfl, e, hr⟩
  | busy hb hplaced hzero F => exact .inr ⟨_, _, _, _, rfl, rfl, hb, hplaced, hzero, F⟩

theorem AlikeProducer.own {P P' : ProducerThread V} {h h' : Handle} (A : AlikeProducer P h P' h') :
    h.producer = h'.producer := by
  cases A with
  | rest e _ => exact e
  | busy _ _ _ F => exact F.1

/-- The end of the recorded positions. -/
def State.recordedTo (s : State V) : ℕ :=
  match s.producer with
  | .rest st => restBound st s.handle
  | .busy start op _ => op.bound start

/-- Two states that agree in everything but the producer's side. -/
structure SameOutside (C : Config) (s s' : State V) : Prop where
  channel : AlikeChannel C s.ch s'.ch
  consumer : s.consumer = s'.consumer
  cursor : s.cursor = s'.cursor
  published : s.published = s'.published
  joinedAt : s.joinedAt = s'.joinedAt
  received : s.received = s'.received

/-- Two states that behave the same from now on. -/
structure Alike (C : Config) (s s' : State V) : Prop extends SameOutside C s s' where
  producer : AlikeProducer s.producer s.handle s'.producer s'.handle
  wrote : ∀ p, p < s.recordedTo → s.wrote p = s'.wrote p

theorem SameHeader.step {L : Type} {w : ℕ} (a : Act L V) {ch ch' : Channel V}
    (h : SameHeader ch ch') (l l' : L) :
    SameHeader (a.step w (ch, l)).2.1 (a.step w (ch', l')).2.1 := by
  have hset : ∀ {c c' : Channel V} {x : Word} {v v' : ℕ}, SameHeader c c' → v = v' →
      SameHeader (c.set x v) (c'.set x v') := by
    rintro c c' x v v' hc rfl y
    have := hc y
    cases x <;> cases y <;> first | rfl | exact this
  have hwrite : ∀ {c c' : Channel V} {i : ℕ} {v : V}, SameHeader c c' →
      SameHeader (c.write i v) (c'.write i v) := by
    intro c c' i v hc y
    have := hc y
    cases y <;> exact this
  cases a with
  | store x v => exact hset h rfl
  | fetchAdd x v => exact hset h (congrArg (wadd w · v) (h x))
  | assign i v => exact hwrite h
  | copy i v => exact hwrite h
  | dropArc => exact hset h (congrArg (wsub w · 1) (h .strong))
  | _ => exact h

/-- One action of the producer, with two handles. -/
theorem Follows.step {w : ℕ} {a : Act Handle V}
    {k : a.Ans → Proc Handle V (ProducerStatus × List V)} {h h' : Handle} {ch ch' : Channel V}
    (F : Follows (.act a k) h h') (hd : SameHeader ch ch') :
    k (a.step w (ch, h)).1 = k (a.step w (ch', h')).1 ∧
      Follows (k (a.step w (ch, h)).1) (a.step w (ch, h)).2.2 (a.step w (ch', h')).2.2 := by
  obtain ⟨e, hb | ⟨rfl, hn⟩⟩ := F
  · cases a with
    | self => exact ⟨hb.1 h h' e, e, .inl (hb.2 h)⟩
    | update f =>
        refine ⟨rfl, hb.1 h h' e, ?_⟩
        rcases hb.2 with hb | ⟨hf, hn⟩
        · exact .inl hb
        · exact .inr ⟨hf h h' e, hn⟩
    | read i => exact hb.elim
    | load x => exact ⟨congrArg k (hd x), e, .inl (hb _)⟩
    | store x v => exact ⟨rfl, e, .inl hb⟩
    | fetchAdd x v => exact ⟨congrArg k (hd x), e, .inl (hb _)⟩
    | assign i v => exact ⟨rfl, e, .inl hb⟩
    | copy i v => exact ⟨rfl, e, .inl hb⟩
    | dropArc => exact ⟨rfl, e, .inl hb⟩
  · cases a with
    | read i => exact hn.1.elim
    | load x => exact ⟨congrArg k (hd x), rfl, .inr ⟨rfl, hn.2 _⟩⟩
    | fetchAdd x v => exact ⟨congrArg k (hd x), rfl, .inr ⟨rfl, hn.2 _⟩⟩
    | _ => exact ⟨rfl, rfl, .inr ⟨rfl, hn.2 _⟩⟩

/-! ### The consumer's moves -/

/-- The moves of the consumer. -/
def Move.ofConsumer : Move V → Bool
  | consumerCall _ | consumerGo | consumerStop => true
  | _ => false

/-- The producer's side is as it was. -/
structure Unmoved (s t : State V) : Prop where
  producer : t.producer = s.producer
  handle : t.handle = s.handle
  wrote : t.wrote = s.wrote

section consumer
variable {s s' : State V} (S : Sound C s) (A : SameOutside C s s')
include S A

theorem SameOutside.consumerAct {start : Consumer} {op : ConsumerOp V} {a : Act Consumer V}
    {k : a.Ans → Proc Consumer V (ConsumerStatus × Option V)}
    (hc : s.consumer = .busy start op (.act a k)) :
    SameOutside C (s.consumerDoes C a fun x => .busy start op (k x))
      (s'.consumerDoes C a fun x => .busy start op (k x)) := by
  have hg := (S.consumer_act hc).1
  have hheader := A.channel.header.step (w := C.w) a s.cursor s'.cursor
  have hans : (a.step C.w (s.ch, s.cursor)).1 = (a.step C.w (s'.ch, s'.cursor)).1 := by
    cases a with
    | load x => exact A.channel.header x
    | fetchAdd x v => exact A.channel.header x
    | read i =>
        obtain ⟨rfl, h1, h2⟩ := hg.held i rfl
        exact A.channel.cells _ h1 h2
    | self => exact A.cursor
    | _ => rfl
  have hcursor : (a.step C.w (s.ch, s.cursor)).2.2 = (a.step C.w (s'.ch, s'.cursor)).2.2 := by
    cases a with
    | update f => exact congrArg f A.cursor
    | _ => exact A.cursor
  refine ⟨⟨hheader, fun p h1 h2 => ?_⟩, congrArg (fun x => Thread.busy start op (k x)) hans,
    hcursor, A.published, A.joinedAt, A.received⟩
  have hcell := A.channel.cells p (hg.change.head_le.trans h1) (h2.trans_eq hg.change.tail)
  have hwrite : ∀ i (v : V), (s.ch.write i v).buffer (slot C.N p) =
      (s'.ch.write i v).buffer (slot C.N p) := by
    intro i v
    simp only [Channel.write, Function.update_apply]
    split_ifs
    · rfl
    · exact hcell
  cases a with
  | assign i v => exact hwrite i v
  | copy i v => exact hwrite i v
  | store x v => cases x <;> exact hcell
  | fetchAdd x v => cases x <;> exact hcell
  | _ => exact hcell

theorem SameOutside.consumerReturn {start : Consumer} {op : ConsumerOp V}
    {r : ConsumerStatus × Option V} (hc : s.consumer = .busy start op (.ret r)) :
    SameOutside C
      { s with
        consumer := .rest r.1
        joinedAt := if op.isJoin then s.cursor.head else s.joinedAt
        received := s.receivedAfter op r }
      { s' with
        consumer := .rest r.1
        joinedAt := if op.isJoin then s'.cursor.head else s'.joinedAt
        received := s'.receivedAfter op r } := by
  have hf := S.consumer
  rw [hc] at hf
  have hrest : ConsumerRest C r.1 s.consumerView := hf.2.done.1
  have hgiven : given s.ch op r = given s'.ch op r := by
    obtain ⟨st, value⟩ := r
    cases op with
    | popZerocopy =>
        cases st with
        | element i =>
            obtain ⟨_, hav, rfl, hlt, _⟩ := hrest
            exact congrArg (fun v => [v]) (A.channel.cells _ hav.head_le hlt)
        | gone => rfl
        | ready => rfl
    | _ => rfl
  refine ⟨A.channel, rfl, A.cursor, A.published, ?_, ?_⟩
  · simp only [A.cursor, A.joinedAt]
  · simp only [State.receivedAfter, A.received, hgiven]

/-- A move of the consumer is possible in both states or in none, and they agree afterwards. -/
theorem SameOutside.consumerMove {m : Move V} (hm : m.ofConsumer = true) :
    Option.Rel (fun t t' => SameOutside C t t' ∧ Unmoved s t ∧ Unmoved s' t')
      (s.move C m) (s'.move C m) := by
  cases m with
  | consumerCall op =>
      cases hc : s.consumer with
      | rest st =>
          simp only [State.move, ← A.consumer, hc]
          split_ifs with hen
          · refine .some ⟨⟨A.channel, ?_, A.cursor, A.published, A.joinedAt, A.received⟩,
              ⟨rfl, rfl, rfl⟩, ⟨rfl, rfl, rfl⟩⟩
            simp only [A.cursor]
          · exact .none
      | busy start op' code =>
          simp only [State.move, ← A.consumer, hc]
          exact .none
  | consumerGo =>
      cases hc : s.consumer with
      | rest st =>
          simp only [State.move, ← A.consumer, hc]
          exact .none
      | busy start op code =>
          cases code with
          | act a k =>
              simp only [State.move, ← A.consumer, hc]
              exact .some ⟨A.consumerAct S hc, ⟨rfl, rfl, rfl⟩, ⟨rfl, rfl, rfl⟩⟩
          | ret r =>
              simp only [State.move, ← A.consumer, hc]
              exact .some ⟨A.consumerReturn S hc, ⟨rfl, rfl, rfl⟩, ⟨rfl, rfl, rfl⟩⟩
  | consumerStop =>
      exact .some ⟨⟨A.channel, rfl, A.cursor, A.published, A.joinedAt, A.received⟩,
        ⟨rfl, rfl, rfl⟩, ⟨rfl, rfl, rfl⟩⟩
  | _ => cases hm

end consumer

/-! ### The producer's moves -/

theorem publish_congr {a : Act Handle V} {wrote wrote' pub : ℕ → Option V} {b : ℕ}
    (hw : ∀ p, p < b → wrote p = wrote' p) (ha : ∀ t, a = .store .tail t → t ≤ b) :
    publish a wrote pub = publish a wrote' pub := by
  unfold publish
  split
  · next t =>
      funext p
      cases pub p with
      | some v => rfl
      | none =>
          simp only
          split_ifs with h
          · exact hw p (h.trans_le (ha t rfl))
          · rfl
  · rfl

theorem AlikeProducer.restBound_eq {st : ProducerStatus} {h h' : Handle}
    (e : h.producer = h'.producer) (hr : st = .reserved → h = h') :
    restBound st h = restBound st h' := by
  cases st with
  | gone => rfl
  | ready => exact congrArg Producer.tail e
  | reserved => rw [hr rfl]

section steps
variable {s s' : State V} (S : Sound C s) (S' : Sound C s') (T : Trimmed C s) (A : Alike C s s')
include A

include S S' T in
theorem Alike.producerAct {start start' : Handle} {op : ProducerOp V} {a : Act Handle V}
    {k : a.Ans → Proc Handle V (ProducerStatus × List V)}
    (hp : s.producer = .busy start op (.act a k)) (hp' : s'.producer = .busy start' op (.act a k))
    (hb : op.bound start = op.bound start') (hplaced : Placed op start start' (.act a k))
    (hzero : op.isJoin = true → (Prog.act a k).All StoresZero (fun _ => True))
    (F : Follows (.act a k) s.handle s'.handle) :
    Alike C (s.producerDoes C a fun x => .busy start op (k x))
      (s'.producerDoes C a fun x => .busy start' op (k x)) := by
  have hc := (S.producer_act (fun _ => S.room) hp).1.change
  have hc' := (S'.producer_act (fun _ => S'.room) hp').1.change
  obtain ⟨hk, F'⟩ := F.step (w := C.w) A.channel.header
  -- what is stored as the tail has been recorded
  have hstore : ∀ t, a = .store .tail t → t ≤ op.bound start := by
    rintro t rfl
    cases hop : op.isJoin with
    | true => exact ((hzero hop).1 t rfl).trans_le (Nat.zero_le _)
    | false => exact ((T.step S (.producerAct hp)) start op _ rfl hop).1
  have hwrote : ∀ p, p < op.bound start → s.wrote p = s'.wrote p := by
    intro p h
    apply A.wrote
    simpa only [State.recordedTo, hp] using h
  have hpub : publish a s.wrote s.published = publish a s'.wrote s'.published := by
    rw [← A.published]
    exact publish_congr hwrote hstore
  have hheader := A.channel.header.step (w := C.w) a s.handle s'.handle
  refine ⟨⟨⟨hheader, fun p h1 h2 => ?_⟩, A.consumer, A.cursor, hpub, A.joinedAt, A.received⟩, ?_,
    hwrote⟩
  · have hhead : s.ch.head = s'.ch.head := A.channel.header .head
    have htail : s.ch.tail = s'.ch.tail := A.channel.header .tail
    have h1 : s.ch.head ≤ p := hc.head.symm.trans_le h1
    rcases Nat.lt_or_ge p s.ch.tail with hold | hnew
    · have e1 := hc.cells p h1 hold
      have e2 := hc'.cells p (hhead.symm.trans_le h1) (hold.trans_eq htail)
      exact e1.trans ((A.channel.cells p h1 hold).trans e2.symm)
    · have e1 := hc.fresh p h1 hnew h2
      have e2 := hc'.fresh p (hhead.symm.trans_le h1) (htail.symm.trans_le hnew)
        (h2.trans_eq (hheader .tail))
      exact Option.some.inj (e1.symm.trans ((congrFun hpub p).trans e2))
  · have hplaced' : Placed op start start' (k (a.step C.w (s.ch, s.handle)).1) :=
      hplaced.imp_right fun h => h.2 _
    have hzero' : op.isJoin = true →
        (k (a.step C.w (s.ch, s.handle)).1).All StoresZero (fun _ => True) := fun h => (hzero h).2 _
    simp only [State.producerDoes]
    rw [← hk]
    exact .busy hb hplaced' hzero' F'

include T in
theorem Alike.producerReturn {start start' : Handle} {op : ProducerOp V}
    {r : ProducerStatus × List V}
    (hp : s.producer = .busy start op (.ret r)) (hplaced : Placed op start start' (.ret r))
    (F : Follows (.ret r) s.handle s'.handle) :
    Alike C { s with producer := .rest r.1, wrote := wroteAfter op start r.2 s.wrote }
      { s' with producer := .rest r.1, wrote := wroteAfter op start' r.2 s'.wrote } := by
  have hres : r.1 = .reserved → s.handle = s'.handle := by
    intro hr
    rcases F.2 with hb | hb
    · exact absurd hr hb
    · exact hb.1
  refine ⟨⟨A.channel, A.consumer, A.cursor, A.published, A.joinedAt, A.received⟩, .rest F.1 hres,
    fun p h => ?_⟩
  have h : p < restBound r.1 s.handle := h
  cases hop : op.isJoin with
  | true => simp only [wroteAfter, hop, if_true]
  | false =>
      simp only [wroteAfter, hop, Bool.false_eq_true, if_false]
      have hwrote : p < op.bound start → s.wrote p = s'.wrote p := by
        intro h
        apply A.wrote
        simpa only [State.recordedTo, hp] using h
      have hnew : op.bound start ≤ p →
          op.position start ≤ p ∧ p < op.position start + r.2.length := fun h1 =>
        T.returned hp hop h1 h
      unfold record
      rcases hplaced with e | e
      · rw [← e]
        split_ifs with hin
        · rfl
        · exact hwrote (Nat.lt_of_not_le fun h1 => hin (hnew h1))
      · have e : r.2 = [] := e
        rw [e] at hnew ⊢
        simp only [List.length_nil] at hnew ⊢
        rw [if_neg (by omega), if_neg (by omega)]
        exact hwrote (by omega)

theorem Alike.producerCall {st : ProducerStatus} {op : ProducerOp V}
    (hp : s.producer = .rest st) (e : s.handle.producer = s'.handle.producer)
    (hr : st = .reserved → s.handle = s'.handle) (hen : op.enabled st = true) :
    Alike C { s with producer := .busy s.handle op (op.code C) }
      { s' with producer := .busy s'.handle op (op.code C) } := by
  have hbound : op.bound s.handle = op.bound s'.handle := by
    rw [ProducerOp.bound_of_enabled hen, ProducerOp.bound_of_enabled hen]
    exact AlikeProducer.restBound_eq e hr
  refine ⟨⟨A.channel, A.consumer, A.cursor, A.published, A.joinedAt, A.received⟩,
    .busy hbound ?_ ProducerOp.code_storesZero ⟨e, ?_⟩, fun p h => ?_⟩
  · by_cases hst : st = .reserved
    · rw [hr hst]
      exact .inl rfl
    cases hpush : op.isPush with
    | true =>
        left
        cases op with
        | push v => exact congrArg Producer.tail e
        | _ => cases hpush
    | false => exact .inr (op.code_silent hen hst hpush)
  · by_cases hst : st = .reserved
    · exact .inr ⟨hr hst, op.code_noRead (hst ▸ hen)⟩
    · exact .inl (op.code_blind hen hst)
  · apply A.wrote
    have h : p < op.bound s.handle := h
    rw [ProducerOp.bound_of_enabled hen] at h
    simpa only [State.recordedTo, hp] using h

theorem Alike.consumerMoves (S : Sound C s) {m : Move V} (hm : m.ofConsumer = true) :
    Option.Rel (Alike C) (s.move C m) (s'.move C m) := by
  have h := A.toSameOutside.consumerMove S hm
  generalize s.move C m = r at h ⊢
  generalize s'.move C m = r' at h ⊢
  cases h with
  | none => exact .none
  | some h =>
      obtain ⟨h1, u, u'⟩ := h
      refine .some ⟨h1, ?_, fun p hp => ?_⟩
      · rw [u.producer, u.handle, u'.producer, u'.handle]
        exact A.producer
      · rw [u.wrote, u'.wrote]
        apply A.wrote
        simpa only [State.recordedTo, u.producer, u.handle] using hp

end steps

/-- **One move.**  It is possible in both of two alike states or in none, and leads to alike
states. -/
theorem Alike.move {s s' : State V} (S : Sound C s) (S' : Sound C s') (T : Trimmed C s)
    (A : Alike C s s') (m : Move V) : Option.Rel (Alike C) (s.move C m) (s'.move C m) := by
  cases m with
  | producerCall op =>
      rcases A.producer.inv with ⟨st, hp, hp', e, hr⟩ | ⟨start, start', op', code, hp, hp', _⟩
      · simp only [State.move, hp, hp', ← e]
        split_ifs with hc
        · exact .some (A.producerCall hp e hr hc.1)
        · exact .none
      · simp only [State.move, hp, hp']
        exact .none
  | producerGo =>
      rcases A.producer.inv with ⟨st, hp, hp', _⟩ | ⟨start, start', op, code, hp, hp', hb, hplaced,
        hzero, F⟩
      · simp only [State.move, hp, hp']
        exact .none
      · cases code with
        | act a k =>
            simp only [State.move, hp, hp']
            exact .some (A.producerAct S S' T hp hp' hb hplaced hzero F)
        | ret r =>
            simp only [State.move, hp, hp']
            exact .some (A.producerReturn T hp hplaced F)
  | producerStop =>
      have hstatus : ProducerStatus.gone ≠ .reserved := by decide
      refine .some ⟨⟨A.channel, A.consumer, A.cursor, A.published, A.joinedAt, A.received⟩,
        .rest A.producer.own fun e => absurd e hstatus, fun p h => ?_⟩
      exact absurd h (Nat.not_lt_zero p)
  | consumerCall op => exact A.consumerMoves S rfl
  | consumerGo => exact A.consumerMoves S rfl
  | consumerStop => exact A.consumerMoves S rfl

/-- **Every schedule** is possible from both of two alike states or from none, and leads to alike
states. -/
theorem Alike.moves {s s' : State V} (S : Sound C s) (S' : Sound C s') (T : Trimmed C s)
    (A : Alike C s s') (ms : List (Move V)) :
    Option.Rel (Alike C) (s.moves C ms) (s'.moves C ms) := by
  induction ms generalizing s s' with
  | nil => exact .some A
  | cons m ms ih =>
      have h := A.move S S' T m
      simp only [State.moves]
      cases hm : s.move C m with
      | none =>
          rw [hm] at h
          cases hm' : s'.move C m with
          | none => exact .none
          | some t' => rw [hm'] at h; cases h
      | some t =>
          rw [hm] at h
          cases hm' : s'.move C m with
          | none => rw [hm'] at h; cases h
          | some t' =>
              rw [hm'] at h
              cases h with
              | some A' =>
                  have hstep := State.move_step hm
                  exact ih (S.step hstep) (S'.step (State.move_step hm')) (T.step S hstep) A'

end Que.Lossless
