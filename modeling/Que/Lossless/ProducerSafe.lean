import Que.Lossless.Contract

/-! # The producer keeps its contract

Every call of the producer is verified against `producerContract`.

The assertion that carries the proofs is `Own v t e pend`: the positions from the shared tail up
to `t` hold what the history says, the values `pend` have been written from `t` on and wait to be
recorded, and the positions up to `e` are free for this producer.  The consumer cannot break it
(`Own.stable`).  Writing the next slot extends `pend` (`safe_write`), storing the tail publishes
the recorded positions (`safe_storeTail`). -/

namespace Que.Lossless

open Lib

variable {V : Type} {C : Config}

/-! ### The producer's share of the ring -/

/-- The producer owns the positions from the shared tail up to `e`; those below `t` are written
and recorded, the values `pend` are written from `t` on. -/
structure Own (C : Config) (v : ProducerView V) (t e : ℕ) (pend : List V) : Prop where
  tail_le : v.ch.tail ≤ t
  fill_le : t + pend.length ≤ e
  room : e ≤ v.ch.head + C.N
  lt : e < 2 ^ C.w
  recorded : ∀ p, v.ch.tail ≤ p → p < t → v.wrote p = some (v.ch.buffer (slot C.N p))
  pending : ∀ i x, pend[i]? = some x → v.ch.buffer (slot C.N (t + i)) = x

namespace Own
variable {v u : ProducerView V} {t e : ℕ} {pend : List V}

theorem stable (h : Own C v t e pend) (hr : ProducerRely C v u) : Own C u t e pend := by
  have hh := hr.change.head_le
  have hroom := h.room
  have hfill := h.fill_le
  refine ⟨?_, h.fill_le, by omega, h.lt, fun p h1 h2 => ?_, fun i x hi => ?_⟩
  · rw [hr.change.tail]
    exact h.tail_le
  · rw [hr.change.tail] at h1
    rw [hr.wrote, hr.change.cells p h1 (by omega)]
    exact h.recorded p h1 h2
  · have hlen : i < pend.length := (List.getElem?_eq_some_iff.mp hi).1
    have htail := h.tail_le
    rw [hr.change.cells (t + i) (by omega) (by omega)]
    exact h.pending i x hi

/-- Changes of the producer's own structure do not matter. -/
theorem handle (h : Own C v t e pend) (x : Handle) : Own C { v with handle := x } t e pend :=
  ⟨h.tail_le, h.fill_le, h.room, h.lt, h.recorded, h.pending⟩

theorem quiet (h : Own C v t e pend) {ch : Channel V} (q : Quiet v.ch ch) :
    Own C { v with ch := ch } t e pend :=
  ⟨q.tail.trans_le h.tail_le, h.fill_le, by simpa only [q.head] using h.room, h.lt,
    by simpa only [q.tail, q.buffer] using h.recorded, by simpa only [q.buffer] using h.pending⟩

/-- Give up reserved space and unrecorded values. -/
theorem shrink (h : Own C v t e pend) {t' e' : ℕ} (h1 : v.ch.tail ≤ t') (h2 : t' ≤ t)
    (h3 : t' ≤ e') (h4 : e' ≤ e) : Own C v t' e' [] :=
  ⟨h1, h3, h4.trans h.room, h4.trans_lt h.lt, fun p hp hp' => h.recorded p hp (hp'.trans_le h2),
    fun i x hi => by simp at hi⟩

/-- The next position to be written has none of the slots in use. -/
theorem slot_free (h : Own C v t e pend) {p q : ℕ} (hp : p < e) (h1 : v.ch.head ≤ q) (h2 : q < p) :
    slot C.N q ≠ slot C.N p := by
  have := h.room
  exact (slot_ne C.pow h2 (by omega)).symm

/-- Record the values written by a call. -/
theorem record_pending (h : Own C v t e pend) :
    Own C { v with wrote := record t pend v.wrote } (t + pend.length) e [] := by
  refine ⟨by have := h.tail_le; simp only; omega, by simpa using h.fill_le, h.room, h.lt, ?_, ?_⟩
  · intro p h1 h2
    simp only [record]
    split_ifs with hp
    · have hi : p - t < pend.length := by omega
      have := h.pending (p - t) pend[p - t] (List.getElem?_eq_getElem hi)
      rw [List.getElem?_eq_getElem hi, ← this]
      congr 2
      congr 1
      omega
    · exact h.recorded p h1 (by omega)
  · intro i x hi
    simp at hi

end Own

/-! ### Rules for the producer's actions -/

section rules
variable {J : ProducerView V → Prop} {α : Type} {Q : α → ProducerView V → Prop}
  {v : ProducerView V}

theorem safe_load {x : Word} {k : ℕ → Proc Handle V α}
    (h : ∀ u, ProducerRely C v u → Base C u.ch u.published →
      (x = .tail → u.ch.tail ≤ u.ch.head + C.N) →
      J u ∧ Safe (producerContract C J) (k (u.ch.get x)) Q u) :
    Safe (producerContract C J) (load x >>= k) Q v := by
  intro u hu ha
  obtain ⟨hJ, hk⟩ := h u hu ha.1 (fun hx => ha.2 (by rw [hx]))
  exact ⟨⟨.of_quiet (.refl _), ha.1, hJ, slotFree_of_none rfl⟩, hk⟩

theorem safe_self {k : Handle → Proc Handle V α}
    (h : ∀ u, ProducerRely C v u → Base C u.ch u.published →
      J u ∧ Safe (producerContract C J) (k v.handle) Q u) :
    Safe (producerContract C J) (self >>= k) Q v := by
  intro u hu ha
  obtain ⟨hJ, hk⟩ := h u hu ha.1
  rw [← hu.handle] at hk
  exact ⟨⟨.of_quiet (.refl _), ha.1, hJ, slotFree_of_none rfl⟩, hk⟩

theorem safe_update {f : Handle → Handle} {k : Unit → Proc Handle V α}
    (h : ∀ u, ProducerRely C v u → J { u with handle := f v.handle } ∧
      Safe (producerContract C J) (k ()) Q { u with handle := f v.handle }) :
    Safe (producerContract C J) (update f >>= k) Q v := by
  intro u hu ha
  obtain ⟨hJ, hk⟩ := h u hu
  rw [← hu.handle] at hJ hk
  exact ⟨⟨.of_quiet (.refl _), ha.1, hJ, slotFree_of_none rfl⟩, hk⟩

/-- Counting a heartbeat or an `Arc` handle. -/
theorem safe_fetchAdd {x : Word} {n : ℕ} {k : ℕ → Proc Handle V α}
    (hx : x = .producerHeartbeat ∨ x = .consumerHeartbeat ∨ x = .strong)
    (h : ∀ u ch, ProducerRely C v u → Quiet u.ch ch → ∀ r, J { u with ch := ch } ∧
      Safe (producerContract C J) (k r) Q { u with ch := ch }) :
    Safe (producerContract C J) (fetchAdd x n >>= k) Q v := by
  intro u hu ha
  have q := Quiet.set u.ch (wadd C.w (u.ch.get x) n) hx
  obtain ⟨hJ, hk⟩ := h u _ hu q (u.ch.get x)
  exact ⟨⟨.of_quiet q, ha.1.quiet q, hJ, slotFree_of_none rfl⟩, hk⟩

theorem safe_dropArc {k : Unit → Proc Handle V α}
    (h : ∀ u ch, ProducerRely C v u → Quiet u.ch ch → J { u with ch := ch } ∧
      Safe (producerContract C J) (k ()) Q { u with ch := ch }) :
    Safe (producerContract C J) (Prog.perform Act.dropArc >>= k) Q v := by
  intro u hu ha
  have q : Quiet u.ch (u.ch.set .strong (wsub C.w u.ch.strong 1)) := Quiet.set u.ch _ (by simp)
  obtain ⟨hJ, hk⟩ := h u _ hu q
  exact ⟨⟨.of_quiet q, ha.1.quiet q, hJ, slotFree_of_none rfl⟩, hk⟩

/-- Writing the slot after the last pending value. -/
theorem safe_write {a : Act Handle V} {i t e : ℕ} {x : V} {pend : List V}
    {k : a.Ans → Proc Handle V α} (ha : a = .assign i x ∨ a = .copy i x)
    (own : Own C v t e pend) (hlt : t + pend.length < e) (hle : v.ch.tail ≤ v.handle.producer.tail)
    (htail : v.handle.producer.tail ≤ t + pend.length) (hi : i = slot C.N (t + pend.length))
    (h : ∀ u r, Own C u t e (pend ++ [x]) → u.handle = v.handle → u.ch.tail = v.ch.tail →
      J u ∧ Safe (producerContract C J) (k r) Q u) :
    Safe (producerContract C J) (.act a k) Q v := by
  intro u hu hasm
  have ou := own.stable hu
  have hbase := hasm.1
  have own' : Own C { u with ch := u.ch.write i x } t e (pend ++ [x]) := by
    have hroom := ou.room
    refine ⟨ou.tail_le, by simp; omega, ou.room, ou.lt, fun p h1 h2 => ?_, fun j y hj => ?_⟩
    · have hne : slot C.N p ≠ i := by
        rw [hi]
        exact ou.slot_free hlt (hbase.head_le.trans h1) (by omega)
      simpa [Channel.write, Function.update_of_ne hne] using ou.recorded p h1 h2
    · simp only [Channel.write]
      have hjl : j < (pend ++ [x]).length := (List.getElem?_eq_some_iff.mp hj).1
      rcases Nat.lt_or_ge j pend.length with hlt' | hge
      · have hne : slot C.N (t + j) ≠ i := by
          rw [hi]
          have := ou.tail_le
          have := hbase.head_le
          exact ou.slot_free hlt (by omega) (by omega)
        rw [Function.update_of_ne hne]
        rw [List.getElem?_append_left hlt'] at hj
        exact ou.pending j y hj
      · obtain rfl : j = pend.length := by simp at hjl; omega
        rw [hi, Function.update_self]
        simpa using hj
  have hchange : ProducerChange C u.ch (u.ch.write i x) u.published u.published := by
    refine ⟨rfl, rfl, rfl, le_rfl, fun p h1 h2 => ?_, fun h => absurd rfl h,
      fun p _ h1 h2 => absurd h2 (by simp only [Channel.write]; omega), fun _ _ h => h⟩
    have hne : slot C.N p ≠ i := by
      rw [hi]
      have := ou.tail_le
      exact ou.slot_free hlt h1 (by omega)
    simp [Channel.write, Function.update_of_ne hne]
  have hfree : SlotFree C a u := by
    intro j hj
    obtain rfl : j = i := by rcases ha with rfl | rfl <;> cases hj <;> rfl
    refine ⟨by rw [hu.handle, hu.change.tail]; exact hle, fun q h1 h2 => ?_⟩
    rw [hi]
    rw [hu.handle] at h2
    exact ou.slot_free hlt h1 (by omega)
  have hbase' : Base C (u.ch.write i x) u.published :=
    ⟨hbase.magic, hbase.capacity, hbase.head_le, hbase.tail_lt, hbase.beyond⟩
  rcases ha with rfl | rfl
  · obtain ⟨hJ, hk⟩ := h { u with ch := u.ch.write i x } () own' hu.handle hu.change.tail
    exact ⟨⟨hchange, hbase', hJ, hfree⟩, hk⟩
  · obtain ⟨hJ, hk⟩ := h { u with ch := u.ch.write i x } () own' hu.handle hu.change.tail
    exact ⟨⟨hchange, hbase', hJ, hfree⟩, hk⟩

/-- Storing the local tail publishes everything recorded. -/
theorem safe_storeTail {t e : ℕ} {k : Unit → Proc Handle V α} (own : Own C v t e [])
    (h : ∀ u, Own C u t e [] → u.handle = v.handle → u.ch.tail = t →
      J u ∧ Safe (producerContract C J) (k ()) Q u) :
    Safe (producerContract C J) (store .tail t >>= k) Q v := by
  intro u hu hasm
  have ou := own.stable hu
  have hbase := hasm.1
  have hle := ou.tail_le
  have hfill : t ≤ e := by simpa using ou.fill_le
  have hpub : ∀ p, u.ch.tail ≤ p → p < t →
      publish (.store .tail t : Act Handle V) u.wrote u.published p =
        some (u.ch.buffer (slot C.N p)) := by
    intro p h1 h2
    simp only [publish, hbase.beyond p h1, if_pos h2]
    exact ou.recorded p h1 h2
  have own' : Own C ⟨u.ch.set .tail t, u.handle, u.wrote, publish (.store .tail t : Act Handle V)
      u.wrote u.published⟩ t e [] :=
    ⟨le_rfl, ou.fill_le, ou.room, ou.lt, fun p h1 h2 => absurd h2 (Nat.not_lt.mpr h1),
      fun i x hi => by simp at hi⟩
  obtain ⟨hJ, hk⟩ := h _ own' hu.handle rfl
  refine ⟨⟨⟨rfl, rfl, rfl, hle, fun _ _ _ => rfl, fun _ => hfill.trans ou.room,
    fun p _ h1 h2 => hpub p h1 h2, ?_⟩, ?_, hJ, slotFree_of_none rfl⟩, hk⟩
  · intro p x hp
    simp [producerContract, publish, hp]
  · refine ⟨hbase.magic, hbase.capacity, hbase.head_le.trans hle, ?_, fun p hp => ?_⟩
    · have := ou.lt
      simp only [producerContract, Act.step, Channel.set]
      omega
    · simp only [producerContract, Act.step, Channel.set] at hp
      simp only [producerContract, publish, hbase.beyond p (hle.trans hp),
        if_neg (Nat.not_lt.mpr hp)]

end rules

/-! ### Between the calls -/

/-- A producer at rest: everything up to its local tail is recorded. -/
def Ready (C : Config) (v : ProducerView V) : Prop :=
  Own C v v.handle.producer.tail v.handle.producer.tail [] ∧
    v.ch.tail + v.handle.producer.written = v.handle.producer.tail

/-- A producer with an open reservation. -/
def Open (C : Config) (v : ProducerView V) : Prop :=
  Own C v (v.handle.producer.tail + v.handle.reservation.written)
      (v.handle.producer.tail + v.handle.reservation.count) [] ∧
    v.ch.tail + v.handle.producer.written = v.handle.producer.tail ∧
    v.handle.reservation.startTail = v.handle.producer.tail

/-- What holds of the producer's view at a status. -/
def ProducerRest (C : Config) : ProducerStatus → ProducerView V → Prop
  | .gone, _ => True
  | .ready, v => Ready C v
  | .reserved, v => Open C v

/-- What holds when the call `op`, made at `start`, is about to return. -/
def ProducerPost (C : Config) (op : ProducerOp V) (start : Handle) (r : ProducerStatus × List V)
    (v : ProducerView V) : Prop :=
  ProducerRest C r.1 { v with wrote := wroteAfter op start r.2 v.wrote }

/-- The bound on the own structure during a call; a constructor has none yet. -/
def producerBound (C : Config) (op : ProducerOp V) : ProducerView V → Prop :=
  if op.isJoin then fun _ => True else TailBound C

theorem Ready.stable {v u : ProducerView V} (h : Ready C v) (hr : ProducerRely C v u) :
    Ready C u := by
  constructor
  · rw [hr.handle]
    exact h.1.stable hr
  · rw [hr.handle, hr.change.tail]
    exact h.2

theorem Open.stable {v u : ProducerView V} (h : Open C v) (hr : ProducerRely C v u) :
    Open C u := by
  refine ⟨?_, ?_, ?_⟩
  · rw [hr.handle]
    exact h.1.stable hr
  · rw [hr.handle, hr.change.tail]
    exact h.2.1
  · rw [hr.handle]
    exact h.2.2

theorem ProducerRest.stable {st : ProducerStatus} {v u : ProducerView V} (h : ProducerRest C st v)
    (hr : ProducerRely C v u) : ProducerRest C st u := by
  cases st with
  | gone => trivial
  | ready => exact Ready.stable h hr
  | reserved => exact Open.stable h hr

theorem TailBound.stable {v u : ProducerView V} (h : TailBound C v) (hr : ProducerRely C v u) :
    TailBound C u := by
  have hh := hr.change.head_le
  obtain ⟨h1, h2⟩ := h
  unfold TailBound
  rw [hr.handle, hr.change.tail]
  exact ⟨h1, by omega⟩

theorem Own.tailBound {v : ProducerView V} {t e : ℕ} {pend : List V} (h : Own C v t e pend)
    (h1 : v.ch.tail ≤ v.handle.producer.tail) (h2 : v.handle.producer.tail ≤ e) : TailBound C v :=
  ⟨h1, h2.trans h.room⟩

theorem Ready.tailBound {v : ProducerView V} (h : Ready C v) : TailBound C v :=
  h.1.tailBound (by have := h.2; omega) le_rfl

theorem Open.tailBound {v : ProducerView V} (h : Open C v) : TailBound C v :=
  h.1.tailBound (by have := h.2.1; omega) (by omega)

/-! ### Constructors -/

/-- A constructor that succeeded has read the shared tail. -/
def Joined (C : Config) : Outcome Producer → ProducerView V → Prop
  | .ok p, v => Own C v p.tail p.tail [] ∧ p.tail = v.ch.tail ∧ p.written = 0
  | _, _ => True

theorem Joined.stable {r : Outcome Producer} {v u : ProducerView V} (h : Joined C r v)
    (hr : ProducerRely C v u) : Joined C r u := by
  cases r with
  | ok p => exact ⟨h.1.stable hr, h.2.1.trans hr.change.tail.symm, h.2.2⟩
  | err e => trivial
  | panic => trivial

/-- The end of every constructor that joins an existing channel. -/
theorem readTail_safe (v : ProducerView V) :
    Safe (producerContract C fun _ => True)
      (do
        let tail ← load .tail
        let lastConsumerHeartbeat ← load .consumerHeartbeat
        return .ok ⟨tail, 0, lastConsumerHeartbeat⟩)
      (Joined C) v := by
  refine safe_load fun u _ hb hroom => ⟨trivial, ?_⟩
  have hj : ∀ n, Joined C (.ok ⟨u.ch.tail, 0, n⟩) u := fun n =>
    ⟨⟨le_rfl, le_rfl, hroom rfl, hb.tail_lt, fun p h1 h2 => absurd h2 (Nat.not_lt.mpr h1),
      fun i x hi => by simp at hi⟩, rfl, rfl⟩
  refine safe_load fun t ht _ _ => ⟨trivial, ?_⟩
  exact Safe.ret fun t' ht' => ((hj _).stable ht).stable ht'

theorem incrementStrongCount_safe {M : Mode} {α : Type} {f : Unit → Proc Handle V α}
    {Q : α → ProducerView V → Prop} {v : ProducerView V}
    (h : ∀ u, Safe (producerContract C fun _ => True) (f ()) Q u) :
    Safe (producerContract C fun _ => True) (incrementStrongCount M >>= f) Q v := by
  unfold incrementStrongCount
  cases M.backedByArcc with
  | false => exact h v
  | true => exact safe_fetchAdd (by simp) fun u ch _ _ _ => ⟨trivial, h _⟩

theorem joinProducer_safe (v : ProducerView V) :
    Safe (producerContract C fun _ => True) (joinProducer C.mode C.N C.buffer) (Joined C) v := by
  unfold joinProducer
  rw [if_neg (by simp [C.valid])]
  refine safe_load fun u _ hb _ => ⟨trivial, ?_⟩
  refine safe_load fun u' _ hb' _ => ⟨trivial, ?_⟩
  rw [if_pos (show u.ch.get .magic = MAGIC from hb.magic),
    if_neg (not_not.mpr (show u'.ch.get .capacity = C.N from hb'.capacity))]
  exact incrementStrongCount_safe readTail_safe

theorem joinOrInitializeIn_safe (v : ProducerView V) :
    Safe (producerContract C fun _ => True) (joinOrInitializeIn C.mode C.N C.buffer)
      (Joined C) v := by
  unfold joinOrInitializeIn
  rw [if_neg (by simp [C.valid])]
  refine safe_load fun u _ hb _ => ⟨trivial, ?_⟩
  refine safe_load fun u' _ hb' _ => ⟨trivial, ?_⟩
  rw [if_pos (show u.ch.get .magic = MAGIC from hb.magic),
    if_neg (not_not.mpr (show u'.ch.get .capacity = C.N from hb'.capacity))]
  refine safe_fetchAdd (by simp) fun u'' ch _ _ _ => ⟨trivial, ?_⟩
  exact incrementStrongCount_safe readTail_safe

theorem joinOrCreateShmem_safe (v : ProducerView V) :
    Safe (producerContract C fun _ => True) (joinOrCreateShmem C.N) (Joined C) v := by
  unfold joinOrCreateShmem
  refine safe_load fun u _ hb _ => ⟨trivial, ?_⟩
  refine safe_load fun u' _ hb' _ => ⟨trivial, ?_⟩
  rw [if_pos (show u.ch.get .magic = MAGIC from hb.magic),
    if_neg (not_not.mpr (show u'.ch.get .capacity = C.N from hb'.capacity))]
  exact readTail_safe u'

theorem install_safe {op : ProducerOp V} {r : Outcome Producer} {start : Handle}
    {v : ProducerView V} (h : Joined C r v) :
    Safe (producerContract C fun _ => True) (ProducerOp.install r) (ProducerPost C op start) v := by
  cases r with
  | ok p =>
      refine safe_update fun u hu => ⟨trivial, Safe.ret fun t ht => ?_⟩
      have hj : Joined C (.ok p) t := by
        have := h.stable hu
        exact (show Joined C (.ok p) { u with handle := { v.handle with producer := p } } from
          ⟨this.1.handle _, this.2⟩).stable ht
      have hp : t.handle.producer = p := by rw [ht.handle]
      obtain ⟨ho, ht, hw⟩ := hj
      show Ready C _
      constructor
      · simp only [hp]
        exact ⟨ho.tail_le, ho.fill_le, ho.room, ho.lt, fun p' h1 h2 => by simp only at h1; omega,
          fun i x hi => by simp at hi⟩
      · simp only [hp]
        omega
  | err e => exact Safe.ret fun t _ => trivial
  | panic => exact Safe.ret fun t _ => trivial

/-! ### Inside a call

`Point` pins down everything the producer knows at one point of its code: its own structure `h`,
the shared tail `T` and its share of the ring.  The rules below advance from point to point. -/

/-- A point inside a call. -/
structure Point (C : Config) (v : ProducerView V) (h : Handle) (T t e : ℕ) (pend : List V) :
    Prop where
  handle : v.handle = h
  tail : v.ch.tail = T
  own : Own C v t e pend

/-- The local tail of `h` lies between the shared tail and the end of the owned positions. -/
def Within (h : Handle) (T e : ℕ) : Prop := T ≤ h.producer.tail ∧ h.producer.tail ≤ e

namespace Point
variable {v u : ProducerView V} {h : Handle} {T t e : ℕ} {pend : List V} {α : Type}
  {Q : α → ProducerView V → Prop}

theorem stable (P : Point C v h T t e pend) (hr : ProducerRely C v u) : Point C u h T t e pend :=
  ⟨hr.handle.trans P.handle, hr.change.tail.trans P.tail, P.own.stable hr⟩

theorem tailBound (P : Point C v h T t e pend) (hw : Within h T e) : TailBound C v :=
  P.own.tailBound (by rw [P.handle, P.tail]; exact hw.1) (by rw [P.handle]; exact hw.2)

/-- Reserve more, or give up some, of the owned positions. -/
theorem extend (P : Point C v h T t e pend) (e' : ℕ) (h1 : t + pend.length ≤ e')
    (h2 : e' ≤ v.ch.head + C.N) (h3 : e' < 2 ^ C.w) : Point C v h T t e' pend :=
  ⟨P.handle, P.tail, P.own.tail_le, h1, h2, h3, P.own.recorded, P.own.pending⟩

theorem safe_load (P : Point C v h T t e pend) (hw : Within h T e) {x : Word}
    {k : ℕ → Proc Handle V α}
    (next : ∀ u, Point C u h T t e pend → Base C u.ch u.published →
      Safe (producerContract C (TailBound C)) (k (u.ch.get x)) Q u) :
    Safe (producerContract C (TailBound C)) (load x >>= k) Q v :=
  Lossless.safe_load fun u hu hb _ =>
    ⟨(P.stable hu).tailBound hw, next u (P.stable hu) hb⟩

theorem safe_self (P : Point C v h T t e pend) (hw : Within h T e) {k : Handle → Proc Handle V α}
    (next : ∀ u, Point C u h T t e pend → Base C u.ch u.published →
      Safe (producerContract C (TailBound C)) (k h) Q u) :
    Safe (producerContract C (TailBound C)) (self >>= k) Q v :=
  Lossless.safe_self fun u hu hb =>
    ⟨(P.stable hu).tailBound hw, P.handle ▸ next u (P.stable hu) hb⟩

theorem safe_update (P : Point C v h T t e pend) {f : Handle → Handle} (hw : Within (f h) T e)
    {k : Unit → Proc Handle V α}
    (next : ∀ u, Point C u (f h) T t e pend →
      Safe (producerContract C (TailBound C)) (k ()) Q u) :
    Safe (producerContract C (TailBound C)) (update f >>= k) Q v := by
  apply Lossless.safe_update
  intro u hu
  have Pu : Point C { u with handle := f v.handle } (f h) T t e pend :=
    ⟨by rw [P.handle], (P.stable hu).tail, (P.stable hu).own.handle _⟩
  exact ⟨Pu.tailBound hw, next _ Pu⟩

theorem safe_fetchAdd (P : Point C v h T t e pend) (hw : Within h T e) {x : Word} {n : ℕ}
    (hx : x = .producerHeartbeat ∨ x = .consumerHeartbeat ∨ x = .strong)
    {k : ℕ → Proc Handle V α}
    (next : ∀ u r, Point C u h T t e pend →
      Safe (producerContract C (TailBound C)) (k r) Q u) :
    Safe (producerContract C (TailBound C)) (fetchAdd x n >>= k) Q v := by
  apply Lossless.safe_fetchAdd hx
  intro u ch hu q r
  have Pu : Point C { u with ch := ch } h T t e pend :=
    ⟨(P.stable hu).handle, q.tail.trans (P.stable hu).tail, (P.stable hu).own.quiet q⟩
  exact ⟨Pu.tailBound hw, next _ r Pu⟩

theorem safe_dropArc (P : Point C v h T t e pend) (hw : Within h T e)
    {k : Unit → Proc Handle V α}
    (next : ∀ u, Point C u h T t e pend →
      Safe (producerContract C (TailBound C)) (k ()) Q u) :
    Safe (producerContract C (TailBound C)) (Prog.perform Act.dropArc >>= k) Q v := by
  apply Lossless.safe_dropArc
  intro u ch hu q
  have Pu : Point C { u with ch := ch } h T t e pend :=
    ⟨(P.stable hu).handle, q.tail.trans (P.stable hu).tail, (P.stable hu).own.quiet q⟩
  exact ⟨Pu.tailBound hw, next _ Pu⟩

/-- Write the position after the pending values. -/
theorem safe_write (P : Point C v h T t e pend) (hw : Within h T e) {a : Act Handle V} {i : ℕ}
    {x : V} (ha : a = .assign i x ∨ a = .copy i x) (hlt : t + pend.length < e)
    (hle : h.producer.tail ≤ t + pend.length) (hi : i = slot C.N (t + pend.length))
    {k : a.Ans → Proc Handle V α}
    (next : ∀ u r, Point C u h T t e (pend ++ [x]) →
      Safe (producerContract C (TailBound C)) (k r) Q u) :
    Safe (producerContract C (TailBound C)) (Prog.perform a >>= k) Q v := by
  refine Lossless.safe_write ha P.own hlt (by rw [P.handle, P.tail]; exact hw.1)
    (by rw [P.handle]; exact hle) hi ?_
  intro u r own hh htail
  have Pu : Point C u h T t e (pend ++ [x]) := ⟨hh.trans P.handle, htail.trans P.tail, own⟩
  exact ⟨Pu.tailBound hw, next u r Pu⟩

/-- Store the tail up to which everything is recorded. -/
theorem safe_storeTail (P : Point C v h T t e []) (hw : Within h t e)
    {k : Unit → Proc Handle V α}
    (next : ∀ u, Point C u h t t e [] → Safe (producerContract C (TailBound C)) (k ()) Q u) :
    Safe (producerContract C (TailBound C)) (store .tail t >>= k) Q v := by
  apply Lossless.safe_storeTail P.own
  intro u own hh htail
  have Pu : Point C u h t t e [] := ⟨hh.trans P.handle, htail, own⟩
  exact ⟨Pu.tailBound hw, next u Pu⟩

theorem ret (P : Point C v h T t e pend) {x : α}
    (hQ : ∀ u, Point C u h T t e pend → Q x u) :
    Safe (producerContract C (TailBound C)) (pure x) Q v :=
  Safe.ret fun u hu => hQ u (P.stable hu)

end Point

end Que.Lossless
