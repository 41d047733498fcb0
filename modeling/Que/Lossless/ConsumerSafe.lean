import Que.Lossless.Contract

/-! # The consumer keeps its contract

Every call of the consumer is verified against `consumerContract`.

The assertion that carries the proofs is `Avail v h f`: the cursor `h` lies between the shared
head and the shared tail, and every published position from `f` on still has its published value
in its slot.  The producer cannot break it (`Avail.stable`): it leaves the slots between head and
tail alone, and new positions are published together with their content. -/

namespace Que.Lossless

open Lib

variable {V : Type} {C : Config}

/-! ### What is left to read -/

/-- The cursor `h` is between head and tail and at most a ring behind the tail, and the positions
from `f` up to the tail can be read. -/
structure Avail (C : Config) (v : ConsumerView V) (h f : ℕ) : Prop where
  head_le : v.ch.head ≤ h
  le_tail : h ≤ v.ch.tail
  room : v.ch.tail ≤ h + C.N
  from_le : h ≤ f
  value : ∀ p, f ≤ p → p < v.ch.tail → v.published p = some (v.ch.buffer (slot C.N p))

namespace Avail
variable {v u : ConsumerView V} {h f : ℕ}

theorem stable (a : Avail C v h f) (hr : ConsumerRely C v u) : Avail C u h f := by
  have hc := hr.change
  have h1 := a.head_le
  have h2 := a.from_le
  have hroom : u.ch.tail ≤ h + C.N := by
    rcases Decidable.em (u.ch.tail = v.ch.tail) with e | e
    · exact e.trans_le a.room
    · exact (hc.room e).trans (by rw [hc.head]; omega)
  refine ⟨hc.head.trans_le h1, a.le_tail.trans hc.tail_le, hroom, h2, fun p hp hlt => ?_⟩
  rcases Nat.lt_or_ge p v.ch.tail with hold | hnew
  · rw [hc.kept p _ (a.value p hp hold), hc.cells p (by omega) hold]
  · exact hc.fresh p (by omega) hnew hlt

theorem cursor (a : Avail C v h f) (c : Consumer) : Avail C { v with cursor := c } h f :=
  ⟨a.head_le, a.le_tail, a.room, a.from_le, a.value⟩

theorem quiet (a : Avail C v h f) {ch : Channel V} (q : Quiet v.ch ch) :
    Avail C { v with ch := ch } h f :=
  ⟨q.head.trans_le a.head_le, by simpa only [q.tail] using a.le_tail,
    by simpa only [q.tail] using a.room, a.from_le, by simpa only [q.tail, q.buffer] using a.value⟩

/-- Move the cursor. -/
theorem advance (a : Avail C v h f) {h' f' : ℕ} (h1 : h ≤ h') (h2 : h' ≤ v.ch.tail) (h3 : f ≤ f')
    (h4 : h' ≤ f') : Avail C v h' f' :=
  ⟨a.head_le.trans h1, h2, a.room.trans (by omega), h4, fun p hp hlt => a.value p (h3.trans hp) hlt⟩

end Avail

/-! ### Inside a call

`Spot` pins down what the consumer knows at one point of its code: its own structure `c`, the
shared head `H`, and what it can still read. -/

/-- A point inside a call. -/
structure Spot (C : Config) (v : ConsumerView V) (c : Consumer) (H h f : ℕ) : Prop where
  cursor : v.cursor = c
  head : v.ch.head = H
  avail : Avail C v h f

namespace Spot
variable {v u : ConsumerView V} {c : Consumer} {H h f : ℕ} {α : Type}
  {Q : α → ConsumerView V → Prop}

theorem stable (S : Spot C v c H h f) (hr : ConsumerRely C v u) : Spot C u c H h f :=
  ⟨hr.cursor.trans S.cursor, hr.change.head.trans S.head, S.avail.stable hr⟩

theorem headBound (S : Spot C v c H h f) (hc : H ≤ c.head) (hh : c.head ≤ h) : HeadBound v :=
  ⟨by rw [S.head, S.cursor]; exact hc, by rw [S.cursor]; exact hh.trans S.avail.le_tail⟩

theorem quiet (S : Spot C v c H h f) {ch : Channel V} (q : Quiet v.ch ch) :
    Spot C { v with ch := ch } c H h f :=
  ⟨S.cursor, q.head.trans S.head, S.avail.quiet q⟩

section rules
variable (S : Spot C v c H h f) (hH : H ≤ c.head) (hc : c.head ≤ h)
include S hH hc

theorem safe_load {x : Word} {k : ℕ → Proc Consumer V α}
    (next : ∀ u, Spot C u c H h f → Base C u.ch u.published →
      Safe (consumerContract C HeadBound) (k (u.ch.get x)) Q u) :
    Safe (consumerContract C HeadBound) (load x >>= k) Q v := by
  intro u hu hb
  exact ⟨⟨.of_quiet (.refl _), rfl, (S.stable hu).headBound hH hc,
    slotHeld_of_none rfl⟩, next u (S.stable hu) hb⟩

theorem safe_self {k : Consumer → Proc Consumer V α}
    (next : ∀ u, Spot C u c H h f → Safe (consumerContract C HeadBound) (k c) Q u) :
    Safe (consumerContract C HeadBound) (self >>= k) Q v := by
  intro u hu _
  have Su := S.stable hu
  have hk := next u Su
  rw [← Su.cursor] at hk
  exact ⟨⟨.of_quiet (.refl _), rfl, Su.headBound hH hc,
    slotHeld_of_none rfl⟩, hk⟩

theorem safe_read (hlt : c.head < v.ch.tail) {k : V → Proc Consumer V α}
    (next : ∀ u, Spot C u c H h f → v.ch.tail ≤ u.ch.tail →
      Safe (consumerContract C HeadBound) (k (u.ch.buffer (slot C.N c.head))) Q u) :
    Safe (consumerContract C HeadBound) (read (slot C.N c.head) >>= k) Q v := by
  intro u hu _
  have Su := S.stable hu
  have htail := hu.change.tail_le
  refine ⟨⟨.of_quiet (.refl _), rfl, Su.headBound hH hc, ?_⟩, next u Su htail⟩
  rintro i hi
  cases hi
  rw [Su.cursor, Su.head]
  exact ⟨rfl, hH, by omega⟩

/-- Counting a heartbeat or an `Arc` handle. -/
theorem safe_fetchAdd {x : Word} {n : ℕ}
    (hx : x = .producerHeartbeat ∨ x = .consumerHeartbeat ∨ x = .strong) {k : ℕ → Proc Consumer V α}
    (next : ∀ u r, Spot C u c H h f → Safe (consumerContract C HeadBound) (k r) Q u) :
    Safe (consumerContract C HeadBound) (fetchAdd x n >>= k) Q v := by
  intro u hu _
  have q := Quiet.set u.ch (wadd C.w (u.ch.get x) n) hx
  have Su := (S.stable hu).quiet q
  exact ⟨⟨.of_quiet q, rfl, Su.headBound hH hc, slotHeld_of_none rfl⟩,
    next _ _ Su⟩

theorem safe_dropArc {k : Unit → Proc Consumer V α}
    (next : ∀ u, Spot C u c H h f → Safe (consumerContract C HeadBound) (k ()) Q u) :
    Safe (consumerContract C HeadBound) (Prog.perform Act.dropArc >>= k) Q v := by
  intro u hu _
  have q : Quiet u.ch (u.ch.set .strong (wsub C.w u.ch.strong 1)) := Quiet.set u.ch _ (by simp)
  have Su := (S.stable hu).quiet q
  exact ⟨⟨.of_quiet q, rfl, Su.headBound hH hc, slotHeld_of_none rfl⟩,
    next _ Su⟩

/-- Storing the local head frees the slots before it. -/
theorem safe_storeHead {k : Unit → Proc Consumer V α}
    (next : ∀ u, Spot C u c c.head h f → Safe (consumerContract C HeadBound) (k ()) Q u) :
    Safe (consumerContract C HeadBound) (store .head c.head >>= k) Q v := by
  intro u hu _
  have Su := S.stable hu
  have hhead := Su.head
  have Su' : Spot C { u with ch := u.ch.set .head c.head } c c.head h f :=
    ⟨Su.cursor, rfl, hc, Su.avail.le_tail, Su.avail.room, Su.avail.from_le, Su.avail.value⟩
  refine ⟨⟨⟨rfl, rfl, rfl, ?_, fun _ => hc.trans Su.avail.le_tail, fun _ _ _ => rfl⟩, rfl,
    Su'.headBound le_rfl hc, slotHeld_of_none rfl⟩, next _ Su'⟩
  show u.ch.head ≤ c.head
  omega

/-- Writing the slot at the cursor, through a live `Element`. -/
theorem safe_assign {x : V} (hh : h = c.head) (hlt : c.head < v.ch.tail) (hf : c.head < f)
    {k : Unit → Proc Consumer V α}
    (next : ∀ u, Spot C u c H h f → v.ch.tail ≤ u.ch.tail →
      Safe (consumerContract C HeadBound) (k ()) Q u) :
    Safe (consumerContract C HeadBound) (assign (slot C.N c.head) x >>= k) Q v := by
  intro u hu _
  have Su := S.stable hu
  have hhead := Su.head
  have htail := hu.change.tail_le
  have hroom := Su.avail.room
  have hcell : ∀ p, c.head < p → p < c.head + C.N →
      (u.ch.write (slot C.N c.head) x).buffer (slot C.N p) = u.ch.buffer (slot C.N p) := by
    intro p h1 h2
    exact Function.update_of_ne (slot_ne C.pow h1 h2) _ _
  have Su' : Spot C { u with ch := u.ch.write (slot C.N c.head) x } c H h f := by
    refine ⟨Su.cursor, Su.head, Su.avail.head_le, Su.avail.le_tail, Su.avail.room,
      Su.avail.from_le, fun p hp hlt => ?_⟩
    have hlt : p < u.ch.tail := hlt
    rw [hcell p (by omega) (by omega)]
    exact Su.avail.value p hp hlt
  refine ⟨⟨⟨rfl, rfl, rfl, le_rfl, fun h => h, fun p h1 h2 => ?_⟩, rfl, Su'.headBound hH hc, ?_⟩,
    next _ Su' htail⟩
  · exact hcell p (by omega) (by omega)
  · rintro i hi
    cases hi
    rw [Su.cursor, Su.head]
    exact ⟨rfl, hH, by omega⟩

end rules

theorem safe_update (S : Spot C v c H h f) {g : Consumer → Consumer} (hH : H ≤ (g c).head)
    (hc : (g c).head ≤ h) {k : Unit → Proc Consumer V α}
    (next : ∀ u, Spot C u (g c) H h f → Safe (consumerContract C HeadBound) (k ()) Q u) :
    Safe (consumerContract C HeadBound) (update g >>= k) Q v := by
  intro u hu _
  have Su := S.stable hu
  have Su' : Spot C { u with cursor := g u.cursor } (g c) H h f :=
    ⟨by rw [Su.cursor], Su.head, Su.avail.cursor _⟩
  exact ⟨⟨.of_quiet (.refl _), rfl, Su'.headBound hH hc,
    slotHeld_of_none rfl⟩, next _ Su'⟩

/-- Move the cursor that the next update of the own structure will reach. -/
theorem advance (S : Spot C v c H h f) {h' f' : ℕ} (h1 : h ≤ h') (h2 : h' ≤ v.ch.tail)
    (h3 : f ≤ f') (h4 : h' ≤ f') : Spot C v c H h' f' :=
  ⟨S.cursor, S.head, S.avail.advance h1 h2 h3 h4⟩

theorem ret (S : Spot C v c H h f) {x : α} (hQ : ∀ u, Spot C u c H h f → Q x u) :
    Safe (consumerContract C HeadBound) (pure x) Q v :=
  Safe.ret fun u hu => hQ u (S.stable hu)

end Spot

/-! ### Between the calls -/

/-- The local head is `itemsSinceLastSync` elements ahead of the shared head, less than a burst. -/
structure InStep (C : Config) (v : ConsumerView V) : Prop where
  head : v.ch.head + v.cursor.itemsSinceLastSync = v.cursor.head
  items : v.cursor.itemsSinceLastSync < burstAmount C.N

/-- What holds of the consumer's view at a status. -/
def ConsumerRest (C : Config) : ConsumerStatus → ConsumerView V → Prop
  | .gone, _ => True
  | .ready, v => InStep C v ∧ Avail C v v.cursor.head v.cursor.head
  | .element i, v => InStep C v ∧ Avail C v v.cursor.head (v.cursor.head + 1) ∧
      i = slot C.N v.cursor.head ∧ v.cursor.head < v.ch.tail ∧ v.cursor.head + 1 < 2 ^ C.w

/-- The position after the last one handed out, for a consumer at rest. -/
def handedOut : ConsumerStatus → Consumer → ℕ
  | .element _, c => c.head + 1
  | _, c => c.head

/-- The same for a consumer that made the call `op` at `start`. -/
def ConsumerOp.handedOut (start : Consumer) : ConsumerOp V → ℕ
  | .elementWrite _ => start.head + 1
  | .elementDrop => start.head + 1
  | _ => start.head

/-- The values given out by a call are the published ones at the next positions. -/
structure Delivers (op : ConsumerOp V) (start : Consumer) (r : ConsumerStatus × Option V)
    (v : ConsumerView V) : Prop where
  count : r.1 ≠ .gone →
    handedOut r.1 v.cursor = op.handedOut start + (given v.ch op r).length
  value : ∀ i x, (given v.ch op r)[i]? = some x → v.published (op.handedOut start + i) = some x

/-- What holds when the call `op`, made at `start`, is about to return. -/
def ConsumerPost (C : Config) (op : ConsumerOp V) (start : Consumer)
    (r : ConsumerStatus × Option V) (v : ConsumerView V) : Prop :=
  ConsumerRest C r.1 v ∧ if op.isJoin then ∀ i, r.1 ≠ .element i else Delivers op start r v

/-- The bound on the own structure during a call; a constructor has none yet. -/
def consumerBound (op : ConsumerOp V) : ConsumerView V → Prop :=
  if op.isJoin then fun _ => True else HeadBound

theorem InStep.stable {v u : ConsumerView V} (h : InStep C v) (hr : ConsumerRely C v u) :
    InStep C u := by
  constructor
  · rw [hr.cursor, hr.change.head]
    exact h.head
  · rw [hr.cursor]
    exact h.items

theorem ConsumerRest.stable {st : ConsumerStatus} {v u : ConsumerView V} (h : ConsumerRest C st v)
    (hr : ConsumerRely C v u) : ConsumerRest C st u := by
  cases st with
  | gone => trivial
  | ready =>
      refine ⟨h.1.stable hr, ?_⟩
      rw [hr.cursor]
      exact h.2.stable hr
  | element i =>
      obtain ⟨hs, ha, hi, hlt, hw⟩ := h
      refine ⟨hs.stable hr, ?_⟩
      rw [hr.cursor]
      exact ⟨ha.stable hr, hi, hlt.trans_le hr.change.tail_le, hw⟩

theorem HeadBound.stable {v u : ConsumerView V} (h : HeadBound v) (hr : ConsumerRely C v u) :
    HeadBound u := by
  have ht := hr.change.tail_le
  obtain ⟨h1, h2⟩ := h
  unfold HeadBound
  rw [hr.cursor, hr.change.head]
  exact ⟨h1, h2.trans ht⟩

theorem ConsumerRest.headBound {st : ConsumerStatus} {v : ConsumerView V} (h : ConsumerRest C st v)
    (hst : st ≠ .gone) : HeadBound v := by
  cases st with
  | gone => exact absurd rfl hst
  | ready => exact ⟨h.2.head_le, h.2.le_tail⟩
  | element i => exact ⟨h.2.1.head_le, h.2.1.le_tail⟩

/-! ### Joining -/

/-- A constructor that succeeded has read a shared tail and stored it as the head. -/
def Arrived (C : Config) : Outcome Consumer → ConsumerView V → Prop
  | .ok c, v => v.ch.head = c.head ∧ c.itemsSinceLastSync = 0 ∧ Avail C v c.head c.head
  | _, _ => True

theorem Arrived.stable {r : Outcome Consumer} {v u : ConsumerView V} (h : Arrived C r v)
    (hr : ConsumerRely C v u) : Arrived C r u := by
  cases r with
  | ok c => exact ⟨hr.change.head.trans h.1, h.2.1, h.2.2.stable hr⟩
  | err e => trivial
  | panic => trivial

section join
variable {α : Type} {Q : α → ConsumerView V → Prop} {v : ConsumerView V}

theorem Joining.safe_load {x : Word} {k : ℕ → Proc Consumer V α}
    (next : ∀ u, ConsumerRely C v u → Base C u.ch u.published →
      Safe (consumerContract C fun _ => True) (k (u.ch.get x)) Q u) :
    Safe (consumerContract C fun _ => True) (load x >>= k) Q v := by
  intro u hu hb
  exact ⟨⟨.of_quiet (.refl _), rfl, trivial, slotHeld_of_none rfl⟩,
    next u hu hb⟩

/-- The last steps of the constructor do not touch what `Arrived` speaks of. -/
theorem Joining.finish {M : Mode} {h : ℕ} (hv : ∀ n, Arrived C (.ok ⟨h, 0, n⟩) v) :
    Safe (consumerContract C fun _ => True)
      (do
        incrementStrongCount M
        let lastProducerHeartbeat ← load .producerHeartbeat
        return .ok ⟨h, 0, lastProducerHeartbeat⟩) (Arrived C) v := by
  have hlast : ∀ t : ConsumerView V, (∀ n, Arrived C (.ok ⟨h, 0, n⟩) t) →
      Safe (consumerContract C fun _ => True)
        (do
          let lastProducerHeartbeat ← load .producerHeartbeat
          return .ok ⟨h, 0, lastProducerHeartbeat⟩) (Arrived C) t := fun t ht =>
    Joining.safe_load fun u hu _ => Safe.ret fun u' hu' => ((ht _).stable hu).stable hu'
  unfold incrementStrongCount
  cases M.backedByArcc with
  | false => exact hlast v hv
  | true =>
      intro t ht _
      have q : Quiet t.ch (t.ch.set .strong (wadd C.w t.ch.strong 1)) := Quiet.set t.ch _ (by simp)
      refine ⟨⟨.of_quiet q, rfl, trivial, slotHeld_of_none rfl⟩,
        hlast _ fun n => ?_⟩
      have := (hv n).stable ht
      exact ⟨q.head.trans this.1, this.2.1, this.2.2.quiet q⟩

theorem joinConsumer_safe (v : ConsumerView V) :
    Safe (consumerContract C fun _ => True) (joinConsumer C.mode C.N C.buffer) (Arrived C) v := by
  unfold joinConsumer
  rw [if_neg (by simp [C.valid])]
  apply Joining.safe_load
  intro u _ hb
  apply Joining.safe_load
  intro u' _ hb'
  rw [if_pos (show u.ch.get .magic = MAGIC from hb.magic),
    if_neg (not_not.mpr (show u'.ch.get .capacity = C.N from hb'.capacity))]
  apply Joining.safe_load
  intro u hu hb
  -- nothing is left to read at the tail; what is published before the head is stored can be read
  have ha : Avail C u u.ch.tail u.ch.tail :=
    ⟨hb.head_le, le_rfl, by omega, le_rfl, fun p h1 h2 => absurd h2 (by omega)⟩
  intro t ht _
  have hat := ha.stable ht
  refine ⟨⟨⟨rfl, rfl, rfl, hat.head_le, fun _ => hat.le_tail, fun _ _ _ => rfl⟩, rfl, trivial,
    slotHeld_of_none rfl⟩, ?_⟩
  exact Joining.finish fun n => ⟨rfl, rfl, le_rfl, hat.le_tail, hat.room, le_rfl, hat.value⟩

theorem ConsumerOp.install_safe {r : Outcome Consumer} {start : Consumer} (h : Arrived C r v) :
    Safe (consumerContract C fun _ => True) (ConsumerOp.install r)
      (ConsumerPost C (.join : ConsumerOp V) start) v := by
  cases r with
  | ok c =>
      intro u hu _
      refine ⟨⟨.of_quiet (.refl _), rfl, trivial, slotHeld_of_none rfl⟩,
        fun t ht => ⟨?_, fun _ h => by cases h⟩⟩
      have ha : Arrived C (.ok c) t := by
        have := h.stable hu
        exact (show Arrived C (.ok c) { u with cursor := c } from
          ⟨this.1, this.2.1, this.2.2.cursor c⟩).stable ht
      have hc : t.cursor = c := ht.cursor
      obtain ⟨h1, h2, h3⟩ := ha
      refine ⟨⟨by rw [hc, h1, h2]; rfl, by rw [hc, h2]; exact burstAmount_pos _⟩, ?_⟩
      rw [hc]
      exact h3
  | err e => exact Safe.ret fun t _ => ⟨trivial, fun _ h => by cases h⟩
  | panic => exact Safe.ret fun t _ => ⟨trivial, fun _ h => by cases h⟩

end join

/-! ### The calls -/

section calls
variable {v : ConsumerView V} {c : Consumer} {H : ℕ} {α : Type} {Q : α → ConsumerView V → Prop}

/-- `maybe_sync` restores the distance between the local and the shared head. -/
theorem maybeSync_safe {k : Unit → Proc Consumer V α} (S : Spot C v c H c.head c.head)
    (hH : H + c.itemsSinceLastSync = c.head) (hb : c.itemsSinceLastSync ≤ burstAmount C.N)
    (next : ∀ u c', Spot C u c' (c'.head - c'.itemsSinceLastSync) c.head c.head →
      c'.head = c.head → c'.itemsSinceLastSync < burstAmount C.N →
      c'.itemsSinceLastSync ≤ c'.head → Safe (consumerContract C HeadBound) (k ()) Q u) :
    Safe (consumerContract C HeadBound) (maybeSync C.N >>= k) Q v := by
  unfold maybeSync
  rw [Prog.bind_assoc]
  apply S.safe_self (by omega) le_rfl
  intro u S
  dsimp only
  split_ifs with hsync
  · rw [Prog.bind_assoc]
    apply S.safe_update (by simp only; omega) le_rfl
    intro u S
    rw [Prog.bind_assoc]
    apply S.safe_self (by simp only; omega) le_rfl
    intro u S
    apply S.safe_storeHead (by simp only; omega) le_rfl
    intro u S
    exact next u _ S rfl (burstAmount_pos _) (Nat.zero_le _)
  · have e : c.head - c.itemsSinceLastSync = H := by omega
    exact next u c (by rw [e]; exact S) rfl (by omega) (by omega)

/-- Moving the cursor over one element, the common end of `pop` and of `Element::drop`. -/
theorem takeOne_safe {k : Unit → Proc Consumer V α} (S : Spot C v c H c.head (c.head + 1))
    (hin : H + c.itemsSinceLastSync = c.head) (hb : c.itemsSinceLastSync < burstAmount C.N)
    (hlt : c.head < v.ch.tail) (hw : c.head + 1 < 2 ^ C.w)
    (next : ∀ u, ConsumerRest C .ready u → u.cursor.head = c.head + 1 →
      Safe (consumerContract C HeadBound) (k ()) Q u) :
    Safe (consumerContract C HeadBound)
      (do
        update fun c => { c with head := wadd C.w c.head 1 }
        update fun c => { c with itemsSinceLastSync := wadd C.w c.itemsSinceLastSync 1 }
        maybeSync C.N
        k ()) Q v := by
  have hburst := burstAmount_le C.pos
  have hfits := C.fits
  have h1 : wadd C.w c.head 1 = c.head + 1 := wadd_of_lt hw
  have h2 : wadd C.w c.itemsSinceLastSync 1 = c.itemsSinceLastSync + 1 := wadd_of_lt (by omega)
  have S : Spot C v c H (c.head + 1) (c.head + 1) :=
    S.advance (by omega) (by omega) le_rfl le_rfl
  apply S.safe_update (by simp only [h1]; omega) (by simp only [h1]; omega)
  intro u S
  apply S.safe_update (by simp only [h1]; omega) (by simp only [h1]; omega)
  intro u S
  simp only [h1, h2] at S
  apply maybeSync_safe S (by simp only; omega) (by simp only; omega)
  intro u c' S hc hi hle
  refine next u ⟨⟨?_, ?_⟩, ?_⟩ (by rw [S.cursor, hc])
  · rw [S.head, S.cursor]
    omega
  · rw [S.cursor]
    exact hi
  · rw [S.cursor, hc]
    exact S.avail

/-- A consumer at rest, as the first point of a call. -/
theorem ConsumerRest.spot (h : ConsumerRest C .ready v) :
    Spot C v v.cursor v.ch.head v.cursor.head v.cursor.head :=
  ⟨rfl, rfl, h.2⟩

/-- Back at rest with an unchanged cursor. -/
theorem Spot.ready {u : ConsumerView V} (S : Spot C u c H c.head c.head)
    (hin : H + c.itemsSinceLastSync = c.head) (hb : c.itemsSinceLastSync < burstAmount C.N) :
    ConsumerRest C .ready u := by
  obtain ⟨rfl, rfl, ha⟩ := S
  exact ⟨⟨hin, hb⟩, ha⟩

/-- A call that hands out nothing and leaves the cursor where it is. -/
theorem Delivers.nothing {op : ConsumerOp V} {st : ConsumerStatus} {start : Consumer}
    (hg : given v.ch op (st, none) = [])
    (hc : st ≠ .gone → Lossless.handedOut st v.cursor = op.handedOut start) :
    Delivers op start (st, none) v :=
  ⟨fun hst => by rw [hg]; exact hc hst, fun i x hi => by rw [hg] at hi; simp at hi⟩

theorem pop_safe (h : ConsumerRest C .ready v) :
    Safe (consumerContract C HeadBound) (ConsumerOp.code C .ready .pop)
      (ConsumerPost C .pop v.cursor) v := by
  obtain ⟨hin, hitems⟩ := h.1
  have hle : v.ch.head ≤ v.cursor.head := by omega
  simp only [ConsumerOp.code, pop, Prog.bind_assoc]
  apply h.spot.safe_self hle le_rfl
  intro u S
  apply S.safe_load hle le_rfl
  intro u S hb
  by_cases hempty : u.ch.tail ≤ v.cursor.head
  · rw [if_pos (show u.ch.get .tail ≤ _ from hempty)]
    refine S.ret fun u S => ⟨S.ready hin hitems, Delivers.nothing rfl fun _ => ?_⟩
    simp only [handedOut, ConsumerOp.handedOut, S.cursor]
  · rw [if_neg (show ¬ u.ch.get .tail ≤ _ from hempty)]
    simp only [Prog.bind_assoc, Prog.pure_eq_ret, Prog.ret_bind]
    have hw : v.cursor.head + 1 < 2 ^ C.w := by
      have := hb.tail_lt
      omega
    apply S.safe_read hle le_rfl (Nat.lt_of_not_le hempty)
    intro t S ht
    have hlt : v.cursor.head < t.ch.tail := by omega
    have hvalue := S.avail.value _ le_rfl hlt
    -- the value stays the published one while the counters are updated
    have hrest := takeOne_safe (k := fun _ => pure (ConsumerStatus.ready,
        some (t.ch.buffer (slot C.N v.cursor.head))))
      (Q := fun r u => r = (.ready, some (t.ch.buffer (slot C.N v.cursor.head))) ∧
        ConsumerRest C .ready u ∧ u.cursor.head = v.cursor.head + 1)
      (S.advance le_rfl hlt.le (by omega) (by omega)) hin hitems hlt hw fun u hu hc =>
        Safe.ret fun u' hu' => ⟨rfl, hu.stable hu', by rw [hu'.cursor, hc]⟩
    refine (hrest.frame (P := fun u => u.published v.cursor.head =
      some (t.ch.buffer (slot C.N v.cursor.head))) hvalue (fun hp hr => hr.change.kept _ _ hp)
      (fun hp hg => by rw [hg.published]; exact hp)).mono ?_
    rintro r u ⟨⟨rfl, hu, hc⟩, hp⟩
    refine ⟨hu, fun _ => hc, fun i x hi => ?_⟩
    obtain ⟨rfl, rfl⟩ : i = 0 ∧ t.ch.buffer (slot C.N v.cursor.head) = x := by
      cases i with
      | zero => simpa [given] using hi
      | succ i => simp [given] at hi
    exact hp

theorem popZerocopy_safe (h : ConsumerRest C .ready v) :
    Safe (consumerContract C HeadBound) (ConsumerOp.code C .ready .popZerocopy)
      (ConsumerPost C .popZerocopy v.cursor) v := by
  obtain ⟨hin, hitems⟩ := h.1
  have hle : v.ch.head ≤ v.cursor.head := by omega
  simp only [ConsumerOp.code, popZerocopy, Prog.bind_assoc]
  apply h.spot.safe_self hle le_rfl
  intro u S
  apply S.safe_load hle le_rfl
  intro u S hb
  by_cases hempty : u.ch.tail ≤ v.cursor.head
  · rw [if_pos (show u.ch.get .tail ≤ _ from hempty)]
    refine S.ret fun u S => ⟨S.ready hin hitems, Delivers.nothing rfl fun _ => ?_⟩
    simp only [handedOut, ConsumerOp.handedOut, S.cursor]
  · rw [if_neg (show ¬ u.ch.get .tail ≤ _ from hempty)]
    have hw : v.cursor.head + 1 < 2 ^ C.w := by
      have := hb.tail_lt
      omega
    apply Safe.ret
    intro t ht
    have St := S.stable ht
    have htail := ht.change.tail_le
    have hlt : v.cursor.head < t.ch.tail := by omega
    refine ⟨⟨(St.ready hin hitems).1, ?_, ?_, ?_, ?_⟩, fun _ => ?_, fun i x hi => ?_⟩
    · rw [St.cursor]
      exact St.avail.advance le_rfl hlt.le (by omega) (by omega)
    · rw [St.cursor]
      rfl
    · rw [St.cursor]
      exact hlt
    · rw [St.cursor]
      exact hw
    · simp only [handedOut, ConsumerOp.handedOut, given, St.cursor, List.length_singleton]
    · obtain ⟨rfl, rfl⟩ : i = 0 ∧ t.ch.buffer (slot C.N v.cursor.head) = x := by
        cases i with
        | zero => simpa [given, slot, moduloMask] using hi
        | succ i => simp [given] at hi
      exact St.avail.value _ le_rfl hlt

/-- **Every call keeps the consumer's contract**, hands out the published values in order and
returns in the assertion of the status it reports. -/
theorem ConsumerOp.code_safe (op : ConsumerOp V) {st : ConsumerStatus} (h : ConsumerRest C st v)
    (hen : op.enabled st = true) :
    Safe (consumerContract C (consumerBound op)) (op.code C st) (ConsumerPost C op v.cursor) v := by
  cases op with
  | join => exact Safe.bind ((joinConsumer_safe v).mono fun r u ha => install_safe ha)
  | pop =>
      cases st with
      | ready => exact pop_safe h
      | _ => simp [enabled] at hen
  | popZerocopy =>
      cases st with
      | ready => exact popZerocopy_safe h
      | _ => simp [enabled] at hen
  | elementWrite x =>
      cases st with
      | element i =>
          obtain ⟨⟨hin, hitems⟩, ha, rfl, hlt, hw⟩ := h
          have S : Spot C v v.cursor v.ch.head v.cursor.head (v.cursor.head + 1) := ⟨rfl, rfl, ha⟩
          refine S.safe_assign (by omega) le_rfl rfl hlt (by omega) fun u S ht =>
            Safe.ret fun t htu => ?_
          have St := S.stable htu
          have htail := htu.change.tail_le
          refine ⟨⟨⟨?_, ?_⟩, ?_, ?_, ?_, ?_⟩, Delivers.nothing rfl fun _ => ?_⟩
          · rw [St.head, St.cursor]
            exact hin
          · rw [St.cursor]
            exact hitems
          · rw [St.cursor]
            exact St.avail
          · rw [St.cursor]
          · rw [St.cursor]
            omega
          · rw [St.cursor]
            exact hw
          · simp only [Lossless.handedOut, handedOut, St.cursor]
      | _ => simp [enabled] at hen
  | elementDrop =>
      cases st with
      | element i =>
          obtain ⟨⟨hin, hitems⟩, ha, rfl, hlt, hw⟩ := h
          have S : Spot C v v.cursor v.ch.head v.cursor.head (v.cursor.head + 1) := ⟨rfl, rfl, ha⟩
          simp only [code, Element.drop, Prog.bind_assoc]
          refine takeOne_safe (k := fun _ => pure (ConsumerStatus.ready, none)) S hin hitems hlt hw
            fun u hu hc => Safe.ret fun t ht => ?_
          refine ⟨hu.stable ht, Delivers.nothing rfl fun _ => ?_⟩
          simp only [Lossless.handedOut, handedOut, ht.cursor, hc]
      | _ => simp [enabled] at hen
  | beat =>
      cases st with
      | ready =>
          obtain ⟨hin, hitems⟩ := h.1
          refine h.spot.safe_fetchAdd (by omega) le_rfl (by simp) fun u r S => S.ret ?_
          intro u S
          refine ⟨S.ready hin hitems, Delivers.nothing rfl fun _ => ?_⟩
          simp only [Lossless.handedOut, handedOut, S.cursor]
      | _ => simp [enabled] at hen
  | producerHeartbeat =>
      cases st with
      | ready =>
          obtain ⟨hin, hitems⟩ := h.1
          simp only [code, Lossless.producerHeartbeat, Prog.bind_assoc]
          apply h.spot.safe_load (by omega) le_rfl
          intro u S _
          apply S.safe_self (by omega) le_rfl
          intro u S
          split_ifs with hne
          · refine S.safe_update (by simp only; omega) le_rfl fun u S => S.ret ?_
            intro u S
            refine ⟨S.ready hin hitems, Delivers.nothing rfl fun _ => ?_⟩
            simp only [Lossless.handedOut, handedOut, S.cursor]
          · refine S.ret fun u S => ⟨S.ready hin hitems, Delivers.nothing rfl fun _ => ?_⟩
            simp only [Lossless.handedOut, handedOut, S.cursor]
      | _ => simp [enabled] at hen
  | drop =>
      cases st with
      | ready =>
          obtain ⟨hin, hitems⟩ := h.1
          unfold ConsumerOp.code dropEndpoint
          have hgone : ∀ u : ConsumerView V, ConsumerPost C .drop v.cursor (.gone, none) u :=
            fun u => ⟨trivial, Delivers.nothing rfl fun hst => absurd rfl hst⟩
          cases C.mode.backedByArcc with
          | false => exact h.spot.ret fun u _ => hgone u
          | true =>
              exact h.spot.safe_dropArc (by omega) le_rfl fun u S => S.ret fun u _ => hgone u
      | _ => simp [enabled] at hen

end calls

end Que.Lossless
