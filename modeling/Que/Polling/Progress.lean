import Que.Polling.Steps
import Mathlib.Algebra.Order.BigOperators.Group.Finset

/-! # Everyone catches up

However the loops are interleaved, if the schedule is fair the producer makes all its calls, and in
the end every consumer has dealt with every position of its residue.

The proof is a ranking (`Lib/Fair.lean`).  As long as the producer has calls to make, it is helpful:
its calls never wait for a consumer.  After that the tail stands still, and a consumer that has not
caught up is helpful.  The others may go on polling: a consumer that has caught up stays so. -/

namespace Que.Polling

open Lib Headless

variable {W : Type} {K k : ℕ} {P : Params}

/-! ### The invariant -/

/-- What the producer has written so far, from the position `F₀` on. -/
structure Ledger (F₀ : ℕ) (total done : List (Vector W K)) (c : Client W K) : Prop where
  split : total = done ++ pushed c.todo
  producing : Producing c (F₀ + done.length)
  wrote : ∀ j < done.length, c.s.wrote (F₀ + j) = done[j]?

/-- The invariant of the loops, which started in `s₀`; the producer's calls push `total`. -/
structure Live (P : Params) (k : ℕ) (s₀ : State W K) (total : List (Vector W K))
    (c : Client W K) : Prop where
  reach : DistinctReach P k s₀ c.s
  partition : Partition P k c.s
  seen : Seen c.s
  joinedAt : ∀ i, (c.s.trace i).joinedAt = (s₀.trace i).joinedAt
  working : ∀ op ∈ c.todo, working op = true
  ends : c.todo.getLast? = some .sync ∨ c.todo = [] ∧ c.s.own.written = 0
  ledger : ∃ done, Ledger s₀.own.tail total done c
  published : ∀ j, s₀.own.tail + j < c.s.ch.tail → c.s.published (s₀.own.tail + j) = total[j]?
  popping : ∀ i : Fin k, Popping c.s i
  limit : s₀.own.tail + total.length < P.limit

/-- The producer has made its calls, and every consumer has dealt with the positions below the
tail. -/
def Client.Done (k : ℕ) (c : Client W K) : Prop :=
  c.todo = [] ∧ ∀ i : Fin k, c.s.ch.tail ≤ c.s.position i

section frames
variable {c d : Client W K} {F : ℕ} {s t : State W K} {i : ℕ}

theorem Popping.congr (h : Popping s i) (hc : t.consumer i = s.consumer i)
    (hcursor : t.cursor i = s.cursor i) : Popping t i := by
  cases h with
  | rest hrest => exact .rest (hc.trans hrest)
  | busy hbusy htakes => exact .busy (hc.trans hbusy) (by rwa [hcursor])

theorem Producing.congr (h : Producing c F) (hp : d.s.producer = c.s.producer)
    (hown : d.s.own = c.s.own) (htodo : d.todo = c.todo) : Producing d F := by
  cases h with
  | rest hrest htail => exact .rest (hp.trans hrest) (by rwa [hown])
  | busy hbusy hcons hstart htakes hobeys =>
      refine .busy (hp.trans hbusy) (htodo.trans hcons) hstart ?_ ?_
      · rwa [hown]
      · rwa [hown]

/-- A call that has returned has added its elements. -/
theorem Ledger.returned {F₀ : ℕ} {total done : List (Vector W K)} {op : ProducerOp W K}
    {ops : List (ProducerOp W K)} (h : Ledger F₀ total done c) (htodo : c.todo = op :: ops)
    (htodo' : d.todo = ops) (hwrote : d.s.wrote = record (F₀ + done.length) op.values c.s.wrote)
    (hnext : Producing d (F₀ + done.length + op.values.length)) :
    Ledger F₀ total (done ++ op.values) d := by
  have hsplit := h.split
  rw [htodo] at hsplit
  refine ⟨?_, ?_, fun j hj => ?_⟩
  · rw [htodo', List.append_assoc]
    exact hsplit
  · rw [List.length_append, ← Nat.add_assoc]
    exact hnext
  · rw [hwrote]
    simp only [List.length_append] at hj
    by_cases hlt : j < done.length
    · rw [List.getElem?_append_left hlt, ← h.wrote j hlt]
      exact if_neg (by omega)
    · rw [List.getElem?_append_right (Nat.le_of_not_lt hlt)]
      refine (if_pos (by omega)).trans (congrArg (fun i => op.values[i]?) ?_)
      omega

theorem consume_todo (P : Params) (i : ℕ) (c : Client W K) : (c.consume P i).todo = c.todo := by
  unfold Client.consume
  split <;> rfl

end frames

section live
variable {s₀ : State W K} {total : List (Vector W K)} {c : Client W K}

namespace Live

theorem produced (L : Live P k s₀ total c) {done : List (Vector W K)}
    (hledger : Ledger s₀.own.tail total done c) (htodo : c.todo ≠ []) :
    Produced P (s₀.own.tail + done.length) c (c.produce P) := by
  obtain ⟨op, ops, hcons⟩ := List.exists_cons_of_ne_nil htodo
  have hop : Polling.working op = true := L.working op (by simp [hcons])
  apply Polling.produced hledger.producing hcons hop
  have hlimit := L.limit
  have hsplit := hledger.split
  rw [hcons] at hsplit
  rw [hsplit] at hlimit
  simp only [pushed, List.flatMap_cons, List.length_append] at hlimit
  omega

theorem idle (L : Live P k s₀ total c) (htodo : c.todo = []) : c.produce P = c := by
  obtain ⟨done, hledger⟩ := L.ledger
  cases hledger.producing with
  | rest hp => exact produce_done hp htodo
  | busy hp hcons => exact absurd (hcons.symm.trans htodo) (List.cons_ne_nil _ _)

theorem produce (L : Live P k s₀ total c) (hP : Roomy P) (hk : k ≤ 64) :
    Live P k s₀ total (c.produce P) := by
  by_cases htodo : c.todo = []
  · rw [L.idle htodo]
    exact L
  obtain ⟨done, hledger⟩ := L.ledger
  have H := L.produced hledger htodo
  have hdistinct : Distinct k (c.produce P).s := by
    refine L.partition.distinct.of_live fun i => ?_
    simp only [State.live, H.consumer, H.cursor]
  have hends : c.todo.getLast? = some .sync := L.ends.resolve_right fun h => htodo h.1
  have hpopping : ∀ i : Fin k, Popping (c.produce P).s i := fun i =>
    (L.popping i).congr (by rw [H.consumer]) (by rw [H.cursor])
  have hpublished : ∀ j, s₀.own.tail + j < (c.produce P).s.ch.tail →
      (c.produce P).s.published (s₀.own.tail + j) = total[j]? := by
    intro j hj
    rcases H.published _ hj with ⟨hlt, hsame⟩ | ⟨hlt, hor⟩
    · rw [hsame, L.published j hlt]
    · have hdone : j < done.length := by omega
      have htotal : total[j]? = done[j]? := by
        rw [hledger.split, List.getElem?_append_left hdone]
      rw [hor, hledger.wrote j hdone, ← htotal]
      rcases Nat.lt_or_ge (s₀.own.tail + j) c.s.ch.tail with hold | hnew
      · rw [L.published j hold, Option.or_self]
      · rw [L.partition.inv.base.beyond _ hnew, Option.none_or]
  have hreach := L.reach.tail ⟨H.step, hdistinct⟩
  have hpart := L.partition.step H.step hdistinct (L.partition.sumsFit L.seen hP hk)
  have hseen := L.seen.step L.partition.inv H.step
  have hjoined : ∀ i, ((c.produce P).s.trace i).joinedAt = (s₀.trace i).joinedAt := by
    rw [H.trace]
    exact L.joinedAt
  rcases H.call with ⟨hsame, hwrote, hnext⟩ | ⟨op, ops, hcons, hrest, hwrote, hnext, hsync⟩
  · refine ⟨hreach, hpart, hseen, hjoined, hsame ▸ L.working, hsame ▸ .inl hends, ⟨done, ?_⟩,
      hpublished, hpopping, L.limit⟩
    exact ⟨by rw [hsame]; exact hledger.split, hnext, by rw [hwrote]; exact hledger.wrote⟩
  · refine ⟨hreach, hpart, hseen, hjoined, ?_, ?_, ⟨_, hledger.returned hcons hrest hwrote hnext⟩,
      hpublished, hpopping, L.limit⟩
    · rw [hrest]
      exact fun op' h => L.working op' (hcons ▸ List.mem_cons_of_mem _ h)
    · rw [hcons] at hends
      rw [hrest]
      cases ops with
      | nil => exact .inr ⟨rfl, hsync (by simpa using hends)⟩
      | cons op' ops => exact .inl (by simpa [List.getLast?_cons_cons] using hends)

theorem consume (L : Live P k s₀ total c) (hP : Roomy P) (hk : k ≤ 64) (i : Fin k) :
    Live P k s₀ total (c.consume P i) := by
  have H := consumed hP hk L.partition (L.popping i)
  have hdistinct := L.partition.distinct.of_live H.live
  obtain ⟨hproducer, hown, hwrote⟩ := H.producer
  have htodo := consume_todo P i c
  obtain ⟨done, hledger⟩ := L.ledger
  have hpartition := L.partition.step H.step hdistinct (L.partition.sumsFit L.seen hP hk)
  refine ⟨L.reach.tail ⟨H.step, hdistinct⟩, hpartition,
    L.seen.step L.partition.inv H.step, fun j => (H.joinedAt j).trans (L.joinedAt j),
    htodo ▸ L.working, ?_, ⟨done, ?_, hledger.producing.congr hproducer hown htodo, ?_⟩, ?_,
    fun j => ?_, L.limit⟩
  · rw [htodo, hown]
    exact L.ends
  · rw [htodo]
    exact hledger.split
  · rw [hwrote]
    exact hledger.wrote
  · rw [H.published, H.tail]
    exact L.published
  · rcases Decidable.em (j = i) with rfl | hne
    · exact H.popping
    · have hothers := H.others j fun e => hne (Fin.ext e)
      exact (L.popping j).congr hothers.1 hothers.2

end Live

end live

/-! ### The ranking -/

/-- Consumer `i` has positions below the tail to deal with. -/
def Behind (s : State W K) (i : ℕ) : Prop := s.position i < s.ch.tail

open Classical in
/-- A consumer with the property, if there is one. -/
noncomputable def someConsumer (p : Fin k → Prop) : Side k :=
  if h : ∃ i, p i then .consumer h.choose else .producer

open Classical in
/-- The producer is helpful while it has calls to make, then a consumer that is behind. -/
noncomputable def helpful (c : Client W K) : Side k :=
  if c.todo = [] then someConsumer fun i => Behind c.s i else .producer

open Classical in
/-- First what the producer has still to do, then how far the consumers lag behind. -/
noncomputable def rank (k : ℕ) (c : Client W K) : (ℕ ×ₗ ℕ) ×ₗ ℕ :=
  toLex (producerRank c, if c.todo = [] then ∑ i : Fin k, lag c.s i else 0)

section ranking
variable {s₀ : State W K} {total : List (Vector W K)} {c : Client W K} {i : Fin k}

theorem lag_frame {s t : State W K} {j : ℕ} (hc : t.consumer j = s.consumer j)
    (hcursor : t.cursor j = s.cursor j) (htail : t.ch.tail = s.ch.tail) : lag t j = lag s j := by
  unfold lag phase State.position
  rw [hc, hcursor, htail]

theorem behind_frame {s t : State W K} {j : ℕ} (hc : t.consumer j = s.consumer j)
    (hcursor : t.cursor j = s.cursor j) (htail : t.ch.tail = s.ch.tail) :
    Behind t j ↔ Behind s j := by
  simp only [Behind, State.position, hc, hcursor, htail]

/-- The producer's calls go on. -/
theorem produce_lt (L : Live P k s₀ total c) (htodo : c.todo ≠ []) :
    rank k (c.produce P) < rank k c := by
  obtain ⟨done, hledger⟩ := L.ledger
  exact Prod.Lex.toLex_lt_toLex.mpr (.inl (L.produced hledger htodo).forward)

theorem producerRank_consume (H : Consumed P i c.s (c.consume P i).s) :
    producerRank (c.consume P i) = producerRank c := by
  obtain ⟨hproducer, hown, -⟩ := H.producer
  simp only [producerRank, consume_todo, hproducer, hown]

/-- A consumer that is behind comes closer to the tail. -/
theorem consume_lt (L : Live P k s₀ total c) (hP : Roomy P) (hk : k ≤ 64) (htodo : c.todo = [])
    (hbehind : Behind c.s i) : rank k (c.consume P i) < rank k c := by
  have H := consumed hP hk L.partition (L.popping i)
  have hlt := H.forward hbehind
  refine Prod.Lex.toLex_lt_toLex.mpr (.inr ⟨producerRank_consume H, ?_⟩)
  rw [if_pos htodo, if_pos ((consume_todo P i c).trans htodo)]
  refine Finset.sum_lt_sum (fun j _ => ?_) ⟨i, Finset.mem_univ i, hlt⟩
  rcases Decidable.em (j = i) with rfl | hne
  · exact hlt.le
  · obtain ⟨h1, h2⟩ := H.others j fun e => hne (Fin.ext e)
    exact (lag_frame h1 h2 H.tail).le

/-- A consumer does not disturb the producer. -/
theorem consume_other (L : Live P k s₀ total c) (hP : Roomy P) (hk : k ≤ 64) (htodo : c.todo ≠ []) :
    rank k (c.consume P i) = rank k c ∧ (helpful (c.consume P i) : Side k) = helpful c := by
  have H := consumed hP hk L.partition (L.popping i)
  have htodo' := consume_todo P i c
  constructor
  · simp only [rank, producerRank_consume H, htodo', htodo, if_false]
  · simp only [helpful, htodo', htodo, if_false]

/-- A consumer that has caught up disturbs nobody. -/
theorem consume_caught_up (L : Live P k s₀ total c) (hP : Roomy P) (hk : k ≤ 64)
    (htodo : c.todo = []) (hcaught : ¬ Behind c.s i) :
    rank k (c.consume P i) = rank k c ∧ (helpful (c.consume P i) : Side k) = helpful c := by
  have H := consumed hP hk L.partition (L.popping i)
  have htodo' := (consume_todo P i c).trans htodo
  have hle : c.s.ch.tail ≤ c.s.position i := Nat.not_lt.mp hcaught
  have hle' : (c.consume P i).s.ch.tail ≤ (c.consume P i).s.position i := by
    rw [H.tail]
    exact hle.trans H.position_le
  have hlag : ∀ j : Fin k, lag (c.consume P i).s j = lag c.s j := by
    intro j
    rcases Decidable.em (j = i) with rfl | hne
    · rw [lag_of_caught_up hle, lag_of_caught_up hle']
    · obtain ⟨h1, h2⟩ := H.others j fun e => hne (Fin.ext e)
      exact lag_frame h1 h2 H.tail
  have hbehind : (fun j : Fin k => Behind (c.consume P i).s j) = fun j : Fin k => Behind c.s j := by
    funext j
    rcases Decidable.em (j = i) with rfl | hne
    · exact propext ⟨fun h => absurd hle' (Nat.not_le.mpr h), fun h => absurd h hcaught⟩
    · obtain ⟨h1, h2⟩ := H.others j fun e => hne (Fin.ext e)
      exact propext (behind_frame h1 h2 H.tail)
  constructor
  · simp only [rank, producerRank_consume H, htodo, htodo', if_true, hlag]
  · simp only [helpful, htodo, htodo', if_true, hbehind]

theorem exists_behind (htodo : c.todo = []) (hdone : ¬ c.Done k) :
    ∃ i : Fin k, helpful c = .consumer i ∧ Behind c.s i := by
  have h : ∃ i : Fin k, Behind c.s i := by
    by_contra hno
    exact hdone ⟨htodo, fun i => Nat.not_lt.mp fun hi => hno ⟨i, hi⟩⟩
  refine ⟨h.choose, ?_, h.choose_spec⟩
  simp only [helpful, htodo, if_true, someConsumer, h, dif_pos]

end ranking

/-- **The ranking of the polling loops.** -/
theorem ranking (hP : Roomy P) (hk : k ≤ 64) (s₀ : State W K) (total : List (Vector W K)) :
    Ranking (P := Side k) (Client.next P) (Live P k s₀ total) (Client.Done k) (rank k) helpful where
  keep := fun side c L => by
    cases side with
    | producer => exact L.produce hP hk
    | consumer i => exact L.consume hP hk i
  own := fun c L hdone => by
    by_cases htodo : c.todo = []
    · obtain ⟨i, hi, hbehind⟩ := exists_behind htodo hdone
      rw [hi]
      exact consume_lt L hP hk htodo hbehind
    · have hi : (helpful c : Side k) = .producer := by simp only [helpful, htodo, if_false]
      rw [hi]
      exact produce_lt L htodo
  other := fun side c L hdone => by
    by_cases htodo : c.todo = []
    · cases side with
      | producer =>
          have hsame : Client.next P (.producer : Side k) c = c := L.idle htodo
          rw [hsame]
          exact .inr ⟨rfl, rfl⟩
      | consumer i =>
          by_cases hbehind : Behind c.s i
          · exact .inl (consume_lt L hP hk htodo hbehind)
          · exact .inr (consume_caught_up L hP hk htodo hbehind)
    · cases side with
      | producer => exact .inl (produce_lt L htodo)
      | consumer i => exact .inr (consume_other L hP hk htodo)

/-- What has been reached stays. -/
theorem done_next {s₀ : State W K} {total : List (Vector W K)} {c : Client W K} (hP : Roomy P)
    (hk : k ≤ 64) (L : Live P k s₀ total c) (hdone : c.Done k) (side : Side k) :
    (Client.next P side c).Done k := by
  cases side with
  | producer =>
      have hsame : Client.next P (.producer : Side k) c = c := L.idle hdone.1
      rw [hsame]
      exact hdone
  | consumer i =>
      have H := consumed hP hk L.partition (L.popping i)
      refine ⟨(consume_todo P i c).trans hdone.1, fun j => ?_⟩
      have hle := hdone.2 j
      rcases Decidable.em (j = i) with rfl | hne
      · exact (H.tail.trans_le hle).trans H.position_le
      · obtain ⟨h1, h2⟩ := H.others j fun e => hne (Fin.ext e)
        exact Nat.not_lt.mp fun h => absurd ((behind_frame h1 h2 H.tail).mp h) (Nat.not_lt.mpr hle)

end Que.Polling
