import Que.Headless.Cursor
import Que.Headless.Distinct

/-! # The consumers partition the positions

`k` consumers with distinct indices share the positions by their residue modulo `k`, each of them
as `Tidy` says.

* `Partition` collects this for all consumers, together with the fact that no position was popped
  twice, by whatever incarnation; `Partition.run` is the run lemma.
* The runs are those in which every move of a cursor fits (`SumsFit`).  With room above the
  positions these are all runs (`DistinctReach.fits`); at the limit of the counters they are not
  (`not_partition_minimal_loss`). -/

namespace Que.Headless

open Lib

variable {W : Type} {K : ℕ} {P : Params} {k : ℕ}

/-! ### All consumers -/

/-- If the step from `s` to `t` moves the cursor of a consumer, the sums on the way are words. -/
def SumsFit (P : Params) (s t : State W K) : Prop :=
  ∀ i start op g m, s.consumer i = .busy start op (.act (.update g) m) →
    t = (s.consumerDoes P i op (.update g) fun x => .busy start op (m x)) →
    MoveFits P start (s.trace i).lastTail op

/-- Runs of consumers with distinct indices in which every move of a cursor fits. -/
abbrev FitReach (P : Params) (k : ℕ) : State W K → State W K → Prop :=
  Relation.ReflTransGen fun s t => Step P s t ∧ Distinct k t ∧ SumsFit P s t

/-- A consumer's thread is in order. -/
def Orderly (P : Params) (k : ℕ) : ConsumerThread W K → ConsumerView W K → Prop
  | .rest .gone, _ => True
  | .rest .ready, v => Tidy P k v.cursor v.trace v.ch.tail v.all
  | .busy start op code, v => ∃ tr,
      (op.isJoin = false → Tidy P k start tr v.ch.tail v.all ∧ Advances k start v.cursor ∧
        tr.Extends v.trace) ∧
      Safe (consumerContract P 0 (fun p => p % k = op.index start) (MoveFits P start · op)
        op.isJoin (moves (Advances k) op)) code
        (ConsumerPost P 0 (fun p => p % k = op.index start) (MoveFits P start · op) op start tr) v

/-- The index that matters for what the others may pop. -/
def threadIndex (c : Consumer) : ConsumerThread W K → ℕ
  | .rest _ => c.consumerIndex
  | .busy start op _ => op.index start

theorem Orderly.stable {t : ConsumerThread W K} {v u : ConsumerView W K} (h : Orderly P k t v)
    (hr : ConsumerRely (fun p => p % k = threadIndex v.cursor t) v u) : Orderly P k t u := by
  cases t with
  | rest st =>
      cases st with
      | gone => trivial
      | ready =>
          have ht : Tidy P k v.cursor v.trace v.ch.tail v.all := h
          show Tidy P k u.cursor u.trace u.ch.tail u.all
          rw [hr.cursor, hr.trace]
          exact ht.stable hr.change.tail_le hr.all
  | busy start op code =>
      obtain ⟨tr, htidy, hsafe⟩ := h
      refine ⟨tr, fun hop => ?_, hsafe.stable hr⟩
      obtain ⟨ht, ha⟩ := htidy hop
      rw [hr.cursor, hr.trace]
      refine ⟨ht.stable hr.change.tail_le fun p hp hm => hr.all p hp ?_, ha⟩
      cases op with
      | join index consumers => cases hop
      | _ => exact hm

section returns
variable {v : ConsumerView W K} {start : Consumer} {r : ConsumerResult W K}

/-- Only `pop` has further rounds. -/
theorem Orderly.eq_pop {op : ConsumerOp} (h : Orderly P k (.busy start op (.ret .again)) v) :
    op = .pop := by
  obtain ⟨tr, _, hsafe⟩ := h
  cases op with
  | pop => rfl
  | join index consumers => rcases hsafe.done with h | ⟨h, _⟩ <;> cases h
  | drop => exact absurd hsafe.done (by simp [ConsumerPost])
  | beat => exact absurd hsafe.done.1 (by simp)
  | producerHeartbeat => exact absurd hsafe.done.1 (by simp)

/-- A round of `pop` that has ended leaves the consumer tidy, once its value is recorded. -/
theorem Orderly.popped (h : Orderly P k (.busy start .pop (.ret r)) v)
    (hlt : v.ch.tail < P.limit) :
    Tidy P k v.cursor { v.trace with
        popped := v.trace.popped ++ (roundValue r).toList.map fun x => (start.head, x) }
      v.ch.tail (v.all ++ (roundValue r).toList.map fun _ => start.head) := by
  obtain ⟨tr, htidy, hsafe⟩ := h
  obtain ⟨ht, _⟩ := htidy rfl
  obtain ⟨new, hm, htr, hnew, hfit⟩ := hsafe.done.round
  rw [htr]
  exact hm.tidy ht hfit le_rfl hlt hnew

end returns

structure Partition (P : Params) (k : ℕ) (s : State W K) : Prop where
  inv : Invariant P 0 s
  distinct : Distinct k s
  orderly : ∀ i, Orderly P k (s.consumer i) (s.consumerView i)
  nodup : s.all.Nodup

namespace Partition
variable {s t : State W K}

theorem of_code {op : ConsumerOp} {v : ConsumerView W K} {st : ConsumerStatus}
    (hen : op.enabled st = true) (ht : st = .ready → Tidy P k v.cursor v.trace v.ch.tail v.all) :
    Orderly P k (.busy v.cursor op (op.code P)) v := by
  refine ⟨v.trace, fun hop => ?_, op.code_safe hen (fun hst n => ?_)
    fun hst hpop new r c' hm hnew hfit => ?_⟩
  · have hst : st = .ready := by
      cases st with
      | ready => rfl
      | gone => rw [show op.isJoin = true from hen] at hop; cases hop
    exact ⟨ht hst, ⟨le_rfl, (ht hst).residue, rfl, rfl⟩, rfl, rfl, fun _ h => h⟩
  · exact ⟨le_rfl, (ht hst).residue, rfl, rfl⟩
  · subst hpop
    exact hm.advances (ht hst) hfit hnew

theorem others (I : Partition P k s) {i j : ℕ} (hne : j ≠ i) {start : Consumer} {op : ConsumerOp}
    {code : Proc Consumer W (ConsumerResult W K)} (hc : s.consumer i = .busy start op code)
    (hj : s.consumer j ≠ .rest .gone) :
    threadIndex (s.cursor j) (s.consumer j) ≠ op.index start := by
  intro e
  have hi : s.live i = some (op.index start, op.interval start) := by
    simp only [State.live, hc]
  cases hcj : s.consumer j with
  | rest st =>
      cases st with
      | gone => exact hj hcj
      | ready =>
          have hlj : s.live j = some ((s.cursor j).consumerIndex, (s.cursor j).interval) := by
            simp only [State.live, hcj]
          rw [hcj] at e
          exact hne (I.distinct.index j i _ _ hlj hi e)
  | busy start' op' code' =>
      have hlj : s.live j = some (op'.index start', op'.interval start') := by
        simp only [State.live, hcj]
      rw [hcj] at e
      exact hne (I.distinct.index j i _ _ hlj hi e)

theorem orderly_update (I : Partition P k s) (i : ℕ) {th : ConsumerThread W K}
    (h : Orderly P k th (s.consumerView i)) (j : ℕ) :
    Orderly P k (Function.update s.consumer i th j) (s.consumerView j) := by
  rcases Decidable.em (j = i) with rfl | hne
  · rw [Function.update_self]
    exact h
  · rw [Function.update_of_ne hne]
    exact I.orderly j

/-- The state after a call of consumer `i` has returned: the consumer that returned is in order
by itself, and for the others nothing of their residue was popped. -/
theorem returned (I : Partition P k s) {i : ℕ} {start : Consumer}
    {op : ConsumerOp} {st : ConsumerStatus} {value : Option (Vector W K)}
    (hc : s.consumer i = .busy start op (.ret (.done (st, value)))) :
    (∀ j, Orderly P k ((s.consumerGets i start st value).consumer j)
      ((s.consumerGets i start st value).consumerView j)) ∧
    (s.consumerGets i start st value).all.Nodup := by
  have hlt := I.inv.base.tail_lt
  have ho := I.orderly i
  rw [hc] at ho
  -- what the call popped has the residue of consumer `i` and is new
  have hvalue : ∀ x, value = some x → start.head % k = op.index start ∧ start.head ∉ s.all := by
    rintro x rfl
    obtain ⟨tr, htidy, hsafe⟩ := ho
    cases op with
    | pop =>
        obtain ⟨ht, _⟩ := htidy rfl
        exact ⟨ht.residue, fun hmem => Nat.lt_irrefl _ (ht.earlier _ hmem ht.residue)⟩
    | join index consumers => rcases hsafe.done with h | ⟨h, _⟩ <;> cases h
    | drop => exact absurd hsafe.done (by simp [ConsumerPost])
    | beat => exact absurd hsafe.done.1 (by simp)
    | producerHeartbeat => exact absurd hsafe.done.1 (by simp)
  have hself : Orderly P k (.rest st) ((s.consumerGets i start st value).consumerView i) := by
    have hview : (s.consumerGets i start st value).consumerView i =
        ⟨s.ch, s.cursor i, s.published, { s.trace i with
          popped := (s.trace i).popped ++ value.toList.map fun v => (start.head, v) },
          s.all ++ value.toList.map fun _ => start.head⟩ := by
      simp [State.consumerGets, State.consumerView]
    rw [hview]
    cases st with
    | gone => trivial
    | ready =>
        cases op with
        | pop => exact ho.popped hlt
        | join index consumers =>
            obtain ⟨tr, _, hsafe⟩ := ho
            rcases hsafe.done with h | ⟨h, ha, hfit⟩
            · cases h
            · cases h
              have hlive : s.live i = some (index, consumers) := by
                simp only [State.live, hc]
                rfl
              obtain rfl : consumers = k := (I.distinct.of_k i _ hlive).2
              simp only [Option.toList_none, List.map_nil, List.append_nil]
              exact ha.tidy hfit
        | drop =>
            obtain ⟨tr, _, hsafe⟩ := ho
            exact absurd hsafe.done (by simp [ConsumerPost])
        | beat =>
            obtain ⟨tr, htidy, hsafe⟩ := ho
            exact (htidy rfl).1.heartbeat hsafe.done
        | producerHeartbeat =>
            obtain ⟨tr, htidy, hsafe⟩ := ho
            exact (htidy rfl).1.heartbeat hsafe.done
  refine ⟨fun j => ?_, ?_⟩
  · rcases Decidable.em (j = i) with rfl | hne
    · rw [show (s.consumerGets j start st value).consumer j = .rest st by simp [State.consumerGets]]
      exact hself
    · have hview : (s.consumerGets i start st value).consumerView j =
          ⟨s.ch, s.cursor j, s.published, s.trace j,
            s.all ++ value.toList.map fun _ => start.head⟩ := by
        simp [State.consumerGets, State.consumerView, Function.update_of_ne hne]
      rw [hview, show (s.consumerGets i start st value).consumer j = s.consumer j by
        simp [State.consumerGets, Function.update_of_ne hne]]
      rcases Classical.em (s.consumer j = .rest .gone) with hgone | hj
      · rw [hgone]
        trivial
      · refine (I.orderly j).stable ⟨rfl, rfl, .of_quiet (.refl _), fun p hp hm => ?_⟩
        rcases List.mem_append.mp hp with h | h
        · exact h
        · obtain ⟨x, hx, rfl⟩ := List.mem_map.mp h
          obtain ⟨hres, _⟩ := hvalue x (Option.mem_toList.mp hx)
          exact absurd (hm.symm.trans hres) (I.others hne hc hj)
  · refine List.nodup_append.mpr ⟨I.nodup, ?_, fun p hp q hq e => ?_⟩
    · cases value <;> simp
    · obtain ⟨x, hx, rfl⟩ := List.mem_map.mp hq
      exact (hvalue x (Option.mem_toList.mp hx)).2 (e ▸ hp)

theorem fits {i : ℕ} {start : Consumer} {op : ConsumerOp} {a : Act Consumer W}
    {m : a.Ans → Proc Consumer W (ConsumerResult W K)}
    (hc : s.consumer i = .busy start op (.act a m))
    (hfit : SumsFit P s (s.consumerDoes P i op a fun x => .busy start op (m x))) :
    ∀ g, a = .update g → MoveFits P start (s.consumerView i).trace.lastTail op := by
  rintro g rfl
  exact hfit i start op g m hc rfl

/-- **One step keeps the partition.** -/
theorem step (I : Partition P k s) (h : Step P s t) (hd : Distinct k t) (hfit : SumsFit P s t) :
    Partition P k t := by
  have inv := I.inv.step h
  have hlt := I.inv.base.tail_lt
  cases h with
  | producerCall op hp hen hlt => exact ⟨inv, hd, I.orderly, I.nodup⟩
  | producerAct hp =>
      have hf := I.inv.producer
      rw [hp] at hf
      obtain ⟨hg, _⟩ := Safe.own hf I.inv.base
      exact ⟨inv, hd, fun i => (I.orderly i).stable ⟨rfl, rfl, hg.change, fun _ h _ => h⟩, I.nodup⟩
  | producerReturn hp => exact ⟨inv, hd, I.orderly, I.nodup⟩
  | producerStop => exact ⟨inv, hd, I.orderly, I.nodup⟩
  | @consumerCall st i op hc hen =>
      refine ⟨inv, hd, I.orderly_update i
        (of_code (v := s.consumerView i) hen fun hst => ?_), I.nodup⟩
      have ho := I.orderly i
      rw [hc, hst] at ho
      exact ho
  | @consumerAct i start op a k' hc =>
      have ho := I.orderly i
      rw [hc] at ho
      obtain ⟨tr, htidy, hsafe⟩ := ho
      obtain ⟨hg, hrest⟩ := hsafe.own ⟨I.inv.base, I.inv.all, fits hc hfit⟩
      refine ⟨inv, hd, fun j => ?_, I.nodup⟩
      rcases Decidable.em (j = i) with rfl | hne
      · simp only [State.consumerDoes, State.consumerView, Function.update_self]
        refine ⟨tr, fun hop => ?_, hrest⟩
        obtain ⟨ht, hadv, hext⟩ := htidy hop
        have hmove := hg.moves
        rw [moves, if_neg (by simp [hop])] at hmove
        rw [hop]
        exact ⟨ht.stable hg.quiet.tail.ge fun _ h _ => h, hadv.trans hmove, hext.after _ _ _⟩
      · simp only [State.consumerDoes, State.consumerView, Function.update_of_ne hne]
        exact (I.orderly j).stable ⟨rfl, rfl, .of_quiet hg.quiet, fun _ h _ => h⟩
  | @consumerAgain i start op hc =>
      have ho := I.orderly i
      rw [hc] at ho
      obtain rfl := ho.eq_pop
      have hen : ConsumerOp.pop.enabled .ready = true := rfl
      refine ⟨inv, hd, I.orderly_update i
        (of_code (v := s.consumerView i) hen fun _ => ?_), I.nodup⟩
      simpa [roundValue] using ho.popped hlt
  | @consumerReturn i start op st value hc =>
      obtain ⟨h1, h2⟩ := I.returned hc
      exact ⟨inv, hd, h1, h2⟩
  | consumerStop i => exact ⟨inv, hd, I.orderly_update i trivial, I.nodup⟩

/-- **A run keeps the partition.** -/
theorem run (I : Partition P k s) (h : FitReach P k s t) : Partition P k t := by
  induction h with
  | refl => exact I
  | tail _ hstep ih => exact ih.step hstep.1 hstep.2.1 hstep.2.2

theorem initial {op : ProducerOp W K} (hop : op.initialises = true) {m : Channel W}
    (hm : m.magic = 0) : Partition P k (State.initial P op m) := by
  exact ⟨initial_invariant hop hm, distinct_initial op m, fun i => trivial, List.nodup_nil⟩

end Partition

/-! ### Room above the positions -/

/-- The tails that were loaded are at most `T`. -/
def SeenUpTo (T : ℕ) (tr : Trace W K) : Prop := tr.joinedAt ≤ T ∧ ∀ x ∈ tr.loads, x.2 ≤ T

/-- No consumer has loaded a tail beyond the present one. -/
def Seen (s : State W K) : Prop := ∀ i, SeenUpTo s.ch.tail (s.trace i)

theorem SeenUpTo.after {tr : Trace W K} {ch : Channel W} (h : SeenUpTo ch.tail tr) (join : Bool)
    (a : Act Consumer W) (c : Consumer) : SeenUpTo ch.tail (tr.after join a ch c) := by
  unfold Trace.after
  split
  · split_ifs
    · exact ⟨le_rfl, fun x hx => by cases hx⟩
    · refine ⟨h.1, fun x hx => ?_⟩
      rcases List.mem_append.mp hx with hx | hx
      · exact h.2 x hx
      · rw [List.mem_singleton.mp hx]
  · exact h

theorem Seen.step {s t : State W K} (h : Seen s) (I : Invariant P 0 s) (hstep : Step P s t) :
    Seen t := by
  cases hstep with
  | producerAct hp =>
      have hf := I.producer
      rw [hp] at hf
      have hle := (Safe.own hf I.base).1.change.tail_le
      exact fun i => ⟨(h i).1.trans hle, fun x hx => ((h i).2 x hx).trans hle⟩
  | @consumerAct i start op a k hc =>
      have hf := I.consumer i
      rw [hc] at hf
      have htail := (Safe.own hf ⟨I.base, I.all, fun _ _ => trivial⟩).1.quiet.tail
      intro j
      unfold State.consumerDoes
      simp only
      rw [show (a.step P.w (s.ch, s.cursor i)).2.1.tail = s.ch.tail from htail]
      rcases Decidable.em (j = i) with rfl | hne
      · rw [Function.update_self]
        exact (h j).after op.isJoin a (s.cursor j)
      · rw [Function.update_of_ne hne]
        exact h j
  | @consumerReturn i start op st value hc =>
      intro j
      unfold State.consumerGets
      rcases Decidable.em (j = i) with rfl | hne
      · simp only [Function.update_self]
        exact h j
      · simp only [Function.update_of_ne hne]
        exact h j
  | _ => exact h

theorem SeenUpTo.lastTail_le {T : ℕ} {tr : Trace W K} (h : SeenUpTo T tr) : tr.lastTail ≤ T := by
  unfold Trace.lastTail
  cases hl : tr.loads.getLast? with
  | none => exact h.1
  | some x => exact h.2 x (List.mem_of_getLast? hl)

/-- The last positions cannot be skipped. -/
theorem Seen.not_skipped {s : State W K} (h : Seen s) {i N p : ℕ}
    (hp : s.ch.tail ≤ p + readable N) : ¬ (s.trace i).Skipped N p := by
  rintro ⟨x, hx, -, hlt⟩
  have := (h i).2 x hx
  omega

theorem seen_initial {op : ProducerOp W K} {m : Channel W} : Seen (State.initial P op m) :=
  fun _ => ⟨Nat.zero_le _, fun x hx => by cases hx⟩

theorem Partition.sumsFit {s t : State W K} (I : Partition P k s) (hseen : Seen s) (hP : Roomy P)
    (hk : k ≤ 64) : SumsFit P s t := by
  rintro i start op g m hc -
  have htail := I.inv.base.tail_lt
  have hlast : (s.trace i).lastTail < P.limit := (hseen i).lastTail_le.trans_lt htail
  cases op with
  | join index consumers =>
      have hlive : s.live i = some (index, consumers) := by
        simp only [State.live, hc]
        rfl
      obtain ⟨hi, hcons⟩ := I.distinct.of_k i _ hlive
      simp only at hi hcons
      subst hcons
      have hlimit := P.limit_le
      unfold Roomy at hP
      exact nextFits_of_lt hi (by omega) (by omega)
  | pop =>
      have ho := I.orderly i
      rw [hc] at ho
      obtain ⟨tr, htidy, -⟩ := ho
      exact (htidy rfl).1.moveFits hP hk htail hlast
  | _ => trivial

theorem DistinctReach.fits {s t : State W K} (I : Partition P k s) (hseen : Seen s) (hP : Roomy P)
    (hk : k ≤ 64) (h : DistinctReach P k s t) : FitReach P k s t ∧ Seen t := by
  induction h with
  | refl => exact ⟨.refl, hseen⟩
  | tail _ hstep ih =>
      have I' := I.run ih.1
      exact ⟨ih.1.tail ⟨hstep.1, hstep.2, I'.sumsFit ih.2 hP hk⟩, ih.2.step I'.inv hstep.1⟩

/-! ### What a run delivers -/

/-- Consumer `i` has joined and is not being replaced. -/
def State.joined (s : State W K) (i : ℕ) : Bool :=
  match s.consumer i with
  | .rest .ready => true
  | .rest .gone => false
  | .busy _ op _ => !op.isJoin

/-- The cursor up to which consumer `i` has dealt with its positions: during a call, the one at
which the round began. -/
def State.position (s : State W K) (i : ℕ) : ℕ :=
  match s.consumer i with
  | .rest _ => (s.cursor i).head
  | .busy start _ _ => start.head

/-- Position `p` was popped by consumer `i`, or skipped. -/
def State.Handled (s : State W K) (N i p : ℕ) : Prop :=
  p ∈ (s.trace i).positions ∨ (s.trace i).Skipped N p

namespace Partition
variable {s t : State W K} {i : ℕ}

theorem joined (I : Partition P k s) (hj : s.joined i = true) :
    (s.cursor i).head % k = (s.cursor i).consumerIndex ∧
    (s.trace i).positions.Pairwise (· < ·) ∧
    (∀ p ∈ (s.trace i).positions, p % k = (s.cursor i).consumerIndex) ∧
    ∀ p, (s.trace i).joinedAt ≤ p → p < s.position i → p % k = (s.cursor i).consumerIndex →
      s.Handled P.N i p := by
  have ho := I.orderly i
  unfold State.joined at hj
  cases hc : s.consumer i with
  | rest st =>
      rw [hc] at ho hj
      cases st with
      | gone => cases hj
      | ready =>
          have ht : Tidy P k (s.cursor i) (s.trace i) s.ch.tail s.all := ho
          refine ⟨ht.residue, ht.sorted, fun p hp => (ht.popped p hp).2, fun p h1 h2 h3 => ?_⟩
          simp only [State.position, hc] at h2
          exact ht.covered p h1 h2 h3
  | busy start op code =>
      rw [hc] at ho hj
      obtain ⟨tr, htidy, _⟩ := ho
      obtain ⟨ht, hadv, hext⟩ := htidy (by simpa using hj)
      have hpos : (s.trace i).positions = tr.positions := congrArg (List.map Prod.fst) hext.popped
      have hindex : (s.cursor i).consumerIndex = start.consumerIndex := hadv.index
      rw [hpos, hindex]
      refine ⟨hadv.residue.trans hindex, ht.sorted, fun p hp => (ht.popped p hp).2,
        fun p h1 h2 h3 => ?_⟩
      simp only [State.position, hc] at h2
      rw [show (s.trace i).joinedAt = tr.joinedAt from hext.joinedAt] at h1
      apply (ht.covered p h1 h2 h3).imp (fun h => hpos ▸ h)
      rintro ⟨x, hx, h⟩
      exact ⟨x, hext.loads x hx, h⟩

theorem cursor_le (I : Partition P k s) (hj : s.joined i = true) (h : Step P s t)
    (hfit : SumsFit P s t) : (s.cursor i).head ≤ (t.cursor i).head := by
  cases h with
  | @consumerAct j start op a k' hc =>
      rcases Decidable.em (i = j) with rfl | hne
      · have ho := I.orderly i
        rw [hc] at ho
        obtain ⟨tr, _, hsafe⟩ := ho
        obtain ⟨hg, _⟩ := hsafe.own ⟨I.inv.base, I.inv.all, fits hc hfit⟩
        have hmove := hg.moves
        have hop : op.isJoin = false := by simpa [State.joined, hc] using hj
        rw [moves, if_neg (by simp [hop])] at hmove
        simp only [State.consumerDoes, Function.update_self]
        exact hmove.le
      · simp only [State.consumerDoes, Function.update_of_ne hne]
        exact le_rfl
  | _ => exact le_rfl

/-- When `pop` is about to return nothing, every position below the tail it loaded has been dealt
with. -/
theorem caught_up (I : Partition P k s) {start : Consumer}
    (hc : s.consumer i = .busy start .pop (.ret (.done (.ready, none)))) :
    ∃ T, (s.trace i).loads.getLast? = some (start.head, T) ∧
      ∀ q, (s.trace i).joinedAt ≤ q → q < T → q % k = (s.cursor i).consumerIndex →
        s.Handled P.N i q := by
  have hlt := I.inv.base.tail_lt
  have ho := I.orderly i
  rw [hc] at ho
  obtain ⟨tr, htidy, hsafe⟩ := ho
  obtain ⟨ht, hadv, hext⟩ := htidy rfl
  obtain ⟨new, hm, htr, hnew, hfit⟩ := hsafe.done.round
  rcases hm.kinds ht hfit fun x hx => (hnew x hx).trans_lt hlt with
    ⟨_, _, T, rfl, hT⟩ | ⟨_, ⟨x, hx⟩, _⟩ | ⟨h, _⟩
  · refine ⟨T, ?_, fun q h1 h2 h3 => ?_⟩
    · rw [show s.trace i = _ from htr]
      simp
    · refine (I.joined (i := i) (by simp [State.joined, hc, ConsumerOp.isJoin])).2.2.2 q h1 ?_ h3
      simp only [State.position, hc]
      omega
  · cases hx
  · cases h

end Partition

/-- **The consumers partition the positions, with minimal loss.**  In every run with `k` consumers
of distinct live indices whose moves fit: no position is popped twice; a joined consumer's cursor
keeps its residue and never moves back, and its positions increase; a position it has moved past was
popped, or skipped after loading a tail too far beyond it; and `pop` returns nothing only when all
positions below the tail it loaded have been dealt with. -/
theorem partition_minimal_loss (P : Params) {k : ℕ} {op : ProducerOp W K}
    (hop : op.initialises = true) {m : Channel W} (hm : m.magic = 0) {s : State W K}
    (h : FitReach P k (State.initial P op m) s) :
    s.all.Nodup ∧
    (∀ i, s.joined i = true →
      (s.cursor i).head % k = (s.cursor i).consumerIndex ∧
      (∀ t, Step P s t → SumsFit P s t → (s.cursor i).head ≤ (t.cursor i).head) ∧
      (s.trace i).positions.Pairwise (· < ·) ∧
      (∀ p ∈ (s.trace i).positions, p % k = (s.cursor i).consumerIndex) ∧
      (∀ p, (s.trace i).joinedAt ≤ p → p < s.position i → p % k = (s.cursor i).consumerIndex →
        s.Handled P.N i p) ∧
      (∀ start, s.consumer i = .busy start .pop (.ret (.done (.ready, none))) →
        ∃ T, (s.trace i).loads.getLast? = some (start.head, T) ∧
          ∀ q, (s.trace i).joinedAt ≤ q → q < T → q % k = (s.cursor i).consumerIndex →
            s.Handled P.N i q)) ∧
    (∀ J T, (∀ r < k, ∃ i, s.joined i = true ∧ (s.cursor i).consumerIndex = r ∧
        (s.trace i).joinedAt ≤ J ∧ T ≤ s.position i ∧
        ∀ x ∈ (s.trace i).loads, x.2 ≤ x.1 + readable P.N) →
      0 < k → ∀ p, J ≤ p → p < T → ∃ i, s.joined i = true ∧ p ∈ (s.trace i).positions) := by
  have I := (Partition.initial (P := P) (k := k) hop hm).run h
  refine ⟨I.nodup, fun i hj => ?_, fun J T hall hk0 p h1 h2 => ?_⟩
  · obtain ⟨hres, hsort, hmine, hcov⟩ := I.joined hj
    exact ⟨hres, fun t ht hfit => I.cursor_le hj ht hfit, hsort, hmine, hcov,
      fun start hc => I.caught_up hc⟩
  · obtain ⟨i, hj, hidx, hJ, hT, hno⟩ := hall (p % k) (Nat.mod_lt _ hk0)
    refine ⟨i, hj, ?_⟩
    rcases (I.joined hj).2.2.2 p (by omega) (by omega) hidx.symm with hp | ⟨x, hx, hle, hlt⟩
    · exact hp
    · -- a skip is an overrun
      have := hno x hx
      omega

/-- Two consumers share two elements. -/
theorem partition_minimal_loss_small : ∃ s : State ℕ 1,
    DistinctReach Params.small 2
      (State.initial Params.small .joinOrInitializeIn (Channel.zeroed 0)) s ∧
    s.all = [1, 0] ∧ s.all.Nodup := by
  have h : ((State.initial Params.small .joinOrInitializeIn (Channel.zeroed 0)).distinctMoves
      Params.small 2 2
      (consumerRuns 0 (.join 0 2) 6 ++ consumerRuns 1 (.join 1 2) 6 ++
        producerRuns (.push #v[5]) 6 ++ producerRuns (.push #v[6]) 9 ++ producerRuns .sync 4 ++
        consumerRuns 1 .pop 7 ++ consumerRuns 0 .pop 7)).map State.all = some [1, 0] := by
    decide +kernel
  obtain ⟨s, hs, hr⟩ := Option.map_eq_some_iff.mp h
  have hreach := State.distinctMoves_reach (fun j _ => rfl) hs
  have hfit := hreach.fits (Partition.initial rfl rfl) seen_initial (by unfold Roomy; decide)
    (by decide)
  exact ⟨s, hreach, hr, (partition_minimal_loss Params.small rfl rfl hfit.1).1⟩

/-- **At the limit of the counters**: eight slots, 64-bit words and a single consumer, that joins at
the tail `2 ^ 64 - 7`.  When the tail is `2 ^ 64 - 1` and the first position has been popped, the
sum in the check wraps, the cursor is moved back, and the position is popped a second time. -/
theorem not_partition_minimal_loss : ∃ s : State ℕ 1,
    DistinctReach (.ofConfig Config.eight) 1
      (State.initial (.ofConfig Config.eight) .joinOrInitializeIn (.zeroed 0)) s ∧
    s.all = [2 ^ 64 - 7, 2 ^ 64 - 7] ∧ ¬ s.all.Nodup := by
  set P : Params := .ofConfig Config.eight with hP
  set s₀ : State ℕ 1 := State.initial P .joinOrInitializeIn (.zeroed 0) with hs₀
  have hp₀ : Published P 0 s₀ := published_initial rfl rfl
  obtain ⟨s₁, hr₁, hp₁, hsame⟩ := hp₀.pushes (n := 2 ^ 64 - 7) (k := 1) (by decide)
    (distinct_initial _ _) #v[7]
  rw [Nat.zero_add] at hp₁
  obtain ⟨s₂, hr₂, hp₂, L₂, hall₂⟩ := hp₁.joined (by decide) fun i => by rw [hsame.consumer]; rfl
  obtain ⟨s₃, hr₃, hp₃, hsame₃⟩ := hp₂.pushes (n := 6) (k := 1) (by decide) L₂.distinct #v[7]
  have htail : s₃.ch.tail = 2 ^ 64 - 1 := hp₃.tail
  have L₃ : Lone (2 ^ 64 - 7) s₃ := L₂.congr hsame₃
  -- the first pop takes the position
  obtain ⟨s₄, hr₄, L₄, hch₄, hall₄⟩ := L₃.pops (P := P)
  obtain ⟨s₅, hr₅, L₅, hch₅, hall₅⟩ := L₄.taken (by rw [hch₄, htail]; decide)
    (by rw [hch₄, htail]; decide)
  -- the second one is moved back and takes it again
  obtain ⟨s₆, hr₆, L₆, hch₆, hall₆⟩ := L₅.pops (P := P)
  obtain ⟨s₇, hr₇, L₇, hch₇, hall₇⟩ := L₆.overrun (by rw [hch₆, hch₅, hch₄, htail]; decide)
    (by rw [hch₆, hch₅, hch₄, htail]; decide)
  rw [hch₆, hch₅, hch₄, htail, show nextModulo P.w (wsub P.w (2 ^ 64 - 1) (readable P.N)) 0 1 =
    2 ^ 64 - 7 by decide] at L₇
  obtain ⟨s₈, hr₈, L₈, hch₈, hall₈⟩ := L₇.taken (by rw [hch₇, hch₆, hch₅, hch₄, htail]; decide)
    (by rw [hch₇, hch₆, hch₅, hch₄, htail]; decide)
  have hall : s₈.all = [2 ^ 64 - 7, 2 ^ 64 - 7] := by
    rw [hall₈, hall₇, hall₆, hall₅, hall₄, hsame₃.all, hall₂, hsame.all]
    rfl
  refine ⟨s₈, ?_, hall, by rw [hall]; decide⟩
  exact ((((((hr₁.trans hr₂).trans hr₃).trans hr₄).trans hr₅).trans hr₆).trans hr₇).trans hr₈

end Que.Headless
