import Que.Polling.Progress

/-! # What the polling consumers get

The producer ends its calls with a `sync`.  From some moment on, everything that it pushed is
published, and every consumer has dealt with all positions of its residue: it has popped the element
there, or has seen a tail for which the element could no longer be read.  The latter cannot happen
to the elements of the last `readable N` positions. -/

namespace Que.Polling

open Lib Headless

variable {W : Type} {K k : ℕ} {P : Params}

/-- Consumer `i` has popped `x` at position `p`, or skipped the position. -/
def Dealt (N : ℕ) (s : State W K) (i p : ℕ) (x : Vector W K) : Prop :=
  (p, x) ∈ (s.trace i).popped ∨ (s.trace i).Skipped N p

/-! ### Consumers that poll -/

section polling
variable {s : State W K} {i : ℕ}

theorem Popping.joined (h : Popping s i) : s.joined i = true := by
  cases h with
  | rest hc => simp only [State.joined, hc]
  | busy hc => simp only [State.joined, hc, ConsumerOp.isJoin, Bool.not_false]

theorem Popping.live (h : Popping s i) (I : Partition P k s) :
    s.live i = some ((s.cursor i).consumerIndex, (s.cursor i).interval) := by
  cases h with
  | rest hc => exact live_rest hc
  | busy hc =>
      have hadv := advances_of_busy I hc
      rw [live_busy hc, hadv.index, hadv.interval]

/-- Every residue belongs to exactly one of the consumers. -/
theorem existsUnique_consumer (I : Partition P k s) (h : ∀ i : Fin k, Popping s i) {r : ℕ}
    (hr : r < k) : ∃! i : Fin k, (s.cursor i).consumerIndex = r := by
  have hlive : ∀ i : Fin k, _ := fun i => (h i).live I
  have hlt : ∀ i : Fin k, (s.cursor i).consumerIndex < k := fun i =>
    (I.distinct.of_k i _ (hlive i)).1
  have hinj : Function.Injective fun i : Fin k => (⟨(s.cursor i).consumerIndex, hlt i⟩ : Fin k) :=
    fun i j hij => Fin.ext (I.distinct.index i j _ _ (hlive i) (hlive j) (congrArg Fin.val hij))
  obtain ⟨i, hi⟩ := Finite.injective_iff_surjective.mp hinj ⟨r, hr⟩
  refine ⟨i, congrArg Fin.val hi, fun j hj => hinj ?_⟩
  exact (Fin.ext hj : (⟨(s.cursor j).consumerIndex, hlt j⟩ : Fin k) = ⟨r, hr⟩).trans hi.symm

/-- A consumer that has handled a position has dealt with the element there. -/
theorem dealt_of_handled (I : Partition P k s) {p : ℕ} {x : Vector W K}
    (hx : s.published p = some x) (h : s.Handled P.N i p) : Dealt P.N s i p x := by
  refine h.imp_left fun hp => ?_
  obtain ⟨⟨q, y⟩, hmem, rfl⟩ := List.mem_map.mp hp
  have hy : s.published q = some y := I.inv.popped i _ hmem (Nat.zero_le _)
  obtain rfl : x = y := Option.some.inj (hx.symm.trans hy)
  exact hmem

/-- What a producer at rest has not yet published. -/
theorem rest_tail (I : Partition P k s) (hp : s.producer = .rest .ready) :
    s.ch.tail + s.own.written = s.own.tail := by
  have hready := I.inv.producer
  rw [hp] at hready
  exact hready.2

theorem rest_tail_le (I : Partition P k s) (hp : s.producer = .rest .ready) :
    s.ch.tail ≤ s.own.tail :=
  (Nat.le_add_right _ _).trans_eq (rest_tail I hp)

end polling

/-! ### The beginning and the end -/

section ends
variable {s₀ : State W K} {ops : List (ProducerOp W K)} {total : List (Vector W K)}
  {c : Client W K}

theorem pushed_sync : pushed (ops ++ [.sync]) = pushed ops := by
  simp only [pushed, List.flatMap_append, List.flatMap_singleton, ProducerOp.values,
    List.append_nil]

theorem Live.start (I : Partition P k s₀) (hseen : Seen s₀) (hp : s₀.producer = .rest .ready)
    (hc : ∀ i : Fin k, s₀.consumer i = .rest .ready)
    (hops : ∀ op ∈ ops, Polling.working op = true) (hends : ops.getLast? = some .sync)
    (hlimit : s₀.own.tail + (pushed ops).length < P.limit) :
    Live P k s₀ (pushed ops) ⟨s₀, ops⟩ := by
  refine ⟨.refl, I, hseen, fun _ => rfl, hops, .inl hends,
    ⟨[], rfl, .rest hp rfl, fun j hj => by cases hj⟩, fun j hj => ?_, fun i => .rest (hc i), hlimit⟩
  have htail := rest_tail I hp
  simp only at hj
  omega

/-- Under a fair schedule everything comes to its end, for good. -/
theorem Live.catches_up (L : Live P k s₀ total c) (hP : Roomy P) (hk : k ≤ 64) {sched : ℕ → Side k}
    (hfair : Fair sched) : ∃ n₀, ∀ n ≥ n₀, Live P k s₀ total (runs (Client.next P) sched c n) ∧
      (runs (Client.next P) sched c n).Done k :=
  (ranking hP hk s₀ total).eventually_always (fun side _ L hdone => done_next hP hk L hdone side)
    L hfair

/-- When the producer has made its calls, everything that it pushed is published. -/
theorem Live.finished (L : Live P k s₀ total c) (htodo : c.todo = []) :
    c.s.ch.tail = s₀.own.tail + total.length ∧
      ∀ j, c.s.published (s₀.own.tail + j) = total[j]? := by
  obtain ⟨done, hsplit, hproducing, -⟩ := L.ledger
  have hdone : total = done := by rw [hsplit, htodo, pushed, List.flatMap_nil, List.append_nil]
  obtain ⟨hrest, hown⟩ : c.s.producer = .rest .ready ∧
      c.s.own.tail = s₀.own.tail + done.length := by
    cases hproducing with
    | rest hp htail => exact ⟨hp, htail⟩
    | busy hp hcons => exact absurd (hcons.symm.trans htodo) (List.cons_ne_nil _ _)
  have hwritten : c.s.own.written = 0 := by
    rcases L.ends with h | h
    · rw [htodo] at h
      cases h
    · exact h.2
  have hsum := rest_tail L.partition hrest
  have htail : c.s.ch.tail = s₀.own.tail + total.length := by
    rw [hdone]
    omega
  refine ⟨htail, fun j => ?_⟩
  by_cases hj : j < total.length
  · exact L.published j (by omega)
  · rw [List.getElem?_eq_none (Nat.le_of_not_lt hj)]
    exact L.partition.inv.base.beyond _ (by omega)

/-- A consumer that has caught up has dealt with what was pushed at its positions. -/
theorem Live.dealt (L : Live P k s₀ total c) (hseen : Seen s₀)
    (htail : s₀.ch.tail ≤ s₀.own.tail) (hdone : c.Done k) (i : Fin k) {j : ℕ} {x : Vector W K}
    (hx : total[j]? = some x) (hmine : (s₀.own.tail + j) % k = (c.s.cursor i).consumerIndex) :
    Dealt P.N c.s i (s₀.own.tail + j) x ∧
      (total.length ≤ j + readable P.N → (s₀.own.tail + j, x) ∈ (c.s.trace i).popped) := by
  obtain ⟨hend, hpublished⟩ := L.finished hdone.1
  have hj : j < total.length := (List.getElem?_eq_some_iff.mp hx).1
  have hjoined : (c.s.trace i).joinedAt ≤ s₀.own.tail :=
    (L.joinedAt i).trans_le ((hseen i).1.trans htail)
  have hposition := hdone.2 i
  have hhandled := (L.partition.joined (L.popping i).joined).2.2.2 (s₀.own.tail + j) (by omega)
    (by omega) hmine
  have hdealt := dealt_of_handled L.partition ((hpublished j).trans hx) hhandled
  exact ⟨hdealt, fun hlast => hdealt.resolve_right (L.seen.not_skipped (by omega))⟩

end ends

/-- **Everyone catches up.**  The producer, at rest, makes a list of calls and then a `sync`, and
each of the `k` consumers that have joined pops again and again.  Whatever the fair schedule, from
some moment on everything that was pushed is published, and each residue belongs to exactly one
consumer, which has popped or skipped every element that was pushed at its positions, and has popped
it if it is among the last `readable N`; no position was popped twice. -/
theorem all_catch_up (P : Params) (hP : Roomy P) (hk : k ≤ 64)
    {init : ProducerOp W K} (hinit : init.initialises = true) {m : Channel W} (hm : m.magic = 0)
    {s₀ : State W K} (h : DistinctReach P k (State.initial P init m) s₀)
    (hp : s₀.producer = .rest .ready) (hc : ∀ i : Fin k, s₀.consumer i = .rest .ready)
    {ops : List (ProducerOp W K)} (hops : ∀ op ∈ ops, working op = true)
    (hlimit : s₀.own.tail + (pushed ops).length < P.limit) {sched : ℕ → Side k}
    (hfair : Fair sched) :
    ∃ n₀, ∀ n ≥ n₀, let c := runs (Client.next P) sched ⟨s₀, ops ++ [.sync]⟩ n
      DistinctReach P k s₀ c.s ∧ c.todo = [] ∧ c.s.all.Nodup ∧
      c.s.ch.tail = s₀.own.tail + (pushed ops).length ∧
      (∀ j, c.s.published (s₀.own.tail + j) = (pushed ops)[j]?) ∧
      (∀ r < k, ∃! i : Fin k, (c.s.cursor i).consumerIndex = r) ∧
      ∀ (j : ℕ) (x : Vector W K) (i : Fin k), (pushed ops)[j]? = some x →
        (s₀.own.tail + j) % k = (c.s.cursor i).consumerIndex →
        Dealt P.N c.s i (s₀.own.tail + j) x ∧
        ((pushed ops).length ≤ j + readable P.N →
          (s₀.own.tail + j, x) ∈ (c.s.trace i).popped) := by
  have I₀ : Partition P k (State.initial P init m) := Partition.initial hinit hm
  have I := I₀.run (h.fits I₀ seen_initial hP hk).1
  have hseen := (h.fits I₀ seen_initial hP hk).2
  have hops' : ∀ op ∈ ops ++ [.sync], working op = true := by
    simpa [or_imp, forall_and, working] using hops
  rw [← pushed_sync] at hlimit
  have L := Live.start I hseen hp hc hops' List.getLast?_concat hlimit
  rw [pushed_sync] at L
  obtain ⟨n₀, hend⟩ := L.catches_up hP hk hfair
  refine ⟨n₀, fun n hn => ?_⟩
  obtain ⟨Ln, hdone⟩ := hend n hn
  obtain ⟨htail, hpublished⟩ := Ln.finished hdone.1
  exact ⟨Ln.reach, hdone.1, Ln.partition.nodup, htail, hpublished,
    fun r hr => existsUnique_consumer Ln.partition Ln.popping hr,
    fun j x i hx hmine => Ln.dealt hseen (rest_tail_le I hp) hdone i hx hmine⟩

/-- The threads take turns. -/
def inTurn (k n : ℕ) : Side k :=
  if h : n % (k + 1) < k then .consumer ⟨n % (k + 1), h⟩ else .producer

theorem inTurn_fair (k : ℕ) : Fair (inTurn k) := by
  intro side n
  have hle : n ≤ (k + 1) * n := Nat.le_mul_of_pos_left n (Nat.succ_pos k)
  cases side with
  | producer =>
      have hmod : ((k + 1) * n + k) % (k + 1) = k := by
        rw [Nat.mul_add_mod, Nat.mod_eq_of_lt (Nat.lt_succ_self k)]
      exact ⟨(k + 1) * n + k, by omega, dif_neg (by omega)⟩
  | consumer i =>
      have hmod : ((k + 1) * n + i) % (k + 1) = i := by
        rw [Nat.mul_add_mod, Nat.mod_eq_of_lt (i.isLt.trans (Nat.lt_succ_self k))]
      refine ⟨(k + 1) * n + i, by omega, ?_⟩
      simp only [inTurn, hmod, i.isLt, dif_pos]

/-- Five elements through a ring of four slots, three of them readable. -/
def fiveElements : List (ProducerOp ℕ 1) :=
  [.push #v[1], .sync, .push #v[2], .push #v[3], .beat, .push #v[4], .push #v[5]]

/-- The status of a thread between two calls. -/
def status {L V St Op R : Type} : Thread L V St Op R → Option St
  | .rest st => some st
  | .busy _ _ _ => none

theorem eq_rest {L V St Op R : Type} {t : Thread L V St Op R} {st : St}
    (h : status t = some st) : t = .rest st := by
  cases t with
  | rest st' => rw [Option.some.inj h]
  | busy start op code => cases h

/-- Two consumers share five elements; the last three of them are popped for certain. -/
theorem all_catch_up_small : ∃ s n₀,
    (State.initial Params.small .joinOrInitializeIn (Channel.zeroed 0)).distinctMoves Params.small
      2 2 (consumerRuns 0 (.join 0 2) 6 ++ consumerRuns 1 (.join 1 2) 6) = some s ∧
    ∀ n ≥ n₀, let c := runs (Client.next Params.small) (inTurn 2) ⟨s, fiveElements ++ [.sync]⟩ n
      c.s.ch.tail = 5 ∧ ∃ i : Fin 2, (2, #v[3]) ∈ (c.s.trace i).popped := by
  have hmoves : ((State.initial Params.small .joinOrInitializeIn (Channel.zeroed 0)).distinctMoves
      Params.small 2 2 (consumerRuns 0 (.join 0 2) 6 ++ consumerRuns 1 (.join 1 2) 6)).map
        (fun s : State ℕ 1 =>
          (status s.producer, s.own, status (s.consumer 0), status (s.consumer 1))) =
      some (some .ready, ⟨0, 0, 0⟩, some .ready, some .ready) := by
    decide +kernel
  obtain ⟨s, hs, hrest⟩ := Option.map_eq_some_iff.mp hmoves
  obtain ⟨hp, hown, hc0, hc1⟩ : status s.producer = some .ready ∧ s.own = ⟨0, 0, 0⟩ ∧
      status (s.consumer 0) = some .ready ∧ status (s.consumer 1) = some .ready := by
    simpa using hrest
  have hc : ∀ i : Fin 2, s.consumer i = .rest .ready := by
    intro i
    obtain rfl | rfl : i = 0 ∨ i = 1 := by omega
    · exact eq_rest hc0
    · exact eq_rest hc1
  have hlimit : s.own.tail + (pushed fiveElements).length < Params.small.limit := by
    rw [hown]
    decide
  obtain ⟨n₀, h⟩ := all_catch_up Params.small (by unfold Roomy; decide) (by decide) rfl rfl
    (State.distinctMoves_reach (fun _ _ => rfl) hs) (eq_rest hp) hc (by decide) hlimit
    (inTurn_fair 2)
  refine ⟨s, n₀, hs, fun n hn => ?_⟩
  obtain ⟨-, -, -, htail, -, hone, hall⟩ := h n hn
  obtain ⟨i, hi, -⟩ := hone 0 (by decide)
  rw [hown] at htail hall
  exact ⟨htail, i, (hall 2 #v[3] i rfl hi.symm).2 (by decide)⟩

end Que.Polling
