import Que.Polling.Delivery

/-! # The broadcast example

`main` of `examples/broadcast.rs`: the producer of a `headless_multi` pushes the messages 0, 1, …
and syncs after each of them, and every consumer asserts that it pops 0, 1, … in this order.

But the consumers of `headless_multi` share the positions by their residues, so with two or more of
them no assertion can hold twice.  Under a fair schedule every consumer gets two messages, and so
every consumer fails.  (A consumer that has failed stops; that the loops below let it pop on makes
no difference to the others, which see nothing of it.) -/

namespace Que.Polling

open Lib Headless

variable {W : Type} {K k : ℕ} {P : Params}

/-- The calls of the producer's loop. -/
def messages (msg : ℕ → Vector W K) (numMsgs : ℕ) : List (ProducerOp W K) :=
  (List.range numMsgs).flatMap fun msgs => [.push (msg msgs), .sync]

/-- The consumer's loop on the values that it pops: the next `expected`, or nothing if an assertion
has failed. -/
def expectedAfter [DecidableEq W] (msg : ℕ → Vector W K) (numMsgs : ℕ) :
    ℕ → List (Vector W K) → Option ℕ
  | expected, [] => some expected
  | expected, value :: values =>
      if expected < numMsgs then
        if msg expected = value then expectedAfter msg numMsgs (expected + 1) values else none
      else some expected

/-! ### The producer's messages -/

section messages
variable {msg : ℕ → Vector W K} {numMsgs : ℕ}

theorem pushed_messages : pushed (messages msg numMsgs) = (List.range numMsgs).map msg := by
  simp only [pushed, messages, List.flatMap_assoc, List.flatMap_cons, List.flatMap_nil,
    ProducerOp.values, List.append_nil, List.map_eq_flatMap]

theorem messages_working : ∀ op ∈ messages msg numMsgs, working op = true := by
  intro op hop
  obtain ⟨n, -, hop⟩ := List.mem_flatMap.mp hop
  simp only [List.mem_cons, List.not_mem_nil, or_false] at hop
  rcases hop with rfl | rfl <;> rfl

theorem messages_ends (h : 0 < numMsgs) : (messages msg numMsgs).getLast? = some .sync := by
  obtain ⟨n, rfl⟩ := Nat.exists_eq_add_of_lt h
  simp [messages, List.range_succ]

theorem getElem?_messages {p : ℕ} {x : Vector W K} :
    ((List.range numMsgs).map msg)[p]? = some x ↔ p < numMsgs ∧ msg p = x := by
  simp [List.getElem?_eq_some_iff]

end messages

/-! ### The consumers' assertions -/

section assertions
variable [DecidableEq W] {msg : ℕ → Vector W K} {numMsgs : ℕ}

theorem expectedAfter_le {e e' : ℕ} {values : List (Vector W K)}
    (h : expectedAfter msg numMsgs e values = some e') : e' ≤ e + values.length := by
  induction values generalizing e with
  | nil =>
      cases h
      exact le_rfl
  | cons value values ih =>
      simp only [expectedAfter] at h
      rw [List.length_cons]
      split_ifs at h
      · have := ih h
        omega
      · cases h
        omega

theorem expectedAfter_le_numMsgs {e e' : ℕ} {values : List (Vector W K)} (he : e ≤ numMsgs)
    (h : expectedAfter msg numMsgs e values = some e') : e' ≤ numMsgs := by
  induction values generalizing e with
  | nil =>
      cases h
      exact he
  | cons value values ih =>
      simp only [expectedAfter] at h
      split_ifs at h with hlt
      · exact ih hlt h
      · cases h
        exact he

/-- Of two messages at positions of one residue, the first or the second is not the one that is
expected. -/
theorem expectedAfter_shared {r : ℕ} {l : List (ℕ × Vector W K)} (hk : 2 ≤ k) (hmsgs : 2 ≤ numMsgs)
    (hmsg : ∀ a < numMsgs, ∀ b < numMsgs, msg a = msg b → a = b)
    (hl : ∀ x ∈ l, x.1 % k = r ∧ x.1 < numMsgs ∧ msg x.1 = x.2) (hlen : 2 ≤ l.length) :
    expectedAfter msg numMsgs 0 (l.map Prod.snd) = none := by
  match l, hlen with
  | x :: y :: l, _ =>
      obtain ⟨hx, hxlt, hxmsg⟩ := hl x (by simp)
      obtain ⟨hy, hylt, hymsg⟩ := hl y (by simp)
      simp only [List.map_cons, expectedAfter]
      rw [if_pos (show 0 < numMsgs by omega)]
      by_cases hfirst : msg 0 = x.2
      · have hx0 : x.1 = 0 := hmsg _ hxlt 0 (by omega) (hxmsg.trans hfirst.symm)
        rw [if_pos hfirst, if_pos (show 0 + 1 < numMsgs by omega), if_neg]
        intro hsecond
        have hy1 : y.1 = 1 := hmsg _ hylt 1 (by omega) (hymsg.trans hsecond.symm)
        rw [hx0, Nat.zero_mod] at hx
        rw [hy1, Nat.mod_eq_of_lt (by omega)] at hy
        omega
      · exact if_neg hfirst

end assertions

/-! ### The consumers' values -/

section values
variable {s₀ : State W K} {msg : ℕ → Vector W K} {numMsgs : ℕ} {c : Client W K}

/-- What a consumer has popped are messages at positions of its residue. -/
theorem popped_messages (L : Live P k s₀ ((List.range numMsgs).map msg) c)
    (hnew : s₀.own.tail = 0) (i : Fin k) : ∀ x ∈ (c.s.trace i).popped,
      x.1 % k = (c.s.cursor i).consumerIndex ∧ x.1 < numMsgs ∧ msg x.1 = x.2 := by
  intro x hx
  have hpublished : c.s.published x.1 = some x.2 := L.partition.inv.popped i x hx (Nat.zero_le _)
  have htail : x.1 < c.s.ch.tail := by
    by_contra hge
    rw [L.partition.inv.base.beyond _ (Nat.not_lt.mp hge)] at hpublished
    cases hpublished
  have htotal := L.published x.1 (by omega)
  rw [hnew, Nat.zero_add, hpublished] at htotal
  exact ⟨(L.partition.joined (L.popping i).joined).2.2.1 x.1 (List.mem_map_of_mem hx),
    getElem?_messages.mp htotal.symm⟩

/-- Of the last readable positions two belong to each consumer. -/
theorem two_popped (L : Live P k s₀ ((List.range numMsgs).map msg) c) (hseen : Seen s₀)
    (htail : s₀.ch.tail ≤ s₀.own.tail) (hnew : s₀.own.tail = 0) (hdone : c.Done k)
    (hroom : 2 * k ≤ readable P.N) (hmsgs : 2 * k ≤ numMsgs) (i : Fin k) :
    2 ≤ (c.s.trace i).popped.length := by
  set r := (c.s.cursor i).consumerIndex with hr
  have hlt : r < k := (L.partition.distinct.of_k i _ ((L.popping i).live L.partition)).1
  set p := nextResidue (numMsgs - 2 * k) r k with hp
  have hmod : p % k = r := nextResidue_mod hlt
  have hfrom : numMsgs - 2 * k ≤ p := le_nextResidue
  have hto : p < numMsgs - 2 * k + k := nextResidue_lt (by omega)
  have hmem : ∀ q, q % k = r → numMsgs - 2 * k ≤ q → q < numMsgs →
      (q, msg q) ∈ (c.s.trace i).popped := by
    intro q hq hle hlt
    have hlast := (L.dealt (j := q) hseen htail hdone i (getElem?_messages.mpr ⟨hlt, rfl⟩)
      (by rw [hnew, Nat.zero_add, hq])).2
    rw [hnew, Nat.zero_add, List.length_map, List.length_range] at hlast
    exact hlast (by omega)
  have h1 := hmem p hmod hfrom (by omega)
  have h2 := hmem (p + k) (by rw [Nat.add_mod_right, hmod]) (by omega) (by omega)
  match hpopped : (c.s.trace i).popped with
  | [] =>
      rw [hpopped] at h1
      cases h1
  | [x] =>
      rw [hpopped, List.mem_singleton] at h1 h2
      have := congrArg Prod.fst (h1.trans h2.symm)
      simp only at this
      omega
  | x :: y :: l => simp

end values

/-- **The assertions of the broadcast example fail.**  Take a new channel whose producer and `k`
consumers are at rest, `k` at least two.  However the loops are interleaved, no consumer gets beyond
its first message; and with two messages and two readable slots for each consumer, under every fair
schedule there is a moment from which on the assertion of every consumer has failed. -/
theorem broadcast_fails [DecidableEq W] (P : Params) (hP : Roomy P) (hk2 : 2 ≤ k) (hk : k ≤ 64)
    {init : ProducerOp W K} (hinit : init.initialises = true) {m : Channel W} (hm : m.magic = 0)
    {s₀ : State W K} (h : DistinctReach P k (State.initial P init m) s₀)
    (hp : s₀.producer = .rest .ready) (hc : ∀ i : Fin k, s₀.consumer i = .rest .ready)
    (hnew : s₀.own.tail = 0) {msg : ℕ → Vector W K} {numMsgs : ℕ} (hlimit : numMsgs < P.limit)
    (hmsg : ∀ a < numMsgs, ∀ b < numMsgs, msg a = msg b → a = b) (sched : ℕ → Side k) :
    let expected := fun n (i : Fin k) => expectedAfter msg numMsgs 0
      (((runs (Client.next P) sched ⟨s₀, messages msg numMsgs⟩ n).s.trace i).popped.map Prod.snd)
    (∀ n i e, expected n i = some e → e ≤ 1) ∧
      (2 * k ≤ readable P.N → 2 * k ≤ numMsgs → Fair sched →
        ∃ n₀, ∀ n ≥ n₀, ∀ i, expected n i = none) := by
  have I₀ : Partition P k (State.initial P init m) := Partition.initial hinit hm
  have I := I₀.run (h.fits I₀ seen_initial hP hk).1
  have hseen := (h.fits I₀ seen_initial hP hk).2
  have hbound : s₀.own.tail + (pushed (messages msg numMsgs)).length < P.limit := by
    rw [hnew, pushed_messages, List.length_map, List.length_range]
    omega
  have hstart : 0 < numMsgs → Live P k s₀ ((List.range numMsgs).map msg)
      ⟨s₀, messages msg numMsgs⟩ := by
    intro hpos
    rw [← pushed_messages]
    exact Live.start I hseen hp hc messages_working (messages_ends hpos) hbound
  refine ⟨fun n i e he => ?_, fun hroom hmsgs hfair => ?_⟩
  · rcases Nat.lt_or_ge numMsgs 2 with hfew | hmsgs
    · exact (expectedAfter_le_numMsgs (Nat.zero_le _) he).trans (Nat.le_of_lt_succ hfew)
    have L := hstart (by omega)
    have Ln : Live P k s₀ ((List.range numMsgs).map msg)
        (runs (Client.next P) sched ⟨s₀, messages msg numMsgs⟩ n) :=
      runs_keep (ranking hP hk s₀ _).keep L n
    by_contra hgt
    have hlen := expectedAfter_le he
    rw [List.length_map] at hlen
    have hnone := expectedAfter_shared hk2 hmsgs hmsg (popped_messages Ln hnew i) (by omega)
    exact Option.some_ne_none e (he.symm.trans hnone)
  · obtain ⟨n₀, hend⟩ := (hstart (by omega)).catches_up hP hk hfair
    refine ⟨n₀, fun n hn i => ?_⟩
    obtain ⟨Ln, hdone⟩ := hend n hn
    exact expectedAfter_shared hk2 (by omega) hmsg (popped_messages Ln hnew i)
      (two_popped Ln hseen (rest_tail_le I hp) hnew hdone hroom hmsgs i)

/-- A message fills one word. -/
def message (n : ℕ) : Vector ℕ 1 := #v[n]

/-- A new channel that ten consumers have joined. -/
def tenJoined : Option (State ℕ 1) :=
  (State.initial Params.broadcast .joinOrInitializeIn
    { Channel.zeroed 0 with strong := 1 }).distinctMoves Params.broadcast 10 10
      ((List.range 10).flatMap fun i => consumerRuns i (.join i 10) 7)

/-- Ten consumers and 10000 messages, as in the example. -/
theorem broadcast_fails_ten : ∃ s n₀, tenJoined = some s ∧ ∀ n ≥ n₀, ∀ i : Fin 10,
    expectedAfter message 10000 0 (((runs (Client.next Params.broadcast) (inTurn 10)
      ⟨s, messages message 10000⟩ n).s.trace i).popped.map Prod.snd) = none := by
  have hmoves : tenJoined.map (fun s => (status s.producer, s.own.tail,
      decide (∀ i : Fin 10, status (s.consumer i) = some .ready))) =
        some (some .ready, 0, true) := by
    decide +kernel
  obtain ⟨s, hs, hrest⟩ := Option.map_eq_some_iff.mp hmoves
  obtain ⟨hp, hnew, hc⟩ : status s.producer = some .ready ∧ s.own.tail = 0 ∧
      ∀ i : Fin 10, status (s.consumer i) = some .ready := by
    simpa using hrest
  have hmsg : ∀ a < 10000, ∀ b < 10000, message a = message b → a = b := fun a _ b _ h => by
    simpa [message] using h
  obtain ⟨-, hend⟩ := broadcast_fails Params.broadcast (by unfold Roomy; decide) (by decide)
    (by decide) rfl rfl (State.distinctMoves_reach (fun _ _ => rfl) hs) (eq_rest hp)
    (fun i => eq_rest (hc i)) hnew (by decide) hmsg (inTurn 10)
  obtain ⟨n₀, hn₀⟩ := hend (by decide) (by decide) (inTurn_fair 10)
  exact ⟨s, n₀, hs, hn₀⟩

end Que.Polling
