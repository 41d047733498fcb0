import Que.Ownership.Accounting
import Que.Startup.Indexing
import Mathlib.Algebra.Order.BigOperators.Group.Finset

/-! # The handles of `headless_multi`

One producer and `k` consumers share the `Arc`.  The strong count is the number of handles that
still hold their share, in whatever order and however interleaved they are used and dropped; so no
handle ever acts on a channel that has been dropped. -/

namespace Que.Ownership

open Lib Startup

/-! ### Any number of consumers -/

section fleet
variable {V : Type} {k : ℕ}

/-- The handles of a channel with `k` consumers. -/
structure Fleet (A B : Endpoint V) (k : ℕ) where
  ch : Channel V
  ledger : Ledger V
  producer : Side A
  consumer : Fin k → Side B

inductive FleetMove (A B : Endpoint V) (k : ℕ) where
  | producer (m : Choice A)
  | consumer (i : Fin k) (m : Choice B)

namespace Fleet
variable {A B : Endpoint V}

/-- The state after a move, if it is possible. -/
def move (w N : ℕ) (s : Fleet A B k) : FleetMove A B k → Option (Fleet A B k)
  | .producer m =>
      (s.producer.move w N s.ch s.ledger m).map fun r => ⟨r.1, r.2.1, r.2.2, s.consumer⟩
  | .consumer i m =>
      ((s.consumer i).move w N s.ch s.ledger m).map fun r =>
        ⟨r.1, r.2.1, s.producer, Function.update s.consumer i r.2.2⟩

/-- The state after a schedule. -/
def moves (w N : ℕ) (s : Fleet A B k) : List (FleetMove A B k) → Option (Fleet A B k)
  | [] => some s
  | m :: ms => (s.move w N m).bind fun t => t.moves w N ms

/-- The producer makes a call and takes `n` steps. -/
def producerRuns (c : A.Call) (n : ℕ) : List (FleetMove A B k) :=
  .producer (.call c) :: List.replicate n (.producer .go)

/-- Consumer `i` makes a call and takes `n` steps. -/
def consumerRuns (i : Fin k) (c : B.Call) (n : ℕ) : List (FleetMove A B k) :=
  .consumer i (.call c) :: List.replicate n (.consumer i .go)

/-- All handles have been dropped. -/
def Dropped (s : Fleet A B k) : Prop :=
  s.producer.doing.status = some A.gone ∧ ∀ i, (s.consumer i).doing.status = some B.gone

end Fleet

/-- One step of one of the threads. -/
def FleetStep (w N : ℕ) {A B : Endpoint V} (s t : Fleet A B k) : Prop := ∃ m, s.move w N m = some t

abbrev FleetReach (w N : ℕ) {A B : Endpoint V} : Fleet A B k → Fleet A B k → Prop :=
  Relation.ReflTransGen (FleetStep w N)

theorem Fleet.moves_reach {w N : ℕ} {A B : Endpoint V} {ms : List (FleetMove A B k)}
    {s t : Fleet A B k} (h : s.moves w N ms = some t) : FleetReach w N s t := by
  induction ms generalizing s with
  | nil =>
      cases h
      exact .refl
  | cons m ms ih =>
      obtain ⟨u, hu, ht⟩ := Option.bind_eq_some_iff.mp h
      exact .head ⟨m, hu⟩ (ih ht)

end fleet

/-! ### The shares -/

section runs
variable {T : Type} {A B : Endpoint (Option T)} {k w N : ℕ}

/-- The number of shares that the handles hold. -/
def Fleet.shares (s : Fleet A B k) : ℕ := s.producer.shares + ∑ i, (s.consumer i).shares

/-- The invariant of the handles. -/
structure FleetInvariant (N : ℕ) (s : Fleet A B k) : Prop where
  producer : SideFine N s.producer
  consumer : ∀ i, SideFine N (s.consumer i)
  strong : s.ch.strong = s.shares
  kept : Kept N s.ch s.ledger
  closed : s.ch.strong = 0 → Closed s.ledger

theorem shares_sum_le (c : Fin k → Side B) (u : Finset (Fin k)) : ∑ i ∈ u, (c i).shares ≤ k := by
  calc ∑ i ∈ u, (c i).shares ≤ ∑ _ ∈ u, 1 := Finset.sum_le_sum fun i _ => (c i).shares_le
    _ = u.card := by simp
    _ ≤ k := (Finset.card_le_univ u).trans_eq (Fintype.card_fin k)

/-- The share of one consumer, next to those of the others. -/
theorem shares_split (c : Fin k → Side B) (i : Fin k) (e : Side B) :
    ∑ j, (Function.update c i e j).shares =
      e.shares + ∑ j ∈ Finset.univ.erase i, (c j).shares := by
  rw [← Finset.add_sum_erase _ _ (Finset.mem_univ i), Function.update_self]
  congr 1
  exact Finset.sum_congr rfl fun j hj => by rw [Function.update_of_ne (Finset.ne_of_mem_erase hj)]

/-- A handle whose next step is an action holds its share. -/
theorem shares_of_act {E : Endpoint (Option T)} {e : Side E} (hf : SideFine N e)
    {whole : Proc E.Own (Option T) (Headless.Round E.Status)} {a : Act E.Own (Option T)}
    {m : a.Ans → Proc E.Own (Option T) (Headless.Round E.Status)}
    (he : e.doing = .busy whole (.act a m)) : e.shares = 1 := by
  unfold SideFine at hf
  rw [he] at hf
  have hr : e.released = false := by
    rcases hf with ⟨hr, -⟩ | ⟨hr, -⟩ | ⟨-, hcode⟩
    · exact hr
    · exact hr
    · cases hcode
  rw [Side.shares, hr]
  rfl

namespace FleetInvariant
variable {s t : Fleet A B k}

theorem step (hA : Conforms N A) (hB : Conforms N B) (hN : 0 < N) (hk : k + 2 < 2 ^ w)
    (I : FleetInvariant N s) (h : FleetStep w N s t) : FleetInvariant N t := by
  have hproducer := s.producer.shares_le
  obtain ⟨m, hm⟩ := h
  cases m with
  | producer m =>
      obtain ⟨⟨ch, l, e⟩, he, rfl⟩ := Option.map_eq_some_iff.mp hm
      have hothers := shares_sum_le s.consumer Finset.univ
      obtain ⟨h1, h2, h3, h4⟩ := Balanced.step hA hN (by omega)
        ⟨I.producer, I.strong, I.kept, I.closed⟩ he
      exact ⟨h1, I.consumer, h2, h3, h4⟩
  | consumer i m =>
      obtain ⟨⟨ch, l, e⟩, he, rfl⟩ := Option.map_eq_some_iff.mp hm
      have hothers := shares_sum_le s.consumer (Finset.univ.erase i)
      have hstrong : s.ch.strong = (s.consumer i).shares +
          (s.producer.shares + ∑ j ∈ Finset.univ.erase i, (s.consumer j).shares) := by
        rw [I.strong, Fleet.shares, ← Finset.add_sum_erase _ _ (Finset.mem_univ i)]
        exact Nat.add_left_comm _ _ _
      obtain ⟨h1, h2, h3, h4⟩ := Balanced.step hB hN (by omega)
        ⟨I.consumer i, hstrong, I.kept, I.closed⟩ he
      refine ⟨I.producer, fun j => ?_, ?_, h3, h4⟩
      · rcases Decidable.em (j = i) with rfl | hne
        · simp only [Function.update_self]
          exact h1
        · simp only [Function.update_of_ne hne]
          exact I.consumer j
      · rw [Fleet.shares, shares_split]
        exact h2.trans (Nat.add_left_comm _ _ _)

theorem run (hA : Conforms N A) (hB : Conforms N B) (hN : 0 < N) (hk : k + 2 < 2 ^ w)
    (I : FleetInvariant N s) (h : FleetReach w N s t) : FleetInvariant N t := by
  induction h with
  | refl => exact I
  | tail _ hstep ih => exact ih.step hA hB hN hk hstep

theorem shares_of_dropped (I : FleetInvariant N s) (hd : s.Dropped) : s.shares = 0 := by
  rw [Fleet.shares, shares_of_gone I.producer hd.1, Nat.zero_add]
  exact Finset.sum_eq_zero fun i _ => shares_of_gone (I.consumer i) (hd.2 i)

/-- After the drop of all handles the channel is gone. -/
theorem dropped (I : FleetInvariant N s) (hd : s.Dropped) : Closed s.ledger :=
  I.closed (I.strong.trans (I.shares_of_dropped hd))

end FleetInvariant

end runs

/-! ### Construction and result -/

section result
variable (C : InProcess) (T : Type)

/-- The new channel while `n` shares are held. -/
def sharedMemory (n : ℕ) : Channel (Option T) :=
  { Channel.zeroed none with capacity := C.N, magic := MAGIC, strong := n }

variable {C T} in
theorem joinMulti_run {i k n : ℕ} (hi : i < k) (hk : k ≤ 64) (hn : n + 1 < 2 ^ C.w) :
    (Headless.joinMulti C.w .local C.N C.buffer i k).run C.w (sharedMemory C T n) () =
      (.ok ⟨Headless.nextModulo C.w 0 i k, k, i, 0⟩, sharedMemory C T (n + 1), ()) := by
  have h1 : wadd C.w n 1 = n + 1 := wadd_of_lt hn
  simp [Headless.joinMulti, C.valid, hi, hk, sharedMemory, Channel.zeroed, Channel.get,
    Channel.set, incrementStrongCount, Mode.backedByArcc, h1]

variable {C T} in
theorem joinAll_run {k : ℕ} (hk : k ≤ 64) (is : List ℕ) {n : ℕ} (his : ∀ i ∈ is, i < k)
    (hn : n + is.length < 2 ^ C.w) :
    (joinAll C.w C.N C.buffer k is).run C.w (sharedMemory C T n) () =
      (.ok (is.map fun i => ⟨Headless.nextModulo C.w 0 i k, k, i, 0⟩),
        sharedMemory C T (n + is.length), ()) := by
  induction is generalizing n with
  | nil => rfl
  | cons i is ih =>
      rw [List.length_cons] at hn
      have hi := joinMulti_run (T := T) (C := C) (his i List.mem_cons_self) hk (n := n) (by omega)
      have hrest := ih (n := n + 1) (fun j hj => his j (List.mem_cons_of_mem _ hj)) (by omega)
      simp only [joinAll, Proc.run_bind, hi, hrest, List.map_cons, List.length_cons]
      rw [Nat.add_assoc, Nat.add_comm 1]
      rfl

/-- The cursor with which consumer `i` of `k` begins. -/
def firstCursor (k i : ℕ) : Headless.Consumer := ⟨Headless.nextModulo C.w 0 i k, k, i, 0⟩

variable {C T} in
theorem headlessMulti_run {k : ℕ} (hk : k ≤ 64) :
    (headlessMulti C.w C.N C.buffer k).run C.w (arcMemory : Channel (Option T)) () =
      (.ok (⟨0, 0, 0⟩, (List.range k).map (firstCursor C k)), sharedMemory C T (k + 1), ()) := by
  have hpow : 2 ^ 16 ≤ 2 ^ C.w := Nat.pow_le_pow_right (by decide) C.wide
  have hproducer : (Headless.joinOrInitializeIn .local C.N C.buffer).run C.w
      (arcMemory : Channel (Option T)) () = (.ok ⟨0, 0, 0⟩, sharedMemory C T 2, ()) := by
    have h1 : wadd C.w 1 1 = 2 := wadd_of_lt (by omega)
    have hz : ¬ (0 = MAGIC) := fun h => MAGIC_ne_zero h.symm
    simp [Headless.joinOrInitializeIn, C.valid, arcMemory, sharedMemory, Channel.zeroed,
      Channel.get, Channel.set, hz, incrementStrongCount, Mode.backedByArcc, h1]
  have hconsumers := joinAll_run (T := T) (C := C) hk (List.range k) (n := 2)
    (fun i hi => List.mem_range.mp hi) (by rw [List.length_range]; omega)
  have hlast : wsub C.w (2 + k) 1 = k + 1 := by
    rw [wsub_of_le (by omega) (by omega)]
    omega
  rw [List.length_range] at hconsumers
  simp only [headlessMulti, Proc.run_bind, hproducer, hconsumers]
  simp [sharedMemory, Prog.perform, Act.step, Channel.set, hlast, firstCursor]

/-- The handles as `headless_multi` returns them; after a panic there are none. -/
def multi (k : ℕ) : Fleet (headlessProducer C T) (headlessConsumer C T) k :=
  match (headlessMulti C.w C.N C.buffer k).run C.w arcMemory () with
  | (.ok (p, cs), ch, _) =>
      { ch := ch
        ledger := .empty
        producer := ⟨(p : Producer), .rest .ready, false⟩
        consumer := fun i => ⟨(cs.getD i ⟨0, 0, 0, 0⟩ : Headless.Consumer), .rest .ready, false⟩ }
  | (_, ch, _) =>
      { ch := ch
        ledger := .empty
        producer := ⟨(⟨0, 0, 0⟩ : Producer), .rest .gone, true⟩
        consumer := fun _ => ⟨(⟨0, 0, 0, 0⟩ : Headless.Consumer), .rest .gone, true⟩ }

theorem multi_invariant {k : ℕ} (hk : k ≤ 64) : FleetInvariant C.N (multi C T k) := by
  simp only [multi, headlessMulti_run hk]
  refine ⟨⟨fun h => (by cases h), fun h => (by cases h)⟩,
    fun _ => ⟨fun h => (by cases h), fun h => (by cases h)⟩, ?_,
    ⟨.inr fun _ => rfl, fun v hv => (by cases hv)⟩, fun h => (by cases h)⟩
  simp [Fleet.shares, Side.shares, sharedMemory, Nat.add_comm]

variable {C T}

/-- **The shares of `headless_multi`.**  In every run of the producer and the `k` consumers that the
function returns, however their calls and their drops are interleaved, the strong count is the
number of handles that hold their share, and a handle that is about to act still holds its own, so
that the channel exists.  After the drop of all handles no share is left; then, as with a pair,
zeroed memory has been dropped, and every value that was popped once more by the channel. -/
theorem multi_shares {k : ℕ} (hk : k ≤ 64)
    {s : Fleet (headlessProducer C T) (headlessConsumer C T) k}
    (h : FleetReach C.w C.N (multi C T k) s) :
    s.ch.strong = s.shares ∧
      (∀ whole a m, s.producer.doing = .busy whole (.act a m) →
        s.producer.shares = 1 ∧ 0 < s.ch.strong) ∧
      (∀ i whole a m, (s.consumer i).doing = .busy whole (.act a m) →
        (s.consumer i).shares = 1 ∧ 0 < s.ch.strong) ∧
      (s.Dropped → s.ch.strong = 0 ∧ none ∈ s.ledger.dropped ∧
        ∀ v ∈ s.ledger.handed, v ∈ s.ledger.dropped) := by
  have hpow : 2 ^ 16 ≤ 2 ^ C.w := Nat.pow_le_pow_right (by decide) C.wide
  have I := (multi_invariant C T hk).run (headlessProducer_conforms C T)
    (headlessConsumer_conforms C T) C.pos (by omega) h
  refine ⟨I.strong, fun whole a m he => ?_, fun i whole a m he => ?_, fun hd => ?_⟩
  · have hact := shares_of_act I.producer he
    refine ⟨hact, ?_⟩
    rw [I.strong, Fleet.shares]
    omega
  · have hact := shares_of_act (I.consumer i) he
    have hle := Finset.single_le_sum (f := fun j => (s.consumer j).shares)
      (fun j _ => Nat.zero_le _) (Finset.mem_univ i)
    refine ⟨hact, ?_⟩
    rw [I.strong, Fleet.shares]
    omega
  · obtain ⟨hvacant, hhanded⟩ := I.dropped hd
    exact ⟨I.strong.trans (I.shares_of_dropped hd), hvacant, hhanded⟩

/-- Two consumers: a value is pushed, the first consumer pops it, and all three handles are
dropped. -/
def poppedOnce : List (FleetMove (headlessProducer InProcess.small ℕ)
    (headlessConsumer InProcess.small ℕ) 2) :=
  Fleet.producerRuns (HeadlessProducerCall.push 7) 6 ++
    Fleet.producerRuns HeadlessProducerCall.sync 4 ++
    Fleet.producerRuns HeadlessProducerCall.drop 2 ++
    Fleet.consumerRuns 0 HeadlessConsumerCall.pop 7 ++
    Fleet.consumerRuns 1 HeadlessConsumerCall.drop 2 ++
    Fleet.consumerRuns 0 HeadlessConsumerCall.drop 2

theorem multi_shares_small :
    ∃ s : Fleet (headlessProducer InProcess.small ℕ) (headlessConsumer InProcess.small ℕ) 2,
    FleetReach 64 2 (multi InProcess.small ℕ 2) s ∧ s.Dropped ∧ s.ledger.handed = [some 7] ∧
    s.ch.strong = 0 ∧ none ∈ s.ledger.dropped ∧ ∀ v ∈ s.ledger.handed, v ∈ s.ledger.dropped := by
  have h : ((multi InProcess.small ℕ 2).moves 64 2 poppedOnce).map (fun s =>
      ((s.producer.doing.status : Option Headless.ProducerStatus),
        ((s.consumer 0).doing.status : Option Headless.ConsumerStatus),
        ((s.consumer 1).doing.status : Option Headless.ConsumerStatus), s.ledger.handed)) =
      some (some .gone, some .gone, some .gone, [some 7]) := by
    decide +kernel
  obtain ⟨s, hs, hr⟩ := Option.map_eq_some_iff.mp h
  have hd : s.Dropped := by
    refine ⟨congrArg Prod.fst hr, fun i => ?_⟩
    obtain rfl | rfl : i = 0 ∨ i = 1 := by omega
    · exact congrArg (fun x => x.2.1) hr
    · exact congrArg (fun x => x.2.2.1) hr
  have hreach := Fleet.moves_reach hs
  exact ⟨s, hreach, hd, congrArg (fun x => x.2.2.2) hr,
    (multi_shares (C := InProcess.small) (by decide) hreach).2.2.2 hd⟩

end result

end Que.Ownership
