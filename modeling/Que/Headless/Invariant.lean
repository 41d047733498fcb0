import Que.Headless.ProducerSafe
import Que.Headless.ConsumerSafe

/-! # No torn and no overwritten read

`Invariant P f s` combines the verified sides for a session that began at the tail `f`; one step
keeps it (`Invariant.step`), so every run does.  The result is `no_torn_read`: whatever a consumer
popped is, word for word, the element published at its cursor. -/

namespace Que.Headless

open Lib

variable {W : Type} {K : ℕ} {P : Params} {f : ℕ}

/-- The producer's thread is safe. -/
def ProducerFine (P : Params) (f : ℕ) : ProducerThread W K → ProducerView W K → Prop
  | .rest st, v => ProducerRest P st v
  | .busy start op code, v => Safe (producerContract P f) code (ProducerPost P op start) v

/-- A value that `pop` returns at the cursor `h` is the published one. -/
def Honest (f h : ℕ) (r : ConsumerResult W K) (v : ConsumerView W K) : Prop :=
  ∀ st x, r = .done (st, some x) → h < v.ch.tail ∧ (f ≤ h → v.published h = some x)

/-- A consumer's thread is safe, and the values it returns are the published ones. -/
def ConsumerFine (P : Params) (f : ℕ) : ConsumerThread W K → ConsumerView W K → Prop
  | .rest _, _ => True
  | .busy start op code, v =>
      Safe (consumerContract P f (fun _ => False) (fun _ => True) op.isJoin
        (moves (fun _ _ => True) op)) code (Honest f start.head) v

structure Invariant (P : Params) (f : ℕ) (s : State W K) : Prop where
  base : Base P f s.ch s.published
  producer : ProducerFine P f s.producer s.producerView
  consumer : ∀ i, ConsumerFine P f (s.consumer i) (s.consumerView i)
  popped : ∀ i, ∀ x ∈ (s.trace i).popped, f ≤ x.1 → s.published x.1 = some x.2
  all : ∀ p ∈ s.all, p < s.ch.tail

theorem ProducerFine.stable {t : ProducerThread W K} {v u : ProducerView W K}
    (h : ProducerFine P f t v) (hr : ProducerRely v u) : ProducerFine P f t u := by
  cases t with
  | rest st => exact ProducerRest.stable h hr
  | busy start op code => exact Safe.stable h hr

theorem ConsumerFine.stable {t : ConsumerThread W K} {v u : ConsumerView W K}
    (h : ConsumerFine P f t v) (hr : ConsumerRely (fun _ => False) v u) : ConsumerFine P f t u := by
  cases t with
  | rest st => trivial
  | busy start op code => exact Safe.stable h hr

theorem ConsumerFine.returned {start : Consumer} {op : ConsumerOp} {st : ConsumerStatus}
    {x : Vector W K} {v : ConsumerView W K}
    (h : ConsumerFine P f (.busy start op (.ret (.done (st, some x)))) v) :
    start.head < v.ch.tail ∧ (f ≤ start.head → v.published start.head = some x) :=
  h v ⟨rfl, rfl, .of_quiet (.refl _), fun _ h _ => h⟩ st x rfl

/-- The code of every call makes a fine thread. -/
theorem ConsumerFine.of_code {op : ConsumerOp} {st : ConsumerStatus} (hen : op.enabled st = true)
    (v : ConsumerView W K) : ConsumerFine P f (.busy v.cursor op (op.code P)) v := by
  apply (op.code_safe hen (fun _ _ => trivial) fun _ _ _ _ _ _ _ _ => trivial).mono
  intro r u hpost st x hr
  cases op with
  | join index consumers =>
      rcases hpost with h | ⟨h, _⟩ <;> rw [h] at hr <;> cases hr
  | pop => exact ⟨Popped.head_lt hpost hr, Popped.value hpost st x hr⟩
  | beat => rw [hpost.1] at hr; cases hr
  | producerHeartbeat => rw [hpost.1] at hr; cases hr
  | drop => rw [show r = _ from hpost] at hr; cases hr

theorem ConsumerOp.exists_enabled (op : ConsumerOp) : ∃ st, op.enabled st = true := by
  cases op with
  | join index consumers => exact ⟨.gone, rfl⟩
  | _ => exact ⟨.ready, rfl⟩

theorem Trace.mem_popped_after {t : Trace W K} {join : Bool} {a : Act Consumer W} {ch : Channel W}
    {c : Consumer} {x : ℕ × Vector W K} (h : x ∈ (t.after join a ch c).popped) : x ∈ t.popped := by
  unfold Trace.after at h
  split at h
  · split_ifs at h
    · cases h
    · exact h
  · exact h

namespace Invariant
variable {s t : State W K}

/-- Replacing the thread of one consumer. -/
theorem consumer_update (I : Invariant P f s) (i : ℕ) {th : ConsumerThread W K}
    (h : ConsumerFine P f th (s.consumerView i)) (j : ℕ) :
    ConsumerFine P f (Function.update s.consumer i th j) (s.consumerView j) := by
  rcases Decidable.em (j = i) with rfl | hne
  · rw [Function.update_self]
    exact h
  · rw [Function.update_of_ne hne]
    exact I.consumer j

/-- **One step keeps the invariant.** -/
theorem step (I : Invariant P f s) (h : Step P s t) : Invariant P f t := by
  cases h with
  | producerCall op hp hen hlt =>
      have hf := I.producer
      rw [hp] at hf
      exact ⟨I.base, op.code_safe hf hen hlt, I.consumer, I.popped, I.all⟩
  | producerAct hp =>
      have hf := I.producer
      rw [hp] at hf
      obtain ⟨hg, hk⟩ := Safe.own hf I.base
      refine ⟨hg.base, hk, fun i => (I.consumer i).stable ⟨rfl, rfl, hg.change, fun _ h _ => h⟩,
        fun i x hx hfx => hg.change.kept _ _ (I.popped i x hx hfx), fun p hp => ?_⟩
      exact (I.all p hp).trans_le hg.change.tail_le
  | producerReturn hp =>
      have hf := I.producer
      rw [hp] at hf
      have hpost := Safe.done hf
      exact ⟨I.base, hpost, I.consumer, I.popped, I.all⟩
  | producerStop => exact ⟨I.base, trivial, I.consumer, I.popped, I.all⟩
  | consumerCall i op hc hen =>
      exact ⟨I.base, I.producer, I.consumer_update i (.of_code hen (s.consumerView i)), I.popped,
        I.all⟩
  | @consumerAct i start op a k hc =>
      have hf := I.consumer i
      rw [hc] at hf
      obtain ⟨hg, hk⟩ := Safe.own hf ⟨I.base, I.all, fun _ _ => trivial⟩
      refine ⟨I.base.quiet hg.quiet, I.producer.stable ⟨rfl, rfl, rfl, hg.quiet⟩, fun j => ?_,
        fun j x hx hfx => ?_, fun p hp => (I.all p hp).trans_eq hg.quiet.tail.symm⟩
      · rcases Decidable.em (j = i) with rfl | hne
        · simp only [State.consumerDoes, State.consumerView, Function.update_self]
          exact hk
        · simp only [State.consumerDoes, State.consumerView, Function.update_of_ne hne]
          exact (I.consumer j).stable ⟨rfl, rfl, .of_quiet hg.quiet, fun _ h _ => h⟩
      · refine I.popped j x ?_ hfx
        rcases Decidable.em (j = i) with rfl | hne
        · simp only [State.consumerDoes, Function.update_self] at hx
          exact Trace.mem_popped_after hx
        · simpa only [State.consumerDoes, Function.update_of_ne hne] using hx
  | @consumerAgain i start op hc =>
      obtain ⟨st, hen⟩ := op.exists_enabled
      exact ⟨I.base, I.producer, I.consumer_update i (.of_code hen (s.consumerView i)), I.popped,
        I.all⟩
  | @consumerReturn i start op st value hc =>
      have hf := I.consumer i
      rw [hc] at hf
      refine ⟨I.base, I.producer, fun j => ?_, fun j x hx hfx => ?_, fun p hp => ?_⟩
      · rcases Decidable.em (j = i) with rfl | hne
        · simp only [State.consumerGets, Function.update_self]
          trivial
        · simp only [State.consumerGets, State.consumerView, Function.update_of_ne hne]
          exact (I.consumer j).stable ⟨rfl, rfl, .of_quiet (.refl _), fun _ _ hm => hm.elim⟩
      · rcases Decidable.em (j = i) with rfl | hne
        · simp only [State.consumerGets, Function.update_self, List.mem_append, List.mem_map] at hx
          rcases hx with hx | ⟨v, hv, rfl⟩
          · exact I.popped j x hx hfx
          · rw [Option.mem_toList] at hv
            rw [hv] at hf
            exact hf.returned.2 hfx
        · simp only [State.consumerGets, Function.update_of_ne hne] at hx
          exact I.popped j x hx hfx
      · simp only [State.consumerGets, List.mem_append, List.mem_map] at hp
        rcases hp with hp | ⟨v, hv, rfl⟩
        · exact I.all p hp
        · rw [Option.mem_toList] at hv
          rw [hv] at hf
          exact hf.returned.1
  | consumerStop i => exact ⟨I.base, I.producer, I.consumer_update i trivial, I.popped, I.all⟩

/-- **A run keeps the invariant.** -/
theorem run (I : Invariant P f s) (h : Reach P s t) : Invariant P f t := by
  induction h with
  | refl => exact I
  | tail _ hstep ih => exact ih.step hstep

/-- A session begins on any initialised channel. -/
theorem opened {ch : Channel W} (hm : ch.magic = MAGIC) (hc : ch.capacity = P.N)
    (ht : ch.tail < P.limit) : Invariant P ch.tail (State.opened ch : State W K) := by
  refine ⟨⟨hm, hc, le_rfl, ht, fun _ _ => rfl, fun q h0 h1 => absurd h1 (Nat.not_lt.mpr h0)⟩,
    trivial,
    fun _ => trivial, fun i x hx => ?_, fun p hp => ?_⟩
  · simp [State.opened] at hx
  · simp [State.opened] at hp

end Invariant

/-! ### The freshly initialised channel -/

/-- What the constructors leave behind when the magic is zero. -/
structure Fresh (P : Params) (m : Channel W) (s : State W K) : Prop where
  tail : s.ch.tail = 0
  head : s.ch.head = m.head
  magic : s.ch.magic = MAGIC
  capacity : s.ch.capacity = P.N
  producer : s.producer = .rest .ready
  own : s.own = ⟨0, 0, 0⟩

theorem initial_fresh {op : ProducerOp W K} (hop : op.initialises = true) {m : Channel W}
    (hm : m.magic = 0) : Fresh P m (State.initial P op m) := by
  have hz : ¬ (0 = MAGIC) := fun h => MAGIC_ne_zero h.symm
  have hmode : P.mode = .shmem ∨ P.mode = .local := by cases P.mode <;> simp
  cases op with
  | joinOrInitializeIn =>
      rcases hmode with e | e <;> constructor <;>
        simp [State.initial, State.opened, ProducerOp.code, joinOrInitializeIn, P.valid,
          incrementStrongCount, Mode.backedByArcc, e, Channel.get, Channel.set, hm, hz,
          ProducerOp.install]
  | joinOrCreateShmem =>
      constructor <;>
        simp [State.initial, State.opened, ProducerOp.code, joinOrCreateShmem, Channel.get,
          Channel.set, hm, hz, ProducerOp.install]
  | _ => cases hop

theorem initial_invariant {op : ProducerOp W K} (hop : op.initialises = true) {m : Channel W}
    (hm : m.magic = 0) : Invariant P 0 (State.initial P op m) := by
  have F := initial_fresh (P := P) hop hm
  refine ⟨⟨F.magic, F.capacity, Nat.zero_le _, ?_, fun _ _ => rfl, fun q _ h => ?_⟩, ?_,
    fun _ => trivial, fun i x hx => ?_, fun p hp => ?_⟩
  · rw [F.tail]
    exact P.limit_pos
  · rw [F.tail] at h
    omega
  · rw [F.producer]
    have hlt := P.limit_pos
    refine ⟨⟨rfl, ?_, ?_, ?_, ?_, ?_⟩, ?_⟩ <;> simp [State.producerView, F.own, F.tail, hlt]
  · simp [State.initial, State.opened] at hx
  · simp [State.initial, State.opened] at hp

/-- **No torn and no overwritten read.**  In every run, whatever a consumer has popped with its
cursor at `h` is, word for word, the element that was published at position `h`. -/
theorem no_torn_read (P : Params) {op : ProducerOp W K} (hop : op.initialises = true)
    {m : Channel W} (hm : m.magic = 0) {s : State W K} (h : Reach P (State.initial P op m) s)
    (i : ℕ) : ∀ x ∈ (s.trace i).popped, s.published x.1 = some x.2 ∧ x.1 < s.ch.tail := by
  have I := (initial_invariant (P := P) hop hm).run h
  intro x hx
  have hp := I.popped i x hx (Nat.zero_le _)
  refine ⟨hp, ?_⟩
  by_contra hge
  rw [I.base.beyond _ (Nat.not_lt.mp hge)] at hp
  cases hp

/-- The consumer reads the two words of an element while the producer is writing the next one. -/
theorem no_torn_read_small : ∃ s : State ℕ 2,
    Reach Params.small (State.initial Params.small .joinOrInitializeIn (Channel.zeroed 0)) s ∧
    (s.trace 0).popped = [(0, #v[1, 2])] ∧ s.published 0 = some #v[1, 2] := by
  have h : ((State.initial Params.small .joinOrInitializeIn (Channel.zeroed 0)).moves Params.small
      (consumerRuns 0 (.join 0 1) 6 ++ producerRuns (.push #v[1, 2]) 7 ++ producerRuns .sync 4 ++
        consumerRuns 0 .pop 3 ++ producerRuns (.push #v[3, 4]) 3 ++
        List.replicate 5 (.consumerGo 0))).map (fun s => (s.trace 0).popped) =
      some [(0, #v[1, 2])] := by
    decide +kernel
  obtain ⟨s, hs, hr⟩ := Option.map_eq_some_iff.mp h
  refine ⟨s, State.moves_reach hs, hr, ?_⟩
  exact (no_torn_read _ rfl rfl (State.moves_reach hs) 0 (0, #v[1, 2]) (by simp [hr])).1

end Que.Headless
