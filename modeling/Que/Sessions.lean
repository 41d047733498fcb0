import Que.Lossless.Fifo
import Que.Headless.Invariant

/-! # Sessions with and without backpressure on one buffer

Both flavours use the same `Channel`, so a buffer can be used headless in one session and
lossless in the next.  This module runs the two systems on one memory: a `Session` is a state of
either of them, and when all endpoints are gone the next session begins, of either flavour, on
the memory that the last one left behind.

Headless consumers never store the head, so a headless session can leave any distance between
head and tail.  A lossless producer that joins then is in order only if it finds at most `N`
positions between them (`Roomy`), for instance because the lossless consumer, whose join moves
the head to the tail, came first.  `lossless_session_safe` is the result for all histories whose
lossless producers find this; `not_lossless_session_safe` is a history in which one does not. -/

namespace Que.Sessions

open Lib

variable {V : Type} {C : Config}

/-! ### Histories -/

/-- The state of the session that is running. -/
inductive Session (V : Type) where
  | lossless (s : Lossless.State V)
  | headless (s : Headless.State V 1)

/-- A lossless session that begins on the memory `ch`, with no endpoint joined. -/
def losslessOpened (ch : Channel V) : Lossless.State V :=
  { ch := ch
    producer := .rest .gone
    handle := ⟨⟨0, 0, 0⟩, ⟨0, 0, 0, false⟩⟩
    consumer := .rest .gone
    cursor := ⟨0, 0, 0⟩
    wrote := fun _ => none
    published := fun _ => none
    joinedAt := 0
    received := [] }

namespace Session

/-- The buffer. -/
def ch : Session V → Channel V
  | lossless s => s.ch
  | headless s => s.ch

/-- All endpoints are gone. -/
def Ended : Session V → Prop
  | lossless s => s.producer = .rest .gone ∧ s.consumer = .rest .gone
  | headless s => s.producer = .rest .gone ∧ ∀ i, s.consumer i = .rest .gone

end Session

/-- One step of a history: a step of the running session, or the beginning of the next one. -/
inductive Step (C : Config) : Session V → Session V → Prop
  | lossless {s t : Lossless.State V} : Lossless.Step C s t → Step C (.lossless s) (.lossless t)
  | headless {s t : Headless.State V 1} :
      Headless.Step (.ofConfig C) s t → Step C (.headless s) (.headless t)
  | toLossless {s : Session V} : s.Ended → Step C s (.lossless (losslessOpened s.ch))
  | toHeadless {s : Session V} : s.Ended → Step C s (.headless (Headless.State.opened s.ch))

abbrev Reach (C : Config) : Session V → Session V → Prop := Relation.ReflTransGen (Step C)

/-- If the step is a lossless producer's load of the tail in its constructor, it finds at most `N`
positions between head and tail. -/
def Roomy (C : Config) : Session V → Session V → Prop
  | .lossless s, .lossless t => Lossless.Roomy C s t
  | _, _ => True

/-- A history in which lossless producers find the free space not negative. -/
abbrev RoomyReach (C : Config) : Session V → Session V → Prop :=
  Relation.ReflTransGen fun s t => Step C s t ∧ Roomy C s t

/-! ### The invariant of a history -/

/-- An initialised buffer. -/
structure Initialised (C : Config) (ch : Channel V) : Prop where
  magic : ch.magic = MAGIC
  capacity : ch.capacity = C.N
  head_le : ch.head ≤ ch.tail
  tail_lt : ch.tail < 2 ^ C.w

theorem initialised_of_lossless {op : Lossless.ProducerOp V} (hop : op.initialises = true) (z : V) :
    Initialised C (Lossless.State.initial C op (Channel.zeroed z)).ch := by
  have S := Lossless.initial_sound (C := C) hop (m := Channel.zeroed z) rfl rfl
  exact ⟨S.base.magic, S.base.capacity, S.base.head_le, S.base.tail_lt⟩

theorem losslessOpened_invariant {ch : Channel V} (h : Initialised C ch) :
    Lossless.Invariant C (losslessOpened ch) :=
  ⟨⟨h.magic, h.capacity, h.head_le, h.tail_lt, fun _ _ => rfl⟩, trivial, trivial,
    fun i x hi => by simp [losslessOpened] at hi, fun hst => absurd rfl hst⟩

/-- The invariant of the running session; a headless session keeps the head behind the tail. -/
def Invariant (C : Config) : Session V → Prop
  | .lossless s => Lossless.Invariant C s
  | .headless s => (∃ f, Headless.Invariant (.ofConfig C) f s) ∧ s.ch.head ≤ s.ch.tail

theorem Invariant.initialised {s : Session V} (I : Invariant C s) : Initialised C s.ch := by
  cases s with
  | lossless s =>
      have hb := Lossless.Invariant.base I
      exact ⟨hb.magic, hb.capacity, hb.head_le, hb.tail_lt⟩
  | headless s =>
      obtain ⟨⟨f, hf⟩, hle⟩ := I
      exact ⟨hf.base.magic, hf.base.capacity, hle, hf.base.tail_lt⟩

theorem Invariant.opened {ch : Channel V} (h : Initialised C ch) :
    Invariant C (.lossless (losslessOpened ch)) ∧
    Invariant C (.headless (Headless.State.opened ch)) :=
  ⟨losslessOpened_invariant h,
    ⟨⟨_, Headless.Invariant.opened (P := .ofConfig C) h.magic h.capacity h.tail_lt⟩, h.head_le⟩⟩

/-- A step of a headless session leaves the head alone and moves the tail only forward. -/
theorem headless_step_header {P : Headless.Params} {f : ℕ} {s t : Headless.State V 1}
    (I : Headless.Invariant P f s) (h : Headless.Step P s t) :
    t.ch.head = s.ch.head ∧ s.ch.tail ≤ t.ch.tail := by
  cases h with
  | producerAct hp =>
      have hf := I.producer
      rw [hp] at hf
      have hc := (Safe.own hf I.base).1.change
      exact ⟨hc.head, hc.tail_le⟩
  | @consumerAct i start op a k hc =>
      have hf := I.consumer i
      rw [hc] at hf
      have hq := (Safe.own hf ⟨I.base, I.all, fun _ _ => trivial⟩).1.quiet
      exact ⟨hq.head, hq.tail.ge⟩
  | _ => exact ⟨rfl, le_rfl⟩

theorem Invariant.step {s t : Session V} (I : Invariant C s) (hr : Roomy C s t)
    (h : Step C s t) : Invariant C t := by
  cases h with
  | lossless h => exact Lossless.Invariant.step I hr h
  | headless h =>
      obtain ⟨⟨f, hf⟩, hle⟩ := I
      obtain ⟨h1, h2⟩ := headless_step_header hf h
      exact ⟨⟨f, hf.step h⟩, (h1.trans_le hle).trans h2⟩
  | toLossless _ => exact (Invariant.opened I.initialised).1
  | toHeadless _ => exact (Invariant.opened I.initialised).2

theorem Invariant.run {s t : Session V} (I : Invariant C s) (h : RoomyReach C s t) :
    Invariant C t := by
  induction h with
  | refl => exact I
  | tail _ hstep ih => exact ih.step hstep.2 hstep.1

/-! ### Lossless sessions -/

/-- What a lossless session promises: the ring inequality once the producer has joined, free
space that can be computed without underflow, no write to an element that the consumer has not
popped, and delivery of everything published after the consumer's join, in order. -/
structure LosslessSafe (C : Config) (s : Lossless.State V) : Prop where
  ring : s.producerJoined = true → s.ch.head ≤ s.producerTail ∧ s.producerTail ≤ s.ch.head + C.N
  freeSpace : s.producerJoined = true → s.producerTail - s.ch.head ≤ C.N ∧
    wsub C.w C.N (wsub C.w s.producerTail s.ch.head) = C.N - (s.producerTail - s.ch.head)
  exclusion : ∀ i, s.writing = some i →
    (∀ q, s.consumerHead ≤ q → q < s.producerTail → slot C.N q ≠ i) ∧ s.holding ≠ some i
  delivered : Lossless.Delivered C s

theorem losslessSafe_of_invariant {s : Lossless.State V} (I : Lossless.Invariant C s) :
    LosslessSafe C s := by
  have ring : s.producerJoined = true →
      s.ch.head ≤ s.producerTail ∧ s.producerTail ≤ s.ch.head + C.N :=
    fun hj => ⟨I.base.head_le.trans (I.producerTail_bounds hj).1, (I.producerTail_bounds hj).2⟩
  refine ⟨ring, fun hj => ?_, fun i hw => I.exclusion hw, I.delivered⟩
  obtain ⟨h1, h2⟩ := ring hj
  have hfits := C.fits
  have hd : s.producerTail - s.ch.head ≤ C.N := by omega
  rw [wsub_of_sub_lt h1 (hd.trans_lt hfits), wsub_of_le hd hfits]
  exact ⟨hd, rfl⟩

/-- **Lossless sessions are safe in every history whose lossless producers find room.**  The
history begins with a session of either flavour on an initialised buffer and alternates between
the flavours in any way. -/
theorem lossless_session_safe {ch : Channel V} (hch : Initialised C ch) {s₀ : Session V}
    (h₀ : s₀ = .lossless (losslessOpened ch) ∨ s₀ = .headless (Headless.State.opened ch))
    {s : Lossless.State V} (h : RoomyReach C s₀ (.lossless s)) : LosslessSafe C s := by
  have I₀ : Invariant C s₀ := by
    rcases h₀ with rfl | rfl
    · exact (Invariant.opened hch).1
    · exact (Invariant.opened hch).2
  exact losslessSafe_of_invariant (I₀.run h)

/-! ### Two histories -/

/-- The moves of a headless producer. -/
def ofProducer : Headless.Move V 1 → Bool
  | .producerCall _ | .producerGo | .producerStop => true
  | _ => false

theorem consumer_of_producer_move {P : Headless.Params} {m : Headless.Move V 1}
    {s t : Headless.State V 1} (hm : ofProducer m = true) (h : s.move P m = some t) :
    t.consumer = s.consumer := by
  cases m with
  | producerCall op =>
      cases hp : s.producer with
      | rest st =>
          simp only [Headless.State.move, hp] at h
          split_ifs at h
          cases h
          rfl
      | busy start op' code => simp [Headless.State.move, hp] at h
  | producerGo =>
      cases hp : s.producer with
      | rest st => simp [Headless.State.move, hp] at h
      | busy start op code =>
          cases code <;> simp only [Headless.State.move, hp, Option.some.injEq] at h <;>
            exact h ▸ rfl
  | producerStop =>
      cases h
      rfl
  | consumerCall | consumerGo | consumerStop => cases hm

theorem consumer_of_producer_moves {P : Headless.Params} {ms : List (Headless.Move V 1)}
    {s t : Headless.State V 1} (hms : ms.all ofProducer = true) (h : s.moves P ms = some t) :
    t.consumer = s.consumer := by
  induction ms generalizing s with
  | nil =>
      cases h
      rfl
  | cons m ms ih =>
      rw [List.all_cons, Bool.and_eq_true] at hms
      obtain ⟨u, hu, ht⟩ := Option.bind_eq_some_iff.mp h
      rw [ih hms.2 ht, consumer_of_producer_move hms.1 hu]

theorem roomyReach_of_headless {s t : Headless.State V 1} (h : Headless.Reach (.ofConfig C) s t) :
    RoomyReach C (.headless s) (.headless t) := by
  induction h with
  | refl => exact .refl
  | tail _ hstep ih => exact ih.tail ⟨.headless hstep, trivial⟩

/-- A headless producer runs alone and is lost; then a lossless session begins. -/
theorem roomyReach_of_moves {ch : Channel V} {ms : List (Headless.Move V 1)}
    {s : Headless.State V 1} (hms : ms.all ofProducer = true)
    (h : (Headless.State.opened ch).moves (.ofConfig C) ms = some s) :
    RoomyReach C (.headless (Headless.State.opened ch)) (.lossless (losslessOpened s.ch)) := by
  have run : RoomyReach C (.headless (Headless.State.opened ch)) (.headless s) :=
    roomyReach_of_headless (Headless.State.moves_reach h)
  refine (run.tail ⟨.headless .producerStop, trivial⟩).tail
    ⟨.toLossless ⟨rfl, fun i => ?_⟩, trivial⟩
  rw [show ({ s with producer := .rest .gone } : Headless.State V 1).consumer = s.consumer from rfl,
    consumer_of_producer_moves hms h]
  rfl

/-- The producer's next action is the load of the tail, and more than `N` positions lie between head
and tail. -/
def crowded (C : Config) (s : Lossless.State V) : Bool :=
  match s.producer with
  | .busy _ _ (.act (.load .tail) _) => decide (s.ch.head + C.N < s.ch.tail)
  | _ => false

/-- The state after a schedule in which no producer loads the tail where that is too far ahead. -/
def roomyMoves (C : Config) (s : Lossless.State V) :
    List (Lossless.Move V) → Option (Lossless.State V)
  | [] => some s
  | .producerGo :: ms =>
      if crowded C s then none else (s.move C .producerGo).bind fun t => roomyMoves C t ms
  | m :: ms => (s.move C m).bind fun t => roomyMoves C t ms

/-- Only a step of the producer itself loads the tail in its constructor. -/
theorem roomy_of_move {s t : Lossless.State V} {m : Lossless.Move V} (h : s.move C m = some t)
    (hm : m = .producerGo → crowded C s = false) : Lossless.Roomy C s t := by
  rintro ⟨start, op, k, hp, ht⟩
  have hload : t.producer = .busy start op (k s.ch.tail) := by
    rw [ht]
    rfl
  have hself : t.producer ≠ s.producer := by
    rw [hload, hp]
    intro e
    injection e with _ _ e
    exact Prog.act_ne _ k s.ch.tail e.symm
  cases m with
  | producerGo =>
      have hroom := hm rfl
      simp only [crowded, hp, decide_eq_false_iff_not] at hroom
      omega
  | producerCall op' => simp [Lossless.State.move, hp] at h
  | producerStop =>
      cases h
      cases hload
  | consumerCall op' =>
      refine absurd ?_ hself
      simp only [Lossless.State.move] at h
      split at h
      · split_ifs at h
        cases h
        rfl
      · cases h
  | consumerGo =>
      refine absurd ?_ hself
      simp only [Lossless.State.move] at h
      split at h <;> cases h <;> rfl
  | consumerStop =>
      cases h
      exact absurd rfl hself

theorem roomyReach_of_roomyMoves {ms : List (Lossless.Move V)} {s t : Lossless.State V}
    (h : roomyMoves C s ms = some t) : RoomyReach C (.lossless s) (.lossless t) := by
  induction ms generalizing s with
  | nil =>
      cases h
      exact .refl
  | cons m ms ih =>
      obtain ⟨u, hu, hroom, ht⟩ : ∃ u, s.move C m = some u ∧
          (m = .producerGo → crowded C s = false) ∧ roomyMoves C u ms = some t := by
        cases m with
        | producerGo =>
            simp only [roomyMoves] at h
            split_ifs at h with hc
            obtain ⟨u, hu, ht⟩ := Option.bind_eq_some_iff.mp h
            exact ⟨u, hu, fun _ => by simpa using hc, ht⟩
        | _ =>
            obtain ⟨u, hu, ht⟩ := Option.bind_eq_some_iff.mp h
            exact ⟨u, hu, nofun, ht⟩
      exact .head ⟨.lossless (Lossless.State.move_step hu), roomy_of_move hu hroom⟩ (ih ht)

theorem reach_of_roomyReach {s t : Session V} (h : RoomyReach C s t) : Reach C s t := by
  induction h with
  | refl => exact .refl
  | tail _ hstep ih => exact ih.tail hstep.1

theorem reach_of_lossless {s t : Lossless.State V} (h : Lossless.Reach C s t) :
    Reach C (.lossless s) (.lossless t) := by
  induction h with
  | refl => exact .refl
  | tail _ hstep ih => exact ih.tail (.lossless hstep)

/-- A headless producer joins, pushes three elements and publishes them. -/
def threePublished : List (Headless.Move ℕ 1) :=
  Headless.producerRuns .join 7 ++
    ([(1, 6), (2, 9), (3, 9)].flatMap fun (value, steps) =>
      Headless.producerRuns (.push (.replicate 1 value)) steps) ++
    Headless.producerRuns .sync 4

/-- A buffer of two slots as the initialisation of zeroed memory leaves it. -/
def freshBuffer : Channel ℕ :=
  (Lossless.State.initial Config.small .joinOrInitializeIn (Channel.zeroed 0)).ch

/-- Three elements published headless, into a ring of two.  The lossless producer is about to load
the tail when the consumer joins and moves the head up to it; then the producer loads it, and the
consumer pops what the producer pushes. -/
theorem lossless_session_safe_small : ∃ u : Headless.State ℕ 1, ∃ s : Lossless.State ℕ,
    RoomyReach Config.small (.headless (Headless.State.opened freshBuffer))
      (.lossless (losslessOpened u.ch)) ∧
    u.ch.tail = 3 ∧ u.ch.head = 0 ∧
    RoomyReach Config.small (.lossless (losslessOpened u.ch)) (.lossless s) ∧
    s.received = [7] ∧ s.producerTail = 4 ∧ LosslessSafe Config.small s := by
  have h : (((Headless.State.opened freshBuffer).moves (.ofConfig Config.small)
      threePublished).bind fun u =>
      (roomyMoves Config.small (losslessOpened u.ch) (Lossless.producerRuns .join 3 ++
        Lossless.consumerRuns .join 8 ++ List.replicate 4 .producerGo ++
        Lossless.producerRuns (.push 7) 6 ++ Lossless.producerRuns .sync 4 ++
        Lossless.consumerRuns .pop 10)).map
      fun s => (u.ch.tail, u.ch.head, s.received, s.producerTail)) = some (3, 0, [7], 4) := by
    decide +kernel
  obtain ⟨u, hu, hs⟩ := Option.bind_eq_some_iff.mp h
  obtain ⟨s, hs, hr⟩ := Option.map_eq_some_iff.mp hs
  obtain ⟨htail, hhead, hr, hown⟩ : u.ch.tail = 3 ∧ u.ch.head = 0 ∧ s.received = [7] ∧
      s.producerTail = 4 := by
    simpa using hr
  have first := roomyReach_of_moves (C := Config.small) rfl hu
  have run := roomyReach_of_roomyMoves hs
  exact ⟨u, s, first, htail, hhead, run, hr, hown,
    lossless_session_safe (initialised_of_lossless rfl 0) (.inr rfl) (first.trans run)⟩

/-- After a headless session that published three elements, a lossless producer joins first: its
tail is three slots ahead of the head, in a ring of two. -/
theorem not_lossless_session_safe : ¬ ∀ s : Lossless.State ℕ,
    Reach Config.small (.headless (Headless.State.opened freshBuffer)) (.lossless s) →
    LosslessSafe Config.small s := by
  have h : (((Headless.State.opened freshBuffer).moves (.ofConfig Config.small)
      threePublished).bind fun u =>
      ((losslessOpened u.ch).moves Config.small (Lossless.producerRuns .join 7)).map
      fun s => (s.producerJoined, s.producerTail, s.ch.head)) = some (true, 3, 0) := by
    decide +kernel
  obtain ⟨u, hu, hs⟩ := Option.bind_eq_some_iff.mp h
  obtain ⟨s, hs, hr⟩ := Option.map_eq_some_iff.mp hs
  obtain ⟨hj, htail, hhead⟩ : s.producerJoined = true ∧ s.producerTail = 3 ∧ s.ch.head = 0 := by
    simpa using hr
  have first := reach_of_roomyReach (roomyReach_of_moves (C := Config.small) rfl hu)
  intro hall
  have := (hall s (first.trans (reach_of_lossless (Lossless.State.moves_reach hs)))).ring hj
  rw [htail, hhead] at this
  exact absurd this.2 (by decide)

end Que.Sessions
