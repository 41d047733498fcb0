import Que.Lossless.Alike
import Que.Lossless.Calls

/-! # Reservations that are given up

A reservation that is never committed leaves no trace, although its values are already in the
ring: every schedule after it has the same results as without it, and so have the steps that the
consumer takes meanwhile (`abandoned_invisible`).

* `Apart C s s'` relates a state inside such a phase with the state in which the producer has done
  nothing.
* When the reservation has been given up, the two states are `Alike`.

Dropping a `Reservation` runs no code, so it is `cancel`; after the panic of an over-long write the
reservation is dropped as well. -/

namespace Que.Lossless

open Lib

variable {V : Type} {C : Config}

/-! ### The phase -/

namespace Move

/-- The moves of a phase in which the producer opens reservations, writes to them and gives them
up, while the consumer moves as it likes. -/
def abandons : Move V → Bool
  | producerCall op => op.tentative
  | producerGo => true
  | producerStop => false
  | _ => true

end Move

/-- The producer's thread in such a phase; `T` is its local tail. -/
def Abandoning (T : ℕ) : ProducerThread V → Prop
  | .rest st => st ≠ .gone
  | .busy start op code => op.isJoin = false ∧ code.All Harmless (fun r => r.1 ≠ .gone) ∧
      (T ≤ op.position start ∨ code.All (fun _ => True) (fun r => r.2 = []))

/-- A state inside the phase, and the state in which the producer has done nothing. -/
structure Apart (C : Config) (s s' : State V) : Prop extends SameOutside C s s' where
  own : s.handle.producer = s'.handle.producer
  left : Abandoning s.handle.producer.tail s.producer
  right : s'.producer = .rest .ready
  wrote : ∀ p, p < s.handle.producer.tail → s.wrote p = s'.wrote p

theorem Harmless.quiet {a : Act Handle V} (h : Harmless a) (w : ℕ) (ch : Channel V) (hd : Handle) :
    SameHeader (a.step w (ch, hd)).2.1 ch ∧ (a.step w (ch, hd)).2.2.producer = hd.producer ∧
      ∀ wrote published : ℕ → Option V, publish a wrote published = published := by
  cases a with
  | update f => exact ⟨fun _ => rfl, h hd, fun _ _ => rfl⟩
  | assign i v => exact ⟨fun x => by cases x <;> rfl, rfl, fun _ _ => rfl⟩
  | copy i v => exact ⟨fun x => by cases x <;> rfl, rfl, fun _ _ => rfl⟩
  | load x => exact ⟨fun _ => rfl, rfl, fun _ _ => rfl⟩
  | self => exact ⟨fun _ => rfl, rfl, fun _ _ => rfl⟩
  | _ => exact h.elim

section steps
variable {s s' : State V} (A : Apart C s s')
include A

theorem Apart.producerAct (S : Sound C s) {start : Handle} {op : ProducerOp V} {a : Act Handle V}
    {k : a.Ans → Proc Handle V (ProducerStatus × List V)}
    (hp : s.producer = .busy start op (.act a k)) :
    Apart C (s.producerDoes C a fun x => .busy start op (k x)) s' := by
  have hleft := A.left
  rw [hp] at hleft
  obtain ⟨hop, hharm, hplaced⟩ := hleft
  obtain ⟨hheader, hown, hpub⟩ := hharm.1.quiet C.w s.ch s.handle
  have hc := (S.producer_act (fun _ => S.room) hp).1.change
  have htail : (a.step C.w (s.ch, s.handle)).2.2.producer.tail = s.handle.producer.tail := by
    rw [hown]
  refine ⟨⟨⟨fun x => (hheader x).trans (A.channel.header x), fun p h1 h2 => ?_⟩, A.consumer,
    A.cursor, (hpub _ _).trans A.published, A.joinedAt, A.received⟩, hown.trans A.own,
    ⟨hop, hharm.2 _, ?_⟩, A.right, fun p h => ?_⟩
  · have h1 : s.ch.head ≤ p := (hheader .head).symm.trans_le h1
    have h2 : p < s.ch.tail := h2.trans_eq (hheader .tail)
    exact (hc.cells p h1 h2).trans (A.channel.cells p h1 h2)
  · exact hplaced.imp (fun h => htail.trans_le h) fun h => h.2 _
  · exact A.wrote p (h.trans_eq htail)

theorem Apart.producerReturn {start : Handle} {op : ProducerOp V} {r : ProducerStatus × List V}
    (hp : s.producer = .busy start op (.ret r)) :
    Apart C { s with producer := .rest r.1, wrote := wroteAfter op start r.2 s.wrote } s' := by
  have hleft := A.left
  rw [hp] at hleft
  obtain ⟨hop, hharm, hplaced⟩ := hleft
  refine ⟨⟨A.channel, A.consumer, A.cursor, A.published, A.joinedAt, A.received⟩, A.own, hharm,
    A.right, fun p h => ?_⟩
  have hout : ¬ (op.position start ≤ p ∧ p < op.position start + r.2.length) := by
    rcases hplaced with h1 | h1
    · have h : p < s.handle.producer.tail := h
      omega
    · have h1 : r.2 = [] := h1
      rw [h1, List.length_nil]
      omega
  simp only [wroteAfter, hop, Bool.false_eq_true, if_false, record]
  rw [if_neg hout]
  exact A.wrote p h

theorem Apart.producerCall (S : Sound C s) {st : ProducerStatus} {op : ProducerOp V}
    (hp : s.producer = .rest st) (hen : op.enabled st = true) (hop : op.tentative = true) :
    Apart C { s with producer := .busy s.handle op (op.code C) } s' := by
  have hjoin : op.isJoin = false := by cases op <;> first | rfl | cases hop
  refine ⟨⟨A.channel, A.consumer, A.cursor, A.published, A.joinedAt, A.received⟩, A.own,
    ⟨hjoin, op.code_harmless hop, ?_⟩, A.right, A.wrote⟩
  have hf := S.producer
  rw [hp] at hf
  by_cases hst : st = .reserved
  · subst hst
    obtain ⟨_, _, hstart⟩ := hf
    have hstart : s.handle.reservation.startTail = s.handle.producer.tail := hstart
    left
    cases op with
    | push v => cases hop
    | _ => exact hstart.symm.trans_le (Nat.le_add_right _ _)
  · refine .inr (op.code_silent hen hst ?_)
    cases op <;> first | rfl | cases hop

/-- One move of the phase: the producer's moves are left out on the other side. -/
theorem Apart.move (S : Sound C s) {m : Move V} (hm : m.abandons = true) {t : State V}
    (ht : s.move C m = some t) :
    if m.ofConsumer then ∃ t', s'.move C m = some t' ∧ Apart C t t' else Apart C t s' := by
  have consumerMoves : m.ofConsumer = true → ∃ t', s'.move C m = some t' ∧ Apart C t t' := by
    intro hc
    have h := A.toSameOutside.consumerMove S hc
    rw [ht] at h
    generalize hr : s'.move C m = r' at h
    cases h with
    | some h =>
        obtain ⟨h1, u, u'⟩ := h
        refine ⟨_, rfl, h1, ?_, ?_, ?_, fun p hp => ?_⟩
        · rw [u.handle, u'.handle]
          exact A.own
        · rw [u.handle, u.producer]
          exact A.left
        · rw [u'.producer]
          exact A.right
        · rw [u.wrote, u'.wrote]
          rw [u.handle] at hp
          exact A.wrote p hp
  cases m with
  | producerCall op =>
      cases hp : s.producer with
      | rest st =>
          simp only [State.move, hp] at ht
          split_ifs at ht with hc
          cases ht
          exact A.producerCall S hp hc.1 hm
      | busy start op' code => simp [State.move, hp] at ht
  | producerGo =>
      cases hp : s.producer with
      | rest st => simp [State.move, hp] at ht
      | busy start op code =>
          cases code with
          | act a k =>
              simp only [State.move, hp, Option.some.injEq] at ht
              subst ht
              exact A.producerAct S hp
          | ret r =>
              simp only [State.move, hp, Option.some.injEq] at ht
              subst ht
              exact A.producerReturn hp
  | producerStop => cases hm
  | consumerCall op => exact consumerMoves rfl
  | consumerGo => exact consumerMoves rfl
  | consumerStop => exact consumerMoves rfl

theorem Apart.alike (h : s.producer = .rest .ready) : Alike C s s' := by
  refine ⟨A.toSameOutside, ?_, fun p hp => ?_⟩
  · rw [h, A.right]
    exact .rest A.own nofun
  · apply A.wrote
    simpa only [State.recordedTo, h, restBound] using hp

end steps

theorem Apart.moves {s s' t : State V} (S : Sound C s) (A : Apart C s s') {phase : List (Move V)}
    (hphase : ∀ m ∈ phase, m.abandons = true) (ht : s.moves C phase = some t) :
    ∃ t', s'.moves C (phase.filter Move.ofConsumer) = some t' ∧ Apart C t t' := by
  induction phase generalizing s s' with
  | nil =>
      cases ht
      exact ⟨s', rfl, A⟩
  | cons m ms ih =>
      simp only [State.moves, Option.bind_eq_some_iff] at ht
      obtain ⟨u, hu, ht⟩ := ht
      have hms : ∀ m ∈ ms, m.abandons = true := fun m' h => hphase m' (List.mem_cons_of_mem m h)
      have hstep := A.move S (hphase m List.mem_cons_self) hu
      have Su := S.step (State.move_step hu)
      cases hc : m.ofConsumer with
      | true =>
          rw [hc] at hstep
          obtain ⟨u', hu', Au⟩ := hstep
          obtain ⟨t', ht', At⟩ := ih Su Au hms ht
          refine ⟨t', ?_, At⟩
          rw [List.filter_cons_of_pos hc, State.moves, hu']
          exact ht'
      | false =>
          rw [hc] at hstep
          obtain ⟨t', ht', At⟩ := ih Su hstep hms ht
          refine ⟨t', ?_, At⟩
          rw [List.filter_cons_of_neg (by simp [hc])]
          exact ht'

/-! ### No trace -/

/-- What can be seen of a state from outside: the published counters, the results of the two sides'
calls and what the consumer was given. -/
structure SameResults (s s' : State V) : Prop where
  tail : s.ch.tail = s'.ch.tail
  head : s.ch.head = s'.ch.head
  resting : s.resting = s'.resting
  returning : s.returning = s'.returning
  consumer : s.consumer = s'.consumer
  received : s.received = s'.received

theorem Alike.sameResults {s s' : State V} (A : Alike C s s') : SameResults s s' := by
  refine ⟨A.channel.header .tail, A.channel.header .head, ?_, ?_, A.consumer, A.received⟩
  · rcases A.producer.inv with ⟨st, hp, hp', _⟩ | ⟨start, start', op, code, hp, hp', _⟩
    · simp only [State.resting, hp, hp']
    · simp only [State.resting, hp, hp']
  · rcases A.producer.inv with ⟨st, hp, hp', _⟩ | ⟨start, start', op, code, hp, hp', _⟩
    · simp only [State.returning, hp, hp']
    · cases code with
      | act a k => simp only [State.returning, hp, hp']
      | ret r => simp only [State.returning, hp, hp']

/-- Every schedule has the same results from both of two alike states. -/
theorem Alike.moves_sameResults {s s' : State V} (S : Sound C s) (S' : Sound C s')
    (T : Trimmed C s) (A : Alike C s s') (ms : List (Move V)) :
    Option.Rel SameResults (s.moves C ms) (s'.moves C ms) := by
  have hrel := A.moves S S' T ms
  generalize s.moves C ms = r at hrel ⊢
  generalize s'.moves C ms = r' at hrel ⊢
  cases hrel with
  | none => exact .none
  | some A' => exact .some A'.sameResults

/-- **Reservations that are given up leave no trace.**  Take a reachable state and any schedule in
which the producer only opens reservations, writes to them and gives them up while the consumer
moves.  Without the producer's moves the schedule is possible as well, and the consumer and the
published counters are the same at its end; and if no reservation is open then, every further
schedule is possible in both cases or in none, with the same results. -/
theorem abandoned_invisible (C : Config) {op : ProducerOp V} (hop : op.initialises = true) (z : V)
    {s t : State V} (h : Reach C (State.initial C op (Channel.zeroed z)) s)
    (hs : s.producer = .rest .ready) {phase : List (Move V)}
    (hphase : ∀ m ∈ phase, m.abandons = true) (ht : s.moves C phase = some t) :
    ∃ t', s.moves C (phase.filter Move.ofConsumer) = some t' ∧
      t.ch.tail = t'.ch.tail ∧ t.ch.head = t'.ch.head ∧ t.consumer = t'.consumer ∧
      t.received = t'.received ∧
      (t.producer = .rest .ready →
        ∀ ms, Option.Rel SameResults (t.moves C ms) (t'.moves C ms)) := by
  have S₀ := initial_sound (C := C) hop (m := Channel.zeroed z) rfl rfl
  have S := S₀.run h
  have A : Apart C s s := by
    refine ⟨⟨⟨fun _ => rfl, fun _ _ _ => rfl⟩, rfl, rfl, rfl, rfl, rfl⟩, rfl, ?_, hs,
      fun _ _ => rfl⟩
    rw [hs]
    nofun
  obtain ⟨t', ht', At⟩ := A.moves S hphase ht
  refine ⟨t', ht', At.channel.header .tail, At.channel.header .head, At.consumer, At.received, ?_⟩
  intro hend ms
  have T₀ : Trimmed C (State.initial C op (Channel.zeroed z)) := by
    intro start op' code hp
    cases hp
  have hreach := h.trans (State.moves_reach ht)
  have St' := S.run (State.moves_reach ht')
  exact (At.alike hend).moves_sameResults (S₀.run hreach) St' (T₀.run S₀ hreach) ms

/-- The consumer joins, one value is published, and then a reservation of three slots is filled
and given up while the consumer pops the value. -/
def abandonedPhase : List (Move ℕ) :=
  producerRuns (.reserve 3) 4 ++ producerRuns (.writeNext 7) 4 ++ consumerRuns .pop 7 ++
    producerRuns (.writeAll [8, 9]) 5 ++ producerRuns .cancel 1

def abandonedRun : Option (State ℕ × State ℕ) :=
  ((State.initial Config.eight .joinOrInitializeIn (Channel.zeroed 0)).moves Config.eight
    (consumerRuns .join 8 ++ producerRuns (.push 1) 6 ++ producerRuns .sync 4)).bind fun s =>
    (s.moves Config.eight abandonedPhase).map fun t => (s, t)

def laterMoves : List (Move ℕ) :=
  producerRuns (.push 5) 6 ++ producerRuns .sync 4 ++ consumerRuns .pop 10

/-- A later push is received as if the reservation had never been made. -/
theorem abandoned_invisible_eight : ∃ s t t' u u' : State ℕ, abandonedRun = some (s, t) ∧
    s.moves Config.eight (abandonedPhase.filter Move.ofConsumer) = some t' ∧
    t.received = t'.received ∧
    t.moves Config.eight laterMoves = some u ∧ t'.moves Config.eight laterMoves = some u' ∧
    SameResults u u' ∧ u'.received = [1, 5] := by
  have h : abandonedRun.map (fun st => (st.1.resting, st.2.resting,
      (st.2.moves Config.eight laterMoves).map State.received)) =
      some (some .ready, some .ready, some [1, 5]) := by
    decide +kernel
  obtain ⟨⟨s, t⟩, hst, e⟩ := Option.map_eq_some_iff.mp h
  simp only [Prod.mk.injEq] at e
  have hrun := hst
  simp only [abandonedRun, Option.bind_eq_some_iff, Option.map_eq_some_iff] at hrun
  obtain ⟨s', hs, t', ht, e'⟩ := hrun
  cases e'
  obtain ⟨v, hv, _, _, _, hrec, hlater⟩ := abandoned_invisible Config.eight rfl 0
    (State.moves_reach hs) (State.rest_of_resting e.1) (by simp [abandonedPhase, producerRuns,
      consumerRuns, Move.abandons, ProducerOp.tentative]) ht
  obtain ⟨u, hu, hreceived⟩ := Option.map_eq_some_iff.mp e.2.2
  have hsame := hlater (State.rest_of_resting e.2.1) laterMoves
  rw [hu] at hsame
  -- the push and the pop are possible without the reservation as well
  cases hu' : v.moves Config.eight laterMoves with
  | none =>
      rw [hu'] at hsame
      cases hsame
  | some u' =>
      rw [hu'] at hsame
      cases hsame with
      | some hres => exact ⟨s, t, v, u, u', hst, hv, hrec, hu, hu', hres,
          hres.received.symm.trans hreceived⟩

end Que.Lossless
