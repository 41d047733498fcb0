import Que.Answers
import Que.Lossless.Batch
import Que.Lossless.Lap
import Que.Lossless.WriteIter

/-! # Every call is bounded

No call of the lossless queue waits for the other side: each returns after a number of its own
actions that is known when it is made (`ProducerOp.cost`, `ConsumerOp.cost`), whatever the other
endpoint does and whatever is in the memory.

* **Code.** `ProducerOp.code_takes` and `ConsumerOp.code_takes` bound the code of a call.
* **The loop.** `write_iter` loops over an iterator that need not end.  Its check ends the loop:
  with any fuel that is more than the space left, the loop performs the same number of actions and
  leaves the iterator at the same position (`writeIterLoop_exactly`).
* **Runs.** A busy thread owes a number of steps, which its own steps lower and no other step raises
  (`Owes.producer_moves`, `Owes.consumer_moves`). -/

namespace Que.Lossless

open Lib

variable {V : Type} {C : Config}

/-! ### The producer -/

/-- The actions of the loop of `write_iter` where `r` slots are left: three for each item that it
writes, and one for each that it draws. -/
def iterCost (items : ℕ → Option V) (i r : ℕ) : ℕ :=
  3 * (upcoming items i r).length + (upcoming items i (r + 1)).length

/-- The actions of a call that is made with the structure `h`. -/
def ProducerOp.cost (h : Handle) : ProducerOp V → ℕ
  | join => 6
  | joinOrInitializeIn => 10
  | joinOrCreateShmem => 9
  | push _ => 5
  | sync => 3
  | beat => 1
  | consumerHeartbeat => 3
  | reserve _ => 3
  | writeNext _ => 3
  | writeAll values => values.length + 2
  | writeIter items i => iterCost items i h.remaining + 2
  | commit => 7
  | cancel => 0
  | drop => 1

/-- Where the count of the reservation bounds a loop, it is a word. -/
def ProducerOp.CountFits (C : Config) (h : Handle) : ProducerOp V → Prop
  | writeIter _ _ => h.reservation.count < 2 ^ C.w
  | _ => True

theorem incrementStrongCount_takes {L : Type} {M : Mode} {l : L} :
    Takes anyAnswer 1 (incrementStrongCount M : Proc L V Unit) l := by
  cases M <;> simp [incrementStrongCount, Mode.backedByArcc, fetchAdd]

theorem dropEndpoint_takes {L : Type} {M : Mode} {l : L} :
    Takes anyAnswer 1 (dropEndpoint M : Proc L V Unit) l := by
  cases M <;> simp [dropEndpoint, Mode.backedByArcc]

theorem copyTo_takes {L : Type} {l : L} (i : ℕ) (vs : List V) :
    Takes anyAnswer vs.length (copyTo i vs) l := by
  induction vs generalizing i with
  | nil => exact takes_ret _
  | cons v vs ih => exact fun _ _ => ih (i + 1)

theorem copyValues_takes {h : Handle} (w N i : ℕ) (vs : List V) :
    Takes anyAnswer vs.length (Reservation.copyValues w N i vs) h := by
  have hlen : vs.length = (vs.take (wsub w N i)).length + (vs.drop (wsub w N i)).length := by
    rw [← List.length_append, List.take_append_drop]
  refine takes_ite.mpr ⟨fun _ => copyTo_takes i vs, fun _ => ?_⟩
  rw [hlen]
  exact (copyTo_takes i _).bind fun _ _ => copyTo_takes 0 _

theorem writeNext_takes {h : Handle} (w N : ℕ) (value : V) :
    Takes anyAnswer 3 (Reservation.writeNext w N value) h := by
  simp [Reservation.writeNext, self, assign, update]

/-- **The check ends the loop**, whatever the answers are: the actions and the result are the same
for every fuel that is more than the space left. -/
theorem writeIterLoop_exactly {h : Handle} {w fuel i : ℕ} (N : ℕ) (items : ℕ → Option V)
    (hcount : h.reservation.count < 2 ^ w) (hfuel : h.remaining < fuel) :
    Exactly anyAnswer (iterCost items i h.remaining)
      (i + (upcoming items i (h.remaining + 1)).length)
      (Reservation.writeIterLoop w N items fuel i) h := by
  induction fuel generalizing i h with
  | zero => omega
  | succ fuel ih =>
      unfold Reservation.writeIterLoop
      cases hi : items i with
      | none => simp [iterCost, upcoming_of_none hi]
      | some value =>
          simp only [self, Prog.perform_bind]
          by_cases hfull : h.reservation.written ≥ h.reservation.count
          · have hz : h.remaining = 0 := Nat.sub_eq_zero_of_le hfull
            have hone : (upcoming items i 1).length = 1 := by simp [upcoming, hi]
            rw [iterCost, hz, hone]
            rintro r rfl
            simp only [if_pos hfull]
            exact rfl
          · -- one more item is written, and the rest of the loop has one slot less
            set h' : Handle := h.setReservation
              { h.reservation with written := wadd w h.reservation.written 1 } with hh'
            have hwritten : wadd w h.reservation.written 1 = h.reservation.written + 1 :=
              wadd_of_lt (by omega)
            have hleft : h.remaining = h'.remaining + 1 := by
              simp only [hh', Handle.remaining, Handle.setReservation, hwritten]
              omega
            have hrest := ih (h := h') (i := i + 1) hcount (by omega)
            have hcost : iterCost items i h.remaining =
                iterCost items (i + 1) h'.remaining + 4 := by
              simp only [iterCost, hleft, upcoming_of_some hi, List.length_cons]
              omega
            have hend : i + (upcoming items i (h.remaining + 1)).length =
                i + 1 + (upcoming items (i + 1) (h'.remaining + 1)).length := by
              rw [hleft, upcoming_of_some hi, List.length_cons]
              omega
            rw [hcost, hend]
            rintro r rfl
            simp only [if_neg hfull, Reservation.writeNext, self, Prog.perform_bind]
            rintro r rfl
            simp only [if_neg hfull, assign, update, Prog.perform_bind]
            exact fun _ _ _ _ => hrest

theorem install_takes {h : Handle} (r : Outcome Producer) :
    Takes anyAnswer 1 (ProducerOp.install r : Proc Handle V _) h := by
  cases r <;> simp [ProducerOp.install, update]

theorem ProducerOp.code_takes {h : Handle} (op : ProducerOp V) (hop : op.CountFits C h) :
    Takes anyAnswer (op.cost h) (op.code C) h := by
  cases op with
  | join =>
      refine Takes.bind (m := 5) ?_ fun r _ => install_takes r
      refine takes_ite.mpr ⟨fun _ => takes_ret _, fun _ => ?_⟩
      refine fun _ _ _ _ => takes_ite.mpr
        ⟨fun _ => takes_ite.mpr ⟨fun _ => takes_ret _, fun _ => ?_⟩, fun _ => by simp⟩
      exact incrementStrongCount_takes.bind (n := 2) fun _ _ => by simp [load]
  | joinOrInitializeIn =>
      refine Takes.bind (m := 9) ?_ fun r _ => install_takes r
      refine takes_ite.mpr ⟨fun _ => takes_ret _, fun _ => ?_⟩
      refine fun _ _ _ _ => takes_ite.mpr
        ⟨fun _ => takes_ite.mpr ⟨fun _ => takes_ret _, fun _ _ _ => ?_⟩,
          fun _ => takes_ite.mpr ⟨fun _ _ _ _ _ _ _ _ _ _ _ => ?_, fun _ => takes_ret _⟩⟩
      · exact (incrementStrongCount_takes.bind (n := 2) fun _ _ => by simp [load]).mono (by decide)
      · exact incrementStrongCount_takes.bind (n := 1) fun _ _ => by simp [load]
  | joinOrCreateShmem =>
      refine Takes.bind (m := 8) ?_ fun r _ => install_takes r
      simp [Lossless.joinOrCreateShmem, load, store]
  | push value =>
      refine Takes.bind (n := 0) ?_ (by rintro (_ | _ | _) <;> simp)
      simp [Lossless.push, self, load, assign, update]
  | sync => simp [code, cost, Lossless.sync, self, store, update]
  | beat => simp [code, cost, Lossless.beat, fetchAdd]
  | consumerHeartbeat =>
      refine Takes.bind (n := 0) ?_ (by simp)
      simp [Lossless.consumerHeartbeat, self, load, update]
  | reserve count =>
      refine Takes.bind (n := 0) ?_ (by rintro (_ | _ | _) <;> simp)
      simp [Lossless.reserve, self, load, update]
  | writeNext value =>
      exact Takes.bind (n := 0) (writeNext_takes C.w C.N value) (by rintro (_ | _ | _) <;> simp)
  | writeAll values =>
      refine Takes.bind (n := 0) ?_ (by rintro (_ | _ | _) <;> simp)
      unfold Reservation.writeAll
      refine fun _ _ => takes_ite.mpr ⟨fun _ => takes_ret _, fun _ => takes_ite.mpr
        ⟨fun _ => takes_ret _, fun _ => ?_⟩⟩
      exact (copyValues_takes C.w C.N _ values).bind (n := 1) fun _ _ => by simp [update]
  | writeIter items i =>
      refine Takes.bind (m := iterCost items i h.remaining + 2) (n := 0) ?_ (by simp)
      unfold Reservation.writeIter
      rintro r rfl
      have hfuel : r.remaining < r.reservation.count + 1 := Nat.lt_succ_of_le (Nat.sub_le _ _)
      have hloop := (writeIterLoop_exactly (i := i) C.N items hop hfuel).takes
      exact hloop.bind (n := 1) fun _ _ => by simp [self]
  | commit =>
      refine Takes.bind (n := 0) ?_ (by simp)
      simp [Reservation.commit, Lossless.sync, self, store, update]
  | cancel => exact takes_ret _
  | drop => exact Takes.bind (n := 0) dropEndpoint_takes (by simp)

/-! ### The consumer -/

/-- The actions of a call. -/
def ConsumerOp.cost : ConsumerOp V → ℕ
  | join => 7
  | pop => 9
  | popZerocopy => 2
  | elementWrite _ => 1
  | elementDrop => 6
  | beat => 1
  | producerHeartbeat => 3
  | drop => 1

theorem maybeSync_takes {c : Consumer} (N : ℕ) :
    Takes anyAnswer 4 (maybeSync N : Proc Consumer V _) c := by
  simp [maybeSync, self, store, update]

theorem ConsumerOp.code_takes {c : Consumer} {st : ConsumerStatus} (op : ConsumerOp V) :
    Takes anyAnswer op.cost (op.code C st) c := by
  cases op with
  | join =>
      refine Takes.bind (m := 6) (n := 1) ?_ fun r _ => by cases r <;> simp [install, update]
      refine takes_ite.mpr ⟨fun _ => takes_ret _, fun _ => ?_⟩
      refine fun _ _ _ _ => takes_ite.mpr ⟨fun _ => takes_ite.mpr ⟨fun _ => takes_ret _,
        fun _ _ _ _ _ => ?_⟩, fun _ => by simp⟩
      exact incrementStrongCount_takes.bind (n := 1) fun _ _ => by simp [load]
  | pop =>
      refine Takes.bind (n := 0) ?_ (by simp)
      refine fun _ _ _ _ => takes_ite.mpr ⟨fun _ => takes_ret _, fun _ v _ _ _ _ _ => ?_⟩
      exact Takes.bind (c := maybeSync C.N) (n := 0) (maybeSync_takes C.N) fun _ _ =>
        takes_ret (some v)
  | popZerocopy =>
      refine Takes.bind (n := 0) ?_ (by rintro (_ | _) <;> simp)
      simp [Lossless.popZerocopy, self, load]
  | elementWrite value => simp [code, cost, Element.write, assign]
  | elementDrop =>
      refine Takes.bind (n := 0) ?_ (by simp)
      exact fun _ _ _ _ => maybeSync_takes C.N
  | beat => simp [code, cost, beatConsumer, fetchAdd]
  | producerHeartbeat =>
      refine Takes.bind (n := 0) ?_ (by simp)
      simp [Lossless.producerHeartbeat, self, load, update]
  | drop => exact Takes.bind (n := 0) dropEndpoint_takes (by simp)

/-! ### Runs -/

/-- The thread has at most `n` steps to go: its actions and the return. -/
def Owes {L St Op R : Type} (l : L) (n : ℕ) : Thread L V St Op R → Prop
  | .rest _ => True
  | .busy _ _ code => ∃ k < n, Takes anyAnswer k code l

theorem Owes.act {L St Op R : Type} {start l : L} {op : Op} {a : Act L V} {k : a.Ans → Proc L V R}
    {n : ℕ} (h : Owes l n (.busy start op (.act a k) : Thread L V St Op R)) (ch : Channel V) :
    0 < n ∧ Owes (a.step C.w (ch, l)).2.2 (n - 1)
      (.busy start op (k (a.step C.w (ch, l)).1) : Thread L V St Op R) := by
  obtain ⟨m, hm, ht⟩ := h
  obtain ⟨hpos, hnext, -⟩ := takes_answered ht C.w ch
  exact ⟨by omega, m - 1, by omega, hnext⟩

namespace Move

/-- The move is a step of a busy producer. -/
def stepsProducer : Move V → Bool
  | .producerGo => true
  | _ => false

/-- The move is a step of a busy consumer. -/
def stepsConsumer : Move V → Bool
  | .consumerGo => true
  | _ => false

/-- The producer makes a call. -/
def callsProducer : Move V → Bool
  | .producerCall _ => true
  | _ => false

/-- The consumer makes a call. -/
def callsConsumer : Move V → Bool
  | .consumerCall _ => true
  | _ => false

end Move

section runs
variable {s t : State V} {n : ℕ} {m : Move V} {ms : List (Move V)}

/-- The producer's moves leave the consumer's side as it is. -/
theorem SameConsumer.move (hm : m.ofConsumer = false) (h : s.move C m = some t) :
    SameConsumer s t := by
  cases m with
  | producerCall op =>
      cases hp : s.producer with
      | rest st =>
          simp only [State.move, hp] at h
          split_ifs at h
          cases h
          exact ⟨rfl, rfl⟩
      | busy start op' code => simp [State.move, hp] at h
  | producerGo =>
      cases hp : s.producer with
      | rest st => simp [State.move, hp] at h
      | busy start op code =>
          cases code <;>
          · simp only [State.move, hp, Option.some.injEq] at h
            subst h
            exact ⟨rfl, rfl⟩
  | producerStop =>
      cases h
      exact ⟨rfl, rfl⟩
  | _ => cases hm

/-- A move other than a call lowers what the producer owes by its own steps. -/
theorem Owes.producer_move (h : Owes s.handle n s.producer) (hm : m.callsProducer = false)
    (hmove : s.move C m = some t) :
    m.stepsProducer.toNat ≤ n ∧ Owes t.handle (n - m.stepsProducer.toNat) t.producer := by
  cases hside : m.ofConsumer with
  | true =>
      have hU := Unmoved.move hside hmove
      have hsteps : m.stepsProducer = false := by cases m <;> first | rfl | cases hside
      rw [hU.producer, hU.handle, hsteps]
      exact ⟨Nat.zero_le n, h⟩
  | false =>
      cases m with
      | producerGo =>
          cases hp : s.producer with
          | rest st => simp [State.move, hp] at hmove
          | busy start op code =>
              rw [hp] at h
              cases code with
              | act a k =>
                  simp only [State.move, hp, Option.some.injEq] at hmove
                  subst hmove
                  exact h.act s.ch
              | ret r =>
                  simp only [State.move, hp, Option.some.injEq] at hmove
                  subst hmove
                  obtain ⟨k, hk, -⟩ := h
                  exact ⟨Nat.one_le_iff_ne_zero.mpr (by omega), trivial⟩
      | producerStop =>
          cases hmove
          exact ⟨Nat.zero_le n, trivial⟩
      | producerCall op => cases hm
      | _ => cases hside

/-- The same for the consumer. -/
theorem Owes.consumer_move (h : Owes s.cursor n s.consumer) (hm : m.callsConsumer = false)
    (hmove : s.move C m = some t) :
    m.stepsConsumer.toNat ≤ n ∧ Owes t.cursor (n - m.stepsConsumer.toNat) t.consumer := by
  cases hside : m.ofConsumer with
  | false =>
      have hU := SameConsumer.move hside hmove
      have hsteps : m.stepsConsumer = false := by cases m <;> first | rfl | cases hside
      rw [hU.consumer, hU.cursor, hsteps]
      exact ⟨Nat.zero_le n, h⟩
  | true =>
      cases m with
      | consumerGo =>
          cases hc : s.consumer with
          | rest st => simp [State.move, hc] at hmove
          | busy start op code =>
              rw [hc] at h
              cases code with
              | act a k =>
                  simp only [State.move, hc, Option.some.injEq] at hmove
                  subst hmove
                  exact h.act s.ch
              | ret r =>
                  simp only [State.move, hc, Option.some.injEq] at hmove
                  subst hmove
                  obtain ⟨k, hk, -⟩ := h
                  exact ⟨Nat.one_le_iff_ne_zero.mpr (by omega), trivial⟩
      | consumerStop =>
          cases hmove
          exact ⟨Nat.zero_le n, trivial⟩
      | consumerCall op => cases hm
      | _ => cases hside

/-- A call owes its actions and the return. -/
theorem Owes.producerCall {op : ProducerOp V} (hop : op.CountFits C s.handle)
    (h : s.move C (.producerCall op) = some t) :
    Owes t.handle (op.cost s.handle + 1) t.producer := by
  cases hp : s.producer with
  | rest st =>
      simp only [State.move, hp] at h
      split_ifs at h
      cases h
      exact ⟨_, Nat.lt_succ_self _, op.code_takes hop⟩
  | busy start op' code => simp [State.move, hp] at h

theorem Owes.consumerCall {op : ConsumerOp V} (h : s.move C (.consumerCall op) = some t) :
    Owes t.cursor (op.cost + 1) t.consumer := by
  cases hc : s.consumer with
  | rest st =>
      simp only [State.move, hc] at h
      split_ifs at h
      cases h
      exact ⟨_, Nat.lt_succ_self _, op.code_takes⟩
  | busy start op' code => simp [State.move, hc] at h

/-- A run without calls lowers what is owed by the steps of the endpoint. -/
theorem owes_moves {owes : State V → ℕ → Prop} {steps calls : Move V → Bool}
    (step : ∀ {s t n m}, owes s n → calls m = false → s.move C m = some t →
      (steps m).toNat ≤ n ∧ owes t (n - (steps m).toNat))
    (h : owes s n) (hms : ∀ m ∈ ms, calls m = false) (hmoves : s.moves C ms = some t) :
    ms.countP steps ≤ n ∧ owes t (n - ms.countP steps) := by
  induction ms generalizing s n with
  | nil =>
      cases hmoves
      exact ⟨Nat.zero_le n, h⟩
  | cons m ms ih =>
      simp only [State.moves, Option.bind_eq_some_iff] at hmoves
      obtain ⟨u, hu, ht⟩ := hmoves
      obtain ⟨h1, h2⟩ := step h (hms m List.mem_cons_self) hu
      obtain ⟨h3, h4⟩ := ih h2 (fun m' h => hms m' (List.mem_cons_of_mem m h)) ht
      have hcount : (m :: ms).countP steps = (steps m).toNat + ms.countP steps := by
        cases hm : steps m <;> simp [hm, Nat.add_comm]
      rw [hcount, ← Nat.sub_sub]
      exact ⟨by omega, h4⟩

/-- A call that owes `cost` actions and the return. -/
theorem Owes.returned {L St Op R : Type} {l : L} {thread : Thread L V St Op R} {cost steps : ℕ}
    (hle : steps ≤ cost + 1) (h : Owes l (cost + 1 - steps) thread) :
    steps ≤ cost ∨ steps = cost + 1 ∧ ∃ st, thread = .rest st := by
  cases thread with
  | rest st =>
      rcases Nat.lt_or_eq_of_le hle with hlt | heq
      · exact .inl (Nat.le_of_lt_succ hlt)
      · exact .inr ⟨heq, st, rfl⟩
  | busy start op code =>
      obtain ⟨k, hk, -⟩ := h
      exact .inl (by omega)

end runs

/-- **Every call returns within its own steps.**  Let an endpoint make a call in any state
whatsoever, and let any run follow in which it makes no further call.  It takes at most `cost` steps
inside the call and the step that returns, after which it is at rest.  In particular `write_iter`
returns, also from an iterator that never ends: its check ends the loop after exactly `iterCost`
actions, for every fuel that is more than the space left. -/
theorem wait_free (C : Config) (s : State V) :
    (∀ op : ProducerOp V, op.CountFits C s.handle → ∀ ms t,
      s.moves C (.producerCall op :: ms) = some t → (∀ m ∈ ms, m.callsProducer = false) →
      ms.countP Move.stepsProducer ≤ op.cost s.handle ∨
        ms.countP Move.stepsProducer = op.cost s.handle + 1 ∧ ∃ st, t.producer = .rest st) ∧
    (∀ op : ConsumerOp V, ∀ ms t,
      s.moves C (.consumerCall op :: ms) = some t → (∀ m ∈ ms, m.callsConsumer = false) →
      ms.countP Move.stepsConsumer ≤ op.cost ∨
        ms.countP Move.stepsConsumer = op.cost + 1 ∧ ∃ st, t.consumer = .rest st) ∧
    ∀ (items : ℕ → Option V) (i fuel : ℕ), s.handle.reservation.count < 2 ^ C.w →
      s.handle.remaining < fuel →
      Exactly anyAnswer (iterCost items i s.handle.remaining)
        (i + (upcoming items i (s.handle.remaining + 1)).length)
        (Reservation.writeIterLoop C.w C.N items fuel i) s.handle := by
  refine ⟨fun op hop ms t hmoves hms => ?_, fun op ms t hmoves hms => ?_,
    fun items i fuel hcount hfuel => writeIterLoop_exactly C.N items hcount hfuel⟩
  · simp only [State.moves, Option.bind_eq_some_iff] at hmoves
    obtain ⟨u, hu, ht⟩ := hmoves
    obtain ⟨hle, h⟩ := owes_moves Owes.producer_move (Owes.producerCall hop hu) hms ht
    exact h.returned hle
  · simp only [State.moves, Option.bind_eq_some_iff] at hmoves
    obtain ⟨u, hu, ht⟩ := hmoves
    obtain ⟨hle, h⟩ := owes_moves Owes.consumer_move (Owes.consumerCall hu) hms ht
    exact h.returned hle

/-- The items `0, 1, 2, ...` are written to a reservation of three slots while the consumer joins:
12 actions for these, one for the item that is drawn in vain, and two more. -/
def writeIterWhileJoining : List (Move ℕ) :=
  List.replicate 7 .producerGo ++ [.consumerCall .join] ++ List.replicate 4 .consumerGo ++
    List.replicate 9 .producerGo

/-- The call has returned after its last step, whatever the consumer is doing. -/
theorem wait_free_eight : ∃ s t : State ℕ,
    (State.initial Config.eight .joinOrInitializeIn (Channel.zeroed 0)).moves Config.eight
      (producerRuns (.reserve 3) 4) = some s ∧
    s.moves Config.eight (.producerCall (.writeIter some 0) :: writeIterWhileJoining) = some t ∧
    ∃ st, t.producer = .rest st := by
  have h : ((State.initial Config.eight .joinOrInitializeIn (Channel.zeroed 0)).moves Config.eight
      (producerRuns (.reserve 3) 4)).map (fun s => (s.handle.reservation.count,
        s.handle.reservation.written, (s.moves Config.eight
          (.producerCall (.writeIter some 0) :: writeIterWhileJoining)).isSome)) =
      some (3, 0, true) := by
    decide +kernel
  obtain ⟨s, hs, hr⟩ := Option.map_eq_some_iff.mp h
  simp only [Prod.mk.injEq] at hr
  obtain ⟨hcount, hwritten, hsome⟩ := hr
  obtain ⟨t, ht⟩ := Option.isSome_iff_exists.mp hsome
  refine ⟨s, t, hs, ht, ?_⟩
  have hfits : (ProducerOp.writeIter some 0 : ProducerOp ℕ).CountFits Config.eight s.handle := by
    show s.handle.reservation.count < 2 ^ Config.eight.w
    rw [hcount]
    decide
  have hcost : (ProducerOp.writeIter some 0 : ProducerOp ℕ).cost s.handle = 15 := by
    simp only [ProducerOp.cost, Handle.remaining, hcount, hwritten]
    decide
  rcases (wait_free Config.eight s).1 _ hfits _ t ht (by decide) with hle | hend
  · rw [hcost] at hle
    exact absurd hle (by decide)
  · exact hend.2

end Que.Lossless
