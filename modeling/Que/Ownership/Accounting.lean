import Que.Ownership.System

/-! # Every complete run drops a slot that never received a value

Two facts carry the result, and both are about single actions.

* The first assignment to a slot drops its zeroed memory; a channel that was never assigned to
  drops zeroed memory at its end (`Kept.vacant`).
* A copy that `core::ptr::read` handed out leaves its original in the slot, where the next
  assignment or the end of the channel drops it again (`Kept.handed`).

The end of the channel comes with the last handle, because the strong count is the number of
handles that were not yet dropped (`Invariant.strong`). -/

namespace Que.Ownership

open Lib

variable {V : Type} {w N : ℕ}

/-! ### Calls that keep the handle -/

/-- The actions of a call that keeps its handle: they leave the strong count alone, write slots
by assignment only, and read slots of the ring. -/
def calm {L : Type} (N : ℕ) : Act L V → Bool
  | .store x _ | .fetchAdd x _ => x != .strong
  | .read i => decide (i < N)
  | .copy _ _ | .dropArc => false
  | _ => true

/-- Code all of whose actions are calm. -/
abbrev Calm {L α : Type} (N : ℕ) (c : Proc L V α) : Prop :=
  c.All (fun a => calm N a = true) fun _ => True

/-- The code of a call that keeps its handle. -/
abbrev Keeps (N : ℕ) (E : Endpoint V) (c : Proc E.Own V (Headless.Round E.Status)) : Prop :=
  c.All (fun a => calm N a = true) fun r => r ≠ .done E.gone

/-- The code that drops the handle. -/
def release (E : Endpoint V) : Proc E.Own V (Headless.Round E.Status) :=
  .act .dropArc fun _ => .ret (.done E.gone)

/-- Every call of the handle keeps it or drops it. -/
def Conforms (N : ℕ) (E : Endpoint V) : Prop :=
  ∀ st c, E.enabled st c = true → st ≠ E.gone ∧ (Keeps N E (E.code st c) ∨ E.code st c = release E)

/-- Calm code, followed by returns that keep the handle. -/
theorem Calm.bind {L α β : Type} {c : Proc L V α} {f : α → Proc L V β} {q : β → Prop}
    (h : Calm N c) (hf : ∀ x, (f x).All (fun a => calm N a = true) q) :
    (c >>= f).All (fun a => calm N a = true) q :=
  Prog.All.bind (h.mono fun x _ => hf x)

section lossless
variable {V : Type} (C : Config)

/-- The slot of a position is in the ring. -/
theorem and_moduloMask_lt (p : ℕ) : p &&& moduloMask C.N < C.N := slot_lt C.pow p

theorem push_calm (value : V) : Calm C.N (Lossless.push C.w C.N value) := by
  simp [Lossless.push, self, load, assign, update, calm]

theorem sync_calm : Calm C.N (Lossless.sync : Proc Lossless.Handle V Unit) := by
  simp [Lossless.sync, self, store, update, Prog.perform, calm]

theorem beat_calm : Calm C.N (Lossless.beat : Proc Lossless.Handle V Unit) := by
  simp [Lossless.beat, fetchAdd, calm]

theorem consumerHeartbeat_calm :
    Calm C.N (Lossless.consumerHeartbeat : Proc Lossless.Handle V Bool) := by
  simp [Lossless.consumerHeartbeat, load, self, update, calm]

theorem reserve_calm (count : ℕ) :
    Calm C.N (Lossless.reserve C.w C.N count : Proc Lossless.Handle V _) := by
  simp [Lossless.reserve, load, self, update, calm]

theorem writeNext_calm (value : V) : Calm C.N (Lossless.Reservation.writeNext C.w C.N value) := by
  simp [Lossless.Reservation.writeNext, self, assign, update, calm]

theorem writeIterLoop_calm (items : ℕ → Option V) (fuel i : ℕ) :
    Calm C.N (Lossless.Reservation.writeIterLoop C.w C.N items fuel i) := by
  induction fuel generalizing i with
  | zero => trivial
  | succ fuel ih =>
      unfold Lossless.Reservation.writeIterLoop
      cases items i with
      | none => trivial
      | some value =>
          simp only [self, Prog.perform_bind, Prog.all_act, Prog.all_ite]
          exact ⟨rfl, fun h => ⟨fun _ => trivial, fun _ =>
            (writeNext_calm C value).bind fun _ => ih (i + 1)⟩⟩

theorem writeIter_calm (items : ℕ → Option V) (i : ℕ) :
    Calm C.N (Lossless.Reservation.writeIter C.w C.N items i) :=
  ⟨rfl, fun _ => (writeIterLoop_calm C items _ i).bind fun _ => ⟨rfl, fun _ => trivial⟩⟩

theorem commit_calm :
    Calm C.N (Lossless.Reservation.commit C.w C.N : Proc Lossless.Handle V Unit) := by
  simp [Lossless.Reservation.commit, Lossless.sync, self, store, update, Prog.perform, calm]

theorem maybeSync_calm : Calm C.N (Lossless.maybeSync C.N : Proc Lossless.Consumer V Unit) := by
  simp [Lossless.maybeSync, self, store, update, Prog.perform, calm]

theorem pop_calm : Calm C.N (Lossless.pop C.w C.N : Proc Lossless.Consumer V _) := by
  simp only [Lossless.pop, self, load, read, update, Prog.perform_bind, Prog.all_act, Prog.all_ite,
    Prog.pure_eq_ret, Prog.all_ret]
  refine ⟨rfl, fun c => ⟨rfl, fun tail => ⟨fun _ => trivial, fun _ => ?_⟩⟩⟩
  refine ⟨decide_eq_true (and_moduloMask_lt C _), fun value => ?_⟩
  exact ⟨rfl, fun _ => ⟨rfl, fun _ => (maybeSync_calm C).bind fun _ => trivial⟩⟩

theorem popZerocopy_calm : Calm C.N (Lossless.popZerocopy C.N : Proc Lossless.Consumer V _) := by
  simp [Lossless.popZerocopy, self, load, calm]

theorem producerHeartbeat_calm :
    Calm C.N (Lossless.producerHeartbeat : Proc Lossless.Consumer V Bool) := by
  simp [Lossless.producerHeartbeat, load, self, update, calm]

theorem elementDrop_calm :
    Calm C.N (Lossless.Element.drop C.w C.N : Proc Lossless.Consumer V _) := by
  simp [Lossless.Element.drop, Lossless.maybeSync, self, store, update, Prog.perform, calm]

end lossless

section headless
variable {V : Type} (C : Config)

theorem headless_sync_calm : Calm C.N (Headless.sync : Proc Producer V Unit) := by
  simp [Headless.sync, self, store, update, Prog.perform, calm]

theorem headless_push_calm (value : Vector V 1) : Calm C.N (Headless.push C.w C.N value) := by
  have words : ∀ (i : ℕ) (xs : List V), Calm C.N (Headless.assignWords i xs) := by
    intro i xs
    induction xs generalizing i with
    | nil => trivial
    | cons x xs ih => exact ⟨rfl, fun _ => ih (i + 1)⟩
  have rest : Calm C.N (do
      let p ← self
      Headless.assignWords ((p.tail &&& moduloMask C.N) * 1) value.toList
      update fun p => { p with tail := wadd C.w p.tail 1 }
      update fun p => { p with written := wadd C.w p.written 1 }) :=
    ⟨rfl, fun p => (words _ _).bind fun _ => ⟨rfl, fun _ => ⟨rfl, fun _ => trivial⟩⟩⟩
  refine ⟨rfl, fun p => ?_⟩
  dsimp only [Prog.bind]
  split_ifs with hburst
  · exact (headless_sync_calm C).bind fun _ => rest
  · exact rest

theorem headless_consumerHeartbeat_calm :
    Calm C.N (Headless.consumerHeartbeat : Proc Producer V Bool) := by
  simp [Headless.consumerHeartbeat, load, self, update, calm]

theorem popIter_calm : Calm C.N (Headless.popIter C.w C.N 1 : Proc Headless.Consumer V _) := by
  have word : ∀ p : ℕ, Calm C.N
      (Headless.readWords ((p &&& moduloMask C.N) * 1) 1 : Proc Headless.Consumer V _) := by
    intro p
    refine ⟨decide_eq_true ?_, fun _ => trivial⟩
    simpa using and_moduloMask_lt C p
  simp only [Headless.popIter, load, self, update, Prog.perform_bind, Prog.all_act, Prog.all_ite,
    Prog.pure_eq_ret, Prog.all_ret]
  refine ⟨rfl, fun tail => ⟨rfl, fun c => ⟨fun _ => trivial, fun _ => ⟨fun _ => ?_, fun _ => ?_⟩⟩⟩⟩
  · exact ⟨rfl, fun _ => trivial⟩
  · apply (word _).bind
    intro value
    simp only [Prog.all_act, Prog.all_ite, Prog.all_ret]
    exact ⟨rfl, fun _ => ⟨rfl, fun _ => ⟨fun _ => ⟨rfl, fun _ => trivial⟩,
      fun _ => ⟨rfl, fun _ => trivial⟩⟩⟩⟩

theorem headless_producerHeartbeat_calm :
    Calm C.N (Headless.producerHeartbeat : Proc Headless.Consumer V Bool) := by
  simp [Headless.producerHeartbeat, load, self, update, calm]

end headless

/-! ### The four handles -/

section handles
variable (C : InProcess) (T : Type)

theorem losslessProducer_conforms : Conforms C.N (losslessProducer C T) := by
  intro st c h
  constructor
  · rintro rfl
    cases c <;> cases h
  · cases c with
    | push value =>
        refine .inl (Prog.All.bind ((push_calm C.toConfig _).bind fun r => ?_))
        cases r <;> exact nofun
    | sync => exact .inl (Prog.All.bind ((sync_calm C.toConfig).bind fun _ => nofun))
    | beat => exact .inl (Prog.All.bind ((beat_calm C.toConfig).bind fun _ => nofun))
    | consumerHeartbeat =>
        exact .inl (Prog.All.bind ((consumerHeartbeat_calm C.toConfig).bind fun _ => nofun))
    | reserve count =>
        refine .inl (Prog.All.bind ((reserve_calm C.toConfig count).bind fun r => ?_))
        cases r <;> exact nofun
    | writeNext value =>
        refine .inl (Prog.All.bind ((writeNext_calm C.toConfig _).bind fun r => ?_))
        cases r <;> exact nofun
    | writeIter items i =>
        exact .inl (Prog.All.bind ((writeIter_calm C.toConfig _ i).bind fun _ => nofun))
    | commit => exact .inl (Prog.All.bind ((commit_calm C.toConfig).bind fun _ => nofun))
    | cancel => exact .inl nofun
    | drop =>
        right
        simp [losslessProducer, ProducerCall.op, Lossless.ProducerOp.code, dropEndpoint, C.arc,
          Mode.backedByArcc, release]

theorem losslessConsumer_conforms : Conforms C.N (losslessConsumer C T) := by
  intro st c h
  have hst : st ≠ .gone := by
    rintro rfl
    cases c <;> cases h
  refine ⟨hst, ?_⟩
  cases c with
  | pop => exact .inl (Prog.All.bind ((pop_calm C.toConfig).bind fun _ => nofun))
  | popZerocopy =>
      refine .inl (Prog.All.bind ((popZerocopy_calm C.toConfig).bind fun r => ?_))
      cases r <;> exact nofun
  | elementWrite value => exact .inl ⟨rfl, fun _ hr => hst (by cases hr; rfl)⟩
  | elementDrop => exact .inl (Prog.All.bind ((elementDrop_calm C.toConfig).bind fun _ => nofun))
  | beat => exact .inl ⟨rfl, fun _ => nofun⟩
  | producerHeartbeat =>
      exact .inl (Prog.All.bind ((producerHeartbeat_calm C.toConfig).bind fun _ => nofun))
  | drop =>
      right
      simp [losslessConsumer, ConsumerCall.op, Lossless.ConsumerOp.code, dropEndpoint, C.arc,
        Mode.backedByArcc, release]

theorem headlessProducer_conforms : Conforms C.N (headlessProducer C T) := by
  intro st c h
  constructor
  · rintro rfl
    cases c <;> cases h
  · cases c with
    | push value =>
        exact .inl (Prog.All.bind ((headless_push_calm C.toConfig _).bind fun _ => nofun))
    | sync => exact .inl (Prog.All.bind ((headless_sync_calm C.toConfig).bind fun _ => nofun))
    | beat => exact .inl ⟨rfl, fun _ => nofun⟩
    | consumerHeartbeat =>
        exact .inl
          (Prog.All.bind ((headless_consumerHeartbeat_calm C.toConfig).bind fun _ => nofun))
    | drop =>
        right
        have : (Headless.Params.ofConfig C.toConfig).mode = .local := C.arc
        simp [headlessProducer, HeadlessProducerCall.op, Headless.ProducerOp.code, dropEndpoint,
          this,
          Mode.backedByArcc, release]

theorem headlessConsumer_conforms : Conforms C.N (headlessConsumer C T) := by
  intro st c h
  constructor
  · rintro rfl
    cases c <;> cases h
  · cases c with
    | pop =>
        refine .inl (Prog.All.bind ((popIter_calm C.toConfig).bind fun r => ?_))
        cases r <;> exact nofun
    | beat => exact .inl ⟨rfl, fun _ => nofun⟩
    | producerHeartbeat =>
        exact .inl (Prog.All.bind
          ((headless_producerHeartbeat_calm C.toConfig).bind fun _ => nofun))
    | drop =>
        right
        have : (Headless.Params.ofConfig C.toConfig).mode = .local := C.arc
        simp [headlessConsumer, HeadlessConsumerCall.op, Headless.ConsumerOp.code, dropEndpoint,
          this,
          Mode.backedByArcc, release]

end handles

/-! ### The ledger -/

section ledger
variable {L T : Type} {ch : Channel (Option T)} {l : Ledger (Option T)}

/-- What holds of the ledger at every moment: a zeroed slot was dropped, or no slot was written;
what was handed out was dropped, or is still in a slot. -/
structure Kept (N : ℕ) (ch : Channel (Option T)) (l : Ledger (Option T)) : Prop where
  vacant : none ∈ l.dropped ∨ ∀ i, ch.buffer i = none
  handed : ∀ v ∈ l.handed, v ∈ l.dropped ∨ ∃ i, i < N ∧ ch.buffer i = v

/-- What holds of the ledger at the end. -/
structure Closed (l : Ledger (Option T)) : Prop where
  vacant : none ∈ l.dropped
  handed : ∀ v ∈ l.handed, v ∈ l.dropped

/-- A calm action keeps the ledger in order and the strong count. -/
theorem Kept.calm (h : Kept N ch l) {a : Act L (Option T)} (ha : calm N a = true) (own : L) :
    Kept N (a.step w (ch, own)).2.1 (l.after N a ch) ∧
      (a.step w (ch, own)).2.1.strong = ch.strong := by
  cases a with
  | load x => exact ⟨h, rfl⟩
  | store x n | fetchAdd x n =>
      cases x with
      | strong => cases ha
      | _ => exact ⟨⟨h.vacant, h.handed⟩, rfl⟩
  | read i =>
      refine ⟨⟨h.vacant, fun v hv => ?_⟩, rfl⟩
      rcases List.mem_append.mp hv with hv | hv
      · exact h.handed v hv
      · exact .inr ⟨i, of_decide_eq_true ha, (List.mem_singleton.mp hv).symm⟩
  | assign i x =>
      refine ⟨⟨.inl (List.mem_append.mpr ?_), fun v hv => ?_⟩, rfl⟩
      · exact h.vacant.imp id fun hall => List.mem_singleton.mpr (hall i).symm
      · rcases h.handed v hv with hd | ⟨j, hj, rfl⟩
        · exact .inl (List.mem_append_left _ hd)
        · rcases Decidable.em (j = i) with rfl | hne
          · exact .inl (List.mem_append_right _ List.mem_cons_self)
          · exact .inr ⟨j, hj, Function.update_of_ne hne _ _⟩
  | copy i x => cases ha
  | self => exact ⟨h, rfl⟩
  | update f => exact ⟨h, rfl⟩
  | dropArc => cases ha

/-- The last handle drops every slot. -/
theorem Kept.close (h : Kept N ch l) (hN : 0 < N) (hs : ch.strong = 1) :
    Closed (l.after N (.dropArc : Act L (Option T)) ch) := by
  have hd : ∀ {i}, i < N → ch.buffer i ∈ l.dropped ++ (List.range N).map ch.buffer := fun hi =>
    List.mem_append_right _ (List.mem_map.mpr ⟨_, List.mem_range.mpr hi, rfl⟩)
  simp only [Ledger.after, if_pos hs]
  constructor
  · rcases h.vacant with hv | hv
    · exact List.mem_append_left _ hv
    · rw [← hv 0]
      exact hd hN
  · intro v hv
    rcases h.handed v hv with hv | ⟨i, hi, rfl⟩
    · exact List.mem_append_left _ hv
    · exact hd hi

end ledger

/-! ### Every run -/

section runs
variable {T : Type}

/-- A handle that is in order: dropped, inside a call that keeps it, or inside its drop. -/
def SideFine (N : ℕ) {E : Endpoint V} (e : Side E) : Prop :=
  match e.doing with
  | .rest st => st = E.gone ↔ e.released = true
  | .busy whole code =>
      (e.released = false ∧ Keeps N E whole ∧ Keeps N E code) ∨
      (e.released = false ∧ code = release E) ∨
      (e.released = true ∧ code = .ret (.done E.gone))

/-- The share of the `Arc` that a handle holds. -/
def Side.shares {E : Endpoint V} (e : Side E) : ℕ := if e.released then 0 else 1

/-- What a step of one handle needs and keeps; `other` is the number of shares of the other
handles. -/
structure Balanced (N other : ℕ) {E : Endpoint (Option T)} (ch : Channel (Option T))
    (l : Ledger (Option T)) (e : Side E) : Prop where
  side : SideFine N e
  strong : ch.strong = e.shares + other
  kept : Kept N ch l
  closed : ch.strong = 0 → Closed l

theorem releases_of_calm {L : Type} {a : Act L V} (h : calm N a = true) : releases a = false := by
  cases a with
  | dropArc => cases h
  | _ => rfl

/-- The drop of a handle. -/
theorem Balanced.released {other : ℕ} {E : Endpoint (Option T)} {ch : Channel (Option T)}
    {l : Ledger (Option T)} {e : Side E} (h : Balanced N other ch l e) (hN : 0 < N)
    (ho : other + 1 < 2 ^ w) (hr : e.released = false)
    {whole : Proc E.Own (Option T) (Headless.Round E.Status)} :
    Balanced N other (ch.set .strong (wsub w ch.strong 1))
      (l.after N (.dropArc : Act E.Own (Option T)) ch)
      (⟨e.own, .busy whole (.ret (.done E.gone)),
        releases (.dropArc : Act E.Own (Option T)) || e.released⟩ :
        Side E) := by
  have hs : ch.strong = 1 + other := by
    have := h.strong
    simpa [Side.shares, hr] using this
  have hsub : wsub w ch.strong 1 = other := by
    rw [wsub_of_le (by omega) (by omega)]
    omega
  refine ⟨.inr (.inr ⟨rfl, rfl⟩), ?_, ⟨?_, ?_⟩, fun h0 => ?_⟩
  · rw [hsub]
    exact (Nat.zero_add other).symm
  · refine h.kept.vacant.imp (fun hv => ?_) id
    simp only [Ledger.after]
    split_ifs
    · exact List.mem_append_left _ hv
    · exact hv
  · simp only [Ledger.after]
    split_ifs with h1
    · exact fun v hv => (h.kept.handed v hv).imp (List.mem_append_left _) id
    · exact h.kept.handed
  · apply h.kept.close hN
    have : other = 0 := hsub.symm.trans h0
    omega

theorem Balanced.step {other : ℕ} {E : Endpoint (Option T)} {ch ch' : Channel (Option T)}
    {l l' : Ledger (Option T)} {e e' : Side E} (hE : Conforms N E) (hN : 0 < N)
    (ho : other + 1 < 2 ^ w) (h : Balanced N other ch l e) {m : Choice E}
    (hm : e.move w N ch l m = some (ch', l', e')) : Balanced N other ch' l' e' := by
  have hf := h.side
  unfold SideFine at hf
  cases m with
  | call c =>
      cases hd : e.doing with
      | rest st =>
          rw [hd] at hf
          simp only [Side.move, hd] at hm
          split_ifs at hm with hen
          cases hm
          obtain ⟨hst, hcode⟩ := hE st c hen
          have hr : e.released = false := by
            rw [← Bool.not_eq_true]
            exact fun hr => hst (hf.mpr hr)
          refine ⟨?_, h.strong, h.kept, h.closed⟩
          rcases hcode with hk | hk
          · exact .inl ⟨hr, hk, hk⟩
          · exact .inr (.inl ⟨hr, hk⟩)
      | busy whole code => simp [Side.move, hd] at hm
  | go =>
      cases hd : e.doing with
      | rest st => simp [Side.move, hd] at hm
      | busy whole code =>
          rw [hd] at hf
          rcases hf with ⟨hr, hwhole, hcode⟩ | ⟨hr, rfl⟩ | ⟨hr, rfl⟩
          · cases code with
            | act a k =>
                simp only [Side.move, hd, Option.some.injEq, Prod.mk.injEq] at hm
                obtain ⟨rfl, rfl, rfl⟩ := hm
                obtain ⟨hkept, hstrong⟩ := h.kept.calm (w := w) hcode.1 e.own
                have hr' : (releases a || e.released) = false := by
                  rw [hr, releases_of_calm hcode.1]
                  rfl
                refine ⟨.inl ⟨hr', hwhole, hcode.2 _⟩, ?_, hkept, fun h0 => ?_⟩
                · have hs := h.strong
                  rw [Side.shares, hr] at hs
                  rw [hstrong, Side.shares, hr']
                  exact hs
                · have hs := hstrong.symm.trans h0
                  rw [h.strong, Side.shares, hr] at hs
                  simp at hs
            | ret r =>
                cases r with
                | again =>
                    simp only [Side.move, hd, Option.some.injEq, Prod.mk.injEq] at hm
                    obtain ⟨rfl, rfl, rfl⟩ := hm
                    exact ⟨.inl ⟨hr, hwhole, hwhole⟩, h.strong, h.kept, h.closed⟩
                | done st =>
                    simp only [Side.move, hd, Option.some.injEq, Prod.mk.injEq] at hm
                    obtain ⟨rfl, rfl, rfl⟩ := hm
                    refine ⟨⟨fun hst => absurd (congrArg _ hst) hcode, fun hrel => ?_⟩, h.strong,
                      h.kept, h.closed⟩
                    exact absurd (hrel.symm.trans hr) (by decide)
          · simp only [Side.move, hd, release, Option.some.injEq, Prod.mk.injEq] at hm
            obtain ⟨rfl, rfl, rfl⟩ := hm
            exact h.released hN ho hr
          · simp only [Side.move, hd, Option.some.injEq, Prod.mk.injEq] at hm
            obtain ⟨rfl, rfl, rfl⟩ := hm
            exact ⟨⟨fun _ => hr, fun _ => rfl⟩, h.strong, h.kept, h.closed⟩

/-! ### The two handles -/

variable {A B : Endpoint (Option T)}

/-- The invariant of the pair. -/
structure Invariant (N : ℕ) (s : State A B) : Prop where
  producer : SideFine N s.producer
  consumer : SideFine N s.consumer
  strong : s.ch.strong = s.producer.shares + s.consumer.shares
  kept : Kept N s.ch s.ledger
  closed : s.ch.strong = 0 → Closed s.ledger

theorem Side.shares_le {E : Endpoint (Option T)} (e : Side E) : e.shares ≤ 1 := by
  unfold Side.shares
  split_ifs <;> omega

/-- A handle that has been dropped holds no share. -/
theorem shares_of_gone {E : Endpoint (Option T)} {e : Side E} (hf : SideFine N e)
    (he : e.doing.status = some E.gone) : e.shares = 0 := by
  unfold SideFine at hf
  cases hd : e.doing with
  | rest st =>
      rw [hd] at hf he
      simp [Side.shares, hf.mp (Option.some.inj he)]
  | busy whole code =>
      rw [hd] at he
      cases he

namespace Invariant
variable {s t : State A B}

theorem step (hA : Conforms N A) (hB : Conforms N B) (hN : 0 < N) (hw : 16 ≤ w)
    (I : Invariant N s) (h : Step w N s t) : Invariant N t := by
  have hpow : 2 ^ 16 ≤ 2 ^ w := Nat.pow_le_pow_right (by decide) hw
  have hp := s.producer.shares_le
  have hc := s.consumer.shares_le
  obtain ⟨m, hm⟩ := h
  cases m with
  | producer m =>
      obtain ⟨⟨ch, l, e⟩, he, rfl⟩ := Option.map_eq_some_iff.mp hm
      obtain ⟨h1, h2, h3, h4⟩ := Balanced.step hA hN (by omega)
        ⟨I.producer, I.strong, I.kept, I.closed⟩ he
      exact ⟨h1, I.consumer, h2, h3, h4⟩
  | consumer m =>
      obtain ⟨⟨ch, l, e⟩, he, rfl⟩ := Option.map_eq_some_iff.mp hm
      obtain ⟨h1, h2, h3, h4⟩ := Balanced.step hB hN (by omega)
        ⟨I.consumer, I.strong.trans (Nat.add_comm _ _), I.kept, I.closed⟩ he
      exact ⟨I.producer, h1, h2.trans (Nat.add_comm _ _), h3, h4⟩

theorem run (hA : Conforms N A) (hB : Conforms N B) (hN : 0 < N) (hw : 16 ≤ w)
    (I : Invariant N s) (h : Reach w N s t) : Invariant N t := by
  induction h with
  | refl => exact I
  | tail _ hstep ih => exact ih.step hA hB hN hw hstep

/-- After the drop of both handles the channel is gone. -/
theorem dropped (I : Invariant N s) (hd : s.Dropped) : Closed s.ledger := by
  apply I.closed
  rw [I.strong, shares_of_gone I.producer hd.1, shares_of_gone I.consumer hd.2]

end Invariant

end runs

/-! ### Construction and result -/

section result
variable (C : InProcess) (T : Type)

/-- The channel that both constructions return: no slot was touched, and each handle has its
share. -/
def pairMemory : Channel (Option T) :=
  { Channel.zeroed none with capacity := C.N, magic := MAGIC, strong := 2 }

theorem losslessPair_run : (losslessPair C.N C.buffer).run C.w (arcMemory : Channel (Option T)) () =
    (.ok (⟨0, 0, 0⟩, ⟨0, 0, 0⟩), pairMemory C T, ()) := by
  have hpow : 2 ^ 16 ≤ 2 ^ C.w := Nat.pow_le_pow_right (by decide) C.wide
  have h1 : wadd C.w 1 1 = 2 := wadd_of_lt (by omega)
  have h2 : wadd C.w 2 1 = 3 := wadd_of_lt (by omega)
  have h3 : wsub C.w 3 1 = 2 := wsub_of_le (by omega) (by omega)
  have hz : ¬ (0 = MAGIC) := fun h => MAGIC_ne_zero h.symm
  simp [losslessPair, Lossless.joinOrInitializeIn, Lossless.joinConsumer, C.valid, arcMemory,
    pairMemory, Channel.zeroed, Channel.get, Channel.set, hz, incrementStrongCount,
    Mode.backedByArcc, Act.step, h1, h2, h3]

theorem headlessPair_run :
    (headlessPair C.w C.N C.buffer).run C.w (arcMemory : Channel (Option T)) () =
    (.ok (⟨0, 0, 0⟩, ⟨Headless.nextModulo C.w 0 0 1, 1, 0, 0⟩), pairMemory C T, ()) := by
  have hpow : 2 ^ 16 ≤ 2 ^ C.w := Nat.pow_le_pow_right (by decide) C.wide
  have h1 : wadd C.w 1 1 = 2 := wadd_of_lt (by omega)
  have h2 : wadd C.w 2 1 = 3 := wadd_of_lt (by omega)
  have h3 : wsub C.w 3 1 = 2 := wsub_of_le (by omega) (by omega)
  have hz : ¬ (0 = MAGIC) := fun h => MAGIC_ne_zero h.symm
  simp [headlessPair, Headless.joinOrInitializeIn, Headless.joinMulti, C.valid, arcMemory,
    pairMemory, Channel.zeroed, Channel.get, Channel.set, hz, incrementStrongCount,
    Mode.backedByArcc, Act.step, h1, h2, h3]

theorem pair_invariant (f : Flavour) : Invariant C.N (f.pair C T) := by
  cases f with
  | lossless =>
      simp only [Flavour.pair, losslessPair_run]
      exact ⟨⟨nofun, nofun⟩, ⟨nofun, nofun⟩, rfl, ⟨.inr fun _ => rfl, nofun⟩, nofun⟩
  | headless =>
      simp only [Flavour.pair, headlessPair_run]
      exact ⟨⟨nofun, nofun⟩, ⟨nofun, nofun⟩, rfl, ⟨.inr fun _ => rfl, nofun⟩, nofun⟩

theorem conforms (f : Flavour) :
    Conforms C.N (f.producer C T) ∧ Conforms C.N (f.consumer C T) := by
  cases f with
  | lossless => exact ⟨losslessProducer_conforms C T, losslessConsumer_conforms C T⟩
  | headless => exact ⟨headlessProducer_conforms C T, headlessConsumer_conforms C T⟩

variable {C T}

/-- **No complete run accounts for its values.**  In every run of either pair, from the
construction to the drop of both handles, a slot that never received a value is dropped, and
every value that was read out of a slot is dropped once by its receiver and once more by the
channel. -/
theorem complete_run_misaccounts [DecidableEq T] {f : Flavour}
    {s : State (f.producer C T) (f.consumer C T)} (h : Reach C.w C.N (f.pair C T) s)
    (hd : s.Dropped) :
    none ∈ s.ledger.dropped ∧ (∀ v ∈ s.ledger.handed, v ∈ s.ledger.dropped) ∧
      ¬ Accounted s.ledger := by
  obtain ⟨hA, hB⟩ := conforms C T f
  have I := (pair_invariant C T f).run hA hB C.pos C.wide h
  obtain ⟨h1, h2⟩ := I.dropped hd
  exact ⟨h1, h2, fun ha => ha.received h1⟩

/-- A ring of two slots in an `Arc`. -/
def InProcess.small : InProcess := { Config.small with arc := rfl, wide := by decide }

/-- One value is pushed and popped, then both handles are dropped. -/
def onePop : List (Move (Flavour.lossless.producer InProcess.small ℕ)
    (Flavour.lossless.consumer InProcess.small ℕ)) :=
  producerRuns (ProducerCall.push 7) 6 ++ producerRuns ProducerCall.sync 4 ++
    consumerRuns ConsumerCall.pop 10 ++ consumerRuns ConsumerCall.drop 2 ++
    producerRuns ProducerCall.drop 2

theorem complete_run_misaccounts_onePop :
    ∃ s : State (Flavour.lossless.producer InProcess.small ℕ)
      (Flavour.lossless.consumer InProcess.small ℕ),
    Reach 64 2 (Flavour.lossless.pair InProcess.small ℕ) s ∧ s.Dropped ∧
    s.ledger.handed = [some 7] ∧ none ∈ s.ledger.dropped ∧
    (∀ v ∈ s.ledger.handed, v ∈ s.ledger.dropped) ∧ ¬ Accounted s.ledger := by
  have h : ((Flavour.lossless.pair InProcess.small ℕ).moves 64 2 onePop).map (fun s =>
      ((s.producer.doing.status : Option Lossless.ProducerStatus),
        (s.consumer.doing.status : Option Lossless.ConsumerStatus), s.ledger.handed)) =
      some (some .gone, some .gone, [some 7]) := by
    decide +kernel
  obtain ⟨s, hs, hr⟩ := Option.map_eq_some_iff.mp h
  have hd : s.Dropped := ⟨congrArg Prod.fst hr, congrArg (fun x => x.2.1) hr⟩
  exact ⟨s, State.moves_reach hs, hd, congrArg (fun x => x.2.2) hr,
    complete_run_misaccounts (State.moves_reach hs) hd⟩

/-- In that run the destructor of the value runs twice, and the second slot, which never received
a value, is dropped. -/
theorem not_accounted_onePop :
    ¬ ∀ s : State (Flavour.lossless.producer InProcess.small ℕ)
      (Flavour.lossless.consumer InProcess.small ℕ),
    Reach 64 2 (Flavour.lossless.pair InProcess.small ℕ) s → s.Dropped → Accounted s.ledger := by
  have h : ((Flavour.lossless.pair InProcess.small ℕ).moves 64 2 onePop).map (fun s =>
      ((s.producer.doing.status : Option Lossless.ProducerStatus),
        (s.consumer.doing.status : Option Lossless.ConsumerStatus), s.ledger)) =
      some (some .gone, some .gone, ⟨[some 7], [some 7], [none, some 7, none]⟩) := by
    decide +kernel
  obtain ⟨s, hs, hr⟩ := Option.map_eq_some_iff.mp h
  have hl : s.ledger = ⟨[some 7], [some 7], [none, some 7, none]⟩ := congrArg (fun x => x.2.2) hr
  intro hall
  have hacc := hall s (State.moves_reach hs) ⟨congrArg Prod.fst hr, congrArg (fun x => x.2.1) hr⟩
  have := hacc.once 7 (by rw [hl]; decide)
  rw [hl] at this
  exact absurd this (by decide)

end result

end Que.Ownership
