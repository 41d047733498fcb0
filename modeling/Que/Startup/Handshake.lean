import Que.Startup.System

/-! # The join acknowledgement

A producer that initialises a channel and then polls `consumer_heartbeat`, against a consumer
that retries its join until it succeeds and then calls `beat` once.

The constructor resets the consumer's heartbeat, stores the magic and only then loads the
heartbeat that it will compare with.  A beat that falls before that load is already contained in
the value loaded, and no poll reports it; a later beat is reported by the first poll that loads
the heartbeat after it (`acknowledged_iff`).

* **Parties.** `Constructor` lists the initialising constructors of both flavours; the consumer is
  a `Joiner` of either flavour.
* **History.** `loaded`: the constructor has loaded the consumer's heartbeat.  `beat`: the consumer
  has beaten; `early`: it did so before that load.  `counting`: the poll that is running (or the
  last one) loaded the heartbeat after the beat.  `first`: what the first such poll returned. -/

namespace Que.Startup

open Lib

variable {L M V : Type}

/-! ### The two parties -/

/-- The constructors that initialise a channel whose magic is zero. -/
inductive Constructor where
  | losslessInitialize
  | losslessShmem
  | headlessInitialize
  | headlessShmem

namespace Constructor

/-- The own structure of the producer. -/
abbrev Own : Constructor → Type
  | losslessInitialize | losslessShmem => Lossless.Handle
  | headlessInitialize | headlessShmem => Producer

def code (C : Config) : (c : Constructor) → Proc c.Own V (Outcome Producer)
  | losslessInitialize => Lossless.joinOrInitializeIn C.mode C.N C.buffer
  | losslessShmem => Lossless.joinOrCreateShmem C.N
  | headlessInitialize => Headless.joinOrInitializeIn C.mode C.N C.buffer
  | headlessShmem => Headless.joinOrCreateShmem C.N

/-- The structure around the producer that the constructor returned. -/
def install : (c : Constructor) → Producer → c.Own
  | losslessInitialize, p | losslessShmem, p => (⟨p, ⟨0, 0, 0, false⟩⟩ : Lossless.Handle)
  | headlessInitialize, p | headlessShmem, p => (p : Producer)

/-- `consumer_heartbeat`. -/
def poll : (c : Constructor) → Proc c.Own V Bool
  | losslessInitialize | losslessShmem => Lossless.consumerHeartbeat
  | headlessInitialize | headlessShmem => Headless.consumerHeartbeat

/-- The heartbeat that a poll compares with. -/
def last : (c : Constructor) → c.Own → ℕ
  | losslessInitialize, h | losslessShmem, h =>
      (show Lossless.Handle from h).producer.lastConsumerHeartbeat
  | headlessInitialize, p | headlessShmem, p => (show Producer from p).lastConsumerHeartbeat

end Constructor

namespace Joiner

/-- The own structure of the consumer. -/
abbrev Own : Joiner → Type
  | lossless => Lossless.Consumer
  | headless _ _ _ _ => Headless.Consumer

/-- The structure before the join has returned; it is not read. -/
def unset : (j : Joiner) → j.Own
  | lossless => (⟨0, 0, 0⟩ : Lossless.Consumer)
  | headless _ _ _ _ => (⟨0, 0, 0, 0⟩ : Headless.Consumer)

/-- One attempt to join. -/
def attempt (C : Config) : (j : Joiner) → Proc j.Own V (Outcome j.Own)
  | lossless => Lossless.joinConsumer C.mode C.N C.buffer
  | headless index consumers _ _ => Headless.joinMulti C.w C.mode C.N C.buffer index consumers

def beat : (j : Joiner) → Proc j.Own V Unit
  | lossless => Lossless.beatConsumer
  | headless _ _ _ _ => Headless.beatConsumer

end Joiner

namespace Handshake

/-! ### States and steps -/

inductive ProducerThread (L V : Type) where
  | constructing (code : Proc L V (Outcome Producer))
  | failed
  | idle
  | polling (code : Proc L V Bool)

inductive ConsumerThread (M V : Type) where
  | joining (code : Proc M V (Outcome M))
  | beating (code : Proc M V Unit)
  | done

/-- The shared memory, the producer's own structure and the history. -/
structure View (L V : Type) where
  ch : Channel V
  own : L
  loaded : Bool
  beat : Bool
  early : Bool
  counting : Bool

structure State (L M V : Type) where
  view : View L V
  cursor : M
  producer : ProducerThread L V
  consumer : ConsumerThread M V
  first : Option Bool

/-- The action loads the consumer's heartbeat. -/
def loadsHeartbeat : Act L V → Bool
  | .load .consumerHeartbeat => true
  | _ => false

/-- The action advances the consumer's heartbeat. -/
def beats : Act M V → Bool
  | .fetchAdd .consumerHeartbeat _ => true
  | _ => false

namespace View

/-- The effect of an action of the constructor. -/
def constructorDoes (w : ℕ) (a : Act L V) (v : View L V) : View L V :=
  let r := a.step w (v.ch, v.own)
  { v with ch := r.2.1, own := r.2.2, loaded := loadsHeartbeat a || v.loaded }

/-- The effect of an action of a poll. -/
def pollDoes (w : ℕ) (a : Act L V) (v : View L V) : View L V :=
  let r := a.step w (v.ch, v.own)
  { v with ch := r.2.1, own := r.2.2, counting := if loadsHeartbeat a then v.beat else v.counting }

/-- The effect of an action of the consumer. -/
def consumerDoes (w : ℕ) (a : Act M V) (cursor : M) (v : View L V) : View L V :=
  { v with
    ch := (a.step w (v.ch, cursor)).2.1
    beat := beats a || v.beat
    early := if beats a && !v.beat then !v.loaded else v.early }

end View

/-- Before the first action, on the memory `m`. -/
def State.initial (C : Config) (c : Constructor) (j : Joiner) (m : Channel V) :
    State c.Own j.Own V where
  view := ⟨m, c.install ⟨0, 0, 0⟩, false, false, false, false⟩
  cursor := j.unset
  producer := .constructing (c.code C)
  consumer := .joining (j.attempt C)
  first := none

/-- What the first counting poll returned, after a poll has returned `b`. -/
def firstAfter (counting b : Bool) (first : Option Bool) : Option Bool :=
  first <|> if counting then some b else none

namespace State
variable {c : Constructor} {j : Joiner}

/-- The state after a step of the given party, if it has one left. -/
def move (C : Config) (s : State c.Own j.Own V) : Party → Option (State c.Own j.Own V)
  | .initialiser =>
      match s.producer with
      | .constructing (.act a k) =>
          some { s with
            view := s.view.constructorDoes C.w a
            producer := .constructing (k (a.step C.w (s.view.ch, s.view.own)).1) }
      | .constructing (.ret (.ok p)) =>
          some { s with view := { s.view with own := c.install p }, producer := .idle }
      | .constructing (.ret _) => some { s with producer := .failed }
      | .failed => none
      | .idle => some { s with producer := .polling c.poll }
      | .polling (.act a k) =>
          some { s with
            view := s.view.pollDoes C.w a
            producer := .polling (k (a.step C.w (s.view.ch, s.view.own)).1) }
      | .polling (.ret b) =>
          some { s with producer := .idle, first := firstAfter s.view.counting b s.first }
  | .joiner =>
      match s.consumer with
      | .joining (.act a k) =>
          some { s with
            view := s.view.consumerDoes C.w a s.cursor
            cursor := (a.step C.w (s.view.ch, s.cursor)).2.2
            consumer := .joining (k (a.step C.w (s.view.ch, s.cursor)).1) }
      | .joining (.ret (.ok x)) => some { s with cursor := x, consumer := .beating j.beat }
      | .joining (.ret _) => some { s with consumer := .joining (j.attempt C) }
      | .beating (.act a k) =>
          some { s with
            view := s.view.consumerDoes C.w a s.cursor
            cursor := (a.step C.w (s.view.ch, s.cursor)).2.2
            consumer := .beating (k (a.step C.w (s.view.ch, s.cursor)).1) }
      | .beating (.ret _) => some { s with consumer := .done }
      | .done => none

/-- The state after a schedule. -/
def moves (C : Config) (s : State c.Own j.Own V) : List Party → Option (State c.Own j.Own V)
  | [] => some s
  | m :: ms => (s.move C m).bind fun t => t.moves C ms

end State

/-- One step of either party. -/
def Step (C : Config) {c : Constructor} {j : Joiner} (s t : State c.Own j.Own V) : Prop :=
  ∃ m, s.move C m = some t

abbrev Reach (C : Config) {c : Constructor} {j : Joiner} :
    State c.Own j.Own V → State c.Own j.Own V → Prop := Relation.ReflTransGen (Step C)

theorem State.moves_reach {C : Config} {c : Constructor} {j : Joiner} {ms : List Party}
    {s t : State c.Own j.Own V} (h : s.moves C ms = some t) : Reach C s t := by
  induction ms generalizing s with
  | nil =>
      cases h
      exact .refl
  | cons m ms ih =>
      obtain ⟨u, hu, ht⟩ := Option.bind_eq_some_iff.mp h
      exact .head ⟨m, hu⟩ (ih ht)

/-! ### The contracts -/

section contracts
variable {v u t : View L V}

/-- The heartbeat that the constructor loaded already contained the beat. -/
def lost (v : View L V) : Bool := v.beat && v.early

/-- What both parties keep true: the consumer beats only on a published channel, whose heartbeat
counts the beat; a beat before the constructor's load is early. -/
structure Coherent (v : View L V) : Prop where
  heartbeat : (v.ch.magic = 0 ∧ v.beat = false) ∨
    (v.ch.magic = MAGIC ∧ v.ch.consumerHeartbeat = v.beat.toNat)
  early : v.loaded = false → v.beat = true → v.early = true

/-- What the producer relies on. -/
structure Answers (v u : View L V) : Prop where
  own : u.own = v.own
  loaded : u.loaded = v.loaded
  counting : u.counting = v.counting
  magic : u.ch.magic = v.ch.magic
  heartbeat : v.ch.magic = 0 → u.ch.consumerHeartbeat = v.ch.consumerHeartbeat
  latched : v.beat = true → u.beat = true ∧ u.early = v.early
  early : v.beat = false → u.beat = true → u.early = !v.loaded

theorem Answers.refl (v : View L V) : Answers v v :=
  ⟨rfl, rfl, rfl, rfl, fun _ => rfl, fun h => ⟨h, rfl⟩, fun h h' => by rw [h] at h'; cases h'⟩

theorem Answers.trans (h : Answers v u) (h' : Answers u t) : Answers v t := by
  refine ⟨h'.own.trans h.own, h'.loaded.trans h.loaded, h'.counting.trans h.counting,
    h'.magic.trans h.magic, fun hm => (h'.heartbeat (h.magic.trans hm)).trans (h.heartbeat hm),
    fun hb => ?_, fun hb hb' => ?_⟩
  · obtain ⟨h1, h2⟩ := h.latched hb
    exact ⟨(h'.latched h1).1, (h'.latched h1).2.trans h2⟩
  · cases hu : u.beat with
    | true => exact (h'.latched hu).2.trans (h.early hb hu)
    | false => rw [h'.early hu hb', h.loaded]

/-- After the constructor's load, nothing is lost any more. -/
theorem Answers.lost (h : Answers v u) (hl : v.loaded = true) : lost u = lost v := by
  unfold Handshake.lost
  cases hb : v.beat with
  | true =>
      obtain ⟨h1, h2⟩ := h.latched hb
      rw [h1, h2]
  | false =>
      cases hu : u.beat with
      | true => rw [h.early hb hu, hl]; rfl
      | false => rfl

/-- What the consumer relies on. -/
structure Kept (v u : View L V) : Prop where
  magic : v.ch.magic = MAGIC → u.ch.magic = MAGIC
  beat : u.beat = v.beat

/-- The contract of the constructor. -/
def constructorContract (C : Config) : Contract (Act L V) Act.Ans (View L V) where
  step a v := ((a.step C.w (v.ch, v.own)).1, v.constructorDoes C.w a)
  asm _ v := Coherent v
  rely := Answers
  guar _ v u := Kept v u ∧ Coherent u
  rely_refl := Answers.refl
  rely_trans := Answers.trans

/-- The contract of a poll. -/
def pollContract (C : Config) : Contract (Act L V) Act.Ans (View L V) where
  step a v := ((a.step C.w (v.ch, v.own)).1, v.pollDoes C.w a)
  asm _ v := Coherent v
  rely := Answers
  guar _ v u := Kept v u ∧ Coherent u
  rely_refl := Answers.refl
  rely_trans := Answers.trans

/-- The contract of the consumer, with its own structure beside the view. -/
def consumerContract (C : Config) : Contract (Act M V) Act.Ans (View L V × M) where
  step a s := ((a.step C.w (s.1.ch, s.2)).1,
    (s.1.consumerDoes C.w a s.2, (a.step C.w (s.1.ch, s.2)).2.2))
  asm _ s := Coherent s.1
  rely s t := Kept s.1 t.1 ∧ t.2 = s.2
  guar _ s t := Answers s.1 t.1 ∧ Coherent t.1
  rely_refl _ := ⟨⟨id, rfl⟩, rfl⟩
  rely_trans h h' := ⟨⟨fun hm => h'.1.magic (h.1.magic hm), h'.1.beat.trans h.1.beat⟩,
    h'.2.trans h.2⟩

end contracts

/-! ### The constructors -/

section constructor
variable {C : Config} {α : Type} {Q : α → View L V → Prop} {v u : View L V} {z : Prop}

/-- During the initialisation; `z` says that the consumer's heartbeat has been reset. -/
structure Blank (z : Prop) (v : View L V) : Prop where
  magic : v.ch.magic = 0
  loaded : v.loaded = false
  heartbeat : z → v.ch.consumerHeartbeat = 0

theorem Blank.stable (h : Blank z v) (ha : Answers v u) : Blank z u :=
  ⟨ha.magic.trans h.magic, ha.loaded.trans h.loaded, fun hz =>
    (ha.heartbeat h.magic).trans (h.heartbeat hz)⟩

/-- As long as the magic stays zero, every action is allowed. -/
theorem Blank.guar (h : Blank z v) (hc : Coherent v) {u : View L V} (hu : u.ch.magic = 0)
    (hb : u.beat = v.beat) : Kept v u ∧ Coherent u := by
  have hv : v.beat = false := by
    rcases hc.heartbeat with ⟨_, h1⟩ | ⟨h1, _⟩
    · exact h1
    · exact absurd (h1.symm.trans h.magic) MAGIC_ne_zero
  refine ⟨⟨fun hm => absurd (hm.symm.trans h.magic) MAGIC_ne_zero, hb⟩, .inl ⟨hu, hb.trans hv⟩, ?_⟩
  intro _ hu'
  rw [hb, hv] at hu'
  cases hu'

/-- The first two loads: the magic is zero. -/
theorem Blank.safe_load {x : Word} (hx : x = .magic ∨ x = .capacity) {k : ℕ → Proc L V α}
    (h : Blank z v) (hk : ∀ u r, Blank z u → (x = .magic → r = 0) →
      Safe (constructorContract C) (k r) Q u) :
    Safe (constructorContract C) (load x >>= k) Q v := by
  intro u hu hc
  have hb := h.stable hu
  rcases hx with rfl | rfl
  · exact ⟨hb.guar hc hb.magic rfl, hk u _ hb fun _ => hb.magic⟩
  · exact ⟨hb.guar hc hb.magic rfl, hk u _ hb fun h => by cases h⟩

/-- Resetting a header word; `y` says whether the heartbeat has been reset after it. -/
theorem Blank.safe_store {x : Word} {n : ℕ} {k : Unit → Proc L V α} (h : Blank z v) (y : Prop)
    (hx : x ≠ .magic ∨ n = 0) (hz : y → if x = .consumerHeartbeat then n = 0 else z)
    (hk : ∀ u, Blank y u → Safe (constructorContract C) (k ()) Q u) :
    Safe (constructorContract C) (store x n >>= k) Q v := by
  intro u hu hc
  have hb := h.stable hu
  have hm : (u.ch.set x n).magic = 0 := by
    cases x with
    | magic => exact hx.resolve_left (not_not.mpr rfl)
    | _ => exact hb.magic
  refine ⟨hb.guar hc hm rfl, hk _ ⟨hm, hb.loaded, fun hy => ?_⟩⟩
  have := hz hy
  cases x with
  | consumerHeartbeat => exact this
  | _ => exact hb.heartbeat this

/-- What an initialising constructor returns. -/
structure Constructed (r : Outcome Producer) (v : View L V) : Prop where
  result : ∃ p, r = .ok p ∧ p.lastConsumerHeartbeat = (lost v).toNat
  magic : v.ch.magic = MAGIC
  loaded : v.loaded = true

theorem Constructed.stable {r : Outcome Producer} (h : Constructed r v) (ha : Answers v u) :
    Constructed r u := by
  refine ⟨?_, ha.magic.trans h.magic, ha.loaded.trans h.loaded⟩
  rw [ha.lost h.loaded]
  exact h.result

/-- The load of the heartbeat: it contains the beat exactly if that was early. -/
theorem construct_load_safe (hm : v.ch.magic = MAGIC) (hl : v.loaded = false) :
    Safe (constructorContract C)
      (load .consumerHeartbeat >>= fun x => .ret (.ok (⟨0, 0, x⟩ : Producer))) Constructed v := by
  intro u hu hc
  have hum := hu.magic.trans hm
  have hchb : u.ch.consumerHeartbeat = u.beat.toNat := by
    rcases hc.heartbeat with ⟨h1, _⟩ | ⟨_, h1⟩
    · exact absurd (hum.symm.trans h1) MAGIC_ne_zero
    · exact h1
  have hlost : lost u = u.beat := by
    cases hb : u.beat with
    | true => rw [lost, hb, hc.early (hu.loaded.trans hl) hb]; rfl
    | false => rw [lost, hb]; rfl
  refine ⟨⟨⟨id, rfl⟩, hc.heartbeat, fun h => by cases h⟩, Safe.ret fun t ht => ?_⟩
  refine Constructed.stable (v := { u with loaded := true }) ⟨⟨_, rfl, ?_⟩, hum, rfl⟩ ht
  exact hchb.trans (congrArg Bool.toNat hlost.symm)

/-- The end of the constructors: the magic is stored and the heartbeat loaded. -/
theorem construct_safe (h : Blank True v) {c : Proc L V Unit}
    (hc : c = incrementStrongCount .local ∨ c = .ret ()) :
    Safe (constructorContract C)
      (do
        store .magic MAGIC
        c
        let lastConsumerHeartbeat ← load .consumerHeartbeat
        return Outcome.ok (⟨0, 0, lastConsumerHeartbeat⟩ : Producer))
      Constructed v := by
  intro u hu hco
  have hb := h.stable hu
  have hbeat : u.beat = false := by
    rcases hco.heartbeat with ⟨_, h1⟩ | ⟨h1, _⟩
    · exact h1
    · exact absurd (h1.symm.trans hb.magic) MAGIC_ne_zero
  refine ⟨⟨⟨fun _ => rfl, rfl⟩, .inr ⟨rfl, ?_⟩, hco.early⟩, ?_⟩
  · exact (hb.heartbeat trivial).trans (congrArg Bool.toNat hbeat.symm)
  rcases hc with rfl | rfl
  · intro t ht htc
    refine ⟨⟨⟨id, rfl⟩, htc.heartbeat, htc.early⟩, construct_load_safe ht.magic ?_⟩
    exact ht.loaded.trans hb.loaded
  · exact construct_load_safe rfl hb.loaded

theorem constructor_safe (c : Constructor) {v : View c.Own V} (hm : v.ch.magic = 0)
    (hl : v.loaded = false) :
    Safe (constructorContract C) (c.code C) Constructed v := by
  have h : Blank False v := ⟨hm, hl, False.elim⟩
  have hmode : (incrementStrongCount C.mode : Proc c.Own V Unit) = incrementStrongCount .local ∨
      (incrementStrongCount C.mode : Proc c.Own V Unit) = .ret () := by
    cases C.mode with
    | shmem => exact .inr rfl
    | «local» => exact .inl rfl
  cases c with
  | losslessInitialize =>
      simp only [Constructor.code, Lossless.joinOrInitializeIn, C.valid, Bool.true_eq_false,
        if_false]
      apply h.safe_load (.inl rfl)
      intro v₁ r h₁ hr
      apply h₁.safe_load (.inr rfl)
      intro v₂ _ h₂ _
      simp only [hr rfl, MAGIC_ne_zero.symm, if_false, if_true]
      apply h₂.safe_store False (.inl (by decide)) False.elim
      intro v₃ h₃
      refine h₃.safe_store True (.inl (by decide)) (fun _ => rfl) ?_
      intro v₄ h₄
      refine h₄.safe_store True (.inl (by decide)) (fun _ => trivial) ?_
      intro v₅ h₅
      refine h₅.safe_store True (.inl (by decide)) (fun _ => trivial) ?_
      intro v₆ h₆
      exact construct_safe h₆ hmode
  | losslessShmem =>
      simp only [Constructor.code, Lossless.joinOrCreateShmem]
      apply h.safe_load (.inl rfl)
      intro v₁ r h₁ hr
      apply h₁.safe_load (.inr rfl)
      intro v₂ _ h₂ _
      simp only [hr rfl, MAGIC_ne_zero.symm, if_false, if_true]
      apply h₂.safe_store False (.inl (by decide)) False.elim
      intro v₃ h₃
      apply h₃.safe_store False (.inl (by decide)) False.elim
      intro v₄ h₄
      refine h₄.safe_store True (.inl (by decide)) (fun _ => rfl) ?_
      intro v₅ h₅
      refine h₅.safe_store True (.inl (by decide)) (fun _ => trivial) ?_
      intro v₆ h₆
      exact construct_safe h₆ (.inr rfl)
  | headlessInitialize =>
      simp only [Constructor.code, Headless.joinOrInitializeIn, C.valid, Bool.true_eq_false,
        if_false]
      apply h.safe_load (.inl rfl)
      intro v₁ r h₁ hr
      apply h₁.safe_load (.inr rfl)
      intro v₂ _ h₂ _
      simp only [hr rfl, MAGIC_ne_zero.symm, if_false, if_true]
      apply h₂.safe_store False (.inr rfl) False.elim
      intro v₃ h₃
      apply h₃.safe_store False (.inl (by decide)) False.elim
      intro v₄ h₄
      apply h₄.safe_store False (.inl (by decide)) False.elim
      intro v₅ h₅
      refine h₅.safe_store True (.inl (by decide)) (fun _ => rfl) ?_
      intro v₆ h₆
      refine h₆.safe_store True (.inl (by decide)) (fun _ => trivial) ?_
      intro v₇ h₇
      exact construct_safe h₇ hmode
  | headlessShmem =>
      simp only [Constructor.code, Headless.joinOrCreateShmem]
      apply h.safe_load (.inl rfl)
      intro v₁ r h₁ hr
      apply h₁.safe_load (.inr rfl)
      intro v₂ _ h₂ _
      simp only [hr rfl, MAGIC_ne_zero.symm, if_false, if_true]
      apply h₂.safe_store False (.inl (by decide)) False.elim
      intro v₃ h₃
      apply h₃.safe_store False (.inl (by decide)) False.elim
      intro v₄ h₄
      refine h₄.safe_store True (.inl (by decide)) (fun _ => rfl) ?_
      intro v₅ h₅
      refine h₅.safe_store True (.inl (by decide)) (fun _ => trivial) ?_
      intro v₆ h₆
      exact construct_safe h₆ (.inr rfl)

end constructor

/-! ### Polls -/

section poll
variable {C : Config} {v u : View L V} {last : L → ℕ} {F : Prop}

/-- Between polls; `F` says that no poll has counted yet. -/
structure Ready (last : L → ℕ) (F : Prop) (v : View L V) : Prop where
  magic : v.ch.magic = MAGIC
  loaded : v.loaded = true
  last : F → last v.own = (lost v).toNat

theorem Ready.stable (h : Ready last F v) (ha : Answers v u) : Ready last F u := by
  refine ⟨ha.magic.trans h.magic, ha.loaded.trans h.loaded, ?_⟩
  rw [ha.own, ha.lost h.loaded]
  exact h.last

/-- What a poll returns: if it counts, whether the beat was not lost. -/
structure Polled (last : L → ℕ) (F : Prop) (b : Bool) (v : View L V) : Prop where
  magic : v.ch.magic = MAGIC
  loaded : v.loaded = true
  counting : v.counting = true → v.beat = true ∧ (F → b = !lost v)
  skipped : v.counting = false → F → last v.own = (lost v).toNat

theorem Polled.stable {b : Bool} (h : Polled last F b v) (ha : Answers v u) :
    Polled last F b u := by
  have hlost := ha.lost h.loaded
  refine ⟨ha.magic.trans h.magic, ha.loaded.trans h.loaded, fun hc => ?_, fun hc => ?_⟩
  · obtain ⟨h1, h2⟩ := h.counting (ha.counting.symm.trans hc)
    exact ⟨(ha.latched h1).1, by rwa [hlost]⟩
  · rw [ha.own, hlost]
    exact h.skipped (ha.counting.symm.trans hc)

/-- The comparison that a poll makes when it loads the heartbeat at `v`. -/
theorem Ready.compare (h : Ready last F v) (hF : F) :
    (v.beat = true → ((v.beat.toNat ≠ last v.own) ↔ lost v = false)) ∧
    (v.beat = false → v.beat.toNat = last v.own) := by
  rw [h.last hF]
  unfold lost
  cases v.beat <;> cases v.early <;> simp

/-- The code of `consumer_heartbeat`, for any way of keeping the last heartbeat. -/
theorem poll_safe {f : ℕ → L → L} (h : Ready last F v) :
    Safe (pollContract C)
      (do
        let heartbeat ← load .consumerHeartbeat
        let h ← self
        if heartbeat ≠ last h then
          update (f heartbeat)
          return true
        else
          return false)
      (Polled last F) v := by
  intro u hu hc
  have hr := h.stable hu
  have hchb : u.ch.consumerHeartbeat = u.beat.toNat := by
    rcases hc.heartbeat with ⟨h1, _⟩ | ⟨_, h1⟩
    · exact absurd (hr.magic.symm.trans h1) MAGIC_ne_zero
    · exact h1
  refine ⟨⟨⟨id, rfl⟩, hc.heartbeat, hc.early⟩, fun t ht htc =>
    ⟨⟨⟨id, rfl⟩, htc.heartbeat, htc.early⟩, ?_⟩⟩
  have hown : t.own = u.own := ht.own
  have hcount : t.counting = u.beat := ht.counting
  have hlost : lost t = lost u := ht.lost hr.loaded
  have htm : t.ch.magic = MAGIC := ht.magic.trans hr.magic
  have htl : t.loaded = true := ht.loaded.trans hr.loaded
  have hbeat : t.counting = true → t.beat = true := fun h => (ht.latched (hcount ▸ h)).1
  change Safe _ (if u.ch.consumerHeartbeat ≠ last t.own then _ else _) _ t
  rw [hown, hchb]
  split_ifs with hne
  · have hp : ∀ o, Polled last F true { t with own := o } := by
      refine fun o => ⟨htm, htl, fun h => ⟨hbeat h, fun hF => ?_⟩, fun h hF => ?_⟩
      · have := ((hr.compare hF).1 (hcount ▸ h)).mp hne
        rw [show lost { t with own := o } = lost t from rfl, hlost, this]
        rfl
      · exact absurd ((hr.compare hF).2 (hcount.symm.trans h)) hne
    intro x hx hxc
    refine ⟨⟨⟨id, rfl⟩, hxc.heartbeat, hxc.early⟩, Safe.ret fun y hy => ?_⟩
    refine (hp (f u.ch.consumerHeartbeat x.own)).stable (Answers.trans ?_ hy)
    exact ⟨rfl, hx.loaded, hx.counting, hx.magic, hx.heartbeat, hx.latched, hx.early⟩
  · have hp : Polled last F false t := by
      refine ⟨htm, htl, fun h => ⟨hbeat h, fun hF => ?_⟩, fun h hF => ?_⟩
      · have hb := (hr.compare hF).1 (hcount ▸ h)
        rw [hlost]
        cases hl : lost u with
        | true => rfl
        | false => exact absurd (hb.mpr hl) hne
      · rw [hown, hlost]
        exact hr.last hF
    exact Safe.ret fun y hy => hp.stable hy

theorem consumerHeartbeat_safe (c : Constructor) {v : View c.Own V} (h : Ready c.last F v) :
    Safe (pollContract C) c.poll (Polled c.last F) v := by
  cases c with
  | losslessInitialize | losslessShmem =>
      exact poll_safe (f := fun x h => h.setLastConsumerHeartbeat x) h
  | headlessInitialize | headlessShmem =>
      exact poll_safe (f := fun x p => { p with lastConsumerHeartbeat := x }) h

end poll

/-! ### The consumer -/

section consumer
variable {C : Config} {α : Type} {Q : α → View L V × M → Prop} {s t : View L V × M}

/-- The consumer has not beaten; when `m`, it has seen the magic. -/
structure Silent (m : Prop) (s : View L V × M) : Prop where
  beat : s.1.beat = false
  magic : m → s.1.ch.magic = MAGIC

theorem Silent.stable {m : Prop} (h : Silent m s) (hk : Kept s.1 t.1) : Silent m t :=
  ⟨hk.beat.trans h.beat, fun hm => hk.magic (h.magic hm)⟩

/-- The actions of a join: none of them touches the magic or a heartbeat. -/
def joins : Act M V → Bool
  | .load _ | .store .head _ | .fetchAdd .strong _ => true
  | _ => false

theorem safe_join {m : Prop} {a : Act M V} {k : a.Ans → Proc M V α} (ha : joins a = true)
    (h : Silent m s)
    (hk : ∀ t u : View L V × M, Silent m t → Silent m u → u.1.ch.magic = t.1.ch.magic →
      Safe (consumerContract C) (k (a.step C.w (t.1.ch, t.2)).1) Q u) :
    Safe (consumerContract C) (.act a k) Q s := by
  intro t ht hc
  have hs := h.stable ht.1
  have key : (t.1.consumerDoes C.w a t.2).ch.magic = t.1.ch.magic ∧
      (t.1.consumerDoes C.w a t.2).ch.consumerHeartbeat = t.1.ch.consumerHeartbeat ∧
      beats a = false := by
    cases a with
    | load x => exact ⟨rfl, rfl, rfl⟩
    | store x n =>
        cases x with
        | head => exact ⟨rfl, rfl, rfl⟩
        | _ => cases ha
    | fetchAdd x n =>
        cases x with
        | strong => exact ⟨rfl, rfl, rfl⟩
        | _ => cases ha
    | _ => cases ha
  obtain ⟨h1, h2, h3⟩ := key
  have hbeat : (t.1.consumerDoes C.w a t.2).beat = t.1.beat := by simp [View.consumerDoes, h3]
  have hearly : (t.1.consumerDoes C.w a t.2).early = t.1.early := by simp [View.consumerDoes, h3]
  refine ⟨⟨⟨rfl, rfl, rfl, h1, fun _ => h2, fun hb => ⟨hbeat.trans hb, hearly⟩, fun hb hb' => ?_⟩,
    ?_, fun hl hb => hearly.trans (hc.early hl (hbeat.symm.trans hb))⟩,
    hk t _ hs ⟨hbeat.trans hs.beat, fun hm => h1.trans (hs.magic hm)⟩ h1⟩
  · exact absurd (hb'.symm.trans (hbeat.trans hb)) (by decide)
  · exact hc.heartbeat.imp (fun h => ⟨h1.trans h.1, hbeat.trans h.2⟩)
      fun h => ⟨h1.trans h.1, h2.trans (h.2.trans (congrArg Bool.toNat hbeat.symm))⟩

/-- A join that succeeds has seen the magic. -/
def Joined (r : Outcome α) (s : View L V × M) : Prop := Silent (∃ x, r = .ok x) s

/-- The common code of the two joins; `found` continues after the checks. -/
theorem join_safe {N : ℕ} {found : Proc M V (Outcome α)} (h : Silent False s)
    (hf : ∀ t : View L V × M, Silent True t → Safe (consumerContract C) found Joined t) :
    Safe (consumerContract C)
      (do
        let magic ← load .magic
        let capacity ← load .capacity
        if magic = MAGIC then
          if capacity ≠ N then
            return .err (.incorrectCapacity capacity)
          else
            found
        else if magic = 0 then
          return .err .uninitialized
        else
          return .err .corruptionDetected)
      Joined s := by
  have fails : ∀ (e : QueError) (t : View L V × M), Silent False t →
      Safe (consumerContract C) (.ret (.err e) : Proc M V (Outcome α)) Joined t := by
    intro e t ht
    refine Safe.ret fun u hu => ⟨(ht.stable hu.1).beat, ?_⟩
    rintro ⟨x, hx⟩
    cases hx
  apply safe_join rfl h
  intro t u ht hu hm
  have hsilent : Silent (t.1.ch.magic = MAGIC) u := ⟨hu.beat, hm.trans⟩
  apply safe_join rfl hsilent
  intro x y _ hy _
  dsimp only [Prog.bind]
  split_ifs with hmagic hcap hzero
  · exact fails _ y ⟨hy.beat, False.elim⟩
  · exact hf y ⟨hy.beat, fun _ => hy.magic hmagic⟩
  · exact fails _ y ⟨hy.beat, False.elim⟩
  · exact fails _ y ⟨hy.beat, False.elim⟩

/-- The end of the joins. -/
theorem counted_safe {c : Mode} {mk : ℕ → α} (h : Silent True s) :
    Safe (consumerContract C)
      (do
        incrementStrongCount c
        let lastProducerHeartbeat ← load .producerHeartbeat
        return Outcome.ok (mk lastProducerHeartbeat))
      Joined s := by
  have finish : ∀ t : View L V × M, Silent True t → Safe (consumerContract C)
      (load .producerHeartbeat >>= fun x => .ret (Outcome.ok (mk x))) Joined t := by
    intro t ht
    refine safe_join rfl ht fun _ u _ hu _ => Safe.ret ?_
    intro x hx
    exact ⟨(hu.stable hx.1).beat, fun _ => (hu.stable hx.1).magic trivial⟩
  cases c with
  | shmem => exact finish s h
  | «local» => exact safe_join rfl h fun _ u _ hu _ => finish u hu

end consumer

theorem attempt_safe {C : Config} (j : Joiner) {s : View L V × j.Own} (h : Silent False s) :
    Safe (consumerContract C) (j.attempt C) Joined s := by
  cases j with
  | lossless =>
      simp only [Joiner.attempt, Lossless.joinConsumer, C.valid, Bool.true_eq_false, if_false]
      apply join_safe h
      intro t ht
      apply safe_join rfl ht
      intro _ u _ hu _
      exact safe_join rfl hu fun _ x _ hx _ => counted_safe hx
  | headless index consumers h1 h2 =>
      simp only [Joiner.attempt, Headless.joinMulti, C.valid, Bool.true_eq_false, if_false, h1, h2,
        not_true]
      apply join_safe h
      intro t ht
      exact safe_join rfl ht fun _ u _ hu _ => counted_safe hu

/-- The beat of a consumer that has joined. -/
theorem beat_safe {C : Config} (j : Joiner) {s : View L V × j.Own} (h : Silent True s) :
    Safe (consumerContract C) j.beat (fun _ _ => True) s := by
  have key : Safe (consumerContract C)
      (fetchAdd .consumerHeartbeat 1 >>= fun _ => .ret () : Proc j.Own V Unit)
      (fun _ _ => True) s := by
    intro t ht hc
    obtain ⟨hb, hm⟩ := h.stable ht.1
    have hadd : wadd C.w t.1.ch.consumerHeartbeat 1 = 1 := by
      rcases hc.heartbeat with ⟨h1, _⟩ | ⟨_, h1⟩
      · exact absurd ((hm trivial).symm.trans h1) MAGIC_ne_zero
      · have := C.pos
        have := C.fits
        rw [h1, hb]
        exact wadd_of_lt (by simp only [Bool.toNat_false]; omega)
    have hbeats : ∀ a : Act j.Own V, a = .fetchAdd .consumerHeartbeat 1 →
        (t.1.consumerDoes C.w a t.2).early = !t.1.loaded := by
      rintro a rfl
      simp [View.consumerDoes, beats, hb]
    refine ⟨⟨⟨rfl, rfl, rfl, rfl, fun h0 => ?_, fun h1 => ?_, fun _ _ => hbeats _ rfl⟩,
      .inr ⟨hm trivial, hadd⟩, fun hl _ => ?_⟩, Safe.ret fun _ _ => trivial⟩
    · exact absurd ((hm trivial).symm.trans h0) MAGIC_ne_zero
    · rw [hb] at h1
      cases h1
    · exact (hbeats _ rfl).trans (by rw [show t.1.loaded = false from hl]; rfl)
  cases j <;> exact key

/-! ### Every interleaving -/

section runs
variable {C : Config} {c : Constructor} {j : Joiner} {s t : State c.Own j.Own V}

def ProducerFine (C : Config) (c : Constructor) (F : Prop) (v : View c.Own V) :
    ProducerThread c.Own V → Prop
  | .constructing code => Safe (constructorContract C) code Constructed v
  | .failed => False
  | .idle => Ready c.last F v
  | .polling code => Safe (pollContract C) code (Polled c.last F) v

def ConsumerFine (C : Config) (s : View L V × M) : ConsumerThread M V → Prop
  | .joining code => Safe (consumerContract C) code Joined s
  | .beating code => Safe (consumerContract C) code (fun _ _ => True) s
  | .done => True

/-- The invariant of the handshake. -/
structure Invariant (C : Config) (s : State c.Own j.Own V) : Prop where
  coherent : Coherent s.view
  producer : ProducerFine C c (s.first = none) s.view s.producer
  consumer : ConsumerFine C (s.view, s.cursor) s.consumer
  first : ∀ b, s.first = some b → s.view.beat = true ∧ (b = true ↔ s.view.early = false)

theorem ProducerFine.stable {F : Prop} {v u : View c.Own V} {p : ProducerThread c.Own V}
    (h : ProducerFine C c F v p) (ha : Answers v u) : ProducerFine C c F u p := by
  cases p with
  | constructing code => exact Safe.stable h ha
  | failed => exact h
  | idle => exact Ready.stable h ha
  | polling code => exact Safe.stable h ha

theorem ConsumerFine.stable {s t : View L V × M} {p : ConsumerThread M V}
    (h : ConsumerFine C s p) (hk : Kept s.1 t.1) (hc : t.2 = s.2) : ConsumerFine C t p := by
  cases p with
  | joining code => exact Safe.stable h ⟨hk, hc⟩
  | beating code => exact Safe.stable h ⟨hk, hc⟩
  | done => trivial

namespace Invariant

/-- A poll has returned `b`. -/
theorem polled (I : Invariant C s) {b : Bool} (hp : s.producer = .polling (.ret b)) :
    Invariant C { s with producer := .idle, first := firstAfter s.view.counting b s.first } := by
  have hf := I.producer
  rw [hp] at hf
  have h : Polled c.last (s.first = none) b s.view := Safe.done hf
  have hfirst : ∀ x, firstAfter s.view.counting b s.first = some x →
      s.first = some x ∨ (s.first = none ∧ s.view.counting = true ∧ x = b) := by
    intro x hx
    unfold firstAfter at hx
    cases hs : s.first with
    | some y => exact .inl (by simpa [hs] using hx)
    | none =>
        cases hcount : s.view.counting with
        | true => exact .inr ⟨rfl, rfl, by simpa [hs, hcount] using hx.symm⟩
        | false => simp [hs, hcount] at hx
  refine ⟨I.coherent, ⟨h.magic, h.loaded, fun hn => ?_⟩, I.consumer, fun x hx => ?_⟩
  · cases hs : s.first with
    | some y => simp [firstAfter, hs] at hn
    | none =>
        cases hcount : s.view.counting with
        | true => simp [firstAfter, hs, hcount] at hn
        | false => exact h.skipped hcount hs
  · rcases hfirst x hx with h1 | ⟨h1, h2, rfl⟩
    · exact I.first x h1
    · obtain ⟨hb, hx⟩ := h.counting h2
      refine ⟨hb, ?_⟩
      rw [hx h1, lost, hb]
      simp

theorem step (I : Invariant C s) (h : Step C s t) : Invariant C t := by
  obtain ⟨m, hm⟩ := h
  have hp := I.producer
  have hc := I.consumer
  cases m with
  | initialiser =>
      cases hs : s.producer with
      | constructing code =>
          rw [hs] at hp
          cases code with
          | act a k =>
              simp only [State.move, hs, Option.some.injEq] at hm
              subst hm
              obtain ⟨⟨hk, hco⟩, hsafe⟩ := Safe.own hp I.coherent
              exact ⟨hco, hsafe, hc.stable hk rfl, I.first⟩
          | ret r =>
              obtain ⟨p, rfl, hlast⟩ := (Safe.done hp).result
              simp only [State.move, hs, Option.some.injEq] at hm
              subst hm
              refine ⟨⟨I.coherent.heartbeat, I.coherent.early⟩,
                ⟨(Safe.done hp).magic, (Safe.done hp).loaded, fun _ => ?_⟩,
                hc.stable ⟨id, rfl⟩ rfl, I.first⟩
              cases c <;> exact hlast
      | failed =>
          rw [hs] at hp
          exact hp.elim
      | idle =>
          simp only [State.move, hs, Option.some.injEq] at hm
          subst hm
          rw [hs] at hp
          exact ⟨I.coherent, consumerHeartbeat_safe c hp, hc, I.first⟩
      | polling code =>
          cases code with
          | act a k =>
              simp only [State.move, hs, Option.some.injEq] at hm
              subst hm
              rw [hs] at hp
              obtain ⟨⟨hk, hco⟩, hsafe⟩ := Safe.own hp I.coherent
              exact ⟨hco, hsafe, hc.stable hk rfl, I.first⟩
          | ret b =>
              simp only [State.move, hs, Option.some.injEq] at hm
              exact hm ▸ I.polled hs
  | joiner =>
      have answered : ∀ {v : View c.Own V} {x : j.Own} {p : ConsumerThread j.Own V},
          Answers s.view v → Coherent v → ConsumerFine C (v, x) p →
          Invariant C { s with view := v, cursor := x, consumer := p } := by
        intro v x p ha hco hfine
        refine ⟨hco, hp.stable ha, hfine, fun b hb => ?_⟩
        obtain ⟨h1, h2⟩ := I.first b hb
        obtain ⟨h3, h4⟩ := ha.latched h1
        exact ⟨h3, by rw [h4]; exact h2⟩
      cases hs : s.consumer with
      | joining code =>
          rw [hs] at hc
          cases code with
          | act a k =>
              simp only [State.move, hs, Option.some.injEq] at hm
              subst hm
              obtain ⟨⟨ha, hco⟩, hsafe⟩ := Safe.own hc I.coherent
              exact answered ha hco hsafe
          | ret r =>
              have hj : Joined r (s.view, s.cursor) := Safe.done hc
              cases r with
              | ok x =>
                  simp only [State.move, hs, Option.some.injEq] at hm
                  subst hm
                  exact answered (.refl _) I.coherent
                    (beat_safe j ⟨hj.beat, fun _ => hj.magic ⟨x, rfl⟩⟩)
              | err e =>
                  simp only [State.move, hs, Option.some.injEq] at hm
                  subst hm
                  exact answered (.refl _) I.coherent (attempt_safe j ⟨hj.beat, False.elim⟩)
              | panic =>
                  simp only [State.move, hs, Option.some.injEq] at hm
                  subst hm
                  exact answered (.refl _) I.coherent (attempt_safe j ⟨hj.beat, False.elim⟩)
      | beating code =>
          rw [hs] at hc
          cases code with
          | act a k =>
              simp only [State.move, hs, Option.some.injEq] at hm
              subst hm
              obtain ⟨⟨ha, hco⟩, hsafe⟩ := Safe.own hc I.coherent
              exact answered ha hco hsafe
          | ret x =>
              simp only [State.move, hs, Option.some.injEq] at hm
              subst hm
              exact answered (.refl _) I.coherent trivial
      | done => simp [State.move, hs] at hm

theorem run (I : Invariant C s) (h : Reach C s t) : Invariant C t := by
  induction h with
  | refl => exact I
  | tail _ hstep ih => exact ih.step hstep

end Invariant

theorem initial_invariant (C : Config) (c : Constructor) (j : Joiner) {m : Channel V}
    (hm : m.magic = 0) : Invariant C (State.initial C c j m) :=
  ⟨⟨.inl ⟨hm, rfl⟩, fun _ h => by cases h⟩, constructor_safe c hm rfl,
    attempt_safe j ⟨rfl, False.elim⟩, fun _ h => by cases h⟩

/-- A poll begins with the load of the heartbeat. -/
theorem poll_loads (c : Constructor) :
    ∃ k, (c.poll : Proc c.Own V Bool) = .act (.load .consumerHeartbeat) k := by
  cases c <;> exact ⟨_, rfl⟩

/-- **The first poll after the beat reports it exactly when the beat came after the
constructor's load of the heartbeat**, in every interleaving of an initialising producer with a
consumer that joins and beats.  Every poll that returns has loaded the heartbeat, with its first
action. -/
theorem acknowledged_iff (C : Config) (c : Constructor) (j : Joiner) {m : Channel V}
    (hm : m.magic = 0) {s : State c.Own j.Own V} (h : Reach C (State.initial C c j m) s) :
    (∀ b, s.first = some b → (b = true ↔ s.view.early = false)) ∧
      ∃ k, (c.poll : Proc c.Own V Bool) = .act (.load .consumerHeartbeat) k :=
  ⟨fun b hb => (((initial_invariant C c j hm).run h).first b hb).2, poll_loads c⟩

/-- A consumer of the headless channel: the first of one. -/
def onlyConsumer : Joiner := .headless 0 1 (by decide) (by decide)

/-- A beat after the constructor of the headless producer has returned is reported. -/
theorem acknowledged_late : ∃ s : State Producer Headless.Consumer ℕ,
    Reach Config.small
      (State.initial Config.small .headlessInitialize onlyConsumer (Channel.zeroed 0)) s ∧
    s.first = some true ∧ (true = true ↔ s.view.early = false) := by
  have h : ((State.initial Config.small .headlessInitialize onlyConsumer (Channel.zeroed 0)).moves
      Config.small (List.replicate 10 .initialiser ++ List.replicate 8 .joiner ++
        List.replicate 6 .initialiser)).map State.first = some (some true) := by
    decide +kernel
  obtain ⟨s, hs, hf⟩ := Option.map_eq_some_iff.mp h
  obtain ⟨hiff, -⟩ :=
    acknowledged_iff _ .headlessInitialize onlyConsumer rfl (State.moves_reach hs)
  exact ⟨s, State.moves_reach hs, hf, hiff true hf⟩

/-- A consumer that joins and beats between the constructor's store of the magic and its load of
the heartbeat: the first poll after the beat does not report it. -/
theorem not_acknowledged_early :
    ¬ ∀ s : State Lossless.Handle Lossless.Consumer ℕ, Reach Config.small
      (State.initial Config.small .losslessInitialize .lossless (Channel.zeroed 0)) s →
      ∀ b, s.first = some b → b = true := by
  have h : ((State.initial Config.small .losslessInitialize .lossless (Channel.zeroed 0)).moves
      Config.small (List.replicate 7 .initialiser ++ List.replicate 8 .joiner ++
        List.replicate 7 .initialiser)).map State.first = some (some false) := by
    decide +kernel
  obtain ⟨s, hs, hf⟩ := Option.map_eq_some_iff.mp h
  intro hall
  cases hall s (State.moves_reach hs) false hf

end runs

end Handshake

end Que.Startup
