import Que.Memory.System

/-! # An endpoint beside a hostile process

A shared-memory object can be written by every process that has mapped it.  Here one endpoint runs
on the bytes of an object while the rest of the world replaces these bytes between any two of its
actions: the header may change under a reservation, the head may overtake the tail, the magic may
vanish.  Nothing can be said about the values then, but the endpoint still accesses the header and
the ring only.

* **Parties.** `Party` is an endpoint: its own structure, its calls with their code, and what it
  keeps between calls whatever memory answers (`fits`).  The six endpoints of the repository are
  parties; `fits` is `HandleFits` and its like, and `obeys` is a theorem of `Confined.lean`.
* **No limit.** The calls are not restricted to counters below `2 ^ w`, nor the elements to an
  alignment: every endpoint has the ring where its own language puts it.
* **Contract.** The C code trusts its caller not to write more through a reservation than is left of
  it (`C.ProducerOp.allowed`); calls that break this are not made. -/

namespace Que.Memory

open Lib Segment

/-! ### Parties -/

/-- An endpoint on the bytes of a segment. -/
structure Party (u : ℕ) where
  cells : Cells
  Own : Type
  Status : Type
  Op : Type
  Result : Type
  /-- No endpoint is joined. -/
  gone : Status
  enabled : Status → Own → Op → Bool
  /-- The values that a call passes have the size of a cell. -/
  sized : Op → Prop
  code : Status → Op → Proc Own Bytes Result
  /-- The status after a call, or `none` if the call starts another round. -/
  after : Result → Option Status
  fits : Status → Own → Prop
  fits_gone : ∀ own, fits gone own
  obeys : ∀ {st own op}, enabled st own op = true → sized op → fits st own →
    Obeys (answers u) (Fits u cells) (code st op) (fun r own' => ∀ st', after r = some st' →
      fits st' own') own
  /-- Another round may start in any state of the endpoint. -/
  again : ∀ {r}, after r = none → ∀ st op own, Obeys (answers u) (Fits u cells) (code st op)
    (fun r own' => ∀ st', after r = some st' → fits st' own') own

/-- The Rust producer of the lossless queue. -/
def losslessProducer {C : Config} {u : ℕ} {M : Cells} (F : Fitting C 1 u M) : Party u where
  cells := M
  Own := Lossless.Handle
  Status := Lossless.ProducerStatus
  Op := Lossless.ProducerOp Bytes
  Result := Lossless.ProducerStatus × List Bytes
  gone := .gone
  enabled := fun st _ op => op.enabled st
  sized := Lossless.ProducerOp.Sized M.size
  code := fun _ op => op.code C
  after := fun r => some r.1
  fits := Lossless.HandleFits C
  fits_gone := fun _ => trivial
  obeys := fun hen hop hh => (Lossless.ProducerOp.code_obeys F hen hop hh).mono
    fun _ _ h _ e => Option.some.inj e ▸ h
  again := fun e => absurd e (Option.some_ne_none _)

/-- The Rust consumer of the lossless queue. -/
def losslessConsumer {C : Config} {u : ℕ} {M : Cells} (F : Fitting C 1 u M) : Party u where
  cells := M
  Own := Lossless.Consumer
  Status := Lossless.ConsumerStatus
  Op := Lossless.ConsumerOp Bytes
  Result := Lossless.ConsumerStatus × Option Bytes
  gone := .gone
  enabled := fun st _ op => op.enabled st
  sized := Lossless.ConsumerOp.Sized M.size
  code := fun st op => op.code C st
  after := fun r => some r.1
  fits := Lossless.CursorFits C
  fits_gone := fun _ => trivial
  obeys := fun hen hop hc => (Lossless.ConsumerOp.code_obeys F hen hop hc).mono
    fun _ _ h _ e => Option.some.inj e ▸ h
  again := fun e => absurd e (Option.some_ne_none _)

/-- The C producer, with callers that keep to their reservations. -/
def cProducer {S : C.Shared} {u : ℕ} {M : Cells} (F : Fitting S.toConfig 1 u M) : Party u where
  cells := M
  Own := Lossless.Handle
  Status := Lossless.ProducerStatus
  Op := C.ProducerOp Bytes
  Result := Lossless.ProducerStatus × List Bytes
  gone := .gone
  enabled := fun st h op => op.counterpart.enabled st && op.allowed h
  sized := C.ProducerOp.Sized M.size
  code := fun _ op => op.threadCode S
  after := fun r => some r.1
  fits := Lossless.HandleFits S.toConfig
  fits_gone := fun _ => trivial
  obeys := fun hen hop hh =>
    (C.ProducerOp.threadCode_obeys F (Bool.and_eq_true_iff.mp hen).1
      (Bool.and_eq_true_iff.mp hen).2 hop hh).mono fun _ _ h _ e => Option.some.inj e ▸ h
  again := fun e => absurd e (Option.some_ne_none _)

/-- The C consumer. -/
def cConsumer {S : C.Shared} {u : ℕ} {M : Cells} (F : Fitting S.toConfig 1 u M) : Party u where
  cells := M
  Own := Lossless.Consumer
  Status := Lossless.ConsumerStatus
  Op := C.ConsumerOp
  Result := Lossless.ConsumerStatus × Option Bytes
  gone := .gone
  enabled := fun st _ op => (op.counterpart : Lossless.ConsumerOp Bytes).enabled st
  sized := fun _ => True
  code := fun _ op => op.threadCode S
  after := fun r => some r.1
  fits := Lossless.CursorFits S.toConfig
  fits_gone := fun _ => trivial
  obeys := fun hen _ hc => (C.ConsumerOp.threadCode_obeys F hen hc).mono
    fun _ _ h _ e => Option.some.inj e ▸ h
  again := fun e => absurd e (Option.some_ne_none _)

/-- The producer of the headless queue, for elements of `K` cells. -/
def headlessProducer {P : Headless.Params} {K u : ℕ} {M : Cells} (F : Fitting P.toConfig K u M) :
    Party u where
  cells := M
  Own := Producer
  Status := Headless.ProducerStatus
  Op := Headless.ProducerOp Bytes K
  Result := Headless.ProducerStatus
  gone := .gone
  enabled := fun st _ op => op.enabled st
  sized := Headless.ProducerOp.Sized M.size
  code := fun _ op => op.code P
  after := some
  fits := Headless.OwnFits P
  fits_gone := fun _ => trivial
  obeys := fun hen hop hp => (Headless.ProducerOp.code_obeys F hen hop hp).mono
    fun _ _ h _ e => Option.some.inj e ▸ h
  again := fun e => absurd e (Option.some_ne_none _)

/-- A consumer of the headless queue. -/
def headlessConsumer {P : Headless.Params} {K u : ℕ} {M : Cells} (F : Fitting P.toConfig K u M) :
    Party u where
  cells := M
  Own := Headless.Consumer
  Status := Headless.ConsumerStatus
  Op := Headless.ConsumerOp
  Result := Headless.ConsumerResult Bytes K
  gone := .gone
  enabled := fun st _ op => op.enabled st
  sized := fun _ => True
  code := fun _ op => op.code P
  after := fun r =>
    match r with
    | .again => none
    | .done (st, _) => some st
  fits := fun _ _ => True
  fits_gone := fun _ => trivial
  obeys := fun _ _ _ => (Headless.ConsumerOp.code_obeys F _).mono fun _ _ _ _ _ => trivial
  again := fun _ _ _ _ => (Headless.ConsumerOp.code_obeys F _).mono fun _ _ _ _ _ => trivial

/-! ### One party and the rest of the world -/

structure Guarded {u : ℕ} (P : Party u) where
  object : Bytes
  own : P.Own
  thread : Thread P.Own Bytes P.Status (P.Status × P.Op) P.Result

namespace Guarded
variable {u : ℕ} {P : Party u} (s : Guarded P)

/-- The next step of the party itself. -/
def go : Option (Guarded P) :=
  match s.thread with
  | .rest _ => none
  | .busy start op (.act a k) =>
      let r := P.cells.step u a (s.object, s.own)
      some ⟨r.2.1, r.2.2, .busy start op (k r.1)⟩
  | .busy _ op (.ret r) =>
      match P.after r with
      | some st => some { s with thread := .rest st }
      | none => some { s with thread := .busy s.own op (P.code op.1 op.2) }

/-- Where the next action of the party accesses the object, and how many bytes. -/
def nextBytes : Option (ℕ × ℕ) :=
  match s.thread with
  | .busy _ _ (.act a _) => accessedBytes u P.cells a
  | _ => none

/-- The party has not joined yet. -/
def opened (P : Party u) (object : Bytes) (own : P.Own) : Guarded P := ⟨object, own, .rest P.gone⟩

end Guarded

/-- One step: a call, an action or the loss of the party, or a change of the object by someone
else. -/
inductive GuardedStep {u : ℕ} {P : Party u} : Guarded P → Guarded P → Prop
  | call {s : Guarded P} {st : P.Status} (op : P.Op) : s.thread = .rest st →
      P.enabled st s.own op = true → P.sized op →
      GuardedStep s { s with thread := .busy s.own (st, op) (P.code st op) }
  | go {s t : Guarded P} : s.go = some t → GuardedStep s t
  | stop {s : Guarded P} : GuardedStep s { s with thread := .rest P.gone }
  | interfere {s : Guarded P} (object : Bytes) : object.length = s.object.length →
      GuardedStep s { s with object := object }

abbrev GuardedReach {u : ℕ} {P : Party u} : Guarded P → Guarded P → Prop :=
  Relation.ReflTransGen GuardedStep

/-! ### Running a schedule -/

inductive GuardedMove {u : ℕ} (P : Party u) where
  | call (op : P.Op)
  | go
  | interfere (object : Bytes)

namespace Guarded
variable {u : ℕ} {P : Party u}

/-- The state after a move, if it is possible. -/
def move (s : Guarded P) : GuardedMove P → Option (Guarded P)
  | .call op =>
      match s.thread with
      | .rest st =>
          if P.enabled st s.own op = true then
            some { s with thread := .busy s.own (st, op) (P.code st op) }
          else
            none
      | .busy _ _ _ => none
  | .go => s.go
  | .interfere object =>
      if object.length = s.object.length then some { s with object := object } else none

/-- The state after a schedule. -/
def moves (s : Guarded P) : List (GuardedMove P) → Option (Guarded P)
  | [] => some s
  | m :: ms => (s.move m).bind fun t => t.moves ms

end Guarded

theorem Guarded.moves_reach {u : ℕ} {P : Party u} (hP : ∀ op, P.sized op)
    {ms : List (GuardedMove P)} {s t : Guarded P} (h : s.moves ms = some t) : GuardedReach s t := by
  induction ms generalizing s with
  | nil =>
      cases h
      exact .refl
  | cons m ms ih =>
      simp only [moves, Option.bind_eq_some_iff] at h
      obtain ⟨v, hv, ht⟩ := h
      refine .head ?_ (ih ht)
      cases m with
      | call op =>
          cases hs : s.thread with
          | rest st =>
              simp only [move, hs] at hv
              split_ifs at hv with hen
              cases hv
              exact .call op hs hen (hP op)
          | busy start op' code => simp [move, hs] at hv
      | go => exact .go hv
      | interfere object =>
          simp only [move] at hv
          split_ifs at hv with hlen
          cases hv
          exact .interfere object hlen

section safety
variable {u : ℕ} {P : Party u} {s t : Guarded P}

/-- The rest of the party's code keeps the rule. -/
def Guarded.Safe (s : Guarded P) : Prop :=
  match s.thread with
  | .rest st => P.fits st s.own
  | .busy _ _ code => Obeys (answers u) (Fits u P.cells) code
      (fun r own' => ∀ st', P.after r = some st' → P.fits st' own') s.own

theorem Guarded.Safe.go (h : s.Safe) (hgo : s.go = some t) : t.Safe := by
  unfold Guarded.Safe at h
  unfold Guarded.go at hgo
  cases hs : s.thread with
  | rest st => simp [hs] at hgo
  | busy start op code =>
      rw [hs] at h hgo
      cases code with
      | act a k =>
          cases hgo
          exact Obeys.own (respects_step u P.cells) h (s := s.object) trivial
      | ret r =>
          cases hr : P.after r with
          | some st =>
              simp only [hr, Option.some.injEq] at hgo
              subst hgo
              exact h st hr
          | none =>
              simp only [hr, Option.some.injEq] at hgo
              subst hgo
              exact P.again hr _ _ _

theorem Guarded.Safe.step (h : s.Safe) (hstep : GuardedStep s t) : t.Safe := by
  cases hstep with
  | call op hs hen hop =>
      unfold Guarded.Safe at h
      rw [hs] at h
      exact P.obeys hen hop h
  | go hgo => exact h.go hgo
  | stop => exact P.fits_gone _
  | interfere object _ => exact h

theorem Guarded.Safe.run (h : s.Safe) (hreach : GuardedReach s t) : t.Safe := by
  induction hreach with
  | refl => exact h
  | tail _ hstep ih => exact ih.step hstep

theorem Guarded.length_go (hgo : s.go = some t) : t.object.length = s.object.length := by
  unfold Guarded.go at hgo
  cases hs : s.thread with
  | rest st => simp [hs] at hgo
  | busy start op code =>
      rw [hs] at hgo
      cases code with
      | act a k =>
          cases hgo
          exact P.cells.length_step a (s.object, s.own)
      | ret r =>
          cases hr : P.after r <;> simp only [hr, Option.some.injEq] at hgo <;> subst hgo <;> rfl

theorem Guarded.length_run (hreach : GuardedReach s t) : t.object.length = s.object.length := by
  induction hreach with
  | refl => rfl
  | tail _ hstep ih =>
      cases hstep with
      | go hgo => exact (Guarded.length_go hgo).trans ih
      | interfere object hlen => exact hlen.trans ih
      | _ => exact ih

theorem Guarded.Safe.nextBytes (h : s.Safe) (hu : u ≤ 8) {off n : ℕ}
    (hn : s.nextBytes = some (off, n)) :
    off + n ≤ P.cells.stop ∧ (off + n ≤ 512 ∨ 624 ≤ off) := by
  unfold Guarded.Safe at h
  unfold Guarded.nextBytes at hn
  cases hs : s.thread with
  | rest st => simp [hs] at hn
  | busy start op code =>
      rw [hs] at h hn
      cases code with
      | act a k => exact h.1.accessedBytes hu hn
      | ret r => cases hn

theorem Guarded.Safe.sameOutside (h : s.Safe) (hu : u ≤ 8) (hgo : s.go = some t) :
    SameOutside P.cells.stop s.object t.object := by
  unfold Guarded.Safe at h
  unfold Guarded.go at hgo
  cases hs : s.thread with
  | rest st => simp [hs] at hgo
  | busy start op code =>
      rw [hs] at h hgo
      cases code with
      | act a k =>
          cases hgo
          exact Cells.sameOutside hu h.1 s.object s.own
      | ret r =>
          cases hr : P.after r <;> simp only [hr, Option.some.injEq] at hgo <;> subst hgo <;>
            exact ⟨rfl, rfl, rfl⟩

end safety

/-! ### The endpoints of the repository -/

/-- Slots cut into `K` cells each. -/
def words (T : ElementType) (N K : ℕ) : Cells where
  base := T.bufferOffset
  size := T.size / K
  count := N * K
  le_base := (T.slots N).le_base

theorem words_stop {T : ElementType} {K : ℕ} (hK : K ∣ T.size) (N : ℕ) :
    (words T N K).stop = (T.slots N).stop := by
  show T.bufferOffset + N * K * (T.size / K) = T.bufferOffset + N * T.size
  rw [Nat.mul_assoc, Nat.mul_div_cancel' hK]

inductive Endpoint where
  | losslessProducer
  | losslessConsumer
  | cProducer
  | cConsumer
  | headlessProducer
  | headlessConsumer
deriving DecidableEq, Repr

def Endpoint.language : Endpoint → C.Language
  | cProducer | cConsumer => .c
  | _ => .rust

/-- The endpoint on a segment for elements of type `T`.  Headless endpoints access an element in `K`
parts. -/
def Endpoint.party (S : C.Shared) (T : ElementType) (K : ℕ) : Endpoint → Party usize
  | losslessProducer => Memory.losslessProducer (fitting S T)
  | losslessConsumer => Memory.losslessConsumer (fitting S T)
  | cProducer => Memory.cProducer (fitting S (laidOut T .c))
  | cConsumer => Memory.cConsumer (fitting S (laidOut T .c))
  | headlessProducer => Memory.headlessProducer (P := .ofConfig S.toConfig) (M := words T S.N K)
      ⟨S.shmem, S.wide, rfl⟩
  | headlessConsumer => Memory.headlessConsumer (P := .ofConfig S.toConfig) (M := words T S.N K)
      ⟨S.shmem, S.wide, rfl⟩

/-- Where the ring of the endpoint ends. -/
def Endpoint.ringEnd (S : C.Shared) (T : ElementType) (e : Endpoint) : ℕ :=
  ((laidOut T e.language).slots S.N).stop

theorem Endpoint.stop_party (S : C.Shared) {T : ElementType} {K : ℕ} (hK : K ∣ T.size)
    (e : Endpoint) : (e.party S T K).cells.stop = e.ringEnd S T := by
  cases e with
  | headlessProducer => exact words_stop hK S.N
  | headlessConsumer => exact words_stop hK S.N
  | _ => rfl

/-- **No endpoint leaves its channel.**  Let any endpoint run on an object that has room for the
ring, while other processes rewrite the bytes of the object between its actions as they like.  Every
access that it makes lies inside the object, in the header or the ring, as its language lays them
out, and off the padding; and its own steps leave the length of the object, the padding and
everything behind the ring alone. -/
theorem hostile_contained (S : C.Shared) {T : ElementType} {K : ℕ} (hK : K ∣ T.size) (e : Endpoint)
    {object : Bytes} (hlen : e.ringEnd S T ≤ object.length) {own : (e.party S T K).Own}
    {s : Guarded (e.party S T K)} (h : GuardedReach (Guarded.opened _ object own) s) :
    (∀ off n, s.nextBytes = some (off, n) → off + n ≤ s.object.length ∧
      off + n ≤ e.ringEnd S T ∧ (off + n ≤ padding ∨ padding + paddingSize ≤ off)) ∧
    ∀ t, s.go = some t → t.object.length = s.object.length ∧
      readBytes t.object padding paddingSize = readBytes s.object padding paddingSize ∧
      t.object.drop (e.ringEnd S T) = s.object.drop (e.ringEnd S T) := by
  have hopened : (Guarded.opened _ object own).Safe := (e.party S T K).fits_gone own
  have hsafe := hopened.run h
  have hlength : s.object.length = object.length := Guarded.length_run h
  constructor
  · intro off n hn
    obtain ⟨h1, h2⟩ := hsafe.nextBytes (by decide) hn
    rw [e.stop_party S hK] at h1
    exact ⟨by omega, h1, h2⟩
  · intro t hgo
    have hout := hsafe.sameOutside (by decide) hgo
    rw [e.stop_party S hK] at hout
    exact ⟨hout.length, hout.padding, hout.behind⟩

/-- An initialised header for two bytes with a senseless tail. -/
def hostileObject : Bytes :=
  List.replicate 624 254 ++ toBytes 8 2 ++ toBytes 8 MAGIC ++ List.replicate 128 7

/-- A headless consumer joins at a senseless tail; all bytes are overwritten; its pop is about to
read the first byte of the ring. -/
theorem hostile_contained_small :
    ∃ s : Guarded (Endpoint.headlessConsumer.party C.Shared.small byteType 1),
      s.nextBytes = some (640, 1) ∧ 640 + 1 ≤ s.object.length := by
  have h : ((Guarded.opened (Endpoint.headlessConsumer.party C.Shared.small byteType 1)
      hostileObject (⟨0, 0, 0, 0⟩ : Headless.Consumer)).moves
      (.call (Headless.ConsumerOp.join 0 1) :: List.replicate 6 .go ++
        .interfere (255 :: List.replicate 767 254) :: .call Headless.ConsumerOp.pop ::
          List.replicate 2 .go)).map Guarded.nextBytes = some (some (640, 1)) := by
    decide +kernel
  obtain ⟨s, hs, hn⟩ := Option.map_eq_some_iff.mp h
  obtain ⟨h1, _⟩ := hostile_contained C.Shared.small (T := byteType) (K := 1) (by decide)
    .headlessConsumer (by decide +kernel) (Guarded.moves_reach (fun _ => trivial) hs)
  exact ⟨s, hn, (h1 640 1 hn).1⟩

end Que.Memory
