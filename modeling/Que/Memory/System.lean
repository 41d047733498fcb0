import Que.Memory.Confined
import Que.C.Shmem

/-! # The lossless channel on the bytes of a segment

The mixed system of `C/Mixed.lean` once more, with the bytes of a shared-memory object in place of
the channel: every action of every endpoint reads and writes bytes (`stepBytes`).  Besides, the
users of the channel may write to the padding of the header at any time, which
`get_padding_ptr` hands out for metadata.

* **Languages.** Each call finds the ring where its language puts it (`laidOut`): the Rust code at
  the next multiple of the alignment, the C code directly behind the header.  For elements aligned
  to at most 128 bytes this is the same place (`slots_laidOut`).
* **Refinement.** `ByteState.abs` reads the channel off the bytes.  Every step of the byte system is
  a step of the mixed system, or leaves the channel as it is (`Contained.step`); this needs no
  assumption on the content of the object.  Conversely, every schedule of the mixed system can be
  run on the bytes (`Contained.mixedMoves`).
* **Frame.** The endpoints never touch the padding, nor anything behind the ring.
* **History.** `wrote`, `published`, `joinedAt` and `received` are as in the lossless system;
  `metadata` is what the users wrote to the padding. -/

namespace Que.Memory

open Lib Lossless Segment

/-- 64-bit words in the segment of a channel. -/
abbrev usize : ℕ := 8

/-- Where the padding of the header starts, and its length. -/
def padding : ℕ := 512
def paddingSize : ℕ := 128 - 16

theorem fitting (S : C.Shared) (T : ElementType) :
    Fitting S.toConfig 1 usize (T.slots S.N) :=
  ⟨S.shmem, S.wide, (Nat.mul_one _).symm⟩

/-! ### The ring in either language -/

/-- The elements as a language lays them out in the ring. -/
def laidOut (T : ElementType) : C.Language → ElementType
  | .rust => T
  | .c => C.packed T.size

section laidOut
variable {T : ElementType} (hT : T.align ≤ 128) (l : C.Language)
include hT

theorem slots_laidOut (N : ℕ) : (laidOut T l).slots N = T.slots N := by
  cases l with
  | rust => rfl
  | c =>
      have hbase : T.bufferOffset = (C.packed T.size).bufferOffset :=
        (C.bufferOffset_eq hT).trans (C.bufferOffset_eq (show 1 ≤ 128 by decide)).symm
      simp only [laidOut, ElementType.slots, hbase, C.packed]

theorem step_laidOut (N u : ℕ) {L : Type} (a : Act L Bytes) (s : Bytes × L) :
    stepBytes u (laidOut T l) a s = (T.slots N).step u a s := by
  rw [← (laidOut T l).slots_step N, slots_laidOut hT]

theorem run_laidOut (N u : ℕ) {L α : Type} (c : Proc L Bytes α) (o : Bytes) (own : L) :
    runBytes u (laidOut T l) c o own = Prog.exec ((T.slots N).step u) c (o, own) := by
  rw [(laidOut T l).runBytes_slots N, slots_laidOut hT]

end laidOut

/-- At an alignment of 256 bytes the two languages disagree. -/
example : (laidOut ⟨256, 256, by decide +kernel, Nat.dvd_refl _⟩ .rust).bufferOffset = 768 ∧
    (laidOut ⟨256, 256, by decide +kernel, Nat.dvd_refl _⟩ .c).bufferOffset = 640 := by
  decide +kernel

/-! ### States and steps -/

/-- The bytes, the threads with the languages of their calls, and the history. -/
structure ByteState where
  object : Bytes
  producer : ProducerThread Bytes
  producerLanguage : C.Language
  handle : Handle
  consumer : ConsumerThread Bytes
  consumerLanguage : C.Language
  cursor : Consumer
  wrote : ℕ → Option Bytes
  published : ℕ → Option Bytes
  joinedAt : ℕ
  received : List Bytes
  metadata : Bytes

/-- A call of the producer in either language, with the code that it runs. -/
inductive ProducerCalls (S : C.Shared) (T : ElementType) (h : Handle) (st : ProducerStatus) :
    C.Language → ProducerThread Bytes → Prop
  | rust (op : ProducerOp Bytes) : op.enabled st = true →
      h.producer.tail + op.demand S.toConfig < 2 ^ S.w → op.Sized T.size →
      ProducerCalls S T h st .rust (.busy h op (op.code S.toConfig))
  | c (op : C.ProducerOp Bytes) : op.counterpart.enabled st = true →
      h.producer.tail + op.counterpart.demand S.toConfig < 2 ^ S.w → op.Sized T.size →
      op.allowed h = true → ProducerCalls S T h st .c (.busy h op.counterpart (op.threadCode S))

/-- A call of the consumer in either language. -/
inductive ConsumerCalls (S : C.Shared) (T : ElementType) (c : Consumer) (st : ConsumerStatus) :
    C.Language → ConsumerThread Bytes → Prop
  | rust (op : ConsumerOp Bytes) : op.enabled st = true → op.Sized T.size →
      ConsumerCalls S T c st .rust (.busy c op (op.code S.toConfig st))
  | c (op : C.ConsumerOp) : (op.counterpart : ConsumerOp Bytes).enabled st = true →
      ConsumerCalls S T c st .c (.busy c op.counterpart (op.threadCode S))

namespace ByteState
variable (S : C.Shared) (T : ElementType) (s : ByteState)

/-- What a call of the consumer hands out: an element lent by `pop_zerocopy`, which the C code does
not have, counts with the bytes in its slot. -/
def handed : ConsumerOp Bytes → ConsumerStatus × Option Bytes → List Bytes
  | .popZerocopy, (.element i, _) =>
      [readBytes s.object (T.bufferOffset + i * T.size) T.size]
  | _, (_, value) => value.toList

/-- The next step of a busy producer. -/
def producerGo : Option ByteState :=
  match s.producer with
  | .rest _ => none
  | .busy start op (.act a k) =>
      let r := stepBytes usize (laidOut T s.producerLanguage) a (s.object, s.handle)
      some { s with
        object := r.2.1
        handle := r.2.2
        producer := .busy start op (k r.1)
        published := publish a s.wrote s.published }
  | .busy start op (.ret r) =>
      some { s with producer := .rest r.1, wrote := wroteAfter op start r.2 s.wrote }

/-- The next step of a busy consumer. -/
def consumerGo : Option ByteState :=
  match s.consumer with
  | .rest _ => none
  | .busy start op (.act a k) =>
      let r := stepBytes usize (laidOut T s.consumerLanguage) a (s.object, s.cursor)
      some { s with object := r.2.1, cursor := r.2.2, consumer := .busy start op (k r.1) }
  | .busy _ op (.ret r) =>
      some { s with
        consumer := .rest r.1
        joinedAt := if op.isJoin then s.cursor.head else s.joinedAt
        received := if op.isJoin then [] else s.received ++ s.handed T op r }

/-- A user writes to the padding. -/
def writeMetadata (off : ℕ) (bs : Bytes) : ByteState :=
  { s with
    object := writeBytes s.object (padding + off) bs
    metadata := writeBytes s.metadata off bs }

/-- The state in which a constructor has just been run on an object, in either language. -/
def initial (l : C.Language) (object : Bytes) : ByteState :=
  let code := match l with
    | .rust => ProducerOp.joinOrInitializeIn.code S.toConfig
    | .c => C.ProducerOp.joinOrInitialize.threadCode S
  let r := runBytes usize (laidOut T l) code object ⟨⟨0, 0, 0⟩, ⟨0, 0, 0, false⟩⟩
  { object := r.2.1
    producer := .rest r.1.1
    producerLanguage := l
    handle := r.2.2
    consumer := .rest .gone
    consumerLanguage := .rust
    cursor := ⟨0, 0, 0⟩
    wrote := fun _ => none
    published := fun _ => none
    joinedAt := 0
    received := []
    metadata := readBytes object padding paddingSize }

/-- The channel in the object, with the threads and the history. -/
def abs : Lossless.State Bytes where
  ch := channelOf usize (T.slots S.N) s.object
  producer := s.producer
  handle := s.handle
  consumer := s.consumer
  cursor := s.cursor
  wrote := s.wrote
  published := s.published
  joinedAt := s.joinedAt
  received := s.received

end ByteState

/-- One step of the byte system. -/
inductive ByteStep (S : C.Shared) (T : ElementType) : ByteState → ByteState → Prop
  | producerCall {s : ByteState} {st : ProducerStatus} {l : C.Language}
      {p : ProducerThread Bytes} : s.producer = .rest st → ProducerCalls S T s.handle st l p →
      ByteStep S T s { s with producer := p, producerLanguage := l }
  | producerGo {s t : ByteState} : s.producerGo T = some t → ByteStep S T s t
  | producerStop {s : ByteState} : ByteStep S T s { s with producer := .rest .gone }
  | consumerCall {s : ByteState} {st : ConsumerStatus} {l : C.Language}
      {c : ConsumerThread Bytes} : s.consumer = .rest st → ConsumerCalls S T s.cursor st l c →
      ByteStep S T s { s with consumer := c, consumerLanguage := l }
  | consumerGo {s t : ByteState} : s.consumerGo T = some t → ByteStep S T s t
  | consumerStop {s : ByteState} : ByteStep S T s { s with consumer := .rest .gone }
  | writeMetadata {s : ByteState} (off : ℕ) (bs : Bytes) : off + bs.length ≤ paddingSize →
      ByteStep S T s (s.writeMetadata off bs)

/-- A run of the byte system. -/
abbrev ByteReach (S : C.Shared) (T : ElementType) : ByteState → ByteState → Prop :=
  Relation.ReflTransGen (ByteStep S T)

theorem ByteState.handed_eq (S : C.Shared) {T : ElementType} {s : ByteState}
    (op : ConsumerOp Bytes) (r : ConsumerStatus × Option Bytes) :
    s.handed T op r = given (channelOf usize (T.slots S.N) s.object) op r := by
  obtain ⟨st, v⟩ := r
  cases op with
  | popZerocopy => cases st <;> rfl
  | _ => rfl

/-! ### What every state satisfies -/

/-- The rest of the producer's code stays inside the segment. -/
def ProducerFits (S : C.Shared) (T : ElementType) : ProducerThread Bytes → Handle → Prop
  | .rest st, h => HandleFits S.toConfig st h
  | .busy _ _ code, h => Obeys (answers usize) (Fits usize (T.slots S.N)) code
      (fun r h' => HandleFits S.toConfig r.1 h') h

/-- The rest of the consumer's code stays inside the segment. -/
def ConsumerFits (S : C.Shared) (T : ElementType) : ConsumerThread Bytes → Consumer → Prop
  | .rest st, c => CursorFits S.toConfig st c
  | .busy _ _ code, c => Obeys (answers usize) (Fits usize (T.slots S.N)) code
      (fun r c' => CursorFits S.toConfig r.1 c') c

/-- Both threads stay inside the segment, the padding holds the metadata, and the object has the
length and the bytes behind the ring of `object₀`. -/
structure Contained (S : C.Shared) (T : ElementType) (object₀ : Bytes) (s : ByteState) : Prop where
  producer : ProducerFits S T s.producer s.handle
  consumer : ConsumerFits S T s.consumer s.cursor
  length : s.object.length = object₀.length
  metadata : readBytes s.object padding paddingSize = s.metadata
  behind : s.object.drop (T.slots S.N).stop = object₀.drop (T.slots S.N).stop

/-! ### What actions leave alone -/

theorem drop_eq_of_readBytes {o o' : Bytes} {p : ℕ} (h : ∀ k, readBytes o' p k = readBytes o p k) :
    o'.drop p = o.drop p := by
  apply List.ext_getElem?
  intro i
  have hi := congrArg (fun bs => bs[i]?) (h (i + 1))
  simpa only [getElem?_readBytes, Nat.lt_succ_self, if_true, List.getElem?_drop] using hi

/-- A fitting action changes neither the length of the object, nor the padding, nor anything behind
the ring. -/
structure SameOutside (stop : ℕ) (o o' : Bytes) : Prop where
  length : o'.length = o.length
  padding : readBytes o' padding paddingSize = readBytes o padding paddingSize
  behind : o'.drop stop = o.drop stop

theorem Cells.sameOutside {L : Type} {M : Cells} {a : Act L Bytes} {u : ℕ} (hu : u ≤ 8)
    (h : Fits u M a) (o : Bytes) (l : L) : SameOutside M.stop o (M.step u a (o, l)).2.1 := by
  refine ⟨M.length_step a (o, l), Cells.step_outside fun off n ha => ?_,
    drop_eq_of_readBytes fun k => Cells.step_outside fun off n ha => ?_⟩
  · have hb := (h.accessedBytes hu ha).2
    unfold padding paddingSize
    omega
  · exact .inr (h.accessedBytes hu ha).1

/-- A program whose actions fit changes nothing outside either. -/
theorem Cells.sameOutside_exec {L α : Type} {M : Cells} {u : ℕ} (hu : u ≤ 8) {c : Proc L Bytes α}
    {Q : α → L → Prop} {o : Bytes} {l : L} (h : Obeys (answers u) (Fits u M) c Q l) :
    SameOutside M.stop o (Prog.exec (M.step u) c (o, l)).2.1 := by
  induction c generalizing o l with
  | ret x => exact ⟨rfl, rfl, rfl⟩
  | act a k ih =>
      have h1 := Cells.sameOutside hu h.1 o l
      have h2 := ih _ (o := (M.step u a (o, l)).2.1)
        (Obeys.own (respects_step u M) h (s := o) trivial)
      exact ⟨h2.length.trans h1.length, h2.padding.trans h1.padding, h2.behind.trans h1.behind⟩

/-! ### One step -/

section steps
variable {S : C.Shared} {T : ElementType} {object₀ : Bytes} {s t : ByteState}

theorem Contained.stop_le (K : Contained S T object₀ s)
    (hlen : (T.slots S.N).stop ≤ object₀.length) : (T.slots S.N).stop ≤ s.object.length := by
  rw [K.length]
  exact hlen

/-- A step of the producer on the bytes is its step on the channel. -/
theorem Contained.producerGo_abs (hT : T.align ≤ 128) (K : Contained S T object₀ s)
    (hlen : (T.slots S.N).stop ≤ object₀.length) :
    (s.producerGo T).map (·.abs S T) = (s.abs S T).move S.toConfig .producerGo := by
  have hfits := K.producer
  have hw : S.toConfig.w = 8 * usize := S.wide
  cases hp : s.producer with
  | rest st => simp only [ByteState.producerGo, State.move, ByteState.abs, hp, Option.map_none]
  | busy start op code =>
      rw [hp] at hfits
      cases code with
      | act a k =>
          have hstep := step_channelOf (by decide) (K.stop_le hlen) hfits.1 s.handle
          rw [← step_laidOut hT s.producerLanguage] at hstep
          simp only [ByteState.producerGo, State.move, hp, Option.map_some, State.producerDoes,
            ByteState.abs, hw, hstep]
      | ret r => simp only [ByteState.producerGo, State.move, hp, Option.map_some, ByteState.abs]

theorem Contained.producerGo (hT : T.align ≤ 128) (K : Contained S T object₀ s)
    (h : s.producerGo T = some t) : Contained S T object₀ t := by
  have hfits := K.producer
  cases hp : s.producer with
  | rest st => simp [ByteState.producerGo, hp] at h
  | busy start op code =>
      rw [hp] at hfits
      cases code with
      | act a k =>
          simp only [ByteState.producerGo, hp, Option.some.injEq] at h
          subst h
          have hout := Cells.sameOutside (by decide) hfits.1 s.object s.handle
          have hown := Obeys.own (respects_step usize (T.slots S.N)) hfits (s := s.object) trivial
          rw [← step_laidOut hT s.producerLanguage] at hout hown
          exact ⟨hown, K.consumer, hout.length.trans K.length, hout.padding.trans K.metadata,
            hout.behind.trans K.behind⟩
      | ret r =>
          simp only [ByteState.producerGo, hp, Option.some.injEq] at h
          subst h
          exact ⟨hfits, K.consumer, K.length, K.metadata, K.behind⟩

/-- A step of the consumer on the bytes is its step on the channel. -/
theorem Contained.consumerGo_abs (hT : T.align ≤ 128) (K : Contained S T object₀ s)
    (hlen : (T.slots S.N).stop ≤ object₀.length) :
    (s.consumerGo T).map (·.abs S T) = (s.abs S T).move S.toConfig .consumerGo := by
  have hfits := K.consumer
  have hw : S.toConfig.w = 8 * usize := S.wide
  cases hc : s.consumer with
  | rest st => simp only [ByteState.consumerGo, State.move, ByteState.abs, hc, Option.map_none]
  | busy start op code =>
      rw [hc] at hfits
      cases code with
      | act a k =>
          have hstep := step_channelOf (by decide) (K.stop_le hlen) hfits.1 s.cursor
          rw [← step_laidOut hT s.consumerLanguage] at hstep
          simp only [ByteState.consumerGo, State.move, hc, Option.map_some, State.consumerDoes,
            ByteState.abs, hw, hstep]
      | ret r =>
          simp only [ByteState.consumerGo, State.move, hc, Option.map_some, ByteState.abs,
            State.receivedAfter, ByteState.handed_eq S]

theorem Contained.consumerGo (hT : T.align ≤ 128) (K : Contained S T object₀ s)
    (h : s.consumerGo T = some t) : Contained S T object₀ t := by
  have hfits := K.consumer
  cases hc : s.consumer with
  | rest st => simp [ByteState.consumerGo, hc] at h
  | busy start op code =>
      rw [hc] at hfits
      cases code with
      | act a k =>
          simp only [ByteState.consumerGo, hc, Option.some.injEq] at h
          subst h
          have hout := Cells.sameOutside (by decide) hfits.1 s.object s.cursor
          have hown := Obeys.own (respects_step usize (T.slots S.N)) hfits (s := s.object) trivial
          rw [← step_laidOut hT s.consumerLanguage] at hout hown
          exact ⟨K.producer, hown, hout.length.trans K.length, hout.padding.trans K.metadata,
            hout.behind.trans K.behind⟩
      | ret r =>
          simp only [ByteState.consumerGo, hc, Option.some.injEq] at h
          subst h
          exact ⟨K.producer, hfits, K.length, K.metadata, K.behind⟩

/-- What a user writes to the padding is metadata, and is not seen by the endpoints. -/
theorem Contained.writeMetadata (K : Contained S T object₀ s)
    (hlen : (T.slots S.N).stop ≤ object₀.length) {off : ℕ} {bs : Bytes}
    (h : off + bs.length ≤ paddingSize) :
    (s.writeMetadata off bs).abs S T = s.abs S T ∧
      Contained S T object₀ (s.writeMetadata off bs) := by
  have hbase := (T.slots S.N).le_base
  have hstop : (T.slots S.N).base ≤ (T.slots S.N).stop := Nat.le_add_right _ _
  have hend : 640 ≤ s.object.length := hbase.trans (hstop.trans (K.stop_le hlen))
  have hpadding : padding = 512 ∧ paddingSize = 112 := ⟨rfl, rfl⟩
  constructor
  · unfold ByteState.abs
    congr 1
    apply Channel.ext_get
    · intro x
      rw [get_channelOf, get_channelOf]
      unfold getWord
      cases hoff : offset x with
      | none => rfl
      | some off' =>
          have hb := (offset_bounds (u := usize) (by decide) hoff).2
          simp only [ByteState.writeMetadata]
          rw [readBytes_writeBytes_of_disjoint (by omega)]
    · funext i
      have hstart : (T.slots S.N).base ≤ (T.slots S.N).start i := Nat.le_add_right _ _
      simp only [channelOf, ByteState.writeMetadata]
      apply readBytes_writeBytes_of_disjoint
      omega
  · refine ⟨K.producer, K.consumer, (length_writeBytes _ _ _).trans K.length, ?_, ?_⟩
    · simp only [ByteState.writeMetadata, ← K.metadata]
      apply List.ext_getElem?
      intro i
      simp only [getElem?_readBytes, getElem?_writeBytes, length_readBytes
        (show padding + paddingSize ≤ s.object.length by omega)]
      split_ifs <;> first | rfl | omega | skip
      · congr 1
        omega
    · rw [← K.behind]
      refine drop_eq_of_readBytes fun k => readBytes_writeBytes_of_disjoint ?_
      omega

/-- A call starts with code that stays inside the segment. -/
theorem Contained.producerCall (K : Contained S T object₀ s) {st : ProducerStatus}
    {l : C.Language} {p : ProducerThread Bytes} (hp : s.producer = .rest st)
    (h : ProducerCalls S T s.handle st l p) :
    let t : ByteState := { s with producer := p, producerLanguage := l }
    C.MixedStep S (s.abs S T) (t.abs S T) ∧ Contained S T object₀ t := by
  have hfits := K.producer
  rw [hp] at hfits
  cases h with
  | rust op hen hlt hop =>
      exact ⟨.step (.producerCall op hp hen hlt), ProducerOp.code_obeys (fitting S T) hen hop hfits,
        K.consumer, K.length, K.metadata, K.behind⟩
  | c op hen hlt hop hok =>
      exact ⟨.producerCall op hp hen hlt hok,
        C.ProducerOp.threadCode_obeys (fitting S T) hen hok hop hfits,
        K.consumer, K.length, K.metadata, K.behind⟩

theorem Contained.consumerCall (K : Contained S T object₀ s) {st : ConsumerStatus}
    {l : C.Language} {c : ConsumerThread Bytes} (hc : s.consumer = .rest st)
    (h : ConsumerCalls S T s.cursor st l c) :
    let t : ByteState := { s with consumer := c, consumerLanguage := l }
    C.MixedStep S (s.abs S T) (t.abs S T) ∧ Contained S T object₀ t := by
  have hfits := K.consumer
  rw [hc] at hfits
  cases h with
  | rust op hen hop =>
      exact ⟨.step (.consumerCall op hc hen), K.producer,
        ConsumerOp.code_obeys (fitting S T) hen hop hfits, K.length, K.metadata, K.behind⟩
  | c op hen =>
      exact ⟨.consumerCall op hc hen, K.producer,
        C.ConsumerOp.threadCode_obeys (fitting S T) hen hfits, K.length, K.metadata, K.behind⟩

/-- **A step on the bytes** is a step of the mixed system, or leaves the channel as it is. -/
theorem Contained.step (hT : T.align ≤ 128) (K : Contained S T object₀ s)
    (hlen : (T.slots S.N).stop ≤ object₀.length) (h : ByteStep S T s t) :
    (C.MixedStep S (s.abs S T) (t.abs S T) ∨ t.abs S T = s.abs S T) ∧ Contained S T object₀ t := by
  cases h with
  | producerCall hp hcall => exact (K.producerCall hp hcall).imp_left .inl
  | producerGo hgo =>
      have habs := K.producerGo_abs hT hlen
      rw [hgo, Option.map_some] at habs
      exact ⟨.inl (.step (State.move_step habs.symm)), K.producerGo hT hgo⟩
  | producerStop =>
      exact ⟨.inl (.step .producerStop), trivial, K.consumer, K.length, K.metadata, K.behind⟩
  | consumerCall hc hcall => exact (K.consumerCall hc hcall).imp_left .inl
  | consumerGo hgo =>
      have habs := K.consumerGo_abs hT hlen
      rw [hgo, Option.map_some] at habs
      exact ⟨.inl (.step (State.move_step habs.symm)), K.consumerGo hT hgo⟩
  | consumerStop =>
      exact ⟨.inl (.step .consumerStop), K.producer, trivial, K.length, K.metadata, K.behind⟩
  | writeMetadata off bs hoff => exact (K.writeMetadata hlen hoff).imp_left .inr

end steps

/-! ### Runs -/

/-- The bytes run a constructor, in either language, as the channel does. -/
theorem initial_abs (S : C.Shared) {T : ElementType} (hT : T.align ≤ 128) (l : C.Language)
    {object : Bytes} (hlen : (T.slots S.N).stop ≤ object.length) :
    (ByteState.initial S T l object).abs S T =
        C.mixedInitial S l (channelOf usize (T.slots S.N) object) ∧
      Contained S T object (ByteState.initial S T l object) := by
  have hw : S.toConfig.w = 8 * usize := S.wide
  cases l with
  | rust =>
      have hen : (ProducerOp.joinOrInitializeIn : ProducerOp Bytes).enabled .gone = true := rfl
      have hobeys := ProducerOp.code_obeys (h := ⟨⟨0, 0, 0⟩, ⟨0, 0, 0, false⟩⟩) (fitting S T)
        hen trivial trivial
      obtain ⟨hrun, hfits, hlength⟩ := run_channelOf (by decide) hobeys hlen
      have hout := Cells.sameOutside_exec (o := object) (by decide) hobeys
      simp only [ByteState.initial, ByteState.abs, C.mixedInitial, State.initial, hw,
        run_laidOut hT _ S.N, hrun]
      exact ⟨trivial, hfits, trivial, hlength, hout.padding, hout.behind⟩
  | c =>
      have hen : (C.ProducerOp.joinOrInitialize : C.ProducerOp Bytes).counterpart.enabled .gone =
        true := rfl
      have hobeys := C.ProducerOp.threadCode_obeys (h := ⟨⟨0, 0, 0⟩, ⟨0, 0, 0, false⟩⟩)
        (fitting S T) hen rfl trivial trivial
      obtain ⟨hrun, hfits, hlength⟩ := run_channelOf (by decide) hobeys hlen
      have hout := Cells.sameOutside_exec (o := object) (by decide) hobeys
      simp only [ByteState.initial, ByteState.abs, C.mixedInitial, State.initial, hw,
        run_laidOut hT _ S.N, hrun]
      exact ⟨trivial, hfits, trivial, hlength, hout.padding, hout.behind⟩

theorem runBytes_channelOf {S : C.Shared} {T : ElementType} (hT : T.align ≤ 128) (l : C.Language)
    {L α : Type} {c : Proc L Bytes α} {Q : α → L → Prop} {o : Bytes} {own : L}
    (h : Obeys (answers usize) (Fits usize (T.slots S.N)) c Q own)
    (ho : (T.slots S.N).stop ≤ o.length) :
    (runBytes usize (laidOut T l) c o own).1 =
      (c.run S.w (channelOf usize (T.slots S.N) o) own).1 := by
  rw [run_laidOut hT _ S.N, show S.w = 8 * usize from S.wide, (run_channelOf (by decide) h ho).1]

/-- **Runs on the bytes are runs of the mixed system.** -/
theorem Contained.run {S : C.Shared} {T : ElementType} (hT : T.align ≤ 128) {object₀ : Bytes}
    {s t : ByteState} (K : Contained S T object₀ s) (hlen : (T.slots S.N).stop ≤ object₀.length)
    (h : ByteReach S T s t) :
    C.MixedReach S (s.abs S T) (t.abs S T) ∧ Contained S T object₀ t := by
  induction h with
  | refl => exact ⟨.refl, K⟩
  | tail _ hstep ih =>
      obtain ⟨hstep | hstep, K⟩ := ih.2.step hT hlen hstep
      · exact ⟨.tail ih.1 hstep, K⟩
      · exact ⟨hstep ▸ ih.1, K⟩

/-! ### Running a schedule -/

/-- The values that a move passes have the size of an element. -/
def moveSized (size : ℕ) : C.MixedMove Bytes → Prop
  | .move (.producerCall op) => op.Sized size
  | .move (.consumerCall op) => op.Sized size
  | .producerCall op => op.Sized size
  | _ => True

/-- The state after a move of the mixed system has been made on the bytes, if it is possible. -/
def byteMove (S : C.Shared) (T : ElementType) (s : ByteState) : C.MixedMove Bytes → Option ByteState
  | .move (.producerCall op) =>
      match s.producer with
      | .rest st =>
          if op.enabled st = true ∧
              s.handle.producer.tail + op.demand S.toConfig < 2 ^ S.w then
            some { s with
              producer := .busy s.handle op (op.code S.toConfig)
              producerLanguage := .rust }
          else
            none
      | .busy _ _ _ => none
  | .move .producerGo => s.producerGo T
  | .move .producerStop => some { s with producer := .rest .gone }
  | .move (.consumerCall op) =>
      match s.consumer with
      | .rest st =>
          if op.enabled st = true then
            some { s with
              consumer := .busy s.cursor op (op.code S.toConfig st)
              consumerLanguage := .rust }
          else
            none
      | .busy _ _ _ => none
  | .move .consumerGo => s.consumerGo T
  | .move .consumerStop => some { s with consumer := .rest .gone }
  | .producerCall op =>
      match s.producer with
      | .rest st =>
          if op.counterpart.enabled st = true ∧
              s.handle.producer.tail + op.counterpart.demand S.toConfig < 2 ^ S.w ∧
              op.allowed s.handle = true then
            some { s with
              producer := .busy s.handle op.counterpart (op.threadCode S)
              producerLanguage := .c }
          else
            none
      | .busy _ _ _ => none
  | .consumerCall op =>
      match s.consumer with
      | .rest st =>
          if (op.counterpart : ConsumerOp Bytes).enabled st = true then
            some { s with
              consumer := .busy s.cursor op.counterpart (op.threadCode S)
              consumerLanguage := .c }
          else
            none
      | .busy _ _ _ => none

theorem byteMove_step {S : C.Shared} {T : ElementType} {s t : ByteState} {m : C.MixedMove Bytes}
    (hm : moveSized T.size m) (h : byteMove S T s m = some t) : ByteStep S T s t := by
  cases m with
  | move m =>
      cases m with
      | producerCall op =>
          cases hp : s.producer with
          | rest st =>
              simp only [byteMove, hp] at h
              split_ifs at h with hc
              cases h
              exact .producerCall hp (.rust op hc.1 hc.2 hm)
          | busy start op' code => simp [byteMove, hp] at h
      | producerGo => exact .producerGo h
      | producerStop =>
          cases h
          exact .producerStop
      | consumerCall op =>
          cases hc : s.consumer with
          | rest st =>
              simp only [byteMove, hc] at h
              split_ifs at h with he
              cases h
              exact .consumerCall hc (.rust op he hm)
          | busy start op' code => simp [byteMove, hc] at h
      | consumerGo => exact .consumerGo h
      | consumerStop =>
          cases h
          exact .consumerStop
  | producerCall op =>
      cases hp : s.producer with
      | rest st =>
          simp only [byteMove, hp] at h
          split_ifs at h with hc
          cases h
          exact .producerCall hp (.c op hc.1 hc.2.1 hm hc.2.2)
      | busy start op' code => simp [byteMove, hp] at h
  | consumerCall op =>
      cases hc : s.consumer with
      | rest st =>
          simp only [byteMove, hc] at h
          split_ifs at h with he
          cases h
          exact .consumerCall hc (.c op he)
      | busy start op' code => simp [byteMove, hc] at h

/-- A move can be made on the bytes when it can be made on the channel, with the same effect. -/
theorem Contained.byteMove_abs {S : C.Shared} {T : ElementType} (hT : T.align ≤ 128)
    {object₀ : Bytes} {s : ByteState} (K : Contained S T object₀ s)
    (hlen : (T.slots S.N).stop ≤ object₀.length) (m : C.MixedMove Bytes) :
    (byteMove S T s m).map (·.abs S T) = C.mixedMove S (s.abs S T) m := by
  cases m with
  | move m =>
      cases m with
      | producerCall op =>
          cases hp : s.producer with
          | rest st =>
              simp only [byteMove, C.mixedMove, State.move, ByteState.abs, hp]
              split_ifs <;> rfl
          | busy start op' code =>
              simp only [byteMove, C.mixedMove, State.move, ByteState.abs, hp, Option.map_none]
      | producerGo => exact K.producerGo_abs hT hlen
      | producerStop => rfl
      | consumerCall op =>
          cases hc : s.consumer with
          | rest st =>
              simp only [byteMove, C.mixedMove, State.move, ByteState.abs, hc]
              split_ifs <;> rfl
          | busy start op' code =>
              simp only [byteMove, C.mixedMove, State.move, ByteState.abs, hc, Option.map_none]
      | consumerGo => exact K.consumerGo_abs hT hlen
      | consumerStop => rfl
  | producerCall op =>
      cases hp : s.producer with
      | rest st =>
          simp only [byteMove, C.mixedMove, ByteState.abs, hp]
          split_ifs <;> rfl
      | busy start op' code =>
          simp only [byteMove, C.mixedMove, ByteState.abs, hp, Option.map_none]
  | consumerCall op =>
      cases hc : s.consumer with
      | rest st =>
          simp only [byteMove, C.mixedMove, ByteState.abs, hc]
          split_ifs <;> rfl
      | busy start op' code =>
          simp only [byteMove, C.mixedMove, ByteState.abs, hc, Option.map_none]

/-- Every schedule of the mixed system can be run on the bytes. -/
theorem Contained.mixedMoves {S : C.Shared} {T : ElementType} (hT : T.align ≤ 128) {object₀ : Bytes}
    {ms : List (C.MixedMove Bytes)} {s : ByteState} {t : State Bytes}
    (K : Contained S T object₀ s) (hlen : (T.slots S.N).stop ≤ object₀.length)
    (hms : ∀ m ∈ ms, moveSized T.size m) (h : C.mixedMoves S (s.abs S T) ms = some t) :
    ∃ u, ByteReach S T s u ∧ u.abs S T = t := by
  induction ms generalizing s with
  | nil =>
      cases h
      exact ⟨s, .refl, rfl⟩
  | cons m ms ih =>
      simp only [C.mixedMoves, Option.bind_eq_some_iff, ← K.byteMove_abs hT hlen,
        Option.map_eq_some_iff] at h
      obtain ⟨_, ⟨u, hu, rfl⟩, ht⟩ := h
      have hstep := byteMove_step (hms m (List.mem_cons_self ..)) hu
      obtain ⟨v, hv, habs⟩ := ih (K.step hT hlen hstep).2
        (fun m' hm' => hms m' (List.mem_cons_of_mem _ hm')) ht
      exact ⟨v, .head hstep hv, habs⟩

/-! ### A run on an object of 768 bytes -/

theorem isPowerOfTwo_one : isPowerOfTwo 1 = true := isPowerOfTwo_iff.mpr ⟨0, rfl⟩

/-- The element type of one byte. -/
def byteType : ElementType := ⟨1, 1, isPowerOfTwo_one, Nat.dvd_refl 1⟩

/-- A zeroed object for two bytes. -/
def smallObject : Bytes := List.replicate 768 0

/-- The channel in it. -/
def smallChannel : Channel Bytes :=
  { Channel.zeroed ([] : Bytes) with buffer := fun i => readBytes smallObject (640 + i * 1) 1 }

theorem channelOf_smallObject : channelOf usize (byteType.slots 2) smallObject = smallChannel := by
  apply Channel.ext_get
  · intro x
    cases x <;> decide +kernel
  · rfl

/-- The C producer pushes a byte, the Rust consumer pops it, and a user labels the channel. -/
theorem smallObject_reach : ∃ s : ByteState,
    ByteReach C.Shared.small byteType
      (ByteState.initial C.Shared.small byteType .rust smallObject) s ∧
    s.received = [[9]] ∧ readBytes s.metadata 3 ([65, 66] : Bytes).length = [65, 66] := by
  have hlen : (byteType.slots 2).stop ≤ smallObject.length := by decide +kernel
  have h : (C.mixedMoves C.Shared.small (C.mixedInitial C.Shared.small .rust smallChannel)
      ((Lossless.consumerRuns .join 7).map .move ++ C.producerRuns (.push [9]) 6 ++
        (Lossless.producerRuns .sync 4).map .move ++ (Lossless.consumerRuns .pop 10).map .move)).map
      (fun s => s.received) = some [[9]] := by
    decide +kernel
  obtain ⟨t, ht, hr⟩ := Option.map_eq_some_iff.mp h
  have hT : byteType.align ≤ 128 := by decide
  obtain ⟨habs, K⟩ := initial_abs C.Shared.small hT .rust hlen
  rw [← channelOf_smallObject] at ht
  obtain ⟨s, hs, rfl⟩ := K.mixedMoves hT hlen (by
    simp [Lossless.consumerRuns, C.producerRuns, Lossless.producerRuns, moveSized, byteType,
      ConsumerOp.Sized, ProducerOp.Sized, C.ProducerOp.Sized, C.ProducerOp.counterpart])
    (habs ▸ ht)
  have hs' := hs.tail (.writeMetadata 3 [65, 66] (by decide))
  have hlength : s.metadata.length = paddingSize := by
    rw [← (K.run hT hlen hs).2.metadata]
    apply length_readBytes
    rw [(K.run hT hlen hs).2.length]
    decide +kernel
  refine ⟨_, hs', hr, readBytes_writeBytes_self ?_⟩
  rw [hlength]
  decide

/-! ### Refinement, order and frame -/

/-- **The bytes refine the channel.**  For elements aligned to at most 128 bytes, let a constructor
be run in either language on the bytes of any object that has room for the ring.  Whatever calls
follow (through the C code no more is written to a reservation than is left of it), and whatever is
written to the padding, the channel that the bytes stand for goes through a run of the mixed
system. -/
theorem bytes_refine (S : C.Shared) {T : ElementType} (hT : T.align ≤ 128) (l : C.Language)
    {object : Bytes} (hlen : (T.slots S.N).stop ≤ object.length) {s : ByteState}
    (h : ByteReach S T (ByteState.initial S T l object) s) :
    C.MixedReach S (C.mixedInitial S l (channelOf usize (T.slots S.N) object)) (s.abs S T) := by
  obtain ⟨habs, K⟩ := initial_abs S hT l hlen
  exact habs ▸ (K.run hT hlen h).1

theorem bytes_refine_small : ∃ s : ByteState,
    C.MixedReach C.Shared.small (C.mixedInitial C.Shared.small .rust
      (channelOf usize (byteType.slots 2) smallObject)) (s.abs C.Shared.small byteType) ∧
    s.received = [[9]] := by
  obtain ⟨s, hs, hr, _⟩ := smallObject_reach
  exact ⟨s, bytes_refine C.Shared.small (by decide) .rust (by decide +kernel) hs, hr⟩

/-- Where the next action of the producer accesses the object, and how many bytes. -/
def ByteState.producerBytes (S : C.Shared) (T : ElementType) (s : ByteState) : Option (ℕ × ℕ) :=
  match s.producer with
  | .busy _ _ (.act a _) => accessedBytes usize ((laidOut T s.producerLanguage).slots S.N) a
  | _ => none

def ByteState.consumerBytes (S : C.Shared) (T : ElementType) (s : ByteState) : Option (ℕ × ℕ) :=
  match s.consumer with
  | .busy _ _ (.act a _) => accessedBytes usize ((laidOut T s.consumerLanguage).slots S.N) a
  | _ => none

section frame
variable {S : C.Shared} {T : ElementType} {object₀ : Bytes} {s : ByteState}

theorem Contained.producerBytes (hT : T.align ≤ 128) (K : Contained S T object₀ s) {off n : ℕ}
    (h : s.producerBytes S T = some (off, n)) :
    off + n ≤ (T.slots S.N).stop ∧ (off + n ≤ 512 ∨ 624 ≤ off) := by
  have hfits := K.producer
  unfold ByteState.producerBytes at h
  cases hp : s.producer with
  | rest st => simp [hp] at h
  | busy start op code =>
      rw [hp] at hfits h
      cases code with
      | act a k =>
          simp only [slots_laidOut hT] at h
          exact hfits.1.accessedBytes (by decide) h
      | ret r => cases h

theorem Contained.consumerBytes (hT : T.align ≤ 128) (K : Contained S T object₀ s) {off n : ℕ}
    (h : s.consumerBytes S T = some (off, n)) :
    off + n ≤ (T.slots S.N).stop ∧ (off + n ≤ 512 ∨ 624 ≤ off) := by
  have hfits := K.consumer
  unfold ByteState.consumerBytes at h
  cases hc : s.consumer with
  | rest st => simp [hc] at h
  | busy start op code =>
      rw [hc] at hfits h
      cases code with
      | act a k =>
          simp only [slots_laidOut hT] at h
          exact hfits.1.accessedBytes (by decide) h
      | ret r => cases h

end frame

/-- **The endpoints keep to the channel.**  For elements aligned to at most 128 bytes, in every run
on any object that has room for the ring, the next access of each endpoint lies inside the header or
the ring and off the padding; the padding holds what was in it at first, with what the users have
written; and the bytes behind the ring, and the length of the object, never change. -/
theorem endpoints_contained (S : C.Shared) {T : ElementType} (hT : T.align ≤ 128) (l : C.Language)
    {object : Bytes} (hlen : (T.slots S.N).stop ≤ object.length) {s : ByteState}
    (h : ByteReach S T (ByteState.initial S T l object) s) :
    (∀ off n, s.producerBytes S T = some (off, n) ∨ s.consumerBytes S T = some (off, n) →
      off + n ≤ (T.slots S.N).stop ∧ (off + n ≤ padding ∨ padding + paddingSize ≤ off)) ∧
    readBytes s.object padding paddingSize = s.metadata ∧
    s.object.length = object.length ∧
    s.object.drop (T.slots S.N).stop = object.drop (T.slots S.N).stop := by
  have K := ((initial_abs S hT l hlen).2.run hT hlen h).2
  refine ⟨fun off n hoff => ?_, K.metadata, K.length, K.behind⟩
  rcases hoff with hoff | hoff
  · exact K.producerBytes hT hoff
  · exact K.consumerBytes hT hoff

theorem endpoints_contained_small : ∃ s : ByteState,
    s.received = [[9]] ∧ readBytes s.metadata 3 2 = [65, 66] ∧
    readBytes s.object padding paddingSize = s.metadata ∧ s.object.length = 768 := by
  obtain ⟨s, hs, hr, hmeta⟩ := smallObject_reach
  obtain ⟨_, h1, h2, _⟩ :=
    endpoints_contained C.Shared.small (by decide) .rust (by decide +kernel) hs
  exact ⟨s, hr, hmeta, h1, h2.trans (by decide +kernel)⟩

/-- **First in, first out on the bytes.**  For elements aligned to at most 128 bytes, let a producer
in either language initialise an object whose magic is zero (and whose head word is zero, for Rust).
In every run, the byte strings that the consumer has received are the published ones from the tail
that its join read on; the next pop in either language, run on the bytes, continues them; and the
bytes that the producer is about to write are disjoint from those that the consumer reads or has
borrowed, whichever languages the two use. -/
theorem bytes_fifo (S : C.Shared) {T : ElementType} (hT : T.align ≤ 128) {l : C.Language}
    {object : Bytes} (hlen : (T.slots S.N).stop ≤ object.length)
    (hm : getWord usize object .magic = 0)
    (hh : l = .rust → getWord usize object .head = 0) {s : ByteState}
    (h : ByteReach S T (ByteState.initial S T l object) s) :
    (s.received.map some =
      (List.range s.received.length).map fun i => s.published (s.joinedAt + i)) ∧
    (s.consumer = .rest .ready → s.joinedAt + s.received.length < getWord usize s.object .tail →
      ∃ v, s.published (s.joinedAt + s.received.length) = some v ∧
        (runBytes usize (laidOut T .rust) (ConsumerOp.pop.code S.toConfig .ready) s.object
          s.cursor).1 = (.ready, some v) ∧
        (runBytes usize (laidOut T .c) (C.ConsumerOp.pop.threadCode S) s.object s.cursor).1 =
          (.ready, some v)) ∧
    (∀ i j, (s.abs S T).writing = some i → (s.abs S T).holding = some j →
      ∀ l₁ l₂ : C.Language,
        ((laidOut T l₁).slots S.N).start i + T.size ≤ ((laidOut T l₂).slots S.N).start j ∨
        ((laidOut T l₂).slots S.N).start j + T.size ≤ ((laidOut T l₁).slots S.N).start i) := by
  obtain ⟨habs, K⟩ := initial_abs S hT l hlen
  obtain ⟨hreach, K⟩ := K.run hT hlen h
  have hsound : Sound S.toConfig (s.abs S T) :=
    C.Sound.mixed (C.mixedInitial_sound hm hh) (habs ▸ hreach)
  refine ⟨hsound.delivered.received, fun hc hlt => ?_, fun i j hi hj l₁ l₂ => ?_⟩
  · obtain ⟨v, hv, hpop⟩ := (hsound.delivered.next hc).2.1 hlt
    have hfits := K.consumer
    rw [hc] at hfits
    have hen : (ConsumerOp.pop : ConsumerOp Bytes).enabled .ready = true := rfl
    have henC : (C.ConsumerOp.pop.counterpart : ConsumerOp Bytes).enabled .ready = true := rfl
    have hrust := ConsumerOp.code_obeys (fitting S T) hen trivial hfits
    have hC := C.ConsumerOp.threadCode_obeys (fitting S T) henC hfits
    refine ⟨v, hv, ?_, ?_⟩
    · rw [runBytes_channelOf hT .rust hrust (K.stop_le hlen)]
      simp only [ConsumerOp.code, Proc.run_bind]
      exact congrArg (fun r => (ConsumerStatus.ready, r)) hpop
    · rw [runBytes_channelOf hT .c hC (K.stop_le hlen)]
      have hpopC := (C.pop_run S _ _).trans hpop
      simp only [C.ConsumerOp.threadCode, C.cConsumer, Proc.run_bind]
      exact congrArg (fun r => (ConsumerStatus.ready, r)) hpopC
  · rw [slots_laidOut hT, slots_laidOut hT]
    refine (T.slots S.N).start_disjoint fun e => ?_
    exact (hsound.exclusion hi).2 (e ▸ hj)

theorem bytes_fifo_small : ∃ s : ByteState,
    s.received = [[9]] ∧ [some [9]] = [s.published (s.joinedAt + 0)] := by
  obtain ⟨s, hs, hr, _⟩ := smallObject_reach
  obtain ⟨h1, _⟩ := bytes_fifo C.Shared.small (T := byteType) (by decide) (l := .rust)
    (by decide +kernel) (by decide +kernel) (fun _ => by decide +kernel) hs
  rw [hr] at h1
  exact ⟨s, hr, h1⟩

end Que.Memory
