import Que.Lossless.System

/-! # What the two sides rely on and guarantee

The producer and the consumer each see the channel, their own structure and the history that
concerns them.  This module fixes the contract between them.

* `ProducerChange`: what a producer step may do.  The head stays, the tail only grows and a new
  tail is at most `head + N`, the slots between head and tail keep their content, and positions
  that become published hold the published value.
* `ConsumerChange`: what a consumer step may do.  The tail stays, the head only grows and never
  passes the tail, and the slots from the tail up to `head + N` keep their content.
* `Base`: the facts about the header and the history that hold in every state.

An operation is verified once against these contracts, in `Lossless/ProducerSafe.lean` and
`Lossless/ConsumerSafe.lean`; together they give the invariant of all interleavings. -/

namespace Que.Lossless

open Lib

variable {V : Type}

/-! ### Views and changes -/

/-- What the producer's code and its history see. -/
structure ProducerView (V : Type) where
  ch : Channel V
  handle : Handle
  wrote : ℕ → Option V
  published : ℕ → Option V

/-- What the consumer's code and its history see. -/
structure ConsumerView (V : Type) where
  ch : Channel V
  cursor : Consumer
  published : ℕ → Option V

def State.producerView (s : State V) : ProducerView V := ⟨s.ch, s.handle, s.wrote, s.published⟩

def State.consumerView (s : State V) : ConsumerView V := ⟨s.ch, s.cursor, s.published⟩

/-- Facts about the header and the published values that hold in every state. -/
structure Base (C : Config) (ch : Channel V) (published : ℕ → Option V) : Prop where
  magic : ch.magic = MAGIC
  capacity : ch.capacity = C.N
  head_le : ch.head ≤ ch.tail
  tail_lt : ch.tail < 2 ^ C.w
  beyond : ∀ p, ch.tail ≤ p → published p = none

/-- What a step of the producer may do to the channel and to the published values. -/
structure ProducerChange (C : Config) (a b : Channel V) (pub pub' : ℕ → Option V) : Prop where
  head : b.head = a.head
  magic : b.magic = a.magic
  capacity : b.capacity = a.capacity
  tail_le : a.tail ≤ b.tail
  cells : ∀ p, a.head ≤ p → p < a.tail → b.buffer (slot C.N p) = a.buffer (slot C.N p)
  room : b.tail ≠ a.tail → b.tail ≤ b.head + C.N
  fresh : ∀ p, a.head ≤ p → a.tail ≤ p → p < b.tail → pub' p = some (b.buffer (slot C.N p))
  kept : ∀ p v, pub p = some v → pub' p = some v

/-- What a step of the consumer may do to the channel. -/
structure ConsumerChange (C : Config) (a b : Channel V) : Prop where
  tail : b.tail = a.tail
  magic : b.magic = a.magic
  capacity : b.capacity = a.capacity
  head_le : a.head ≤ b.head
  head_le_tail : a.head ≤ a.tail → b.head ≤ b.tail
  cells : ∀ p, a.tail ≤ p → p < a.head + C.N → b.buffer (slot C.N p) = a.buffer (slot C.N p)

section changes
variable {C : Config} {a b c : Channel V} {pub pub' pub'' : ℕ → Option V}

theorem Base.quiet (h : Base C a pub) (q : Quiet a b) : Base C b pub :=
  ⟨q.magic.trans h.magic, q.capacity.trans h.capacity, by rw [q.head, q.tail]; exact h.head_le,
    by rw [q.tail]; exact h.tail_lt, by rw [q.tail]; exact h.beyond⟩

theorem ProducerChange.of_quiet (q : Quiet a b) : ProducerChange C a b pub pub where
  head := q.head
  magic := q.magic
  capacity := q.capacity
  tail_le := q.tail.ge
  cells := fun p _ _ => by rw [q.buffer]
  room := fun h => absurd q.tail h
  fresh := fun p _ h1 h2 => by rw [q.tail] at h2; omega
  kept := fun _ _ h => h

theorem ConsumerChange.of_quiet (q : Quiet a b) : ConsumerChange C a b where
  tail := q.tail
  magic := q.magic
  capacity := q.capacity
  head_le := q.head.ge
  head_le_tail := fun h => by rw [q.head, q.tail]; exact h
  cells := fun p _ _ => by rw [q.buffer]

theorem ProducerChange.trans (h : ProducerChange C a b pub pub')
    (h' : ProducerChange C b c pub' pub'') :
    ProducerChange C a c pub pub'' where
  head := h'.head.trans h.head
  magic := h'.magic.trans h.magic
  capacity := h'.capacity.trans h.capacity
  tail_le := h.tail_le.trans h'.tail_le
  cells := fun p h1 h2 => by
    rw [h'.cells p (by rw [h.head]; exact h1) (lt_of_lt_of_le h2 h.tail_le), h.cells p h1 h2]
  room := fun hne => by
    rcases Decidable.em (c.tail = b.tail) with e | e
    · rw [e, h'.head]
      exact h.room fun hb => hne (e.trans hb)
    · exact h'.room e
  fresh := fun p h0 h1 h2 => by
    rw [← h.head] at h0
    rcases Nat.lt_or_ge p b.tail with hlt | hge
    -- published by the first step: the second keeps the value and the slot
    · rw [h'.kept p _ (h.fresh p (h.head ▸ h0) h1 hlt), h'.cells p h0 hlt]
    · exact h'.fresh p h0 hge h2
  kept := fun p v hp => h'.kept p v (h.kept p v hp)

theorem ConsumerChange.trans (h : ConsumerChange C a b) (h' : ConsumerChange C b c) :
    ConsumerChange C a c where
  tail := h'.tail.trans h.tail
  magic := h'.magic.trans h.magic
  capacity := h'.capacity.trans h.capacity
  head_le := h.head_le.trans h'.head_le
  head_le_tail := fun h0 => h'.head_le_tail (h.head_le_tail h0)
  cells := fun p h1 h2 => by
    have := h.head_le
    rw [h'.cells p (by rw [h.tail]; exact h1) (by omega), h.cells p h1 h2]

/-- The base facts survive a step of the consumer. -/
theorem Base.consumer (h : Base C a pub) (hc : ConsumerChange C a b) : Base C b pub :=
  ⟨hc.magic.trans h.magic, hc.capacity.trans h.capacity, hc.head_le_tail h.head_le,
    by rw [hc.tail]; exact h.tail_lt, by rw [hc.tail]; exact h.beyond⟩

end changes

/-! ### Contracts -/

section contracts
variable (C : Config)

/-- What the producer relies on between two of its actions. -/
structure ProducerRely (a b : ProducerView V) : Prop where
  handle : b.handle = a.handle
  wrote : b.wrote = a.wrote
  published : b.published = a.published
  change : ConsumerChange C a.ch b.ch

/-- What the consumer relies on between two of its actions. -/
structure ConsumerRely (a b : ConsumerView V) : Prop where
  cursor : b.cursor = a.cursor
  change : ProducerChange C a.ch b.ch a.published b.published

/-- The producer's local tail lies between the shared tail and the end of the free space. -/
def TailBound (v : ProducerView V) : Prop :=
  v.ch.tail ≤ v.handle.producer.tail ∧ v.handle.producer.tail ≤ v.ch.head + C.N

/-- The consumer's local head lies between the shared head and the shared tail. -/
def HeadBound (v : ConsumerView V) : Prop :=
  v.ch.head ≤ v.cursor.head ∧ v.cursor.head ≤ v.ch.tail

/-- If the action writes a slot, it is not the slot of a position between the shared head and
the producer's local tail, which then is not behind the shared tail. -/
def SlotFree (a : Act Handle V) (v : ProducerView V) : Prop :=
  ∀ i, a.written = some i → v.ch.tail ≤ v.handle.producer.tail ∧
    ∀ q, v.ch.head ≤ q → q < v.handle.producer.tail → slot C.N q ≠ i

/-- If the action accesses a slot, it is the slot at the consumer's cursor, and the position is
published and not yet given back. -/
def SlotHeld (a : Act Consumer V) (v : ConsumerView V) : Prop :=
  ∀ i, a.accessed = some i →
    i = slot C.N v.cursor.head ∧ v.ch.head ≤ v.cursor.head ∧ v.cursor.head < v.ch.tail

variable {C} in
theorem slotFree_of_none {a : Act Handle V} {v : ProducerView V} (h : a.written = none) :
    SlotFree C a v := by
  intro i hi
  rw [h] at hi
  cases hi

variable {C} in
theorem slotHeld_of_none {a : Act Consumer V} {v : ConsumerView V} (h : a.accessed = none) :
    SlotHeld C a v := by
  intro i hi
  rw [h] at hi
  cases hi

/-- What every action of the producer respects; `J` is the bound on its own structure. -/
structure ProducerGuar (J : ProducerView V → Prop) (a : Act Handle V) (v v' : ProducerView V) :
    Prop where
  change : ProducerChange C v.ch v'.ch v.published v'.published
  base : Base C v'.ch v'.published
  bound : J v'
  free : SlotFree C a v

/-- What every action of the consumer respects. -/
structure ConsumerGuar (J : ConsumerView V → Prop) (a : Act Consumer V) (v v' : ConsumerView V) :
    Prop where
  change : ConsumerChange C v.ch v'.ch
  published : v'.published = v.published
  bound : J v'
  held : SlotHeld C a v

/-- The producer's contract.  The tail is loaded by the constructors only; there the free space
has to be non-negative. -/
def producerContract (J : ProducerView V → Prop) :
    Contract (Act Handle V) Act.Ans (ProducerView V) where
  step a v :=
    let r := a.step C.w (v.ch, v.handle)
    (r.1, ⟨r.2.1, r.2.2, v.wrote, publish a v.wrote v.published⟩)
  asm a v := Base C v.ch v.published ∧ (a = .load .tail → v.ch.tail ≤ v.ch.head + C.N)
  rely := ProducerRely C
  guar := ProducerGuar C J
  rely_refl _ := ⟨rfl, rfl, rfl, .of_quiet (.refl _)⟩
  rely_trans h h' := ⟨h'.handle.trans h.handle, h'.wrote.trans h.wrote,
    h'.published.trans h.published, h.change.trans h'.change⟩

/-- The consumer's contract. -/
def consumerContract (J : ConsumerView V → Prop) :
    Contract (Act Consumer V) Act.Ans (ConsumerView V) where
  step a v :=
    let r := a.step C.w (v.ch, v.cursor)
    (r.1, ⟨r.2.1, r.2.2, v.published⟩)
  asm _ v := Base C v.ch v.published
  rely := ConsumerRely C
  guar := ConsumerGuar C J
  rely_refl _ := ⟨rfl, .of_quiet (.refl _)⟩
  rely_trans h h' := ⟨h'.cursor.trans h.cursor, h.change.trans h'.change⟩

end contracts

end Que.Lossless
