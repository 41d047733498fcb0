import Que.Headless.System

/-! # What the headless endpoints rely on and guarantee

The producer writes ahead of the shared tail by at most a burst, so the slots of the last
`readable N` published positions are never touched; that is the window which `Base` describes.
Consumers change nothing that the others look at. -/

namespace Que.Headless

open Lib

variable {W : Type} {K : ℕ}

/-- The words in the slot of position `q`. -/
def element (N K : ℕ) (ch : Channel W) (q : ℕ) : Vector W K :=
  Vector.ofFn fun j => ch.buffer (slot N q * K + j)

theorem element_eq_iff {N : ℕ} {ch : Channel W} {q : ℕ} {v : Vector W K} :
    element N K ch q = v ↔ ∀ j x, v.toList[j]? = some x → ch.buffer (slot N q * K + j) = x := by
  constructor
  · rintro rfl j x hj
    have hlt : j < K := by simpa using (List.getElem?_eq_some_iff.mp hj).1
    simpa [element, hlt] using hj
  · intro h
    ext j hj
    have := h j v[j] (by simp [hj])
    simpa [element] using this

theorem element_congr {N : ℕ} {a b : Channel W} {q : ℕ}
    (h : ∀ j, j < K → b.buffer (slot N q * K + j) = a.buffer (slot N q * K + j)) :
    element N K b q = element N K a q := by
  ext j hj
  simpa [element] using h j hj

theorem readable_add_burst {N : ℕ} (hN : 0 < N) : readable N + burstAmount N = N :=
  Nat.sub_add_cancel (burstAmount_le hN)

/-- What the producer's code and its history see. -/
structure ProducerView (W : Type) (K : ℕ) where
  ch : Channel W
  own : Producer
  wrote : ℕ → Option (Vector W K)
  published : ℕ → Option (Vector W K)

/-- What a consumer's code and its history see; `all` are the positions popped by anyone. -/
structure ConsumerView (W : Type) (K : ℕ) where
  ch : Channel W
  cursor : Consumer
  published : ℕ → Option (Vector W K)
  trace : Trace W K
  all : List ℕ

def State.producerView (s : State W K) : ProducerView W K := ⟨s.ch, s.own, s.wrote, s.published⟩

def State.consumerView (s : State W K) (i : ℕ) : ConsumerView W K :=
  ⟨s.ch, s.cursor i, s.published, s.trace i, s.all⟩

/-- Facts about the header and the published values that hold in every state of a session that
began at the tail `f`: the readable positions have their published value in their slot. -/
structure Base (P : Params) (f : ℕ) (ch : Channel W) (published : ℕ → Option (Vector W K)) :
    Prop where
  magic : ch.magic = MAGIC
  capacity : ch.capacity = P.N
  from_le : f ≤ ch.tail
  tail_lt : ch.tail < P.limit
  beyond : ∀ p, ch.tail ≤ p → published p = none
  window : ∀ q, f ≤ q → q < ch.tail → ch.tail ≤ q + readable P.N →
    published q = some (element P.N K ch q)

/-- What a step of the producer may do to the channel and to the published values. -/
structure ProducerChange (a b : Channel W) (pub pub' : ℕ → Option (Vector W K)) : Prop where
  head : b.head = a.head
  magic : b.magic = a.magic
  capacity : b.capacity = a.capacity
  tail_le : a.tail ≤ b.tail
  kept : ∀ p v, pub p = some v → pub' p = some v

section changes
variable {P : Params} {f : ℕ} {a b c : Channel W} {pub pub' pub'' : ℕ → Option (Vector W K)}

theorem Base.quiet (h : Base P f a pub) (q : Quiet a b) : Base P f b pub := by
  refine ⟨q.magic.trans h.magic, q.capacity.trans h.capacity, ?_, ?_, ?_, fun p h0 h1 h2 => ?_⟩
  · rw [q.tail]
    exact h.from_le
  · rw [q.tail]
    exact h.tail_lt
  · rw [q.tail]
    exact h.beyond
  · rw [q.tail] at h1 h2
    rw [element_congr fun j _ => congrFun q.buffer _]
    exact h.window p h0 h1 h2

theorem ProducerChange.of_quiet (q : Quiet a b) : ProducerChange a b pub pub :=
  ⟨q.head, q.magic, q.capacity, q.tail.ge, fun _ _ h => h⟩

theorem ProducerChange.trans (h : ProducerChange a b pub pub')
    (h' : ProducerChange b c pub' pub'') :
    ProducerChange a c pub pub'' :=
  ⟨h'.head.trans h.head, h'.magic.trans h.magic, h'.capacity.trans h.capacity,
    h.tail_le.trans h'.tail_le, fun p v hp => h'.kept p v (h.kept p v hp)⟩

end changes

/-! ### Contracts -/

/-- What the producer relies on between two of its actions. -/
structure ProducerRely (a b : ProducerView W K) : Prop where
  own : b.own = a.own
  wrote : b.wrote = a.wrote
  published : b.published = a.published
  quiet : Quiet a.ch b.ch

/-- What every action of the producer respects. -/
structure ProducerGuar (P : Params) (f : ℕ) (a b : ProducerView W K) : Prop where
  change : ProducerChange a.ch b.ch a.published b.published
  base : Base P f b.ch b.published

/-- What a consumer relies on between two of its actions; the positions in `mine` are popped by
no other consumer meanwhile. -/
structure ConsumerRely (mine : ℕ → Prop) (a b : ConsumerView W K) : Prop where
  cursor : b.cursor = a.cursor
  trace : b.trace = a.trace
  change : ProducerChange a.ch b.ch a.published b.published
  all : ∀ p ∈ b.all, mine p → p ∈ a.all

/-- What every action of a consumer respects; `G` is a relation between its own structure before
and after the action. -/
structure ConsumerGuar (G : Consumer → Consumer → Prop) (a b : ConsumerView W K) : Prop where
  quiet : Quiet a.ch b.ch
  published : b.published = a.published
  all : b.all = a.all
  moves : G a.cursor b.cursor

/-- The producer's contract. -/
def producerContract (P : Params) (f : ℕ) :
    Contract (Act Producer W) Act.Ans (ProducerView W K) where
  step a v :=
    let r := a.step P.w (v.ch, v.own)
    (r.1, ⟨r.2.1, r.2.2, v.wrote, publish a v.wrote v.published⟩)
  asm _ v := Base P f v.ch v.published
  rely := ProducerRely
  guar _ := ProducerGuar P f
  rely_refl _ := ⟨rfl, rfl, rfl, .refl _⟩
  rely_trans h h' := ⟨h'.own.trans h.own, h'.wrote.trans h.wrote,
    h'.published.trans h.published, h.quiet.trans h'.quiet⟩

/-- The tail that a consumer loaded last. -/
def Trace.lastTail (tr : Trace W K) : ℕ := (tr.loads.getLast?.map Prod.snd).getD tr.joinedAt

theorem Trace.lastTail_append (n h T : ℕ) (loads : List (ℕ × ℕ))
    (popped : List (ℕ × Vector W K)) :
    Trace.lastTail ⟨n, loads ++ [(h, T)], popped⟩ = T := by
  simp [lastTail]

/-- The contract of a consumer inside a call; `join` says whether the call is the constructor.
When it moves its cursor, the tail loaded last is assumed to satisfy `fit`. -/
def consumerContract (P : Params) (f : ℕ) (mine : ℕ → Prop) (fit : ℕ → Prop) (join : Bool)
    (G : Consumer → Consumer → Prop) :
    Contract (Act Consumer W) Act.Ans (ConsumerView W K) where
  step a v :=
    let r := a.step P.w (v.ch, v.cursor)
    (r.1, ⟨r.2.1, r.2.2, v.published, v.trace.after join a v.ch v.cursor, v.all⟩)
  asm a v := Base P f v.ch v.published ∧ (∀ p ∈ v.all, p < v.ch.tail) ∧
    ∀ g, a = .update g → fit v.trace.lastTail
  rely := ConsumerRely mine
  guar _ := ConsumerGuar G
  rely_refl _ := ⟨rfl, rfl, .of_quiet (.refl _), fun _ h _ => h⟩
  rely_trans h h' := ⟨h'.cursor.trans h.cursor, h'.trace.trans h.trace, h.change.trans h'.change,
    fun p hp hm => h.all p (h'.all p hp hm) hm⟩

end Que.Headless
