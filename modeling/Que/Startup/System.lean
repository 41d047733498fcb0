import Que.Lossless.Initialise
import Que.Headless.Producer
import Que.Headless.Consumer

/-! # Start-up as a concurrent system

An initialiser and a joiner on memory whose magic is zero, interleaved action by action.

* **Initialiser.** A producer of either flavour runs `join_or_initialize_in_` and then any
  sequence of pushes and syncs.
* **Joiner.** A consumer of either flavour runs its join once.  Its result is the cursor with
  which it would start.
* **History.** `stored` lists the tails that the initialiser has stored, `touched` says whether
  the joiner has performed an action that writes to the shared memory. -/

namespace Que

open Lib

/-- Keep the result of a call, or its failure. -/
def Outcome.map {α β : Type} (f : α → β) : Outcome α → Outcome β
  | .ok x => .ok (f x)
  | .err e => .err e
  | .panic => .panic

/-- A sequence of pushes (`some v`) and syncs (`none`) of a headless producer. -/
def Headless.produce {W : Type} {K : ℕ} (w N : ℕ) :
    List (Option (Vector W K)) → Proc Producer W Unit
  | [] => return ()
  | none :: calls => do
      Headless.sync
      produce w N calls
  | some v :: calls => do
      Headless.push w N v
      produce w N calls

end Que

namespace Que.Startup

open Lib

variable {L V : Type}

/-! ### The two parties -/

/-- A producer that initialises the channel and then makes the given calls. -/
inductive Initialiser (V : Type) where
  | lossless (calls : List (Option V))
  | headless (K : ℕ) (calls : List (Option (Vector V K)))

namespace Initialiser

/-- The own structure of the producer. -/
abbrev Own : Initialiser V → Type
  | lossless _ => Lossless.Handle
  | headless _ _ => Producer

/-- The structure before the constructor has returned; it is not read. -/
def unset : (p : Initialiser V) → p.Own
  | lossless _ => ⟨⟨0, 0, 0⟩, ⟨0, 0, 0, false⟩⟩
  | headless _ _ => (⟨0, 0, 0⟩ : Producer)

def code (C : Config) : (p : Initialiser V) → Proc p.Own V Unit
  | lossless calls => do
      match ← Lossless.joinOrInitializeIn C.mode C.N C.buffer with
      | .ok p => do
          update fun h => { h with producer := p }
          let _ ← Lossless.produce C.w C.N calls
          return ()
      | _ => return ()
  | headless _ calls => do
      match ← Headless.joinOrInitializeIn C.mode C.N C.buffer with
      | .ok p => do
          update fun _ => p
          Headless.produce C.w C.N calls
      | _ => return ()

/-- The number of pushes. -/
def pushes : Initialiser V → ℕ
  | lossless calls => calls.countP Option.isSome
  | headless _ calls => calls.countP Option.isSome

end Initialiser

/-- A consumer that joins; the arguments of a headless consumer pass the assertions of its
constructor. -/
inductive Joiner where
  | lossless
  | headless (index consumers : ℕ) (index_lt : index < consumers) (consumers_le : consumers ≤ 64)

namespace Joiner

/-- The join; the result is the cursor of the new consumer. -/
def code (C : Config) : Joiner → Proc Unit V (Outcome ℕ)
  | lossless => do
      let r ← Lossless.joinConsumer C.mode C.N C.buffer
      return r.map Lossless.Consumer.head
  | headless index consumers _ _ => do
      let r ← Headless.joinMulti C.w C.mode C.N C.buffer index consumers
      return r.map Headless.Consumer.head

/-- The cursor with which a consumer starts when it finds the tail `t`. -/
def cursor (w : ℕ) : Joiner → ℕ → ℕ
  | lossless, t => t
  | headless index consumers _ _, t => Headless.nextModulo w t index consumers

end Joiner

/-! ### States and steps -/

/-- The tails stored so far, after an action. -/
def storedBy (a : Act L V) (stored : List ℕ) : List ℕ :=
  match a with
  | .store .tail t => t :: stored
  | _ => stored

/-- The actions that write to the shared memory. -/
def writes : Act L V → Bool
  | .load _ | .read _ | .self | .update _ => false
  | _ => true

/-- The shared memory, the producer's own structure and the history. -/
structure View (L V : Type) where
  ch : Channel V
  own : L
  stored : List ℕ
  touched : Bool

namespace View

/-- The effect of an action of the initialiser. -/
def initialiserDoes (w : ℕ) (a : Act L V) (v : View L V) : View L V :=
  let r := a.step w (v.ch, v.own)
  { v with ch := r.2.1, own := r.2.2, stored := storedBy a v.stored }

/-- The effect of an action of the joiner. -/
def joinerDoes (w : ℕ) (a : Act Unit V) (v : View L V) : View L V :=
  { v with ch := (a.step w (v.ch, ())).2.1, touched := writes a || v.touched }

end View

/-- A view together with the code that the two parties still have to run. -/
structure State (L V : Type) where
  view : View L V
  initialiser : Proc L V Unit
  joiner : Proc Unit V (Outcome ℕ)

/-- Before the first action, on the memory `m`. -/
def State.initial (C : Config) (p : Initialiser V) (j : Joiner) (m : Channel V) : State p.Own V :=
  ⟨⟨m, p.unset, [], false⟩, p.code C, j.code C⟩

/-- One action of either party. -/
inductive Step (w : ℕ) : State L V → State L V → Prop
  | initialiser {s : State L V} {a : Act L V} {k : a.Ans → Proc L V Unit} :
      s.initialiser = .act a k →
      Step w s ⟨s.view.initialiserDoes w a, k (a.step w (s.view.ch, s.view.own)).1, s.joiner⟩
  | joiner {s : State L V} {a : Act Unit V} {k : a.Ans → Proc Unit V (Outcome ℕ)} :
      s.joiner = .act a k →
      Step w s ⟨s.view.joinerDoes w a, s.initialiser, k (a.step w (s.view.ch, ())).1⟩

abbrev Reach (w : ℕ) : State L V → State L V → Prop := Relation.ReflTransGen (Step w)

/-! ### Running a schedule -/

/-- Which party moves. -/
inductive Party where
  | initialiser
  | joiner

namespace State

/-- The state after an action of the given party, if it has one left. -/
def move (w : ℕ) (s : State L V) : Party → Option (State L V)
  | .initialiser =>
      match s.initialiser with
      | .ret _ => none
      | .act a k =>
          some ⟨s.view.initialiserDoes w a, k (a.step w (s.view.ch, s.view.own)).1, s.joiner⟩
  | .joiner =>
      match s.joiner with
      | .ret _ => none
      | .act a k => some ⟨s.view.joinerDoes w a, s.initialiser, k (a.step w (s.view.ch, ())).1⟩

/-- The state after a schedule. -/
def moves (w : ℕ) (s : State L V) : List Party → Option (State L V)
  | [] => some s
  | m :: ms => (s.move w m).bind fun t => t.moves w ms

/-- The result of the join, once it has returned. -/
def result (s : State L V) : Option (Outcome ℕ) :=
  match s.joiner with
  | .ret r => some r
  | .act _ _ => none

end State

theorem State.move_step {w : ℕ} {s t : State L V} {m : Party} (h : s.move w m = some t) :
    Step w s t := by
  cases m with
  | initialiser =>
      cases hp : s.initialiser with
      | ret x => simp [move, hp] at h
      | act a k =>
          simp only [move, hp, Option.some.injEq] at h
          exact h ▸ .initialiser hp
  | joiner =>
      cases hj : s.joiner with
      | ret x => simp [move, hj] at h
      | act a k =>
          simp only [move, hj, Option.some.injEq] at h
          exact h ▸ .joiner hj

theorem State.moves_reach {w : ℕ} {ms : List Party} {s t : State L V}
    (h : s.moves w ms = some t) : Reach w s t := by
  induction ms generalizing s with
  | nil =>
      cases h
      exact .refl
  | cons m ms ih =>
      obtain ⟨u, hu, ht⟩ := Option.bind_eq_some_iff.mp h
      exact .head (State.move_step hu) (ih ht)

end Que.Startup
