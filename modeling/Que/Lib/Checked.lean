import Que.Lib.Prog
import Mathlib.Algebra.Group.Nat.Defs
import Mathlib.Algebra.Ring.Int.Defs
import Mathlib.Tactic.Zify

/-! # Programs with marked places

A program can be marked: between its actions stand marks of a type `B` that do nothing
(`Marked A R B α`).  `lift` turns a program into one without marks, `erase` takes the marks out
again.  The marks used here are places where unsigned words are added or subtracted.

* `Arith` is such an addition or subtraction with its operands; it is in range if the exact result
  is a word.
* `Site` says how it is written: with the operators, which a build with overflow checks turns into a
  panic when the result is out of range, or with a method that always wraps. -/

namespace Que.Lib

/-! ### Arithmetic -/

/-- An addition or subtraction of unsigned words. -/
inductive Arith where
  | add (x y : ℕ)
  | sub (x y : ℕ)
deriving DecidableEq, Repr

namespace Arith

/-- The exact result. -/
def result : Arith → ℤ
  | add x y => x + y
  | sub x y => x - y

/-- The exact result is a `w`-bit word. -/
def InRange (w : ℕ) (a : Arith) : Prop := 0 ≤ a.result ∧ a.result < 2 ^ w

instance (w : ℕ) (a : Arith) : Decidable (a.InRange w) := inferInstanceAs (Decidable (_ ∧ _))

theorem InRange.add {w x y : ℕ} (h : x + y < 2 ^ w) : (Arith.add x y).InRange w := by
  refine ⟨by simp only [result]; omega, ?_⟩
  simp only [result]
  exact_mod_cast h

theorem InRange.sub {w x y : ℕ} (h : y ≤ x) (hx : x < 2 ^ w) : (Arith.sub x y).InRange w := by
  refine ⟨by simp only [result]; omega, ?_⟩
  have hlt : (x : ℤ) < 2 ^ w := by exact_mod_cast hx
  simp only [result]
  omega

end Arith

/-- An addition or subtraction as the source writes it. -/
inductive Site where
  | checked (a : Arith)
  | wrapping (a : Arith)
deriving DecidableEq, Repr

namespace Site

def arith : Site → Arith
  | checked a => a
  | wrapping a => a

/-- A build with overflow checks panics here. -/
def Panics (w : ℕ) : Site → Prop
  | checked a => ¬ a.InRange w
  | wrapping _ => False

theorem not_panics {w : ℕ} {s : Site} (h : s.arith.InRange w) : ¬ s.Panics w := by
  cases s with
  | checked a => exact fun hp => hp h
  | wrapping a => exact fun hp => hp

end Site

/-! ### Marked programs -/

section marked
variable {A B : Type} {R : A → Type} {α β : Type}

/-- A mark is answered by nothing. -/
abbrev markedAns (R : A → Type) : A ⊕ B → Type
  | .inl a => R a
  | .inr _ => Unit

/-- A program with marks of the type `B`. -/
abbrev Marked (A : Type) (R : A → Type) (B α : Type) : Type :=
  Prog (A ⊕ B) (markedAns R) α

namespace Marked

/-- A program without marks. -/
def lift : Prog A R α → Marked A R B α
  | .ret x => .ret x
  | .act a k => .act (.inl a) fun r => lift (k r)

def mark (b : B) : Marked A R B Unit := .act (.inr b) .ret

/-- Take the marks out. -/
def erase : Marked A R B α → Prog A R α
  | .ret x => .ret x
  | .act (.inl a) k => .act a fun r => erase (k r)
  | .act (.inr _) k => erase (k ())

@[simp] theorem erase_ret (x : α) : erase (.ret x : Marked A R B α) = .ret x := rfl

@[simp] theorem erase_lift (c : Prog A R α) : erase (lift c : Marked A R B α) = c := by
  induction c with
  | ret x => rfl
  | act a k ih => exact congrArg (Prog.act a) (funext ih)

@[simp] theorem erase_bind (c : Marked A R B α) (f : α → Marked A R B β) :
    erase (c >>= f) = erase c >>= fun x => erase (f x) := by
  induction c with
  | ret x => rfl
  | act a k ih =>
      cases a with
      | inl a => exact congrArg (Prog.act a) (funext ih)
      | inr b => exact ih ()

@[simp] theorem erase_ite (p : Prop) [Decidable p] (c d : Marked A R B α) :
    erase (if p then c else d) = if p then erase c else erase d := by
  split_ifs <;> rfl

end Marked

end marked

end Que.Lib
