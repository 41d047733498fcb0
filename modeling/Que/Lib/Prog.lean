import Mathlib.Data.Nat.Notation
import Mathlib.Tactic.SplitIfs

/-! # Programs of atomic actions and rely/guarantee reasoning

A small language for code that touches shared memory one action at a time.

* **Programs.** `Prog A R α` is a finite tree: either a result `ret x`, or one action `a : A`
  followed by a continuation that receives the answer of type `R a`.  Programs form a monad, so
  source code is transcribed with `do`.
* **Sequential meaning.** `exec step c s` runs `c` alone from the state `s`.
* **Interleaved meaning.** A thread that is inside an operation *is* the program it still has to
  run; one step of the thread performs the action at the root.  Between any two actions other
  threads may change the state.
* **Actions in the tree.** `All p q c` says that every action anywhere in the tree satisfies `p`
  and every result `q`, whatever the answers are.
* **Rely/guarantee.** A `Contract` says what one action does (`step`), what may be assumed when
  it is performed (`asm`), what the other threads may do in between (`rely`, a preorder) and what
  every action of the thread has to respect (`guar`).  `Safe K c Q s` says that from `s` the
  program `c` keeps its guarantee in every environment that keeps the rely, and that it ends in
  `Q`.  `Safe` survives the steps of others (`Safe.stable`) and the thread's own steps
  (`Safe.own`), so it is an invariant of every interleaving. -/

namespace Que.Lib

/-- A program over the actions `A`, whose action `a` is answered by a value of type `R a`. -/
inductive Prog (A : Type) (R : A → Type) (α : Type) where
  | ret (x : α)
  | act (a : A) (k : R a → Prog A R α)

namespace Prog

variable {A : Type} {R : A → Type} {α β γ S : Type}

/-- Run `c`, then the program chosen by its result. -/
protected def bind : Prog A R α → (α → Prog A R β) → Prog A R β
  | ret x, f => f x
  | act a k, f => act a (fun r => (k r).bind f)

instance : Monad (Prog A R) where
  pure := ret
  bind := Prog.bind

/-- A single action as a program. -/
def perform (a : A) : Prog A R (R a) := act a ret

/-- No program is one of its own continuations. -/
theorem act_ne (a : A) (k : R a → Prog A R α) (r : R a) : act a k ≠ k r := by
  have h : ∀ (c : Prog A R α) (a : A) (k : R a → Prog A R α) (r : R a), c = act a k → k r ≠ c := by
    intro c
    induction c with
    | ret x => exact fun _ _ _ h => nomatch h
    | act b m ih =>
        rintro a k r h hr
        cases h
        exact ih r _ _ r hr rfl
  exact fun e => h _ a k r rfl e.symm

@[simp] theorem ret_bind (x : α) (f : α → Prog A R β) : (ret x : Prog A R α) >>= f = f x := rfl

@[simp] theorem pure_eq_ret (x : α) : (pure x : Prog A R α) = ret x := rfl

@[simp] theorem act_bind (a : A) (k : R a → Prog A R α) (f : α → Prog A R β) :
    (act a k : Prog A R α) >>= f = act a (fun r => k r >>= f) := rfl

@[simp] theorem perform_bind (a : A) (f : R a → Prog A R β) :
    (perform a : Prog A R (R a)) >>= f = act a f := rfl

theorem bind_ret (c : Prog A R α) : c >>= ret = c := by
  induction c with
  | ret x => rfl
  | act a k ih => exact congrArg (act a) (funext ih)

theorem bind_assoc (c : Prog A R α) (f : α → Prog A R β) (g : β → Prog A R γ) :
    c >>= f >>= g = c >>= fun x => f x >>= g := by
  induction c with
  | ret x => rfl
  | act a k ih => exact congrArg (act a) (funext ih)

/-! ### Running alone -/

section exec
variable (step : (a : A) → S → R a × S)

/-- The sequential run of a program: no other thread moves. -/
def exec : Prog A R α → S → α × S
  | ret x, s => (x, s)
  | act a k, s => (k (step a s).1).exec (step a s).2

@[simp] theorem exec_ret (x : α) (s : S) : (ret x : Prog A R α).exec step s = (x, s) := rfl

@[simp] theorem exec_act (a : A) (k : R a → Prog A R α) (s : S) :
    (act a k).exec step s = (k (step a s).1).exec step (step a s).2 := rfl

@[simp] theorem exec_perform (a : A) (s : S) : (perform a).exec step s = step a s := rfl

@[simp] theorem exec_bind (c : Prog A R α) (f : α → Prog A R β) (s : S) :
    (c >>= f).exec step s = (f (c.exec step s).1).exec step (c.exec step s).2 := by
  induction c generalizing s with
  | ret x => rfl
  | act a k ih => exact ih _ _

@[simp] theorem exec_ite (b : Prop) [Decidable b] (c d : Prog A R α) (s : S) :
    (if b then c else d).exec step s = if b then c.exec step s else d.exec step s := by
  split_ifs <;> rfl

end exec

/-! ### Every action of a program -/

/-- Whatever the answers are: every action of the program satisfies `p`, and every result `q`. -/
def All (p : A → Prop) (q : α → Prop) : Prog A R α → Prop
  | ret x => q x
  | act a k => p a ∧ ∀ r, (k r).All p q

@[simp] theorem all_ret {p : A → Prop} {q : α → Prop} (x : α) :
    (ret x : Prog A R α).All p q ↔ q x := Iff.rfl

@[simp] theorem all_act {p : A → Prop} {q : α → Prop} (a : A) (k : R a → Prog A R α) :
    (act a k).All p q ↔ p a ∧ ∀ r, (k r).All p q := Iff.rfl

@[simp] theorem all_ite {p : A → Prop} {q : α → Prop} {b : Prop} [Decidable b]
    {c d : Prog A R α} :
    (if b then c else d).All p q ↔ (b → c.All p q) ∧ (¬ b → d.All p q) := by
  split_ifs with h <;> simp [h]

theorem All.mono {p : A → Prop} {q q' : α → Prop} {c : Prog A R α} (h : c.All p q)
    (hq : ∀ x, q x → q' x) : c.All p q' := by
  induction c with
  | ret x => exact hq x h
  | act a k ih => exact ⟨h.1, fun r => ih r (h.2 r)⟩

theorem all_trivial (c : Prog A R α) : c.All (fun _ => True) (fun _ => True) := by
  induction c with
  | ret x => trivial
  | act a k ih => exact ⟨trivial, ih⟩

theorem All.imp {p p' : A → Prop} {q : α → Prop} {c : Prog A R α} (h : c.All p q)
    (hp : ∀ a, p a → p' a) : c.All p' q := by
  induction c with
  | ret x => exact h
  | act a k ih => exact ⟨hp a h.1, fun r => ih r (h.2 r)⟩

@[simp] theorem all_perform {p : A → Prop} {a : A} {q : R a → Prop} :
    (perform a).All p q ↔ p a ∧ ∀ r, q r := Iff.rfl

@[simp] theorem all_bind {p : A → Prop} {q : β → Prop} {c : Prog A R α} {f : α → Prog A R β} :
    (c >>= f).All p q ↔ c.All p (fun x => (f x).All p q) := by
  induction c with
  | ret x => exact Iff.rfl
  | act a k ih => exact and_congr_right fun _ => forall_congr' fun r => ih r

theorem All.bind {p : A → Prop} {q : β → Prop} {c : Prog A R α} {f : α → Prog A R β}
    (h : c.All p (fun x => (f x).All p q)) : (c >>= f).All p q := all_bind.mpr h

end Prog

/-! ### Rely/guarantee -/

/-- The contract under which a thread runs: the meaning of its actions, what may be assumed of
the state in which an action is performed, what the environment may do between two actions, and
what each action has to respect. -/
structure Contract (A : Type) (R : A → Type) (S : Type) where
  step : (a : A) → S → R a × S
  asm : A → S → Prop
  rely : S → S → Prop
  guar : A → S → S → Prop
  rely_refl : ∀ s, rely s s
  rely_trans : ∀ {s t u}, rely s t → rely t u → rely s u

section safe
variable {A : Type} {R : A → Type} {α β S : Type} (K : Contract A R S)

/-- From `s`, in every environment that keeps the rely, the program keeps the guarantee and its
result satisfies `Q`. -/
def Safe : Prog A R α → (α → S → Prop) → S → Prop
  | .ret x, Q, s => ∀ t, K.rely s t → Q x t
  | .act a k, Q, s => ∀ t, K.rely s t → K.asm a t →
      K.guar a t (K.step a t).2 ∧ Safe (k (K.step a t).1) Q (K.step a t).2

variable {K}

theorem Safe.ret {x : α} {Q : α → S → Prop} {s : S} (h : ∀ t, K.rely s t → Q x t) :
    Safe K (.ret x) Q s := h

/-- Steps of the environment keep a thread safe. -/
theorem Safe.stable {c : Prog A R α} {Q : α → S → Prop} {s t : S} (h : Safe K c Q s)
    (hr : K.rely s t) : Safe K c Q t := by
  cases c with
  | ret x => exact fun u hu => h u (K.rely_trans hr hu)
  | act a k => exact fun u hu => h u (K.rely_trans hr hu)

/-- A step of the thread itself keeps the guarantee and keeps the thread safe. -/
theorem Safe.own {a : A} {k : R a → Prog A R α} {Q : α → S → Prop} {s : S}
    (h : Safe K (.act a k) Q s) (ha : K.asm a s) :
    K.guar a s (K.step a s).2 ∧ Safe K (k (K.step a s).1) Q (K.step a s).2 :=
  h s (K.rely_refl s) ha

/-- A finished program satisfies its postcondition. -/
theorem Safe.done {x : α} {Q : α → S → Prop} {s : S} (h : Safe K (.ret x) Q s) : Q x s :=
  h s (K.rely_refl s)

/-- The postcondition may be weakened. -/
theorem Safe.mono {c : Prog A R α} {Q Q' : α → S → Prop} {s : S} (h : Safe K c Q s)
    (hQ : ∀ x t, Q x t → Q' x t) : Safe K c Q' s := by
  induction c generalizing s with
  | ret x => exact fun t ht => hQ x t (h t ht)
  | act a k ih => exact fun t ht ha => ⟨(h t ht ha).1, ih _ (h t ht ha).2⟩

/-- Sequential composition. -/
theorem Safe.bind {c : Prog A R α} {f : α → Prog A R β} {Q : β → S → Prop} {s : S}
    (h : Safe K c (fun x => Safe K (f x) Q) s) : Safe K (c >>= f) Q s := by
  induction c generalizing s with
  | ret x => exact h.done
  | act a k ih => exact fun t ht ha => ⟨(h t ht ha).1, ih _ (h t ht ha).2⟩

/-- The frame rule: what neither the environment nor the own actions can break stays true. -/
theorem Safe.frame {P : S → Prop} {c : Prog A R α} {Q : α → S → Prop} {s : S}
    (h : Safe K c Q s) (hP : P s) (env : ∀ {t u}, P t → K.rely t u → P u)
    (own : ∀ {a t u}, P t → K.guar a t u → P u) :
    Safe K c (fun x u => Q x u ∧ P u) s := by
  induction c generalizing s with
  | ret x => exact fun t ht => ⟨h t ht, env hP ht⟩
  | act a k ih =>
      intro t ht ha
      obtain ⟨hg, hk⟩ := h t ht ha
      exact ⟨hg, ih _ hk (own (env hP ht) hg)⟩

end safe

end Que.Lib
