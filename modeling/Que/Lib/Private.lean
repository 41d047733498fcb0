import Que.Lib.Prog
import Mathlib.Order.Lattice.Nat

/-! # Programs with a private state

A thread that acts on memory which anyone may change still owns a private state that only its own
actions change.

* **Answers.** `Private.own a l` is the private state after the action `a`, and
  `Private.may a l r` says that memory may answer `r`; nothing else is known of memory.
* **Rules.** `Obeys K p c Q l` says that every action that `c` performs from the private
  state `l` satisfies `p`, whatever the answers are, and that `c` ends in `Q`.  The rules follow
  the structure of programs (`obeys_bind`, `obeys_ite`, `Obeys.mono`).
* **Running.** If the steps of a machine answer what `may` allows and change the private state as
  `own` says (`Respects`), each step of a thread keeps the rest of its program within the rule
  (`Obeys.own`).
* **Bounds.** `Takes K n c l` says that `c` performs at most `n` actions; `height K c l` is the
  number that may still come.  `Exactly K n x c l` says that it performs exactly `n` and ends in
  `x`. -/

namespace Que.Lib

/-- How actions change a private state, and how memory may answer them. -/
structure Private (A : Type) (R : A → Type) (L : Type) where
  own : A → L → L
  may : (a : A) → L → R a → Prop

section obeys
variable {A : Type} {R : A → Type} {L S α β : Type} (K : Private A R L) (p : A → Prop)

/-- Every action performed from the private state `l` satisfies `p`, whatever the answers are, and
the result and the private state after it satisfy `Q`. -/
def Obeys : Prog A R α → (α → L → Prop) → L → Prop
  | .ret x, Q, l => Q x l
  | .act a k, Q, l => p a ∧ ∀ r, K.may a l r → Obeys (k r) Q (K.own a l)

variable {K p} {Q : β → L → Prop} {l : L}

@[simp] theorem obeys_ret (x : β) : Obeys K p (.ret x) Q l ↔ Q x l := Iff.rfl

@[simp] theorem obeys_act (a : A) (k : R a → Prog A R β) :
    Obeys K p (.act a k) Q l ↔ p a ∧ ∀ r, K.may a l r → Obeys K p (k r) Q (K.own a l) := Iff.rfl

@[simp] theorem obeys_perform {a : A} {Q : R a → L → Prop} :
    Obeys K p (Prog.perform a) Q l ↔ p a ∧ ∀ r, K.may a l r → Q r (K.own a l) := Iff.rfl

@[simp] theorem obeys_bind {c : Prog A R α} {f : α → Prog A R β} :
    Obeys K p (c >>= f) Q l ↔ Obeys K p c (fun x l => Obeys K p (f x) Q l) l := by
  induction c generalizing l with
  | ret x => exact Iff.rfl
  | act a k ih =>
      exact and_congr_right fun _ => forall_congr' fun r => imp_congr_right fun _ => ih r

@[simp] theorem obeys_ite {b : Prop} [Decidable b] {c d : Prog A R β} :
    Obeys K p (if b then c else d) Q l ↔ (b → Obeys K p c Q l) ∧ (¬ b → Obeys K p d Q l) := by
  split_ifs with h <;> simp [h]

namespace Obeys

theorem bind {c : Prog A R α} {f : α → Prog A R β}
    (h : Obeys K p c (fun x l => Obeys K p (f x) Q l) l) : Obeys K p (c >>= f) Q l :=
  obeys_bind.mpr h

theorem mono {c : Prog A R β} {Q' : β → L → Prop} (h : Obeys K p c Q l)
    (hQ : ∀ x l, Q x l → Q' x l) : Obeys K p c Q' l := by
  induction c generalizing l with
  | ret x => exact hQ x l h
  | act a k ih => exact ⟨h.1, fun r hr => ih r (h.2 r hr)⟩

theorem ite {b : Prop} [Decidable b] {c d : Prog A R β} (h1 : b → Obeys K p c Q l)
    (h2 : ¬ b → Obeys K p d Q l) : Obeys K p (if b then c else d) Q l := obeys_ite.mpr ⟨h1, h2⟩

end Obeys

/-- The steps of a machine with the state `S` change the private state and answer as `K` says, in
the states that satisfy `I`. -/
def Respects (K : Private A R L) (I : S → Prop) (step : (a : A) → S × L → R a × (S × L)) : Prop :=
  ∀ a s l, I s → K.may a l (step a (s, l)).1 ∧ (step a (s, l)).2.2 = K.own a l

/-- One step of a thread. -/
theorem Obeys.own {I : S → Prop} {step : (a : A) → S × L → R a × (S × L)}
    (hK : Respects K I step) {a : A} {k : R a → Prog A R β} (h : Obeys K p (.act a k) Q l)
    {s : S} (hs : I s) : Obeys K p (k (step a (s, l)).1) Q (step a (s, l)).2.2 := by
  obtain ⟨h1, h2⟩ := hK a s l hs
  rw [h2]
  exact h.2 _ h1

end obeys

/-! ### Bounds -/

section takes
variable {A : Type} {R : A → Type} {L α β : Type} (K : Private A R L)

/-- From the private state `l`, the program performs at most `n` actions, whatever the answers
are. -/
def Takes : ℕ → Prog A R α → L → Prop
  | _, .ret _, _ => True
  | 0, .act _ _, _ => False
  | n + 1, .act a k, l => ∀ r, K.may a l r → Takes n (k r) (K.own a l)

/-- The number of actions that the program may still perform. -/
noncomputable def height (c : Prog A R α) (l : L) : ℕ := sInf {n | Takes K n c l}

variable {K} {n : ℕ} {l : L}

@[simp] theorem takes_ret (x : α) : Takes K n (.ret x) l := by
  cases n <;> trivial

@[simp] theorem takes_act {a : A} {k : R a → Prog A R α} :
    Takes K (n + 1) (.act a k) l ↔ ∀ r, K.may a l r → Takes K n (k r) (K.own a l) := Iff.rfl

@[simp] theorem takes_perform {a : A} : Takes K (n + 1) (Prog.perform a) l := fun _ _ => takes_ret _

@[simp] theorem takes_ite {b : Prop} [Decidable b] {c d : Prog A R α} :
    Takes K n (if b then c else d) l ↔ (b → Takes K n c l) ∧ (¬ b → Takes K n d l) := by
  split_ifs with h <;> simp [h]

theorem Takes.mono {m : ℕ} {c : Prog A R α} (h : Takes K m c l) (hmn : m ≤ n) : Takes K n c l := by
  induction c generalizing m n l with
  | ret x => exact takes_ret x
  | act a k ih =>
      cases m with
      | zero => exact h.elim
      | succ m =>
          cases n with
          | zero => omega
          | succ n => exact fun r hr => ih r (h r hr) (by omega)

theorem Takes.bind {m : ℕ} {c : Prog A R α} {f : α → Prog A R β} (h : Takes K m c l)
    (hf : ∀ x l', Takes K n (f x) l') : Takes K (m + n) (c >>= f) l := by
  induction c generalizing m l with
  | ret x => exact Takes.mono (hf x l) (Nat.le_add_left n m)
  | act a k ih =>
      cases m with
      | zero => exact h.elim
      | succ m =>
          rw [Nat.succ_add]
          exact fun r hr => ih r (h r hr)

/-- An action of a bounded program leaves a smaller one behind. -/
theorem height_lt {a : A} {k : R a → Prog A R α} (h : Takes K n (.act a k) l) {r : R a}
    (hr : K.may a l r) : height K (k r) (K.own a l) < height K (.act a k) l := by
  have hmem : height K (.act a k) l ∈ {n | Takes K n (.act a k) l} := Nat.sInf_mem ⟨n, h⟩
  cases hn : height K (.act a k) l with
  | zero =>
      rw [hn] at hmem
      exact hmem.elim
  | succ m =>
      rw [hn] at hmem
      exact Nat.lt_succ_of_le (Nat.sInf_le (hmem r hr))

/-- From the private state `l`, the program performs exactly `n` actions and its result is `x`,
whatever the answers are. -/
def Exactly (K : Private A R L) : ℕ → α → Prog A R α → L → Prop
  | 0, x, .ret y, _ => y = x
  | n + 1, x, .act a k, l => ∀ r, K.may a l r → Exactly K n x (k r) (K.own a l)
  | 0, _, .act _ _, _ => False
  | _ + 1, _, .ret _, _ => False

@[simp] theorem exactly_ret {x y : α} :
    Exactly K n x (.ret y : Prog A R α) l ↔ n = 0 ∧ y = x := by
  cases n <;> simp [Exactly]

theorem exactly_act {x : α} {a : A} {k : R a → Prog A R α} : Exactly K n x (.act a k) l ↔
    ∃ m, n = m + 1 ∧ ∀ r, K.may a l r → Exactly K m x (k r) (K.own a l) := by
  cases n <;> simp [Exactly]

theorem Exactly.takes {x : α} {c : Prog A R α} (h : Exactly K n x c l) : Takes K n c l := by
  induction c generalizing n l with
  | ret y => exact takes_ret y
  | act a k ih =>
      obtain ⟨m, rfl, hk⟩ := exactly_act.mp h
      exact fun r hr => ih r (hk r hr)

end takes

end Que.Lib
