import Que.Overflow.Sure
import Que.Lib.Private

/-! # Endpoint code and its own structure

What an endpoint does is decided by its own structure and by what its loads are answered.  `owning`
is the rule for private states (`Lib/Private.lean`) with the actions of endpoint code; what is known
of the answers to loads is a parameter.

The outcome of some calls is decided by a single load: of the head for a push or a reservation, of
the tail for a pop.  Such a call is `Undecided` until it has loaded the word; after that it is bound
to pass, or it is bound to be `Refused` and changes nothing. -/

namespace Que

open Lib

variable {L V α : Type}

/-- An endpoint owns its structure; loads are answered as `cond` says. -/
def owning (cond : Word → L → ℕ → Prop) : Private (Act L V) Act.Ans L where
  own := Act.own
  may := Act.MayAnswer cond

/-- Whatever the loads are answered. -/
abbrev anyAnswer : Private (Act L V) Act.Ans L := owning fun _ _ _ => True

section primitives
variable {cond : Word → L → ℕ → Prop} {p : Act L V → Prop} {l : L}

@[simp] theorem obeys_load {x : Word} {Q : ℕ → L → Prop} : Obeys (owning cond) p (load x) Q l ↔
    p (.load x) ∧ ∀ n, cond x l n → Q n l := Iff.rfl

@[simp] theorem obeys_store {x : Word} {v : ℕ} {Q : Unit → L → Prop} :
    Obeys (owning cond) p (store x v) Q l ↔ p (.store x v) ∧ Q () l := by
  exact ⟨fun h => ⟨h.1, h.2 () trivial⟩, fun h => ⟨h.1, fun _ _ => h.2⟩⟩

@[simp] theorem obeys_fetchAdd {x : Word} {v : ℕ} {Q : ℕ → L → Prop} :
    Obeys (owning cond) p (fetchAdd x v) Q l ↔ p (.fetchAdd x v) ∧ ∀ n, Q n l := by
  simp [fetchAdd, owning, Act.MayAnswer, Act.own]

@[simp] theorem obeys_read {i : ℕ} {Q : V → L → Prop} :
    Obeys (owning cond) p (read i) Q l ↔ p (.read i) ∧ ∀ v, Q v l := by
  simp [read, owning, Act.MayAnswer, Act.own]

@[simp] theorem obeys_assign {i : ℕ} {v : V} {Q : Unit → L → Prop} :
    Obeys (owning cond) p (assign i v) Q l ↔ p (.assign i v) ∧ Q () l := by
  exact ⟨fun h => ⟨h.1, h.2 () trivial⟩, fun h => ⟨h.1, fun _ _ => h.2⟩⟩

@[simp] theorem obeys_self {Q : L → L → Prop} :
    Obeys (owning cond) p self Q l ↔ p .self ∧ Q l l := by
  simp [self, owning, Act.MayAnswer, Act.own]

@[simp] theorem obeys_update {f : L → L} {Q : Unit → L → Prop} :
    Obeys (owning cond) p (update f) Q l ↔ p (.update f) ∧ Q () (f l) := by
  exact ⟨fun h => ⟨h.1, h.2 () trivial⟩, fun h => ⟨h.1, fun _ _ => h.2⟩⟩

@[simp] theorem obeys_pure {x : α} {Q : α → L → Prop} :
    Obeys (owning cond) p (pure x : Proc L V α) Q l ↔ Q x l := Iff.rfl

end primitives

/-! ### Threads -/

/-- The number of actions that the thread may still perform in its call. -/
noncomputable def toGo {St Op R : Type} (l : L) : Thread L V St Op R → ℕ
  | .rest _ => 0
  | .busy _ _ code => height anyAnswer code l

/-- The action leaves the tail alone or stores one that is at most `F`. -/
def StoresUpTo (F : ℕ) : Act L V → Prop
  | .store .tail t => t ≤ F
  | .fetchAdd .tail _ => False
  | _ => True

section stores
variable {E : Type} {F : ℕ} {a : Act L V} {wrote pub : ℕ → Option E} {p : ℕ}

/-- The tail after such an action, and what is published below it. -/
theorem StoresUpTo.published (ha : StoresUpTo F a) (w : ℕ) {ch : Channel V} {l : L}
    (hp : p < (a.step w (ch, l)).2.1.tail) :
    p < ch.tail ∧ publish a wrote pub p = pub p ∨
      p < F ∧ publish a wrote pub p = (pub p).or (wrote p) := by
  cases a with
  | store x t =>
      cases x with
      | tail =>
          have hlt : p < t := hp
          refine .inr ⟨hlt.trans_le ha, ?_⟩
          simp only [publish, if_pos hlt]
          cases pub p <;> rfl
      | _ => exact .inl ⟨hp, rfl⟩
  | fetchAdd x n =>
      cases x with
      | tail => exact ha.elim
      | _ => exact .inl ⟨hp, rfl⟩
  | _ => exact .inl ⟨hp, rfl⟩

/-- Such an action publishes positions below `F` only, with what was written there. -/
theorem StoresUpTo.of_published (ha : StoresUpTo F a) {v : E}
    (h : publish a wrote pub p = some v) :
    pub p = some v ∨ p < F ∧ wrote p = some v := by
  cases a with
  | store x n =>
      cases x with
      | tail =>
          simp only [publish] at h
          cases hp : pub p with
          | some u => exact .inl (by simpa only [hp] using h)
          | none =>
              simp only [hp] at h
              split_ifs at h with hlt
              exact .inr ⟨hlt.trans_le ha, h⟩
      | _ => exact .inl h
  | _ => exact .inl h

end stores

/-! ### Calls that are decided by one load -/

section decided
variable {α : Type}

/-- The rest of the code does nothing but look at its own structure, and its result is bad. -/
def Refused (bad : α → Prop) (code : Proc L V α) (l : L) : Prop :=
  Obeys anyAnswer (fun a => a = .self) code (fun r _ => bad r) l

/-- The code is about to load the word `x`; it passes if the answer is `ok`, and is refused
otherwise. -/
inductive Undecided (x : Word) (ok : ℕ → Prop) (p : Act L V → Prop) (good : α → L → Prop)
    (bad : α → Prop) (l : L) : Proc L V α → Prop
  | self {k : L → Proc L V α} : Undecided x ok p good bad l (k l) →
      Undecided x ok p good bad l (.act .self k)
  | load {k : ℕ → Proc L V α} : (∀ n, ok n → Obeys anyAnswer p (k n) good l) →
      (∀ n, ¬ ok n → Refused bad (k n) l) → Undecided x ok p good bad l (.act (.load x) k)

variable {x : Word} {ok : ℕ → Prop} {p : Act L V → Prop} {good : α → L → Prop} {bad : α → Prop}
  {l : L} {code : Proc L V α}

theorem step_anyAnswer (w : ℕ) (a : Act L V) (ch : Channel V) (l : L) :
    anyAnswer.may a l (a.step w (ch, l)).1 ∧ (a.step w (ch, l)).2.2 = anyAnswer.own a l :=
  a.step_mayAnswer w fun _ => trivial

/-- A step of code that obeys a rule. -/
theorem obeys_answered {a : Act L V} {k : a.Ans → Proc L V α}
    (h : Obeys anyAnswer p (.act a k) good l) (w : ℕ) (ch : Channel V) :
    p a ∧ Obeys anyAnswer p (k (a.step w (ch, l)).1) good (a.step w (ch, l)).2.2 := by
  obtain ⟨h1, h2⟩ := step_anyAnswer w a ch l
  rw [h2]
  exact ⟨h.1, h.2 _ h1⟩

/-- A step of bounded code. -/
theorem takes_answered {n : ℕ} {a : Act L V} {k : a.Ans → Proc L V α}
    (h : Takes anyAnswer n (.act a k) l) (w : ℕ) (ch : Channel V) :
    0 < n ∧ Takes anyAnswer (n - 1) (k (a.step w (ch, l)).1) (a.step w (ch, l)).2.2 ∧
      height anyAnswer (k (a.step w (ch, l)).1) (a.step w (ch, l)).2.2 <
        height anyAnswer (.act a k) l := by
  obtain ⟨h1, h2⟩ := step_anyAnswer w a ch l
  rw [h2]
  cases n with
  | zero => exact h.elim
  | succ n => exact ⟨Nat.succ_pos n, h _ h1, height_lt h h1⟩

theorem Undecided.not_refused (h : Undecided x ok p good bad l code) : ¬ Refused bad code l := by
  induction h with
  | self _ ih => exact fun hr => ih (hr.2 l rfl)
  | load _ _ => exact fun hr => nomatch hr.1

theorem not_refused_of_passes (hbad : ∀ r l, good r l → ¬ bad r)
    (h : Obeys anyAnswer p code good l) : ¬ Refused bad code l := by
  induction code with
  | ret r => exact hbad r l h
  | act a k ih =>
      rintro ⟨rfl, hr⟩
      exact ih l (h.2 l rfl) (hr l rfl)

/-- A step of a refused call changes nothing. -/
theorem Refused.step {a : Act L V} {k : a.Ans → Proc L V α} (h : Refused bad (.act a k) l) (w : ℕ)
    (ch : Channel V) : (a.step w (ch, l)).2 = (ch, l) ∧ Refused bad (k (a.step w (ch, l)).1) l := by
  obtain ⟨rfl, hr⟩ := h
  exact ⟨rfl, hr l rfl⟩

/-- A step of an undecided call changes nothing, and may decide it. -/
theorem Undecided.step {a : Act L V} {k : a.Ans → Proc L V α}
    (h : Undecided x ok p good bad l (.act a k)) (w : ℕ) (ch : Channel V) :
    (a.step w (ch, l)).2 = (ch, l) ∧
      (Undecided x ok p good bad l (k (a.step w (ch, l)).1) ∨
        ok (ch.get x) ∧ Obeys anyAnswer p (k (a.step w (ch, l)).1) good l ∨
        ¬ ok (ch.get x) ∧ Refused bad (k (a.step w (ch, l)).1) l) := by
  cases h with
  | self h => exact ⟨rfl, .inl h⟩
  | load h1 h2 =>
      refine ⟨rfl, .inr ?_⟩
      by_cases hok : ok (ch.get x)
      · exact .inl ⟨hok, h1 _ hok⟩
      · exact .inr ⟨hok, h2 _ hok⟩

end decided

end Que
