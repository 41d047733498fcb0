import Que.Lib.Ring
import Mathlib.Order.Bounds.Basic

/-! # Sizes and layouts

How compilers lay out structures, and the arithmetic of sizes.

* **Rounding.** `roundUp unit size` is the least multiple of `unit` that is at least `size`.  It is
  written with a division; for a power of two a mask gives the same (`and_not_mask`).
* **Structures.** Every field starts at the next multiple of its alignment (`offsets`), and the size
  is rounded up to the greatest alignment (`structSize`).
* **Expressions.** A `WordExpr` is computed with wrapping words (`eval`) or with unbounded numbers
  (`value`); the two agree where no operation overflows (`Exact`). -/

namespace Que.Lib

/-! ### Rounding up -/

/-- `size.div_ceil(unit)` units. -/
def roundUp (unit size : ℕ) : ℕ := unit * ((size + unit - 1) / unit)

section rounding
variable {unit inner size m : ℕ}

theorem dvd_roundUp (unit size : ℕ) : unit ∣ roundUp unit size := Nat.dvd_mul_right _ _

theorem roundUp_le_iff (h : 0 < unit) (hm : unit ∣ m) : roundUp unit size ≤ m ↔ size ≤ m := by
  obtain ⟨q, rfl⟩ := hm
  unfold roundUp
  rw [Nat.mul_le_mul_left_iff h, ← Nat.lt_succ_iff, Nat.div_lt_iff_lt_mul h, Nat.succ_mul,
    Nat.mul_comm q]
  omega

theorem le_roundUp (h : 0 < unit) (size : ℕ) : size ≤ roundUp unit size :=
  (roundUp_le_iff h (dvd_roundUp unit size)).mp le_rfl

theorem isLeast_roundUp (h : 0 < unit) (size : ℕ) :
    IsLeast {m | unit ∣ m ∧ size ≤ m} (roundUp unit size) := by
  constructor
  · exact ⟨dvd_roundUp unit size, le_roundUp h size⟩
  · intro m hm
    exact (roundUp_le_iff h hm.1).mpr hm.2

theorem roundUp_lt (h : 0 < unit) (size : ℕ) : roundUp unit size < size + unit := by
  have hdiv := Nat.div_mul_le_self (size + unit - 1) unit
  unfold roundUp
  rw [Nat.mul_comm]
  omega

theorem roundUp_of_dvd (h : 0 < unit) (hd : unit ∣ size) : roundUp unit size = size :=
  le_antisymm ((roundUp_le_iff h hd).mpr le_rfl) (le_roundUp h size)

/-- Rounding up to a finer unit first changes nothing. -/
theorem roundUp_roundUp (hi : 0 < inner) (h : 0 < unit) (hd : inner ∣ unit) (size : ℕ) :
    roundUp unit (roundUp inner size) = roundUp unit size := by
  apply le_antisymm
  · rw [roundUp_le_iff h (dvd_roundUp unit size), roundUp_le_iff hi (hd.trans (dvd_roundUp _ _))]
    exact le_roundUp h size
  · rw [roundUp_le_iff h (dvd_roundUp _ _)]
    exact (le_roundUp hi size).trans (le_roundUp h _)

end rounding

/-! ### Masks -/

/-- The complement of the `w`-bit word `x`. -/
def wnot (w x : ℕ) : ℕ := 2 ^ w - 1 - x

/-- The mask `!(2 ^ k - 1)` clears the lowest `k` bits. -/
theorem and_not_mask {w k x : ℕ} (hk : k ≤ w) (hx : x < 2 ^ w) :
    x &&& wnot w (2 ^ k - 1) = 2 ^ k * (x / 2 ^ k) := by
  have hpow : 2 ^ k ≤ 2 ^ w := Nat.pow_le_pow_right Nat.two_pos hk
  have hpos := Nat.two_pow_pos k
  have hmask : wnot w (2 ^ k - 1) = 2 ^ w - (2 ^ k - 1 + 1) := by
    unfold wnot
    omega
  apply Nat.eq_of_testBit_eq
  intro i
  rw [hmask, Nat.testBit_and, Nat.testBit_two_pow_sub_succ (by omega), Nat.testBit_two_pow_sub_one,
    Nat.testBit_two_pow_mul, Nat.testBit_div_two_pow]
  rcases Nat.lt_or_ge i k with hi | hi
  · simp [hi]
  · rw [Nat.sub_add_cancel hi]
    by_cases hw : i < w
    · simp [hi, hw]
    · rw [Nat.testBit_lt_two_pow (hx.trans_le (Nat.pow_le_pow_right Nat.two_pos (by omega)))]
      simp

/-- Rounding up with a mask. -/
theorem roundUp_eq_and {w unit size : ℕ} (hu : isPowerOfTwo unit = true)
    (h : size + unit - 1 < 2 ^ w) :
    (size + unit - 1) &&& wnot w (unit - 1) = roundUp unit size := by
  obtain ⟨k, rfl⟩ := isPowerOfTwo_iff.mp hu
  have hpos := Nat.two_pow_pos k
  have hk : k ≤ w := (Nat.pow_le_pow_iff_right Nat.one_lt_two).mp (by omega)
  exact and_not_mask hk h

/-! ### Structures -/

/-- Size and alignment of a field. -/
structure Field where
  size : ℕ
  align : ℕ
deriving DecidableEq, Repr

/-- Where the fields start that are laid out from `start` on. -/
def offsets : ℕ → List Field → List ℕ
  | _, [] => []
  | start, f :: fs => roundUp f.align start :: offsets (roundUp f.align start + f.size) fs

/-- Where the last of them ends. -/
def fieldsEnd : ℕ → List Field → ℕ
  | start, [] => start
  | start, f :: fs => fieldsEnd (roundUp f.align start + f.size) fs

/-- The alignment of a structure for which at least `align` is asked. -/
def structAlign (align : ℕ) (fs : List Field) : ℕ := (fs.map Field.align).foldl max align

/-- Its size. -/
def structSize (align : ℕ) (fs : List Field) : ℕ := roundUp (structAlign align fs) (fieldsEnd 0 fs)

/-- A structure as a field of another one. -/
def Field.ofStruct (align : ℕ) (fs : List Field) : Field :=
  ⟨structSize align fs, structAlign align fs⟩

theorem offsets_append (start : ℕ) (fs gs : List Field) :
    offsets start (fs ++ gs) = offsets start fs ++ offsets (fieldsEnd start fs) gs := by
  induction fs generalizing start with
  | nil => rfl
  | cons f fs ih => exact congrArg _ (ih _)

theorem fieldsEnd_append (start : ℕ) (fs gs : List Field) :
    fieldsEnd start (fs ++ gs) = fieldsEnd (fieldsEnd start fs) gs := by
  induction fs generalizing start with
  | nil => rfl
  | cons f fs ih => exact ih _

theorem structAlign_append (align : ℕ) (fs gs : List Field) :
    structAlign align (fs ++ gs) = structAlign (structAlign align fs) gs := by
  unfold structAlign
  rw [List.map_append, List.foldl_append]

/-! ### Expressions -/

/-- An expression over unsigned words. -/
inductive WordExpr where
  | lit (n : ℕ)
  | add (a b : WordExpr)
  | sub (a b : WordExpr)
  | mul (a b : WordExpr)
  | divCeil (a b : WordExpr)
  | and (a b : WordExpr)
  | not (a : WordExpr)
deriving DecidableEq, Repr

namespace WordExpr
variable (w : ℕ)

/-- The word that is computed; operations wrap. -/
def eval : WordExpr → ℕ
  | lit n => n
  | add a b => wadd w a.eval b.eval
  | sub a b => wsub w a.eval b.eval
  | mul a b => a.eval * b.eval % 2 ^ w
  | divCeil a b => (a.eval + b.eval - 1) / b.eval
  | and a b => a.eval &&& b.eval
  | not a => wnot w a.eval

/-- The number that is meant. -/
def value : WordExpr → ℕ
  | lit n => n
  | add a b => a.value + b.value
  | sub a b => a.value - b.value
  | mul a b => a.value * b.value
  | divCeil a b => (a.value + b.value - 1) / b.value
  | and a b => a.value &&& b.value
  | not a => wnot w a.value

/-- No operation overflows, and nothing is divided by zero. -/
def Exact : WordExpr → Prop
  | lit _ => True
  | add a b => a.Exact ∧ b.Exact ∧ a.value w + b.value w < 2 ^ w
  | sub a b => a.Exact ∧ b.Exact ∧ b.value w ≤ a.value w ∧ a.value w - b.value w < 2 ^ w
  | mul a b => a.Exact ∧ b.Exact ∧ a.value w * b.value w < 2 ^ w
  | divCeil a b => a.Exact ∧ b.Exact ∧ 0 < b.value w
  | and a b => a.Exact ∧ b.Exact
  | not a => a.Exact

variable {w}

/-- An expression in which nothing overflows is computed right. -/
theorem Exact.eval_eq {e : WordExpr} (h : e.Exact w) : e.eval w = e.value w := by
  induction e with
  | lit n => rfl
  | add a b iha ihb =>
      obtain ⟨ha, hb, hlt⟩ := h
      rw [eval, iha ha, ihb hb]
      exact wadd_of_lt hlt
  | sub a b iha ihb =>
      obtain ⟨ha, hb, hle, hlt⟩ := h
      rw [eval, iha ha, ihb hb]
      exact wsub_of_sub_lt hle hlt
  | mul a b iha ihb =>
      obtain ⟨ha, hb, hlt⟩ := h
      rw [eval, iha ha, ihb hb]
      exact Nat.mod_eq_of_lt hlt
  | divCeil a b iha ihb =>
      rw [eval, iha h.1, ihb h.2.1]
      rfl
  | and a b iha ihb =>
      rw [eval, iha h.1, ihb h.2]
      rfl
  | not a iha =>
      rw [eval, iha h]
      rfl

end WordExpr

end Que.Lib
