import Mathlib.Data.Nat.Notation
import Mathlib.Data.Nat.Bitwise
import Mathlib.Data.Nat.ModEq
import Mathlib.Logic.Function.Basic
import Mathlib.Tactic.SplitIfs

/-! # Machine counters and ring positions

Two pieces of arithmetic that ring buffers rest on.

* **Counters.** `wadd w` and `wsub w` are addition and subtraction of `w`-bit unsigned words,
  the result reduced modulo `2 ^ w`.  Inside the range they are the usual operations.
* **Positions and slots.** A ring of `N` slots keeps the element of position `p` in the slot
  `p &&& (N - 1)`.  For `N` a power of two this is `p % N`, so the positions of a window of
  length `N` have distinct slots (`slot_ne`), and running through a block of positions is
  running through the ring with at most one wraparound (`slot_add`). -/

namespace Que.Lib

/-! ### Words -/

/-- Wrapping addition of `w`-bit words. -/
def wadd (w a b : ℕ) : ℕ := (a + b) % 2 ^ w

/-- Wrapping subtraction of `w`-bit words. -/
def wsub (w a b : ℕ) : ℕ := (a + (2 ^ w - b % 2 ^ w)) % 2 ^ w

theorem wadd_of_lt {w a b : ℕ} (h : a + b < 2 ^ w) : wadd w a b = a + b := Nat.mod_eq_of_lt h

theorem wadd_le (w a b : ℕ) : wadd w a b ≤ a + b := Nat.mod_le _ _

theorem wadd_lt (w a b : ℕ) : wadd w a b < 2 ^ w := Nat.mod_lt _ (Nat.two_pow_pos w)

/-- A difference that fits into a word is computed right, also of counters that do not. -/
theorem wsub_of_sub_lt {w a b : ℕ} (h : b ≤ a) (hd : a - b < 2 ^ w) : wsub w a b = a - b := by
  unfold wsub
  have hr : b % 2 ^ w < 2 ^ w := Nat.mod_lt _ (Nat.two_pow_pos w)
  have hb : 2 ^ w * (b / 2 ^ w) + b % 2 ^ w = b := Nat.div_add_mod b (2 ^ w)
  have e : a + (2 ^ w - b % 2 ^ w) = a - b + 2 ^ w * (b / 2 ^ w + 1) := by
    rw [Nat.mul_add, Nat.mul_one]
    omega
  rw [e, Nat.add_mul_mod_self_left, Nat.mod_eq_of_lt hd]

theorem wsub_of_le {w a b : ℕ} (h : b ≤ a) (ha : a < 2 ^ w) : wsub w a b = a - b :=
  wsub_of_sub_lt h ((Nat.sub_le a b).trans_lt ha)

/-- The distance test by equality: a word above `h` equals the wrapped sum
`h + n` only when it is exactly `n` above, even where the sum wraps. -/
theorem eq_wadd_iff {w t h n : ℕ} (ht : t < 2 ^ w) (hn : n < 2 ^ w) (h1 : h ≤ t) :
    t = wadd w h n ↔ t = h + n := by
  unfold wadd
  rcases Nat.lt_or_ge (h + n) (2 ^ w) with hlt | hge
  · rw [Nat.mod_eq_of_lt hlt]
  · have e : h + n = (h + n - 2 ^ w) + 2 ^ w := by omega
    have hm : (h + n) % 2 ^ w = h + n - 2 ^ w := by
      rw [e, Nat.add_mod_right, Nat.mod_eq_of_lt (by omega)]
      omega
    rw [hm]
    omega

/-! ### Powers of two -/

/-- Executable test for a power of two. -/
def isPowerOfTwo (n : ℕ) : Bool := decide (n = 2 ^ n.log2)

theorem isPowerOfTwo_iff {n : ℕ} : isPowerOfTwo n = true ↔ ∃ k, n = 2 ^ k := by
  unfold isPowerOfTwo
  rw [decide_eq_true_iff]
  constructor
  · exact fun h => ⟨_, h⟩
  · rintro ⟨k, rfl⟩
    rw [Nat.log2_two_pow]

theorem pos_of_isPowerOfTwo {n : ℕ} (h : isPowerOfTwo n = true) : 0 < n := by
  obtain ⟨k, rfl⟩ := isPowerOfTwo_iff.mp h
  exact Nat.two_pow_pos k

/-- Of two powers of two the lower one divides the other. -/
theorem dvd_of_isPowerOfTwo {a b : ℕ} (ha : isPowerOfTwo a = true) (hb : isPowerOfTwo b = true)
    (h : a ≤ b) : a ∣ b := by
  obtain ⟨i, rfl⟩ := isPowerOfTwo_iff.mp ha
  obtain ⟨j, rfl⟩ := isPowerOfTwo_iff.mp hb
  exact Nat.pow_dvd_pow 2 ((Nat.pow_le_pow_iff_right Nat.one_lt_two).mp h)

/-- A power of two below `2 ^ w` fits twice. -/
theorem two_mul_le_of_isPowerOfTwo {n w : ℕ} (h : isPowerOfTwo n = true) (hn : n < 2 ^ w) :
    2 * n ≤ 2 ^ w := by
  obtain ⟨k, rfl⟩ := isPowerOfTwo_iff.mp h
  have hk : k < w := (Nat.pow_lt_pow_iff_right Nat.one_lt_two).mp hn
  rw [← Nat.pow_succ']
  exact Nat.pow_le_pow_right Nat.two_pos hk

/-! ### Slots -/

/-- The slot of position `p` in a ring of `N` slots. -/
def slot (N p : ℕ) : ℕ := p &&& (N - 1)

section slots
variable {N : ℕ} (hN : isPowerOfTwo N = true)
include hN

theorem slot_eq_mod (p : ℕ) : slot N p = p % N := by
  obtain ⟨k, rfl⟩ := isPowerOfTwo_iff.mp hN
  exact Nat.and_two_pow_sub_one_eq_mod p k

theorem slot_lt (p : ℕ) : slot N p < N := by
  rw [slot_eq_mod hN]
  exact Nat.mod_lt _ (pos_of_isPowerOfTwo hN)

/-- Distinct positions of a window of length `N` have distinct slots. -/
theorem slot_ne {p q : ℕ} (h1 : p < q) (h2 : q < p + N) : slot N q ≠ slot N p := by
  rw [slot_eq_mod hN, slot_eq_mod hN]
  intro h
  have hd : N ∣ q - p := (Nat.modEq_iff_dvd' (Nat.le_of_lt h1)).mp h.symm
  have := Nat.le_of_dvd (by omega) hd
  omega

/-- The slot `j` positions further: straight on, or wrapped around once. -/
theorem slot_add {p j : ℕ} (hj : j ≤ N) :
    slot N (p + j) = if slot N p + j < N then slot N p + j else slot N p + j - N := by
  have hlt := slot_lt hN p
  rw [slot_eq_mod hN] at hlt ⊢
  rw [slot_eq_mod hN, ← Nat.mod_add_mod]
  split_ifs with h
  · exact Nat.mod_eq_of_lt h
  · rw [Nat.mod_eq_sub_mod (by omega), Nat.mod_eq_of_lt (by omega)]

/-- Wrapping a position at `2 ^ w` does not change its slot. -/
theorem slot_wadd {w : ℕ} (hw : N < 2 ^ w) (a b : ℕ) : slot N (wadd w a b) = slot N (a + b) := by
  have hd : N ∣ 2 ^ w := dvd_of_isPowerOfTwo hN (isPowerOfTwo_iff.mpr ⟨w, rfl⟩) hw.le
  rw [slot_eq_mod hN, slot_eq_mod hN, wadd, Nat.mod_mod_of_dvd _ hd]

end slots

/-- Where the capacity is not a power of two, some position below it is masked to zero. -/
theorem exists_slot_eq_zero {N : ℕ} (hN : 0 < N) (h : isPowerOfTwo N = false) :
    ∃ q, 0 < q ∧ q < N ∧ slot N q = 0 := by
  have hlog : 2 ^ N.log2 ≤ N := Nat.log2_self_le (by omega)
  have hlt : N < 2 ^ (N.log2 + 1) := Nat.lt_log2_self
  have hne : N ≠ 2 ^ N.log2 := by
    intro e
    rw [isPowerOfTwo, decide_eq_false_iff_not] at h
    exact h e
  -- some bit of `N - 1` below the highest one is zero: otherwise `N` were the next power of two
  obtain ⟨i, hi, hbit⟩ : ∃ i, i < N.log2 ∧ (N - 1).testBit i = false := by
    by_contra hno
    have hall : ∀ i, i < N.log2 → (N - 1).testBit i = true := by
      intro i hi
      by_contra hb
      exact hno ⟨i, hi, by simpa using hb⟩
    have e : N - 1 = 2 ^ (N.log2 + 1) - 1 := by
      apply Nat.eq_of_testBit_eq
      intro i
      rw [Nat.testBit_two_pow_sub_one]
      rcases Nat.lt_trichotomy i N.log2 with hi | hi | hi
      · rw [hall i hi]
        exact (decide_eq_true (by omega)).symm
      · subst hi
        have hk : (N - 1).log2 = N.log2 := by
          apply (Nat.log2_eq_iff (by omega)).mpr
          constructor <;> omega
        rw [decide_eq_true (by omega), ← hk]
        exact Nat.testBit_log2 (by omega)
      · rw [decide_eq_false (by omega)]
        apply Nat.testBit_lt_two_pow
        calc N - 1 < 2 ^ (N.log2 + 1) := by omega
          _ ≤ 2 ^ i := Nat.pow_le_pow_right Nat.two_pos hi
    omega
  refine ⟨2 ^ i, Nat.two_pow_pos i, ?_, ?_⟩
  · have := Nat.pow_lt_pow_right Nat.one_lt_two hi
    omega
  · unfold slot
    rw [Nat.two_pow_and, hbit]
    simp

/-- Slots of `K` cells are disjoint. -/
theorem cell_ne {K i i' j j' : ℕ} (h : i ≠ i') (hj : j < K) (hj' : j' < K) :
    i * K + j ≠ i' * K + j' := by
  intro e
  have hdiv : ∀ a b, b < K → (a * K + b) / K = a := by
    intro a b hb
    rw [Nat.mul_comm, Nat.mul_add_div (by omega), Nat.div_eq_of_lt hb, Nat.add_zero]
  exact h (by rw [← hdiv i j hj, e, hdiv i' j' hj'])

/-! ### Residues -/

/-- The first number from `h` on that is `i` modulo `k`. -/
def nextResidue (h i k : ℕ) : ℕ := h + (i + k - h % k) % k

section residues
variable {h i k : ℕ}

theorem le_nextResidue : h ≤ nextResidue h i k := Nat.le_add_right _ _

theorem nextResidue_lt (hk : 0 < k) : nextResidue h i k < h + k :=
  Nat.add_lt_add_left (Nat.mod_lt _ hk) h

theorem nextResidue_mod (hi : i < k) : nextResidue h i k % k = i := by
  have hm : h % k < k := Nat.mod_lt _ (by omega)
  unfold nextResidue
  rw [Nat.add_mod_mod, ← Nat.mod_add_mod, show h % k + (i + k - h % k) = i + k by omega,
    Nat.add_mod_right, Nat.mod_eq_of_lt hi]

/-- Numbers of one residue are a multiple of the modulus apart. -/
theorem add_le_of_mod_eq {p q : ℕ} (hpq : p % k = q % k) (hlt : p < q) : p + k ≤ q := by
  have hd : k ∣ q - p := (Nat.modEq_iff_dvd' hlt.le).mp hpq
  have := Nat.le_of_dvd (by omega) hd
  omega

/-- A number of the residue that lies before `nextResidue h i k` lies before `h`. -/
theorem lt_of_lt_nextResidue (hi : i < k) {p : ℕ} (hp : p % k = i) (hlt : p < nextResidue h i k) :
    p < h := by
  have h1 := add_le_of_mod_eq (hp.trans (nextResidue_mod hi).symm) hlt
  have h2 := nextResidue_lt (h := h) (i := i) (k := k) (by omega)
  omega

end residues

end Que.Lib
