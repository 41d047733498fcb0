import Que.Headless.Rounds
import Mathlib.Order.Monotone.Basic

/-! # The overrun check at the counter limit

`pop` finds out whether its cursor was overrun by comparing the tail with the wrapped sum
`head + (N - burst)`.  The tail does not wrap here, but the sum may, and then it is compared the
wrong way.

* **One round.** The check is right, and a reset does not move the cursor back, exactly if the sum
  does not wrap or there is nothing to read (`Ahead.checks_iff`).
* **Runs.** While this holds at every round, the positions delivered increase
  (`Ahead.delivered_increase`).
* **Beyond.** Where the sum wraps, the cursor is moved back to a position that was delivered
  before (`not_checks_wrapped`). -/

namespace Que.Headless

open Lib

variable {W : Type} {K : ℕ} {C : Config} {mem : ℕ → Channel W} {s : Watch}

/-- A single consumer that is not ahead of the tail, in a memory whose tail only grows and is a
word. -/
structure Ahead (C : Config) (mem : ℕ → Channel W) (s : Watch) : Prop where
  interval : s.own.interval = 1
  head_le : s.own.head ≤ (mem s.time).tail
  grows : Monotone fun t => (mem t).tail
  word : ∀ t, (mem t).tail ≤ 2 ^ C.w - 1

/-- What a round of `pop` from `s` to `t` should do: it starts over exactly if the last tail that
it loaded is too far ahead of the cursor, and it does not move the cursor back. -/
structure Checks (N : ℕ) (s : Watch) (r : Round (Option (Vector W K))) (t : Watch) : Prop where
  overrun : ∀ T, t.seen.getLast? = some T → (r = .again ↔ T - s.own.head > readable N)
  forward : s.own.head ≤ t.own.head

theorem Checks.of_last {N : ℕ} {t : Watch} {r : Round (Option (Vector W K))} (T : ℕ)
    (hlast : t.seen.getLast? = some T) (hover : r = .again ↔ T - s.own.head > readable N)
    (hforward : s.own.head ≤ t.own.head) : Checks N s r t := by
  refine ⟨?_, hforward⟩
  intro T' hT'
  rw [hlast, Option.some.injEq] at hT'
  rw [← hT']
  exact hover

/-- Nothing is to be read, or the sum in the check is a word. -/
def Fits (C : Config) (mem : ℕ → Channel W) (s : Watch) : Prop :=
  (mem s.time).tail = s.own.head ∨ s.own.head + readable C.N < 2 ^ C.w

theorem nextModulo_one {w h i : ℕ} (hlt : h < 2 ^ w) : nextModulo w h i 1 = h := by
  unfold nextModulo
  simp only [Nat.mod_one]
  exact wadd_of_lt hlt

namespace Ahead

theorem tail_lt (A : Ahead C mem s) (t : ℕ) : (mem t).tail < 2 ^ C.w := by
  have h1 := A.word t
  have h2 := Nat.two_pow_pos C.w
  omega

theorem resetTo_head (A : Ahead C mem s) {t : ℕ} (hread : readable C.N ≤ (mem t).tail) :
    (resetTo C.w C.N (mem t).tail s.own).head = (mem t).tail - readable C.N := by
  have hlt := A.tail_lt t
  unfold resetTo
  simp only [A.interval]
  rw [wsub_of_le hread hlt, nextModulo_one (by omega)]

theorem reach_lt_head (A : Ahead C mem s) (h : ¬ s.own.head + readable C.N < 2 ^ C.w) :
    wadd C.w s.own.head (readable C.N) < s.own.head := by
  have h1 := A.tail_lt s.time
  have h2 := A.head_le
  have h3 := two_mul_readable_lt C
  unfold wadd
  rw [Nat.mod_eq_sub_mod (by omega), Nat.mod_eq_of_lt (by omega)]
  omega

/-- A round whose check fits: what it loads and where the cursor goes. -/
theorem round_of_fits (A : Ahead C mem s) (hfit : Fits C mem s) {t : Watch}
    {r : Round (Option (Vector W K))} (h : Rounded C.w C.N mem s r t) :
    Checks C.N s r t ∧ Ahead C mem t ∧ s.time ≤ t.time ∧
      ∀ v, r = .done (some v) → t.own.head = s.own.head + 1 := by
  have hle := A.head_le
  have hsum : s.own.head < (mem s.time).tail →
      wadd C.w s.own.head (readable C.N) = s.own.head + readable C.N := by
    intro hlt
    rcases hfit with heq | hfit
    · omega
    · exact wadd_of_lt hfit
  cases h with
  | caughtUp hcaught =>
      have hgrows : (mem s.time).tail ≤ (mem (s.time + 2)).tail := A.grows (by omega)
      refine ⟨.of_last (mem s.time).tail (by simp) ?_ le_rfl, ⟨A.interval, ?_, A.grows, A.word⟩, ?_,
        nofun⟩
      · constructor
        · nofun
        · omega
      · exact hle.trans hgrows
      · simp only
        omega
  | overrun hlt hover =>
      rw [hsum hlt] at hover
      have hhead := A.resetTo_head (t := s.time) (by omega)
      have hgrows : (mem s.time).tail ≤ (mem (s.time + 3)).tail := A.grows (by omega)
      refine ⟨.of_last (mem s.time).tail (by simp) ?_ ?_, ⟨A.interval, ?_, A.grows, A.word⟩, ?_,
        nofun⟩
      · exact ⟨fun _ => by omega, fun _ => rfl⟩
      all_goals
        simp only [hhead]
        omega
  | overtaken t ht hlt hcov hover =>
      rw [hsum hlt] at hcov hover
      have hhead := A.resetTo_head (t := t) (by omega)
      have hgrows : (mem t).tail ≤ (mem (t + 3)).tail := A.grows (by omega)
      refine ⟨.of_last (mem t).tail (by simp) ?_ ?_, ⟨A.interval, ?_, A.grows, A.word⟩, ?_, nofun⟩
      · exact ⟨fun _ => by omega, fun _ => rfl⟩
      all_goals
        simp only [hhead]
        omega
  | taken t x ht hlt hcov hlate =>
      rw [hsum hlt] at hcov hlate
      have hword := A.tail_lt s.time
      have hnext : wadd C.w s.own.head s.own.interval = s.own.head + 1 := by
        rw [A.interval, wadd_of_lt (by omega)]
      have hgrows : (mem s.time).tail ≤ (mem (t + 3)).tail := A.grows (by omega)
      refine ⟨.of_last (mem t).tail (by simp) ?_ ?_, ⟨A.interval, ?_, A.grows, A.word⟩, ?_,
        fun _ _ => hnext⟩
      · constructor
        · nofun
        · omega
      all_goals
        simp only [hnext]
        omega

/-- **The overrun check is right exactly where its sum fits.** -/
theorem checks_iff (A : Ahead C mem s) :
    Checks C.N s (popRound C.w C.N K mem s).1 (popRound C.w C.N K mem s).2 ↔ Fits C mem s := by
  have hround := popRound_rounded (K := K) C.w C.N mem s
  generalize (popRound C.w C.N K mem s).1 = r, (popRound C.w C.N K mem s).2 = t at hround ⊢
  have hle := A.head_le
  constructor
  · intro H
    by_contra hfit
    unfold Fits at hfit
    rw [not_or] at hfit
    have hreach := A.reach_lt_head hfit.2
    cases hround with
    | caughtUp h => omega
    | overrun hlt hover =>
        have hfar := (H.overrun (mem s.time).tail (by simp)).mp rfl
        have hword := A.tail_lt s.time
        omega
    | overtaken t _ hlt hcov _ => omega
    | taken t x _ hlt hcov _ => omega
  · intro hfit
    exact (A.round_of_fits hfit hround).1

end Ahead

/-! ### Runs -/

section runs
variable (w N K : ℕ) (mem : ℕ → Channel W)

/-- The consumer after `n` rounds, one call of `pop` after the other. -/
def rounds (n : ℕ) (s : Watch) : Watch := (fun s => (popRound w N K mem s).2)^[n] s

def delivers (s : Watch) : Option ℕ :=
  match (popRound w N K mem s).1 with
  | .done (some _) => some s.own.head
  | _ => none

/-- The positions delivered in `n` rounds. -/
def delivered : ℕ → Watch → List ℕ
  | 0, _ => []
  | n + 1, s => (delivers w N K mem s).toList ++ delivered n (popRound w N K mem s).2

end runs

namespace Ahead

/-- As long as the check fits at every round, the positions delivered increase, and none is behind
the cursor. -/
theorem delivered_increase (A : Ahead C mem s) {n : ℕ}
    (hfits : ∀ k < n, Fits C mem (rounds C.w C.N K mem k s)) :
    (delivered C.w C.N K mem n s).Pairwise (· < ·) ∧
      ∀ p ∈ delivered C.w C.N K mem n s, s.own.head ≤ p := by
  induction n generalizing s with
  | zero => exact ⟨.nil, nofun⟩
  | succ n ih =>
      have hround := popRound_rounded (K := K) C.w C.N mem s
      obtain ⟨hchecks, A', -, htaken⟩ := A.round_of_fits (hfits 0 (by omega)) hround
      obtain ⟨hsorted, hge⟩ := ih A' fun k hk => hfits (k + 1) (by omega)
      have hforward := hchecks.forward
      unfold delivered delivers
      generalize popRound C.w C.N K mem s = r at hforward hsorted hge htaken ⊢
      obtain ⟨r, t⟩ := r
      match r, htaken with
      | .again, _ => exact ⟨hsorted, fun p hp => hforward.trans (hge p hp)⟩
      | .done none, _ => exact ⟨hsorted, fun p hp => hforward.trans (hge p hp)⟩
      | .done (some v), htaken =>
          have hnext : t.own.head = s.own.head + 1 := htaken v rfl
          simp only [Option.toList_some, List.singleton_append, List.pairwise_cons, List.mem_cons]
          refine ⟨⟨?_, hsorted⟩, ?_⟩
          · intro p hp
            have hlater := hge p hp
            simp only at hlater
            omega
          · rintro p (rfl | hp)
            · exact le_rfl
            · exact hforward.trans (hge p hp)

end Ahead

/-- **The overrun logic up to the counter limit.**  For every cursor and every tail from the cursor
on: a round decides by the distance to the tail, and does not move the cursor back, if and only if
the sum in its check is a word or there is nothing to read.  Where that holds at every round of a
run, no position is delivered twice. -/
theorem overrun_check_iff (C : Config) (K : ℕ) {mem : ℕ → Channel W} {s : Watch}
    (A : Ahead C mem s) :
    (Checks C.N s (popRound C.w C.N K mem s).1 (popRound C.w C.N K mem s).2 ↔ Fits C mem s) ∧
    ∀ n, (∀ k < n, Fits C mem (rounds C.w C.N K mem k s)) →
      (delivered C.w C.N K mem n s).Pairwise (· < ·) :=
  ⟨A.checks_iff, fun _ hfits => (A.delivered_increase hfits).1⟩

/-- Slots of one word, with the greatest 64-bit word as the tail. -/
def lastTail (_ : ℕ) : Channel ℕ := { Channel.zeroed 0 with tail := 2 ^ 64 - 1 }

theorem ahead_lastTail {s : Watch} (hk : s.own.interval = 1) (hle : s.own.head ≤ 2 ^ 64 - 1) :
    Ahead Config.eight lastTail s :=
  ⟨hk, hle, fun _ _ _ => le_rfl, fun _ => le_rfl⟩

/-- A ring of eight slots, and a cursor seven positions below `2 ^ 64`: the check still fits. -/
theorem overrun_check_seven : let s : Watch := ⟨0, [], ⟨2 ^ 64 - 7, 1, 0, 0⟩⟩
    Checks 8 s (popRound 64 8 1 lastTail s).1 (popRound 64 8 1 lastTail s).2 ∧
      delivered 64 8 1 lastTail 1 s = [2 ^ 64 - 7] := by
  intro s
  have A : Ahead Config.eight lastTail s := ahead_lastTail rfl (by decide)
  refine ⟨(overrun_check_iff Config.eight 1 A).1.mpr ?_, by decide +kernel⟩
  right
  decide +kernel

/-- **Beyond**: six positions below `2 ^ 64` the sum wraps.  The cursor is five positions behind the
tail, which can be read, but the round starts over and moves the cursor back, and the position
before it is delivered a second time. -/
theorem not_checks_wrapped : let s : Watch := ⟨0, [], ⟨2 ^ 64 - 6, 1, 0, 0⟩⟩
    Ahead Config.eight lastTail s ∧ (2 ^ 64 - 1) - s.own.head ≤ readable 8 ∧
      (popRound 64 8 1 lastTail s).1 = .again ∧
      (popRound 64 8 1 lastTail s).2.own.head = 2 ^ 64 - 7 ∧
      ¬ Checks 8 s (popRound 64 8 1 lastTail s).1 (popRound 64 8 1 lastTail s).2 ∧
      delivered 64 8 1 lastTail 3 ⟨0, [], ⟨2 ^ 64 - 7, 1, 0, 0⟩⟩ = [2 ^ 64 - 7, 2 ^ 64 - 7] := by
  intro s
  have hback : (popRound 64 8 1 lastTail s).2.own.head = 2 ^ 64 - 7 := by decide +kernel
  refine ⟨ahead_lastTail rfl (by decide), by decide +kernel, by decide +kernel, hback, ?_,
    by decide +kernel⟩
  intro H
  have hforward : 2 ^ 64 - 6 ≤ (popRound 64 8 1 lastTail s).2.own.head := H.forward
  rw [hback] at hforward
  exact absurd hforward (by decide)

end Que.Headless
