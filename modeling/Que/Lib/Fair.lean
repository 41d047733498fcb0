import Mathlib.Order.WellFounded
import Mathlib.Data.Nat.Basic

/-! # Fair schedules

What is needed to show that something happens in the end.

* **Schedules.** A schedule says which process moves next; it is fair if every process moves again
  and again (`Fair`).
* **Ranking.** `Ranking` is the proof rule: in every state that is not a goal, one process is
  helpful.  Its step lowers the rank, and no other step raises the rank or makes another process
  helpful without lowering the rank.  Then every fair schedule reaches a goal
  (`Ranking.eventually`), for good if no step leaves it (`Ranking.eventually_always`). -/

namespace Que.Lib

/-! ### Schedules -/

section schedules
variable {P S : Type} (next : P → S → S)

/-- The state after `n` steps. -/
def runs (sched : ℕ → P) (s : S) : ℕ → S
  | 0 => s
  | n + 1 => next (sched n) (runs sched s n)

/-- Every process moves again and again. -/
def Fair (sched : ℕ → P) : Prop := ∀ p n, ∃ m, n ≤ m ∧ sched m = p

variable {next} {sched : ℕ → P} {s : S}

theorem runs_add (m n : ℕ) : runs next sched s (m + n) =
    runs next (fun i => sched (m + i)) (runs next sched s m) n := by
  induction n with
  | zero => rfl
  | succ n ih => exact congrArg (next (sched (m + n))) ih

theorem Fair.shift (h : Fair sched) (m : ℕ) : Fair fun i => sched (m + i) := by
  intro p n
  obtain ⟨k, hk, rfl⟩ := h p (m + n)
  exact ⟨k - m, by omega, congrArg sched (by omega)⟩

/-- What every step keeps holds in every state of a run. -/
theorem runs_keep {I : S → Prop} (h : ∀ p s, I s → I (next p s)) (hs : I s) (n : ℕ) :
    I (runs next sched s n) := by
  induction n with
  | zero => exact hs
  | succ n ih => exact h _ _ ih

/-- In the states that satisfy `I`, the helpful process lowers the rank until a goal is reached, and
no other process gets in its way. -/
structure Ranking {W : Type} [LT W] (next : P → S → S) (I goal : S → Prop) (rank : S → W)
    (helpful : S → P) : Prop where
  keep : ∀ p s, I s → I (next p s)
  own : ∀ s, I s → ¬ goal s → rank (next (helpful s) s) < rank s
  other : ∀ p s, I s → ¬ goal s → rank (next p s) < rank s ∨
    rank (next p s) = rank s ∧ helpful (next p s) = helpful s

/-- **Progress.** Every fair schedule reaches a goal. -/
theorem Ranking.eventually {W : Type} [LT W] [WellFoundedLT W] {I goal : S → Prop} {rank : S → W}
    {helpful : S → P} (R : Ranking next I goal rank helpful) (hs : I s) (hfair : Fair sched) :
    ∃ n, goal (runs next sched s n) := by
  induction hr : rank s using WellFoundedLT.induction generalizing s sched with
  | _ r ih =>
      subst hr
      by_cases hgoal : goal s
      · exact ⟨0, hgoal⟩
      -- the rank falls at the latest when the helpful process moves
      have falls : ∀ m (sched : ℕ → P) (s : S), I s → ¬ goal s → sched m = helpful s →
          ∃ n, goal (runs next sched s n) ∨ rank (runs next sched s n) < rank s := by
        intro m
        induction m with
        | zero =>
            intro sched s hs hgoal hm
            refine ⟨1, .inr ?_⟩
            show rank (next (sched 0) s) < rank s
            rw [hm]
            exact R.own s hs hgoal
        | succ m ihm =>
            intro sched s hs hgoal hm
            rcases R.other (sched 0) s hs hgoal with hlt | ⟨heq, hhelp⟩
            · exact ⟨1, .inr hlt⟩
            by_cases hgoal' : goal (next (sched 0) s)
            · exact ⟨1, .inl hgoal'⟩
            obtain ⟨n, hn⟩ := ihm (fun i => sched (1 + i)) _ (R.keep _ s hs) hgoal'
              (by rw [hhelp, ← hm, Nat.add_comm])
            refine ⟨1 + n, ?_⟩
            rw [runs_add, ← heq]
            exact hn
      obtain ⟨m, -, hm⟩ := hfair (helpful s) 0
      obtain ⟨n, hn | hn⟩ := falls m sched s hs hgoal hm
      · exact ⟨n, hn⟩
      · obtain ⟨n', hn'⟩ := ih _ hn (runs_keep R.keep hs n) (hfair.shift n) rfl
        exact ⟨n + n', by rwa [runs_add]⟩

/-- A goal that no step leaves is reached for good. -/
theorem Ranking.eventually_always {W : Type} [LT W] [WellFoundedLT W] {I goal : S → Prop}
    {rank : S → W} {helpful : S → P} (R : Ranking next I goal rank helpful)
    (hstays : ∀ p s, I s → goal s → goal (next p s)) (hs : I s) (hfair : Fair sched) :
    ∃ n₀, ∀ n ≥ n₀, I (runs next sched s n) ∧ goal (runs next sched s n) := by
  obtain ⟨n₀, hgoal⟩ := R.eventually hs hfair
  refine ⟨n₀, fun n hn => ?_⟩
  obtain ⟨d, rfl⟩ := Nat.exists_eq_add_of_le hn
  have hstep : ∀ p s, I s ∧ goal s → I (next p s) ∧ goal (next p s) :=
    fun p s h => ⟨R.keep p s h.1, hstays p s h.1 h.2⟩
  rw [runs_add]
  exact runs_keep hstep ⟨runs_keep R.keep hs n₀, hgoal⟩ d

end schedules

end Que.Lib
