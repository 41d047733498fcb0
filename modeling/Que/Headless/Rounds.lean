import Que.Headless.Consumer

/-! # The rounds of `pop`

`Consumer::pop` is a loop without a bound.  Here its rounds are run in an environment of which
nothing is assumed: `mem t` is the memory at the moment of the consumer's `t`-th action, and `pop`
writes none of it.

* **Watching.** `watch` is the meaning of the actions in such an environment; it lists the tails
  that were loaded.  `popLoop n` is the loop, cut off after `n` rounds.
* **One round.** `Rounded` lists what a round can do (`popRound_rounded`).
* **Progress.** A reset by the tail `T` puts the cursor where `T` can be read, if the sums that it
  forms are words (`overruns_resetTo_iff`).  The next reset then needs a greater tail: the loop goes
  on only as often as the loaded tails increase (`popLoop_increases`).
* **At the limit.** Where such a sum passes `2 ^ w` and the tail stands still, the loop does not end
  (`popLoop_forever`). -/

namespace Que.Headless

open Lib

variable {W : Type} {K : ℕ}

/-! ### Watching a consumer -/

/-- A consumer in the course of its actions: how many it has performed, the tails it has loaded,
and its structure. -/
structure Watch where
  time : ℕ
  seen : List ℕ
  own : Consumer
deriving DecidableEq, Repr

/-- The tail that an action loads. -/
def seenBy (ch : Channel W) : Act Consumer W → List ℕ
  | .load .tail => [ch.tail]
  | _ => []

/-- The effect of an action on a watched consumer. -/
def watch (w : ℕ) (mem : ℕ → Channel W) (a : Act Consumer W) (s : Watch) : a.Ans × Watch :=
  let r := a.step w (mem s.time, s.own)
  (r.1, ⟨s.time + 1, s.seen ++ seenBy (mem s.time) a, r.2.2⟩)

section loop
variable (w N K : ℕ) (mem : ℕ → Channel W)

/-- One round of `pop`. -/
def popRound (s : Watch) : Round (Option (Vector W K)) × Watch :=
  (popIter w N K).exec (watch w mem) s

/-- The loop of `pop`, cut off after a number of rounds. -/
def popLoop : ℕ → Watch → Round (Option (Vector W K)) × Watch
  | 0, s => (.again, s)
  | n + 1, s =>
      match popRound w N K mem s with
      | (.done v, t) => (.done v, t)
      | (.again, t) => popLoop n t

end loop

/-! ### One round -/

/-- What a round can do: where the cursor is caught up, overrun, overtaken during the read, or
free to take the element. -/
inductive Rounded (w N : ℕ) (mem : ℕ → Channel W) (s : Watch) :
    Round (Option (Vector W K)) → Watch → Prop
  | caughtUp : (mem s.time).tail ≤ s.own.head →
      Rounded w N mem s (.done none) ⟨s.time + 2, s.seen ++ [(mem s.time).tail], s.own⟩
  | overrun : s.own.head < (mem s.time).tail →
      wadd w s.own.head (readable N) < (mem s.time).tail →
      Rounded w N mem s .again
        ⟨s.time + 3, s.seen ++ [(mem s.time).tail], resetTo w N (mem s.time).tail s.own⟩
  | overtaken (t : ℕ) : s.time ≤ t → s.own.head < (mem s.time).tail →
      (mem s.time).tail ≤ wadd w s.own.head (readable N) →
      wadd w s.own.head (readable N) < (mem t).tail →
      Rounded w N mem s .again
        ⟨t + 3, s.seen ++ [(mem s.time).tail, (mem t).tail], resetTo w N (mem t).tail s.own⟩
  | taken (t : ℕ) (x : Vector W K) : s.time ≤ t → s.own.head < (mem s.time).tail →
      (mem s.time).tail ≤ wadd w s.own.head (readable N) →
      (mem t).tail ≤ wadd w s.own.head (readable N) →
      Rounded w N mem s (.done (some x))
        ⟨t + 3, s.seen ++ [(mem s.time).tail, (mem t).tail],
          { s.own with head := wadd w s.own.head s.own.interval }⟩

section round
variable {w N : ℕ} {mem : ℕ → Channel W}

theorem exec_loadTail (s : Watch) : (load .tail : Proc Consumer W ℕ).exec (watch w mem) s =
    ((mem s.time).tail, ⟨s.time + 1, s.seen ++ [(mem s.time).tail], s.own⟩) := (rfl)

theorem exec_self (s : Watch) : (self : Proc Consumer W Consumer).exec (watch w mem) s =
    (s.own, ⟨s.time + 1, s.seen, s.own⟩) := by
  simp [self, watch, seenBy, Act.step]

theorem exec_update (f : Consumer → Consumer) (s : Watch) :
    (update f : Proc Consumer W Unit).exec (watch w mem) s =
      ((), ⟨s.time + 1, s.seen, f s.own⟩) := by
  simp [update, watch, seenBy, Act.step]

theorem exec_readWords (w : ℕ) (mem : ℕ → Channel W) (i n : ℕ) (s : Watch) : ∃ xs : Vector W n,
    (readWords i n).exec (watch w mem) s = (xs, ⟨s.time + n, s.seen, s.own⟩) := by
  induction n with
  | zero => exact ⟨_, rfl⟩
  | succ n ih =>
      obtain ⟨xs, hxs⟩ := ih
      refine ⟨xs.push ((mem (s.time + n)).buffer (i + n)), ?_⟩
      simp [readWords, hxs, read, watch, seenBy, Act.step, Prog.pure_eq_ret, Nat.add_assoc]

/-- **One round of `pop`**, in every environment. -/
theorem popRound_rounded (w N : ℕ) (mem : ℕ → Channel W) (s : Watch) :
    Rounded w N mem s (popRound w N K mem s).1 (popRound w N K mem s).2 := by
  obtain ⟨xs, hxs⟩ := exec_readWords w mem ((s.own.head &&& moduloMask N) * K) K
    ⟨s.time + 1 + 1, s.seen ++ [(mem s.time).tail], s.own⟩
  unfold popRound popIter
  simp only [Prog.exec_bind, exec_loadTail, exec_self]
  by_cases hempty : (mem s.time).tail ≤ s.own.head
  · simp only [if_pos hempty, Prog.pure_eq_ret, Prog.exec_ret]
    exact .caughtUp hempty
  simp only [if_neg hempty]
  by_cases hover : (mem s.time).tail ≤ wadd w s.own.head (readable N)
  · simp only [if_neg (not_not.mpr hover), Prog.exec_bind, hxs, exec_loadTail, exec_self,
      List.append_assoc, List.cons_append, List.nil_append]
    -- the second load of the tail decides
    by_cases hlate : (mem (s.time + 1 + 1 + K)).tail ≤ wadd w s.own.head (readable N)
    · simp only [if_neg (not_not.mpr hlate), Prog.exec_bind, exec_update, Prog.pure_eq_ret,
        Prog.exec_ret]
      exact .taken _ xs (by omega) (by omega) hover hlate
    · simp only [if_pos hlate, Prog.exec_bind, exec_update, Prog.pure_eq_ret, Prog.exec_ret]
      exact .overtaken _ (by omega) (by omega) hover (by omega)
  · simp only [if_pos hover, Prog.exec_bind, exec_update, Prog.pure_eq_ret, Prog.exec_ret]
    exact .overrun (by omega) (by omega)

end round

/-! ### Progress -/

/-- How often a list increases from one entry to the next. -/
def increases : List ℕ → ℕ
  | a :: b :: l => (if a < b then 1 else 0) + increases (b :: l)
  | _ => 0

theorem increases_le_cons (a : ℕ) (l : List ℕ) : increases l ≤ increases (a :: l) := by
  cases l with
  | nil => exact Nat.zero_le _
  | cons b l => exact Nat.le_add_left _ _

/-- A list whose entries are all the same does not increase. -/
theorem increases_eq_zero {T : ℕ} {l : List ℕ} (h : ∀ x ∈ l, x = T) : increases l = 0 := by
  induction l with
  | nil => rfl
  | cons a l ih =>
      cases l with
      | nil => rfl
      | cons b l =>
          have ha := h a (by simp)
          have hb := h b (by simp)
          have hrest := ih fun x hx => h x (List.mem_cons_of_mem a hx)
          unfold increases
          rw [hrest, if_neg (by omega)]

/-- From `T` over one or two further entries to a greater one. -/
theorem increases_succ {T T' : ℕ} {new : List ℕ} (h : new = [T'] ∨ ∃ x, new = [x, T'])
    (hlt : T < T') (l : List ℕ) :
    increases (T' :: l) + 1 ≤ increases (T :: (new ++ l)) := by
  rcases h with rfl | ⟨x, rfl⟩
  · simp only [List.singleton_append, increases, if_pos hlt]
    omega
  · simp only [List.cons_append, List.nil_append, increases]
    split_ifs <;> omega

/-- While the tail is `T`, a round that begins at the cursor `c` resets it. -/
def Overruns (w N : ℕ) (c : Consumer) (T : ℕ) : Prop :=
  c.head < T ∧ wadd w c.head (readable N) < T

instance (w N : ℕ) (c : Consumer) (T : ℕ) : Decidable (Overruns w N c T) :=
  inferInstanceAs (Decidable (_ ∧ _))

/-- The sum that `next_modulo` forms last. -/
def nextSum (w h i k : ℕ) : ℕ := h + wsub w (wadd w i k) (h % k) % k

/-- A reset by the tail `T` passes `2 ^ w` neither in its own sum nor, where that sum is below the
tail, in the check that follows. -/
def ResetFits (w N : ℕ) (c : Consumer) (T : ℕ) : Prop :=
  let next := nextSum w (T - readable N) c.consumerIndex c.interval
  next < 2 ^ w ∧ (next < T → next + readable N < 2 ^ w)

instance (w N : ℕ) (c : Consumer) (T : ℕ) : Decidable (ResetFits w N c T) :=
  inferInstanceAs (Decidable (_ ∧ (_ → _)))

section progress
variable {C : Config} {c : Consumer} {T T' : ℕ}

theorem Overruns.mono {w N : ℕ} (h : Overruns w N c T) (hle : T ≤ T') : Overruns w N c T' :=
  ⟨h.1.trans_le hle, h.2.trans_le hle⟩

theorem lt_of_overruns {w N : ℕ} (h : Overruns w N c T') (hcan : ¬ Overruns w N c T) : T < T' := by
  by_contra hle
  exact hcan (h.mono (Nat.not_lt.mp hle))

theorem nextModulo_eq_mod (w h i k : ℕ) : nextModulo w h i k = nextSum w h i k % 2 ^ w := rfl

theorem two_mul_readable_lt (C : Config) : 2 * readable C.N < 2 ^ C.w := by
  have h1 := two_mul_le_of_isPowerOfTwo C.pow C.fits
  have h2 := burstAmount_pos C.N
  have h3 := C.pos
  unfold readable
  omega

/-- A tail that overruns a cursor is at least the reach, also where the sum of cursor and reach
wraps. -/
theorem Overruns.readable_le (h : Overruns C.w C.N c T) : readable C.N ≤ T := by
  obtain ⟨hlt, hover⟩ := h
  have htwo := two_mul_readable_lt C
  by_cases hfit : c.head + readable C.N < 2 ^ C.w
  · rw [wadd_of_lt hfit] at hover
    omega
  · omega

/-- **What a reset achieves**: the tail that caused it overruns the new cursor as well, exactly if
one of the sums passes `2 ^ w`. -/
theorem overruns_resetTo_iff (h : Overruns C.w C.N c T) (hT : T < 2 ^ C.w) :
    Overruns C.w C.N (resetTo C.w C.N T c) T ↔ ¬ ResetFits C.w C.N c T := by
  have hread := h.readable_le
  have hsub : wsub C.w T (readable C.N) = T - readable C.N := wsub_of_le hread hT
  have htwo := two_mul_readable_lt C
  set S := nextSum C.w (T - readable C.N) c.consumerIndex c.interval with hS
  have hhead : (resetTo C.w C.N T c).head = S % 2 ^ C.w := by
    simp only [resetTo, hsub, nextModulo_eq_mod, hS]
  have hlow : T - readable C.N ≤ S := Nat.le_add_right _ _
  have hhigh : S < T - readable C.N + 2 ^ C.w := by
    have hmod := Nat.mod_le (wsub C.w (wadd C.w c.consumerIndex c.interval)
      ((T - readable C.N) % c.interval)) c.interval
    have hword : wsub C.w (wadd C.w c.consumerIndex c.interval)
      ((T - readable C.N) % c.interval) < 2 ^ C.w := Nat.mod_lt _ (Nat.two_pow_pos _)
    unfold nextSum at hS
    omega
  unfold Overruns ResetFits
  simp only [← hS, hhead]
  rcases Nat.lt_or_ge S (2 ^ C.w) with hlt | hge
  · rw [Nat.mod_eq_of_lt hlt]
    rcases Nat.lt_or_ge (S + readable C.N) (2 ^ C.w) with hfit | hwrap
    · rw [wadd_of_lt hfit]
      omega
    · have hsum : wadd C.w S (readable C.N) = S + readable C.N - 2 ^ C.w := by
        unfold wadd
        rw [Nat.mod_eq_sub_mod hwrap, Nat.mod_eq_of_lt (by omega)]
      rw [hsum]
      omega
  · -- a wrapped cursor is far behind the tail
    have hmod : S % 2 ^ C.w = S - 2 ^ C.w := by
      rw [Nat.mod_eq_sub_mod hge, Nat.mod_eq_of_lt (by omega)]
    rw [hmod, wadd_of_lt (by omega)]
    omega

end progress

section again
variable {w N : ℕ} {mem : ℕ → Channel W} {s t : Watch}

/-- A round that asks for another one: the tail that it loaded last overruns the cursor, and the
cursor is reset. -/
theorem Rounded.again (hgrows : Monotone fun i => (mem i).tail)
    (h : Rounded w N mem s (.again : Round (Option (Vector W K))) t) :
    ∃ new i, t.seen = s.seen ++ new ∧ (new = [(mem i).tail] ∨ ∃ x, new = [x, (mem i).tail]) ∧
      s.time ≤ i ∧ i ≤ t.time ∧ Overruns w N s.own (mem i).tail ∧
      t.own = resetTo w N (mem i).tail s.own := by
  cases h with
  | overrun hlt hover =>
      exact ⟨_, s.time, rfl, .inl rfl, le_rfl, Nat.le_add_right _ _, ⟨hlt, hover⟩, rfl⟩
  | overtaken i hi hlt hcov hover =>
      have hlt' : s.own.head < (mem i).tail := hlt.trans_le (hgrows hi)
      exact ⟨_, i, rfl, .inr ⟨_, rfl⟩, hi, Nat.le_add_right _ _, ⟨hlt', hover⟩, rfl⟩

end again

/-! ### The loop -/

section loop
variable {C : Config} {mem : ℕ → Channel W}

theorem popLoop_succ {w N n : ℕ} (s : Watch) : popLoop w N K mem (n + 1) s =
    match popRound w N K mem s with
    | (.done v, t) => (.done v, t)
    | (.again, t) => popLoop w N K mem n t := rfl

/-- A loop that has not returned has not returned from its first round. -/
theorem popLoop_again {w N n : ℕ} {s : Watch}
    (h : (popLoop w N K mem (n + 1) s).1 = .again) : ∃ t,
      Rounded w N mem s (.again : Round (Option (Vector W K))) t ∧
      popLoop w N K mem (n + 1) s = popLoop w N K mem n t := by
  have hround := popRound_rounded (K := K) w N mem s
  rw [popLoop_succ] at h ⊢
  cases hr : popRound w N K mem s with
  | mk r t =>
      rw [hr] at h hround
      cases r with
      | again => exact ⟨t, hround, rfl⟩
      | done v => cases h

/-- A round adds tails of the memory to what was seen. -/
theorem Rounded.seen {w N : ℕ} {s t : Watch} {r : Round (Option (Vector W K))}
    (h : Rounded w N mem s r t) :
    ∃ new, t.seen = s.seen ++ new ∧ ∀ x ∈ new, ∃ i, x = (mem i).tail := by
  have hone : ∀ i, ∀ x ∈ [(mem i).tail], ∃ i, x = (mem i).tail := by
    intro i x hx
    exact ⟨i, List.mem_singleton.mp hx⟩
  have htwo : ∀ i j, ∀ x ∈ [(mem i).tail, (mem j).tail], ∃ i, x = (mem i).tail := by
    intro i j x hx
    simp only [List.mem_cons, List.not_mem_nil, or_false] at hx
    rcases hx with rfl | rfl
    · exact ⟨i, rfl⟩
    · exact ⟨j, rfl⟩
  cases h with
  | caughtUp => exact ⟨_, rfl, hone _⟩
  | overrun => exact ⟨_, rfl, hone _⟩
  | overtaken => exact ⟨_, rfl, htwo _ _⟩
  | taken => exact ⟨_, rfl, htwo _ _⟩

theorem popLoop_seen (mem : ℕ → Channel W) (w N n : ℕ) (s : Watch) :
    ∃ new, (popLoop w N K mem n s).2.seen = s.seen ++ new ∧ ∀ x ∈ new, ∃ i, x = (mem i).tail := by
  induction n generalizing s with
  | zero => exact ⟨[], by simp [popLoop], by simp⟩
  | succ n ih =>
      obtain ⟨new, hnew, hmem⟩ := (popRound_rounded (K := K) w N mem s).seen
      rw [popLoop_succ]
      cases hr : popRound w N K mem s with
      | mk r t =>
          rw [hr] at hnew
          cases r with
          | again =>
              obtain ⟨rest, hrest, hmem'⟩ := ih t
              refine ⟨new ++ rest, ?_, ?_⟩
              · rw [← List.append_assoc, ← hnew]
                exact hrest
              · intro x hx
                rcases List.mem_append.mp hx with hx | hx
                · exact hmem x hx
                · exact hmem' x hx
          | done v => exact ⟨new, hnew, hmem⟩

theorem mem_popLoop_seen {w N n x : ℕ} {s : Watch} (hx : x ∈ s.seen) :
    x ∈ (popLoop w N K mem n s).2.seen := by
  obtain ⟨new, hnew, -⟩ := popLoop_seen (K := K) mem w N n s
  rw [hnew]
  exact List.mem_append_left _ hx

/-- Once a tail can be read, every further round that does not return has seen an increase. -/
theorem popLoop_increases (hgrows : Monotone fun i => (mem i).tail)
    (hword : ∀ i, (mem i).tail < 2 ^ C.w) {n T : ℕ} {s : Watch} (hT : T ≤ (mem s.time).tail)
    (hcan : ¬ Overruns C.w C.N s.own T) (h : (popLoop C.w C.N K mem n s).1 = .again)
    (hfits : ∀ x ∈ (popLoop C.w C.N K mem n s).2.seen, T ≤ x → ResetFits C.w C.N s.own x) :
    ∃ new, (popLoop C.w C.N K mem n s).2.seen = s.seen ++ new ∧ n ≤ increases (T :: new) := by
  induction n generalizing s T with
  | zero => exact ⟨[], by simp [popLoop], Nat.zero_le _⟩
  | succ n ih =>
      obtain ⟨t, hround, hloop⟩ := popLoop_again h
      rw [hloop] at h hfits ⊢
      obtain ⟨new, i, hseen, hnew, -, hi, hover, hown⟩ := hround.again hgrows
      have hgreater : T < (mem i).tail := lt_of_overruns hover hcan
      have hmem : (mem i).tail ∈ t.seen := by
        rw [hseen]
        rcases hnew with rfl | ⟨x, rfl⟩ <;> simp
      have hfit := hfits _ (mem_popLoop_seen hmem) hgreater.le
      have hcan' : ¬ Overruns C.w C.N t.own (mem i).tail := by
        rw [hown, overruns_resetTo_iff hover (hword i)]
        exact not_not.mpr hfit
      obtain ⟨rest, hrest, hn⟩ := ih (hgrows hi) hcan' h fun x hx hle => by
        rw [hown]
        exact hfits x hx (hgreater.le.trans hle)
      refine ⟨new ++ rest, ?_, ?_⟩
      · rw [hrest, hseen, List.append_assoc]
      · exact (Nat.succ_le_succ hn).trans (increases_succ hnew hgreater rest)

/-- A loop that has not returned after `n + 1` rounds has seen the tail increase `n` times: only
the first round can ask for another one without that. -/
theorem popLoop_unfinished (hgrows : Monotone fun i => (mem i).tail)
    (hword : ∀ i, (mem i).tail < 2 ^ C.w) {n : ℕ} {c : Consumer}
    (h : (popLoop C.w C.N K mem (n + 1) ⟨0, [], c⟩).1 = .again)
    (hfits : ∀ x ∈ (popLoop C.w C.N K mem (n + 1) ⟨0, [], c⟩).2.seen,
      Overruns C.w C.N c x → ResetFits C.w C.N c x) :
    n ≤ increases (popLoop C.w C.N K mem (n + 1) ⟨0, [], c⟩).2.seen := by
  obtain ⟨t, hround, hloop⟩ := popLoop_again h
  rw [hloop] at h hfits ⊢
  obtain ⟨new, i, hseen, hnew, -, hi, hover, hown⟩ := hround.again hgrows
  rw [List.nil_append] at hseen
  have hmem : (mem i).tail ∈ t.seen := by
    rw [hseen]
    rcases hnew with rfl | ⟨x, rfl⟩ <;> simp
  have hcan : ¬ Overruns C.w C.N t.own (mem i).tail := by
    rw [hown, overruns_resetTo_iff hover (hword i)]
    exact not_not.mpr (hfits _ (mem_popLoop_seen hmem) hover)
  -- whatever is loaded from now on overruns the first cursor too
  obtain ⟨rest, hrest, hn⟩ := popLoop_increases hgrows hword (hgrows hi) hcan h fun x hx hle => by
    rw [hown]
    exact hfits x hx (hover.mono hle)
  rw [hrest, hseen]
  rcases hnew with rfl | ⟨x, rfl⟩
  · exact hn
  · exact hn.trans (increases_le_cons x _)

theorem popLoop_returns (hgrows : Monotone fun i => (mem i).tail)
    (hword : ∀ i, (mem i).tail < 2 ^ C.w) {m : ℕ} {c : Consumer}
    (hfits : ∀ x ∈ (popLoop C.w C.N K mem (m + 2) ⟨0, [], c⟩).2.seen,
      Overruns C.w C.N c x → ResetFits C.w C.N c x)
    (hm : increases (popLoop C.w C.N K mem (m + 2) ⟨0, [], c⟩).2.seen ≤ m) :
    ∃ v, (popLoop C.w C.N K mem (m + 2) ⟨0, [], c⟩).1 = .done v := by
  cases hr : (popLoop C.w C.N K mem (m + 2) ⟨0, [], c⟩).1 with
  | done v => exact ⟨v, rfl⟩
  | again =>
      have hmore : m + 1 ≤ increases (popLoop C.w C.N K mem (m + 2) ⟨0, [], c⟩).2.seen :=
        popLoop_unfinished hgrows hword hr hfits
      omega

end loop

/-! ### A tail that stands still -/

section still
variable {C : Config} {mem : ℕ → Channel W} {T : ℕ} (htail : ∀ i, (mem i).tail = T)
include htail

theorem popRound_done {w N : ℕ} {s : Watch} (h : ¬ Overruns w N s.own T) :
    ∃ v t, popRound w N K mem s = (.done v, t) := by
  have hround := popRound_rounded (K := K) w N mem s
  rcases hr : popRound w N K mem s with ⟨r, t⟩
  rw [hr] at hround
  cases hround with
  | caughtUp => exact ⟨_, _, rfl⟩
  | taken => exact ⟨_, _, rfl⟩
  | overrun hlt hover =>
      rw [htail] at hlt hover
      exact absurd ⟨hlt, hover⟩ h
  | overtaken i _ hlt _ hover =>
      rw [htail] at hlt hover
      exact absurd ⟨hlt, hover⟩ h

theorem popRound_again {w N : ℕ} {s : Watch} (h : Overruns w N s.own T) :
    ∃ t, popRound w N K mem s = (.again, t) ∧ t.own = resetTo w N T s.own := by
  have hround := popRound_rounded (K := K) w N mem s
  obtain ⟨hlt, hover⟩ := h
  rcases hr : popRound w N K mem s with ⟨r, t⟩
  rw [hr] at hround
  cases hround with
  | caughtUp hle =>
      rw [htail] at hle
      omega
  | overrun => exact ⟨_, rfl, by simp only [htail]⟩
  | overtaken => exact ⟨_, rfl, by simp only [htail]⟩
  | taken i _ _ _ hcov =>
      rw [htail] at hcov
      omega

/-- If the reset does not fit, the next round begins where this one began, and so on. -/
theorem popLoop_forever (hT : T < 2 ^ C.w) {s : Watch} (hover : Overruns C.w C.N s.own T)
    (hfit : ¬ ResetFits C.w C.N s.own T) (n : ℕ) : (popLoop C.w C.N K mem n s).1 = .again := by
  induction n generalizing s with
  | zero => rfl
  | succ n ih =>
      obtain ⟨t, hround, hown⟩ := popRound_again (K := K) htail hover
      rw [popLoop_succ, hround]
      apply ih
      · rw [hown]
        exact (overruns_resetTo_iff hover hT).mpr hfit
      · rw [hown]
        exact hfit

/-- While the tail stands still, `pop` returns within two rounds, or never. -/
theorem popLoop_still (hT : T < 2 ^ C.w) (c : Consumer) :
    ((∃ v, (popLoop C.w C.N K mem 2 ⟨0, [], c⟩).1 = .done v) ↔
      (Overruns C.w C.N c T → ResetFits C.w C.N c T)) := by
  constructor
  · rintro ⟨v, hv⟩ hover
    by_contra hfit
    rw [popLoop_forever htail hT (s := ⟨0, [], c⟩) hover hfit] at hv
    cases hv
  · intro h
    by_cases hover : Overruns C.w C.N c T
    · obtain ⟨t, hround, hown⟩ := popRound_again (K := K) htail (s := ⟨0, [], c⟩) hover
      have hcan : ¬ Overruns C.w C.N t.own T := by
        rw [hown, overruns_resetTo_iff hover hT]
        exact not_not.mpr (h hover)
      obtain ⟨v, u, hv⟩ := popRound_done (K := K) htail hcan
      refine ⟨v, ?_⟩
      simp only [popLoop_succ, hround, hv]
    · obtain ⟨v, u, hv⟩ := popRound_done (K := K) htail (s := ⟨0, [], c⟩) hover
      refine ⟨v, ?_⟩
      simp only [popLoop_succ, hv]

end still

/-! ### Result -/

/-- A memory whose tail is `T` at every moment. -/
def stillTail (z : W) (T : ℕ) (_ : ℕ) : Channel W := { Channel.zeroed z with tail := T }

/-- The call of `pop` at the cursor `c` returns in time: whatever the memory is, if its tail never
falls and is at most `B`, and the loaded tails increase at most `m` times, the loop returns within
`m + 2` rounds. -/
def ReturnsInTime (C : Config) (W : Type) (K B : ℕ) (c : Consumer) : Prop :=
  ∀ mem : ℕ → Channel W, Monotone (fun t => (mem t).tail) → (∀ t, (mem t).tail ≤ B) →
    ∀ m, let r := popLoop C.w C.N K mem (m + 2) ⟨0, [], c⟩
      increases r.2.seen ≤ m → ∃ v, r.1 = .done v

/-- **When `pop` returns.**  At the cursor `c`, with tails up to `B`: `pop` returns in time if and
only if the reset by every tail that overruns the cursor fits.  For a given memory it is enough that
the resets by the tails that are loaded fit; and under a tail that stands still `pop` returns within
two rounds if the reset fits, and never returns if it does not. -/
theorem pop_returns_iff (C : Config) (K : ℕ) (z : W) (c : Consumer) :
    (∀ B < 2 ^ C.w, ReturnsInTime C W K B c ↔
      ∀ T ≤ B, Overruns C.w C.N c T → ResetFits C.w C.N c T) ∧
    (∀ mem : ℕ → Channel W, Monotone (fun t => (mem t).tail) → (∀ t, (mem t).tail < 2 ^ C.w) →
      ∀ m, let r := popLoop C.w C.N K mem (m + 2) ⟨0, [], c⟩
        (∀ T ∈ r.2.seen, Overruns C.w C.N c T → ResetFits C.w C.N c T) →
        increases r.2.seen ≤ m → ∃ v, r.1 = .done v) ∧
    ∀ (mem : ℕ → Channel W), ∀ T < 2 ^ C.w, (∀ t, (mem t).tail = T) →
      ((∃ v, (popLoop C.w C.N K mem 2 ⟨0, [], c⟩).1 = .done v) ↔
        (Overruns C.w C.N c T → ResetFits C.w C.N c T)) ∧
      ((∃ n v, (popLoop C.w C.N K mem n ⟨0, [], c⟩).1 = .done v) ↔
        (Overruns C.w C.N c T → ResetFits C.w C.N c T)) := by
  have hstill : ∀ (mem : ℕ → Channel W), ∀ T < 2 ^ C.w, (∀ t, (mem t).tail = T) →
      ((∃ v, (popLoop C.w C.N K mem 2 ⟨0, [], c⟩).1 = .done v) ↔
        (Overruns C.w C.N c T → ResetFits C.w C.N c T)) ∧
      ((∃ n v, (popLoop C.w C.N K mem n ⟨0, [], c⟩).1 = .done v) ↔
        (Overruns C.w C.N c T → ResetFits C.w C.N c T)) := by
    intro mem T hT htail
    refine ⟨popLoop_still htail hT c, ?_, fun h => ⟨2, (popLoop_still htail hT c).mpr h⟩⟩
    rintro ⟨n, v, hv⟩ hover
    by_contra hfit
    rw [popLoop_forever htail hT (s := ⟨0, [], c⟩) hover hfit] at hv
    cases hv
  refine ⟨fun B hB => ⟨fun h T hT => ?_, fun h mem hgrows hle m hm => ?_⟩, ?_, hstill⟩
  · -- a memory in which nothing moves
    have hsame : ∀ x ∈ (popLoop C.w C.N K (stillTail z T) 2 ⟨0, [], c⟩).2.seen, x = T := by
      obtain ⟨new, hnew, hmem⟩ := popLoop_seen (K := K) (stillTail z T) C.w C.N 2 ⟨0, [], c⟩
      intro x hx
      rw [hnew] at hx
      obtain ⟨i, rfl⟩ := hmem x hx
      rfl
    apply (hstill (stillTail z T) T (by omega) fun _ => rfl).1.mp
    exact h (stillTail z T) (fun _ _ _ => le_rfl) (fun _ => hT) 0 (increases_eq_zero hsame).le
  · refine popLoop_returns hgrows (fun i => (hle i).trans_lt hB) (fun x hx => h x ?_) hm
    obtain ⟨new, hnew, hmem⟩ := popLoop_seen (K := K) mem C.w C.N (m + 2) ⟨0, [], c⟩
    rw [hnew] at hx
    obtain ⟨i, rfl⟩ := hmem x hx
    exact hle i
  · exact fun mem hgrows hword m hfits hm => popLoop_returns hgrows hword hfits hm

/-- Slots of one word, where the tail moves from 5 to 9 after the first three actions. -/
def movingTail (t : ℕ) : Channel ℕ :=
  { Channel.zeroed 0 with tail := if t < 3 then 5 else 9 }

/-- A ring of two slots: the tail increases once, and the third round takes the element. -/
theorem pop_returns_third :
    increases (popLoop 64 2 1 movingTail 3 ⟨0, [], ⟨0, 1, 0, 0⟩⟩).2.seen = 1 ∧
    ∃ v, (popLoop 64 2 1 movingTail 3 ⟨0, [], ⟨0, 1, 0, 0⟩⟩).1 = .done v := by
  have hone : increases (popLoop 64 2 1 movingTail 3 ⟨0, [], ⟨0, 1, 0, 0⟩⟩).2.seen = 1 := by
    decide +kernel
  refine ⟨hone, ?_⟩
  have hgrows : Monotone fun t => (movingTail t).tail := by
    intro a b hab
    simp only [movingTail]
    split_ifs <;> omega
  refine (pop_returns_iff Config.small 1 0 ⟨0, 1, 0, 0⟩).2.1 movingTail hgrows ?_ 1 ?_ hone.le
  · intro t
    simp only [movingTail, Config.small]
    split_ifs <;> decide
  · decide +kernel

/-- **At the limit of the counters**: of two consumers the one with index `0` has its cursor at
`2 ^ 64 - 6`, and the tail stands still at `2 ^ 64 - 1`.  The sum in the check wraps, the reset
leads to the same cursor, and `pop` never returns. -/
theorem not_pop_returns : let c : Consumer := ⟨2 ^ 64 - 6, 2, 0, 0⟩
    (∀ n, (popLoop 64 8 1 (stillTail 0 (2 ^ 64 - 1)) n ⟨0, [], c⟩).1 = .again) ∧
    (∀ n, increases (popLoop 64 8 1 (stillTail 0 (2 ^ 64 - 1)) n ⟨0, [], c⟩).2.seen = 0) ∧
    resetTo 64 8 (2 ^ 64 - 1) c = c ∧ ¬ ReturnsInTime Config.eight ℕ 1 (2 ^ 64 - 1) c := by
  intro c
  have hforever : ∀ n, (popLoop 64 8 1 (stillTail 0 (2 ^ 64 - 1)) n ⟨0, [], c⟩).1 = .again :=
    popLoop_forever (C := Config.eight) (fun _ => rfl) (by decide) (by decide) (by decide)
  have hsame : ∀ n, increases
      (popLoop 64 8 1 (stillTail 0 (2 ^ 64 - 1)) n ⟨0, [], c⟩).2.seen = 0 := by
    intro n
    apply increases_eq_zero (T := 2 ^ 64 - 1)
    obtain ⟨new, hnew, hmem⟩ :=
      popLoop_seen (K := 1) (stillTail 0 (2 ^ 64 - 1)) 64 8 n ⟨0, [], c⟩
    intro x hx
    rw [hnew] at hx
    obtain ⟨i, rfl⟩ := hmem x hx
    rfl
  refine ⟨hforever, hsame, by decide, fun h => ?_⟩
  obtain ⟨v, hv⟩ := h (stillTail 0 (2 ^ 64 - 1)) (fun _ _ _ => le_rfl) (fun _ => le_rfl) 0
    (hsame 2).le
  exact absurd ((hforever 2).symm.trans hv) (by simp)

end Que.Headless
