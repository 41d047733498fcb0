import Que.Headless.Invariant

/-! # The cursor of one headless consumer

A consumer at the cursor `h` has popped, or has had to skip, every position of its residue from its
join up to `h`; it skips a position only after loading a tail more than `readable N` beyond it.

* `Tidy` is this statement for one consumer between two rounds of `pop`; `Moved.tidy` is the step
  lemma for a round.
* The code forms its sums with wrapping additions.  `MoveFits` says of a move of the cursor, made
  after the tail `T` was loaded, that the sums on the way to it are words; `Roomy` is a bound on
  the positions under which all moves fit (`Tidy.moveFits`). -/

namespace Que.Headless

open Lib

variable {W : Type} {K : ℕ} {P : Params} {k : ℕ}

/-! ### Sums that fit -/

/-- The sums of `next_modulo` are words: index and interval, and the result. -/
def NextFits (w h i k : ℕ) : Prop := i + k < 2 ^ w ∧ nextResidue h i k < 2 ^ w

/-- The cursor `c` is moved after the tail `T` was loaded last: the first cursor of a join, the
reset of an overrun cursor, or the stride over the element that was taken. -/
def MoveFits (P : Params) (c : Consumer) (T : ℕ) : ConsumerOp → Prop
  | .join index consumers => NextFits P.w T index consumers
  | .pop =>
      if c.head + readable P.N < T then
        NextFits P.w (T - readable P.N) c.consumerIndex c.interval
      else c.head + readable P.N < 2 ^ P.w ∧ c.head + c.interval < 2 ^ P.w
  | _ => True

/-- The bound on the positions leaves room for the sums that the consumers compute. -/
def Roomy (P : Params) : Prop := P.limit + P.N + 128 ≤ 2 ^ P.w

/-- Without overflow `next_modulo` is the first number of the residue. -/
theorem NextFits.eq {w h i : ℕ} (hf : NextFits w h i k) (hi : i < k) :
    nextModulo w h i k = nextResidue h i k := by
  have hm : h % k < k := Nat.mod_lt _ (by omega)
  obtain ⟨hsum, hlt⟩ := hf
  unfold nextResidue at hlt
  unfold nextModulo nextResidue
  simp only
  rw [wadd_of_lt hsum, wsub_of_le (by omega) hsum, wadd_of_lt hlt]

theorem nextFits_of_lt {w h i : ℕ} (hi : i < k) (hlt : h + k < 2 ^ w) (hk : 2 * k ≤ 2 ^ w) :
    NextFits w h i k :=
  ⟨by omega, (nextResidue_lt (by omega)).trans hlt⟩

/-! ### One consumer -/

def Trace.positions (tr : Trace W K) : List ℕ := tr.popped.map Prod.fst

/-- Position `p` was skipped: at a cursor not beyond `p`, a tail was loaded for which `p` could no
longer be read. -/
def Trace.Skipped (tr : Trace W K) (N p : ℕ) : Prop :=
  ∃ x ∈ tr.loads, x.1 ≤ p ∧ p + readable N < x.2

/-- A consumer of `k`, between two rounds: its cursor, what it has popped and what it has
skipped. -/
structure Tidy (P : Params) (k : ℕ) (c : Consumer) (tr : Trace W K) (tail : ℕ) (all : List ℕ) :
    Prop where
  interval : c.interval = k
  index_lt : c.consumerIndex < k
  residue : c.head % k = c.consumerIndex
  joined_le : tr.joinedAt ≤ c.head
  bound : c.head < tail + k
  popped : ∀ p ∈ tr.positions, p < c.head ∧ p % k = c.consumerIndex
  sorted : tr.positions.Pairwise (· < ·)
  covered : ∀ p, tr.joinedAt ≤ p → p < c.head → p % k = c.consumerIndex →
    p ∈ tr.positions ∨ tr.Skipped P.N p
  earlier : ∀ p ∈ all, p % k = c.consumerIndex → p < c.head

/-- How the cursor of a joined consumer moves. -/
structure Advances (k : ℕ) (c c' : Consumer) : Prop where
  le : c.head ≤ c'.head
  residue : c'.head % k = c'.consumerIndex
  index : c'.consumerIndex = c.consumerIndex
  interval : c'.interval = c.interval

theorem Advances.trans {a b c : Consumer} (h : Advances k a b) (h' : Advances k b c) :
    Advances k a c :=
  ⟨h.le.trans h'.le, h'.residue, h'.index.trans h.index, h'.interval.trans h.interval⟩

/-- The history after a round that loaded the tails `new` and gave `value`. -/
def Trace.more (tr : Trace W K) (h : ℕ) (new : List (ℕ × ℕ)) (value : Option (Vector W K)) :
    Trace W K :=
  ⟨tr.joinedAt, tr.loads ++ new, tr.popped ++ value.toList.map fun v => (h, v)⟩

/-- `b` is the history `a` with further loads of the tail. -/
structure Trace.Extends (a b : Trace W K) : Prop where
  joinedAt : b.joinedAt = a.joinedAt
  popped : b.popped = a.popped
  loads : ∀ x ∈ a.loads, x ∈ b.loads

theorem Trace.Extends.after {a b : Trace W K} (h : a.Extends b) (x : Act Consumer W)
    (ch : Channel W) (c : Consumer) : a.Extends (b.after false x ch c) := by
  unfold Trace.after
  split
  · exact ⟨h.joinedAt, h.popped, fun y hy => List.mem_append_left _ (h.loads y hy)⟩
  · exact h

def roundValue : ConsumerResult W K → Option (Vector W K)
  | .again => none
  | .done (_, value) => value

namespace Tidy
variable {c : Consumer} {tr : Trace W K} {tail tail' : ℕ} {all all' : List ℕ}

theorem stable (t : Tidy P k c tr tail all) (ht : tail ≤ tail')
    (ha : ∀ p ∈ all', p % k = c.consumerIndex → p ∈ all) : Tidy P k c tr tail' all' :=
  ⟨t.interval, t.index_lt, t.residue, t.joined_le, t.bound.trans_le (Nat.add_le_add_right ht k),
    t.popped, t.sorted, t.covered, fun p hp hm => t.earlier p (ha p hp hm) hm⟩

theorem sums_lt (t : Tidy P k c tr tail all) (hP : Roomy P) (hk : k ≤ 64) (hlt : tail < P.limit) :
    c.head + readable P.N < 2 ^ P.w ∧ c.head + c.interval < 2 ^ P.w := by
  have hb := t.bound
  have hN : readable P.N ≤ P.N := Nat.sub_le _ _
  unfold Roomy at hP
  rw [t.interval]
  constructor <;> omega

theorem moveFits (t : Tidy P k c tr tail all) (hP : Roomy P) (hk : k ≤ 64) (hlt : tail < P.limit)
    {T : ℕ} (hT : T < P.limit) : MoveFits P c T .pop := by
  have hi := t.index_lt
  have hsums := t.sums_lt hP hk hlt
  have hlimit := P.limit_le
  unfold Roomy at hP
  unfold MoveFits
  simp only
  split_ifs with hover
  · rw [t.interval]
    exact nextFits_of_lt hi (by omega) (by omega)
  · exact hsums

/-- A heartbeat poll changes nothing that matters here. -/
theorem heartbeat {v : ConsumerView W K} {value : Option (Vector W K)}
    (t : Tidy P k c tr v.ch.tail v.all)
    (h : (.done (.ready, value) : ConsumerResult W K) = .done (.ready, none) ∧ v.trace = tr ∧
      ∃ n, v.cursor = { c with lastProducerHeartbeat := n }) :
    Tidy P k v.cursor { v.trace with
        popped := v.trace.popped ++ value.toList.map fun x => (c.head, x) }
      v.ch.tail (v.all ++ value.toList.map fun _ => c.head) := by
  obtain ⟨hv, rfl, n, hn⟩ := h
  cases hv
  rw [hn]
  simp only [Option.toList_none, List.map_nil, List.append_nil]
  exact ⟨t.interval, t.index_lt, t.residue, t.joined_le, t.bound, t.popped, t.sorted, t.covered,
    t.earlier⟩

theorem reset (t : Tidy P k c tr tail all) {T : ℕ} (hfit : MoveFits P c T .pop)
    (hover : c.head + readable P.N < T) (hT : T < P.limit) :
    resetTo P.w P.N T c =
      { c with head := nextResidue (T - readable P.N) c.consumerIndex k } := by
  have hlimit := P.limit_le
  have hi : c.consumerIndex < c.interval := t.interval.symm ▸ t.index_lt
  simp only [MoveFits, if_pos hover] at hfit
  unfold resetTo
  rw [wsub_of_le (by omega) (by omega), hfit.eq hi, t.interval]

end Tidy

theorem LastFits.fit {fit : ℕ → Prop} {c : Consumer} (old : List (ℕ × ℕ)) {T : ℕ}
    (h : LastFits fit c (old ++ [(c.head, T)])) (hlt : c.head < T) : fit T :=
  h T List.getLast?_concat hlt

/-- The kinds of rounds, for a consumer that is tidy: the cursor stays, moves over the element it
took, or moves over positions that can no longer be read. -/
theorem Moved.kinds {c c' : Consumer} {tr : Trace W K} {tail : ℕ} {all : List ℕ}
    {new : List (ℕ × ℕ)} {r : ConsumerResult W K} (hm : Moved P c new r c')
    (t : Tidy P k c tr tail all) (hfit : LastFits (MoveFits P c · .pop) c new)
    (hnew : ∀ x ∈ new, x.2 < P.limit) :
    (c' = c ∧ r = .done (.ready, none) ∧ ∃ T, new = [(c.head, T)] ∧ T ≤ c.head) ∨
    (c' = { c with head := c.head + k } ∧ (∃ x, r = .done (.ready, some x)) ∧
      ∃ T ∈ new, c.head < T.2) ∨
    (r = .again ∧ ∃ T, (c.head, T) ∈ new ∧ c.head + readable P.N < T ∧
      c' = { c with head := nextResidue (T - readable P.N) c.consumerIndex k }) := by
  -- a check whose sum is a word is right
  have hchecked : ∀ {T : ℕ}, MoveFits P c T .pop → wadd P.w c.head (readable P.N) < T →
      c.head + readable P.N < T := by
    intro T hT hover
    by_contra hle
    simp only [MoveFits, if_neg hle] at hT
    rw [wadd_of_lt hT.1] at hover
    exact hle hover
  cases hm with
  | @caughtUp T hle => exact .inl ⟨rfl, rfl, T, rfl, hle⟩
  | @overrun T hT hover =>
      have hf : MoveFits P c T .pop := hfit.fit [] hT
      have hover := hchecked hf hover
      exact .inr (.inr ⟨rfl, T, by simp, hover, t.reset hf hover (hnew (c.head, T) (by simp))⟩)
  | @overtaken T T' hT hle hover =>
      have hf : MoveFits P c T' .pop := hfit.fit [(c.head, T)] (hT.trans_le hle)
      have hover := hchecked hf hover
      exact .inr (.inr ⟨rfl, T', by simp, hover, t.reset hf hover (hnew (c.head, T') (by simp))⟩)
  | @taken T T' x hT hle hlate =>
      have hf : MoveFits P c T' .pop := hfit.fit [(c.head, T)] (hT.trans_le hle)
      have hnot : ¬ c.head + readable P.N < T' := Nat.not_lt.mpr (hlate.trans (wadd_le _ _ _))
      simp only [MoveFits, if_neg hnot, t.interval] at hf
      exact .inr (.inl ⟨by rw [t.interval, wadd_of_lt hf.2], ⟨x, rfl⟩, (c.head, T), by simp, hT⟩)

section rounds
variable {c c' : Consumer} {tr : Trace W K} {tail tail' : ℕ} {all : List ℕ}
  {new : List (ℕ × ℕ)} {r : ConsumerResult W K}

theorem Moved.advances (hm : Moved P c new r c') (t : Tidy P k c tr tail all)
    (hfit : LastFits (MoveFits P c · .pop) c new) (hnew : ∀ x ∈ new, x.2 < P.limit) :
    Advances k c c' := by
  rcases hm.kinds t hfit hnew with ⟨rfl, _⟩ | ⟨rfl, _⟩ | ⟨_, T, _, hover, rfl⟩
  · exact ⟨le_rfl, t.residue, rfl, rfl⟩
  · exact ⟨Nat.le_add_right _ _, by simpa using t.residue, rfl, rfl⟩
  · have hle := le_nextResidue (h := T - readable P.N) (i := c.consumerIndex) (k := k)
    exact ⟨by simp only; omega, nextResidue_mod t.index_lt, rfl, rfl⟩

/-- **A round keeps a consumer tidy**: what it moved past it has popped or had to skip. -/
theorem Moved.tidy (hm : Moved P c new r c') (t : Tidy P k c tr tail all)
    (hfit : LastFits (MoveFits P c · .pop) c new) (htail : tail ≤ tail') (hlt : tail' < P.limit)
    (hnew : ∀ x ∈ new, x.2 ≤ tail') :
    Tidy P k c' (tr.more c.head new (roundValue r)) tail'
      (all ++ (roundValue r).toList.map fun _ => c.head) := by
  have hadv := hm.advances t hfit fun x hx => (hnew x hx).trans_lt hlt
  have hskip : ∀ {p : ℕ} {v : Option (Vector W K)}, tr.Skipped P.N p →
      (tr.more c.head new v).Skipped P.N p := by
    rintro p v ⟨x, hx, h⟩
    exact ⟨x, List.mem_append_left _ hx, h⟩
  rcases hm.kinds t hfit fun x hx => (hnew x hx).trans_lt hlt with
    ⟨rfl, rfl, _⟩ | ⟨rfl, ⟨x, rfl⟩, T, hT, hTlt⟩ | ⟨rfl, T, hT, hover, rfl⟩
  · rw [show roundValue (.done (.ready, none) : ConsumerResult W K) = none from rfl]
    simp only [Option.toList_none, List.map_nil, List.append_nil]
    refine ⟨t.interval, t.index_lt, t.residue, t.joined_le, by have := t.bound; omega, ?_, ?_, ?_,
      t.earlier⟩
    · simpa [Trace.positions, Trace.more] using t.popped
    · simpa [Trace.positions, Trace.more] using t.sorted
    · intro p h1 h2 h3
      refine (t.covered p h1 h2 h3).imp (fun h => ?_) hskip
      simpa [Trace.positions, Trace.more] using h
  · have hpos : (tr.more c.head new (some x)).positions = tr.positions ++ [c.head] := by
      simp [Trace.positions, Trace.more]
    have hk0 := t.index_lt
    have hhead : c.head < tail' := hTlt.trans_le (hnew T hT)
    rw [show roundValue (.done (.ready, some x) : ConsumerResult W K) = some x from rfl]
    refine ⟨t.interval, t.index_lt, hadv.residue, t.joined_le.trans hadv.le, by simp only; omega,
      ?_, ?_, ?_, ?_⟩
    · rw [hpos]
      intro p hp
      rcases List.mem_append.mp hp with h | h
      · obtain ⟨h1, h2⟩ := t.popped p h
        exact ⟨h1.trans_le hadv.le, h2⟩
      · obtain rfl := List.mem_singleton.mp h
        exact ⟨by simp only; omega, t.residue⟩
    · rw [hpos]
      refine List.pairwise_append.mpr ⟨t.sorted, List.pairwise_singleton _ _, fun p hp q hq => ?_⟩
      obtain rfl := List.mem_singleton.mp hq
      exact (t.popped p hp).1
    · intro p h1 h2 h3
      rw [hpos]
      rcases Nat.lt_trichotomy p c.head with h | rfl | h
      · exact (t.covered p h1 h h3).imp (List.mem_append_left _) hskip
      · exact .inl (by simp)
      · have := add_le_of_mod_eq (k := k) (t.residue.trans h3.symm) h
        simp only at h2
        omega
    · intro p hp hm
      rcases List.mem_append.mp hp with h | h
      · exact (t.earlier p h hm).trans_le hadv.le
      · have : p = c.head := by simpa using h
        simp only
        omega
  · rw [show roundValue (.again : ConsumerResult W K) = none from rfl]
    simp only [Option.toList_none, List.map_nil, List.append_nil]
    have hTle : T ≤ tail' := hnew (c.head, T) hT
    have hq := nextResidue_lt (h := T - readable P.N) (i := c.consumerIndex) (k := k)
      (Nat.zero_lt_of_lt t.index_lt)
    refine ⟨t.interval, t.index_lt, hadv.residue, t.joined_le.trans hadv.le, by simp only; omega,
      ?_, ?_, ?_, fun p hp hm => (t.earlier p hp hm).trans_le hadv.le⟩
    · intro p hp
      obtain ⟨h1, h2⟩ := t.popped p (by simpa [Trace.positions, Trace.more] using hp)
      exact ⟨h1.trans_le hadv.le, h2⟩
    · simpa [Trace.positions, Trace.more] using t.sorted
    · intro p h1 h2 h3
      rcases Nat.lt_or_ge p c.head with h | h
      · refine (t.covered p h1 h h3).imp (fun h => ?_) hskip
        simpa [Trace.positions, Trace.more] using h
      · -- beyond the old cursor only positions that can no longer be read are passed
        have := lt_of_lt_nextResidue t.index_lt h3 h2
        exact .inr ⟨(c.head, T), List.mem_append_right _ hT, h, by simp only; omega⟩

end rounds

theorem Arrived.tidy {v : ConsumerView W K} {index : ℕ}
    (h : Arrived P 0 (fun p => p % k = index) index k v.cursor v)
    (hfit : NextFits P.w v.trace.joinedAt index k) :
    Tidy P k v.cursor v.trace v.ch.tail v.all := by
  have hi := h.index_lt
  have hJ := h.joined_le
  have hhead : v.cursor.head = nextResidue v.trace.joinedAt index k := h.head.trans (hfit.eq hi)
  have hle : v.trace.joinedAt ≤ v.cursor.head := by rw [hhead]; exact le_nextResidue
  have hpos : v.trace.positions = [] := by rw [Trace.positions, h.popped, List.map_nil]
  refine ⟨h.interval, by rw [h.index_eq]; exact hi, ?_, hle, ?_, ?_, ?_, ?_, ?_⟩
  · rw [hhead, h.index_eq, nextResidue_mod hi]
  · have := nextResidue_lt (h := v.trace.joinedAt) (i := index) (k := k) (by omega)
    omega
  · simp [hpos]
  · simp [hpos]
  · intro p h1 h2 h3
    rw [hhead] at h2
    rw [h.index_eq] at h3
    have := lt_of_lt_nextResidue hi h3 h2
    omega
  · intro p hp hm
    rw [h.index_eq] at hm
    exact (h.earlier p hp hm).trans_le hle

end Que.Headless
