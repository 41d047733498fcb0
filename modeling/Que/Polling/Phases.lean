import Que.Polling.System

/-! # Phases of the polling loops

What each call of the loops still does, and how the steps of a loop bring it forward.

* **Producer.** A call stores no tail beyond what was written before it, and returns with its
  elements written (`Returned`).
* **Consumers.** Once the tail stands still at a position beyond the cursor, a round of `pop` that
  has loaded it, or has still to load the first of its tails, moves the cursor on (`Gains`).  A
  round that has loaded an older tail may return nothing, but the next one gains. -/

namespace Que.Polling

open Lib Headless

variable {W : Type} {K k : ℕ} {P : Params}

/-! ### The producer's calls -/

/-- A call, made when everything before `F` was written, has returned. -/
structure Returned (F : ℕ) (op : ProducerOp W K) (st : ProducerStatus) (p : Producer) : Prop where
  ready : st = .ready
  tail : p.tail = F + op.values.length
  synced : op = .sync → p.written = 0

section calls
variable {p : Producer}

theorem assignWords_obeys {F i : ℕ} {xs : List W} {Q : Unit → Producer → Prop} (h : Q () p) :
    Obeys anyAnswer (StoresUpTo F) (assignWords i xs) Q p := by
  induction xs generalizing i with
  | nil => exact h
  | cons x xs ih => exact ⟨trivial, fun _ _ => ih⟩

/-- The second half of a push. -/
theorem pushRest_obeys {x : Vector W K} {q : Producer} (htail : q.tail = p.tail)
    (hlt : p.tail + 1 < P.limit) :
    Obeys anyAnswer (StoresUpTo p.tail)
      (do
        let q ← self
        assignWords ((q.tail &&& moduloMask P.N) * K) x.toList
        update fun q => { q with tail := wadd P.w q.tail 1 }
        update fun q => { q with written := wadd P.w q.written 1 }
        return .ready)
      (Returned p.tail (.push x)) q := by
  have hlimit := P.limit_le
  have h1 : wadd P.w p.tail 1 = p.tail + 1 := wadd_of_lt (by omega)
  simp only [obeys_bind, obeys_self, StoresUpTo, true_and]
  apply assignWords_obeys
  simp only [obeys_update, obeys_pure, StoresUpTo, true_and]
  refine ⟨rfl, ?_, fun h => by cases h⟩
  rw [htail]
  exact h1

theorem sync_obeys : Obeys anyAnswer (StoresUpTo p.tail) (Headless.sync : Proc Producer W Unit)
    (fun _ q => q = { p with written := 0 }) p := by
  simp only [Headless.sync, obeys_bind, obeys_update, obeys_self, obeys_store, StoresUpTo,
    true_and, and_true]
  exact le_rfl

theorem push_obeys {x : Vector W K} (hlt : p.tail + 1 < P.limit) :
    Obeys anyAnswer (StoresUpTo p.tail) ((.push x : ProducerOp W K).code P)
      (Returned p.tail (.push x)) p := by
  simp only [ProducerOp.code, Headless.push, Prog.bind_assoc]
  refine Obeys.bind (obeys_self.mpr ⟨trivial, ?_⟩)
  by_cases hburst : p.written = burstAmount P.N
  · rw [if_pos hburst]
    simp only [Prog.bind_assoc]
    refine Obeys.bind (sync_obeys.mono ?_)
    rintro _ q rfl
    exact pushRest_obeys rfl hlt
  · rw [if_neg hburst]
    simp only [Prog.bind_assoc]
    exact pushRest_obeys rfl hlt

theorem call_obeys {op : ProducerOp W K} (hop : working op = true)
    (hlt : p.tail + op.values.length < P.limit) :
    Obeys anyAnswer (StoresUpTo p.tail) (op.code P) (Returned p.tail op) p := by
  cases op with
  | push x => exact push_obeys hlt
  | sync =>
      refine Obeys.bind (sync_obeys.mono ?_)
      rintro _ q rfl
      exact ⟨rfl, rfl, fun _ => rfl⟩
  | beat =>
      simp only [ProducerOp.code, Headless.beat, obeys_bind, obeys_fetchAdd, obeys_pure, StoresUpTo,
        true_and]
      exact fun _ => ⟨rfl, rfl, fun h => by cases h⟩
  | consumerHeartbeat =>
      simp only [ProducerOp.code, Headless.consumerHeartbeat, obeys_bind, obeys_load, obeys_self,
        obeys_ite, obeys_update, obeys_pure, StoresUpTo, true_and]
      exact fun n _ => ⟨fun _ => ⟨rfl, rfl, fun h => by cases h⟩,
        fun _ => ⟨rfl, rfl, fun h => by cases h⟩⟩
  | _ => cases hop

theorem assignWords_takes (i : ℕ) (xs : List W) (p : Producer) :
    Takes anyAnswer xs.length (assignWords i xs) p := by
  induction xs generalizing i p with
  | nil => exact takes_ret _
  | cons x xs ih => exact fun _ _ => ih (i + 1) _

theorem pushRest_takes {x : Vector W K} (p : Producer) : Takes anyAnswer (1 + (K + 2))
    (do
      let q ← self
      assignWords ((q.tail &&& moduloMask P.N) * K) x.toList
      update fun q => { q with tail := wadd P.w q.tail 1 }
      update fun q => { q with written := wadd P.w q.written 1 }
      return .ready : Proc Producer W ProducerStatus) p := by
  refine Takes.bind (takes_perform (n := 0)) fun q l => ?_
  refine Takes.bind (m := K) ?_ fun _ l => ?_
  · simpa only [Vector.length_toList] using assignWords_takes _ x.toList l
  · exact fun _ _ _ _ => takes_ret _

theorem call_takes {op : ProducerOp W K} (hop : working op = true) (p : Producer) :
    ∃ n, Takes anyAnswer n (op.code P) p := by
  cases op with
  | push x =>
      refine ⟨1 + (3 + (1 + (K + 2))), ?_⟩
      simp only [ProducerOp.code, Headless.push, Prog.bind_assoc]
      refine Takes.bind (takes_perform (n := 0)) fun q l => ?_
      by_cases hburst : q.written = burstAmount P.N
      · rw [if_pos hburst]
        simp only [Prog.bind_assoc]
        refine Takes.bind (m := 3) ?_ fun _ => pushRest_takes
        exact fun _ _ _ _ _ _ => takes_ret _
      · rw [if_neg hburst]
        simp only [Prog.bind_assoc]
        exact (pushRest_takes l).mono (Nat.le_add_left _ _)
  | sync => exact ⟨3, fun _ _ _ _ _ _ => takes_ret _⟩
  | beat => exact ⟨1, fun _ _ => takes_ret _⟩
  | consumerHeartbeat =>
      refine ⟨3, Takes.bind (n := 0) ?_ (by simp)⟩
      simp [Headless.consumerHeartbeat, self, load, update]
  | _ => cases hop

end calls

/-! ### A round of `pop` -/

/-- The number of actions of a round of `pop`. -/
def roundCost (K : ℕ) : ℕ := K + 5

/-- Loads of the tail are answered `T`. -/
abbrev standing (T : ℕ) : Private (Act Consumer W) Act.Ans Consumer :=
  owning fun x _ n => x = .tail → n = T

/-- While the tail stands at `T`, the rest of the round that began at `start` moves the cursor. -/
def Gains (T : ℕ) (start : Consumer) (code : Proc Consumer W (ConsumerResult W K))
    (c : Consumer) : Prop :=
  Obeys (standing T) (fun _ => True) code (fun _ c' => start.head < c'.head) c

section pop
variable {c : Consumer}

theorem readWords_obeys {T i n : ℕ} {Q : Vector W n → Consumer → Prop} (h : ∀ xs, Q xs c) :
    Obeys (standing T) (fun _ => True) (readWords i n) Q c := by
  induction n with
  | zero => exact h _
  | succ n ih =>
      refine Obeys.bind (ih fun xs => Obeys.bind (obeys_read.mpr ⟨trivial, fun x => ?_⟩))
      exact h _

/-- A round that has still to load its first tail moves the cursor. -/
theorem pop_gains {tr : Trace W K} {tail T : ℕ} {all : List ℕ} (t : Tidy P k c tr tail all)
    (hP : Roomy P) (hk : k ≤ 64) (htail : tail < P.limit) (hlt : c.head < T) (hT : T < P.limit) :
    Gains T c (ConsumerOp.pop.code P : Proc Consumer W (ConsumerResult W K)) c := by
  obtain ⟨hsum, hstride⟩ := t.sums_lt hP hk htail
  have h1 : wadd P.w c.head (readable P.N) = c.head + readable P.N := wadd_of_lt hsum
  have h2 : wadd P.w c.head c.interval = c.head + k := by rw [wadd_of_lt hstride, t.interval]
  have hpos : 0 < k := Nat.zero_lt_of_lt t.index_lt
  have hreset : c.head + readable P.N < T → c.head < (resetTo P.w P.N T c).head := by
    intro hover
    have hle := le_nextResidue (h := T - readable P.N) (i := c.consumerIndex) (k := k)
    rw [t.reset (t.moveFits hP hk htail hT) hover hT]
    simp only
    omega
  simp only [Gains, ConsumerOp.code, popIter, Prog.bind_assoc]
  refine Obeys.bind (obeys_load.mpr ⟨trivial, fun n hn => ?_⟩)
  obtain rfl := hn rfl
  refine Obeys.bind (obeys_self.mpr ⟨trivial, ?_⟩)
  rw [if_neg (Nat.not_le.mpr hlt), h1]
  by_cases hover : n ≤ c.head + readable P.N
  · rw [if_neg (not_not.mpr hover)]
    simp only [Prog.bind_assoc]
    refine Obeys.bind (readWords_obeys fun xs => ?_)
    refine Obeys.bind (obeys_load.mpr ⟨trivial, fun n' hn' => ?_⟩)
    obtain rfl := hn' rfl
    refine Obeys.bind (obeys_self.mpr ⟨trivial, ?_⟩)
    rw [h1, if_neg (not_not.mpr hover)]
    simp only [obeys_bind, obeys_update, true_and, obeys_pure, h2]
    exact Nat.lt_add_of_pos_right hpos
  · rw [if_pos hover]
    simp only [obeys_bind, obeys_update, true_and, obeys_pure]
    exact hreset (Nat.not_le.mp hover)

theorem readWords_takes (i n : ℕ) (c : Consumer) :
    Takes anyAnswer n (readWords i n : Proc Consumer W (Vector W n)) c := by
  induction n generalizing c with
  | zero => exact takes_ret _
  | succ n ih => exact (ih c).bind fun xs l => takes_perform.bind (n := 0) fun x l => takes_ret _

theorem pop_takes (c : Consumer) : Takes anyAnswer (roundCost K)
    (ConsumerOp.pop.code P : Proc Consumer W (ConsumerResult W K)) c := by
  rw [show roundCost K = 1 + (1 + (K + (1 + (1 + 1)))) by unfold roundCost; omega]
  simp only [ConsumerOp.code, popIter, Prog.bind_assoc]
  refine Takes.bind (takes_perform (n := 0)) fun T _ => ?_
  refine Takes.bind (takes_perform (n := 0)) fun c _ => ?_
  by_cases hempty : T ≤ c.head
  · rw [if_pos hempty]
    exact takes_ret _
  by_cases hover : T ≤ wadd P.w c.head (readable P.N)
  · rw [if_neg hempty, if_neg (not_not.mpr hover)]
    simp only [Prog.bind_assoc]
    refine Takes.bind (readWords_takes _ K _) fun xs _ => ?_
    refine Takes.bind (takes_perform (n := 0)) fun T' _ => ?_
    refine Takes.bind (takes_perform (n := 0)) fun c' _ => ?_
    by_cases hlate : T' ≤ wadd P.w c'.head (readable P.N)
    · rw [if_neg (not_not.mpr hlate)]
      exact fun _ _ => takes_ret _
    · rw [if_pos hlate]
      exact fun _ _ => takes_ret _
  · rw [if_neg hempty, if_pos hover]
    exact fun _ _ => takes_ret _

end pop

end Que.Polling
