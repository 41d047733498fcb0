import Que.Lossless.Fifo

/-! # Initialising a channel in used memory

A constructor that finds a zero magic resets the tail, the heartbeats and the capacity, but not
the head.  The channel is the empty one exactly when the head happens to be zero
(`establishesEmpty_iff`). -/

namespace Que.Lossless

open Lib

variable {V : Type} {C : Config}

/-! ### Filling the ring -/

/-- A sequence of pushes (`some v`) and syncs (`none`); the result lists the outcomes of the
pushes. -/
def produce (w N : ℕ) : List (Option V) → Proc Handle V (List (Outcome Unit))
  | [] => return []
  | none :: calls => do
      sync
      produce w N calls
  | some v :: calls => do
      let r ← push w N v
      let rs ← produce w N calls
      return r :: rs

def freeSpace (C : Config) (ch : Channel V) (h : Handle) : ℕ := C.N - (h.producer.tail - ch.head)

/-- The local tail is within the ring that starts at the shared head, and the counters stay below
the limit. -/
structure InRing (C : Config) (ch : Channel V) (h : Handle) : Prop where
  head_le : ch.head ≤ h.producer.tail
  tail_le : h.producer.tail ≤ ch.head + C.N
  lt : ch.head + C.N < 2 ^ C.w

theorem push_run_full {ch : Channel V} {h : Handle} (R : InRing C ch h)
    (hf : freeSpace C ch h = 0) (v : V) :
    (push C.w C.N v).run C.w ch h = (.err .full, ch, h) := by
  obtain ⟨h1, h2, h3⟩ := R
  unfold freeSpace at hf
  have hfull : h.producer.tail = wadd C.w ch.head C.N := by
    rw [wadd_of_lt h3]
    omega
  simp [push, Channel.get, ← hfull]

theorem push_run_ok {ch : Channel V} {h : Handle} (R : InRing C ch h)
    (hf : 0 < freeSpace C ch h) (v : V) :
    (push C.w C.N v).run C.w ch h = (.ok (), ch.write (slot C.N h.producer.tail) v,
      (h.setTail (h.producer.tail + 1)).setWritten (wadd C.w h.producer.written 1)) := by
  obtain ⟨h1, h2, h3⟩ := R
  unfold freeSpace at hf
  have hfull : ¬ h.producer.tail = wadd C.w ch.head C.N := by
    rw [wadd_of_lt h3]
    omega
  have hadd : wadd C.w h.producer.tail 1 = h.producer.tail + 1 := wadd_of_lt (by omega)
  simp [push, Channel.get, hfull, hadd, slot, moduloMask, Handle.setTail]

theorem InRing.pushed {ch : Channel V} {h : Handle} (R : InRing C ch h) (v : V)
    (hf : 0 < freeSpace C ch h) :
    InRing C (ch.write (slot C.N h.producer.tail) v)
      ((h.setTail (h.producer.tail + 1)).setWritten (wadd C.w h.producer.written 1)) ∧
    freeSpace C ch h = freeSpace C (ch.write (slot C.N h.producer.tail) v)
      ((h.setTail (h.producer.tail + 1)).setWritten (wadd C.w h.producer.written 1)) + 1 := by
  obtain ⟨h1, h2, h3⟩ := R
  unfold freeSpace at hf ⊢
  refine ⟨⟨?_, ?_, h3⟩, ?_⟩ <;>
    simp only [Handle.setTail, Handle.setWritten, Channel.write] <;> omega

/-- Exactly the free space is filled before a push fails. -/
theorem produce_run {ch : Channel V} {h : Handle} (R : InRing C ch h) (calls : List (Option V)) :
    ((produce C.w C.N calls).run C.w ch h).1 =
      List.replicate (min (freeSpace C ch h) (calls.countP Option.isSome)) (.ok ()) ++
      List.replicate (calls.countP Option.isSome - freeSpace C ch h) (.err .full) := by
  induction calls generalizing ch h with
  | nil => simp [produce]
  | cons call calls ih =>
      cases call with
      | none =>
          have R' : InRing C (ch.set .tail h.producer.tail) (h.setWritten 0) :=
            ⟨R.head_le, R.tail_le, R.lt⟩
          have := ih R'
          simpa [produce, sync, Handle.setWritten, Channel.set, freeSpace] using this
      | some v =>
          rcases Nat.eq_zero_or_pos (freeSpace C ch h) with hf | hf
          · simp [produce, push_run_full R hf, ih R, hf, List.replicate_succ]
          · obtain ⟨R', hfree⟩ := R.pushed v hf
            simp [produce, push_run_ok R hf, ih R', hfree, Nat.add_min_add_right,
              List.replicate_succ]

theorem reserve_run_ok {ch : Channel V} {h : Handle} (R : InRing C ch h) (count : ℕ) :
    ((reserve C.w C.N count : Proc Handle V _).run C.w ch h).1 = .ok () ↔
      1 ≤ count ∧ count ≤ freeSpace C ch h := by
  obtain ⟨h1, h2, h3⟩ := R
  have hspace : wsub C.w C.N (wsub C.w h.producer.tail ch.head) = freeSpace C ch h := by
    rw [wsub_of_le h1 (by omega), wsub_of_le (by omega) C.fits]
    rfl
  have hle : freeSpace C ch h ≤ C.N := Nat.sub_le _ _
  simp only [reserve, Proc.run_ite, Proc.run_bind, Proc.run_load, Proc.run_self, Proc.run_update,
    Prog.pure_eq_ret, Proc.run_ret, show ch.get .head = ch.head from rfl, hspace]
  split_ifs with hz hN hs <;> simp <;> omega

/-! ### The empty channel -/

/-- What the constructor `op` should establish on the memory `m`: the empty channel, the ring
inequality in every run that follows, and pushes and reservations that succeed exactly while
there is space. -/
def EstablishesEmpty (C : Config) (op : ProducerOp V) (m : Channel V) : Prop :=
  let s₀ := State.initial C op m
  s₀.producer = .rest .ready ∧
  (s₀.ch.head = s₀.ch.tail ∧ s₀.ch.tail = s₀.handle.producer.tail) ∧
  (∀ s, Reach C s₀ s → s.ch.head ≤ s.producerTail ∧ s.producerTail ≤ s.ch.head + C.N) ∧
  (∀ calls, ((produce C.w C.N calls).run C.w s₀.ch s₀.handle).1 =
    List.replicate (min C.N (calls.countP Option.isSome)) (.ok ()) ++
    List.replicate (calls.countP Option.isSome - C.N) (.err .full)) ∧
  (∀ s, Reach C s₀ s → s.producer = .rest .ready → s.handle.producer.tail + C.N < 2 ^ C.w →
    (∀ v, ((push C.w C.N v).run C.w s.ch s.handle).1 =
      if 0 < freeSpace C s.ch s.handle then .ok () else .err .full) ∧
    (∀ count, ((reserve C.w C.N count : Proc Handle V _).run C.w s.ch s.handle).1 = .ok () ↔
      1 ≤ count ∧ count ≤ freeSpace C s.ch s.handle))

theorem Sound.inRing {s : State V} (S : Sound C s) (hp : s.producer = .rest .ready)
    (hlt : s.handle.producer.tail + C.N < 2 ^ C.w) : InRing C s.ch s.handle := by
  have hf := S.producer
  rw [hp] at hf
  obtain ⟨h1, h2⟩ := Ready.tailBound hf
  have hle := S.base.head_le
  exact ⟨hle.trans h1, h2, by simp only [State.producerView] at h1; omega⟩

/-- **The constructors establish the empty channel exactly when the head is zero.** -/
theorem establishesEmpty_iff (C : Config) {op : ProducerOp V} (hop : op.initialises = true)
    {m : Channel V} (hm : m.magic = 0) : EstablishesEmpty C op m ↔ m.head = 0 := by
  have F := initial_fresh (C := C) hop hm
  constructor
  · rintro ⟨_, ⟨h, _⟩, _⟩
    rw [F.head, F.tail] at h
    exact h
  · intro hh
    have S := initial_sound (C := C) hop hm hh
    have R : InRing C (State.initial C op m).ch (State.initial C op m).handle :=
      S.inRing F.producer (by rw [F.handle]; simpa using C.fits)
    have hfree : freeSpace C (State.initial C op m).ch (State.initial C op m).handle = C.N := by
      simp [freeSpace, F.handle]
    refine ⟨F.producer, ⟨?_, ?_⟩, fun s hs => ?_, fun calls => ?_, fun s hs hp hlt => ?_⟩
    · rw [F.head, F.tail, hh]
    · rw [F.tail, F.handle]
    · have St := S.run hs
      obtain ⟨h1, h2⟩ := St.producerTail_bounds
      exact ⟨St.base.head_le.trans h1, h2⟩
    · rw [produce_run R, hfree]
    · have R := (S.run hs).inRing hp hlt
      refine ⟨fun v => ?_, reserve_run_ok R⟩
      split_ifs with hf
      · rw [push_run_ok R hf]
      · rw [push_run_full R (by omega)]

theorem establishesEmpty_zeroHead : EstablishesEmpty Config.small .joinOrInitializeIn
    { Channel.zeroed 0 with tail := 9, consumerHeartbeat := 3, capacity := 77 } :=
  (establishesEmpty_iff _ rfl rfl).mpr rfl

/-- Used memory with a stale head: the channel is not empty, and three pushes succeed on a ring
of two slots. -/
theorem not_establishesEmpty_staleHead :
    ¬ EstablishesEmpty Config.small .joinOrInitializeIn { Channel.zeroed 0 with head := 1 } ∧
    ((produce 64 2 [some 5, some 6, some 7]).run 64
      (State.initial Config.small .joinOrInitializeIn { Channel.zeroed 0 with head := 1 }).ch
      (State.initial Config.small .joinOrInitializeIn { Channel.zeroed 0 with head := 1 }).handle).1
      = [.ok (), .ok (), .ok ()] := by
  refine ⟨fun h => ?_, by decide +kernel⟩
  have := h.2.1.1
  revert this
  decide +kernel

end Que.Lossless
