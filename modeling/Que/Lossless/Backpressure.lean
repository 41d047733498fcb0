import Que.Lossless.Calls

/-! # Backpressure

Which fill levels make `push` and `reserve` succeed, and which make them fail.

* **The lag.** Between two calls that move the cursor, the shared head is less than a burst behind
  the consumer (`Sound.lag`).  Calls that do not move the cursor may be half-way; their code
  consists of actions that touch neither counter (`Still`).
* **The check.** `push` and `reserve` load the head once; what they return is decided at that
  moment (`push_decided`, `reserve_decided`), whatever the consumer does afterwards.
* `backpressure_exact` puts the two together. -/

namespace Que.Lossless

open Lib

variable {V : Type} {C : Config}

/-! ### Between the bursts of the consumer -/

/-- The calls of the consumer that move its cursor or the shared head. -/
def ConsumerOp.moves : ConsumerOp V → Bool
  | join | pop | elementDrop => true
  | _ => false

/-- A consumer is joined, and no pop, drop of an element or join is half-way. -/
def State.consumerCalm (s : State V) : Bool :=
  match s.consumer with
  | .rest st => st != .gone
  | .busy _ op _ => !op.moves

/-- An action that touches neither the head nor the counters of the consumer. -/
def Still : Act Consumer V → Prop
  | .store x _ => x ≠ .head
  | .fetchAdd x _ => x ≠ .head
  | .update f => ∀ c, (f c).head = c.head ∧ (f c).itemsSinceLastSync = c.itemsSinceLastSync
  | _ => True

/-- The code of the other calls consists of such actions. -/
theorem ConsumerOp.code_still {op : ConsumerOp V} (h : op.moves = false) (st : ConsumerStatus) :
    (op.code C st).All Still (fun _ => True) := by
  cases op with
  | join => cases h
  | pop => cases h
  | elementDrop => cases h
  | popZerocopy =>
      apply Prog.All.bind
      simp [Lossless.popZerocopy, load, self, Still]
  | elementWrite value => simp [code, Element.write, assign, Still]
  | beat => simp [code, beatConsumer, fetchAdd, Still]
  | producerHeartbeat =>
      apply Prog.All.bind
      simp [Lossless.producerHeartbeat, load, self, update, Still]
  | drop =>
      apply Prog.All.bind
      simp [dropEndpoint, Prog.perform, Still]

/-- In the calls that do not move the cursor, the shared head lags by less than a burst. -/
def Steady (C : Config) (s : State V) : Prop :=
  ∀ start op code, s.consumer = .busy start op code → op.moves = false →
    InStep C s.consumerView ∧ code.All Still (fun _ => True)

/-- An action of such a call keeps the lag. -/
theorem InStep.still {v : ConsumerView V} (h : InStep C v) {a : Act Consumer V} (ha : Still a) :
    InStep C ((consumerContract C HeadBound).step a v).2 := by
  obtain ⟨h1, h2⟩ := h
  cases a with
  | store x n => cases x <;> first | exact ⟨h1, h2⟩ | exact absurd rfl ha
  | fetchAdd x n => cases x <;> first | exact ⟨h1, h2⟩ | exact absurd rfl ha
  | update f =>
      obtain ⟨e1, e2⟩ := ha v.cursor
      constructor
      · change v.ch.head + (f v.cursor).itemsSinceLastSync = (f v.cursor).head
        rw [e1, e2]
        exact h1
      · change (f v.cursor).itemsSinceLastSync < burstAmount C.N
        rw [e2]
        exact h2
  | load x => exact ⟨h1, h2⟩
  | read i => exact ⟨h1, h2⟩
  | assign i x => exact ⟨h1, h2⟩
  | copy i x => exact ⟨h1, h2⟩
  | self => exact ⟨h1, h2⟩
  | dropArc => exact ⟨h1, h2⟩

theorem Sound.inStep_of_rest {s : State V} (S : Sound C s) {st : ConsumerStatus}
    (hc : s.consumer = .rest st) (hst : st ≠ .gone) : InStep C s.consumerView := by
  have hf := S.consumer
  rw [hc] at hf
  cases st with
  | gone => exact absurd rfl hst
  | ready => exact hf.1
  | element i => exact hf.1

theorem Steady.step {s t : State V} (S : Sound C s) (H : Steady C s) (h : Step C s t) :
    Steady C t := by
  intro start op code hc hop
  cases h with
  | producerCall op' _ _ _ => exact H start op code hc hop
  | producerAct hp =>
      obtain ⟨h1, h2⟩ := H start op code hc hop
      exact ⟨h1.stable ⟨rfl, (S.producer_act (fun _ => S.room) hp).1.change⟩, h2⟩
  | producerReturn _ => exact H start op code hc hop
  | producerStop => exact H start op code hc hop
  | consumerCall op' hrest hen =>
      cases hc
      refine ⟨S.inStep_of_rest hrest fun hst => ?_, op.code_still hop _⟩
      rw [hst] at hen
      cases op <;> simp [ConsumerOp.enabled, ConsumerOp.moves] at hen hop
  | consumerAct hbusy =>
      cases hc
      obtain ⟨h1, h2⟩ := H _ _ _ hbusy hop
      exact ⟨h1.still h2.1, h2.2 _⟩
  | consumerReturn _ => cases hc
  | consumerStop => cases hc

theorem Steady.run {s₀ s : State V} (S : Sound C s₀) (h₀ : s₀.consumer = .rest .gone)
    (h : Reach C s₀ s) : Steady C s := by
  induction h with
  | refl =>
      intro start op code hc
      rw [h₀] at hc
      cases hc
  | tail hreach hstep ih => exact ih.step (S.run hreach) hstep

/-- **The lag of the shared head.**  Where no call moves the cursor, the shared head is less than
a burst behind. -/
theorem Sound.lag {s₀ s : State V} (S : Sound C s₀) (h₀ : s₀.consumer = .rest .gone)
    (h : Reach C s₀ s) (hcalm : s.consumerCalm = true) : InStep C s.consumerView := by
  unfold State.consumerCalm at hcalm
  cases hc : s.consumer with
  | rest st =>
      rw [hc] at hcalm
      exact (S.run h).inStep_of_rest hc (by simpa using hcalm)
  | busy start op code =>
      rw [hc] at hcalm
      exact (Steady.run S h₀ h start op code hc (by simpa using hcalm)).1

theorem Sound.headBound_of_calm {s : State V} (S : Sound C s) (hcalm : s.consumerCalm = true) :
    HeadBound s.consumerView := by
  have hf := S.consumer
  unfold State.consumerCalm at hcalm
  cases hc : s.consumer with
  | rest st =>
      rw [hc] at hf hcalm
      exact ConsumerRest.headBound hf (by simpa using hcalm)
  | busy start op code =>
      rw [hc] at hf hcalm
      have hop : op.isJoin = false := by cases op <;> first | rfl | cases hcalm
      have hb := hf.1
      unfold consumerBound at hb
      rw [hop] at hb
      exact hb

/-! ### The check for space -/

/-- The code of `push` after the load of the head. -/
def pushRest (C : Config) (h : Handle) (value : V) (head : ℕ) :
    Proc Handle V (ProducerStatus × List V) := do
  if h.producer.tail = wadd C.w head C.N then
    return (.ready, [])
  else
    assign (h.producer.tail &&& moduloMask C.N) value
    update fun h => h.setTail (wadd C.w h.producer.tail 1)
    update fun h => h.setWritten (wadd C.w h.producer.written 1)
    return (.ready, [value])

theorem push_code (value : V) : ProducerOp.code C (.push value) =
    .act .self fun h => .act (.load .head) fun head => pushRest C h value head := by
  simp only [ProducerOp.code, Lossless.push, self, load, Prog.perform_bind]
  refine congrArg (Prog.act Act.self) (funext fun h => ?_)
  refine congrArg (Prog.act (Act.load .head)) (funext fun head => ?_)
  by_cases hf : h.producer.tail = wadd C.w head C.N
  · simp only [pushRest, hf, if_true]
    rfl
  · simp only [pushRest, hf, if_false]
    rfl

/-- The code of `reserve` after the load of the head. -/
def reserveRest (C : Config) (count head : ℕ) : Proc Handle V (ProducerStatus × List V) := do
  let h ← self
  if count > wsub C.w C.N (wsub C.w h.producer.tail head) then
    return (.ready, [])
  else
    update fun h => h.setReservation ⟨h.producer.tail, count, 0, false⟩
    return (.reserved, [])

theorem reserve_code (count : ℕ) : (ProducerOp.code C (.reserve count) : Proc Handle V _) =
    if 0 < count ∧ count ≤ C.N then .act (.load .head) fun head => reserveRest C count head
    else .ret (.ready, []) := by
  simp only [ProducerOp.code, Lossless.reserve]
  by_cases h0 : count = 0
  · simp [h0]
  by_cases hN : count > C.N
  · rw [if_neg h0, if_pos hN, if_neg (by omega)]
    rfl
  rw [if_neg h0, if_neg hN, if_pos ⟨by omega, by omega⟩]
  simp only [reserveRest, self, load, Prog.perform_bind]
  refine congrArg (Prog.act (Act.load .head)) (funext fun head => ?_)
  refine congrArg (Prog.act Act.self) (funext fun h => ?_)
  by_cases hs : count > wsub C.w C.N (wsub C.w h.producer.tail head)
  · simp only [hs, if_true]
    rfl
  · simp only [hs, if_false]
    rfl

section rest
variable {h : Handle} {head : ℕ}

/-- What `push` does after the load of the head. -/
theorem pushRest_full (value : V) (hfull : h.producer.tail = wadd C.w head C.N) :
    Exactly anyAnswer 0 (.ready, []) (pushRest C h value head) h := by
  unfold pushRest
  rw [if_pos hfull]
  exact rfl

theorem pushRest_ok (value : V) (hfull : ¬ h.producer.tail = wadd C.w head C.N) :
    Exactly anyAnswer 3 (.ready, [value]) (pushRest C h value head) h := by
  unfold pushRest
  rw [if_neg hfull]
  exact fun _ _ _ _ _ _ => rfl

/-- What `reserve` does after the load of the head. -/
theorem reserveRest_full {count : ℕ}
    (hfull : count > wsub C.w C.N (wsub C.w h.producer.tail head)) :
    Exactly anyAnswer 1 (.ready, []) (reserveRest C count head : Proc Handle V _) h := by
  simp only [reserveRest, self, Prog.perform_bind]
  rintro r rfl
  simp only [if_pos hfull]
  exact rfl

theorem reserveRest_ok {count : ℕ}
    (hfull : ¬ count > wsub C.w C.N (wsub C.w h.producer.tail head)) :
    Exactly anyAnswer 2 (.reserved, []) (reserveRest C count head : Proc Handle V _) h := by
  simp only [reserveRest, self, Prog.perform_bind]
  rintro r rfl
  simp only [if_neg hfull]
  exact fun _ _ => rfl

/-- The only error of a push is `Full`, and so it is for reservations that a ring can hold. -/
theorem push_error (value : V) : (Lossless.push C.w C.N value).All (fun _ => True)
    (fun r => r = .ok () ∨ r = .err .full) := by
  simp [Lossless.push, self, load, assign, update]

theorem reserve_error {count : ℕ} (h1 : 1 ≤ count) (h2 : count ≤ C.N) :
    (Lossless.reserve C.w C.N count : Proc Handle V _).All (fun _ => True)
      (fun r => r = .ok () ∨ r = .err .full) := by
  simp [Lossless.reserve, self, load, update, Nat.not_lt.mpr h2, Nat.one_le_iff_ne_zero.mp h1]

end rest

/-! ### Calls that load the head once -/

/-- The producer loads the head in the state `s`, which leads to `u`. -/
def LoadsHead (C : Config) (s u : State V) : Prop :=
  ∃ start op k, s.producer = .busy start op (.act (.load .head) k) ∧
    u = s.producerDoes C (.load .head) fun x => .busy start op (k x)

/-- In every run inside the call `op`, made in the state `q`: the producer performs `before`
actions, then loads the head and does not return before that; and when it has performed `m` actions
after a load in the state `s`, `after s m` holds. -/
structure Decided (C : Config) (q : State V) (op : ProducerOp V) (before : ℕ)
    (after : State V → ℕ → State V → Prop) : Prop where
  counted : ∀ t, During C (q.called C op) t → ∃ n, Acts C (q.called C op) n t
  early : ∀ n t, Acts C (q.called C op) n t → n ≤ before →
    t.returning = none ∧ ((∃ u, LoadsHead C t u) ↔ n = before)
  loaded : ∀ n t, Acts C (q.called C op) n t → before < n → ∃ s u,
    Acts C (q.called C op) before s ∧ LoadsHead C s u ∧ Acts C u (n - before - 1) t
  result : ∀ s u, Acts C (q.called C op) before s → LoadsHead C s u → ∀ m t, Acts C u m t →
    after s m t

section calls
variable {q : State V}

theorem push_decided {value : V} {after : State V → ℕ → State V → Prop}
    (h : ∀ s : State V, Acts C (q.called C (.push value)) 1 s → s.handle = q.handle →
      s.producer = .busy q.handle (.push value) (.act (.load .head) fun head =>
        pushRest C q.handle value head) →
      ∀ m t, Acts C (s.producerDoes C (.load .head) fun head =>
        .busy q.handle (.push value) (pushRest C q.handle value head)) m t → after s m t) :
    Decided C q (.push value) 1 after := by
  have hcalled : (q.called C (ProducerOp.push value)).producer = .busy q.handle (.push value)
      (.act .self fun h => .act (.load .head) fun head => pushRest C h value head) := by
    unfold State.called
    rw [push_code]
  have hone : ∀ {s : State V}, Acts C (q.called C (.push value)) 1 s →
      s.producer = .busy q.handle (.push value) (.act (.load .head) fun head =>
        pushRest C q.handle value head) ∧ s.handle = q.handle := by
    intro s hs
    rcases hs.first hcalled with h0 | ⟨u, h0, hu, hh, h1⟩
    · cases h0
    · obtain ⟨h2, h3⟩ := h1.still rfl
      rw [h2]
      refine ⟨?_, h3.trans hh⟩
      show Thread.busy q.handle (ProducerOp.push value) (.act (.load .head) fun head =>
        pushRest C u.handle value head) = _
      rw [hh]
      rfl
  refine ⟨fun t ht => ht.acts rfl, fun n t ht hn => ?_, fun n t ht hn => ?_, ?_⟩
  · rcases Nat.eq_zero_or_pos n with rfl | hpos
    · obtain ⟨h1, -⟩ := ht.still hcalled
      refine ⟨by rw [State.returning, h1], fun ⟨u, start, op, k, hk, _⟩ => ?_, nofun⟩
      rw [h1] at hk
      cases hk
    · obtain rfl : n = 1 := by omega
      obtain ⟨h1, -⟩ := hone ht
      exact ⟨by rw [State.returning, h1], fun _ => rfl, fun _ => ⟨_, _, _, _, h1, rfl⟩⟩
  · rcases ht.first hcalled with h0 | ⟨u, h0, hu, hh, h1⟩
    · omega
    · rcases h1.first rfl with h2 | ⟨s, h2, hs, _, h3⟩
      · omega
      · refine ⟨s, _, (h0.own hu).trans h2, ⟨_, _, _, hs, rfl⟩, ?_⟩
        rwa [Nat.sub_sub] at h3 ⊢
  · rintro s u hs ⟨start, op, k, hk, rfl⟩ m t ht
    obtain ⟨h1, hh⟩ := hone hs
    have h1' := h1
    rw [hk] at h1
    cases h1
    exact h s hs hh h1' m t ht

theorem reserve_decided {count : ℕ} (hpos : 1 ≤ count) (hle : count ≤ C.N)
    {after : State V → ℕ → State V → Prop}
    (h : ∀ s : State V, Acts C (q.called C (.reserve count)) 0 s → s.handle = q.handle →
      s.producer = .busy q.handle (.reserve count) (.act (.load .head) fun head =>
        reserveRest C count head) →
      ∀ m t, Acts C (s.producerDoes C (.load .head) fun head =>
        .busy q.handle (.reserve count) (reserveRest C count head)) m t → after s m t) :
    Decided C q (.reserve count) 0 after := by
  have hcalled : (q.called C (ProducerOp.reserve count)).producer = .busy q.handle (.reserve count)
      (.act (.load .head) fun head => reserveRest C count head) := by
    unfold State.called
    rw [reserve_code, if_pos ⟨hpos, hle⟩]
  refine ⟨fun t ht => ht.acts rfl, fun n t ht hn => ?_, fun n t ht hn => ?_, ?_⟩
  · obtain rfl := Nat.le_zero.mp hn
    obtain ⟨h1, -⟩ := ht.still hcalled
    exact ⟨by rw [State.returning, h1], fun _ => rfl, fun _ => ⟨_, _, _, _, h1, rfl⟩⟩
  · rcases ht.first hcalled with h0 | ⟨s, h0, hs, _, h1⟩
    · omega
    · exact ⟨s, _, h0, ⟨_, _, _, hs, rfl⟩, h1⟩
  · rintro s u hs ⟨start, op, k, hk, rfl⟩ m t ht
    obtain ⟨h1, hh⟩ := hs.still hcalled
    have h1' := h1
    rw [hk] at h1
    cases h1
    exact h s hs hh h1' m t ht

end calls

/-- Inside a call of the producer its tail is ahead of the shared head by at most the ring. -/
theorem Sound.counters {s : State V} (S : Sound C s) {start : Handle} {op : ProducerOp V}
    {code : Proc Handle V (ProducerStatus × List V)} (hp : s.producer = .busy start op code)
    (hop : op.isJoin = false) :
    s.ch.head ≤ s.handle.producer.tail ∧ s.handle.producer.tail ≤ s.ch.head + C.N := by
  have hb := S.producer
  rw [hp] at hb
  obtain ⟨hb, -⟩ := hb
  unfold producerBound at hb
  rw [hop] at hb
  exact ⟨S.base.head_le.trans hb.1, hb.2⟩

/-- **Backpressure is exact up to one burst.**  In every reachable state let a producer at rest call
`push`, or `reserve` for at most `N` slots.  In every run inside the call the producer loads the
head, after one action of a push and at once in a reservation, and then returns: a push after three
more actions with `Ok`, or at once with `Full`, a reservation after two more with `Ok`, or after one
with `Full`.  If no call of the joined consumer moves its cursor while the head is loaded, and `u`
elements are written and not popped then, a push is `Ok` if `u ≤ N - burst`, in particular if
everything was popped, and `Full` if `u = N`; a reservation of `c` slots is `Ok` if
`u + c ≤ N - burst + 1`, and `Full` if `u + c > N`. -/
theorem backpressure_exact (C : Config) {init : ProducerOp V} (hinit : init.initialises = true)
    (z : V) {q : State V} (h : Reach C (State.initial C init (Channel.zeroed z)) q)
    (hq : q.producer = .rest .ready) :
    (∀ value, q.handle.producer.tail + 1 < 2 ^ C.w →
      Decided C q (.push value) 1 fun s m t =>
        let u := s.handle.producer.tail - s.cursor.head
        (t.EndsAt m 3 (.ready, [value]) ∨ t.EndsAt m 0 (.ready, [])) ∧
        (s.consumerCalm = true →
          (u ≤ C.N - burstAmount C.N ∨ s.cursor.head = s.handle.producer.tail →
            t.EndsAt m 3 (.ready, [value])) ∧
          (u = C.N → t.EndsAt m 0 (.ready, [])))) ∧
    (∀ count, 1 ≤ count → count ≤ C.N → q.handle.producer.tail + count < 2 ^ C.w →
      Decided C q (.reserve count) 0 fun s m t =>
        let u := s.handle.producer.tail - s.cursor.head
        (t.EndsAt m 2 (.reserved, []) ∨ t.EndsAt m 1 (.ready, [])) ∧
        (s.consumerCalm = true →
          (u + count ≤ C.N - burstAmount C.N + 1 → t.EndsAt m 2 (.reserved, [])) ∧
          (u + count > C.N → t.EndsAt m 1 (.ready, [])))) ∧
    (∀ value : V, (Lossless.push C.w C.N value).All (fun _ => True)
      (fun r => r = .ok () ∨ r = .err .full)) ∧
    ∀ count, 1 ≤ count → count ≤ C.N → (Lossless.reserve C.w C.N count : Proc Handle V _).All
      (fun _ => True) (fun r => r = .ok () ∨ r = .err .full) := by
  have S₀ := initial_sound (C := C) hinit (m := Channel.zeroed z) rfl rfl
  have hburst := burstAmount_le C.pos
  -- where the consumer is calm, the head loaded lags by less than a burst
  have hlag : ∀ {s : State V}, Reach C (State.initial C init (Channel.zeroed z)) s →
      s.consumerCalm = true →
      s.ch.head ≤ s.cursor.head ∧ s.cursor.head < s.ch.head + burstAmount C.N ∧
        s.cursor.head ≤ s.ch.tail := by
    intro s hs hcalm
    obtain ⟨h1, h2⟩ := S₀.lag rfl hs hcalm
    obtain ⟨-, h3⟩ := (S₀.run hs).headBound_of_calm hcalm
    simp only [State.consumerView] at h1 h2 h3
    exact ⟨by omega, by omega, h3⟩
  have hreach : ∀ (op : ProducerOp V) {n s}, op.enabled .ready = true →
      q.handle.producer.tail + op.demand C < 2 ^ C.w → Acts C (q.called C op) n s →
      Reach C (State.initial C init (Channel.zeroed z)) s := fun op _ _ hen hlt hs =>
    (h.tail (.producerCall op hq hen hlt)).trans hs.reach
  refine ⟨fun value hlt => push_decided fun s hs hh hp m t ht => ?_,
    fun count hpos hle hlt => reserve_decided hpos hle fun s hs hh hp m t ht => ?_,
    fun value => push_error value, fun count => reserve_error⟩
  · have hr := hreach (.push value) rfl hlt hs
    obtain ⟨h1, h2⟩ := (S₀.run hr).counters hp rfl
    have hiff := eq_wadd_iff (w := C.w) (t := s.handle.producer.tail) (by rw [hh]; omega) C.fits h1
    rw [← hh] at ht
    intro u
    by_cases hf : s.handle.producer.tail = s.ch.head + C.N
    · have hend : t.EndsAt m 0 (.ready, []) := ht.endsAt rfl (pushRest_full value (hiff.mpr hf))
      refine ⟨.inr hend, fun hcalm => ⟨fun hu => ?_, fun _ => hend⟩⟩
      have := hlag hr hcalm
      omega
    · have hend : t.EndsAt m 3 (.ready, [value]) :=
        ht.endsAt rfl (pushRest_ok value fun e => hf (hiff.mp e))
      refine ⟨.inl hend, fun hcalm => ⟨fun _ => hend, fun hu => ?_⟩⟩
      have := hlag hr hcalm
      omega
  · have hdemand : ProducerOp.demand C (.reserve count : ProducerOp V) = count := if_pos hle
    have hr := hreach (.reserve count) rfl (by rw [hdemand]; exact hlt) hs
    obtain ⟨h1, h2⟩ := (S₀.run hr).counters hp rfl
    have hword : s.handle.producer.tail < 2 ^ C.w := by rw [hh]; omega
    have hspace : wsub C.w C.N (wsub C.w s.handle.producer.tail s.ch.head) =
        C.N - (s.handle.producer.tail - s.ch.head) := by
      rw [wsub_of_le h1 hword, wsub_of_le (by omega) C.fits]
    intro u
    by_cases hf : count > wsub C.w C.N (wsub C.w s.handle.producer.tail s.ch.head)
    · have hend : t.EndsAt m 1 (.ready, []) :=
        ht.endsAt rfl (reserveRest_full hf)
      rw [hspace] at hf
      refine ⟨.inr hend, fun hcalm => ⟨fun hu => ?_, fun _ => hend⟩⟩
      have := hlag hr hcalm
      omega
    · have hend : t.EndsAt m 2 (.reserved, []) :=
        ht.endsAt rfl (reserveRest_ok hf)
      rw [hspace] at hf
      refine ⟨.inl hend, fun hcalm => ⟨fun _ => hend, fun hu => ?_⟩⟩
      have := hlag hr hcalm
      omega

/-- The producer is about to load the head. -/
def State.loadingHead (s : State V) : Bool :=
  match s.producer with
  | .busy _ _ (.act (.load .head) _) => true
  | _ => false

/-- A ring of eight slots of which the consumer has popped one element and still shows a head of
zero, while six elements are not yet popped; and the call `op`: where it is made, where it loads the
head after `before` actions, and what follows in the next action and in `m` further ones. -/
def callRun (op : ProducerOp ℕ) (before m : ℕ) :
    Option (State ℕ × State ℕ × State ℕ × State ℕ) :=
  ((State.initial Config.eight .joinOrInitializeIn (Channel.zeroed 0)).moves Config.eight
    (consumerRuns .join 8 ++ producerRuns (.push 0) 6 ++ producerRuns .sync 4 ++
      consumerRuns .pop 7 ++ [1, 2, 3, 4, 5, 6].flatMap fun v => producerRuns (.push v) 6)).bind
    fun q => ((q.called Config.eight op).movesDuring Config.eight
      (List.replicate before .producerGo)).bind fun s =>
        (s.movesDuring Config.eight [.producerGo]).bind fun u =>
          (u.movesDuring Config.eight (List.replicate m .producerGo)).map fun t => (q, s, u, t)

theorem callRun_spec {op : ProducerOp ℕ} {before m : ℕ} {q s u t : State ℕ}
    (h : callRun op before m = some (q, s, u, t)) (hs : s.loadingHead = true) :
    Reach Config.eight (State.initial Config.eight .joinOrInitializeIn (Channel.zeroed 0)) q ∧
      Acts Config.eight (q.called Config.eight op) before s ∧ LoadsHead Config.eight s u ∧
      Acts Config.eight u m t := by
  simp only [callRun, Option.bind_eq_some_iff, Option.map_eq_some_iff] at h
  obtain ⟨q', hq, s', hs', u', hu, t', ht, e⟩ := h
  cases e
  obtain ⟨u', hmove, hcall, hu'⟩ := State.movesDuring_cons hu
  cases hu'
  refine ⟨State.moves_reach hq, acts_of_replicate rfl hs', ?_, acts_of_replicate hcall ht⟩
  unfold State.loadingHead at hs
  split at hs
  · next start op' k hp =>
      simp only [State.move, hp, Option.some.injEq] at hmove
      exact ⟨start, op', k, hp, hmove.symm⟩
  · cases hs

/-- There is space for another element and for a reservation of one slot, a burst being two; not for
a reservation of three. -/
theorem backpressure_exact_six :
    (∃ q s u t, callRun (.push 7) 1 3 = some (q, s, u, t) ∧ s.ch.head = 0 ∧
      s.handle.producer.tail - s.cursor.head = 6 ∧ t.returning = some (.ready, [7])) ∧
    (∃ q s u t, callRun (.reserve 1) 0 2 = some (q, s, u, t) ∧
      t.returning = some (.reserved, [])) ∧
    ∃ q s u t, callRun (.reserve 3) 0 1 = some (q, s, u, t) ∧ t.returning = some (.ready, []) := by
  have hrun : ∀ op before m, ((callRun op before m).map fun r => (r.1.resting,
      r.2.1.loadingHead && r.2.1.consumerCalm,
      [r.1.handle.producer.tail, r.2.1.ch.head, r.2.1.handle.producer.tail, r.2.1.cursor.head])) =
        some (some .ready, true, [7, 0, 7, 1]) →
      ∃ q s u t, callRun op before m = some (q, s, u, t) ∧ q.producer = .rest .ready ∧
        q.handle.producer.tail = 7 ∧ s.loadingHead = true ∧ s.consumerCalm = true ∧
        s.ch.head = 0 ∧ s.handle.producer.tail - s.cursor.head = 6 := by
    intro op before m h
    obtain ⟨⟨q, s, u, t⟩, hr, e⟩ := Option.map_eq_some_iff.mp h
    simp only [Prod.mk.injEq, Bool.and_eq_true, List.cons.injEq, and_true] at e
    obtain ⟨h1, ⟨h2, h3⟩, h4, h5, h6, h7⟩ := e
    exact ⟨q, s, u, t, hr, State.rest_of_resting h1, h4, h2, h3, h5, by omega⟩
  refine ⟨?_, ?_, ?_⟩
  · obtain ⟨q, s, u, t, hr, hq, htail, hload, hcalm, hhead, hsix⟩ :=
      hrun (.push 7) 1 3 (by decide +kernel)
    obtain ⟨h, hs, hu, ht⟩ := callRun_spec hr hload
    have hpush := (backpressure_exact _ rfl 0 h hq).1 7 (by rw [htail]; decide)
    have hend := ((hpush.result s u hs hu 3 t ht).2 hcalm).1 (.inl (by rw [hsix]; decide))
    exact ⟨q, s, u, t, hr, hhead, hsix, hend.2⟩
  · obtain ⟨q, s, u, t, hr, hq, htail, hload, hcalm, hhead, hsix⟩ :=
      hrun (.reserve 1) 0 2 (by decide +kernel)
    obtain ⟨h, hs, hu, ht⟩ := callRun_spec hr hload
    have hres := (backpressure_exact _ rfl 0 h hq).2.1 1 le_rfl (by decide)
      (by rw [htail]; decide)
    have hend := ((hres.result s u hs hu 2 t ht).2 hcalm).1 (by rw [hsix]; decide)
    exact ⟨q, s, u, t, hr, hend.2⟩
  · obtain ⟨q, s, u, t, hr, hq, htail, hload, hcalm, hhead, hsix⟩ :=
      hrun (.reserve 3) 0 1 (by decide +kernel)
    obtain ⟨h, hs, hu, ht⟩ := callRun_spec hr hload
    have hres := (backpressure_exact _ rfl 0 h hq).2.1 3 (by decide) (by decide)
      (by rw [htail]; decide)
    have hend := ((hres.result s u hs hu 1 t ht).2 hcalm).2 (by rw [hsix]; decide)
    exact ⟨q, s, u, t, hr, hend.2⟩

end Que.Lossless
