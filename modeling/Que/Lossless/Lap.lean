import Que.Lossless.Wrap

/-! # The channel across the wrap

What the lossless channel does when its counters have wrapped.  Positions are those of the run
beside it in which nothing wraps (`Twins`).

* What was received stays the published sequence, and `push` and `reserve` report `Full` by the
  number of occupied slots: differences of words do not notice the wrap.
* `pop` compares two words, `tail <= head`.  It answers as it should exactly while the published
  position and the position of the consumer are in the same lap of `2 ^ w` positions
  (`Image.survives_iff`); while the wrap lies between them it returns `None`, although elements are
  published. -/

namespace Que.Lossless

open Lib

variable {V : Type}

/-! ### What should hold in every state -/

/-- The slots that are not free, as far as the producer can see. -/
def State.occupied (u : State V) : ℕ := u.handle.producer.tail - u.ch.head

/-- The next position that the live consumer has not been given. -/
def State.next (u : State V) : ℕ := u.joinedAt + u.received.length

/-- The channel works in the state `s` with wrapped counters, of which `u` is the state with
positions: what was received is the published sequence, the next pop continues it, and pushes and
reservations fail exactly when the ring is too full. -/
structure Survives (C : Config) (s u : State V) : Prop where
  received : s.received.map some =
    (List.range s.received.length).map fun i => u.published (u.joinedAt + i)
  oldest : s.consumer = .rest .ready → u.next < u.ch.tail →
    ∃ v, u.published u.next = some v ∧ ((pop C.w C.N).run C.w s.ch s.cursor).1 = some v
  caughtUp : s.consumer = .rest .ready → u.next = u.ch.tail →
    ((pop C.w C.N).run C.w s.ch s.cursor).1 = none
  push : s.producer = .rest .ready → ∀ v,
    ((push C.w C.N v).run C.w s.ch s.handle).1 =
      if u.occupied = C.N then .err .full else .ok ()
  reserve : s.producer = .rest .ready → ∀ count, 1 ≤ count → count ≤ C.N →
    ((reserve C.w C.N count : Proc Handle V _).run C.w s.ch s.handle).1 =
      if u.occupied + count ≤ C.N then .ok () else .err .full

/-- The published position and the next position of a consumer at rest are in the same lap. -/
def SameLap (C : Config) (s u : State V) : Prop :=
  s.consumer = .rest .ready → u.next / 2 ^ C.w = u.ch.tail / 2 ^ C.w

/-! ### Words of one lap -/

section words
variable {M a b : ℕ}

/-- In one lap, words are ordered as positions are. -/
theorem mod_le_mod_iff (h : a / M = b / M) : b % M ≤ a % M ↔ b ≤ a := by
  have ha := Nat.div_add_mod a M
  have hb := Nat.div_add_mod b M
  rw [h] at ha
  omega

/-- Across a wrap, the later position has the smaller word. -/
theorem mod_lt_mod (hle : a ≤ b) (hlt : b < a + M) (h : a / M ≠ b / M) : b % M < a % M := by
  have hM : 0 < M := by omega
  have hdiv : a / M + 1 ≤ b / M := by
    have := Nat.div_le_div_right (c := M) hle
    omega
  have hmul : M * (a / M + 1) ≤ M * (b / M) := Nat.mul_le_mul_left _ hdiv
  rw [Nat.mul_add] at hmul
  have ha := Nat.div_add_mod a M
  have hb := Nat.div_add_mod b M
  omega

theorem mod_sub_mod (hle : a ≤ b) (hlt : b < a + M) (h : a % M ≤ b % M) :
    b % M - a % M = b - a := by
  have hdiv : a / M = b / M := by
    by_contra hne
    have := mod_lt_mod hle hlt hne
    omega
  have ha := Nat.div_add_mod a M
  have hb := Nat.div_add_mod b M
  rw [hdiv] at ha
  omega

end words

/-! ### The calls on wrapped counters -/

section calls
variable {C : Config} {w' : ℕ} {hw : C.w ≤ w'} {s u : State V}

theorem run_pop (ch : Channel V) (c : Consumer) :
    ((pop C.w C.N).run C.w ch c).1 =
      if ch.tail ≤ c.head then none else some (ch.buffer (slot C.N c.head)) := by
  simp only [pop, Proc.run_bind, Proc.run_self, Proc.run_load, Proc.run_ite, Prog.pure_eq_ret,
    Proc.run_ret, Proc.run_read, and_moduloMask]
  split_ifs with h1 h2 h2
  · rfl
  · exact absurd h1 h2
  · exact absurd h2 h1
  · rfl

theorem Image.consumer_ready (I : Image C w' s u) (h : s.consumer = .rest .ready) :
    u.consumer = .rest .ready := by
  have himage := I.consumer
  rw [h] at himage
  generalize hq : u.consumer = thread at himage
  cases himage with
  | rest _ => rfl

theorem Image.producer_ready (I : Image C w' s u) (h : s.producer = .rest .ready) :
    u.producer = .rest .ready := by
  have himage := I.producer
  rw [h] at himage
  generalize hq : u.producer = thread at himage
  cases himage with
  | rest _ => rfl

theorem Image.run_pop (I : Image C w' s u) :
    ((pop C.w C.N).run C.w s.ch s.cursor).1 =
      if u.ch.tail % 2 ^ C.w ≤ u.cursor.head % 2 ^ C.w then none
      else some (u.ch.buffer (slot C.N u.cursor.head)) := by
  have hword : s.ch.tail = u.ch.tail % 2 ^ C.w := I.ch.word .tail
  rw [Lossless.run_pop, hword, I.cursor.head, I.ch.buffer, slot_mod C.pow C.fits]

/-- A push, in terms of positions: the test for a full ring does not notice the wrap. -/
theorem Image.run_push (I : Image C w' s u) (S : Sound (C.widen w' hw) u)
    (hp : u.producer = .rest .ready) (v : V) :
    ((push C.w C.N v).run C.w s.ch s.handle).1 =
      if u.occupied = C.N then .err .full else .ok () := by
  have hf := S.producer
  rw [hp] at hf
  obtain ⟨h1, h2⟩ : TailBound (C.widen w' hw) u.producerView := Ready.tailBound hf
  have hlow : u.ch.head ≤ u.handle.producer.tail := S.base.head_le.trans h1
  have hhigh : u.handle.producer.tail ≤ u.ch.head + C.N := h2
  have hword : s.ch.head = u.ch.head % 2 ^ C.w := I.ch.word .head
  have hfits := C.fits
  have hfull : s.handle.producer.tail = wadd C.w s.ch.head C.N ↔ u.occupied = C.N := by
    unfold wadd State.occupied
    rw [I.handle.tail, hword, Nat.mod_add_mod, mod_eq_iff hhigh (by omega)]
    omega
  simp only [Lossless.push, Proc.run_bind, Proc.run_self, Proc.run_load, Proc.run_ite,
    Proc.run_assign, Proc.run_update, Prog.pure_eq_ret, Proc.run_ret, Channel.get, hfull]
  split_ifs <;> rfl

/-- A reservation, in terms of positions: neither does the free space. -/
theorem Image.run_reserve (I : Image C w' s u) (S : Sound (C.widen w' hw) u)
    (hp : u.producer = .rest .ready) {count : ℕ} (hpos : 1 ≤ count) (hle : count ≤ C.N) :
    ((reserve C.w C.N count : Proc Handle V _).run C.w s.ch s.handle).1 =
      if u.occupied + count ≤ C.N then .ok () else .err .full := by
  have hf := S.producer
  rw [hp] at hf
  obtain ⟨h1, h2⟩ : TailBound (C.widen w' hw) u.producerView := Ready.tailBound hf
  have hlow : u.ch.head ≤ u.handle.producer.tail := S.base.head_le.trans h1
  have hhigh : u.handle.producer.tail ≤ u.ch.head + C.N := h2
  have hword : s.ch.head = u.ch.head % 2 ^ C.w := I.ch.word .head
  have hfits := C.fits
  have hspace : wsub C.w C.N (wsub C.w s.handle.producer.tail s.ch.head) = C.N - u.occupied := by
    rw [I.handle.tail, hword, wsub_mod, wsub_of_sub_lt hlow (by omega), wsub_of_le (by omega) hfits]
    rfl
  have hz : ¬ count = 0 := by omega
  simp only [Lossless.reserve, hz, Nat.not_lt.mpr hle, if_false, Proc.run_bind, Proc.run_self,
    Proc.run_load, Proc.run_ite, Proc.run_update, Prog.pure_eq_ret, Proc.run_ret, Channel.get,
    hspace]
  by_cases hroom : u.occupied + count ≤ C.N
  · rw [if_pos hroom, if_neg (by omega)]
  · rw [if_neg hroom, if_pos (by omega)]

/-- What a consumer at rest knows of its position. -/
theorem Sound.next_bounds (S : Sound C u) (hc : u.consumer = .rest .ready) :
    u.next = u.cursor.head ∧ u.cursor.head ≤ u.ch.tail ∧ u.ch.tail ≤ u.cursor.head + C.N ∧
      (u.cursor.head < u.ch.tail →
        u.published u.cursor.head = some (u.ch.buffer (slot C.N u.cursor.head))) := by
  have hf := S.consumer
  have hh := S.handed
  rw [hc] at hf hh
  exact ⟨hh (by simp), hf.2.le_tail, hf.2.room, hf.2.value _ le_rfl⟩

/-- **The channel works in a state if and only if the published position and the consumer's are in
the same lap.** -/
theorem Image.survives_iff (I : Image C w' s u) (S : Sound (C.widen w' hw) u) :
    Survives C s u ↔ SameLap C s u := by
  have hfits := C.fits
  constructor
  · intro h hc
    obtain ⟨hnext, h1, h2, -⟩ := S.next_bounds (I.consumer_ready hc)
    have h3 : u.ch.tail ≤ u.cursor.head + C.N := h2
    by_contra hne
    rw [hnext] at hne
    have hlt : u.cursor.head < u.ch.tail := by
      refine lt_of_le_of_ne h1 fun e => hne ?_
      rw [e]
    obtain ⟨v, -, hv⟩ := h.oldest hc (by rwa [hnext])
    have hwrap := mod_lt_mod h1 (by omega) hne
    rw [I.run_pop, if_pos hwrap.le] at hv
    cases hv
  · intro h
    refine ⟨?_, fun hc hlt => ?_, fun hc heq => ?_, fun hp v => ?_, fun hp count hpos hle => ?_⟩
    · rw [I.received]
      exact S.received_eq
    · obtain ⟨hnext, h1, h2, hvalue⟩ := S.next_bounds (I.consumer_ready hc)
      have hlap := h hc
      rw [hnext] at hlap hlt ⊢
      refine ⟨_, hvalue hlt, ?_⟩
      have hnot : ¬ u.ch.tail % 2 ^ C.w ≤ u.cursor.head % 2 ^ C.w := by
        rw [mod_le_mod_iff hlap]
        omega
      rw [I.run_pop, if_neg hnot]
      rfl
    · obtain ⟨hnext, -⟩ := S.next_bounds (I.consumer_ready hc)
      rw [I.run_pop, if_pos]
      rw [← heq, hnext]
    · exact I.run_push S (I.producer_ready hp) v
    · exact I.run_reserve S (I.producer_ready hp) hpos hle

end calls

/-! ### Calls made alone -/

section alone
variable {C : Config} {s : State V}

/-- The other side and its structure are as they were. -/
structure SameConsumer (s t : State V) : Prop where
  consumer : t.consumer = s.consumer
  cursor : t.cursor = s.cursor

structure SameProducer (s t : State V) : Prop where
  producer : t.producer = s.producer
  handle : t.handle = s.handle

def State.producerFinishes (C : Config) (start : Handle) (op : ProducerOp V) :
    Proc Handle V (ProducerStatus × List V) → State V → State V
  | .ret r, s => { s with producer := .rest r.1, wrote := wroteAfter op start r.2 s.wrote }
  | .act a k, s =>
      producerFinishes C start op (k (a.step C.w (s.ch, s.handle)).1)
        (s.producerDoes C a fun x => .busy start op (k x))

def State.consumerFinishes (C : Config) (start : Consumer) (op : ConsumerOp V) :
    Proc Consumer V (ConsumerStatus × Option V) → State V → State V
  | .ret r, s =>
      { s with
        consumer := .rest r.1
        joinedAt := if op.isJoin then s.cursor.head else s.joinedAt
        received := s.receivedAfter op r }
  | .act a k, s =>
      consumerFinishes C start op (k (a.step C.w (s.ch, s.cursor)).1)
        (s.consumerDoes C a fun x => .busy start op (k x))

/-- The producer makes a call and finishes it, while nothing else moves. -/
def State.producerCalls (C : Config) (op : ProducerOp V) (s : State V) : State V :=
  State.producerFinishes C s.handle op (op.code C)
    { s with producer := .busy s.handle op (op.code C) }

/-- The consumer, at the status `st`, makes a call and finishes it. -/
def State.consumerCalls (C : Config) (st : ConsumerStatus) (op : ConsumerOp V) (s : State V) :
    State V :=
  State.consumerFinishes C s.cursor op (op.code C st)
    { s with consumer := .busy s.cursor op (op.code C st) }

/-- A call of the producer that is finished alone: a run of the system, with the effect of the code
on the channel and the handle. -/
theorem producerFinishes_run {start : Handle} {op : ProducerOp V}
    (code : Proc Handle V (ProducerStatus × List V)) (hp : s.producer = .busy start op code) :
    let t := s.producerFinishes C start op code
    Reach C s t ∧ t.producer = .rest (code.run C.w s.ch s.handle).1.1 ∧
      t.ch = (code.run C.w s.ch s.handle).2.1 ∧ t.handle = (code.run C.w s.ch s.handle).2.2 ∧
      SameConsumer s t := by
  induction code generalizing s with
  | ret r => exact ⟨.single (.producerReturn hp), rfl, rfl, rfl, rfl, rfl⟩
  | act a k ih =>
      obtain ⟨hr, h1, h2, h3, h4⟩ :=
        ih _ (s := s.producerDoes C a fun x => .busy start op (k x)) rfl
      exact ⟨.head (.producerAct hp) hr, h1, h2, h3, h4.consumer, h4.cursor⟩

theorem consumerFinishes_run {start : Consumer} {op : ConsumerOp V}
    (code : Proc Consumer V (ConsumerStatus × Option V)) (hc : s.consumer = .busy start op code) :
    let t := s.consumerFinishes C start op code
    Reach C s t ∧ t.consumer = .rest (code.run C.w s.ch s.cursor).1.1 ∧
      t.ch = (code.run C.w s.ch s.cursor).2.1 ∧ t.cursor = (code.run C.w s.ch s.cursor).2.2 ∧
      SameProducer s t := by
  induction code generalizing s with
  | ret r => exact ⟨.single (.consumerReturn hc), rfl, rfl, rfl, rfl, rfl⟩
  | act a k ih =>
      obtain ⟨hr, h1, h2, h3, h4⟩ :=
        ih _ (s := s.consumerDoes C a fun x => .busy start op (k x)) rfl
      exact ⟨.head (.consumerAct hc) hr, h1, h2, h3, h4.producer, h4.handle⟩

theorem Reach.wrap {t : State V} (h : Reach C s t) : WrapReach C s t := by
  induction h with
  | refl => exact .refl
  | tail _ hstep ih => exact .tail ih (.step hstep)

theorem producerCalls_run {st : ProducerStatus} (op : ProducerOp V) (hp : s.producer = .rest st)
    (hen : op.enabled st = true) :
    let t := s.producerCalls C op
    WrapReach C s t ∧ t.producer = .rest ((op.code C).run C.w s.ch s.handle).1.1 ∧
      t.ch = ((op.code C).run C.w s.ch s.handle).2.1 ∧
      t.handle = ((op.code C).run C.w s.ch s.handle).2.2 ∧ SameConsumer s t := by
  obtain ⟨hr, h1, h2, h3, h4⟩ := producerFinishes_run (C := C)
    (s := { s with producer := .busy s.handle op (op.code C) }) (op.code C) rfl
  exact ⟨.head (.producerCall op hp hen) hr.wrap, h1, h2, h3, h4.consumer, h4.cursor⟩

theorem consumerCalls_run {st : ConsumerStatus} (op : ConsumerOp V) (hc : s.consumer = .rest st)
    (hen : op.enabled st = true) :
    let t := s.consumerCalls C st op
    WrapReach C s t ∧ t.consumer = .rest ((op.code C st).run C.w s.ch s.cursor).1.1 ∧
      t.ch = ((op.code C st).run C.w s.ch s.cursor).2.1 ∧
      t.cursor = ((op.code C st).run C.w s.ch s.cursor).2.2 ∧ SameProducer s t := by
  obtain ⟨hr, h1, h2, h3, h4⟩ := consumerFinishes_run (C := C)
    (s := { s with consumer := .busy s.cursor op (op.code C st) }) (op.code C st) rfl
  exact ⟨.head (.step (.consumerCall op hc hen)) hr.wrap, h1, h2, h3, h4.producer, h4.handle⟩

end alone

/-! ### A run to the wrap -/

/-- A ring of two slots on which the producer has published the word `t`, and of which the consumer
has taken and given back everything before the word `p`. -/
structure At (t p : ℕ) (s : State V) : Prop where
  tail : s.ch.tail = t
  head : s.ch.head = p
  local_tail : s.handle.producer.tail = t
  cursor : s.cursor.head = p
  items : s.cursor.itemsSinceLastSync = 0
  producer : s.producer = .rest .ready
  consumer : s.consumer = .rest .ready

theorem At.pushed {p : ℕ} {s : State V} (h : At p p s) (hp : p < 2 ^ 64) (v : V) :
    ∃ t, WrapReach Config.small s t ∧ At (wadd 64 p 1) p t := by
  have hfull : ¬ p = wadd 64 p 2 := by
    rw [eq_wadd_iff hp (by decide) le_rfl]
    omega
  have hpush : ((ProducerOp.push v).code Config.small).run 64 s.ch s.handle =
      ((.ready, [v]), s.ch.write (p &&& moduloMask 2) v,
        (s.handle.setTail (wadd 64 p 1)).setWritten (wadd 64 s.handle.producer.written 1)) := by
    simp [ProducerOp.code, push, Config.small, Channel.get, h.local_tail, h.head, hfull,
      Handle.setTail]
  obtain ⟨hr, h1, h2, h3, h4⟩ := producerCalls_run (C := Config.small) (.push v) h.producer rfl
  generalize s.producerCalls Config.small (.push v) = t at hr h1 h2 h3 h4
  rw [show Config.small.w = 64 from rfl, hpush] at h1 h2 h3
  obtain ⟨hr', h1', h2', h3', h4'⟩ := producerCalls_run (C := Config.small) .sync h1 rfl
  generalize t.producerCalls Config.small .sync = t' at hr' h1' h2' h3' h4'
  refine ⟨t', hr.trans hr', ?_, ?_, ?_, ?_, ?_, h1', ?_⟩
  · simp [h2', ProducerOp.code, sync, h3, Handle.setTail, Handle.setWritten, Channel.set]
  · simp [h2', ProducerOp.code, sync, Channel.set, h2, Channel.write, h.head]
  · simp [h3', ProducerOp.code, sync, h3, Handle.setTail, Handle.setWritten]
  · rw [h4'.cursor, h4.cursor, h.cursor]
  · rw [h4'.cursor, h4.cursor, h.items]
  · rw [h4'.consumer, h4.consumer, h.consumer]

/-- The consumer takes it, unless the tail has wrapped. -/
theorem At.popped {p : ℕ} {s : State V} (h : At (p + 1) p s) (hp : p + 1 < 2 ^ 64) :
    ∃ t, WrapReach Config.small s t ∧ At (p + 1) (p + 1) t := by
  have hadd : wadd 64 p 1 = p + 1 := wadd_of_lt hp
  have hone : wadd 64 0 1 = 1 := by decide
  obtain ⟨hr, h1, h2, h3, h4⟩ := consumerCalls_run (C := Config.small) .pop h.consumer rfl
  generalize s.consumerCalls Config.small .ready .pop = t at hr h1 h2 h3 h4
  have hpop : ((ConsumerOp.pop : ConsumerOp V).code Config.small .ready).run 64 s.ch s.cursor =
      ((.ready, some (s.ch.buffer (p &&& moduloMask 2))), s.ch.set .head (p + 1),
        { s.cursor with head := p + 1, itemsSinceLastSync := 0 }) := by
    have hnot : ¬ p + 1 ≤ p := by omega
    simp [ConsumerOp.code, pop, maybeSync, Config.small, Channel.get, h.tail, h.cursor, h.items,
      hadd, hone, burstAmount, hnot]
  rw [show Config.small.w = 64 from rfl, hpop] at h1 h2 h3
  refine ⟨t, hr, ?_, ?_, ?_, ?_, ?_, ?_, h1⟩
  · rw [h2]
    exact h.tail
  · rw [h2]
    rfl
  · rw [h4.handle, h.local_tail]
  · rw [h3]
  · rw [h3]
  · rw [h4.producer, h.producer]

theorem exists_at (op : ProducerOp V) (hop : op.initialises = true) (z : V) {p : ℕ}
    (hp : p < 2 ^ 64) :
    ∃ s, WrapReach Config.small (State.initial Config.small op (.zeroed z)) s ∧ At p p s := by
  induction p with
  | zero =>
      have F := initial_fresh (C := Config.small) hop (m := .zeroed z) rfl
      obtain ⟨hr, h1, h2, h3, h4⟩ := consumerCalls_run (C := Config.small)
        (s := State.initial Config.small op (.zeroed z)) .join rfl rfl
      generalize State.consumerCalls Config.small .gone .join _ = t at hr h1 h2 h3 h4
      generalize State.initial Config.small op (.zeroed z) = s at F hr h1 h2 h3 h4
      have hjoin : (ConsumerOp.join.code Config.small .gone).run 64 s.ch s.cursor =
          ((.ready, none), (s.ch.set .head 0).set .strong (wadd 64 s.ch.strong 1),
            ⟨0, 0, s.ch.producerHeartbeat⟩) := by
        have hvalid : validBuffer 2 0 = true := Config.small.valid
        have hcap : s.ch.capacity = 2 := F.capacity
        simp [ConsumerOp.code, joinConsumer, hvalid, Channel.get, F.magic, hcap, F.tail,
          incrementStrongCount, Mode.backedByArcc, ConsumerOp.install, Channel.set, Config.small]
      rw [show Config.small.w = 64 from rfl, hjoin] at h1 h2 h3
      refine ⟨t, hr, ?_, ?_, ?_, ?_, ?_, ?_, h1⟩
      · rw [h2]
        exact F.tail
      · rw [h2]
        rfl
      · rw [h4.handle, F.handle]
      · rw [h3]
      · rw [h3]
      · rw [h4.producer, F.producer]
  | succ p ih =>
      obtain ⟨s, hs, h⟩ := ih (by omega)
      obtain ⟨t, ht, h⟩ := h.pushed (by omega) z
      rw [wadd_of_lt hp] at h
      obtain ⟨u, hu, h⟩ := h.popped hp
      exact ⟨u, (hs.trans ht).trans hu, h⟩

/-! ### Results -/

theorem exists_twins {C : Config} {op : ProducerOp V} (hop : op.initialises = true) {z : V}
    {s : State V} (h : WrapReach C (State.initial C op (.zeroed z)) s) :
    ∃ w', ∃ hw : C.w ≤ w', ∃ u, Twins C hw op z s u := by
  obtain ⟨n, hn⟩ := WrapReach.twins hop h
  have hbig : (n + 2) * C.N < 2 ^ (C.w + (n + 2) * C.N) :=
    calc (n + 2) * C.N < 2 ^ ((n + 2) * C.N) := Nat.lt_two_pow_self
      _ ≤ 2 ^ (C.w + (n + 2) * C.N) := Nat.pow_le_pow_right Nat.two_pos (Nat.le_add_left _ _)
  obtain ⟨u, T, -⟩ := hn _ (Nat.le_add_right _ _) hbig
  exact ⟨_, _, u, T⟩

/-- **Across the wrap.**  Every run, however often its counters wrap, has a run beside it in which
they do not; and the channel works in the state reached exactly when no wrap lies between what the
consumer has taken and what is published. -/
theorem survives_wrap_iff (C : Config) {op : ProducerOp V} (hop : op.initialises = true) (z : V)
    {s : State V} (h : WrapReach C (State.initial C op (.zeroed z)) s) :
    (∃ w', ∃ hw : C.w ≤ w', ∃ u, Twins C hw op z s u) ∧
    ∀ w' (hw : C.w ≤ w') u, Twins C hw op z s u → (Survives C s u ↔ SameLap C s u) :=
  ⟨exists_twins hop h, fun _ _ _ T => (T.image hop).survives_iff (T.sound hop)⟩

/-- Shortly before the wrap, with one element published: the channel works. -/
theorem survives_wrap_last : ∃ s : State ℕ,
    WrapReach Config.small (State.initial Config.small .joinOrInitializeIn (.zeroed 0)) s ∧
    s.consumer = .rest .ready ∧ s.cursor.head = 2 ^ 64 - 2 ∧ s.ch.tail = 2 ^ 64 - 1 ∧
    ∀ w' (hw : Config.small.w ≤ w') u, Twins Config.small hw .joinOrInitializeIn 0 s u →
      Survives Config.small s u := by
  obtain ⟨s, hs, h⟩ := exists_at (V := ℕ) .joinOrInitializeIn rfl 0
    (show 2 ^ 64 - 2 < 2 ^ 64 by decide)
  obtain ⟨t, ht, h⟩ := h.pushed (by decide) 7
  have hlast : wadd 64 (2 ^ 64 - 2) 1 = 2 ^ 64 - 1 := by decide
  rw [hlast] at h
  refine ⟨t, hs.trans ht, h.consumer, h.cursor, h.tail, fun w' hw u T => ?_⟩
  apply ((survives_wrap_iff Config.small rfl 0 (hs.trans ht)).2 w' hw u T).mpr
  intro hc
  have I := T.image rfl
  obtain ⟨hnext, hle, hroom, -⟩ := (T.sound rfl).next_bounds (I.consumer_ready hc)
  have htail : 2 ^ 64 - 1 = u.ch.tail % 2 ^ 64 := h.tail.symm.trans (I.ch.word .tail)
  have hhead : 2 ^ 64 - 2 = u.cursor.head % 2 ^ 64 := h.cursor.symm.trans I.cursor.head
  have hnear : u.ch.tail ≤ u.cursor.head + 2 := hroom
  by_contra hne
  rw [hnext] at hne
  have := mod_lt_mod (M := 2 ^ 64) hle (by omega) hne
  omega

/-- **The first wrap**: the words are 64 bits wide, one element is published and not yet popped, and
`pop` returns `None`. -/
theorem not_survives_wrap : ∃ s : State ℕ,
    WrapReach Config.small (State.initial Config.small .joinOrInitializeIn (.zeroed 0)) s ∧
    s.consumer = .rest .ready ∧ s.cursor.head = 2 ^ 64 - 1 ∧ s.ch.tail = 0 ∧
    (∃ w', ∃ hw : Config.small.w ≤ w', ∃ u, Twins Config.small hw .joinOrInitializeIn 0 s u) ∧
    ∀ w' (hw : Config.small.w ≤ w') u, Twins Config.small hw .joinOrInitializeIn 0 s u →
      u.next < u.ch.tail ∧ ((pop 64 2).run 64 s.ch s.cursor).1 = none ∧
      ¬ Survives Config.small s u := by
  obtain ⟨s, hs, h⟩ := exists_at (V := ℕ) .joinOrInitializeIn rfl 0
    (show 2 ^ 64 - 1 < 2 ^ 64 by decide)
  obtain ⟨t, ht, h⟩ := h.pushed (by decide) 7
  have hzero : wadd 64 (2 ^ 64 - 1) 1 = 0 := by decide
  rw [hzero] at h
  refine ⟨t, hs.trans ht, h.consumer, h.cursor, h.tail, exists_twins rfl (hs.trans ht), ?_⟩
  intro w' hw u T
  have I := T.image rfl
  have S := T.sound rfl
  obtain ⟨hnext, hle, -, -⟩ := S.next_bounds (I.consumer_ready h.consumer)
  have htail : 0 = u.ch.tail % 2 ^ 64 := h.tail.symm.trans (I.ch.word .tail)
  have hhead : 2 ^ 64 - 1 = u.cursor.head % 2 ^ 64 := h.cursor.symm.trans I.cursor.head
  have hlt : u.next < u.ch.tail := by
    rw [hnext]
    apply lt_of_le_of_ne hle
    intro e
    rw [e, ← htail] at hhead
    cases hhead
  have hpop : ((pop 64 2).run 64 t.ch t.cursor).1 = none := by
    have hrun := run_pop (C := Config.small) t.ch t.cursor
    rwa [h.tail, if_pos (Nat.zero_le _)] at hrun
  refine ⟨hlt, hpop, fun hsurvives => ?_⟩
  obtain ⟨v, -, hv⟩ := hsurvives.oldest h.consumer hlt
  exact absurd (hpop.symm.trans hv) (by simp)

end Que.Lossless
