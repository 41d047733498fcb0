import Que.Lossless.Lap

/-! # Draining the channel

The producer publishes everything, the consumer pops until `pop` returns `None`, and the producer
then reserves space.

* **The lag.** The consumer publishes its head once a burst, also while it drains the channel.  So
  the head that `reserve` loads is behind by the elements popped since then (`Lagging`): what had
  been popped before plus what is drained, modulo the burst.
* **Reservations.** After the drain exactly the counts that fit beside this rest are granted
  (`reserve_after_drain`); every count up to `N - burst + 1` is among them.
* **Starving.** A larger count may be refused on an empty channel, and popping further does not
  change this (`not_reserve_after_drain`). -/

namespace Que.Lossless

open Lib

variable {V : Type} {C : Config} {s : State V}

/-! ### Popping until nothing is left -/

def State.popped (C : Config) (s : State V) : Option V :=
  ((pop C.w C.N).run C.w s.ch s.cursor).1

def State.afterPops (C : Config) (n : ℕ) (s : State V) : State V :=
  (State.consumerCalls C .ready .pop)^[n] s

/-- `n` calls of `pop` return an element, and the one after them returns `None`. -/
structure Drains (C : Config) (s : State V) (n : ℕ) : Prop where
  some : ∀ i < n, (s.afterPops C i).popped C ≠ none
  none : (s.afterPops C n).popped C = none

def State.reserved (C : Config) (s : State V) (count : ℕ) : Outcome Unit :=
  ((reserve C.w C.N count).run C.w s.ch s.handle).1

/-- How far behind the shared head will be when everything that the producer has written is
popped. -/
def State.lag (C : Config) (s : State V) : ℕ :=
  (s.cursor.itemsSinceLastSync + (s.handle.producer.tail - s.cursor.head)) % burstAmount C.N

/-- The consumer is `d` positions behind the published tail, and ahead of the shared head by what it
has popped since it stored it. -/
structure Lagging (C : Config) (ch : Channel V) (c : Consumer) (d : ℕ) : Prop where
  tail : c.head + d = ch.tail
  word : ch.tail < 2 ^ C.w
  head : c.head = wadd C.w ch.head c.itemsSinceLastSync
  items : c.itemsSinceLastSync < burstAmount C.N
  room : c.itemsSinceLastSync + d ≤ C.N

theorem wadd_succ {w a b h : ℕ} (h₁ : h = wadd w a b) (h₂ : h + 1 < 2 ^ w) :
    h + 1 = wadd w a (b + 1) := by
  unfold wadd at h₁ ⊢
  rw [← Nat.add_assoc, ← Nat.mod_add_mod, ← h₁, Nat.mod_eq_of_lt h₂]

theorem run_pop_of_lt {ch : Channel V} {c : Consumer} (hlt : c.head < ch.tail) :
    (pop C.w C.N).run C.w ch c =
      let head := wadd C.w c.head 1
      let items := wadd C.w c.itemsSinceLastSync 1
      if items ≥ burstAmount C.N then
        (some (ch.buffer (slot C.N c.head)), ch.set .head head,
          { c with head := head, itemsSinceLastSync := 0 })
      else
        (some (ch.buffer (slot C.N c.head)), ch,
          { c with head := head, itemsSinceLastSync := items }) := by
  simp only [pop, maybeSync, Proc.run_bind, Proc.run_self, Proc.run_load, Channel.get,
    if_neg (Nat.not_le.mpr hlt), Proc.run_read, Proc.run_update, Proc.run_ite, Proc.run_store,
    Prog.pure_eq_ret, Proc.run_ret, and_moduloMask]
  split_ifs <;> rfl

namespace Lagging
variable {ch : Channel V} {c : Consumer} {d : ℕ}

theorem pop_some (L : Lagging C ch c (d + 1)) :
    ((pop C.w C.N).run C.w ch c).1 ≠ none ∧
      Lagging C ((pop C.w C.N).run C.w ch c).2.1 ((pop C.w C.N).run C.w ch c).2.2 d ∧
      ((pop C.w C.N).run C.w ch c).2.1.tail = ch.tail ∧
      (((pop C.w C.N).run C.w ch c).2.2.itemsSinceLastSync + d) % burstAmount C.N =
        (c.itemsSinceLastSync + (d + 1)) % burstAmount C.N := by
  have htail := L.tail
  have hword := L.word
  have hitems := L.items
  have hroom := L.room
  have hfits := C.fits
  have hburst := burstAmount_le C.pos
  have hhead : wadd C.w c.head 1 = c.head + 1 := wadd_of_lt (by omega)
  have hcount : wadd C.w c.itemsSinceLastSync 1 = c.itemsSinceLastSync + 1 :=
    wadd_of_lt (by omega)
  rw [run_pop_of_lt (by omega)]
  simp only [hhead, hcount]
  split_ifs with hsync
  · -- the head is published: a whole burst has been popped
    have hfull : c.itemsSinceLastSync + 1 = burstAmount C.N := by omega
    refine ⟨by simp, ⟨?_, hword, ?_, burstAmount_pos C.N, ?_⟩, rfl, ?_⟩
    · simp only [Channel.set]
      omega
    · simp only [Channel.set]
      exact (wadd_of_lt (by omega)).symm
    · simp only
      omega
    · simp only
      rw [show c.itemsSinceLastSync + (d + 1) = d + burstAmount C.N by omega,
        Nat.add_mod_right, Nat.zero_add]
  · refine ⟨by simp, ⟨?_, hword, ?_, ?_, ?_⟩, rfl, ?_⟩
    · simp only
      omega
    · exact wadd_succ L.head (by omega)
    · simp only
      omega
    · simp only
      omega
    · simp only
      rw [show c.itemsSinceLastSync + 1 + d = c.itemsSinceLastSync + (d + 1) by omega]

theorem pop_none (L : Lagging C ch c 0) : (pop C.w C.N).run C.w ch c = (none, ch, c) := by
  have hle : ch.tail ≤ c.head := L.tail.ge
  simp only [pop, Proc.run_bind, Proc.run_self, Proc.run_load, Channel.get, if_pos hle,
    Prog.pure_eq_ret, Proc.run_ret]

theorem reserve (L : Lagging C ch c 0) {h : Handle} (htail : h.producer.tail = ch.tail) {count : ℕ}
    (hpos : 1 ≤ count) (hle : count ≤ C.N) :
    ((reserve C.w C.N count : Proc Handle V _).run C.w ch h).1 =
      if count + c.itemsSinceLastSync ≤ C.N then .ok () else .err .full := by
  have hroom := L.room
  have hfits := C.fits
  have hlag : wsub C.w h.producer.tail ch.head = c.itemsSinceLastSync := by
    rw [htail, ← L.tail, Nat.add_zero, L.head]
    unfold wadd
    rw [← wsub_mod, Nat.mod_mod, wsub_mod, wsub_of_sub_lt (by omega) (by omega)]
    omega
  have hspace : wsub C.w C.N (wsub C.w h.producer.tail ch.head) = C.N - c.itemsSinceLastSync := by
    rw [hlag, wsub_of_le (by omega) hfits]
  have hz : ¬ count = 0 := by omega
  simp only [Lossless.reserve, hz, Nat.not_lt.mpr hle, if_false, Proc.run_bind, Proc.run_self,
    Proc.run_load, Proc.run_ite, Proc.run_update, Prog.pure_eq_ret, Proc.run_ret, Channel.get,
    hspace]
  by_cases hfit : count + c.itemsSinceLastSync ≤ C.N
  · rw [if_pos hfit, if_neg (by omega)]
  · rw [if_neg hfit, if_pos (by omega)]

end Lagging

/-! ### The drain -/

theorem pop_alone (hc : s.consumer = .rest .ready) : let t := s.consumerCalls C .ready .pop
    WrapReach C s t ∧ t.consumer = .rest .ready ∧
      t.ch = ((pop C.w C.N).run C.w s.ch s.cursor).2.1 ∧
      t.cursor = ((pop C.w C.N).run C.w s.ch s.cursor).2.2 ∧ SameProducer s t := by
  obtain ⟨hr, h1, h2, h3, h4⟩ := consumerCalls_run (C := C) .pop hc rfl
  simp only [ConsumerOp.code, Proc.run_bind, Prog.pure_eq_ret, Proc.run_ret] at h1 h2 h3
  exact ⟨hr, h1, h2, h3, h4⟩

theorem afterPops_succ (n : ℕ) :
    s.afterPops C (n + 1) = (s.consumerCalls C .ready .pop).afterPops C n :=
  Function.iterate_succ_apply _ _ _

structure Drained (C : Config) (s t : State V) (d : ℕ) : Prop where
  run : WrapReach C s t
  consumer : t.consumer = .rest .ready
  lagging : Lagging C t.ch t.cursor 0
  tail : t.ch.tail = s.ch.tail
  items : t.cursor.itemsSinceLastSync =
    (s.cursor.itemsSinceLastSync + d) % burstAmount C.N
  producer : SameProducer s t

/-- **Draining.**  A consumer that is `d` elements behind pops them, and then gets `None`. -/
theorem Lagging.drain {d : ℕ} (L : Lagging C s.ch s.cursor d) (hc : s.consumer = .rest .ready) :
    Drains C s d ∧ Drained C s (s.afterPops C (d + 1)) d := by
  induction d generalizing s with
  | zero =>
      obtain ⟨hr, h1, h2, h3, h4⟩ := pop_alone (C := C) hc
      rw [L.pop_none] at h2 h3
      have hitems : s.cursor.itemsSinceLastSync % burstAmount C.N =
          s.cursor.itemsSinceLastSync := Nat.mod_eq_of_lt L.items
      refine ⟨⟨nofun, ?_⟩, ⟨hr, h1, ?_, ?_, ?_, h4⟩⟩
      · exact congrArg Prod.fst L.pop_none
      · rw [afterPops_succ, State.afterPops, Function.iterate_zero_apply, h2, h3]
        exact L
      · exact congrArg Channel.tail h2
      · exact (congrArg Consumer.itemsSinceLastSync h3).trans hitems.symm
  | succ d ih =>
      obtain ⟨hr, h1, h2, h3, h4⟩ := pop_alone (C := C) hc
      obtain ⟨hsome, hlag, htail, hitems⟩ := L.pop_some
      rw [← h2, ← h3] at hlag
      rw [← h2] at htail
      rw [← h3] at hitems
      obtain ⟨⟨hbefore, hnone⟩, D⟩ := ih hlag h1
      rw [← afterPops_succ] at hnone D
      refine ⟨⟨?_, hnone⟩, ⟨hr.trans D.run, D.consumer, D.lagging, D.tail.trans htail, ?_, ?_⟩⟩
      · intro i hi
        cases i with
        | zero => exact hsome
        | succ i =>
            rw [afterPops_succ]
            exact hbefore i (by omega)
      · rw [D.items, hitems]
      · exact ⟨D.producer.producer.trans h4.producer, D.producer.handle.trans h4.handle⟩

/-- The end of a drain is determined by what `pop` returns. -/
theorem Drains.unique {n m : ℕ} (h : Drains C s n) (h' : Drains C s m) : n = m := by
  rcases Nat.lt_trichotomy n m with hlt | heq | hlt
  · exact absurd h.none (h'.some n hlt)
  · exact heq
  · exact absurd h'.none (h.some m hlt)

/-! ### Reservations after a drain -/

/-- What a reachable state with both endpoints at rest knows once everything is published, as long
as no wrap lies between the endpoints. -/
theorem lagging_of_reach {op : ProducerOp V} (hop : op.initialises = true) {z : V}
    (h : WrapReach C (State.initial C op (.zeroed z)) s) (hp : s.producer = .rest .ready)
    (hc : s.consumer = .rest .ready) (hlap : s.cursor.head ≤ s.handle.producer.tail) :
    Lagging C (s.ch.set .tail s.handle.producer.tail) s.cursor
      (s.handle.producer.tail - s.cursor.head) := by
  obtain ⟨w', hw, u, T⟩ := exists_twins hop h
  have I := T.image hop
  have S := T.sound hop
  have hp' := I.producer_ready hp
  have hc' := I.consumer_ready hc
  obtain ⟨hhead, hitems⟩ := S.inStep_of_rest hc' nofun
  obtain ⟨-, hcaught, -, -⟩ := S.next_bounds hc'
  have hready := S.producer
  rw [hp'] at hready
  obtain ⟨htail, hroom⟩ : TailBound (C.widen w' hw) u.producerView := Ready.tailBound hready
  change u.ch.head + u.cursor.itemsSinceLastSync = u.cursor.head at hhead
  change u.cursor.itemsSinceLastSync < burstAmount C.N at hitems
  change u.ch.tail ≤ u.handle.producer.tail at htail
  change u.handle.producer.tail ≤ u.ch.head + C.N at hroom
  have hfits := C.fits
  have hburst := burstAmount_le C.pos
  have hcount : s.cursor.itemsSinceLastSync = u.cursor.itemsSinceLastSync := by
    rw [I.cursor.items, Nat.mod_eq_of_lt (by omega)]
  have hshared : s.ch.head = u.ch.head % 2 ^ C.w := I.ch.word .head
  have hdist : s.handle.producer.tail - s.cursor.head =
      u.handle.producer.tail - u.cursor.head := by
    rw [I.handle.tail, I.cursor.head] at hlap ⊢
    exact mod_sub_mod (by omega) (by omega) hlap
  refine ⟨?_, ?_, ?_, ?_, ?_⟩
  · simp only [Channel.set]
    omega
  · simp only [Channel.set]
    rw [I.handle.tail]
    exact Nat.mod_lt _ (Nat.two_pow_pos _)
  · simp only [Channel.set]
    unfold wadd
    rw [hshared, hcount, I.cursor.head, Nat.mod_add_mod, hhead]
  · rw [hcount]
    exact hitems
  · rw [hcount, hdist]
    omega

theorem sync_alone (hp : s.producer = .rest .ready) : let t := s.producerCalls C .sync
    WrapReach C s t ∧ t.producer = .rest .ready ∧ t.ch = s.ch.set .tail s.handle.producer.tail ∧
      t.handle.producer.tail = s.handle.producer.tail ∧ SameConsumer s t := by
  obtain ⟨hr, h1, h2, h3, h4⟩ := producerCalls_run (C := C) .sync hp rfl
  simp only [ProducerOp.code, sync, Proc.run_bind, Proc.run_update, Proc.run_self, Proc.run_store,
    Prog.pure_eq_ret, Proc.run_ret] at h1 h2 h3
  refine ⟨hr, h1, h2, ?_, h4⟩
  rw [h3]
  rfl

theorem Drained.pop_again {d k : ℕ} (D : Drained C s (s.afterPops C k) d) :
    Drained C s (s.afterPops C (k + 1)) d := by
  obtain ⟨hr, h1, h2, h3, h4⟩ := pop_alone (C := C) D.consumer
  rw [D.lagging.pop_none] at h2 h3
  have hlast : s.afterPops C (k + 1) = (s.afterPops C k).consumerCalls C .ready .pop :=
    Function.iterate_succ_apply' _ _ _
  rw [← hlast] at hr h1 h2 h3 h4
  refine ⟨D.run.trans hr, h1, ?_, ?_, ?_, ?_⟩
  · rw [h2, h3]
    exact D.lagging
  · rw [h2]
    exact D.tail
  · rw [h3]
    exact D.items
  · exact ⟨h4.producer.trans D.producer.producer, h4.handle.trans D.producer.handle⟩

theorem Drained.later {d k : ℕ} (D : Drained C s (s.afterPops C (d + 1)) d) (hk : d < k) :
    Drained C s (s.afterPops C k) d := by
  obtain ⟨j, rfl⟩ := Nat.exists_eq_add_of_lt hk
  clear hk
  induction j with
  | zero => exact D
  | succ j ih => exact ih.pop_again

/-- What `reserve` grants after a drain of everything that the producer had written. -/
theorem Drained.reserved {t : State V} (D : Drained C s t (s.handle.producer.tail - s.cursor.head))
    (htail : s.ch.tail = s.handle.producer.tail) {count : ℕ} (hpos : 1 ≤ count)
    (hle : count ≤ C.N) :
    t.reserved C count = if count + s.lag C ≤ C.N then .ok () else .err .full := by
  have hlocal : t.handle.producer.tail = t.ch.tail := by
    rw [D.producer.handle, D.tail, htail]
  have hlag : t.cursor.itemsSinceLastSync = s.lag C := D.items
  rw [← hlag]
  exact D.lagging.reserve hlocal hpos hle

theorem drains_after_sync {op : ProducerOp V} (hop : op.initialises = true) {z : V}
    (h : WrapReach C (State.initial C op (.zeroed z)) s) (hp : s.producer = .rest .ready)
    (hc : s.consumer = .rest .ready) (hlap : s.cursor.head ≤ s.handle.producer.tail) :
    let t := s.producerCalls C .sync
    let n := s.handle.producer.tail - s.cursor.head
    Drains C t n ∧ ∀ k, n < k → WrapReach C s (t.afterPops C k) ∧
      ∀ count, 1 ≤ count → count ≤ C.N → (t.afterPops C k).reserved C count =
        if count + s.lag C ≤ C.N then .ok () else .err .full := by
  intro t n
  obtain ⟨hrun, -, hch, htail, hsame⟩ := sync_alone (C := C) hp
  have L := lagging_of_reach hop h hp hc hlap
  rw [← hch, ← hsame.cursor] at L
  obtain ⟨hdrains, D⟩ := L.drain (hsame.consumer.trans hc)
  have hn : t.handle.producer.tail - t.cursor.head = n := by
    rw [htail, hsame.cursor]
  have hlag : t.lag C = s.lag C := by
    unfold State.lag
    rw [htail, hsame.cursor]
  have hpublished : t.ch.tail = t.handle.producer.tail := by
    rw [htail, hch]
    rfl
  rw [hsame.cursor] at hdrains D
  refine ⟨hdrains, fun k hk => ?_⟩
  have D : Drained C t (t.afterPops C k) n := D.later hk
  rw [← hn] at D
  refine ⟨hrun.trans D.run, fun count hpos hle => ?_⟩
  rw [← hlag]
  exact D.reserved hpublished hpos hle

/-- **Reservations on a drained channel.**  Take any reachable state, also after the counters have
wrapped, in which both endpoints are at rest and no wrap lies between them.  The producer publishes
everything and the consumer pops until `pop` returns `None`.  From then on, whether it pops again
or not, `reserve` grants exactly the counts that fit beside the lag of the shared head, and so every
count up to `N - burst + 1`. -/
theorem reserve_after_drain (C : Config) {op : ProducerOp V} (hop : op.initialises = true) (z : V)
    (h : WrapReach C (State.initial C op (.zeroed z)) s) (hp : s.producer = .rest .ready)
    (hc : s.consumer = .rest .ready) (hlap : s.cursor.head ≤ s.handle.producer.tail) :
    let t := s.producerCalls C .sync
    let n := s.handle.producer.tail - s.cursor.head
    (∀ m, Drains C t m ↔ m = n) ∧
      ∀ k, n < k → WrapReach C s (t.afterPops C k) ∧
        ∀ count, 1 ≤ count → count ≤ C.N →
          (t.afterPops C k).reserved C count =
            (if count + s.lag C ≤ C.N then .ok () else .err .full) ∧
          (count ≤ C.N - burstAmount C.N + 1 → (t.afterPops C k).reserved C count = .ok ()) := by
  obtain ⟨hdrains, hafter⟩ := drains_after_sync hop h hp hc hlap
  refine ⟨fun m => ⟨fun hm => hm.unique hdrains, fun e => e ▸ hdrains⟩, fun k hk => ?_⟩
  obtain ⟨hrun, hreserved⟩ := hafter k hk
  refine ⟨hrun, fun count hpos hle => ⟨hreserved count hpos hle, fun hcount => ?_⟩⟩
  have hlt : s.lag C < burstAmount C.N := Nat.mod_lt _ (burstAmount_pos C.N)
  have hburst := burstAmount_le C.pos
  rw [hreserved count hpos hle]
  exact if_pos (by omega)

def State.consumerResting (s : State V) : Option ConsumerStatus :=
  match s.consumer with
  | .rest st => some st
  | .busy _ _ _ => none

theorem State.rest_of_consumerResting {st : ConsumerStatus} (h : s.consumerResting = some st) :
    s.consumer = .rest st := by
  unfold consumerResting at h
  cases hc : s.consumer with
  | rest st' =>
      rw [hc] at h
      cases h
      rfl
  | busy start op code =>
      rw [hc] at h
      cases h

def oneWritten : Option (State ℕ) :=
  (State.initial Config.eight .joinOrInitializeIn (Channel.zeroed 0)).moves Config.eight
    (consumerRuns .join 8 ++ producerRuns (.push 7) 6)

theorem oneWritten_spec : ∃ s, oneWritten = some s ∧
    Reach Config.eight (State.initial Config.eight .joinOrInitializeIn (Channel.zeroed 0)) s ∧
    s.producer = .rest .ready ∧ s.consumer = .rest .ready ∧
    s.handle.producer.tail = 1 ∧ s.cursor.head = 0 ∧ s.lag Config.eight = 1 := by
  have h : oneWritten.map (fun s => (s.resting, s.consumerResting, s.handle.producer.tail,
      s.cursor.head, s.lag Config.eight)) = some (some .ready, some .ready, 1, 0, 1) := by
    decide +kernel
  obtain ⟨s, hs, e⟩ := Option.map_eq_some_iff.mp h
  simp only [Prod.mk.injEq] at e
  obtain ⟨h1, h2, h3⟩ := e
  exact ⟨s, hs, State.moves_reach hs, State.rest_of_resting h1, State.rest_of_consumerResting h2,
    h3⟩

/-- The burst of this ring is two, so seven slots are granted once it is drained. -/
theorem reserve_after_drain_seven : ∃ s, oneWritten = some s ∧
    let t := s.producerCalls Config.eight .sync
    Drains Config.eight t 1 ∧
      ∀ k, 1 < k → (t.afterPops Config.eight k).reserved Config.eight 7 = .ok () := by
  obtain ⟨s, hs, hreach, hp, hc, htail, hhead, -⟩ := oneWritten_spec
  have hlap : s.cursor.head ≤ s.handle.producer.tail := by omega
  obtain ⟨hdrains, hafter⟩ := reserve_after_drain Config.eight rfl 0 hreach.wrap hp hc hlap
  rw [htail, hhead] at hdrains hafter
  refine ⟨s, hs, (hdrains 1).mpr rfl, fun k hk => ?_⟩
  exact ((hafter k hk).2 7 (by decide) (by decide)).2 (by decide)

/-- All eight slots are refused for as long as the consumer goes on popping. -/
theorem not_reserve_after_drain : ∃ s : State ℕ,
    Reach Config.eight (State.initial Config.eight .joinOrInitializeIn (Channel.zeroed 0)) s ∧
    let t := s.producerCalls Config.eight .sync
    Drains Config.eight t 1 ∧
      ∀ k, 1 < k → (t.afterPops Config.eight k).reserved Config.eight 8 = .err .full := by
  obtain ⟨s, -, hreach, hp, hc, htail, hhead, hlag⟩ := oneWritten_spec
  have hlap : s.cursor.head ≤ s.handle.producer.tail := by omega
  obtain ⟨hdrains, hafter⟩ := drains_after_sync rfl hreach.wrap hp hc hlap
  rw [htail, hhead] at hdrains hafter
  refine ⟨s, hreach, hdrains, fun k hk => ?_⟩
  rw [(hafter k hk).2 8 (by decide) (by decide), hlag]
  decide

end Que.Lossless
