import Que.Retry.Phases

/-! # The retry loops end

However the two loops are interleaved, if the schedule is fair they end, and the consumer has then
got every value that the producer wrote, in order.

The proof is a ranking (`Lib/Fair.lean`).  While a published value waits for the consumer, the
consumer is helpful: its next pop finds the value.  Otherwise the producer is helpful: the consumer
holds back less than a burst of the ring, so the next push or reservation finds room. -/

namespace Que.Retry

open Lib Lossless

variable {V : Type} {C : Config}

/-! ### Each loop keeps the other's phase -/

section frames
variable {c d : Client V} {F : ℕ}

theorem Producing.frame (H : Producing C c F) (h : SameProducing c d) : Producing C d F := by
  have hcalling : ∀ {st start op ops code}, Calling C c F st start op ops code →
      Calling C d F st start op ops code := fun P =>
    ⟨h.producer.trans P.busy, h.todo.trans P.todo, P.plan, P.fill, by rw [h.handle]; exact P.takes⟩
  cases H with
  | rest hp P hF =>
      refine .rest (h.producer.trans hp) ?_ ?_
      · rw [h.handle, h.todo]
        exact P
      · rw [h.handle]
        exact hF
  | passes P hobeys => exact .passes (hcalling P) (by rw [h.handle]; exact hobeys)
  | undecided P hstart htail hhes =>
      exact .undecided (hcalling P) (h.handle.trans hstart) (by rw [h.tail]; exact htail) hhes
  | refused P hstart hrefused => exact .refused (hcalling P) (h.handle.trans hstart) hrefused

theorem SameConsuming.avail (h : SameConsuming c d) (htail : c.s.ch.tail ≤ d.s.ch.tail)
    (hav : c.Avail) : d.Avail := by
  unfold Client.Avail
  rw [h.joinedAt, h.received]
  exact lt_of_lt_of_le hav htail

/-- A pop that hands out nothing leaves the same values waiting. -/
theorem Consumed.avail_iff (H : Consumed C c d) (hw : d.wanted = c.wanted) :
    d.Avail ↔ c.Avail := by
  rcases H.received with ⟨-, hr⟩ | ⟨hw', -⟩
  · unfold Client.Avail
    rw [H.same.joinedAt, H.same.tail, hr]
  · omega

theorem Consuming.frame (H : Consuming C c) (h : SameConsuming c d)
    (hchange : ProducerChange C c.s.ch d.s.ch c.s.published d.s.published) : Consuming C d := by
  have hpolling : ∀ {start code}, Polling c start code → Polling d start code := fun P =>
    ⟨h.consumer.trans P.busy, h.wanted.symm ▸ P.wanted, by rw [h.cursor]; exact P.takes⟩
  have hinStep : InStep C c.s.consumerView → InStep C d.s.consumerView := fun hs =>
    hs.stable ⟨h.cursor, hchange⟩
  cases H with
  | rest hc => exact .rest (h.consumer.trans hc)
  | passes P hav hobeys =>
      exact .passes (hpolling P) (h.avail hchange.tail_le hav) (by rw [h.cursor]; exact hobeys)
  | undecided P hstart hs hlooks =>
      exact .undecided (hpolling P) (h.cursor.trans hstart) (hinStep hs) hlooks
  | refused P hstart hs hrefused =>
      exact .refused (hpolling P) (h.cursor.trans hstart) (hinStep hs) hrefused

end frames

/-! ### The invariant -/

/-- What the producer has written so far, from the position `F₀` on. -/
structure Ledger (C : Config) (F₀ : ℕ) (total done : List V) (c : Client V) : Prop where
  split : total = done ++ values c.todo
  producing : Producing C c (F₀ + done.length)
  wrote : ∀ i < done.length, c.s.wrote (F₀ + i) = done[i]?

/-- A call that passed has added its values. -/
theorem Ledger.passed {F₀ : ℕ} {total done : List V} {c d : Client V} {op : ProducerOp V}
    {ops : List (ProducerOp V)} (h : Ledger C F₀ total done c) (htodo : c.todo = op :: ops)
    (htodo' : d.todo = ops) (hwrote : d.s.wrote = record (F₀ + done.length) (written op) c.s.wrote)
    (hnext : Producing C d (F₀ + done.length + (written op).length)) :
    Ledger C F₀ total (done ++ written op) d := by
  have hsplit := h.split
  rw [htodo] at hsplit
  refine ⟨?_, ?_, fun i hi => ?_⟩
  · rw [htodo', List.append_assoc]
    exact hsplit
  · rw [List.length_append, ← Nat.add_assoc]
    exact hnext
  · rw [hwrote]
    simp only [List.length_append] at hi
    by_cases hlt : i < done.length
    · rw [List.getElem?_append_left hlt, ← h.wrote i hlt]
      exact if_neg (by omega)
    · rw [List.getElem?_append_right (Nat.le_of_not_lt hlt)]
      refine (if_pos (by omega)).trans (congrArg (fun j => (written op)[j]?) ?_)
      omega

/-- The invariant of the two loops, which started in `s₀`.  From the shared tail of `s₀` on the
producer has written or will write the values `total`. -/
structure Live (C : Config) (s₀ : State V) (total : List V) (c : Client V) : Prop where
  sound : Sound C c.s
  ledger : ∃ done, Ledger C s₀.ch.tail total done c
  consuming : Consuming C c
  older : ∀ p v, s₀.published p = some v → c.s.published p = some v
  published : ∀ i v, c.s.published (s₀.ch.tail + i) = some v → total[i]? = some v
  joined : c.s.joinedAt = s₀.joinedAt
  count : c.s.joinedAt + c.s.received.length + c.wanted = s₀.ch.tail + total.length
  kept : s₀.received <+: c.s.received

namespace Live
variable {s₀ : State V} {total : List V} {c : Client V}

/-- Where the cursor of a resting consumer is. -/
theorem cursor_of_rest (L : Live C s₀ total c) (hc : c.s.consumer = .rest .ready) :
    c.s.joinedAt + c.s.received.length = c.s.cursor.head := by
  have hh := L.sound.handed
  rw [hc] at hh
  exact hh (by decide)

theorem cursor_of_polling (L : Live C s₀ total c) {start : Consumer}
    {code : Proc Consumer V (ConsumerStatus × Option V)} (P : Polling c start code) :
    c.s.joinedAt + c.s.received.length = start.head := by
  have hh := L.sound.handed
  rw [P.busy] at hh
  exact hh rfl

/-- A waiting value is wanted. -/
theorem wanted_of_avail (L : Live C s₀ total c) (hav : c.Avail) : 0 < c.wanted := by
  cases L.consuming with
  | rest hc =>
      by_contra h0
      have hf := L.sound.consumer
      rw [hc] at hf
      have hcursor := L.cursor_of_rest hc
      have hcount := L.count
      have hlt : c.s.cursor.head < c.s.ch.tail := hcursor ▸ hav
      -- the value at the cursor is published, so it is one of those the calls write
      have hpub : c.s.published c.s.cursor.head = some _ := hf.2.value _ le_rfl hlt
      rw [show c.s.cursor.head = s₀.ch.tail + total.length by omega] at hpub
      have hget := L.published _ _ hpub
      rw [List.getElem?_eq_none le_rfl] at hget
      cases hget
  | passes P => exact P.wanted
  | undecided P => exact P.wanted
  | refused P => exact P.wanted

/-- If everything was received, the shared head lags by less than a burst. -/
theorem lag (L : Live C s₀ total c) (hidle : ¬ c.Avail) :
    c.s.ch.tail < c.s.ch.head + burstAmount C.N := by
  have hle : c.s.ch.tail ≤ c.s.joinedAt + c.s.received.length := Nat.le_of_not_lt hidle
  have hlag : InStep C c.s.consumerView →
      c.s.joinedAt + c.s.received.length = c.s.cursor.head →
      c.s.ch.tail < c.s.ch.head + burstAmount C.N := by
    rintro ⟨hhead, hitems⟩ hcursor
    simp only [State.consumerView] at hhead hitems
    omega
  cases L.consuming with
  | rest hc => exact hlag (L.sound.inStep_of_rest hc (by decide)) (L.cursor_of_rest hc)
  | passes P hav => exact absurd hav hidle
  | undecided P hstart hs => exact hlag hs (hstart ▸ L.cursor_of_polling P)
  | refused P hstart hs => exact hlag hs (hstart ▸ L.cursor_of_polling P)

theorem produced (L : Live C s₀ total c) {done : List V}
    (hledger : Ledger C s₀.ch.tail total done c) :
    Produced C (s₀.ch.tail + done.length) c (c.produce C) :=
  hledger.producing.step L.sound L.lag

theorem consumed (L : Live C s₀ total c) : Consumed C c (c.consume C) :=
  L.consuming.step L.sound L.wanted_of_avail

theorem produce (L : Live C s₀ total c) : Live C s₀ total (c.produce C) := by
  obtain ⟨done, hledger⟩ := L.ledger
  have H := L.produced hledger
  refine ⟨L.sound.run produce_reach, ?_, L.consuming.frame H.same H.change,
    fun p v hv => H.change.kept p v (L.older p v hv), fun i v hv => ?_,
    H.same.joinedAt.trans L.joined, ?_, H.same.received ▸ L.kept⟩
  · rcases H.call with ⟨htodo, hwrote, hnext⟩ | ⟨op, ops, htodo, htodo', hwrote, hnext⟩
    · exact ⟨done, by rw [htodo]; exact hledger.split, hnext, by rw [hwrote]; exact hledger.wrote⟩
    · exact ⟨_, hledger.passed htodo htodo' hwrote hnext⟩
  · rcases H.published _ v hv with hold | ⟨hlt, hw⟩
    · exact L.published i v hold
    · have hi : i < done.length := by omega
      rw [hledger.wrote i hi] at hw
      rw [hledger.split, List.getElem?_append_left hi]
      exact hw
  · rw [H.same.joinedAt, H.same.received, H.same.wanted]
    exact L.count

theorem consume (L : Live C s₀ total c) : Live C s₀ total (c.consume C) := by
  obtain ⟨done, hledger⟩ := L.ledger
  have H := L.consumed
  refine ⟨L.sound.run consume_reach, ⟨done, ?_, hledger.producing.frame H.same, ?_⟩, H.consuming,
    ?_, ?_, H.same.joinedAt.trans L.joined, ?_, ?_⟩
  · rw [H.same.todo]
    exact hledger.split
  · rw [H.same.wrote]
    exact hledger.wrote
  · rw [H.same.published]
    exact L.older
  · rw [H.same.published]
    exact L.published
  · have hcount := L.count
    rw [H.same.joinedAt]
    rcases H.received with ⟨hw, hr⟩ | ⟨hw, v, hr⟩
    · rw [hw, hr]
      exact hcount
    · rw [hr, List.length_append, List.length_singleton]
      omega
  · rcases H.received with ⟨-, hr⟩ | ⟨-, v, hr⟩
    · exact hr ▸ L.kept
    · exact hr ▸ L.kept.trans (List.prefix_append _ _)

/-- The loops have not ended, so some call is still to be made if nothing waits. -/
theorem todo_of_idle (L : Live C s₀ total c) (hidle : ¬ c.Avail) (hdone : ¬ c.Done) :
    c.todo ≠ [] := by
  intro htodo
  obtain ⟨done, hledger⟩ := L.ledger
  refine hdone ⟨htodo, ?_⟩
  have htotal : total = done := by
    have h := hledger.split
    rwa [htodo, show values ([] : List (ProducerOp V)) = [] from rfl, List.append_nil] at h
  have hcount := L.count
  have hle : c.s.ch.tail ≤ c.s.joinedAt + c.s.received.length := Nat.le_of_not_lt hidle
  have hends : c.s.ch.tail = s₀.ch.tail + done.length := by
    cases hledger.producing with
    | @rest st hp P hF =>
        have hf := P.feasible
        have hready := L.sound.producer
        rw [htodo] at hf
        rw [hp] at hready
        cases st with
        | ready =>
            simp only [feasible_nil, decide_eq_true_eq] at hf
            have htail : c.s.ch.tail + c.s.handle.producer.written = c.s.handle.producer.tail :=
              hready.2
            rw [hf] at htail
            exact htail.trans hF
        | gone => cases hf
        | reserved => cases hf
    | passes P => exact absurd (P.todo.symm.trans htodo) (List.cons_ne_nil _ _)
    | undecided P => exact absurd (P.todo.symm.trans htodo) (List.cons_ne_nil _ _)
    | refused P => exact absurd (P.todo.symm.trans htodo) (List.cons_ne_nil _ _)
  rw [htotal] at hcount
  omega

end Live

/-! ### The ranking -/

open Classical in
/-- The consumer is helpful while a value waits for it. -/
noncomputable def helpful (c : Client V) : Side := if c.Avail then .consumer else .producer

open Classical in
/-- First the values that are still wanted, then whether one of them waits, then what the helpful
loop has still to do. -/
noncomputable def rank (c : Client V) : ℕ ×ₗ ℕ ×ₗ ℕ ×ₗ ℕ :=
  toLex (c.wanted, toLex (if c.Avail then (0, c.consumerRank) else (1, c.producerRank)))

section ranking
variable {s₀ : State V} {total : List V} {c d : Client V}

theorem helpful_of_avail (h : c.Avail) : helpful c = .consumer := by
  simp only [helpful, h, if_true]

theorem helpful_of_not_avail (h : ¬ c.Avail) : helpful c = .producer := by
  simp only [helpful, h, if_false]

theorem rank_of_avail (h : c.Avail) : rank c = toLex (c.wanted, toLex (0, c.consumerRank)) := by
  simp only [rank, h, if_true]

theorem rank_of_not_avail (h : ¬ c.Avail) :
    rank c = toLex (c.wanted, toLex (1, c.producerRank)) := by
  simp only [rank, h, if_false]

theorem rank_lt_of_wanted (h : d.wanted < c.wanted) : rank d < rank c :=
  Prod.Lex.toLex_lt_toLex.mpr (.inl h)

/-- While a value waits, the consumer's loop comes forward. -/
theorem consume_lt (L : Live C s₀ total c) (hav : c.Avail) : rank (c.consume C) < rank c := by
  have H := L.consumed
  rcases H.forward hav with hlt | ⟨hw, hlt⟩
  · exact rank_lt_of_wanted hlt
  · have hav' : (c.consume C).Avail := (H.avail_iff hw).mpr hav
    rw [rank_of_avail hav, rank_of_avail hav', hw]
    exact Prod.Lex.toLex_lt_toLex.mpr
      (.inr ⟨rfl, Prod.Lex.toLex_lt_toLex.mpr (.inr ⟨rfl, hlt⟩)⟩)

/-- While nothing waits, the producer's loop comes forward. -/
theorem produce_lt (L : Live C s₀ total c) (hidle : ¬ c.Avail) (hdone : ¬ c.Done) :
    rank (c.produce C) < rank c := by
  obtain ⟨done, hledger⟩ := L.ledger
  have H := L.produced hledger
  rw [rank_of_not_avail hidle]
  by_cases hav : (c.produce C).Avail
  · rw [rank_of_avail hav, H.same.wanted]
    exact Prod.Lex.toLex_lt_toLex.mpr
      (.inr ⟨rfl, Prod.Lex.toLex_lt_toLex.mpr (.inl Nat.zero_lt_one)⟩)
  · rw [rank_of_not_avail hav, H.same.wanted]
    have hlt := H.forward hidle (L.todo_of_idle hidle hdone)
    exact Prod.Lex.toLex_lt_toLex.mpr
      (.inr ⟨rfl, Prod.Lex.toLex_lt_toLex.mpr (.inr ⟨rfl, hlt⟩)⟩)

/-- The producer does not disturb a consumer for which a value waits. -/
theorem produce_other (L : Live C s₀ total c) (hav : c.Avail) :
    rank (c.produce C) = rank c ∧ helpful (c.produce C) = helpful c := by
  obtain ⟨done, hledger⟩ := L.ledger
  have H := L.produced hledger
  have hav' := H.same.avail H.change.tail_le hav
  rw [rank_of_avail hav, rank_of_avail hav', helpful_of_avail hav, helpful_of_avail hav',
    H.same.wanted]
  unfold Client.consumerRank
  rw [H.same.consumer, H.same.cursor]
  exact ⟨rfl, rfl⟩

/-- The consumer does not disturb the producer while nothing waits. -/
theorem consume_other (L : Live C s₀ total c) (hidle : ¬ c.Avail) :
    rank (c.consume C) = rank c ∧ helpful (c.consume C) = helpful c := by
  have H := L.consumed
  have hw := H.idle hidle
  have hidle' : ¬ (c.consume C).Avail := fun h => hidle ((H.avail_iff hw).mp h)
  rw [rank_of_not_avail hidle, rank_of_not_avail hidle', helpful_of_not_avail hidle,
    helpful_of_not_avail hidle', hw]
  unfold Client.producerRank
  rw [H.same.todo, H.same.producer, H.same.handle]
  exact ⟨rfl, rfl⟩

end ranking

/-- **The ranking of the two loops.** -/
theorem ranking (C : Config) (s₀ : State V) (total : List V) :
    Ranking (Client.next C) (Live C s₀ total) Client.Done rank helpful where
  keep := fun side c L => by
    cases side with
    | producer => exact L.produce
    | consumer => exact L.consume
  own := fun c L hdone => by
    by_cases hav : c.Avail
    · rw [helpful_of_avail hav]
      exact consume_lt L hav
    · rw [helpful_of_not_avail hav]
      exact produce_lt L hav hdone
  other := fun side c L hdone => by
    by_cases hav : c.Avail
    · cases side with
      | producer => exact .inr (produce_other L hav)
      | consumer => exact .inl (consume_lt L hav)
    · cases side with
      | producer => exact .inl (produce_lt L hav hdone)
      | consumer => exact .inr (consume_other L hav)

/-! ### The result -/

/-! ### Where the loops start -/

/-- Both endpoints are at rest. -/
structure AtRest (C : Config) (s : State V) : Prop where
  sound : Sound C s
  producer : s.producer = .rest .ready
  consumer : s.consumer = .rest .ready

/-- The values that are written and not published. -/
def pending (C : Config) (s : State V) : List V :=
  ringValues C.N s.ch s.ch.tail s.handle.producer.written

namespace AtRest
variable {s₀ : State V}

theorem ready (R : AtRest C s₀) : Ready C s₀.producerView := by
  have h := R.sound.producer
  rw [R.producer] at h
  exact h

theorem avail (R : AtRest C s₀) : Avail C s₀.consumerView s₀.cursor.head s₀.cursor.head := by
  have h := R.sound.consumer
  rw [R.consumer] at h
  exact h.2

theorem cursor (R : AtRest C s₀) : s₀.joinedAt + s₀.received.length = s₀.cursor.head := by
  have h := R.sound.handed
  rw [R.consumer] at h
  exact h (by decide)

/-- What waits in the ring: the published values and the pending ones. -/
theorem onTheWay_eq (R : AtRest C s₀) : onTheWay C s₀ =
    ringValues C.N s₀.ch s₀.cursor.head (s₀.ch.tail - s₀.cursor.head) ++ pending C s₀ := by
  have hle : s₀.cursor.head ≤ s₀.ch.tail := R.avail.le_tail
  have htail : s₀.ch.tail + s₀.handle.producer.written = s₀.handle.producer.tail := R.ready.2
  have hlength : s₀.handle.producer.tail - s₀.cursor.head =
      s₀.ch.tail - s₀.cursor.head + s₀.handle.producer.written := by omega
  unfold onTheWay pending
  rw [hlength, ringValues_add, Nat.add_sub_cancel' hle]

end AtRest

section result
variable {s₀ : State V} {ops : List (ProducerOp V)}

/-- The loops start with the invariant. -/
theorem Live.start (R : AtRest C s₀)
    (hops : feasible C.N .ready s₀.handle.producer.written 0 0 ops = true)
    (hword : s₀.handle.producer.tail + demands C ops < 2 ^ C.w) :
    Live C s₀ (pending C s₀ ++ values ops)
      ⟨s₀, ops, (onTheWay C s₀ ++ values ops).length⟩ := by
  have hown := R.ready.1
  have htail : s₀.ch.tail + s₀.handle.producer.written = s₀.handle.producer.tail := R.ready.2
  have hhead : s₀.cursor.head ≤ s₀.ch.tail := R.avail.le_tail
  have hcursor := R.cursor
  have hlength : (pending C s₀).length = s₀.handle.producer.written := length_ringValues ..
  refine ⟨R.sound, ⟨pending C s₀, rfl, .rest R.producer ⟨hops, ?_, ?_, ready_ne_reserved⟩ ?_,
    fun i hi => ?_⟩, .rest R.consumer, fun p v hv => hv, fun i v hv => ?_, rfl, ?_,
    List.prefix_refl _⟩
  · simpa only [fill, left, Nat.add_zero] using hword
  · show s₀.handle.producer.written ≤ s₀.handle.producer.tail
    omega
  · rw [hlength]
    exact htail.symm
  · rw [hlength] at hi
    rw [pending, getElem?_ringValues _ _ hi]
    exact hown.recorded (s₀.ch.tail + i) (Nat.le_add_right _ _)
      (show s₀.ch.tail + i < s₀.handle.producer.tail by omega)
  · rw [R.sound.base.beyond _ (Nat.le_add_right _ _)] at hv
    cases hv
  · simp only [R.onTheWay_eq, List.length_append, length_ringValues, hlength]
    omega

/-- The value at a position that the consumer has received since the start: it waited in the ring,
or a call has written it. -/
theorem Live.value {c : Client V} (R : AtRest C s₀)
    (L : Live C s₀ (pending C s₀ ++ values ops) c) {i : ℕ} {v : V}
    (hv : c.s.published (s₀.cursor.head + i) = some v) :
    (onTheWay C s₀ ++ values ops)[i]? = some v := by
  have hhead : s₀.cursor.head ≤ s₀.ch.tail := R.avail.le_tail
  rw [R.onTheWay_eq, List.append_assoc]
  rcases Nat.lt_or_ge i (s₀.ch.tail - s₀.cursor.head) with hlt | hge
  · have hold := R.avail.value (s₀.cursor.head + i) (Nat.le_add_right _ _)
      (show s₀.cursor.head + i < s₀.ch.tail by omega)
    rw [L.older _ _ hold] at hv
    rw [List.getElem?_append_left (by simpa using hlt), getElem?_ringValues _ _ hlt]
    exact hv
  · rw [List.getElem?_append_right (by simpa using hge), length_ringValues]
    apply L.published _ v
    rw [show s₀.ch.tail + (i - (s₀.ch.tail - s₀.cursor.head)) = s₀.cursor.head + i by omega]
    exact hv

/-- What the consumer has got when the loops have ended. -/
theorem Live.received {c : Client V} (R : AtRest C s₀)
    (L : Live C s₀ (pending C s₀ ++ values ops) c) (hdone : c.Done) :
    c.s.received = s₀.received ++ onTheWay C s₀ ++ values ops := by
  obtain ⟨later, hlater⟩ := L.kept
  have hhead : s₀.cursor.head ≤ s₀.ch.tail := R.avail.le_tail
  have hcursor := R.cursor
  have hcount := L.count
  have hjoined := L.joined
  have hwanted := hdone.2
  have hlength : later.length = (onTheWay C s₀ ++ values ops).length := by
    rw [R.onTheWay_eq]
    simp only [← hlater, List.length_append, length_ringValues] at hcount ⊢
    omega
  rw [← hlater, List.append_assoc, List.append_cancel_left_eq]
  refine List.ext_getElem? fun i => ?_
  cases hget : later[i]? with
  | none =>
      rw [List.getElem?_eq_none_iff, hlength] at hget
      exact (List.getElem?_eq_none hget).symm
  | some v =>
      have hreceived : c.s.received[s₀.received.length + i]? = some v := by
        rw [← hlater, List.getElem?_append_right (Nat.le_add_right _ _), Nat.add_sub_cancel_left]
        exact hget
      have hpub := L.sound.received _ _ hreceived
      rw [hjoined, ← Nat.add_assoc, hcursor] at hpub
      exact (L.value R hpub).symm

end result

/-- **Retrying delivers everything.**  Take a reachable state in which both endpoints are at rest.
Let the producer make a feasible list of calls, each until it passes, and let the consumer pop until
it has got the values that were on their way and those that the calls write; no position reaches
`2 ^ w`.  Under every fair schedule both loops end, and the consumer has then got exactly these
values, in order. -/
theorem retry_delivers (C : Config) {init : ProducerOp V} (hinit : init.initialises = true) (z : V)
    {s₀ : State V} (h : Reach C (State.initial C init (Channel.zeroed z)) s₀)
    (hp : s₀.producer = .rest .ready) (hc : s₀.consumer = .rest .ready) {ops : List (ProducerOp V)}
    (hops : feasible C.N .ready s₀.handle.producer.written 0 0 ops = true)
    (hword : s₀.handle.producer.tail + demands C ops < 2 ^ C.w) {sched : ℕ → Side}
    (hfair : Fair sched) :
    let start : Client V := ⟨s₀, ops, (onTheWay C s₀ ++ values ops).length⟩
    ∃ n, let c := runs (Client.next C) sched start n
      Reach C s₀ c.s ∧ c.Done ∧ c.s.received = s₀.received ++ onTheWay C s₀ ++ values ops := by
  have R : AtRest C s₀ := ⟨(initial_sound hinit (m := Channel.zeroed z) rfl rfl).run h, hp, hc⟩
  have L := Live.start R hops hword
  obtain ⟨n, hdone⟩ := (ranking C s₀ _).eventually L hfair
  have Ln : Live C s₀ _ (runs (Client.next C) sched _ n) := runs_keep (ranking C s₀ _).keep L n
  exact ⟨n, runs_reach sched ⟨s₀, ops, _⟩ n, hdone, Ln.received R hdone⟩

/-- The two loops take turns. -/
def inTurn (n : ℕ) : Side := if n % 2 = 0 then .producer else .consumer

theorem inTurn_fair : Fair inTurn := by
  intro side n
  cases side with
  | producer => exact ⟨2 * n, by omega, if_pos (by omega)⟩
  | consumer => exact ⟨2 * n + 1, by omega, if_neg (by omega)⟩

/-- Five values through a ring of two slots. -/
def fiveValues : List (ProducerOp ℕ) :=
  [.push 1, .sync, .push 2, .sync, .reserve 1, .writeNext 3, .commit, .push 4, .beat, .sync,
    .push 5, .sync]

/-- A consumer for which one value waits gets them all. -/
theorem retry_delivers_small : ∃ s n, (State.initial Config.small .joinOrInitializeIn
      (Channel.zeroed 0)).moves Config.small (consumerRuns .join 8 ++ producerRuns (.push 7) 6) =
        some s ∧
    let c := runs (Client.next Config.small) inTurn ⟨s, fiveValues, 6⟩ n
    c.Done ∧ c.s.received = [7, 1, 2, 3, 4, 5] := by
  have hmoves : ∃ s, (State.initial Config.small .joinOrInitializeIn (Channel.zeroed 0)).moves
      Config.small (consumerRuns .join 8 ++ producerRuns (.push 7) 6) = some s ∧
      s.producer = .rest .ready ∧ s.consumer = .rest .ready ∧ s.handle.producer = ⟨1, 1, 0⟩ ∧
      s.received = [] := ⟨_, rfl, rfl, rfl, rfl, rfl⟩
  obtain ⟨s, hs, hp, hc, hproducer, hreceived⟩ := hmoves
  have hway : onTheWay Config.small s = [7] := by
    have h : ((State.initial Config.small .joinOrInitializeIn (Channel.zeroed 0)).moves
        Config.small (consumerRuns .join 8 ++ producerRuns (.push 7) 6)).map
        (onTheWay Config.small) = some [7] := by decide +kernel
    rw [hs] at h
    exact Option.some.inj h
  have hops : feasible Config.small.N .ready s.handle.producer.written 0 0 fiveValues = true := by
    rw [hproducer]
    decide
  have hword : s.handle.producer.tail + demands Config.small fiveValues < 2 ^ Config.small.w := by
    rw [hproducer]
    decide
  obtain ⟨n, -, hdone, hall⟩ := retry_delivers Config.small rfl 0
    (State.moves_reach hs) hp hc hops hword inTurn_fair
  rw [hway] at hdone hall
  rw [hreceived] at hall
  exact ⟨s, n, hs, hdone, hall⟩

end Que.Retry
