import Que.Headless.Contract

/-! # The headless producer keeps its contract

The assertion that carries the proofs is `Own v T t ws`: the positions from the shared tail `T` up
to `t`, at most a burst, are written and recorded, and the words `ws` of the next element have
been written.  The slot of `t` belongs to no readable position (`slot_free`), so writing it leaves
the window of `Base` alone. -/

namespace Que.Headless

open Lib

variable {W : Type} {K : ℕ}

/-! ### The producer's share of the ring -/

section producer
variable {P : Params} {f : ℕ} {v u : ProducerView W K}

/-- The positions from the shared tail `T` up to `t` are written and recorded, and the words
`ws` have been written to the slot of `t`. -/
structure Own (P : Params) (v : ProducerView W K) (T t : ℕ) (ws : List W) : Prop where
  tail : v.ch.tail = T
  le : T ≤ t
  burst : t ≤ T + burstAmount P.N
  lt : t < P.limit
  recorded : ∀ p, T ≤ p → p < t → v.wrote p = some (element P.N K v.ch p)
  pending : ∀ j x, ws[j]? = some x → v.ch.buffer (slot P.N t * K + j) = x

/-- The slot being written belongs to none of the positions that can be read or are recorded. -/
theorem slot_free {T t q : ℕ} (ht : t < T + burstAmount P.N) (h1 : q < t)
    (h2 : T ≤ q + readable P.N) : slot P.N q ≠ slot P.N t := by
  have hN := readable_add_burst P.pos
  exact (slot_ne P.pow h1 (by omega)).symm

namespace Own
variable {T t : ℕ} {ws : List W}

theorem quiet (o : Own P v T t ws) {w : ProducerView W K} (q : Quiet v.ch w.ch)
    (hw : w.wrote = v.wrote) : Own P w T t ws := by
  refine ⟨q.tail.trans o.tail, o.le, o.burst, o.lt, fun p h1 h2 => ?_, fun j x hj => ?_⟩
  · rw [hw, element_congr fun j _ => congrFun q.buffer _]
    exact o.recorded p h1 h2
  · rw [q.buffer]
    exact o.pending j x hj

theorem stable (o : Own P v T t ws) (hr : ProducerRely v u) : Own P u T t ws :=
  o.quiet hr.quiet hr.wrote

theorem safe_assign {x : W} {α : Type} {Q : α → ProducerView W K → Prop}
    {k : Unit → Proc Producer W α} (o : Own P v T t ws) (ht : t < T + burstAmount P.N)
    (hlen : ws.length < K)
    (next : ∀ u, Own P u T t (ws ++ [x]) → u.own = v.own →
      Safe (producerContract P f) (k ()) Q u) :
    Safe (producerContract P f) (assign (slot P.N t * K + ws.length) x >>= k) Q v := by
  intro u hu hb
  have ou := o.stable hu
  have hcell : ∀ q, q < t → T ≤ q + readable P.N → ∀ j, j < K →
      (u.ch.write (slot P.N t * K + ws.length) x).buffer (slot P.N q * K + j) =
        u.ch.buffer (slot P.N q * K + j) := by
    intro q h1 h2 j hj
    exact Function.update_of_ne (cell_ne (slot_free ht h1 h2) hj hlen) _ _
  have own' : Own P { u with ch := u.ch.write (slot P.N t * K + ws.length) x } T t (ws ++ [x]) := by
    refine ⟨ou.tail, ou.le, ou.burst, ou.lt, fun p h1 h2 => ?_, fun j y hj => ?_⟩
    · have hr := ou.recorded p h1 h2
      rw [← element_congr (hcell p h2 (by omega))] at hr
      exact hr
    · have hjl : j < (ws ++ [x]).length := (List.getElem?_eq_some_iff.mp hj).1
      rcases Nat.lt_or_ge j ws.length with hlt | hge
      · rw [List.getElem?_append_left hlt] at hj
        simp only [Channel.write]
        rw [Function.update_of_ne (by omega)]
        exact ou.pending j y hj
      · obtain rfl : j = ws.length := by simp at hjl; omega
        simp only [Channel.write, Function.update_self]
        simpa using hj
  refine ⟨⟨⟨rfl, rfl, rfl, le_rfl, fun _ _ h => h⟩, ?_⟩, next _ own' hu.own⟩
  refine ⟨hb.magic, hb.capacity, hb.from_le, hb.tail_lt, hb.beyond, fun q h0 h1 h2 => ?_⟩
  have htail := ou.tail
  have hle := ou.le
  have h1 : q < u.ch.tail := h1
  have h2 : u.ch.tail ≤ q + readable P.N := h2
  have hw := hb.window q h0 h1 h2
  rw [← element_congr (hcell q (by omega) (by omega))] at hw
  exact hw

/-- Storing the local tail publishes everything recorded. -/
theorem safe_storeTail {α : Type} {Q : α → ProducerView W K → Prop}
    {k : Unit → Proc Producer W α} (o : Own P v T t [])
    (next : ∀ u, Own P u t t [] → u.own = v.own → Safe (producerContract P f) (k ()) Q u) :
    Safe (producerContract P f) (store .tail t >>= k) Q v := by
  intro u hu hb
  have ou := o.stable hu
  have htail := ou.tail
  have hle := ou.le
  have own' : Own P ⟨u.ch.set .tail t, u.own, u.wrote, publish (.store .tail t : Act Producer W)
      u.wrote u.published⟩ t t [] :=
    ⟨rfl, le_rfl, by omega, ou.lt, fun p h1 h2 => absurd h2 (by omega),
      fun j x hj => by simp at hj⟩
  refine ⟨⟨⟨rfl, rfl, rfl, ?_, fun p x hp => ?_⟩, ?_⟩, next _ own' hu.own⟩
  · show u.ch.tail ≤ t
    omega
  · simp [producerContract, publish, hp]
  · refine ⟨hb.magic, hb.capacity, ?_, ou.lt, fun p hp => ?_, fun q h0 h1 h2 => ?_⟩
    · have := hb.from_le
      show f ≤ t
      omega
    · have hp : t ≤ p := hp
      simp only [producerContract, publish, hb.beyond p (by omega), if_neg (Nat.not_lt.mpr hp)]
    · have h1 : q < t := h1
      have h2 : t ≤ q + readable P.N := h2
      rcases Nat.lt_or_ge q T with hold | hnew
      · simp only [producerContract, publish, hb.window q h0 (by omega) (by omega)]
        rfl
      · simp only [producerContract, publish, hb.beyond q (by omega), if_pos h1]
        exact ou.recorded q hnew h1

/-- Record the element whose words have all been written. -/
theorem record_pending {x : Vector W K} (o : Own P v T t x.toList)
    (ht : t < T + burstAmount P.N) (hlt : t + 1 < P.limit) :
    Own P { v with wrote := record t [x] v.wrote } T (t + 1) [] := by
  refine ⟨o.tail, o.le.trans (Nat.le_succ t), ht, hlt, fun p h1 h2 => ?_,
    fun j y hj => by simp at hj⟩
  simp only [record, List.length_singleton]
  split_ifs with hp
  · obtain rfl : p = t := by omega
    simpa using (element_eq_iff.mpr o.pending).symm
  · exact o.recorded p h1 (by omega)

end Own

/-! ### The producer's calls -/

/-- A producer at rest: everything up to its local tail is recorded, at most a burst of it not
yet published. -/
def Ready (P : Params) (v : ProducerView W K) : Prop :=
  Own P v v.ch.tail v.own.tail [] ∧ v.ch.tail + v.own.written = v.own.tail

/-- What holds of the producer's view at a status. -/
def ProducerRest (P : Params) : ProducerStatus → ProducerView W K → Prop
  | .gone, _ => True
  | .ready, v => Ready P v

/-- What holds when the call `op`, made at `start`, is about to return. -/
def ProducerPost (P : Params) (op : ProducerOp W K) (start : Producer) (st : ProducerStatus)
    (v : ProducerView W K) : Prop :=
  ProducerRest P st { v with wrote := wroteAfter op start v.wrote }

theorem ProducerRest.stable {st : ProducerStatus} (h : ProducerRest P st v)
    (hr : ProducerRely v u) : ProducerRest P st u := by
  cases st with
  | gone => trivial
  | ready =>
      constructor
      · rw [hr.quiet.tail, hr.own]
        exact h.1.stable hr
      · rw [hr.quiet.tail, hr.own]
        exact h.2

/-- A point inside a call: the own structure `p` and what has been written. -/
structure Point (P : Params) (v : ProducerView W K) (p : Producer) (T t : ℕ) (ws : List W) :
    Prop where
  own : v.own = p
  share : Own P v T t ws

namespace Point
variable {p : Producer} {T t : ℕ} {ws : List W} {α : Type} {Q : α → ProducerView W K → Prop}

theorem stable (S : Point P v p T t ws) (hr : ProducerRely v u) : Point P u p T t ws :=
  ⟨hr.own.trans S.own, S.share.stable hr⟩

theorem safe_load (S : Point P v p T t ws) {x : Word} {k : ℕ → Proc Producer W α}
    (next : ∀ u, Point P u p T t ws → Safe (producerContract P f) (k (u.ch.get x)) Q u) :
    Safe (producerContract P f) (load x >>= k) Q v :=
  fun u hu hb => ⟨⟨.of_quiet (.refl _), hb⟩, next u (S.stable hu)⟩

theorem safe_self (S : Point P v p T t ws) {k : Producer → Proc Producer W α}
    (next : ∀ u, Point P u p T t ws → Safe (producerContract P f) (k p) Q u) :
    Safe (producerContract P f) (self >>= k) Q v := by
  intro u hu hb
  have hk := next u (S.stable hu)
  rw [← (S.stable hu).own] at hk
  exact ⟨⟨.of_quiet (.refl _), hb⟩, hk⟩

theorem safe_update (S : Point P v p T t ws) {g : Producer → Producer}
    {k : Unit → Proc Producer W α}
    (next : ∀ u, Point P u (g p) T t ws → Safe (producerContract P f) (k ()) Q u) :
    Safe (producerContract P f) (update g >>= k) Q v := by
  intro u hu hb
  have Su := S.stable hu
  exact ⟨⟨.of_quiet (.refl _), hb⟩,
    next _ ⟨congrArg g Su.own, Su.share.quiet (.refl _) rfl⟩⟩

/-- Counting a heartbeat or an `Arc` handle. -/
theorem safe_fetchAdd (S : Point P v p T t ws) {x : Word} {n : ℕ}
    (hx : x = .producerHeartbeat ∨ x = .consumerHeartbeat ∨ x = .strong)
    {k : ℕ → Proc Producer W α}
    (next : ∀ u r, Point P u p T t ws → Safe (producerContract P f) (k r) Q u) :
    Safe (producerContract P f) (fetchAdd x n >>= k) Q v := by
  intro u hu hb
  have Su := S.stable hu
  have q := Quiet.set u.ch (wadd P.w (u.ch.get x) n) hx
  exact ⟨⟨.of_quiet q, hb.quiet q⟩, next _ _ ⟨Su.own, Su.share.quiet q rfl⟩⟩

theorem safe_dropArc (S : Point P v p T t ws) {k : Unit → Proc Producer W α}
    (next : ∀ u, Point P u p T t ws → Safe (producerContract P f) (k ()) Q u) :
    Safe (producerContract P f) (Prog.perform Act.dropArc >>= k) Q v := by
  intro u hu hb
  have Su := S.stable hu
  have q : Quiet u.ch (u.ch.set .strong (wsub P.w u.ch.strong 1)) := Quiet.set u.ch _ (by simp)
  exact ⟨⟨.of_quiet q, hb.quiet q⟩, next _ ⟨Su.own, Su.share.quiet q rfl⟩⟩

/-- Write the next words of the slot at `t`. -/
theorem safe_assignWords {xs : List W} {k : Unit → Proc Producer W α} (S : Point P v p T t ws)
    (ht : t < T + burstAmount P.N) (hlen : ws.length + xs.length ≤ K)
    (next : ∀ u, Point P u p T t (ws ++ xs) → Safe (producerContract P f) (k ()) Q u) :
    Safe (producerContract P f) (assignWords (slot P.N t * K + ws.length) xs >>= k) Q v := by
  induction xs generalizing ws v with
  | nil => exact next v (by simpa using S)
  | cons x xs ih =>
      simp only [List.length_cons] at hlen
      unfold assignWords
      rw [Prog.bind_assoc]
      apply S.share.safe_assign ht (by omega)
      intro u share hown
      have Su : Point P u p T t (ws ++ [x]) := ⟨hown.trans S.own, share⟩
      have := ih Su (by simp; omega) fun u S => next u (by simpa using S)
      rwa [List.length_append, List.length_singleton, ← Nat.add_assoc] at this

/-- `sync` publishes everything up to the local tail. -/
theorem safe_sync {k : Unit → Proc Producer W α} (S : Point P v p T t []) (hp : p.tail = t)
    (next : ∀ u, Point P u { p with written := 0 } t t [] →
      Safe (producerContract P f) (k ()) Q u) :
    Safe (producerContract P f) (sync >>= k) Q v := by
  unfold sync
  rw [Prog.bind_assoc]
  apply S.safe_update
  intro u S
  rw [Prog.bind_assoc]
  apply S.safe_self
  intro u S
  rw [hp]
  exact S.share.safe_storeTail fun u share hown => next u ⟨hown.trans S.own, share⟩

theorem ret (S : Point P v p T t ws) {x : α} (hQ : ∀ u, Point P u p T t ws → Q x u) :
    Safe (producerContract P f) (pure x) Q v :=
  Safe.ret fun u hu => hQ u (S.stable hu)

/-- Back at rest after a call that wrote nothing. -/
theorem ready (S : Point P v p T p.tail []) (hcount : T + p.written = p.tail)
    {op : ProducerOp W K} {start : Producer} (hop : op.isJoin = false) (hval : op.values = []) :
    ProducerPost P op start .ready v := by
  have hwrote : wroteAfter op start v.wrote = v.wrote := by
    unfold wroteAfter
    rw [if_neg (by simp [hop]), hval]
    funext q
    simp [record, show ¬ (start.tail ≤ q ∧ q < start.tail) from fun h => by omega]
  obtain ⟨rfl, share⟩ := S
  obtain rfl := share.tail
  unfold ProducerPost
  rw [hwrote]
  exact ⟨share, hcount⟩

end Point

/-- The second half of a push: there is room for one more element in the burst. -/
theorem pushRest_safe {x : Vector W K} (start : Producer) {p : Producer} {T : ℕ}
    (S : Point P v p T p.tail []) (hcount : T + p.written = p.tail)
    (hb : p.written < burstAmount P.N) (hstart : p.tail = start.tail)
    (hlt : p.tail + 1 < P.limit) :
    Safe (producerContract P f)
      (do
        let p ← self
        assignWords ((p.tail &&& moduloMask P.N) * K) x.toList
        update fun p => { p with tail := wadd P.w p.tail 1 }
        update fun p => { p with written := wadd P.w p.written 1 }
        return .ready)
      (ProducerPost P (.push x) start) v := by
  have hN := burstAmount_le P.pos
  have hfits := P.fits
  have hlimit := P.limit_le
  have h1 : wadd P.w p.tail 1 = p.tail + 1 := wadd_of_lt (by omega)
  have h2 : wadd P.w p.written 1 = p.written + 1 := wadd_of_lt (by omega)
  apply S.safe_self
  intro u S
  apply Point.safe_assignWords S (by omega) (by simp)
  intro u S
  refine S.safe_update fun u S => S.safe_update fun u S => S.ret ?_
  intro u S
  rw [List.nil_append] at S
  have hwrote : wroteAfter (.push x) start u.wrote = record p.tail [x] u.wrote := by
    rw [hstart]
    rfl
  have share := S.share.record_pending (by omega) hlt
  have htail := S.share.tail
  have hown := S.own
  simp only [h1, h2] at hown
  show Ready P _
  rw [hwrote]
  constructor
  · simp only [hown, htail]
    exact share.quiet (.refl _) rfl
  · simp only [hown, htail]
    omega

theorem push_safe {x : Vector W K} (h : Ready P v) (hlt : v.own.tail + 1 < P.limit) :
    Safe (producerContract P f) ((.push x : ProducerOp W K).code P)
      (ProducerPost P (.push x) v.own) v := by
  obtain ⟨share, hcount⟩ := h
  have S : Point P v v.own v.ch.tail v.own.tail [] := ⟨rfl, share⟩
  have hburst := share.burst
  simp only [ProducerOp.code, push, Prog.bind_assoc]
  apply S.safe_self
  intro u S
  by_cases hw : v.own.written = burstAmount P.N
  · simp only [if_pos hw, Prog.bind_assoc]
    apply S.safe_sync rfl
    intro u S
    exact pushRest_safe v.own (p := { v.own with written := 0 }) S (by simp) (burstAmount_pos _)
      rfl hlt
  · simp only [if_neg hw, Prog.bind_assoc, Prog.pure_eq_ret]
    exact pushRest_safe v.own S hcount (by omega) rfl hlt

/-- A constructor that succeeded has read the shared tail. -/
def Joined (P : Params) : Outcome Producer → ProducerView W K → Prop
  | .ok p, v => Own P v p.tail p.tail [] ∧ p.written = 0
  | _, _ => True

section join
variable {α : Type} {Q : α → ProducerView W K → Prop}

theorem Joining.safe_load {x : Word} {k : ℕ → Proc Producer W α}
    (next : ∀ u, Base P f u.ch u.published → Safe (producerContract P f) (k (u.ch.get x)) Q u) :
    Safe (producerContract P f) (load x >>= k) Q v :=
  fun u _ hb => ⟨⟨.of_quiet (.refl _), hb⟩, next u hb⟩

theorem Joining.safe_fetchAdd {x : Word} {n : ℕ}
    (hx : x = .producerHeartbeat ∨ x = .consumerHeartbeat ∨ x = .strong)
    {k : ℕ → Proc Producer W α} (next : ∀ u r, Safe (producerContract P f) (k r) Q u) :
    Safe (producerContract P f) (fetchAdd x n >>= k) Q v := by
  intro u _ hb
  have q := Quiet.set u.ch (wadd P.w (u.ch.get x) n) hx
  exact ⟨⟨.of_quiet q, hb.quiet q⟩, next _ _⟩

theorem Joining.safe_incrementStrongCount {M : Mode} {k : Unit → Proc Producer W α}
    (next : ∀ u, Safe (producerContract P f) (k ()) Q u) :
    Safe (producerContract P f) (incrementStrongCount M >>= k) Q v := by
  unfold incrementStrongCount
  cases M.backedByArcc with
  | false => exact next v
  | true => exact Joining.safe_fetchAdd (by simp) fun u _ => next u

/-- The end of every constructor that joins an existing channel. -/
theorem readTail_safe (v : ProducerView W K) :
    Safe (producerContract P f)
      (do
        let tail ← load .tail
        let lastConsumerHeartbeat ← load .consumerHeartbeat
        return .ok ⟨tail, 0, lastConsumerHeartbeat⟩)
      (Joined P) v := by
  apply Joining.safe_load
  intro u hb
  have share : Own P u u.ch.tail u.ch.tail [] :=
    ⟨rfl, le_rfl, by omega, hb.tail_lt, fun p h1 h2 => absurd h2 (by omega),
      fun j x hj => by simp at hj⟩
  intro t ht hbt
  exact ⟨⟨.of_quiet (.refl _), hbt⟩, fun t' ht' => ⟨(share.stable ht).stable ht', rfl⟩⟩

theorem joinProducer_safe (v : ProducerView W K) :
    Safe (producerContract P f) (joinProducer P.mode P.N P.buffer) (Joined P) v := by
  unfold joinProducer Lossless.joinProducer
  rw [if_neg (by simp [P.valid])]
  apply Joining.safe_load
  intro u hb
  apply Joining.safe_load
  intro u' hb'
  rw [if_pos (show u.ch.get .magic = MAGIC from hb.magic),
    if_neg (not_not.mpr (show u'.ch.get .capacity = P.N from hb'.capacity))]
  exact Joining.safe_incrementStrongCount readTail_safe

theorem joinOrInitializeIn_safe (v : ProducerView W K) :
    Safe (producerContract P f) (joinOrInitializeIn P.mode P.N P.buffer) (Joined P) v := by
  unfold joinOrInitializeIn
  rw [if_neg (by simp [P.valid])]
  apply Joining.safe_load
  intro u hb
  apply Joining.safe_load
  intro u' hb'
  rw [if_pos (show u.ch.get .magic = MAGIC from hb.magic),
    if_neg (not_not.mpr (show u'.ch.get .capacity = P.N from hb'.capacity))]
  apply Joining.safe_fetchAdd (by simp)
  intro u _
  exact Joining.safe_incrementStrongCount readTail_safe

theorem joinOrCreateShmem_safe (v : ProducerView W K) :
    Safe (producerContract P f) (joinOrCreateShmem P.N) (Joined P) v := by
  unfold joinOrCreateShmem
  apply Joining.safe_load
  intro u hb
  apply Joining.safe_load
  intro u' hb'
  rw [if_pos (show u.ch.get .magic = MAGIC from hb.magic),
    if_neg (not_not.mpr (show u'.ch.get .capacity = P.N from hb'.capacity))]
  exact Joining.safe_fetchAdd (by simp) fun u _ => readTail_safe u

theorem ProducerOp.install_safe {op : ProducerOp W K} {r : Outcome Producer} {start : Producer}
    (h : Joined P r v) :
    Safe (producerContract P f) (ProducerOp.install r) (ProducerPost P op start) v := by
  cases r with
  | ok p =>
      intro u hu hb
      refine ⟨⟨.of_quiet (.refl _), hb⟩, fun t ht => ?_⟩
      have share : Own P t p.tail p.tail [] :=
        ((h.1.stable hu).quiet (w := { u with own := p }) (.refl _) rfl).stable ht
      have hown : t.own = p := ht.own
      have htail := share.tail
      constructor
      · simp only [hown, htail]
        exact ⟨htail, le_rfl, share.burst, share.lt, fun q h1 h2 => absurd h2 (by omega),
          fun j x hj => by simp at hj⟩
      · simp only [hown, htail, h.2]
        omega
  | err e => exact Safe.ret fun t _ => trivial
  | panic => exact Safe.ret fun t _ => trivial

end join

/-- **Every call keeps the producer's contract** and returns in the assertion of the status it
reports. -/
theorem ProducerOp.code_safe (op : ProducerOp W K) {st : ProducerStatus} (h : ProducerRest P st v)
    (hen : op.enabled st = true) (hlt : v.own.tail + op.values.length < P.limit) :
    Safe (producerContract P f) (op.code P) (ProducerPost P op v.own) v := by
  cases st with
  | gone =>
      cases op with
      | join => exact Safe.bind ((joinProducer_safe v).mono fun r u hj => install_safe hj)
      | joinOrInitializeIn =>
          exact Safe.bind ((joinOrInitializeIn_safe v).mono fun r u hj => install_safe hj)
      | joinOrCreateShmem =>
          exact Safe.bind ((joinOrCreateShmem_safe v).mono fun r u hj => install_safe hj)
      | _ => cases hen
  | ready =>
      have S : Point P v v.own v.ch.tail v.own.tail [] := ⟨rfl, h.1⟩
      cases op with
      | push x => exact push_safe h hlt
      | sync =>
          refine S.safe_sync rfl fun u S => S.ret ?_
          intro u S
          exact Point.ready (p := { v.own with written := 0 }) S (by simp) rfl rfl
      | beat =>
          exact S.safe_fetchAdd (by simp) fun u r S => S.ret fun u S => S.ready h.2 rfl rfl
      | consumerHeartbeat =>
          simp only [code, Headless.consumerHeartbeat, Prog.bind_assoc]
          refine S.safe_load fun u S => S.safe_self ?_
          intro u S
          split_ifs with hne
          · refine S.safe_update fun u S => S.ret ?_
            intro u S
            exact Point.ready (p := { v.own with lastConsumerHeartbeat := _ }) S h.2 rfl rfl
          · exact S.ret fun u S => S.ready h.2 rfl rfl
      | drop =>
          unfold ProducerOp.code dropEndpoint
          cases P.mode.backedByArcc with
          | false => exact S.ret fun u _ => trivial
          | true => exact S.safe_dropArc fun u S => S.ret fun u _ => trivial
      | _ => cases hen

end producer

end Que.Headless
