import Que.Headless.Contract

/-! # The headless consumer keeps its contract

A round of `pop` is described by `Moved`: which tails it loaded, what it returned and where it
left the cursor.  `popIter_safe` shows that every round is of one of these kinds, and that a value
which is returned is the published element of the cursor: each word is read while the position is
in the window of `Base`, or the second load of the tail sees that it is not (`Good`). -/

namespace Que.Headless

open Lib

variable {W : Type} {K : ℕ}

section consumer
variable {P : Params} {f : ℕ} {mine fit : ℕ → Prop} {G : Consumer → Consumer → Prop}
  {v u : ConsumerView W K}

/-! ### Points inside a call -/

/-- The own structure `c`, the history `tr`, and a lower bound `T` on the tail. -/
structure Spot (v : ConsumerView W K) (c : Consumer) (tr : Trace W K) (T : ℕ) : Prop where
  cursor : v.cursor = c
  trace : v.trace = tr
  seen : T ≤ v.ch.tail

/-- While position `h` can be read, the words `ws` are the first ones of its element. -/
def Good (P : Params) (f : ℕ) (v : ConsumerView W K) (h : ℕ) (ws : List W) : Prop :=
  f ≤ h → v.ch.tail ≤ h + readable P.N →
    ∃ x : Vector W K, v.published h = some x ∧ ws = x.toList.take ws.length

theorem Good.stable {h : ℕ} {ws : List W} (g : Good P f v h ws)
    (hc : ProducerChange v.ch u.ch v.published u.published) : Good P f u h ws := by
  intro hf hlt
  obtain ⟨x, hx, hws⟩ := g hf (hc.tail_le.trans hlt)
  exact ⟨x, hc.kept h x hx, hws⟩

/-- All words read while the position could be read: the published element. -/
theorem Good.value {h : ℕ} {xs : Vector W K} (g : Good P f v h xs.toList) (hf : f ≤ h)
    (hle : v.ch.tail ≤ h + readable P.N) : v.published h = some xs := by
  obtain ⟨x, hx, hws⟩ := g hf hle
  obtain rfl : xs = x := by
    apply Vector.toList_inj.mp
    rw [hws]
    exact List.take_of_length_le (by simp)
  exact hx

namespace Spot
variable {c : Consumer} {tr : Trace W K} {T : ℕ} {α : Type} {Q : α → ConsumerView W K → Prop}

theorem stable (S : Spot v c tr T) (hr : ConsumerRely mine v u) : Spot u c tr T :=
  ⟨hr.cursor.trans S.cursor, hr.trace.trans S.trace, S.seen.trans hr.change.tail_le⟩

theorem safe_self (S : Spot v c tr T) (hG : G c c) {k : Consumer → Proc Consumer W α}
    (next : ∀ u, ProducerChange v.ch u.ch v.published u.published → Spot u c tr T →
      Safe (consumerContract P f mine fit false G) (k c) Q u) :
    Safe (consumerContract P f mine fit false G) (self >>= k) Q v := by
  intro u hu _
  have Su := S.stable hu
  have hk := next u hu.change Su
  have hmove : G u.cursor u.cursor := by rw [Su.cursor]; exact hG
  rw [← Su.cursor] at hk
  exact ⟨⟨.refl _, rfl, rfl, hmove⟩, hk⟩

/-- A load of the tail is recorded. -/
theorem safe_loadTail (S : Spot v c tr T) (hG : G c c) {k : ℕ → Proc Consumer W α}
    (next : ∀ u n, ProducerChange v.ch u.ch v.published u.published →
      Spot u c { tr with loads := tr.loads ++ [(c.head, n)] } n → T ≤ n →
      u.ch.tail = n → Base P f u.ch u.published →
        Safe (consumerContract P f mine fit false G) (k n) Q u) :
    Safe (consumerContract P f mine fit false G) (load .tail >>= k) Q v := by
  intro u hu hb
  have Su := S.stable hu
  have hmove : G u.cursor u.cursor := by rw [Su.cursor]; exact hG
  refine ⟨⟨.refl _, rfl, rfl, hmove⟩, next _ u.ch.tail hu.change ⟨Su.cursor, ?_, le_rfl⟩
    Su.seen rfl hb.1⟩
  simp only [consumerContract, Trace.after, Su.trace, Su.cursor, Bool.false_eq_true, if_false]

theorem safe_load (S : Spot v c tr T) (hG : G c c) {x : Word} (hx : x ≠ .tail)
    {k : ℕ → Proc Consumer W α}
    (next : ∀ u n, Spot u c tr T → Safe (consumerContract P f mine fit false G) (k n) Q u) :
    Safe (consumerContract P f mine fit false G) (load x >>= k) Q v := by
  intro u hu _
  have Su := S.stable hu
  have hmove : G u.cursor u.cursor := by rw [Su.cursor]; exact hG
  refine ⟨⟨.refl _, rfl, rfl, hmove⟩, next _ _ ⟨Su.cursor, ?_, Su.seen⟩⟩
  cases x <;> first | exact absurd rfl hx | exact Su.trace

theorem safe_update (S : Spot v c tr T) {g : Consumer → Consumer}
    (hG : fit tr.lastTail → G c (g c))
    {k : Unit → Proc Consumer W α}
    (next : ∀ u, fit tr.lastTail → Spot u (g c) tr T →
      Safe (consumerContract P f mine fit false G) (k ()) Q u) :
    Safe (consumerContract P f mine fit false G) (update g >>= k) Q v := by
  intro u hu ha
  have Su := S.stable hu
  have hfit : fit tr.lastTail := Su.trace ▸ ha.2.2 g rfl
  have hmove : G u.cursor (g u.cursor) := by rw [Su.cursor]; exact hG hfit
  exact ⟨⟨.refl _, rfl, rfl, hmove⟩, next _ hfit ⟨congrArg g Su.cursor, Su.trace, Su.seen⟩⟩

/-- Counting a heartbeat. -/
theorem safe_fetchAdd (S : Spot v c tr T) (hG : G c c) {x : Word} {n : ℕ}
    (hx : x = .producerHeartbeat ∨ x = .consumerHeartbeat ∨ x = .strong)
    {k : ℕ → Proc Consumer W α}
    (next : ∀ u r, Spot u c tr T → Safe (consumerContract P f mine fit false G) (k r) Q u) :
    Safe (consumerContract P f mine fit false G) (fetchAdd x n >>= k) Q v := by
  intro u hu _
  have Su := S.stable hu
  have hmove : G u.cursor u.cursor := by rw [Su.cursor]; exact hG
  have q := Quiet.set u.ch (wadd P.w (u.ch.get x) n) hx
  exact ⟨⟨q, rfl, rfl, hmove⟩, next _ _ ⟨Su.cursor, Su.trace, q.tail.symm ▸ Su.seen⟩⟩

theorem safe_dropArc (S : Spot v c tr T) (hG : G c c) {k : Unit → Proc Consumer W α}
    (next : ∀ u, Spot u c tr T → Safe (consumerContract P f mine fit false G) (k ()) Q u) :
    Safe (consumerContract P f mine fit false G) (Prog.perform Act.dropArc >>= k) Q v := by
  intro u hu _
  have Su := S.stable hu
  have hmove : G u.cursor u.cursor := by rw [Su.cursor]; exact hG
  have q : Quiet u.ch (u.ch.set .strong (wsub P.w u.ch.strong 1)) := Quiet.set u.ch _ (by simp)
  exact ⟨⟨q, rfl, rfl, hmove⟩, next _ ⟨Su.cursor, Su.trace, q.tail.symm ▸ Su.seen⟩⟩

/-- Reading one more word of the element at the cursor. -/
theorem safe_read (S : Spot v c tr T) (hG : G c c) {ws : List W} (g : Good P f v c.head ws)
    (hlt : c.head < T) (hlen : ws.length < K) {k : W → Proc Consumer W α}
    (next : ∀ u x, Spot u c tr T → Good P f u c.head (ws ++ [x]) →
      Safe (consumerContract P f mine fit false G) (k x) Q u) :
    Safe (consumerContract P f mine fit false G) (read (slot P.N c.head * K + ws.length) >>= k)
      Q v := by
  intro u hu hb
  have Su := S.stable hu
  have hmove : G u.cursor u.cursor := by rw [Su.cursor]; exact hG
  refine ⟨⟨.refl _, rfl, rfl, hmove⟩, next _ _ ⟨Su.cursor, Su.trace, Su.seen⟩ fun hf hle => ?_⟩
  have hseen := Su.seen
  obtain ⟨x, hx, hws⟩ := g.stable hu.change hf hle
  refine ⟨x, hx, ?_⟩
  -- the slot holds the published element, so the word read is the next one
  have hwin : u.published c.head = some (element P.N K u.ch c.head) :=
    hb.1.window c.head hf (by omega) hle
  obtain rfl : x = element P.N K u.ch c.head := by rw [hx] at hwin; exact Option.some.inj hwin
  rw [List.length_append, List.length_singleton,
    List.take_succ_eq_append_getElem (by simpa using hlen),
    ← hws]
  simp [element, consumerContract, Act.step]

/-- Reading the first `n` words of the element at the cursor. -/
theorem safe_readWords (S : Spot v c tr T) (hG : G c c) (g : Good P f v c.head [])
    (hlt : c.head < T) {n : ℕ} (hn : n ≤ K) {k : Vector W n → Proc Consumer W α}
    (next : ∀ u xs, Spot u c tr T → Good P f u c.head xs.toList →
      Safe (consumerContract P f mine fit false G) (k xs) Q u) :
    Safe (consumerContract P f mine fit false G) (readWords (slot P.N c.head * K) n >>= k) Q v := by
  induction n with
  | zero => exact next v _ S (by simpa using g)
  | succ n ih =>
      unfold readWords
      rw [Prog.bind_assoc]
      apply ih (by omega)
      intro u xs S g
      rw [Prog.bind_assoc]
      have := S.safe_read (k := fun x => k (xs.push x)) hG g hlt (by simp; omega)
        fun u x S g => next u _ S (by rw [Vector.toList_push]; exact g)
      simpa using this

theorem ret (S : Spot v c tr T) {x : α} (hQ : ∀ u, Spot u c tr T → Q x u) :
    Safe (consumerContract P f mine fit false G) (pure x) Q v :=
  Safe.ret fun u hu => hQ u (S.stable hu)

end Spot

/-! ### A round of `pop` -/

/-- The rounds of `pop` from the cursor `c`: the tails loaded, the result and the cursor
afterwards. -/
inductive Moved (P : Params) (c : Consumer) :
    List (ℕ × ℕ) → ConsumerResult W K → Consumer → Prop
  | caughtUp {T : ℕ} : T ≤ c.head → Moved P c [(c.head, T)] (.done (.ready, none)) c
  | overrun {T : ℕ} : c.head < T → wadd P.w c.head (readable P.N) < T →
      Moved P c [(c.head, T)] .again (resetTo P.w P.N T c)
  | overtaken {T T' : ℕ} : c.head < T → T ≤ T' → wadd P.w c.head (readable P.N) < T' →
      Moved P c [(c.head, T), (c.head, T')] .again (resetTo P.w P.N T' c)
  | taken {T T' : ℕ} (x : Vector W K) : c.head < T → T ≤ T' →
      T' ≤ wadd P.w c.head (readable P.N) →
      Moved P c [(c.head, T), (c.head, T')] (.done (.ready, some x))
        { c with head := wadd P.w c.head c.interval }

/-- The last of the loads `new` satisfies `fit`, unless it showed nothing to pop. -/
def LastFits (fit : ℕ → Prop) (c : Consumer) (new : List (ℕ × ℕ)) : Prop :=
  ∀ T, new.getLast? = some (c.head, T) → c.head < T → fit T

/-- What holds after a round of `pop` that began at the cursor `c` with the history `tr`. -/
structure Popped (P : Params) (f : ℕ) (fit : ℕ → Prop) (c : Consumer) (tr : Trace W K)
    (r : ConsumerResult W K) (v : ConsumerView W K) : Prop where
  round : ∃ new, Moved P c new r v.cursor ∧ v.trace = { tr with loads := tr.loads ++ new } ∧
    (∀ x ∈ new, x.2 ≤ v.ch.tail) ∧ LastFits fit c new
  value : ∀ st x, r = .done (st, some x) → f ≤ c.head → v.published c.head = some x

theorem Popped.head_lt {c : Consumer} {tr : Trace W K} {r : ConsumerResult W K}
    (h : Popped P f fit c tr r v) {st : ConsumerStatus} {x : Vector W K}
    (hr : r = .done (st, some x)) : c.head < v.ch.tail := by
  obtain ⟨new, hm, _, hseen, _⟩ := h.round
  subst hr
  generalize v.cursor = c' at hm
  cases hm with
  | taken _ hlt hle _ => exact (hlt.trans_le hle).trans_le (hseen (c.head, _) (by simp))

theorem popIter_safe {c : Consumer} {tr : Trace W K} (S : Spot v c tr 0) (hG : G c c)
    (hmove : ∀ new r c', Moved P c new (r : ConsumerResult W K) c' →
      (∀ x ∈ new, x.2 < P.limit) → LastFits fit c new → G c c') :
    Safe (consumerContract P f mine fit false G) (ConsumerOp.pop.code P)
      (Popped P f fit c tr) v := by
  simp only [ConsumerOp.code, popIter, Prog.bind_assoc]
  apply S.safe_loadTail hG
  intro u T _ S _ hT hb
  -- the element at the cursor is published as soon as the tail is beyond it
  have hgood : c.head < T → Good P f u c.head [] := fun hlt hf hle =>
    ⟨_, hb.window c.head hf (by omega) hle, by simp⟩
  have hTlt : T < P.limit := by rw [← hT]; exact hb.tail_lt
  apply S.safe_self hG
  intro u hu S
  by_cases hempty : T ≤ c.head
  · simp only [if_pos hempty, Prog.pure_eq_ret, Prog.ret_bind]
    refine S.ret fun u S => ⟨⟨_, ?_, S.trace, ?_, ?_⟩, fun st x h => by cases h⟩
    · rw [S.cursor]
      exact .caughtUp hempty
    · simpa using S.seen
    · intro T' hT' hlt
      cases hT'
      omega
  have hlt : c.head < T := by omega
  -- the cursor is moved only if the sums formed from the last tail allow it
  have hlast : ∀ (old : List (ℕ × ℕ)) {T' : ℕ}, fit T' →
      LastFits fit c (old ++ [(c.head, T')]) := by
    intro old T' hfit x hx _
    simp only [List.getLast?_concat, Option.some.injEq, Prod.mk.injEq, true_and] at hx
    exact hx ▸ hfit
  have hfits : ∀ {loads : List (ℕ × ℕ)} {T' : ℕ},
      fit (Trace.lastTail ⟨tr.joinedAt, loads ++ [(c.head, T')], tr.popped⟩) → fit T' := by
    intro loads T' h
    rwa [Trace.lastTail_append] at h
  simp only [if_neg hempty]
  by_cases hover : T ≤ wadd P.w c.head (readable P.N)
  · simp only [if_neg (not_not.mpr hover), Prog.bind_assoc]
    apply S.safe_readWords hG ((hgood hlt).stable hu) hlt le_rfl
    intro u xs S g
    apply S.safe_loadTail hG
    intro u T' hc S hle hT' hb
    have hlt' : T' < P.limit := by rw [← hT']; exact hb.tail_lt
    -- decided by the tail just loaded; later the position may well be overwritten
    have hvalue : T' ≤ wadd P.w c.head (readable P.N) → f ≤ c.head →
        u.published c.head = some xs := fun hlate hf =>
      (g.stable hc).value hf (hT'.trans_le (hlate.trans (wadd_le _ _ _)))
    apply S.safe_self hG
    intro u hc S
    have hbound : ∀ x ∈ [(c.head, T), (c.head, T')], x.2 < P.limit := by simp [hTlt, hlt']
    have hseen : ∀ u : ConsumerView W K, T' ≤ u.ch.tail →
        ∀ x ∈ [(c.head, T), (c.head, T')], x.2 ≤ u.ch.tail := by
      intro u hu
      simp only [List.mem_cons, List.not_mem_nil, or_false]
      rintro x (rfl | rfl)
      · exact hle.trans hu
      · exact hu
    by_cases hlate : T' ≤ wadd P.w c.head (readable P.N)
    · simp only [if_neg (not_not.mpr hlate), Prog.bind_assoc, Prog.pure_eq_ret, Prog.ret_bind]
      have hm : Moved P c [(c.head, T), (c.head, T')] (.done (.ready, some xs))
          { c with head := wadd P.w c.head c.interval } := .taken xs hlt hle hlate
      have hrest : Safe (consumerContract P f mine fit false G)
          (do
            update fun c => { c with head := wadd P.w c.head c.interval }
            return .done (.ready, some xs))
          (fun r u => r = (.done (.ready, some xs) : ConsumerResult W K) ∧ fit T' ∧
            Spot u { c with head := wadd P.w c.head c.interval }
              { tr with loads := tr.loads ++ [(c.head, T), (c.head, T')] } T') u :=
        S.safe_update (fun h => hmove _ _ _ hm hbound (hlast [(c.head, T)] (hfits h)))
          fun u h S => S.ret fun u S => ⟨rfl, hfits h, S.cursor, by simpa using S.trace, S.seen⟩
      refine (hrest.frame (P := fun u => f ≤ c.head → u.published c.head = some xs)
        (fun hf => hc.kept _ _ (hvalue hlate hf)) (fun hp hr hf => hr.change.kept _ _ (hp hf))
        (fun hp hg hf => by rw [hg.published]; exact hp hf)).mono ?_
      rintro r u ⟨⟨rfl, hfit, S⟩, hp⟩
      refine ⟨⟨_, by rw [S.cursor]; exact hm, S.trace, hseen u S.seen,
        hlast [(c.head, T)] hfit⟩,
        fun st x h hf => ?_⟩
      cases h
      exact hp hf
    · simp only [if_pos hlate, Prog.bind_assoc, Prog.pure_eq_ret, Prog.ret_bind]
      have hm : Moved P c [(c.head, T), (c.head, T')] (.again : ConsumerResult W K)
          (resetTo P.w P.N T' c) := .overtaken hlt hle (by omega)
      refine S.safe_update
        (fun h => hmove _ _ _ hm hbound (hlast [(c.head, T)] (hfits h)))
        fun u h S => S.ret ?_
      intro u S
      refine ⟨⟨_, by rw [S.cursor]; exact hm, by simpa using S.trace, hseen u S.seen,
        hlast [(c.head, T)] (hfits h)⟩, ?_⟩
      exact fun st x h => by cases h
  · simp only [if_pos hover, Prog.bind_assoc, Prog.pure_eq_ret, Prog.ret_bind]
    have hm : Moved P c [(c.head, T)] (.again : ConsumerResult W K) (resetTo P.w P.N T c) :=
      .overrun hlt (by omega)
    refine S.safe_update
      (fun h => hmove _ _ _ hm (by simpa using hTlt) (hlast [] (hfits h)))
      fun u h S => S.ret ?_
    intro u S
    refine ⟨⟨_, by rw [S.cursor]; exact hm, S.trace, by simpa using S.seen,
      hlast [] (hfits h)⟩, ?_⟩
    intro st x h
    cases h

/-! ### Joining -/

/-- A consumer that has just joined: its cursor is the first position of its residue from the
loaded tail on. -/
structure Arrived (P : Params) (f : ℕ) (mine : ℕ → Prop) (index consumers : ℕ) (c : Consumer)
    (v : ConsumerView W K) : Prop where
  head : c.head = nextModulo P.w v.trace.joinedAt index consumers
  interval : c.interval = consumers
  index_eq : c.consumerIndex = index
  index_lt : index < consumers
  consumers_le : consumers ≤ 64
  from_le : f ≤ v.trace.joinedAt
  joined_le : v.trace.joinedAt ≤ v.ch.tail
  loads : v.trace.loads = []
  popped : v.trace.popped = []
  earlier : ∀ p ∈ v.all, mine p → p < v.trace.joinedAt

theorem Arrived.stable {index consumers : ℕ} {c : Consumer}
    (h : Arrived P f mine index consumers c v)
    (hr : ConsumerRely mine v u) : Arrived P f mine index consumers c u := by
  refine ⟨?_, h.interval, h.index_eq, h.index_lt, h.consumers_le, ?_, ?_, ?_, ?_, ?_⟩ <;>
    rw [hr.trace]
  · exact h.head
  · exact h.from_le
  · exact h.joined_le.trans hr.change.tail_le
  · exact h.loads
  · exact h.popped
  · exact fun p hp hm => h.earlier p (hr.all p hp hm) hm

/-- What the constructor's result means. -/
def JoinPost (P : Params) (f : ℕ) (mine : ℕ → Prop) (index consumers : ℕ) :
    Outcome Consumer → ConsumerView W K → Prop
  | .ok c, v => Arrived P f mine index consumers c v
  | _, _ => True

theorem joinMulti_safe (index consumers : ℕ) (v : ConsumerView W K) :
    Safe (consumerContract P f mine fit true fun _ _ => True)
      (joinMulti P.w P.mode P.N P.buffer index consumers)
      (JoinPost P f mine index consumers) v := by
  unfold joinMulti
  rw [if_neg (by simp [P.valid])]
  by_cases hle : consumers ≤ 64
  swap
  · rw [if_pos hle]
    exact Safe.ret fun u _ => trivial
  by_cases hlt : index < consumers
  swap
  · rw [if_neg (not_not.mpr hle), if_pos hlt]
    exact Safe.ret fun u _ => trivial
  rw [if_neg (not_not.mpr hle), if_neg (not_not.mpr hlt)]
  intro u1 _ hb1
  refine ⟨⟨.refl _, rfl, rfl, trivial⟩, ?_⟩
  intro u2 _ hb2
  refine ⟨⟨.refl _, rfl, rfl, trivial⟩, ?_⟩
  show Safe _ (if u1.ch.magic = MAGIC then if u2.ch.capacity ≠ P.N then _ else _ else _) _ _
  rw [if_pos hb1.1.magic, if_neg (not_not.mpr hb2.1.capacity)]
  intro u3 _ hb3
  refine ⟨⟨.refl _, rfl, rfl, trivial⟩, ?_⟩
  -- from here on only the strong count and the heartbeat are looked at
  have hlast : ∀ t : ConsumerView W K, (∀ n, Arrived P f mine index consumers
      ⟨nextModulo P.w u3.ch.tail index consumers, consumers, index, n⟩ t) →
      Safe (consumerContract P f mine fit true fun _ _ => True)
        (do
          let lastProducerHeartbeat ← load .producerHeartbeat
          return .ok ⟨nextModulo P.w u3.ch.tail index consumers, consumers, index,
            lastProducerHeartbeat⟩) (JoinPost P f mine index consumers) t := by
    intro t ht t1 h1 _
    exact ⟨⟨.refl _, rfl, rfl, trivial⟩, fun t2 h2 => ((ht _).stable h1).stable h2⟩
  have harr : ∀ n, Arrived P f mine index consumers
      ⟨nextModulo P.w u3.ch.tail index consumers, consumers, index, n⟩
      (⟨u3.ch, u3.cursor, u3.published, ⟨u3.ch.tail, [], []⟩, u3.all⟩ : ConsumerView W K) :=
    fun n =>
    ⟨rfl, rfl, rfl, hlt, hle, hb3.1.from_le, le_rfl, rfl, rfl, fun p hp _ => hb3.2.1 p hp⟩
  unfold incrementStrongCount
  cases P.mode.backedByArcc with
  | false => exact hlast _ harr
  | true =>
      intro t ht _
      have q : Quiet t.ch (t.ch.set .strong (wadd P.w t.ch.strong 1)) := Quiet.set t.ch _ (by simp)
      refine ⟨⟨q, rfl, rfl, trivial⟩, hlast _ fun n => ?_⟩
      have ha := (harr n).stable ht
      exact ⟨ha.head, rfl, rfl, ha.index_lt, ha.consumers_le, ha.from_le, ha.joined_le, ha.loads,
        ha.popped, ha.earlier⟩

/-! ### All calls -/

/-- What holds when the code of the call `op`, begun at `c` with the history `tr`, has ended. -/
def ConsumerPost (P : Params) (f : ℕ) (mine fit : ℕ → Prop) (op : ConsumerOp) (c : Consumer)
    (tr : Trace W K) (r : ConsumerResult W K) (v : ConsumerView W K) : Prop :=
  match op with
  | .join index consumers => r = .done (.gone, none) ∨
      r = .done (.ready, none) ∧ Arrived P f mine index consumers v.cursor v ∧
        fit v.trace.joinedAt
  | .pop => Popped P f fit c tr r v
  | .drop => r = .done (.gone, none)
  | .beat | .producerHeartbeat => r = .done (.ready, none) ∧ v.trace = tr ∧
      ∃ n, v.cursor = { c with lastProducerHeartbeat := n }

/-- The relation on the own structure that the actions of a call keep; the constructor is free. -/
def moves (G : Consumer → Consumer → Prop) (op : ConsumerOp) : Consumer → Consumer → Prop :=
  if op.isJoin then fun _ _ => True else G

theorem ConsumerOp.install_safe {index consumers : ℕ} {r : Outcome Consumer}
    (h : JoinPost P f mine index consumers r v) (c : Consumer) (tr : Trace W K) :
    Safe (consumerContract P f mine fit true fun _ _ => True) (ConsumerOp.install r)
      (ConsumerPost P f mine fit (.join index consumers) c tr) v := by
  cases r with
  | ok c =>
      intro u hu hfit
      have ha : Arrived P f mine index consumers c u := Arrived.stable h hu
      have hfit : fit u.trace.joinedAt := by
        have := hfit.2.2 _ rfl
        rwa [Trace.lastTail, ha.loads] at this
      refine ⟨⟨.refl _, rfl, rfl, trivial⟩, fun t ht => .inr ⟨rfl, ?_, ?_⟩⟩
      swap
      · rw [show t.trace = u.trace from ht.trace]
        exact hfit
      have ha' : Arrived P f mine index consumers c t :=
        (show Arrived P f mine index consumers c { u with cursor := c } from
          ⟨ha.head, ha.interval, ha.index_eq, ha.index_lt, ha.consumers_le, ha.from_le,
            ha.joined_le, ha.loads, ha.popped, ha.earlier⟩).stable ht
      rw [show t.cursor = c from ht.cursor]
      exact ha'
  | err e => exact Safe.ret fun t _ => .inl rfl
  | panic => exact Safe.ret fun t _ => .inl rfl

/-- **Every call keeps the consumer's contract.**  For the calls of a joined consumer, `G` has to
allow the rounds of `pop` and a new heartbeat. -/
theorem ConsumerOp.code_safe (op : ConsumerOp) {st : ConsumerStatus} (hen : op.enabled st = true)
    (hbeat : st = .ready → ∀ n, G v.cursor { v.cursor with lastProducerHeartbeat := n })
    (hmove : st = .ready → op = .pop → ∀ new r c',
      Moved P v.cursor new (r : ConsumerResult W K) c' → (∀ x ∈ new, x.2 < P.limit) →
        LastFits fit v.cursor new → G v.cursor c') :
    Safe (consumerContract P f mine fit op.isJoin (moves G op)) (op.code P)
      (ConsumerPost P f mine fit op v.cursor v.trace) v := by
  cases st with
  | gone =>
      cases op with
      | join index consumers =>
          exact Safe.bind ((joinMulti_safe index consumers v).mono fun r u hj =>
            install_safe hj _ _)
      | _ => cases hen
  | ready =>
      have S : Spot v v.cursor v.trace 0 := ⟨rfl, rfl, Nat.zero_le _⟩
      have hG : G v.cursor v.cursor := hbeat rfl v.cursor.lastProducerHeartbeat
      cases op with
      | join index consumers => cases hen
      | pop => exact popIter_safe S hG (hmove rfl rfl)
      | beat =>
          exact S.safe_fetchAdd hG (by simp) fun u r S => S.ret fun u S =>
            ⟨rfl, S.trace, _, S.cursor⟩
      | producerHeartbeat =>
          simp only [code, Headless.producerHeartbeat, Prog.bind_assoc]
          refine S.safe_load hG (by simp) fun u n S => S.safe_self hG ?_
          intro u _ S
          split_ifs with hne
          · exact S.safe_update (fun _ => hbeat rfl n) fun u _ S => S.ret fun u S =>
              ⟨rfl, S.trace, n, S.cursor⟩
          · exact S.ret fun u S => ⟨rfl, S.trace, _, S.cursor⟩
      | drop =>
          unfold ConsumerOp.code dropEndpoint
          cases P.mode.backedByArcc with
          | false => exact S.ret fun u _ => rfl
          | true => exact S.safe_dropArc hG fun u S => S.ret fun u _ => rfl

end consumer

end Que.Headless
