import Que.Lossless.Fifo
import Que.Answers

/-! # One call of the producer, watched to its return

The consumer keeps moving while the producer is inside a call.  `During C s t` says that the run
from `s` to `t` stays inside one call, and `Sound.during` carries a specification of the code,
proved once against every environment, to the state in which the call returns.  `Acts C s n t` also
counts the producer's own actions.

`commit_publishes_iff` is a first use: a commit publishes exactly when nothing is pending after
all, or a burst is. -/

namespace Que.Lossless

open Lib

variable {V : Type} {C : Config}

/-! ### Inside a call -/

/-- The producer is inside a call. -/
def State.calling (s : State V) : Bool :=
  match s.producer with
  | .rest _ => false
  | .busy _ _ _ => true

/-- The result that a call of the producer is about to return. -/
def State.returning (s : State V) : Option (ProducerStatus × List V) :=
  match s.producer with
  | .busy _ _ (.ret r) => some r
  | _ => none

def State.resting (s : State V) : Option ProducerStatus :=
  match s.producer with
  | .rest st => some st
  | .busy _ _ _ => none

theorem State.rest_of_resting {s : State V} {st : ProducerStatus} (h : s.resting = some st) :
    s.producer = .rest st := by
  unfold resting at h
  cases hp : s.producer with
  | rest st' =>
      rw [hp] at h
      cases h
      rfl
  | busy start op code => simp [hp] at h

/-- The state in which the producer has just made the call `op`. -/
def State.called (C : Config) (s : State V) (op : ProducerOp V) : State V :=
  { s with producer := .busy s.handle op (op.code C) }

/-- A run that stays inside a call of the producer. -/
abbrev During (C : Config) : State V → State V → Prop :=
  Relation.ReflTransGen fun s t => Step C s t ∧ t.calling = true

/-- The state after a schedule that stays inside a call. -/
def State.movesDuring (C : Config) (s : State V) : List (Move V) → Option (State V)
  | [] => some s
  | m :: ms => (s.move C m).bind fun t => if t.calling then t.movesDuring C ms else none

theorem State.movesDuring_cons {m : Move V} {ms : List (Move V)} {s t : State V}
    (h : s.movesDuring C (m :: ms) = some t) :
    ∃ u, s.move C m = some u ∧ u.calling = true ∧ u.movesDuring C ms = some t := by
  simp only [movesDuring, Option.bind_eq_some_iff] at h
  obtain ⟨u, hu, ht⟩ := h
  split_ifs at ht with hc
  exact ⟨u, hu, hc, ht⟩

theorem State.movesDuring_during {ms : List (Move V)} {s t : State V}
    (h : s.movesDuring C ms = some t) : During C s t := by
  induction ms generalizing s with
  | nil =>
      cases h
      exact .refl
  | cons m ms ih =>
      obtain ⟨u, hu, hc, ht⟩ := movesDuring_cons h
      exact .head ⟨move_step hu, hc⟩ (ih ht)

/-- `Acts C s n t`: a run inside a call of the producer leads from `s` to `t`, in which the producer
performs `n` actions. -/
inductive Acts (C : Config) (s : State V) : ℕ → State V → Prop
  | refl : Acts C s 0 s
  | other {n : ℕ} {t u : State V} : Acts C s n t → Step C t u → u.producer = t.producer →
      Acts C s n u
  | own {n : ℕ} {t : State V} {start : Handle} {op : ProducerOp V} {a : Act Handle V}
      {k : a.Ans → Proc Handle V (ProducerStatus × List V)} : Acts C s n t →
      t.producer = .busy start op (.act a k) →
      Acts C s (n + 1) (t.producerDoes C a fun x => .busy start op (k x))

namespace Acts
variable {s t u : State V} {n m : ℕ}

theorem trans (h : Acts C s n t) (h' : Acts C t m u) : Acts C s (n + m) u := by
  induction h' with
  | refl => exact h
  | other _ hstep hsame ih => exact ih.other hstep hsame
  | own _ hp ih => exact ih.own hp

theorem reach (h : Acts C s n t) : Reach C s t := by
  induction h with
  | refl => exact .refl
  | other _ hstep _ ih => exact ih.tail hstep
  | own _ hp ih => exact ih.tail (.producerAct hp)

end Acts

theorem During.acts {s t : State V} (hs : s.calling = true) (h : During C s t) :
    ∃ n, Acts C s n t := by
  induction h with
  | refl => exact ⟨0, .refl⟩
  | @tail u t hr hstep ih =>
      obtain ⟨n, hn⟩ := ih
      have hu : u.calling = true := by
        cases hr with
        | refl => exact hs
        | tail _ h => exact h.2
      obtain ⟨hstep, ht⟩ := hstep
      cases hstep with
      | producerCall op hrest => simp [State.calling, hrest] at hu
      | producerAct hp => exact ⟨n + 1, hn.own hp⟩
      | producerReturn _ => cases ht
      | producerStop => cases ht
      | consumerCall op hc hen => exact ⟨n, hn.other (.consumerCall op hc hen) rfl⟩
      | consumerAct hc => exact ⟨n, hn.other (.consumerAct hc) rfl⟩
      | consumerReturn hc => exact ⟨n, hn.other (.consumerReturn hc) rfl⟩
      | consumerStop => exact ⟨n, hn.other .consumerStop rfl⟩

/-- The `m`-th action of the call is the last one, and its result is `r`; `n` actions have been
performed. -/
def State.EndsAt (t : State V) (n m : ℕ) (r : ProducerStatus × List V) : Prop :=
  n ≤ m ∧ t.returning = if n = m then some r else none

/-- A step of the consumer leaves the producer's side alone. -/
theorem handle_of_other {t u : State V} (hstep : Step C t u) {start : Handle} {op : ProducerOp V}
    {code : Proc Handle V (ProducerStatus × List V)} (hp : t.producer = .busy start op code)
    (hsame : u.producer = t.producer) : u.handle = t.handle := by
  cases hstep with
  | producerCall op' hrest => cases hp.symm.trans hrest
  | producerAct hbusy =>
      rw [hbusy] at hsame
      simp only [State.producerDoes, Thread.busy.injEq, true_and] at hsame
      exact absurd hsame.symm (Prog.act_ne _ _ _)
  | producerReturn hbusy => cases hsame.trans hp
  | producerStop => cases hsame.trans hp
  | _ => rfl

/-- Code that performs `m` actions, in a run in which `n` of them have been performed. -/
theorem Acts.exactly {s t : State V} {n m : ℕ} {r : ProducerStatus × List V} {start : Handle}
    {op : ProducerOp V} {code : Proc Handle V (ProducerStatus × List V)} (h : Acts C s n t)
    (hp : s.producer = .busy start op code) (hc : Exactly anyAnswer m r code s.handle) :
    n ≤ m ∧ ∃ code', t.producer = .busy start op code' ∧
      Exactly anyAnswer (m - n) r code' t.handle := by
  induction h with
  | refl => exact ⟨Nat.zero_le m, code, hp, hc⟩
  | other _ hstep hsame ih =>
      obtain ⟨hle, code', hp', hc'⟩ := ih
      refine ⟨hle, code', hsame.trans hp', ?_⟩
      rw [handle_of_other hstep hp' hsame]
      exact hc'
  | @own n t start' op' a k _ hp' ih =>
      obtain ⟨hle, code', hbusy, hc'⟩ := ih
      rw [hp'] at hbusy
      cases hbusy
      obtain ⟨l, hl, hk⟩ := exactly_act.mp hc'
      obtain ⟨hmay, hown⟩ := step_anyAnswer C.w a t.ch t.handle
      refine ⟨by omega, _, rfl, ?_⟩
      rw [show m - (n + 1) = l by omega]
      simp only [State.producerDoes]
      rw [hown]
      exact hk _ hmay

theorem Acts.endsAt {s t : State V} {n m : ℕ} {r : ProducerStatus × List V} {start : Handle}
    {op : ProducerOp V} {code : Proc Handle V (ProducerStatus × List V)} (h : Acts C s n t)
    (hp : s.producer = .busy start op code) (hc : Exactly anyAnswer m r code s.handle) :
    t.EndsAt n m r := by
  obtain ⟨hle, code', hp', hc'⟩ := h.exactly hp hc
  refine ⟨hle, ?_⟩
  unfold State.returning
  rw [hp']
  cases code' with
  | ret r' =>
      obtain ⟨hz, rfl⟩ := exactly_ret.mp hc'
      rw [if_pos (by omega)]
  | act a k =>
      obtain ⟨l, hl, -⟩ := exactly_act.mp hc'
      rw [if_neg (by omega)]

theorem Acts.still {s t : State V} (h : Acts C s 0 t) {start : Handle} {op : ProducerOp V}
    {code : Proc Handle V (ProducerStatus × List V)} (hp : s.producer = .busy start op code) :
    t.producer = .busy start op code ∧ t.handle = s.handle := by
  generalize hn : 0 = n at h
  induction h with
  | refl => exact ⟨hp, rfl⟩
  | other _ hstep hsame ih =>
      obtain ⟨h1, h2⟩ := ih hn
      exact ⟨hsame.trans h1, (handle_of_other hstep h1 hsame).trans h2⟩
  | own _ _ _ => cases hn

/-- A run with an action, cut at the first one. -/
theorem Acts.first {s t : State V} {n : ℕ} {start : Handle} {op : ProducerOp V} {a : Act Handle V}
    {k : a.Ans → Proc Handle V (ProducerStatus × List V)} (h : Acts C s n t)
    (hp : s.producer = .busy start op (.act a k)) :
    n = 0 ∨ ∃ u, Acts C s 0 u ∧ u.producer = .busy start op (.act a k) ∧ u.handle = s.handle ∧
      Acts C (u.producerDoes C a fun x => .busy start op (k x)) (n - 1) t := by
  induction h with
  | refl => exact .inl rfl
  | other _ hstep hsame ih =>
      rcases ih with h0 | ⟨u, h0, hu, hh, h1⟩
      · exact .inl h0
      · exact .inr ⟨u, h0, hu, hh, h1.other hstep hsame⟩
  | @own n t start' op' a' k' h hp' ih =>
      right
      rcases ih with rfl | ⟨u, h0, hu, hh, h1⟩
      · obtain ⟨hstill, hh⟩ := h.still hp
        rw [hp'] at hstill
        cases hstill
        exact ⟨t, h, hp', hh, .refl⟩
      · rcases Nat.eq_zero_or_pos n with rfl | hpos
        · obtain ⟨hstill, hh'⟩ := h.still hp
          rw [hp'] at hstill
          cases hstill
          exact ⟨t, h, hp', hh', .refl⟩
        · refine ⟨u, h0, hu, hh, ?_⟩
          rw [show n + 1 - 1 = n - 1 + 1 by omega]
          exact h1.own hp'

/-- The producer moves alone. -/
theorem acts_of_replicate {n : ℕ} {s t : State V} (hs : s.calling = true)
    (h : s.movesDuring C (List.replicate n .producerGo) = some t) : Acts C s n t := by
  induction n generalizing s with
  | zero =>
      cases h
      exact .refl
  | succ n ih =>
      obtain ⟨u, hu, hc, ht⟩ := State.movesDuring_cons h
      have hone : Acts C s 1 u := by
        cases hp : s.producer with
        | rest st => simp [State.calling, hp] at hs
        | busy start op code =>
            cases code with
            | act a k =>
                simp only [State.move, hp, Option.some.injEq] at hu
                exact hu ▸ Acts.refl.own hp
            | ret r =>
                simp only [State.move, hp, Option.some.injEq] at hu
                rw [← hu] at hc
                cases hc
      rw [Nat.add_comm]
      exact hone.trans (ih hc ht)

/-- The contract of a producer of which nothing is required but its code. -/
def watchContract (C : Config) : Contract (Act Handle V) Act.Ans (ProducerView V) :=
  { producerContract C fun _ => True with guar := fun _ _ _ => True }

/-- A fact about the rest of the code and the view that the producer's own actions and the steps of
the consumer keep holds as long as the call goes on. -/
theorem Sound.during {s t : State V} (S : Sound C s) {start : Handle} {op : ProducerOp V}
    {I : Proc Handle V (ProducerStatus × List V) → ProducerView V → Prop}
    (env : ∀ {c v u}, I c v → ProducerRely C v u → I c u)
    (own : ∀ {a k v}, I (.act a k) v → (watchContract C).asm a v →
      I (k ((watchContract C).step a v).1) ((watchContract C).step a v).2)
    {code : Proc Handle V (ProducerStatus × List V)} (hp : s.producer = .busy start op code)
    (hs : I code s.producerView) (h : During C s t) :
    Sound C t ∧ ∃ code', t.producer = .busy start op code' ∧ I code' t.producerView := by
  induction h with
  | refl => exact ⟨S, code, hp, hs⟩
  | @tail u t _ hstep ih =>
      obtain ⟨Su, code', hp, hs⟩ := ih
      obtain ⟨hstep, hcall⟩ := hstep
      refine ⟨Su.step hstep, ?_⟩
      cases hstep with
      | producerCall op hrest =>
          rw [hp] at hrest
          cases hrest
      | producerAct hbusy =>
          rw [hp] at hbusy
          cases hbusy
          exact ⟨_, rfl, own hs ⟨Su.base, fun _ => Su.room⟩⟩
      | producerReturn _ => cases hcall
      | producerStop => cases hcall
      | consumerCall op _ _ => exact ⟨code', hp, hs⟩
      | consumerAct hc =>
          refine ⟨code', hp, env hs ?_⟩
          exact ⟨rfl, rfl, rfl, (Su.consumer_act hc).1.change⟩
      | consumerReturn _ => exact ⟨code', hp, hs⟩
      | consumerStop => exact ⟨code', hp, hs⟩

theorem Sound.returns {s t : State V} (S : Sound C s) {start : Handle} {op : ProducerOp V}
    {code : Proc Handle V (ProducerStatus × List V)}
    {Q : ProducerStatus × List V → ProducerView V → Prop} {r : ProducerStatus × List V}
    (hp : s.producer = .busy start op code) (hs : Safe (watchContract C) code Q s.producerView)
    (h : During C s t) (ht : t.returning = some r) : Q r t.producerView := by
  obtain ⟨_, code', hp', hs'⟩ := S.during (I := fun c v => Safe (watchContract C) c Q v)
    (fun hc hr => hc.stable hr) (fun hc ha => (hc.own ha).2) hp hs h
  unfold State.returning at ht
  rw [hp'] at ht
  cases code' with
  | act a k => cases ht
  | ret r' =>
      cases ht
      exact hs'.done

section watch
variable {v : ProducerView V} {α : Type} {Q : α → ProducerView V → Prop}

theorem watch_self {k : Handle → Proc Handle V α}
    (h : ∀ u, ProducerRely C v u → Safe (watchContract C) (k v.handle) Q u) :
    Safe (watchContract C) (self >>= k) Q v := by
  intro u hu _
  have hk := h u hu
  rw [← hu.handle] at hk
  exact ⟨trivial, hk⟩

theorem watch_update {f : Handle → Handle} {k : Unit → Proc Handle V α}
    (h : ∀ u, ProducerRely C v u →
      Safe (watchContract C) (k ()) Q { u with handle := f v.handle }) :
    Safe (watchContract C) (update f >>= k) Q v := by
  intro u hu _
  have hk := h u hu
  rw [← hu.handle] at hk
  exact ⟨trivial, hk⟩

/-- The last action of a call stores the tail. -/
theorem watch_storeTail {T : ℕ} {k : Unit → Proc Handle V α}
    (h : ∀ u : ProducerView V, u.ch.tail = T → Safe (watchContract C) (k ()) Q u) :
    Safe (watchContract C) (store .tail T >>= k) Q v := by
  intro u _ _
  exact ⟨trivial, h _ rfl⟩

theorem watch_ret {x : α} (h : ∀ u, ProducerRely C v u → Q x u) :
    Safe (watchContract C) (pure x) Q v := h

end watch

/-! ### Commit -/

theorem commit_watch {v : ProducerView V} (hv : Open C v) :
    Safe (watchContract C) (ProducerOp.code C .commit)
      (fun _ u => u.ch.tail =
        if burstAmount C.N ≤ v.handle.producer.written + v.handle.reservation.written then
          v.handle.reservation.startTail + v.handle.reservation.written
        else v.ch.tail) v := by
  obtain ⟨own, hcount, hstart⟩ := hv
  have hle := own.fill_le
  have hlt := own.lt
  simp only [List.length_nil] at hle
  have hadd1 : wadd C.w v.handle.producer.tail v.handle.reservation.written =
      v.handle.reservation.startTail + v.handle.reservation.written := by
    rw [hstart]
    exact wadd_of_lt (by omega)
  have hadd2 : wadd C.w v.handle.producer.written v.handle.reservation.written =
      v.handle.producer.written + v.handle.reservation.written := wadd_of_lt (by omega)
  simp only [ProducerOp.code, Reservation.commit, Prog.bind_assoc]
  refine watch_update fun u1 h1 => watch_update fun u2 h2 => watch_update ?_
  intro u3 h3
  apply watch_self
  intro u4 h4
  simp only [Handle.setReservation, Handle.setTail, Handle.setWritten, hadd1, hadd2, ge_iff_le]
  split_ifs with hsync
  · simp only [sync, Prog.bind_assoc]
    refine watch_update fun u5 h5 => watch_self fun u6 h6 => watch_storeTail ?_
    intro u hu
    apply watch_ret
    intro u' hu'
    rw [hu'.change.tail, hu]
    simp only [Handle.setWritten, h4.handle]
    exact hadd1
  · apply watch_ret
    intro u5 h5
    rw [h5.change.tail, h4.change.tail, h3.change.tail, h2.change.tail, h1.change.tail]

/-- **When a commit publishes.**  In every reachable state with an open reservation, and whatever
the consumer does during the commit: when it returns, the shared tail is behind the last value
written exactly if nothing at all was pending, or the values pending reached a burst. -/
theorem commit_publishes_iff (C : Config) {op : ProducerOp V} (hop : op.initialises = true) (z : V)
    {s t : State V} (h : Reach C (State.initial C op (Channel.zeroed z)) s)
    (hs : s.producer = .rest .reserved) (hrun : During C (s.called C .commit) t)
    {r : ProducerStatus × List V} (ht : t.returning = some r) :
    t.ch.tail = s.handle.reservation.startTail + s.handle.reservation.written ↔
      s.handle.producer.written + s.handle.reservation.written = 0 ∨
      burstAmount C.N ≤ s.handle.producer.written + s.handle.reservation.written := by
  have S := (initial_sound (C := C) hop (m := Channel.zeroed z) rfl rfl).run h
  have hopen : Open C s.producerView := by
    have hf := S.producer
    rw [hs] at hf
    exact hf
  have hcall : Step C s (s.called C .commit) :=
    .producerCall .commit hs rfl (by
      have h1 := hopen.1.fill_le
      have h2 := hopen.1.lt
      simp only [List.length_nil, State.producerView] at h1 h2
      simp only [ProducerOp.demand]
      omega)
  have htail := (S.step hcall).returns rfl (commit_watch hopen) hrun ht
  obtain ⟨_, hcount, hstart⟩ := hopen
  simp only [State.producerView] at hcount hstart
  by_cases hb : burstAmount C.N ≤ s.handle.producer.written + s.handle.reservation.written
  · have htail : t.ch.tail = _ := htail.trans (if_pos hb)
    exact ⟨fun _ => .inr hb, fun _ => htail⟩
  · have htail : t.ch.tail = s.ch.tail := htail.trans (if_neg hb)
    rw [htail]
    constructor
    · intro e
      left
      omega
    · rintro (e | e)
      · omega
      · exact absurd e hb

/-- A reservation of three slots with the values `values` written one by one, and its commit: the
state before the commit, and the state in which it is about to return. -/
def commitRun (values : List ℕ) : Option (State ℕ × State ℕ) :=
  ((State.initial Config.eight .joinOrInitializeIn (Channel.zeroed 0)).moves Config.eight
    (producerRuns (.reserve 3) 4 ++
      values.flatMap fun v => producerRuns (.writeNext v) 4)).bind fun s =>
    ((s.called Config.eight .commit).movesDuring Config.eight
      (List.replicate (if values.length < 2 then 4 else 7) .producerGo)).map fun t => (s, t)

theorem commitRun_spec {values : List ℕ} {s t : State ℕ} (h : commitRun values = some (s, t)) :
    Reach Config.eight (State.initial Config.eight .joinOrInitializeIn (Channel.zeroed 0)) s ∧
      During Config.eight (s.called Config.eight .commit) t := by
  simp only [commitRun, Option.bind_eq_some_iff, Option.map_eq_some_iff] at h
  obtain ⟨s', hs, t', ht, e⟩ := h
  cases e
  exact ⟨State.moves_reach hs, State.movesDuring_during ht⟩

/-- Two values are a burst of a ring of eight slots. -/
theorem commit_publishes_two : ∃ s t : State ℕ, commitRun [7, 8] = some (s, t) ∧
    t.ch.tail = s.handle.reservation.startTail + s.handle.reservation.written := by
  have h : (commitRun [7, 8]).map (fun st => (st.1.resting, st.2.returning,
      st.1.handle.producer.written, st.1.handle.reservation.written)) =
      some (some .reserved, some (.ready, []), 0, 2) := by
    decide +kernel
  obtain ⟨⟨s, t⟩, hst, e⟩ := Option.map_eq_some_iff.mp h
  simp only [Prod.mk.injEq] at e
  obtain ⟨h1, h2, h3, h4⟩ := e
  obtain ⟨hs, ht⟩ := commitRun_spec hst
  refine ⟨s, t, hst, (commit_publishes_iff _ rfl 0 hs (State.rest_of_resting h1) ht h2).mpr ?_⟩
  right
  rw [h3, h4]
  decide

/-- One value is not: it is committed, and the shared tail stays at zero. -/
theorem not_commit_publishes_one : ∃ s t : State ℕ,
    Reach Config.eight (State.initial Config.eight .joinOrInitializeIn (Channel.zeroed 0)) s ∧
    s.producer = .rest .reserved ∧ During Config.eight (s.called Config.eight .commit) t ∧
    t.returning = some (.ready, []) ∧
    t.ch.tail = 0 ∧ s.handle.reservation.startTail + s.handle.reservation.written = 1 := by
  have h : (commitRun [7]).map (fun st => (st.1.resting, st.2.returning, st.2.ch.tail,
      st.1.handle.reservation.startTail + st.1.handle.reservation.written)) =
      some (some .reserved, some (.ready, []), 0, 1) := by
    decide +kernel
  obtain ⟨⟨s, t⟩, hst, e⟩ := Option.map_eq_some_iff.mp h
  simp only [Prod.mk.injEq] at e
  obtain ⟨h1, h2, h3, h4⟩ := e
  obtain ⟨hs, ht⟩ := commitRun_spec hst
  exact ⟨s, t, hs, State.rest_of_resting h1, ht, h2, h3, h4⟩

end Que.Lossless
