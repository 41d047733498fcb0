import Que.Lossless.System

/-! # What the producer's calls look at

Facts about the code of the calls, whatever the answers to its actions are.

* No call of the producer reads a slot (`NoRead`).
* The calls that open a reservation, write to it and give it up touch neither the header nor the
  producer's counters (`Harmless`).
* The calls that are possible without an open reservation do not look at the reservation that the
  handle may still hold, until they set it themselves (`Blind`). -/

namespace Que.Lossless

open Lib

variable {V : Type} {C : Config}

/-! ### Slots and counters -/

/-- The action does not read a slot. -/
def NoRead : Act Handle V → Prop
  | .read _ => False
  | _ => True

/-- The action touches neither the header nor the producer's counters, and reads no slot. -/
def Harmless : Act Handle V → Prop
  | .load _ | .self | .assign _ _ | .copy _ _ => True
  | .update f => ∀ h, (f h).producer = h.producer
  | _ => False

theorem Harmless.noRead {a : Act Handle V} (h : Harmless a) : NoRead a := by
  cases a <;> trivial

section harmless
variable (w N : ℕ)

theorem copyTo_harmless (i : ℕ) (vs : List V) :
    (copyTo i vs : Proc Handle V Unit).All Harmless (fun _ => True) := by
  induction vs generalizing i with
  | nil => trivial
  | cons v vs ih => exact ⟨trivial, fun _ => ih (i + 1)⟩

theorem copyValues_harmless (i : ℕ) (vs : List V) :
    (Reservation.copyValues w N i vs).All Harmless (fun _ => True) := by
  unfold Reservation.copyValues
  simp only
  split_ifs
  · exact copyTo_harmless i vs
  · exact .bind ((copyTo_harmless i _).mono fun _ _ => copyTo_harmless 0 _)

theorem writeNext_harmless (v : V) :
    (Reservation.writeNext w N v).All Harmless (fun _ => True) := by
  simp [Reservation.writeNext, self, assign, update, Harmless, Handle.setReservation]

theorem writeAll_harmless (vs : List V) :
    (Reservation.writeAll w N vs).All Harmless (fun _ => True) := by
  unfold Reservation.writeAll
  simp only [self, update, Prog.perform_bind, Prog.all_act, Harmless, true_and]
  intro h
  split_ifs
  · trivial
  · trivial
  · refine .bind ((copyValues_harmless _ _ _ vs).mono fun _ _ => ?_)
    exact ⟨fun _ => rfl, fun _ => trivial⟩

theorem writeIterLoop_harmless (items : ℕ → Option V) (fuel i : ℕ) :
    (Reservation.writeIterLoop w N items fuel i).All Harmless (fun _ => True) := by
  induction fuel generalizing i with
  | zero => trivial
  | succ fuel ih =>
      unfold Reservation.writeIterLoop
      cases items i with
      | none => trivial
      | some v =>
          simp only [self, Prog.perform_bind, Prog.all_act, Harmless, true_and]
          intro h
          split_ifs
          · trivial
          · exact .bind ((writeNext_harmless w N v).mono fun _ _ => ih (i + 1))

theorem writeIter_harmless (items : ℕ → Option V) (i : ℕ) :
    (Reservation.writeIter w N items i).All Harmless (fun _ => True) := by
  unfold Reservation.writeIter
  simp only [self, Prog.perform_bind, Prog.all_act, Harmless, true_and]
  intro h
  refine .bind ((writeIterLoop_harmless _ _ _ _ _).mono fun j _ => ?_)
  exact ⟨trivial, fun _ => trivial⟩

theorem reserve_harmless (count : ℕ) :
    (reserve w N count : Proc Handle V _).All Harmless (fun _ => True) := by
  simp [reserve, load, self, update, Harmless, Handle.setReservation]

theorem commit_noRead :
    (Reservation.commit w N : Proc Handle V Unit).All NoRead (fun _ => True) := by
  simp only [Reservation.commit, Lossless.sync, self, update, store, Prog.perform_bind,
    Prog.all_act, NoRead, true_and]
  intro _ _ _ h
  split_ifs
  · exact ⟨trivial, fun _ => ⟨trivial, fun _ => ⟨trivial, fun _ => trivial⟩⟩⟩
  · trivial

end harmless

/-- The calls that open a reservation, write to it and give it up. -/
def ProducerOp.tentative : ProducerOp V → Bool
  | reserve _ | writeNext _ | writeAll _ | writeIter _ _ | cancel => true
  | _ => false

theorem ProducerOp.code_harmless {op : ProducerOp V} (h : op.tentative = true) :
    (op.code C).All Harmless (fun r => r.1 ≠ .gone) := by
  cases op with
  | reserve count =>
      refine .bind ((reserve_harmless _ _ count).mono fun r _ => ?_)
      cases r <;> nofun
  | writeNext v =>
      refine .bind ((writeNext_harmless _ _ v).mono fun r _ => ?_)
      cases r <;> nofun
  | writeAll vs =>
      refine .bind ((writeAll_harmless _ _ vs).mono fun r _ => ?_)
      cases r <;> nofun
  | writeIter items i => exact .bind ((writeIter_harmless _ _ items i).mono fun _ _ => nofun)
  | cancel => nofun
  | _ => cases h

/-- No call on a reservation reads a slot. -/
theorem ProducerOp.code_noRead {op : ProducerOp V} (h : op.enabled .reserved = true) :
    (op.code C).All NoRead (fun _ => True) := by
  cases ht : op.tentative with
  | true => exact ((op.code_harmless ht).imp fun _ => Harmless.noRead).mono fun _ _ => trivial
  | false =>
      cases op with
      | commit => exact .bind ((commit_noRead _ _).mono fun _ _ => trivial)
      | _ => simp [tentative, enabled] at h ht

/-! ### The reservation -/

/-- Code that looks at the producer's counters only, until it sets the reservation itself, and that
reads no slot.  Its results satisfy `q` as long as it has not set the reservation, and `p` after
that. -/
def Blind {α : Type} (p q : α → Prop) : Proc Handle V α → Prop
  | .ret x => q x
  | .act .self k => (∀ h h', h.producer = h'.producer → k h = k h') ∧ ∀ h, Blind p q (k h)
  | .act (.update f) k =>
      (∀ h h', h.producer = h'.producer → (f h).producer = (f h').producer) ∧
      (Blind p q (k ()) ∨
        (∀ h h', h.producer = h'.producer → f h = f h') ∧ (k ()).All NoRead p)
  | .act (.read _) _ => False
  | .act (.load _) k => ∀ r, Blind p q (k r)
  | .act (.store _ _) k => Blind p q (k ())
  | .act (.fetchAdd _ _) k => ∀ r, Blind p q (k r)
  | .act (.assign _ _) k => Blind p q (k ())
  | .act (.copy _ _) k => Blind p q (k ())
  | .act .dropArc k => Blind p q (k ())

section blind
variable {α β : Type} {p q : β → Prop}

theorem Blind.bind {c : Proc Handle V α} {f : α → Proc Handle V β}
    (h : Blind (fun x => (f x).All NoRead p) (fun x => Blind p q (f x)) c) :
    Blind p q (c >>= f) := by
  induction c with
  | ret x => exact h
  | act a k ih =>
      cases a with
      | self =>
          refine ⟨fun h1 h2 e => ?_, fun h1 => ih h1 (h.2 h1)⟩
          exact congrArg (Prog.bind · f) (h.1 h1 h2 e)
      | update g => exact ⟨h.1, h.2.imp (ih ()) fun h2 => ⟨h2.1, Prog.All.bind h2.2⟩⟩
      | read i => exact h
      | load x => exact fun r => ih r (h r)
      | store x v => exact ih () h
      | fetchAdd x v => exact fun r => ih r (h r)
      | assign i v => exact ih () h
      | copy i v => exact ih () h
      | dropArc => exact ih () h

theorem Blind.self {k : Handle → Proc Handle V β}
    (hk : ∀ p r r', k ⟨p, r⟩ = k ⟨p, r'⟩) (h : ∀ x, Blind p q (k x)) :
    Blind p q (Que.self >>= k) := by
  refine ⟨?_, h⟩
  rintro ⟨a, r⟩ ⟨a', r'⟩ e
  cases e
  exact hk a r r'

theorem Blind.load {x : Word} {k : ℕ → Proc Handle V β} (h : ∀ r, Blind p q (k r)) :
    Blind p q (Que.load x >>= k) := h

theorem Blind.store {x : Word} {v : ℕ} {k : Unit → Proc Handle V β} (h : Blind p q (k ())) :
    Blind p q (Que.store x v >>= k) := h

theorem Blind.fetchAdd {x : Word} {v : ℕ} {k : ℕ → Proc Handle V β} (h : ∀ r, Blind p q (k r)) :
    Blind p q (Que.fetchAdd x v >>= k) := h

theorem Blind.assign {i : ℕ} {v : V} {k : Unit → Proc Handle V β} (h : Blind p q (k ())) :
    Blind p q (Que.assign i v >>= k) := h

/-- An update of the producer's counters. -/
theorem Blind.update {f : Handle → Handle} {k : Unit → Proc Handle V β}
    (hf : ∀ p r r', (f ⟨p, r⟩).producer = (f ⟨p, r'⟩).producer) (h : Blind p q (k ())) :
    Blind p q (Que.update f >>= k) := by
  refine ⟨?_, .inl h⟩
  rintro ⟨a, r⟩ ⟨a', r'⟩ e
  cases e
  exact hf a r r'

/-- An update that sets the reservation. -/
theorem Blind.settle {f : Handle → Handle} {k : Unit → Proc Handle V β}
    (hf : ∀ p r r', f ⟨p, r⟩ = f ⟨p, r'⟩) (h : (k ()).All NoRead p) :
    Blind p q (Que.update f >>= k) := by
  have hf' : ∀ h h' : Handle, h.producer = h'.producer → f h = f h' := by
    rintro ⟨a, r⟩ ⟨a', r'⟩ e
    cases e
    exact hf a r r'
  exact ⟨fun h h' e => congrArg Handle.producer (hf' h h' e), .inr ⟨hf', h⟩⟩

/-- The action does not concern the handle or a slot. -/
def Outer : Act Handle V → Prop
  | .load _ | .store _ _ | .fetchAdd _ _ | .dropArc => True
  | _ => False

theorem Blind.of_outer {c : Proc Handle V β} (h : c.All Outer q) : Blind p q c := by
  induction c with
  | ret x => exact h
  | act a k ih =>
      cases a with
      | load x => exact fun r => ih r (h.2 r)
      | store x v => exact ih () (h.2 ())
      | fetchAdd x v => exact fun r => ih r (h.2 r)
      | dropArc => exact ih () (h.2 ())
      | _ => exact h.1.elim

end blind

/-- Code that, if it stores the tail, stores a zero. -/
def StoresZero (a : Act Handle V) : Prop := ∀ t, a = .store .tail t → t = 0

/-- The result of a call that returns without an open reservation. -/
def Unreserved (r : ProducerStatus × List V) : Prop := r.1 ≠ .reserved

theorem install_blind (r : Outcome Producer) :
    Blind (fun _ => True) Unreserved (ProducerOp.install r : Proc Handle V _) := by
  cases r with
  | ok p => exact ⟨fun _ _ _ => rfl, .inl nofun⟩
  | err e => nofun
  | panic => nofun

/-- The constructors touch the header only, and the tail only to reset it. -/
def Opening (a : Act Handle V) : Prop := Outer a ∧ StoresZero a

theorem incrementStrongCount_opening (M : Mode) :
    (incrementStrongCount M : Proc Handle V Unit).All Opening (fun _ => True) := by
  unfold incrementStrongCount
  cases M <;> simp [Mode.backedByArcc, fetchAdd, Opening, Outer, StoresZero]

theorem joinProducer_opening (M : Mode) (N buffer : ℕ) :
    (joinProducer M N buffer : Proc Handle V _).All Opening (fun _ => True) := by
  simp [joinProducer, load, incrementStrongCount_opening, Opening, Outer, StoresZero]

theorem joinOrInitializeIn_opening (M : Mode) (N buffer : ℕ) :
    (joinOrInitializeIn M N buffer : Proc Handle V _).All Opening (fun _ => True) := by
  simp [joinOrInitializeIn, load, store, fetchAdd, incrementStrongCount_opening, Opening, Outer,
    StoresZero]

theorem joinOrCreateShmem_opening (N : ℕ) :
    (joinOrCreateShmem N : Proc Handle V _).All Opening (fun _ => True) := by
  simp [joinOrCreateShmem, load, store, Opening, Outer, StoresZero]

theorem ProducerOp.code_storesZero {op : ProducerOp V} (h : op.isJoin = true) :
    (op.code C).All StoresZero (fun _ => True) := by
  have hinstall : ∀ {c : Proc Handle V (Outcome Producer)}, c.All Opening (fun _ => True) →
      (c >>= install).All StoresZero (fun _ => True) := by
    intro c hc
    refine Prog.All.bind ((hc.imp fun a ha => ha.2).mono fun r _ => ?_)
    cases r with
    | ok p => exact ⟨nofun, fun _ => trivial⟩
    | err e => trivial
    | panic => trivial
  cases op with
  | join => exact hinstall (joinProducer_opening _ _ _)
  | joinOrInitializeIn => exact hinstall (joinOrInitializeIn_opening _ _ _)
  | joinOrCreateShmem => exact hinstall (joinOrCreateShmem_opening _)
  | _ => cases h

theorem push_blind {p q : Outcome Unit → Prop} (hq : ∀ r, q r) (w N : ℕ) (v : V) :
    Blind p q (push w N v) := by
  unfold push
  refine .self (fun _ _ _ => rfl) fun h => .load ?_
  intro head
  simp only
  split_ifs
  · exact hq _
  · exact .assign (.update (fun _ _ _ => rfl) (.update (fun _ _ _ => rfl) (hq _)))

theorem sync_blind {p q : Unit → Prop} (hq : ∀ r, q r) : Blind p q (sync : Proc Handle V Unit) := by
  unfold sync
  exact .update (fun _ _ _ => rfl) (.self (fun _ _ _ => rfl) fun h => .store (k := pure) (hq ()))

theorem consumerHeartbeat_blind {p q : Bool → Prop} (hq : ∀ r, q r) :
    Blind p q (consumerHeartbeat : Proc Handle V Bool) := by
  unfold consumerHeartbeat
  refine .load fun heartbeat => .self (fun _ _ _ => rfl) ?_
  intro h
  split_ifs
  · exact .update (fun _ _ _ => rfl) (hq _)
  · exact hq _

theorem reserve_blind {p q : Outcome Unit → Prop} (hp : ∀ r, p r) (hq : ∀ r, r ≠ .ok () → q r)
    (w N count : ℕ) : Blind p q (reserve w N count : Proc Handle V _) := by
  unfold reserve
  split_ifs
  · exact hq _ nofun
  · exact hq _ nofun
  · refine .load fun head => .self (fun _ _ _ => rfl) ?_
    intro h
    simp only
    split_ifs
    · exact hq _ nofun
    · exact .settle (fun _ _ _ => rfl) (hp _)

/-- The calls that are possible without an open reservation do not look at the one that the handle
may still hold. -/
theorem ProducerOp.code_blind {op : ProducerOp V} {st : ProducerStatus}
    (h : op.enabled st = true) (hst : st ≠ .reserved) :
    Blind (fun _ => True) Unreserved (op.code C) := by
  have hinstall : ∀ {c : Proc Handle V (Outcome Producer)}, c.All Opening (fun _ => True) →
      Blind (fun _ => True) Unreserved (c >>= install) := fun hc =>
    .bind (.of_outer ((hc.imp fun a ha => ha.1).mono fun r _ => install_blind r))
  cases op with
  | join => exact hinstall (joinProducer_opening _ _ _)
  | joinOrInitializeIn => exact hinstall (joinOrInitializeIn_opening _ _ _)
  | joinOrCreateShmem => exact hinstall (joinOrCreateShmem_opening _)
  | push v =>
      refine .bind (push_blind (fun r => ?_) _ _ v)
      cases r <;> nofun
  | sync => exact .bind (sync_blind fun _ => nofun)
  | beat => exact .bind (.fetchAdd (k := fun _ => pure ()) fun _ => nofun)
  | consumerHeartbeat => exact .bind (consumerHeartbeat_blind fun _ => nofun)
  | reserve count =>
      refine .bind (reserve_blind (fun r => ?_) (fun r hr => ?_) _ _ count)
      · cases r <;> trivial
      · cases r with
        | ok _ => exact absurd rfl hr
        | err e => nofun
        | panic => nofun
  | drop =>
      refine .bind ?_
      unfold dropEndpoint
      cases C.mode <;> nofun
  | _ => cases st <;> first | exact absurd rfl hst | cases h

def ProducerOp.isPush : ProducerOp V → Bool
  | push _ => true
  | _ => false

/-- Without an open reservation, only a push writes values. -/
theorem ProducerOp.code_silent {op : ProducerOp V} {st : ProducerStatus} (h : op.enabled st = true)
    (hst : st ≠ .reserved) (hpush : op.isPush = false) :
    (op.code C).All (fun _ => True) (fun r => r.2 = []) := by
  have after : ∀ {α : Type} (c : Proc Handle V α) {f : α → Proc Handle V (ProducerStatus × List V)},
      (∀ x, (f x).All (fun _ => True) (fun r => r.2 = [])) →
      (c >>= f).All (fun _ => True) (fun r => r.2 = []) := fun c _ hf =>
    .bind (c.all_trivial.mono fun x _ => hf x)
  have hinstall : ∀ r : Outcome Producer,
      (install r : Proc Handle V _).All (fun _ => True) (fun r => r.2 = []) := by
    intro r
    cases r with
    | ok p => exact ⟨trivial, fun _ => rfl⟩
    | err e => rfl
    | panic => rfl
  cases op with
  | join => exact after _ hinstall
  | joinOrInitializeIn => exact after _ hinstall
  | joinOrCreateShmem => exact after _ hinstall
  | push v => cases hpush
  | sync => exact after _ fun _ => rfl
  | beat => exact after _ fun _ => rfl
  | consumerHeartbeat => exact after _ fun _ => rfl
  | reserve count =>
      apply after _
      intro r
      cases r <;> rfl
  | drop => exact after _ fun _ => rfl
  | _ => cases st <;> first | exact absurd rfl hst | cases h

end Que.Lossless
