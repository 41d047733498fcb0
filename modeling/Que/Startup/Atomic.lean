import Que.Startup.System

/-! # Initialisation is atomic for a joiner

The magic is stored last, so a joiner that sees it finds the capacity and a tail of the new
channel (`Published`).  Each party is verified against a contract: the initialiser relies on the
joiner not touching tail, capacity and magic, and guarantees that a channel once published stays
published with a growing tail (`Onward`). -/

namespace Que.Startup

open Lib

variable {L V : Type} {C : Config} {B : Prop}

/-! ### The contracts -/

/-- Either the channel is not yet there for a joiner, or it is complete. -/
def Published (C : Config) (v : View L V) : Prop :=
  v.ch.magic = 0 ∨ (v.ch.magic = MAGIC ∧ v.ch.capacity = C.N ∧ v.ch.tail ∈ v.stored)

/-- What the initialiser guarantees; `B` says that its counter does not reach the limit. -/
structure Onward (B : Prop) (v u : View L V) : Prop where
  magic : v.ch.magic = MAGIC → u.ch.magic = MAGIC
  tail_le : B → v.ch.magic = MAGIC → v.ch.tail ≤ u.ch.tail
  head : u.ch.head = v.ch.head
  stored : ∀ t ∈ v.stored, t ∈ u.stored

/-- What the initialiser relies on: the joiner leaves the words of the producer alone. -/
structure Same (v u : View L V) : Prop where
  own : u.own = v.own
  stored : u.stored = v.stored
  tail : u.ch.tail = v.ch.tail
  magic : u.ch.magic = v.ch.magic
  capacity : u.ch.capacity = v.ch.capacity

theorem Same.refl (v : View L V) : Same v v := ⟨rfl, rfl, rfl, rfl, rfl⟩

theorem Same.trans {v u t : View L V} (h : Same v u) (h' : Same u t) : Same v t :=
  ⟨h'.own.trans h.own, h'.stored.trans h.stored, h'.tail.trans h.tail, h'.magic.trans h.magic,
    h'.capacity.trans h.capacity⟩

theorem Published.same {v u : View L V} (h : Published C v) (hs : Same v u) : Published C u := by
  unfold Published
  rw [hs.magic, hs.capacity, hs.tail, hs.stored]
  exact h

theorem Onward.refl (v : View L V) : Onward B v v := ⟨id, fun _ _ => le_rfl, rfl, fun _ h => h⟩

theorem Onward.trans {v u t : View L V} (h : Onward B v u) (h' : Onward B u t) : Onward B v t :=
  ⟨fun hm => h'.magic (h.magic hm),
    fun hB hm => (h.tail_le hB hm).trans (h'.tail_le hB (h.magic hm)),
    h'.head.trans h.head, fun x hx => h'.stored x (h.stored x hx)⟩

/-- Where tail and magic stay, the initialiser has kept its word. -/
theorem Onward.of_same {v u : View L V} (h : Same v u) (hh : u.ch.head = v.ch.head) :
    Onward B v u :=
  ⟨h.magic.trans, fun _ _ => h.tail.ge, hh, fun x hx => by rwa [h.stored]⟩

/-- As long as the magic is zero, only the head matters. -/
theorem Onward.of_zero {v u : View L V} (hm : v.ch.magic = 0) (hh : u.ch.head = v.ch.head)
    (hs : ∀ t ∈ v.stored, t ∈ u.stored) : Onward B v u :=
  ⟨fun h => absurd (h.symm.trans hm) MAGIC_ne_zero,
    fun _ h => absurd (h.symm.trans hm) MAGIC_ne_zero, hh, hs⟩

/-- The contract of the initialiser. -/
def initialiserContract (C : Config) (B : Prop) : Contract (Act L V) Act.Ans (View L V) where
  step a v := ((a.step C.w (v.ch, v.own)).1, v.initialiserDoes C.w a)
  asm _ _ := True
  rely := Same
  guar _ v u := Onward B v u ∧ Published C u
  rely_refl := Same.refl
  rely_trans := Same.trans

/-- The contract of the joiner. -/
def joinerContract (C : Config) (B : Prop) : Contract (Act Unit V) Act.Ans (View L V) where
  step a v := ((a.step C.w (v.ch, ())).1, v.joinerDoes C.w a)
  asm _ v := Published C v
  rely v u := Onward B v u ∧ u.touched = v.touched
  guar _ := Same
  rely_refl v := ⟨Onward.refl v, rfl⟩
  rely_trans h h' := ⟨h.1.trans h'.1, h'.2.trans h.2⟩

/-! ### Rules for the initialiser -/

section rules
variable {α : Type} {Q : α → View L V → Prop} {v : View L V}

/-- The actions that leave tail, head, magic and capacity alone. -/
def idle : Act L V → Bool
  | .store x _ | .fetchAdd x _ => x == .producerHeartbeat || x == .consumerHeartbeat || x == .strong
  | .update _ => false
  | _ => true

theorem same_of_idle {a : Act L V} (h : idle a = true) (w : ℕ) (v : View L V) :
    Same v (v.initialiserDoes w a) ∧ (v.initialiserDoes w a).ch.head = v.ch.head := by
  cases a with
  | store x n | fetchAdd x n =>
      cases x with
      | producerHeartbeat | consumerHeartbeat | strong => exact ⟨⟨rfl, rfl, rfl, rfl, rfl⟩, rfl⟩
      | _ => cases h
  | update f => cases h
  | _ => exact ⟨⟨rfl, rfl, rfl, rfl, rfl⟩, rfl⟩

theorem safe_idle {a : Act L V} {k : a.Ans → Proc L V α} (ha : idle a = true)
    (hp : Published C v) (h : ∀ u t, Same v u → Same v t →
      Safe (initialiserContract C B) (k (a.step C.w (u.ch, u.own)).1) Q t) :
    Safe (initialiserContract C B) (.act a k) Q v := by
  intro u hu _
  obtain ⟨hs, hh⟩ := same_of_idle ha C.w u
  exact ⟨⟨.of_same hs hh, (hp.same hu).same hs⟩, h u _ hu (hu.trans hs)⟩

theorem safe_update {f : L → L} {k : Unit → Proc L V α} (hp : Published C v)
    (h : ∀ u, Same v u → Safe (initialiserContract C B) (k ()) Q { u with own := f v.own }) :
    Safe (initialiserContract C B) (.act (.update f) k) Q v := by
  intro u hu _
  refine ⟨⟨⟨id, fun _ _ => le_rfl, rfl, fun _ hx => hx⟩, show Published C u from hp.same hu⟩, ?_⟩
  have := h u hu
  rwa [← hu.own] at this

/-- Storing a tail: once the channel is published, it must not go back. -/
theorem safe_storeTail {t : ℕ} {k : Unit → Proc L V α} (hp : Published C v)
    (ht : B → v.ch.magic = MAGIC → v.ch.tail ≤ t)
    (h : ∀ u, Same v u → Safe (initialiserContract C B) (k ()) Q
      { u with ch := u.ch.set .tail t, stored := t :: u.stored }) :
    Safe (initialiserContract C B) (.act (.store .tail t) k) Q v := by
  intro u hu _
  refine ⟨⟨⟨id, fun hB hm => ?_, rfl, fun x hx => List.mem_cons_of_mem _ hx⟩, ?_⟩, h u hu⟩
  · exact hu.tail.trans_le (ht hB (hu.magic.symm.trans hm))
  · exact (hp.same hu).imp id fun ⟨h1, h2, _⟩ => ⟨h1, h2, List.mem_cons_self⟩

/-- Storing the capacity while the magic is zero. -/
theorem safe_storeCapacity {n : ℕ} {k : Unit → Proc L V α} (hm : v.ch.magic = 0)
    (h : ∀ u, Same v u → Safe (initialiserContract C B) (k ()) Q
      { u with ch := u.ch.set .capacity n }) :
    Safe (initialiserContract C B) (.act (.store .capacity n) k) Q v := fun u hu _ =>
  ⟨⟨.of_zero (hu.magic.trans hm) rfl fun _ hx => hx, .inl (hu.magic.trans hm)⟩, h u hu⟩

/-- Storing the magic: everything else has to be in place. -/
theorem safe_storeMagic {n : ℕ} {k : Unit → Proc L V α} (hm : v.ch.magic = 0)
    (hn : n = 0 ∨ (n = MAGIC ∧ v.ch.capacity = C.N ∧ v.ch.tail ∈ v.stored))
    (h : ∀ u, Same v u → Safe (initialiserContract C B) (k ()) Q
      { u with ch := u.ch.set .magic n }) :
    Safe (initialiserContract C B) (.act (.store .magic n) k) Q v := by
  intro u hu _
  refine ⟨⟨.of_zero (hu.magic.trans hm) rfl fun _ hx => hx, ?_⟩, h u hu⟩
  rw [← hu.capacity, ← hu.tail, ← hu.stored] at hn
  exact hn

end rules

/-! ### The initialisation -/

section initialisation
variable {v u : View L V}

/-- The header words reset so far: the tail if `t`, the capacity if `c`. -/
structure Reset (C : Config) (t c : Prop) (v : View L V) : Prop where
  tail : t → v.ch.tail = 0 ∧ v.ch.tail ∈ v.stored
  capacity : c → v.ch.capacity = C.N

theorem Reset.same {t c : Prop} (h : Reset C t c v) (hs : Same v u) : Reset C t c u := by
  constructor
  · rw [hs.tail, hs.stored]
    exact h.tail
  · rw [hs.capacity]
    exact h.capacity

/-- What an initialising constructor leaves behind. -/
structure Initialised (C : Config) (r : Outcome Producer) (v : View L V) : Prop where
  result : ∃ heartbeat, r = .ok ⟨0, 0, heartbeat⟩
  magic : v.ch.magic = MAGIC
  reset : Reset C True True v

theorem Initialised.same {r : Outcome Producer} (h : Initialised C r v) (hs : Same v u) :
    Initialised C r u :=
  ⟨h.result, hs.magic.trans h.magic, h.reset.same hs⟩

/-- The end of both constructors: the capacity and the magic are stored, and the consumer's
heartbeat is read. -/
theorem publish_safe {M : Mode} (hm : v.ch.magic = 0) (hv : Reset C True False v) :
    Safe (initialiserContract C B)
      (do
        store .capacity C.N
        store .magic MAGIC
        incrementStrongCount M
        let lastConsumerHeartbeat ← load .consumerHeartbeat
        return Outcome.ok (⟨0, 0, lastConsumerHeartbeat⟩ : Producer))
      (Initialised C) v := by
  have finish : ∀ u : View L V, u.ch.magic = MAGIC → Reset C True True u →
      Safe (initialiserContract C B) (load .consumerHeartbeat >>= fun x => .ret (.ok ⟨0, 0, x⟩))
        (Initialised C) u := by
    intro u hu hr
    refine safe_idle rfl (.inr ⟨hu, hr.capacity trivial, (hr.tail trivial).2⟩) ?_
    intro t t' _ ht'
    exact Safe.ret fun t'' ht'' =>
      ⟨⟨_, rfl⟩, (ht'.trans ht'').magic.trans hu, hr.same (ht'.trans ht'')⟩
  apply safe_storeCapacity hm
  intro u hu
  have hu' : Reset C True True { u with ch := u.ch.set .capacity C.N } :=
    ⟨(hv.same hu).tail, fun _ => rfl⟩
  refine safe_storeMagic (hu.magic.trans hm) (.inr ⟨rfl, rfl, (hu'.tail trivial).2⟩) ?_
  intro t ht
  have ht' : Reset C True True { t with ch := t.ch.set .magic MAGIC } :=
    ⟨(hu'.same ht).tail, (hu'.same ht).capacity⟩
  cases M with
  | shmem => exact finish _ rfl ht'
  | «local» =>
      refine safe_idle rfl (.inr ⟨rfl, ht'.capacity trivial, (ht'.tail trivial).2⟩) ?_
      exact fun x y _ hy => finish y hy.magic (ht'.same hy)

theorem lossless_joinOrInitializeIn_safe (hm : v.ch.magic = 0) :
    Safe (initialiserContract C B) (Lossless.joinOrInitializeIn C.mode C.N C.buffer)
      (Initialised C) v := by
  simp only [Lossless.joinOrInitializeIn, C.valid, Bool.true_eq_false, if_false]
  apply safe_idle rfl (.inl hm)
  intro t u ht hu
  have hu0 := hu.magic.trans hm
  apply safe_idle rfl (.inl hu0)
  intro _ v₁ _ hv₁
  have h1 := hv₁.magic.trans hu0
  have hz : t.ch.get .magic = 0 := ht.magic.trans hm
  simp only [Act.step, hz, MAGIC_ne_zero.symm, if_false, if_true]
  apply safe_storeTail (.inl h1) (fun _ h => absurd (h.symm.trans h1) MAGIC_ne_zero)
  intro v₂ hv₂
  have h2 := hv₂.magic.trans h1
  refine safe_idle rfl (.inl h2) ?_
  intro _ v₃ _ hv₃
  have h3 := hv₃.magic.trans h2
  apply safe_idle rfl (.inl h3)
  intro _ v₄ _ hv₄
  refine publish_safe (hv₄.magic.trans h3) (Reset.same (Reset.same ?_ hv₃) hv₄)
  exact ⟨fun _ => ⟨rfl, List.mem_cons_self⟩, False.elim⟩

theorem headless_joinOrInitializeIn_safe (hm : v.ch.magic = 0) :
    Safe (initialiserContract C B) (Headless.joinOrInitializeIn C.mode C.N C.buffer)
      (Initialised C) v := by
  simp only [Headless.joinOrInitializeIn, C.valid, Bool.true_eq_false, if_false]
  apply safe_idle rfl (.inl hm)
  intro t u ht hu
  have hu0 := hu.magic.trans hm
  apply safe_idle rfl (.inl hu0)
  intro _ v₁ _ hv₁
  have h1 := hv₁.magic.trans hu0
  have hz : t.ch.get .magic = 0 := ht.magic.trans hm
  simp only [Act.step, hz, MAGIC_ne_zero.symm, if_false, if_true]
  apply safe_storeMagic h1 (.inl rfl)
  intro v₂ _
  apply safe_storeTail (.inl rfl) (fun _ h => absurd h.symm MAGIC_ne_zero)
  intro v₃ hv₃
  refine safe_idle rfl (.inl hv₃.magic) ?_
  intro _ v₄ _ hv₄
  have h4 := hv₄.magic.trans hv₃.magic
  apply safe_idle rfl (.inl h4)
  intro _ v₅ _ hv₅
  refine publish_safe (hv₅.magic.trans h4) (Reset.same (Reset.same ?_ hv₄) hv₅)
  exact ⟨fun _ => ⟨rfl, List.mem_cons_self⟩, False.elim⟩

end initialisation

/-! ### Pushes and syncs -/

section calls
variable {α : Type} {Q : α → View L V → Prop} {v u : View L V} {tail : L → ℕ} {n : ℕ}

/-- A producer that runs on the published channel: its local tail is not behind the shared one
and leaves room for `n` pushes. -/
structure Running (C : Config) (B : Prop) (tail : L → ℕ) (n : ℕ) (v : View L V) : Prop where
  magic : v.ch.magic = MAGIC
  capacity : v.ch.capacity = C.N
  stored : v.ch.tail ∈ v.stored
  bound : B → v.ch.tail ≤ tail v.own ∧ tail v.own + n < 2 ^ C.w

namespace Running

theorem published (h : Running C B tail n v) : Published C v :=
  .inr ⟨h.magic, h.capacity, h.stored⟩

theorem same (h : Running C B tail n v) (hs : Same v u) : Running C B tail n u :=
  ⟨hs.magic.trans h.magic, hs.capacity.trans h.capacity, by rw [hs.tail, hs.stored]; exact h.stored,
    by rw [hs.tail, hs.own]; exact h.bound⟩

/-- The own structure is replaced by one with the same local tail. -/
theorem own (h : Running C B tail n v) {o : L} (ho : tail o = tail v.own) :
    Running C B tail n { v with own := o } :=
  ⟨h.magic, h.capacity, h.stored, by simpa only [ho] using h.bound⟩

/-- The local tail moves on by one. -/
theorem next (h : Running C B tail (n + 1) v) {o : L} (ho : tail o = wadd C.w (tail v.own) 1) :
    Running C B tail n { v with own := o } := by
  refine ⟨h.magic, h.capacity, h.stored, fun hB => ?_⟩
  obtain ⟨h1, h2⟩ := h.bound hB
  rw [wadd_of_lt (by omega)] at ho
  simp only [ho]
  omega

/-- Fewer pushes are left. -/
theorem skip (h : Running C B tail (n + 1) v) : Running C B tail n v :=
  ⟨h.magic, h.capacity, h.stored, fun hB => ⟨(h.bound hB).1, by have := (h.bound hB).2; omega⟩⟩

/-- Actions that leave the header alone. -/
theorem safe_idle {a : Act L V} {k : a.Ans → Proc L V α} (ha : idle a = true)
    (h : Running C B tail n v) (hk : ∀ u t, Same v u → Running C B tail n t → t.own = v.own →
      Safe (initialiserContract C B) (k (a.step C.w (u.ch, u.own)).1) Q t) :
    Safe (initialiserContract C B) (.act a k) Q v :=
  Startup.safe_idle ha h.published fun u t hu ht => hk u t hu (h.same ht) ht.own

theorem safe_own {f : L → L} {k : Unit → Proc L V α} (h : Running C B tail n v)
    (hf : tail (f v.own) = tail v.own)
    (hk : ∀ u, Running C B tail n u → u.own = f v.own → Safe (initialiserContract C B) (k ()) Q u) :
    Safe (initialiserContract C B) (.act (.update f) k) Q v :=
  safe_update h.published fun u hu => hk _ ((h.same hu).own (by rw [hf, hu.own])) rfl

theorem safe_next {f : L → L} {k : Unit → Proc L V α} (h : Running C B tail (n + 1) v)
    (hf : tail (f v.own) = wadd C.w (tail v.own) 1)
    (hk : ∀ u, Running C B tail n u → u.own = f v.own → Safe (initialiserContract C B) (k ()) Q u) :
    Safe (initialiserContract C B) (.act (.update f) k) Q v :=
  safe_update h.published fun u hu => hk _ ((h.same hu).next (by rw [hf, hu.own])) rfl

/-- Storing the local tail. -/
theorem safe_storeTail {t : ℕ} {k : Unit → Proc L V α} (h : Running C B tail n v)
    (ht : t = tail v.own)
    (hk : ∀ u, Running C B tail n u → Safe (initialiserContract C B) (k ()) Q u) :
    Safe (initialiserContract C B) (.act (.store .tail t) k) Q v := by
  subst ht
  refine Startup.safe_storeTail h.published (fun hB _ => (h.bound hB).1) fun u hu => hk _ ?_
  have hr := h.same hu
  exact ⟨hr.magic, hr.capacity, List.mem_cons_self, fun hB => ⟨(congrArg tail hu.own).ge,
    (hr.bound hB).2⟩⟩

/-- The producer that an initialising constructor returned. -/
theorem installed {r : Outcome Producer} {o : L} (h : Initialised C r v) (ho : tail o = 0)
    (hB : B → n < 2 ^ C.w) : Running C B tail n { v with own := o } :=
  ⟨h.magic, h.reset.capacity trivial, (h.reset.tail trivial).2, fun hb =>
    ⟨(h.reset.tail trivial).1.trans_le (Nat.zero_le _), by simpa [ho] using hB hb⟩⟩

end Running

end calls

section lossless
variable {v : View Lossless.Handle V} {n : ℕ}

/-- The running assertion of a lossless producer. -/
abbrev LosslessRunning (C : Config) (B : Prop) (n : ℕ) : View Lossless.Handle V → Prop :=
  Running C B (fun h => h.producer.tail) n

theorem lossless_sync_safe (h : LosslessRunning C B n v) :
    Safe (initialiserContract C B) Lossless.sync (fun _ => LosslessRunning C B n) v := by
  apply h.safe_own rfl
  intro v₁ h₁ e₁
  apply h₁.safe_idle rfl
  intro u v₂ hu h₂ e₂
  refine h₂.safe_storeTail ?_ fun v₃ h₃ => Safe.ret fun t ht => h₃.same ht
  change u.own.producer.tail = _
  rw [hu.own, e₂]

theorem lossless_push_safe {x : V} (h : LosslessRunning C B (n + 1) v) :
    Safe (initialiserContract C B) (Lossless.push C.w C.N x)
      (fun _ => LosslessRunning C B n) v := by
  apply h.safe_idle rfl
  intro u v₁ _ h₁ _
  apply h₁.safe_idle rfl
  intro u' v₂ _ h₂ _
  dsimp only [Prog.bind]
  split_ifs with hfull
  · exact Safe.ret fun t ht => h₂.skip.same ht
  · apply h₂.safe_idle rfl
    intro _ v₃ _ h₃ _
    apply h₃.safe_next rfl
    intro v₄ h₄ _
    exact h₄.safe_own rfl fun v₅ h₅ _ => Safe.ret fun t ht => h₅.same ht

theorem lossless_produce_safe (calls : List (Option V))
    (h : LosslessRunning C B (calls.countP Option.isSome) v) :
    Safe (initialiserContract C B) (Lossless.produce C.w C.N calls) (fun _ _ => True) v := by
  induction calls generalizing v with
  | nil => exact Safe.ret fun _ _ => trivial
  | cons call calls ih =>
      cases call with
      | none => exact Safe.bind ((lossless_sync_safe h).mono fun _ u hu => ih hu)
      | some x =>
          rw [List.countP_cons_of_pos rfl] at h
          refine Safe.bind ((lossless_push_safe h).mono fun r u hu => ?_)
          exact Safe.bind ((ih hu).mono fun rs t _ => Safe.ret fun _ _ => trivial)

end lossless

section headless
variable {v : View Producer V} {n : ℕ}

/-- The running assertion of a headless producer. -/
abbrev HeadlessRunning (C : Config) (B : Prop) (n : ℕ) : View Producer V → Prop :=
  Running C B (fun p => p.tail) n

theorem headless_sync_safe (h : HeadlessRunning C B n v) :
    Safe (initialiserContract C B) Headless.sync (fun _ => HeadlessRunning C B n) v := by
  apply h.safe_own rfl
  intro v₁ h₁ e₁
  apply h₁.safe_idle rfl
  intro u v₂ hu h₂ e₂
  refine h₂.safe_storeTail ?_ fun v₃ h₃ => Safe.ret fun t ht => h₃.same ht
  change u.own.tail = _
  rw [hu.own, e₂]

theorem assignWords_safe (i : ℕ) (xs : List V) (h : HeadlessRunning C B n v) :
    Safe (initialiserContract C B) (Headless.assignWords i xs) (fun _ => HeadlessRunning C B n)
      v := by
  induction xs generalizing i v with
  | nil => exact Safe.ret fun t ht => h.same ht
  | cons x xs ih => exact h.safe_idle rfl fun _ u _ hu _ => ih (i + 1) hu

theorem headless_push_safe {K : ℕ} {x : Vector V K} (h : HeadlessRunning C B (n + 1) v) :
    Safe (initialiserContract C B) (Headless.push C.w C.N x)
      (fun _ => HeadlessRunning C B n) v := by
  have rest : ∀ u : View Producer V, HeadlessRunning C B (n + 1) u →
      Safe (initialiserContract C B) (do
        let p ← self
        Headless.assignWords ((p.tail &&& moduloMask C.N) * K) x.toList
        update fun p => { p with tail := wadd C.w p.tail 1 }
        update fun p => { p with written := wadd C.w p.written 1 })
      (fun _ => HeadlessRunning C B n) u := by
    intro u hu
    apply hu.safe_idle rfl
    intro _ v₁ _ h₁ _
    dsimp only [Prog.bind]
    refine Safe.bind ((assignWords_safe _ _ h₁).mono fun _ v₂ h₂ => ?_)
    apply h₂.safe_next rfl
    intro v₃ h₃ _
    exact h₃.safe_own rfl fun v₄ h₄ _ => Safe.ret fun t ht => h₄.same ht
  apply h.safe_idle rfl
  intro u v₁ _ h₁ _
  dsimp only [Prog.bind]
  split_ifs with hburst
  · exact Safe.bind ((headless_sync_safe h₁).mono fun _ v₂ h₂ => rest v₂ h₂)
  · exact rest v₁ h₁

theorem headless_produce_safe {K : ℕ} (calls : List (Option (Vector V K)))
    (h : HeadlessRunning C B (calls.countP Option.isSome) v) :
    Safe (initialiserContract C B) (Headless.produce C.w C.N calls) (fun _ _ => True) v := by
  induction calls generalizing v with
  | nil => exact Safe.ret fun _ _ => trivial
  | cons call calls ih =>
      cases call with
      | none => exact Safe.bind ((headless_sync_safe h).mono fun _ u hu => ih hu)
      | some x =>
          rw [List.countP_cons_of_pos rfl] at h
          exact Safe.bind ((headless_push_safe h).mono fun _ u hu => ih hu)

end headless

/-- The initialiser keeps its contract on memory whose magic is zero. -/
theorem Initialiser.code_safe (p : Initialiser V) {v : View p.Own V} (hm : v.ch.magic = 0) :
    Safe (initialiserContract C (p.pushes < 2 ^ C.w)) (p.code C) (fun _ _ => True) v := by
  cases p with
  | lossless calls =>
      refine Safe.bind ((lossless_joinOrInitializeIn_safe hm).mono fun r u hu => ?_)
      obtain ⟨heartbeat, rfl⟩ := hu.result
      refine safe_update (.inr ⟨hu.magic, hu.reset.capacity trivial, (hu.reset.tail trivial).2⟩)
        fun t ht => ?_
      have hr := lossless_produce_safe calls (Running.installed (hu.same ht)
        (o := { u.own with producer := ⟨0, 0, heartbeat⟩ }) rfl id)
      exact Safe.bind (c := Lossless.produce C.w C.N calls)
        (hr.mono fun _ _ _ => Safe.ret fun _ _ => trivial)
  | headless K calls =>
      refine Safe.bind ((headless_joinOrInitializeIn_safe hm).mono fun r u hu => ?_)
      obtain ⟨heartbeat, rfl⟩ := hu.result
      refine safe_update (.inr ⟨hu.magic, hu.reset.capacity trivial, (hu.reset.tail trivial).2⟩)
        fun t ht => ?_
      exact headless_produce_safe calls (Running.installed (hu.same ht) rfl id)

/-! ### The joiner -/

section joiner
variable {α : Type} {Q : α → View L V → Prop} {v u : View L V} {j : Joiner} {t : ℕ}

/-- The joiner starts from the stored tail `t`. -/
structure Adopted (B : Prop) (j : Joiner) (t : ℕ) (v : View L V) : Prop where
  stored : t ∈ v.stored
  magic : v.ch.magic = MAGIC
  head_le : j = .lossless → B → v.ch.head ≤ v.ch.tail

theorem Adopted.stable (h : Adopted B j t v) (ho : Onward B v u) : Adopted B j t u := by
  refine ⟨ho.stored t h.stored, ho.magic h.magic, fun hj hB => ?_⟩
  rw [ho.head]
  exact (h.head_le hj hB).trans (ho.tail_le hB h.magic)

/-- What the join returns. -/
def JoinPost (C : Config) (B : Prop) (j : Joiner) (r : Outcome ℕ) (v : View L V) : Prop :=
  (r = .err .uninitialized ∧ v.touched = false) ∨
    ∃ t, r = .ok (j.cursor C.w t) ∧ Adopted B j t v

theorem JoinPost.stable {r : Outcome ℕ} (h : JoinPost C B j r v) (ho : Onward B v u)
    (ht : u.touched = v.touched) : JoinPost C B j r u :=
  h.imp (fun h => ⟨h.1, ht.trans h.2⟩) fun ⟨t, h1, h2⟩ => ⟨t, h1, h2.stable ho⟩

theorem safe_load {x : Word} {k : ℕ → Proc Unit V α}
    (h : ∀ u, Onward B v u → u.touched = v.touched → Published C u →
      Safe (joinerContract C B) (k (u.ch.get x)) Q u) :
    Safe (joinerContract C B) (load x >>= k) Q v :=
  fun u hu hp => ⟨Same.refl u, h u hu.1 hu.2 hp⟩

/-- The end of both joins: the handle is counted and the producer's heartbeat is read. -/
theorem adopted_safe {M : Mode} {mk : ℕ → α} {cursor : α → ℕ} (h : Adopted B j t v)
    (hc : ∀ x, cursor (mk x) = j.cursor C.w t) :
    Safe (joinerContract C B)
      (do
        incrementStrongCount M
        let lastProducerHeartbeat ← load .producerHeartbeat
        return Outcome.ok (mk lastProducerHeartbeat))
      (fun r => JoinPost C B j (r.map cursor)) v := by
  have finish : ∀ u : View L V, Adopted B j t u → Safe (joinerContract C B)
      (load .producerHeartbeat >>= fun x => .ret (Outcome.ok (mk x)))
      (fun r => JoinPost C B j (r.map cursor)) u := by
    intro u hu
    refine safe_load fun x hx _ _ => Safe.ret fun y hy => .inr ⟨t, ?_, (hu.stable hx).stable hy.1⟩
    simp only [Outcome.map, hc]
  cases M with
  | shmem => exact finish v h
  | «local» =>
      intro u hu _
      have := h.stable hu.1
      exact ⟨⟨rfl, rfl, rfl, rfl, rfl⟩, finish _ ⟨this.stored, this.magic, this.head_le⟩⟩

/-- A joiner that sees the magic finds the capacity and a stored tail. -/
theorem Published.of_magic (h : Published C v) (hm : v.ch.magic = MAGIC) :
    v.ch.capacity = C.N ∧ v.ch.tail ∈ v.stored := by
  rcases h with h | ⟨_, h⟩
  · exact absurd (hm.symm.trans h) MAGIC_ne_zero
  · exact h

/-- The beginning of both joins, up to the load of the tail: `found` continues with the tail. -/
theorem check_safe {found : Proc Unit V (Outcome α)} {cursor : α → ℕ} (hv : v.touched = false)
    (h : ∀ u : View L V, u.ch.magic = MAGIC →
      Safe (joinerContract C B) found (fun r => JoinPost C B j (r.map cursor)) u) :
    Safe (joinerContract C B)
      (do
        let magic ← load .magic
        let capacity ← load .capacity
        if magic = MAGIC then
          if capacity ≠ C.N then
            return .err (.incorrectCapacity capacity)
          else
            found
        else if magic = 0 then
          return .err .uninitialized
        else
          return .err .corruptionDetected)
      (fun r => JoinPost C B j (r.map cursor)) v := by
  refine safe_load fun u _ hut hup => safe_load ?_
  intro x hx hxt hxp
  rcases hup with h0 | ⟨hm, -⟩
  · have hz : u.ch.get .magic = 0 := h0
    simp only [hz, MAGIC_ne_zero.symm, if_false, if_true]
    exact Safe.ret fun y hy => .inl ⟨rfl, hy.2.trans (hxt.trans (hut.trans hv))⟩
  · have hm' : u.ch.get .magic = MAGIC := hm
    have hcap : x.ch.get .capacity = C.N := (hxp.of_magic (hx.magic hm)).1
    simp only [hm', hcap, ne_eq, not_true, if_true, if_false]
    exact h x (hx.magic hm)

/-- Both joins keep the contract of the joiner. -/
theorem Joiner.code_safe (j : Joiner) (hv : v.touched = false) :
    Safe (joinerContract C B) (j.code C) (JoinPost C B j) v := by
  have done : ∀ {α : Type} {cursor : α → ℕ} {c : Proc Unit V (Outcome α)},
      Safe (joinerContract C B) c (fun r => JoinPost C B j (r.map cursor)) v →
      Safe (joinerContract C B) (c >>= fun r => .ret (r.map cursor)) (JoinPost C B j) v :=
    fun hc => Safe.bind (hc.mono fun r u hr => Safe.ret fun t ht => hr.stable ht.1 ht.2)
  cases j with
  | lossless =>
      apply done
      simp only [Lossless.joinConsumer, C.valid, Bool.true_eq_false, if_false]
      refine check_safe hv fun u hm => safe_load ?_
      intro x hx _ hxp
      have hxm := hx.magic hm
      intro y hy _
      refine ⟨⟨rfl, rfl, rfl, rfl, rfl⟩, adopted_safe (t := x.ch.tail) ⟨?_, ?_, ?_⟩ fun _ => rfl⟩
      · exact hy.1.stored _ (hxp.of_magic hxm).2
      · exact hy.1.magic hxm
      · exact fun _ hB => hy.1.tail_le hB hxm
  | headless index consumers h1 h2 =>
      apply done
      simp only [Headless.joinMulti, C.valid, Bool.true_eq_false, if_false, h1, h2, not_true]
      refine check_safe hv fun u hm => safe_load ?_
      intro x hx _ hxp
      have hxm := hx.magic hm
      exact adopted_safe ⟨(hxp.of_magic hxm).2, hxm, fun h => by cases h⟩ fun _ => rfl

end joiner

/-! ### Every interleaving -/

/-- The invariant of start-up: the channel is complete once it is visible, and both parties are
safe for the code they still have to run. -/
structure Invariant (C : Config) (B : Prop) (j : Joiner) (s : State L V) : Prop where
  published : Published C s.view
  initialiser : Safe (initialiserContract C B) s.initialiser (fun _ _ => True) s.view
  joiner : Safe (joinerContract C B) s.joiner (JoinPost C B j) s.view

theorem Invariant.step {j : Joiner} {s t : State L V} (I : Invariant C B j s) (h : Step C.w s t) :
    Invariant C B j t := by
  cases h with
  | initialiser hp =>
      have hs := I.initialiser
      rw [hp] at hs
      obtain ⟨hg, hk⟩ := hs.own trivial
      exact ⟨hg.2, hk, I.joiner.stable ⟨hg.1, rfl⟩⟩
  | joiner hj =>
      have hs := I.joiner
      rw [hj] at hs
      obtain ⟨hg, hk⟩ := hs.own I.published
      exact ⟨I.published.same hg, I.initialiser.stable hg, hk⟩

theorem Invariant.run {j : Joiner} {s t : State L V} (I : Invariant C B j s)
    (h : Reach C.w s t) : Invariant C B j t := by
  induction h with
  | refl => exact I
  | tail _ hstep ih => exact ih.step hstep

theorem initial_invariant (p : Initialiser V) (j : Joiner) {m : Channel V} (hm : m.magic = 0) :
    Invariant C (p.pushes < 2 ^ C.w) j (State.initial C p j m) :=
  ⟨.inl hm, p.code_safe hm, j.code_safe rfl⟩

/-- **Initialisation is atomic for a joiner.**  Whatever the memory contains besides a zero
magic, and however the actions interleave: a join that has returned either found the channel
uninitialised and wrote nothing, or it succeeded with a cursor taken from a tail that the
initialiser had stored; a lossless join then leaves the head at most at the tail, also after all
later steps of a producer whose counter does not overflow. -/
theorem join_atomic (C : Config) (p : Initialiser V) (j : Joiner) {m : Channel V}
    (hm : m.magic = 0) {s : State p.Own V} (h : Reach C.w (State.initial C p j m) s)
    {r : Outcome ℕ} (hr : s.joiner = .ret r) :
    (r = .err .uninitialized ∧ s.view.touched = false) ∨
      ∃ t ∈ s.view.stored, r = .ok (j.cursor C.w t) ∧
        (j = .lossless → p.pushes < 2 ^ C.w → s.view.ch.head ≤ s.view.ch.tail) := by
  have hs := ((initial_invariant p j hm).run h).joiner
  rw [hr] at hs
  rcases hs.done with hu | ⟨t, ht, ha⟩
  · exact .inl hu
  · exact .inr ⟨t, ha.stored, ht, ha.head_le⟩

theorem State.joiner_of_result {s : State L V} {r : Outcome ℕ} (h : s.result = some r) :
    s.joiner = .ret r := by
  cases hj : s.joiner with
  | ret x =>
      simp only [result, hj, Option.some.injEq] at h
      rw [h]
  | act a k => simp [result, hj] at h

/-- A joiner that looks just after the magic is stored, in memory with a stale tail and a stale
capacity, and finishes after the producer has published a first element. -/
theorem join_atomic_small : ∃ s : State Lossless.Handle ℕ,
    Reach 64 (State.initial Config.small (.lossless [some 5, none]) .lossless
      { Channel.zeroed 0 with tail := 9, capacity := 77 }) s ∧
    s.joiner = .ret (.ok 0) ∧ s.view.stored = [1, 0] ∧
    ((Outcome.ok 0 = .err .uninitialized ∧ s.view.touched = false) ∨
      ∃ t ∈ s.view.stored, Outcome.ok 0 = .ok (Joiner.lossless.cursor 64 t) ∧
        (Joiner.lossless = .lossless → 1 < 2 ^ 64 → s.view.ch.head ≤ s.view.ch.tail)) := by
  have h : ((State.initial Config.small (.lossless [some 5, none]) .lossless
      { Channel.zeroed 0 with tail := 9, capacity := 77 }).moves 64
      (List.replicate 7 .initialiser ++ List.replicate 3 .joiner ++
        List.replicate 11 .initialiser ++ List.replicate 3 .joiner)).map
      (fun s => (s.result, s.view.stored)) = some (some (.ok 0), [1, 0]) := by
    decide +kernel
  obtain ⟨s, hs, hr⟩ := Option.map_eq_some_iff.mp h
  have hj := s.joiner_of_result (congrArg Prod.fst hr)
  exact ⟨s, State.moves_reach hs, hj, congrArg Prod.snd hr,
    join_atomic Config.small (.lossless [some 5, none]) .lossless rfl (State.moves_reach hs) hj⟩

end Que.Startup
