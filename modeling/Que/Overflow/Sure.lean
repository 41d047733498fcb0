import Que.Overflow.Code
import Que.Lossless.Alike

/-! # Code whose arithmetic is in range

The operands of an addition or subtraction are fields of the endpoint's own structure, constants and
words that were loaded before.  The own structure is changed by the endpoint only, so its arithmetic
can be followed without looking at the other side: `Sure w cond c Q l` says that every addition and
subtraction of `c` is in range, whatever the loads answer, as long as the answers satisfy `cond`;
`l` is the own structure. -/

namespace Que

open Lib

section sure
variable {L V α β : Type}

/-- The own structure after an action. -/
def Act.own : Act L V → L → L
  | .update f, l => f l
  | _, l => l

/-- What an action may be answered, where loads are answered as `cond` says. -/
def Act.MayAnswer (cond : Word → L → ℕ → Prop) : (a : Act L V) → L → a.Ans → Prop
  | .load x, l, n => cond x l n
  | .self, l, r => r = l
  | _, _, _ => True

/-- All arithmetic of the code is in range, and its result and the own structure after it satisfy
`Q`. -/
def Sure (w : ℕ) (cond : Word → L → ℕ → Prop) :
    CheckedProc L V α → (α → L → Prop) → L → Prop
  | .ret x, Q, l => Q x l
  | .act (.inl a) k, Q, l => ∀ r, a.MayAnswer cond l r → Sure w cond (k r) Q (a.own l)
  | .act (.inr site) k, Q, l => (site l).arith.InRange w ∧ Sure w cond (k ()) Q l

/-- The answer of a step and the own structure after it. -/
theorem Act.step_mayAnswer (w : ℕ) {cond : Word → L → ℕ → Prop} (a : Act L V) {ch : Channel V}
    {l : L} (h : ∀ x, cond x l (ch.get x)) :
    a.MayAnswer cond l (a.step w (ch, l)).1 ∧ (a.step w (ch, l)).2.2 = a.own l := by
  cases a with
  | load x => exact ⟨h x, rfl⟩
  | self => exact ⟨rfl, rfl⟩
  | _ => exact ⟨trivial, rfl⟩

namespace Sure
variable {w : ℕ} {cond : Word → L → ℕ → Prop} {Q : β → L → Prop} {l : L}

/-- One action of sure code. -/
theorem act {a : Act L V} {k : a.Ans → CheckedProc L V β}
    (h : Sure w cond (.act (.inl a) k) Q l) (ch : Channel V) (hc : ∀ x, cond x l (ch.get x))
    (w₀ : ℕ) :
    Sure w cond (k (a.step w₀ (ch, l)).1) Q (a.step w₀ (ch, l)).2.2 := by
  obtain ⟨h1, h2⟩ := a.step_mayAnswer w₀ hc
  rw [h2]
  exact h _ h1

theorem bind {c : CheckedProc L V α} {f : α → CheckedProc L V β}
    (h : Sure w cond c (fun x l => Sure w cond (f x) Q l) l) : Sure w cond (c >>= f) Q l := by
  induction c generalizing l with
  | ret x => exact h
  | act a k ih =>
      cases a with
      | inl a => exact fun r hr => ih r (h r hr)
      | inr site => exact ⟨h.1, ih () h.2⟩

theorem mono {c : CheckedProc L V β} {Q' : β → L → Prop} (h : Sure w cond c Q l)
    (hQ : ∀ x l, Q x l → Q' x l) : Sure w cond c Q' l := by
  induction c generalizing l with
  | ret x => exact hQ x l h
  | act a k ih =>
      cases a with
      | inl a => exact fun r hr => ih r (h r hr)
      | inr site => exact ⟨h.1, ih () h.2⟩

theorem ite {p : Prop} [Decidable p] {c d : CheckedProc L V β} (h1 : p → Sure w cond c Q l)
    (h2 : ¬ p → Sure w cond d Q l) : Sure w cond (if p then c else d) Q l := by
  split_ifs with hp
  · exact h1 hp
  · exact h2 hp

theorem check_bind {a : L → Arith} {f : Unit → CheckedProc L V β} (ha : (a l).InRange w)
    (hf : Sure w cond (f ()) Q l) : Sure w cond (check a >>= f) Q l := ⟨ha, hf⟩

theorem checkWrapping_bind {a : L → Arith} {f : Unit → CheckedProc L V β} (ha : (a l).InRange w)
    (hf : Sure w cond (f ()) Q l) : Sure w cond (checkWrapping a >>= f) Q l := ⟨ha, hf⟩

theorem load_bind {x : Word} {f : ℕ → CheckedProc L V β}
    (hf : ∀ n, cond x l n → Sure w cond (f n) Q l) :
    Sure w cond (plain (load x) >>= f) Q l := hf

theorem self_bind {f : L → CheckedProc L V β} (hf : Sure w cond (f l) Q l) :
    Sure w cond (plain self >>= f) Q l := by
  rintro r rfl
  exact hf

theorem update_bind {g : L → L} {f : Unit → CheckedProc L V β} (hf : Sure w cond (f ()) Q (g l)) :
    Sure w cond (plain (update g) >>= f) Q l := fun _ _ => hf

/-- Code without arithmetic keeps what its updates keep. -/
theorem plain {c : Proc L V β} {P : L → Prop} {q : β → Prop} (hP : P l)
    (hc : c.All (fun a => ∀ l, P l → P (a.own l)) q) :
    Sure w cond (plain c) (fun x l => q x ∧ P l) l := by
  induction c generalizing l with
  | ret x => exact ⟨hc, hP⟩
  | act a k ih => exact fun r _ => ih r (hc.1 l hP) (hc.2 r)

/-- Code without arithmetic is sure. -/
theorem plain_true {c : Proc L V β} : Sure w cond (Que.plain c) (fun _ _ => True) l := by
  induction c generalizing l with
  | ret x => trivial
  | act a k ih => exact fun r _ => ih r

/-- Code without arithmetic that leaves the own structure alone. -/
theorem plain_bind {c : Proc L V α} {f : α → CheckedProc L V β}
    (hc : c.All (fun a => ∀ l, a.own l = l) fun _ => True) (hf : ∀ x, Sure w cond (f x) Q l) :
    Sure w cond (Que.plain c >>= f) Q l := by
  have hkeep : c.All (fun a => ∀ l', l' = l → a.own l' = l) fun _ => True :=
    hc.imp fun a ha l' hl' => (ha l').trans hl'
  refine bind ((plain (P := fun l' => l' = l) rfl hkeep).mono ?_)
  rintro x l' ⟨-, rfl⟩
  exact hf x

end Sure

/-! ### Passing marks -/

/-- The code after a mark at which the build with overflow checks goes on. -/
def Passes (w : ℕ) (l : L) (c c' : CheckedProc L V α) : Prop :=
  ∃ site k, c = .act (.inr site) k ∧ ¬ (site l).Panics w ∧ c' = k ()

/-- The code after some marks. -/
abbrev Settles (w : ℕ) (l : L) : CheckedProc L V α → CheckedProc L V α → Prop :=
  Relation.ReflTransGen (Passes w l)

section settle
variable {w : ℕ} {cond : Word → L → ℕ → Prop} {Q : α → L → Prop} {l : L}

theorem Passes.erase {c c' : CheckedProc L V α} (h : Passes w l c c') : c'.erase = c.erase := by
  obtain ⟨site, k, rfl, -, rfl⟩ := h
  rfl

theorem Sure.passes {c c' : CheckedProc L V α} (h : Sure w cond c Q l) (hp : Passes w l c c') :
    Sure w cond c' Q l := by
  obtain ⟨site, k, rfl, -, rfl⟩ := hp
  exact h.2

/-- Sure code goes on to its next action. -/
theorem Sure.settle_act {c : CheckedProc L V α} {a : Act L V} {k : a.Ans → Proc L V α}
    (h : Sure w cond c Q l) (he : c.erase = .act a k) :
    ∃ k' : a.Ans → CheckedProc L V α, Settles w l c (.act (.inl a) k') ∧
      (fun r => (k' r).erase) = k := by
  induction c with
  | ret x => cases he
  | act b k₀ ih =>
      cases b with
      | inl b =>
          cases he
          exact ⟨k₀, .refl, rfl⟩
      | inr site =>
          obtain ⟨k', hs, hk'⟩ := ih () h.2 he
          exact ⟨k', .head ⟨site, k₀, rfl, Site.not_panics h.1, rfl⟩ hs, hk'⟩

/-- Sure code goes on to its end. -/
theorem Sure.settle_ret {c : CheckedProc L V α} {x : α} (h : Sure w cond c Q l)
    (he : c.erase = .ret x) : Settles w l c (.ret x) := by
  induction c with
  | ret y =>
      cases he
      exact .refl
  | act b k ih =>
      cases b with
      | inl b => cases he
      | inr site => exact .head ⟨site, k, rfl, Site.not_panics h.1, rfl⟩ (ih () h.2 he)

end settle

/-- Block copies leave the own structure alone. -/
theorem all_own_copyTo (i : ℕ) (vs : List V) :
    (copyTo i vs : Proc L V Unit).All (fun a => ∀ l, a.own l = l) fun _ => True := by
  induction vs generalizing i with
  | nil => trivial
  | cons v vs ih => exact ⟨fun _ => rfl, fun _ => ih _⟩

end sure

/-! ### The lossless producer -/

namespace Lossless

variable {V : Type} {C : Config}

/-- What a load of the producer may answer in a call that is not a constructor. -/
def ProducerKnows (C : Config) (join : Bool) (x : Word) (h : Handle) (n : ℕ) : Prop :=
  x = .head → join = false → n ≤ h.producer.tail ∧ h.producer.tail ≤ n + C.N

/-- The local tail is a ring and 64 positions below the limit, and at most a ring has been written
since the last sync. -/
structure Bounded (C : Config) (h : Handle) : Prop where
  tail : h.producer.tail + C.N + 64 < 2 ^ C.w
  written : h.producer.written ≤ C.N

/-- The same with an open reservation. -/
structure Reserving (C : Config) (h : Handle) : Prop extends Bounded C h where
  start : h.reservation.startTail = h.producer.tail
  filled : h.reservation.written ≤ h.reservation.count
  count : h.producer.written + h.reservation.count ≤ C.N

section producer
variable {h : Handle}

theorem pushChecked_sure (B : Bounded C h) (value : V) :
    Sure C.w (ProducerKnows C false) (pushChecked C.w C.N value) (fun _ _ => True) h := by
  have hN := C.pos
  have h1 := B.tail
  have h2 := B.written
  refine .self_bind (.load_bind fun n hn => ?_)
  obtain ⟨h3, h4⟩ := hn rfl rfl
  refine .check_bind (.add (by omega)) (.ite (fun _ => trivial) fun _ => ?_)
  refine .plain_bind ⟨fun _ => rfl, fun _ => trivial⟩ ?_
  intro _
  refine .check_bind (.add (by omega)) (.update_bind ?_)
  refine .check_bind (.add ?_) (.update_bind trivial)
  show h.producer.written + 1 < 2 ^ C.w
  omega

theorem reserveChecked_sure (B : Bounded C h) (count : ℕ) :
    Sure C.w (ProducerKnows C false) (reserveChecked C.w C.N count : CheckedProc Handle V _)
      (fun _ _ => True) h := by
  have h1 := B.tail
  refine .ite (fun _ => trivial) fun _ => .ite (fun _ => trivial) ?_
  intro _
  refine .load_bind fun n hn => .self_bind ?_
  obtain ⟨h3, h4⟩ := hn rfl rfl
  have hused : wsub C.w h.producer.tail n = h.producer.tail - n := wsub_of_le h3 (by omega)
  refine .check_bind (.sub h3 (by omega)) (.check_bind (.sub ?_ C.fits) ?_)
  · rw [hused]
    omega
  · exact .ite (fun _ => trivial) fun _ => .update_bind trivial

/-- Writing `n` more values of a reservation. -/
theorem Reserving.more (R : Reserving C h) {n : ℕ}
    (hn : h.reservation.written + n ≤ h.reservation.count) :
    Reserving C (h.setReservation
        { h.reservation with written := wadd C.w h.reservation.written n }) ∧
      wadd C.w h.reservation.written n = h.reservation.written + n := by
  have h1 := R.count
  have h2 := C.fits
  have hadd : wadd C.w h.reservation.written n = h.reservation.written + n :=
    wadd_of_lt (by omega)
  refine ⟨⟨⟨R.tail, R.written⟩, R.start, ?_, R.count⟩, hadd⟩
  rw [hadd]
  exact hn

theorem writeNextChecked_sure {cond : Word → Handle → ℕ → Prop} (R : Reserving C h) (value : V) :
    Sure C.w cond (Reservation.writeNextChecked C.w C.N value)
      (fun _ l => Reserving C l ∧ h.reservation.written ≤ l.reservation.written) h := by
  have h1 := R.tail
  have h2 := R.start
  have h3 := R.count
  have h4 := C.fits
  refine .self_bind (.ite (fun _ => ⟨R, le_rfl⟩) fun hlt => ?_)
  obtain ⟨R', hadd⟩ := R.more (n := 1) (by omega)
  refine .check_bind (.add (by omega)) (.plain_bind ⟨fun _ => rfl, fun _ => trivial⟩ ?_)
  refine fun _ => .check_bind (.add (by omega)) (.update_bind ⟨R', ?_⟩)
  show _ ≤ wadd C.w h.reservation.written 1
  omega

theorem copyValuesChecked_sure {cond : Word → Handle → ℕ → Prop} {i : ℕ} (hi : i < C.N)
    {values : List V} (hlen : values.length ≤ C.N) :
    Sure C.w cond (Reservation.copyValuesChecked C.w C.N i values) (fun _ l => l = h) h := by
  have h1 := two_mul_le_of_isPowerOfTwo C.pow C.fits
  have h2 := C.fits
  have hend : wadd C.w i values.length = i + values.length := wadd_of_lt (by omega)
  have hpart : wsub C.w C.N i = C.N - i := wsub_of_le hi.le h2
  have hcopy : ∀ j (vs : List V), Sure C.w cond (plain (copyTo j vs)) (fun _ l => l = h) h := by
    intro j vs
    refine (Sure.plain (P := fun l => l = h) rfl ((all_own_copyTo j vs).imp ?_)).mono ?_
    · exact fun a ha l hl => (ha l).trans hl
    · exact fun _ _ hl => hl.2
  refine .check_bind (.add (by omega)) (.ite (fun _ => hcopy _ _) fun hover => ?_)
  rw [hend] at hover
  refine .check_bind (.sub hi.le h2) (.plain_bind (all_own_copyTo _ _) fun _ => ?_)
  refine .check_bind (.sub ?_ (by omega)) (hcopy _ _)
  rw [hpart]
  omega

theorem writeAllChecked_sure {cond : Word → Handle → ℕ → Prop} (R : Reserving C h)
    (values : List V) :
    Sure C.w cond (Reservation.writeAllChecked C.w C.N values) (fun _ _ => True) h := by
  have h1 := R.tail
  have h2 := R.start
  have h3 := R.count
  have h4 := C.fits
  have h5 := R.filled
  have hrem : h.reservation.remaining C.w = h.reservation.count - h.reservation.written :=
    wsub_of_le h5 (by omega)
  refine .self_bind (.check_bind (.sub h5 (by omega)) ?_)
  refine .ite (fun _ => trivial) fun hfit => .ite (fun _ => trivial) ?_
  intro _
  rw [hrem] at hfit
  refine .check_bind (.add (by omega)) (.bind ?_)
  refine (copyValuesChecked_sure (slot_lt C.pow _) (by omega)).mono ?_
  rintro _ _ rfl
  exact .check_bind (.add (by omega)) (.update_bind trivial)

theorem writeIterLoopChecked_sure {cond : Word → Handle → ℕ → Prop} (R : Reserving C h)
    (items : ℕ → Option V) (fuel i : ℕ) :
    Sure C.w cond (Reservation.writeIterLoopChecked C.w C.N items fuel i)
      (fun _ l => Reserving C l ∧ h.reservation.written ≤ l.reservation.written) h := by
  induction fuel generalizing h i with
  | zero => exact ⟨R, le_rfl⟩
  | succ fuel ih =>
      unfold Reservation.writeIterLoopChecked
      cases items i with
      | none => exact ⟨R, le_rfl⟩
      | some value =>
          refine .self_bind (.ite (fun _ => ⟨R, le_rfl⟩) fun _ => .bind ?_)
          refine (writeNextChecked_sure R value).mono ?_
          rintro _ l ⟨R', hle⟩
          exact (ih R' _).mono fun _ l' h' => ⟨h'.1, hle.trans h'.2⟩

theorem writeIterChecked_sure {cond : Word → Handle → ℕ → Prop} (R : Reserving C h)
    (items : ℕ → Option V) (i : ℕ) :
    Sure C.w cond (Reservation.writeIterChecked C.w C.N items i) (fun _ _ => True) h := by
  refine .self_bind (.bind ((writeIterLoopChecked_sure R items _ i).mono ?_))
  rintro _ l ⟨R', hle⟩
  have h1 := R'.filled
  have h2 := R'.count
  have h3 := C.fits
  exact .self_bind (.check_bind (.sub hle (by omega)) trivial)

theorem commitChecked_sure {cond : Word → Handle → ℕ → Prop} (R : Reserving C h) :
    Sure C.w cond (Reservation.commitChecked C.w C.N : CheckedProc Handle V _)
      (fun _ _ => True) h := by
  have h1 := R.tail
  have h2 := R.filled
  have h3 := R.count
  have h4 := C.fits
  refine .update_bind (.check_bind (.add ?_) (.update_bind ?_))
  · show h.producer.tail + h.reservation.written < 2 ^ C.w
    omega
  refine .check_bind (.add ?_) (.update_bind (.self_bind ?_))
  · show h.producer.written + h.reservation.written < 2 ^ C.w
    omega
  · exact .ite (fun _ => .plain_true) fun _ => trivial

end producer

/-- **The arithmetic of every call of the producer is in range.** -/
theorem ProducerOp.checkedCode_sure (op : ProducerOp V) {h : Handle}
    (hready : op.isJoin = false → Bounded C h)
    (hreserved : op.onReservation = true → Reserving C h) :
    Sure C.w (ProducerKnows C op.isJoin) (op.checkedCode C) (fun _ _ => True) h := by
  cases op with
  | push value =>
      refine .bind ((pushChecked_sure (hready rfl) value).mono fun r _ _ => ?_)
      cases r <;> trivial
  | reserve count =>
      refine .bind ((reserveChecked_sure (hready rfl) count).mono fun r _ _ => ?_)
      cases r <;> trivial
  | writeNext value =>
      refine .bind ((writeNextChecked_sure (hreserved rfl) value).mono fun r _ _ => ?_)
      cases r <;> trivial
  | writeAll values =>
      refine .bind ((writeAllChecked_sure (hreserved rfl) values).mono fun r _ _ => ?_)
      cases r <;> trivial
  | writeIter items i =>
      exact .bind ((writeIterChecked_sure (hreserved rfl) items i).mono fun _ _ _ => trivial)
  | commit => exact .bind ((commitChecked_sure (hreserved rfl)).mono fun _ _ _ => trivial)
  | _ => exact .plain_true

/-! ### The lossless consumer -/

/-- What a load of the consumer may answer. -/
def ConsumerKnows (C : Config) (x : Word) (_ : Consumer) (n : ℕ) : Prop := x = .tail → n < 2 ^ C.w

section consumer
variable {c : Consumer}

/-- Counting one element. -/
theorem Element.dropChecked_sure {cond : Word → Consumer → ℕ → Prop} (h1 : c.head + 1 < 2 ^ C.w)
    (h2 : c.itemsSinceLastSync + 1 < 2 ^ C.w) :
    Sure C.w cond (Element.dropChecked C.w C.N : CheckedProc Consumer V _) (fun _ _ => True) c :=
  .check_bind (.add h1) (.update_bind (.check_bind (.add h2) (.update_bind .plain_true)))

theorem popChecked_sure (h2 : c.itemsSinceLastSync + 1 < 2 ^ C.w) :
    Sure C.w (ConsumerKnows C) (popChecked C.w C.N : CheckedProc Consumer V _)
      (fun _ _ => True) c := by
  refine .self_bind (.load_bind fun n hn => .ite (fun _ => trivial) fun hlt => ?_)
  have h1 := hn rfl
  refine .plain_bind ⟨fun _ => rfl, fun _ => trivial⟩ ?_
  intro v
  refine .check_bind (.add (by omega)) (.update_bind (.check_bind (.add h2) (.update_bind ?_)))
  exact .bind (Sure.plain_true.mono fun _ _ _ => trivial)

end consumer

/-- **The arithmetic of every call of the consumer is in range.** -/
theorem ConsumerOp.checkedCode_sure (op : ConsumerOp V) (st : ConsumerStatus) {c : Consumer}
    (hitems : op.isJoin = false → c.itemsSinceLastSync + 1 < 2 ^ C.w)
    (hdrop : op = .elementDrop → c.head + 1 < 2 ^ C.w) :
    Sure C.w (ConsumerKnows C) (op.checkedCode C st) (fun _ _ => True) c := by
  cases op with
  | pop => exact .bind ((popChecked_sure (hitems rfl)).mono fun _ _ _ => trivial)
  | elementDrop =>
      exact .bind ((Element.dropChecked_sure (hdrop rfl) (hitems rfl)).mono fun _ _ _ => trivial)
  | _ => exact .plain_true

end Lossless

/-! ### The headless producer -/

namespace Headless

variable {W : Type} {K : ℕ} {P : Params}

theorem all_own_assignWords (i : ℕ) (xs : List W) :
    (assignWords i xs).All (fun a => ∀ l, a.own l = l) fun _ => True := by
  induction xs generalizing i with
  | nil => trivial
  | cons x xs ih => exact ⟨fun _ => rfl, fun _ => ih _⟩

theorem all_own_readWords (i n : ℕ) :
    (readWords i n : Proc Consumer W _).All (fun a => ∀ l, a.own l = l) fun _ => True := by
  induction n with
  | zero => trivial
  | succ n ih =>
      unfold readWords
      rw [Prog.all_bind]
      exact ih.mono fun _ _ => ⟨fun _ => rfl, fun _ => trivial⟩

/-- The end of `push`. -/
theorem advanceChecked_sure {cond : Word → Producer → ℕ → Prop} {p : Producer}
    (h1 : p.tail + 1 < 2 ^ P.w) (h2 : p.written ≤ p.tail) (value : Vector W K) :
    Sure P.w cond (do
      let p ← plain self
      let index := p.tail &&& moduloMask P.N
      plain (assignWords (index * K) value.toList)
      check fun p => .add p.tail 1
      plain (update fun p => { p with tail := wadd P.w p.tail 1 })
      check fun p => .add p.written 1
      plain (update fun p => { p with written := wadd P.w p.written 1 })) (fun _ _ => True) p := by
  refine .self_bind (.plain_bind (all_own_assignWords _ _) fun _ => .check_bind (.add h1) ?_)
  refine .update_bind (.check_bind (.add ?_) .plain_true)
  show p.written + 1 < 2 ^ P.w
  omega

theorem pushChecked_sure {cond : Word → Producer → ℕ → Prop} {p : Producer}
    (h1 : p.tail + 1 < 2 ^ P.w) (h2 : p.written ≤ p.tail) (value : Vector W K) :
    Sure P.w cond (pushChecked P.w P.N value) (fun _ _ => True) p := by
  refine .self_bind (.ite (fun _ => ?_) fun _ => advanceChecked_sure h1 h2 value)
  -- publishing first: the count of unpublished elements starts again
  refine .bind ((Sure.plain (P := fun l => l.tail = p.tail ∧ l.written ≤ p.tail)
    (q := fun _ => True) ⟨rfl, h2⟩ ?_).mono ?_)
  · refine ⟨fun l hl => ⟨hl.1, Nat.zero_le _⟩, fun _ => ⟨fun l hl => hl, fun _ => ?_⟩⟩
    exact ⟨fun l hl => hl, fun _ => trivial⟩
  · rintro _ l ⟨-, htail, hwritten⟩
    rw [← htail] at h1 hwritten
    exact advanceChecked_sure h1 hwritten value

/-- **The arithmetic of every call of the producer is in range.** -/
theorem ProducerOp.checkedCode_sure {cond : Word → Producer → ℕ → Prop} (op : ProducerOp W K)
    {p : Producer} (h1 : p.tail + 1 < 2 ^ P.w) (h2 : op.isJoin = false → p.written ≤ p.tail) :
    Sure P.w cond (op.checkedCode P) (fun _ _ => True) p := by
  cases op with
  | push value => exact .bind ((pushChecked_sure h1 (h2 rfl) value).mono fun _ _ _ => trivial)
  | _ => exact .plain_true

/-! ### The headless consumer -/

/-- What a load of a consumer may answer. -/
def ConsumerKnows (P : Params) (x : Word) (_ : Consumer) (n : ℕ) : Prop :=
  x = .tail → n + P.N + 64 < 2 ^ P.w

/-- The fields that the assertions of `join_multi_` are about. -/
structure Consumer.WellFormed (c : Consumer) : Prop where
  index_lt : c.consumerIndex < c.interval
  interval_le : c.interval ≤ 64

/-- The next power of two after 64. -/
theorem two_pow_ge_of_lt {w : ℕ} (h : 64 < 2 ^ w) : 128 ≤ 2 ^ w := by
  have hw : 6 < w := (Nat.pow_lt_pow_iff_right Nat.one_lt_two).mp (show 2 ^ 6 < 2 ^ w from h)
  exact Nat.pow_le_pow_right Nat.two_pos hw

theorem nextModuloChecked_sure {L : Type} {w : ℕ} {cond : Word → L → ℕ → Prop}
    {head targetMod modValue : L → ℕ} {l : L} (hindex : targetMod l < modValue l)
    (hle : modValue l ≤ 64) (hlt : head l + 64 < 2 ^ w) :
    Sure w cond (nextModuloChecked w head targetMod modValue : CheckedProc L W Unit)
      (fun _ l' => l' = l) l := by
  have h1 := two_pow_ge_of_lt (show 64 < 2 ^ w by omega)
  have hadd : wadd w (targetMod l) (modValue l) = targetMod l + modValue l :=
    wadd_of_lt (by omega)
  have hmod : head l % modValue l < modValue l := Nat.mod_lt _ (by omega)
  have hrest := Nat.mod_lt
    (wsub w (wadd w (targetMod l) (modValue l)) (head l % modValue l)) (y := modValue l) (by omega)
  refine .check_bind (.add (by omega)) (.check_bind (.sub ?_ ?_) ⟨.add (by omega), rfl⟩)
  · rw [hadd]
    omega
  · exact wadd_lt _ _ _

theorem joinMultiChecked_sure {c : Consumer} (index consumers : ℕ) :
    Sure P.w (ConsumerKnows P)
      (joinMultiChecked P.w P.N P.mode P.buffer index consumers : CheckedProc Consumer W _)
      (fun r _ => ∀ c', r = .ok c' → c'.WellFormed) c := by
  have hfail : ∀ (r : Outcome Consumer), (∀ c', r ≠ .ok c') → ∀ c', r = .ok c' → c'.WellFormed :=
    fun r hr c' h => absurd h (hr c')
  refine .ite (fun _ => hfail _ (by simp)) ?_
  intro _
  refine .ite (fun _ => hfail _ (by simp)) ?_
  intro hle
  refine .ite (fun _ => hfail _ (by simp)) ?_
  intro hindex
  refine .load_bind fun magic _ => .load_bind ?_
  intro capacity _
  refine .ite (fun _ => ?_) fun _ => .ite (fun _ => hfail _ (by simp)) fun _ => hfail _ (by simp)
  refine .ite (fun _ => hfail _ (by simp)) fun _ => .load_bind ?_
  intro tail htail
  have hlt := htail rfl
  refine .plain_bind ?_ fun _ => .bind ((nextModuloChecked_sure ?_ ?_ ?_).mono ?_)
  · unfold incrementStrongCount
    cases P.mode.backedByArcc with
    | false => trivial
    | true => exact ⟨fun _ => rfl, fun _ => trivial⟩
  · exact not_not.mp hindex
  · exact not_not.mp hle
  · omega
  · rintro _ _ rfl
    refine .load_bind ?_
    intro heartbeat _ c' h
    cases h
    exact ⟨not_not.mp hindex, not_not.mp hle⟩

section pop
variable {c : Consumer} {tail : ℕ}

/-- The comparison with the tail: `head + (N - burst_amount)` does not wrap. -/
theorem readableChecked_sure {cond : Word → Consumer → ℕ → Prop} (hlt : c.head + P.N < 2 ^ P.w) :
    Sure P.w cond (readableChecked P.N : CheckedProc Consumer W Unit) (fun _ l => l = c) c := by
  have h1 : readable P.N ≤ P.N := Nat.sub_le _ _
  exact .check_bind (.sub (burstAmount_le P.pos) P.fits) ⟨.add (by omega), rfl⟩

theorem resetToChecked_sure {cond : Word → Consumer → ℕ → Prop} (F : c.WellFormed)
    (hover : ¬ tail ≤ wadd P.w c.head (readable P.N)) (hhead : c.head + P.N < 2 ^ P.w)
    (htail : tail + P.N + 64 < 2 ^ P.w) :
    Sure P.w cond (resetToChecked P.w P.N tail : CheckedProc Consumer W Unit)
      (fun _ l => l.WellFormed) c := by
  have h1 : readable P.N ≤ P.N := Nat.sub_le _ _
  rw [wadd_of_lt (by omega)] at hover
  have hsub : wsub P.w tail (readable P.N) = tail - readable P.N :=
    wsub_of_le (by omega) (by omega)
  refine .check_bind (.sub (burstAmount_le P.pos) P.fits) (.checkWrapping_bind ?_ (.bind ?_))
  · exact .sub (by omega) (by omega)
  · refine (nextModuloChecked_sure F.index_lt F.interval_le ?_).mono ?_
    · rw [hsub]
      omega
    · rintro _ _ rfl
      exact fun _ _ => ⟨F.index_lt, F.interval_le⟩

theorem popIterChecked_sure (F : c.WellFormed) :
    Sure P.w (ConsumerKnows P) (popIterChecked P.w P.N K : CheckedProc Consumer W _)
      (fun _ l => l.WellFormed) c := by
  refine .load_bind fun tail htail => .self_bind (.ite (fun _ => F) fun hread => ?_)
  have h1 := htail rfl
  have h2 := F.interval_le
  have hhead : c.head + P.N < 2 ^ P.w := by omega
  refine .bind ((readableChecked_sure hhead).mono ?_)
  rintro _ _ rfl
  refine .ite (fun hover => ?_) fun _ => ?_
  · exact .bind ((resetToChecked_sure F hover hhead h1).mono fun _ _ F' => F')
  refine .plain_bind (all_own_readWords _ _) fun value => .load_bind ?_
  intro tail' htail'
  have h3 := htail' rfl
  refine .self_bind (.bind ((readableChecked_sure hhead).mono ?_))
  rintro _ _ rfl
  refine .ite (fun hover => ?_) fun _ => ?_
  · exact .bind ((resetToChecked_sure F hover hhead h3).mono fun _ _ F' => F')
  · exact .check_bind (.add (by omega)) (.update_bind ⟨F.index_lt, F.interval_le⟩)

end pop

/-- A consumer that is still there after a round of a call has well-formed fields. -/
def Keeps (r : ConsumerResult W K) (c : Consumer) : Prop :=
  match r with
  | .done (.gone, _) => True
  | _ => c.WellFormed

/-- **The arithmetic of every call of a consumer is in range.** -/
theorem ConsumerOp.checkedCode_sure (op : ConsumerOp) {c : Consumer}
    (F : op.isJoin = false → c.WellFormed) :
    Sure P.w (ConsumerKnows P) (op.checkedCode P : CheckedProc Consumer W (ConsumerResult W K))
      Keeps c := by
  cases op with
  | join index consumers =>
      refine .bind ((joinMultiChecked_sure index consumers).mono fun r l hr => ?_)
      cases r with
      | ok c' => exact .update_bind (hr c' rfl)
      | _ => trivial
  | pop =>
      refine .bind ((popIterChecked_sure (F rfl)).mono fun r l hl => ?_)
      cases r with
      | again => exact hl
      | done value => exact hl
  | beat => exact fun _ _ => F rfl
  | producerHeartbeat =>
      refine (Sure.plain (P := Consumer.WellFormed) (q := fun r => r = .done (.ready, none)) (F rfl)
        ?_).mono ?_
      · refine ⟨fun _ h => h, fun n => ⟨fun _ h => h, fun c => ?_⟩⟩
        show Prog.All _ _ ((if _ then _ else _ : Proc Consumer W Bool) >>= _)
        rw [Prog.all_bind, Prog.all_ite]
        exact ⟨fun _ => ⟨fun l hl => ⟨hl.index_lt, hl.interval_le⟩, fun _ => rfl⟩, fun _ => rfl⟩
      · rintro r l ⟨rfl, hl⟩
        exact hl
  | drop =>
      refine (Sure.plain (P := fun _ => True) (q := fun r => r = .done (.gone, none)) trivial
        ?_).mono ?_
      · simp only [ConsumerOp.code, dropEndpoint]
        cases P.mode.backedByArcc with
        | false => rfl
        | true => exact ⟨fun _ _ => trivial, fun _ => rfl⟩
      · rintro r l ⟨rfl, -⟩
        trivial

end Headless

end Que
