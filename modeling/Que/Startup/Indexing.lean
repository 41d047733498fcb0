import Que.Lossless.Initialise
import Que.Headless.Producer
import Que.Ownership.System

/-! # Which endpoints index their ring faithfully

Positions are turned into slots with the mask `N - 1`, which is right for powers of two only.
All constructors but one assert that the capacity is one; `join_or_create_shmem`, in both
flavours, does not (`faithful_iff`). -/

namespace Que.Startup

open Lib

/-! ### The public constructors -/

section multi
variable {V : Type}

def joinAll (w N buffer consumers : ℕ) : List ℕ → Proc Unit V (Outcome (List Headless.Consumer))
  | [] => return .ok []
  | i :: is => do
      match ← Headless.joinMulti w .local N buffer i consumers with
      | .ok c =>
          match ← joinAll w N buffer consumers is with
          | .ok cs => return .ok (c :: cs)
          | _ => return .panic
      | _ => return .panic

/-- `headless_multi`, from the zeroed memory inside the new `Arc` on. -/
def headlessMulti (w N buffer consumers : ℕ) :
    Proc Unit V (Outcome (Producer × List Headless.Consumer)) := do
  match ← Headless.joinOrInitializeIn .local N buffer with
  | .ok producer =>
      match ← joinAll w N buffer consumers (List.range consumers) with
      | .ok cs => do
          Prog.perform Act.dropArc
          return .ok (producer, cs)
      | _ => return .panic
  | _ => return .panic

end multi

inductive EndpointConstructor where
  | losslessProducerJoin
  | losslessProducerJoinOrInitializeIn
  | losslessProducerJoinOrCreateShmem
  | losslessConsumerJoin (M : Mode)
  | losslessConsumerJoinShmem
  | losslessPair
  | headlessProducerJoin
  | headlessProducerJoinOrInitializeIn
  | headlessProducerJoinOrCreateShmem
  | headlessConsumerJoin
  | headlessConsumerJoinMulti (index consumers : ℕ)
  | headlessConsumerJoinShmem
  | headlessConsumerJoinShmemMulti (index consumers : ℕ)
  | headlessPair
  | headlessMulti (consumers : ℕ)
deriving DecidableEq, Repr

def isOk {α : Type} : Outcome α → Bool
  | .ok _ => true
  | _ => false

namespace EndpointConstructor
variable {V : Type}

/-- The constructor returns `Ok` on the memory `m` at the address `buffer`.  The shared-memory
constructors get the memory from the operating system; the others that need new memory get it
zeroed. -/
def succeeds (w N buffer : ℕ) (m : Channel V) : EndpointConstructor → Bool
  | losslessProducerJoin => isOk ((Lossless.joinProducer .shmem N buffer).run w m ()).1
  | losslessProducerJoinOrInitializeIn =>
      isOk ((Lossless.joinOrInitializeIn .shmem N buffer).run w m ()).1
  | losslessProducerJoinOrCreateShmem => isOk ((Lossless.joinOrCreateShmem N).run w m ()).1
  | losslessConsumerJoin M => isOk ((Lossless.joinConsumer M N buffer).run w m ()).1
  | losslessConsumerJoinShmem => isOk ((Lossless.joinConsumer .shmem N buffer).run w m ()).1
  | losslessPair => isOk ((Ownership.losslessPair N buffer).run w m ()).1
  | headlessProducerJoin => isOk ((Headless.joinProducer .shmem N buffer).run w m ()).1
  | headlessProducerJoinOrInitializeIn =>
      isOk ((Headless.joinOrInitializeIn .shmem N buffer).run w m ()).1
  | headlessProducerJoinOrCreateShmem => isOk ((Headless.joinOrCreateShmem N).run w m ()).1
  | headlessConsumerJoin => isOk ((Headless.joinMulti w .shmem N buffer 0 1).run w m ()).1
  | headlessConsumerJoinMulti index consumers =>
      isOk ((Headless.joinMulti w .shmem N buffer index consumers).run w m ()).1
  | headlessConsumerJoinShmem => isOk ((Headless.joinMulti w .shmem N buffer 0 1).run w m ()).1
  | headlessConsumerJoinShmemMulti index consumers =>
      isOk ((Headless.joinMulti w .shmem N buffer index consumers).run w m ()).1
  | headlessPair => isOk ((Ownership.headlessPair w N buffer).run w m ()).1
  | headlessMulti consumers => isOk ((Startup.headlessMulti w N buffer consumers).run w m ()).1

/-- The two constructors without the assertions on capacity and alignment. -/
def joinsOrCreatesShmem : EndpointConstructor → Bool
  | losslessProducerJoinOrCreateShmem | headlessProducerJoinOrCreateShmem => true
  | _ => false

theorem valid_of_succeeds {w N buffer : ℕ} {m : Channel V} {k : EndpointConstructor}
    (hk : k.joinsOrCreatesShmem = false) (h : k.succeeds w N buffer m = true) :
    validBuffer N buffer = true := by
  by_contra hv
  rw [Bool.not_eq_true] at hv
  cases k <;>
    simp [joinsOrCreatesShmem, succeeds, isOk, Lossless.joinProducer, Lossless.joinOrInitializeIn,
      Lossless.joinConsumer, Ownership.losslessPair, Headless.joinProducer,
      Headless.joinOrInitializeIn, Headless.joinMulti, Ownership.headlessPair,
      Startup.headlessMulti, hv] at hk h

end EndpointConstructor

/-! ### Faithful rings -/

def pushAll {W : Type} {K : ℕ} (w N : ℕ) : List (Vector W K) → Proc Producer W Unit
  | [] => return ()
  | x :: xs => do
      Headless.push w N x
      pushAll w N xs

/-- What an endpoint needs of the slots `p & (N - 1)`: they are in the ring, `N` consecutive
positions have distinct slots, and `N` pushes into an empty channel are all kept. -/
structure Faithful (V W : Type) (K w N : ℕ) : Prop where
  below : ∀ p, p &&& moduloMask N < N
  distinct : ∀ p i j, i < N → j < N → i ≠ j → (p + i) &&& moduloMask N ≠ (p + j) &&& moduloMask N
  lossless : ∀ (ch : Channel V) (h : Lossless.Handle) (vs : List V), vs.length = N →
    ch.head = h.producer.tail → h.producer.tail < 2 ^ w →
    ((Lossless.produce w N (vs.map some)).run w ch h).1 = List.replicate N (.ok ()) ∧
    ∀ i v, vs[i]? = some v → ((Lossless.produce w N (vs.map some)).run w ch h).2.1.buffer
      (wadd w h.producer.tail i &&& moduloMask N) = v
  headless : ∀ (ch : Channel W) (p : Producer) (xs : List (Vector W K)), xs.length = N →
    p.tail < 2 ^ w →
    ∀ i x, xs[i]? = some x → ∀ (j : ℕ) (hj : j < K), ((pushAll w N xs).run w ch p).2.1.buffer
      ((wadd w p.tail i &&& moduloMask N) * K + j) = x[j]

section fill
variable {V W : Type} {K w N : ℕ} (hN : isPowerOfTwo N = true) (hfits : N < 2 ^ w)
include hN hfits

/-- Pushes from position `t + i` on, with the head at `t`: each of them succeeds, the values are
in their slots, and every other cell is as before. -/
theorem produce_fills {t : ℕ} (vs : List V) (i : ℕ) (hi : i + vs.length ≤ N) {ch : Channel V}
    {h : Lossless.Handle} (hhead : ch.head = t) (htail : h.producer.tail = wadd w t i) :
    let r := (Lossless.produce w N (vs.map some)).run w ch h
    r.1 = List.replicate vs.length (.ok ()) ∧
    (∀ j v, vs[j]? = some v → r.2.1.buffer (slot N (t + i + j)) = v) ∧
    (∀ c, (∀ j, j < vs.length → slot N (t + i + j) ≠ c) → r.2.1.buffer c = ch.buffer c) := by
  induction vs generalizing i ch h with
  | nil => exact ⟨rfl, fun j v hv => by simp at hv, fun c _ => rfl⟩
  | cons v vs ih =>
      simp only [List.length_cons] at hi
      have hfull : ¬ h.producer.tail = wadd w ch.head N := by
        rw [htail, hhead]
        intro e
        have hmod : (t + i) % 2 ^ w = (t + N) % 2 ^ w := e
        have hd := (Nat.modEq_iff_dvd' (by omega)).mp (show t + i ≡ t + N [MOD 2 ^ w] from hmod)
        have := Nat.le_of_dvd (by omega) hd
        omega
      have hslot : h.producer.tail &&& moduloMask N = slot N (t + i) := by
        rw [htail, and_moduloMask, slot_wadd hN hfits]
      have hnext : wadd w h.producer.tail 1 = wadd w t (i + 1) := by
        rw [htail, wadd, wadd, Nat.mod_add_mod, Nat.add_assoc, wadd]
      have hpush : (Lossless.push w N v).run w ch h = (.ok (), ch.write (slot N (t + i)) v,
          (h.setTail (wadd w t (i + 1))).setWritten (wadd w h.producer.written 1)) := by
        simp [Lossless.push, Channel.get, hfull, hslot, hnext, Lossless.Handle.setTail]
      obtain ⟨h1, h2, h3⟩ := @ih (i + 1) (by omega) (ch.write (slot N (t + i)) v)
        ((h.setTail (wadd w t (i + 1))).setWritten (wadd w h.producer.written 1)) hhead rfl
      have hshift : ∀ j, t + (i + 1) + j = t + i + (j + 1) := fun j => by omega
      simp only [List.map_cons, Lossless.produce, Proc.run_bind, hpush, Prog.pure_eq_ret,
        Proc.run_ret]
      refine ⟨?_, fun j x hx => ?_, fun c hc => ?_⟩
      · rw [h1, List.length_cons, List.replicate_succ]
      · cases j with
        | zero =>
            have hx : v = x := by simpa using hx
            rw [← hx, Nat.add_zero, h3]
            · exact Function.update_self _ _ _
            · intro j hj
              rw [hshift]
              exact slot_ne hN (by omega) (by omega)
        | succ j => exact hshift j ▸ h2 j x (by simpa using hx)
      · rw [h3 c fun j hj => hshift j ▸ hc (j + 1) (by simpa using hj)]
        exact Function.update_of_ne (hc 0 (by simp)).symm _ _

end fill

section headlessFill
variable {W : Type} {K w N : ℕ}

theorem run_assignWords (c : ℕ) (xs : List W) (ch : Channel W) (p : Producer) :
    let r := (Headless.assignWords c xs).run w ch p
    r.2.2 = p ∧ (∀ (j : ℕ) (hj : j < xs.length), r.2.1.buffer (c + j) = xs[j]) ∧
      ∀ c', (∀ j, j < xs.length → c + j ≠ c') → r.2.1.buffer c' = ch.buffer c' := by
  induction xs generalizing c ch with
  | nil => exact ⟨rfl, fun j hj => by simp at hj, fun c' _ => rfl⟩
  | cons x xs ih =>
      obtain ⟨h1, h2, h3⟩ := ih (c + 1) (ch.write c x)
      have hshift : ∀ j, c + 1 + j = c + (j + 1) := fun j => by omega
      simp only [Headless.assignWords, Proc.run_bind, Proc.run_assign]
      refine ⟨h1, fun j hj => ?_, fun c' hc => ?_⟩
      · cases j with
        | zero => exact (h3 c fun j _ => by omega).trans (Function.update_self _ _ _)
        | succ j => exact hshift j ▸ h2 j (by simpa using hj)
      · rw [h3 c' fun j hj => hshift j ▸ hc (j + 1) (by simpa using hj)]
        exact Function.update_of_ne (hc 0 (by simp)).symm _ _

theorem run_push (x : Vector W K) (ch : Channel W) (p : Producer) :
    let r := (Headless.push w N x).run w ch p
    r.2.2.tail = wadd w p.tail 1 ∧
    (∀ (j : ℕ) (hj : j < K), r.2.1.buffer ((p.tail &&& moduloMask N) * K + j) = x[j]) ∧
    ∀ c', (∀ j, j < K → (p.tail &&& moduloMask N) * K + j ≠ c') →
      r.2.1.buffer c' = ch.buffer c' := by
  -- a sync that is due changes no cell and not the local tail
  obtain ⟨ch', p', hbuf, htail, hch, hp⟩ : ∃ ch' p', ch'.buffer = ch.buffer ∧ p'.tail = p.tail ∧
      ((Headless.push w N x).run w ch p).2.1 =
        ((Headless.assignWords ((p.tail &&& moduloMask N) * K) x.toList).run w ch' p').2.1 ∧
      ((Headless.push w N x).run w ch p).2.2.tail = wadd w
        ((Headless.assignWords ((p.tail &&& moduloMask N) * K) x.toList).run w ch' p').2.2.tail
          1 := by
    by_cases hb : p.written = burstAmount N
    · refine ⟨ch.set .tail p.tail, { p with written := 0 }, rfl, rfl, ?_⟩
      simp [Headless.push, Headless.sync, hb]
    · refine ⟨ch, p, rfl, rfl, ?_⟩
      simp [Headless.push, hb]
  obtain ⟨h1, h2, h3⟩ :=
    run_assignWords (w := w) ((p.tail &&& moduloMask N) * K) x.toList ch' p'
  refine ⟨?_, fun j hj => ?_, fun c' hc => ?_⟩
  · rw [hp, h1, htail]
  · rw [hch, h2 j (by simpa using hj)]
    exact Vector.getElem_toList _
  · rw [hch, ← hbuf]
    exact h3 c' fun j hj => hc j (by simpa using hj)

theorem pushAll_fills (hN : isPowerOfTwo N = true) (hfits : N < 2 ^ w) {t : ℕ}
    (xs : List (Vector W K)) (i : ℕ) (hi : i + xs.length ≤ N) {ch : Channel W} {p : Producer}
    (htail : p.tail = wadd w t i) :
    let r := (pushAll w N xs).run w ch p
    (∀ j x, xs[j]? = some x → ∀ (k : ℕ) (hk : k < K),
      r.2.1.buffer (slot N (t + i + j) * K + k) = x[k]) ∧
    (∀ c, (∀ j k, j < xs.length → k < K → slot N (t + i + j) * K + k ≠ c) →
      r.2.1.buffer c = ch.buffer c) := by
  induction xs generalizing i ch p with
  | nil => exact ⟨fun j x hx => by simp at hx, fun c _ => rfl⟩
  | cons x xs ih =>
      simp only [List.length_cons] at hi
      obtain ⟨h1, h2, h3⟩ := run_push (w := w) (N := N) x ch p
      have hslot : p.tail &&& moduloMask N = slot N (t + i) := by
        rw [htail, and_moduloMask, slot_wadd hN hfits]
      have hnext : wadd w p.tail 1 = wadd w t (i + 1) := by
        rw [htail, wadd, wadd, Nat.mod_add_mod, Nat.add_assoc, wadd]
      rw [hslot] at h2 h3
      obtain ⟨h4, h5⟩ := @ih (i + 1) (by omega) ((Headless.push w N x).run w ch p).2.1
        ((Headless.push w N x).run w ch p).2.2 (h1.trans hnext)
      have hshift : ∀ j, t + (i + 1) + j = t + i + (j + 1) := fun j => by omega
      simp only [pushAll, Proc.run_bind]
      refine ⟨fun j y hy k hk => ?_, fun c hc => ?_⟩
      · cases j with
        | zero =>
            have hy : x = y := by simpa using hy
            rw [← hy, ← h2 k hk, Nat.add_zero]
            apply h5
            intro j k' hj hk'
            rw [hshift]
            exact cell_ne (slot_ne hN (by omega) (by omega)) hk' hk
        | succ j => exact hshift j ▸ h4 j y (by simpa using hy) k hk
      · rw [h5 c fun j k hj hk => hshift j ▸ hc (j + 1) k (by simpa using hj) hk]
        exact h3 c fun k hk => hc 0 k (by simp) hk

end headlessFill

theorem faithful_of_isPowerOfTwo {V W : Type} {K w N : ℕ} (hN : isPowerOfTwo N = true)
    (hfits : N < 2 ^ w) : Faithful V W K w N := by
  constructor
  · exact fun p => slot_lt hN p
  · intro p i j hi hj hij
    rcases Nat.lt_or_gt_of_ne hij with h | h
    · exact (slot_ne hN (by omega) (by omega)).symm
    · exact slot_ne hN (by omega) (by omega)
  · intro ch h vs hlen hempty hlt
    have hzero : h.producer.tail = wadd w h.producer.tail 0 := (Nat.mod_eq_of_lt hlt).symm
    obtain ⟨h1, h2, _⟩ := produce_fills hN hfits vs 0 (by omega) hempty hzero
    refine ⟨hlen ▸ h1, fun i v hv => ?_⟩
    rw [and_moduloMask, slot_wadd hN hfits]
    exact h2 i v hv
  · intro ch p xs hlen hlt i x hx j hj
    have hzero : p.tail = wadd w p.tail 0 := (Nat.mod_eq_of_lt hlt).symm
    rw [and_moduloMask, slot_wadd hN hfits]
    exact (pushAll_fills hN hfits xs 0 (by omega) hzero).1 i x hx j hj

/-- **Which endpoints index their ring faithfully.**  An endpoint that a public constructor
returned does exactly when the constructor is not `join_or_create_shmem` or the capacity is a
power of two. -/
theorem faithful_iff {V W : Type} (K : ℕ) {w N buffer : ℕ} (hpos : 0 < N) (hfits : N < 2 ^ w)
    {m : Channel V} {k : EndpointConstructor} (hok : k.succeeds w N buffer m = true) :
    Faithful V W K w N ↔ k.joinsOrCreatesShmem = false ∨ isPowerOfTwo N = true := by
  constructor
  · intro F
    cases hN : isPowerOfTwo N with
    | true => exact .inr rfl
    | false =>
        obtain ⟨q, h1, h2, h3⟩ := exists_slot_eq_zero hpos hN
        exfalso
        apply F.distinct 0 0 q hpos h2 (Nat.ne_of_lt h1)
        rw [Nat.zero_add, Nat.zero_add, Nat.zero_and]
        exact h3.symm
  · rintro (hk | hN)
    · have hv := k.valid_of_succeeds hk hok
      simp only [validBuffer, Bool.and_eq_true] at hv
      exact faithful_of_isPowerOfTwo hv.1.2 hfits
    · exact faithful_of_isPowerOfTwo hN hfits

theorem faithful_four : Faithful ℕ ℕ 2 64 4 := by
  have hok : EndpointConstructor.losslessProducerJoinOrCreateShmem.succeeds 64 4 0
      (Channel.zeroed 0 : Channel ℕ) = true := by
    decide +kernel
  exact (faithful_iff 2 (by decide) (by decide) hok).mpr (.inr (by decide +kernel))

/-- A ring of three slots, from the same constructor: position 1 has the slot of position 0. -/
theorem not_faithful_three :
    EndpointConstructor.losslessProducerJoinOrCreateShmem.succeeds 64 3 0
        (Channel.zeroed 0 : Channel ℕ) =
      true ∧ ¬ Faithful ℕ ℕ 2 64 3 := by
  refine ⟨by decide +kernel, fun F => ?_⟩
  exact F.distinct 0 0 1 (by decide) (by decide) (by decide) (by decide)

end Que.Startup
