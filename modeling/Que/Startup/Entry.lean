import Que.Lossless.Producer
import Que.Lossless.Consumer
import Que.Headless.Producer
import Que.Headless.Consumer

/-! # Joining or initialising

Four constructors join the channel they find or initialise it, and each writes the same steps out
by hand.  They agree on every header but one kind: on a channel that is already initialised with
the capacity asked for, the lossless `join_or_create_shmem` does not advance the producer's
heartbeat (`entryPointsAgree_iff`). -/

namespace Que.Startup

open Lib

variable {V : Type}

/-- The constructors that join a channel or initialise it. -/
inductive EntryPoint where
  | losslessShmem
  | losslessIn
  | headlessShmem
  | headlessIn
deriving DecidableEq, Repr

namespace EntryPoint

def code (C : Config) : EntryPoint → Proc Unit V (Outcome Producer)
  | losslessShmem => Lossless.joinOrCreateShmem C.N
  | losslessIn => Lossless.joinOrInitializeIn C.mode C.N C.buffer
  | headlessShmem => Headless.joinOrCreateShmem C.N
  | headlessIn => Headless.joinOrInitializeIn C.mode C.N C.buffer

def result (C : Config) (m : Channel V) (e : EntryPoint) : Outcome Producer :=
  ((e.code C).run C.w m ()).1

def after (C : Config) (m : Channel V) (e : EntryPoint) : Channel V :=
  ((e.code C).run C.w m ()).2.1

end EntryPoint

/-- The same header; the strong count of a process-private channel is not part of it. -/
def SameHeader (a b : Channel V) : Prop := ∀ x : Word, x ≠ .strong → a.get x = b.get x

/-- What is expected of the entry points on the memory `m`. -/
structure EntryPointsAgree (C : Config) (m : Channel V) : Prop where
  kinds : ∀ e : EntryPoint, (∃ p, e.result C m = .ok p) ∨
    e.result C m = .err (.incorrectCapacity m.capacity) ∨ e.result C m = .err .corruptionDetected
  result : ∀ e e' : EntryPoint, e.result C m = e'.result C m
  header : ∀ e e' : EntryPoint, SameHeader (e.after C m) (e'.after C m)
  error : ∀ (e : EntryPoint) err, e.result C m = .err err → SameHeader m (e.after C m)
  heartbeat : ∀ (e : EntryPoint) p, e.result C m = .ok p → m.magic = MAGIC →
    (e.after C m).producerHeartbeat = wadd C.w m.producerHeartbeat 1 ∧
    (∀ c : Lossless.Consumer, c.lastProducerHeartbeat = m.producerHeartbeat →
      (Lossless.producerHeartbeat.run C.w (e.after C m) c).1 = true) ∧
    (∀ c : Headless.Consumer, c.lastProducerHeartbeat = m.producerHeartbeat →
      (Headless.producerHeartbeat.run C.w (e.after C m) c).1 = true)

/-! ### Branch by branch -/

section branches
variable {C : Config} {m : Channel V}

theorem EntryPoint.run_corrupt (e : EntryPoint) (hm : m.magic ≠ MAGIC) (h0 : m.magic ≠ 0) :
    (e.code C).run C.w m () = (.err .corruptionDetected, m, ()) := by
  cases e <;>
    simp [code, Lossless.joinOrCreateShmem, Lossless.joinOrInitializeIn,
      Headless.joinOrCreateShmem, Headless.joinOrInitializeIn, C.valid, Channel.get, hm, h0]

theorem EntryPoint.run_capacity (e : EntryPoint) (hm : m.magic = MAGIC) (hc : m.capacity ≠ C.N) :
    (e.code C).run C.w m () = (.err (.incorrectCapacity m.capacity), m, ()) := by
  cases e <;>
    simp [code, Lossless.joinOrCreateShmem, Lossless.joinOrInitializeIn,
      Headless.joinOrCreateShmem, Headless.joinOrInitializeIn, C.valid, Channel.get, hm, hc]

/-- A zero magic: the header is reset, except for the head. -/
theorem EntryPoint.run_zero (e : EntryPoint) (h0 : m.magic = 0) :
    e.result C m = .ok ⟨0, 0, 0⟩ ∧
      SameHeader ⟨0, m.head, 0, 0, C.N, MAGIC, 0, m.buffer⟩ (e.after C m) := by
  have hz : ¬ (0 = MAGIC) := MAGIC_ne_zero.symm
  have hmode : C.mode = .shmem ∨ C.mode = .local := by cases C.mode <;> simp
  constructor
  · rcases hmode with hmode | hmode <;> cases e <;>
      simp [result, code, Lossless.joinOrCreateShmem, Lossless.joinOrInitializeIn,
        Headless.joinOrCreateShmem, Headless.joinOrInitializeIn, incrementStrongCount,
        Mode.backedByArcc, C.valid, Channel.get, Channel.set, h0, hz, hmode]
  · intro x hx
    rcases hmode with hmode | hmode <;> cases e <;> cases x <;>
      simp [after, code, Lossless.joinOrCreateShmem, Lossless.joinOrInitializeIn,
        Headless.joinOrCreateShmem, Headless.joinOrInitializeIn, incrementStrongCount,
        Mode.backedByArcc, C.valid, Channel.get, Channel.set, h0, hz, hmode] at hx ⊢

/-- On a live channel, one entry point leaves the heartbeat alone. -/
theorem EntryPoint.heartbeat_live (hm : m.magic = MAGIC) (hc : m.capacity = C.N) :
    (losslessShmem.after C m).producerHeartbeat = m.producerHeartbeat ∧
      (losslessIn.after C m).producerHeartbeat = wadd C.w m.producerHeartbeat 1 := by
  have hmode : C.mode = .shmem ∨ C.mode = .local := by cases C.mode <;> simp
  rcases hmode with hmode | hmode <;>
    simp [after, code, Lossless.joinOrCreateShmem, Lossless.joinOrInitializeIn,
      incrementStrongCount, Mode.backedByArcc, C.valid, Channel.get, Channel.set, hm, hc, hmode]

theorem wadd_one_ne (n : ℕ) : wadd C.w n 1 ≠ n := by
  intro h
  have hlt : n < 2 ^ C.w := h ▸ wadd_lt C.w n 1
  have hpos := C.pos
  have hfits := C.fits
  unfold wadd at h
  rcases Nat.lt_or_ge (n + 1) (2 ^ C.w) with hn | hn
  · rw [Nat.mod_eq_of_lt hn] at h
    omega
  · have e : n + 1 = 2 ^ C.w := by omega
    rw [e, Nat.mod_self] at h
    omega

theorem EntryPointsAgree.of_error {err : QueError}
    (herr : err = .incorrectCapacity m.capacity ∨ err = .corruptionDetected)
    (hrun : ∀ e : EntryPoint, (e.code C).run C.w m () = (.err err, m, ())) :
    EntryPointsAgree C m := by
  have hr : ∀ e : EntryPoint, e.result C m = .err err := fun e => by rw [EntryPoint.result, hrun e]
  have ha : ∀ e : EntryPoint, e.after C m = m := fun e => by rw [EntryPoint.after, hrun e]
  constructor
  · intro e
    rw [hr e]
    rcases herr with rfl | rfl <;> simp
  · exact fun e e' => (hr e).trans (hr e').symm
  · exact fun e e' x _ => by rw [ha e, ha e']
  · exact fun e err _ x _ => by rw [ha e]
  · intro e p hp
    rw [hr e] at hp
    cases hp

end branches

/-- **The entry points agree exactly when the channel is not one to be joined:** when its magic is
not the channel's, or its capacity is another. -/
theorem entryPointsAgree_iff (C : Config) (m : Channel V) :
    EntryPointsAgree C m ↔ ¬ (m.magic = MAGIC ∧ m.capacity = C.N) := by
  constructor
  · rintro A ⟨hm, hc⟩
    obtain ⟨h1, h2⟩ := EntryPoint.heartbeat_live (C := C) hm hc
    have h3 := A.header .losslessIn .losslessShmem .producerHeartbeat (by decide)
    apply wadd_one_ne (C := C) m.producerHeartbeat
    rw [← h2, ← h1]
    exact h3
  · intro hno
    by_cases hm : m.magic = MAGIC
    · exact .of_error (.inl rfl) fun e => e.run_capacity hm fun hc => hno ⟨hm, hc⟩
    · by_cases h0 : m.magic = 0
      · constructor
        · exact fun e => .inl ⟨_, (e.run_zero h0).1⟩
        · exact fun e e' => (e.run_zero h0).1.trans (e'.run_zero h0).1.symm
        · exact fun e e' x hx => ((e.run_zero h0).2 x hx).symm.trans ((e'.run_zero h0).2 x hx)
        · intro e err he
          rw [(e.run_zero h0).1] at he
          cases he
        · exact fun e p _ h => absurd h hm
      · exact .of_error (.inr rfl) fun e => e.run_corrupt hm h0

theorem not_entryPointsAgree_live :
    ¬ EntryPointsAgree Config.small { Channel.zeroed 0 with magic := MAGIC, capacity := 2 } := by
  intro A
  have h := A.header .losslessShmem .headlessShmem .producerHeartbeat (by decide)
  revert h
  decide +kernel

end Que.Startup
