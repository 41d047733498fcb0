import Que.Lib.Prog
import Que.Lib.Ring

/-! # The channel in memory

`Channel` is the structure that producers and consumers share: a header of atomic words and the
ring of slots.  Both flavours of the queue use the same structure.

* **Header.** `tail`, `head`, the two heartbeats, `capacity` and `magic` are `usize`/`u64` words,
  kept as natural numbers; additions and subtractions on them wrap at the width `w` of `usize`
  (the arithmetic of a build without overflow checks).  `strong` is the strong count of the `Arc`
  around a process-private channel.
* **Cells.** `buffer` is the memory from the first slot on, cell by cell.  A cell is a whole slot
  where an element is accessed in one step, and one word of a slot where it is not.
* **Actions.** Endpoint code is a program (`Proc`) of single actions: a load, store or
  fetch-and-add of a header word, a read or write of one cell, and reads and updates of the
  endpoint's own structure (`&mut self`).  `assign` is Rust's `*slot = value`, which drops the
  old content first; `copy` is a raw copy, which does not.  On plain memory both just write.
  `dropArc` gives up one handle of the `Arc`. -/

namespace Que

open Lib

/-! ### Header and cells -/

/-- The words of the header. -/
inductive Word where
  | tail
  | head
  | producerHeartbeat
  | consumerHeartbeat
  | capacity
  | magic
  | strong
deriving DecidableEq, Repr

/-- The channel shared by the producer and the consumers. -/
structure Channel (V : Type) where
  tail : ℕ
  head : ℕ
  producerHeartbeat : ℕ
  consumerHeartbeat : ℕ
  capacity : ℕ
  magic : ℕ
  strong : ℕ
  buffer : ℕ → V

namespace Channel
variable {V : Type}

/-- Read a header word. -/
def get (c : Channel V) : Word → ℕ
  | .tail => c.tail
  | .head => c.head
  | .producerHeartbeat => c.producerHeartbeat
  | .consumerHeartbeat => c.consumerHeartbeat
  | .capacity => c.capacity
  | .magic => c.magic
  | .strong => c.strong

/-- Write a header word. -/
def set (c : Channel V) : Word → ℕ → Channel V
  | .tail, v => { c with tail := v }
  | .head, v => { c with head := v }
  | .producerHeartbeat, v => { c with producerHeartbeat := v }
  | .consumerHeartbeat, v => { c with consumerHeartbeat := v }
  | .capacity, v => { c with capacity := v }
  | .magic, v => { c with magic := v }
  | .strong, v => { c with strong := v }

/-- Write a cell. -/
def write (c : Channel V) (i : ℕ) (v : V) : Channel V :=
  { c with buffer := Function.update c.buffer i v }

/-- Memory as `alloc_zeroed` or a fresh shared-memory object leaves it; `z` is the content of
a zeroed cell. -/
def zeroed (z : V) : Channel V := ⟨0, 0, 0, 0, 0, 0, 0, fun _ => z⟩

end Channel

/-! ### Quiet steps -/

section quiet
variable {V : Type}

/-- A step that leaves the counters, the identity of the channel and the slots alone. -/
structure Quiet (a b : Channel V) : Prop where
  tail : b.tail = a.tail
  head : b.head = a.head
  magic : b.magic = a.magic
  capacity : b.capacity = a.capacity
  buffer : b.buffer = a.buffer

theorem Quiet.refl (a : Channel V) : Quiet a a := ⟨rfl, rfl, rfl, rfl, rfl⟩

/-- Heartbeats and the strong count are not part of the contract. -/
theorem Quiet.set (a : Channel V) {x : Word} (v : ℕ)
    (hx : x = .producerHeartbeat ∨ x = .consumerHeartbeat ∨ x = .strong) : Quiet a (a.set x v) := by
  rcases hx with rfl | rfl | rfl <;> exact ⟨rfl, rfl, rfl, rfl, rfl⟩

theorem Quiet.trans {a b c : Channel V} (h : Quiet a b) (h' : Quiet b c) : Quiet a c :=
  ⟨h'.tail.trans h.tail, h'.head.trans h.head, h'.magic.trans h.magic,
    h'.capacity.trans h.capacity, h'.buffer.trans h.buffer⟩

end quiet

/-! ### Actions and programs -/

/-- A single action of an endpoint with the structure `L`. -/
inductive Act (L V : Type) where
  | load (x : Word)
  | store (x : Word) (v : ℕ)
  | fetchAdd (x : Word) (v : ℕ)
  | read (i : ℕ)
  | assign (i : ℕ) (v : V)
  | copy (i : ℕ) (v : V)
  | self
  | update (f : L → L)
  | dropArc

/-- The answer of an action. -/
abbrev Act.Ans {L V : Type} : Act L V → Type
  | .load _ => ℕ
  | .store _ _ => Unit
  | .fetchAdd _ _ => ℕ
  | .read _ => V
  | .assign _ _ => Unit
  | .copy _ _ => Unit
  | .self => L
  | .update _ => Unit
  | .dropArc => Unit

/-- The effect of an action on the channel and on the endpoint's own structure, with `w`-bit
words. -/
def Act.step {L V : Type} (w : ℕ) : (a : Act L V) → Channel V × L → a.Ans × (Channel V × L)
  | .load x, s => (s.1.get x, s)
  | .store x v, s => ((), (s.1.set x v, s.2))
  | .fetchAdd x v, s => (s.1.get x, (s.1.set x (wadd w (s.1.get x) v), s.2))
  | .read i, s => (s.1.buffer i, s)
  | .assign i v, s => ((), (s.1.write i v, s.2))
  | .copy i v, s => ((), (s.1.write i v, s.2))
  | .self, s => (s.2, s)
  | .update f, s => ((), (s.1, f s.2))
  | .dropArc, s => ((), (s.1.set .strong (wsub w s.1.strong 1), s.2))

/-- The cell that an action writes. -/
def Act.written {L V : Type} : Act L V → Option ℕ
  | .assign i _ => some i
  | .copy i _ => some i
  | _ => none

/-- The cell that an action reads or writes. -/
def Act.accessed {L V : Type} : Act L V → Option ℕ
  | .read i => some i
  | .assign i _ => some i
  | .copy i _ => some i
  | _ => none

/-- Endpoint code. -/
abbrev Proc (L V α : Type) : Type := Prog (Act L V) Act.Ans α

section actions
variable {L V : Type}

def load (x : Word) : Proc L V ℕ := Prog.perform (Act.load x)
def store (x : Word) (v : ℕ) : Proc L V Unit := Prog.perform (Act.store x v)
def fetchAdd (x : Word) (v : ℕ) : Proc L V ℕ := Prog.perform (Act.fetchAdd x v)
def read (i : ℕ) : Proc L V V := Prog.perform (Act.read i)
def assign (i : ℕ) (v : V) : Proc L V Unit := Prog.perform (Act.assign i v)
def self : Proc L V L := Prog.perform Act.self
def update (f : L → L) : Proc L V Unit := Prog.perform (Act.update f)

/-- A block copy (`copy_nonoverlapping`, `memcpy`) to the cells from `i` on, cell by cell. -/
def copyTo (i : ℕ) : List V → Proc L V Unit
  | [] => pure ()
  | v :: vs => do
      Prog.perform (Act.copy i v)
      copyTo (i + 1) vs

/-- Sequential run of endpoint code. -/
def Proc.run {α : Type} (w : ℕ) (c : Proc L V α) (ch : Channel V) (l : L) : α × (Channel V × L) :=
  Prog.exec (Act.step w) c (ch, l)

end actions

/-! ### Running code step by step

The equations with which `simp` runs code on a symbolic channel. -/

namespace Proc
variable {L V α β : Type} (w : ℕ) (ch : Channel V) (l : L)

@[simp] theorem run_ret (x : α) : Proc.run w (Prog.ret x) ch l = (x, ch, l) := (rfl)

@[simp] theorem run_act (a : Act L V) (k : a.Ans → Proc L V α) : Proc.run w (Prog.act a k) ch l =
    (k (a.step w (ch, l)).1).run w (a.step w (ch, l)).2.1 (a.step w (ch, l)).2.2 := (rfl)

@[simp] theorem run_load (x : Word) : (load x : Proc L V ℕ).run w ch l = (ch.get x, ch, l) := (rfl)

@[simp] theorem run_store (x : Word) (v : ℕ) :
    (store x v : Proc L V Unit).run w ch l = ((), ch.set x v, l) := (rfl)

@[simp] theorem run_fetchAdd (x : Word) (v : ℕ) : (fetchAdd x v : Proc L V ℕ).run w ch l =
    (ch.get x, ch.set x (wadd w (ch.get x) v), l) := (rfl)

@[simp] theorem run_read (i : ℕ) : (read i : Proc L V V).run w ch l = (ch.buffer i, ch, l) := (rfl)

@[simp] theorem run_assign (i : ℕ) (v : V) :
    (assign i v : Proc L V Unit).run w ch l = ((), ch.write i v, l) := (rfl)

@[simp] theorem run_self : (self : Proc L V L).run w ch l = (l, ch, l) := (rfl)

@[simp] theorem run_update (f : L → L) :
    (update f : Proc L V Unit).run w ch l = ((), ch, f l) := (rfl)

@[simp] theorem run_bind (c : Proc L V α) (f : α → Proc L V β) :
    (c >>= f).run w ch l =
      (f (c.run w ch l).1).run w (c.run w ch l).2.1 (c.run w ch l).2.2 :=
  Prog.exec_bind _ c f (ch, l)

@[simp] theorem run_ite (p : Prop) [Decidable p] (c d : Proc L V α) :
    (if p then c else d).run w ch l = if p then c.run w ch l else d.run w ch l :=
  Prog.exec_ite _ p c d (ch, l)

end Proc

/-! ### Threads and their history

Endpoints run as threads, interleaved action by action.  Beside the memory, a system of threads
keeps a history that the code never reads: what the producer wrote at each position, and what was
published there. -/

/-- A thread with the own structure `L`: at rest with a status, or inside the call `op` that was
made when the structure was `start`. -/
inductive Thread (L V St Op R : Type) where
  | rest (st : St)
  | busy (start : L) (op : Op) (code : Proc L V R)

section history
variable {L V E : Type}

/-- Effect of an action on the published values: a store of the tail publishes every position
below it that was not published before. -/
def publish (a : Act L V) (wrote published : ℕ → Option E) : ℕ → Option E :=
  match a with
  | .store .tail t => fun p =>
      match published p with
      | some v => some v
      | none => if p < t then wrote p else none
  | _ => published

/-- Record the values that a call wrote from position `pos` on. -/
def record (pos : ℕ) (values : List E) (wrote : ℕ → Option E) : ℕ → Option E :=
  fun p => if pos ≤ p ∧ p < pos + values.length then values[p - pos]? else wrote p

end history

/-! ### Constants -/

/-- A little-endian word from its bytes. -/
def fromLeBytes (bytes : List ℕ) : ℕ := bytes.foldr (fun b n => b + 256 * n) 0

/-- The marker of an initialised channel, `u64::from_le_bytes(*b"TEMPORAL")`. -/
def MAGIC : ℕ := fromLeBytes [84, 69, 77, 80, 79, 82, 65, 76]

theorem MAGIC_ne_zero : MAGIC ≠ 0 := by decide

/-- Number of elements after which positions are published (both flavours define the same
function): a quarter of the ring, at least one. -/
def burstAmount (N : ℕ) : ℕ :=
  let x := N / 4
  if x = 0 then 1 else x

theorem burstAmount_pos (N : ℕ) : 0 < burstAmount N := by
  simp only [burstAmount]
  split_ifs with h
  · exact Nat.one_pos
  · exact Nat.pos_of_ne_zero h

theorem burstAmount_le {N : ℕ} (hN : 0 < N) : burstAmount N ≤ N := by
  simp only [burstAmount]
  split_ifs <;> omega

/-- The mask that turns a position into a slot index. -/
def moduloMask (N : ℕ) : ℕ := N - 1

theorem and_moduloMask (N p : ℕ) : p &&& moduloMask N = slot N p := rfl

/-- How the channel is backed: by shared memory, or by an `Arc` inside one process. -/
inductive Mode where
  | shmem
  | local
deriving DecidableEq, Repr

/-- `ChannelMode::BACKED_BY_ARCC`. -/
def Mode.backedByArcc : Mode → Bool
  | .shmem => false
  | .local => true

/-! ### Errors -/

/-- Errors of the shared-memory layer. -/
inductive ShmemError where
  | badFileDescriptor
  | allocationFailedErr
  | invalidPermissions
  | unlinkError
  | errno (e : ℤ)
deriving DecidableEq, Repr

/-- Errors of the queue. -/
inductive QueError where
  | corruptionDetected
  | invalidSize
  | uninitialized
  | incorrectCapacity (capacity : ℕ)
  | shmemError (e : ShmemError)
  | full
deriving DecidableEq, Repr

/-- What a call does: it returns `Ok`, it returns `Err`, or it panics. -/
inductive Outcome (α : Type) where
  | ok (x : α)
  | err (e : QueError)
  | panic
deriving DecidableEq, Repr

/-! ### The producer's structure -/

/-- The producer's structure; it has the same fields in both flavours. -/
structure Producer where
  tail : ℕ
  /-- Number of elements written since the last sync. -/
  written : ℕ
  lastConsumerHeartbeat : ℕ
deriving DecidableEq, Repr

/-- The assertions that open every constructor on a raw buffer: a power of two, and alignment. -/
def validBuffer (N buffer : ℕ) : Bool :=
  decide (0 < N) && isPowerOfTwo N && decide (buffer % 128 = 0)

/-- The constants of a channel: how it is backed, its capacity, the width of `usize` and the
address of the buffer.  The capacity passes the assertions of the constructors. -/
structure Config where
  mode : Mode
  N : ℕ
  w : ℕ
  buffer : ℕ
  valid : validBuffer N buffer = true
  fits : N < 2 ^ w

namespace Config
variable (C : Config)

theorem pow : isPowerOfTwo C.N = true := by
  have h := C.valid
  simp only [validBuffer, Bool.and_eq_true] at h
  exact h.1.2

theorem pos : 0 < C.N := pos_of_isPowerOfTwo C.pow

/-- A ring of two slots inside one process, with 64-bit counters. -/
def small : Config := ⟨.local, 2, 64, 0, by decide +kernel, by decide⟩

/-- A ring of eight slots inside one process; the burst is two. -/
def eight : Config := ⟨.local, 8, 64, 0, by decide +kernel, by decide⟩

end Config

section endpoint
variable {L V : Type}

/-- `Arc::increment_strong_count`, in the mode that has an `Arc`. -/
def incrementStrongCount (M : Mode) : Proc L V Unit := do
  if M.backedByArcc then
    let _ ← fetchAdd .strong 1

/-- The `Drop` of an endpoint: in the mode that has an `Arc`, its handle is dropped. -/
def dropEndpoint (M : Mode) : Proc L V Unit := do
  if M.backedByArcc then
    Prog.perform Act.dropArc

end endpoint

end Que
