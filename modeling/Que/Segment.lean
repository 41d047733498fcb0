import Que.Lib.Layout
import Que.Lossless.Producer
import Que.Lossless.Consumer

/-! # The segment

The header words and the ring as the bytes of a shared-memory object, and the calls by which an
endpoint opens the object.

* **Layout.** `Channel` is `repr(C, align(128))`: four cache-padded counters, padding, capacity,
  magic, and the ring from `bufferOffset` on.  `strong` belongs to the `Arc` of a process-private
  channel and is not in the segment.
* **Bytes.** `stepBytes` is the meaning of the actions of endpoint code on the bytes of an
  object, little-endian.  The constructors transcribed in `Lossless/` run on it unchanged.
* **Operating system.** `Os` says which system calls fail, with which `errno`.  `fstat` returns
  the size of the object, `ftruncate` sets it and fills growth with zeros, `mmap` maps its
  bytes, after it has extended a hugetlbfs file that is smaller than the mapping (`mapped`).
* **Resizing.** The object is given the joiner's size before its header is looked at, so a join
  that is refused may already have cut or extended a live segment (`refused_join_intact_iff`). -/

namespace Que.Segment

open Lib

abbrev Bytes := List UInt8

/-! ### Layout -/

/-- Size and alignment of the elements. -/
structure ElementType where
  size : ℕ
  align : ℕ
  align_pow : isPowerOfTwo align = true
  align_dvd : align ∣ size

/-- Where a header word starts. -/
def offset : Word → Option ℕ
  | .tail => some 0
  | .head => some 128
  | .producerHeartbeat => some 256
  | .consumerHeartbeat => some 384
  | .capacity => some 624
  | .magic => some 632
  | .strong => none

/-- How many bytes it has; `u` is the size of `usize`. -/
def width (u : ℕ) : Word → ℕ
  | .magic => 8
  | _ => u

/-- `CachePaddedAtomicUsize`. -/
def cachePadded (u : ℕ) : Field := .ofStruct 128 [⟨u, u⟩]

/-- The fields of `Channel` before the ring. -/
def headerFields (u : ℕ) : List Field :=
  [cachePadded u, cachePadded u, cachePadded u, cachePadded u, ⟨128 - 16, 1⟩, ⟨u, u⟩, ⟨8, 8⟩]

theorem layout_headerFields {u : ℕ} (hu : u = 4 ∨ u = 8) :
    offsets 0 (headerFields u) = [0, 128, 256, 384, 512, 624, 632] ∧
      fieldsEnd 0 (headerFields u) = 640 ∧ structAlign 128 (headerFields u) = 128 := by
  rcases hu with rfl | rfl <;> decide

namespace ElementType
variable (T : ElementType)

/-- The fields of `Channel<_, T, N>`; the last one is the `PhantomData`. -/
def channelFields (u N : ℕ) : List Field :=
  headerFields u ++ [⟨N * T.size, T.align⟩, ⟨0, 1⟩]

/-- Where the ring starts. -/
def bufferOffset : ℕ := roundUp T.align 640

/-- `size_of::<Channel<_, T, N>>()`. -/
def channelSize (N : ℕ) : ℕ := roundUp (max 128 T.align) (T.bufferOffset + N * T.size)

section layout
variable {u : ℕ} (hu : u = 4 ∨ u = 8) (N : ℕ)
include hu

/-- The header words and the ring are where the layout of `Channel` puts them. -/
theorem offsets_channelFields : offsets 0 (T.channelFields u N) =
    [0, 128, 256, 384, 512, 624, 632, T.bufferOffset, T.bufferOffset + N * T.size] := by
  unfold channelFields
  rw [offsets_append, (layout_headerFields hu).1, (layout_headerFields hu).2.1]
  simp only [offsets, bufferOffset, List.cons_append, List.nil_append]
  rw [roundUp_of_dvd Nat.one_pos (one_dvd _)]

theorem structSize_channelFields : structSize 128 (T.channelFields u N) = T.channelSize N := by
  unfold channelFields structSize
  rw [fieldsEnd_append, structAlign_append, (layout_headerFields hu).2.1,
    (layout_headerFields hu).2.2]
  have halign : max (max 128 T.align) 1 = max 128 T.align := by omega
  simp only [fieldsEnd, structAlign, List.map, List.foldl, halign, Nat.add_zero]
  rw [roundUp_of_dvd Nat.one_pos (one_dvd _)]
  rfl

end layout

end ElementType

/-! ### Bytes -/

/-- The word with the given bytes. -/
def fromBytes (bs : Bytes) : ℕ := fromLeBytes (bs.map UInt8.toNat)

/-- The lowest `n` bytes of a word. -/
def toBytes (n v : ℕ) : Bytes := (List.range n).map fun i => UInt8.ofNat (v / 256 ^ i)

/-- The `n` bytes from `off` on. -/
def readBytes (o : Bytes) (off n : ℕ) : Bytes := (o.drop off).take n

/-- Write the bytes `bs` from `off` on. -/
def writeBytes (o : Bytes) (off : ℕ) (bs : Bytes) : Bytes :=
  o.mapIdx fun i b => if off ≤ i then bs.getD (i - off) b else b

/-- Load a header word. -/
def getWord (u : ℕ) (o : Bytes) (x : Word) : ℕ :=
  match offset x with
  | some off => fromBytes (readBytes o off (width u x))
  | none => 0

/-- Store a header word. -/
def setWord (u : ℕ) (o : Bytes) (x : Word) (v : ℕ) : Bytes :=
  match offset x with
  | some off => writeBytes o off (toBytes (width u x) v)
  | none => o

/-- The effect of an action on the bytes of an object and on the endpoint's own structure. -/
def stepBytes {L : Type} (u : ℕ) (T : ElementType) :
    (a : Act L Bytes) → Bytes × L → a.Ans × (Bytes × L)
  | .load x, s => (getWord u s.1 x, s)
  | .store x v, s => ((), (setWord u s.1 x v, s.2))
  | .fetchAdd x v, s =>
      (getWord u s.1 x, (setWord u s.1 x (wadd (8 * width u x) (getWord u s.1 x) v), s.2))
  | .read i, s => (readBytes s.1 (T.bufferOffset + i * T.size) T.size, s)
  | .assign i v, s => ((), (writeBytes s.1 (T.bufferOffset + i * T.size) v, s.2))
  | .copy i v, s => ((), (writeBytes s.1 (T.bufferOffset + i * T.size) v, s.2))
  | .self, s => (s.2, s)
  | .update f, s => ((), (s.1, f s.2))
  | .dropArc, s => ((), s)

/-- Sequential run of endpoint code on the bytes of an object. -/
def runBytes {L α : Type} (u : ℕ) (T : ElementType) (c : Proc L Bytes α) (o : Bytes) (l : L) :
    α × (Bytes × L) :=
  Prog.exec (stepBytes u T) c (o, l)

section run
variable {L α β : Type} (u : ℕ) (T : ElementType) (o : Bytes) (l : L)

@[simp] theorem runBytes_ret (x : α) :
    runBytes u T (Prog.ret x : Proc L Bytes α) o l = (x, o, l) := (rfl)

@[simp] theorem runBytes_load (x : Word) :
    runBytes u T (load x : Proc L Bytes ℕ) o l = (getWord u o x, o, l) := (rfl)

@[simp] theorem runBytes_store (x : Word) (v : ℕ) :
    runBytes u T (store x v : Proc L Bytes Unit) o l = ((), setWord u o x v, l) := (rfl)

@[simp] theorem runBytes_bind (c : Proc L Bytes α) (f : α → Proc L Bytes β) :
    runBytes u T (c >>= f) o l =
      runBytes u T (f (runBytes u T c o l).1) (runBytes u T c o l).2.1 (runBytes u T c o l).2.2 :=
  Prog.exec_bind _ c f (o, l)

@[simp] theorem runBytes_ite (p : Prop) [Decidable p] (c d : Proc L Bytes α) :
    runBytes u T (if p then c else d) o l =
      if p then runBytes u T c o l else runBytes u T d o l :=
  Prog.exec_ite _ p c d (o, l)

end run

@[simp] theorem length_writeBytes (o : Bytes) (off : ℕ) (bs : Bytes) :
    (writeBytes o off bs).length = o.length := List.length_mapIdx

theorem length_setWord (u : ℕ) (o : Bytes) (x : Word) (v : ℕ) :
    (setWord u o x v).length = o.length := by
  unfold setWord
  split
  · exact length_writeBytes _ _ _
  · rfl

/-- No action changes the size of the object. -/
theorem length_stepBytes {L : Type} (u : ℕ) (T : ElementType) (a : Act L Bytes) (s : Bytes × L) :
    (stepBytes u T a s).2.1.length = s.1.length := by
  cases a with
  | store x v => exact length_setWord _ _ _ _
  | fetchAdd x v => exact length_setWord _ _ _ _
  | assign i v => exact length_writeBytes _ _ _
  | copy i v => exact length_writeBytes _ _ _
  | _ => rfl

theorem length_runBytes {L α : Type} (u : ℕ) (T : ElementType) (c : Proc L Bytes α) (o : Bytes)
    (l : L) : (runBytes u T c o l).2.1.length = o.length := by
  induction c generalizing o l with
  | ret x => rfl
  | act a k ih => exact (ih _ _ _).trans (length_stepBytes u T a (o, l))

/-! ### Page sizes -/

inductive PageSize where
  | standard
  | huge
  | gigantic
deriving DecidableEq, Repr

/-- `get_upligned_size`, in `u`-byte words. -/
def getUplignedSize (u pageSize size : ℕ) : ℕ := roundUp pageSize size % 2 ^ (8 * u)

/-- The operations of `get_upligned_size`. -/
def uplignedSize (pageSize size : ℕ) : WordExpr :=
  .mul (.lit pageSize) (.divCeil (.lit size) (.lit pageSize))

theorem eval_uplignedSize (u pageSize size : ℕ) :
    (uplignedSize pageSize size).eval (8 * u) = getUplignedSize u pageSize size := rfl

/-- The machine and its operating system: the size of `usize` in bytes, the standard page size,
which system calls fail and with which `errno`, and the address at which an object is mapped. -/
structure Os where
  usize : ℕ
  usize_pos : 0 < usize
  usize_le : usize ≤ 8
  shmOpen : Option ℤ
  openFile : Option ℤ
  fstat : Option ℤ
  ftruncate : Option ℤ
  mmap : Except ℤ ℕ
  pageSize : ℕ
  pageSize_pow : isPowerOfTwo pageSize = true
  le_pageSize : 128 ≤ pageSize
  pageSize_le : pageSize ≤ 2 ^ 30

namespace PageSize

def GIGANTIC : ℕ := 2 ^ 30

def HUGE : ℕ := 2 ^ 21

/-- `PageSize::mem_size`. -/
def memSize (os : Os) : PageSize → ℕ → ℕ
  | standard, size => getUplignedSize os.usize os.pageSize size
  | huge, size => getUplignedSize os.usize HUGE size
  | gigantic, size => getUplignedSize os.usize GIGANTIC size

/-- The page size that `mem_size` rounds to. -/
def bytes (os : Os) : PageSize → ℕ
  | standard => os.pageSize
  | huge => HUGE
  | gigantic => GIGANTIC

section bytes
variable (os : Os) (page : PageSize)

theorem memSize_eq (size : ℕ) :
    page.memSize os size = getUplignedSize os.usize (page.bytes os) size := by
  cases page <;> rfl

theorem isPowerOfTwo_bytes : isPowerOfTwo (page.bytes os) = true := by
  cases page with
  | standard => exact os.pageSize_pow
  | huge => exact isPowerOfTwo_iff.mpr ⟨21, rfl⟩
  | gigantic => exact isPowerOfTwo_iff.mpr ⟨30, rfl⟩

theorem le_bytes : 128 ≤ page.bytes os := by
  cases page with
  | standard => exact os.le_pageSize
  | huge => exact (by decide : 128 ≤ 2 ^ 21)
  | gigantic => exact (by decide : 128 ≤ 2 ^ 30)

theorem bytes_le : page.bytes os ≤ 2 ^ 30 := by
  cases page with
  | standard => exact os.pageSize_le
  | huge => exact (by decide : 2 ^ 21 ≤ 2 ^ 30)
  | gigantic => exact (by decide : 2 ^ 30 ≤ 2 ^ 30)

/-- Pages are whole cache lines. -/
theorem dvd_bytes : 128 ∣ page.bytes os :=
  dvd_of_isPowerOfTwo (by decide +kernel) (page.isPowerOfTwo_bytes os) (page.le_bytes os)

theorem bytes_pos : 0 < page.bytes os := pos_of_isPowerOfTwo (page.isPowerOfTwo_bytes os)

end bytes

end PageSize

/-! ### Opening the object -/

/-- `From<Errno> for ShmemError`, with the numbers of `EBADF`, `ENOMEM` and `EACCES`. -/
def shmemError (errno : ℤ) : ShmemError :=
  if errno = 9 then .badFileDescriptor
  else if errno = 12 then .allocationFailedErr
  else if errno = 13 then .invalidPermissions
  else .errno errno

/-- `ftruncate`: bytes beyond the new size are discarded, growth is filled with zeros. -/
def truncate (o : Bytes) (size : ℕ) : Bytes := o.take size ++ List.replicate (size - o.length) 0

/-- The object after `mmap` of `size` bytes: a file in a hugetlbfs grows to the size of the
mapping. -/
def mapped (page : PageSize) (size : ℕ) (o : Bytes) : Bytes :=
  match page with
  | .standard => o
  | .huge | .gigantic => o ++ List.replicate (size - o.length) 0

@[simp] theorem mapped_standard (size : ℕ) (o : Bytes) : mapped .standard size o = o := rfl

@[simp] theorem mapped_self (page : PageSize) (o : Bytes) : mapped page o.length o = o := by
  cases page <;> simp [mapped]

/-- `Shmem::open_or_create` on the object that the name stands for, if there is one: the address
of the mapping or the error, and the object afterwards. -/
def openOrCreate (os : Os) (uplinedSize : ℕ) (page : PageSize) (object : Option Bytes) :
    Except ShmemError ℕ × Option Bytes :=
  let opened : Except ShmemError Unit × Option Bytes :=
    match page with
    | .gigantic | .huge =>
        match os.openFile with
        | some e => (.error (shmemError e), object)
        | none => (.ok (), some (object.getD []))
    | .standard =>
        match os.shmOpen with
        | some e => (.error (shmemError e), object)
        | none =>
            let o := object.getD []
            match os.fstat with
            | some e => (.error (shmemError e), some o)
            | none =>
                if o.length ≠ uplinedSize then
                  match os.ftruncate with
                  | some e => (.error (shmemError e), some o)
                  | none => (.ok (), some (truncate o uplinedSize))
                else
                  (.ok (), some o)
  match opened with
  | (.error e, o) => (.error e, o)
  | (.ok (), o) =>
      match os.mmap with
      | .error e => (.error (.errno e), o)
      | .ok addr => (.ok addr, o.map (mapped page uplinedSize))

/-- A shared-memory constructor: compute the size, open the object, and run the code `join` of the
constructor, which is given the address, on the mapped bytes. -/
def attempt {α : Type} (os : Os) (T : ElementType) (N : ℕ) (page : PageSize)
    (join : ℕ → Proc Unit Bytes (Outcome α)) (object : Option Bytes) :
    Outcome α × Option Bytes :=
  let bufferSize := page.memSize os (T.channelSize N)
  if bufferSize ≥ 2 ^ 63 then
    (.err .invalidSize, object)
  else
    match openOrCreate os bufferSize page object with
    | (.error e, o) => (.err (.shmemError e), o)
    | (.ok addr, o) =>
        let r := runBytes os.usize T (join addr) (o.getD []) ()
        (r.1, some r.2.1)

/-- The endpoints of the lossless queue. -/
inductive Endpoint where
  | producer
  | consumer
deriving DecidableEq, Repr

abbrev Endpoint.Own : Endpoint → Type
  | producer => Producer
  | consumer => Lossless.Consumer

/-- The constructor on the mapped memory at `addr`. -/
def Endpoint.code (N addr : ℕ) : (e : Endpoint) → Proc Unit Bytes (Outcome e.Own)
  | producer => Lossless.joinOrCreateShmem N
  | consumer => Lossless.joinConsumer .shmem N addr

/-- `Producer::join_or_create_shmem` and `Consumer::join_shmem`. -/
def Endpoint.joinShmem (os : Os) (T : ElementType) (N : ℕ) (page : PageSize) (e : Endpoint) :
    Option Bytes → Outcome e.Own × Option Bytes :=
  attempt os T N page fun addr => e.code N addr

/-! ### Reading the header -/

/-- A whole word is read the same after a cut behind it. -/
theorem readBytes_truncate {o : Bytes} {off n size : ℕ} (ho : off + n ≤ o.length)
    (hs : off + n ≤ size) : readBytes (truncate o size) off n = readBytes o off n := by
  unfold readBytes truncate
  rw [List.drop_append_of_le_length (by rw [List.length_take]; omega),
    List.take_append_of_le_length (by rw [List.length_drop, List.length_take]; omega),
    List.drop_take, List.take_take, min_eq_left (by omega)]

theorem getWord_eq_zero {u off : ℕ} {o : Bytes} {x : Word} (hx : offset x = some off)
    (h : o.length ≤ off) : getWord u o x = 0 := by
  simp [getWord, hx, readBytes, List.drop_eq_nil_of_le h, fromBytes, fromLeBytes]

@[simp] theorem length_truncate (o : Bytes) (size : ℕ) : (truncate o size).length = size := by
  simp only [truncate, List.length_append, List.length_take, List.length_replicate]
  omega

theorem truncate_self (o : Bytes) : truncate o o.length = o := by
  simp [truncate]

/-- A channel has its whole header. -/
theorem ElementType.le_channelSize (T : ElementType) (N : ℕ) : 640 ≤ T.channelSize N := by
  have h1 : 640 ≤ T.bufferOffset := le_roundUp (pos_of_isPowerOfTwo T.align_pow) 640
  have hunit : 0 < max 128 T.align := by omega
  have h2 := le_roundUp hunit (T.bufferOffset + N * T.size)
  unfold channelSize
  omega

/-- The page-rounded size of a segment is a multiple of 128. -/
theorem dvd_memSize (os : Os) (size : ℕ) : 128 ∣ PageSize.standard.memSize os size := by
  have hpage : 128 ∣ os.pageSize := PageSize.standard.dvd_bytes os
  have hword : 128 ∣ 2 ^ (8 * os.usize) := by
    have := os.usize_pos
    exact Nat.pow_dvd_pow 2 (m := 7) (by omega)
  exact (Nat.dvd_mod_iff hword).mpr (hpage.trans (dvd_roundUp _ _))

/-! ### A join with another capacity -/

/-- The object holds an initialised channel of `N` elements of type `T`. -/
structure HoldsChannel (u : ℕ) (T : ElementType) (N : ℕ) (o : Bytes) : Prop where
  size : T.channelSize N ≤ o.length
  magic : getWord u o .magic = MAGIC
  capacity : getWord u o .capacity = N

/-- A constructor that refuses a channel for its capacity has read the magic and the capacity, and
has written nothing. -/
theorem Endpoint.code_refused {e : Endpoint} {u N addr c : ℕ} {T : ElementType} {o : Bytes}
    (h : (runBytes u T (e.code N addr) o ()).1 = .err (.incorrectCapacity c)) :
    (runBytes u T (e.code N addr) o ()).2.1 = o ∧
      getWord u o .magic = MAGIC ∧ getWord u o .capacity = c := by
  cases e with
  | producer =>
      simp only [code, Lossless.joinOrCreateShmem, Prog.pure_eq_ret, runBytes_bind, runBytes_load,
        runBytes_store, runBytes_ite, runBytes_ret] at h ⊢
      split_ifs at h ⊢ with hm hc h0
      · cases h
        exact ⟨rfl, hm, rfl⟩
      · cases h
  | consumer =>
      simp only [code, Lossless.joinConsumer, incrementStrongCount, Mode.backedByArcc,
        Prog.pure_eq_ret, runBytes_bind, runBytes_load, runBytes_store, runBytes_ite,
        runBytes_ret] at h ⊢
      split_ifs at h ⊢ with hv hm hc h0
      · cases h
        exact ⟨rfl, hm, rfl⟩
      · cases h
      · cases h

/-- A constructor on mapped memory does not report a size. -/
theorem Endpoint.code_ne_invalidSize (e : Endpoint) (u N addr : ℕ) (T : ElementType) (o : Bytes) :
    (runBytes u T (e.code N addr) o ()).1 ≠ .err .invalidSize := by
  intro h
  cases e with
  | producer =>
      simp only [code, Lossless.joinOrCreateShmem, Prog.pure_eq_ret, runBytes_bind, runBytes_load,
        runBytes_store, runBytes_ite, runBytes_ret] at h
      split_ifs at h <;> cases h
  | consumer =>
      simp only [code, Lossless.joinConsumer, incrementStrongCount, Mode.backedByArcc,
        Prog.pure_eq_ret, runBytes_bind, runBytes_load, runBytes_store, runBytes_ite,
        runBytes_ret] at h
      split_ifs at h <;> cases h

/-- The size is refused exactly where it is no `i64`. -/
theorem Endpoint.joinShmem_invalidSize_iff (e : Endpoint) {os : Os} {T : ElementType} {N : ℕ}
    {page : PageSize} {object : Option Bytes} :
    (e.joinShmem os T N page object).1 = .err .invalidSize ↔
      2 ^ 63 ≤ page.memSize os (T.channelSize N) := by
  unfold joinShmem attempt
  simp only
  split_ifs with hsize
  · simp only [true_iff]
    exact hsize
  · apply iff_of_false ?_ hsize
    cases openOrCreate os (page.memSize os (T.channelSize N)) page object with
    | mk r object' =>
        cases r with
        | error err => exact nofun
        | ok addr => exact e.code_ne_invalidSize _ _ _ _ _

/-- What `open_or_create` makes of the bytes of an object, where it succeeds. -/
def opened (page : PageSize) (size : ℕ) (o : Bytes) : Bytes :=
  match page with
  | .standard => truncate o size
  | .huge | .gigantic => mapped page size o

theorem length_opened_nil (page : PageSize) (size : ℕ) : (opened page size []).length = size := by
  cases page <;> simp [opened, mapped]

theorem openOrCreate_ok {os : Os} {size addr : ℕ} {page : PageSize} {object object' : Option Bytes}
    (h : openOrCreate os size page object = (.ok addr, object')) :
    object' = some (opened page size (object.getD [])) := by
  unfold openOrCreate at h
  cases page with
  | standard =>
      cases ho : os.shmOpen with
      | some e => simp [ho] at h
      | none =>
          cases hf : os.fstat with
          | some e => simp [ho, hf] at h
          | none =>
              simp only [ho, hf] at h
              by_cases hs : (object.getD []).length = size
              · rw [if_neg (not_not.mpr hs)] at h
                cases hm : os.mmap with
                | error e => simp [hm] at h
                | ok a =>
                    rw [hm] at h
                    cases h
                    simp [opened, ← hs, truncate_self]
              · rw [if_pos hs] at h
                cases ht : os.ftruncate with
                | some e => simp [ht] at h
                | none =>
                    cases hm : os.mmap with
                    | error e => simp [ht, hm] at h
                    | ok a =>
                        rw [ht, hm] at h
                        cases h
                        rfl
  | huge | gigantic =>
      cases ho : os.openFile with
      | some e => simp [ho] at h
      | none =>
          cases hm : os.mmap with
          | error e => simp [ho, hm] at h
          | ok a =>
              simp only [ho, hm] at h
              cases h
              rfl

/-- A standard-page attempt that is refused for the capacity has resized the object to the size
that the joiner computes, and has changed nothing else. -/
theorem Endpoint.joinShmem_refused {os : Os} {N c : ℕ} {T : ElementType} {e : Endpoint} {o : Bytes}
    {object : Option Bytes}
    (h : e.joinShmem os T N .standard (some o) = (.err (.incorrectCapacity c), object)) :
    let o' := truncate o (PageSize.standard.memSize os (T.channelSize N))
    object = some o' ∧ getWord os.usize o' .magic = MAGIC ∧ getWord os.usize o' .capacity = c := by
  unfold joinShmem attempt at h
  simp only at h
  split_ifs at h
  · cases h
  generalize PageSize.standard.memSize os (T.channelSize N) = size at h ⊢
  cases hr : openOrCreate os size .standard (some o) with
  | mk r object' =>
      rw [hr] at h
      cases r with
      | error err => cases h
      | ok addr =>
          obtain rfl := openOrCreate_ok hr
          simp only [Option.getD_some, Prod.mk.injEq] at h
          obtain ⟨hres, rfl⟩ := h
          obtain ⟨hsame, hmagic, hcap⟩ := code_refused hres
          exact ⟨congrArg some hsame, hmagic, hcap⟩

/-- The header survives a resize that leaves room for it. -/
theorem getWord_truncate {u size : ℕ} {o : Bytes} {x : Word} (hu : u ≤ 8) (hx : x ≠ .strong)
    (ho : 640 ≤ o.length) (hs : 640 ≤ size) : getWord u (truncate o size) x = getWord u o x := by
  cases x with
  | strong => exact absurd rfl hx
  | _ =>
      simp only [getWord, offset, width]
      rw [readBytes_truncate (by omega) (by omega)]

/-- **When a refused join leaves the segment alone.**  Let a standard-page object hold a channel of
capacity `N'`.  An attempt to join it that ends with `IncorrectCapacity` reports `N'`, and leaves
the size and the bytes of the object as they were exactly if the object already has the
page-rounded size that the joiner computes from its own capacity and element type. -/
theorem refused_join_intact_iff {os : Os} {T T' : ElementType} {N N' c : ℕ} {o : Bytes}
    (hold : HoldsChannel os.usize T' N' o) (e : Endpoint) {object : Option Bytes}
    (h : e.joinShmem os T N .standard (some o) = (.err (.incorrectCapacity c), object)) :
    c = N' ∧ (object = some o ↔
      o.length = PageSize.standard.memSize os (T.channelSize N)) := by
  obtain ⟨rfl, hmagic, hcap⟩ := e.joinShmem_refused h
  have hsize := dvd_memSize os (T.channelSize N)
  generalize PageSize.standard.memSize os (T.channelSize N) = size at hsize hmagic hcap ⊢
  constructor
  · have ho := (T'.le_channelSize N').trans hold.size
    have hs : 640 ≤ size := by
      by_contra hs
      -- a smaller segment would end before the magic
      rw [getWord_eq_zero rfl (by rw [length_truncate]; omega)] at hmagic
      exact MAGIC_ne_zero hmagic.symm
    rw [← hcap, getWord_truncate os.usize_le (by simp) ho hs]
    exact hold.capacity
  · rw [Option.some.injEq]
    constructor
    · intro e
      rw [← e]
      exact length_truncate o size
    · rintro rfl
      exact truncate_self o

/-- A 64-bit machine with pages of 4096 bytes on which no call fails. -/
def linux : Os where
  usize := 8
  usize_pos := by decide
  usize_le := by decide
  pageSize := 4096
  pageSize_pow := by decide +kernel
  le_pageSize := by decide
  pageSize_le := by decide
  shmOpen := none
  openFile := none
  fstat := none
  ftruncate := none
  mmap := .ok 0

/-- The elements are words of eight bytes. -/
def u64 : ElementType := ⟨8, 8, by decide +kernel, by decide⟩

/-- A segment of `size` bytes with a new channel of the given capacity. -/
def fresh (size capacity : ℕ) : Bytes :=
  List.replicate 624 0 ++ toBytes 8 capacity ++ toBytes 8 MAGIC ++ List.replicate (size - 640) 0

theorem length_fresh {size : ℕ} (h : 640 ≤ size) (capacity : ℕ) :
    (fresh size capacity).length = size := by
  simp only [fresh, toBytes, List.length_append, List.length_replicate, List.length_map,
    List.length_range]
  omega

/-- Where no call fails, a producer with another capacity is refused. -/
theorem joinShmem_linux {N N' : ℕ} {o : Bytes} (hold : HoldsChannel 8 u64 N' o) (hne : N' ≠ N)
    (hN : PageSize.standard.memSize linux (u64.channelSize N) < 2 ^ 63)
    (hs : 640 ≤ PageSize.standard.memSize linux (u64.channelSize N)) :
    Endpoint.producer.joinShmem linux u64 N .standard (some o) = (.err (.incorrectCapacity N'),
      some (truncate o (PageSize.standard.memSize linux (u64.channelSize N)))) := by
  have ho := (u64.le_channelSize N').trans hold.size
  have hopen : ∀ size, openOrCreate linux size .standard (some o) =
      (.ok 0, some (truncate o size)) := by
    intro size
    by_cases h : o.length = size
    · subst h
      simp [openOrCreate, linux, truncate_self]
    · simp [openOrCreate, linux, h]
  unfold Endpoint.joinShmem attempt
  simp only [hopen]
  rw [if_neg (by omega)]
  generalize PageSize.standard.memSize linux (u64.channelSize N) = size at hs ⊢
  have hm : getWord linux.usize (truncate o size) .magic = MAGIC :=
    (getWord_truncate (by decide) (by simp) ho hs).trans hold.magic
  have hc : getWord linux.usize (truncate o size) .capacity = N' :=
    (getWord_truncate (by decide) (by simp) ho hs).trans hold.capacity
  simp [Endpoint.code, Lossless.joinOrCreateShmem, hm, hc, hne]

/-- A channel of two words and a joiner with four share one page: nothing changes. -/
theorem refused_join_intact_page :
    HoldsChannel 8 u64 2 (fresh 4096 2) ∧
    Endpoint.producer.joinShmem linux u64 4 .standard (some (fresh 4096 2)) =
      (.err (.incorrectCapacity 2), some (fresh 4096 2)) := by
  have hold : HoldsChannel 8 u64 2 (fresh 4096 2) := by
    refine ⟨?_, by decide +kernel, by decide +kernel⟩
    rw [length_fresh (by decide)]
    decide
  have hsize : PageSize.standard.memSize linux (u64.channelSize 4) = 4096 := by decide
  have h := joinShmem_linux (N := 4) hold (by decide) (by rw [hsize]; decide)
    (by rw [hsize]; decide)
  refine ⟨hold, h.trans (congrArg _ ?_)⟩
  have hold' : HoldsChannel linux.usize u64 2 (fresh 4096 2) := hold
  apply (refused_join_intact_iff hold' .producer h).2.mpr
  rw [hsize, length_fresh (by decide)]

/-- A channel of 1024 words has three pages; a joiner with two is refused, and the object has one
page left. -/
theorem not_refused_join_intact :
    HoldsChannel 8 u64 1024 (fresh 12288 1024) ∧
    ∃ object, Endpoint.producer.joinShmem linux u64 2 .standard (some (fresh 12288 1024)) =
      (.err (.incorrectCapacity 1024), some object) ∧
      (fresh 12288 1024).length = 12288 ∧ object.length = 4096 := by
  have hold : HoldsChannel 8 u64 1024 (fresh 12288 1024) := by
    refine ⟨?_, by decide +kernel, by decide +kernel⟩
    rw [length_fresh (by decide)]
    decide
  have hsize : PageSize.standard.memSize linux (u64.channelSize 2) = 4096 := by decide
  have h := joinShmem_linux (N := 2) hold (by decide) (by rw [hsize]; decide)
    (by rw [hsize]; decide)
  refine ⟨hold, _, h, length_fresh (by decide) _, ?_⟩
  rw [length_truncate, hsize]

end Que.Segment
