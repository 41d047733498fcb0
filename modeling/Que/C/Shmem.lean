import Que.C.Endpoints
import Que.Segment

/-! # The segment on both sides

Transcription of `c/shmem.c` and of the structure in `c/spsc.c`, and their comparison with the Rust
side.

* **Layout.** The C structure has the fields of `Channel` before the ring, and the ring follows it
  directly.  For elements aligned to at most 128 this is where `Channel` has it.
* **Sizes.** One side rounds the padded size of `Channel` with a division, the other the sum of
  header and ring with a mask.  Both results are the least number of whole pages that is enough.
* **Opening.** `open_or_create_shmem` resizes the object for every page size, `open_or_create` only
  for standard pages.  An object that one of them has created has the size that the other one
  computes. -/

namespace Que.C

open Lib Segment

/-! ### `spsc.c` -/

/-- `cache_padded_atomic_t`. -/
def cachePaddedAtomic : Field := .ofStruct 128 [⟨8, 8⟩, ⟨128 - 8, 1⟩]

/-- The fields of `spsc_t`. -/
def spscFields : List Field :=
  [cachePaddedAtomic, cachePaddedAtomic, cachePaddedAtomic, cachePaddedAtomic, ⟨112, 1⟩, ⟨8, 8⟩,
    ⟨8, 8⟩]

/-- `sizeof(spsc_t)`. -/
def sizeofSpsc : ℕ := structSize 128 spscFields

/-- `get_buffer_ptr`, from the start of the segment. -/
def getBufferPtr : ℕ := 640

/-- Where the endpoints find a slot: `buffer_base + (index * sizeof(CHANNEL_T))`, with the
`buffer_base` at `spsc + 1`. -/
def slotAddr (sizeofT index : ℕ) : ℕ := sizeofSpsc + index * sizeofT

theorem spscFields_eq : spscFields = headerFields 8 := by decide

theorem sizeofSpsc_eq : sizeofSpsc = 640 := by decide

/-! ### `shmem.c` -/

def STANDARD_PAGE : ℕ := 1

def HUGE_PAGE_2MB : ℕ := 2 * 1024 * 1024

def GIGANTIC_PAGE_1GB : ℕ := 1 * 1024 * 1024 * 1024

/-- The `page_size_t`. -/
def pageSizeT : PageSize → ℕ
  | .standard => STANDARD_PAGE
  | .huge => HUGE_PAGE_2MB
  | .gigantic => GIGANTIC_PAGE_1GB

/-- The operations of `align_to_page_size`. -/
def alignToPageSize (os : Os) (size : WordExpr) (pageSize : ℕ) : WordExpr :=
  -- what is compared with -1 afterwards is the argument, which is `STANDARD_PAGE` there
  let page := if pageSize = STANDARD_PAGE then os.pageSize else pageSize
  .and (.sub (.add size (.lit page)) (.lit 1)) (.not (.sub (.lit page) (.lit 1)))

/-- The size that the programs ask for: `sizeof(spsc_t) + CHANNEL_N * sizeof(CHANNEL_T)`. -/
def bufferSize (N sizeofT : ℕ) : WordExpr := .add (.lit sizeofSpsc) (.mul (.lit N) (.lit sizeofT))

/-- The size of the segment. -/
def segmentSize (os : Os) (N sizeofT : ℕ) (page : PageSize) : ℕ :=
  (alignToPageSize os (bufferSize N sizeofT) (pageSizeT page)).eval 64

/-- `ftruncate`: a size from `2 ^ 63` on is negative as an `off_t`, and is refused with `EINVAL`. -/
def ftruncate (os : Os) (size : ℕ) : Option ℤ := if size < 2 ^ 63 then os.ftruncate else some 22

/-- The error with which the object cannot be opened, if there is one. -/
def openError (os : Os) : PageSize → Option ℤ
  | .huge | .gigantic => os.openFile
  | .standard => os.shmOpen

/-- "Resize the shared memory segment, if size differs"; nothing if that fails. -/
def resize (os : Os) (size : ℕ) (o : Bytes) : Option Bytes :=
  if o.length ≠ size then
    match ftruncate os size with
    | some _ => none
    | none => some (truncate o size)
  else
    some o

/-- `open_or_create_shmem`, after the alignment of the size: the address of the mapping, if it
succeeds, and the object afterwards. -/
def openOrCreateShmem (os : Os) (size : ℕ) (page : PageSize) (object : Option Bytes) :
    Option ℕ × Option Bytes :=
  match openError os page with
  | some _ => (none, object)
  | none =>
      let o := object.getD []
      match os.fstat with
      | some _ => (none, some o)
      | none =>
          match resize os size o with
          | none => (none, some o)
          | some o =>
              match os.mmap with
              | .error _ => (none, some o)
              | .ok addr => (some addr, some (mapped page size o))

/-- The ring follows the header directly. -/
def packed (sizeofT : ℕ) : ElementType := ⟨sizeofT, 1, by decide +kernel, Nat.one_dvd _⟩

/-- A program opens the segment and calls a constructor on the memory. -/
def attempt {L α : Type} (os : Os) (N sizeofT : ℕ) (page : PageSize)
    (join : ℕ → Proc L Bytes α) (l : L) (object : Option Bytes) : Option α × Option Bytes :=
  match openOrCreateShmem os (segmentSize os N sizeofT page) page object with
  | (none, o) => (none, o)
  | (some addr, o) =>
      let r := runBytes 8 (packed sizeofT) (join addr) (o.getD []) l
      (some r.1, some r.2.1)

/-! ### Sizes -/

section sizes
variable {os : Os} {N : ℕ} {T : ElementType} (page : PageSize)

/-- The page size that `align_to_page_size` works with. -/
theorem alignToPageSize_eq (size : WordExpr) : alignToPageSize os size (pageSizeT page) =
    .and (.sub (.add size (.lit (page.bytes os))) (.lit 1))
      (.not (.sub (.lit (page.bytes os)) (.lit 1))) := by
  cases page <;> rfl

theorem bufferOffset_eq (hT : T.align ≤ 128) : T.bufferOffset = 640 := by
  have hdvd : T.align ∣ 128 := dvd_of_isPowerOfTwo T.align_pow (by decide +kernel) hT
  exact roundUp_of_dvd (pos_of_isPowerOfTwo T.align_pow) (hdvd.trans (by decide))

theorem channelSize_eq (hT : T.align ≤ 128) : T.channelSize N = roundUp 128 (640 + N * T.size) := by
  unfold ElementType.channelSize
  rw [max_eq_left hT, bufferOffset_eq hT]

/-- The padding of `Channel` does not matter for the number of pages. -/
theorem roundUp_channelSize (hT : T.align ≤ 128) :
    roundUp (page.bytes os) (T.channelSize N) = roundUp (page.bytes os) (640 + N * T.size) := by
  rw [channelSize_eq hT]
  exact roundUp_roundUp (by decide) (page.bytes_pos os) (page.dvd_bytes os) _

/-- The Rust computation of the size does not overflow. -/
theorem exact_uplignedSize {size : ℕ} (h : size < 2 ^ 63) :
    (uplignedSize (page.bytes os) size).Exact 64 := by
  have hpos := page.bytes_pos os
  have hle := page.bytes_le os
  have hlt := roundUp_lt hpos size
  refine ⟨trivial, ⟨trivial, trivial, hpos⟩, ?_⟩
  change roundUp (page.bytes os) size < 2 ^ 64
  omega

theorem memSize_eq_roundUp (hu : os.usize = 8) {size : ℕ} (h : size < 2 ^ 63) :
    page.memSize os size = roundUp (page.bytes os) size := by
  rw [page.memSize_eq, ← eval_uplignedSize, hu]
  exact (exact_uplignedSize page h).eval_eq

/-- The C computation of the size does not overflow either. -/
theorem exact_alignToPageSize (h : 640 + N * T.size < 2 ^ 63) :
    (alignToPageSize os (bufferSize N T.size) (pageSizeT page)).Exact 64 := by
  have hpos := page.bytes_pos os
  have hle := page.bytes_le os
  have hring : N * T.size < 2 ^ 63 := by omega
  rw [alignToPageSize_eq]
  simp only [bufferSize, WordExpr.Exact, WordExpr.value, sizeofSpsc_eq, true_and]
  generalize N * T.size = ring at h hring
  omega

theorem segmentSize_eq_roundUp (h : 640 + N * T.size < 2 ^ 63) :
    segmentSize os N T.size page = roundUp (page.bytes os) (640 + N * T.size) := by
  have hle := page.bytes_le os
  unfold segmentSize
  rw [(exact_alignToPageSize page h).eval_eq, alignToPageSize_eq]
  simp only [bufferSize, WordExpr.value, sizeofSpsc_eq]
  exact roundUp_eq_and (page.isPowerOfTwo_bytes os) (by omega)

end sizes

/-! ### Opening -/

section opening
variable {os : Os} {page : PageSize} {size : ℕ} {o : Bytes}

/-- `open_or_create` leaves an object alone that has the size asked for. -/
theorem openOrCreate_same (h : o.length = size) :
    (openOrCreate os size page (some o)).2 = some o := by
  subst h
  unfold openOrCreate
  cases page with
  | standard =>
      cases os.shmOpen with
      | some e => rfl
      | none =>
          cases os.fstat with
          | some e => rfl
          | none =>
              simp only [Option.getD_some, ne_eq, not_true, if_false]
              cases os.mmap <;> rfl
  | huge | gigantic =>
      cases os.openFile with
      | some e => rfl
      | none =>
          cases os.mmap with
          | error e => rfl
          | ok addr => exact congrArg some (mapped_self _ o)

/-- An object that it has created has this size. -/
theorem openOrCreate_created {addr : ℕ} (h : openOrCreate os size page none = (.ok addr, some o)) :
    o.length = size := by
  have ho := openOrCreate_ok h
  simp only [Option.getD_none, Option.some.injEq] at ho
  rw [ho]
  exact length_opened_nil page size

theorem length_resize {o' : Bytes} (h : resize os size o = some o') : o'.length = size := by
  unfold resize at h
  split_ifs at h with hs
  · cases ht : ftruncate os size with
    | some e => simp [ht] at h
    | none =>
        simp only [ht, Option.some.injEq] at h
        rw [← h]
        exact length_truncate o size
  · cases h
    exact not_not.mp hs

/-- `open_or_create_shmem` leaves an object alone that has the size asked for. -/
theorem openOrCreateShmem_same (h : o.length = size) :
    (openOrCreateShmem os size page (some o)).2 = some o := by
  subst h
  have hsame : resize os o.length o = some o := if_neg (not_not.mpr rfl)
  unfold openOrCreateShmem
  cases openError os page with
  | some e => rfl
  | none =>
      cases os.fstat with
      | some e => rfl
      | none =>
          simp only [Option.getD_some, hsame]
          cases os.mmap with
          | error e => rfl
          | ok addr => exact congrArg some (mapped_self page o)

/-- Where it succeeds, the object has the size asked for. -/
theorem openOrCreateShmem_ok {addr : ℕ} {object : Option Bytes}
    (h : openOrCreateShmem os size page object = (some addr, some o)) : o.length = size := by
  unfold openOrCreateShmem at h
  cases hopen : openError os page with
  | some e => simp [hopen] at h
  | none =>
      cases hstat : os.fstat with
      | some e => simp [hopen, hstat] at h
      | none =>
          simp only [hopen, hstat] at h
          cases hresize : resize os size (object.getD []) with
          | none => simp [hresize] at h
          | some o' =>
              have hlength := length_resize hresize
              cases hmap : os.mmap with
              | error e => simp [hresize, hmap] at h
              | ok a =>
                  simp only [hresize, hmap, Prod.mk.injEq, Option.some.injEq] at h
                  rw [← h.2, ← hlength, mapped_self]

/-- A constructor on a segment of the size that it computes, in Rust: nothing is resized. -/
theorem length_attempt_rust {α : Type} {T : ElementType} {N : ℕ}
    (join : ℕ → Proc Unit Bytes (Outcome α))
    (h : o.length = page.memSize os (T.channelSize N)) :
    ∃ o', (Segment.attempt os T N page join (some o)).2 = some o' ∧ o'.length = o.length := by
  have hsame : (openOrCreate os (page.memSize os (T.channelSize N)) page (some o)).2 = some o :=
    openOrCreate_same h
  unfold Segment.attempt
  simp only
  split_ifs
  · exact ⟨o, rfl, rfl⟩
  · cases hopen : openOrCreate os (page.memSize os (T.channelSize N)) page (some o) with
    | mk r object =>
        rw [hopen] at hsame
        cases hsame
        cases r with
        | error e => exact ⟨o, rfl, rfl⟩
        | ok addr => exact ⟨_, rfl, length_runBytes _ _ _ _ _⟩

/-- The same in C. -/
theorem length_attempt_c {L α : Type} {N sizeofT : ℕ} (join : ℕ → Proc L Bytes α) (l : L)
    (h : o.length = segmentSize os N sizeofT page) :
    ∃ o', (attempt os N sizeofT page join l (some o)).2 = some o' ∧ o'.length = o.length := by
  have hsame : (openOrCreateShmem os (segmentSize os N sizeofT page) page (some o)).2 = some o :=
    openOrCreateShmem_same h
  unfold attempt
  cases hopen : openOrCreateShmem os (segmentSize os N sizeofT page) page (some o) with
  | mk r object =>
      rw [hopen] at hsame
      cases hsame
      cases r with
      | none => exact ⟨o, rfl, rfl⟩
      | some addr => exact ⟨_, rfl, length_runBytes _ _ _ _ _⟩

end opening

/-! ### Agreement -/

/-- The two sides agree on a segment with `N` elements of type `T`. -/
structure SegmentsAgree (os : Os) (T : ElementType) (N : ℕ) (page : PageSize) : Prop where
  layout : offsets 0 (T.channelFields 8 N) = offsets 0 spscFields ++ [640, 640 + N * T.size]
  slots : ∀ i, T.bufferOffset + i * T.size = 640 + i * T.size ∧
    slotAddr T.size i = 640 + i * T.size ∧ getBufferPtr + i * T.size = 640 + i * T.size
  channelSize : structSize 128 (T.channelFields 8 N) = T.channelSize N
  size : page.memSize os (T.channelSize N) = segmentSize os N T.size page
  rust_exact : (uplignedSize (page.bytes os) (T.channelSize N)).Exact 64
  c_exact : (alignToPageSize os (bufferSize N T.size) (pageSizeT page)).Exact 64
  least : IsLeast {m | page.bytes os ∣ m ∧ 640 + N * T.size ≤ m}
    (page.memSize os (T.channelSize N))
  invalidSize : ∀ (e : Endpoint) object,
    (e.joinShmem os T N page object).1 = .err .invalidSize ↔
      2 ^ 63 - 1 < page.memSize os (T.channelSize N)
  -- a segment that one side has created keeps its size in every join of the other side
  rust_created : ∀ addr o,
    openOrCreate os (page.memSize os (T.channelSize N)) page none = (.ok addr, some o) →
      o.length = page.memSize os (T.channelSize N)
  c_joins : ∀ o, o.length = page.memSize os (T.channelSize N) →
    ∀ {L α : Type} (join : ℕ → Proc L Bytes α) l,
      ∃ o', (attempt os N T.size page join l (some o)).2 = some o' ∧ o'.length = o.length
  c_created : ∀ addr o,
    openOrCreateShmem os (segmentSize os N T.size page) page none = (some addr, some o) →
      o.length = segmentSize os N T.size page
  rust_joins : ∀ o, o.length = segmentSize os N T.size page →
    ∀ {α : Type} (join : ℕ → Proc Unit Bytes (Outcome α)),
      ∃ o', (Segment.attempt os T N page join (some o)).2 = some o' ∧ o'.length = o.length

/-- **One segment for both languages.**  On a 64-bit machine, for elements aligned to at most 128
bytes and as long as the padded size of the channel is an `i64`, both sides compute the same size
without an overflow: the least number of whole pages for the header and the ring.  They have
the header words and the slots at the same bytes, and neither resizes what the other has created. -/
theorem segments_agree {os : Os} (hu : os.usize = 8) {T : ElementType} (hT : T.align ≤ 128) {N : ℕ}
    (hlimit : roundUp 128 (640 + N * T.size) ≤ 2 ^ 63 - 1) (page : PageSize) :
    SegmentsAgree os T N page := by
  have hring : 640 + N * T.size < 2 ^ 63 := by
    have := le_roundUp (by decide : 0 < 128) (640 + N * T.size)
    omega
  have hchannel : T.channelSize N < 2 ^ 63 := by
    rw [channelSize_eq hT]
    omega
  have hrust : page.memSize os (T.channelSize N) =
      roundUp (page.bytes os) (640 + N * T.size) :=
    (memSize_eq_roundUp page hu hchannel).trans (roundUp_channelSize page hT)
  have hsize : page.memSize os (T.channelSize N) = segmentSize os N T.size page :=
    hrust.trans (segmentSize_eq_roundUp page hring).symm
  have hoffset : T.bufferOffset = 640 := bufferOffset_eq hT
  constructor
  case layout =>
    rw [T.offsets_channelFields (.inr rfl), spscFields_eq, (layout_headerFields (.inr rfl)).1,
      hoffset]
    rfl
  case slots =>
    intro i
    unfold slotAddr
    rw [hoffset, sizeofSpsc_eq]
    exact ⟨rfl, rfl, rfl⟩
  case channelSize => exact T.structSize_channelFields (.inr rfl) N
  case size => exact hsize
  case rust_exact => exact exact_uplignedSize page hchannel
  case c_exact => exact exact_alignToPageSize page hring
  case least =>
    rw [hrust]
    exact isLeast_roundUp (page.bytes_pos os) _
  case invalidSize =>
    intro e object
    rw [e.joinShmem_invalidSize_iff]
    omega
  case rust_created => exact fun addr o h => openOrCreate_created h
  case c_joins =>
    intro o h L α join l
    exact length_attempt_c join l (h.trans hsize)
  case c_created => exact fun addr o h => openOrCreateShmem_ok h
  case rust_joins =>
    intro o h α join
    exact length_attempt_rust join (h.trans hsize.symm)

/-- Eight words on a machine with pages of 4096 bytes have one page. -/
theorem segments_agree_page :
    SegmentsAgree linux u64 8 .standard ∧ segmentSize linux 8 8 .standard = 4096 :=
  ⟨segments_agree rfl (by decide) (by decide) .standard, by decide +kernel⟩

end Que.C
