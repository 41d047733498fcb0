import Que.Segment
import Que.Answers

/-! # The bytes of a segment as a channel

The endpoint code is transcribed over `Channel`, a structure with a field for each header word and
a function for the cells.  Here the same actions run on the bytes of an object, and `channelOf`
reads the channel off the bytes.

* **Cells.** `Cells` says where the cells start, how many bytes each has and how many there are; a
  cell is a slot of a lossless channel, or a word of a slot of a headless one.
* **Fitting actions.** `Act.Fits` is the rule for an action that runs on a segment: it accesses a
  header word or one of the cells, and stores what fits there.
* **Commutation.** A fitting action on the bytes is the same action on `channelOf` of the bytes
  (`step_channelOf`), so whole programs run alike (`run_channelOf`), and it changes no byte outside
  of the word or cell that it accesses (`Cells.step_outside`). -/

namespace Que

/-! ### Words and cells of a channel -/

namespace Channel
variable {V : Type}

theorem get_set (c : Channel V) (x y : Word) (v : ℕ) :
    (c.set x v).get y = if y = x then v else c.get y := by
  cases x <;> cases y <;> rfl

theorem buffer_set (c : Channel V) (x : Word) (v : ℕ) : (c.set x v).buffer = c.buffer := by
  cases x <;> rfl

theorem get_write (c : Channel V) (i : ℕ) (v : V) (x : Word) : (c.write i v).get x = c.get x := by
  cases x <;> rfl

theorem ext_get {a b : Channel V} (hw : ∀ x, a.get x = b.get x) (hb : a.buffer = b.buffer) :
    a = b := by
  cases a
  cases b
  simp only [mk.injEq]
  exact ⟨hw .tail, hw .head, hw .producerHeartbeat, hw .consumerHeartbeat, hw .capacity,
    hw .magic, hw .strong, hb⟩

end Channel

namespace Segment

open Lib

/-! ### Reading back what was written -/

section bytes
variable {o bs : Bytes} {off off' n i : ℕ}

theorem getElem?_readBytes (o : Bytes) (off n i : ℕ) :
    (readBytes o off n)[i]? = if i < n then o[off + i]? else none := by
  unfold readBytes
  rw [List.getElem?_take, List.getElem?_drop]

theorem getElem?_writeBytes (o : Bytes) (off : ℕ) (bs : Bytes) (i : ℕ) :
    (writeBytes o off bs)[i]? =
      if i < o.length ∧ off ≤ i ∧ i < off + bs.length then bs[i - off]? else o[i]? := by
  unfold writeBytes
  rw [List.getElem?_mapIdx]
  rcases Nat.lt_or_ge i o.length with hi | hi
  · rw [List.getElem?_eq_getElem hi, Option.map_some]
    split_ifs with h1 h2 h3
    · rw [List.getD_eq_getElem _ _ (by omega), List.getElem?_eq_getElem (by omega)]
    · rw [List.getD_eq_default _ _ (by omega)]
    · omega
    · rfl
  · rw [List.getElem?_eq_none hi, if_neg (by omega)]
    rfl

theorem length_readBytes (h : off + n ≤ o.length) : (readBytes o off n).length = n := by
  unfold readBytes
  rw [List.length_take, List.length_drop]
  omega

/-- What was written is read back. -/
theorem readBytes_writeBytes_self (h : off + bs.length ≤ o.length) :
    readBytes (writeBytes o off bs) off bs.length = bs := by
  apply List.ext_getElem?
  intro i
  rw [getElem?_readBytes, getElem?_writeBytes]
  rcases Nat.lt_or_ge i bs.length with hi | hi
  · rw [if_pos hi, if_pos (by omega), Nat.add_sub_cancel_left]
  · rw [if_neg (by omega), List.getElem?_eq_none hi]

/-- A write elsewhere does not change what is read. -/
theorem readBytes_writeBytes_of_disjoint (h : off + n ≤ off' ∨ off' + bs.length ≤ off) :
    readBytes (writeBytes o off' bs) off n = readBytes o off n := by
  apply List.ext_getElem?
  intro i
  rw [getElem?_readBytes, getElem?_readBytes, getElem?_writeBytes]
  split_ifs
  · omega
  · rfl
  · rfl

end bytes

/-! ### Little-endian words -/

theorem fromBytes_cons (b : UInt8) (bs : Bytes) :
    fromBytes (b :: bs) = b.toNat + 256 * fromBytes bs := rfl

theorem fromBytes_lt (bs : Bytes) : fromBytes bs < 256 ^ bs.length := by
  induction bs with
  | nil => exact Nat.one_pos
  | cons b bs ih =>
      have hb : b.toNat < 256 := b.toNat_lt
      rw [fromBytes_cons, List.length_cons, Nat.pow_succ]
      omega

@[simp] theorem length_toBytes (n v : ℕ) : (toBytes n v).length = n := by
  simp [toBytes]

theorem toBytes_succ (n v : ℕ) : toBytes (n + 1) v = UInt8.ofNat v :: toBytes n (v / 256) := by
  unfold toBytes
  rw [List.range_succ_eq_map, List.map_cons, List.map_map, Nat.pow_zero, Nat.div_one]
  congr 2
  funext i
  simp only [Function.comp_apply]
  rw [Nat.div_div_eq_div_mul, ← Nat.pow_succ']

/-- The lowest `n` bytes of a word are the word modulo `256 ^ n`. -/
theorem fromBytes_toBytes (n v : ℕ) : fromBytes (toBytes n v) = v % 256 ^ n := by
  induction n generalizing v with
  | zero => exact (Nat.mod_one v).symm
  | succ n ih =>
      rw [toBytes_succ, fromBytes_cons, ih, Nat.pow_succ', Nat.mod_mul]
      congr 1

/-! ### Header words -/

theorem offset_some {x : Word} (hx : x ≠ .strong) : ∃ off, offset x = some off := by
  cases x with
  | strong => exact absurd rfl hx
  | _ => exact ⟨_, rfl⟩

/-- Header words end before the ring and leave the padding alone. -/
theorem offset_bounds {u off : ℕ} (hu : u ≤ 8) {x : Word} (h : offset x = some off) :
    off + width u x ≤ 640 ∧ (off + width u x ≤ 512 ∨ 624 ≤ off) := by
  cases x <;> cases h <;> simp only [width] <;> omega

theorem offset_disjoint {u off off' : ℕ} (hu : u ≤ 8) {x y : Word} (hxy : x ≠ y)
    (hx : offset x = some off) (hy : offset y = some off') :
    off + width u x ≤ off' ∨ off' + width u y ≤ off := by
  cases x <;> cases hx <;> cases y <;> cases hy <;> simp only [width] <;>
    first | exact absurd rfl hxy | omega

/-- The number of values of a word. -/
def range (u : ℕ) (x : Word) : ℕ := 2 ^ (8 * width u x)

theorem pow_256 (n : ℕ) : 256 ^ n = 2 ^ (8 * n) := (Nat.pow_mul 2 8 n).symm

theorem getWord_lt {u : ℕ} (o : Bytes) (x : Word) : getWord u o x < range u x := by
  unfold getWord range
  split
  · rw [← pow_256]
    refine (fromBytes_lt _).trans_le (Nat.pow_le_pow_right (by decide) ?_)
    unfold readBytes
    rw [List.length_take]
    exact min_le_left _ _
  · exact Nat.two_pow_pos _

section words
variable {u : ℕ} {o : Bytes} {x y : Word} {v : ℕ}

/-- A word that was stored is loaded again. -/
theorem getWord_setWord_self (hu : u ≤ 8) (hx : x ≠ .strong) (ho : 640 ≤ o.length)
    (hv : v < range u x) : getWord u (setWord u o x v) x = v := by
  obtain ⟨off, hoff⟩ := offset_some hx
  have hend := (offset_bounds hu hoff).1
  have hfit : off + (toBytes (width u x) v).length ≤ o.length := by
    rw [length_toBytes]
    omega
  have hread := readBytes_writeBytes_self hfit
  rw [length_toBytes] at hread
  simp only [getWord, setWord, hoff]
  rw [hread, fromBytes_toBytes, pow_256]
  exact Nat.mod_eq_of_lt hv

theorem getWord_setWord_of_ne (hu : u ≤ 8) (h : y ≠ x) (o : Bytes) (v : ℕ) :
    getWord u (setWord u o x v) y = getWord u o y := by
  cases hx : offset x with
  | none => simp only [setWord, hx]
  | some off =>
      cases hy : offset y with
      | none => simp only [getWord, hy]
      | some off' =>
          simp only [getWord, setWord, hx, hy]
          rw [readBytes_writeBytes_of_disjoint]
          rw [length_toBytes]
          exact offset_disjoint hu h hy hx

end words

/-! ### Cells -/

/-- Where the cells start, how many bytes each has, and how many there are. -/
structure Cells where
  base : ℕ
  size : ℕ
  count : ℕ
  le_base : 640 ≤ base

namespace Cells
variable (M : Cells) (u : ℕ)

/-- Where a cell starts. -/
def start (i : ℕ) : ℕ := M.base + i * M.size

/-- Where the last cell ends. -/
def stop : ℕ := M.base + M.count * M.size

theorem start_add_le {i : ℕ} (hi : i < M.count) : M.start i + M.size ≤ M.stop := by
  have h : (i + 1) * M.size ≤ M.count * M.size := Nat.mul_le_mul_right _ hi
  rw [Nat.add_mul, Nat.one_mul] at h
  unfold start stop
  omega

theorem start_disjoint {i j : ℕ} (h : i ≠ j) :
    M.start i + M.size ≤ M.start j ∨ M.start j + M.size ≤ M.start i := by
  unfold start
  rcases Nat.lt_or_gt_of_ne h with hlt | hlt
  · have h1 : (i + 1) * M.size ≤ j * M.size := Nat.mul_le_mul_right _ hlt
    rw [Nat.add_mul, Nat.one_mul] at h1
    omega
  · have h1 : (j + 1) * M.size ≤ i * M.size := Nat.mul_le_mul_right _ hlt
    rw [Nat.add_mul, Nat.one_mul] at h1
    omega

/-- The effect of an action on the bytes of an object and on the endpoint's own structure. -/
def step {L : Type} : (a : Act L Bytes) → Bytes × L → a.Ans × (Bytes × L)
  | .load x, s => (getWord u s.1 x, s)
  | .store x v, s => ((), (setWord u s.1 x v, s.2))
  | .fetchAdd x v, s =>
      (getWord u s.1 x, (setWord u s.1 x (wadd (8 * width u x) (getWord u s.1 x) v), s.2))
  | .read i, s => (readBytes s.1 (M.start i) M.size, s)
  | .assign i v, s => ((), (writeBytes s.1 (M.start i) v, s.2))
  | .copy i v, s => ((), (writeBytes s.1 (M.start i) v, s.2))
  | .self, s => (s.2, s)
  | .update f, s => ((), (s.1, f s.2))
  | .dropArc, s => ((), s)

end Cells

/-- The cells of a lossless channel are its slots. -/
def ElementType.slots (T : ElementType) (N : ℕ) : Cells where
  base := T.bufferOffset
  size := T.size
  count := N
  le_base := le_roundUp (pos_of_isPowerOfTwo T.align_pow) 640

theorem ElementType.slots_step (T : ElementType) (N u : ℕ) {L : Type} (a : Act L Bytes)
    (s : Bytes × L) : (T.slots N).step u a s = stepBytes u T a s := by
  cases a <;> rfl

theorem ElementType.runBytes_slots (T : ElementType) (N : ℕ) {u : ℕ} {L α : Type}
    (c : Proc L Bytes α) (o : Bytes) (l : L) :
    runBytes u T c o l = Prog.exec ((T.slots N).step u) c (o, l) := by
  unfold runBytes
  congr 1

/-! ### Fitting actions -/

/-- The action accesses a header word of the segment or one of the cells, and what it stores has
the right size. -/
def Fits {L : Type} (u : ℕ) (M : Cells) : Act L Bytes → Prop
  | .load x => x ≠ .strong
  | .store x v => x ≠ .strong ∧ v < range u x
  | .fetchAdd x _ => x ≠ .strong ∧ x ≠ .magic
  | .read i => i < M.count
  | .assign i v => i < M.count ∧ v.length = M.size
  | .copy i v => i < M.count ∧ v.length = M.size
  | .self => True
  | .update _ => True
  | .dropArc => False

/-- The bytes that an action accesses: where they start and how many they are. -/
def accessedBytes {L : Type} (u : ℕ) (M : Cells) : Act L Bytes → Option (ℕ × ℕ)
  | .load x => (offset x).map fun off => (off, width u x)
  | .store x _ => (offset x).map fun off => (off, width u x)
  | .fetchAdd x _ => (offset x).map fun off => (off, width u x)
  | .read i => some (M.start i, M.size)
  | .assign i v => some (M.start i, v.length)
  | .copy i v => some (M.start i, v.length)
  | _ => none

section fits
variable {L : Type} {u : ℕ} {M : Cells} {a : Act L Bytes} {o : Bytes} {l : L}

/-- A fitting action stays inside the segment, and away from the padding. -/
theorem Fits.accessedBytes (hu : u ≤ 8) (h : Fits u M a) {off n : ℕ}
    (ha : accessedBytes u M a = some (off, n)) :
    off + n ≤ M.stop ∧ (off + n ≤ 512 ∨ 624 ≤ off) := by
  have hbase := M.le_base
  have hstop : M.base ≤ M.stop := Nat.le_add_right _ _
  have word : ∀ x : Word, (offset x).map (fun off => (off, width u x)) = some (off, n) →
      off + n ≤ M.stop ∧ (off + n ≤ 512 ∨ 624 ≤ off) := by
    intro x hx
    obtain ⟨off', hoff, e⟩ := Option.map_eq_some_iff.mp hx
    cases e
    have := offset_bounds hu hoff
    omega
  have cell : ∀ i, i < M.count → M.start i + M.size ≤ M.stop ∧
      (M.start i + M.size ≤ 512 ∨ 624 ≤ M.start i) := by
    intro i hi
    have h1 := M.start_add_le hi
    have h2 : M.base ≤ M.start i := Nat.le_add_right _ _
    omega
  cases a with
  | load x => exact word x ha
  | store x v => exact word x ha
  | fetchAdd x v => exact word x ha
  | read i =>
      cases ha
      exact cell i h
  | assign i v =>
      cases ha
      rw [h.2]
      exact cell i h.1
  | copy i v =>
      cases ha
      rw [h.2]
      exact cell i h.1
  | self => cases ha
  | update f => cases ha
  | dropArc => cases ha

/-- An action changes no byte that it does not access. -/
theorem Cells.step_outside {p k : ℕ}
    (h : ∀ off n, Segment.accessedBytes u M a = some (off, n) → p + k ≤ off ∨ off + n ≤ p) :
    readBytes (M.step u a (o, l)).2.1 p k = readBytes o p k := by
  have word : ∀ (x : Word) (v : ℕ), (∀ off n, (offset x).map (fun off => (off, width u x)) =
      some (off, n) → p + k ≤ off ∨ off + n ≤ p) →
      readBytes (setWord u o x v) p k = readBytes o p k := by
    intro x v hx
    unfold setWord
    cases hoff : offset x with
    | none => rfl
    | some off =>
        apply readBytes_writeBytes_of_disjoint
        rw [length_toBytes]
        exact hx off _ (by rw [hoff]; rfl)
  cases a with
  | store x v => exact word x _ h
  | fetchAdd x v => exact word x _ h
  | assign i v => exact readBytes_writeBytes_of_disjoint (h _ _ rfl)
  | copy i v => exact readBytes_writeBytes_of_disjoint (h _ _ rfl)
  | _ => rfl

end fits

/-! ### The channel that the bytes stand for -/

/-- The channel in an object.  There is no strong count in shared memory. -/
def channelOf (u : ℕ) (M : Cells) (o : Bytes) : Channel Bytes where
  tail := getWord u o .tail
  head := getWord u o .head
  producerHeartbeat := getWord u o .producerHeartbeat
  consumerHeartbeat := getWord u o .consumerHeartbeat
  capacity := getWord u o .capacity
  magic := getWord u o .magic
  strong := 0
  buffer := fun i => readBytes o (M.start i) M.size

section channelOf
variable {L : Type} {u : ℕ} {M : Cells} {o : Bytes}

theorem get_channelOf (x : Word) : (channelOf u M o).get x = getWord u o x := by
  cases x <;> rfl

theorem channelOf_setWord (hu : u ≤ 8) {x : Word} (hx : x ≠ .strong) (ho : 640 ≤ o.length) {v : ℕ}
    (hv : v < range u x) : channelOf u M (setWord u o x v) = (channelOf u M o).set x v := by
  apply Channel.ext_get
  · intro y
    rw [get_channelOf, Channel.get_set]
    split_ifs with h
    · subst h
      exact getWord_setWord_self hu hx ho hv
    · rw [get_channelOf]
      exact getWord_setWord_of_ne hu h o v
  · rw [Channel.buffer_set]
    funext i
    obtain ⟨off, hoff⟩ := offset_some hx
    simp only [channelOf, setWord, hoff]
    apply readBytes_writeBytes_of_disjoint
    have h1 := (offset_bounds hu hoff).1
    have h2 : M.base ≤ M.start i := Nat.le_add_right _ _
    have h3 := M.le_base
    rw [length_toBytes]
    omega

theorem channelOf_write (hu : u ≤ 8) {i : ℕ} {v : Bytes} (hi : i < M.count)
    (hv : v.length = M.size) (ho : M.stop ≤ o.length) :
    channelOf u M (writeBytes o (M.start i) v) = (channelOf u M o).write i v := by
  have hstart : M.base ≤ M.start i := Nat.le_add_right _ _
  have hbase := M.le_base
  apply Channel.ext_get
  · intro y
    rw [get_channelOf, Channel.get_write, get_channelOf]
    unfold getWord
    cases hoff : offset y with
    | none => rfl
    | some off =>
        have h1 := (offset_bounds hu hoff).1
        simp only
        rw [readBytes_writeBytes_of_disjoint (by omega)]
  · funext j
    simp only [channelOf, Channel.write]
    by_cases hj : j = i
    · subst hj
      have hend := M.start_add_le hi
      rw [Function.update_self, ← hv]
      exact readBytes_writeBytes_self (by omega)
    · rw [Function.update_of_ne hj]
      apply readBytes_writeBytes_of_disjoint
      rw [hv]
      exact M.start_disjoint hj

/-- A fitting action on the bytes is the same action on the channel. -/
theorem step_channelOf (hu : u ≤ 8) (ho : M.stop ≤ o.length) {a : Act L Bytes} (h : Fits u M a)
    (l : L) : a.step (8 * u) (channelOf u M o, l) =
      ((M.step u a (o, l)).1, channelOf u M (M.step u a (o, l)).2.1, (M.step u a (o, l)).2.2) := by
  have hheader : 640 ≤ o.length := by
    have h1 := M.le_base
    have h2 : M.base ≤ M.stop := Nat.le_add_right _ _
    omega
  cases a with
  | load x =>
      simp only [Act.step, Cells.step, get_channelOf]
  | store x v =>
      simp only [Act.step, Cells.step, channelOf_setWord hu h.1 hheader h.2]
  | fetchAdd x v =>
      have hw : range u x = 2 ^ (8 * u) ∧ 8 * width u x = 8 * u := by
        cases x with
        | magic => exact absurd rfl h.2
        | _ => exact ⟨rfl, rfl⟩
      have hlt : wadd (8 * width u x) (getWord u o x) v < range u x := by
        rw [hw.1, hw.2]
        exact wadd_lt _ _ _
      simp only [Act.step, Cells.step, channelOf_setWord hu h.1 hheader hlt, get_channelOf]
      rw [hw.2]
  | read i => rfl
  | assign i v =>
      simp only [Act.step, Cells.step, channelOf_write hu h.1 h.2 ho]
  | copy i v =>
      simp only [Act.step, Cells.step, channelOf_write hu h.1 h.2 ho]
  | self => rfl
  | update f => rfl
  | dropArc => exact absurd h id

end channelOf

/-! ### Programs on the bytes -/

/-- A load is answered by a word. -/
abbrev answers (u : ℕ) {L V : Type} : Private (Act L V) Act.Ans L :=
  owning fun x _ n => n < range u x

section programs
variable {L α : Type} {u : ℕ} {M : Cells} {o : Bytes} {l : L}

theorem respects_step (u : ℕ) (M : Cells) :
    Respects (answers u) (fun _ => True) (M.step u (L := L)) := by
  intro a o l _
  cases a with
  | load x => exact ⟨getWord_lt o x, rfl⟩
  | self => exact ⟨rfl, rfl⟩
  | _ => exact ⟨trivial, rfl⟩

theorem Cells.length_step (a : Act L Bytes) (s : Bytes × L) :
    (M.step u a s).2.1.length = s.1.length := by
  cases a with
  | store x v => exact length_setWord _ _ _ _
  | fetchAdd x v => exact length_setWord _ _ _ _
  | assign i v => exact length_writeBytes _ _ _
  | copy i v => exact length_writeBytes _ _ _
  | _ => rfl

/-- A program whose actions fit runs alike on the bytes and on the channel. -/
theorem run_channelOf (hu : u ≤ 8) {c : Proc L Bytes α} {Q : α → L → Prop}
    (h : Obeys (answers u) (Fits u M) c Q l) (ho : M.stop ≤ o.length) :
    let r := Prog.exec (M.step u) c (o, l)
    c.run (8 * u) (channelOf u M o) l = (r.1, channelOf u M r.2.1, r.2.2) ∧
      Q r.1 r.2.2 ∧ r.2.1.length = o.length := by
  induction c generalizing o l with
  | ret x => exact ⟨rfl, h, rfl⟩
  | act a k ih =>
      have hlen : (M.step u a (o, l)).2.1.length = o.length := M.length_step a (o, l)
      obtain ⟨h1, h2, h3⟩ := ih _ (Obeys.own (respects_step u M) h (s := o) trivial)
        (by rw [hlen]; exact ho)
      rw [Proc.run_act, step_channelOf hu ho h.1]
      exact ⟨h1, h2, h3.trans hlen⟩

end programs

end Segment

end Que
