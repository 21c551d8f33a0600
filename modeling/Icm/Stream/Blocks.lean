import Icm.Lib.ByteMemory

/-!
# Data blocks, message blocks and buffer growth

The buffers under the CDR streams (`icc/MessageBlock.cpp`, and the sizing and growing functions of
class `ACE_CDR` in `icm/IcmStream.cpp`).
-/

namespace Icm.Stream

open Icm.Lib

inductive ByteOrder
  | big
  | little
  deriving DecidableEq, Repr

namespace ByteOrder

def aceCdrByteOrder : ByteOrder → Bool
  | big => false
  | little => true

def image : ByteOrder → ℕ → ℕ → List UInt8
  | big, w, x => (leBytes w x).reverse
  | little, w, x => leBytes w x

def value : ByteOrder → List UInt8 → ℕ
  | big, bs => leValue bs.reverse
  | little, bs => leValue bs

variable (host : ByteOrder)

@[simp] theorem length_image (w x : ℕ) : (host.image w x).length = w := by
  cases host <;> simp [image]

theorem value_image (w x : ℕ) : host.value (host.image w x) = x % 256 ^ w := by
  cases host <;> simp [image, value, leValue_leBytes]

theorem image_value (bs : List UInt8) :
    host.image bs.length (host.value bs) = bs := by
  cases host with
  | big => rw [image, value, ← List.length_reverse, leBytes_leValue, List.reverse_reverse]
  | little => exact leBytes_leValue bs

theorem value_lt (bs : List UInt8) : host.value bs < 256 ^ bs.length := by
  cases host with
  | big => simpa [value] using leValue_lt bs.reverse
  | little => exact leValue_lt bs

end ByteOrder

variable (swap : Bool) (bs : List UInt8)

def swapCopy : List UInt8 :=
  if swap then bs.reverse else bs

@[simp] theorem length_swapCopy :
    (swapCopy swap bs).length = bs.length := by
  cases swap <;> simp [swapCopy]

@[simp] theorem swapCopy_swapCopy :
    swapCopy swap (swapCopy swap bs) = bs := by
  cases swap <;> simp [swapCopy]

theorem swapCopy_image (host : ByteOrder) (w x : ℕ) :
    swapCopy host.aceCdrByteOrder (host.image w x) = (leBytes w x).reverse := by
  cases host <;> rfl

def maxAlignment : ℕ := 8

def alignBinary (ptr alignment : ℕ) : ℕ :=
  let tmp := alignment - 1
  (ptr + tmp) - (ptr + tmp) % alignment

theorem alignBinary_of_dvd {ptr : ℕ} (h : maxAlignment ∣ ptr) :
    alignBinary ptr maxAlignment = ptr := by
  obtain ⟨k, rfl⟩ := h
  simp only [alignBinary, maxAlignment]
  omega

/-- What the allocator returns for `new char[n]`: an address, aligned for every fundamental type,
and the bytes that stand there. -/
structure Chunk where
  addr : ℕ
  junk : Mem
  aligned : maxAlignment ∣ addr

structure DataBlock where
  base : ℕ
  curSize : ℕ
  maxSize : ℕ
  mem : Mem
  aligned : maxAlignment ∣ base
  cur_le : curSize ≤ maxSize

namespace DataBlock

def alloc (c : Chunk) (size : ℕ) : DataBlock where
  base := c.addr
  curSize := size
  maxSize := size
  mem := c.junk
  aligned := c.aligned
  cur_le := le_rfl

variable (db : DataBlock) (c : Chunk)

def resize (length : ℕ) : DataBlock :=
  if h : length ≤ db.maxSize then
    { db with curSize := length, cur_le := h }
  else
    { alloc c length with mem := c.junk.splice 0 (db.mem.slice 0 db.curSize) }

def cloneNoCopy : DataBlock :=
  alloc c db.maxSize

@[simp] theorem resize_curSize (length : ℕ) :
    (db.resize c length).curSize = length := by
  unfold resize
  split_ifs <;> rfl

theorem le_resize_maxSize (length : ℕ) :
    length ≤ (db.resize c length).maxSize := by
  simpa using (db.resize c length).cur_le

end DataBlock

structure MessageBlock where
  rdPtr : ℕ
  wrPtr : ℕ
  dataBlock : DataBlock

namespace MessageBlock

def ofDataBlock (db : DataBlock) : MessageBlock :=
  ⟨0, 0, db⟩

def alloc (c : Chunk) (size : ℕ) : MessageBlock :=
  ofDataBlock (.alloc c size)

variable (mb : MessageBlock)

def length : ℕ := mb.wrPtr - mb.rdPtr

def size : ℕ := mb.dataBlock.curSize

def endPtr : ℕ := mb.dataBlock.maxSize

def bytesAt (i n : ℕ) : List UInt8 := mb.dataBlock.mem.slice i n

def contents : List UInt8 := mb.bytesAt mb.rdPtr mb.length

def poke (i : ℕ) (bs : List UInt8) : MessageBlock :=
  { mb with dataBlock := { mb.dataBlock with mem := mb.dataBlock.mem.splice i bs } }

def append (bs : List UInt8) : MessageBlock :=
  { mb.poke mb.wrPtr bs with wrPtr := mb.wrPtr + bs.length }

def copy (bs : List UInt8) : MessageBlock :=
  if mb.endPtr - mb.wrPtr < bs.length then mb else mb.append bs

def mbAlign : MessageBlock :=
  let start := alignBinary mb.dataBlock.base maxAlignment - mb.dataBlock.base
  { mb with rdPtr := start, wrPtr := start }

@[simp] theorem length_contents : mb.contents.length = mb.length := by
  simp [contents, bytesAt]

@[simp] theorem length_bytesAt (i n : ℕ) : (mb.bytesAt i n).length = n := by
  simp [bytesAt]

@[simp] theorem bytesAt_zero (i : ℕ) : mb.bytesAt i 0 = [] := rfl

theorem bytesAt_add (i a b : ℕ) :
    mb.bytesAt i (a + b) = mb.bytesAt i a ++ mb.bytesAt (i + a) b :=
  Mem.slice_add _ i a b

@[simp] theorem poke_rdPtr (i : ℕ) (bs : List UInt8) :
    (mb.poke i bs).rdPtr = mb.rdPtr := rfl

@[simp] theorem poke_wrPtr (i : ℕ) (bs : List UInt8) :
    (mb.poke i bs).wrPtr = mb.wrPtr := rfl

@[simp] theorem poke_endPtr (i : ℕ) (bs : List UInt8) :
    (mb.poke i bs).endPtr = mb.endPtr := rfl

@[simp] theorem poke_size (i : ℕ) (bs : List UInt8) :
    (mb.poke i bs).size = mb.size := rfl

theorem bytesAt_poke_self (i : ℕ) (bs : List UInt8) {n : ℕ}
    (h : bs.length = n) : (mb.poke i bs).bytesAt i n = bs :=
  Mem.slice_splice_self_of_length _ i h

theorem bytesAt_poke_of_le {i n k : ℕ} (bs : List UInt8) (h : i + n ≤ k) :
    (mb.poke k bs).bytesAt i n = mb.bytesAt i n :=
  Mem.slice_splice_of_le _ bs h

theorem mbAlign_eq : mb.mbAlign = ⟨0, 0, mb.dataBlock⟩ := by
  simp only [mbAlign, alignBinary_of_dvd mb.dataBlock.aligned, Nat.sub_self]

@[simp] theorem mbAlign_rdPtr : mb.mbAlign.rdPtr = 0 := by
  rw [mbAlign_eq]

@[simp] theorem mbAlign_wrPtr : mb.mbAlign.wrPtr = 0 := by
  rw [mbAlign_eq]

@[simp] theorem mbAlign_dataBlock : mb.mbAlign.dataBlock = mb.dataBlock := rfl

@[simp] theorem append_rdPtr (bs : List UInt8) :
    (mb.append bs).rdPtr = mb.rdPtr := rfl

@[simp] theorem append_wrPtr (bs : List UInt8) :
    (mb.append bs).wrPtr = mb.wrPtr + bs.length := rfl

@[simp] theorem append_endPtr (bs : List UInt8) :
    (mb.append bs).endPtr = mb.endPtr := rfl

@[simp] theorem append_size (bs : List UInt8) :
    (mb.append bs).size = mb.size := rfl

theorem contents_append {mb : MessageBlock} (h : mb.rdPtr ≤ mb.wrPtr) (bs : List UInt8) :
    (mb.append bs).contents = mb.contents ++ bs := by
  have hlen : (mb.append bs).length = mb.length + bs.length := by
    simp only [length, append_wrPtr, append_rdPtr]
    omega
  have hend : mb.rdPtr + mb.length = mb.wrPtr := by
    simp only [length]
    omega
  have hold := bytesAt_poke_of_le mb bs hend.le
  have hnew := bytesAt_poke_self mb mb.wrPtr bs rfl
  rw [contents, hlen, bytesAt_add, append_rdPtr, hend]
  exact congrArg₂ (· ++ ·) hold hnew

theorem copy_eq {mb : MessageBlock} {bs : List UInt8} (h : mb.wrPtr + bs.length ≤ mb.endPtr) :
    mb.copy bs = mb.append bs := by
  have : ¬ mb.endPtr - mb.wrPtr < bs.length := by omega
  simp only [copy, this, ↓reduceIte]

end MessageBlock

def defaultBufsize : ℕ := 512

def expGrowthMax : ℕ := 65536

def linearGrowthChunk : ℕ := 65536

def growSize (newsize : ℕ) : ℕ :=
  if newsize < expGrowthMax then newsize * 2 else newsize + linearGrowthChunk

def firstSizeLoop (minsize : ℕ) : ℕ → ℕ → ℕ
  | 0, newsize => newsize
  | rounds + 1, newsize =>
    if newsize < minsize then firstSizeLoop minsize rounds (growSize newsize) else newsize

def firstSize (minsize : ℕ) : ℕ :=
  if minsize = 0 then defaultBufsize else firstSizeLoop minsize minsize defaultBufsize

def nextSize (minsize : ℕ) : ℕ :=
  let newsize := firstSize minsize
  if newsize = minsize then growSize newsize else newsize

theorem lt_growSize {n : ℕ} (h : 0 < n) : n < growSize n := by
  unfold growSize linearGrowthChunk
  split_ifs <;> omega

variable (minsize rounds newsize : ℕ)

theorem le_firstSizeLoop (hpos : 0 < newsize)
    (h : minsize ≤ newsize + rounds) : minsize ≤ firstSizeLoop minsize rounds newsize := by
  induction rounds generalizing newsize with
  | zero => simpa [firstSizeLoop] using h
  | succ rounds ih =>
    have hgrow := lt_growSize hpos
    unfold firstSizeLoop
    split_ifs with hlt
    · exact ih _ (by omega) (by omega)
    · omega

theorem le_firstSizeLoop_start (hpos : 0 < newsize) :
    newsize ≤ firstSizeLoop minsize rounds newsize := by
  induction rounds generalizing newsize with
  | zero => rfl
  | succ rounds ih =>
    have hgrow := lt_growSize hpos
    unfold firstSizeLoop
    split_ifs
    · exact hgrow.le.trans (ih _ (by omega))
    · rfl

theorem firstSizeLoop_le_two_mul :
    firstSizeLoop minsize rounds newsize ≤ max newsize (2 * minsize) := by
  induction rounds generalizing newsize with
  | zero => exact le_max_left _ _
  | succ rounds ih =>
    unfold firstSizeLoop
    split_ifs with hlt
    · have hgrow : growSize newsize ≤ 2 * newsize := by
        unfold growSize expGrowthMax linearGrowthChunk
        split_ifs <;> omega
      have hle := ih (growSize newsize)
      omega
    · exact le_max_left _ _

theorem firstSize_le_two_mul (minsize : ℕ) :
    firstSize minsize ≤ max defaultBufsize (2 * minsize) := by
  unfold firstSize
  split_ifs
  · exact le_max_left _ _
  · exact firstSizeLoop_le_two_mul minsize minsize defaultBufsize

theorem le_firstSize (minsize : ℕ) : minsize ≤ firstSize minsize := by
  unfold firstSize
  split_ifs with h
  · omega
  · exact le_firstSizeLoop _ _ _ (by decide) (by omega)

theorem defaultBufsize_le_firstSize (minsize : ℕ) : defaultBufsize ≤ firstSize minsize := by
  unfold firstSize
  split_ifs
  · rfl
  · exact le_firstSizeLoop_start _ _ _ (by decide)

theorem lt_nextSize (minsize : ℕ) : minsize < nextSize minsize := by
  have hle := le_firstSize minsize
  have hpos := defaultBufsize_le_firstSize minsize
  unfold nextSize
  dsimp only
  split_ifs with h
  · rw [h] at hpos ⊢
    exact lt_growSize (lt_of_lt_of_le (by decide) hpos)
  · omega

def ScheduleSize (n : ℕ) : Prop :=
  (∃ k ≤ 7, n = defaultBufsize * 2 ^ k) ∨ ∃ k, n = linearGrowthChunk * (k + 1)

theorem scheduleSize_growSize {n : ℕ} (h : ScheduleSize n) : ScheduleSize (growSize n) := by
  unfold growSize
  split_ifs with hlt
  · rcases h with ⟨k, hk, rfl⟩ | ⟨k, rfl⟩
    · refine Or.inl ⟨k + 1, ?_, by rw [pow_succ]; ring⟩
      by_contra hk'
      obtain rfl : k = 7 := by omega
      exact absurd hlt (by decide)
    · simp only [linearGrowthChunk, expGrowthMax] at hlt
      omega
  · rcases h with ⟨k, hk, rfl⟩ | ⟨k, rfl⟩
    · have hk7 : k = 7 := by
        by_contra hne
        refine hlt ?_
        calc defaultBufsize * 2 ^ k ≤ defaultBufsize * 2 ^ 6 := by
              gcongr
              · norm_num
              · omega
          _ < expGrowthMax := by decide
      subst hk7
      exact Or.inr ⟨1, by decide⟩
    · exact Or.inr ⟨k + 1, by ring⟩

theorem scheduleSize_firstSizeLoop (minsize rounds : ℕ) {newsize : ℕ}
    (h : ScheduleSize newsize) : ScheduleSize (firstSizeLoop minsize rounds newsize) := by
  induction rounds generalizing newsize with
  | zero => exact h
  | succ rounds ih =>
    unfold firstSizeLoop
    split_ifs
    · exact ih (scheduleSize_growSize h)
    · exact h

theorem scheduleSize_defaultBufsize : ScheduleSize defaultBufsize := Or.inl ⟨0, by decide, rfl⟩

theorem scheduleSize_firstSize (minsize : ℕ) : ScheduleSize (firstSize minsize) := by
  unfold firstSize
  split_ifs
  · exact scheduleSize_defaultBufsize
  · exact scheduleSize_firstSizeLoop _ _ scheduleSize_defaultBufsize

theorem scheduleSize_nextSize (minsize : ℕ) : ScheduleSize (nextSize minsize) := by
  unfold nextSize
  dsimp only
  split_ifs
  · exact scheduleSize_growSize (scheduleSize_firstSize minsize)
  · exact scheduleSize_firstSize minsize

theorem growSize_le_of_lt {n k : ℕ} (hn : ScheduleSize n) (hk : ScheduleSize k) (h : n < k) :
    growSize n ≤ k := by
  have hgrow : growSize n ≤ n * 2 ∧ n < 65536 ∨ growSize n = n + 65536 ∧ 65536 ≤ n := by
    unfold growSize expGrowthMax linearGrowthChunk
    split_ifs <;> omega
  rcases hn with ⟨i, hi, rfl⟩ | ⟨i, rfl⟩
  · have hi67 : 2 ^ i ≤ 2 ^ 6 ∨ i = 7 :=
      hi.lt_or_eq.imp_left fun hlt => Nat.pow_le_pow_right Nat.two_pos (Nat.le_of_lt_succ hlt)
    rcases hk with ⟨j, hj, rfl⟩ | ⟨j, rfl⟩
    · have hij : i < j := by
        by_contra hji
        exact h.not_ge (Nat.mul_le_mul_left _ (Nat.pow_le_pow_right Nat.two_pos (not_lt.mp hji)))
      have hpow : 2 ^ (i + 1) ≤ 2 ^ j := Nat.pow_le_pow_right Nat.two_pos hij
      simp only [defaultBufsize] at h hgrow ⊢
      omega
    · simp only [defaultBufsize, linearGrowthChunk] at h hgrow ⊢
      rcases hi67 with hi6 | rfl <;> omega
  · rcases hk with ⟨j, hj, rfl⟩ | ⟨j, rfl⟩
    · have hj7 : 2 ^ j ≤ 2 ^ 7 := Nat.pow_le_pow_right Nat.two_pos hj
      simp only [defaultBufsize, linearGrowthChunk] at h ⊢
      omega
    · simp only [linearGrowthChunk] at h hgrow ⊢
      omega

theorem firstSizeLoop_le {minsize k : ℕ} (hk : ScheduleSize k) (hmin : minsize ≤ k) (rounds : ℕ)
    {newsize : ℕ} (h : ScheduleSize newsize) (hle : newsize ≤ k) :
    firstSizeLoop minsize rounds newsize ≤ k := by
  induction rounds generalizing newsize with
  | zero => exact hle
  | succ rounds ih =>
    unfold firstSizeLoop
    split_ifs with hlt
    · exact ih (scheduleSize_growSize h) (growSize_le_of_lt h hk (hlt.trans_le hmin))
    · exact hle

theorem ScheduleSize.defaultBufsize_le {k : ℕ} (hk : ScheduleSize k) : defaultBufsize ≤ k := by
  rcases hk with ⟨i, -, rfl⟩ | ⟨i, rfl⟩
  · exact Nat.le_mul_of_pos_right _ (Nat.two_pow_pos i)
  · simp only [defaultBufsize, linearGrowthChunk]
    omega

theorem isLeast_firstSize (minsize : ℕ) :
    IsLeast {k | ScheduleSize k ∧ minsize ≤ k} (firstSize minsize) := by
  refine ⟨⟨scheduleSize_firstSize minsize, le_firstSize minsize⟩, fun k ⟨hk, hle⟩ => ?_⟩
  unfold firstSize
  split_ifs
  · exact hk.defaultBufsize_le
  · exact firstSizeLoop_le hk hle _ scheduleSize_defaultBufsize hk.defaultBufsize_le

theorem isLeast_nextSize (minsize : ℕ) :
    IsLeast {k | ScheduleSize k ∧ minsize < k} (nextSize minsize) := by
  refine ⟨⟨scheduleSize_nextSize minsize, lt_nextSize minsize⟩, fun k ⟨hk, hlt⟩ => ?_⟩
  unfold nextSize
  dsimp only
  split_ifs with heq
  · exact growSize_le_of_lt (scheduleSize_firstSize minsize) hk (heq.trans_lt hlt)
  · exact (isLeast_firstSize minsize).2 ⟨hk, hlt.le⟩

theorem nextSize_le {minsize : ℕ} (h : minsize < expGrowthMax) :
    nextSize minsize ≤ expGrowthMax :=
  (isLeast_nextSize minsize).2 ⟨Or.inr ⟨0, rfl⟩, h⟩

theorem ScheduleSize.eq_two_pow {n : ℕ} (h : ScheduleSize n) (hn : n < 2 * linearGrowthChunk) :
    ∃ k, n = 2 ^ k := by
  rcases h with ⟨k, -, rfl⟩ | ⟨k, rfl⟩
  · exact ⟨9 + k, by rw [pow_add]; rfl⟩
  · obtain rfl : k = 0 := by
      simp only [linearGrowthChunk] at hn
      omega
    exact ⟨16, rfl⟩

namespace MessageBlock

def grow (mb : MessageBlock) (c₁ c₂ : Chunk) (minsize : ℕ) : MessageBlock :=
  let newsize := firstSize (minsize + maxAlignment)
  if newsize ≤ mb.size then mb
  else
    let db := (mb.dataBlock.cloneNoCopy c₁).resize c₂ newsize
    (ofDataBlock db).mbAlign.copy (mb.bytesAt 0 mb.size)

variable (mb : MessageBlock) (c₁ c₂ : Chunk) (minsize : ℕ)

private theorem grow_eq_of_lt (h : mb.size < firstSize (minsize + maxAlignment)) :
    mb.grow c₁ c₂ minsize =
      { ((ofDataBlock ((mb.dataBlock.cloneNoCopy c₁).resize c₂
            (firstSize (minsize + maxAlignment)))).poke 0 (mb.bytesAt 0 mb.size)) with
        wrPtr := mb.size } := by
  have hroom := (mb.dataBlock.cloneNoCopy c₁).le_resize_maxSize c₂
    (firstSize (minsize + maxAlignment))
  have hnot : ¬ firstSize (minsize + maxAlignment) ≤ mb.size := by omega
  simp only [grow, hnot, ↓reduceIte]
  rw [mbAlign_eq, copy_eq (by simp only [ofDataBlock, endPtr, length_bytesAt]; omega)]
  simp [ofDataBlock, append]

theorem firstSize_le_grow_size :
    firstSize (minsize + maxAlignment) ≤ (mb.grow c₁ c₂ minsize).size := by
  by_cases h : mb.size < firstSize (minsize + maxAlignment)
  · rw [grow_eq_of_lt mb c₁ c₂ minsize h]
    simp [size, ofDataBlock, poke]
  · simp only [grow, Nat.not_lt.mp h, ↓reduceIte]

theorem grow_capacity : minsize + maxAlignment ≤ (mb.grow c₁ c₂ minsize).size :=
  (le_firstSize _).trans (mb.firstSize_le_grow_size c₁ c₂ minsize)

theorem grow_endPtr_le :
    (mb.grow c₁ c₂ minsize).endPtr ≤ max mb.endPtr (firstSize (minsize + maxAlignment)) := by
  by_cases h : mb.size < firstSize (minsize + maxAlignment)
  · rw [grow_eq_of_lt mb c₁ c₂ minsize h]
    change ((mb.dataBlock.cloneNoCopy c₁).resize c₂ _).maxSize ≤ _
    rw [DataBlock.resize]
    split_ifs
    · exact le_max_left _ _
    · exact le_max_right _ _
  · simp only [grow, Nat.not_lt.mp h, ↓reduceIte]
    exact le_max_left _ _

theorem grow_mem {i : ℕ} (hi : i < mb.size) :
    (mb.grow c₁ c₂ minsize).dataBlock.mem i = mb.dataBlock.mem i := by
  by_cases h : mb.size < firstSize (minsize + maxAlignment)
  · rw [grow_eq_of_lt mb c₁ c₂ minsize h]
    simp only [poke, Mem.splice, Nat.zero_le, ↓reduceIte, Nat.sub_zero, bytesAt,
      Mem.getElem?_slice, hi, Nat.zero_add, Option.getD_some]
  · simp only [grow, Nat.not_lt.mp h, ↓reduceIte]

theorem bytesAt_grow {i n : ℕ} (h : i + n ≤ mb.size) :
    (mb.grow c₁ c₂ minsize).bytesAt i n = mb.bytesAt i n :=
  Mem.slice_congr fun _ _ hj => grow_mem mb c₁ c₂ minsize (by omega)

end MessageBlock

end Icm.Stream
