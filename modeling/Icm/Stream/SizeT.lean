import Icm.Stream.Bounds

/-!
# Growth in `size_t`

The functions of the growth schedule in 64 bits, where a doubling or a step may overflow.
-/

namespace Icm.Stream

def growSize64 (newsize : BitVec 64) : BitVec 64 :=
  if newsize < 65536 then newsize * 2 else newsize + 65536

/-- The loop of `first_size`, if it ends before a number of rounds. -/
def firstSize64Loop (minsize : BitVec 64) : ℕ → BitVec 64 → Option (BitVec 64)
  | 0, _ => none
  | rounds + 1, newsize =>
    if newsize < minsize then firstSize64Loop minsize rounds (growSize64 newsize) else some newsize

def firstSize64 (minsize : BitVec 64) (rounds : ℕ) : Option (BitVec 64) :=
  if minsize = 0 then some 512 else firstSize64Loop minsize rounds 512

def nextSize64 (minsize : BitVec 64) (rounds : ℕ) : Option (BitVec 64) :=
  (firstSize64 minsize rounds).map fun newsize =>
    if newsize = minsize then growSize64 newsize else newsize

theorem toNat_growSize64 {newsize : BitVec 64} (h : growSize newsize.toNat < 2 ^ 64) :
    (growSize64 newsize).toNat = growSize newsize.toNat := by
  by_cases hlt : newsize < 65536
  · have hnat : newsize.toNat < expGrowthMax := hlt
    rw [growSize, if_pos hnat] at h ⊢
    rw [growSize64, if_pos hlt, BitVec.toNat_mul]
    exact Nat.mod_eq_of_lt h
  · have hnat : ¬ newsize.toNat < expGrowthMax := hlt
    rw [growSize, if_neg hnat] at h ⊢
    rw [growSize64, if_neg hlt, BitVec.toNat_add]
    exact Nat.mod_eq_of_lt h

/-- The loop in `size_t` is that in natural numbers, up to a size of the schedule that is enough. -/
theorem firstSize64Loop_eq {minsize newsize : BitVec 64} {rounds k : ℕ} (hk : ScheduleSize k)
    (hfits : k < 2 ^ 64) (hmin : minsize.toNat ≤ k) (h : ScheduleSize newsize.toNat)
    (hrounds : minsize.toNat ≤ newsize.toNat + rounds) :
    ∃ v, firstSize64Loop minsize (rounds + 1) newsize = some v ∧
      v.toNat = firstSizeLoop minsize.toNat rounds newsize.toNat := by
  induction rounds generalizing newsize with
  | zero => exact ⟨newsize, if_neg (not_lt.mpr hrounds), rfl⟩
  | succ rounds ih =>
    rw [firstSize64Loop, firstSizeLoop]
    by_cases hlt : newsize < minsize
    · have hpos : 0 < newsize.toNat := lt_of_lt_of_le (by decide) h.defaultBufsize_le
      have hgrow := toNat_growSize64
        ((growSize_le_of_lt h hk (lt_of_lt_of_le hlt hmin)).trans_lt hfits)
      have hless := lt_growSize hpos
      rw [if_pos hlt, if_pos (BitVec.lt_def.mp hlt), ← hgrow]
      exact ih (hgrow ▸ scheduleSize_growSize h) (by omega)
    · rw [if_neg hlt, if_neg (mt BitVec.lt_def.mpr hlt)]
      exact ⟨newsize, rfl, rfl⟩

theorem exists_firstSize64 {minsize : BitVec 64} {k : ℕ} (hk : ScheduleSize k)
    (hfits : k < 2 ^ 64) (hmin : minsize.toNat ≤ k) :
    ∃ rounds v, firstSize64 minsize rounds = some v ∧ v.toNat = firstSize minsize.toNat := by
  refine ⟨minsize.toNat + 1, ?_⟩
  unfold firstSize64 firstSize
  by_cases hzero : minsize = 0
  · exact ⟨512, if_pos hzero, by simp [hzero, defaultBufsize]⟩
  · have hne : minsize.toNat ≠ 0 := fun heq => hzero (BitVec.eq_of_toNat_eq heq)
    rw [if_neg hzero, if_neg hne]
    have hstart : ScheduleSize (512 : BitVec 64).toNat := scheduleSize_defaultBufsize
    exact firstSize64Loop_eq hk hfits hmin hstart (Nat.le_add_left _ _)

/-- **The sizes of the schedule**: where `size_t` has room, `first_size` ends with the least size
that is enough and `next_size` with the least one that is greater. -/
theorem schedule_sizes_least (n : BitVec 64) :
    ((∃ k < 2 ^ 64, ScheduleSize k ∧ n.toNat ≤ k) → ∃ rounds v,
      firstSize64 n rounds = some v ∧ IsLeast {k | ScheduleSize k ∧ n.toNat ≤ k} v.toNat) ∧
    ((∃ k < 2 ^ 64, ScheduleSize k ∧ n.toNat < k) → ∃ rounds v,
      nextSize64 n rounds = some v ∧ IsLeast {k | ScheduleSize k ∧ n.toNat < k} v.toNat) := by
  constructor
  · rintro ⟨k, hfits, hk, hle⟩
    obtain ⟨rounds, v, hv, hnat⟩ := exists_firstSize64 hk hfits hle
    exact ⟨rounds, v, hv, hnat ▸ isLeast_firstSize n.toNat⟩
  · rintro ⟨k, hfits, hk, hlt⟩
    obtain ⟨rounds, v, hv, hnat⟩ := exists_firstSize64 hk hfits hlt.le
    refine ⟨rounds, _, by rw [nextSize64, hv]; rfl, ?_⟩
    have hnext := isLeast_nextSize n.toNat
    have hle := (hnext.2 ⟨hk, hlt⟩).trans_lt hfits
    unfold nextSize at hnext hle
    rw [← hnat] at hnext hle
    dsimp only at hnext hle ⊢
    by_cases heq : v = n
    · rw [if_pos (congrArg _ heq)] at hnext hle
      rwa [if_pos heq, toNat_growSize64 hle]
    · rw [if_neg (mt BitVec.eq_of_toNat_eq heq)] at hnext
      rwa [if_neg heq]

theorem schedule_sizes_least_600 :
    ∃ rounds v, firstSize64 600 rounds = some v ∧
      IsLeast {k | ScheduleSize k ∧ 600 ≤ k} v.toNat :=
  (schedule_sizes_least 600).1 ⟨1024, by decide, Or.inl ⟨1, by decide, rfl⟩, by decide⟩

namespace InputStream

/-- `grow` with `newsize` a `size_t`, to which `MAX_ALIGNMENT` is added. -/
def grow64 (is : InputStream) (c₁ c₂ : Chunk) (newsize : BitVec 64) (rounds : ℕ) :
    Option InputStream :=
  (firstSize64 (newsize + 8) rounds).map fun size =>
    let mb := if size.toNat ≤ is.start.size then is.start
      else
        let db := (is.start.dataBlock.cloneNoCopy c₁).resize c₂ size.toNat
        (MessageBlock.ofDataBlock db).mbAlign.copy (is.start.bytesAt 0 is.start.size)
    { is with start := { mb.mbAlign with wrPtr := mb.mbAlign.wrPtr + newsize.toNat } }

theorem grow64_eq (is : InputStream) (c₁ c₂ : Chunk) {n : BitVec 64}
    (hn : n.toNat + 65544 ≤ 2 ^ 64) :
    ∃ rounds, is.grow64 c₁ c₂ n rounds = some (is.grow c₁ c₂ n.toNat) := by
  have hadd : (n + 8).toNat = n.toNat + maxAlignment := by
    rw [BitVec.toNat_add]
    exact Nat.mod_eq_of_lt (by simp; omega)
  have hschedule : ScheduleSize (2 ^ 64 - 65536) := Or.inr ⟨2 ^ 48 - 2, rfl⟩
  obtain ⟨rounds, v, hv, hnat⟩ := exists_firstSize64 hschedule (by decide)
    (show (n + 8).toNat ≤ 2 ^ 64 - 65536 by rw [hadd, maxAlignment]; omega)
  refine ⟨rounds, ?_⟩
  rw [grow64, hv, Option.map_some, hnat, hadd]
  rfl

/-- **A stream that was grown** has room for the requested size behind its aligned start, that many
readable bytes, and the bytes of the old block. -/
theorem grow_in_size_t (is : InputStream) (c₁ c₂ : Chunk) (n : BitVec 64)
    (hn : n.toNat + 65544 ≤ 2 ^ 64) :
    ∃ rounds is', is.grow64 c₁ c₂ n rounds = some is' ∧
      is'.rdPtr = alignBinary is'.start.dataBlock.base maxAlignment - is'.start.dataBlock.base ∧
      n.toNat ≤ is'.endPtr - is'.rdPtr ∧ is'.length = n.toNat ∧
      ∀ i < is.start.size, is'.start.dataBlock.mem i = is.start.dataBlock.mem i := by
  obtain ⟨rounds, hgrow⟩ := is.grow64_eq c₁ c₂ hn
  refine ⟨rounds, _, hgrow, rfl, ?_, ?_, fun i hi => ?_⟩
  · have hroom := is.le_grow_endPtr c₁ c₂ n.toNat
    rw [grow_rdPtr]
    omega
  · have hlength : (is.grow c₁ c₂ n.toNat).length =
        (is.grow c₁ c₂ n.toNat).start.wrPtr - (is.grow c₁ c₂ n.toNat).rdPtr := rfl
    rw [hlength, grow_wrPtr, grow_rdPtr, Nat.sub_zero]
  · exact is.start.grow_mem c₁ c₂ n.toNat hi

theorem grow_in_size_t_6 :
    ∃ rounds is', (create .little zeroChunk 512).grow64 zeroChunk zeroChunk 6 rounds = some is' ∧
      is'.length = 6 := by
  obtain ⟨rounds, is', hgrow, -, -, hlength, -⟩ :=
    grow_in_size_t (create .little zeroChunk 512) zeroChunk zeroChunk 6 (by decide)
  exact ⟨rounds, is', hgrow, hlength⟩

/-- With `MAX_ALIGNMENT` the size `2 ^ 64 - 8` is zero, and the block stays as it is. -/
theorem grow_overflows :
    ((create .little zeroChunk 512).grow64 zeroChunk zeroChunk (-8) 0).map endPtr = some 512 ∧
      (512 : ℕ) < (-8 : BitVec 64).toNat := by
  decide

end InputStream

end Icm.Stream
