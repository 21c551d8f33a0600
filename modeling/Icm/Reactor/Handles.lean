import Icm.Reactor.HandleSet

/-!
# Counting and listing the handles of a set

A `HandleSet` keeps the number of its handles and the greatest one beside the array of bits.
-/

namespace Icm.Reactor

open Icm.Lib List BitWords HandleSet

namespace HandleSet

variable {s s' : HandleSet} {handle : ℤ}

def handles (s : HandleSet) : List ℤ := s.mMask.elements.map Nat.cast

theorem mem_handles {g : ℤ} : g ∈ s.handles ↔ s.has g = true := by
  rw [handles, mem_map]
  constructor
  · rintro ⟨i, hi, rfl⟩
    rwa [has_natCast, ← mem_elements]
  · intro h
    obtain ⟨i, -, rfl⟩ := exists_of_has h
    exact ⟨i, mem_elements.mpr (by rwa [← has_natCast]), rfl⟩

theorem pairwise_handles (s : HandleSet) : s.handles.Pairwise (· < ·) :=
  (pairwise_elements s.mMask).map _ fun _ _ => Int.ofNat_lt.mpr

def handlesFrom (s : HandleSet) (low : ℤ) : List ℤ := s.handles.filter fun g => decide (low ≤ g)

theorem mem_handlesFrom {g low : ℤ} : g ∈ s.handlesFrom low ↔ s.has g = true ∧ low ≤ g := by
  rw [handlesFrom, mem_filter, mem_handles, decide_eq_true_eq]

theorem pairwise_handlesFrom (s : HandleSet) (low : ℤ) : (s.handlesFrom low).Pairwise (· < ·) :=
  (pairwise_handles s).filter _

theorem handlesFrom_zero (s : HandleSet) : s.handlesFrom 0 = s.handles := by
  refine filter_eq_self.mpr fun g hg => ?_
  obtain ⟨i, -, rfl⟩ := exists_of_has (mem_handles.mp hg)
  exact decide_eq_true (by omega)

theorem handlesFrom_eq_cons {g low : ℤ} (hg : s.has g = true) (hlow : low ≤ g)
    (hleast : ∀ g', s.has g' = true → low ≤ g' → g ≤ g') :
    s.handlesFrom low = g :: s.handlesFrom (g + 1) := by
  refine (pairwise_handlesFrom s low).eq_of_mem_iff ?_ fun a => ?_
  · refine pairwise_cons.mpr ⟨fun a ha => ?_, pairwise_handlesFrom s _⟩
    have := (mem_handlesFrom.mp ha).2
    omega
  · rw [mem_cons, mem_handlesFrom, mem_handlesFrom]
    constructor
    · rintro ⟨ha, hle⟩
      have := hleast a ha hle
      by_cases heq : a = g
      · exact .inl heq
      · exact .inr ⟨ha, by omega⟩
    · rintro (rfl | ⟨ha, hle⟩)
      · exact ⟨hg, hlow⟩
      · exact ⟨ha, by omega⟩

theorem length_handles (s : HandleSet) : s.handles.length = s.mMask.elements.length :=
  length_map _

theorem handles_eq_nil_iff : s.handles = [] ↔ ∀ g, s.has g = false := by
  simp only [eq_nil_iff_forall_not_mem, mem_handles, Bool.not_eq_true]

theorem handles_congr (h : s'.mMask = s.mMask) : s'.handles = s.handles := by
  rw [handles, h, handles]

theorem has_congr (h : s'.mMask = s.mMask) (g : ℤ) : s'.has g = s.has g := by
  rw [has, h, has]

def MaxRight (s : HandleSet) : Prop :=
  (∀ g, s.has g = false) ∧ s.mMaxHandle = -1 ∨
    s.has s.mMaxHandle = true ∧ ∀ g, s.has g = true → g ≤ s.mMaxHandle

structure Exact (s : HandleSet) : Prop where
  size : s.mSize = s.handles.length
  max : s.MaxRight

theorem MaxRight.le (h : s.MaxRight) {g : ℤ} (hg : s.has g = true) : g ≤ s.mMaxHandle := by
  rcases h with ⟨hnone, -⟩ | ⟨-, hle⟩
  · rw [hnone g] at hg
    cases hg
  · exact hle g hg

theorem exact_reset : reset.Exact where
  size := by
    rw [handles_eq_nil_iff.mpr fun _ => has_reset]
    rfl
  max := .inl ⟨fun _ => has_reset, rfl⟩

theorem Exact.exists_setBit (hs : s.Exact) (hrange : 0 ≤ handle ∧ handle < 1024) :
    ∃ s', s.setBit handle = .ok s' ∧ s'.Exact := by
  by_cases hset : s.has handle = true
  · exact ⟨s, (dif_pos hrange).trans (if_pos hset), hs⟩
  obtain ⟨s', hs'⟩ : ∃ s', s.setBit handle = .ok s' := ⟨_, (dif_pos hrange).trans (if_neg hset)⟩
  have hbits := (has_of_setBit hs').2
  refine ⟨s', hs', ⟨?_, .inr ?_⟩⟩
  · rw [setBit, dif_pos hrange, if_neg hset] at hs'
    cases hs'
    have hnew : s.mMask.bit handle.toNat = false := by
      rw [← has_natCast, Int.toNat_of_nonneg hrange.1]
      exact Bool.eq_false_of_not_eq_true hset
    have hlen := length_elements_insert (show handle.toNat < 64 * 16 by omega) hnew
    have hsize := hs.size
    rw [length_handles] at hsize ⊢
    dsimp only
    omega
  · have hmax : s'.mMaxHandle = if handle > s.mMaxHandle then handle else s.mMaxHandle := by
      rw [setBit, dif_pos hrange, if_neg hset] at hs'
      cases hs'
      rfl
    have hle (g : ℤ) (hg : s'.has g = true) : g = handle ∨ g ≤ s.mMaxHandle := by
      rw [hbits, Bool.or_eq_true, decide_eq_true_eq] at hg
      exact hg.imp id hs.max.le
    by_cases hgt : handle > s.mMaxHandle
    · rw [hmax, if_pos hgt]
      refine ⟨by simp [hbits], fun g hg => ?_⟩
      rcases hle g hg with rfl | hg
      · exact le_rfl
      · omega
    · rw [hmax, if_neg hgt]
      have hhas : s.has s.mMaxHandle = true := by
        rcases hs.max with ⟨-, hinv⟩ | ⟨hhas, -⟩
        · omega
        · exact hhas
      refine ⟨by simp [hbits, hhas], fun g hg => ?_⟩
      rcases hle g hg with rfl | hg
      · omega
      · exact hg

variable {currentMax : ℤ}

section

variable (h : s.setMax currentMax = .ok s')
include h

theorem mSize_of_setMax :
    s'.mSize = s.mSize := by
  rw [setMax] at h
  by_cases hsize : s.mSize = 0
  · obtain rfl := Except.ok.inj ((if_pos hsize).symm.trans h)
    rfl
  · rw [if_neg hsize] at h
    obtain ⟨p, -, h⟩ := bind_eq_ok.mp h
    cases h
    rfl

theorem max_of_setMax_of_eq_zero (hsize : s.mSize = 0) : s'.mMaxHandle = -1 := by
  obtain rfl := Except.ok.inj ((if_pos hsize).symm.trans h)
  rfl

theorem has_of_setMax_of_ne_zero (hsize : s.mSize ≠ 0) : s.has s'.mMaxHandle = true := by
  have hspec := (setMax_spec h).2
  rw [setMax, if_neg hsize] at h
  obtain ⟨p, -, h⟩ := bind_eq_ok.mp h
  refine (hspec.resolve_left fun hinv => ?_).1
  cases h
  dsimp only [withMax] at hinv
  split_ifs at hinv

end

theorem exists_setMax (hle : currentMax ≤ 1024)
    (h : s.mSize ≠ 0 → ∃ g < currentMax, s.has g = true) :
    ∃ s', s.setMax currentMax = .ok s' := by
  by_cases hsize : s.mSize = 0
  · exact ⟨_, if_pos hsize⟩
  · obtain ⟨g, hlt, hg⟩ := h hsize
    obtain ⟨j, -, rfl⟩ := exists_of_has hg
    have hj := lt_wordsBelow (by omega) hlt
    rw [has_natCast] at hg
    obtain ⟨p, hp⟩ := exists_lastWord (wordsBelow_le hle) (by omega) hg
    exact ⟨_, (if_neg hsize).trans (bind_eq_ok.mpr ⟨p, hp, rfl⟩)⟩

theorem mSize_of_clrBit (h : s.clrBit handle = .ok s') :
    s'.mSize = if s.has handle then s.mSize - 1 else s.mSize := by
  rcases clrBit_cases h with ⟨rfl, hoff⟩ | ⟨hhas, ⟨-, rfl⟩ | ⟨-, hset⟩⟩
  · rw [hoff]
    rfl
  · rw [if_pos hhas]
    rfl
  · rw [if_pos hhas, mSize_of_setMax hset]
    rfl

theorem length_handles_of_clrBit (h : s.clrBit handle = .ok s') :
    (s'.handles.length : ℤ) = if s.has handle then s.handles.length - 1 else s.handles.length := by
  have hmask : s.has handle = true → s'.mMask = s.mMask.erase handle.toNat := by
    intro hhas
    rcases clrBit_cases h with ⟨-, hoff⟩ | ⟨-, ⟨-, rfl⟩ | ⟨-, hset⟩⟩
    · rw [hoff] at hhas
      cases hhas
    · rfl
    · exact (setMax_spec hset).1
  split_ifs with hhas
  · rw [length_handles, hmask hhas, length_handles]
    obtain ⟨i, -, rfl⟩ := exists_of_has hhas
    rw [has_natCast] at hhas
    have := length_elements_erase hhas
    rw [Int.toNat_natCast]
    omega
  · rcases clrBit_cases h with ⟨rfl, -⟩ | ⟨hon, -⟩
    · rfl
    · exact absurd hon hhas

theorem Exact.exists_clrBit (hs : s.Exact) (hrange : 0 ≤ handle ∧ handle < 1024) :
    ∃ s', s.clrBit handle = .ok s' ∧ s'.Exact := by
  have hset : s.isSet handle = .ok (s.has handle) := isSet_eq_ok.mpr ⟨hrange, rfl⟩
  have hclr (set : Bool) (hhas : s.has handle = set) : s.clrBit handle = if set = true then
      if handle = s.mMaxHandle then (s.erase handle).setMax s.mMaxHandle
      else .ok (s.erase handle) else .ok s := by
    rw [clrBit, if_neg (by omega), hset, hhas]
    rfl
  cases hhas : s.has handle with
  | false => exact ⟨s, hclr false hhas, hs⟩
  | true =>
    have hmem := has_erase (s := s) hrange.1
    have hlen : ((s.erase handle).handles.length : ℤ) = (s.erase handle).mSize := by
      have hbit : s.mMask.bit handle.toNat = true := by
        rwa [← has_natCast, Int.toNat_of_nonneg hrange.1]
      have hlen := length_elements_erase hbit
      have hsize := hs.size
      rw [length_handles] at hsize ⊢
      dsimp only [erase]
      omega
    by_cases hmax : handle = s.mMaxHandle
    · obtain ⟨s', hs'⟩ : ∃ s', (s.erase handle).setMax s.mMaxHandle = .ok s' := by
        refine exists_setMax s.max_lt.le fun hne => ?_
        obtain ⟨g, hg⟩ := exists_mem_of_ne_nil (s.erase handle).handles fun hnil => by
          rw [hnil] at hlen
          exact hne hlen.symm
        have hg' := mem_handles.mp hg
        rw [hmem, Bool.and_eq_true, decide_eq_true_eq, hmax] at hg'
        exact ⟨g, lt_of_le_of_ne (hs.max.le hg'.1) hg'.2, mem_handles.mp hg⟩
      have hclear : s.clrBit handle = .ok s' :=
        (hclr true hhas).trans ((if_pos rfl).trans ((if_pos hmax).trans hs'))
      refine ⟨s', hclear, ⟨?_, ?_⟩⟩
      · rw [mSize_of_setMax hs', ← hlen, handles_congr (setMax_spec hs').1]
      · have hbits := has_congr (setMax_spec hs').1
        by_cases hzero : (s.erase handle).mSize = 0
        · have hnil : (s.erase handle).handles = [] :=
            eq_nil_of_length_eq_zero (by omega)
          exact .inl ⟨fun g => (hbits g).trans (handles_eq_nil_iff.mp hnil g),
            max_of_setMax_of_eq_zero hs' hzero⟩
        · have hnew := has_of_setMax_of_ne_zero hs' hzero
          refine .inr ⟨(hbits _).trans hnew, fun g hg => ?_⟩
          rw [hbits] at hg
          rcases (setMax_spec hs').2 with hinv | ⟨-, hbelow⟩
          · obtain ⟨i, -, hi⟩ := exists_of_has hnew
            omega
          · refine hbelow g (lt_wordsBelow ?_ ?_) hg
            · obtain ⟨i, -, rfl⟩ := exists_of_has hg
              omega
            · rw [hmem, Bool.and_eq_true, decide_eq_true_eq, hmax] at hg
              exact lt_of_le_of_ne (hs.max.le hg.1) hg.2
    · have hclear : s.clrBit handle = .ok (s.erase handle) :=
        (hclr true hhas).trans ((if_pos rfl).trans (if_neg hmax))
      refine ⟨_, hclear, ⟨hlen.symm, .inr ⟨?_, fun g hg => ?_⟩⟩⟩
      · rcases hs.max with ⟨hnone, -⟩ | ⟨hon, -⟩
        · rw [hnone handle] at hhas
          cases hhas
        · rw [hmem, Bool.and_eq_true, decide_eq_true_eq]
          exact ⟨hon, Ne.symm hmax⟩
      · rw [hmem, Bool.and_eq_true] at hg
        exact hs.max.le hg.1

theorem countP_range_add (p : ℕ → Bool) (m n : ℕ) :
    (range (m + n)).countP p =
      (range m).countP p + (range n).countP fun j => p (m + j) := by
  rw [range_add, countP_append, countP_map]
  rfl

theorem nbits_getD {b : ℕ} (hb : b < 256) :
    nbits.getD b 0 = (range 8).countP b.testBit := by
  have hall : ∀ b : Fin 256, nbits.getD b 0 = (range 8).countP b.val.testBit := by
    decide +kernel
  exact hall ⟨b, hb⟩

theorem nbits_byte (v : BitVec 64) (k : ℕ) :
    nbits.getD (v >>> k &&& 0xff).toNat 0 = (range 8).countP fun j => v.getLsbD (k + j) := by
  have hlt : (v >>> k &&& 0xff).toNat < 256 := by
    rw [BitVec.toNat_and]
    exact Nat.lt_of_le_of_lt Nat.and_le_right (by decide)
  rw [nbits_getD hlt]
  refine countP_congr fun j hj => ?_
  rw [mem_range] at hj
  have hbyte : (0xff : BitVec 64).getLsbD j = true := by
    interval_cases j <;> rfl
  rw [← BitVec.getLsbD, BitVec.getLsbD_and, hbyte, Bool.and_true, BitVec.getLsbD_ushiftRight]

theorem countBits_eq (v : BitVec 64) : countBits v = (range 32).countP v.getLsbD := by
  have hzero := nbits_byte v 0
  simp only [BitVec.ushiftRight_zero, Nat.zero_add] at hzero
  rw [countBits, hzero, nbits_byte, nbits_byte, nbits_byte,
    show (32 : ℕ) = 8 + 8 + 8 + 8 from rfl, countP_range_add, countP_range_add, countP_range_add]

def inLowHalf (i : ℕ) : Bool := decide (i % 64 < 32)

theorem countWords_eq {n : ℕ} {c : ℤ} (h : s.countWords n = .ok c) :
    c = (range (64 * n)).countP fun i => s.mMask.bit i && inLowHalf i := by
  induction n generalizing c with
  | zero =>
    cases h
    rfl
  | succ n ih =>
    obtain ⟨v, hv, h⟩ := bind_eq_ok.mp h
    obtain ⟨rest, hrest, h⟩ := bind_eq_ok.mp h
    cases h
    obtain ⟨hn, rfl⟩ := word_eq_ok.mp hv
    rw [ih hrest, countBits_eq, Nat.mul_succ, countP_range_add,
      show range 64 = range (32 + 32) from rfl, countP_range_add _ 32 32, Int.add_comm]
    have hlow : (range 32).countP (s.mMask.word ⟨n, hn⟩).getLsbD = (range 32).countP
        fun j => s.mMask.bit (64 * n + j) && inLowHalf (64 * n + j) := by
      refine countP_congr fun j hj => ?_
      rw [mem_range] at hj
      rw [bit_word ⟨n, hn⟩ (by omega), inLowHalf, decide_eq_true (by omega), Bool.and_true]
    have hhigh : (range 32).countP (fun j => s.mMask.bit (64 * n + (32 + j)) &&
        inLowHalf (64 * n + (32 + j))) = 0 := by
      refine countP_eq_zero.mpr fun j hj => ?_
      rw [mem_range] at hj
      rw [inLowHalf, decide_eq_false (by omega), Bool.and_false]
      exact Bool.false_ne_true
    rw [hlow, hhigh]
    push_cast
    omega

theorem mSize_of_sync {max : ℤ} (hmax : max ≤ 1024) (hbelow : ∀ g, s.has g = true → g < max)
    (h : s.sync max = .ok s') : s'.mSize = (s.mMask.elements.filter inLowHalf).length := by
  obtain ⟨c, hc, h⟩ := bind_eq_ok.mp h
  rw [mSize_of_setMax h, countWords_eq hc, elements, filter_filter,
    ← countP_eq_length_filter]
  have hwords := wordsBelow_le hmax
  -- no bit is set in the words that are not counted
  have hrest : (range (64 * 16 - 64 * wordsBelow max)).countP (fun j =>
      inLowHalf (64 * wordsBelow max + j) && s.mMask.bit (64 * wordsBelow max + j)) = 0 := by
    refine countP_eq_zero.mpr fun j _ hj => ?_
    have hbit := (Bool.and_eq_true_iff.mp hj).2
    rw [← has_natCast] at hbit
    have := lt_wordsBelow (by omega) (hbelow _ hbit)
    omega
  rw [show 64 * 16 = 64 * wordsBelow max + (64 * 16 - 64 * wordsBelow max) by omega,
    countP_range_add, hrest, Nat.add_zero]
  simp only [Bool.and_comm]

theorem exists_sync_exact_iff {max : ℤ} (hmax : max ≤ 1024)
    (hbelow : ∀ g, s.has g = true → g < max) :
    ∃ s', s.sync max = .ok s' ∧ s'.mMask = s.mMask ∧
      (s'.Exact ↔ ∀ i, s.mMask.bit i = true → inLowHalf i = true) := by
  obtain ⟨s', hs', hmask, -⟩ := exists_sync (s := s) hmax
  have hsize := mSize_of_sync hmax hbelow hs'
  refine ⟨s', hs', hmask, ⟨fun hexact i hi => ?_, fun hlow => ?_⟩⟩
  · rw [hexact.size, length_handles, hmask, Int.natCast_inj, eq_comm,
      length_filter_eq_length_iff] at hsize
    exact hsize i (mem_elements.mpr hi)
  · have hall : s.mMask.elements.filter inLowHalf = s.mMask.elements :=
      filter_eq_self.mpr fun i hi => hlow i (mem_elements.mp hi)
    have hlen : s'.mSize = s'.handles.length := by
      rw [hsize, hall, length_handles, hmask]
    refine ⟨hlen, ?_⟩
    obtain ⟨c, -, hset⟩ := bind_eq_ok.mp hs'
    have hmSize := mSize_of_setMax hset
    have hbits := has_congr hmask
    by_cases hzero : s'.mSize = 0
    · have hnil : s'.handles = [] := eq_nil_of_length_eq_zero (by omega)
      exact .inl ⟨handles_eq_nil_iff.mp hnil,
        max_of_setMax_of_eq_zero hset (hmSize.symm.trans hzero)⟩
    · have hnew := has_of_setMax_of_ne_zero hset fun h => hzero (hmSize.trans h)
      refine .inr ⟨(hbits _).trans hnew, fun g hg => ?_⟩
      rw [hbits] at hg
      rcases (setMax_spec hset).2 with hinv | ⟨-, hsearch⟩
      · obtain ⟨i, -, hi⟩ := exists_of_has hnew
        omega
      · obtain ⟨i, -, rfl⟩ := exists_of_has hg
        exact hsearch i (lt_wordsBelow (by omega) (hbelow _ hg)) hg

end HandleSet

namespace HandleSetIterator

variable {it : HandleSetIterator} {s s' : HandleSet} {handle low : ℤ}

structure Tracks (it : HandleSetIterator) (s : HandleSet) (low : ℤ) : Prop where
  valid : it.Valid s
  low_le : low ≤ it.mHandleIndex
  copied : ∀ g, it.Holds g → s.has g = true
  copies : it.Ahead → ∀ g, it.mHandleIndex ≤ g → g < 64 * (it.mWordNum + 1) → s.has g = true →
    it.Holds g
  least : ∀ g ≤ s.mMaxHandle, low ≤ g → s.has g = true → it.mHandleIndex ≤ g

theorem Tracks.clear (h : it.Tracks s low) (hlt : handle < low)
    (hbits : ∀ g, s'.has g = (s.has g && decide (g ≠ handle)))
    (hmax : s'.mMaxHandle ≤ s.mMaxHandle) : it.Tracks s' low where
  valid := h.valid.mono hmax
  low_le := h.low_le
  copied g hg := by
    have := h.low_le
    have := hg.1
    rw [hbits, h.copied g hg, decide_eq_true (by omega)]
    rfl
  copies hahead g hle hword hg := by
    rw [hbits, Bool.and_eq_true] at hg
    exact h.copies hahead g hle hword hg.1
  least g hle hlow hg := by
    rw [hbits, Bool.and_eq_true] at hg
    exact h.least g (hle.trans hmax) hlow hg.1

theorem holds_iff_of_word {i k : ℕ} {v : BitVec 64} (hi : i < 16)
    (hbits : ∀ j, v.getLsbD j = (s.mMask.word ⟨i, hi⟩).getLsbD (k + j)) {g : ℤ} :
    Holds ⟨64 * i + k, i, v⟩ g ↔ (64 * i + k : ℤ) ≤ g ∧ g < 64 * (i + 1) ∧ s.has g = true := by
  constructor
  · intro h
    refine ⟨h.1, ?_, has_of_word hi hbits h⟩
    have hbit := h.2
    have hle := h.1
    dsimp only at hbit hle
    rw [hbits] at hbit
    have := BitVec.lt_of_getLsbD hbit
    omega
  · rintro ⟨hle, hlt, hhas⟩
    obtain ⟨j, -, rfl⟩ := exists_of_has hhas
    refine ⟨hle, ?_⟩
    dsimp only
    rw [has_natCast, show j = 64 * i + (j - 64 * i) by omega,
      bit_word ⟨i, hi⟩ (by omega)] at hhas
    rwa [hbits, show k + ((j : ℤ) - (64 * i + k)).toNat = j - 64 * i by omega]

theorem tracks_of_word {i k : ℕ} {v : BitVec 64} (hi : i < 16)
    (hset : (s.mMask.word ⟨i, hi⟩).getLsbD k = true)
    (hbits : ∀ j, v.getLsbD j = (s.mMask.word ⟨i, hi⟩).getLsbD (k + j))
    (hskip : ∀ j < k, (s.mMask.word ⟨i, hi⟩).getLsbD j = false) (hlow : low ≤ 64 * i + k)
    (hbelow : ∀ g, low ≤ g → s.has g = true → (64 * i : ℤ) ≤ g) :
    Tracks ⟨64 * i + k, i, v⟩ s low where
  valid := .inl (ahead_of_word hset hbits)
  low_le := hlow
  copied _ hg := ((holds_iff_of_word hi hbits).mp hg).2.2
  copies _ _ hle hword hg := (holds_iff_of_word hi hbits).mpr ⟨hle, hword, hg⟩
  least g _ hlow hg :=
    le_of_has_of_word hi hskip (BitVec.lt_of_getLsbD hset).le (hbelow g hlow hg) hg

theorem tracks_of_end {i : ℤ} (hlow : low ≤ s.mMaxHandle + 1)
    (hnone : ∀ g ≤ s.mMaxHandle, low ≤ g → s.has g = false) :
    Tracks ⟨s.mMaxHandle + 1, i, 0#64⟩ s low := by
  refine ⟨.inr (by dsimp only; omega), hlow, fun g hg => ?_, fun h => ?_, fun g hle hlow hg => ?_⟩
  · simp [Holds] at hg
  · have := h.low
    simp at this
  · rw [hnone g hle hlow] at hg
    cases hg

theorem tracks_new (hmax : s.MaxRight) : (new s).Tracks s 0 := by
  have hinv := s.invalid_le
  rcases new_cases s with ⟨i, k, v, hi, hnew, hclear, hbits, hskip, hne, hfound⟩ |
    ⟨i, hnew, hlt, hclear⟩ <;> rw [hnew]
  · -- the greatest handle is set, so that the loop does not run past it
    have hset : (s.mMask.word ⟨i, hi⟩).getLsbD k = true := by
      obtain ⟨j, hj, hbit⟩ := word_ne_zero_iff.mp hne
      have hle := hmax.le (g := ((64 * i + j : ℕ) : ℤ)) (by rwa [has_natCast])
      rw [bit_word ⟨i, hi⟩ hj] at hbit
      refine hfound.resolve_right fun hpast => ?_
      rw [hskip j (by omega)] at hbit
      cases hbit
    exact tracks_of_word hi hset hbits hskip (by omega) fun g _ hg => le_of_has hclear hg
  · refine tracks_of_end (by omega) fun g hle _ => Bool.eq_false_of_not_eq_true fun hg => ?_
    have := le_of_has hclear hg
    omega

theorem Tracks.next (h : it.Tracks s low) (hle : it.mHandleIndex ≤ s.mMaxHandle) :
    (it.next s).1 = it.mHandleIndex ∧ (it.next s).2.Tracks s (it.mHandleIndex + 1) := by
  have hahead := h.valid.resolve_right (by omega)
  have hnum := hahead.wordNum
  -- what comes later in the same word is in the copy
  have hcopy (g : ℤ) (hlt : it.mHandleIndex + 1 ≤ g) (hword : g < 64 * (it.mWordNum + 1))
      (hg : s.has g = true) :
      it.mWordVal.getLsbD ((g - (it.mHandleIndex + 1)).toNat + 1) = true := by
    have hbit := (h.copies hahead g (by omega) hword hg).2
    rwa [show (g - (it.mHandleIndex + 1)).toNat + 1 = (g - it.mHandleIndex).toNat by omega]
  rcases next_cases hahead hle with
    ⟨k, v, hnext, hset, hbits, hskip⟩ | ⟨hrest, i, hi, hclear, hnext⟩
  · have hlt := hahead.lt _ hset
    rw [hnext]
    refine ⟨rfl, .inl (ahead_of_copy hahead hset hbits), by dsimp only; omega,
      fun g hg => h.copied g (holds_of_copy hbits hg), fun _ g hle hword hg => ⟨hle, ?_⟩,
      fun g hle hlow hg => ?_⟩
    · dsimp only at hle hword ⊢
      have hbit := hcopy g (by omega) hword hg
      rwa [hbits, show k + (g - (it.mHandleIndex + 1 + k)).toNat =
        (g - (it.mHandleIndex + 1)).toNat by omega]
    · by_contra hlt'
      dsimp only at hlt'
      have hbit := hcopy g hlow (by omega) hg
      rw [hskip _ (by omega)] at hbit
      cases hbit
  · have hbelow (g : ℤ) (hlow : it.mHandleIndex + 1 ≤ g) (hg : s.has g = true) :
        (64 * i : ℤ) ≤ g := by
      by_contra hlt
      by_cases hword : g < 64 * (it.mWordNum + 1)
      · have hbit := hcopy g hlow hword hg
        rw [hrest] at hbit
        cases hbit
      · obtain ⟨j, -, rfl⟩ := exists_of_has hg
        rw [has_natCast, hclear j (by omega) (by omega)] at hg
        cases hg
    rcases hnext with ⟨k, v, hlt, hnext, hset, hbits, hskip⟩ | ⟨hnext, hmax⟩ <;> rw [hnext]
    · exact ⟨rfl, tracks_of_word hlt hset hbits hskip (by omega) hbelow⟩
    · refine ⟨rfl, tracks_of_end (by omega) fun g hle hlow => Bool.eq_false_of_not_eq_true ?_⟩
      intro hg
      have := hbelow g hlow hg
      omega

def results (s : HandleSet) : ℕ → HandleSetIterator → List ℤ
  | 0, _ => []
  | n + 1, it => (it.next s).1 :: results s n (it.next s).2

theorem next_of_max_lt (h : s.mMaxHandle < it.mHandleIndex) : it.next s = (-1, it) :=
  if_pos (by omega)

theorem Tracks.handlesFrom_eq (h : it.Tracks s low) (hmax : s.MaxRight) :
    s.mMaxHandle < it.mHandleIndex ∧ s.handlesFrom low = [] ∨
      it.mHandleIndex ≤ s.mMaxHandle ∧
        s.handlesFrom low = it.mHandleIndex :: s.handlesFrom (it.mHandleIndex + 1) := by
  have hleast (g : ℤ) (hg : s.has g = true) (hlow : low ≤ g) : it.mHandleIndex ≤ g :=
    h.least g (hmax.le hg) hlow hg
  rcases lt_or_ge s.mMaxHandle it.mHandleIndex with hend | hle
  · refine .inl ⟨hend, eq_nil_iff_forall_not_mem.mpr fun g hg => ?_⟩
    obtain ⟨hhas, hlow⟩ := mem_handlesFrom.mp hg
    have := hleast g hhas hlow
    have := hmax.le hhas
    omega
  · have hahead := h.valid.resolve_right (by omega)
    exact .inr ⟨hle, handlesFrom_eq_cons (h.copied _ hahead.holds) h.low_le hleast⟩

theorem Tracks.results_eq (h : it.Tracks s low) (hmax : s.MaxRight) (n : ℕ) :
    results s n it = (range n).map fun k => (s.handlesFrom low).getD k (-1) := by
  induction n generalizing it low with
  | zero => rfl
  | succ n ih =>
    rw [results, range_succ_eq_map, map_cons, map_map]
    rcases h.handlesFrom_eq hmax with ⟨hend, hnil⟩ | ⟨hle, hcons⟩
    · rw [next_of_max_lt hend, ih h, hnil]
      rfl
    · obtain ⟨hfirst, hnext⟩ := h.next hle
      rw [hfirst, ih hnext, hcons, getD_cons_zero]
      simp only [Function.comp_def, Nat.succ_eq_add_one, getD_cons_succ]

theorem results_new (hmax : s.MaxRight) (n : ℕ) :
    results s n (new s) = (range n).map fun k => s.handles.getD k (-1) := by
  rw [(tracks_new hmax).results_eq hmax, handlesFrom_zero]

end HandleSetIterator

/-- A change of a set: by one of its methods, or of the array by `select`, followed by `sync`. -/
inductive SetOperation where
  | setBit (handle : ℤ)
  | clrBit (handle : ℤ)
  | reset
  | select (mask : BitWords 64 16) (max : ℤ)

def SetOperation.Allowed : SetOperation → Prop
  | setBit handle => 0 ≤ handle ∧ handle < 1024
  | clrBit handle => 0 ≤ handle ∧ handle < 1024
  | reset => True
  | select mask max => max ≤ 1024 ∧ ∀ i : ℕ, mask.bit i = true → (i : ℤ) < max

namespace HandleSet

def change (s : HandleSet) : SetOperation → Except Fault HandleSet
  | .setBit handle => s.setBit handle
  | .clrBit handle => s.clrBit handle
  | .reset => .ok reset
  | .select mask max => { s with mMask := mask }.sync max

/-- The number of the handles and the greatest one are right, and an iterator returns the handles
in increasing order and then the invalid handle. -/
structure Right (s : HandleSet) : Prop where
  exact : s.Exact
  listed : ∀ n, HandleSetIterator.results s n (.new s) =
    (range n).map fun k => s.handles.getD k (-1)

variable {s : HandleSet}

theorem Exact.right (hs : s.Exact) : s.Right :=
  ⟨hs, HandleSetIterator.results_new hs.max⟩

def InLowHalves : SetOperation → Prop
  | .select mask _ => ∀ i, mask.bit i = true → inLowHalf i = true
  | _ => True

theorem Exact.change (hs : s.Exact) {op : SetOperation} (hop : op.Allowed) :
    ∃ s', s.change op = .ok s' ∧ (s'.Exact ↔ InLowHalves op) := by
  cases op with
  | setBit handle =>
    obtain ⟨s', hs', hexact⟩ := hs.exists_setBit hop
    exact ⟨s', hs', iff_of_true hexact trivial⟩
  | clrBit handle =>
    obtain ⟨s', hs', hexact⟩ := hs.exists_clrBit hop
    exact ⟨s', hs', iff_of_true hexact trivial⟩
  | reset => exact ⟨_, rfl, iff_of_true exact_reset trivial⟩
  | select mask max =>
    obtain ⟨s', hs', -, hiff⟩ := exists_sync_exact_iff (s := { s with mMask := mask }) hop.1
      fun g hg => by
        obtain ⟨i, -, rfl⟩ := exists_of_has hg
        exact hop.2 i (by rwa [has_natCast] at hg)
    exact ⟨s', hs', hiff⟩

theorem Exact.right_iff (hs : s.Exact) {ops : List SetOperation}
    (hops : ∀ op ∈ ops, op.Allowed) :
    (∀ n, ∃ s', runSteps HandleSet.change s (ops.take n) = .ok s' ∧ s'.Right) ↔
      ∀ op ∈ ops, InLowHalves op := by
  induction ops generalizing s with
  | nil => exact iff_of_true (fun n => ⟨s, by rw [take_nil]; rfl, hs.right⟩) nofun
  | cons op ops ih =>
    obtain ⟨hop, hrest⟩ := forall_mem_cons.mp hops
    obtain ⟨s₁, hs₁, hiff⟩ := hs.change hop
    have hstep (n : ℕ) : runSteps HandleSet.change s ((op :: ops).take (n + 1)) =
        runSteps HandleSet.change s₁ (ops.take n) := by
      rw [take_succ_cons, runSteps, hs₁]
    rw [forall_mem_cons, ← hiff]
    constructor
    · intro hall
      have hexact : s₁.Exact := by
        obtain ⟨s', hs', hright⟩ := hall 1
        rw [hstep, take_zero] at hs'
        exact Except.ok.inj hs' ▸ hright.exact
      refine ⟨hexact, (ih hexact hrest).mp fun n => ?_⟩
      rw [← hstep]
      exact hall (n + 1)
    · rintro ⟨hexact, hlow⟩ n
      cases n with
      | zero => exact ⟨s, rfl, hs.right⟩
      | succ n =>
        rw [hstep]
        exact (ih hexact hrest).mpr hlow n

end HandleSet

end Icm.Reactor
