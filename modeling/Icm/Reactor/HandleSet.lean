import Icm.Lib.BitWords
import Icm.Lib.Run

/-!
# Sets of handles and their iterator

The classes `HandleSet` and `HandleSetIterator` of `icc/HandleSet.cpp`, on a platform whose words
have 64 bits: `MAXSIZE` is 1024, `WORDSIZE` is 64 and `NUM_WORDS` is 16.
-/

namespace Icm.Reactor

open Icm.Lib BitWords

inductive Fault where
  | outOfBounds
deriving DecidableEq

structure HandleSet where
  mSize : ℤ
  mMask : BitWords 64 16
  mMaxHandle : ℤ
  invalid_le : -1 ≤ mMaxHandle
  max_lt : mMaxHandle < 1024
deriving DecidableEq

namespace HandleSet

def nbits : List ℕ :=
  [0, 1, 1, 2, 1, 2, 2, 3, 1, 2, 2, 3, 2, 3, 3, 4,
   1, 2, 2, 3, 2, 3, 3, 4, 2, 3, 3, 4, 3, 4, 4, 5,
   1, 2, 2, 3, 2, 3, 3, 4, 2, 3, 3, 4, 3, 4, 4, 5,
   2, 3, 3, 4, 3, 4, 4, 5, 3, 4, 4, 5, 4, 5, 5, 6,
   1, 2, 2, 3, 2, 3, 3, 4, 2, 3, 3, 4, 3, 4, 4, 5,
   2, 3, 3, 4, 3, 4, 4, 5, 3, 4, 4, 5, 4, 5, 5, 6,
   2, 3, 3, 4, 3, 4, 4, 5, 3, 4, 4, 5, 4, 5, 5, 6,
   3, 4, 4, 5, 4, 5, 5, 6, 4, 5, 5, 6, 5, 6, 6, 7,
   1, 2, 2, 3, 2, 3, 3, 4, 2, 3, 3, 4, 3, 4, 4, 5,
   2, 3, 3, 4, 3, 4, 4, 5, 3, 4, 4, 5, 4, 5, 5, 6,
   2, 3, 3, 4, 3, 4, 4, 5, 3, 4, 4, 5, 4, 5, 5, 6,
   3, 4, 4, 5, 4, 5, 5, 6, 4, 5, 5, 6, 5, 6, 6, 7,
   2, 3, 3, 4, 3, 4, 4, 5, 3, 4, 4, 5, 4, 5, 5, 6,
   3, 4, 4, 5, 4, 5, 5, 6, 4, 5, 5, 6, 5, 6, 6, 7,
   3, 4, 4, 5, 4, 5, 5, 6, 4, 5, 5, 6, 5, 6, 6, 7,
   4, 5, 5, 6, 5, 6, 6, 7, 5, 6, 6, 7, 6, 7, 7, 8]

def countBits (n : BitVec 64) : ℕ :=
  nbits.getD (n &&& 0xff).toNat 0 + nbits.getD (n >>> 8 &&& 0xff).toNat 0 +
    nbits.getD (n >>> 16 &&& 0xff).toNat 0 + nbits.getD (n >>> 24 &&& 0xff).toNat 0

def reset : HandleSet where
  mSize := 0
  mMask := .empty
  mMaxHandle := -1
  invalid_le := le_rfl
  max_lt := by decide

variable (s : HandleSet)

def has (handle : ℤ) : Bool := decide (0 ≤ handle) && s.mMask.bit handle.toNat

def isSet (handle : ℤ) : Except Fault Bool :=
  if 0 ≤ handle ∧ handle < 1024 then .ok (s.has handle) else .error .outOfBounds

def word (i : ℕ) : Except Fault (BitVec 64) :=
  if h : i < 16 then .ok (s.mMask.word ⟨i, h⟩) else .error .outOfBounds

def lastWord : ℕ → Except Fault (ℕ × BitVec 64)
  | 0 => .error .outOfBounds
  | i + 1 => do
    let v ← s.word i
    if v = 0#64 then lastWord i else .ok (i, v)

def withMax (handle : ℕ) : HandleSet :=
  { s with
    mMaxHandle := if 1024 ≤ handle then 1023 else handle
    invalid_le := by split_ifs <;> omega
    max_lt := by split_ifs <;> omega }

def wordsBelow (max : ℤ) : ℕ := ((max - 1).tdiv 64 + 1).toNat

def setMax (currentMax : ℤ) : Except Fault HandleSet :=
  if s.mSize = 0 then
    .ok { s with mMaxHandle := -1, invalid_le := le_rfl, max_lt := by decide }
  else do
    let (i, v) ← s.lastWord (wordsBelow currentMax)
    .ok (s.withMax (64 * i + topBit 64 v))

def countWords : ℕ → Except Fault ℤ
  | 0 => .ok 0
  | i + 1 => do
    let v ← s.word i
    let rest ← countWords i
    .ok (countBits v + rest)

def sync (max : ℤ) : Except Fault HandleSet := do
  let mSize ← s.countWords (wordsBelow max)
  { s with mSize }.setMax max

def setBit (handle : ℤ) : Except Fault HandleSet :=
  if h : 0 ≤ handle ∧ handle < 1024 then
    if s.has handle then .ok s
    else .ok
      { mSize := s.mSize + 1
        mMask := s.mMask.insert handle.toNat
        mMaxHandle := if handle > s.mMaxHandle then handle else s.mMaxHandle
        invalid_le := by have := s.invalid_le; split_ifs <;> omega
        max_lt := by have := s.max_lt; split_ifs <;> omega }
  else .error .outOfBounds

def erase (handle : ℤ) : HandleSet :=
  { s with mMask := s.mMask.erase handle.toNat, mSize := s.mSize - 1 }

def clrBit (handle : ℤ) : Except Fault HandleSet :=
  if handle = -1 then .ok s
  else do
    let set ← s.isSet handle
    if set then
      if handle = s.mMaxHandle then (s.erase handle).setMax s.mMaxHandle else .ok (s.erase handle)
    else .ok s

def fdset : Option (BitWords 64 16) := if s.mSize > 0 then some s.mMask else none

end HandleSet

structure HandleSetIterator where
  mHandleIndex : ℤ
  mWordNum : ℤ
  mWordVal : BitVec 64
deriving DecidableEq

namespace HandleSet

variable (s : HandleSet)

theorem word_lt {i : ℕ} (h : (64 * i : ℤ) < s.mMaxHandle + 1) : i < 16 := by
  have := s.max_lt
  omega

/-- The loop over words: the first word from one on that is not zero, unless all further words are
above the greatest handle. The first number counts the turns that may be made. -/
def skipWords : ℕ → ℕ → ℕ
  | 0, i => i
  | t + 1, i =>
    if h : (64 * i : ℤ) < s.mMaxHandle + 1 then
      if s.mMask.word ⟨i, s.word_lt h⟩ = 0#64 then skipWords t (i + 1) else i
    else i

end HandleSet

namespace HandleSetIterator

def new (s : HandleSet) : HandleSetIterator :=
  let i := s.skipWords 17 0
  if h : (64 * i : ℤ) < s.mMaxHandle + 1 then
    let (v, handle) := toLowBit (fun handle => decide (handle < s.mMaxHandle + 1)) 64
      (s.mMask.word ⟨i, s.word_lt h⟩) (64 * i)
    ⟨handle, i, v⟩
  else ⟨s.mMaxHandle + 1, i - 1, 0#64⟩

def next (it : HandleSetIterator) (s : HandleSet) : ℤ × HandleSetIterator :=
  if s.mMaxHandle + 1 ≤ it.mHandleIndex then (-1, it)
  else
    let result := it.mHandleIndex
    let rest := halve it.mWordVal
    if rest = 0#64 then
      let i := s.skipWords 17 (it.mWordNum + 1).toNat
      if h : (64 * i : ℤ) < s.mMaxHandle + 1 then
        let (v, handle) := toLowBit (fun _ => true) 64 (s.mMask.word ⟨i, s.word_lt h⟩) (64 * i)
        (result, ⟨handle, i, v⟩)
      else (result, ⟨s.mMaxHandle + 1, i, rest⟩)
    else
      let (v, handle) := toLowBit (fun _ => true) 64 rest (result + 1)
      (result, ⟨handle, it.mWordNum, v⟩)

end HandleSetIterator

namespace HandleSet

variable {s s' : HandleSet} {handle : ℤ}

def CanYield (s : HandleSet) : Prop := ∃ handle ≤ s.mMaxHandle, s.has handle = true

def MaxKnown (s : HandleSet) : Prop :=
  s.mMaxHandle = -1 ∨ ∀ handle, s.has handle = true → handle ≤ s.mMaxHandle

theorem has_natCast (i : ℕ) : s.has i = s.mMask.bit i := by simp [has]

theorem exists_of_has (h : s.has handle = true) : ∃ i < 1024, handle = (i : ℕ) := by
  obtain ⟨hnonneg, hbit⟩ := Bool.and_eq_true_iff.mp h
  have hlt := lt_of_bit hbit
  have hnonneg := of_decide_eq_true hnonneg
  exact ⟨handle.toNat, hlt, by omega⟩

theorem not_canYield_of_max (h : s.mMaxHandle = -1) : ¬ s.CanYield := by
  rintro ⟨g, hle, hhas⟩
  obtain ⟨i, -, rfl⟩ := exists_of_has hhas
  omega

@[simp] theorem has_reset : reset.has handle = false := by simp [has, reset]

theorem isSet_eq_ok {b : Bool} :
    s.isSet handle = .ok b ↔ (0 ≤ handle ∧ handle < 1024) ∧ s.has handle = b := by
  rw [isSet]
  split_ifs with h <;> simp [h]

theorem has_of_setBit (h : s.setBit handle = .ok s') :
    (0 ≤ handle ∧ handle < 1024) ∧ ∀ g, s'.has g = (decide (g = handle) || s.has g) := by
  rw [setBit] at h
  by_cases hrange : 0 ≤ handle ∧ handle < 1024
  · refine ⟨hrange, fun g => ?_⟩
    rw [dif_pos hrange] at h
    by_cases hset : s.has handle = true
    · obtain rfl := Except.ok.inj ((if_pos hset).symm.trans h)
      by_cases hg : g = handle
      · rw [hg, hset, Bool.or_true]
      · rw [decide_eq_false hg, Bool.false_or]
    · obtain rfl := Except.ok.inj ((if_neg hset).symm.trans h)
      by_cases hg : 0 ≤ g
      · have hiff : g.toNat = handle.toNat ↔ g = handle := by omega
        simp only [has, bit_insert (show handle.toNat < 64 * 16 by omega), hg, hiff,
          decide_true, Bool.true_and]
      · have hne : g ≠ handle := by omega
        simp only [has, hg, hne, decide_false, Bool.false_and, Bool.or_self]
  · rw [dif_neg hrange] at h
    cases h

theorem has_erase (hnonneg : 0 ≤ handle) (g : ℤ) :
    (s.erase handle).has g = (s.has g && decide (g ≠ handle)) := by
  by_cases hg : 0 ≤ g
  · have hiff : g.toNat ≠ handle.toNat ↔ g ≠ handle := by omega
    simp only [has, erase, bit_erase, hg, hiff, decide_true, Bool.true_and]
  · simp only [has, hg, decide_false, Bool.false_and]

theorem word_eq_ok {i : ℕ} {v : BitVec 64} :
    s.word i = .ok v ↔ ∃ h : i < 16, s.mMask.word ⟨i, h⟩ = v := by
  rw [word]
  split_ifs with h <;> simp [h]

theorem lastWord_spec {n i : ℕ} {v : BitVec 64} (h : s.lastWord n = .ok (i, v)) :
    s.mMask.bit (64 * i + topBit 64 v) = true ∧
      ∀ j < 64 * n, s.mMask.bit j = true → j ≤ 64 * i + topBit 64 v := by
  induction n with
  | zero => cases h
  | succ n ih =>
    obtain ⟨u, hu, h⟩ := bind_eq_ok.mp h
    obtain ⟨hn, rfl⟩ := word_eq_ok.mp hu
    split_ifs at h with hzero
    · obtain ⟨hset, hmax⟩ := ih h
      refine ⟨hset, fun j hj hbit => hmax j ?_ hbit⟩
      by_contra hge
      refine absurd hzero (word_ne_zero_iff.mpr ⟨j - 64 * n, by omega, ?_⟩)
      rwa [show 64 * n + (j - 64 * n) = j by omega]
    · obtain ⟨rfl, rfl⟩ := Prod.mk.inj (Except.ok.inj h)
      have hset := getLsbD_topBit hzero
      refine ⟨?_, fun j hj hbit => ?_⟩
      · rwa [bit_word ⟨n, hn⟩ (BitVec.lt_of_getLsbD hset)]
      · by_cases hlow : j < 64 * n
        · omega
        · have hj' : j = 64 * n + (j - 64 * n) := by omega
          rw [hj', bit_word ⟨n, hn⟩ (by omega)] at hbit
          have := le_topBit hbit
          omega

theorem exists_lastWord {n j : ℕ} (hn : n ≤ 16) (hj : j < 64 * n)
    (hbit : s.mMask.bit j = true) : ∃ p, s.lastWord n = .ok p := by
  induction n with
  | zero => omega
  | succ n ih =>
    rw [lastWord, word, dif_pos (by omega)]
    by_cases hzero : s.mMask.word ⟨n, by omega⟩ = 0#64
    · have hlow : j < 64 * n := by
        by_contra hge
        refine absurd hzero (word_ne_zero_iff.mpr ⟨j - 64 * n, by omega, ?_⟩)
        rwa [show 64 * n + (j - 64 * n) = j by omega]
      obtain ⟨p, hp⟩ := ih (by omega) hlow
      exact ⟨p, (if_pos hzero).trans hp⟩
    · exact ⟨_, if_neg hzero⟩

theorem setMax_spec {currentMax : ℤ} (h : s.setMax currentMax = .ok s') :
    s'.mMask = s.mMask ∧ (s'.mMaxHandle = -1 ∨ s.has s'.mMaxHandle = true ∧
      ∀ g < (64 * wordsBelow currentMax : ℤ), s.has g = true → g ≤ s'.mMaxHandle) := by
  rw [setMax] at h
  by_cases hsize : s.mSize = 0
  · obtain rfl := Except.ok.inj ((if_pos hsize).symm.trans h)
    exact ⟨rfl, .inl rfl⟩
  · rw [if_neg hsize] at h
    obtain ⟨⟨i, v⟩, hlast, h⟩ := bind_eq_ok.mp h
    cases h
    obtain ⟨hset, hmax⟩ := lastWord_spec hlast
    have hlt := lt_of_bit hset
    have heq : (s.withMax (64 * i + topBit 64 v)).mMaxHandle = (64 * i + topBit 64 v : ℕ) :=
      if_neg (by omega)
    refine ⟨rfl, .inr ⟨by rwa [heq, has_natCast], fun g hg hhas => ?_⟩⟩
    obtain ⟨j, -, rfl⟩ := exists_of_has hhas
    rw [has_natCast] at hhas
    have := hmax j (by omega) hhas
    omega

theorem lt_wordsBelow {g max : ℤ} (hg : 0 ≤ g) (h : g < max) : g < 64 * wordsBelow max := by
  have hdiv : (max - 1).tdiv 64 = (max - 1) / 64 := Int.tdiv_eq_ediv_of_nonneg (by omega)
  rw [wordsBelow, hdiv]
  omega

theorem wordsBelow_le {max : ℤ} (h : max ≤ 1024) : wordsBelow max ≤ 16 := by
  rw [wordsBelow]
  have hdiv : (max - 1).tdiv 64 ≤ 15 :=
    Int.tdiv_le_tdiv (by omega) (show max - 1 ≤ 1023 by omega)
  omega

section

variable (h : s.clrBit handle = .ok s')
include h

theorem clrBit_cases :
    s' = s ∧ s.has handle = false ∨
      s.has handle = true ∧ (handle ≠ s.mMaxHandle ∧ s' = s.erase handle ∨
        handle = s.mMaxHandle ∧ (s.erase handle).setMax s.mMaxHandle = .ok s') := by
  rw [clrBit] at h
  by_cases hinv : handle = -1
  · obtain rfl := Except.ok.inj ((if_pos hinv).symm.trans h)
    exact .inl ⟨rfl, by simp [hinv, has]⟩
  · rw [if_neg hinv] at h
    obtain ⟨set, hset, h⟩ := bind_eq_ok.mp h
    obtain ⟨-, rfl⟩ := isSet_eq_ok.mp hset
    by_cases hhas : s.has handle = true
    · rw [if_pos hhas] at h
      by_cases hmax : handle = s.mMaxHandle
      · exact .inr ⟨hhas, .inr ⟨hmax, (if_pos hmax).symm.trans h⟩⟩
      · exact .inr ⟨hhas, .inl ⟨hmax, (Except.ok.inj ((if_neg hmax).symm.trans h)).symm⟩⟩
    · exact .inl ⟨(Except.ok.inj ((if_neg hhas).symm.trans h)).symm,
        Bool.eq_false_of_not_eq_true hhas⟩

theorem has_of_clrBit (g : ℤ) :
    s'.has g = (s.has g && decide (g ≠ handle)) := by
  rcases clrBit_cases h with ⟨rfl, hoff⟩ | ⟨hhas, ⟨-, rfl⟩ | ⟨-, hset⟩⟩
  · by_cases hg : g = handle
    · simp [hg, hoff]
    · simp [hg]
  · obtain ⟨i, -, rfl⟩ := exists_of_has hhas
    exact has_erase (by omega) g
  · obtain ⟨i, -, rfl⟩ := exists_of_has hhas
    have hmask := (setMax_spec hset).1
    rw [← has_erase (by omega) g, has, hmask, has]

theorem not_canYield_of_clrBit (hs : ¬ s.CanYield) :
    ¬ s'.CanYield := by
  have hmax : s'.mMaxHandle = s.mMaxHandle := by
    rcases clrBit_cases h with ⟨rfl, -⟩ | ⟨hhas, ⟨-, rfl⟩ | ⟨heq, -⟩⟩
    · rfl
    · rfl
    · exact absurd ⟨handle, heq.le, hhas⟩ hs
  rintro ⟨g, hle, hhas⟩
  rw [has_of_clrBit h, Bool.and_eq_true] at hhas
  exact hs ⟨g, hmax ▸ hle, hhas.1⟩

end

theorem MaxKnown.clrBit (hs : s.MaxKnown) (h : s.clrBit handle = .ok s') :
    s'.MaxKnown ∧ s'.mMaxHandle ≤ s.mMaxHandle := by
  have hbits := has_of_clrBit h
  rcases clrBit_cases h with ⟨rfl, -⟩ | ⟨hhas, ⟨-, rfl⟩ | ⟨rfl, hset⟩⟩
  · exact ⟨hs, le_rfl⟩
  · refine ⟨hs.imp id fun hmax g hg => hmax g ?_, le_rfl⟩
    rw [hbits, Bool.and_eq_true] at hg
    exact hg.1
  · obtain ⟨i, -, hi⟩ := exists_of_has hhas
    have hmax := hs.resolve_left (by omega)
    have herase := has_erase (s := s) (show 0 ≤ s.mMaxHandle by omega)
    rcases (setMax_spec hset).2 with hnone | ⟨hnew, hbelow⟩
    · exact ⟨.inl hnone, by omega⟩
    · rw [herase, Bool.and_eq_true] at hnew
      refine ⟨.inr fun g hg => ?_, hmax _ hnew.1⟩
      rw [hbits, ← herase] at hg
      refine hbelow g (lt_wordsBelow ?_ ?_) hg
      · obtain ⟨j, -, rfl⟩ := exists_of_has hg
        omega
      · rw [herase, Bool.and_eq_true, decide_eq_true_eq] at hg
        exact lt_of_le_of_ne (hmax g hg.1) hg.2

structure Narrows (asked : Bool) (handle : ℤ) (s s' : HandleSet) : Prop where
  has_iff : ∀ g, s'.has g = true ↔ s.has g = true ∧ ¬ (asked = true ∧ g = handle)
  canYield : s'.CanYield → s.CanYield
  maxKnown : s.MaxKnown → s'.MaxKnown ∧ s'.mMaxHandle ≤ s.mMaxHandle

theorem narrows_of_clrBit {c : Bool} (h : (if c then s.clrBit handle else .ok s) = .ok s') :
    Narrows c handle s s' := by
  cases c with
  | false =>
    cases h
    exact ⟨by simp, id, fun hs => ⟨hs, le_rfl⟩⟩
  | true =>
    refine ⟨fun g => ?_, fun hs' => ?_, fun hs => hs.clrBit h⟩
    · rw [has_of_clrBit h, Bool.and_eq_true, decide_eq_true_eq, and_iff_right rfl]
    · by_contra hs
      exact not_canYield_of_clrBit h hs hs'

theorem countBits_zero : countBits 0#64 = 0 := by decide

theorem exists_countWords {n : ℕ} (hn : n ≤ 16) :
    ∃ c, s.countWords n = .ok c ∧ (c ≠ 0 → ∃ j < 64 * n, s.mMask.bit j = true) := by
  induction n with
  | zero => exact ⟨0, rfl, fun h => absurd rfl h⟩
  | succ n ih =>
    obtain ⟨c, hc, hbit⟩ := ih (by omega)
    refine ⟨countBits (s.mMask.word ⟨n, by omega⟩) + c, ?_, fun hne => ?_⟩
    · rw [countWords, word, dif_pos (by omega), hc]
      rfl
    · by_cases hzero : s.mMask.word ⟨n, by omega⟩ = 0#64
      · rw [hzero, countBits_zero] at hne
        obtain ⟨j, hj, hset⟩ := hbit (by simpa using hne)
        exact ⟨j, by omega, hset⟩
      · obtain ⟨j, hj, hset⟩ := word_ne_zero_iff.mp hzero
        exact ⟨64 * n + j, by omega, hset⟩

theorem exists_sync {max : ℤ} (hmax : max ≤ 1024) :
    ∃ s', s.sync max = .ok s' ∧ s'.mMask = s.mMask ∧
      ((∀ g, s.has g = true → g < max) → s'.MaxKnown) := by
  obtain ⟨c, hc, hbit⟩ := exists_countWords (s := s) (wordsBelow_le hmax)
  have hex : ∃ s', ({ s with mSize := c } : HandleSet).setMax max = .ok s' := by
    rw [setMax]
    by_cases hzero : c = 0
    · exact ⟨_, if_pos hzero⟩
    · obtain ⟨j, hj, hset⟩ := hbit hzero
      obtain ⟨p, hp⟩ := exists_lastWord (s := { s with mSize := c }) (wordsBelow_le hmax) hj hset
      exact ⟨_, (if_neg hzero).trans (bind_eq_ok.mpr ⟨p, hp, rfl⟩)⟩
  obtain ⟨s', hs'⟩ := hex
  obtain ⟨hmask, hspec⟩ := setMax_spec hs'
  refine ⟨s', bind_eq_ok.mpr ⟨c, hc, hs'⟩, hmask, fun hlt => ?_⟩
  refine hspec.imp id fun ⟨_, hbelow⟩ g hg => ?_
  have hg' : s.has g = true := by rwa [has, hmask] at hg
  obtain ⟨j, -, rfl⟩ := exists_of_has hg'
  exact hbelow j (lt_wordsBelow (by omega) (hlt _ hg')) hg'

end HandleSet

namespace HandleSet

variable {s : HandleSet}

theorem skipWords_spec (t i : ℕ) (ht : 16 < i + t) :
    i ≤ s.skipWords t i ∧ (∀ j, 64 * i ≤ j → j < 64 * s.skipWords t i → s.mMask.bit j = false) ∧
      ∀ h : (64 * s.skipWords t i : ℤ) < s.mMaxHandle + 1,
        s.mMask.word ⟨s.skipWords t i, s.word_lt h⟩ ≠ 0#64 := by
  induction t generalizing i with
  | zero =>
    rw [skipWords]
    refine ⟨le_rfl, fun j hle hlt => by omega, fun h => ?_⟩
    have := s.word_lt h
    omega
  | succ t ih =>
    rw [skipWords]
    split_ifs with hlt hzero
    · obtain ⟨hle, hclear, hstop⟩ := ih (i + 1) (by omega)
      refine ⟨by omega, fun j hlow hhigh => ?_, hstop⟩
      by_cases hj : j < 64 * (i + 1)
      · by_contra hset
        refine absurd hzero (word_ne_zero_iff.mpr ⟨j - 64 * i, by omega, ?_⟩)
        rw [show 64 * i + (j - 64 * i) = j by omega]
        exact Bool.eq_true_of_not_eq_false hset
      · exact hclear j (by omega) hhigh
    · exact ⟨le_rfl, fun j hlow hhigh => by omega, fun _ => hzero⟩
    · exact ⟨le_rfl, fun j hlow hhigh => by omega, fun h => absurd h hlt⟩

end HandleSet

namespace HandleSetIterator

variable {it : HandleSetIterator} {s : HandleSet} {handle : ℤ}

def Holds (it : HandleSetIterator) (handle : ℤ) : Prop :=
  it.mHandleIndex ≤ handle ∧ it.mWordVal.getLsbD (handle - it.mHandleIndex).toNat = true

structure Ahead (it : HandleSetIterator) : Prop where
  nonneg : 0 ≤ it.mHandleIndex
  wordNum : it.mWordNum = it.mHandleIndex / 64
  low : it.mWordVal.getLsbD 0 = true
  lt : ∀ j, it.mWordVal.getLsbD j = true → it.mHandleIndex % 64 + j < 64

def Valid (it : HandleSetIterator) (s : HandleSet) : Prop :=
  it.Ahead ∨ s.mMaxHandle < it.mHandleIndex

theorem Ahead.holds (h : it.Ahead) : it.Holds it.mHandleIndex := ⟨le_rfl, by simp [h.low]⟩

theorem Valid.mono {s' : HandleSet} (h : it.Valid s) (hle : s'.mMaxHandle ≤ s.mMaxHandle) :
    it.Valid s' :=
  h.imp id hle.trans_lt

theorem ahead_of_word {i k : ℕ} {u v : BitVec 64} (hset : u.getLsbD k = true)
    (hbits : ∀ j, v.getLsbD j = u.getLsbD (k + j)) : Ahead ⟨64 * i + k, i, v⟩ where
  nonneg := by dsimp only; omega
  wordNum := by
    have := BitVec.lt_of_getLsbD hset
    dsimp only
    omega
  low := by rw [hbits, Nat.add_zero, hset]
  lt j hj := by
    rw [hbits] at hj
    have := BitVec.lt_of_getLsbD hj
    dsimp only
    omega

variable {v : BitVec 64}

theorem has_of_word {i k : ℕ} (hi : i < 16)
    (hbits : ∀ j, v.getLsbD j = (s.mMask.word ⟨i, hi⟩).getLsbD (k + j))
    (h : Holds ⟨64 * i + k, i, v⟩ handle) : s.has handle = true := by
  obtain ⟨hle, hbit⟩ := h
  dsimp only at hle hbit
  rw [hbits] at hbit
  have hlt := BitVec.lt_of_getLsbD hbit
  rw [← bit_word ⟨i, hi⟩ hlt, ← HandleSet.has_natCast] at hbit
  rwa [show ((64 * i + (k + (handle - (64 * i + k : ℤ)).toNat) : ℕ) : ℤ) = handle by omega] at hbit

theorem new_cases (s : HandleSet) :
    (∃ (i k : ℕ) (v : BitVec 64) (hi : i < 16), new s = ⟨64 * i + k, i, v⟩ ∧
      (∀ j < 64 * i, s.mMask.bit j = false) ∧
      (∀ j, v.getLsbD j = (s.mMask.word ⟨i, hi⟩).getLsbD (k + j)) ∧
      (∀ j < k, (s.mMask.word ⟨i, hi⟩).getLsbD j = false) ∧ s.mMask.word ⟨i, hi⟩ ≠ 0#64 ∧
      ((s.mMask.word ⟨i, hi⟩).getLsbD k = true ∨ s.mMaxHandle < 64 * i + k)) ∨
    ∃ i : ℕ, new s = ⟨s.mMaxHandle + 1, i - 1, 0#64⟩ ∧ s.mMaxHandle < 64 * i ∧
      ∀ j < 64 * i, s.mMask.bit j = false := by
  obtain ⟨-, hclear, hstop⟩ := HandleSet.skipWords_spec (s := s) 17 0 (by omega)
  rw [new]
  dsimp only
  generalize s.skipWords 17 0 = i at hclear hstop
  split_ifs with hlt
  · have hne := hstop hlt
    obtain ⟨k, -, hnum, hbits, hskip, hend⟩ := toLowBit_spec
      (fun handle => decide (handle < s.mMaxHandle + 1)) 64 (s.mMask.word ⟨i, s.word_lt hlt⟩)
      (64 * i)
    generalize toLowBit _ 64 (s.mMask.word ⟨i, s.word_lt hlt⟩) (64 * i) = p at hnum hbits
    obtain ⟨v, idx⟩ := p
    dsimp only at hnum hbits ⊢
    subst hnum
    refine .inl ⟨i, k, v, s.word_lt hlt, rfl, fun j hj => hclear j (by omega) hj, hbits, hskip, hne,
      ?_⟩
    rcases hend with rfl | hset | hmax
    · exact absurd (BitVec.eq_of_getLsbD_eq fun j hj =>
        (hskip j hj).trans BitVec.getLsbD_zero.symm) hne
    · exact .inl hset
    · have := of_decide_eq_false hmax
      exact .inr (by omega)
  · exact .inr ⟨i, rfl, by omega, fun j hj => hclear j (by omega) hj⟩

theorem le_of_has {i : ℕ} (hclear : ∀ j < 64 * i, s.mMask.bit j = false)
    (h : s.has handle = true) : (64 * i : ℤ) ≤ handle := by
  obtain ⟨j, -, rfl⟩ := HandleSet.exists_of_has h
  by_contra hlt
  rw [HandleSet.has_natCast, hclear j (by omega)] at h
  cases h

theorem le_of_has_of_word {i k : ℕ} (hi : i < 16)
    (hskip : ∀ j < k, (s.mMask.word ⟨i, hi⟩).getLsbD j = false) (hk : k ≤ 64)
    (hle : (64 * i : ℤ) ≤ handle) (h : s.has handle = true) : (64 * i + k : ℤ) ≤ handle := by
  obtain ⟨j, -, rfl⟩ := HandleSet.exists_of_has h
  by_contra hlt
  rw [HandleSet.has_natCast, show j = 64 * i + (j - 64 * i) by omega,
    bit_word ⟨i, hi⟩ (by omega), hskip _ (by omega)] at h
  cases h

theorem new_spec (s : HandleSet) :
    (new s).Valid s ∧ 0 ≤ (new s).mHandleIndex ∧ (∀ g, (new s).Holds g → s.has g = true) ∧
      ((new s).mHandleIndex ≤ s.mMaxHandle ↔ s.CanYield) := by
  have hinv := s.invalid_le
  rcases new_cases s with ⟨i, k, v, hi, hnew, hclear, hbits, hskip, hne, hfound⟩ |
    ⟨i, hnew, hmax, hclear⟩ <;> rw [hnew]
  · refine ⟨hfound.imp (fun hset => ahead_of_word hset hbits) id, by dsimp only; omega,
      fun g hg => has_of_word hi hbits hg, fun hle => ?_, ?_⟩
    · have hset := hfound.resolve_right (not_lt.mpr hle)
      rw [← bit_word ⟨i, hi⟩ (BitVec.lt_of_getLsbD hset)] at hset
      exact ⟨(64 * i + k : ℕ), by push_cast; exact hle, by rwa [HandleSet.has_natCast]⟩
    · rintro ⟨g, hle, hhas⟩
      have hk : k ≤ 64 := by
        obtain ⟨j, hj, hbit⟩ := word_ne_zero_iff.mp hne
        rw [bit_word ⟨i, hi⟩ hj] at hbit
        by_contra hlt
        rw [hskip j (by omega)] at hbit
        cases hbit
      exact (le_of_has_of_word hi hskip hk (le_of_has hclear hhas) hhas).trans hle
  · refine ⟨.inr (by dsimp only; omega), by dsimp only; omega, fun g hg => ?_,
      fun hle => ?_, ?_⟩
    · simp [Holds] at hg
    · dsimp only at hle
      omega
    · rintro ⟨g, hle, hhas⟩
      have := le_of_has hclear hhas
      omega

theorem next_cases (hahead : it.Ahead) (hle : it.mHandleIndex ≤ s.mMaxHandle) :
    (∃ (k : ℕ) (v : BitVec 64),
      it.next s = (it.mHandleIndex, ⟨it.mHandleIndex + 1 + k, it.mWordNum, v⟩) ∧
      it.mWordVal.getLsbD (k + 1) = true ∧ (∀ j, v.getLsbD j = it.mWordVal.getLsbD (k + j + 1)) ∧
      ∀ j < k, it.mWordVal.getLsbD (j + 1) = false) ∨
    (∀ j, it.mWordVal.getLsbD (j + 1) = false) ∧ ∃ i : ℕ, it.mWordNum + 1 ≤ i ∧
      (∀ j : ℕ, 64 * (it.mWordNum + 1) ≤ j → j < 64 * i → s.mMask.bit j = false) ∧
      ((∃ (k : ℕ) (v : BitVec 64) (hi : i < 16),
          it.next s = (it.mHandleIndex, ⟨64 * i + k, i, v⟩) ∧
          (s.mMask.word ⟨i, hi⟩).getLsbD k = true ∧
          (∀ j, v.getLsbD j = (s.mMask.word ⟨i, hi⟩).getLsbD (k + j)) ∧
          ∀ j < k, (s.mMask.word ⟨i, hi⟩).getLsbD j = false) ∨
        it.next s = (it.mHandleIndex, ⟨s.mMaxHandle + 1, i, 0#64⟩) ∧ s.mMaxHandle < 64 * i) := by
  have hnum := hahead.wordNum
  have hnonneg := hahead.nonneg
  rw [next, if_neg (by omega)]
  dsimp only
  by_cases hrest : halve it.mWordVal = 0#64
  · obtain ⟨hge, hclear, hstop⟩ :=
      HandleSet.skipWords_spec (s := s) 17 (it.mWordNum + 1).toNat (by omega)
    rw [if_pos hrest]
    generalize s.skipWords 17 (it.mWordNum + 1).toNat = i at hge hclear hstop
    refine .inr ⟨fun j => by rw [← getLsbD_halve, hrest, BitVec.getLsbD_zero], i, by omega,
      fun j hlow hhigh => hclear j (by omega) (by omega), ?_⟩
    by_cases hlt : (64 * i : ℤ) < s.mMaxHandle + 1
    · rw [dif_pos hlt]
      obtain ⟨k, hk, hidx, hset, hbits, hskip⟩ := toLowBit_of_ne_zero (hstop hlt) (64 * i)
      generalize toLowBit _ 64 (s.mMask.word ⟨i, s.word_lt hlt⟩) (64 * i) = p at hidx hbits
      obtain ⟨v, idx⟩ := p
      dsimp only at hidx hbits ⊢
      exact .inl ⟨k, v, s.word_lt hlt, by rw [hidx], hset, hbits, hskip⟩
    · rw [dif_neg hlt, hrest]
      exact .inr ⟨rfl, by omega⟩
  · rw [if_neg hrest]
    obtain ⟨k, hk, hidx, hset, hbits, hskip⟩ := toLowBit_of_ne_zero hrest (it.mHandleIndex + 1)
    generalize toLowBit _ 64 (halve it.mWordVal) (it.mHandleIndex + 1) = p at hidx hbits
    obtain ⟨v, idx⟩ := p
    dsimp only at hidx hbits ⊢
    rw [getLsbD_halve] at hset
    exact .inl ⟨k, v, by rw [hidx], hset, fun j => by rw [hbits, getLsbD_halve],
      fun j hj => by rw [← getLsbD_halve, hskip j hj]⟩

theorem ahead_of_copy {k : ℕ} (hahead : it.Ahead)
    (hset : it.mWordVal.getLsbD (k + 1) = true)
    (hbits : ∀ j, v.getLsbD j = it.mWordVal.getLsbD (k + j + 1)) :
    Ahead ⟨it.mHandleIndex + 1 + k, it.mWordNum, v⟩ := by
  have hnonneg := hahead.nonneg
  have hnum := hahead.wordNum
  have hlt := hahead.lt _ hset
  refine ⟨by dsimp only; omega, by dsimp only; omega, by rwa [hbits], fun j hj => ?_⟩
  rw [hbits] at hj
  have := hahead.lt _ hj
  dsimp only
  omega

theorem holds_of_copy {k : ℕ}
    (hbits : ∀ j, v.getLsbD j = it.mWordVal.getLsbD (k + j + 1))
    (h : Holds ⟨it.mHandleIndex + 1 + k, it.mWordNum, v⟩ handle) : it.Holds handle := by
  obtain ⟨hle, hbit⟩ := h
  dsimp only at hle hbit
  rw [hbits] at hbit
  refine ⟨by omega, ?_⟩
  rwa [show (handle - it.mHandleIndex).toNat =
    k + (handle - (it.mHandleIndex + 1 + k)).toNat + 1 by omega]

theorem next_spec (h : it.Valid s) :
    s.mMaxHandle < it.mHandleIndex ∧ (it.next s).1 = -1 ∨
      it.mHandleIndex ≤ s.mMaxHandle ∧ 0 ≤ it.mHandleIndex ∧ it.Holds it.mHandleIndex ∧
        (it.next s).1 = it.mHandleIndex ∧ (it.next s).2.Valid s ∧
        ∀ g, (it.next s).2.Holds g → g ≠ it.mHandleIndex ∧ (it.Holds g ∨ s.has g = true) := by
  by_cases hdone : s.mMaxHandle < it.mHandleIndex
  · rw [next, if_pos (by omega)]
    exact .inl ⟨hdone, rfl⟩
  have hahead := h.resolve_right hdone
  have hnum := hahead.wordNum
  refine .inr ⟨by omega, hahead.nonneg, hahead.holds, ?_⟩
  rcases next_cases hahead (not_lt.mp hdone) with ⟨k, v, hnext, hset, hbits, -⟩ |
    ⟨-, i, hi, -, ⟨k, v, hlt, hnext, hset, hbits, -⟩ | ⟨hnext, hmax⟩⟩ <;> rw [hnext]
  · refine ⟨rfl, .inl (ahead_of_copy hahead hset hbits), fun g hg => ⟨?_, .inl ?_⟩⟩
    · have := hg.1
      dsimp only at this
      omega
    · exact holds_of_copy hbits hg
  · refine ⟨rfl, .inl (ahead_of_word hset hbits), fun g hg => ⟨?_, .inr (has_of_word _ hbits hg)⟩⟩
    have := hg.1
    dsimp only at this
    omega
  · refine ⟨rfl, .inr (by dsimp only; omega), fun g hg => ?_⟩
    have hoff := hg.2
    rw [BitVec.getLsbD_zero] at hoff
    cases hoff

end HandleSetIterator

end Icm.Reactor
