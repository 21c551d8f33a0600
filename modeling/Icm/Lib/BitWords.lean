import Mathlib

/-!
# Sets of bits in an array of words

A set of small numbers is kept in an array of words, one bit for each number.
-/

namespace Icm.Lib

variable {w n : ℕ}

structure BitWords (w n : ℕ) where
  word : Fin n → BitVec w
deriving DecidableEq

namespace BitWords

def empty : BitWords w n := ⟨fun _ => 0#w⟩

variable (m : BitWords w n) (i : ℕ)

def bit : Bool :=
  if h : i / w < n then (m.word ⟨i / w, h⟩).getLsbD (i % w) else false

def insert : BitWords w n :=
  ⟨fun k => if k.val = i / w then m.word k ||| 1#w <<< (i % w) else m.word k⟩

def erase : BitWords w n :=
  ⟨fun k => if k.val = i / w then m.word k &&& ~~~(1#w <<< (i % w)) else m.word k⟩

variable {m : BitWords w n} {i j : ℕ}

@[simp] theorem bit_empty : (empty : BitWords w n).bit i = false := by
  rw [bit]
  split_ifs
  · exact BitVec.getLsbD_zero
  · rfl

theorem lt_of_bit (h : m.bit i = true) : i < w * n := by
  rw [bit] at h
  split_ifs at h with hi
  rcases Nat.eq_zero_or_pos w with rfl | hw
  · simp at h
  · rwa [Nat.div_lt_iff_lt_mul hw, Nat.mul_comm] at hi

theorem bit_word (k : Fin n) (hj : j < w) : m.bit (w * k + j) = (m.word k).getLsbD j := by
  have hw : 0 < w := by omega
  have hdiv : (w * k + j) / w = k := by
    rw [Nat.mul_add_div hw, Nat.div_eq_of_lt hj, Nat.add_zero]
  have hmod : (w * k + j) % w = j := by rw [Nat.mul_add_mod, Nat.mod_eq_of_lt hj]
  have hk : (w * k + j) / w < n := by
    rw [hdiv]
    exact k.isLt
  rw [bit, dif_pos hk, hmod, show (⟨(w * k + j) / w, hk⟩ : Fin n) = k from Fin.ext hdiv]

theorem word_ne_zero_iff {k : Fin n} : m.word k ≠ 0#w ↔ ∃ j < w, m.bit (w * k + j) = true := by
  constructor
  · intro hne
    by_contra hall
    push Not at hall
    refine hne (BitVec.eq_of_getLsbD_eq fun j hj => ?_)
    rw [← bit_word k hj, BitVec.getLsbD_zero]
    exact Bool.eq_false_iff.mpr (hall j hj)
  · rintro ⟨j, hj, hbit⟩ hzero
    rw [bit_word k hj, hzero] at hbit
    simp at hbit

private theorem getLsbD_one_shiftLeft (hj : j < w) (hi : i < w) :
    (1#w <<< i).getLsbD j = decide (j = i) := by
  rw [BitVec.getLsbD_shiftLeft, BitVec.getLsbD_one]
  rcases lt_trichotomy j i with h | h | h
  · simp [h, h.ne]
  · subst h
    simp [hj, show 0 < w by omega]
  · simp [hj, h.ne', show ¬ j < i by omega, show j - i ≠ 0 by omega]

private theorem eq_iff_of_div_eq (h : i / w = j / w) : i % w = j % w ↔ i = j := by
  constructor
  · intro hmod
    rw [← Nat.div_add_mod i w, ← Nat.div_add_mod j w, h, hmod]
  · rintro rfl
    rfl

theorem bit_insert (hi : i < w * n) : (m.insert i).bit j = (decide (j = i) || m.bit j) := by
  have hw : 0 < w := Nat.pos_of_mul_pos_right (Nat.zero_lt_of_lt hi)
  have hi' : i / w < n := by rwa [Nat.div_lt_iff_lt_mul hw, Nat.mul_comm]
  rw [bit, bit]
  by_cases hj : j / w < n
  · rw [dif_pos hj, dif_pos hj]
    dsimp only [insert]
    by_cases hword : j / w = i / w
    · rw [if_pos hword, BitVec.getLsbD_or,
        getLsbD_one_shiftLeft (Nat.mod_lt j hw) (Nat.mod_lt i hw), Bool.or_comm]
      congr 1
      exact decide_eq_decide.mpr (eq_iff_of_div_eq hword)
    · rw [if_neg hword, decide_eq_false (fun h => hword (congrArg (· / w) h)), Bool.false_or]
  · have hne : j ≠ i := fun h => hj (h ▸ hi')
    simp [hj, hne]

theorem bit_erase : (m.erase i).bit j = (m.bit j && decide (j ≠ i)) := by
  rw [bit, bit]
  by_cases hj : j / w < n
  · rw [dif_pos hj, dif_pos hj]
    dsimp only [erase]
    rcases Nat.eq_zero_or_pos w with rfl | hw
    · simp
    by_cases hword : j / w = i / w
    · rw [if_pos hword, BitVec.getLsbD_and, BitVec.getLsbD_not,
        getLsbD_one_shiftLeft (Nat.mod_lt j hw) (Nat.mod_lt i hw),
        decide_eq_true (Nat.mod_lt j hw), Bool.true_and, ← decide_not]
      congr 1
      exact decide_eq_decide.mpr (eq_iff_of_div_eq hword).not
    · have hne : j ≠ i := fun h => hword (congrArg (· / w) h)
      rw [if_neg hword, decide_eq_true hne, Bool.and_true]
  · simp [hj]

def elements (m : BitWords w n) : List ℕ := (List.range (w * n)).filter m.bit

theorem mem_elements : i ∈ m.elements ↔ m.bit i = true := by
  rw [elements, List.mem_filter, List.mem_range, and_iff_right_of_imp lt_of_bit]

theorem pairwise_elements (m : BitWords w n) : m.elements.Pairwise (· < ·) :=
  List.pairwise_lt_range.filter _

theorem toFinset_elements_card (m : BitWords w n) : m.elements.toFinset.card = m.elements.length :=
  List.toFinset_card_of_nodup ((pairwise_elements m).imp ne_of_lt)

theorem length_elements_insert (hi : i < w * n) (hnew : m.bit i = false) :
    (m.insert i).elements.length = m.elements.length + 1 := by
  have hset : (m.insert i).elements.toFinset = Insert.insert i m.elements.toFinset := by
    ext j
    simp only [List.mem_toFinset, Finset.mem_insert, mem_elements, bit_insert hi, Bool.or_eq_true,
      decide_eq_true_eq]
  have hmem : i ∉ m.elements.toFinset := by
    rw [List.mem_toFinset, mem_elements, hnew]
    exact Bool.false_ne_true
  rw [← toFinset_elements_card, hset, Finset.card_insert_of_notMem hmem, toFinset_elements_card]

theorem length_elements_erase (hold : m.bit i = true) :
    (m.erase i).elements.length + 1 = m.elements.length := by
  have hset : (m.erase i).elements.toFinset = m.elements.toFinset.erase i := by
    ext j
    simp only [List.mem_toFinset, Finset.mem_erase, mem_elements, bit_erase, Bool.and_eq_true,
      decide_eq_true_eq, and_comm]
  have hmem : i ∈ m.elements.toFinset := by
    rw [List.mem_toFinset, mem_elements, hold]
  rw [← toFinset_elements_card, hset, Finset.card_erase_add_one hmem, toFinset_elements_card]

end BitWords

def halve (v : BitVec w) : BitVec w := v.sshiftRight 1 &&& ~~~(1#w <<< (w - 1))

theorem getLsbD_halve (v : BitVec w) (i : ℕ) : (halve v).getLsbD i = v.getLsbD (i + 1) := by
  rw [halve, BitVec.getLsbD_and, BitVec.getLsbD_not, BitVec.getLsbD_sshiftRight]
  rcases lt_trichotomy (i + 1) w with h | h | h
  · rw [BitVec.getLsbD_shiftLeft, if_pos (by omega), Nat.add_comm 1 i]
    simp [show i < w by omega, show i < w - 1 by omega]
  · rw [BitVec.getLsbD_shiftLeft, BitVec.getLsbD_of_ge v (i + 1) (by omega)]
    simp [show i = w - 1 by omega, show 0 < w by omega]
  · simp [show w ≤ i by omega, BitVec.getLsbD_of_ge v (i + 1) (by omega)]

variable {v : BitVec w}

theorem getLsbD_zero_eq_false_iff : v &&& 1#w = 0#w ↔ v.getLsbD 0 = false := by
  constructor
  · intro h
    have hbit := congrArg (BitVec.getLsbD · 0) h
    rcases Nat.eq_zero_or_pos w with rfl | hw
    · simp
    · simpa [hw] using hbit
  · intro h
    refine BitVec.eq_of_getLsbD_eq fun i hi => ?_
    rw [BitVec.getLsbD_and, BitVec.getLsbD_one, BitVec.getLsbD_zero]
    rcases Nat.eq_zero_or_pos i with rfl | hi'
    · rw [h, Bool.false_and]
    · simp [hi'.ne']

def toLowBit (more : ℤ → Bool) : ℕ → BitVec w → ℤ → BitVec w × ℤ
  | 0, v, i => (v, i)
  | t + 1, v, i =>
    if v &&& 1#w = 0#w ∧ more i = true then toLowBit more t (halve v) (i + 1) else (v, i)

theorem toLowBit_spec (more : ℤ → Bool) (t : ℕ) (v : BitVec w) (i : ℤ) :
    ∃ k ≤ t, (toLowBit more t v i).2 = i + k ∧
      (∀ j, (toLowBit more t v i).1.getLsbD j = v.getLsbD (k + j)) ∧
      (∀ j < k, v.getLsbD j = false) ∧
      (k = t ∨ v.getLsbD k = true ∨ more (i + k) = false) := by
  induction t generalizing v i with
  | zero => exact ⟨0, le_rfl, by simp [toLowBit], by simp [toLowBit], by simp, .inl rfl⟩
  | succ t ih =>
    rw [toLowBit]
    split_ifs with hgo
    · obtain ⟨k, hk, hnum, hbits, hclear, hstop⟩ := ih (halve v) (i + 1)
      refine ⟨k + 1, by omega, by rw [hnum]; push_cast; ring, fun j => ?_, fun j hj => ?_, ?_⟩
      · rw [hbits, getLsbD_halve, show k + j + 1 = k + 1 + j by omega]
      · rcases Nat.eq_zero_or_pos j with rfl | hpos
        · exact getLsbD_zero_eq_false_iff.mp hgo.1
        · have hprev := hclear (j - 1) (by omega)
          rwa [getLsbD_halve, show j - 1 + 1 = j by omega] at hprev
      · rw [getLsbD_halve, show i + 1 + (k : ℤ) = i + ((k + 1 : ℕ) : ℤ) by push_cast; ring]
          at hstop
        exact hstop.imp_left (congrArg (· + 1))
    · refine ⟨0, by omega, by simp, by simp, by simp, .inr ?_⟩
      rw [not_and_or, getLsbD_zero_eq_false_iff, Bool.not_eq_false, Bool.not_eq_true] at hgo
      simpa using hgo

theorem toLowBit_of_ne_zero (hv : v ≠ 0#w) (i : ℤ) :
    ∃ k < w, (toLowBit (fun _ => true) w v i).2 = i + k ∧ v.getLsbD k = true ∧
      (∀ j, (toLowBit (fun _ => true) w v i).1.getLsbD j = v.getLsbD (k + j)) ∧
      ∀ j < k, v.getLsbD j = false := by
  obtain ⟨k, hk, hnum, hbits, hclear, hstop⟩ := toLowBit_spec (fun _ => true) w v i
  rcases hstop with rfl | hset | hfalse
  · exact absurd (BitVec.eq_of_getLsbD_eq fun j hj =>
      (hclear j hj).trans BitVec.getLsbD_zero.symm) hv
  · exact ⟨k, BitVec.lt_of_getLsbD hset, hnum, hset, hbits, hclear⟩
  · simp at hfalse

def topBit : ℕ → BitVec w → ℕ
  | 0, _ => 0
  | t + 1, v => if v &&& ~~~1#w = 0#w then 0 else topBit t (halve v) + 1

theorem getLsbD_succ_eq_false_iff :
    v &&& ~~~1#w = 0#w ↔ ∀ i, v.getLsbD (i + 1) = false := by
  constructor
  · intro h i
    have hbit := congrArg (BitVec.getLsbD · (i + 1)) h
    by_cases hi : i + 1 < w
    · simpa [hi] using hbit
    · exact BitVec.getLsbD_of_ge v (i + 1) (by omega)
  · intro h
    refine BitVec.eq_of_getLsbD_eq fun i hi => ?_
    rw [BitVec.getLsbD_and, BitVec.getLsbD_not, BitVec.getLsbD_one, BitVec.getLsbD_zero]
    rcases Nat.eq_zero_or_pos i with rfl | hpos
    · simp [hi]
    · have hi' := h (i - 1)
      rw [show i - 1 + 1 = i by omega] at hi'
      rw [hi', Bool.false_and]

theorem halve_ne_zero (h : ¬ v &&& ~~~1#w = 0#w) : halve v ≠ 0#w := by
  rw [getLsbD_succ_eq_false_iff] at h
  push Not at h
  obtain ⟨i, hi⟩ := h
  intro hzero
  rw [← getLsbD_halve, hzero, BitVec.getLsbD_zero] at hi
  exact hi rfl

private theorem topBit_spec {t : ℕ} {v : BitVec w} (hv : v ≠ 0#w)
    (hbound : ∀ j, t ≤ j → v.getLsbD j = false) :
    v.getLsbD (topBit t v) = true ∧ ∀ j, v.getLsbD j = true → j ≤ topBit t v := by
  induction t generalizing v with
  | zero =>
    exact absurd (BitVec.eq_of_getLsbD_eq fun j _ =>
      (hbound j (Nat.zero_le j)).trans BitVec.getLsbD_zero.symm) hv
  | succ t ih =>
    rw [topBit]
    split_ifs with hlow
    · have hzero : ∀ j, v.getLsbD j = true → j ≤ 0 := by
        intro j hj
        rcases j with - | j
        · exact le_rfl
        · rw [getLsbD_succ_eq_false_iff.mp hlow j] at hj
          cases hj
      refine ⟨?_, hzero⟩
      by_contra hoff
      refine hv (BitVec.eq_of_getLsbD_eq fun j _ => ?_)
      rw [BitVec.getLsbD_zero]
      by_contra hon
      have hj := hzero j (Bool.eq_true_of_not_eq_false hon)
      obtain rfl : j = 0 := by omega
      exact hoff (Bool.eq_true_of_not_eq_false hon)
    · obtain ⟨hset, hmax⟩ := ih (halve_ne_zero hlow) fun j hj => by
        rw [getLsbD_halve]
        exact hbound (j + 1) (by omega)
      refine ⟨by rwa [getLsbD_halve] at hset, fun j hj => ?_⟩
      rcases j with - | j
      · omega
      · have := hmax j (by rwa [getLsbD_halve])
        omega

theorem getLsbD_topBit (hv : v ≠ 0#w) : v.getLsbD (topBit w v) = true :=
  (topBit_spec hv fun _ hj => BitVec.getLsbD_of_ge v _ hj).1

theorem le_topBit {j : ℕ} (hj : v.getLsbD j = true) : j ≤ topBit w v := by
  have hv : v ≠ 0#w := by
    rintro rfl
    simp at hj
  exact (topBit_spec hv fun _ hj => BitVec.getLsbD_of_ge v _ hj).2 j hj

end Icm.Lib
