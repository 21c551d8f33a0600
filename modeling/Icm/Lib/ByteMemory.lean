import Mathlib

/-!
# Byte buffers and byte images of machine words

A buffer is a function from offsets to bytes.
-/

namespace Icm.Lib

open List

abbrev Mem := ℕ → UInt8

namespace Mem

def slice (m : Mem) (i n : ℕ) : List UInt8 :=
  (range n).map fun j => m (i + j)

def splice (m : Mem) (i : ℕ) (bs : List UInt8) : Mem := fun j =>
  if i ≤ j then (bs[j - i]?).getD (m j) else m j

@[simp] theorem slice_zero (m : Mem) (i : ℕ) : m.slice i 0 = [] := rfl

@[simp] theorem length_slice (m : Mem) (i n : ℕ) : (m.slice i n).length = n := by
  simp [slice]

theorem getElem?_slice (m : Mem) (i n j : ℕ) :
    (m.slice i n)[j]? = if j < n then some (m (i + j)) else none := by
  simp only [slice, getElem?_map]
  split_ifs with h
  · rw [getElem?_range h, Option.map_some]
  · rw [getElem?_eq_none (by simpa using h), Option.map_none]

theorem slice_congr {m m' : Mem} {i n : ℕ} (h : ∀ j, i ≤ j → j < i + n → m j = m' j) :
    m.slice i n = m'.slice i n := by
  refine map_congr_left fun j hj => h _ (Nat.le_add_right i j) ?_
  have := mem_range.mp hj
  omega

variable (m : Mem)

theorem slice_add (i a b : ℕ) :
    m.slice i (a + b) = m.slice i a ++ m.slice (i + a) b := by
  simp only [slice, range_add, map_append, map_map, Function.comp_def,
    Nat.add_assoc]

theorem take_slice (i n k : ℕ) : (m.slice i n).take k = m.slice i (min k n) := by
  simp only [slice, ← map_take, take_range]

theorem drop_slice (i n k : ℕ) : (m.slice i n).drop k = m.slice (i + k) (n - k) := by
  apply ext_getElem?
  intro j
  rw [getElem?_drop, getElem?_slice, getElem?_slice]
  by_cases h : k + j < n
  · rw [if_pos h, if_pos (by omega), Nat.add_assoc]
  · rw [if_neg h, if_neg (by omega)]

@[simp] theorem splice_nil (i : ℕ) : m.splice i [] = m := by
  funext j
  simp [splice]

theorem splice_apply_of_lt {i j : ℕ} (bs : List UInt8) (h : j < i) :
    m.splice i bs j = m j := by
  simp only [splice, Nat.not_le.mpr h, ↓reduceIte]

theorem splice_apply_of_ge {i j : ℕ} (bs : List UInt8) (h : i + bs.length ≤ j) :
    m.splice i bs j = m j := by
  have hij : i ≤ j := by omega
  have hnone : bs[j - i]? = none := getElem?_eq_none (by omega)
  simp only [splice, hij, ↓reduceIte, hnone, Option.getD_none]

@[simp] theorem slice_splice_self (i : ℕ) (bs : List UInt8) :
    (m.splice i bs).slice i bs.length = bs := by
  apply ext_getElem?
  intro j
  rw [getElem?_slice]
  by_cases h : j < bs.length
  · simp [splice, h]
  · simp [h]

theorem slice_splice_self_of_length (i : ℕ) {n : ℕ} {bs : List UInt8}
    (h : bs.length = n) : (m.splice i bs).slice i n = bs := by
  rw [← h, slice_splice_self]

theorem slice_splice_of_le {i n k : ℕ} (bs : List UInt8) (h : i + n ≤ k) :
    (m.splice k bs).slice i n = m.slice i n :=
  slice_congr fun _ _ hj => splice_apply_of_lt m bs (by omega)

theorem slice_splice_of_ge {i n k : ℕ} (bs : List UInt8) (h : k + bs.length ≤ i) :
    (m.splice k bs).slice i n = m.slice i n :=
  slice_congr fun _ hj _ => splice_apply_of_ge m bs (by omega)

theorem slice_splice_mid {i n k : ℕ} (bs : List UInt8) (hik : i ≤ k)
    (hkn : k + bs.length ≤ i + n) :
    (m.splice k bs).slice i n =
      m.slice i (k - i) ++ bs ++ m.slice (k + bs.length) (i + n - (k + bs.length)) := by
  obtain ⟨a, rfl⟩ := Nat.exists_eq_add_of_le hik
  obtain ⟨b, hb⟩ := Nat.exists_eq_add_of_le hkn
  have hn : n = a + (bs.length + b) := by omega
  subst hn
  have ha : i + a - i = a := by omega
  have hb' : i + (a + (bs.length + b)) - (i + a + bs.length) = b := by omega
  rw [slice_add, slice_add, slice_splice_of_le m bs le_rfl, slice_splice_self,
    slice_splice_of_ge m bs le_rfl, ha, hb', append_assoc]

theorem slice_splice_of_length_le (i : ℕ) {n : ℕ} (bs : List UInt8)
    (h : bs.length ≤ n) :
    (m.splice i bs).slice i n = bs ++ m.slice (i + bs.length) (n - bs.length) := by
  have hn : i + n - (i + bs.length) = n - bs.length := by omega
  rw [slice_splice_mid m bs le_rfl (by omega), Nat.sub_self, slice_zero, nil_append, hn]

theorem slice_splice_eq_take (i n : ℕ) (bs : List UInt8) :
    (m.splice i bs).slice i n =
      (bs ++ m.slice (i + bs.length) (n - bs.length)).take n := by
  rcases Nat.le_total bs.length n with h | h
  · rw [slice_splice_of_length_le m i bs h, take_of_length_le]
    rw [length_append, length_slice]
    omega
  · rw [take_append_of_le_length h, ← Nat.min_eq_left h, ← take_slice, slice_splice_self,
      Nat.min_eq_left h]

theorem splice_splice (i : ℕ) (as bs : List UInt8) :
    (m.splice i as).splice (i + as.length) bs = m.splice i (as ++ bs) := by
  funext j
  by_cases hj : j < i + as.length
  · rw [splice_apply_of_lt _ bs hj]
    by_cases hi : i ≤ j
    · simp only [splice, hi, ↓reduceIte]
      rw [getElem?_append_left (by omega)]
    · rw [splice_apply_of_lt m as (by omega), splice_apply_of_lt m (as ++ bs) (by omega)]
  · have hi : i ≤ j := by omega
    have hge : as.length ≤ j - i := by omega
    have hsub : j - i - as.length = j - (i + as.length) := by omega
    simp only [splice, Nat.not_lt.mp hj, hi, ↓reduceIte, getElem?_append_right hge,
      getElem?_eq_none hge, Option.getD_none, hsub]

end Mem

def leBytes : ℕ → ℕ → List UInt8
  | 0, _ => []
  | w + 1, x => UInt8.ofNat x :: leBytes w (x / 256)

def leValue : List UInt8 → ℕ
  | [] => 0
  | b :: bs => b.toNat + 256 * leValue bs

@[simp] theorem length_leBytes (w x : ℕ) : (leBytes w x).length = w := by
  induction w generalizing x with
  | zero => rfl
  | succ w ih => simp [leBytes, ih]

theorem leValue_lt (bs : List UInt8) : leValue bs < 256 ^ bs.length := by
  induction bs with
  | nil => simp [leValue]
  | cons b bs ih =>
    have hb : b.toNat < 256 := b.toNat_lt
    simp only [leValue, length_cons, pow_succ]
    omega

theorem leValue_leBytes (w x : ℕ) : leValue (leBytes w x) = x % 256 ^ w := by
  induction w generalizing x with
  | zero => simp [leBytes, leValue, Nat.mod_one]
  | succ w ih =>
    have hb : (UInt8.ofNat x).toNat = x % 256 := rfl
    simp only [leBytes, leValue, ih, hb, pow_succ', Nat.mod_mul]

theorem leBytes_leValue (bs : List UInt8) : leBytes bs.length (leValue bs) = bs := by
  induction bs with
  | nil => rfl
  | cons b bs ih =>
    have hb : b.toNat < 256 := b.toNat_lt
    have hlow : UInt8.ofNat (b.toNat + 256 * leValue bs) = b := by
      apply UInt8.toNat_inj.mp
      change (b.toNat + 256 * leValue bs) % 256 = b.toNat
      omega
    have hhigh : (b.toNat + 256 * leValue bs) / 256 = leValue bs := by omega
    simp only [length_cons, leBytes, leValue, hlow, hhigh, ih]

def cString (bs : List UInt8) : List UInt8 :=
  bs.takeWhile (· ≠ 0)

theorem cString_append_nul {s : List UInt8} (h : 0 ∉ s) (rest : List UInt8) :
    cString (s ++ 0 :: rest) = s := by
  induction s with
  | nil => simp [cString]
  | cons b s ih =>
    obtain ⟨hb, hs⟩ := not_or.mp (mem_cons.not.mp h)
    have hb' : b ≠ 0 := fun e => hb e.symm
    simpa [cString, hb'] using ih hs

theorem zero_notMem_cString (bs : List UInt8) : 0 ∉ cString bs := fun h => by
  simpa using mem_takeWhile_imp h

end Icm.Lib
