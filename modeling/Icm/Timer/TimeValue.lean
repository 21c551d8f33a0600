import Mathlib

/-!
# Time values

Class `TimeValue` of `icc/TimeValue.cpp`: seconds and microseconds, compared by seconds and then by
microseconds.
-/

namespace Icm.Timer

def carryUp : ℕ → ℤ → ℤ → ℤ × ℤ
  | 0, sec, usec => (sec, usec)
  | rounds + 1, sec, usec =>
    if 1000000 ≤ usec then carryUp rounds (sec + 1) (usec - 1000000) else (sec, usec)

def carryDown : ℕ → ℤ → ℤ → ℤ × ℤ
  | 0, sec, usec => (sec, usec)
  | rounds + 1, sec, usec =>
    if usec ≤ -1000000 then carryDown rounds (sec - 1) (usec + 1000000) else (sec, usec)

def carry (sec usec : ℤ) : ℤ × ℤ :=
  if 1000000 ≤ usec then carryUp usec.toNat sec usec
  else if usec ≤ -1000000 then carryDown usec.natAbs sec usec
  else (sec, usec)

def normalize (sec usec : ℤ) : ℤ × ℤ :=
  let r := carry sec usec
  if 1 ≤ r.1 ∧ r.2 < 0 then (r.1 - 1, r.2 + 1000000)
  else if r.1 < 0 ∧ 0 < r.2 then (r.1 + 1, r.2 - 1000000)
  else r

theorem carryUp_spec {rounds : ℕ} (sec : ℤ) {usec : ℤ} (h : usec.toNat ≤ rounds) (hpos : 0 ≤ usec) :
    (carryUp rounds sec usec).1 * 1000000 + (carryUp rounds sec usec).2 =
        sec * 1000000 + usec ∧
      0 ≤ (carryUp rounds sec usec).2 ∧ (carryUp rounds sec usec).2 < 1000000 := by
  induction rounds generalizing sec usec with
  | zero =>
    rw [carryUp]
    omega
  | succ rounds ih =>
    rw [carryUp]
    split_ifs with husec
    · obtain ⟨hsum, hrange⟩ := ih (sec + 1)
        (show (usec - 1000000).toNat ≤ rounds by omega) (by omega)
      exact ⟨by rw [hsum]; ring, hrange⟩
    · exact ⟨rfl, by omega⟩

theorem carryDown_spec {rounds : ℕ} (sec : ℤ) {usec : ℤ} (h : usec.natAbs ≤ rounds)
    (hneg : usec ≤ 0) :
    (carryDown rounds sec usec).1 * 1000000 + (carryDown rounds sec usec).2 =
        sec * 1000000 + usec ∧
      -1000000 < (carryDown rounds sec usec).2 ∧ (carryDown rounds sec usec).2 ≤ 0 := by
  induction rounds generalizing sec usec with
  | zero =>
    rw [carryDown]
    omega
  | succ rounds ih =>
    rw [carryDown]
    split_ifs with husec
    · obtain ⟨hsum, hrange⟩ := ih (sec - 1)
        (show (usec + 1000000).natAbs ≤ rounds by omega) (by omega)
      exact ⟨by rw [hsum]; ring, hrange⟩
    · exact ⟨rfl, by omega⟩

theorem carry_spec (sec usec : ℤ) :
    (carry sec usec).1 * 1000000 + (carry sec usec).2 = sec * 1000000 + usec ∧
      -1000000 < (carry sec usec).2 ∧ (carry sec usec).2 < 1000000 := by
  rw [carry]
  split_ifs with hup hdown
  · obtain ⟨hsum, hlow, hhigh⟩ := carryUp_spec sec le_rfl (show 0 ≤ usec by omega)
    exact ⟨hsum, by omega, hhigh⟩
  · obtain ⟨hsum, hlow, hhigh⟩ := carryDown_spec sec le_rfl (show usec ≤ 0 by omega)
    exact ⟨hsum, hlow, by omega⟩
  · exact ⟨rfl, by omega, by omega⟩

structure TimeValue where
  sec : ℤ
  usec : ℤ
  deriving DecidableEq, Repr

namespace TimeValue

def set (sec usec : ℤ) : TimeValue := ⟨(normalize sec usec).1, (normalize sec usec).2⟩

def zero : TimeValue := set 0 0

def gt (tv1 tv2 : TimeValue) : Prop :=
  tv1.sec > tv2.sec ∨ tv1.sec = tv2.sec ∧ tv1.usec > tv2.usec

def ge (tv1 tv2 : TimeValue) : Prop :=
  tv1.sec > tv2.sec ∨ tv1.sec = tv2.sec ∧ tv1.usec ≥ tv2.usec

instance (tv1 tv2 : TimeValue) : Decidable (tv1.gt tv2) := inferInstanceAs (Decidable (_ ∨ _))

instance (tv1 tv2 : TimeValue) : Decidable (tv1.ge tv2) := inferInstanceAs (Decidable (_ ∨ _))

instance : LinearOrder TimeValue where
  le tv1 tv2 := tv2.ge tv1
  lt tv1 tv2 := tv2.gt tv1
  le_refl t := .inr ⟨rfl, le_rfl⟩
  le_trans t u v htu huv := by
    simp only [ge] at htu huv ⊢
    omega
  lt_iff_le_not_ge t u := by
    simp only [gt, ge]
    omega
  le_antisymm t u htu hut := by
    simp only [ge] at htu hut
    obtain ⟨sec, usec⟩ := t
    obtain ⟨sec', usec'⟩ := u
    dsimp only at htu hut
    obtain rfl : sec = sec' := by omega
    obtain rfl : usec = usec' := by omega
    rfl
  le_total t u := by
    simp only [ge]
    omega
  toDecidableLE tv1 tv2 := inferInstanceAs (Decidable (tv2.ge tv1))
  toDecidableLT tv1 tv2 := inferInstanceAs (Decidable (tv2.gt tv1))
  toDecidableEq := inferInstance

def IsTime (sec : ℤ) : Prop := -2 ^ 63 ≤ sec ∧ sec < 2 ^ 63

instance (sec : ℤ) : Decidable (IsTime sec) := inferInstanceAs (Decidable (_ ∧ _))

def add (t tv : TimeValue) : Option TimeValue :=
  if IsTime (t.sec + tv.sec) ∧ IsTime (set (t.sec + tv.sec) (t.usec + tv.usec)).sec then
    some (set (t.sec + tv.sec) (t.usec + tv.usec))
  else none

structure Canonical (t : TimeValue) : Prop where
  gt : -1000000 < t.usec
  lt : t.usec < 1000000
  nonneg : 1 ≤ t.sec → 0 ≤ t.usec
  nonpos : t.sec < 0 → t.usec ≤ 0

instance (t : TimeValue) : Decidable t.Canonical :=
  decidable_of_iff (-1000000 < t.usec ∧ t.usec < 1000000 ∧ (1 ≤ t.sec → 0 ≤ t.usec) ∧
      (t.sec < 0 → t.usec ≤ 0))
    ⟨fun ⟨hgt, hlt, hnonneg, hnonpos⟩ => ⟨hgt, hlt, hnonneg, hnonpos⟩,
      fun ⟨hgt, hlt, hnonneg, hnonpos⟩ => ⟨hgt, hlt, hnonneg, hnonpos⟩⟩

def micros (t : TimeValue) : ℤ := t.sec * 1000000 + t.usec

def ofMicros (n : ℤ) : TimeValue := ⟨n.tdiv 1000000, n.tmod 1000000⟩

theorem set_spec (sec usec : ℤ) :
    (set sec usec).Canonical ∧ (set sec usec).micros = sec * 1000000 + usec := by
  obtain ⟨hsum, hlow, hhigh⟩ := carry_spec sec usec
  rw [← hsum]
  dsimp only [set, normalize, micros]
  split_ifs with hup hdown
  all_goals
    refine ⟨⟨?_, ?_, ?_, ?_⟩, ?_⟩ <;> dsimp only <;> omega

@[simp] theorem micros_ofMicros (n : ℤ) : (ofMicros n).micros = n := by
  have hsum := Int.mul_tdiv_add_tmod n 1000000
  change n.tdiv 1000000 * 1000000 + n.tmod 1000000 = n
  omega

theorem canonical_ofMicros (n : ℤ) : (ofMicros n).Canonical := by
  have hsum := Int.mul_tdiv_add_tmod n 1000000
  have hgt := Int.lt_tmod_of_pos n (show (0 : ℤ) < 1000000 by decide)
  have hlt := Int.tmod_lt_of_pos n (show (0 : ℤ) < 1000000 by decide)
  rcases le_total 0 n with hn | hn
  · have hmod := Int.tmod_nonneg 1000000 hn
    have hdiv := Int.tdiv_nonneg hn (show (0 : ℤ) ≤ 1000000 by decide)
    exact ⟨hgt, hlt, fun _ => hmod, fun h => absurd hdiv (not_le.mpr h)⟩
  · have hmod : n.tmod 1000000 ≤ 0 := by
      have := Int.tmod_nonneg 1000000 (show 0 ≤ -n by omega)
      rw [Int.neg_tmod] at this
      omega
    have hdiv : n.tdiv 1000000 ≤ 0 := by omega
    exact ⟨hgt, hlt, fun h => absurd (h.trans hdiv) (by decide), fun _ => hmod⟩

namespace Canonical

variable {t tv : TimeValue}

section

variable (ht : t.Canonical)
include ht

theorem le_iff (htv : tv.Canonical) : t ≤ tv ↔ t.micros ≤ tv.micros := by
  change tv.sec > t.sec ∨ tv.sec = t.sec ∧ tv.usec ≥ t.usec ↔ _
  obtain ⟨hgt, hlt, hnonneg, hnonpos⟩ := ht
  obtain ⟨hgt', hlt', hnonneg', hnonpos'⟩ := htv
  rw [micros, micros]
  omega

theorem lt_iff (htv : tv.Canonical) : t < tv ↔ t.micros < tv.micros := by
  rw [← not_le, htv.le_iff ht, not_le]

theorem zero_lt_iff : zero < t ↔ 0 < t.micros := by
  obtain ⟨hzero, hmicros⟩ := set_spec 0 0
  rw [zero, hzero.lt_iff ht, hmicros]
  rfl

theorem eq_of_micros_eq (htv : tv.Canonical) (h : t.micros = tv.micros) :
    t = tv :=
  le_antisymm ((ht.le_iff htv).mpr h.le) ((htv.le_iff ht).mpr h.ge)

theorem isTime_iff :
    IsTime t.sec ↔ (-2 ^ 63 - 1) * 1000000 < t.micros ∧ t.micros < 2 ^ 63 * 1000000 := by
  obtain ⟨hgt, hlt, hnonneg, hnonpos⟩ := ht
  rw [IsTime, micros]
  omega

theorem add_eq_some (htv : tv.Canonical) (htsec : IsTime t.sec)
    (htvsec : IsTime tv.sec) (hrange : IsTime (ofMicros (t.micros + tv.micros)).sec) :
    t.add tv = some (ofMicros (t.micros + tv.micros)) := by
  obtain ⟨hset, hmicros⟩ := set_spec (t.sec + tv.sec) (t.usec + tv.usec)
  have hofMicros : set (t.sec + tv.sec) (t.usec + tv.usec) = ofMicros (t.micros + tv.micros) := by
    refine hset.eq_of_micros_eq (canonical_ofMicros _) ?_
    rw [hmicros, micros_ofMicros, micros, micros]
    ring
  have hsum : IsTime (t.sec + tv.sec) := by
    rw [(canonical_ofMicros _).isTime_iff, micros_ofMicros, micros, micros] at hrange
    obtain ⟨hgt, hlt, hnonneg, hnonpos⟩ := ht
    obtain ⟨hgt', hlt', hnonneg', hnonpos'⟩ := htv
    rw [IsTime] at htsec htvsec ⊢
    omega
  rw [add, hofMicros, if_pos ⟨hsum, hrange⟩]

end

end Canonical

end TimeValue

end Icm.Timer
