import Icm.Timer.TimeValue

/-!
# Arithmetic of time values

The operators of class `TimeValue`. Addition and subtraction of two time values end with
`normalize`; on canonical time values they are those of the times, and so are the comparisons.
-/

namespace Icm.Timer.TimeValue

def sub (t tv : TimeValue) : Option TimeValue :=
  if IsTime (t.sec - tv.sec) ∧ IsTime (set (t.sec - tv.sec) (t.usec - tv.usec)).sec then
    some (set (t.sec - tv.sec) (t.usec - tv.usec))
  else none

def equal (tv1 tv2 : TimeValue) : Prop := tv1.sec = tv2.sec ∧ tv1.usec = tv2.usec

instance (tv1 tv2 : TimeValue) : Decidable (tv1.equal tv2) := inferInstanceAs (Decidable (_ ∧ _))

def addSeconds (t : TimeValue) (tv : ℤ) : Option TimeValue :=
  if IsTime (t.sec + tv) then some ⟨t.sec + tv, t.usec⟩ else none

def subSeconds (t : TimeValue) (tv : ℤ) : Option TimeValue :=
  if IsTime (t.sec - tv) then some ⟨t.sec - tv, t.usec⟩ else none

theorem set_eq_ofMicros (sec usec : ℤ) : set sec usec = ofMicros (sec * 1000000 + usec) := by
  obtain ⟨hcanonical, hmicros⟩ := set_spec sec usec
  exact hcanonical.eq_of_micros_eq (canonical_ofMicros _) (by rw [hmicros, micros_ofMicros])

theorem add_eq_some_iff {t tv r : TimeValue} :
    t.add tv = some r ↔ IsTime (t.sec + tv.sec) ∧ IsTime (ofMicros (t.micros + tv.micros)).sec ∧
      r = ofMicros (t.micros + tv.micros) := by
  have hsum : t.micros + tv.micros =
      (t.sec + tv.sec) * 1000000 + (t.usec + tv.usec) := by rw [micros, micros]; ring
  rw [add, set_eq_ofMicros, ← hsum, Option.ite_none_right_eq_some, Option.some.injEq, and_assoc]
  exact and_congr_right fun _ => and_congr_right fun _ => eq_comm

theorem sub_eq_some_iff {t tv r : TimeValue} :
    t.sub tv = some r ↔ IsTime (t.sec - tv.sec) ∧ IsTime (ofMicros (t.micros - tv.micros)).sec ∧
      r = ofMicros (t.micros - tv.micros) := by
  have hdiff : t.micros - tv.micros =
      (t.sec - tv.sec) * 1000000 + (t.usec - tv.usec) := by rw [micros, micros]; ring
  rw [sub, set_eq_ofMicros, ← hdiff, Option.ite_none_right_eq_some, Option.some.injEq, and_assoc]
  exact and_congr_right fun _ => and_congr_right fun _ => eq_comm

namespace Canonical

variable {t tv : TimeValue}

theorem set_eq (ht : t.Canonical) : set t.sec t.usec = t := by
  rw [set_eq_ofMicros]
  exact (canonical_ofMicros _).eq_of_micros_eq ht (micros_ofMicros _)

theorem equal_iff (ht : t.Canonical) (htv : tv.Canonical) :
    t.equal tv ↔ t.micros = tv.micros := by
  constructor
  · rintro ⟨hsec, husec⟩
    rw [micros, micros, hsec, husec]
  · intro hmicros
    rw [ht.eq_of_micros_eq htv hmicros]
    exact ⟨rfl, rfl⟩

end Canonical

/-- **The operators on canonical time values.** -/
theorem operators_exact (a b : TimeValue) (ha : a.Canonical) (hb : b.Canonical) :
    (IsTime (a.sec + b.sec) → IsTime (set (a.sec + b.sec) (a.usec + b.usec)).sec →
      ∃ r, a.add b = some r ∧ r.Canonical ∧ r.micros = a.micros + b.micros) ∧
    (IsTime (a.sec - b.sec) → IsTime (set (a.sec - b.sec) (a.usec - b.usec)).sec →
      ∃ r, a.sub b = some r ∧ r.Canonical ∧ r.micros = a.micros - b.micros) ∧
    (a < b ↔ a.micros < b.micros) ∧ (a ≤ b ↔ a.micros ≤ b.micros) ∧
    (a.gt b ↔ a.micros > b.micros) ∧ (a.ge b ↔ a.micros ≥ b.micros) ∧
    (a.equal b ↔ a.micros = b.micros) := by
  refine ⟨fun hsec hset => ?_, fun hsec hset => ?_, ha.lt_iff hb, ha.le_iff hb, hb.lt_iff ha,
    hb.le_iff ha, ha.equal_iff hb⟩
  · have hsum : a.add b = some (set (a.sec + b.sec) (a.usec + b.usec)) := if_pos ⟨hsec, hset⟩
    obtain ⟨-, -, hr⟩ := add_eq_some_iff.mp hsum
    exact ⟨_, hr ▸ hsum, canonical_ofMicros _, micros_ofMicros _⟩
  · have hdiff : a.sub b = some (set (a.sec - b.sec) (a.usec - b.usec)) := if_pos ⟨hsec, hset⟩
    obtain ⟨-, -, hr⟩ := sub_eq_some_iff.mp hdiff
    exact ⟨_, hr ▸ hdiff, canonical_ofMicros _, micros_ofMicros _⟩

theorem operators_exact_sample :
    (⟨-1, -500000⟩ : TimeValue).Canonical ∧ (⟨0, 700000⟩ : TimeValue).Canonical ∧
      ∃ r, (⟨-1, -500000⟩ : TimeValue).sub ⟨0, 700000⟩ = some r ∧ r.micros = -2200000 := by
  obtain ⟨-, hsub, -⟩ := operators_exact ⟨-1, -500000⟩ ⟨0, 700000⟩ (by decide) (by decide)
  obtain ⟨r, hr, -, hmicros⟩ := hsub (by decide) (by decide)
  exact ⟨by decide, by decide, r, hr, hmicros⟩

def SameSign (sec usec : ℤ) : Prop := (1 ≤ sec → 0 ≤ usec) ∧ (sec < 0 → usec ≤ 0)

instance (sec usec : ℤ) : Decidable (SameSign sec usec) := inferInstanceAs (Decidable (_ ∧ _))

/-- The result of an operator with seconds is that of the operator with a time value, and it is
compared with canonical time values as the time that it stands for. -/
def IsRight (result expected : Option TimeValue) : Prop :=
  result = expected ∧ ∀ r, result = some r → ∀ b : TimeValue, b.Canonical →
    (r < b ↔ r.micros < b.micros) ∧ (b < r ↔ b.micros < r.micros) ∧
      (r.equal b ↔ r.micros = b.micros)

theorem isRight_iff {sec usec : ℤ} (hgt : -1000000 < usec) (hlt : usec < 1000000) :
    IsRight (some ⟨sec, usec⟩) (some (set sec usec)) ↔ SameSign sec usec := by
  constructor
  · rintro ⟨heq, -⟩
    have hcanonical := (set_spec sec usec).1
    rw [← Option.some.inj heq] at hcanonical
    exact ⟨hcanonical.nonneg, hcanonical.nonpos⟩
  · rintro ⟨hnonneg, hnonpos⟩
    have hcanonical : (⟨sec, usec⟩ : TimeValue).Canonical := ⟨hgt, hlt, hnonneg, hnonpos⟩
    refine ⟨congrArg some hcanonical.set_eq.symm, fun r hr b hb => ?_⟩
    cases hr
    exact ⟨hcanonical.lt_iff hb, hb.lt_iff hcanonical, hcanonical.equal_iff hb⟩

theorem isTime_set {sec usec : ℤ} (hgt : -1000000 < usec) (hlt : usec < 1000000)
    (hsec : IsTime sec) : IsTime (set sec usec).sec := by
  have hmicros := micros_ofMicros (sec * 1000000 + usec)
  rw [set_eq_ofMicros, (canonical_ofMicros _).isTime_iff, hmicros]
  rw [IsTime] at hsec
  omega

/-- **When the operators with seconds are right**, for a canonical time value: exactly if the
microseconds do not have another sign than the seconds of the result, since nothing normalizes
it. -/
theorem seconds_right_iff (a : TimeValue) (ha : a.Canonical) (t : ℤ) :
    (IsTime (a.sec + t) →
      (IsRight (a.addSeconds t) (a.add (set t 0)) ↔ SameSign (a.sec + t) a.usec)) ∧
    (IsTime (a.sec - t) →
      (IsRight (a.subSeconds t) (a.sub (set t 0)) ↔ SameSign (a.sec - t) a.usec)) := by
  have hset : set t 0 = ⟨t, 0⟩ :=
    Canonical.set_eq (t := ⟨t, 0⟩) ⟨by norm_num, by norm_num, fun _ => le_rfl, fun _ => le_rfl⟩
  constructor
  · intro hsec
    rw [addSeconds, if_pos hsec, add, hset]
    dsimp only
    rw [add_zero, if_pos ⟨hsec, isTime_set ha.gt ha.lt hsec⟩]
    exact isRight_iff ha.gt ha.lt
  · intro hsec
    rw [subSeconds, if_pos hsec, sub, hset]
    dsimp only
    rw [sub_zero, if_pos ⟨hsec, isTime_set ha.gt ha.lt hsec⟩]
    exact isRight_iff ha.gt ha.lt

theorem seconds_right_sample :
    IsRight ((⟨5, 500000⟩ : TimeValue).addSeconds 2) ((⟨5, 500000⟩ : TimeValue).add (set 2 0)) :=
  ((seconds_right_iff ⟨5, 500000⟩ (by decide) 2).1 (by decide)).mpr (by decide)

theorem seconds_wrong :
    (⟨0, 500000⟩ : TimeValue).Canonical ∧
      (⟨0, 500000⟩ : TimeValue).subSeconds 1 = some ⟨-1, 500000⟩ ∧
      (⟨0, 500000⟩ : TimeValue).sub (set 1 0) = some ⟨0, -500000⟩ ∧
      (⟨0, 500000⟩ : TimeValue).addSeconds (-1) = some ⟨-1, 500000⟩ ∧
      (⟨0, 500000⟩ : TimeValue).add (set (-1) 0) = some ⟨0, -500000⟩ ∧
      (⟨-1, 500000⟩ : TimeValue) < ⟨0, -600000⟩ ∧
      (⟨0, -600000⟩ : TimeValue).micros < (⟨-1, 500000⟩ : TimeValue).micros := by
  decide

end Icm.Timer.TimeValue
