import Mathlib

/-!
# Formatted input

The operators that extract a word or a number from an input stream of the C++ library, in the C
locale.
-/

namespace Icm.Lib

open List

def isSpace (b : UInt8) : Bool := b = 32 ∨ 9 ≤ b ∧ b ≤ 13

def isDigit (b : UInt8) : Bool := 48 ≤ b ∧ b ≤ 57

def skipSpace (text : List UInt8) : List UInt8 := text.dropWhile isSpace

def takeWord (text : List UInt8) : List UInt8 × List UInt8 :=
  (text.takeWhile (!isSpace ·), text.dropWhile (!isSpace ·))

def digitsValue (digits : List UInt8) : ℕ := digits.foldl (fun n d => 10 * n + (d.toNat - 48)) 0

def unsigned (sign : ℤ) (text : List UInt8) : Option ℤ × List UInt8 :=
  (if text.takeWhile isDigit = [] then none
    else some (sign * digitsValue (text.takeWhile isDigit)), text.dropWhile isDigit)

def numeral : List UInt8 → Option ℤ × List UInt8
  | 43 :: text => unsigned 1 text
  | 45 :: text => unsigned (-1) text
  | text => unsigned 1 text

def IsWord (w : List UInt8) : Prop := w ≠ [] ∧ ∀ b ∈ w, isSpace b = false

instance (w : List UInt8) : Decidable (IsWord w) := inferInstanceAs (Decidable (_ ∧ _))

theorem skipSpace_append {w : List UInt8} (hw : IsWord w) (text : List UInt8) :
    skipSpace (w ++ text) = w ++ text := by
  obtain ⟨b, w, rfl⟩ := exists_cons_of_ne_nil hw.1
  exact dropWhile_cons_of_neg (by simp [hw.2 b mem_cons_self])

variable {text rest : List UInt8}

theorem isSpace_head_skipSpace {b : UInt8}
    (h : skipSpace text = b :: rest) : isSpace b = false := by
  have hhead := head?_dropWhile_not isSpace text
  rw [show text.dropWhile isSpace = b :: rest from h] at hhead
  simpa using hhead

theorem takeWord_append {w : List UInt8} (hw : IsWord w) (text : List UInt8) :
    takeWord (w ++ 32 :: text) = (w, 32 :: text) := by
  have hall : ∀ b ∈ w, (!isSpace b) = true := fun b hb => by rw [hw.2 b hb]; rfl
  have hspace : (!isSpace 32) = false := rfl
  rw [takeWord, takeWhile_append_of_pos hall, dropWhile_append_of_pos hall]
  simp [hspace]

theorem isWord_takeWord {text : List UInt8} (h : skipSpace text ≠ []) :
    IsWord (takeWord (skipSpace text)).1 := by
  obtain ⟨b, rest, heq⟩ := exists_cons_of_ne_nil h
  have hb := isSpace_head_skipSpace heq
  refine ⟨?_, fun c hc => ?_⟩
  · rw [heq, takeWord, takeWhile_cons_of_pos (by rw [hb]; rfl)]
    exact cons_ne_nil _ _
  · simpa using mem_takeWhile_imp hc

theorem isSpace_of_isDigit {d : UInt8} (h : isDigit d = true) : isSpace d = false := by
  have hd := UInt8.le_iff_toNat_le.mp (of_decide_eq_true h).1
  refine decide_eq_false ?_
  rintro (rfl | ⟨-, hle⟩)
  · cases h
  · have := UInt8.le_iff_toNat_le.mp hle
    simp only [UInt8.reduceToNat] at hd this
    omega

theorem digitsValue_concat (digits : List UInt8) (d : UInt8) :
    digitsValue (digits ++ [d]) = 10 * digitsValue digits + (d.toNat - 48) := by
  rw [digitsValue, foldl_append]
  rfl

variable {digits : List UInt8}

theorem unsigned_append (sign : ℤ) (hne : digits ≠ [])
    (hall : ∀ d ∈ digits, isDigit d = true) (text : List UInt8) :
    unsigned sign (digits ++ 32 :: text) = (some (sign * digitsValue digits), 32 :: text) := by
  have hstop : isDigit 32 = false := rfl
  rw [unsigned, takeWhile_append_of_pos hall, dropWhile_append_of_pos hall,
    takeWhile_cons_of_neg (by simp [hstop]), dropWhile_cons_of_neg (by simp [hstop]),
    append_nil, if_neg hne]

theorem numeral_append (hne : digits ≠ [])
    (hall : ∀ d ∈ digits, isDigit d = true) (text : List UInt8) :
    numeral (digits ++ 32 :: text) = (some (digitsValue digits : ℤ), 32 :: text) := by
  have hunsigned := unsigned_append 1 hne hall text
  rw [one_mul] at hunsigned
  obtain ⟨d, digits, rfl⟩ := exists_cons_of_ne_nil hne
  have hd := hall d mem_cons_self
  rw [← hunsigned, cons_append, numeral]
  · intro _ heq
    rw [head_eq_of_cons_eq heq] at hd
    cases hd
  · intro _ heq
    rw [head_eq_of_cons_eq heq] at hd
    cases hd

theorem numeral_minus_append (hne : digits ≠ [])
    (hall : ∀ d ∈ digits, isDigit d = true) (text : List UInt8) :
    numeral (45 :: (digits ++ 32 :: text)) = (some (-(digitsValue digits : ℤ)), 32 :: text) := by
  rw [numeral, unsigned_append (-1) hne hall, neg_one_mul]

theorem length_numeral_le (text : List UInt8) :
    (numeral (skipSpace text)).2.length ≤ text.length := by
  have hdrop (p : UInt8 → Bool) (l : List UInt8) : (l.dropWhile p).length ≤ l.length :=
    (dropWhile_sublist p).length_le
  refine le_trans ?_ (hdrop isSpace text)
  rw [skipSpace]
  generalize text.dropWhile isSpace = l
  rw [numeral.eq_def]
  split
  · exact (hdrop isDigit _).trans (Nat.le_succ _)
  · exact (hdrop isDigit _).trans (Nat.le_succ _)
  · exact hdrop isDigit _

structure Istream where
  rest : List UInt8
  eof : Bool
  fail : Bool
  deriving DecidableEq

namespace Istream

def ofText (text : List UInt8) : Istream := ⟨text, false, false⟩

@[simp] theorem ofText_rest (text : List UInt8) : (ofText text).rest = text := rfl

def good (s : Istream) : Bool := !s.eof && !s.fail

def sentry (s : Istream) : Istream :=
  if s.good then ⟨skipSpace s.rest, (skipSpace s.rest).isEmpty, (skipSpace s.rest).isEmpty⟩
  else { s with fail := true }

def readWord (old : List UInt8) (s : Istream) : List UInt8 × Istream :=
  let s := s.sentry
  if s.fail then (old, s)
  else
    let (word, rest) := takeWord s.rest
    (word, ⟨rest, rest.isEmpty, false⟩)

def takeInt (lo hi : ℤ) : Option ℤ × List UInt8 → ℤ × Istream
  | (none, rest) => (0, ⟨rest, rest.isEmpty, true⟩)
  | (some z, rest) =>
    if z < lo then (lo, ⟨rest, rest.isEmpty, true⟩)
    else if hi < z then (hi, ⟨rest, rest.isEmpty, true⟩)
    else (z, ⟨rest, rest.isEmpty, false⟩)

def readInt (lo hi old : ℤ) (s : Istream) : ℤ × Istream :=
  let s := s.sentry
  if s.fail then (old, s) else takeInt lo hi (numeral s.rest)

variable {s : Istream} {old : List UInt8} {lo hi n z : ℤ}

theorem readWord_of_bad (h : s.good = false) : s.readWord old = (old, { s with fail := true }) := by
  simp [readWord, sentry, h]

theorem readInt_of_bad (h : s.good = false) :
    s.readInt lo hi n = (n, { s with fail := true }) := by
  simp [readInt, sentry, h]

section

variable (h : s.good = true) (hne : skipSpace s.rest ≠ [])
include h hne

theorem sentry_of_good :
    s.sentry = ⟨skipSpace s.rest, false, false⟩ := by
  rw [sentry, if_pos h, isEmpty_eq_false_iff.mpr hne]

theorem readWord_of_good :
    s.readWord old = ((takeWord (skipSpace s.rest)).1, ⟨(takeWord (skipSpace s.rest)).2,
      (takeWord (skipSpace s.rest)).2.isEmpty, false⟩) := by
  rw [readWord, sentry_of_good h hne]
  rfl

theorem readInt_of_good :
    s.readInt lo hi n = takeInt lo hi (numeral (skipSpace s.rest)) := by
  rw [readInt, sentry_of_good h hne]
  rfl

end

section

variable (h : s.good = true) (hnil : skipSpace s.rest = [])
include h hnil

theorem sentry_of_blank :
    s.sentry = ⟨[], true, true⟩ := by
  rw [sentry, if_pos h, hnil]
  rfl

theorem readWord_of_blank :
    s.readWord old = (old, ⟨[], true, true⟩) := by
  rw [readWord, sentry_of_blank h hnil]
  rfl

theorem readInt_of_blank :
    s.readInt lo hi n = (n, ⟨[], true, true⟩) := by
  rw [readInt, sentry_of_blank h hnil]
  rfl

end

section ofText

variable {text : List UInt8}

theorem readWord_ofText (h : (takeWord (skipSpace text)).2 ≠ []) :
    (ofText text).readWord old =
      ((takeWord (skipSpace text)).1, .ofText (takeWord (skipSpace text)).2) := by
  have hne : skipSpace text ≠ [] := fun hnil => h (by rw [hnil]; rfl)
  rw [readWord_of_good rfl (show skipSpace (ofText text).rest ≠ [] from hne), ofText_rest,
    isEmpty_eq_false_iff.mpr h]
  rfl

theorem readWord_ofText_eof (old : List UInt8) (h : (takeWord (skipSpace text)).2 = []) :
    ((ofText text).readWord old).2.eof = true := by
  by_cases hnil : skipSpace (ofText text).rest = []
  · rw [readWord_of_blank rfl hnil]
  · rw [readWord_of_good rfl hnil]
    exact isEmpty_iff.mpr h

theorem takeInt_eof (r : Option ℤ × List UInt8) : (takeInt lo hi r).2.eof = r.2.isEmpty := by
  obtain ⟨_ | z, rest⟩ := r
  · rfl
  · rw [takeInt]
    split_ifs <;> rfl

theorem readInt_ofText (lo hi n : ℤ) (h : (numeral (skipSpace text)).2 ≠ []) :
    (ofText text).readInt lo hi n = takeInt lo hi (numeral (skipSpace text)) := by
  have hne : skipSpace text ≠ [] := fun hnil => h (by rw [hnil]; rfl)
  exact readInt_of_good rfl hne

theorem readInt_ofText_eof (lo hi n : ℤ) (h : (numeral (skipSpace text)).2 = []) :
    ((ofText text).readInt lo hi n).2.eof = true := by
  by_cases hnil : skipSpace (ofText text).rest = []
  · rw [readInt_of_blank rfl hnil]
  · rw [readInt_of_good rfl hnil, takeInt_eof]
    exact isEmpty_iff.mpr h

end ofText

def Before (s : Istream) (text : List UInt8) : Prop :=
  s.good = true ∧ skipSpace s.rest = skipSpace text

theorem Before.eof_eq {text : List UInt8} (h : s.Before text) : s.eof = false := by
  simpa using (Bool.and_eq_true_iff.mp h.1).1

theorem before_ofText (text : List UInt8) : (ofText text).Before text := ⟨rfl, rfl⟩

theorem before_rest (text : List UInt8) :
    (⟨32 :: text, (32 :: text).isEmpty, false⟩ : Istream).Before text := ⟨rfl, rfl⟩

variable {w text : List UInt8}

theorem readWord_before (old : List UInt8) (h : s.Before (w ++ 32 :: text))
    (hw : IsWord w) : ∃ s', s.readWord old = (w, s') ∧ s'.Before text := by
  obtain ⟨hgood, hrest⟩ := h
  rw [skipSpace_append hw] at hrest
  have hne : skipSpace s.rest ≠ [] := by simp [hrest]
  refine ⟨_, ?_, before_rest text⟩
  rw [readWord_of_good hgood hne, hrest, takeWord_append hw]

theorem readInt_before (n : ℤ) (h : s.Before (w ++ 32 :: text))
    (hw : IsWord w) (hnum : numeral (w ++ 32 :: text) = (some z, 32 :: text)) (hlo : lo ≤ z)
    (hhi : z ≤ hi) : ∃ s', s.readInt lo hi n = (z, s') ∧ s'.Before text := by
  obtain ⟨hgood, hrest⟩ := h
  rw [skipSpace_append hw] at hrest
  have hne : skipSpace s.rest ≠ [] := by simp [hrest]
  refine ⟨_, ?_, before_rest text⟩
  rw [readInt_of_good hgood hne, hrest, hnum, takeInt, if_neg hlo.not_gt, if_neg hhi.not_gt]

theorem readInt_before_over (n : ℤ) (h : s.Before (w ++ 32 :: text))
    (hw : IsWord w) (hnum : numeral (w ++ 32 :: text) = (some z, 32 :: text)) (hlo : lo ≤ hi)
    (hhi : hi < z) : s.readInt lo hi n = (hi, ⟨32 :: text, false, true⟩) := by
  obtain ⟨hgood, hrest⟩ := h
  rw [skipSpace_append hw] at hrest
  have hne : skipSpace s.rest ≠ [] := by simp [hrest]
  rw [readInt_of_good hgood hne, hrest, hnum, takeInt, if_neg (hlo.trans hhi.le).not_gt, if_pos hhi]
  rfl

end Istream

def skipWords : ℕ → List UInt8 → Option (List UInt8)
  | 0, text => some text
  | n + 1, text =>
    if (takeWord (skipSpace text)).2 = [] then none
    else skipWords n (takeWord (skipSpace text)).2

theorem skipWords_succ {n : ℕ} (h : skipWords (n + 1) text = some rest) :
    skipSpace text ≠ [] ∧ (takeWord (skipSpace text)).2 ≠ [] ∧
      skipWords n (takeWord (skipSpace text)).2 = some rest := by
  rw [skipWords] at h
  split_ifs at h with hnil
  refine ⟨fun hblank => hnil ?_, hnil, h⟩
  rw [hblank]
  rfl

theorem skipWords_succ_eq_bind (n : ℕ) (text : List UInt8) :
    skipWords (n + 1) text = (skipWords n text).bind (skipWords 1) := by
  induction n generalizing text with
  | zero => rfl
  | succ n ih =>
    rw [skipWords, ih, skipWords]
    split_ifs <;> rfl

theorem skipWords_one (text : List UInt8) :
    skipWords 1 text =
      if (takeWord (skipSpace text)).2 = [] then none else some (takeWord (skipSpace text)).2 :=
  rfl

theorem length_skipWords {n : ℕ} (h : skipWords n text = some rest) :
    rest.length + n ≤ text.length := by
  induction n generalizing text with
  | zero =>
    cases h
    exact le_rfl
  | succ n ih =>
    obtain ⟨hne, -, h⟩ := skipWords_succ h
    have hword := length_pos_iff.mpr (isWord_takeWord hne).1
    have hsplit : (takeWord (skipSpace text)).1.length + (takeWord (skipSpace text)).2.length =
        (skipSpace text).length := by
      rw [← length_append]
      exact congrArg length takeWhile_append_dropWhile
    have hskip : (skipSpace text).length ≤ text.length :=
      (dropWhile_sublist isSpace).length_le
    have := ih h
    omega

namespace Istream

variable {text rest : List UInt8} {lo hi z : ℤ}

theorem readWord_of_skipWords (old : List UInt8) (h : skipWords 1 text = some rest) :
    (ofText text).readWord old = ((takeWord (skipSpace text)).1, .ofText rest) ∧
      (takeWord (skipSpace text)).1 ≠ [] := by
  rw [skipWords_one] at h
  split_ifs at h with hend
  cases h
  have hne : skipSpace text ≠ [] := fun hnil => hend (by rw [hnil]; rfl)
  exact ⟨readWord_ofText hend, (isWord_takeWord hne).1⟩

theorem eof_readWord_of_skipWords (old : List UInt8) (h : skipWords 1 text = none) :
    ((ofText text).readWord old).2.eof = true := by
  rw [skipWords_one] at h
  split_ifs at h with hend
  exact readWord_ofText_eof old hend

theorem readInt_of_numeral (n : ℤ) (h : numeral (skipSpace text) = (some z, rest)) :
    (ofText text).readInt lo hi n = takeInt lo hi (some z, rest) := by
  have hne : skipSpace (ofText text).rest ≠ [] := fun hnil => by
    rw [show skipSpace text = [] from hnil] at h
    exact absurd (congrArg Prod.fst h) nofun
  rw [readInt_of_good rfl hne]
  exact congrArg (takeInt lo hi) h

theorem readInt_of_no_numeral (h : (numeral (skipSpace text)).1 = none) :
    ((ofText text).readInt lo hi 0).1 = 0 := by
  by_cases hne : skipSpace (ofText text).rest = []
  · rw [readInt_of_blank rfl hne]
  · rw [readInt_of_good rfl hne, ofText_rest, ← Prod.mk.eta (p := numeral (skipSpace text)), h]
    rfl

end Istream

end Icm.Lib
