import Icm.Lib.Formatted
import Mathlib.Data.List.DropRight

/-!
# The configuration file

`Configuration::open` reads a file of sections line by line into a map of section maps, and
`getConfigStr` looks a key up in a section.
-/

namespace Icm.Config

open Icm.Lib

/-- How `Configuration::open` ends without having read the file: it returns an error code, reads in
front of a string, or inserts through the null pointer. -/
inductive Stop
  | returned (code : ℤ)
  | underrun
  | nullSection
deriving DecidableEq, Repr

def insertFirst {α : Type} (m : List (List UInt8 × α)) (k : List UInt8) (v : α) :
    List (List UInt8 × α) :=
  if (m.lookup k).isSome then m else m ++ [(k, v)]

abbrev SectionMap := List (List UInt8 × List UInt8)

/-- The object and the pointer `section` of `open`; a pointer is a place in `heap`. -/
structure Configuration where
  configMap : List (List UInt8 × ℕ) := []
  heap : List SectionMap := []
  section_ : Option ℕ := none
deriving DecidableEq, Repr

def chop : List UInt8 → List UInt8
  | [] => []
  | [c] => [c]
  | c :: d :: cs => if isSpace c then chop (d :: cs) else c :: d :: cs

def squish (before : Option UInt8) (src : List UInt8) : Except Stop (List UInt8) :=
  if src = [] ∧ before ≠ some 0 then .error .underrun
  else .ok ((chop src.reverse).reverse.dropWhile isSpace)

def fgets : ℕ → List UInt8 → List UInt8 × List UInt8
  | 0, s => ([], s)
  | _, [] => ([], [])
  | n + 1, c :: s => if c = 10 then ([c], s) else ((c :: (fgets n s).1), (fgets n s).2)

def sectionName (line : List UInt8) : List UInt8 :=
  let moved := (line.drop 1).take (line.length - 2) ++ line.drop (line.length - 2)
  moved.take (moved.length - 2)

namespace Configuration

def readLine (c : Configuration) (buffer : List UInt8) : Except Stop Configuration := do
  let line ← squish none (buffer.takeWhile (· ≠ 0))
  if line.head? = some 59 ∨ line.head? = some 35 ∨ line = [] then
    return c
  if line.head? = some 91 then
    if 93 ∉ line then throw (.returned (-3))
    -- the section is allocated before it is known whether its name is new
    return { configMap := insertFirst c.configMap (sectionName line) c.heap.length
             heap := c.heap ++ [[]]
             section_ := some c.heap.length }
  if 61 ∉ line then throw (.returned (-3))
  let name ← squish none (line.takeWhile (· ≠ 61))
  let value ← squish (some 0) ((line.dropWhile (· ≠ 61)).drop 1)
  match c.section_ with
  | none => throw .nullSection
  | some p => return { c with heap := c.heap.modify p (insertFirst · name value) }

def readLines : ℕ → Configuration → List UInt8 → Except Stop Configuration
  | 0, c, _ => .ok c
  | _, c, [] => .ok c
  | n + 1, c, s => do
    let c ← c.readLine (fgets 4095 s).1
    readLines n c (fgets 4095 s).2

def openFile (file : List UInt8) : Except Stop Configuration :=
  readLines file.length {} file

def getConfigStr (c : Configuration) (sectionKey name : List UInt8) : List UInt8 :=
  match c.configMap.lookup sectionKey with
  | none => []
  | some p => ((c.heap[p]?).bind (·.lookup name)).getD []

end Configuration

def trim (s : List UInt8) : List UInt8 := (s.rdropWhile isSpace).dropWhile isSpace

/-- A line of a configuration file. -/
inductive Line
  | blank (space : List UInt8)
  | comment (space : List UInt8) (mark : UInt8) (text : List UInt8)
  | header (space name trail : List UInt8)
  | assign (key value : List UInt8)

namespace Line

def text : Line → List UInt8
  | blank space => space
  | comment space mark text => space ++ mark :: text
  | header space name trail => space ++ 91 :: (name ++ 93 :: trail)
  | assign key value => key ++ 61 :: value

def Shaped : Line → Prop
  | blank space => ∀ b ∈ space, isSpace b
  | comment space mark _ => (∀ b ∈ space, isSpace b) ∧ (mark = 59 ∨ mark = 35)
  | header space name _ => (∀ b ∈ space, isSpace b) ∧ 93 ∉ name
  | assign key _ => 61 ∉ key ∧ key.dropWhile isSpace ≠ [] ∧
      ∀ b ∈ [59, 35, 91], (key.dropWhile isSpace).head? ≠ some b

instance : DecidablePred Shaped := fun l => by cases l <;> unfold Shaped <;> infer_instance

def Wf (l : Line) : Prop := l.Shaped ∧ l.text.length < 4000 ∧ 0 ∉ l.text ∧ 10 ∉ l.text

instance : DecidablePred Wf := fun l => by unfold Wf; infer_instance

end Line

def fileText (ended : Bool) : List Line → List UInt8
  | [] => []
  | [l] => l.text ++ if ended then [10] else []
  | l :: m :: ls => l.text ++ 10 :: fileText ended (m :: ls)

def Headed : List Line → Prop
  | [] => True
  | .header .. :: _ => True
  | .assign .. :: _ => False
  | _ :: ls => Headed ls

instance decidableHeaded : DecidablePred Headed
  | [] | .header .. :: _ => .isTrue trivial
  | .assign .. :: _ => .isFalse not_false
  | .blank _ :: ls | .comment .. :: ls => decidableHeaded ls

/-- A header, with the text behind its bracket, and the assignments below it. -/
structure Block where
  name : List UInt8
  trail : List UInt8
  entries : SectionMap := []
deriving DecidableEq, Repr

def addLine (bs : List Block) : Line → List Block
  | .header _ name trail => bs ++ [{ name, trail := trail.rdropWhile isSpace }]
  | .assign key value => bs.modify (bs.length - 1) fun b =>
      { b with entries := b.entries ++ [(trim key, trim value)] }
  | _ => bs

def blocks (lines : List Line) : List Block := lines.foldl addLine []

def assigned (lines : List Line) (s k : List UInt8) : Option (List UInt8) :=
  (((blocks lines).filter (·.name = s)).flatMap (·.entries)).lookup k

def visible (lines : List Line) (s k : List UInt8) : Option (List UInt8) :=
  ((blocks lines).find? fun b => b.name = s ∧ b.trail = []).bind (·.entries.lookup k)

theorem rdropWhile_append (s t : List UInt8) :
    (s ++ t).rdropWhile isSpace =
      if t.rdropWhile isSpace = [] then s.rdropWhile isSpace else s ++ t.rdropWhile isSpace := by
  simp only [List.rdropWhile, List.reverse_append, List.dropWhile_append, List.isEmpty_iff,
    List.reverse_eq_nil_iff]
  split_ifs <;> simp

theorem rdropWhile_append_cons {c : UInt8} (hc : isSpace c = false) (s t : List UInt8) :
    (s ++ c :: t).rdropWhile isSpace = s ++ c :: t.rdropWhile isSpace := by
  have htail : (c :: t).rdropWhile isSpace = c :: t.rdropWhile isSpace := by
    rw [← List.singleton_append, rdropWhile_append]
    split_ifs with h
    · rw [h, List.rdropWhile_singleton, if_neg (by simp [hc])]
    · rfl
  rw [rdropWhile_append, htail, if_neg (List.cons_ne_nil _ _)]

theorem trim_append_cons {c : UInt8} (hc : isSpace c = false) (s t : List UInt8) :
    trim (s ++ c :: t) = s.dropWhile isSpace ++ c :: t.rdropWhile isSpace := by
  rw [trim, rdropWhile_append_cons hc, List.dropWhile_append]
  split_ifs with h
  · rw [List.isEmpty_iff.1 h, List.dropWhile_cons_of_neg (by simp [hc]), List.nil_append]
  · rfl

theorem trim_dropWhile (s : List UInt8) : trim (s.dropWhile isSpace) = trim s := by
  induction s with
  | nil => rfl
  | cons c s ih =>
    cases hc : isSpace c with
    | true =>
      rw [List.dropWhile_cons_of_pos hc, ih, trim, trim, ← List.singleton_append (x := c),
        rdropWhile_append]
      split_ifs with h
      · simp [h, List.rdropWhile_singleton, hc]
      · rw [List.singleton_append, List.dropWhile_cons_of_pos hc]
    | false => rw [List.dropWhile_cons_of_neg (by simp [hc])]

theorem trim_rdropWhile (s : List UInt8) : trim (s.rdropWhile isSpace) = trim s := by
  rw [trim, List.rdropWhile_idempotent, trim]

theorem chop_reverse_dropWhile (s : List UInt8) :
    (chop s).reverse.dropWhile isSpace = (s.dropWhile isSpace).reverse.dropWhile isSpace := by
  induction s using chop.induct with
  | case1 => rfl
  | case2 c => cases hc : isSpace c <;> simp [chop, hc]
  | case3 c d cs hc ih => rw [chop, if_pos hc, ih, List.dropWhile_cons_of_pos hc]
  | case4 c d cs hc => rw [chop, if_neg hc, List.dropWhile_cons_of_neg hc]

variable {s : List UInt8}

theorem squish_eq_trim {before : Option UInt8}
    (h : s ≠ [] ∨ before = some 0) : squish before s = .ok (trim s) := by
  rw [squish, if_neg (by tauto), chop_reverse_dropWhile]
  rfl

theorem fgets_line {n : ℕ} (hs : 10 ∉ s) (hn : s.length < n) (t : List UInt8) :
    fgets n (s ++ 10 :: t) = (s ++ [10], t) := by
  induction s generalizing n with
  | nil =>
    obtain ⟨n, rfl⟩ := Nat.exists_eq_succ_of_ne_zero (Nat.ne_of_gt hn)
    rfl
  | cons c s ih =>
    obtain ⟨n, rfl⟩ := Nat.exists_eq_succ_of_ne_zero (Nat.ne_of_gt (Nat.zero_lt_of_lt hn))
    rw [List.mem_cons, not_or] at hs
    rw [List.cons_append, fgets, if_neg (Ne.symm hs.1), ih hs.2 (Nat.lt_of_succ_lt_succ hn)]
    rfl

theorem fgets_last {n : ℕ} (hs : 10 ∉ s) (hn : s.length < n) :
    fgets n s = (s, []) := by
  induction s generalizing n with
  | nil =>
    obtain ⟨n, rfl⟩ := Nat.exists_eq_succ_of_ne_zero (Nat.ne_of_gt hn)
    rfl
  | cons c s ih =>
    obtain ⟨n, rfl⟩ := Nat.exists_eq_succ_of_ne_zero (Nat.ne_of_gt (Nat.zero_lt_of_lt hn))
    rw [List.mem_cons, not_or] at hs
    rw [fgets, if_neg (Ne.symm hs.1), ih hs.2 (Nat.lt_of_succ_lt_succ hn)]

def Block.shown (b : Block) : List UInt8 :=
  if b.trail = [] then b.name else b.name ++ 93 :: b.trail.dropLast

theorem sectionName_header (name trail : List UInt8) :
    sectionName (91 :: (name ++ 93 :: trail)) = Block.shown { name, trail } := by
  have htake (s : List UInt8) (hs : 2 ≤ s.length) :
      sectionName s = (s.drop 1).take (s.length - 2) := by
    simp only [sectionName, List.length_append, List.length_take, List.length_drop]
    rw [List.take_append_of_le_length (by simp; omega), List.take_take]
    congr 1
    omega
  rw [htake _ (by simp; omega), Block.shown, List.drop_one, List.tail_cons]
  rcases List.eq_nil_or_concat trail with rfl | ⟨t, c, rfl⟩
  · simp
  · simp [List.take_append]

/-- The configuration stands for the blocks read so far. -/
structure Stands (c : Configuration) (bs : List Block) : Prop where
  length : c.heap.length = bs.length
  section_ : c.section_ = if bs = [] then none else some (bs.length - 1)
  entries : ∀ (i : ℕ) (k : List UInt8),
    c.heap[i]?.bind (List.lookup k) = bs[i]?.bind fun b => b.entries.lookup k
  names : ∀ n, c.configMap.lookup n = (bs.map Block.shown).findIdx? (· == n)

theorem lookup_concat {α : Type} (m : List (List UInt8 × α)) (k : List UInt8) (v : α)
    (k' : List UInt8) :
    (m ++ [(k, v)]).lookup k' = (m.lookup k').or (if k' = k then some v else none) := by
  rw [List.lookup_append, List.lookup_cons, List.lookup_nil]
  cases h : k' == k <;> simp_all

theorem lookup_insertFirst {α : Type} (m : List (List UInt8 × α)) (k : List UInt8) (v : α)
    (k' : List UInt8) : (insertFirst m k v).lookup k' = (m ++ [(k, v)]).lookup k' := by
  rw [insertFirst]
  split_ifs with h
  · rw [lookup_concat]
    split_ifs with hk
    · rw [hk, Option.or_of_isSome h]
    · rw [Option.or_none]
  · rfl

variable {c : Configuration} {bs : List Block}

theorem Stands.header (h : Stands c bs) (b : Block)
    (hb : b.entries = []) :
    Stands { configMap := insertFirst c.configMap b.shown c.heap.length
             heap := c.heap ++ [[]]
             section_ := some c.heap.length } (bs ++ [b]) where
  length := by simp [h.length]
  section_ := by simp [h.length]
  entries i k := by
    rw [List.getElem?_append, List.getElem?_append, h.length]
    split_ifs with hi
    · exact h.entries i k
    · cases i - bs.length <;> simp [hb]
  names n := by
    rw [lookup_insertFirst, lookup_concat, h.names, List.map_append, List.findIdx?_append,
      List.length_map, h.length]
    by_cases hn : n = b.shown
    · simp [hn]
    · simp [hn, Ne.symm hn]

theorem Stands.assign (h : Stands c bs) (hbs : bs ≠ [])
    (k v : List UInt8) :
    Stands { c with heap := c.heap.modify (bs.length - 1) (insertFirst · k v) }
      (bs.modify (bs.length - 1) fun b => { b with entries := b.entries ++ [(k, v)] }) where
  length := by simp [h.length]
  section_ := by simp [h.section_, hbs]
  entries i k' := by
    rw [List.getElem?_modify, List.getElem?_modify]
    split_ifs with hi
    · have hentries := h.entries i k'
      have hlt : i < c.heap.length := by
        have := List.length_pos_iff.2 hbs
        have := h.length
        omega
      rw [List.getElem?_eq_getElem hlt, List.getElem?_eq_getElem (h.length ▸ hlt)] at hentries ⊢
      simp only [Option.bind_some, Option.map_some, Functor.map] at hentries ⊢
      rw [lookup_insertFirst, lookup_concat, lookup_concat, hentries]
    · simpa using h.entries i k'
  names n := by
    rw [h.names]
    congr 1
    refine List.ext_getElem? fun i => ?_
    rw [List.getElem?_map, List.getElem?_map, List.getElem?_modify]
    cases bs[i]? <;> split_ifs <;> rfl

theorem readLine_stands (h : Stands c bs) {l : Line}
    (hl : l.Wf) (hbs : bs ≠ [] ∨ Headed [l]) {buffer : List UInt8} (hne : buffer ≠ [])
    (hbuffer : buffer = l.text ∨ buffer = l.text ++ [10]) :
    ∃ c', c.readLine buffer = .ok c' ∧ Stands c' (addLine bs l) := by
  obtain ⟨hshape, -, hzero, -⟩ := hl
  have hline : squish none (buffer.takeWhile (· ≠ 0)) = .ok (trim l.text) := by
    have hself : buffer.takeWhile (· ≠ 0) = buffer := by
      refine List.takeWhile_eq_self_iff.2 fun b hb => decide_eq_true ?_
      rintro rfl
      rcases hbuffer with rfl | rfl <;> simp_all
    rw [hself, squish_eq_trim (.inl hne)]
    rcases hbuffer with rfl | rfl
    · rfl
    · rw [trim, List.rdropWhile_concat_pos _ _ _ (by decide), trim]
  rw [Configuration.readLine, hline]
  cases l with
  | blank space =>
    refine ⟨c, ?_, h⟩
    have htrim : trim space = [] := by
      rw [trim, List.rdropWhile_eq_nil_iff.2 hshape]
      rfl
    simp [Line.text, htrim, pure, Except.pure, bind, Except.bind]
  | comment space mark text =>
    refine ⟨c, ?_, h⟩
    have hmark : isSpace mark = false := by rcases hshape.2 with rfl | rfl <;> rfl
    have hhead : (trim (space ++ mark :: text)).head? = some mark := by
      rw [trim_append_cons hmark, List.dropWhile_eq_nil_iff.2 hshape.1]
      rfl
    rcases hshape.2 with rfl | rfl <;>
      simp [Line.text, hhead, pure, Except.pure, bind, Except.bind]
  | header space name trail =>
    have htrim : trim (space ++ 91 :: (name ++ 93 :: trail)) =
        91 :: (name ++ 93 :: trail.rdropWhile isSpace) := by
      rw [trim_append_cons rfl, List.dropWhile_eq_nil_iff.2 hshape.1, rdropWhile_append_cons rfl]
      rfl
    refine ⟨_, ?_, h.header { name, trail := trail.rdropWhile isSpace } rfl⟩
    simp [Line.text, htrim, pure, Except.pure, bind, Except.bind, sectionName_header]
  | assign key value =>
    obtain ⟨hkey, hne', hfirst⟩ := hshape
    have hbs : bs ≠ [] := hbs.resolve_right id
    have htrim : trim (key ++ 61 :: value) =
        key.dropWhile isSpace ++ 61 :: value.rdropWhile isSpace := trim_append_cons rfl _ _
    have hkey' : ∀ b ∈ key.dropWhile isSpace, b ≠ 61 := fun b hb hb' =>
      hkey (hb' ▸ (List.dropWhile_suffix _).subset hb)
    have hname : squish none ((trim (key ++ 61 :: value)).takeWhile (· ≠ 61)) = .ok (trim key) := by
      rw [htrim, List.takeWhile_append_of_pos (by simpa using hkey'), List.takeWhile_cons_of_neg
        (by decide), List.append_nil, squish_eq_trim (.inl hne'), trim_dropWhile]
    have hvalue : squish (some 0) (((trim (key ++ 61 :: value)).dropWhile (· ≠ 61)).drop 1) =
        .ok (trim value) := by
      rw [htrim, List.dropWhile_append_of_pos (by simpa using hkey'), List.dropWhile_cons_of_neg
        (by decide), List.drop_one, List.tail_cons, squish_eq_trim (.inr rfl), trim_rdropWhile]
    have hhead : (trim (key ++ 61 :: value)).head? = (key.dropWhile isSpace).head? := by
      rw [htrim, List.head?_append_of_ne_nil _ hne']
    have hmem : 61 ∈ trim (key ++ 61 :: value) := by simp [htrim]
    refine ⟨_, ?_, h.assign hbs (trim key) (trim value)⟩
    simp only [Line.text, bind, Except.bind, hname, hvalue, hhead, hmem, not_true, h.section_, hbs,
      if_false, List.ne_nil_of_mem hmem, or_false, hfirst 59 (by decide), hfirst 35 (by decide),
      hfirst 91 (by decide)]
    rfl

theorem headed_cons {l : Line} {ls : List Line} (h : Headed (l :: ls)) :
    Headed [l] ∧ (addLine [] l ≠ [] ∨ Headed ls) := by
  cases l <;> simp_all [Headed, addLine]

theorem addLine_ne_nil (h : bs ≠ []) (l : Line) : addLine bs l ≠ [] := by
  cases l <;> simp [addLine, h, List.modify_eq_nil_iff]

theorem readLines_turn {c c' : Configuration} {s line rest : List UInt8} {n : ℕ} (hs : s ≠ [])
    (hget : fgets 4095 s = (line, rest)) (hread : c.readLine line = .ok c') :
    c.readLines (n + 1) s = c'.readLines n rest := by
  obtain ⟨b, t, rfl⟩ := List.exists_cons_of_ne_nil hs
  rw [Configuration.readLines, hget, hread]
  · rfl
  · exact List.cons_ne_nil _ _

theorem readLines_nil (n : ℕ) (c : Configuration) : c.readLines n [] = .ok c := by
  cases n <;> rfl

theorem addLine_of_text_nil {l : Line} (h : l.text = []) (bs : List Block) : addLine bs l = bs := by
  cases l <;> simp_all [Line.text, addLine]

variable {lines : List Line}

theorem readLines_stands (ended : Bool) {n : ℕ}
    (hwf : ∀ l ∈ lines, l.Wf) (hbs : bs ≠ [] ∨ Headed lines) (h : Stands c bs)
    (hn : (fileText ended lines).length ≤ n) :
    ∃ c', c.readLines n (fileText ended lines) = .ok c' ∧ Stands c' (lines.foldl addLine bs) := by
  induction lines using fileText.induct generalizing n c bs with
  | case1 => exact ⟨c, readLines_nil n c, h⟩
  | case2 l =>
    have hl := hwf l List.mem_cons_self
    rw [fileText] at hn ⊢
    set buffer := l.text ++ if ended then [10] else [] with hbuffer
    by_cases hne : buffer = []
    · refine ⟨c, by rw [hne, readLines_nil], ?_⟩
      rwa [List.foldl_cons, addLine_of_text_nil (List.append_eq_nil_iff.1 hne).1]
    · have hget : fgets 4095 buffer = (buffer, []) := by
        cases ended
        · rw [hbuffer, if_neg Bool.false_ne_true, List.append_nil]
          exact fgets_last hl.2.2.2 (by have := hl.2.1; omega)
        · exact fgets_line hl.2.2.2 (by have := hl.2.1; omega) []
      obtain ⟨c', hread, hc'⟩ := readLine_stands h hl hbs hne (by cases ended <;> simp [hbuffer])
      obtain ⟨n, rfl⟩ := Nat.exists_eq_add_one.2 (List.length_pos_iff.2 hne |>.trans_le hn)
      exact ⟨c', by rw [readLines_turn hne hget hread, readLines_nil], hc'⟩
  | case3 l m ls ih =>
    have hl := hwf l List.mem_cons_self
    rw [fileText] at hn ⊢
    have hget := fgets_line hl.2.2.2 (show _ < 4095 by have := hl.2.1; omega)
      (fileText ended (m :: ls))
    obtain ⟨c', hread, hc'⟩ := readLine_stands h hl (hbs.imp_right fun h => (headed_cons h).1)
      (show l.text ++ [10] ≠ [] by simp) (.inr rfl)
    obtain ⟨n, rfl⟩ := Nat.exists_eq_add_one.2 (show 0 < n by simp at hn; omega)
    rw [readLines_turn (by simp) hget hread]
    refine ih (fun l hl => hwf l (List.mem_cons_of_mem _ hl)) ?_ hc' (by simp at hn ⊢; omega)
    by_cases hnil : bs = []
    · subst hnil
      exact (headed_cons (hbs.resolve_left (· rfl))).2
    · exact .inl (addLine_ne_nil hnil l)

theorem openFile_stands (ended : Bool) (hwf : ∀ l ∈ lines, l.Wf)
    (hhead : Headed lines) :
    ∃ c, Configuration.openFile (fileText ended lines) = .ok c ∧ Stands c (blocks lines) :=
  readLines_stands ended hwf (.inr hhead)
    { length := rfl, section_ := rfl, entries := fun _ _ => rfl, names := fun _ => rfl } le_rfl

theorem not_mem_name_foldl (hwf : ∀ l ∈ lines, l.Wf)
    (hbs : ∀ b ∈ bs, 93 ∉ b.name) : ∀ b ∈ lines.foldl addLine bs, 93 ∉ b.name := by
  induction lines generalizing bs with
  | nil => exact hbs
  | cons l ls ih =>
    refine ih (fun l hl => hwf l (List.mem_cons_of_mem _ hl)) ?_
    cases l with
    | blank | comment => exact hbs
    | header space name trail =>
      simpa [addLine, or_imp, forall_and] using ⟨hbs, (hwf _ List.mem_cons_self).1.2⟩
    | assign key value =>
      intro b hb
      obtain ⟨i, hi⟩ := List.mem_iff_getElem?.1 hb
      rw [addLine, List.getElem?_modify] at hi
      obtain ⟨b', hb', rfl⟩ := Option.map_eq_some_iff.1 hi
      split_ifs
      · exact hbs b' (List.mem_of_getElem? hb')
      · exact hbs b' (List.mem_of_getElem? hb')

theorem getConfigStr_eq_visible
    (h : Stands c (blocks lines)) (hs : 93 ∉ s) (k : List UInt8) :
    c.getConfigStr s k = (visible lines s k).getD [] := by
  have hfind : (blocks lines).find? (fun b => b.name = s ∧ b.trail = []) =
      (blocks lines).find? ((· == s) ∘ Block.shown) := by
    refine List.find?_congr fun b _ => ?_
    rw [Function.comp, Block.shown, beq_eq_decide, decide_eq_decide]
    split_ifs with ht
    · exact and_iff_left ht
    · refine iff_of_false (fun h => ht h.2) ?_
      rintro rfl
      exact hs (List.mem_append_right _ List.mem_cons_self)
  rw [Configuration.getConfigStr, h.names, List.findIdx?_map, visible, hfind,
    List.find?_eq_bind_findIdx?_getElem?]
  cases (blocks lines).findIdx? ((· == s) ∘ Block.shown) with
  | none => rfl
  | some i =>
    show (c.heap[i]?.bind (List.lookup k)).getD [] = _
    rw [h.entries]
    rfl

theorem open_right_iff (lines : List Line) (ended : Bool) (hwf : ∀ l ∈ lines, l.Wf)
    (hhead : Headed lines) :
    (∃ c, Configuration.openFile (fileText ended lines) = .ok c ∧
      ∀ s k v, assigned lines s k = some v → c.getConfigStr s k = v) ↔
    ∀ s k v, assigned lines s k = some v → (visible lines s k).getD [] = v := by
  obtain ⟨c, hopen, hc⟩ := openFile_stands ended hwf hhead
  have hread {s k v : List UInt8} (h : assigned lines s k = some v) :
      c.getConfigStr s k = (visible lines s k).getD [] := by
    obtain ⟨e, he, -⟩ := List.lookup_isSome_iff.1 (Option.isSome_of_mem h)
    obtain ⟨b, hb, -⟩ := List.mem_flatMap.1 he
    obtain ⟨hmem, hname⟩ := List.mem_filter.1 hb
    have hs := not_mem_name_foldl hwf (List.forall_mem_nil _) b hmem
    exact getConfigStr_eq_visible hc (of_decide_eq_true hname ▸ hs) k
  rw [hopen]
  constructor
  · rintro ⟨_, ⟨⟩, h⟩ s k v hv
    rw [← hread hv, h s k v hv]
  · intro h
    refine ⟨c, rfl, fun s k v hv => ?_⟩
    rw [hread hv, h s k v hv]

def sampleLines : List Line :=
  [.comment [] 35 [104], .header [] [97] [32], .assign [120, 32] [32, 49], .blank [],
    .header [] [98] [], .assign [121] []]

theorem open_right_iff_sample :
    ((∀ l ∈ sampleLines, l.Wf) ∧ Headed sampleLines) ∧
    ((∃ c, Configuration.openFile (fileText true sampleLines) = .ok c ∧
      ∀ s k v, assigned sampleLines s k = some v → c.getConfigStr s k = v) ↔
    ∀ s k v, assigned sampleLines s k = some v → (visible sampleLines s k).getD [] = v) :=
  ⟨by decide +kernel, open_right_iff sampleLines true (by decide +kernel) (by decide)⟩

def repeatedLines : List Line :=
  [.header [] [97] [], .assign [120] [49], .header [] [98] [], .assign [121] [50],
    .header [] [97] [], .assign [122] [51]]

theorem open_repeated_section_lost :
    (∀ l ∈ repeatedLines, l.Wf) ∧ Headed repeatedLines ∧
    assigned repeatedLines [97] [122] = some [51] ∧
    (Configuration.openFile (fileText true repeatedLines)).map (·.getConfigStr [97] [122]) =
      .ok [] := by
  decide +kernel

end Icm.Config
