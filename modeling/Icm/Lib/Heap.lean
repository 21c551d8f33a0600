import Mathlib

/-!
# Binary heaps with a table of positions

A binary heap in a list, and beside it a table that says at which position the element with an id
stands.
-/

namespace Icm.Lib.Heap

open List

def parent (i : ℕ) : ℕ := (i - 1) / 2

def leftChild (i : ℕ) : ℕ := i + i + 1

variable {i : ℕ}

theorem parent_lt (h : i ≠ 0) : parent i < i := by
  rw [parent]
  omega

theorem parent_le (i : ℕ) : parent i ≤ i := by
  rw [parent]
  omega

theorem parent_leftChild (i : ℕ) : parent (leftChild i) = i := by
  rw [parent, leftChild]
  omega

theorem parent_leftChild_succ (i : ℕ) : parent (leftChild i + 1) = i := by
  rw [parent, leftChild]
  omega

theorem eq_child_of_parent_eq {c i : ℕ} (hc : c ≠ i) (h : parent c = i) :
    c = leftChild i ∨ c = leftChild i + 1 := by
  rw [parent] at h
  rw [leftChild]
  omega

theorem lt_of_parent_eq {c i : ℕ} (hc : c ≠ i) (h : parent c = i) : i < c := by
  have := parent_le c
  omega

variable {α κ : Type*} [LinearOrder κ] {key : α → κ} {l : List α} {s : ℕ} {m x : α}

def Ordered (key : α → κ) (l : List α) : Prop :=
  ∀ i x y, l[parent i]? = some x → l[i]? = some y → key x ≤ key y

structure Holed (key : α → κ) (l : List α) (s : ℕ) : Prop where
  aside : ∀ i x y, i ≠ s → parent i ≠ s → l[parent i]? = some x → l[i]? = some y → key x ≤ key y
  across : s ≠ 0 → ∀ c x y, parent c = s → l[parent s]? = some x → l[c]? = some y → key x ≤ key y

def Above (key : α → κ) (l : List α) (s : ℕ) (m : α) : Prop :=
  s ≠ 0 → ∀ x, l[parent s]? = some x → key x ≤ key m

def Below (key : α → κ) (l : List α) (s : ℕ) (m : α) : Prop :=
  ∀ c y, c ≠ s → parent c = s → l[c]? = some y → key m ≤ key y

instance : Decidable (Ordered key l) :=
  decidable_of_iff (∀ i < l.length, ∀ x ∈ l[parent i]?, ∀ y ∈ l[i]?, key x ≤ key y)
    ⟨fun h i x y hx hy => h i (List.getElem?_eq_some_iff.mp hy).1 x hx y hy,
      fun h i _ x hx y hy => h i x y hx hy⟩

theorem Ordered.first_le (h : Ordered key l) {y : α} (hx : l[0]? = some x)
    (hy : l[i]? = some y) : key x ≤ key y := by
  induction i using Nat.strong_induction_on generalizing y with
  | _ i ih =>
    rcases eq_or_ne i 0 with rfl | hi
    · obtain rfl := Option.some.inj (hx.symm.trans hy)
      exact le_rfl
    · have hi' : i < l.length := (List.getElem?_eq_some_iff.mp hy).1
      have hp : parent i < l.length := (parent_lt hi).trans hi'
      have hz := getElem?_eq_getElem hp
      exact (ih _ (parent_lt hi) hz).trans (h i _ _ hz hy)

theorem getElem?_append_of_eq_some {xs ys : List α} (h : xs[i]? = some x) :
    (xs ++ ys)[i]? = some x := by
  rw [List.getElem?_append_left (List.getElem?_eq_some_iff.mp h).1, h]

variable {l' : List α}

theorem exists_of_map_eq {β : Type*} {f : α → β} (hmap : l'.map f = l.map f)
    {y : α} (hy : l'[i]? = some y) : ∃ x, l[i]? = some x ∧ f x = f y := by
  have hi : (l.map f)[i]? = some (f y) := by rw [← hmap, getElem?_map, hy, Option.map_some]
  rwa [getElem?_map, Option.map_eq_some_iff] at hi

theorem map_set_eq {β : Type*} {f : α → β} {y : α} (hx : l[i]? = some x)
    (hf : f y = f x) : (l.set i y).map f = l.map f := by
  refine ext_getElem? fun j => ?_
  rw [getElem?_map, getElem?_map]
  rcases eq_or_ne i j with rfl | hij
  · rw [List.getElem?_set_self (List.getElem?_eq_some_iff.mp hx).1, hx, Option.map_some,
      Option.map_some, hf]
  · rw [getElem?_set_ne hij]

theorem Ordered.of_map_eq (h : Ordered key l) (hmap : l'.map key = l.map key) :
    Ordered key l' := by
  intro i x y hx hy
  obtain ⟨x', hx', hkx⟩ := exists_of_map_eq hmap hx
  obtain ⟨y', hy', hky⟩ := exists_of_map_eq hmap hy
  rw [← hkx, ← hky]
  exact h i x' y' hx' hy'

theorem Ordered.of_append {ys : List α} (h : Ordered key (l ++ ys)) : Ordered key l :=
  fun i x y hx hy => h i x y (getElem?_append_of_eq_some hx) (getElem?_append_of_eq_some hy)

theorem Ordered.holed (h : Ordered key l) (s : ℕ) : Holed key l s where
  aside i x y _ _ hx hy := h i x y hx hy
  across hs c x y hc hx hy := by
    have hcl : c < l.length := (List.getElem?_eq_some_iff.mp hy).1
    have hsl : s < l.length := (hc ▸ parent_le c).trans_lt hcl
    have hz := getElem?_eq_getElem hsl
    exact (h s x _ hx hz).trans (h c _ y (hc ▸ hz) hy)

theorem Holed.set (h : Holed key l s) (m : α) : Holed key (l.set s m) s where
  aside i x y hi hp hx hy := by
    rw [getElem?_set_ne hp.symm] at hx
    rw [getElem?_set_ne hi.symm] at hy
    exact h.aside i x y hi hp hx hy
  across hs c x y hc hx hy := by
    rw [getElem?_set_ne (parent_lt hs).ne'] at hx
    rw [getElem?_set_ne (by rintro rfl; exact (parent_lt hs).ne hc)] at hy
    exact h.across hs c x y hc hx hy

theorem getElem?_set_parent (hs : s ≠ 0) : (l.set s m)[parent s]? = l[parent s]? :=
  getElem?_set_ne (parent_lt hs).ne'

theorem Ordered.holed_concat (h : Ordered key l) (m : α) : Holed key (l ++ [m]) l.length where
  aside i x y hi hp hx hy := by
    have hi' : i < (l ++ [m]).length := (List.getElem?_eq_some_iff.mp hy).1
    have hp' : parent i < (l ++ [m]).length := (List.getElem?_eq_some_iff.mp hx).1
    rw [List.length_append, List.length_singleton] at hi' hp'
    rw [getElem?_append_left (by omega)] at hx hy
    exact h i x y hx hy
  across hs c x y hc hx hy := by
    have hc' : c < (l ++ [m]).length := (List.getElem?_eq_some_iff.mp hy).1
    have hlt := lt_of_parent_eq (by rintro rfl; exact (parent_lt hs).ne hc) hc
    rw [length_append, length_singleton] at hc'
    omega

theorem below_concat (l : List α) (m x : α) : Below key (l ++ [x]) l.length m := by
  intro c y hc hp hy
  have hc' : c < (l ++ [x]).length := (List.getElem?_eq_some_iff.mp hy).1
  have hlt := lt_of_parent_eq hc hp
  rw [length_append, length_singleton] at hc'
  omega

theorem below_of_leaf (h : l.length ≤ leftChild s) (m : α) : Below key l s m := by
  intro c y hc hp hy
  have hlt := (List.getElem?_eq_some_iff.mp hy).1
  rcases eq_child_of_parent_eq hc hp with rfl | rfl <;> omega

section

variable (h : Holed key l s)
include h

theorem Holed.below (hs : s ≠ 0) (hx : l[parent s]? = some x)
    (hlt : key m < key x) : Below key l s m :=
  fun c y _ hp hy => hlt.le.trans (h.across hs c x y hp hx hy)

theorem Holed.fill (habove : Above key l s m) (hbelow : Below key l s m) :
    Ordered key (l.set s m) := by
  intro i x y hx hy
  by_cases his : i = s
  · subst his
    rcases eq_or_ne i 0 with rfl | hi
    · obtain rfl := Option.some.inj (hx.symm.trans hy)
      exact le_rfl
    · rw [getElem?_set_parent hi] at hx
      rw [getElem?_set, if_pos rfl] at hy
      split_ifs at hy
      cases hy
      exact habove hi x hx
  · rw [getElem?_set_ne (Ne.symm his)] at hy
    by_cases hps : parent i = s
    · rw [hps, getElem?_set, if_pos rfl] at hx
      split_ifs at hx
      cases hx
      exact hbelow i y his hps hy
    · rw [getElem?_set_ne (Ne.symm hps)] at hx
      exact h.aside i x y his hps hx hy

theorem Holed.moveUp (hs : s ≠ 0) (hsl : s < l.length)
    (hx : l[parent s]? = some x) (hlt : key m < key x) :
    Holed key (l.set s x) (parent s) ∧ Below key (l.set s x) (parent s) m := by
  have hps := parent_lt hs
  have hset : (l.set s x)[s]? = some x := by rw [getElem?_set, if_pos rfl, if_pos hsl]
  -- The other children of the parent come after it.
  have hsibling : ∀ c y, c ≠ s → c ≠ parent s → parent c = parent s → l[c]? = some y →
      key x ≤ key y := fun c y hcs hcp hc hy =>
    h.aside c x y hcs (hc ▸ hps.ne) (hc ▸ hx) hy
  refine ⟨⟨?_, ?_⟩, ?_⟩
  · intro i a b hi hp ha hb
    by_cases his : i = s
    · exact absurd (congrArg parent his) hp
    · rw [getElem?_set_ne (Ne.symm his)] at hb
      by_cases hpi : parent i = s
      · rw [hpi, hset] at ha
        cases ha
        exact h.across hs i x b hpi hx hb
      · rw [getElem?_set_ne (Ne.symm hpi)] at ha
        exact h.aside i a b his hpi ha hb
  · intro hp0 c a b hc ha hb
    have hpp := parent_lt hp0
    rw [getElem?_set_ne (by omega)] at ha
    have hax : key a ≤ key x := h.aside (parent s) a x hps.ne (by omega) ha hx
    by_cases hcs : c = s
    · rw [hcs, hset] at hb
      cases hb
      exact hax
    · rw [getElem?_set_ne (Ne.symm hcs)] at hb
      refine hax.trans (hsibling c b hcs ?_ hc hb)
      rintro rfl
      exact hpp.ne hc
  · intro c y hcp hc hy
    by_cases hcs : c = s
    · rw [hcs, hset] at hy
      cases hy
      exact hlt.le
    · rw [getElem?_set_ne (Ne.symm hcs)] at hy
      exact hlt.le.trans (hsibling c y hcs hcp hc hy)

theorem Holed.moveDown {c : ℕ} (hcs : c ≠ s) (hc : parent c = s)
    (hx : l[c]? = some x)
    (hleast : ∀ c' y, c' ≠ s → parent c' = s → l[c']? = some y → key x ≤ key y)
    (hlt : key x < key m) : Holed key (l.set s x) c ∧ Above key (l.set s x) c m := by
  have hcl : c < l.length := (List.getElem?_eq_some_iff.mp hx).1
  have hsc : s < c := lt_of_parent_eq hcs hc
  have hset : (l.set s x)[s]? = some x := by
    rw [getElem?_set, if_pos rfl, if_pos (by omega)]
  refine ⟨⟨?_, ?_⟩, ?_⟩
  · intro i a b hi hp ha hb
    by_cases his : i = s
    · subst his
      rw [hset] at hb
      cases hb
      rcases eq_or_ne i 0 with rfl | hi0
      · rw [show parent 0 = 0 from rfl, hset] at ha
        exact (congrArg key (Option.some.inj ha)).ge
      · rw [getElem?_set_parent hi0] at ha
        exact h.across hi0 c a x hc ha hx
    · rw [getElem?_set_ne (Ne.symm his)] at hb
      by_cases hpi : parent i = s
      · rw [hpi, hset] at ha
        cases ha
        exact hleast i b his hpi hb
      · rw [getElem?_set_ne (Ne.symm hpi)] at ha
        exact h.aside i a b his hpi ha hb
  · intro _ c' a b hc' ha hb
    rw [hc, hset] at ha
    cases ha
    have hcc' : c < c' := lt_of_parent_eq (by rintro rfl; omega) hc'
    rw [getElem?_set_ne (by omega)] at hb
    exact h.aside c' x b (by omega) (hc' ▸ hcs) (hc' ▸ hx) hb
  · intro _ a ha
    rw [hc, hset] at ha
    cases ha
    exact hlt.le

end

theorem cons_set_perm {front : List α} (hx : front[s]? = some x) (m : α) :
    (x :: front.set s m).Perm (front ++ [m]) := by
  obtain ⟨hs, rfl⟩ := List.getElem?_eq_some_iff.mp hx
  calc front[s] :: front.set s m
      _ |>.Perm (front[s] :: m :: front.eraseIdx s) := (set_perm_cons_eraseIdx hs m).cons _
      _ |>.Perm (m :: front[s] :: front.eraseIdx s) := .swap _ _ _
      _ |>.Perm (m :: front) := (getElem_cons_eraseIdx_perm hs).cons _
      _ |>.Perm (front ++ [m]) := (perm_append_singleton _ _).symm

theorem set_set_perm {p : ℕ} (hsl : s < l.length) (hps : p ≠ s) (hx : l[p]? = some x) :
    ((l.set s x).set p m).Perm (l.set s m) := by
  obtain ⟨hpl, rfl⟩ := List.getElem?_eq_some_iff.mp hx
  have hsl' : s < (l.set s m).length := by rwa [List.length_set]
  have hpl' : p < (l.set s m).length := by rwa [length_set]
  have h := set_set_perm hsl' hpl'
  simpa [getElem_set_ne hps.symm] using h

variable {id : α → ℕ} {table : List ℤ}

def Located (id : α → ℕ) (table : List ℤ) (l : List α) : Prop :=
  ∀ (i : ℕ) (x : α), l[i]? = some x → table[id x]? = some (i : ℤ)

def LocatedBut (id : α → ℕ) (table : List ℤ) (l : List α) (s : ℕ) : Prop :=
  ∀ (i : ℕ) (x : α), i ≠ s → l[i]? = some x → table[id x]? = some (i : ℤ)

instance : Decidable (Located id table l) :=
  decidable_of_iff (∀ i < l.length, ∀ x ∈ l[i]?, table[id x]? = some (i : ℤ))
    ⟨fun h i x hx => h i (List.getElem?_eq_some_iff.mp hx).1 x hx, fun h i _ x hx => h i x hx⟩

theorem Located.eq_of_id_eq (h : Located id table l) {i j : ℕ} {y : α} (hx : l[i]? = some x)
    (hy : l[j]? = some y) (hid : id x = id y) : i = j := by
  have hi := h i x hx
  rw [hid, h j y hy] at hi
  exact Int.ofNat_inj.mp (Option.some.inj hi).symm

theorem Located.of_append {ys : List α} (h : Located id table (l ++ ys)) : Located id table l :=
  fun i x hx => h i x (getElem?_append_of_eq_some hx)

section

variable (h : Located id table l)
include h

theorem Located.append (more : List ℤ) : Located id (table ++ more) l :=
  fun i x hx => getElem?_append_of_eq_some (h i x hx)

theorem Located.nodup : (l.map id).Nodup := by
  refine pairwise_map.mpr (pairwise_iff_getElem.mpr fun i j hi hj hlt hid => ?_)
  have hij := h.eq_of_id_eq (getElem?_eq_getElem hi) (getElem?_eq_getElem hj) hid
  omega

theorem Located.congr {table' : List ℤ}
    (htable : ∀ x ∈ l, table'[id x]? = table[id x]?) : Located id table' l :=
  fun i x hx => (htable x (mem_of_getElem? hx)).trans (h i x hx)

theorem Located.of_map_eq (hmap : l'.map id = l.map id) :
    Located id table l' := by
  intro i y hy
  obtain ⟨x, hx, hid⟩ := exists_of_map_eq hmap hy
  rw [← hid]
  exact h i x hx

theorem Located.id_lt (hx : x ∈ l) : id x < table.length := by
  obtain ⟨i, hi⟩ := List.mem_iff_getElem?.mp hx
  exact (List.getElem?_eq_some_iff.mp (h i x hi)).1

end

structure Hole (id : α → ℕ) (table : List ℤ) (l : List α) (s : ℕ) (m : α) : Prop where
  lt : s < l.length
  located : LocatedBut id table l s
  fresh : ∀ i y, i ≠ s → l[i]? = some y → id y ≠ id m

theorem Located.hole_set {front : List α} (h : Located id table (front ++ [m]))
    (hs : s < front.length) : Hole id (table.set (id m) s) (front.set s m) s m := by
  have hm : (front ++ [m])[front.length]? = some m := getElem?_concat_length
  have hfresh : ∀ i y, i ≠ s → (front.set s m)[i]? = some y →
      (front ++ [m])[i]? = some y ∧ id y ≠ id m := by
    intro i y hi hy
    rw [List.getElem?_set_ne hi.symm] at hy
    have hlt := (List.getElem?_eq_some_iff.mp hy).1
    have hy' : (front ++ [m])[i]? = some y := getElem?_append_of_eq_some hy
    exact ⟨hy', fun hid => hlt.ne (h.eq_of_id_eq hy' hm hid)⟩
  refine ⟨by rwa [length_set], fun i y hi hy => ?_, fun i y hi hy => (hfresh i y hi hy).2⟩
  obtain ⟨hy', hid⟩ := hfresh i y hi hy
  rw [getElem?_set_ne hid.symm]
  exact h i y hy'

theorem Located.hole_concat (h : Located id table l) (hm : ∀ y ∈ l, id y ≠ id m) :
    Hole id table (l ++ [m]) l.length m := by
  have hold : ∀ i y, i ≠ l.length → (l ++ [m])[i]? = some y → l[i]? = some y := by
    intro i y hi hy
    have hlt := (List.getElem?_eq_some_iff.mp hy).1
    rw [List.length_append, List.length_singleton] at hlt
    rwa [getElem?_append_left (by omega)] at hy
  refine ⟨by simp, fun i y hi hy => h i y (hold i y hi hy), fun i y hi hy => ?_⟩
  exact hm y (mem_of_getElem? (hold i y hi hy))

structure Sifted (key : α → κ) (id : α → ℕ) (table : List ℤ) (l : List α) (s : ℕ) (m : α)
    (table' : List ℤ) (l' : List α) : Prop where
  ordered : Ordered key l'
  located : Located id table' l'
  perm : l'.Perm (l.set s m)
  length_table : table'.length = table.length
  others : ∀ j, (∀ x ∈ l.set s m, id x ≠ j) → table'[j]? = table[j]?

theorem Hole.move (h : Hole id table l s m) {p : ℕ} (hps : p ≠ s) (hx : l[p]? = some x) :
    Hole id (table.set (id x) s) (l.set s x) p m where
  lt := by
    rw [List.length_set]
    exact (List.getElem?_eq_some_iff.mp hx).1
  located i y hi hy := by
    have hp := h.located p x hps hx
    by_cases his : i = s
    · subst his
      rw [getElem?_set, if_pos rfl, if_pos h.lt] at hy
      cases hy
      rw [List.getElem?_set, if_pos rfl, if_pos (List.getElem?_eq_some_iff.mp hp).1]
    · rw [List.getElem?_set_ne (Ne.symm his)] at hy
      have hy' := h.located i y his hy
      rw [getElem?_set_ne, hy']
      intro hid
      rw [hid, hy'] at hp
      exact hi (Int.ofNat_inj.mp (Option.some.inj hp))
  fresh i y hi hy := by
    by_cases his : i = s
    · subst his
      rw [getElem?_set, if_pos rfl, if_pos h.lt] at hy
      cases hy
      exact h.fresh p x hps hx
    · rw [getElem?_set_ne (Ne.symm his)] at hy
      exact h.fresh i y his hy

theorem Hole.fill (h : Hole id table l s m) (hm : id m < table.length)
    (hordered : Ordered key (l.set s m)) :
    Sifted key id table l s m (table.set (id m) s) (l.set s m) where
  ordered := hordered
  located i y hy := by
    by_cases his : i = s
    · subst his
      rw [getElem?_set, if_pos rfl, if_pos h.lt] at hy
      cases hy
      rw [getElem?_set, if_pos rfl, if_pos hm]
    · rw [getElem?_set_ne (Ne.symm his)] at hy
      rw [getElem?_set_ne (h.fresh i y his hy).symm]
      exact h.located i y his hy
  perm := .refl _
  length_table := length_set
  others j hj := by
    refine getElem?_set_ne (hj m ?_)
    exact mem_iff_getElem?.mpr ⟨s, by rw [getElem?_set, if_pos rfl, if_pos h.lt]⟩

theorem Sifted.of_move {p : ℕ} {table' : List ℤ} (hsl : s < l.length) (hps : p ≠ s)
    (hx : l[p]? = some x)
    (h : Sifted key id (table.set (id x) s) (l.set s x) p m table' l') :
    Sifted key id table l s m table' l' where
  ordered := h.ordered
  located := h.located
  perm := h.perm.trans (set_set_perm hsl hps hx)
  length_table := h.length_table.trans length_set
  others j hj := by
    have hmem : x ∈ l.set s m :=
      mem_iff_getElem?.mpr ⟨p, by rw [getElem?_set_ne hps.symm, hx]⟩
    rw [h.others j fun y hy => hj y ((set_set_perm hsl hps hx).mem_iff.mp hy),
      getElem?_set_ne (hj x hmem)]

end Icm.Lib.Heap
