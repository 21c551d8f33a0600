import Icm.Lib.Heap
import Icm.Lib.Run
import Icm.Timer.TimeValue

/-!
# The timer heap

Class `TimerHeapT` of `icc/TimerHeap.cpp`: timers in a binary heap by their deadlines, and a table
`mTimerIds` that gives the slot in the heap of the timer with an id.
-/

namespace Icm.Timer

open Icm.Lib Icm.Lib.Heap List

/-- How code ends that does not return: an assertion fails, an array is accessed outside its bounds,
a time overflows, or a loop goes on forever. -/
inductive Fault
  | assertion
  | outOfBounds
  | overflow
  | endless
  deriving DecidableEq, Repr

structure TimerNodeDispatchInfo (τ ρ : Type) where
  type : τ
  act : ρ
  recurringTimer : Bool
  deriving DecidableEq, Repr

structure TimerNode (τ ρ : Type) where
  type : τ
  act : ρ
  timerValue : TimeValue
  interval : TimeValue
  timerId : ℕ
  deriving DecidableEq, Repr

def TimerNode.getDispatchInfo {τ ρ : Type} (node : TimerNode τ ρ) : TimerNodeDispatchInfo τ ρ where
  type := node.type
  act := node.act
  recurringTimer := TimeValue.zero < node.interval

def TimerNode.Admitted {τ ρ : Type} (mMaxSize : ℕ) (node : TimerNode τ ρ) : Prop :=
  (node.timerId : ℤ) < (mMaxSize : ℤ).bmod (2 ^ 32)

instance {τ ρ : Type} (mMaxSize : ℕ) :
    DecidablePred (TimerNode.Admitted mMaxSize : TimerNode τ ρ → Prop) :=
  fun node => inferInstanceAs (Decidable ((node.timerId : ℤ) < (mMaxSize : ℤ).bmod (2 ^ 32)))

theorem TimerNode.Admitted.lt {τ ρ : Type} {size : ℕ} {x : TimerNode τ ρ} (hx : x.Admitted size) :
    x.timerId < size := by
  rw [Admitted, Int.bmod_def] at hx
  split_ifs at hx <;> omega

structure TimerHeap (τ ρ : Type) where
  mHeap : List (TimerNode τ ρ)
  mTimerIds : List ℤ
  mCurLimbo : ℕ
  mTimerIdsCurr : ℕ
  mTimerIdsMinFree : ℕ
  deriving DecidableEq, Repr

namespace TimerHeap

variable {τ ρ : Type}

def new (size : ℕ) : TimerHeap τ ρ where
  mHeap := []
  mTimerIds := replicate (min size (2 ^ 63 - 1)) (-1)
  mCurLimbo := 0
  mTimerIdsCurr := 0
  mTimerIdsMinFree := 0

def mCurSize (h : TimerHeap τ ρ) : ℕ := h.mHeap.length

def mMaxSize (h : TimerHeap τ ρ) : ℕ := h.mTimerIds.length

def copy (h : TimerHeap τ ρ) (slot : ℕ) (movedNode : TimerNode τ ρ) :
    Except Fault (TimerHeap τ ρ) := do
  require .outOfBounds (slot < h.mMaxSize)
  require .assertion (movedNode.Admitted h.mMaxSize)
  return { h with
    mHeap := h.mHeap.set slot movedNode
    mTimerIds := h.mTimerIds.set movedNode.timerId slot }

def node (h : TimerHeap τ ρ) (slot : ℕ) : Except Fault (TimerNode τ ρ) :=
  match h.mHeap[slot]? with
  | some x => .ok x
  | none => .error .outOfBounds

def reheapUp (movedNode : TimerNode τ ρ) :
    ℕ → TimerHeap τ ρ → ℕ → Except Fault (TimerHeap τ ρ)
  | 0, h, slot => h.copy slot movedNode
  | rounds + 1, h, slot =>
    if 0 < slot then do
      let x ← h.node (parent slot)
      if movedNode.timerValue < x.timerValue then
        let h ← h.copy slot x
        reheapUp movedNode rounds h (parent slot)
      else h.copy slot movedNode
    else h.copy slot movedNode

def smallerChild (h : TimerHeap τ ρ) (child : ℕ) : ℕ :=
  match h.mHeap[child + 1]?, h.mHeap[child]? with
  | some right, some left => if right.timerValue < left.timerValue then child + 1 else child
  | _, _ => child

/-- `reheapDown`. -/
def reheapDown (movedNode : TimerNode τ ρ) :
    ℕ → TimerHeap τ ρ → ℕ → Except Fault (TimerHeap τ ρ)
  | 0, h, slot => h.copy slot movedNode
  | rounds + 1, h, slot =>
    if leftChild slot < h.mCurSize then do
      let child := h.smallerChild (leftChild slot)
      let x ← h.node child
      if x.timerValue < movedNode.timerValue then
        let h ← h.copy slot x
        reheapDown movedNode rounds h child
      else h.copy slot movedNode
    else h.copy slot movedNode

def setTimerId (h : TimerHeap τ ρ) (id : ℕ) (entry : ℤ) : Except Fault (TimerHeap τ ρ) := do
  require .outOfBounds (id < h.mMaxSize)
  return { h with mTimerIds := h.mTimerIds.set id entry }

def closeGap (h : TimerHeap τ ρ) (slot : ℕ) : Except Fault (TimerHeap τ ρ) :=
  let shrunk := { h with mHeap := h.mHeap.dropLast }
  if slot < shrunk.mCurSize then do
    let movedNode ← h.node shrunk.mCurSize
    let h ← shrunk.copy slot movedNode
    let above ← h.node (parent slot)
    if above.timerValue ≤ movedNode.timerValue then reheapDown movedNode h.mCurSize h slot
    else reheapUp movedNode slot h slot
  else .ok shrunk

def remove (h : TimerHeap τ ρ) (slot : ℕ) : Except Fault (TimerNode τ ρ × TimerHeap τ ρ) := do
  let removedNode ← h.node slot
  let h ← h.closeGap slot
  let h ← h.setTimerId removedNode.timerId (-2)
  return (removedNode, { h with mCurLimbo := h.mCurLimbo + 1 })

def growHeap (h : TimerHeap τ ρ) : TimerHeap τ ρ :=
  { h with
    mTimerIds := h.mTimerIds ++
      (range h.mMaxSize).map fun (i : ℕ) => -((h.mMaxSize + i : ℕ) + 1 : ℤ)
    mTimerIdsMinFree := h.mMaxSize * 2 }

def makeRoom (h : TimerHeap τ ρ) : TimerHeap τ ρ :=
  if h.mMaxSize ≤ h.mCurSize + h.mCurLimbo + 2 then h.growHeap else h

def insert (h : TimerHeap τ ρ) (newNode : TimerNode τ ρ) : Except Fault (TimerHeap τ ρ) :=
  let h := h.makeRoom
  reheapUp newNode h.mCurSize { h with mHeap := h.mHeap ++ [newNode] } h.mCurSize

def reschedule (h : TimerHeap τ ρ) (expired : TimerNode τ ρ) : Except Fault (TimerHeap τ ρ) :=
  insert (if h.mTimerIds[expired.timerId]? = some (-2) then
    { h with mCurLimbo := h.mCurLimbo - 1 } else h) expired

def pushFreelist (h : TimerHeap τ ρ) (oldid : ℕ) : Except Fault (TimerHeap τ ρ) :=
  match h.mTimerIds[oldid]? with
  | none => .error .outOfBounds
  | some entry =>
    let h := if entry = -2 then { h with mCurLimbo := h.mCurLimbo - 1 }
      else { h with mHeap := h.mHeap.dropLast }
    .ok { h with
      mTimerIds := h.mTimerIds.set oldid (-1)
      mTimerIdsMinFree :=
        if oldid < h.mTimerIdsMinFree ∧ oldid ≤ h.mTimerIdsCurr then oldid
        else h.mTimerIdsMinFree }

def freeNode (h : TimerHeap τ ρ) (node : TimerNode τ ρ) : Except Fault (TimerHeap τ ρ) :=
  h.pushFreelist node.timerId

def isEmpty (h : TimerHeap τ ρ) : Bool := h.mCurSize == 0

def removeFirst (h : TimerHeap τ ρ) : Except Fault (TimerNode τ ρ × TimerHeap τ ρ) := h.remove 0

def HasRoom (h : TimerHeap τ ρ) : Prop := h.mCurSize + h.mCurLimbo + 2 ≤ h.mMaxSize

instance (h : TimerHeap τ ρ) : Decidable h.HasRoom := inferInstanceAs (Decidable (_ ≤ _))

/-- The heap is ordered by the deadlines, the table gives the slot of every timer in it, the heap
fits in its array, and the assertion holds of its timers. -/
structure Valid (h : TimerHeap τ ρ) : Prop where
  ordered : Ordered TimerNode.timerValue h.mHeap
  located : Located TimerNode.timerId h.mTimerIds h.mHeap
  fits : h.mCurSize ≤ h.mMaxSize
  admitted : ∀ x ∈ h.mHeap, x.Admitted h.mMaxSize

instance (h : TimerHeap τ ρ) : Decidable h.Valid :=
  decidable_of_iff (Ordered TimerNode.timerValue h.mHeap ∧
      Located TimerNode.timerId h.mTimerIds h.mHeap ∧ h.mCurSize ≤ h.mMaxSize ∧
      ∀ x ∈ h.mHeap, x.Admitted h.mMaxSize)
    ⟨fun ⟨hordered, hlocated, hfits, hadmitted⟩ => ⟨hordered, hlocated, hfits, hadmitted⟩,
      fun ⟨hordered, hlocated, hfits, hadmitted⟩ => ⟨hordered, hlocated, hfits, hadmitted⟩⟩

theorem valid_new (size : ℕ) : (new size : TimerHeap τ ρ).Valid where
  ordered i x y hx _ := by simp [new] at hx
  located i x hx := by simp [new] at hx
  fits := Nat.zero_le _
  admitted x hx := by simp [new] at hx

variable {h : TimerHeap τ ρ}

theorem copy_eq_ok {slot : ℕ} {m : TimerNode τ ρ} (hslot : slot < h.mMaxSize)
    (hid : m.Admitted h.mMaxSize) :
    h.copy slot m = .ok { h with
      mHeap := h.mHeap.set slot m, mTimerIds := h.mTimerIds.set m.timerId slot } := by
  rw [copy, require_eq_ok.mpr hslot, require_eq_ok.mpr hid]
  rfl

theorem copy_eq_error {slot : ℕ} {m : TimerNode τ ρ}
    (hslot : slot < h.mMaxSize) (hid : ¬ m.Admitted h.mMaxSize) :
    h.copy slot m = .error .assertion := by
  rw [copy, require_bind, if_pos hslot, require_bind, if_neg hid]

theorem node_eq_ok {slot : ℕ} {x : TimerNode τ ρ} :
    h.node slot = .ok x ↔ h.mHeap[slot]? = some x := by
  rw [node]
  cases h.mHeap[slot]? <;> simp

section Loops

variable {h : TimerHeap τ ρ} {slot rounds : ℕ} {m : TimerNode τ ρ}

def Fills (h : TimerHeap τ ρ) (slot : ℕ) (m : TimerNode τ ρ)
    (r : Except Fault (TimerHeap τ ρ)) : Prop :=
  ∃ heap ids, r = .ok { h with mHeap := heap, mTimerIds := ids } ∧
    Sifted TimerNode.timerValue TimerNode.timerId h.mTimerIds h.mHeap slot m ids heap

theorem copy_fills (hhole : Hole TimerNode.timerId h.mTimerIds h.mHeap slot m)
    (hm : m.Admitted h.mMaxSize) (hfits : h.mCurSize ≤ h.mMaxSize)
    (hordered : Ordered TimerNode.timerValue (h.mHeap.set slot m)) :
    h.Fills slot m (h.copy slot m) :=
  ⟨_, _, copy_eq_ok (hhole.lt.trans_le hfits) hm, hhole.fill hm.lt hordered⟩

theorem copy_bind_fills {p : ℕ} {x : TimerNode τ ρ}
    {f : TimerHeap τ ρ → Except Fault (TimerHeap τ ρ)}
    (hhole : Hole TimerNode.timerId h.mTimerIds h.mHeap slot m) (hfits : h.mCurSize ≤ h.mMaxSize)
    (hps : p ≠ slot) (hx : h.mHeap[p]? = some x) (hadmitted : x.Admitted h.mMaxSize)
    (hf : Fills { h with
        mHeap := h.mHeap.set slot x, mTimerIds := h.mTimerIds.set x.timerId slot } p m
      (f { h with mHeap := h.mHeap.set slot x, mTimerIds := h.mTimerIds.set x.timerId slot })) :
    h.Fills slot m (h.copy slot x >>= f) := by
  rw [copy_eq_ok (hhole.lt.trans_le hfits) hadmitted]
  obtain ⟨heap, ids, hr, hsifted⟩ := hf
  exact ⟨heap, ids, hr, .of_move hhole.lt hps hx hsifted⟩

theorem admitted_set (hadmitted : ∀ y ∈ h.mHeap, y.Admitted h.mMaxSize) {x : TimerNode τ ρ}
    (hx : x.Admitted h.mMaxSize) {id : ℕ} {entry : ℤ} :
    ∀ y ∈ h.mHeap.set slot x, y.Admitted (h.mTimerIds.set id entry).length := by
  intro y hy
  rw [length_set]
  rcases mem_or_eq_of_mem_set hy with hy | rfl
  · exact hadmitted y hy
  · exact hx

theorem reheapUp_of_hole (hrounds : slot ≤ rounds)
    (hhole : Hole TimerNode.timerId h.mTimerIds h.mHeap slot m) (hm : m.Admitted h.mMaxSize)
    (hadmitted : ∀ y ∈ h.mHeap, y.Admitted h.mMaxSize) (hfits : h.mCurSize ≤ h.mMaxSize)
    (hholed : Holed TimerNode.timerValue h.mHeap slot)
    (hbelow : Below TimerNode.timerValue h.mHeap slot m) :
    h.Fills slot m (reheapUp m rounds h slot) := by
  induction rounds generalizing h slot with
  | zero =>
    obtain rfl := Nat.le_zero.mp hrounds
    exact copy_fills hhole hm hfits (hholed.fill (fun h0 => absurd rfl h0) hbelow)
  | succ rounds ih =>
    rw [reheapUp]
    split_ifs with hpos
    · have hlt := parent_lt hpos.ne'
      obtain ⟨x, hx⟩ : ∃ x, h.mHeap[parent slot]? = some x :=
        ⟨_, getElem?_eq_getElem (hlt.trans hhole.lt)⟩
      rw [node_eq_ok.mpr hx]
      change h.Fills slot m (if _ then _ else _)
      split_ifs with hbefore
      · have hx' := hadmitted x (mem_of_getElem? hx)
        refine copy_bind_fills hhole hfits hlt.ne hx hx' ?_
        obtain ⟨hholed', hbelow'⟩ := hholed.moveUp hpos.ne' hhole.lt hx hbefore
        exact ih (by omega) (hhole.move hlt.ne hx) (by simpa [mMaxSize] using hm)
          (admitted_set hadmitted hx') (by simpa [mMaxSize, mCurSize] using hfits) hholed' hbelow'
      · refine copy_fills hhole hm hfits (hholed.fill (fun _ y hy => ?_) hbelow)
        obtain rfl := Option.some.inj (hx.symm.trans hy)
        exact not_lt.mp hbefore
    · obtain rfl : slot = 0 := by omega
      exact copy_fills hhole hm hfits (hholed.fill (fun h0 => absurd rfl h0) hbelow)

theorem reheapUp_eq_error (hslot : slot < h.mCurSize) (hfits : h.mCurSize ≤ h.mMaxSize)
    (hm : ¬ m.Admitted h.mMaxSize) : reheapUp m rounds h slot = .error .assertion := by
  induction rounds generalizing h slot with
  | zero => exact copy_eq_error (hslot.trans_le hfits) hm
  | succ rounds ih =>
    rw [reheapUp]
    split_ifs with hpos
    · obtain ⟨x, hx⟩ : ∃ x, h.mHeap[parent slot]? = some x :=
        ⟨_, getElem?_eq_getElem ((parent_le slot).trans_lt hslot)⟩
      rw [node_eq_ok.mpr hx]
      change (if _ then _ else _) = _
      split_ifs with hbefore
      · by_cases hx' : x.Admitted h.mMaxSize
        · rw [copy_eq_ok (hslot.trans_le hfits) hx']
          refine ih ?_ ?_ ?_
          · simpa [mCurSize] using (parent_le slot).trans_lt hslot
          · simpa [mCurSize, mMaxSize] using hfits
          · simpa [mMaxSize] using hm
        · rw [copy_eq_error (hslot.trans_le hfits) hx']
          rfl
      · exact copy_eq_error (hslot.trans_le hfits) hm
    · exact copy_eq_error (hslot.trans_le hfits) hm

theorem smallerChild_spec (hlt : leftChild slot < h.mCurSize) :
    ∃ x, h.mHeap[h.smallerChild (leftChild slot)]? = some x ∧
      h.smallerChild (leftChild slot) ≠ slot ∧
      parent (h.smallerChild (leftChild slot)) = slot ∧
      ∀ c y, c ≠ slot → parent c = slot → h.mHeap[c]? = some y →
        x.timerValue ≤ y.timerValue := by
  have hne : leftChild slot ≠ slot ∧ leftChild slot + 1 ≠ slot := by
    rw [leftChild]
    omega
  obtain ⟨left, hleft⟩ : ∃ x, h.mHeap[leftChild slot]? = some x :=
    ⟨_, getElem?_eq_getElem hlt⟩
  rw [smallerChild, hleft]
  cases hright : h.mHeap[leftChild slot + 1]? with
  | none =>
    refine ⟨left, hleft, hne.1, parent_leftChild slot, fun c y hc hp hy => ?_⟩
    rcases eq_child_of_parent_eq hc hp with rfl | rfl
    · exact (congrArg TimerNode.timerValue (Option.some.inj (hleft.symm.trans hy))).le
    · rw [hright] at hy
      cases hy
  | some right =>
    dsimp only
    split_ifs with hlt
    · refine ⟨right, hright, hne.2, parent_leftChild_succ slot, fun c y hc hp hy => ?_⟩
      rcases eq_child_of_parent_eq hc hp with rfl | rfl
      · obtain rfl := Option.some.inj (hleft.symm.trans hy)
        exact hlt.le
      · exact (congrArg TimerNode.timerValue (Option.some.inj (hright.symm.trans hy))).le
    · refine ⟨left, hleft, hne.1, parent_leftChild slot, fun c y hc hp hy => ?_⟩
      rcases eq_child_of_parent_eq hc hp with rfl | rfl
      · exact (congrArg TimerNode.timerValue (Option.some.inj (hleft.symm.trans hy))).le
      · obtain rfl := Option.some.inj (hright.symm.trans hy)
        exact not_lt.mp hlt

theorem reheapDown_of_hole (hrounds : h.mCurSize ≤ slot + rounds)
    (hhole : Hole TimerNode.timerId h.mTimerIds h.mHeap slot m) (hm : m.Admitted h.mMaxSize)
    (hadmitted : ∀ y ∈ h.mHeap, y.Admitted h.mMaxSize) (hfits : h.mCurSize ≤ h.mMaxSize)
    (hholed : Holed TimerNode.timerValue h.mHeap slot)
    (habove : Above TimerNode.timerValue h.mHeap slot m) :
    h.Fills slot m (reheapDown m rounds h slot) := by
  induction rounds generalizing h slot with
  | zero => exact absurd (hhole.lt.trans_le hrounds) (lt_irrefl _)
  | succ rounds ih =>
    rw [reheapDown]
    split_ifs with hlt
    · obtain ⟨x, hx, hne, hp, hleast⟩ := smallerChild_spec hlt
      have hslot := lt_of_parent_eq hne hp
      obtain ⟨child, hchild⟩ : ∃ child, child = h.smallerChild (leftChild slot) := ⟨_, rfl⟩
      rw [← hchild] at hx hne hp hslot ⊢
      dsimp only
      rw [node_eq_ok.mpr hx]
      change h.Fills slot m (if _ then _ else _)
      split_ifs with hbefore
      · have hx' := hadmitted x (mem_of_getElem? hx)
        refine copy_bind_fills hhole hfits hne hx hx' ?_
        obtain ⟨hholed', habove'⟩ := hholed.moveDown hne hp hx hleast hbefore
        refine ih ?_ (hhole.move hne hx) (by simpa [mMaxSize] using hm)
          (admitted_set hadmitted hx') (by simpa [mMaxSize, mCurSize] using hfits) hholed' habove'
        simp only [mCurSize, length_set] at hrounds ⊢
        omega
      · refine copy_fills hhole hm hfits (hholed.fill habove fun c y hc hp hy => ?_)
        exact (not_lt.mp hbefore).trans (hleast c y hc hp hy)
    · exact copy_fills hhole hm hfits (hholed.fill habove (below_of_leaf (not_lt.mp hlt) m))

theorem reheap_of_hole {above : TimerNode τ ρ} (hm : h.mHeap[slot]? = some m)
    (habove : h.mHeap[parent slot]? = some above)
    (hhole : Hole TimerNode.timerId h.mTimerIds h.mHeap slot m)
    (hadmitted : ∀ y ∈ h.mHeap, y.Admitted h.mMaxSize) (hfits : h.mCurSize ≤ h.mMaxSize)
    (hholed : Holed TimerNode.timerValue h.mHeap slot) :
    h.Fills slot m (if above.timerValue ≤ m.timerValue then reheapDown m h.mCurSize h slot
      else reheapUp m slot h slot) := by
  have hm' := hadmitted m (mem_of_getElem? hm)
  split_ifs with hle
  · refine reheapDown_of_hole (Nat.le_add_left _ _) hhole hm' hadmitted hfits hholed
      fun _ y hy => ?_
    obtain rfl := Option.some.inj (habove.symm.trans hy)
    exact hle
  · refine reheapUp_of_hole le_rfl hhole hm' hadmitted hfits hholed
      (hholed.below ?_ habove (not_le.mp hle))
    -- The first slot is its own parent.
    rintro rfl
    obtain rfl := Option.some.inj (hm.symm.trans habove)
    exact hle le_rfl

end Loops

section Remove

variable {h : TimerHeap τ ρ} {slot : ℕ} {x : TimerNode τ ρ}

theorem Valid.closeGap (hv : h.Valid) (hx : h.mHeap[slot]? = some x) :
    ∃ heap ids, h.closeGap slot = .ok { h with mHeap := heap, mTimerIds := ids } ∧
      (x :: heap).Perm h.mHeap ∧ Ordered TimerNode.timerValue heap ∧
      Located TimerNode.timerId ids heap ∧ ids.length = h.mTimerIds.length ∧
      ∀ j, (∀ y ∈ heap, y.timerId ≠ j) → ids[j]? = h.mTimerIds[j]? := by
  obtain ⟨heap, ids, limbo, curr, minFree⟩ := h
  obtain ⟨hordered, hlocated, hfits, hadmitted⟩ := hv
  obtain ⟨front, m, rfl⟩ : ∃ front m, heap = front ++ [m] := by
    rcases eq_nil_or_concat' heap with rfl | hconcat
    · cases hx
    · exact hconcat
  have hslot := (List.getElem?_eq_some_iff.mp hx).1
  simp only [mCurSize, mMaxSize, List.length_append, List.length_singleton] at hslot hfits hx
  simp only [TimerHeap.closeGap, mCurSize, dropLast_concat]
  split_ifs with hlt
  · have hm : (front ++ [m])[front.length]? = some m := getElem?_concat_length
    have hm' : m.Admitted ids.length := hadmitted m (by simp)
    have hhole := hlocated.hole_set hlt
    have hholed := (hordered.of_append.holed slot).set m
    rw [getElem?_append_left hlt] at hx
    obtain ⟨above, habove⟩ : ∃ above, (front.set slot m)[parent slot]? = some above :=
      ⟨_, getElem?_eq_getElem (by rw [length_set]; exact (parent_le slot).trans_lt hlt)⟩
    obtain ⟨heap', ids', hr, hsifted⟩ := reheap_of_hole
      (h := ⟨front.set slot m, ids.set m.timerId slot, limbo, curr, minFree⟩)
      (by rw [getElem?_set, if_pos rfl, if_pos hlt]) habove hhole
      (admitted_set (h := ⟨front, ids, limbo, curr, minFree⟩)
        (fun y hy => hadmitted y (mem_append_left _ hy)) hm')
      (by rw [mMaxSize, mCurSize, length_set, length_set]; omega) hholed
    have hperm : heap'.Perm (front.set slot m) := by
      have := hsifted.perm
      rwa [set_set] at this
    refine ⟨heap', ids', ?_, (hperm.cons x).trans (cons_set_perm hx m), hsifted.ordered,
      hsifted.located, hsifted.length_table.trans length_set, fun j hj => ?_⟩
    · refine bind_eq_ok.mpr ⟨m, node_eq_ok.mpr hm, bind_eq_ok.mpr ⟨_, copy_eq_ok ?_ hm', ?_⟩⟩
      · change slot < ids.length
        omega
      · exact bind_eq_ok.mpr ⟨above, node_eq_ok.mpr habove, hr⟩
    · have hmem : m ∈ heap' :=
        hperm.mem_iff.mpr (mem_iff_getElem?.mpr ⟨slot, by simp [hlt]⟩)
      rw [hsifted.others j fun y hy => hj y (hsifted.perm.mem_iff.mpr hy)]
      exact getElem?_set_ne (hj m hmem)
  · obtain rfl : slot = front.length := by omega
    obtain rfl : m = x := by simpa using hx
    exact ⟨front, ids, rfl, (perm_append_singleton _ _).symm, hordered.of_append,
      hlocated.of_append, rfl, fun _ _ => rfl⟩

structure Removed (h : TimerHeap τ ρ) (x : TimerNode τ ρ) (h' : TimerHeap τ ρ) : Prop where
  valid : h'.Valid
  perm : (x :: h'.mHeap).Perm h.mHeap
  entry : h'.mTimerIds[x.timerId]? = some (-2)
  mMaxSize_eq : h'.mMaxSize = h.mMaxSize
  mCurLimbo_eq : h'.mCurLimbo = h.mCurLimbo + 1
  mTimerIdsCurr_eq : h'.mTimerIdsCurr = h.mTimerIdsCurr
  mTimerIdsMinFree_eq : h'.mTimerIdsMinFree = h.mTimerIdsMinFree
  others : ∀ j, (∀ y ∈ h.mHeap, y.timerId ≠ j) → h'.mTimerIds[j]? = h.mTimerIds[j]?

theorem Valid.timerId_ne (hv : h.Valid) {heap : List (TimerNode τ ρ)}
    (hperm : (x :: heap).Perm h.mHeap) : ∀ y ∈ heap, y.timerId ≠ x.timerId := by
  have hnodup := (hperm.map TimerNode.timerId).nodup_iff.mpr hv.located.nodup
  intro y hy hid
  exact (nodup_cons.mp hnodup).1 (mem_map.mpr ⟨y, hy, hid⟩)

theorem Valid.remove (hv : h.Valid) (hx : h.mHeap[slot]? = some x) :
    ∃ h', h.remove slot = .ok (x, h') ∧ h.Removed x h' := by
  obtain ⟨heap, ids, hclose, hperm, hordered, hlocated, hlength, hothers⟩ := hv.closeGap hx
  have hid : x.timerId < ids.length := hlength ▸ hv.located.id_lt (mem_of_getElem? hx)
  have hsize : heap.length + 1 ≤ ids.length := by
    rw [hlength]
    exact hperm.length_eq.trans_le hv.fits
  refine ⟨_, bind_eq_ok.mpr ⟨x, node_eq_ok.mpr hx, bind_eq_ok.mpr ⟨_, hclose, bind_eq_ok.mpr
    ⟨_, bind_eq_ok.mpr ⟨(), require_eq_ok.mpr hid, rfl⟩, rfl⟩⟩⟩, ⟨hordered, ?_, ?_, ?_⟩, hperm, ?_,
    ?_, rfl, rfl, rfl, fun j hj => ?_⟩
  · exact hlocated.congr fun y hy => getElem?_set_ne (hv.timerId_ne hperm y hy).symm
  · change heap.length ≤ (ids.set _ _).length
    rw [length_set]
    omega
  · intro y hy
    rw [mMaxSize, length_set, hlength]
    exact hv.admitted y (hperm.mem_iff.mp (mem_cons_of_mem _ hy))
  · rw [getElem?_set, if_pos rfl, if_pos hid]
  · rw [mMaxSize, length_set, hlength]
    rfl
  · have hj' : ∀ y ∈ x :: heap, y.timerId ≠ j := fun y hy => hj y (hperm.mem_iff.mp hy)
    obtain ⟨hxj, hheap⟩ := forall_mem_cons.mp hj'
    rw [getElem?_set_ne hxj]
    exact hothers j hheap

end Remove

section Insert

variable {h : TimerHeap τ ρ} {x : TimerNode τ ρ}

theorem makeRoom_eq (h : TimerHeap τ ρ) : ∃ more minFree, h.makeRoom =
    { h with mTimerIds := h.mTimerIds ++ more, mTimerIdsMinFree := minFree } := by
  rw [makeRoom]
  split_ifs with hfull
  · exact ⟨_, _, rfl⟩
  · exact ⟨[], h.mTimerIdsMinFree, by rw [append_nil]⟩

theorem mMaxSize_growHeap (h : TimerHeap τ ρ) :
    h.growHeap.mMaxSize = h.mMaxSize + h.mMaxSize := by
  simp [growHeap, mMaxSize]

theorem makeRoom_cases (h : TimerHeap τ ρ) :
    h.mMaxSize ≤ h.mCurSize + h.mCurLimbo + 2 ∧ h.makeRoom = h.growHeap ∨
      h.mCurSize + h.mCurLimbo + 2 < h.mMaxSize ∧ h.makeRoom = h := by
  rw [makeRoom]
  split_ifs with hfull
  · exact .inl ⟨hfull, rfl⟩
  · exact .inr ⟨not_le.mp hfull, rfl⟩

theorem pos_of_makeRoom {n : ℕ} (hn : n < h.makeRoom.mMaxSize) : 0 < h.mMaxSize := by
  have hlen := h.mMaxSize_growHeap
  rcases h.makeRoom_cases with ⟨-, hgrow⟩ | ⟨-, hsame⟩
  · rw [hgrow] at hn
    omega
  · rw [hsame] at hn
    omega

theorem mCurSize_lt_makeRoom (hpos : 0 < h.mMaxSize) (hfits : h.mCurSize ≤ h.mMaxSize) :
    h.mCurSize < h.makeRoom.mMaxSize := by
  have hlen := h.mMaxSize_growHeap
  rcases h.makeRoom_cases with ⟨-, hgrow⟩ | ⟨hroom, hsame⟩
  · rw [hgrow]
    omega
  · rw [hsame]
    omega

structure Inserted (h : TimerHeap τ ρ) (x : TimerNode τ ρ) (h' : TimerHeap τ ρ) : Prop where
  valid : h'.Valid
  perm : h'.mHeap.Perm (x :: h.mHeap)
  mCurLimbo_eq : h'.mCurLimbo = h.mCurLimbo
  mMaxSize_eq : h'.mMaxSize = h.makeRoom.mMaxSize
  mTimerIdsCurr_eq : h'.mTimerIdsCurr = h.mTimerIdsCurr
  mTimerIdsMinFree_eq : h'.mTimerIdsMinFree = h.makeRoom.mTimerIdsMinFree
  others : ∀ j, (∀ y ∈ h'.mHeap, y.timerId ≠ j) → h'.mTimerIds[j]? = h.makeRoom.mTimerIds[j]?

theorem mMaxSize_le_makeRoom (h : TimerHeap τ ρ) : h.mMaxSize ≤ h.makeRoom.mMaxSize := by
  obtain ⟨more, minFree, hroom⟩ := h.makeRoom_eq
  rw [hroom, mMaxSize, mMaxSize, length_append]
  exact Nat.le_add_right _ _

theorem Inserted.mMaxSize_le {h' : TimerHeap τ ρ} (hi : h.Inserted x h') :
    h.mMaxSize ≤ h'.mMaxSize :=
  h.mMaxSize_le_makeRoom.trans hi.mMaxSize_eq.ge

theorem Inserted.others_of_lt {h' : TimerHeap τ ρ} (hi : h.Inserted x h') {j : ℕ}
    (hj : j < h.mMaxSize) (hothers : ∀ y ∈ h'.mHeap, y.timerId ≠ j) :
    h'.mTimerIds[j]? = h.mTimerIds[j]? := by
  obtain ⟨more, minFree, hroom⟩ := h.makeRoom_eq
  rw [hi.others j hothers, hroom]
  exact getElem?_append_left hj

theorem Valid.insert (hv : h.Valid) (hadmitted : ∀ y ∈ x :: h.mHeap, y.Admitted h.makeRoom.mMaxSize)
    (hfresh : ∀ y ∈ h.mHeap, y.timerId ≠ x.timerId) :
    ∃ h', h.insert x = .ok h' ∧ h.Inserted x h' := by
  have hx := hadmitted x mem_cons_self
  have hlt := mCurSize_lt_makeRoom (pos_of_makeRoom hx.lt) hv.fits
  obtain ⟨more, minFree, hroom⟩ := h.makeRoom_eq
  rw [hroom] at hlt hadmitted hx
  have hhole := (hv.located.append more).hole_concat hfresh
  obtain ⟨heap, ids, hr, hsifted⟩ := reheapUp_of_hole (h :=
      { h with
        mHeap := h.mHeap ++ [x], mTimerIds := h.mTimerIds ++ more, mTimerIdsMinFree := minFree })
    le_rfl hhole hx
    (fun y hy => hadmitted y ((perm_append_singleton x h.mHeap).mem_iff.mp hy))
    (by rw [mCurSize, length_append]; exact hlt) (hv.ordered.holed_concat x)
    (below_concat h.mHeap x x)
  have hperm : heap.Perm (x :: h.mHeap) := by
    have hset : (h.mHeap ++ [x]).set h.mHeap.length x = h.mHeap ++ [x] := by simp
    exact (hset ▸ hsifted.perm).trans (perm_append_singleton _ _)
  have hinsert : h.insert x = reheapUp x h.makeRoom.mCurSize
    { h.makeRoom with mHeap := h.makeRoom.mHeap ++ [x] } h.makeRoom.mCurSize := rfl
  rw [hroom] at hinsert
  refine ⟨_, hinsert.trans hr, ⟨hsifted.ordered, hsifted.located, ?_, fun y hy => ?_⟩,
    hperm, rfl, ?_, rfl, ?_, fun j hothers => ?_⟩
  · have hlength : heap.length = h.mHeap.length + 1 := hperm.length_eq
    change heap.length ≤ ids.length
    rw [hsifted.length_table, hlength]
    exact hlt
  · rw [mMaxSize, hsifted.length_table]
    exact hadmitted y (hperm.mem_iff.mp hy)
  · rw [hroom]
    exact hsifted.length_table
  · rw [hroom]
  · rw [hroom]
    exact hsifted.others j fun y hy => hothers y (hsifted.perm.mem_iff.mpr hy)

theorem Valid.insert_eq_error (hv : h.Valid) (hpos : 0 < h.mMaxSize)
    (hx : ¬ x.Admitted h.makeRoom.mMaxSize) : h.insert x = .error .assertion := by
  have hlt := mCurSize_lt_makeRoom hpos hv.fits
  obtain ⟨more, minFree, hroom⟩ := h.makeRoom_eq
  rw [hroom] at hlt hx
  have hinsert : h.insert x = reheapUp x h.makeRoom.mCurSize
    { h.makeRoom with mHeap := h.makeRoom.mHeap ++ [x] } h.makeRoom.mCurSize := rfl
  rw [hinsert, hroom]
  refine reheapUp_eq_error ?_ ?_ hx
  · rw [mCurSize, mCurSize, length_append]
    exact Nat.lt_succ_self _
  · rw [mCurSize, length_append]
    exact hlt

end Insert

theorem pushFreelist_of_limbo {id : ℕ} (hid : h.mTimerIds[id]? = some (-2)) :
    h.pushFreelist id = .ok { h with
      mTimerIds := h.mTimerIds.set id (-1)
      mCurLimbo := h.mCurLimbo - 1
      mTimerIdsMinFree :=
        if id < h.mTimerIdsMinFree ∧ id ≤ h.mTimerIdsCurr then id else h.mTimerIdsMinFree } := by
  rw [pushFreelist, hid]
  rfl

structure Freed (h : TimerHeap τ ρ) (id : ℕ) (h' : TimerHeap τ ρ) : Prop where
  lt : id < h.mMaxSize
  mHeap_eq : h'.mHeap = h.mHeap
  mTimerIds_eq : h'.mTimerIds = h.mTimerIds.set id (-1)
  mCurLimbo_eq : h'.mCurLimbo = h.mCurLimbo - 1
  mTimerIdsCurr_eq : h'.mTimerIdsCurr = h.mTimerIdsCurr
  mTimerIdsMinFree_eq : h'.mTimerIdsMinFree =
    if id < h.mTimerIdsMinFree ∧ id ≤ h.mTimerIdsCurr then id else h.mTimerIdsMinFree

theorem freed_of_limbo {x : TimerNode τ ρ}
    (hx : h.mTimerIds[x.timerId]? = some (-2)) :
    ∃ h', h.freeNode x = .ok h' ∧ h.Freed x.timerId h' :=
  ⟨_, pushFreelist_of_limbo hx, (List.getElem?_eq_some_iff.mp hx).1, rfl, rfl, rfl, rfl, rfl⟩

namespace Freed

variable {h h' : TimerHeap τ ρ} {id i : ℕ}

theorem mMaxSize_eq (hf : h.Freed id h') : h'.mMaxSize = h.mMaxSize := by
  rw [mMaxSize, hf.mTimerIds_eq, length_set]
  rfl

theorem entry_self (hf : h.Freed id h') : h'.mTimerIds[id]? = some (-1) := by
  rw [hf.mTimerIds_eq, getElem?_set, if_pos rfl]
  exact if_pos hf.lt

theorem entry_of_ne (hf : h.Freed id h') (hi : i ≠ id) : h'.mTimerIds[i]? = h.mTimerIds[i]? := by
  rw [hf.mTimerIds_eq, getElem?_set_ne hi.symm]

end Freed

theorem Valid.of_freed {h h' : TimerHeap τ ρ} {id : ℕ} (hv : h.Valid) (hf : h.Freed id h')
    (hid : ∀ y ∈ h.mHeap, y.timerId ≠ id) : h'.Valid := by
  refine ⟨?_, ?_, ?_, ?_⟩
  · rw [hf.mHeap_eq]
    exact hv.ordered
  · rw [hf.mHeap_eq]
    exact hv.located.congr fun y hy => hf.entry_of_ne (hid y hy)
  · rw [mCurSize, hf.mHeap_eq, hf.mMaxSize_eq]
    exact hv.fits
  · rw [hf.mHeap_eq, hf.mMaxSize_eq]
    exact hv.admitted

namespace Removed

variable {h h' : TimerHeap τ ρ} {x y : TimerNode τ ρ}

theorem reschedule (hr : h.Removed x h') (hv : h.Valid) (hid : y.timerId = x.timerId)
    (hroom : h.HasRoom) :
    ∃ h'', h'.reschedule y = .ok h'' ∧ Inserted { h' with mCurLimbo := h.mCurLimbo } y h'' := by
  have hlimbo : h'.mCurLimbo - 1 = h.mCurLimbo := by rw [hr.mCurLimbo_eq, Nat.add_sub_cancel]
  rw [TimerHeap.reschedule, if_pos (hid ▸ hr.entry), hlimbo]
  have hlength : h'.mCurSize + 1 = h.mCurSize := hr.perm.length_eq
  have hsame : makeRoom { h' with mCurLimbo := h.mCurLimbo } =
      { h' with mCurLimbo := h.mCurLimbo } := by
    have hmax := hr.mMaxSize_eq
    refine if_neg fun hfull => ?_
    change h'.mMaxSize ≤ h'.mCurSize + h.mCurLimbo + 2 at hfull
    rw [HasRoom] at hroom
    omega
  refine Valid.insert ⟨hr.valid.ordered, hr.valid.located, hr.valid.fits, hr.valid.admitted⟩ ?_
    (hid ▸ hv.timerId_ne hr.perm)
  rw [hsame]
  refine forall_mem_cons.mpr ⟨?_, hr.valid.admitted⟩
  change (y.timerId : ℤ) < (h'.mMaxSize : ℤ).bmod (2 ^ 32)
  rw [hid, hr.mMaxSize_eq]
  exact hv.admitted x (hr.perm.mem_iff.mp mem_cons_self)

theorem freeNode (hr : h.Removed x h') (hv : h.Valid) :
    ∃ h'', h'.freeNode x = .ok h'' ∧ h''.Valid ∧ h'.Freed x.timerId h'' ∧
      h''.mCurLimbo = h.mCurLimbo := by
  obtain ⟨h'', hfree, hf⟩ := freed_of_limbo hr.entry
  refine ⟨h'', hfree, hr.valid.of_freed hf (hv.timerId_ne hr.perm), hf, ?_⟩
  rw [hf.mCurLimbo_eq, hr.mCurLimbo_eq, Nat.add_sub_cancel]

end Removed

end TimerHeap

end Icm.Timer
