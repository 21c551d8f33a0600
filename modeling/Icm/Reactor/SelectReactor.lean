import Icm.Reactor.HandleSet

/-!
# The handlers of the select reactor

The handler table and the wait sets of class `SelectReactor` in `icc/SelectReactor.cpp`.
-/

namespace Icm.Reactor

open Icm.Lib

abbrev ReactorMask := BitVec 64

def readMask : ReactorMask := 1#64 <<< 0

def writeMask : ReactorMask := 1#64 <<< 1

def exceptMask : ReactorMask := 1#64 <<< 2

def acceptMask : ReactorMask := 1#64 <<< 3

def connectMask : ReactorMask := 1#64 <<< 4

def dontCall : ReactorMask := 1#64 <<< 9

def bitEnabled (word bit : ReactorMask) : Bool := word &&& bit != 0#64

inductive EventType where
  | read
  | write
  | except
deriving DecidableEq

namespace EventType

def mask : EventType → ReactorMask
  | read => readMask
  | write => writeMask
  | except => exceptMask

def coveredBy (mask : ReactorMask) : EventType → Bool
  | read => bitEnabled mask readMask || bitEnabled mask acceptMask || bitEnabled mask connectMask
  | write => bitEnabled mask writeMask || bitEnabled mask connectMask
  | except => bitEnabled mask exceptMask

def clearedBy (mask : ReactorMask) : EventType → Bool
  | read => bitEnabled mask readMask || bitEnabled mask acceptMask
  | write => bitEnabled mask writeMask
  | except => bitEnabled mask exceptMask

theorem coveredBy_of_clearedBy {e : EventType} {mask : ReactorMask} (h : e.clearedBy mask = true) :
    e.coveredBy mask = true := by
  cases e <;> simp_all [clearedBy, coveredBy]

end EventType

structure SelectReactorHandleSet where
  rdMask : HandleSet
  wrMask : HandleSet
  exMask : HandleSet
deriving DecidableEq

namespace SelectReactorHandleSet

def of (s : SelectReactorHandleSet) : EventType → HandleSet
  | .read => s.rdMask
  | .write => s.wrMask
  | .except => s.exMask

def reset : SelectReactorHandleSet := ⟨.reset, .reset, .reset⟩

def update (s : SelectReactorHandleSet) (f : EventType → HandleSet → Except Fault HandleSet) :
    Except Fault SelectReactorHandleSet := do
  let rdMask ← f .read s.rdMask
  let wrMask ← f .write s.wrMask
  let exMask ← f .except s.exMask
  .ok ⟨rdMask, wrMask, exMask⟩

@[simp] theorem of_reset (e : EventType) : reset.of e = .reset := by cases e <;> rfl

variable {f : EventType → HandleSet → Except Fault HandleSet}

theorem update_eq_ok {s s' : SelectReactorHandleSet}
    :
    s.update f = .ok s' ↔ ∀ e, f e (s.of e) = .ok (s'.of e) := by
  constructor
  · intro h e
    obtain ⟨rdMask, hrd, h⟩ := bind_eq_ok.mp h
    obtain ⟨wrMask, hwr, h⟩ := bind_eq_ok.mp h
    obtain ⟨exMask, hex, h⟩ := bind_eq_ok.mp h
    cases h
    cases e with
    | read => exact hrd
    | write => exact hwr
    | except => exact hex
  · intro h
    exact bind_eq_ok.mpr ⟨_, h .read, bind_eq_ok.mpr ⟨_, h .write, bind_eq_ok.mpr ⟨_, h .except,
      rfl⟩⟩⟩

theorem exists_update {s : SelectReactorHandleSet}
    (hf : ∀ e, ∃ s', f e (s.of e) = .ok s') :
    ∃ s', s.update f = .ok s' := by
  choose g hg using hf
  refine ⟨⟨g .read, g .write, g .except⟩, update_eq_ok.mpr fun e => ?_⟩
  cases e <;> exact hg _

end SelectReactorHandleSet

variable {η : Type}

/-- `SelectReactor` with its `SelectReactorHandlerRepository`, without the timers. -/
structure SelectReactor (η : Type) where
  eventHandlers : ℤ → Option η
  maxHandleP1 : ℤ
  waitSet : SelectReactorHandleSet
  dispatchSet : SelectReactorHandleSet
  stateChanged : Bool
  width_le : maxHandleP1 ≤ 1024

inductive MaskOps where
  | getMask
  | setMask
  | addMask
  | clrMask
deriving DecidableEq

namespace SelectReactor

def new : SelectReactor η where
  eventHandlers := fun _ => none
  maxHandleP1 := 0
  waitSet := .reset
  dispatchSet := .reset
  stateChanged := false
  width_le := by decide

variable (r : SelectReactor η)

variable (handle : ℤ)

def find : Option η := r.eventHandlers handle

def clearDispatchMask (mask : ReactorMask) : Except Fault (SelectReactor η) := do
  let dispatchSet ← r.dispatchSet.update fun e s =>
    if e.clearedBy mask then s.clrBit handle else .ok s
  .ok { r with dispatchSet, stateChanged := true }

def bitOp (mask : ReactorMask) (ops : MaskOps) (e : EventType) (s : HandleSet) :
    Except Fault HandleSet :=
  if e.coveredBy mask then
    if ops = .clrMask then s.clrBit handle else s.setBit handle
  else if ops = .setMask then s.clrBit handle else .ok s

def oldMask : Except Fault ReactorMask := do
  let rd ← r.waitSet.rdMask.isSet handle
  let wr ← r.waitSet.wrMask.isSet handle
  let ex ← r.waitSet.exMask.isSet handle
  .ok ((if rd then readMask else 0#64) ||| (if wr then writeMask else 0#64) |||
    (if ex then exceptMask else 0#64))

def bitOps (mask : ReactorMask) (ops : MaskOps) :
    Except Fault (SelectReactor η × ReactorMask) := do
  let omask ← r.oldMask handle
  match ops with
  | .getMask => .ok (r, omask)
  | .clrMask => do
    let r ← r.clearDispatchMask handle mask
    let waitSet ← r.waitSet.update (bitOp handle mask .clrMask)
    .ok ({ r with waitSet }, omask)
  | ops => do
    let waitSet ← r.waitSet.update (bitOp handle mask ops)
    .ok ({ r with waitSet }, omask)

def withHandler (eventHandler : η) (h : handle < 1024) : SelectReactor η :=
  { r with
    eventHandlers := fun g =>
      (r.eventHandlers g).or (if g = handle then some eventHandler else none)
    maxHandleP1 := if r.maxHandleP1 < handle + 1 then handle + 1 else r.maxHandleP1
    width_le := by have := r.width_le; split_ifs <;> omega }

def bind (eventHandler : η) (mask : ReactorMask) : Except Fault (SelectReactor η) :=
  if h : handle < 1024 then do
    let (r, _) ← (r.withHandler handle eventHandler h).bitOps handle mask .addMask
    .ok r
  else .error .outOfBounds

def hasAnyWaitMask : Except Fault Bool := do
  let rd ← r.waitSet.rdMask.isSet handle
  let wr ← r.waitSet.wrMask.isSet handle
  let ex ← r.waitSet.exMask.isSet handle
  .ok (rd || wr || ex)

def unbind (mask : ReactorMask) : Except Fault (SelectReactor η) :=
  match r.find handle with
  | none => .ok r
  | some _ => do
    let (r, _) ← r.bitOps handle mask .clrMask
    let any ← r.hasAnyWaitMask handle
    if any then .ok r
    else .ok { r with eventHandlers := Function.update r.eventHandlers handle none }

def callsHandleClose (mask : ReactorMask) : Bool :=
  (r.find handle).isSome && !bitEnabled mask dontCall

end SelectReactor

inductive Operation (η : Type) where
  | registerHandler (handle : ℤ) (eventHandler : η) (mask : ReactorMask)
  | removeHandler (handle : ℤ) (mask : ReactorMask)
deriving DecidableEq

namespace Operation

def removes (e : EventType) (handle : ℤ) : Operation η → Bool
  | registerHandler _ _ _ => false
  | removeHandler h mask => decide (h = handle) && e.coveredBy mask

def clears (e : EventType) (handle : ℤ) : Operation η → Bool
  | registerHandler _ _ _ => false
  | removeHandler h mask => decide (h = handle) && e.clearedBy mask

def binds (handle : ℤ) : Operation η → Bool
  | registerHandler h _ _ => decide (h = handle)
  | removeHandler _ _ => false

theorem removes_of_clears {op : Operation η} {e : EventType} {handle : ℤ}
    (h : op.clears e handle = true) : op.removes e handle = true := by
  cases op with
  | registerHandler _ _ _ => exact h
  | removeHandler g mask =>
    obtain ⟨hg, hmask⟩ := Bool.and_eq_true_iff.mp h
    exact Bool.and_eq_true_iff.mpr ⟨hg, EventType.coveredBy_of_clearedBy hmask⟩

end Operation

namespace SelectReactor

def apply (r : SelectReactor η) : Operation η → Except Fault (SelectReactor η)
  | .registerHandler handle eventHandler mask => r.bind handle eventHandler mask
  | .removeHandler handle mask => r.unbind handle mask

def takesEffect (r : SelectReactor η) : Operation η → Bool
  | .registerHandler handle _ _ => (r.find handle).isNone
  | .removeHandler handle _ => (r.find handle).isSome

variable {r r' : SelectReactor η} {handle : ℤ} {mask : ReactorMask}

theorem dispatchSet_of_clearDispatchMask (h : r.clearDispatchMask handle mask = .ok r')
    (e : EventType) :
    (if e.clearedBy mask then (r.dispatchSet.of e).clrBit handle else .ok (r.dispatchSet.of e)) =
      .ok (r'.dispatchSet.of e) := by
  obtain ⟨dispatchSet, hset, h⟩ := bind_eq_ok.mp h
  cases h
  exact SelectReactorHandleSet.update_eq_ok.mp hset e

theorem clearDispatchMask_spec (h : r.clearDispatchMask handle mask = .ok r') :
    r' = { r with dispatchSet := r'.dispatchSet, stateChanged := true } ∧
      ∀ e, HandleSet.Narrows (e.clearedBy mask) handle (r.dispatchSet.of e)
        (r'.dispatchSet.of e) := by
  have hsets := dispatchSet_of_clearDispatchMask h
  obtain ⟨dispatchSet, -, h⟩ := bind_eq_ok.mp h
  cases h
  exact ⟨rfl, fun e => HandleSet.narrows_of_clrBit (hsets e)⟩

theorem hasAnyWaitMask_eq_ok {any : Bool} (h : r.hasAnyWaitMask handle = .ok any) :
    any = true ↔ ∃ e, (r.waitSet.of e).has handle = true := by
  obtain ⟨rd, hrd, h⟩ := bind_eq_ok.mp h
  obtain ⟨wr, hwr, h⟩ := bind_eq_ok.mp h
  obtain ⟨ex, hex, h⟩ := bind_eq_ok.mp h
  cases h
  obtain ⟨-, rfl⟩ := HandleSet.isSet_eq_ok.mp hrd
  obtain ⟨-, rfl⟩ := HandleSet.isSet_eq_ok.mp hwr
  obtain ⟨-, rfl⟩ := HandleSet.isSet_eq_ok.mp hex
  rw [Bool.or_eq_true, Bool.or_eq_true]
  constructor
  · rintro ((h | h) | h)
    · exact ⟨.read, h⟩
    · exact ⟨.write, h⟩
    · exact ⟨.except, h⟩
  · rintro ⟨e, he⟩
    cases e with
    | read => exact .inl (.inl he)
    | write => exact .inl (.inr he)
    | except => exact .inr he

theorem bind_spec {eventHandler : η} (h : r.bind handle eventHandler mask = .ok r') :
    r'.dispatchSet = r.dispatchSet ∧
      (∀ g, r'.find g = (r.find g).or (if g = handle then some eventHandler else none)) ∧
      (∀ e g, (r'.waitSet.of e).has g = true ↔
        (r.waitSet.of e).has g = true ∨ e.coveredBy mask = true ∧ g = handle) ∧
      r.maxHandleP1 ≤ r'.maxHandleP1 ∧ handle < r'.maxHandleP1 := by
  rw [bind] at h
  by_cases hlt : handle < 1024
  · rw [dif_pos hlt] at h
    obtain ⟨⟨r₁, omask⟩, hops, h⟩ := bind_eq_ok.mp h
    cases h
    obtain ⟨omask', -, hops⟩ := bind_eq_ok.mp hops
    obtain ⟨waitSet, hwait, hops⟩ := bind_eq_ok.mp hops
    cases hops
    refine ⟨rfl, fun g => rfl, fun e g => ?_, ?_, ?_⟩
    · have hset := SelectReactorHandleSet.update_eq_ok.mp hwait e
      rw [bitOp] at hset
      cases hcov : e.coveredBy mask with
      | false =>
        rw [hcov] at hset
        have heq := Except.ok.inj hset
        simp [← heq, withHandler]
      | true =>
        rw [hcov] at hset
        rw [(HandleSet.has_of_setBit hset).2 g, Bool.or_eq_true, decide_eq_true_eq,
          and_iff_right rfl, or_comm]
        rfl
    · dsimp only [withHandler]
      split_ifs <;> omega
    · dsimp only [withHandler]
      split_ifs <;> omega
  · rw [dif_neg hlt] at h
    cases h

section

variable (h : r.unbind handle mask = .ok r')
include h

theorem exists_of_unbind (hsome : (r.find handle).isSome) :
    ∃ r₂ waitSet any, r.clearDispatchMask handle mask = .ok r₂ ∧
      r₂.waitSet.update (bitOp handle mask .clrMask) = .ok waitSet ∧
      ({ r₂ with waitSet } : SelectReactor η).hasAnyWaitMask handle = .ok any ∧
      r' = { r₂ with
        waitSet
        eventHandlers :=
          if any then r₂.eventHandlers else Function.update r₂.eventHandlers handle none } := by
  obtain ⟨eh, hfind⟩ := Option.isSome_iff_exists.mp hsome
  rw [unbind, hfind] at h
  obtain ⟨⟨r₁, omask⟩, hops, h⟩ := bind_eq_ok.mp h
  obtain ⟨omask', -, hops⟩ := bind_eq_ok.mp hops
  obtain ⟨r₂, hclear, hops⟩ := bind_eq_ok.mp hops
  obtain ⟨waitSet, hwait, hops⟩ := bind_eq_ok.mp hops
  cases hops
  obtain ⟨any, hany, h⟩ := bind_eq_ok.mp h
  refine ⟨r₂, waitSet, any, hclear, hwait, hany, ?_⟩
  cases any <;> exact (Except.ok.inj h).symm

theorem unbind_spec :
    r.find handle = none ∧ r' = r ∨
      (r.find handle).isSome ∧ r'.maxHandleP1 = r.maxHandleP1 ∧
        (∀ e, HandleSet.Narrows (e.clearedBy mask) handle (r.dispatchSet.of e)
          (r'.dispatchSet.of e)) ∧
        (∀ e g, (r'.waitSet.of e).has g = true ↔
          (r.waitSet.of e).has g = true ∧ ¬ (e.coveredBy mask = true ∧ g = handle)) ∧
        ∀ g, r'.find g = r.find g ∨ g = handle ∧ r'.find g = none ∧
          ∀ e, (r'.waitSet.of e).has handle = false := by
  cases hfind : r.find handle with
  | none =>
    rw [unbind, hfind] at h
    cases h
    exact .inl ⟨rfl, rfl⟩
  | some eh =>
    have hsome : (r.find handle).isSome := by rw [hfind]; rfl
    obtain ⟨r₂, waitSet, any, hclear, hwait, hany, rfl⟩ := exists_of_unbind h hsome
    obtain ⟨heq, hnarrow⟩ := clearDispatchMask_spec hclear
    rw [heq] at hwait
    have hany' := hasAnyWaitMask_eq_ok hany
    refine .inr ⟨rfl, by rw [heq], hnarrow, fun e g => ?_, fun g => ?_⟩
    · have hset := SelectReactorHandleSet.update_eq_ok.mp hwait e
      exact (HandleSet.narrows_of_clrBit (c := e.coveredBy mask) hset).has_iff g
    · have hsame : r₂.eventHandlers = r.eventHandlers := by rw [heq]
      cases any with
      | true => exact .inl (congrFun hsame g)
      | false =>
        by_cases hg : g = handle
        · refine .inr ⟨hg, by simp [find, hg], fun e => ?_⟩
          by_contra hset
          exact Bool.false_ne_true (hany'.mpr ⟨e, Bool.eq_true_of_not_eq_false hset⟩)
        · exact .inl ((Function.update_of_ne hg _ _).trans (congrFun hsame g))

theorem dispatchSet_of_unbind (hsome : (r.find handle).isSome)
    (e : EventType) :
    (if e.clearedBy mask then (r.dispatchSet.of e).clrBit handle else .ok (r.dispatchSet.of e)) =
      .ok (r'.dispatchSet.of e) := by
  obtain ⟨r₂, waitSet, any, hclear, -, -, rfl⟩ := exists_of_unbind h hsome
  exact dispatchSet_of_clearDispatchMask hclear e

theorem isSome_find_of_unbind (hsome : (r.find handle).isSome) :
    (r'.find handle).isSome ↔ ∃ e, (r'.waitSet.of e).has handle = true := by
  obtain ⟨r₂, waitSet, any, hclear, -, hany, rfl⟩ := exists_of_unbind h hsome
  have hany := hasAnyWaitMask_eq_ok hany
  have hkeep : r₂.eventHandlers = r.eventHandlers := by rw [(clearDispatchMask_spec hclear).1]
  cases any with
  | true => exact iff_of_true (by simpa [find, hkeep] using hsome) (hany.mp rfl)
  | false =>
    refine iff_of_false ?_ fun hex => Bool.false_ne_true (hany.mpr hex)
    simp [find]

end

def Registered (r : SelectReactor η) : Prop :=
  ∀ e g, (r.waitSet.of e).has g = true → (r.find g).isSome ∧ g < r.maxHandleP1

theorem registered_new : (new : SelectReactor η).Registered := by
  intro e g h
  simp [new] at h

theorem Registered.apply {op : Operation η} (hr : r.Registered) (h : r.apply op = .ok r') :
    r'.Registered := by
  intro e g hg
  cases op with
  | registerHandler handle eventHandler mask =>
    obtain ⟨-, hfind, hwait, hle, hlt⟩ := bind_spec h
    rw [hfind]
    rcases (hwait e g).mp hg with hg | ⟨-, rfl⟩
    · obtain ⟨hsome, hbelow⟩ := hr e g hg
      exact ⟨by simp [hsome], by omega⟩
    · exact ⟨by simp, hlt⟩
  | removeHandler handle mask =>
    rcases unbind_spec h with ⟨-, rfl⟩ | ⟨-, hmax, -, hwait, hfind⟩
    · exact hr e g hg
    · obtain ⟨hsome, hbelow⟩ := hr e g ((hwait e g).mp hg).1
      rcases hfind g with heq | ⟨rfl, -, hnone⟩
      · exact ⟨by rwa [heq], by rwa [hmax]⟩
      · rw [hnone e] at hg
        cases hg

theorem registered_of_run {ops : List (Operation η)} (h : runSteps apply new ops = .ok r) :
    r.Registered :=
  runSteps_invariant (C := fun _ _ => True) (fun _ _ _ hr _ hs => hr.apply hs) registered_new
    (eachStep_true _ _) h

end SelectReactor

end Icm.Reactor
