import Icm.Reactor.Handles
import Icm.Reactor.SelectReactor

/-!
# What is registered with the select reactor

A sequence of calls of `registerHandler` and `removeHandler` leaves a handle registered for the
events of the first calls that no call of the second kind has removed since: the table has the
handler of the handle, and the wait sets have its bits.
-/

namespace Icm.Reactor

open Icm.Lib SelectReactorHandleSet

variable {η : Type}

namespace SelectReactor

variable {r r' : SelectReactor η} {handle : ℤ} {mask : ReactorMask}

theorem exists_oldMask (r : SelectReactor η) (hrange : 0 ≤ handle ∧ handle < 1024) :
    ∃ omask, r.oldMask handle = .ok omask := by
  have hset (s : HandleSet) : s.isSet handle = .ok (s.has handle) := if_pos hrange
  simp only [oldMask, hset]
  exact ⟨_, rfl⟩

theorem exists_hasAnyWaitMask (r : SelectReactor η) (hrange : 0 ≤ handle ∧ handle < 1024) :
    ∃ any, r.hasAnyWaitMask handle = .ok any := by
  have hset (s : HandleSet) : s.isSet handle = .ok (s.has handle) := if_pos hrange
  simp only [hasAnyWaitMask, hset]
  exact ⟨_, rfl⟩

theorem range_of_oldMask {omask : ReactorMask} (h : r.oldMask handle = .ok omask) :
    0 ≤ handle ∧ handle < 1024 := by
  obtain ⟨rd, hrd, -⟩ := bind_eq_ok.mp h
  exact (HandleSet.isSet_eq_ok.mp hrd).1

theorem exists_clearDispatchMask (hclr : ∀ e : EventType, e.clearedBy mask = true →
    ∃ s, (r.dispatchSet.of e).clrBit handle = .ok s) :
    ∃ r', r.clearDispatchMask handle mask = .ok r' := by
  obtain ⟨dispatchSet, hset⟩ := exists_update (s := r.dispatchSet)
    (f := fun e s => if e.clearedBy mask then s.clrBit handle else .ok s) fun e => by
      cases hcleared : e.clearedBy mask with
      | true => exact hclr e hcleared
      | false => exact ⟨_, rfl⟩
  exact ⟨_, bind_eq_ok.mpr ⟨dispatchSet, hset, rfl⟩⟩

theorem exists_bind (hwait : ∀ e, (r.waitSet.of e).Exact) (hrange : 0 ≤ handle ∧ handle < 1024)
    (eventHandler : η) (mask : ReactorMask) : ∃ r', r.bind handle eventHandler mask = .ok r' := by
  obtain ⟨omask, homask⟩ :=
    exists_oldMask (r.withHandler handle eventHandler hrange.2) hrange
  obtain ⟨waitSet, hset⟩ := exists_update (s := r.waitSet)
    (f := bitOp handle mask .addMask) fun e => by
      rw [bitOp]
      cases e.coveredBy mask with
      | true => exact ((hwait e).exists_setBit hrange).imp fun _ h => h.1
      | false => exact ⟨_, rfl⟩
  rw [bind, dif_pos hrange.2]
  exact ⟨_, bind_eq_ok.mpr ⟨_, bind_eq_ok.mpr ⟨omask, homask, bind_eq_ok.mpr ⟨waitSet, hset, rfl⟩⟩,
    rfl⟩⟩

theorem exists_unbind (hwait : ∀ e, (r.waitSet.of e).Exact)
    (hrange : (r.find handle).isSome → 0 ≤ handle ∧ handle < 1024)
    (hclr : (r.find handle).isSome → ∀ e : EventType, e.clearedBy mask = true →
      ∃ s, (r.dispatchSet.of e).clrBit handle = .ok s) :
    ∃ r', r.unbind handle mask = .ok r' := by
  rw [unbind]
  split
  · exact ⟨r, rfl⟩
  rename_i eventHandler hfind
  have hsome : (r.find handle).isSome := by rw [hfind]; rfl
  obtain ⟨omask, homask⟩ := exists_oldMask r (hrange hsome)
  obtain ⟨r₁, hclear⟩ := exists_clearDispatchMask (hclr hsome)
  have hsame : r₁.waitSet = r.waitSet := by rw [(clearDispatchMask_spec hclear).1]
  obtain ⟨waitSet, hset⟩ := exists_update (s := r₁.waitSet)
    (f := bitOp handle mask .clrMask) fun e => by
      rw [bitOp, hsame]
      cases e.coveredBy mask with
      | true => exact ((hwait e).exists_clrBit (hrange hsome)).imp fun _ h => h.1
      | false => exact ⟨_, rfl⟩
  have hops : r.bitOps handle mask .clrMask = .ok ({ r₁ with waitSet }, omask) :=
    bind_eq_ok.mpr ⟨omask, homask, bind_eq_ok.mpr ⟨r₁, hclear, bind_eq_ok.mpr ⟨waitSet, hset, rfl⟩⟩⟩
  obtain ⟨any, hany⟩ := exists_hasAnyWaitMask { r₁ with waitSet } (hrange hsome)
  cases any with
  | true => exact ⟨_, bind_eq_ok.mpr ⟨_, hops, bind_eq_ok.mpr ⟨true, hany, rfl⟩⟩⟩
  | false => exact ⟨_, bind_eq_ok.mpr ⟨_, hops, bind_eq_ok.mpr ⟨false, hany, rfl⟩⟩⟩

end SelectReactor

/-- What happens to a reactor in use: a call, or a change of the dispatch sets by `select` or by the
code of a round. -/
inductive Happening (η : Type) where
  | call (op : Operation η)
  | dispatch (dispatchSet : SelectReactorHandleSet) (stateChanged : Bool)

namespace SelectReactor

variable {r r' : SelectReactor η}

def live (r : SelectReactor η) : Happening η → Except Fault (SelectReactor η)
  | .call op => r.apply op
  | .dispatch dispatchSet stateChanged => .ok { r with dispatchSet, stateChanged }

structure Sound (r : SelectReactor η) : Prop where
  wait : ∀ e, (r.waitSet.of e).Exact
  registered : r.Registered
  range : ∀ handle, (r.find handle).isSome → 0 ≤ handle ∧ handle < 1024

theorem exact_of_reset (e : EventType) : (reset.of e).Exact := by
  rw [of_reset]
  exact HandleSet.exact_reset

theorem sound_new : (new : SelectReactor η).Sound :=
  ⟨exact_of_reset, registered_new, fun handle h => by simp [new, find] at h⟩

theorem Sound.bind {handle : ℤ} {eventHandler : η} {mask : ReactorMask} (hr : r.Sound)
    (h : r.bind handle eventHandler mask = .ok r') : r'.Sound := by
  have hregistered : r'.Registered :=
    hr.registered.apply (show r.apply (.registerHandler handle eventHandler mask) = _ from h)
  obtain ⟨-, hfind, -⟩ := bind_spec h
  rw [SelectReactor.bind] at h
  by_cases hlt : handle < 1024
  · rw [dif_pos hlt] at h
    obtain ⟨⟨r₁, omask⟩, hops, h⟩ := bind_eq_ok.mp h
    cases h
    obtain ⟨omask', homask, hops⟩ := bind_eq_ok.mp hops
    obtain ⟨waitSet, hset, hops⟩ := bind_eq_ok.mp hops
    cases hops
    have hrange := range_of_oldMask homask
    refine ⟨fun e => ?_, hregistered, fun g hg => ?_⟩
    · have hbit := update_eq_ok.mp hset e
      rw [bitOp] at hbit
      cases hcov : e.coveredBy mask with
      | true =>
        rw [hcov] at hbit
        obtain ⟨s, hs, hexact⟩ := (hr.wait e).exists_setBit hrange
        exact Except.ok.inj (hs.symm.trans hbit) ▸ hexact
      | false =>
        rw [hcov] at hbit
        exact Except.ok.inj hbit ▸ hr.wait e
    · rw [hfind] at hg
      by_cases heq : g = handle
      · rwa [heq]
      · rw [if_neg heq, Option.or_none] at hg
        exact hr.range g hg
  · rw [dif_neg hlt] at h
    cases h

theorem Sound.unbind {handle : ℤ} {mask : ReactorMask} (hr : r.Sound)
    (h : r.unbind handle mask = .ok r') : r'.Sound := by
  have hregistered : r'.Registered :=
    hr.registered.apply (show r.apply (.removeHandler handle mask) = _ from h)
  have hspec := unbind_spec h
  rw [SelectReactor.unbind] at h
  split at h
  · cases h
    exact hr
  rename_i eh hfind
  have hrange := hr.range handle (by rw [hfind]; rfl)
  obtain ⟨⟨r₁, omask⟩, hops, h⟩ := bind_eq_ok.mp h
  obtain ⟨omask', -, hops⟩ := bind_eq_ok.mp hops
  obtain ⟨r₂, hclear, hops⟩ := bind_eq_ok.mp hops
  obtain ⟨waitSet, hset, hops⟩ := bind_eq_ok.mp hops
  cases hops
  obtain ⟨any, -, h⟩ := bind_eq_ok.mp h
  have hwaitSet : r'.waitSet = waitSet := by
    cases any <;> exact (congrArg SelectReactor.waitSet (Except.ok.inj h)).symm
  refine ⟨fun e => ?_, hregistered, fun g hg => ?_⟩
  · have hbit := update_eq_ok.mp hset e
    rw [(clearDispatchMask_spec hclear).1, bitOp] at hbit
    rw [hwaitSet]
    cases hcov : e.coveredBy mask with
    | true =>
      rw [hcov] at hbit
      obtain ⟨s, hs, hexact⟩ := (hr.wait e).exists_clrBit hrange
      exact Except.ok.inj (hs.symm.trans hbit) ▸ hexact
    | false =>
      rw [hcov] at hbit
      exact Except.ok.inj hbit ▸ hr.wait e
  · rcases hspec with ⟨hnone, -⟩ | ⟨-, -, -, -, hall⟩
    · rw [hfind] at hnone
      cases hnone
    · rcases hall g with heq | ⟨-, hgone, -⟩
      · exact hr.range g (heq ▸ hg)
      · rw [hgone] at hg
        cases hg

theorem Sound.live (hr : r.Sound) {h : Happening η} (hrun : r.live h = .ok r') : r'.Sound := by
  cases h with
  | call op =>
    cases op with
    | registerHandler handle eventHandler mask => exact hr.bind hrun
    | removeHandler handle mask => exact hr.unbind hrun
  | dispatch dispatchSet stateChanged =>
    cases hrun
    exact ⟨hr.wait, hr.registered, hr.range⟩

theorem sound_of_run {hs : List (Happening η)} (h : runSteps live new hs = .ok r) : r.Sound :=
  runSteps_invariant (C := fun _ _ => True) (fun _ _ _ hr _ hs => hr.live hs) sound_new
    (eachStep_true _ _) h

end SelectReactor

def Live (ops : List (Operation η)) (e : EventType) (handle : ℤ) (eventHandler : η) : Prop :=
  ∃ before mask after, ops = before ++ .registerHandler handle eventHandler mask :: after ∧
    e.coveredBy mask = true ∧ ∀ op ∈ after, op.removes e handle = false

/-- Sequences of calls in which handlers are registered for handles of the sets and for at least one
event, and a handle is given to another handler only after it was fully removed. -/
inductive Orderly : List (Operation η) → Prop where
  | nil : Orderly []
  | register {ops : List (Operation η)} {handle : ℤ} {eventHandler : η} {mask : ReactorMask}
      (hops : Orderly ops) (hrange : 0 ≤ handle ∧ handle < 1024)
      (hmask : ∃ e : EventType, e.coveredBy mask = true)
      (hsame : ∀ e eventHandler', Live ops e handle eventHandler' → eventHandler' = eventHandler) :
      Orderly (ops ++ [.registerHandler handle eventHandler mask])
  | remove {ops : List (Operation η)} (hops : Orderly ops) (handle : ℤ) (mask : ReactorMask) :
      Orderly (ops ++ [.removeHandler handle mask])

theorem not_live_nil {e : EventType} {handle : ℤ} {eventHandler : η} :
    ¬ Live [] e handle eventHandler := by
  rintro ⟨before, mask, after, h, -⟩
  cases before <;> cases h

theorem live_concat {l : List (Operation η)} {op : Operation η} {e : EventType} {handle : ℤ}
    {eventHandler : η} :
    Live (l ++ [op]) e handle eventHandler ↔
      Live l e handle eventHandler ∧ op.removes e handle = false ∨
        ∃ mask, op = .registerHandler handle eventHandler mask ∧ e.coveredBy mask = true := by
  constructor
  · rintro ⟨before, mask, after, hsplit, hcov, hafter⟩
    rcases List.eq_nil_or_concat after with rfl | ⟨after, last, rfl⟩
    · obtain ⟨-, heq⟩ := List.append_inj' hsplit rfl
      exact .inr ⟨mask, List.singleton_injective heq, hcov⟩
    · rw [List.concat_eq_append, ← List.cons_append, ← List.append_assoc] at hsplit
      obtain ⟨rfl, heq⟩ := List.append_inj' hsplit rfl
      obtain rfl := List.singleton_injective heq
      rw [List.concat_eq_append, List.forall_mem_append] at hafter
      exact .inl ⟨⟨before, mask, after, rfl, hcov, hafter.1⟩, hafter.2 op List.mem_cons_self⟩
  · rintro (⟨⟨before, mask, after, rfl, hcov, hafter⟩, hop⟩ | ⟨mask, rfl, hcov⟩)
    · refine ⟨before, mask, after ++ [op], by simp, hcov, List.forall_mem_append.mpr ⟨hafter, ?_⟩⟩
      exact List.forall_mem_singleton.mpr hop
    · exact ⟨l, mask, [], rfl, hcov, nofun⟩

namespace SelectReactor

variable {r r' : SelectReactor η} {handle : ℤ} {mask : ReactorMask} {ops : List (Operation η)}

structure Matches (r : SelectReactor η) (ops : List (Operation η)) : Prop where
  find_iff : ∀ handle eventHandler,
    r.find handle = some eventHandler ↔ ∃ e, Live ops e handle eventHandler
  has_iff : ∀ e handle, (r.waitSet.of e).has handle = true ↔
    ∃ eventHandler, Live ops e handle eventHandler

theorem Matches.isSome_iff (h : r.Matches ops) (handle : ℤ) :
    (r.find handle).isSome ↔ ∃ e, (r.waitSet.of e).has handle = true := by
  simp only [Option.isSome_iff_exists, h.find_iff, h.has_iff]
  exact exists_comm

theorem matches_new : (new : SelectReactor η).Matches [] where
  find_iff handle eventHandler := by simp [new, find, not_live_nil]
  has_iff e handle := by simp [new, not_live_nil]

theorem Matches.register {eventHandler : η} (h : r.Matches ops)
    (hmask : ∃ e : EventType, e.coveredBy mask = true)
    (hsame : ∀ e eventHandler', Live ops e handle eventHandler' → eventHandler' = eventHandler)
    (hrun : r.bind handle eventHandler mask = .ok r') :
    r'.Matches (ops ++ [.registerHandler handle eventHandler mask]) := by
  obtain ⟨-, hfind, hwait, -⟩ := bind_spec hrun
  have hlive (e : EventType) (g : ℤ) (eh : η) :
      Live (ops ++ [.registerHandler handle eventHandler mask]) e g eh ↔
        Live ops e g eh ∨ (g = handle ∧ eh = eventHandler) ∧ e.coveredBy mask = true := by
    rw [live_concat]
    refine or_congr (and_iff_left rfl) ⟨?_, ?_⟩
    · rintro ⟨m, heq, hcov⟩
      obtain ⟨rfl, rfl, rfl⟩ := Operation.registerHandler.inj heq
      exact ⟨⟨rfl, rfl⟩, hcov⟩
    · rintro ⟨⟨rfl, rfl⟩, hcov⟩
      exact ⟨mask, rfl, hcov⟩
  refine ⟨fun g eh => ?_, fun e g => ?_⟩
  · simp only [hfind, hlive, exists_or, exists_and_left, hmask, and_true, ← h.find_iff]
    by_cases hg : g = handle
    · subst hg
      rw [if_pos rfl]
      cases hold : r.find g with
      | none => simp [eq_comm]
      | some eh₀ =>
        -- the handle has the same handler already
        obtain ⟨e, he⟩ := (h.find_iff g eh₀).mp hold
        obtain rfl := hsame e eh₀ he
        simp [eq_comm]
    · simp [hg]
  · rw [hwait, h.has_iff]
    simp only [hlive, exists_or]
    refine or_congr Iff.rfl ⟨fun ⟨hcov, hg⟩ => ⟨eventHandler, ⟨hg, rfl⟩, hcov⟩, ?_⟩
    rintro ⟨eh, ⟨hg, -⟩, hcov⟩
    exact ⟨hcov, hg⟩

theorem Matches.remove (h : r.Matches ops) (hrun : r.unbind handle mask = .ok r') :
    r'.Matches (ops ++ [.removeHandler handle mask]) := by
  have hlive (e : EventType) (g : ℤ) (eh : η) :
      Live (ops ++ [.removeHandler handle mask]) e g eh ↔
        Live ops e g eh ∧ ¬ (e.coveredBy mask = true ∧ g = handle) := by
    rw [live_concat, or_iff_left (by rintro ⟨m, ⟨⟩, -⟩)]
    refine and_congr_right fun _ => ?_
    rw [Operation.removes, ← Bool.not_eq_true, Bool.and_eq_true, decide_eq_true_eq]
    exact not_congr ⟨fun ⟨hg, hcov⟩ => ⟨hcov, hg.symm⟩, fun ⟨hcov, hg⟩ => ⟨hg.symm, hcov⟩⟩
  rcases unbind_spec hrun with ⟨hnone, rfl⟩ | ⟨hsome, -, -, hwait, hfind⟩
  · -- nothing is registered for the handle
    have hsame (e : EventType) (g : ℤ) (eh : η) :
        Live (ops ++ [.removeHandler handle mask]) e g eh ↔ Live ops e g eh := by
      refine (hlive e g eh).trans (and_iff_left_of_imp fun hg => ?_)
      rintro ⟨-, rfl⟩
      have := (h.find_iff g eh).mpr ⟨e, hg⟩
      rw [hnone] at this
      cases this
    exact ⟨fun g eh => by simp only [hsame, h.find_iff], fun e g => by simp only [hsame, h.has_iff]⟩
  · have hbits (e : EventType) (g : ℤ) : (r'.waitSet.of e).has g = true ↔
        ∃ eh, Live (ops ++ [.removeHandler handle mask]) e g eh := by
      simp only [hwait, h.has_iff, hlive, exists_and_right]
    refine ⟨fun g eh => ?_, hbits⟩
    rcases hfind g with heq | ⟨rfl, hgone, hnot⟩
    · rw [heq, h.find_iff]
      refine ⟨fun ⟨e, he⟩ => ?_, fun ⟨e, he⟩ => ⟨e, ((hlive e g eh).mp he).1⟩⟩
      by_cases hg : g = handle
      · -- the handler is left, so that the handle is waited for, and it has no other handler
        subst hg
        have hold := (h.find_iff g eh).mpr ⟨e, he⟩
        obtain ⟨e', hleft⟩ := (isSome_find_of_unbind hrun hsome).mp (by rwa [heq])
        obtain ⟨eh', heh'⟩ := (hbits e' g).mp hleft
        have hother := (h.find_iff g eh').mpr ⟨e', ((hlive e' g eh').mp heh').1⟩
        obtain rfl : eh = eh' := Option.some.inj (hold.symm.trans hother)
        exact ⟨e', heh'⟩
      · exact ⟨e, (hlive e g eh).mpr ⟨he, fun h => hg h.2⟩⟩
    · rw [hgone]
      refine iff_of_false nofun fun ⟨e, he⟩ => ?_
      have := (hbits e g).mpr ⟨eh, he⟩
      rw [hnot e] at this
      cases this

theorem exact_of_unbind (hr : r.Sound) (hexact : ∀ e, (r.dispatchSet.of e).Exact)
    (h : r.unbind handle mask = .ok r') (e : EventType) : (r'.dispatchSet.of e).Exact := by
  by_cases hsome : (r.find handle).isSome
  · have hset := dispatchSet_of_unbind h hsome e
    cases hcleared : e.clearedBy mask with
    | true =>
      rw [hcleared] at hset
      obtain ⟨s, hs, hs'⟩ := (hexact e).exists_clrBit (hr.range handle hsome)
      exact Except.ok.inj (hs.symm.trans hset) ▸ hs'
    | false =>
      rw [hcleared] at hset
      exact Except.ok.inj hset ▸ hexact e
  · rcases unbind_spec h with ⟨-, rfl⟩ | ⟨hsome', -⟩
    · exact hexact e
    · exact absurd hsome' hsome

theorem exists_run_of_orderly (hops : Orderly ops) :
    ∃ r : SelectReactor η, runSteps apply new ops = .ok r ∧ r.Sound ∧
      (∀ e, (r.dispatchSet.of e).Exact) ∧ r.Matches ops := by
  induction hops with
  | nil => exact ⟨new, rfl, sound_new, exact_of_reset, matches_new⟩
  | register _ hrange hmask hsame ih =>
    obtain ⟨r, hrun, hr, hexact, hmatch⟩ := ih
    obtain ⟨r', hr'⟩ := exists_bind hr.wait hrange _ _
    have hset := (bind_spec hr').1
    exact ⟨r', runSteps_concat_eq_ok.mpr ⟨r, hrun, hr'⟩, hr.bind hr', by rwa [hset],
      hmatch.register hmask hsame hr'⟩
  | remove _ handle mask ih =>
    obtain ⟨r, hrun, hr, hexact, hmatch⟩ := ih
    obtain ⟨r', hr'⟩ : ∃ r', r.unbind handle mask = .ok r' :=
      exists_unbind hr.wait (hr.range handle) fun hsome e _ =>
        ((hexact e).exists_clrBit (hr.range handle hsome)).imp fun _ h => h.1
    exact ⟨r', runSteps_concat_eq_ok.mpr ⟨r, hrun, hr'⟩, hr.unbind hr',
      exact_of_unbind hr hexact hr', hmatch.remove hr'⟩

/-- **What is registered.** -/
theorem registered_exactly (ops : List (Operation η)) (hops : Orderly ops) :
    ∃ r : SelectReactor η, runSteps apply new ops = .ok r ∧
      (∀ handle, (r.find handle).isSome ↔ ∃ e, (r.waitSet.of e).has handle = true) ∧
      (∀ handle eventHandler,
        r.find handle = some eventHandler ↔ ∃ e, Live ops e handle eventHandler) ∧
      ∀ e handle, (r.waitSet.of e).has handle = true ↔
        ∃ eventHandler, Live ops e handle eventHandler := by
  obtain ⟨r, hrun, -, -, hmatch⟩ := exists_run_of_orderly hops
  exact ⟨r, hrun, hmatch.isSome_iff, hmatch.find_iff, hmatch.has_iff⟩

def reuseOps : List (Operation ℕ) :=
  [.registerHandler 5 1 connectMask, .removeHandler 5 readMask, .removeHandler 5 writeMask,
    .registerHandler 5 2 acceptMask]

theorem orderly_reuseOps : Orderly reuseOps := by
  have hone : Orderly [.registerHandler 5 1 connectMask] :=
    .register .nil (by decide) ⟨.read, by decide⟩ fun _ _ h => absurd h not_live_nil
  have hthree : Orderly [.registerHandler 5 1 connectMask, .removeHandler 5 readMask,
      .removeHandler 5 writeMask] := (hone.remove 5 readMask).remove 5 writeMask
  refine hthree.register (by decide) ⟨.read, by decide⟩ fun e eh hlive => ?_
  -- no event is left
  obtain ⟨hlive, hwrite⟩ := (live_concat (l := [.registerHandler 5 1 connectMask,
    .removeHandler 5 readMask])).mp hlive |>.resolve_right (by rintro ⟨m, ⟨⟩, -⟩)
  obtain ⟨hlive, hread⟩ := (live_concat (l := [.registerHandler 5 1 connectMask])).mp hlive
    |>.resolve_right (by rintro ⟨m, ⟨⟩, -⟩)
  rcases (live_concat (l := [])).mp hlive with ⟨hlive, -⟩ | ⟨m, heq, hcov⟩
  · exact absurd hlive not_live_nil
  · obtain ⟨-, -, rfl⟩ := Operation.registerHandler.inj heq
    cases e with
    | read => exact absurd hread (by decide)
    | write => exact absurd hwrite (by decide)
    | except => exact absurd hcov (by decide)

theorem registered_exactly_reuse :
    ∃ r : SelectReactor ℕ, runSteps apply new reuseOps = .ok r ∧
      (∀ handle, (r.find handle).isSome ↔ ∃ e, (r.waitSet.of e).has handle = true) ∧
      (∀ handle eventHandler,
        r.find handle = some eventHandler ↔ ∃ e, Live reuseOps e handle eventHandler) ∧
      ∀ e handle, (r.waitSet.of e).has handle = true ↔
        ∃ eventHandler, Live reuseOps e handle eventHandler :=
  registered_exactly reuseOps orderly_reuseOps

end SelectReactor

end Icm.Reactor
