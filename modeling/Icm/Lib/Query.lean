import Mathlib

/-!
# Query programs

A program that computes by asking queries of a server, one after the other, where each query may
depend on the answers before it.
-/

namespace Icm.Lib

inductive Query (ι ρ α : Type) : Type
  | done (a : α)
  | ask (q : ι) (next : ρ → Query ι ρ α)

namespace Query

variable {ι ρ α β σ τ : Type}

def bind : Query ι ρ α → (α → Query ι ρ β) → Query ι ρ β
  | done a, f => f a
  | ask q next, f => ask q fun r => (next r).bind f

def run (serve : ι → σ → ρ × σ) : Query ι ρ α → σ → α × σ
  | done a, s => (a, s)
  | ask q next, s => run serve (next (serve q s).1) (serve q s).2

def asks (serve : ι → σ → ρ × σ) : Query ι ρ α → σ → List (σ × ι)
  | done _, _ => []
  | ask q next, s => (s, q) :: asks serve (next (serve q s).1) (serve q s).2

variable {serve : ι → σ → ρ × σ} {serve' : ι → τ → ρ × τ}

@[simp] theorem run_done (a : α) (s : σ) : run serve (done a : Query ι ρ α) s = (a, s) := rfl

@[simp] theorem run_ask (q : ι) (next : ρ → Query ι ρ α) (s : σ) :
    run serve (ask q next) s = run serve (next (serve q s).1) (serve q s).2 := rfl

@[simp] theorem run_bind (p : Query ι ρ α) (f : α → Query ι ρ β) (s : σ) :
    run serve (p.bind f) s = run serve (f (run serve p s).1) (run serve p s).2 := by
  induction p generalizing s with
  | done a => rfl
  | ask q next ih => exact ih _ _

theorem run_invariant {I : σ → Prop} (hI : ∀ q s, I s → I (serve q s).2) (p : Query ι ρ α)
    {s : σ} (hs : I s) : I (run serve p s).2 := by
  induction p generalizing s with
  | done a => exact hs
  | ask q next ih => exact ih _ (hI q s hs)

theorem asks_invariant {I : σ → Prop} (hI : ∀ q s, I s → I (serve q s).2) (p : Query ι ρ α)
    {s : σ} (hs : I s) : ∀ x ∈ asks serve p s, I x.1 := by
  induction p generalizing s with
  | done a => exact List.forall_mem_nil _
  | ask q next ih => exact List.forall_mem_cons.mpr ⟨hs, ih _ (hI q s hs)⟩

theorem run_rel {R : σ → τ → Prop} {ok : σ → ι → Prop}
    (h : ∀ q s t, R s t → ok s q →
      (serve q s).1 = (serve' q t).1 ∧ R (serve q s).2 (serve' q t).2)
    (p : Query ι ρ α) {s : σ} {t : τ} (hR : R s t) (hok : ∀ x ∈ asks serve p s, ok x.1 x.2) :
    (run serve p s).1 = (run serve' p t).1 ∧ R (run serve p s).2 (run serve' p t).2 := by
  induction p generalizing s t with
  | done a => exact ⟨rfl, hR⟩
  | ask q next ih =>
    obtain ⟨hok₁, hrest⟩ := List.forall_mem_cons.mp hok
    obtain ⟨hans, hR'⟩ := h q s t hR hok₁
    rw [run_ask, run_ask, ← hans]
    exact ih _ hR' hrest

inductive Alike (good : ι → ρ → Prop) : Query ι ρ α → Query ι ρ α → Prop
  | done (a : α) : Alike good (.done a) (.done a)
  | ask (q : ι) {next next' : ρ → Query ι ρ α}
      (h : ∀ r, good q r → Alike good (next r) (next' r)) : Alike good (.ask q next) (.ask q next')

namespace Alike

variable {good : ι → ρ → Prop} {p p' : Query ι ρ α}

theorem refl (p : Query ι ρ α) : Alike good p p := by
  induction p with
  | done a => exact .done a
  | ask q next ih => exact .ask q fun r _ => ih r

theorem bind {f f' : α → Query ι ρ β} (h : Alike good p p') (hf : ∀ a, Alike good (f a) (f' a)) :
    Alike good (p.bind f) (p'.bind f') := by
  induction h with
  | done a => exact hf a
  | ask q _ ih => exact .ask q ih

theorem run_eq (h : Alike good p p') {s : σ}
    (hgood : ∀ x ∈ asks serve p s, good x.2 (serve x.2 x.1).1) :
    run serve p s = run serve p' s := by
  induction h generalizing s with
  | done a => rfl
  | ask q _ ih =>
    obtain ⟨hq, hrest⟩ := List.forall_mem_cons.mp hgood
    exact ih _ hq hrest

theorem asks_eq (h : Alike good p p') {s : σ}
    (hgood : ∀ x ∈ asks serve p s, good x.2 (serve x.2 x.1).1) :
    asks serve p s = asks serve p' s := by
  induction h generalizing s with
  | done a => rfl
  | ask q _ ih =>
    obtain ⟨hq, hrest⟩ := List.forall_mem_cons.mp hgood
    exact congrArg ((s, q) :: ·) (ih _ hq hrest)

end Alike

end Query

end Icm.Lib
