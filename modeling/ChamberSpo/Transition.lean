import Mathlib.Data.Nat.Notation
import Mathlib.Logic.Relation

/-!
# Labelled transition systems, runs and invariants

The systems of this development are given by a labelled step relation: a state, a label that
says which party did what, and the state after it. This module holds what they share.

* `Run step s as s'` — the finite runs, with the list of their labels.
* `Run.invariant` — the induction every safety result goes through: what holds at the start
  and is kept by each step holds at the end of a run.
* `Run.length_add_le` — a measure that every step takes from bounds the runs, and
  `Run.countP_add_le` those steps that take from one.
* `guarded step ok` — the same system with the steps restricted to those whose label is `ok`
  in the state before the step. A property that holds of a system only while some branch is
  not taken is a property of the guarded runs.
-/

namespace ChamberSpo

universe u v

variable {σ : Type u} {α : Type v}

/-- The runs of a labelled step relation, with their labels in order. -/
inductive Run (step : σ → α → σ → Prop) : σ → List α → σ → Prop
  /-- nothing happened -/
  | nil (s : σ) : Run step s [] s
  /-- one step, then the rest of the run -/
  | cons {s t u : σ} {a : α} {as : List α} :
      step s a t → Run step t as u → Run step s (a :: as) u

namespace Run

variable {step : σ → α → σ → Prop}

/-- A run of one step. -/
theorem single {s t : σ} {a : α} (h : step s a t) : Run step s [a] t :=
  .cons h (.nil t)

/-- Runs compose. -/
theorem append {s t u : σ} {as bs : List α} (h : Run step s as t) (h' : Run step t bs u) :
    Run step s (as ++ bs) u := by
  induction h with
  | nil s => exact h'
  | cons hs _ ih => exact .cons hs (ih h')

/-- A run extended by a last step. -/
theorem snoc {s t u : σ} {as : List α} {a : α} (h : Run step s as t) (h' : step t a u) :
    Run step s (as ++ [a]) u :=
  h.append (single h')

/-- A run taken apart. -/
theorem exists_of_append {s u : σ} {as bs : List α} (h : Run step s (as ++ bs) u) :
    ∃ t, Run step s as t ∧ Run step t bs u := by
  induction as generalizing s with
  | nil => exact ⟨s, .nil s, h⟩
  | cons a as ih =>
    cases h with
    | cons hst hrest =>
      obtain ⟨t, hfirst, hlast⟩ := ih hrest
      exact ⟨t, .cons hst hfirst, hlast⟩

/-- **The invariant rule**: what one step preserves, a run preserves. -/
theorem invariant {I : σ → Prop} (hstep : ∀ s a t, I s → step s a t → I t)
    {s t : σ} {as : List α} (h : Run step s as t) (hs : I s) : I t := by
  induction h with
  | nil s => exact hs
  | cons hst _ ih => exact ih (hstep _ _ _ hs hst)

/-- **The refinement rule**: a relation to the state of another system, which moves by the same
labels, that each step keeps. -/
theorem refines {γ : Type*} {move : γ → α → γ} {R : γ → σ → Prop}
    (hstep : ∀ c s a t, R c s → step s a t → R (move c a) t) {s t : σ} {as : List α} {c : γ}
    (h : Run step s as t) (hc : R c s) : R (as.foldl move c) t := by
  induction h generalizing c with
  | nil s => exact hc
  | cons hst _ ih => exact ih (hstep _ _ _ _ hc hst)

/-- **The measure rule**: what every step takes from, bounds the length of a run. -/
theorem length_add_le {μ : σ → ℕ} (hstep : ∀ s a t, step s a t → μ t < μ s)
    {s t : σ} {as : List α} (h : Run step s as t) : as.length + μ t ≤ μ s := by
  induction h with
  | nil s => exact Nat.le_of_eq (Nat.zero_add _)
  | cons hst _ ih =>
    have hlt := hstep _ _ _ hst
    rw [List.length_cons]
    omega

/-- **The measure rule for some of the labels**: what only those steps take from, bounds how many of
them a run has. -/
theorem countP_add_le {I : σ → Prop} {own : α → Bool} {μ : σ → ℕ}
    (hstep : ∀ s a t, I s → step s a t → I t ∧ μ t + (if own a then 1 else 0) ≤ μ s)
    {s t : σ} {as : List α} (h : Run step s as t) (hs : I s) : as.countP own + μ t ≤ μ s := by
  induction h with
  | nil s => exact Nat.le_of_eq (Nat.zero_add _)
  | cons hst _ ih =>
    obtain ⟨ht, hle⟩ := hstep _ _ _ hs hst
    have hrest := ih ht
    rw [List.countP_cons]
    omega

end Run

/-- The steps of `step` whose label is allowed in the state before the step. -/
def guarded (step : σ → α → σ → Prop) (ok : σ → α → Prop) : σ → α → σ → Prop :=
  fun s a t => ok s a ∧ step s a t

/-- A guarded run is a run. -/
theorem Run.of_guarded {step : σ → α → σ → Prop} {ok : σ → α → Prop} {s t : σ} {as : List α}
    (h : Run (guarded step ok) s as t) : Run step s as t := by
  induction h with
  | nil s => exact .nil s
  | cons hst _ ih => exact .cons hst.2 ih

/-- A run whose labels are all allowed, in whatever state. -/
theorem Run.to_guarded {step : σ → α → σ → Prop} {ok : α → Prop} {s t : σ} {as : List α}
    (h : Run step s as t) (hok : ∀ a ∈ as, ok a) : Run (guarded step fun _ a => ok a) s as t := by
  induction h with
  | nil s => exact .nil s
  | cons hst _ ih =>
    obtain ⟨ha, has⟩ := List.forall_mem_cons.mp hok
    exact .cons ⟨ha, hst⟩ (ih has)

end ChamberSpo
