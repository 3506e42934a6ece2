import Mathlib.Logic.Basic
import Mathlib.Data.List.Basic

/-!
# Runs of a step function

A system that is given one action after the other: `step s a` is the state after the action `a` in
the state `s`.  The states of a run are `as.scanl step s`.

## Main definitions

* `Along step P s as` : every action of the run satisfies `P` in the state in which it is taken.

## Main results

* `Along.invariant` : what the actions that satisfy `P` preserve holds in every state of the run.
* `invariant_iff_along` : an invariant that exactly the actions that satisfy `P` preserve holds in
  every state if and only if every action satisfies `P`.
-/

namespace ConfigDb

variable {σ α : Type} {step : σ → α → σ} {I : σ → Prop} {P : σ → α → Prop} {s : σ} {as bs : List α}

/-- Every action of the run satisfies `P` in the state in which it is taken. -/
def Along (step : σ → α → σ) (P : σ → α → Prop) : σ → List α → Prop
  | _, [] => True
  | s, a :: as => P s a ∧ Along step P (step s a) as

/-- **What an action preserves, a run preserves.** -/
theorem Along.invariant (h : Along step P s as) (hs : I s)
    (hstep : ∀ s a, I s → P s a → I (step s a)) : ∀ t ∈ as.scanl step s, I t := by
  induction as generalizing s with
  | nil => simpa using hs
  | cons a as ih =>
    rw [List.scanl_cons, List.forall_mem_cons]
    exact ⟨hs, ih h.2 (hstep s a hs h.1)⟩

/-- An invariant that exactly the actions that satisfy `P` preserve. -/
theorem invariant_iff_along (hs : I s) (hstep : ∀ s a, I s → (I (step s a) ↔ P s a)) :
    (∀ t ∈ as.scanl step s, I t) ↔ Along step P s as := by
  constructor
  · intro h
    induction as generalizing s with
    | nil => trivial
    | cons a as ih =>
      rw [List.scanl_cons, List.forall_mem_cons] at h
      have ha : I (step s a) := h.2 (step s a) (by cases as <;> simp)
      exact ⟨(hstep s a hs).1 ha, ih ha h.2⟩
  · intro h
    exact h.invariant hs fun s a hs ha => (hstep s a hs).2 ha

theorem foldl_mem_scanl (step : σ → α → σ) (s : σ) (as : List α) :
    as.foldl step s ∈ as.scanl step s := by
  induction as generalizing s with
  | nil => simp
  | cons a as ih =>
    rw [List.scanl_cons, List.foldl_cons]
    exact List.mem_cons_of_mem _ (ih _)

theorem along_true (step : σ → α → σ) (s : σ) (as : List α) :
    Along step (fun _ _ => True) s as := by
  induction as generalizing s with
  | nil => trivial
  | cons a as ih => exact ⟨trivial, ih _⟩

end ConfigDb
