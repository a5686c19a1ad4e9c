import Mathlib.Logic.Relation
import Mathlib.Order.WellFounded

/-! Runs of a machine whose steps are given as a relation: what each step keeps is kept by a run,
and no run goes on for ever where something decreases at each step. -/

namespace Lox

variable {α β : Type} {moves : α → α → Prop}

theorem kept_of_reaches (inv : α → Prop) {s s' : α} (hstep : ∀ s s', moves s s' → inv s → inv s')
    (h : Relation.ReflTransGen moves s s') (hs : inv s) : inv s' := by
  induction h with
  | refl => exact hs
  | tail _ hmove ih => exact hstep _ _ hmove ih

theorem not_forall_moves [Preorder β] [WellFoundedLT β] {inv : α → Prop} {run : Nat → α}
    (left : α → β) (hstep : ∀ s s', moves s s' → inv s → inv s' ∧ left s' < left s)
    (h : inv (run 0)) :
    ¬ ∀ n, moves (run n) (run (n + 1)) := by
  intro hmoves
  have hall : ∀ n, inv (run n) := by
    intro n
    induction n with
    | zero => exact h
    | succ n ih => exact (hstep _ _ (hmoves n) ih).1
  obtain ⟨n, hn⟩ := WellFounded.not_rel_apply_succ (r := (· < ·)) fun n => left (run n)
  exact hn (hstep _ _ (hmoves n) (hall n)).2

end Lox
