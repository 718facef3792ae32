import Mathlib.Order.FixedPoints
import Mathlib.Order.CompletePartialOrder

/-!
# Support — Coinduction

Membership in the greatest set closed under rules, proved step by step under assumptions.  The rules
are a monotone map `F` on sets: `F R` is what follows by one rule from premises in `R`.  What holds
under the assumption of itself holds (`mem_under_of_insert`), and what holds under no assumption is
the greatest set `F.gfp` (`under_empty_le`, `gfp_le_under`).
-/

namespace SpacePony.Coinduction

open Set

variable {α : Type*} (F : Set α →o Set α)

/-- One more rule over `X`, or a member of `A`. -/
def grow (A : Set α) : Set α →o Set α where
  toFun X := A ∪ F X
  monotone' := fun _ _ h => union_subset_union_right A (F.monotone h)

/-- What follows from `A` by finitely many rules. -/
def closure (A : Set α) : Set α := (grow F A).lfp

variable {F} {A B : Set α} {a : α}

theorem closure_eq : A ∪ F (closure F A) = closure F A := (grow F A).map_lfp

theorem subset_closure : A ⊆ closure F A := by
  rw [← closure_eq]
  exact subset_union_left

theorem rule_closure_subset : F (closure F A) ⊆ closure F A := by
  nth_rewrite 2 [← closure_eq]
  exact subset_union_right

theorem closure_mono (h : A ⊆ B) : closure F A ⊆ closure F B := by
  refine (grow F A).lfp_le ?_
  exact union_subset (h.trans subset_closure) rule_closure_subset

variable (F) in
/-- One rule over what follows from `R` and the assumptions `A`. -/
def assuming (A : Set α) : Set α →o Set α where
  toFun R := F (closure F (R ∪ A))
  monotone' := fun _ _ h => F.monotone (closure_mono (union_subset_union_left A h))

variable (F) in
/-- What holds under the assumptions `A`. -/
def under (A : Set α) : Set α := (assuming F A).gfp

theorem under_eq : F (closure F (under F A ∪ A)) = under F A := (assuming F A).map_gfp

theorem under_mono (h : A ⊆ B) : under F A ⊆ under F B := by
  refine (assuming F B).le_gfp ?_
  nth_rewrite 1 [← under_eq]
  exact F.monotone (closure_mono (union_subset_union_right _ h))

/-- **What holds under the assumption of itself holds**: a rule was applied before the assumption
could be used. -/
theorem mem_under_of_insert (h : a ∈ under F (insert a A)) : a ∈ under F A := by
  have hassumed : under F (insert a A) ∪ insert a A = under F (insert a A) ∪ A := by
    rw [union_insert, insert_eq_of_mem (mem_union_left A h)]
  have hle : under F (insert a A) ⊆ under F A := by
    refine (assuming F A).le_gfp ?_
    nth_rewrite 1 [← under_eq]
    rw [hassumed]
    exact le_rfl
  exact hle h

/-- **What holds under no assumption** is in the greatest set closed under the rules. -/
theorem under_empty_le : under F ∅ ⊆ F.gfp := by
  have hrule : F (closure F (under F ∅)) = under F ∅ := by
    nth_rewrite 1 [← union_empty (under F ∅)]
    exact under_eq
  have hclosed : closure F (under F ∅) ⊆ F (closure F (under F ∅)) := by
    nth_rewrite 1 [← closure_eq]
    rw [hrule, union_self]
  exact subset_closure.trans (F.le_gfp hclosed)

/-- What is in the greatest set closed under the rules holds under any assumptions. -/
theorem gfp_le_under : F.gfp ⊆ under F A := by
  refine (assuming F A).le_gfp ?_
  nth_rewrite 1 [← F.map_gfp]
  exact F.monotone (subset_union_left.trans subset_closure)

end SpacePony.Coinduction
