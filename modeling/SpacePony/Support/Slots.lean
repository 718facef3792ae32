import Mathlib.Algebra.BigOperators.Group.Finset.Basic
import Mathlib.Algebra.Order.BigOperators.Group.Finset
import Mathlib.Data.Fintype.BigOperators
import Mathlib.Tactic

/-!
# Support — Tables of slots

A table has finitely many slots; what a slot holds is read as a multiset of elements by a function
`g`, and the table holds the sum of them (`contents`).  Tables of tables are tables again, with
`contents` for `g`.

* `contents_update`: replacing one slot replaces its share.
* `contents_add`, `contents_take`: a slot that gains or loses elements.
* `slot_unique`: without a repetition an element is in one slot only.
-/

namespace SpacePony.Slots

open Multiset Finset

variable {ι α β κ : Type} [Fintype ι]

/-- All that a table holds, whatever slot it is in.  It is never unfolded: the lemmas below are all
that is known of it. -/
@[irreducible] def contents (g : β → Multiset α) (f : ι → β) : Multiset α := ∑ i, g (f i)

section
variable {g : β → Multiset α} {f : ι → β} {a : α} {b : β} {m : Multiset α} {i j : ι}

theorem mem_contents : a ∈ contents g f ↔ ∃ i, a ∈ g (f i) := by
  simp [contents]

theorem contents_eq_sum (g : β → Multiset α) (f : ι → β) : contents g f = ∑ i, g (f i) := by
  rw [contents]

theorem le_contents (i : ι) : g (f i) ≤ contents g f := by
  rw [contents]
  exact single_le_sum_of_canonicallyOrdered (f := fun i => g (f i)) (mem_univ i)

theorem contents_eq_zero (h : ∀ i, g (f i) = 0) : contents g f = 0 := by
  rw [contents]
  exact sum_eq_zero fun i _ => h i

variable [DecidableEq ι]

/-- Replacing what one slot holds replaces its share of the contents. -/
theorem contents_update (g : β → Multiset α) (f : ι → β) (i : ι) (b : β) :
    contents g (Function.update f i b) + g (f i) = contents g f + g b := by
  have push : ∀ f : ι → β, contents g f = g (f i) + ∑ j ∈ univ.erase i, g (f j) :=
    fun f => (contents_eq_sum g f).trans
      (add_sum_erase _ (fun j => g (f j)) (mem_univ i)).symm
  have rest : ∑ j ∈ univ.erase i, g (Function.update f i b j)
      = ∑ j ∈ univ.erase i, g (f j) :=
    sum_congr rfl fun j hj => by rw [Function.update_of_ne (ne_of_mem_erase hj)]
  rw [push, push f, rest, Function.update_self]
  simp only [add_comm, add_left_comm]

/-- A slot that gains elements adds them to the contents. -/
theorem contents_add (h : g b = m + g (f i)) :
    contents g (Function.update f i b) = m + contents g f := by
  have hu := contents_update g f i b
  rw [h, add_left_comm, ← add_assoc] at hu
  exact add_right_cancel hu

/-- A slot that loses elements takes them out of the contents. -/
theorem contents_take (h : m + g b = g (f i)) :
    m + contents g (Function.update f i b) = contents g f := by
  have hu := contents_update g f i b
  rw [← h, add_left_comm, ← add_assoc] at hu
  exact add_right_cancel hu

/-- Where no two elements have one key, an element is in one slot only. -/
theorem slot_unique {key : α → κ} {a' : α} (h : ((contents g f).map key).Nodup)
    (hi : a ∈ g (f i)) (hj : a' ∈ g (f j)) (e : key a = key a') : i = j := by
  by_contra ne
  have hsplit : contents g f = g (f i) + ∑ l ∈ univ.erase i, g (f l) :=
    (contents_eq_sum g f).trans
      (add_sum_erase _ (fun j => g (f j)) (mem_univ i)).symm
  have hrest : a' ∈ ∑ l ∈ univ.erase i, g (f l) :=
    mem_sum.2 ⟨j, mem_erase.2 ⟨Ne.symm ne, mem_univ j⟩, hj⟩
  rw [hsplit, map_add, nodup_add] at h
  exact disjoint_left.1 h.2.2 (mem_map_of_mem key hi)
    (e ▸ mem_map_of_mem key hrest)

end

end SpacePony.Slots
