import Mathlib.Algebra.GroupWithZero.Nat
import Mathlib.Algebra.BigOperators.Group.List.Basic
import Mathlib.Order.Nat

/-!
# Support — cells that are allocated once

A heap as the list of all cells ever allocated: an address is an index and is never given out
again; a freed cell is `none`.

* `cell`, `write`, `free`, `alloc`, each with its effect on `cell`.
* `total w h`: the sum of a weight over the cells in use, with the effect of each operation, for
  counting the references into a heap.
-/

namespace SpacePony.Cells

open List

variable {α : Type*}

/-- What the address holds, if it is in use. -/
def cell (h : List (Option α)) (i : Nat) : Option α := (h[i]?).join

def write (h : List (Option α)) (i : Nat) (a : α) : List (Option α) := h.set i (some a)

def free (h : List (Option α)) (i : Nat) : List (Option α) := h.set i none

def alloc (h : List (Option α)) (a : α) : List (Option α) := h ++ [some a]

variable {h : List (Option α)} {i j : Nat} {a b c : α} {w : α → Nat}

theorem lt_length_of_cell (hc : cell h i = some b) : i < h.length := by
  by_contra hlt
  rw [cell, getElem?_eq_none (by omega)] at hc
  cases hc

theorem getElem?_of_cell (hc : cell h i = some b) : h[i]? = some (some b) := by
  have hlt := lt_length_of_cell hc
  rw [cell, getElem?_eq_getElem hlt] at hc
  rw [getElem?_eq_getElem hlt]
  exact congrArg some hc

theorem cell_write (hc : cell h i = some b) :
    cell (write h i a) j = if j = i then some a else cell h j := by
  have hlt := lt_length_of_cell hc
  by_cases hj : j = i
  · subst hj
    rw [if_pos rfl, cell, write, getElem?_set_self hlt]
    rfl
  · rw [if_neg hj, cell, write, getElem?_set_ne (fun e => hj e.symm), cell]

theorem cell_write_cases (hc : cell h i = some b) (hj : cell (write h i a) j = some c) :
    (j = i ∧ c = a) ∨ (j ≠ i ∧ cell h j = some c) := by
  rw [cell_write hc] at hj
  split at hj
  · exact .inl ⟨‹_›, (Option.some.inj hj).symm⟩
  · exact .inr ⟨‹_›, hj⟩

theorem write_self (hc : cell h i = some b) : write h i b = h := by
  have hlt := lt_length_of_cell hc
  have hget : h[i] = some b := by simpa [getElem?_eq_getElem hlt] using getElem?_of_cell hc
  rw [write, ← hget, set_getElem_self hlt]

theorem cell_free : cell (free h i) j = if j = i then none else cell h j := by
  by_cases hj : j = i
  · subst hj
    rw [if_pos rfl, cell, free]
    by_cases hlt : j < h.length
    · rw [getElem?_set_self hlt]
      rfl
    · rw [getElem?_eq_none (by simpa using hlt)]
      rfl
  · rw [if_neg hj, cell, free, getElem?_set_ne (fun e => hj e.symm), cell]

theorem cell_alloc : cell (alloc h a) j = if j = h.length then some a else cell h j := by
  by_cases hj : j = h.length
  · subst hj
    rw [if_pos rfl, cell, alloc, getElem?_concat_length]
    rfl
  rw [if_neg hj, cell, cell, alloc]
  by_cases hlt : j < h.length
  · rw [getElem?_append_left hlt]
  · rw [getElem?_eq_none (by simp; omega), getElem?_eq_none (by omega)]

theorem cell_alloc_cases (hj : cell (alloc h a) j = some c) :
    (j = h.length ∧ c = a) ∨ (j ≠ h.length ∧ cell h j = some c) := by
  rw [cell_alloc] at hj
  split at hj
  · exact .inl ⟨‹_›, (Option.some.inj hj).symm⟩
  · exact .inr ⟨‹_›, hj⟩

/-! ### Totals -/

/-- The sum of a weight over the cells in use. -/
def total (w : α → Nat) (h : List (Option α)) : Nat := (h.map fun o => o.elim 0 w).sum

theorem total_cons (o : Option α) (h : List (Option α)) :
    total w (o :: h) = o.elim 0 w + total w h := by
  simp [total]

theorem total_set {o : Option α} (o' : Option α) (ho : h[i]? = some o) :
    total w (h.set i o') + o.elim 0 w = total w h + o'.elim 0 w := by
  induction h generalizing i with
  | nil => simp at ho
  | cons p h ih =>
    cases i with
    | zero =>
      obtain rfl : p = o := by simpa using ho
      rw [set_cons_zero, total_cons, total_cons]
      omega
    | succ i =>
      have hrest := ih (i := i) (by simpa using ho)
      rw [set_cons_succ, total_cons, total_cons]
      omega

theorem total_write (hc : cell h i = some b) : total w (write h i a) + w b = total w h + w a :=
  total_set (some a) (getElem?_of_cell hc)

theorem total_free (hc : cell h i = some b) : total w (free h i) + w b = total w h :=
  total_set none (getElem?_of_cell hc)

theorem total_alloc : total w (alloc h a) = total w h + w a := by
  simp [total, alloc]

theorem le_total (hc : cell h i = some b) : w b ≤ total w h := by
  have hfree := total_free (w := w) hc
  omega

/-! ### A view of the cells -/

variable {β : Type*} {f : α → β}

theorem cell_map : cell (h.map (Option.map f)) i = (cell h i).map f := by
  rw [cell, cell, getElem?_map]
  cases h[i]? with
  | none | some o => rfl

theorem total_map {w : β → Nat} : total w (h.map (Option.map f)) = total (w ∘ f) h := by
  rw [total, total, map_map]
  congr 1
  refine map_congr_left fun o _ => ?_
  cases o with
  | none | some a => rfl

theorem map_write (hc : cell h i = some b) (hf : f a = f b) :
    (write h i a).map (Option.map f) = h.map (Option.map f) := by
  have hlt := lt_length_of_cell hc
  refine ext_getElem? fun j => ?_
  rw [write, map_set]
  by_cases hj : i = j
  · subst hj
    rw [getElem?_set_self (by simpa using hlt), getElem?_map, getElem?_of_cell hc]
    simp [hf]
  · rw [getElem?_set_ne hj]

end SpacePony.Cells
