import Mathlib.Data.List.Basic
import Mathlib.Data.Nat.ModEq

/-!
# Support — the last writes, in a cycle of cells

* `Holds n xs cells`: the cells hold the last `n` elements of `xs`, each at its number modulo `n`.
* `Holds.push`, `Holds.set`: **one more element**, in a new cell while there are fewer than `n`, and
  over the oldest one from then on.
-/

namespace SpacePony.LastWrites

open List

variable {A : Type*} {n : ℕ} {xs cells : List A} {a : A} {i : ℕ}

/-- The last `n` elements are in the cells. -/
structure Holds (n : ℕ) (xs cells : List A) : Prop where
  length : cells.length = min xs.length n
  cell : ∀ i < xs.length, xs.length ≤ i + n → cells[i % n]? = xs[i]?

theorem holds_nil (n : ℕ) : Holds n ([] : List A) [] := ⟨by simp, nofun⟩

/-- **A new cell.** -/
theorem Holds.push (h : Holds n xs cells) (hroom : xs.length < n) :
    Holds n (xs ++ [a]) (cells ++ [a]) where
  length := by
    rw [length_append, length_append, h.length, length_singleton]
    omega
  cell i hi _ := by
    rw [length_append, length_singleton] at hi
    have hlen : cells.length = xs.length := by
      rw [h.length]
      omega
    rw [Nat.mod_eq_of_lt (by omega)]
    rcases Nat.lt_succ_iff_lt_or_eq.1 hi with hlt | rfl
    · have hcell := h.cell i hlt (by omega)
      rw [Nat.mod_eq_of_lt (by omega)] at hcell
      rw [getElem?_append_left hlt, getElem?_append_left (by omega), hcell]
    · rw [← hlen, getElem?_concat_length, hlen, getElem?_concat_length]

/-- Two numbers that are less than a cycle apart have different cells. -/
theorem mod_ne {i j : ℕ} (hlt : i < j) (hnear : j < i + n) : i % n ≠ j % n := by
  intro h
  have hdvd : n ∣ j - i := (Nat.modEq_iff_dvd' hlt.le).1 h
  have hle := Nat.le_of_dvd (by omega) hdvd
  omega

/-- **The oldest cell is written again.** -/
theorem Holds.set (h : Holds n xs cells) (hn : 0 < n) (hfull : n ≤ xs.length) :
    Holds n (xs ++ [a]) (cells.set (xs.length % n) a) where
  length := by
    rw [length_set, h.length, length_append, length_singleton]
    omega
  cell i hi hnear := by
    rw [length_append, length_singleton] at hi hnear
    have hlen : cells.length = n := by
      rw [h.length]
      omega
    rcases Nat.lt_succ_iff_lt_or_eq.1 hi with hlt | rfl
    · rw [getElem?_set_ne (mod_ne hlt (by omega)).symm, getElem?_append_left hlt]
      exact h.cell i hlt (by omega)
    · rw [getElem?_set_self (by rw [hlen]; exact Nat.mod_lt _ hn), getElem?_concat_length]

end SpacePony.LastWrites
