import Mathlib.Algebra.Order.Ring.Int
import Mathlib.Data.List.Basic
import Mathlib.Tactic.Linarith
import Mathlib.Tactic.Ring

/-!
# Support — arithmetic progressions up to a bound

Arithmetic progressions, one term after the other (`terms_cons`, `terms_nil`), and which numbers
they are (`mem_terms`).
-/

namespace SpacePony.Progression

open Nat List

/-- In the direction of the step, the number comes before the bound; a step of zero has none. -/
def Before (step stop x : ℤ) : Prop := (0 < step ∧ x < stop) ∨ (step < 0 ∧ stop < x)

instance (step stop : ℤ) : DecidablePred (Before step stop) :=
  fun _ => inferInstanceAs (Decidable (_ ∨ _))

/-- How many terms there are. -/
def count (start step stop : ℤ) : ℕ :=
  if 0 < step then ((stop - start + (step - 1)) / step).toNat
  else if step < 0 then ((start - stop + (-step - 1)) / -step).toNat
  else 0

/-- The terms. -/
def terms (start step stop : ℤ) : List ℤ :=
  (range (count start step stop)).map fun k : ℕ => start + k * step

/-- The number after the last term. -/
def past (start step stop : ℤ) : ℤ := start + count start step stop * step

variable {start step stop : ℤ}

theorem length_terms : (terms start step stop).length = count start step stop := by
  simp [terms]

/-- The number of positive steps that reach a distance. -/
theorem steps_succ {d s : ℤ} (hs : 0 < s) (hd : 0 < d) :
    ((d + (s - 1)) / s).toNat = ((d - s + (s - 1)) / s).toNat + 1 := by
  have hsplit : d + (s - 1) = d - s + (s - 1) + 1 * s := by ring
  have hnonneg : 0 ≤ (d - s + (s - 1)) / s := Int.ediv_nonneg (by linarith) hs.le
  rw [hsplit, Int.add_mul_ediv_right _ _ hs.ne']
  omega

theorem steps_zero {d s : ℤ} (hs : 0 < s) (hd : d ≤ 0) : ((d + (s - 1)) / s).toNat = 0 := by
  have hlt : (d + (s - 1)) / s < 1 := Int.ediv_lt_of_lt_mul hs (by linarith)
  omega

theorem count_of_before (h : Before step stop start) :
    count start step stop = count (start + step) step stop + 1 := by
  rcases h with ⟨hs, h⟩ | ⟨hs, h⟩
  · have hsub : stop - (start + step) = stop - start - step := by ring
    simp only [count, if_pos hs]
    rw [hsub]
    exact steps_succ hs (by linarith)
  have hsub : start + step - stop = start - stop - -step := by ring
  simp only [count, if_neg hs.le.not_gt, if_pos hs]
  rw [hsub]
  exact steps_succ (by linarith) (by linarith)

theorem count_of_not_before (h : ¬ Before step stop start) : count start step stop = 0 := by
  rw [Before, not_or] at h
  rw [count]
  split
  · rename_i hs
    exact steps_zero hs (by linarith [not_lt.1 fun hlt => h.1 ⟨hs, hlt⟩])
  split
  · rename_i hs
    exact steps_zero (by linarith) (by linarith [not_lt.1 fun hlt => h.2 ⟨hs, hlt⟩])
  · rfl

theorem count_eq_zero : count start step stop = 0 ↔ ¬ Before step stop start := by
  refine ⟨fun h hb => ?_, count_of_not_before⟩
  rw [count_of_before hb] at h
  cases h

/-- **A number that comes before the bound is followed by the terms after it.** -/
theorem terms_cons (h : Before step stop start) :
    terms start step stop = start :: terms (start + step) step stop := by
  rw [terms, terms, count_of_before h, range_succ_eq_map, map_cons, map_map]
  refine congrArg₂ cons (by simp) (map_congr_left fun k _ => ?_)
  simp only [Function.comp_apply, succ_eq_add_one, cast_add, cast_one]
  ring

/-- **No term follows a number that does not come before the bound.** -/
theorem terms_nil (h : ¬ Before step stop start) : terms start step stop = [] := by
  rw [terms, count_of_not_before h]
  rfl

theorem terms_eq_nil : terms start step stop = [] ↔ ¬ Before step stop start := by
  rw [← length_eq_zero_iff, length_terms, count_eq_zero]

/-- Which of the numbers are terms. -/
theorem before_iff_lt_count (k : ℕ) :
    Before step stop (start + k * step) ↔ k < count start step stop := by
  induction k generalizing start with
  | zero =>
    rw [cast_zero, zero_mul, add_zero, pos_iff_ne_zero, Ne, count_eq_zero, not_not]
  | succ k ih =>
    have hstep : start + ((k + 1 : ℕ) : ℤ) * step = start + step + k * step := by
      push_cast
      ring
    rw [hstep, ih]
    by_cases h : Before step stop start
    · rw [count_of_before h, add_lt_add_iff_right]
    -- further steps lead away from the bound
    have hnext : ¬ Before step stop (start + step) := by
      rintro (⟨hs, hlt⟩ | ⟨hs, hlt⟩)
      · exact h (.inl ⟨hs, by linarith⟩)
      · exact h (.inr ⟨hs, by linarith⟩)
    rw [count_of_not_before h, count_of_not_before hnext]
    exact iff_of_false (not_lt_zero k) (not_lt_zero (k + 1))

/-- **The terms are the numbers of the progression that come before the bound.** -/
theorem mem_terms {x : ℤ} :
    x ∈ terms start step stop ↔ Before step stop x ∧ ∃ k : ℕ, x = start + k * step := by
  rw [terms, mem_map]
  constructor
  · rintro ⟨k, hk, rfl⟩
    exact ⟨(before_iff_lt_count k).2 (mem_range.1 hk), k, rfl⟩
  · rintro ⟨hb, k, rfl⟩
    exact ⟨k, mem_range.2 ((before_iff_lt_count k).1 hb), rfl⟩

/-- The last term comes just before the number that is past them. -/
theorem before_past_sub (h : Before step stop start) :
    Before step stop (past start step stop - step) := by
  have hpast : past start step stop - step =
      start + ((count (start + step) step stop : ℕ) : ℤ) * step := by
    rw [past, count_of_before h]
    push_cast
    ring
  rw [hpast, before_iff_lt_count, count_of_before h]
  exact lt_succ_self _

theorem not_before_past : ¬ Before step stop (past start step stop) := by
  rw [past, before_iff_lt_count]
  exact lt_irrefl _

end SpacePony.Progression
