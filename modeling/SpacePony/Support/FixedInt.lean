import Mathlib.Algebra.Order.Ring.Int
import Mathlib.Data.Int.ModEq
import Mathlib.Tactic.Linarith
import Mathlib.Tactic.Ring

/-!
# Support — integers of a fixed width

A number in the range of a width stays as it is, and one just outside of it comes in at the other
end (`wrap_of_fits`, `wrap_of_ge`, `wrap_of_lt`).
-/

namespace SpacePony

/-- A type of machine integers. -/
structure FixedInt where
  width : ℕ
  signed : Bool
  width_pos : 0 < width
deriving DecidableEq

namespace FixedInt

variable (T : FixedInt)

/-- How many values there are. -/
def card : ℤ := 2 ^ T.width

/-- The first value. -/
def lo : ℤ := if T.signed then -2 ^ (T.width - 1) else 0

/-- The number after the last value. -/
def hi : ℤ := if T.signed then 2 ^ (T.width - 1) else 2 ^ T.width

/-- The number is one of the type. -/
def Fits (n : ℤ) : Prop := T.lo ≤ n ∧ n < T.hi

instance : DecidablePred T.Fits := fun _ => inferInstanceAs (Decidable (_ ∧ _))

theorem card_pos : 0 < T.card := by
  rw [card]
  positivity

theorem hi_eq : T.hi = T.lo + T.card := by
  have hdouble : (2 : ℤ) ^ T.width = 2 ^ (T.width - 1) + 2 ^ (T.width - 1) := by
    rw [← mul_two, ← pow_succ, Nat.sub_add_cancel T.width_pos]
  cases h : T.signed <;> simp [hi, lo, card, h, hdouble]

theorem lo_nonpos : T.lo ≤ 0 := by
  rw [lo]
  split
  · simp
  · exact le_refl 0

theorem hi_pos : 0 < T.hi := by
  rw [hi]
  split <;> positivity

/-- A value of the type. -/
@[ext] structure Val where
  val : ℤ
  fits : T.Fits val
deriving DecidableEq

variable {T}

theorem fits_wrap (n : ℤ) : T.Fits (T.lo + (n - T.lo) % T.card) := by
  have hnonneg := Int.emod_nonneg (n - T.lo) T.card_pos.ne'
  have hlt := Int.emod_lt_of_pos (n - T.lo) T.card_pos
  refine ⟨by linarith, ?_⟩
  rw [T.hi_eq]
  linarith

variable (T) in
/-- The value that the number wraps to. -/
def wrap (n : ℤ) : T.Val := ⟨T.lo + (n - T.lo) % T.card, fits_wrap n⟩

/-- `+`. -/
instance : Add T.Val := ⟨fun a b => T.wrap (a.val + b.val)⟩

/-- `-` before a value. -/
instance : Neg T.Val := ⟨fun a => T.wrap (-a.val)⟩

/-- `-` between values. -/
instance : Sub T.Val := ⟨fun a b => T.wrap (a.val - b.val)⟩

theorem add_def (a b : T.Val) : a + b = T.wrap (a.val + b.val) := rfl

theorem sub_def (a b : T.Val) : a - b = T.wrap (a.val - b.val) := rfl

/-- **A number of the type is its own value.** -/
theorem wrap_of_fits {n : ℤ} (h : T.Fits n) : (T.wrap n).val = n := by
  have hhi := h.2
  rw [T.hi_eq] at hhi
  show T.lo + (n - T.lo) % T.card = n
  rw [Int.emod_eq_of_lt (by linarith [h.1]) (by linarith)]
  ring

theorem val_add {a b : T.Val} (h : T.Fits (a.val + b.val)) : (a + b).val = a.val + b.val :=
  wrap_of_fits h

theorem wrap_val (a : T.Val) : T.wrap a.val = a := Val.ext (wrap_of_fits a.fits)

theorem wrap_add_card (n k : ℤ) : T.wrap (n + k * T.card) = T.wrap n := by
  refine Val.ext ?_
  simp only [wrap]
  rw [add_sub_right_comm, Int.add_mul_emod_self_right]

/-- Sums may be wrapped on the way. -/
theorem wrap_add_wrap (n k : ℤ) : T.wrap ((T.wrap n).val + k) = T.wrap (n + k) := by
  have hval : (T.wrap n).val = n + -((n - T.lo) / T.card) * T.card := by
    have h := Int.emod_add_mul_ediv (n - T.lo) T.card
    simp only [wrap]
    linarith
  rw [hval, add_right_comm]
  exact wrap_add_card _ _

/-- A number just above the range comes in at its lower end. -/
theorem wrap_of_ge {n : ℤ} (hlo : T.hi ≤ n) (hhi : n < T.hi + T.card) :
    (T.wrap n).val = n - T.card := by
  have h := wrap_add_card (T := T) (n - T.card) 1
  rw [one_mul, sub_add_cancel] at h
  rw [h]
  exact wrap_of_fits ⟨by linarith [T.hi_eq], by linarith⟩

/-- A number just below the range comes in at its upper end. -/
theorem wrap_of_lt {n : ℤ} (hlo : T.lo - T.card ≤ n) (hhi : n < T.lo) :
    (T.wrap n).val = n + T.card := by
  have h := wrap_add_card (T := T) (n + T.card) (-1)
  rw [neg_one_mul, add_neg_cancel_right] at h
  rw [h]
  exact wrap_of_fits ⟨by linarith, by linarith [T.hi_eq]⟩

end FixedInt

end SpacePony
