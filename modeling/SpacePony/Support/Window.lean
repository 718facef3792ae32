import Mathlib.Data.Nat.ModEq
import Mathlib.Tactic

/-!
# Support — Windows of a cyclic bitmap

A word of `w` bits read as a cycle: number `k` is bit `k % w`.  Rotating the word moves the
numbers (`getLsbD_rotateLeft_add`, `getLsbD_rotateRight_mod`), so the lowest `n` bits, rotated to
start at a number, are the `n` numbers from there on.

* `from_mem`, `upto_mem`: the numbers from `O` on, and the numbers below `N`, that a rotated window
  holds.
* `ctz_rotateRight_le`: counting zeros from a number on finds no more than the way to a set bit.
* `clear_lt`: clearing a set bit makes the word smaller, which ends a loop over the set bits.
-/

namespace SpacePony.Window

open Nat BitVec

variable {w : Nat}

/-- The lowest `n` bits of a word: `(1 << n) - 1`. -/
def window (w n : Nat) : BitVec w := 1#w <<< n - 1#w

/-- Bit `k` alone: `1 << k`. -/
def bit (w k : Nat) : BitVec w := 1#w <<< k

section
variable {x y : BitVec w} {n i j k r O N : Nat}

theorem getLsbD_window (h : n < w) : (window w n).getLsbD i = decide (i < n) := by
  have hlt : 2 ^ n < 2 ^ w := Nat.pow_lt_pow_right (by simp) h
  have hpos : 0 < 2 ^ n := Nat.two_pow_pos n
  have e : (window w n).toNat = 2 ^ n - 1 := by
    have one : 1 % 2 ^ w = 1 := Nat.mod_eq_of_lt (by omega)
    rw [window, toNat_sub, toNat_shiftLeft, toNat_ofNat, one,
      Nat.shiftLeft_eq, one_mul, Nat.mod_eq_of_lt hlt,
      show 2 ^ w - 1 + 2 ^ n = (2 ^ n - 1) + 2 ^ w by omega, Nat.add_mod_right,
      Nat.mod_eq_of_lt (by omega)]
  rw [← testBit_toNat, e, Nat.testBit_two_pow_sub_one]

theorem getLsbD_bit (h : k < w) : (bit w k).getLsbD i = decide (i = k) := by
  rw [← testBit_toNat, bit, toNat_shiftLeft, toNat_ofNat]
  have hlt : 2 ^ k < 2 ^ w := Nat.pow_lt_pow_right (by simp) h
  have hpos : 0 < 2 ^ k := Nat.two_pow_pos k
  rw [Nat.mod_eq_of_lt (show 1 < 2 ^ w by omega), Nat.shiftLeft_eq, one_mul, Nat.mod_eq_of_lt hlt,
    Nat.testBit_two_pow]
  simp [eq_comm]

/-- Masking a word with 1 tests its bit 0. -/
theorem and_one_ne_zero (hw : 0 < w) : (x &&& 1#w != 0#w) = x.getLsbD 0 := by
  rw [and_one_eq_setWidth_ofBool_getLsbD]
  cases x.getLsbD 0 with
  | false => simp
  | true =>
    obtain ⟨v, rfl⟩ := exists_eq_succ_of_ne_zero hw.ne'
    simp

/-! ### Rotations -/

/-- Rotating left by `r` moves bit `j` to `j + r`. -/
theorem getLsbD_rotateLeft_add (hj : j < w) :
    (x.rotateLeft r).getLsbD ((j + r) % w) = x.getLsbD j := by
  have hr : r % w < w := mod_lt _ (by omega)
  rw [add_mod, mod_eq_of_lt hj, getLsbD_rotateLeft]
  by_cases h : j + r % w < w
  · rw [mod_eq_of_lt h]
    simp [show ¬ j + r % w < r % w by omega, h]
  rw [mod_eq_sub_mod (show w ≤ j + r % w by omega), mod_eq_of_lt (show j + r % w - w < w by omega)]
  simp only [show j + r % w - w < r % w by omega, decide_true, cond_true]
  congr 1
  omega

/-- Rotating right by `r` moves bit `j + r` to `j`. -/
theorem getLsbD_rotateRight_mod (hj : j < w) :
    (x.rotateRight r).getLsbD j = x.getLsbD ((j + r) % w) := by
  have hr : r % w < w := mod_lt _ (by omega)
  rw [add_mod, mod_eq_of_lt hj, getLsbD_rotateRight]
  by_cases h : j + r % w < w
  · rw [mod_eq_of_lt h]
    simp [show j < w - r % w by omega, add_comm]
  rw [mod_eq_sub_mod (show w ≤ j + r % w by omega), mod_eq_of_lt (show j + r % w - w < w by omega)]
  simp only [show ¬ j < w - r % w by omega, decide_false, cond_false, hj, decide_true,
    Bool.true_and]
  congr 1
  omega

/-- A window rotated left to `O` holds the `n` numbers from `O` on. -/
theorem from_mem (hn : n < w) (ho : O ≤ k) (hk : k < O + n) :
    ((window w n).rotateLeft (O % w)).getLsbD (k % w) = true := by
  have e : k % w = ((k - O) + O % w) % w := by rw [Nat.add_mod_mod, Nat.sub_add_cancel ho]
  rw [e, getLsbD_rotateLeft_add (by omega), getLsbD_window hn]
  simp
  omega

/-- A window rotated left to `N` and back by its own length holds the `n` numbers below `N`. -/
theorem upto_mem (hn : n < w) (hk : k < N) (hN : N ≤ k + n) :
    (((window w n).rotateLeft (N % w)).rotateRight n).getLsbD (k % w) = true := by
  have e : (k % w + n) % w = ((k + n - N) + N % w) % w := by
    rw [Nat.add_mod_mod, Nat.mod_add_mod, Nat.sub_add_cancel hN]
  rw [getLsbD_rotateRight_mod (Nat.mod_lt _ (by omega)), e, getLsbD_rotateLeft_add (by omega),
    getLsbD_window hn]
  simp
  omega

/-! ### The first set bit -/

/-- The zeros counted from `O` on are no more than the way to a set bit, once around at most. -/
theorem ctz_rotateRight_le (hw : 0 < w) (ho : O ≤ k) (h : x.getLsbD (k % w) = true) :
    ((x.rotateRight (O % w)).ctz).toNat ≤ (k - O) % w := by
  by_contra hlt
  have hfalse := getLsbD_false_of_lt_ctz (x := x.rotateRight (O % w)) (i := (k - O) % w)
    (by omega)
  rw [getLsbD_rotateRight_mod (Nat.mod_lt _ hw), Nat.add_mod_mod, Nat.mod_add_mod,
    Nat.sub_add_cancel ho, h] at hfalse
  cases hfalse

theorem ctz_lt (hx : x ≠ 0#w) : x.ctz.toNat < w := by
  by_contra h
  have := getLsbD_true_ctz_of_ne_zero hx
  rw [getLsbD_of_ge _ _ (by omega)] at this
  cases this

/-- Clearing a bit that is set makes the word smaller. -/
theorem clear_lt (hk : (x &&& y).getLsbD k = true) :
    (x &&& (y &&& ~~~ bit w k)).toNat < (x &&& y).toNat := by
  have hw : k < w := by
    by_contra h
    rw [BitVec.getLsbD_of_ge _ _ (by omega)] at hk
    cases hk
  have e : x &&& (y &&& ~~~ bit w k) = (x &&& y) &&& ~~~ bit w k := by rw [BitVec.and_assoc]
  rw [e, BitVec.toNat_and]
  refine lt_of_le_of_ne and_le_left fun heq => ?_
  have := congrArg (fun m => m.testBit k) heq
  simp only [← BitVec.toNat_and, BitVec.testBit_toNat] at this
  rw [BitVec.getLsbD_and, hk, BitVec.getLsbD_not, getLsbD_bit hw] at this
  simp [hw] at this

end

end SpacePony.Window
