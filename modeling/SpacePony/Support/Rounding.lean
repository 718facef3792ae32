import Mathlib.Data.Nat.Dist
import Mathlib.Data.Nat.Size
import Mathlib.Algebra.Order.Ring.Nat
import Mathlib.Tactic.IntervalCases
import Mathlib.Tactic.Ring

/-!
# Support — rounding to binary floating point

Natural numbers rounded to some number of significant bits, to the nearest one and in a tie to the
one with an even significand.  Two guard bits and a sticky bit decide it (`roundGuard_sticky`).
-/

namespace SpacePony.Rounding

open Nat

/-- The number has no more than `p` significant bits. -/
def Representable (p v : Nat) : Prop := ∃ m e, m < 2 ^ p ∧ v = m * 2 ^ e

/-- The last of the `p` significant bits is 0. -/
def EvenSignificand (p v : Nat) : Prop :=
  ∃ m e, 2 ^ (p - 1) ≤ m ∧ m < 2 ^ p ∧ m % 2 = 0 ∧ v = m * 2 ^ e

/-- The number is rounded to `p` significant bits, and in a tie to even. -/
structure NearestEven (p n v : Nat) : Prop where
  representable : Representable p v
  nearest : ∀ w, Representable p w → Nat.dist n v ≤ Nat.dist n w
  ties : ∀ w, Representable p w → w ≠ v → Nat.dist n w = Nat.dist n v → EvenSignificand p v

/-- The quotient by `2 ^ k`, rounded to nearest and in a tie to even. -/
def divEven (n k : Nat) : Nat :=
  if 2 ^ k < 2 * (n % 2 ^ k) ∨ 2 ^ k = 2 * (n % 2 ^ k) ∧ n / 2 ^ k % 2 = 1 then n / 2 ^ k + 1
  else n / 2 ^ k

variable {p n k v w : Nat}

/-- A number that has no more bits is not changed. -/
theorem nearestEven_self (h : Representable p n) : NearestEven p n n where
  representable := h
  nearest w _ := by rw [Nat.dist_self]; exact zero_le _
  ties w _ hne heq := by
    rw [Nat.dist_self] at heq
    exact absurd (Nat.eq_of_dist_eq_zero heq).symm hne

/-- The rounded quotient is in the right range. -/
theorem divEven_le (h : n / 2 ^ k < 2 ^ p) : divEven n k ≤ 2 ^ p := by
  rw [divEven]
  split_ifs <;> omega

theorem le_divEven : n / 2 ^ k ≤ divEven n k := by
  rw [divEven]
  split_ifs <;> omega

theorem representable_mul (h : v ≤ 2 ^ p) (hp : 0 < p) : Representable p (v * 2 ^ k) := by
  rcases lt_or_ge v (2 ^ p) with hlt | hge
  · exact ⟨v, k, hlt, rfl⟩
  obtain rfl : v = 2 ^ p := le_antisymm h hge
  refine ⟨1, p + k, Nat.one_lt_two_pow hp.ne', ?_⟩
  rw [one_mul, pow_add]

/-- What is representable is below the number by more than the remainder, or a multiple of the
power of two. -/
theorem Representable.cases (hw : Representable p w) (hlow : 2 ^ (p - 1) ≤ n / 2 ^ k) (hp : 0 < p) :
    w < n / 2 ^ k * 2 ^ k ∨ ∃ j, w = j * 2 ^ k := by
  obtain ⟨m, e, hm, rfl⟩ := hw
  rcases Nat.lt_or_ge e k with he | he
  · refine .inl ?_
    have hpow : 2 ^ p * 2 ^ e ≤ 2 ^ (p - 1) * 2 ^ k := by
      rw [← pow_add, ← pow_add]
      exact Nat.pow_le_pow_right (by decide) (by omega)
    calc m * 2 ^ e < 2 ^ p * 2 ^ e := Nat.mul_lt_mul_of_pos_right hm (Nat.two_pow_pos e)
      _ ≤ 2 ^ (p - 1) * 2 ^ k := hpow
      _ ≤ n / 2 ^ k * 2 ^ k := Nat.mul_le_mul_right _ hlow
  · refine .inr ⟨m * 2 ^ (e - k), ?_⟩
    rw [Nat.mul_assoc, ← pow_add, Nat.sub_add_cancel he]

/-- What is representable and not next to the number is farther away than the remainder. -/
theorem Representable.far (hw : Representable p w) (hlow : 2 ^ (p - 1) ≤ n / 2 ^ k) (hp : 0 < p) :
    w = n / 2 ^ k * 2 ^ k ∨ w = (n / 2 ^ k + 1) * 2 ^ k ∨ n % 2 ^ k < Nat.dist n w := by
  have hsplit : n = n / 2 ^ k * 2 ^ k + n % 2 ^ k := by
    rw [Nat.mul_comm]
    exact (Nat.div_add_mod n (2 ^ k)).symm
  rcases hw.cases hlow hp with hlt | ⟨j, rfl⟩
  · refine .inr (.inr ?_)
    rw [Nat.dist_eq_sub_of_le_right (by omega)]
    omega
  rcases Nat.lt_trichotomy j (n / 2 ^ k) with hj | hj | hj
  · refine .inr (.inr ?_)
    have hle : (j + 1) * 2 ^ k ≤ n / 2 ^ k * 2 ^ k := Nat.mul_le_mul_right _ hj
    rw [Nat.add_mul, one_mul] at hle
    rw [Nat.dist_eq_sub_of_le_right (by omega)]
    omega
  · exact .inl (by rw [hj])
  rcases Nat.eq_or_lt_of_le (Nat.succ_le_of_lt hj) with hj | hj
  · exact .inr (.inl (by rw [← hj]))
  refine .inr (.inr ?_)
  have hle : (n / 2 ^ k + 2) * 2 ^ k ≤ j * 2 ^ k := Nat.mul_le_mul_right _ hj
  rw [Nat.add_mul] at hle
  rw [Nat.dist_eq_sub_of_le (by omega)]
  omega

theorem evenSignificand_up (hp : 1 < p) (hlow : 2 ^ (p - 1) ≤ n) (hhigh : n < 2 ^ p)
    (hodd : n % 2 = 1) : EvenSignificand p ((n + 1) * 2 ^ k) := by
  rcases lt_or_ge (n + 1) (2 ^ p) with hlt | hge
  · exact ⟨n + 1, k, by omega, hlt, by omega, rfl⟩
  -- the carry reaches the next power of two
  have hn : n + 1 = 2 ^ p := by omega
  obtain ⟨p, rfl⟩ : ∃ p', p = p' + 2 := ⟨p - 2, by omega⟩
  refine ⟨2 ^ (p + 1), k + 1, le_refl _, ?_, ?_, ?_⟩
  · exact Nat.pow_lt_pow_right (by decide) (by omega)
  · rw [pow_succ, mul_mod_left]
  · rw [hn]
    ring

/-- **The rounded quotient is what the number is rounded to.** -/
theorem nearestEven_divEven (hp : 1 < p) (hlow : 2 ^ (p - 1) ≤ n / 2 ^ k)
    (hhigh : n / 2 ^ k < 2 ^ p) : NearestEven p n (divEven n k * 2 ^ k) := by
  have hsplit : n = n / 2 ^ k * 2 ^ k + n % 2 ^ k := by
    rw [Nat.mul_comm]
    exact (Nat.div_add_mod n (2 ^ k)).symm
  have hfar := fun w (hw : Representable p w) => hw.far hlow (by omega : 0 < p)
  have hrep := representable_mul (k := k) (divEven_le hhigh) (by omega)
  have hdown : Nat.dist n (n / 2 ^ k * 2 ^ k) = n % 2 ^ k := by
    rw [Nat.dist_eq_sub_of_le_right (by omega)]
    omega
  have hup : Nat.dist n ((n / 2 ^ k + 1) * 2 ^ k) = 2 ^ k - n % 2 ^ k := by
    rw [Nat.add_mul, one_mul, Nat.dist_eq_sub_of_le (by omega)]
    omega
  by_cases h : 2 ^ k < 2 * (n % 2 ^ k) ∨ 2 ^ k = 2 * (n % 2 ^ k) ∧ n / 2 ^ k % 2 = 1
  · rw [divEven, if_pos h] at hrep ⊢
    refine ⟨hrep, fun w hw => ?_, fun w hw hne heq => ?_⟩
    · rcases hfar w hw with rfl | rfl | hlt
      · rw [hup, hdown]
        omega
      · exact le_refl _
      · rw [hup]
        omega
    rcases hfar w hw with rfl | rfl | hlt
    · rw [hup, hdown] at heq
      exact evenSignificand_up hp hlow hhigh (by omega)
    · exact absurd rfl hne
    · rw [hup] at heq
      omega
  rw [divEven, if_neg h] at hrep ⊢
  refine ⟨hrep, fun w hw => ?_, fun w hw hne heq => ?_⟩
  · rcases hfar w hw with rfl | rfl | hlt
    · exact le_refl _
    · rw [hup, hdown]
      omega
    · rw [hdown]
      exact hlt.le
  rcases hfar w hw with rfl | rfl | hlt
  · exact absurd rfl hne
  · rw [hup, hdown] at heq
    exact ⟨n / 2 ^ k, k, hlow, hhigh, by omega, rfl⟩
  · rw [hdown] at heq
    omega

/-! ### Guard bits -/

/-- The quotient with one bit more, that is set where a bit is lost. -/
def sticky (n j : Nat) : Nat := if n % 2 ^ j = 0 then n / 2 ^ j else n / 2 ^ j ||| 1

/-- What two guard bits are rounded to: an odd significand sets the last of them. -/
def roundGuard (m : Nat) : Nat := ((if m / 4 % 2 = 1 then m ||| 1 else m) + 1) / 4

theorem or_one (m : Nat) : m ||| 1 = m + 1 - m % 2 := by
  have hdiv : (m ||| 1) / 2 = m / 2 := by rw [or_div_two, or_zero]
  have hmod : (m ||| 1) % 2 = 1 := by rw [or_mod_two_eq_one]; exact .inr rfl
  omega

/-- Rounded up is what has both guard bits, or the first one and an odd quotient. -/
theorem roundGuard_four {q r : Nat} (hr : r < 4) :
    roundGuard (4 * q + r) = if r = 3 ∨ r = 2 ∧ q % 2 = 1 then q + 1 else q := by
  have hq : (4 * q + r) / 4 = q := by omega
  rw [roundGuard, hq, or_one]
  split_ifs <;> omega

/-- One guard bit decides the rounding alone. -/
theorem roundGuard_two_mul (n : Nat) : roundGuard (2 * n) = divEven n 1 := by
  have hsplit : 2 * n = 4 * (n / 2) + 2 * (n % 2) := by omega
  rw [hsplit, roundGuard_four (by omega), divEven, pow_one]
  refine if_congr ?_ rfl rfl
  omega

/-- **Two guard bits and a sticky bit** decide the rounding. -/
theorem roundGuard_sticky (n j : Nat) : roundGuard (sticky n j) = divEven n (j + 2) := by
  have hpow : 2 ^ (j + 2) = 2 ^ j * 4 := by ring
  have hdiv : n / 2 ^ (j + 2) = n / 2 ^ j / 4 := by rw [hpow, Nat.div_div_eq_div_mul]
  have hmod : n % 2 ^ (j + 2) = n / 2 ^ j % 4 * 2 ^ j + n % 2 ^ j := by
    rw [hpow, Nat.mod_mul]
    ring
  have hlt : n % 2 ^ j < 2 ^ j := Nat.mod_lt _ (Nat.two_pow_pos j)
  rw [sticky, divEven, hdiv, hmod, hpow]
  clear hpow hdiv hmod
  generalize n % 2 ^ j = low at *
  generalize n / 2 ^ j = m at *
  generalize 2 ^ j = u at *
  obtain ⟨q, g, hg, rfl⟩ : ∃ q g, g < 4 ∧ m = 4 * q + g := ⟨m / 4, m % 4, by omega, by omega⟩
  have hgmod : (4 * q + g) % 4 = g := by omega
  have hq : (4 * q + g) / 4 = q := by omega
  rw [hgmod, hq]
  by_cases hlow : low = 0
  · have hup : g = 3 ∨ g = 2 ∧ q % 2 = 1 ↔
        u * 4 < 2 * (g * u + low) ∨ u * 4 = 2 * (g * u + low) ∧ q % 2 = 1 := by
      interval_cases g <;> omega
    simp only [if_pos hlow, roundGuard_four hg, hup]
  · have hodd : 4 * q + g ||| 1 = 4 * q + (g + 1 - g % 2) := by
      rw [or_one]
      omega
    have hup : g + 1 - g % 2 = 3 ∨ g + 1 - g % 2 = 2 ∧ q % 2 = 1 ↔
        u * 4 < 2 * (g * u + low) ∨ u * 4 = 2 * (g * u + low) ∧ q % 2 = 1 := by
      interval_cases g <;> omega
    simp only [if_neg hlow, hodd, roundGuard_four (show g + 1 - g % 2 < 4 by omega), hup]

/-! ### Binary64 -/

def signField (bits : Nat) : Nat := bits / 2 ^ 63
def exponentField (bits : Nat) : Nat := bits / 2 ^ 52 % 2 ^ 11
def fractionField (bits : Nat) : Nat := bits % 2 ^ 52

/-- The pattern of binary64 stands for the number: a pattern of zeros for 0, otherwise a normal
number with the value. -/
structure Encodes (bits v : Nat) : Prop where
  sign : signField bits = 0
  zero : v = 0 → bits = 0
  finite : v ≠ 0 → 0 < exponentField bits ∧ exponentField bits < 2047
  value : v ≠ 0 → (2 ^ 52 + fractionField bits) * 2 ^ exponentField bits = v * 2 ^ 1075

/-- The fields of a pattern that is put together from an exponent and a significand. -/
theorem encodes_of_fields {e m : Nat} (he : 0 < e) (he' : e < 2047) (hm : 2 ^ 52 ≤ m)
    (hm' : m < 2 ^ 53) (hv : v ≠ 0) (hvalue : m * 2 ^ e = v * 2 ^ 1075) :
    Encodes (e * 2 ^ 52 + (m - 2 ^ 52)) v := by
  have hfrac : fractionField (e * 2 ^ 52 + (m - 2 ^ 52)) = m - 2 ^ 52 := by
    rw [fractionField]
    omega
  have hexp : exponentField (e * 2 ^ 52 + (m - 2 ^ 52)) = e := by
    rw [exponentField]
    omega
  refine ⟨?_, fun h => absurd h hv, fun _ => by rw [hexp]; exact ⟨he, he'⟩, fun _ => ?_⟩
  · rw [signField]
    omega
  · rw [hfrac, hexp, Nat.add_sub_cancel' hm, hvalue]

end SpacePony.Rounding
