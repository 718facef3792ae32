import SpacePony.Compiler.Ast.LexintExact
import SpacePony.Support.Rounding

/-!
# Compiler — 128-bit literals as floating point

`lexint_double` rounds to the nearest number with 53 significant bits, and in a tie to even.  The
halving search finds the leading bit (`countLeadingZeros_spec`); the 55 bits that are rounded are
the quotient, a guard bit and a sticky bit (`guardedMantissa_eq`), and from these come the fields of
the result (`double_exact`).
-/

namespace SpacePony.Syntax.Lexint

open Nat Rounding
open UInt64 (toNat_shiftRight toNat_inj toNat_shiftLeft toNat_sub toNat_add toNat_or toNat_and
  toNat_one)
open Nat (mod_eq_of_lt two_pow_pos shiftLeft_eq mul_assoc pow_le_pow_right mul_one mul_comm)

variable {i : Lexint} {n : Nat} {w : UInt64}

/-! ### Leading zeros -/

/-- What the rounds of `count_leading_zeros` keep: the word is shifted by the count and nothing is
lost, and a bit is set above `low`. -/
structure Shifted (n low : Nat) (s : Nat × UInt64) : Prop where
  value : s.2.toNat = n * 2 ^ s.1
  low : 2 ^ low ≤ s.2.toNat

/-- A round: the bit is in the upper of two parts that are `a` bits wide, or moved there. -/
theorem Shifted.step {a low : Nat} {shift width : UInt64} {s : Nat × UInt64} (h : Shifted n low s)
    (hs : shift.toNat = 64 - a) (hw : width.toNat = a) (ha : 0 < a ∧ a < 64 ∧ 64 ≤ low + 2 * a) :
    Shifted n (64 - a) (clzStep shift width s) := by
  obtain ⟨ha, ha', hlow⟩ := ha
  have hshift : (s.2 >>> shift).toNat = s.2.toNat / 2 ^ (64 - a) := by
    rw [toNat_shiftRight, hs, mod_eq_of_lt (by omega), Nat.shiftRight_eq_div_pow]
  have hzero : s.2 >>> shift = 0 ↔ s.2.toNat < 2 ^ (64 - a) := by
    rw [← toNat_inj, hshift]
    exact Nat.div_eq_zero_iff_lt (two_pow_pos _)
  rw [clzStep]
  by_cases hlt : s.2.toNat < 2 ^ (64 - a)
  · have hmoved : (s.2 <<< width).toNat = s.2.toNat * 2 ^ a := by
      rw [toNat_shiftLeft, hw, mod_eq_of_lt ha', shiftLeft_eq, mod_eq_of_lt]
      calc s.2.toNat * 2 ^ a < 2 ^ (64 - a) * 2 ^ a :=
            Nat.mul_lt_mul_of_pos_right hlt (two_pow_pos a)
        _ = 2 ^ 64 := by rw [← pow_add, Nat.sub_add_cancel ha'.le]
    rw [if_pos (hzero.2 hlt)]
    refine ⟨?_, ?_⟩
    · rw [hmoved, h.value, hw, pow_add, mul_assoc]
    rw [hmoved]
    calc 2 ^ (64 - a) ≤ 2 ^ low * 2 ^ a := by
          rw [← pow_add]
          exact pow_le_pow_right (by decide) (by omega)
      _ ≤ s.2.toNat * 2 ^ a := Nat.mul_le_mul_right _ h.low
  · rw [if_neg (hzero.not.2 hlt)]
    exact ⟨h.value, Nat.le_of_not_lt hlt⟩

/-- **The leading bit is found.** -/
theorem countLeadingZeros_spec (hw : w ≠ 0) : countLeadingZeros w ≤ 63 ∧
    2 ^ 63 ≤ w.toNat * 2 ^ countLeadingZeros w ∧ w.toNat * 2 ^ countLeadingZeros w < 2 ^ 64 := by
  have hpos : 0 < w.toNat := by
    refine Nat.pos_of_ne_zero fun h => hw ?_
    rw [← toNat_inj, h]
    rfl
  rw [countLeadingZeros, if_neg hw]
  dsimp only
  have hstart : Shifted w.toNat 0 (0, w) := ⟨by rw [pow_zero, mul_one], hpos⟩
  have h₃₂ : Shifted w.toNat 32 (clzStep 32 32 (0, w)) :=
    hstart.step (a := 32) rfl rfl (by decide)
  generalize clzStep 32 32 (0, w) = s at *
  have h₁₆ : Shifted w.toNat 48 (clzStep 48 16 s) :=
    h₃₂.step (a := 16) rfl rfl (by decide)
  generalize clzStep 48 16 s = s at *
  have h₈ : Shifted w.toNat 56 (clzStep 56 8 s) :=
    h₁₆.step (a := 8) rfl rfl (by decide)
  generalize clzStep 56 8 s = s at *
  have h₄ : Shifted w.toNat 60 (clzStep 60 4 s) :=
    h₈.step (a := 4) rfl rfl (by decide)
  generalize clzStep 60 4 s = s at *
  have h₂ : Shifted w.toNat 62 (clzStep 62 2 s) :=
    h₄.step (a := 2) rfl rfl (by decide)
  generalize clzStep 62 2 s = s at *
  have h₁ : Shifted w.toNat 63 (clzStep 63 1 s) :=
    h₂.step (a := 1) rfl rfl (by decide)
  generalize clzStep 63 1 s = s at *
  have hlt := s.2.toNat_lt
  obtain ⟨hvalue, hlow⟩ := h₁
  rw [hvalue] at hlt hlow
  refine ⟨?_, hlow, hlt⟩
  by_contra hc
  have hle : 2 ^ 64 ≤ w.toNat * 2 ^ s.1 :=
    (pow_le_pow_right (by decide) (by omega)).trans (Nat.le_mul_of_pos_left _ hpos)
  omega

/-- The word between two powers of two. -/
theorem countLeadingZeros_bounds (hw : w ≠ 0) : countLeadingZeros w ≤ 63 ∧
    2 ^ (63 - countLeadingZeros w) ≤ w.toNat ∧ w.toNat < 2 ^ (64 - countLeadingZeros w) := by
  obtain ⟨hle, hlow, hhigh⟩ := countLeadingZeros_spec hw
  refine ⟨hle, ?_, ?_⟩
  · refine Nat.le_of_mul_le_mul_right (?_ : _ * 2 ^ countLeadingZeros w ≤ _) (two_pow_pos _)
    rwa [← pow_add, Nat.sub_add_cancel hle]
  · refine Nat.lt_of_mul_lt_mul_right (a := 2 ^ countLeadingZeros w) ?_
    rwa [← pow_add, Nat.sub_add_cancel (by omega)]

/-- The number of significant bits. -/
theorem sigBitCount_spec (hi : i.val ≠ 0) :
    0 < i.sigBitCount ∧ i.sigBitCount ≤ 128 ∧ 2 ^ (i.sigBitCount - 1) ≤ i.val ∧
      i.val < 2 ^ i.sigBitCount := by
  rw [sigBitCount]
  by_cases hh : i.high = 0
  · have hval : i.val = i.low.toNat := by
      rw [val, hh]
      simp
    have hl : i.low ≠ 0 := fun h => hi (by rw [hval, h]; rfl)
    obtain ⟨hle, hlow, hhigh⟩ := countLeadingZeros_bounds hl
    rw [if_pos hh, hval]
    generalize countLeadingZeros i.low = z at *
    refine ⟨by omega, by omega, ?_, hhigh⟩
    rwa [show 64 - z - 1 = 63 - z from by omega]
  obtain ⟨hle, hlow, hhigh⟩ := countLeadingZeros_bounds hh
  have hl := i.low.toNat_lt
  rw [if_neg hh, val]
  generalize countLeadingZeros i.high = z at *
  refine ⟨by omega, by omega, ?_, ?_⟩
  · calc 2 ^ (128 - z - 1) = 2 ^ (63 - z) * 2 ^ 64 := by
          rw [← pow_add]
          exact congrArg _ (by omega)
      _ ≤ i.high.toNat * 2 ^ 64 := mul_le_mul_right _ hlow
      _ ≤ i.high.toNat * 2 ^ 64 + i.low.toNat := le_add_right _ _
  calc i.high.toNat * 2 ^ 64 + i.low.toNat < (i.high.toNat + 1) * 2 ^ 64 := by
        rw [add_mul]
        omega
    _ ≤ 2 ^ (64 - z) * 2 ^ 64 := mul_le_mul_right _ hhigh
    _ = 2 ^ (128 - z) := by
        rw [← pow_add]
        exact congrArg _ (by omega)

/-! ### Rounding -/

/-- Two words shifted left together: the high bits of the low one move into the high one. -/
theorem shl_words {h l : Nat} (n m : Nat) (hnm : n + m = 64) (hfit : (h * 2 ^ 64 + l) * 2 ^ n < 2 ^ 128) :
    ((h * 2 ^ n) % 2 ^ 64 + l / 2 ^ m) % 2 ^ 64 * 2 ^ 64 + l * 2 ^ n % 2 ^ 64 =
      (h * 2 ^ 64 + l) * 2 ^ n := by
  have hword : 2 ^ 64 = 2 ^ n * 2 ^ m := by rw [← Nat.pow_add, hnm]
  have hmoved : l / 2 ^ m = l * 2 ^ n / 2 ^ 64 := by
    rw [hword, mul_comm, Nat.mul_div_mul_left _ _ (two_pow_pos n)]
  have hall : (h * 2 ^ 64 + l) * 2 ^ n = h * 2 ^ n * 2 ^ 64 + l * 2 ^ n := by ring
  rw [hall] at hfit ⊢
  rw [hmoved]
  generalize h * 2 ^ n = x at *
  generalize l * 2 ^ n = y at *
  omega

/-- Shifting left multiplies, where nothing is lost. -/
theorem val_shl (a : Lexint) (h : n < 128) (hfit : a.val * 2 ^ n < 2 ^ 128) :
    (a.shl (UInt64.ofNat n)).val = a.val * 2 ^ n := by
  have hn := toNat_ofNat_of_lt h
  have h64 : (64 : UInt64).toNat = 64 := rfl
  have h0 : (0 : UInt64).toNat = 0 := rfl
  simp only [shl, amount_le h, amount_lt h, amount_eq h, h64, h0]
  rw [if_neg (Nat.not_le_of_lt h)]
  rcases Nat.lt_or_ge n 64 with hlow | hge
  · rw [if_neg (by omega), if_neg (by omega)]
    rcases Nat.eq_zero_or_pos n with rfl | hpos
    · rw [if_neg (lt_irrefl 0), pow_zero, mul_one]
    rw [if_pos hpos]
    have hdown : (64 - UInt64.ofNat n).toNat % 64 = 64 - n := by
      rw [toNat_sub, hn, h64]
      omega
    have hup : (UInt64.ofNat n).toNat % 64 = n := by rw [hn, mod_eq_of_lt hlow]
    simp only [val, toNat_add, toNat_shiftLeft, toNat_shiftRight, hup, hdown,
      shiftLeft_eq, Nat.shiftRight_eq_div_pow]
    exact shl_words n (64 - n) (by omega) hfit
  -- nothing is in the high word
  have hpow : 2 ^ n = 2 ^ (n - 64) * 2 ^ 64 := by rw [← pow_add, Nat.sub_add_cancel hge]
  have hsmall : a.val * 2 ^ (n - 64) < 2 ^ 64 := by
    rw [hpow, ← mul_assoc] at hfit
    exact Nat.lt_of_mul_lt_mul_right (a := 2 ^ 64) (by rw [← pow_add]; exact hfit)
  have hval : a.val = a.low.toNat := by
    have hle := Nat.le_mul_of_pos_right a.val (two_pow_pos (n - 64))
    have hrw := val.eq_1 a
    omega
  rcases Nat.eq_or_lt_of_le hge with rfl | hgt
  · simp only [lt_irrefl, if_false, if_true]
    rw [hval, val, h0, Nat.add_zero]
  rw [if_pos hgt]
  have hamount : (UInt64.ofNat n - 64).toNat % 64 = n - 64 := by
    rw [toNat_sub, hn, h64]
    omega
  rw [hval] at hsmall ⊢
  simp only [val, toNat_shiftLeft, hamount, shiftLeft_eq, h0]
  rw [mod_eq_of_lt hsmall, hpow, mul_assoc, Nat.add_zero]

/-- **The bits that are rounded** are the quotient with a guard bit and a sticky bit. -/
theorem guardedMantissa_eq (hi : i.val ≠ 0) (hcount : 55 ≤ i.sigBitCount) :
    (i.guardedMantissa i.sigBitCount).toNat = sticky i.val (i.sigBitCount - 55) := by
  obtain ⟨hpos, hle, hlow, hhigh⟩ := sigBitCount_spec hi
  generalize i.sigBitCount = count at *
  rw [guardedMantissa, if_neg (by omega)]
  by_cases h55 : 55 < count
  · rw [if_pos h55]
    have hshr := val_shr i (n := count - 55) (by omega)
    have hq : i.val / 2 ^ (count - 55) < 2 ^ 55 := by
      rw [Nat.div_lt_iff_lt_mul (two_pow_pos _), ← pow_add, Nat.add_sub_cancel' h55.le]
      exact hhigh
    have hhigh0 : (i.shr (UInt64.ofNat (count - 55))).low.toNat = i.val / 2 ^ (count - 55) := by
      rw [← hshr] at hq ⊢
      rw [val] at hq ⊢
      omega
    have hdiv := Nat.div_add_mod i.val (2 ^ (count - 55))
    have hlt := val_lt i
    have hshl := val_shl (i.shr (UInt64.ofNat (count - 55))) (n := count - 55) (by omega) (by
      rw [hshr, mul_comm]
      omega)
    have hcmp : (((i.shr (UInt64.ofNat (count - 55))).shl (UInt64.ofNat (count - 55))).cmp i ≠ .eq) ↔
        i.val % 2 ^ (count - 55) ≠ 0 := by
      rw [cmp_eq, hshl, hshr, not_iff_not, Nat.compare_eq_eq, mul_comm]
      omega
    rw [sticky]
    by_cases hmod : i.val % 2 ^ (count - 55) = 0
    · rw [if_neg (hcmp.not.2 (not_not.2 hmod)), if_pos hmod, hhigh0]
    · rw [if_pos (hcmp.2 hmod), if_neg hmod, toNat_or, hhigh0]
      rfl
  obtain rfl : count = 55 := by omega
  rw [if_neg h55, sticky, Nat.sub_self, pow_zero, Nat.mod_one, if_pos rfl, Nat.div_one]
  rw [val] at hhigh ⊢
  omega

/-- The bits that are rounded give the rounded quotient. -/
theorem roundGuard_guardedMantissa (hi : i.val ≠ 0) (hcount : 53 < i.sigBitCount) :
    roundGuard (i.guardedMantissa i.sigBitCount).toNat = divEven i.val (i.sigBitCount - 53) := by
  rcases eq_or_lt_of_le (succ_le_of_lt hcount) with h54 | h55
  · have hhigh := (sigBitCount_spec hi).2.2.2
    rw [← h54] at hhigh ⊢
    have hval : i.low.toNat = i.val := by
      rw [val] at hhigh ⊢
      omega
    have htwice : (i.guardedMantissa 54).toNat = 2 * i.val := by
      rw [guardedMantissa, if_pos rfl, toNat_shiftLeft, hval, shiftLeft_eq]
      show i.val * 2 ^ 1 % 2 ^ 64 = _
      omega
    rw [succ_eq_add_one] at *
    rw [htwice, roundGuard_two_mul]
  · rw [guardedMantissa_eq hi h55, roundGuard_sticky]
    exact congrArg _ (by omega)

theorem and_four (w : UInt64) : w &&& 4 ≠ 0 ↔ w.toNat / 4 % 2 = 1 := by
  rw [ne_eq, ← toNat_inj, toNat_and, show (4 : UInt64).toNat = 2 ^ 2 from rfl,
    and_two_pow, testBit_eq_decide_div_mod_eq]
  by_cases h : w.toNat / 2 ^ 2 % 2 = 1 <;> simp

theorem and_carry (w : UInt64) : w &&& ((1 : UInt64) <<< 53) ≠ 0 ↔ w.toNat / 2 ^ 53 % 2 = 1 := by
  rw [ne_eq, ← toNat_inj, toNat_and,
    show ((1 : UInt64) <<< 53).toNat = 2 ^ 53 from rfl, and_two_pow, testBit_eq_decide_div_mod_eq]
  by_cases h : w.toNat / 2 ^ 53 % 2 = 1 <;> simp

/-- The rounding of the word, where it does not overflow. -/
theorem toNat_roundGuard (h : roundGuard w.toNat ≤ 2 ^ 53) :
    (((if w &&& 4 ≠ 0 then w ||| 1 else w) + 1) >>> 2).toNat = roundGuard w.toNat := by
  have hodd : (if w &&& 4 ≠ 0 then w ||| 1 else w).toNat =
      if w.toNat / 4 % 2 = 1 then w.toNat ||| 1 else w.toNat := by
    by_cases hw : w.toNat / 4 % 2 = 1
    · rw [if_pos ((and_four w).2 hw), if_pos hw, toNat_or]
      rfl
    · rw [if_neg ((and_four w).not.2 hw), if_neg hw]
  rw [toNat_shiftRight, toNat_add, hodd, toNat_one,
    show (2 : UInt64).toNat % 64 = 2 from rfl, shiftRight_eq_div_pow]
  rw [roundGuard] at h ⊢
  omega

/-- The fields are put together. -/
theorem toNat_pack {e m : UInt64} (he : e.toNat ≤ 128) (hm : 2 ^ 52 ≤ m.toNat)
    (hm' : m.toNat < 2 ^ 53) : (((e + 1023) <<< 52) ||| (m &&& 0xFFFFFFFFFFFFF)).toNat =
      (e.toNat + 1023) * 2 ^ 52 + (m.toNat - 2 ^ 52) := by
  have hfrac : (m &&& 0xFFFFFFFFFFFFF).toNat = m.toNat - 2 ^ 52 := by
    rw [toNat_and, show (0xFFFFFFFFFFFFF : UInt64).toNat = 2 ^ 52 - 1 from rfl,
      and_two_pow_sub_one_eq_mod]
    omega
  have hexp : ((e + 1023) <<< 52).toNat = (e.toNat + 1023) * 2 ^ 52 := by
    rw [toNat_shiftLeft, toNat_add, show (1023 : UInt64).toNat = 1023 from rfl,
      show (52 : UInt64).toNat % 64 = 52 from rfl, shiftLeft_eq]
    omega
  have hor := shiftLeft_add_eq_or_of_lt (i := 52) (b := m.toNat - 2 ^ 52) (by omega)
    (e.toNat + 1023)
  rw [shiftLeft_eq] at hor
  rw [toNat_or, hfrac, hexp, hor]

/-- The exponent and the mantissa are those of the rounded number. -/
theorem exponentMantissa_spec (hi : i.val ≠ 0) : ∃ v, NearestEven 53 i.val v ∧ v ≠ 0 ∧
    i.exponentMantissa.1.toNat ≤ 128 ∧ 2 ^ 52 ≤ i.exponentMantissa.2.toNat ∧
    i.exponentMantissa.2.toNat < 2 ^ 53 ∧
    i.exponentMantissa.2.toNat * 2 ^ i.exponentMantissa.1.toNat = v * 2 ^ 52 := by
  obtain ⟨hpos, hle, hlow, hhigh⟩ := sigBitCount_spec hi
  have hexp : (UInt64.ofNat (i.sigBitCount - 1)).toNat = i.sigBitCount - 1 :=
    toNat_ofNat_of_lt (by omega)
  rw [exponentMantissa]
  dsimp only
  by_cases h53 : i.sigBitCount ≤ 53
  · -- the number is exact
    have hval : i.low.toNat = i.val := by
      have hlt : i.val < 2 ^ 53 := hhigh.trans_le (pow_le_pow_right (by decide) h53)
      rw [val] at hlt ⊢
      omega
    have hwidth : 2 ^ i.sigBitCount * 2 ^ (53 - i.sigBitCount) = 2 ^ 53 := by
      rw [← pow_add, Nat.add_sub_cancel' h53]
    have hup : i.val * 2 ^ (53 - i.sigBitCount) < 2 ^ 53 := by
      rw [← hwidth]
      exact Nat.mul_lt_mul_of_pos_right hhigh (two_pow_pos _)
    have hdown : 2 ^ 52 ≤ i.val * 2 ^ (53 - i.sigBitCount) := by
      calc 2 ^ 52 = 2 ^ (i.sigBitCount - 1) * 2 ^ (53 - i.sigBitCount) := by
            rw [← pow_add]
            exact congrArg _ (by omega)
        _ ≤ _ := Nat.mul_le_mul_right _ hlow
    have hm : (i.low <<< UInt64.ofNat (53 - i.sigBitCount)).toNat =
        i.val * 2 ^ (53 - i.sigBitCount) := by
      have hlt : 53 - i.sigBitCount < 64 := by omega
      rw [toNat_shiftLeft, hval, toNat_ofNat_of_lt (by omega), mod_eq_of_lt hlt,
        shiftLeft_eq, mod_eq_of_lt (by omega)]
    rw [if_pos h53]
    refine ⟨i.val, nearestEven_self ⟨i.val, 0, ?_, by rw [pow_zero, mul_one]⟩, hi, ?_, ?_, ?_, ?_⟩
    · exact hhigh.trans_le (pow_le_pow_right (by decide) h53)
    · rw [hexp]
      omega
    · rw [hm]
      exact hdown
    · rw [hm]
      exact hup
    · rw [hm, hexp, mul_assoc, ← pow_add]
      exact congrArg (i.val * 2 ^ ·) (by omega)
  have hguard := roundGuard_guardedMantissa hi (by omega)
  rw [if_neg h53]
  have hsplit : 2 ^ i.sigBitCount = 2 ^ 53 * 2 ^ (i.sigBitCount - 53) := by
    rw [← pow_add]
    exact congrArg _ (by omega)
  have hsplit' : 2 ^ (i.sigBitCount - 1) = 2 ^ 52 * 2 ^ (i.sigBitCount - 53) := by
    rw [← pow_add]
    exact congrArg _ (by omega)
  have hqlow : 2 ^ (53 - 1) ≤ i.val / 2 ^ (i.sigBitCount - 53) := by
    rw [Nat.le_div_iff_mul_le (two_pow_pos _), ← hsplit']
    exact hlow
  have hqhigh : i.val / 2 ^ (i.sigBitCount - 53) < 2 ^ 53 := by
    rw [Nat.div_lt_iff_lt_mul (two_pow_pos _), ← hsplit]
    exact hhigh
  have hnear := nearestEven_divEven (by decide) hqlow hqhigh
  have hdlow := hqlow.trans le_divEven
  have hdhigh := divEven_le hqhigh
  have hround := toNat_roundGuard (w := i.guardedMantissa i.sigBitCount) (by
    rw [hguard]
    exact hdhigh)
  rw [hguard] at hround
  generalize ((if i.guardedMantissa i.sigBitCount &&& 4 ≠ 0 then
    i.guardedMantissa i.sigBitCount ||| 1 else i.guardedMantissa i.sigBitCount) + 1) >>> 2 = m at *
  generalize divEven i.val (i.sigBitCount - 53) = d at *
  have hpow := two_pow_pos (i.sigBitCount - 53)
  refine ⟨d * 2 ^ (i.sigBitCount - 53), hnear, (Nat.mul_pos (by omega) hpow).ne', ?_⟩
  by_cases hcarry : m &&& ((1 : UInt64) <<< 53) ≠ 0
  · have hd : d = 2 ^ 53 := by
      rw [and_carry, hround] at hcarry
      omega
    have hm : (m >>> 1).toNat = 2 ^ 52 := by
      rw [toNat_shiftRight, hround, hd]
      rfl
    have he : (UInt64.ofNat (i.sigBitCount - 1) + 1).toNat = i.sigBitCount := by
      rw [toNat_add, hexp, toNat_one]
      omega
    rw [if_pos hcarry]
    refine ⟨by rw [he]; exact hle, by rw [hm], by rw [hm]; decide, ?_⟩
    rw [hm, he, hd, hsplit]
    ring
  have hd : d < 2 ^ 53 := by
    rw [and_carry, hround] at hcarry
    omega
  rw [if_neg hcarry]
  refine ⟨by rw [hexp]; omega, by rw [hround]; exact hdlow, by rw [hround]; exact hd, ?_⟩
  rw [hround, hexp, hsplit']
  ring

/-- **`lexint_double` rounds correctly**: the bits of the result stand for what the number is
rounded to, with ties to even, and the leading bit of every word is found. -/
theorem double_exact : (∀ i : Lexint, ∃ v, NearestEven 53 i.val v ∧ Encodes i.double.toNat v) ∧
      ∀ w : UInt64, countLeadingZeros w ≤ 64 ∧
        (∀ k, 64 - countLeadingZeros w ≤ k → w.toNat.testBit k = false) ∧
        (countLeadingZeros w < 64 → w.toNat.testBit (63 - countLeadingZeros w) = true) := by
  refine ⟨fun i => ?_, fun w => ?_⟩
  · by_cases hi : i.val = 0
    · have hzero : i = zero := val_inj (by rw [hi]; rfl)
      refine ⟨0, ?_, ?_⟩
      · rw [hi]
        exact nearestEven_self ⟨0, 0, by decide, rfl⟩
      · rw [hzero]
        exact ⟨rfl, fun _ => rfl, fun h => absurd rfl h, fun h => absurd rfl h⟩
    obtain ⟨v, hnear, hv, he, hmlow, hmhigh, hvalue⟩ := exponentMantissa_spec hi
    refine ⟨v, hnear, ?_⟩
    have hnz : ¬ (i.low = 0 ∧ i.high = 0) := fun h => hi (by rw [val, h.1, h.2]; rfl)
    have hbits : i.double.toNat = (i.exponentMantissa.1.toNat + 1023) * 2 ^ 52 +
        (i.exponentMantissa.2.toNat - 2 ^ 52) := by
      rw [double, if_neg hnz]
      exact toNat_pack he hmlow hmhigh
    rw [hbits]
    refine encodes_of_fields (by omega) (by omega) hmlow hmhigh hv ?_
    rw [pow_add, ← mul_assoc, hvalue, mul_assoc, ← pow_add]
  by_cases hw : w = 0
  · subst hw
    exact ⟨by decide, fun k _ => Nat.zero_testBit k, fun h => absurd h (by decide)⟩
  obtain ⟨hle, hlow, hhigh⟩ := countLeadingZeros_bounds hw
  refine ⟨by omega, fun k hk => ?_, fun _ => ?_⟩
  · exact Nat.testBit_lt_two_pow (hhigh.trans_le (pow_le_pow_right (by decide) hk))
  · refine Nat.testBit_of_two_pow_le_and_two_pow_add_one_gt hlow ?_
    rwa [show 63 - countLeadingZeros w + 1 = 64 - countLeadingZeros w from by omega]

end SpacePony.Syntax.Lexint
