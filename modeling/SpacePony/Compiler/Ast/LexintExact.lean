import Mathlib.Data.Nat.Bitwise
import Mathlib.Tactic
import SpacePony.Compiler.Ast.Lexint

/-!
# Compiler — 128-bit literals are exact

The two words of a `lexint_t` stand for one number (`val`), and the operations of `ast/lexint.c` are
those of the numbers modulo `2 ^ 128`.  Shift-and-add multiplication and shift-subtract division
each follow from an invariant of their loop (`val_mul64`, `val_div64`), and a digit is taken exactly
when there is no overflow (`accum_spec`).
-/

namespace SpacePony.Syntax.Lexint

open Nat
open UInt64 (toNat_inj lt_iff_toNat_lt toNat_zero toNat_add toNat_one toNat_sub toNat_shiftLeft
  toNat_shiftRight toNat_and toNat_or)

/-- The number that the two words stand for. -/
def val (a : Lexint) : Nat := a.high.toNat * 2 ^ 64 + a.low.toNat

section
variable {a b : Lexint} {c : UInt64} {n : Nat}

theorem val_lt (a : Lexint) : a.val < 2 ^ 128 := by
  have hh := a.high.toNat_lt
  have hl := a.low.toNat_lt
  rw [val]
  omega

@[simp] theorem val_zero : zero.val = 0 := rfl

theorem val_inj (h : a.val = b.val) : a = b := by
  have ha := a.low.toNat_lt
  have hb := b.low.toNat_lt
  rw [val, val] at h
  have hlow : a.low = b.low := toNat_inj.1 (by omega)
  have hhigh : a.high = b.high := toNat_inj.1 (by omega)
  cases a
  cases b
  exact Lexint.mk.injEq .. ▸ ⟨hlow, hhigh⟩

/-! ### Comparisons, sums and differences -/

theorem cmp_eq (a b : Lexint) : a.cmp b = compare a.val b.val := by
  have ha := a.low.toNat_lt
  have hb := b.low.toNat_lt
  simp only [cmp, val, compare_eq_ite_lt, lt_iff_toNat_lt]
  split_ifs <;> first | rfl | omega

theorem cmp64_eq (a : Lexint) (c : UInt64) : a.cmp64 c = compare a.val c.toNat := by
  have hc := c.toNat_lt
  simp only [cmp64, val, compare_eq_ite_lt, lt_iff_toNat_lt, toNat_zero]
  split_ifs <;> first | rfl | omega

theorem val_add (a b : Lexint) : (a.add b).val = (a.val + b.val) % 2 ^ 128 := by
  have ha := a.low.toNat_lt
  have hb := b.low.toNat_lt
  simp only [add, val, toNat_add, lt_iff_toNat_lt]
  split_ifs <;> simp only [toNat_one, toNat_zero] <;> omega

theorem val_add64 (a : Lexint) (c : UInt64) : (a.add64 c).val = (a.val + c.toNat) % 2 ^ 128 := by
  have ha := a.low.toNat_lt
  have hc := c.toNat_lt
  simp only [add64, val, toNat_add, lt_iff_toNat_lt]
  split_ifs <;> simp only [toNat_one, toNat_zero] <;> omega

theorem val_sub64 (h : c.toNat ≤ a.val) : (a.sub64 c).val = a.val - c.toNat := by
  have ha := a.low.toNat_lt
  have hc := c.toNat_lt
  have hah := a.high.toNat_lt
  rw [val] at h
  simp only [sub64, val, toNat_sub, lt_iff_toNat_lt]
  split_ifs <;> simp only [toNat_one, toNat_zero] <;> omega

/-! ### Shifts and bits -/

theorem val_shl_one (a : Lexint) : (a.shl 1).val = (2 * a.val) % 2 ^ 128 := by
  have e : a.shl 1 = ⟨a.low <<< 1, (a.high <<< 1) + (a.low >>> (64 - 1))⟩ := rfl
  rw [e]
  simp only [val, toNat_add, toNat_shiftLeft, toNat_shiftRight, shiftLeft_eq, shiftRight_eq_div_pow]
  have h1 : (1 : UInt64).toNat % 64 = 1 := rfl
  have h63 : (64 - 1 : UInt64).toNat % 64 = 63 := rfl
  rw [h1, h63]
  omega

theorem toNat_ofNat_of_lt (h : n < 128) : (UInt64.ofNat n).toNat = n := by
  rw [UInt64.toNat_ofNat', mod_eq_of_lt (by omega)]

/-- Two words shifted right together: the low bits of the high one move into the low one. -/
theorem shr_words {h l : Nat} (n m : Nat) (hnm : n + m = 64) (hl : l < 2 ^ 64) :
    h / 2 ^ n * 2 ^ 64 + ((h * 2 ^ m) % 2 ^ 64 + l / 2 ^ n) % 2 ^ 64
      = (h * 2 ^ 64 + l) / 2 ^ n := by
  have hword : 2 ^ 64 = 2 ^ n * 2 ^ m := by rw [← pow_add, hnm]
  have hpos : 0 < 2 ^ n := Nat.two_pow_pos n
  have hmoved : (h * 2 ^ m) % 2 ^ 64 = h % 2 ^ n * 2 ^ m := by rw [hword, mul_mod_mul_right]
  have hrest : l / 2 ^ n < 2 ^ m := by
    rw [div_lt_iff_lt_mul hpos, mul_comm, ← hword]
    exact hl
  have hfit : h % 2 ^ n * 2 ^ m + l / 2 ^ n < 2 ^ 64 := by
    have hmod : h % 2 ^ n + 1 ≤ 2 ^ n := mod_lt _ hpos
    calc h % 2 ^ n * 2 ^ m + l / 2 ^ n < (h % 2 ^ n + 1) * 2 ^ m := by
          rw [add_mul, one_mul]
          omega
      _ ≤ 2 ^ n * 2 ^ m := mul_le_mul_right _ hmod
      _ = 2 ^ 64 := hword.symm
  have hsplit := div_add_mod h (2 ^ n)
  rw [hmoved, mod_eq_of_lt hfit]
  calc h / 2 ^ n * 2 ^ 64 + (h % 2 ^ n * 2 ^ m + l / 2 ^ n)
      = (2 ^ n * (h / 2 ^ n) + h % 2 ^ n) * 2 ^ m + l / 2 ^ n := by
        rw [hword]
        ring
    _ = (l + h * 2 ^ m * 2 ^ n) / 2 ^ n := by rw [hsplit, add_mul_div_right _ _ hpos, add_comm]
    _ = (h * 2 ^ 64 + l) / 2 ^ n := by rw [hword, add_comm, mul_assoc, mul_comm (2 ^ m)]

/-- A comparison of an amount to shift by. -/
theorem amount_le (h : n < 128) : (128 ≤ UInt64.ofNat n) = (128 ≤ n) := by
  rw [UInt64.le_iff_toNat_le, toNat_ofNat_of_lt h]
  rfl

theorem amount_lt (h : n < 128) : (c < UInt64.ofNat n) = (c.toNat < n) := by
  rw [lt_iff_toNat_lt, toNat_ofNat_of_lt h]

theorem amount_eq (h : n < 128) : (UInt64.ofNat n = 64) = (n = 64) := by
  rw [← toNat_inj, toNat_ofNat_of_lt h]
  rfl

/-- Shifting right by less than the width divides. -/
theorem val_shr (a : Lexint) (h : n < 128) : (a.shr (UInt64.ofNat n)).val = a.val / 2 ^ n := by
  have hn := toNat_ofNat_of_lt h
  have ha := a.low.toNat_lt
  have hword : a.val / 2 ^ 64 = a.high.toNat := by
    rw [val]
    omega
  have h64 : (64 : UInt64).toNat = 64 := rfl
  have h0 : (0 : UInt64).toNat = 0 := rfl
  simp only [shr, amount_le h, amount_lt h, amount_eq h, h64, h0]
  rw [if_neg (Nat.not_le_of_lt h)]
  rcases Nat.lt_trichotomy n 64 with hlow | rfl | hhigh
  · rw [if_neg (by omega), if_neg (by omega)]
    rcases Nat.eq_zero_or_pos n with rfl | hpos
    · rw [if_neg (lt_irrefl 0), pow_zero, Nat.div_one]
    rw [if_pos hpos]
    have hup : (64 - UInt64.ofNat n).toNat % 64 = 64 - n := by
      rw [toNat_sub, hn, h64]
      omega
    have hdown : (UInt64.ofNat n).toNat % 64 = n := by rw [hn, Nat.mod_eq_of_lt hlow]
    simp only [val, toNat_add, toNat_shiftLeft, toNat_shiftRight, hup, hdown,
      Nat.shiftLeft_eq, Nat.shiftRight_eq_div_pow]
    exact shr_words n (64 - n) (by omega) ha
  · simp only [lt_irrefl, if_false, if_true]
    rw [hword, val]
    simp
  · rw [if_pos hhigh]
    have hamount : (UInt64.ofNat n - 64).toNat % 64 = n - 64 := by
      rw [toNat_sub, hn, h64]
      omega
    simp only [val, toNat_shiftRight, hamount, Nat.shiftRight_eq_div_pow, h0]
    rw [val] at hword
    have hsplit : 2 ^ n = 2 ^ 64 * 2 ^ (n - 64) := by
      rw [← Nat.pow_add, Nat.add_sub_cancel' hhigh.le]
    rw [hsplit, ← Nat.div_div_eq_div_mul, hword, Nat.zero_mul, Nat.zero_add]

/-- Masking the low word with 1 gives the last bit of the number. -/
theorem toNat_low_and_one (a : Lexint) : (a.low &&& 1).toNat = a.val % 2 := by
  rw [toNat_and, toNat_one, and_one_is_mod, val]
  omega

/-- A bit in the place of the last one of an even number. -/
theorem val_or_low (a : Lexint) (bit : UInt64) (ha : a.val % 2 = 0) (hb : bit.toNat < 2) :
    ({ a with low := a.low ||| bit } : Lexint).val = a.val + bit.toNat := by
  have heven : a.low.toNat % 2 = 0 := by
    rw [val] at ha
    omega
  have hor : a.low.toNat ||| bit.toNat = a.low.toNat + bit.toNat := by
    have := shiftLeft_add_eq_or_of_lt (i := 1) hb (a.low.toNat / 2)
    rw [shiftLeft_eq, pow_one, show a.low.toNat / 2 * 2 = a.low.toNat by omega] at this
    exact this.symm
  simp only [val, toNat_or, hor]
  omega

theorem or_two_pow {m i : Nat} (h : 2 ^ (i + 1) ∣ m) : m ||| 2 ^ i = m + 2 ^ i := by
  obtain ⟨k, rfl⟩ := h
  have hlt : 2 ^ i < 2 ^ (i + 1) := Nat.pow_lt_pow_right (by decide) (lt_succ_self i)
  have := shiftLeft_add_eq_or_of_lt hlt k
  rw [shiftLeft_eq, mul_comm] at this
  exact this.symm

/-- Setting the bit below all those that are set already. -/
theorem val_setbit (h : n < 128) (hq : 2 ^ (n + 1) ∣ a.val) :
    (a.setbit (UInt64.ofNat n)).val = a.val + 2 ^ n := by
  have hn := toNat_ofNat_of_lt h
  have h64 : (64 : UInt64).toNat = 64 := rfl
  have h1 : (1 : UInt64).toNat = 1 := rfl
  have hle : (64 ≤ UInt64.ofNat n) = (64 ≤ n) := by rw [UInt64.le_iff_toNat_le, hn, h64]
  rw [val] at hq
  simp only [setbit, hle]
  by_cases hhigh : 64 ≤ n
  · rw [if_pos hhigh]
    have hbit : (1 <<< (UInt64.ofNat n - 64) : UInt64).toNat = 2 ^ (n - 64) := by
      have hlt : 2 ^ (n - 64) < 2 ^ 64 := Nat.pow_lt_pow_right (by decide) (by omega)
      rw [toNat_shiftLeft, toNat_sub, hn, h64, h1,
        show (2 ^ 64 - 64 + n) % 2 ^ 64 % 64 = n - 64 by omega, Nat.shiftLeft_eq, one_mul,
        Nat.mod_eq_of_lt hlt]
    have hdvd : 2 ^ (n - 64 + 1) ∣ a.high.toNat := by
      have hsplit : 2 ^ (n + 1) = 2 ^ 64 * 2 ^ (n - 64 + 1) := by
        rw [← Nat.pow_add]
        congr 1
        omega
      have hword : (a.high.toNat * 2 ^ 64 + a.low.toNat) / 2 ^ 64 = a.high.toNat := by
        have ha := a.low.toNat_lt
        omega
      rw [hsplit] at hq
      rw [← hword]
      exact Nat.dvd_div_of_mul_dvd hq
    simp only [val, toNat_or, hbit, or_two_pow hdvd]
    rw [Nat.add_mul, ← Nat.pow_add, show n - 64 + 64 = n by omega]
    omega
  rw [if_neg hhigh]
  have hbit : (1 <<< UInt64.ofNat n : UInt64).toNat = 2 ^ n := by
    have hlt : 2 ^ n < 2 ^ 64 := Nat.pow_lt_pow_right (by decide) (by omega)
    rw [toNat_shiftLeft, hn, h1, Nat.mod_eq_of_lt (show n < 64 by omega),
      Nat.shiftLeft_eq, one_mul, Nat.mod_eq_of_lt hlt]
  have hdvd : 2 ^ (n + 1) ∣ a.low.toNat :=
    (Nat.dvd_add_right ((pow_dvd_pow 2 (by omega : n + 1 ≤ 64)).mul_left _)).1 hq
  simp only [val, toNat_or, hbit, or_two_pow hdvd]
  omega

/-! ### Multiplication and division -/

theorem mulLoop_spec (ret t : Lexint) (b : UInt64) (hb : b.toNat < 2 ^ n) :
    (mulLoop n ret t b).val = (ret.val + t.val * b.toNat) % 2 ^ 128 := by
  induction n generalizing ret t b with
  | zero =>
    have hz : b.toNat = 0 := by omega
    rw [mulLoop, hz, mul_zero, add_zero, mod_eq_of_lt ret.val_lt]
  | succ n ih =>
    rw [mulLoop]
    by_cases hpos : 0 < b
    · rw [if_pos hpos]
      have hhalf : (b >>> 1).toNat = b.toNat / 2 := by
        rw [toNat_shiftRight, shiftRight_eq_div_pow]
        rfl
      have hodd : (b &&& 1).toNat = b.toNat % 2 := by rw [toNat_and, toNat_one, and_one_is_mod]
      have hret : (if b &&& 1 ≠ 0 then ret.add t else ret).val
          = (ret.val + t.val * (b.toNat % 2)) % 2 ^ 128 := by
        rw [← hodd]
        have hne : (b &&& 1 ≠ 0) = ((b &&& 1).toNat ≠ 0) := by
          rw [ne_eq, ne_eq, ← toNat_inj, toNat_zero]
        simp only [hne]
        rcases mod_two_eq_zero_or_one b.toNat with h | h
        · rw [hodd, h, if_neg (by decide), mul_zero, add_zero, mod_eq_of_lt ret.val_lt]
        · rw [hodd, h, if_pos (by decide), mul_one, val_add]
      rw [ih _ _ _ (by rw [hhalf]; omega), hret, val_shl_one, hhalf]
      have hsplit : t.val * b.toNat = t.val * (b.toNat % 2) + 2 * t.val * (b.toNat / 2) := by
        have := mod_add_div b.toNat 2
        calc t.val * b.toNat = t.val * (b.toNat % 2 + 2 * (b.toNat / 2)) := by rw [this]
          _ = t.val * (b.toNat % 2) + 2 * t.val * (b.toNat / 2) := by ring
      rw [hsplit, ← add_assoc, add_mod, mod_mod, mod_mul_mod, ← add_mod]
    have hz : b.toNat = 0 := by
      rw [lt_iff_toNat_lt, toNat_zero] at hpos
      omega
    rw [if_neg hpos, hz, mul_zero, add_zero, mod_eq_of_lt ret.val_lt]

/-- **Shift-and-add multiplication is multiplication** modulo `2 ^ 128`. -/
theorem val_mul64 (a : Lexint) (b : UInt64) : (a.mul64 b).val = (a.val * b.toNat) % 2 ^ 128 := by
  rw [mul64, mulLoop_spec zero a b b.toNat_lt, val_zero, zero_add]

/-- The loop has divided the bits from `n` on: `r` is the remainder, `ret` the quotient in place. -/
theorem divLoop_spec {o r ret : Lexint} {b : UInt64} (hb : 0 < b.toNat) (hn : n ≤ 128)
    (hr : r.val = o.val / 2 ^ n % b.toNat) (hret : ret.val = o.val / 2 ^ n / b.toNat * 2 ^ n) :
    (divLoop o b n r ret).val = o.val / b.toNat := by
  induction n generalizing r ret with
  | zero => simpa [divLoop] using hret
  | succ n ih =>
    obtain ⟨m, hm⟩ : ∃ m, m = o.val / 2 ^ n := ⟨_, rfl⟩
    have hhalf : o.val / 2 ^ (n + 1) = m / 2 := by rw [hm, Nat.div_div_eq_div_mul, pow_succ]
    rw [hhalf] at hr hret
    have hrlt : r.val < b.toNat := hr ▸ mod_lt _ hb
    have hbit := toNat_low_and_one (o.shr (UInt64.ofNat n))
    rw [val_shr o (by omega), ← hm] at hbit
    have hshl : (r.shl 1).val = 2 * r.val := by
      have := b.toNat_lt
      rw [val_shl_one, mod_eq_of_lt (by omega)]
    have hnext := val_or_low (r.shl 1) ((o.shr (UInt64.ofNat n)).low &&& 1)
      (by rw [hshl]; omega) (by rw [hbit]; omega)
    rw [hshl, hbit] at hnext
    have hdvd : 2 ^ (n + 1) ∣ ret.val := hret ▸ dvd_mul_left _ _
    obtain ⟨x, hx⟩ : ∃ x : Lexint,
        x = { r.shl 1 with low := (r.shl 1).low ||| ((o.shr (UInt64.ofNat n)).low &&& 1) } :=
      ⟨_, rfl⟩
    rw [← hx] at hnext
    -- the prefix of one more bit, by the quotient and the remainder of the prefix before it
    have hpre : m = b.toNat * (2 * (m / 2 / b.toNat)) + x.val := by
      have := div_add_mod (m / 2) b.toNat
      rw [← hr] at this
      rw [hnext, mul_left_comm]
      omega
    have hpow : 2 ^ (n + 1) = 2 * 2 ^ n := pow_succ' 2 n
    have hcmp : (x.cmp64 b ≠ .lt) ↔ ¬ x.val < b.toNat := by rw [cmp64_eq, ne_eq, Nat.compare_eq_lt]
    simp only [divLoop, ← hx]
    by_cases hge : x.val < b.toNat
    · rw [if_neg fun h => hcmp.1 h hge]
      have hq : m / b.toNat = 2 * (m / 2 / b.toNat) := by
        rw [hpre, mul_add_div hb, div_eq_of_lt hge, add_zero, ← hpre]
      have hrem : m % b.toNat = x.val := by rw [hpre, mul_add_mod, mod_eq_of_lt hge]
      refine ih (by omega) (by rw [← hm, hrem]) ?_
      rw [← hm, hq, hret, hpow]
      ring
    rw [if_pos (hcmp.2 hge)]
    have hle := Nat.le_of_not_lt hge
    have hlt : x.val - b.toNat < b.toNat := by omega
    have hsum : b.toNat * (2 * (m / 2 / b.toNat)) + x.val
        = b.toNat * (2 * (m / 2 / b.toNat) + 1) + (x.val - b.toNat) := by
      rw [mul_add, mul_one]
      omega
    have hq : m / b.toNat = 2 * (m / 2 / b.toNat) + 1 := by
      rw [hpre, hsum, mul_add_div hb, div_eq_of_lt hlt, add_zero, ← hsum, ← hpre]
    have hrem : m % b.toNat = x.val - b.toNat := by rw [hpre, hsum, mul_add_mod, mod_eq_of_lt hlt]
    refine ih (by omega) (by rw [val_sub64 hle, ← hm, hrem]) ?_
    rw [val_setbit (by omega) hdvd, ← hm, hq, hret, hpow]
    ring

/-- **Shift-subtract division is division.** -/
theorem val_div64 (a : Lexint) {b : UInt64} (hb : 0 < b.toNat) :
    (a.div64 b).val = a.val / b.toNat := by
  rw [div64, if_neg (by rintro rfl; exact absurd hb (lt_irrefl 0))]
  split
  case isTrue h => rw [h, toNat_one, Nat.div_one]
  case isFalse h =>
    have hz : a.val / 2 ^ 128 = 0 := Nat.div_eq_of_lt a.val_lt
    refine divLoop_spec hb le_rfl ?_ ?_
    · rw [hz, val_zero, Nat.zero_mod]
    · rw [hz, val_zero, Nat.zero_div, Nat.zero_mul]

/-- **A digit is taken exactly when there is no overflow**: multiplying modulo `2 ^ 128` and
dividing back finds every overflow of the product, and the comparison every overflow of the sum. -/
theorem accum_spec (i : Lexint) {digit base : UInt64} (h : digit < base) :
    (i.accum digit base).map val
      = if i.val * base.toNat + digit.toNat < 2 ^ 128 then some (i.val * base.toNat + digit.toNat)
        else none := by
  have hd : digit.toNat < base.toNat := lt_iff_toNat_lt.1 h
  have hbase := base.toNat_lt
  have hpos : 0 < base.toNat := by omega
  obtain ⟨m, hm⟩ : ∃ m, m = i.val * base.toNat := ⟨_, rfl⟩
  have hv : (i.mul64 base).val = m % 2 ^ 128 := by rw [val_mul64, hm]
  have hcmp : ((i.mul64 base).div64 base).cmp i ≠ .eq ↔ m % 2 ^ 128 / base.toNat ≠ i.val := by
    rw [cmp_eq, val_div64 _ hpos, hv, ne_eq, Nat.compare_eq_eq]
  rw [accum, ← hm]
  rcases Nat.lt_or_ge m (2 ^ 128) with hlt | hge
  · have hback : m % 2 ^ 128 / base.toNat = i.val := by
      rw [Nat.mod_eq_of_lt hlt, hm, Nat.mul_div_cancel _ hpos]
    rw [if_neg fun hne => hcmp.1 hne hback]
    have hsum : ((i.mul64 base).add64 digit).val = (m + digit.toNat) % 2 ^ 128 := by
      rw [val_add64, hv, Nat.mod_eq_of_lt hlt]
    have hless : ((i.mul64 base).add64 digit).cmp i = .lt ↔ (m + digit.toNat) % 2 ^ 128 < i.val := by
      rw [cmp_eq, hsum, Nat.compare_eq_lt]
    by_cases hfit : m + digit.toNat < 2 ^ 128
    · have hle : i.val ≤ m := hm ▸ Nat.le_mul_of_pos_right _ hpos
      rw [if_pos hfit, if_neg fun hc => by
        have := hless.1 hc
        rw [Nat.mod_eq_of_lt hfit] at this
        omega]
      rw [Option.map_some, hsum, Nat.mod_eq_of_lt hfit]
    -- what is left after the overflow is less than a word, and `i` is not
    have hbig : 2 ^ 64 ≤ i.val := by
      by_contra hsmall
      have : m + digit.toNat < 2 ^ 64 * 2 ^ 64 := calc
        m + digit.toNat < (i.val + 1) * base.toNat := by
          rw [Nat.add_mul, one_mul, ← hm]
          omega
        _ ≤ 2 ^ 64 * 2 ^ 64 := Nat.mul_le_mul (by omega) hbase.le
      omega
    rw [if_neg hfit, if_pos (hless.2 (by omega))]
    rfl
  have hne : m % 2 ^ 128 / base.toNat ≠ i.val := by
    intro he
    have := Nat.div_mul_le_self (m % 2 ^ 128) base.toNat
    rw [he, ← hm] at this
    omega
  rw [if_pos (hcmp.2 hne), if_neg (by omega)]
  rfl

end

end SpacePony.Syntax.Lexint
