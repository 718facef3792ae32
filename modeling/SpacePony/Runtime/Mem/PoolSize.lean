import Mathlib.Tactic.Ring

/-!
# Runtime — memory — pool sizes

The constants of `mem/pool.h` on a 64-bit platform with the default pool, and the sizes the pool
gives to requests (`mem/pool.c`).

* `ponyintPoolIndex`, `ponyintPoolUsedSize`, `ponyintPoolAdjustSize`.
* `poolIndex_spec`, `adjustSize_spec`: a request fits in the size it is given.
-/

namespace SpacePony.Mem

open Nat

/-- A pointer; `0` is `NULL`. -/
abbrev Ptr := Nat

def NULL : Ptr := 0

def poolMinBits : Nat := 5
def poolMaxBits : Nat := 20
def poolAlignBits : Nat := 10

def poolMin : Nat := 1 <<< poolMinBits
def poolMax : Nat := 1 <<< poolMaxBits
def poolAlign : Nat := 1 <<< poolAlignBits
def poolCount : Nat := poolMaxBits - poolMinBits + 1
def poolAlignIndex : Nat := poolAlignBits - poolMinBits
def poolAlignMask : Nat := poolAlign - 1

/-- `POOL_SIZE(INDEX)`. -/
def poolSize (index : Nat) : Nat := 1 <<< (poolMinBits + index)

/-- `sizeof(void*)`. -/
def ptrSize : Nat := 8

/-- `__pony_clzzu`. -/
def clz (size : Nat) : Nat := 63 - size.log2

def ponyintPoolIndex (size : Nat) : Nat :=
  if size > poolMin then
    64 - poolMinBits - clz size - (if size &&& (size - 1) = 0 then 1 else 0)
  else
    0

def ponyintPoolAdjustSize (size : Nat) : Nat :=
  let size := if size &&& poolAlignMask ≠ 0 then
      ((size &&& (2 ^ 64 - 1 - poolAlignMask)) + poolAlign) % 2 ^ 64
    else size
  -- where the rounding has overflowed
  if size = 0 then 2 ^ 64 - 1 else size

def ponyintPoolUsedSize (size : Nat) : Nat :=
  if ponyintPoolIndex size < poolCount then poolSize (ponyintPoolIndex size)
  else ponyintPoolAdjustSize size

variable {size index : Nat}

theorem usedSize_of_lt (h : ponyintPoolIndex size < poolCount) :
    ponyintPoolUsedSize size = poolSize (ponyintPoolIndex size) := if_pos h

theorem usedSize_of_ge (h : ¬ ponyintPoolIndex size < poolCount) :
    ponyintPoolUsedSize size = ponyintPoolAdjustSize size := if_neg h

theorem poolSize_eq : poolSize index = 2 ^ (5 + index) := one_shiftLeft _

theorem poolSize_pos : 0 < poolSize index := by
  rw [poolSize_eq]
  exact Nat.two_pow_pos _

/-- Where the index of a size is a class, the size fits in it; the others are above the largest. -/
theorem poolIndex_spec (h : size < 2 ^ 64) :
    (ponyintPoolIndex size < poolCount → size ≤ poolSize (ponyintPoolIndex size)) ∧
      (poolCount ≤ ponyintPoolIndex size → poolMax < size) := by
  rw [ponyintPoolIndex]
  by_cases hmin : size > poolMin
  · have hmin' : 32 < size := hmin
    have h0 : size ≠ 0 := by omega
    have hlog : 2 ^ size.log2 ≤ size := Nat.log2_self_le h0
    have hlog' : size < 2 ^ (size.log2 + 1) := Nat.lt_log2_self
    have hge : 5 ≤ size.log2 := (Nat.le_log2 h0).2 (by omega)
    have hlt : size.log2 < 64 := (Nat.log2_lt h0).2 h
    have hcount : poolCount = 16 := rfl
    have hbits : poolMinBits = 5 := rfl
    rw [if_pos hmin, clz, poolSize_eq, hcount, hbits]
    by_cases hpow : size &&& (size - 1) = 0
    · obtain ⟨k, hk⟩ := (Nat.and_sub_one_eq_zero_iff_isPowerOfTwo h0).1 hpow
      have hlogk : size.log2 = k := by rw [hk, Nat.log2_two_pow]
      rw [if_pos hpow, hlogk]
      rw [hlogk] at hge hlt
      refine ⟨fun _ => ?_, fun hc => ?_⟩
      · rw [show 5 + (64 - 5 - (63 - k) - 1) = k by omega, hk]
      have hle : 2 ^ 21 ≤ 2 ^ k := Nat.pow_le_pow_right (by decide) (by omega)
      have hmax : poolMax = 2 ^ 20 := rfl
      omega
    rw [if_neg hpow]
    refine ⟨fun _ => ?_, fun hc => ?_⟩
    · rw [show 5 + (64 - 5 - (63 - size.log2) - 0) = size.log2 + 1 by omega]
      exact hlog'.le
    have hle : 2 ^ 20 ≤ 2 ^ size.log2 := Nat.pow_le_pow_right (by decide) (by omega)
    have hmax : poolMax = 2 ^ 20 := rfl
    have hne : size ≠ 2 ^ 20 := fun e => hpow (by rw [e]; decide)
    omega
  · rw [if_neg hmin]
    refine ⟨fun _ => ?_, fun hc => absurd hc (by decide)⟩
    exact Nat.le_of_not_lt hmin

/-- The sizes with a class. -/
theorem poolIndex_lt_iff (h : size < 2 ^ 64) : ponyintPoolIndex size < poolCount ↔ size ≤ poolMax := by
  obtain ⟨hsmall, hlarge⟩ := poolIndex_spec h
  refine ⟨fun hc => (hsmall hc).trans ?_, fun hle => Nat.lt_of_not_le fun hc =>
    absurd (hlarge hc) (Nat.not_lt.2 hle)⟩
  have hcount : poolCount = 16 := rfl
  rw [poolSize_eq, show poolMax = 2 ^ 20 from rfl]
  exact Nat.pow_le_pow_right (by decide) (by omega)

theorem and_alignMask (size : Nat) : size &&& poolAlignMask = size % 1024 :=
  and_two_pow_sub_one_eq_mod size 10

theorem and_not_alignMask (h : size < 2 ^ 64) :
    size &&& (2 ^ 64 - 1 - poolAlignMask) = size / 1024 * 1024 := by
  have hmask : 2 ^ 64 - 1 - poolAlignMask = (2 ^ 54 - 1) <<< 10 := by decide
  have hshift : size / 1024 * 1024 = (size >>> 10) <<< 10 := by
    rw [shiftLeft_eq, shiftRight_eq_div_pow]
  rw [hmask, hshift]
  refine eq_of_testBit_eq fun i => ?_
  rw [testBit_and, testBit_shiftLeft, testBit_shiftLeft, testBit_shiftRight,
    testBit_two_pow_sub_one]
  by_cases hi : 10 ≤ i
  · rw [Nat.add_sub_cancel' hi]
    by_cases hi' : i < 64
    · simp [hi, show i - 10 < 54 by omega]
    have hzero : size.testBit i = false :=
      testBit_lt_two_pow (lt_of_lt_of_le h (Nat.pow_le_pow_right (by decide) (by omega)))
    simp [hzero]
  · simp [hi]

/-- A size below the last page is rounded up to pages. -/
theorem adjustSize_spec (hpos : 0 < size) (h : size ≤ 2 ^ 64 - 1024) :
    size ≤ ponyintPoolAdjustSize size ∧ ponyintPoolAdjustSize size % poolAlign = 0 ∧
      ponyintPoolAdjustSize size ≤ 2 ^ 64 - 1024 ∧ ponyintPoolAdjustSize size < size + 1024 := by
  rw [ponyintPoolAdjustSize, and_alignMask, and_not_alignMask (by omega),
    show poolAlign = 1024 from rfl]
  by_cases hmod : size % 1024 = 0
  · rw [if_neg (not_not.2 hmod), if_neg (by omega)]
    omega
  · rw [if_pos hmod, mod_eq_of_lt (by omega), if_neg (by omega)]
    omega

/-- A size on the last page becomes the largest number, which is no size of a block. -/
theorem adjustSize_overflow (h : 2 ^ 64 - 1024 < size) (h' : size < 2 ^ 64) :
    ponyintPoolAdjustSize size = 2 ^ 64 - 1 := by
  rw [ponyintPoolAdjustSize, and_alignMask, and_not_alignMask h', show poolAlign = 1024 from rfl]
  have hmod : size % 1024 ≠ 0 := by omega
  have hwrap : (size / 1024 * 1024 + 1024) % 2 ^ 64 = 0 := by omega
  rw [if_pos hmod, hwrap, if_pos rfl]

/-- Where the index is past the classes, the size is given whole pages. -/
theorem usedSize_le (h : size ≤ 2 ^ 64 - 1024) : size ≤ ponyintPoolUsedSize size := by
  obtain ⟨hsmall, hlarge⟩ := poolIndex_spec (by omega : size < 2 ^ 64)
  rw [ponyintPoolUsedSize]
  split
  · next hc => exact hsmall hc
  next hc =>
    exact (adjustSize_spec (by omega) h).1

end SpacePony.Mem
