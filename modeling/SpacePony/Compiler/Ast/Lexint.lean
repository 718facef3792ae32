import Mathlib.Data.Nat.Notation

/-!
# Compiler — 128-bit literals

`ast/lexint.c`: the operations that the lexer uses to read numbers.
-/

namespace SpacePony.Syntax

/-- `lexint_t`. -/
structure Lexint where
  low : UInt64
  high : UInt64
  deriving DecidableEq

namespace Lexint

/-- `lexint_zero`. -/
def zero : Lexint := ⟨0, 0⟩

/-- `lexint_cmp`. -/
def cmp (a b : Lexint) : Ordering :=
  if b.high < a.high then .gt
  else if a.high < b.high then .lt
  else if b.low < a.low then .gt
  else if a.low < b.low then .lt
  else .eq

/-- `lexint_cmp64`. -/
def cmp64 (a : Lexint) (b : UInt64) : Ordering :=
  if 0 < a.high then .gt
  else if b < a.low then .gt
  else if a.low < b then .lt
  else .eq

/-- `lexint_shl`. -/
def shl (a : Lexint) (b : UInt64) : Lexint :=
  if 128 ≤ b then ⟨0, 0⟩
  else if 64 < b then ⟨0, a.low <<< (b - 64)⟩
  else if b = 64 then ⟨0, a.low⟩
  else if 0 < b then ⟨a.low <<< b, (a.high <<< b) + (a.low >>> (64 - b))⟩
  else a

/-- `lexint_shr`. -/
def shr (a : Lexint) (b : UInt64) : Lexint :=
  if 128 ≤ b then ⟨0, 0⟩
  else if 64 < b then ⟨a.high >>> (b - 64), 0⟩
  else if b = 64 then ⟨a.high, 0⟩
  else if 0 < b then ⟨(a.high <<< (64 - b)) + (a.low >>> b), a.high >>> b⟩
  else a

/-- `lexint_setbit`. -/
def setbit (a : Lexint) (b : UInt64) : Lexint :=
  if 64 ≤ b then { a with high := a.high ||| (1 <<< (b - 64)) }
  else { a with low := a.low ||| (1 <<< b) }

/-- `lexint_add`. -/
def add (a b : Lexint) : Lexint :=
  ⟨a.low + b.low, a.high + b.high + if a.low + b.low < a.low then 1 else 0⟩

/-- `lexint_add64`. -/
def add64 (a : Lexint) (b : UInt64) : Lexint :=
  ⟨a.low + b, a.high + if a.low + b < a.low then 1 else 0⟩

/-- `lexint_sub64`. -/
def sub64 (a : Lexint) (b : UInt64) : Lexint :=
  ⟨a.low - b, a.high - if a.low < a.low - b then 1 else 0⟩

/-- The loop of `lexint_mul64`; a 64-bit `b` is shifted out after 64 rounds. -/
def mulLoop : Nat → Lexint → Lexint → UInt64 → Lexint
  | 0, ret, _, _ => ret
  | n + 1, ret, t, b =>
    if 0 < b then
      mulLoop n (if b &&& 1 ≠ 0 then ret.add t else ret) (t.shl 1) (b >>> 1)
    else ret

/-- `lexint_mul64`. -/
def mul64 (a : Lexint) (b : UInt64) : Lexint := mulLoop 64 zero a b

/-- The loop of `lexint_div64`, bits `n - 1` down to `0`: remainder and quotient. -/
def divLoop (o : Lexint) (b : UInt64) : Nat → Lexint → Lexint → Lexint
  | 0, _, ret => ret
  | n + 1, r, ret =>
    let i := UInt64.ofNat n
    let r := r.shl 1
    let r := { r with low := r.low ||| ((o.shr i).low &&& 1) }
    if r.cmp64 b ≠ .lt then divLoop o b n (r.sub64 b) (ret.setbit i)
    else divLoop o b n r ret

/-- `lexint_div64`. -/
def div64 (a : Lexint) (b : UInt64) : Lexint :=
  if b = 0 then zero else if b = 1 then a else divLoop a b 128 zero zero

/-- `lexint_char`. -/
def char (i : Lexint) (c : UInt64) : Lexint :=
  ⟨(i.low <<< 8) ||| c, (i.high <<< 8) ||| (i.low >>> 56)⟩

/-- `lexint_accum`: `none` on overflow. -/
def accum (i : Lexint) (digit base : UInt64) : Option Lexint :=
  let v := i.mul64 base
  if (v.div64 base).cmp i ≠ .eq then none
  else
    let v := v.add64 digit
    if v.cmp i = .lt then none else some v

/-! ### To floating point -/

/-- A round of `count_leading_zeros`: the count, and the word shifted so far. -/
def clzStep (shift width : UInt64) (s : Nat × UInt64) : Nat × UInt64 :=
  if s.2 >>> shift = 0 then (s.1 + width.toNat, s.2 <<< width) else s

/-- `count_leading_zeros`. -/
def countLeadingZeros (n : UInt64) : Nat :=
  if n = 0 then 64
  else
    let s := clzStep 32 32 (0, n)
    let s := clzStep 48 16 s
    let s := clzStep 56 8 s
    let s := clzStep 60 4 s
    let s := clzStep 62 2 s
    let s := clzStep 63 1 s
    s.1

/-- `sig_bit_count` of `lexint_double`. -/
def sigBitCount (i : Lexint) : Nat :=
  if i.high = 0 then 64 - countLeadingZeros i.low else 128 - countLeadingZeros i.high

/-- The 55 bits that `lexint_double` rounds, where there are more than 53. -/
def guardedMantissa (i : Lexint) (count : Nat) : UInt64 :=
  if count = 54 then i.low <<< 1
  else if 55 < count then
    let t := i.shr (UInt64.ofNat (count - 55))
    let mantissa := t.low
    let t := t.shl (UInt64.ofNat (count - 55))
    if t.cmp i ≠ .eq then mantissa ||| 1 else mantissa
  else i.low

/-- The exponent and the mantissa of `lexint_double`. -/
def exponentMantissa (i : Lexint) : UInt64 × UInt64 :=
  let count := i.sigBitCount
  let exponent := UInt64.ofNat (count - 1)
  if count ≤ 53 then (exponent, i.low <<< UInt64.ofNat (53 - count))
  else
    let mantissa := i.guardedMantissa count
    -- to even
    let mantissa := if mantissa &&& 4 ≠ 0 then mantissa ||| 1 else mantissa
    let mantissa := (mantissa + 1) >>> 2
    if mantissa &&& ((1 : UInt64) <<< 53) ≠ 0 then (exponent + 1, mantissa >>> 1) else (exponent, mantissa)

/-- `lexint_double`, as the bits of the result. -/
def double (i : Lexint) : UInt64 :=
  if i.low = 0 ∧ i.high = 0 then 0
  else
    let r := i.exponentMantissa
    ((r.1 + 1023) <<< 52) ||| (r.2 &&& 0xFFFFFFFFFFFFF)

end Lexint

end SpacePony.Syntax
