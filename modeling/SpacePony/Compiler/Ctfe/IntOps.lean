import Mathlib.Algebra.Order.Ring.Int
import Mathlib.RingTheory.Coprime.Lemmas
import Mathlib.Tactic.Linarith
import Mathlib.Tactic.NormNum
import Mathlib.Tactic.Positivity
import Mathlib.Tactic.Ring
import SpacePony.Compiler.Ctfe.Constant

/-!
# Compiler — integer methods at compile time and at run time

`CtfeValueInt<T>` computes the methods of the integer types in C++, on the machine integers of the
compiler; `gen_add` to `gen_shr` emit LLVM instructions for the same methods.

* `IntKind.add` … `IntKind.castTo`: the C++ expressions, with the promotions of C++17.  An
  expression with no defined value is `none`.
* `genAdd` … `numberConversion`: the instructions emitted for operands that are not constant.
* `Call.ctfe_agrees_iff`: the two results agree exactly for the calls that are `Safe`.

The compiler is built in the GNU dialect, where `std::is_signed` holds of `__int128`.
-/

namespace SpacePony.Ctfe

open Int Option
open BitVec (toInt_ofInt ofInt_add ofInt_neg ofInt_mul toNat_ofNat ofInt_toInt toInt_inj
  setWidth_eq)

/-! ### The integer types -/

/-- `target_is_ilp32`, `target_is_lp64` or `target_is_llp64`. -/
inductive DataModel where
  | ilp32 | lp64 | llp64
  deriving DecidableEq

/-- `m_long_size`, in bytes. -/
def DataModel.longSize : DataModel → Nat
  | .ilp32 => 4
  | .lp64 => 8
  | .llp64 => 4

/-- `m_size_size`, in bytes. -/
def DataModel.sizeSize : DataModel → Nat
  | .ilp32 => 4
  | .lp64 => 8
  | .llp64 => 8

/-- The types of `is_integer`. -/
inductive IntType where
  | i8 | u8 | i16 | u16 | i32 | u32 | i64 | u64 | i128 | u128 | iLong | uLong | iSize | uSize
  deriving DecidableEq

/-- The instance of `CtfeValueInt` for a type, and the integer type of code generation. -/
def IntType.kind (m : DataModel) : IntType → IntKind
  | .i8 => ⟨8, true⟩
  | .u8 => ⟨8, false⟩
  | .i16 => ⟨16, true⟩
  | .u16 => ⟨16, false⟩
  | .i32 => ⟨32, true⟩
  | .u32 => ⟨32, false⟩
  | .i64 => ⟨64, true⟩
  | .u64 => ⟨64, false⟩
  | .i128 => ⟨128, true⟩
  | .u128 => ⟨128, false⟩
  | .iLong => ⟨8 * m.longSize, true⟩
  | .uLong => ⟨8 * m.longSize, false⟩
  | .iSize => ⟨8 * m.sizeSize, true⟩
  | .uSize => ⟨8 * m.sizeSize, false⟩

/-- Every width is positive, and far below the range of `uint64_t`. -/
theorem IntType.width_bounds (m : DataModel) (t : IntType) :
    0 < (t.kind m).width ∧ (t.kind m).width ≤ 128 := by
  cases t <;> cases m <;> decide

namespace IntKind

/-- The value of `m_val`. -/
def val (k : IntKind) (x : BitVec k.width) : Int := if k.signed then x.toInt else x.toNat

/-- `std::numeric_limits<T>::min()`. -/
def minValue (k : IntKind) : Int := if k.signed then -2 ^ (k.width - 1) else 0

/-- The number after `std::numeric_limits<T>::max()`. -/
def bound (k : IntKind) : Int := if k.signed then 2 ^ (k.width - 1) else 2 ^ k.width

/-- The type represents the number. -/
def Fits (k : IntKind) (v : Int) : Prop := k.minValue ≤ v ∧ v < k.bound

instance (k : IntKind) : DecidablePred k.Fits := fun _ => inferInstanceAs (Decidable (_ ∧ _))

/-- The integral promotions: a type narrower than `int` becomes `int`. -/
def promote (k : IntKind) : IntKind := if k.width < 32 then ⟨32, true⟩ else k

/-- An arithmetic expression of a promoted type whose exact value is `v`: unsigned arithmetic
wraps, and signed arithmetic that overflows has no defined value. -/
def arith (p : IntKind) (v : Int) : Option Int :=
  if p.signed then if p.Fits v then some v else none else some (v % 2 ^ p.width)

/-! ### The expressions of `CtfeValueInt` -/

def add (k : IntKind) (a b : BitVec k.width) : Option (BitVec k.width) :=
  (k.promote.arith (k.val a + k.val b)).map (BitVec.ofInt k.width)

def sub (k : IntKind) (a b : BitVec k.width) : Option (BitVec k.width) :=
  (k.promote.arith (k.val a - k.val b)).map (BitVec.ofInt k.width)

def mul (k : IntKind) (a b : BitVec k.width) : Option (BitVec k.width) :=
  (k.promote.arith (k.val a * k.val b)).map (BitVec.ofInt k.width)

def negate (k : IntKind) (a : BitVec k.width) : Option (BitVec k.width) :=
  (k.promote.arith (-k.val a)).map (BitVec.ofInt k.width)

/-- `m_val / b.m_val` -/
def div (k : IntKind) (a b : BitVec k.width) : Option (BitVec k.width) :=
  if k.val b = 0 then none
  else (k.promote.arith ((k.val a).tdiv (k.val b))).map (BitVec.ofInt k.width)

/-- `m_val % b.m_val`, which has a value only where the quotient has one. -/
def rem (k : IntKind) (a b : BitVec k.width) : Option (BitVec k.width) :=
  if k.val b = 0 ∨ k.promote.arith ((k.val a).tdiv (k.val b)) = none then none
  else some (BitVec.ofInt k.width ((k.val a).tmod (k.val b)))

/-- The bits of an operand after promotion. -/
def promoted (k : IntKind) (a : BitVec k.width) : BitVec k.promote.width :=
  BitVec.ofInt k.promote.width (k.val a)

/-- The conversion of a promoted result to `T`. -/
def demoted (k : IntKind) (x : BitVec k.promote.width) : BitVec k.width :=
  BitVec.ofInt k.width (k.promote.val x)

def opAnd (k : IntKind) (a b : BitVec k.width) : BitVec k.width :=
  k.demoted (k.promoted a &&& k.promoted b)

def opOr (k : IntKind) (a b : BitVec k.width) : BitVec k.width :=
  k.demoted (k.promoted a ||| k.promoted b)

def opXor (k : IntKind) (a b : BitVec k.width) : BitVec k.width :=
  k.demoted (k.promoted a ^^^ k.promoted b)

def opNot (k : IntKind) (a : BitVec k.width) : BitVec k.width := k.demoted (~~~k.promoted a)

/-- `m_val << b`: no value for an amount that is not below the promoted width, nor for a signed
operand that is negative or whose product does not fit the unsigned type of that width. -/
def shl (k : IntKind) (a : BitVec k.width) (b : Nat) : Option (BitVec k.width) :=
  if k.promote.width ≤ b then none
  else if k.promote.signed ∧ ¬(0 ≤ k.val a ∧ k.val a * 2 ^ b < 2 ^ k.promote.width) then none
  else some (k.demoted (BitVec.ofInt k.promote.width (k.val a * 2 ^ b)))

/-- `m_val >> b`, arithmetic for a signed operand. -/
def shr (k : IntKind) (a : BitVec k.width) (b : Nat) : Option (BitVec k.width) :=
  if k.promote.width ≤ b then none else some (BitVec.ofInt k.width (k.val a / 2 ^ b))

/-- `to_uint64` of an operand of an unsigned type. -/
def toUint64 (k : IntKind) (y : BitVec k.width) : Nat := y.toNat % 2 ^ 64

/-- `shift_op`: the amount of a signed receiver is of the unsigned type of the same width. -/
def shiftOp (k : IntKind) (f : BitVec k.width → Nat → Option (BitVec k.width))
    (a y : BitVec k.width) : Option (BitVec k.width) := f a (k.toUint64 y)

/-- `divrem_op` -/
def divremOp (k : IntKind) (f : BitVec k.width → BitVec k.width → Option (BitVec k.width))
    (a b : BitVec k.width) : Option (BitVec k.width) :=
  if k.val b = 0 then some 0
  else if k.signed ∧ k.val a = k.minValue ∧ k.val b = -1 then some 0
  else f a b

def castTo (k l : IntKind) (a : BitVec k.width) : BitVec l.width := BitVec.ofInt l.width (k.val a)

/-! ### The instructions of `genoperator.c` -/

variable (k : IntKind)

def genAdd (a b : BitVec k.width) : BitVec k.width := a + b

def genSub (a b : BitVec k.width) : BitVec k.width := a - b

def genMul (a b : BitVec k.width) : BitVec k.width := a * b

def genNeg (a : BitVec k.width) : BitVec k.width := -a

def genAnd (a b : BitVec k.width) : BitVec k.width := a &&& b

def genOr (a b : BitVec k.width) : BitVec k.width := a ||| b

def genXor (a b : BitVec k.width) : BitVec k.width := a ^^^ b

def genNot (a : BitVec k.width) : BitVec k.width := ~~~a

/-- `make_divrem` where it is safe: the blocks `div_nonzero`, `div_no_overflow` and `div_post`. -/
def makeDivrem (buildUi buildSi : BitVec k.width → BitVec k.width → BitVec k.width)
    (a b : BitVec k.width) : BitVec k.width :=
  if b = 0 then 0
  else if k.signed then
    if a ≠ BitVec.allOnes k.width <<< (k.width - 1) ∨ b ≠ BitVec.allOnes k.width then buildSi a b
    else 0
  else buildUi a b

def genDiv (a b : BitVec k.width) : BitVec k.width := makeDivrem k BitVec.udiv BitVec.sdiv a b

def genRem (a b : BitVec k.width) : BitVec k.width := makeDivrem k BitVec.umod BitVec.srem a b

/-- The operand of the shift: the amount, or the last bit's where it is greater. -/
def clamped (y : BitVec k.width) : BitVec k.width :=
  if y.ule (BitVec.ofNat k.width (k.width - 1)) then y else BitVec.ofNat k.width (k.width - 1)

def genShl (a y : BitVec k.width) : BitVec k.width := a <<< clamped k y

def genShr (a y : BitVec k.width) : BitVec k.width :=
  if k.signed then a.sshiftRight' (clamped k y) else a >>> clamped k y

/-- `make_cmp` with the predicates of a signed and of an unsigned comparison. -/
def makeCmp (cmpSi cmpUi : BitVec k.width → BitVec k.width → Bool) (a b : BitVec k.width) : Bool :=
  if k.signed then cmpSi a b else cmpUi a b

def genEq : BitVec k.width → BitVec k.width → Bool := makeCmp k (· == ·) (· == ·)

def genNe : BitVec k.width → BitVec k.width → Bool := makeCmp k (· != ·) (· != ·)

def genLt : BitVec k.width → BitVec k.width → Bool := makeCmp k BitVec.slt BitVec.ult

def genLe : BitVec k.width → BitVec k.width → Bool := makeCmp k BitVec.sle BitVec.ule

def genGe : BitVec k.width → BitVec k.width → Bool :=
  makeCmp k (fun a b => b.sle a) (fun a b => b.ule a)

def genGt : BitVec k.width → BitVec k.width → Bool :=
  makeCmp k (fun a b => b.slt a) (fun a b => b.ult a)

/-- `number_conversion` and `unsafe_number_conversion` between integers. -/
def numberConversion (l : IntKind) (a : BitVec k.width) : BitVec l.width :=
  if l.width < k.width then a.truncate l.width
  else if k.width < l.width then
    if k.signed then a.signExtend l.width else a.zeroExtend l.width
  else a.setWidth l.width

end IntKind

/-! ### Calls -/

/-- The methods of `bin_op`. -/
inductive BinOp where
  | add | sub | mul | opAnd | opOr | opXor
  deriving DecidableEq

/-- The methods of `unary_op`. -/
inductive UnaryOp where
  | neg | opNot
  deriving DecidableEq

/-- The methods of `divrem_op`. -/
inductive DivremOp where
  | div | rem
  deriving DecidableEq

/-- The methods of `shift_op`. -/
inductive ShiftOp where
  | shl | shr
  deriving DecidableEq

/-- The methods of `cmp_op`. -/
inductive CmpOp where
  | eq | ne | lt | le | gt | ge
  deriving DecidableEq

/-- A call of a method of an integer type, with the receiver and the argument.  The amount of a
shift is of the unsigned type of the receiver's width, as the builtin traits declare it. -/
inductive Call (m : DataModel) where
  | bin (t : IntType) (op : BinOp) (a b : BitVec (t.kind m).width)
  | unary (t : IntType) (op : UnaryOp) (a : BitVec (t.kind m).width)
  | divrem (t : IntType) (op : DivremOp) (a b : BitVec (t.kind m).width)
  | shift (t : IntType) (op : ShiftOp) (a y : BitVec (t.kind m).width)
  | cmp (t : IntType) (op : CmpOp) (a b : BitVec (t.kind m).width)
  | cast (t u : IntType) (a : BitVec (t.kind m).width)

/-- What a call gives. -/
inductive Result where
  | bool (b : Bool)
  | int (k : IntKind) (n : BitVec k.width)
  deriving DecidableEq

variable {m : DataModel}

/-- `CtfeValueInt::run_method`, where `none` is an expression without a defined value. -/
def Call.runMethod : Call m → Option Result
  | .bin t op a b => match op with
    | .add => ((t.kind m).add a b).map (.int _)
    | .sub => ((t.kind m).sub a b).map (.int _)
    | .mul => ((t.kind m).mul a b).map (.int _)
    | .opAnd => some (.int _ ((t.kind m).opAnd a b))
    | .opOr => some (.int _ ((t.kind m).opOr a b))
    | .opXor => some (.int _ ((t.kind m).opXor a b))
  | .unary t op a => match op with
    | .neg => ((t.kind m).negate a).map (.int _)
    | .opNot => some (.int _ ((t.kind m).opNot a))
  | .divrem t op a b => match op with
    | .div => ((t.kind m).divremOp (t.kind m).div a b).map (.int _)
    | .rem => ((t.kind m).divremOp (t.kind m).rem a b).map (.int _)
  | .shift t op a y => match op with
    | .shl => ((t.kind m).shiftOp (t.kind m).shl a y).map (.int _)
    | .shr => ((t.kind m).shiftOp (t.kind m).shr a y).map (.int _)
  | .cmp t op a b =>
    let x := (t.kind m).val a
    let y := (t.kind m).val b
    match op with
    | .eq => some (.bool (decide (x = y)))
    | .ne => some (.bool (decide (x ≠ y)))
    | .lt => some (.bool (decide (x < y)))
    | .le => some (.bool (decide (x ≤ y)))
    | .gt => some (.bool (decide (x > y)))
    | .ge => some (.bool (decide (x ≥ y)))
  | .cast t u a => some (.int _ ((t.kind m).castTo (u.kind m) a))

/-- What the emitted code computes. -/
def Call.codegen : Call m → Result
  | .bin t op a b => .int (t.kind m) (match op with
    | .add => (t.kind m).genAdd a b
    | .sub => (t.kind m).genSub a b
    | .mul => (t.kind m).genMul a b
    | .opAnd => (t.kind m).genAnd a b
    | .opOr => (t.kind m).genOr a b
    | .opXor => (t.kind m).genXor a b)
  | .unary t op a => .int (t.kind m) (match op with
    | .neg => (t.kind m).genNeg a
    | .opNot => (t.kind m).genNot a)
  | .divrem t op a b => .int (t.kind m) (match op with
    | .div => (t.kind m).genDiv a b
    | .rem => (t.kind m).genRem a b)
  | .shift t op a y => .int (t.kind m) (match op with
    | .shl => (t.kind m).genShl a y
    | .shr => (t.kind m).genShr a y)
  | .cmp t op a b => .bool (match op with
    | .eq => (t.kind m).genEq a b
    | .ne => (t.kind m).genNe a b
    | .lt => (t.kind m).genLt a b
    | .le => (t.kind m).genLe a b
    | .gt => (t.kind m).genGt a b
    | .ge => (t.kind m).genGe a b)
  | .cast t u a => .int (u.kind m) ((t.kind m).numberConversion (u.kind m) a)

/-- A division by zero, or of the least number by -1. -/
def IntKind.NoQuotient (k : IntKind) (x y : Int) : Prop :=
  y = 0 ∨ k.signed ∧ x = k.minValue ∧ y = -1

instance (k : IntKind) (x y : Int) : Decidable (k.NoQuotient x y) :=
  inferInstanceAs (Decidable (_ ∨ _))

/-- The arithmetic of both: modulo `2 ^ w`, with a quotient of 0 by zero and for the least number
by -1, and with the amount of a shift clamped to `w - 1`. -/
def Call.meaning : Call m → Result
  | .bin t op a b => .int (t.kind m) (match op with
    | .add => BitVec.ofInt _ ((t.kind m).val a + (t.kind m).val b)
    | .sub => BitVec.ofInt _ ((t.kind m).val a - (t.kind m).val b)
    | .mul => BitVec.ofInt _ ((t.kind m).val a * (t.kind m).val b)
    | .opAnd => a &&& b
    | .opOr => a ||| b
    | .opXor => a ^^^ b)
  | .unary t op a => .int (t.kind m) (match op with
    | .neg => BitVec.ofInt _ (-(t.kind m).val a)
    | .opNot => ~~~a)
  | .divrem t op a b =>
    let x := (t.kind m).val a
    let y := (t.kind m).val b
    .int (t.kind m)
      (if (t.kind m).NoQuotient x y then 0
      else match op with
        | .div => BitVec.ofInt _ (x.tdiv y)
        | .rem => BitVec.ofInt _ (x.tmod y))
  | .shift t op a y =>
    let amount := min y.toNat ((t.kind m).width - 1)
    .int (t.kind m) (match op with
      | .shl => BitVec.ofInt _ ((t.kind m).val a * 2 ^ amount)
      | .shr => BitVec.ofInt _ ((t.kind m).val a / 2 ^ amount))
  | .cmp t op a b =>
    let x := (t.kind m).val a
    let y := (t.kind m).val b
    .bool (match op with
      | .eq => decide (x = y)
      | .ne => decide (x ≠ y)
      | .lt => decide (x < y)
      | .le => decide (x ≤ y)
      | .gt => decide (x > y)
      | .ge => decide (x ≥ y))
  | .cast t u a => .int (u.kind m) (BitVec.ofInt _ ((t.kind m).val a))

/-! ### The calls that agree -/

namespace IntKind

/-- The exact result fits the promoted type, where that is signed. -/
def InRange (k : IntKind) (v : Int) : Prop := k.promote.signed = true → k.promote.Fits v

/-- A left shift by an amount below the promoted width, of an operand that is not negative and
loses no bits there when the promoted type is signed.  From the operand's own width on, all the
bits that the shorter of the two shifts keeps must be zero. -/
def ShlSafe (k : IntKind) (v : Int) (n : Nat) : Prop :=
  n % 2 ^ 64 < k.promote.width ∧
  (k.promote.signed = true → 0 ≤ v ∧ v * 2 ^ (n % 2 ^ 64) < 2 ^ k.promote.width) ∧
  (n < k.width ∨ n % 2 ^ 64 = k.width - 1 ∨
    2 ^ (k.width - min (n % 2 ^ 64) (k.width - 1)) ∣ v)

/-- A right shift by an amount below the promoted width.  From the operand's own width on, the
shorter of the two shifts must already move out all the bits of the operand. -/
def ShrSafe (k : IntKind) (v : Int) (n : Nat) : Prop :=
  n % 2 ^ 64 < k.promote.width ∧
  (n < k.width ∨ n % 2 ^ 64 = k.width - 1 ∨
    -2 ^ min (n % 2 ^ 64) (k.width - 1) ≤ v ∧ v < 2 ^ min (n % 2 ^ 64) (k.width - 1))

end IntKind

/-- The calls for which the C++ expression is defined and gives what the emitted code gives. -/
def Call.Safe : Call m → Prop
  | .bin t .add a b => (t.kind m).InRange ((t.kind m).val a + (t.kind m).val b)
  | .bin t .sub a b => (t.kind m).InRange ((t.kind m).val a - (t.kind m).val b)
  | .bin t .mul a b => (t.kind m).InRange ((t.kind m).val a * (t.kind m).val b)
  | .unary t .neg a => (t.kind m).InRange (-(t.kind m).val a)
  | .shift t .shl a y => (t.kind m).ShlSafe ((t.kind m).val a) y.toNat
  | .shift t .shr a y => (t.kind m).ShrSafe ((t.kind m).val a) y.toNat
  | _ => True

namespace IntKind

/-! ### Readings -/

variable {k : IntKind} {v : Int} {n : Nat}

theorem ofInt_val (x : BitVec k.width) : BitVec.ofInt k.width (k.val x) = x := by
  rw [val]
  split <;> simp

theorem val_inj {x y : BitVec k.width} : k.val x = k.val y ↔ x = y :=
  ⟨fun h => by rw [← ofInt_val x, h, ofInt_val], fun h => h ▸ rfl⟩

theorem val_fits (hw : 0 < k.width) (x : BitVec k.width) : k.Fits (k.val x) := by
  obtain ⟨_ | w, s⟩ := k
  · exact absurd hw (lt_irrefl 0)
  rw [Fits, minValue, bound, val]
  cases s with
  | true =>
    have h := BitVec.le_two_mul_toInt (x := x)
    have h' := BitVec.two_mul_toInt_lt (x := x)
    rw [pow_succ] at h h'
    simp only [if_true, Nat.add_sub_cancel]
    constructor <;> omega
  | false =>
    simp only [Bool.false_eq_true, if_false]
    exact ⟨natCast_nonneg _, mod_cast x.isLt⟩

theorem val_ofInt (hw : 0 < k.width) (h : k.Fits v) : k.val (BitVec.ofInt k.width v) = v := by
  obtain ⟨w, s⟩ := k
  cases s with
  | true =>
    simpa [val] using BitVec.toInt_ofInt_eq_self hw h.1 h.2
  | false =>
    simp only [Fits, minValue, bound, Bool.false_eq_true, if_false] at h
    simp only [val, Bool.false_eq_true, if_false, BitVec.toNat_ofInt]
    push_cast
    rw [emod_eq_of_lt h.1 h.2, toNat_of_nonneg h.1]

theorem width_le_promote : k.width ≤ k.promote.width := by
  rw [promote]
  split
  · exact le_of_lt ‹_›
  · exact le_rfl

variable {w : Nat}

/-- Reduction modulo a greater power changes no bit. -/
theorem ofInt_emod (h : w ≤ n) : BitVec.ofInt w (v % 2 ^ n) = BitVec.ofInt w v := by
  apply BitVec.eq_of_toInt_eq
  rw [toInt_ofInt, toInt_ofInt]
  have hd : ((2 ^ w : Nat) : Int) ∣ 2 ^ n := by
    exact pow_dvd_pow 2 h
  rw [← emod_bmod, emod_emod_of_dvd v hd, emod_bmod]

/-- The conversion of a promoted result keeps the low bits. -/
theorem demoted_eq (x : BitVec k.promote.width) : k.demoted x = x.setWidth k.width := by
  rw [demoted, val]
  split
  · exact BitVec.signExtend_eq_setWidth_of_le x width_le_promote
  · rw [BitVec.ofInt_natCast, BitVec.ofNat_toNat]

theorem setWidth_ofInt (h : w ≤ n) : (BitVec.ofInt n v).setWidth w = BitVec.ofInt w v := by
  have h0 : 0 ≤ v % 2 ^ n := emod_nonneg v (by positivity)
  have hn : BitVec.ofInt n v = BitVec.ofNat n (v % 2 ^ n).toNat := by
    rw [← BitVec.ofInt_natCast, toNat_of_nonneg h0, ofInt_emod le_rfl]
  rw [hn, BitVec.setWidth_ofNat_of_le h, ← BitVec.ofInt_natCast, toNat_of_nonneg h0, ofInt_emod h]

theorem demoted_ofInt : k.demoted (BitVec.ofInt k.promote.width v) = BitVec.ofInt k.width v := by
  rw [demoted_eq, setWidth_ofInt width_le_promote]

theorem setWidth_promoted (a : BitVec k.width) : (k.promoted a).setWidth k.width = a := by
  rw [promoted, setWidth_ofInt width_le_promote, ofInt_val]

/-- An arithmetic expression, converted to the type of its operands. -/
theorem arith_eq_some {x : BitVec k.width} (hx : x = BitVec.ofInt k.width v) :
    (k.promote.arith v).map (BitVec.ofInt k.width) = some x ↔ k.InRange v := by
  rw [arith, InRange]
  by_cases hs : k.promote.signed
  · by_cases hf : k.promote.Fits v
    · simp [hs, hf, hx]
    · simp [hs, hf]
  · simp [hs, hx, ofInt_emod width_le_promote]

/-! ### Addition to complement -/

variable {a b y : BitVec k.width}

theorem genAdd_eq : k.genAdd a b = BitVec.ofInt k.width (k.val a + k.val b) := by
  rw [ofInt_add, ofInt_val, ofInt_val, genAdd]

theorem genSub_eq : k.genSub a b = BitVec.ofInt k.width (k.val a - k.val b) := by
  rw [sub_eq_add_neg, ofInt_add, ofInt_neg, ofInt_val, ofInt_val, genSub, BitVec.sub_eq_add_neg]

theorem genMul_eq : k.genMul a b = BitVec.ofInt k.width (k.val a * k.val b) := by
  rw [ofInt_mul, ofInt_val, ofInt_val, genMul]

theorem genNeg_eq : k.genNeg a = BitVec.ofInt k.width (-k.val a) := by
  rw [ofInt_neg, ofInt_val, genNeg]

theorem opAnd_eq : k.opAnd a b = a &&& b := by
  rw [opAnd, demoted_eq, BitVec.setWidth_and, setWidth_promoted, setWidth_promoted]

theorem opOr_eq : k.opOr a b = a ||| b := by
  rw [opOr, demoted_eq, BitVec.setWidth_or, setWidth_promoted, setWidth_promoted]

theorem opXor_eq : k.opXor a b = a ^^^ b := by
  rw [opXor, demoted_eq, BitVec.setWidth_xor, setWidth_promoted, setWidth_promoted]

theorem opNot_eq : k.opNot a = ~~~a := by
  rw [opNot, demoted_eq, BitVec.setWidth_not width_le_promote, setWidth_promoted]

/-! ### Division -/

/-- The type promoted to represents the operands. -/
theorem Fits.promote (h : k.Fits v) : k.promote.Fits v := by
  obtain ⟨w, s⟩ := k
  rw [IntKind.promote]
  split
  · rename_i hlt
    have h₁ : (2 : Int) ^ w ≤ 2 ^ 31 := pow_le_pow_right₀ one_le_two (Nat.le_of_lt_succ hlt)
    have h₂ : (2 : Int) ^ (w - 1) ≤ 2 ^ w := pow_le_pow_right₀ one_le_two (Nat.sub_le w 1)
    have h₃ : (0 : Int) < 2 ^ (w - 1) := pow_pos two_pos _
    cases s <;> simp only [Fits, minValue, bound, if_true, Bool.false_eq_true, if_false] at h ⊢ <;>
      constructor <;> omega
  · exact h

/-- Only the least number by -1 has a quotient that does not fit. -/
theorem Fits.tdiv {p : IntKind} {u v : Int} (hs : p.signed = true) (hu : p.Fits u) (hv : v ≠ 0)
    (h : ¬(u = p.minValue ∧ v = -1)) : p.Fits (u.tdiv v) := by
  simp only [Fits, minValue, bound, hs, if_true] at *
  have hn : (u.tdiv v).natAbs = u.natAbs / v.natAbs := natAbs_tdiv u v
  rcases Nat.lt_or_ge 1 v.natAbs with h1 | h1
  · have hle : u.natAbs / v.natAbs ≤ u.natAbs / 2 := Nat.div_le_div_left h1 two_pos
    constructor <;> omega
  obtain rfl | rfl : v = 1 ∨ v = -1 := by omega
  · rwa [Int.tdiv_one]
  · rw [Int.tdiv_neg, Int.tdiv_one]
    constructor <;> omega

theorem val_eq_zero : k.val b = 0 ↔ b = 0 := by
  have h0 : k.val 0 = 0 := by
    rw [val]
    split <;> simp
  rw [← val_inj, h0]

theorem ofInt_two_pow (n : Nat) : BitVec.ofInt w (2 ^ n) = BitVec.twoPow w n := by
  apply BitVec.eq_of_toNat_eq
  rw [← Nat.cast_ofNat, ← Nat.cast_pow, BitVec.ofInt_natCast, toNat_ofNat, BitVec.toNat_twoPow]

theorem shiftLeft_eq (a : BitVec k.width) (n : Nat) :
    a <<< n = BitVec.ofInt k.width (k.val a * 2 ^ n) := by
  rw [BitVec.shiftLeft_eq_mul_twoPow, ofInt_mul, ofInt_val, ofInt_two_pow]

/-- The least number over -1, as `make_divrem` tests for it. -/
theorem overflows_iff (hw : 0 < k.width) (hs : k.signed = true) :
    ¬(a ≠ BitVec.allOnes k.width <<< (k.width - 1) ∨ b ≠ BitVec.allOnes k.width) ↔
      k.val a = k.minValue ∧ k.val b = -1 := by
  obtain ⟨w, _⟩ := k
  subst hs
  have h1 : (BitVec.allOnes w).toInt = -1 := by rw [BitVec.toInt_allOnes, if_pos hw]
  have hm : BitVec.allOnes w <<< (w - 1) = BitVec.intMin w := by
    rw [BitVec.intMin_eq_neg_two_pow, BitVec.shiftLeft_eq_mul_twoPow, ← ofInt_two_pow,
      ← ofInt_toInt (x := BitVec.allOnes w), h1, ← ofInt_mul, neg_one_mul]
  simp only [not_or, ne_eq, not_not, val, minValue, if_true, hm]
  rw [← toInt_inj, ← toInt_inj, h1, BitVec.toInt_intMin_of_pos hw]

/-- The zero test and the overflow test of code generation. -/
theorem makeDivrem_eq {f g : BitVec k.width → BitVec k.width → BitVec k.width}
    (hw : 0 < k.width) : k.makeDivrem f g a b =
      if k.NoQuotient (k.val a) (k.val b) then 0 else if k.signed then g a b else f a b := by
  simp only [makeDivrem, NoQuotient, val_eq_zero]
  by_cases hb : b = 0
  · simp [hb]
  by_cases hs : k.signed = true
  · have h := overflows_iff (a := a) (b := b) hw hs
    by_cases hq : k.val a = k.minValue ∧ k.val b = -1
    · rw [if_neg hb, if_pos hs, if_neg (h.2 hq), if_pos (.inr ⟨hs, hq⟩)]
    · rw [if_neg hb, if_pos hs, if_pos (by_contra fun hn => hq (h.1 hn)), if_neg (by tauto),
        if_pos hs]
  · simp [hs]

/-- The tests of `divrem_op`. -/
theorem divremOp_eq {f : BitVec k.width → BitVec k.width → Option (BitVec k.width)} :
    k.divremOp f a b = if k.NoQuotient (k.val a) (k.val b) then some 0 else f a b := by
  rw [divremOp]
  by_cases hb : k.val b = 0
  · rw [if_pos hb, if_pos (.inl hb)]
  rw [if_neg hb]
  by_cases ho : k.signed ∧ k.val a = k.minValue ∧ k.val b = -1
  · rw [if_pos ho, if_pos (.inr ho)]
  · have hq : ¬k.NoQuotient (k.val a) (k.val b) := not_or.2 ⟨hb, ho⟩
    rw [if_neg ho, if_neg hq]

/-- The least `int` is no operand of a narrower type. -/
theorem minValue_lt_of_promote (hne : k.promote ≠ k) (hw : 0 < k.width) (a : BitVec k.width) :
    k.promote.minValue < k.val a := by
  have hlt : k.width < 32 := by_contra fun h => hne (if_neg h)
  have hp : k.promote = ⟨32, true⟩ := if_pos hlt
  have h := (val_fits hw a).1
  have h₁ : (2 : Int) ^ (k.width - 1) ≤ 2 ^ 30 := pow_le_pow_right₀ one_le_two (by omega)
  have h₂ : -2 ^ (k.width - 1) ≤ k.minValue := by
    rw [minValue]
    split
    · exact le_rfl
    · exact neg_nonpos.2 (by positivity)
  have h₃ : k.promote.minValue = -2 ^ 31 := by rw [hp]; rfl
  omega

theorem inRange_tdiv (hw : 0 < k.width) (h : ¬k.NoQuotient (k.val a) (k.val b)) :
    k.InRange ((k.val a).tdiv (k.val b)) := by
  intro hs
  obtain ⟨hb, ho⟩ := not_or.1 h
  apply Fits.tdiv hs (val_fits hw a).promote hb
  rintro ⟨ha, hb'⟩
  by_cases hp : k.promote = k
  · rw [hp] at ha hs
    exact ho ⟨hs, ha, hb'⟩
  · exact (minValue_lt_of_promote hp hw a).ne' ha

theorem quotient_eq : (if k.signed then a.sdiv b else a.udiv b) =
    BitVec.ofInt k.width ((k.val a).tdiv (k.val b)) := by
  rw [val, val]
  split
  · apply BitVec.eq_of_toInt_eq
    rw [BitVec.toInt_sdiv, toInt_ofInt]
  rw [← ofNat_tdiv, BitVec.ofInt_natCast, ← BitVec.toNat_udiv, BitVec.ofNat_toNat, setWidth_eq]
  rfl

theorem remainder_eq : (if k.signed then a.srem b else a.umod b) =
    BitVec.ofInt k.width ((k.val a).tmod (k.val b)) := by
  rw [val, val]
  split
  · rw [← BitVec.toInt_srem, ofInt_toInt]
  rw [← ofNat_tmod, BitVec.ofInt_natCast, ← BitVec.toNat_umod, BitVec.ofNat_toNat, setWidth_eq]
  rfl

theorem genDiv_eq (hw : 0 < k.width) : k.genDiv a b =
    if k.NoQuotient (k.val a) (k.val b) then 0
    else BitVec.ofInt k.width ((k.val a).tdiv (k.val b)) := by
  rw [genDiv, makeDivrem_eq hw, quotient_eq]

theorem genRem_eq (hw : 0 < k.width) : k.genRem a b =
    if k.NoQuotient (k.val a) (k.val b) then 0
    else BitVec.ofInt k.width ((k.val a).tmod (k.val b)) := by
  rw [genRem, makeDivrem_eq hw, remainder_eq]

/-- Where the quotient is defined, it is in range. -/
theorem div_eq (hw : 0 < k.width) (h : ¬k.NoQuotient (k.val a) (k.val b)) :
    k.div a b = some (BitVec.ofInt k.width ((k.val a).tdiv (k.val b))) := by
  rw [div, if_neg fun hb => h (.inl hb)]
  exact (arith_eq_some rfl).2 (inRange_tdiv hw h)

theorem rem_eq (hw : 0 < k.width) (h : ¬k.NoQuotient (k.val a) (k.val b)) :
    k.rem a b = some (BitVec.ofInt k.width ((k.val a).tmod (k.val b))) := by
  rw [rem, if_neg]
  rintro (hb | hn)
  · exact h (.inl hb)
  have hq := div_eq hw h
  rw [div, if_neg fun hb => h (.inl hb), hn] at hq
  exact absurd hq (some_ne_none _).symm

theorem divremOp_div (hw : 0 < k.width) : k.divremOp k.div a b = some (k.genDiv a b) := by
  rw [divremOp_eq, genDiv_eq hw]
  split_ifs with h
  · rfl
  · exact div_eq hw h

theorem divremOp_rem (hw : 0 < k.width) : k.divremOp k.rem a b = some (k.genRem a b) := by
  rw [divremOp_eq, genRem_eq hw]
  split_ifs with h
  · rfl
  · exact rem_eq hw h

/-! ### Shifts -/

theorem toNat_clamped : (k.clamped y).toNat = min y.toNat (k.width - 1) := by
  have hlt : k.width - 1 < 2 ^ k.width := lt_of_le_of_lt (Nat.sub_le _ 1) Nat.lt_two_pow_self
  have hn : (BitVec.ofNat k.width (k.width - 1)).toNat = k.width - 1 := by
    rw [toNat_ofNat, Nat.mod_eq_of_lt hlt]
  rw [clamped]
  split_ifs with h
  · rw [BitVec.ule_iff_toNat_le, hn] at h
    exact (Nat.min_eq_left h).symm
  rw [BitVec.ule_iff_toNat_le, hn] at h
  rw [hn]
  exact (Nat.min_eq_right (le_of_not_ge h)).symm

theorem genShl_eq :
    k.genShl a y = BitVec.ofInt k.width (k.val a * 2 ^ min y.toNat (k.width - 1)) := by
  rw [genShl, BitVec.shiftLeft_eq', toNat_clamped, shiftLeft_eq]

theorem genShr_eq :
    k.genShr a y = BitVec.ofInt k.width (k.val a / 2 ^ min y.toNat (k.width - 1)) := by
  rw [genShr, val]
  split
  · rw [BitVec.sshiftRight', toNat_clamped, BitVec.sshiftRight, shiftRight_eq_div_pow]
    rfl
  rw [BitVec.ushiftRight_eq', toNat_clamped]
  apply BitVec.eq_of_toNat_eq
  have hlt := lt_of_le_of_lt (Nat.div_le_self a.toNat (2 ^ min y.toNat (k.width - 1))) a.isLt
  have hq : (a.toNat : Int) / 2 ^ min y.toNat (k.width - 1) =
      (a.toNat / 2 ^ min y.toNat (k.width - 1) : Nat) := by push_cast; rfl
  rw [BitVec.toNat_ushiftRight, Nat.shiftRight_eq_div_pow, hq, BitVec.ofInt_natCast,
    toNat_ofNat, Nat.mod_eq_of_lt hlt]

/-- An amount below the width is neither reduced nor clamped. -/
theorem amount_of_lt {n : Nat} (hw : w ≤ 128) (hn : n < w) : n % 2 ^ 64 = n ∧ min n (w - 1) = n :=
  ⟨Nat.mod_eq_of_lt (lt_trans (lt_of_lt_of_le hn hw) (by norm_num)),
    Nat.min_eq_left (Nat.le_sub_one_of_lt hn)⟩

theorem ofInt_eq_iff {u v : Int} : BitVec.ofInt w u = BitVec.ofInt w v ↔ (2 : Int) ^ w ∣ u - v := by
  have hp : ((2 ^ w : Nat) : Int) = 2 ^ w := by push_cast; rfl
  rw [← toInt_inj, toInt_ofInt, toInt_ofInt, dvd_iff_emod_eq_zero,
    ← emod_eq_emod_iff_emod_sub_eq_zero, ← hp]
  exact ⟨fun h => by rw [← bmod_emod, h, bmod_emod], fun h => by rw [← emod_bmod, h, emod_bmod]⟩

/-- Shifts by an amount and by `w - 1` leave the same low bits only if neither leaves any. -/
theorem shifted_eq_iff {t : Nat} (hw : 0 < w) :
    BitVec.ofInt w (v * 2 ^ t) = BitVec.ofInt w (v * 2 ^ (w - 1)) ↔
      t = w - 1 ∨ 2 ^ (w - min t (w - 1)) ∣ v := by
  obtain ⟨w, rfl⟩ : ∃ n, w = n + 1 := ⟨w - 1, by omega⟩
  rw [Nat.add_sub_cancel, ofInt_eq_iff]
  rcases lt_trichotomy t w with hlt | rfl | hgt
  · obtain ⟨d, rfl⟩ : ∃ d, w = t + d + 1 := ⟨w - t - 1, by omega⟩
    have hc : IsCoprime ((2 : Int) ^ (d + 2)) (1 - 2 ^ (d + 1)) :=
      IsCoprime.pow_left ⟨2 ^ d, 1, by ring⟩
    have he : v * 2 ^ t - v * 2 ^ (t + d + 1) = 2 ^ t * (v * (1 - 2 ^ (d + 1))) := by ring
    have hp : (2 : Int) ^ (t + d + 1 + 1) = 2 ^ t * 2 ^ (d + 2) := by ring
    have hm : t + d + 1 + 1 - min t (t + d + 1) = d + 2 := by
      rw [Nat.min_eq_left (by omega)]
      omega
    rw [he, hp, hm, mul_dvd_mul_iff_left (by positivity)]
    constructor
    · exact fun h => .inr (hc.dvd_of_dvd_mul_right h)
    rintro (h | h)
    · omega
    · exact Dvd.dvd.mul_right h _
  · simp
  · have hd : (2 : Int) ^ (w + 1) ∣ v * 2 ^ t := Dvd.dvd.mul_left (pow_dvd_pow 2 hgt) v
    have hm : w + 1 - min t w = 1 := by
      rw [Nat.min_eq_right (le_of_lt hgt)]
      omega
    rw [dvd_sub_right hd, hm, pow_succ', pow_one, mul_dvd_mul_iff_right (by positivity)]
    constructor
    · exact .inr
    rintro (h | h)
    · omega
    · exact h

/-- **The left shifts agree.** -/
theorem shiftOp_shl (hw : 0 < k.width) (hw' : k.width ≤ 128) :
    k.shiftOp k.shl a y = some (k.genShl a y) ↔ k.ShlSafe (k.val a) y.toNat := by
  rw [genShl_eq, shiftOp, shl, ShlSafe, toUint64]
  by_cases ht : y.toNat % 2 ^ 64 < k.promote.width
  swap
  · simp only [if_pos (le_of_not_gt ht), ht, false_and, reduceCtorEq]
  rw [if_neg (not_le_of_gt ht), demoted_ofInt]
  by_cases hs : k.promote.signed = true ∧
      ¬(0 ≤ k.val a ∧ k.val a * 2 ^ (y.toNat % 2 ^ 64) < 2 ^ k.promote.width)
  · rw [if_pos hs]
    exact ⟨fun h => absurd h.symm (some_ne_none _), fun h => absurd (h.2.1 hs.1) hs.2⟩
  rw [if_neg hs, some_inj]
  have hd : k.promote.signed = true →
      0 ≤ k.val a ∧ k.val a * 2 ^ (y.toNat % 2 ^ 64) < 2 ^ k.promote.width :=
    fun h => by_contra fun hn => hs ⟨h, hn⟩
  rcases Nat.lt_or_ge y.toNat k.width with hn | hn
  · have hc := amount_of_lt hw' hn
    rw [hc.1] at ht hd ⊢
    rw [hc.2]
    exact iff_of_true rfl ⟨ht, hd, .inl hn⟩
  have hc : min y.toNat (k.width - 1) = k.width - 1 :=
    Nat.min_eq_right (le_trans (Nat.sub_le _ 1) hn)
  rw [hc, shifted_eq_iff hw]
  exact ⟨fun h => ⟨ht, hd, .inr h⟩, fun h => h.2.2.resolve_left (not_lt_of_ge hn)⟩

/-- Where a shift moves out all the bits of a number, every longer one does. -/
theorem ediv_two_pow_eq {c e : Nat} (hce : c ≤ e) (h : -2 ^ c ≤ v ∧ v < 2 ^ c) :
    v / 2 ^ e = if v < 0 then -1 else 0 := by
  have hle : (2 : Int) ^ c ≤ 2 ^ e := pow_le_pow_right₀ one_le_two hce
  split_ifs with hv
  · rw [ediv_eq_iff_of_pos (by positivity)]
    constructor <;> omega
  · exact ediv_eq_zero_of_lt (by omega) (by omega)

/-- A quotient of -1 or 0 is the sign. -/
theorem range_of_ediv {c : Nat} (h : v / 2 ^ c = -1 ∨ v / 2 ^ c = 0) : -2 ^ c ≤ v ∧ v < 2 ^ c := by
  have hp : (0 : Int) < 2 ^ c := by positivity
  rcases h with h | h <;> rw [ediv_eq_iff_of_pos hp] at h <;> constructor <;> omega

/-- Shifts by an amount and by all the bits but one give the same number only if both give the
sign. -/
theorem ediv_eq_iff {t : Nat} (h : -2 ^ w ≤ v ∧ v < 2 ^ (w + 1)) :
    v / 2 ^ t = v / 2 ^ w ↔ t = w ∨ -2 ^ min t w ≤ v ∧ v < 2 ^ min t w := by
  constructor
  swap
  · rintro (rfl | hv)
    · rfl
    · rw [ediv_two_pow_eq (min_le_left t w) hv, ediv_two_pow_eq (min_le_right t w) hv]
  intro he
  rcases lt_trichotomy t w with hlt | rfl | hgt
  · right
    rw [Nat.min_eq_left (le_of_lt hlt)]
    apply range_of_ediv
    have hp : (0 : Int) < 2 ^ t := by positivity
    have hw : (2 : Int) * 2 ^ t ≤ 2 ^ w := by
      rw [← pow_succ']
      exact pow_le_pow_right₀ one_le_two hlt
    have h₁ := (ediv_eq_iff_of_pos (x := v) hp).1 rfl
    have h₂ := (ediv_eq_iff_of_pos (lt_of_lt_of_le (by omega) hw)).1 he.symm
    generalize v / 2 ^ t = q at h₁ h₂ ⊢
    have hq₁ : q < 1 := by
      by_contra hq
      nlinarith
    have hq₂ : -2 < q := by
      by_contra hq
      nlinarith
    omega
  · exact .inl rfl
  · right
    rw [Nat.min_eq_right (le_of_lt hgt)]
    apply range_of_ediv
    have hw : (2 : Int) ^ (w + 1) ≤ 2 ^ t := pow_le_pow_right₀ one_le_two hgt
    have hp : (0 : Int) < 2 ^ w := by positivity
    rw [← he, ediv_two_pow_eq le_rfl ⟨by omega, by omega⟩]
    split_ifs <;> simp

/-- The operands of a type, signed or not, as multiples of its highest bit. -/
theorem Fits.bounds (hw : 0 < k.width) (h : k.Fits v) :
    -2 ^ (k.width - 1) ≤ v ∧ v < 2 ^ (k.width - 1 + 1) := by
  obtain ⟨w, hk⟩ : ∃ w, k.width = w + 1 := ⟨k.width - 1, by omega⟩
  rw [Fits, minValue, bound, hk, Nat.add_sub_cancel] at h
  rw [hk, Nat.add_sub_cancel]
  split_ifs at h <;> constructor <;> omega

theorem minValue_nonpos (k : IntKind) : k.minValue ≤ 0 := by
  rw [minValue]
  split
  · exact neg_nonpos.2 (by positivity)
  · exact le_rfl

theorem bound_pos (k : IntKind) : 0 < k.bound := by
  rw [bound]
  split <;> positivity

/-- A quotient by a power of two is in range. -/
theorem Fits.ediv (h : k.Fits v) (n : Nat) : k.Fits (v / 2 ^ n) := by
  have hp : (0 : Int) < 2 ^ n := by positivity
  rcases lt_or_ge v 0 with hv | hv
  · have hle : v ≤ v / 2 ^ n := Int.le_ediv_of_mul_le hp (by nlinarith)
    exact ⟨le_trans h.1 hle, lt_trans (ediv_neg_of_neg_of_pos hv hp) k.bound_pos⟩
  · exact ⟨le_trans k.minValue_nonpos (ediv_nonneg hv (le_of_lt hp)),
      lt_of_le_of_lt (ediv_le_self _ hv) h.2⟩

/-- **The right shifts agree.** -/
theorem shiftOp_shr (hw : 0 < k.width) (hw' : k.width ≤ 128) :
    k.shiftOp k.shr a y = some (k.genShr a y) ↔ k.ShrSafe (k.val a) y.toNat := by
  rw [genShr_eq, shiftOp, shr, ShrSafe, toUint64]
  by_cases ht : y.toNat % 2 ^ 64 < k.promote.width
  swap
  · simp only [if_pos (le_of_not_gt ht), ht, false_and, reduceCtorEq]
  rw [if_neg (not_le_of_gt ht), some_inj]
  rcases Nat.lt_or_ge y.toNat k.width with hn | hn
  · have hc := amount_of_lt hw' hn
    rw [hc.1] at ht ⊢
    rw [hc.2]
    exact iff_of_true rfl ⟨ht, .inl hn⟩
  have hc : min y.toNat (k.width - 1) = k.width - 1 :=
    Nat.min_eq_right (le_trans (Nat.sub_le _ 1) hn)
  have hf := val_fits hw a
  have hv : ∀ n, k.val (BitVec.ofInt k.width (k.val a / 2 ^ n)) = k.val a / 2 ^ n :=
    fun n => val_ofInt hw (hf.ediv n)
  rw [hc, ← val_inj, hv, hv, ediv_eq_iff (hf.bounds hw)]
  exact ⟨fun h => ⟨ht, .inr h⟩, fun h => h.2.resolve_left (not_lt_of_ge hn)⟩

/-! ### Comparisons and conversions -/

theorem genEq_eq : k.genEq a b = decide (k.val a = k.val b) := by
  simp only [genEq, makeCmp, ite_self, val_inj]
  rfl

theorem genNe_eq : k.genNe a b = decide (k.val a ≠ k.val b) := by
  simp only [genNe, makeCmp, ite_self, ne_eq, val_inj, decide_not]
  rfl

theorem genLt_eq : k.genLt a b = decide (k.val a < k.val b) := by
  rw [genLt, makeCmp, val, val]
  split
  · rfl
  · simp [BitVec.ult]

theorem genLe_eq : k.genLe a b = decide (k.val a ≤ k.val b) := by
  rw [genLe, makeCmp, val, val]
  split
  · rfl
  · simp [BitVec.ule]

theorem genGt_eq : k.genGt a b = decide (k.val a > k.val b) := genLt_eq

theorem genGe_eq : k.genGe a b = decide (k.val a ≥ k.val b) := genLe_eq

/-- Truncation, sign extension and zero extension all keep the number modulo the new width. -/
theorem numberConversion_eq (l : IntKind) :
    k.numberConversion l a = BitVec.ofInt l.width (k.val a) := by
  rw [numberConversion]
  split_ifs with h₁ h₂ hs
  · rw [BitVec.truncate, ← setWidth_ofInt (le_of_lt h₁), ofInt_val]
  · rw [val, if_pos hs]
    rfl
  · rw [val, if_neg hs, BitVec.ofInt_natCast, BitVec.ofNat_toNat]
  · rw [← setWidth_ofInt (le_of_not_gt h₂), ofInt_val]

end IntKind

open IntKind

/-- Code generation has the meaning of each call. -/
theorem Call.codegen_eq_meaning (c : Call m) : c.codegen = c.meaning := by
  rcases c with ⟨t, op, a, b⟩ | ⟨t, op, a⟩ | ⟨t, op, a, b⟩ | ⟨t, op, a, y⟩ | ⟨t, op, a, b⟩ |
    ⟨t, u, a⟩
  · cases op
    case add => exact congrArg _ genAdd_eq
    case sub => exact congrArg _ genSub_eq
    case mul => exact congrArg _ genMul_eq
    all_goals rfl
  · cases op
    case neg => exact congrArg _ genNeg_eq
    case opNot => rfl
  · have hw := (t.width_bounds m).1
    cases op
    case div => exact congrArg _ (genDiv_eq hw)
    case rem => exact congrArg _ (genRem_eq hw)
  · cases op
    case shl => exact congrArg _ genShl_eq
    case shr => exact congrArg _ genShr_eq
  · cases op
    case eq => exact congrArg _ genEq_eq
    case ne => exact congrArg _ genNe_eq
    case lt => exact congrArg _ genLt_eq
    case le => exact congrArg _ genLe_eq
    case gt => exact congrArg _ genGt_eq
    case ge => exact congrArg _ genGe_eq
  · exact congrArg _ (numberConversion_eq _)

theorem map_int_eq_some {k : IntKind} {o : Option (BitVec k.width)} {x : BitVec k.width} :
    o.map (Result.int k) = some (.int k x) ↔ o = some x := by
  cases o <;> simp

/-- **The two agree exactly for the safe calls**: there every expression has a defined value, which
is what the emitted code computes, and that is the arithmetic modulo `2 ^ w`. -/
theorem Call.ctfe_agrees_iff (m : DataModel) (c : Call m) :
    c.runMethod = some c.codegen ∧ c.codegen = c.meaning ↔ c.Safe := by
  rw [and_iff_left c.codegen_eq_meaning]
  rcases c with ⟨t, op, a, b⟩ | ⟨t, op, a⟩ | ⟨t, op, a, b⟩ | ⟨t, op, a, y⟩ | ⟨t, op, a, b⟩ |
    ⟨t, u, a⟩
  · cases op
    case add => exact map_int_eq_some.trans (arith_eq_some genAdd_eq)
    case sub => exact map_int_eq_some.trans (arith_eq_some genSub_eq)
    case mul => exact map_int_eq_some.trans (arith_eq_some genMul_eq)
    case opAnd => exact iff_of_true (congrArg (some ∘ Result.int _) opAnd_eq) trivial
    case opOr => exact iff_of_true (congrArg (some ∘ Result.int _) opOr_eq) trivial
    case opXor => exact iff_of_true (congrArg (some ∘ Result.int _) opXor_eq) trivial
  · cases op
    case neg => exact map_int_eq_some.trans (arith_eq_some genNeg_eq)
    case opNot => exact iff_of_true (congrArg (some ∘ Result.int _) opNot_eq) trivial
  · have hw := (t.width_bounds m).1
    cases op
    case div => exact iff_of_true (map_int_eq_some.2 (divremOp_div hw)) trivial
    case rem => exact iff_of_true (map_int_eq_some.2 (divremOp_rem hw)) trivial
  · have ⟨hw, hw'⟩ := t.width_bounds m
    cases op
    case shl => exact map_int_eq_some.trans (shiftOp_shl hw hw')
    case shr => exact map_int_eq_some.trans (shiftOp_shr hw hw')
  · refine iff_of_true ?_ (by cases op <;> trivial)
    rw [Call.codegen_eq_meaning]
    cases op <;> rfl
  · exact iff_of_true (congrArg (some ∘ Result.int _) (numberConversion_eq _).symm) trivial

/-- `U8(1) << 8` is 0 at compile time, and 128 at run time. -/
theorem Call.shl_u8_differs :
    ¬∀ (m : DataModel) (c : Call m), c.runMethod = some c.codegen ∧ c.codegen = c.meaning := by
  intro h
  have h8 := (h .lp64 (.shift .u8 .shl (1 : BitVec 8) (8 : BitVec 8))).1
  exact absurd h8 (by decide)

end SpacePony.Ctfe
