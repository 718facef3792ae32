import Mathlib.Data.Nat.Digits.Lemmas
import SpacePony.Packages.Builtin.Utf32

/-!
# Packages — format — integers

`_FormatInt` of `_format_int.pony`.  The text is made backwards and reversed, byte by byte, before the
padding behind it is added.

* `format_eq`: what it is.  **`format_exact_iff`**: it is what it should be unless the padding in front
  has a fill of several bytes.
-/

namespace SpacePony.Format

open Nat List
open Builtin (fromUtf32)

/-- A string: its bytes. -/
abbrev Bytes := List UInt8

/-- The bytes of a text in ASCII. -/
def ascii (s : String) : Bytes := s.toList.map fun c => UInt8.ofNat c.toNat

/-- `type FormatInt`. -/
inductive FormatInt where
  | default
  | utf32
  | binary
  | binaryBare
  | octal
  | octalBare
  | hex
  | hexBare
  | hexSmall
  | hexSmallBare
deriving DecidableEq

/-- `type PrefixNumber`. -/
inductive PrefixNumber where
  | default
  | space
  | sign
deriving DecidableEq

/-- `type Align`. -/
inductive Align where
  | left
  | right
  | center
deriving DecidableEq

/-! ### The worker -/

/-- `_large`. -/
def large : Bytes := ascii "0123456789ABCDEF"

/-- `_small`. -/
def small : Bytes := ascii "0123456789abcdef"

/-- What `_fmt_int` returns: a base with the text in front of its numbers, backwards, and its digits. -/
structure Style where
  base : ℕ
  typestring : Bytes
  table : Bytes
  one_lt : 1 < base
  lt_256 : base < 256
  le_size : base ≤ table.length

/-- `_fmt_int`. -/
def fmtInt : FormatInt → Style
  | .binary => ⟨2, ascii "b0", large, by decide, by decide, by decide⟩
  | .binaryBare => ⟨2, ascii "", large, by decide, by decide, by decide⟩
  | .octal => ⟨8, ascii "o0", large, by decide, by decide, by decide⟩
  | .octalBare => ⟨8, ascii "", large, by decide, by decide, by decide⟩
  | .hex => ⟨16, ascii "x0", large, by decide, by decide, by decide⟩
  | .hexBare => ⟨16, ascii "", large, by decide, by decide, by decide⟩
  | .hexSmall => ⟨16, ascii "x0", small, by decide, by decide, by decide⟩
  | .hexSmallBare => ⟨16, ascii "", small, by decide, by decide, by decide⟩
  | .default | .utf32 => ⟨10, ascii "", large, by decide, by decide, by decide⟩

/-- `_prefix`. -/
def prestring (neg : Bool) (pre : PrefixNumber) : Bytes :=
  if neg then ascii "-"
  else
    match pre with
    | .space => ascii " "
    | .sign => ascii "+"
    | .default => ascii ""

/-- `_extend_digits`. -/
def extendDigits (s : Bytes) (digits : ℕ) : Bytes :=
  if s.length < digits then extendDigits (s ++ ascii "0") digits else s
termination_by digits - s.length
decreasing_by
  rename_i h
  have hone : (ascii "0").length = 1 := rfl
  rw [length_append, hone]
  omega

/-- The loops of `_pad`. -/
def appendTimes (fills : Bytes) : ℕ → Bytes → Bytes
  | 0, s => s
  | n + 1, s => appendTimes fills n (s ++ fills)

/-- `pre` and `post` of `_pad`. -/
def Align.fills : Align → ℕ → ℕ × ℕ
  | .left, rem => (0, rem)
  | .right, rem => (rem, 0)
  | .center, rem => (rem / 2, rem - rem / 2)

/-- `_pad`. -/
def pad (s : Bytes) (width : ℕ) (align : Align) (fill : UInt32) : Bytes :=
  if s.length < width then
    let (pre, post) := align.fills (width - s.length)
    appendTimes (fromUtf32 fill) post (appendTimes (fromUtf32 fill) pre s).reverse
  else s.reverse

/-- The loop over the digits; an error of the table ends it. -/
def pushDigits {w : ℕ} (base : BitVec w) (h : 1 < base.toNat) (table s : Bytes)
    (value : BitVec w) : Bytes :=
  if value = 0 then s
  else
    let index := value - value / base * base
    match table[index.toNat]? with
    | some digit => pushDigits base h table (s ++ [digit]) (value / base)
    | none => s
termination_by value.toNat
decreasing_by
  rw [BitVec.toNat_udiv]
  refine div_lt_self (pos_of_ne_zero fun hzero => ?_) h
  exact ‹¬ value = 0› (BitVec.eq_of_toNat_eq hzero)

variable {w : ℕ}

theorem Style.toNat_base (hw : 8 ≤ w) (style : Style) :
    (BitVec.ofNat w style.base).toNat = style.base := by
  have h256 : 2 ^ 8 ≤ 2 ^ w := Nat.pow_le_pow_right two_pos hw
  rw [BitVec.toNat_ofNat]
  exact mod_eq_of_lt (style.lt_256.trans_le h256)

theorem Style.one_lt_base (hw : 8 ≤ w) (style : Style) :
    1 < (BitVec.ofNat w style.base).toNat := (style.toNat_base hw).symm ▸ style.one_lt

section
variable {u : ℕ}

/-- The worker for a width of `w` bits.  A `USize` has `u` bits. -/
def formatInt {w : ℕ} (hw : 8 ≤ w) (x : BitVec w) (neg : Bool) (fmt : FormatInt)
    (pre : PrefixNumber) (prec width : BitVec u) (align : Align) (fill : UInt32) : Bytes :=
  let style := fmtInt fmt
  let prec' := if prec = -1 then 0 else prec
  let s :=
    if x = 0 then style.table[0]?.toList
    else pushDigits (BitVec.ofNat w style.base) (style.one_lt_base hw) style.table [] x
  pad (extendDigits s prec'.toNat ++ style.typestring ++ prestring neg pre) width.toNat align fill

/-- `u8`. -/
def u8 (x : BitVec 8) (neg : Bool) (fmt : FormatInt) (pre : PrefixNumber) (prec width : BitVec u)
    (align : Align) (fill : UInt32) : Bytes :=
  formatInt (by decide) x neg fmt pre prec width align fill

/-- `u16`. -/
def u16 (x : BitVec 16) (neg : Bool) (fmt : FormatInt) (pre : PrefixNumber)
    (prec width : BitVec u) (align : Align) (fill : UInt32) : Bytes :=
  formatInt (by decide) x neg fmt pre prec width align fill

/-- `u32`. -/
def u32 (x : BitVec 32) (neg : Bool) (fmt : FormatInt) (pre : PrefixNumber)
    (prec width : BitVec u) (align : Align) (fill : UInt32) : Bytes :=
  if fmt = .utf32 then fromUtf32 (UInt32.ofNat x.toNat)
  else formatInt (by decide) x neg fmt pre prec width align fill

/-- `u64`. -/
def u64 (x : BitVec 64) (neg : Bool) (fmt : FormatInt) (pre : PrefixNumber)
    (prec width : BitVec u) (align : Align) (fill : UInt32) : Bytes :=
  if fmt = .utf32 then fromUtf32 (UInt32.ofNat x.toNat)
  else formatInt (by decide) x neg fmt pre prec width align fill

/-- `u128`. -/
def u128 (x : BitVec 128) (neg : Bool) (fmt : FormatInt) (pre : PrefixNumber)
    (prec width : BitVec u) (align : Align) (fill : UInt32) : Bytes :=
  if fmt = .utf32 then fromUtf32 (UInt32.ofNat x.toNat)
  else formatInt (by decide) x neg fmt pre prec width align fill

/-- The widths that `_FormatInt` has a method for. -/
inductive Width where
  | u8
  | u16
  | u32
  | u64
  | u128

/-- How many bits there are. -/
def Width.bits : Width → ℕ
  | .u8 => 8
  | .u16 => 16
  | .u32 => 32
  | .u64 => 64
  | .u128 => 128

/-- The method for the width. -/
def Width.format : (W : Width) → BitVec W.bits → Bool → FormatInt → PrefixNumber → BitVec u →
    BitVec u → Align → UInt32 → Bytes
  | .u8 => Format.u8
  | .u16 => Format.u16
  | .u32 => Format.u32
  | .u64 => Format.u64
  | .u128 => Format.u128

/-! ### What the text should be -/

/-- The base of a format. -/
def FormatInt.radix : FormatInt → ℕ
  | .binary | .binaryBare => 2
  | .octal | .octalBare => 8
  | .hex | .hexBare | .hexSmall | .hexSmallBare => 16
  | .default | .utf32 => 10

/-- The text that says which base it is. -/
def FormatInt.basePrefix : FormatInt → Bytes
  | .binary => ascii "0b"
  | .octal => ascii "0o"
  | .hex | .hexSmall => ascii "0x"
  | .default | .utf32 | .binaryBare | .octalBare | .hexBare | .hexSmallBare => []

/-- The digit of a number below the base. -/
def FormatInt.digit (fmt : FormatInt) (d : ℕ) : UInt8 :=
  if d < 10 then UInt8.ofNat (0x30 + d)
  else if fmt = .hexSmall ∨ fmt = .hexSmallBare then UInt8.ofNat (0x61 + (d - 10))
  else UInt8.ofNat (0x41 + (d - 10))

/-- The numeral of a number. -/
def numeral (fmt : FormatInt) (n : ℕ) : Bytes :=
  if n = 0 then [fmt.digit 0] else (digits fmt.radix n).reverse.map fmt.digit

/-- The precision; that of `-1` is none. -/
def precision (prec : BitVec u) : ℕ := if prec = -1 then 0 else prec.toNat

/-- The sign, the prefix of the base and the numeral, with zeros in front of it. -/
def unpadded (n : ℕ) (neg : Bool) (fmt : FormatInt) (pre : PrefixNumber) (prec : ℕ) : Bytes :=
  prestring neg pre ++ fmt.basePrefix ++
    replicate (prec - (numeral fmt n).length) 0x30 ++ numeral fmt n

/-- Copies of the encoding of a code point. -/
def copies (n : ℕ) (fill : UInt32) : Bytes := (replicate n (fromUtf32 fill)).flatten

/-- The text with the padding. -/
def formatted (n : ℕ) (neg : Bool) (fmt : FormatInt) (pre : PrefixNumber) (prec width : ℕ)
    (align : Align) (fill : UInt32) : Bytes :=
  let text := unpadded n neg fmt pre prec
  let (before, after) := align.fills (width - text.length)
  copies before fill ++ text ++ copies after fill

end

/-! ### What it is -/

section
variable {u : ℕ} {n : ℕ} {fmt : FormatInt} {fill : UInt32}

theorem extendDigits_eq (s : Bytes) (digits : ℕ) :
    extendDigits s digits = s ++ replicate (digits - s.length) 0x30 := by
  fun_induction extendDigits s digits with
  | case1 s h ih =>
    have hlength : digits - s.length = digits - (s ++ ascii "0").length + 1 := by
      have hone : (ascii "0").length = 1 := rfl
      rw [length_append, hone]
      omega
    rw [ih, hlength, replicate_succ, append_assoc]
    rfl
  | case2 s h => rw [Nat.sub_eq_zero_of_le (Nat.le_of_not_lt h), replicate_zero, append_nil]

theorem appendTimes_eq (fills : Bytes) (n : ℕ) (s : Bytes) :
    appendTimes fills n s = s ++ (replicate n fills).flatten := by
  induction n generalizing s with
  | zero => exact (append_nil s).symm
  | succ n ih => rw [appendTimes, ih, replicate_succ, flatten_cons, append_assoc]

/-- Nothing is padded when there is nothing to fill. -/
theorem fills_zero (align : Align) : align.fills 0 = (0, 0) := by
  cases align <;> rfl

theorem pad_eq (s : Bytes) (width : ℕ) (align : Align) (fill : UInt32) : pad s width align fill =
      (copies (align.fills (width - s.length)).1 fill).reverse ++ s.reverse ++
        copies (align.fills (width - s.length)).2 fill := by
  rw [pad]
  split
  · simp only [appendTimes_eq, reverse_append]
    rfl
  rename_i h
  rw [Nat.sub_eq_zero_of_le (Nat.le_of_not_lt h), fills_zero]
  simp [copies]

/-- The last digit of a value. -/
theorem toNat_index (value base : BitVec w) :
    (value - value / base * base).toNat = value.toNat % base.toNat := by
  have hmul : value.toNat / base.toNat * base.toNat ≤ value.toNat := Nat.div_mul_le_self _ _
  have hprod : (value / base * base).toNat = value.toNat / base.toNat * base.toNat := by
    rw [BitVec.toNat_mul, BitVec.toNat_udiv]
    exact Nat.mod_eq_of_lt (hmul.trans_lt value.isLt)
  have hle : value / base * base ≤ value := by
    rw [BitVec.le_def, hprod]
    exact hmul
  rw [BitVec.toNat_sub_of_le hle, hprod]
  exact Nat.sub_eq_of_eq_add (by rw [Nat.add_comm]; exact (Nat.div_add_mod' _ _).symm)

/-- **The digits**, the last one first. -/
theorem pushDigits_eq (base : BitVec w) (h : 1 < base.toNat) {table : Bytes} {digit : ℕ → UInt8}
    (htable : ∀ d, d < base.toNat → table[d]? = some (digit d)) (s : Bytes) (value : BitVec w) :
    pushDigits base h table s value = s ++ (digits base.toNat value.toNat).map digit := by
  have hlast : ∀ value : BitVec w, table[(value - value / base * base).toNat]? =
      some (digit (value.toNat % base.toNat)) := by
    intro value
    rw [toNat_index]
    exact htable _ (mod_lt _ (zero_lt_of_lt h))
  fun_induction pushDigits base h table s value with
  | case1 s => simp
  | case2 s value hvalue index d hd ih =>
    have hpos : 0 < value.toNat :=
      pos_of_ne_zero fun hzero => hvalue (BitVec.eq_of_toNat_eq hzero)
    rw [hlast] at hd
    cases hd
    rw [ih, BitVec.toNat_udiv, digits_def' h hpos, map_cons, append_assoc]
    rfl
  | case3 s value hvalue index hnone =>
    rw [hlast] at hnone
    cases hnone

/-- The digits that the worker has for a format. -/
theorem table_fmtInt (fmt : FormatInt) {d : ℕ} (h : d < (fmtInt fmt).base) :
    (fmtInt fmt).table[d]? = some (fmt.digit d) := by
  have hlarge : ∀ fmt : FormatInt, fmt ≠ .hexSmall → fmt ≠ .hexSmallBare → ∀ d < 16,
      large[d]? = some (fmt.digit d) := by
    intro fmt h h' d hd
    rw [FormatInt.digit, if_neg (not_or.2 ⟨h, h'⟩)]
    interval_cases d <;> rfl
  have hsmall : ∀ fmt : FormatInt, fmt = .hexSmall ∨ fmt = .hexSmallBare → ∀ d < 16,
      small[d]? = some (fmt.digit d) := by
    intro fmt h d hd
    rw [FormatInt.digit, if_pos h]
    interval_cases d <;> rfl
  have hbase : (fmtInt fmt).base ≤ 16 := by cases fmt <;> decide
  cases fmt with
  | hexSmall => exact hsmall _ (.inl rfl) d (h.trans_le hbase)
  | hexSmallBare => exact hsmall _ (.inr rfl) d (h.trans_le hbase)
  | default | utf32 | binary | binaryBare | octal | octalBare | hex | hexBare =>
    exact hlarge _ (by decide) (by decide) d (h.trans_le hbase)

theorem base_fmtInt (fmt : FormatInt) : (fmtInt fmt).base = fmt.radix := by
  cases fmt <;> rfl

theorem typestring_fmtInt (fmt : FormatInt) : (fmtInt fmt).typestring.reverse = fmt.basePrefix := by
  cases fmt <;> rfl

theorem prestring_reverse (neg : Bool) (pre : PrefixNumber) :
    (prestring neg pre).reverse = prestring neg pre := by
  cases neg <;> cases pre <;> rfl

theorem toNat_precision (prec : BitVec u) :
    (if prec = -1 then 0 else prec).toNat = precision prec := by
  rw [precision]
  split <;> simp

/-- **What the worker makes**: the padding in front is there byte by byte from its end. -/
theorem formatInt_eq (hw : 8 ≤ w) (x : BitVec w) (neg : Bool) (fmt : FormatInt) (pre : PrefixNumber)
    (prec width : BitVec u) (align : Align) (fill : UInt32) :
    formatInt hw x neg fmt pre prec width align fill =
      let text := unpadded x.toNat neg fmt pre (precision prec)
      (copies (align.fills (width.toNat - text.length)).1 fill).reverse ++ text ++
        copies (align.fills (width.toNat - text.length)).2 fill := by
  have hdigits : (if x = 0 then (fmtInt fmt).table[0]?.toList
      else pushDigits (BitVec.ofNat w (fmtInt fmt).base) ((fmtInt fmt).one_lt_base hw)
        (fmtInt fmt).table [] x) = (numeral fmt x.toNat).reverse := by
    rw [numeral]
    by_cases hx : x = 0
    · rw [if_pos hx, hx, table_fmtInt fmt (zero_lt_of_lt (fmtInt fmt).one_lt)]
      rfl
    have hne : x.toNat ≠ 0 := fun hzero => hx (BitVec.eq_of_toNat_eq hzero)
    have htable : ∀ d, d < (BitVec.ofNat w (fmtInt fmt).base).toNat →
        (fmtInt fmt).table[d]? = some (fmt.digit d) := by
      intro d hd
      rw [Style.toNat_base hw] at hd
      exact table_fmtInt fmt hd
    rw [if_neg hx, if_neg hne, pushDigits_eq _ _ htable, Style.toNat_base hw, base_fmtInt,
      map_reverse, reverse_reverse, nil_append]
  have hbody : (extendDigits (numeral fmt x.toNat).reverse (precision prec) ++
      (fmtInt fmt).typestring ++ prestring neg pre).reverse =
        unpadded x.toNat neg fmt pre (precision prec) := by
    rw [extendDigits_eq, reverse_append, reverse_append, reverse_append,
      reverse_reverse, reverse_replicate, length_reverse, typestring_fmtInt,
      prestring_reverse, unpadded]
    simp only [append_assoc]
  have hlength := congrArg length hbody
  rw [length_reverse] at hlength
  rw [formatInt, hdigits, toNat_precision, pad_eq, hbody, hlength]

/-! ### When it is what it should be -/

/-- The bit that the first byte of an encoding has and the others have not. -/
theorem testBit_lead {x tag : UInt32} (h : tag.toNat.testBit 6 = true) :
    (x ||| tag).toUInt8.toNat.testBit 6 = true := by
  rw [UInt32.toNat_toUInt8, UInt32.toNat_or, testBit_mod_two_pow, testBit_or, h]
  simp

theorem testBit_continuation (x : UInt32) :
    ((x &&& 0x3F) ||| 0x80).toUInt8.toNat.testBit 6 = false := by
  rw [Builtin.toUInt8_continuation, UInt8.toNat_ofNat', testBit_mod_two_pow,
    testBit_eq_decide_div_mod_eq]
  simp
  omega

/-- The encoding of a code point is one byte, or begins with a byte that does not end it. -/
theorem reverse_fromUtf32 (fill : UInt32) :
    (fromUtf32 fill).reverse = fromUtf32 fill ↔ fill < 0x80 := by
  have hne : ∀ {a z : UInt8}, a.toNat.testBit 6 = true → z.toNat.testBit 6 = false → z ≠ a := by
    rintro a z ha hz rfl
    rw [ha] at hz
    cases hz
  have hlast : ∀ {l l' : Bytes} {a z : UInt8}, a.toNat.testBit 6 = true →
      z.toNat.testBit 6 = false → z :: l ≠ a :: l' := by
    intro l l' a z ha hz h
    exact hne ha hz (cons.inj h).1
  by_cases hone : fill < 0x80
  · refine iff_of_true ?_ hone
    rw [fromUtf32, if_pos hone]
    rfl
  refine iff_of_false ?_ hone
  rw [fromUtf32, if_neg hone]
  split
  · exact hlast (testBit_lead (by decide)) (testBit_continuation _)
  split
  · exact hlast (testBit_lead (by decide)) (testBit_continuation _)
  split
  · decide
  split
  · exact hlast (testBit_lead (by decide)) (testBit_continuation _)
  split
  · exact hlast (testBit_lead (by decide)) (testBit_continuation _)
  · decide

/-- A block of copies that is turned around. -/
theorem reverse_copies (n : ℕ) (fill : UInt32) :
    (copies n fill).reverse = copies n fill ↔ fill < 0x80 ∨ n = 0 := by
  have hreverse : (copies n fill).reverse = (replicate n (fromUtf32 fill).reverse).flatten := by
    rw [copies, reverse_flatten, map_replicate, reverse_replicate]
  rw [hreverse, copies]
  cases n with
  | zero => exact iff_of_true rfl (.inr rfl)
  | succ n =>
    rw [← reverse_fromUtf32, or_iff_left (succ_ne_zero n)]
    constructor
    · intro h
      rw [replicate_succ, replicate_succ, flatten_cons, flatten_cons] at h
      exact (append_inj h (length_reverse)).1
    · intro h
      rw [h]

/-- **What the methods make.** -/
theorem format_eq (W : Width) (x : BitVec W.bits) (neg : Bool) (pre : PrefixNumber)
    (prec width : BitVec u) (align : Align) (fill : UInt32) (hfmt : fmt ≠ .utf32) :
    W.format x neg fmt pre prec width align fill =
      let text := unpadded x.toNat neg fmt pre (precision prec)
      (copies (align.fills (width.toNat - text.length)).1 fill).reverse ++ text ++
        copies (align.fills (width.toNat - text.length)).2 fill := by
  cases W with
  | u8 => exact formatInt_eq (w := 8) (by decide) _ _ _ _ _ _ _ _
  | u16 => exact formatInt_eq (w := 16) (by decide) _ _ _ _ _ _ _ _
  | u32 => exact (if_neg hfmt).trans (formatInt_eq (w := 32) (by decide) _ _ _ _ _ _ _ _)
  | u64 => exact (if_neg hfmt).trans (formatInt_eq (w := 64) (by decide) _ _ _ _ _ _ _ _)
  | u128 => exact (if_neg hfmt).trans (formatInt_eq (w := 128) (by decide) _ _ _ _ _ _ _ _)

/-- **Which texts are what they should be**: those without padding in front, and those whose fill has
an encoding of one byte. -/
theorem format_exact_iff (W : Width) (x : BitVec W.bits) (neg : Bool) (fmt : FormatInt)
    (pre : PrefixNumber) (prec width : BitVec u) (align : Align) (fill : UInt32)
    (hfmt : fmt ≠ .utf32) : W.format x neg fmt pre prec width align fill =
        formatted x.toNat neg fmt pre (precision prec) width.toNat align fill ↔
      fill < 0x80 ∨
        (align.fills
          (width.toNat - (unpadded x.toNat neg fmt pre (precision prec)).length)).1 = 0 := by
  rw [format_eq W x neg pre prec width align fill hfmt, formatted, ← reverse_copies]
  simp only [append_left_inj]

end

/-- Five in a width of six, to the right, behind dots. -/
theorem format_dots : Width.format (u := 64) .u8 5#8 true .default .default (-1) 6 .right 0x2E =
    formatted 5 true .default .default 0 6 .right 0x2E :=
  (format_exact_iff .u8 5#8 true .default .default (-1) 6 .right 0x2E (by decide)).2
    (.inl (by decide))

/-- With `é` as the fill the two bytes of each are the wrong way round. -/
theorem format_accents : Width.format (u := 64) .u8 5#8 true .default .default (-1) 6 .right 0xE9 =
      [0xA9, 0xC3, 0xA9, 0xC3, 0xA9, 0xC3, 0xA9, 0xC3] ++ ascii "-5" ∧
    formatted 5 true .default .default 0 6 .right 0xE9 =
      [0xC3, 0xA9, 0xC3, 0xA9, 0xC3, 0xA9, 0xC3, 0xA9] ++ ascii "-5" := by
  have htext : unpadded 5 true .default .default 0 = ascii "-5" := by
    simp [unpadded, numeral, FormatInt.radix, FormatInt.digit, FormatInt.basePrefix, prestring,
      ascii]
  have hformat : Width.format (u := 64) .u8 5#8 true .default .default (-1) 6 .right 0xE9 =
      let text := unpadded 5 true .default .default 0
      (copies (Align.right.fills (6 - text.length)).1 0xE9).reverse ++ text ++
        copies (Align.right.fills (6 - text.length)).2 0xE9 :=
    format_eq .u8 5#8 true .default (-1) 6 .right 0xE9 (by decide)
  rw [hformat, formatted, htext]
  exact ⟨rfl, rfl⟩

end SpacePony.Format
