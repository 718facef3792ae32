import Mathlib.Data.Nat.Digits.Lemmas
import SpacePony.Packages.Json.Documents

/-!
# Packages — json — printing

`_json_print.pony` with the conversion of integers in `_to_string.pony`: the compact and the pretty
form of a value.  A method is given the buffer that it appends to.  The text of an integer is the
one that is printed (`i64String_eq`), and what it denotes is the integer, where that has at most
eighteen digits (`value_ofInt64`).
-/

namespace SpacePony.Json

open Nat List

/-! ### Integers -/

/-- The loop of `_ToString._u64`.  A `U64` has at most twenty digits. -/
def u64Loop : Nat → Nat → Bytes → Bytes
  | 0, _, s => s
  | fuel + 1, value, s =>
    if value = 0 then s
    else u64Loop fuel (value / 10) (s ++ [0x30 + UInt8.ofNat (value - value / 10 * 10)])

/-- `_ToString._u64`. -/
def toStringU64 (x : Nat) (neg : Bool) : Bytes :=
  let s := if x = 0 then [zero] else u64Loop 20 x []
  (if neg then s ++ [minus] else s).reverse

/-- `I64.abs`, as a `U64`. -/
def i64Abs (n : Int64) : UInt64 := if n < 0 then (-n).toUInt64 else n.toUInt64

/-- `I64.string`. -/
def i64String (n : Int64) : Bytes := toStringU64 (i64Abs n).toNat (n < 0)

/-! ### Strings -/

/-- `_hex_char`. -/
def hexChar (nibble : UInt8) : UInt8 := if nibble < 10 then 0x30 + nibble else 0x61 + (nibble - 10)

/-- What `_escaped_string` appends for a byte. -/
def escapeByte (c : UInt8) : Bytes :=
  if c = quote then [backslash, quote]
  else if c = backslash then [backslash, backslash]
  else if c = 0x08 then [backslash, 0x62]
  else if c = 0x0C then [backslash, 0x66]
  else if c = 0x0A then [backslash, 0x6E]
  else if c = 0x0D then [backslash, 0x72]
  else if c = 0x09 then [backslash, 0x74]
  else if c < 0x20 then
    [backslash, 0x75, 0x30, 0x30, hexChar ((c >>> 4) &&& 0x0F), hexChar (c &&& 0x0F)]
  else [c]

/-- `_escaped_string`. -/
def escapedString (buf s : Bytes) : Bytes :=
  s.foldl (fun b c => b ++ escapeByte c) (buf ++ [quote]) ++ [quote]

/-! ### Values -/

/-- `_indent`. -/
def indentBy (buf indent : Bytes) : Nat → Bytes
  | 0 => buf
  | level + 1 => indentBy (buf ++ indent) indent level

/-- `_float`, with the text of the number. -/
def printFloat (buf s : Bytes) : Bytes :=
  if ¬ [0x2E] <:+: s ∧ ¬ [0x65] <:+: s ∧ ¬ [0x45] <:+: s ∧ ¬ [0x69, 0x6E, 0x66] <:+: s ∧
      ¬ [0x6E, 0x61, 0x6E] <:+: s then
    buf ++ s ++ [0x2E, 0x30]
  else buf ++ s

section
variable (f64String : Float → Bytes) (indent : Bytes) (isPretty : Bool)

/-- A new line, where the form is the pretty one. -/
def newLine (buf : Bytes) (level : Nat) : Bytes :=
  if isPretty then indentBy (buf ++ [0x0A]) indent level else buf

mutual

/-- `_value`, `_object` and `_array`. -/
def printValue (buf : Bytes) (level : Nat) : JsonValue → Bytes
  | .object [] => buf ++ [openBrace] ++ [closeBrace]
  | .object (e :: data) =>
    newLine indent isPretty (printPairs (buf ++ [openBrace]) level true (e :: data)) level ++
      [closeBrace]
  | .array [] => buf ++ [openBracket] ++ [closeBracket]
  | .array (v :: data) =>
    newLine indent isPretty (printValues (buf ++ [openBracket]) level true (v :: data)) level ++
      [closeBracket]
  | .string s => escapedString buf s
  | .i64 n => buf ++ i64String n
  | .f64 x => printFloat buf (f64String x)
  | .bool b => buf ++ if b then [0x74, 0x72, 0x75, 0x65] else [0x66, 0x61, 0x6C, 0x73, 0x65]
  | .null => buf ++ [0x6E, 0x75, 0x6C, 0x6C]

/-- The loop of `_object`. -/
def printPairs (buf : Bytes) (level : Nat) (first : Bool) : List (Bytes × JsonValue) → Bytes
  | [] => buf
  | (k, v) :: data =>
    let b := if first then buf else buf ++ [comma]
    let b := escapedString (newLine indent isPretty b (level + 1)) k ++ [colon]
    let b := if isPretty then b ++ [0x20] else b
    printPairs (printValue b (level + 1) v) level false data

/-- The loop of `_array`. -/
def printValues (buf : Bytes) (level : Nat) (first : Bool) : List JsonValue → Bytes
  | [] => buf
  | v :: data =>
    let b := if first then buf else buf ++ [comma]
    let b := newLine indent isPretty b (level + 1)
    printValues (printValue b (level + 1) v) level false data

end

end

/-- `_JsonPrint.compact`. -/
def compact (f64String : Float → Bytes) (value : JsonValue) : Bytes :=
  printValue f64String [] false [] 0 value

/-- `_JsonPrint.pretty`. -/
def pretty (f64String : Float → Bytes) (value : JsonValue) (indent : Bytes) : Bytes :=
  printValue f64String indent true [] 0 value

/-! ### Digits -/

variable (n : Int64)

theorem toNat_i64Abs : (i64Abs n).toNat = n.toInt.natAbs := by
  have hdef : n.toInt = n.toBitVec.toInt := rfl
  have hneg : n < 0 ↔ n.toInt < 0 := by
    rw [Int64.lt_iff_toInt_lt]
    rfl
  unfold i64Abs
  split
  · next h =>
      rw [hneg, hdef, BitVec.toInt_eq_toNat_cond] at h
      rw [hdef, BitVec.toInt_eq_toNat_cond]
      have e : (-n).toUInt64.toNat = (-n.toBitVec).toNat := rfl
      rw [e, BitVec.toNat_neg]
      split at h
      · omega
      · rw [if_neg (by assumption)]
        omega
  next h =>
    rw [hneg, hdef, BitVec.toInt_eq_toNat_cond] at h
    rw [hdef, BitVec.toInt_eq_toNat_cond]
    have e : n.toUInt64.toNat = n.toBitVec.toNat := rfl
    rw [e]
    split at h
    · rw [if_pos (by assumption)]
      omega
    · omega

/-- The digit of a number. -/
def digitChar (d : Nat) : UInt8 := 0x30 + UInt8.ofNat d

theorem u64Loop_eq {fuel value : Nat} (h : value < 10 ^ fuel) (s : Bytes) :
    u64Loop fuel value s = s ++ (digits 10 value).map digitChar := by
  induction fuel generalizing value s with
  | zero =>
    have hz : value = 0 := by omega
    subst hz
    simp [u64Loop]
  | succ fuel ih =>
    rw [u64Loop]
    by_cases hz : value = 0
    · subst hz
      simp
    rw [if_neg hz, ih (by omega), digits_def' (by decide) (pos_of_ne_zero hz)]
    have hmod : value - value / 10 * 10 = value % 10 := by omega
    rw [hmod, append_assoc]
    rfl

/-- The digits of a number, the highest first. -/
def digitsText (m : Nat) : Bytes :=
  if m = 0 then [zero] else ((digits 10 m).map digitChar).reverse

theorem toStringU64_eq {x : Nat} (hx : x < 10 ^ 20) (neg : Bool) :
    toStringU64 x neg = signText neg ++ digitsText x := by
  rw [toStringU64, digitsText, u64Loop_eq hx]
  by_cases hz : x = 0
  · cases neg <;> simp [hz, signText]
  · cases neg <;> simp [hz, signText]

theorem isDigit_digitChar {d : Nat} (hd : d < 10) :
    isDigit (digitChar d) = true ∧ (digit (digitChar d)).toNat = d := by
  interval_cases d <;> exact ⟨rfl, rfl⟩

theorem digits_digitsText (m : Nat) : Digits (digitsText m) := by
  unfold digitsText
  split
  · refine ⟨nofun, fun c hc => ?_⟩
    rw [mem_singleton.1 hc]
    rfl
  next hm =>
    refine ⟨by simpa [digits_eq_nil_iff_eq_zero] using hm, fun c hc => ?_⟩
    rw [mem_reverse, mem_map] at hc
    obtain ⟨d, hd, rfl⟩ := hc
    exact (isDigit_digitChar (digits_lt_base (by decide) hd)).1

theorem decimal_map_reverse {l : List Nat} (h : ∀ d ∈ l, d < 10) :
    decimal (l.map digitChar).reverse = ofDigits 10 l := by
  induction l with
  | nil => rfl
  | cons d l ih =>
    have hd := h d (.head _)
    have ih := ih fun d' hd' => h d' (.tail _ hd')
    rw [decimal] at ih
    rw [decimal, map_cons, reverse_cons, foldl_append, ih, foldl_cons,
      foldl_nil, (isDigit_digitChar hd).2, ofDigits_cons]
    omega

theorem decimal_digitsText (m : Nat) : decimal (digitsText m) = m := by
  unfold digitsText
  split
  · next hm =>
      subst hm
      rfl
  · rw [decimal_map_reverse fun d hd => digits_lt_base (by decide) hd, ofDigits_digits]

theorem leading_digitsText {m : Nat} (h : (digitsText m).head? = some zero) :
    (digitsText m).length = 1 := by
  unfold digitsText at h ⊢
  split at h
  · next hm => rw [if_pos hm]; rfl
  next hm =>
    exfalso
    have hne : digits 10 m ≠ [] := digits_ne_nil_iff_ne_zero.2 hm
    rw [head?_reverse, getLast?_map, getLast?_eq_some_getLast hne] at h
    have hlast := getLast_digit_ne_zero 10 hm
    have hlt := digits_lt_base (by decide : 1 < 10) (getLast_mem hne)
    have hchar : digitChar ((digits 10 m).getLast hne) = zero := Option.some.inj h
    have hval := (isDigit_digitChar hlt).2
    rw [hchar] at hval
    exact hlast hval.symm

theorem length_digitsText (m : Nat) : (digitsText m).length ≤ 18 ↔ m < 10 ^ 18 := by
  unfold digitsText
  split
  · next hm => subst hm; simp
  · rw [length_reverse, length_map, digits_length_le_iff (by decide)]

/-- The number that is printed for an integer. -/
def NumberText.ofInt64 (n : Int64) : NumberText where
  negative := n < 0
  int := digitsText n.toInt.natAbs

theorem NumberText.wf_ofInt64 : (ofInt64 n).Wf :=
  ⟨digits_digitsText _, leading_digitsText, nofun, nofun⟩

theorem natAbs_toInt_le : n.toInt.natAbs ≤ 2 ^ 63 := by
  have h₁ := n.le_toInt
  have h₂ := n.toInt_lt
  omega

/-- An `I64` prints as the number text of the grammar. -/
theorem i64String_eq : i64String n = (NumberText.ofInt64 n).text := by
  have hlt : n.toInt.natAbs < 10 ^ 20 := (natAbs_toInt_le n).trans_lt (by norm_num)
  rw [i64String, toNat_i64Abs, toStringU64_eq hlt]
  simp [NumberText.text, NumberText.ofInt64, signText, fracText, expText]

theorem integer_ofInt64 : (NumberText.ofInt64 n).integer = n.toInt := by
  have hneg : n < 0 ↔ n.toInt < 0 := by
    rw [Int64.lt_iff_toInt_lt]
    rfl
  rw [NumberText.integer, NumberText.ofInt64, decimal_digitsText]
  by_cases h : n < 0
  · rw [if_pos (decide_eq_true h)]
    have := hneg.1 h
    omega
  rw [if_neg (by simpa using h)]
  have := mt hneg.2 h
  omega

/-- An integer is read as it was printed, where it has at most eighteen digits. -/
theorem value_ofInt64 : (NumberText.ofInt64 n).value = if n.toInt.natAbs < 10 ^ 18 then .i64 n
      else .f64 (NumberText.ofInt64 n).float := by
  have hlen : (NumberText.ofInt64 n).int.length ≤ 18 ↔ n.toInt.natAbs < 10 ^ 18 :=
    length_digitsText _
  rw [NumberText.value, integer_ofInt64, Int64.ofInt_toInt]
  by_cases h : n.toInt.natAbs < 10 ^ 18
  · rw [if_pos h, if_pos ⟨rfl, rfl, hlen.2 h⟩]
  · rw [if_neg h, if_neg fun hc => h (hlen.1 hc.2.2)]

end SpacePony.Json
