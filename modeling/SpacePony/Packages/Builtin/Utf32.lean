import Mathlib.Tactic

/-!
# Packages — builtin — code points of a string

`String.utf32`: the code point at an offset of a string, and the number of bytes it takes.  Where
the bytes are the encoding of a character it is that character (`utf32_encode`).
`String.from_utf32`: the string of one code point; the bytes of a character are its encoding
(`fromUtf32_char`).
-/

namespace SpacePony.Builtin

open Nat Option List
open String (utf8EncodeChar)

/-- `utf32`.  The arithmetic on `U32` neither overflows nor underflows there. -/
def utf32 (s : List UInt8) (i : Nat) : Option (Nat × Nat) := do
  let err : Nat × Nat := (0xFFFD, 1)
  let c ← s[i]?
  if c < 0x80 then
    some (c.toNat, 1)
  else if c < 0xC2 then
    some err
  else if c < 0xE0 then
    match s[i + 1]? with
    | none => some err
    | some c2 =>
      if (c2 &&& 0xC0) ≠ 0x80 then some err
      else some ((c.toNat <<< 6) + c2.toNat - 0x3080, 2)
  else if c < 0xF0 then
    match s[i + 1]?, s[i + 2]? with
    | some c2, some c3 =>
      if (c2 &&& 0xC0) ≠ 0x80 ∨ (c3 &&& 0xC0) ≠ 0x80 ∨ (c = 0xE0 ∧ c2 < 0xA0) then some err
      else some ((c.toNat <<< 12) + (c2.toNat <<< 6) + c3.toNat - 0xE2080, 3)
    | _, _ => some err
  else if c < 0xF5 then
    match s[i + 1]?, s[i + 2]?, s[i + 3]? with
    | some c2, some c3, some c4 =>
      if (c2 &&& 0xC0) ≠ 0x80 ∨ (c3 &&& 0xC0) ≠ 0x80 ∨ (c4 &&& 0xC0) ≠ 0x80 ∨
          (c = 0xF0 ∧ c2 < 0x90) ∨ (c = 0xF4 ∧ 0x90 ≤ c2) then some err
      else
        some ((c.toNat <<< 18) + (c2.toNat <<< 12) + (c3.toNat <<< 6) + c4.toNat - 0x3C82080, 4)
    | _, _, _ => some err
  else
    some err

/-- `_UTF32Encoder.encode`, as `from_utf32` takes the bytes of it. -/
def fromUtf32 (value : UInt32) : List UInt8 :=
  if value < 0x80 then [value.toUInt8]
  else if value < 0x800 then
    [((value >>> 6) ||| 0xC0).toUInt8, ((value &&& 0x3F) ||| 0x80).toUInt8]
  else if value < 0xD800 then
    [((value >>> 12) ||| 0xE0).toUInt8, (((value >>> 6) &&& 0x3F) ||| 0x80).toUInt8,
      ((value &&& 0x3F) ||| 0x80).toUInt8]
  else if value < 0xE000 then [0xEF, 0xBF, 0xBD]
  else if value < 0x10000 then
    [((value >>> 12) ||| 0xE0).toUInt8, (((value >>> 6) &&& 0x3F) ||| 0x80).toUInt8,
      ((value &&& 0x3F) ||| 0x80).toUInt8]
  else if value < 0x110000 then
    [((value >>> 18) ||| 0xF0).toUInt8, (((value >>> 12) &&& 0x3F) ||| 0x80).toUInt8,
      (((value >>> 6) &&& 0x3F) ||| 0x80).toUInt8, ((value &&& 0x3F) ||| 0x80).toUInt8]
  else [0xEF, 0xBF, 0xBD]

/-! ### Encodings -/

/-- The bytes of a text. -/
def encode (cs : List Char) : List UInt8 := cs.flatMap utf8EncodeChar

variable {x : Nat}

/-- A byte that continues an encoding. -/
theorem continuation (hx : x < 64) : (UInt8.ofNat (x + 0x80) &&& 0xC0) = 0x80 := by
  interval_cases x <;> rfl

theorem toNat_ofNat (hx : x < 256) : (UInt8.ofNat x).toNat = x := by
  rw [UInt8.toNat_ofNat']
  exact mod_eq_of_lt hx

theorem lt_iff (hx : x < 256) (b : UInt8) : UInt8.ofNat x < b ↔ x < b.toNat := by
  rw [UInt8.lt_iff_toNat_lt, toNat_ofNat hx]

theorem le_iff (hx : x < 256) (b : UInt8) : b ≤ UInt8.ofNat x ↔ b.toNat ≤ x := by
  rw [UInt8.le_iff_toNat_le, toNat_ofNat hx]

theorem eq_iff (hx : x < 256) (b : UInt8) : UInt8.ofNat x = b ↔ x = b.toNat := by
  rw [← UInt8.toNat_inj, toNat_ofNat hx]

/-- The byte 0xFF is in no encoding. -/
theorem notMem_encode (cs : List Char) : (0xFF : UInt8) ∉ encode cs := by
  intro h
  obtain ⟨c, -, hc⟩ := mem_flatMap.1 h
  have hne : ∀ x, x < 0xFF → (0xFF : UInt8) ≠ UInt8.ofNat x := by
    intro x hx he
    have := (eq_iff (by omega) 0xFF).1 he.symm
    exact absurd this (Nat.ne_of_lt hx)
  unfold utf8EncodeChar at hc
  simp only at hc
  split at hc
  · rw [mem_singleton] at hc
    exact hne _ (by omega) hc
  split at hc
  · simp only [mem_cons, not_mem_nil, or_false] at hc
    obtain hc | hc := hc <;> exact hne _ (by omega) hc
  split at hc
  · simp only [mem_cons, not_mem_nil, or_false] at hc
    obtain hc | hc | hc := hc <;> exact hne _ (by omega) hc
  · simp only [mem_cons, not_mem_nil, or_false] at hc
    obtain hc | hc | hc | hc := hc <;> exact hne _ (by omega) hc

section
variable {s : List UInt8} {i v : Nat}

theorem utf32_one (h0 : s[i]? = some (UInt8.ofNat v)) (hv : v ≤ 0x7F) : utf32 s i = some (v, 1) := by
  have hlt : v < 256 := by omega
  rw [utf32, h0]
  simp [lt_iff hlt, toNat_ofNat hlt]
  omega

theorem utf32_two (hv : 0x7F < v) (hv' : v ≤ 0x7FF)
    (h0 : s[i]? = some (UInt8.ofNat (v / 64 % 0x20 + 0xC0)))
    (h1 : s[i + 1]? = some (UInt8.ofNat (v % 0x40 + 0x80))) : utf32 s i = some (v, 2) := by
  have hc : v / 64 % 0x20 + 0xC0 < 256 := by omega
  have hc2 : v % 0x40 + 0x80 < 256 := by omega
  have hk2 := continuation (mod_lt v (by norm_num : 0 < 64))
  rw [utf32, h0, h1]
  simp only [bind_eq_bind, bind_some, lt_iff hc, toNat_ofNat hc, toNat_ofNat hc2, hk2]
  rw [if_neg (by simp), if_neg (by simp; omega), if_pos (by simp; omega), if_neg (by simp),
    shiftLeft_eq]
  have e : (v / 64 % 0x20 + 0xC0) * 2 ^ 6 + (v % 0x40 + 0x80) - 0x3080 = v := by omega
  rw [e]

/-- Three bytes of an encoding are decoded to its rune. -/
theorem utf32_three (hv : 0x7FF < v) (hv' : v ≤ 0xFFFF)
    (h0 : s[i]? = some (UInt8.ofNat (v / 4096 % 0x10 + 0xE0)))
    (h1 : s[i + 1]? = some (UInt8.ofNat (v / 64 % 0x40 + 0x80)))
    (h2 : s[i + 2]? = some (UInt8.ofNat (v % 0x40 + 0x80))) : utf32 s i = some (v, 3) := by
  have hc : v / 4096 % 0x10 + 0xE0 < 256 := by omega
  have hc2 : v / 64 % 0x40 + 0x80 < 256 := by omega
  have hc3 : v % 0x40 + 0x80 < 256 := by omega
  have hk2 := continuation (mod_lt (v / 64) (by norm_num : 0 < 64))
  have hk3 := continuation (mod_lt v (by norm_num : 0 < 64))
  rw [utf32, h0, h1, h2]
  simp only [bind_eq_bind, bind_some, lt_iff hc, lt_iff hc2, eq_iff hc,
    toNat_ofNat hc, toNat_ofNat hc2, toNat_ofNat hc3, hk2, hk3]
  rw [if_neg (by simp), if_neg (by simp), if_neg (by simp),
    if_pos (by simp; omega), if_neg (by simp; omega), shiftLeft_eq, shiftLeft_eq]
  have e : (v / 4096 % 0x10 + 0xE0) * 2 ^ 12 + (v / 64 % 0x40 + 0x80) * 2 ^ 6 +
      (v % 0x40 + 0x80) - 0xE2080 = v := by omega
  rw [e]

theorem utf32_four (hv : 0xFFFF < v) (hv' : v < 0x110000)
    (h0 : s[i]? = some (UInt8.ofNat (v / 262144 % 0x08 + 0xF0)))
    (h1 : s[i + 1]? = some (UInt8.ofNat (v / 4096 % 0x40 + 0x80)))
    (h2 : s[i + 2]? = some (UInt8.ofNat (v / 64 % 0x40 + 0x80)))
    (h3 : s[i + 3]? = some (UInt8.ofNat (v % 0x40 + 0x80))) : utf32 s i = some (v, 4) := by
  have hc : v / 262144 % 0x08 + 0xF0 < 256 := by omega
  have hc2 : v / 4096 % 0x40 + 0x80 < 256 := by omega
  have hc3 : v / 64 % 0x40 + 0x80 < 256 := by omega
  have hc4 : v % 0x40 + 0x80 < 256 := by omega
  have hk2 := continuation (mod_lt (v / 4096) (by norm_num : 0 < 64))
  have hk3 := continuation (mod_lt (v / 64) (by norm_num : 0 < 64))
  have hk4 := continuation (mod_lt v (by norm_num : 0 < 64))
  rw [utf32, h0, h1, h2, h3]
  simp only [bind_eq_bind, bind_some, lt_iff hc, lt_iff hc2, le_iff hc2, eq_iff hc,
    toNat_ofNat hc, toNat_ofNat hc2, toNat_ofNat hc3, toNat_ofNat hc4, hk2, hk3, hk4]
  rw [if_neg (by simp), if_neg (by simp), if_neg (by simp),
    if_neg (by simp), if_pos (by simp; omega), if_neg (by simp; omega), shiftLeft_eq,
    shiftLeft_eq, shiftLeft_eq]
  have e : (v / 262144 % 0x08 + 0xF0) * 2 ^ 18 + (v / 4096 % 0x40 + 0x80) * 2 ^ 12 +
      (v / 64 % 0x40 + 0x80) * 2 ^ 6 + (v % 0x40 + 0x80) - 0x3C82080 = v := by omega
  rw [e]

end

/-- **Decoding**: where the encoding of a character stands it is read. -/
theorem utf32_encode (pre rest : List UInt8) (c : Char) :
    utf32 (pre ++ (utf8EncodeChar c ++ rest)) pre.length =
      some (c.toNat, (utf8EncodeChar c).length) := by
  have hget : ∀ k, (pre ++ (utf8EncodeChar c ++ rest))[pre.length + k]? =
      (utf8EncodeChar c ++ rest)[k]? := by
    intro k
    rw [getElem?_append_right (by omega), Nat.add_sub_cancel_left]
  have hmax : c.toNat < 0x110000 := by
    have := c.valid
    rw [UInt32.isValidChar, Nat.isValidChar] at this
    show c.val.toNat < 0x110000
    omega
  have h0 := hget 0
  rw [Nat.add_zero] at h0
  generalize pre ++ (utf8EncodeChar c ++ rest) = s at h0 hget
  by_cases h7 : c.toNat ≤ 0x7F
  · have e : utf8EncodeChar c = [UInt8.ofNat c.toNat] := if_pos h7
    rw [e] at h0 ⊢
    exact utf32_one h0 h7
  by_cases h11 : c.toNat ≤ 0x7FF
  · have e : utf8EncodeChar c = [UInt8.ofNat (c.toNat / 64 % 0x20 + 0xC0),
        UInt8.ofNat (c.toNat % 0x40 + 0x80)] := (if_neg h7).trans (if_pos h11)
    rw [e] at h0 hget ⊢
    exact utf32_two (by omega) h11 h0 (hget 1)
  by_cases h16 : c.toNat ≤ 0xFFFF
  · have e : utf8EncodeChar c = [UInt8.ofNat (c.toNat / 4096 % 0x10 + 0xE0),
        UInt8.ofNat (c.toNat / 64 % 0x40 + 0x80), UInt8.ofNat (c.toNat % 0x40 + 0x80)] :=
      (if_neg h7).trans ((if_neg h11).trans (if_pos h16))
    rw [e] at h0 hget ⊢
    exact utf32_three (by omega) h16 h0 (hget 1) (hget 2)
  have e : utf8EncodeChar c = [UInt8.ofNat (c.toNat / 262144 % 0x08 + 0xF0),
      UInt8.ofNat (c.toNat / 4096 % 0x40 + 0x80), UInt8.ofNat (c.toNat / 64 % 0x40 + 0x80),
      UInt8.ofNat (c.toNat % 0x40 + 0x80)] :=
    (if_neg h7).trans ((if_neg h11).trans (if_neg h16))
  rw [e] at h0 hget ⊢
  exact utf32_four (by omega) hmax h0 (hget 1) (hget 2) (hget 3)

/-! ### The encoder -/

/-- A part of a code point, with the bits in front of it that an encoding has there. -/
theorem toUInt8_or {x tag : UInt32} (i a : Nat) (hx : x.toNat < 2 ^ i) (ht : tag.toNat = 2 ^ i * a) :
    (x ||| tag).toUInt8 = UInt8.ofNat (x.toNat + tag.toNat) := by
  have hor : x.toNat ||| tag.toNat = x.toNat + tag.toNat := by
    rw [ht, Nat.or_comm, Nat.add_comm]
    exact (Nat.two_pow_add_eq_or_of_lt hx a).symm
  rw [← UInt8.toNat_inj, UInt32.toNat_toUInt8, UInt32.toNat_or, hor, UInt8.toNat_ofNat']

theorem toNat_and_63 (x : UInt32) : (x &&& 0x3F).toNat = x.toNat % 0x40 := by
  rw [UInt32.toNat_and]
  exact and_two_pow_sub_one_eq_mod x.toNat 6

/-- A byte that continues an encoding. -/
theorem toUInt8_continuation (x : UInt32) :
    ((x &&& 0x3F) ||| 0x80).toUInt8 = UInt8.ofNat (x.toNat % 0x40 + 0x80) := by
  have h := toNat_and_63 x
  rw [toUInt8_or 6 2 (by rw [h]; omega) rfl, h]
  rfl

theorem toNat_shiftRight {x : UInt32} (k : UInt32) (hk : k.toNat < 32) :
    (x >>> k).toNat = x.toNat / 2 ^ k.toNat := by
  rw [UInt32.toNat_shiftRight, mod_eq_of_lt hk, shiftRight_eq_div_pow]

/-- **Encoding**: the string of the code point of a character is its encoding. -/
theorem fromUtf32_char (c : Char) : fromUtf32 c.val = utf8EncodeChar c := by
  have hvalid := c.valid
  rw [UInt32.isValidChar, Nat.isValidChar] at hvalid
  unfold fromUtf32 utf8EncodeChar
  generalize c.val = v at hvalid
  have h6 : (v >>> 6).toNat = v.toNat / 64 := toNat_shiftRight 6 (by decide)
  have h12 : (v >>> 12).toNat = v.toNat / 4096 := toNat_shiftRight 12 (by decide)
  have h18 : (v >>> 18).toNat = v.toNat / 262144 := toNat_shiftRight 18 (by decide)
  have hlt : ∀ k : UInt32, v < k ↔ v.toNat < k.toNat := fun k => UInt32.lt_iff_toNat_lt
  simp only [hlt, toUInt8_continuation, h6, h12]
  by_cases h7 : v.toNat ≤ 0x7F
  · rw [if_pos h7, if_pos (show v.toNat < (0x80 : UInt32).toNat from lt_succ_of_le h7)]
    rfl
  rw [if_neg h7, if_neg (show ¬ v.toNat < (0x80 : UInt32).toNat by simp; omega)]
  by_cases h11 : v.toNat ≤ 0x7FF
  · rw [if_pos h11, if_pos (show v.toNat < (0x800 : UInt32).toNat from lt_succ_of_le h11),
      toUInt8_or 5 6 (by omega) rfl, h6, mod_eq_of_lt (show v.toNat / 64 < 0x20 by omega)]
    rfl
  rw [if_neg h11, if_neg (show ¬ v.toNat < (0x800 : UInt32).toNat by simp; omega)]
  by_cases h16 : v.toNat ≤ 0xFFFF
  · have hlead : ((v >>> 12) ||| 0xE0).toUInt8 =
        UInt8.ofNat (v.toNat / 4096 % 0x10 + 0xE0) := by
      rw [toUInt8_or 4 14 (by omega) rfl, h12, mod_eq_of_lt (show v.toNat / 4096 < 0x10 by omega)]
      rfl
    rw [if_pos h16, hlead]
    by_cases hs : v.toNat < (0xD800 : UInt32).toNat
    · rw [if_pos hs]
    · rw [if_neg hs, if_neg (show ¬ v.toNat < (0xE000 : UInt32).toNat by simp at hs ⊢; omega),
        if_pos (show v.toNat < (0x10000 : UInt32).toNat by simp; omega)]
  rw [if_neg h16, if_neg (show ¬ v.toNat < (0xD800 : UInt32).toNat by simp; omega),
    if_neg (show ¬ v.toNat < (0xE000 : UInt32).toNat by simp; omega),
    if_neg (show ¬ v.toNat < (0x10000 : UInt32).toNat by simp; omega),
    if_pos (show v.toNat < (0x110000 : UInt32).toNat by simp; omega),
    toUInt8_or 3 30 (by omega) rfl, h18, mod_eq_of_lt (show v.toNat / 262144 < 0x08 by omega)]
  rfl

end SpacePony.Builtin
