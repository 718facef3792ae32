import SpacePony.Packages.Builtin.Utf32

/-!
# Packages — builtin — the characters of a string

`String.utf32` at any offset and `StringRunes`, against the encodings that `from_utf32` gives.  What
stands at an offset is decoded, unless it is the bytes of a surrogate (`utf32_decodes_iff`).
-/

namespace SpacePony.Builtin

open Option Nat List

/-- `offset_to_index`: a negative offset counts from the end. -/
def offsetToIndex (size : Nat) (i : Int) : Nat :=
  if i < 0 then ((i % 2 ^ 64).toNat + size) % 2 ^ 64 else i.toNat

/-- `isize` of a `USize` value. -/
def isize (i : Nat) : Int := if i < 2 ^ 63 then i else i - 2 ^ 64

/-- The encoding of a code point, a surrogate included. -/
def encodeNat (v : Nat) : List UInt8 :=
  if v ≤ 0x7F then [UInt8.ofNat v]
  else if v ≤ 0x7FF then [UInt8.ofNat (v / 64 % 0x20 + 0xC0), UInt8.ofNat (v % 0x40 + 0x80)]
  else if v ≤ 0xFFFF then [UInt8.ofNat (v / 4096 % 0x10 + 0xE0),
    UInt8.ofNat (v / 64 % 0x40 + 0x80), UInt8.ofNat (v % 0x40 + 0x80)]
  else [UInt8.ofNat (v / 262144 % 0x08 + 0xF0), UInt8.ofNat (v / 4096 % 0x40 + 0x80),
    UInt8.ofNat (v / 64 % 0x40 + 0x80), UInt8.ofNat (v % 0x40 + 0x80)]

theorem fromUtf32_eq (c : Char) : fromUtf32 c.val = encodeNat c.toNat := fromUtf32_char c

variable {s : List UInt8} {i v n : Nat}

theorem of_continuation {b : UInt8} (h : b &&& 0xC0 = 0x80) : 0x80 ≤ b.toNat ∧ b.toNat < 0xC0 := by
  have hall : ∀ n < 256, UInt8.ofNat n &&& 0xC0 = 0x80 → 0x80 ≤ n ∧ n < 0xC0 := by decide +kernel
  exact hall b.toNat b.toNat_lt (by simpa using h)

/-- A byte given by its value. -/
theorem ofNat_eq {x : Nat} {b : UInt8} (h : x = b.toNat) : UInt8.ofNat x = b := by
  rw [h, UInt8.ofNat_toNat]

/-- **What is decoded is encoded there**, or it is the replacement of one byte. -/
theorem utf32_decoded (h : utf32 s i = some (v, n)) : (v, n) = (0xFFFD, 1) ∨
    v < 0x110000 ∧ encodeNat v <+: s.drop i ∧ n = (encodeNat v).length := by
  have hdrop : ∀ {k : Nat} {b : UInt8}, s[k]? = some b → s.drop k = b :: s.drop (k + 1) := by
    intro k b hk
    rw [drop_eq_getElem?_toList_append, hk]
    rfl
  have hfound : ∀ {bs : List UInt8}, v < 0x110000 → encodeNat v = bs → bs <+: s.drop i →
      n = bs.length → (v, n) = (0xFFFD, 1) ∨
        v < 0x110000 ∧ encodeNat v <+: s.drop i ∧ n = (encodeNat v).length := by
    rintro bs hv rfl hs hn
    exact .inr ⟨hv, hs, hn⟩
  unfold utf32 at h
  simp only [bind_eq_bind, bind_eq_some_iff, UInt8.lt_iff_toNat_lt, UInt8.le_iff_toNat_le] at h
  obtain ⟨c, hc, h⟩ := h
  have hd := hdrop hc
  split at h
  · rename_i h1
    obtain ⟨rfl, rfl⟩ := Prod.mk.inj (some.inj h)
    have h1 : c.toNat < 0x80 := h1
    refine @hfound [c] (by omega) ?_ ⟨_, hd.symm⟩ rfl
    rw [encodeNat, if_pos (by omega), UInt8.ofNat_toNat]
  split at h
  · exact .inl (some.inj h).symm
  rename_i hlow
  have hlow : ¬ c.toNat < 0xC2 := hlow
  split at h
  · rename_i htop
    have htop : c.toNat < 0xE0 := htop
    split at h
    · exact .inl (some.inj h).symm
    rename_i c2 hc2
    split at h
    · exact .inl (some.inj h).symm
    rename_i hk
    have hk2 := of_continuation (not_not.1 hk)
    obtain ⟨rfl, rfl⟩ := Prod.mk.inj (some.inj h)
    rw [hdrop hc2] at hd
    rw [shiftLeft_eq] at *
    refine @hfound [c, c2] (by omega) ?_ ⟨_, hd.symm⟩ rfl
    rw [encodeNat, if_neg (by omega), if_pos (by omega),
      ofNat_eq (b := c) (by omega), ofNat_eq (b := c2) (by omega)]
  split at h
  · rename_i hmid htop
    have hmid : ¬ c.toNat < 0xE0 := hmid
    have htop : c.toNat < 0xF0 := htop
    split at h
    · rename_i c2 c3 hc2 hc3
      split at h
      · exact .inl (some.inj h).symm
      rename_i hk
      simp only [not_or, not_not, ← UInt8.toNat_inj (a := c)] at hk
      have hk2 := of_continuation hk.1
      have hk3 := of_continuation hk.2.1
      have hover : ¬ (c.toNat = 0xE0 ∧ c2.toNat < 0xA0) := hk.2.2
      obtain ⟨rfl, rfl⟩ := Prod.mk.inj (some.inj h)
      rw [hdrop hc2, hdrop hc3] at hd
      rw [shiftLeft_eq, shiftLeft_eq] at *
      refine @hfound [c, c2, c3] (by omega) ?_ ⟨_, hd.symm⟩ rfl
      rw [encodeNat, if_neg (by omega), if_neg (by omega), if_pos (by omega),
        ofNat_eq (b := c) (by omega), ofNat_eq (b := c2) (by omega), ofNat_eq (b := c3) (by omega)]
    · exact .inl (some.inj h).symm
  split at h
  · rename_i hmid htop
    have hmid : ¬ c.toNat < 0xF0 := hmid
    have htop : c.toNat < 0xF5 := htop
    split at h
    · rename_i c2 c3 c4 hc2 hc3 hc4
      split at h
      · exact .inl (some.inj h).symm
      rename_i hk
      simp only [not_or, not_not, ← UInt8.toNat_inj (a := c)] at hk
      have hk2 := of_continuation hk.1
      have hk3 := of_continuation hk.2.1
      have hk4 := of_continuation hk.2.2.1
      have hover : ¬ (c.toNat = 0xF0 ∧ c2.toNat < 0x90) := hk.2.2.2.1
      have hmax : ¬ (c.toNat = 0xF4 ∧ 0x90 ≤ c2.toNat) := hk.2.2.2.2
      obtain ⟨rfl, rfl⟩ := Prod.mk.inj (some.inj h)
      rw [hdrop hc2, hdrop hc3, hdrop hc4] at hd
      rw [shiftLeft_eq, shiftLeft_eq, shiftLeft_eq] at *
      refine @hfound [c, c2, c3, c4] (by omega) ?_ ⟨_, hd.symm⟩ rfl
      rw [encodeNat, if_neg (by omega), if_neg (by omega), if_neg (by omega),
        ofNat_eq (b := c) (by omega), ofNat_eq (b := c2) (by omega),
        ofNat_eq (b := c3) (by omega), ofNat_eq (b := c4) (by omega)]
    · exact .inl (some.inj h).symm
  · exact .inl (some.inj h).symm

/-- What decoding at an index is to give: the code point whose encoding stands there, or the
replacement character for one byte. -/
def Decodes (s : List UInt8) (i : Nat) (r : Nat × Nat) : Prop :=
  (∃ c : Char, fromUtf32 c.val <+: s.drop i ∧ r = (c.toNat, (fromUtf32 c.val).length)) ∨
    (¬∃ c : Char, fromUtf32 c.val <+: s.drop i) ∧ r = (0xFFFD, 1)

/-- The bytes that a surrogate would have stand at an index. -/
def Surrogate (s : List UInt8) (i : Nat) : Prop :=
  ∃ c2 c3, [0xED, c2, c3] <+: s.drop i ∧ 0xA0 ≤ c2 ∧ c2 < 0xC0 ∧ 0x80 ≤ c3 ∧ c3 < 0xC0

theorem utf32_of_encoding {c : Char} (h : fromUtf32 c.val <+: s.drop i) :
    utf32 s i = some (c.toNat, (fromUtf32 c.val).length) := by
  obtain ⟨rest, hrest⟩ := h
  have hne : i < s.length := by
    by_contra hge
    rw [drop_eq_nil_of_le (by omega), append_eq_nil_iff, fromUtf32_char] at hrest
    exact absurd hrest.1 String.utf8EncodeChar_ne_nil
  have hs := utf32_encode (s.take i) rest c
  rwa [← fromUtf32_char, hrest, take_append_drop, length_take_of_le hne.le] at hs

theorem encodeNat_surrogate (hlo : 0xD800 ≤ v) (hhi : v < 0xE000) :
    encodeNat v = [0xED, UInt8.ofNat (v / 64 % 0x40 + 0x80), UInt8.ofNat (v % 0x40 + 0x80)] := by
  rw [encodeNat, if_neg (by omega), if_neg (by omega), if_pos (by omega),
    ofNat_eq (b := 0xED) (show v / 4096 % 0x10 + 0xE0 = 0xED by omega)]

/-- A code point that is no character is a surrogate. -/
theorem char_or_surrogate (hv : v < 0x110000) :
    (∃ c : Char, c.toNat = v) ∨ 0xD800 ≤ v ∧ v < 0xE000 := by
  by_cases h : v < 0xD800 ∨ 0xDFFF < v ∧ v < 0x110000
  · exact .inl ⟨Char.ofNat v, by rw [Char.ofNat, dif_pos (show v.isValidChar from h)]; rfl⟩
  · exact .inr (by omega)

/-- The bytes of a surrogate are decoded. -/
theorem utf32_surrogate (h : Surrogate s i) :
    ∃ v, 0xD800 ≤ v ∧ v < 0xE000 ∧ utf32 s i = some (v, 3) := by
  obtain ⟨c2, c3, ⟨rest, h⟩, hlo, hhi, hlo', hhi'⟩ := h
  rw [UInt8.le_iff_toNat_le] at hlo hlo'
  rw [UInt8.lt_iff_toNat_lt] at hhi hhi'
  simp at hlo hhi hlo' hhi'
  have hget : ∀ k, s[i + k]? = ([0xED, c2, c3] ++ rest)[k]? := fun k => by rw [h, getElem?_drop]
  refine ⟨0xD000 + (c2.toNat - 0x80) * 64 + (c3.toNat - 0x80), by omega, by omega,
    utf32_three (by omega) (by omega) ?_ ?_ ?_⟩
  · rw [ofNat_eq (b := 0xED) (by simp; omega)]
    exact hget 0
  · rw [ofNat_eq (b := c2) (by omega)]
    exact hget 1
  · rw [ofNat_eq (b := c3) (by omega)]
    exact hget 2

/-- **Decoding is the inverse of encoding** where no bytes of a surrogate stand. -/
theorem decodes_iff {r : Nat × Nat} (h : utf32 s i = some r) : Decodes s i r ↔ ¬Surrogate s i := by
  constructor
  · intro hd hs
    obtain ⟨v, hlo, hhi, hv⟩ := utf32_surrogate hs
    cases h.symm.trans hv
    rcases hd with ⟨c, -, hc⟩ | ⟨-, hc⟩
    · have hvalid := c.valid
      have hc : v = c.val.toNat := (Prod.mk.inj hc).1
      rw [UInt32.isValidChar, Nat.isValidChar] at hvalid
      omega
    · cases hc
  intro hs
  obtain ⟨v, n⟩ := r
  by_cases hex : ∃ c : Char, fromUtf32 c.val <+: s.drop i
  · obtain ⟨c, hc⟩ := hex
    exact .inl ⟨c, hc, Option.some.inj (h.symm.trans (utf32_of_encoding hc))⟩
  rcases utf32_decoded h with herr | ⟨hv, henc, hn⟩
  · exact .inr ⟨hex, herr⟩
  rcases char_or_surrogate hv with ⟨c, rfl⟩ | ⟨hlo, hhi⟩
  · exact absurd ⟨c, fromUtf32_eq c ▸ henc⟩ hex
  rw [encodeNat_surrogate hlo hhi] at henc
  refine absurd ⟨_, _, henc, ?_, ?_, ?_, ?_⟩ hs
  · exact (le_iff (by omega) _).2 (by simp; omega)
  · exact (lt_iff (by omega) _).2 (by simp; omega)
  · exact (le_iff (by omega) _).2 (by simp)
  · exact (lt_iff (by omega) _).2 (by simp; omega)

/-! ### Runes -/

theorem utf32_pos (h : utf32 s i = some (v, n)) : 0 < n := by
  rcases utf32_decoded h with herr | ⟨-, -, rfl⟩
  · cases herr
    exact one_pos
  unfold encodeNat
  split
  · exact one_pos
  split
  · exact two_pos
  split <;> exact succ_pos _

/-- `StringRunes` from an index on: each code point with the bytes it is read from. -/
def runes (s : List UInt8) (i : Nat) : Option (List (Nat × List UInt8)) :=
  if i < s.length then
    match _h : utf32 s (offsetToIndex s.length (isize i)) with
    | none => none
    | some (rune, len) => (runes s (i + len)).map ((rune, (s.drop i).take len) :: ·)
  else some []
termination_by s.length - i
decreasing_by
  have := utf32_pos _h
  omega

theorem exists_utf32 (h : i < s.length) : ∃ r, utf32 s i = some r := by
  unfold utf32
  rw [getElem?_eq_getElem h]
  simp only [bind_eq_bind, bind_some]
  repeat' first | exact ⟨_, rfl⟩ | split

theorem offsetToIndex_isize (h : i < 2 ^ 63) : offsetToIndex n (isize i) = i := by
  rw [isize, if_pos h, offsetToIndex, if_neg (by omega), Int.toNat_natCast]

/-- The runes of a string are read from consecutive pieces of it. -/
theorem exists_runes (hs : s.length < 2 ^ 63) (i : Nat) :
    ∃ rs, runes s i = some rs ∧ (rs.map Prod.snd).flatten = s.drop i := by
  -- on what is left of the string: a rune takes a byte at least
  induction hk : s.length - i using Nat.strong_induction_on generalizing i with
  | _ k ih =>
    rw [runes]
    split
    · rename_i hi
      rw [offsetToIndex_isize (by omega)]
      split
      · rename_i hnone
        obtain ⟨r, hr⟩ := exists_utf32 hi
        cases hr.symm.trans hnone
      rename_i rune len hr
      have hpos := utf32_pos hr
      obtain ⟨rs, hrs, hflat⟩ := ih _ (by omega) (i + len) rfl
      refine ⟨_, by rw [hrs]; rfl, ?_⟩
      rw [map_cons, flatten_cons, hflat, ← drop_drop, take_append_drop]
    · exact ⟨[], rfl, (drop_eq_nil_of_le (by omega)).symm⟩

/-- The index that an offset in range stands for. -/
theorem offsetToIndex_of_range {offset : Int} (hs : n < 2 ^ 63) (hlo : -n ≤ offset)
    (hhi : offset < n) : (offsetToIndex n offset : Int) = offset % n := by
  rw [offsetToIndex]
  split
  · have hmod : offset % n = offset + n := by
      rw [← Int.add_emod_right, Int.emod_eq_of_lt (by omega) (by omega)]
    omega
  · rw [Int.emod_eq_of_lt (by omega) (by omega)]
    omega

/-- **Decoding and encoding.**  For every string and every offset in range: every character is
decoded from its encoding, `utf32` gives the character whose encoding stands at the offset, or the
replacement character and one byte where there is none, and the runes are read off consecutive
pieces of the string, all of it; this holds if and only if the bytes of no surrogate stand at the
offset. -/
theorem utf32_decodes_iff (s : List UInt8) (hs : s.length < 2 ^ 63) (offset : Int)
    (hlo : -s.length ≤ offset) (hhi : offset < s.length) :
    ((∀ c : Char, utf32 (fromUtf32 c.val) (offsetToIndex (fromUtf32 c.val).length 0) =
        some (c.toNat, (fromUtf32 c.val).length)) ∧
      (∃ r, utf32 s (offsetToIndex s.length offset) = some r ∧
        Decodes s (offset % s.length).toNat r) ∧
      ∃ rs, runes s 0 = some rs ∧ (rs.map Prod.snd).flatten = s) ↔
    ¬Surrogate s (offset % s.length).toNat := by
  have hindex := offsetToIndex_of_range hs hlo hhi
  rw [← hindex, Int.toNat_natCast]
  have hlt : offsetToIndex s.length offset < s.length := by
    have := Int.emod_lt_of_pos offset (show (0 : Int) < s.length by omega)
    omega
  obtain ⟨r, hr⟩ := exists_utf32 hlt
  constructor
  · rintro ⟨-, ⟨r', hr', hd⟩, -⟩
    exact (decodes_iff hr').1 hd
  intro h
  refine ⟨fun c => ?_, ⟨r, hr, (decodes_iff hr).2 h⟩, ?_⟩
  · exact utf32_of_encoding ⟨[], append_nil _⟩
  · simpa using exists_runes hs 0

/-- Three bytes of one rune, found from the end by a negative offset. -/
theorem utf32_decodes_euro : ∃ r, utf32 [0xE2, 0x82, 0xAC] (offsetToIndex 3 (-3)) = some r ∧
    Decodes [0xE2, 0x82, 0xAC] 0 r :=
  ((utf32_decodes_iff [0xE2, 0x82, 0xAC] (by decide) (-3) (by decide) (by decide)).2 <| by
    rintro ⟨c2, c3, ⟨rest, h⟩, -⟩
    cases h).2.1

/-- The bytes ED A0 80 are decoded as the surrogate D800. -/
theorem utf32_decodes_surrogate : ¬∃ r, utf32 [0xED, 0xA0, 0x80] (offsetToIndex 3 0) = some r ∧
    Decodes [0xED, 0xA0, 0x80] 0 r := by
  rintro ⟨r, hr, hd⟩
  exact (decodes_iff hr).1 hd ⟨0xA0, 0x80, ⟨[], rfl⟩, by decide⟩

end SpacePony.Builtin
