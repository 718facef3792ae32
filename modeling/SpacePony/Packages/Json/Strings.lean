import SpacePony.Packages.Json.Leaves

/-!
# Packages — json — strings

What `_parse_string` reads, and that it reads every string of the grammar.

* `readHex4_sound`, `readHex4_complete`: the four digits of an escape.
* `stringLoop_sound`, `stringLoop_complete`: the inside of a string.
* `parseString_sound`, `parseString_complete`: a string, and the token that is emitted for it.
-/

namespace SpacePony.Json

open UInt32 Nat List Raise Builtin

variable {N : Type} (notify : N → Event → N × Bool) {p : JsonTokenParser N}

/-! ### Hexadecimal digits -/

theorem hexDigit_lt {c : UInt8} {d : UInt32} (h : hexDigit c = some d) : d.toNat < 16 := by
  have hsub : ∀ {a b : UInt8}, a ≤ c → c ≤ b → (c - a).toUInt32.toNat ≤ b.toNat - a.toNat := by
    intro a b ha hb
    rw [UInt8.toNat_toUInt32, UInt8.toNat_sub_of_le _ _ ha]
    have := UInt8.le_iff_toNat_le.1 hb
    omega
  unfold hexDigit at h
  split at h
  · next hc =>
      cases h
      exact lt_of_le_of_lt (hsub hc.1 hc.2) (by decide)
  split at h
  · next hc =>
      cases h
      have h1 : (c - 0x61).toUInt32.toNat ≤ 5 := hsub hc.1 hc.2
      rw [UInt32.toNat_add]
      have h2 : (10 : UInt32).toNat = 10 := rfl
      omega
  split at h
  · next hc =>
      cases h
      have h1 : (c - 0x41).toUInt32.toNat ≤ 5 := hsub hc.1 hc.2
      rw [UInt32.toNat_add]
      have h2 : (10 : UInt32).toNat = 10 := rfl
      omega
  · cases h

/-- One more digit. -/
theorem toNat_shift_or {r d : UInt32} {n : Nat} (hr : r.toNat < n) (hn : n ≤ 2 ^ 28)
    (hd : d.toNat < 16) : ((r <<< 4) ||| d).toNat = r.toNat * 16 + d.toNat := by
  have hshift : (r <<< 4).toNat = 2 ^ 4 * r.toNat := by
    rw [UInt32.toNat_shiftLeft]
    show r.toNat <<< 4 % 2 ^ 32 = _
    rw [shiftLeft_eq, mod_eq_of_lt (by omega)]
    omega
  rw [UInt32.toNat_or, hshift, ← two_pow_add_eq_or_of_lt hd]
  omega

section
variable {Q : UInt32 → JsonTokenParser N → Prop} {E : Failure → JsonTokenParser N → Prop}

theorem ends_hexLoop_succ {i : Nat} {result : UInt32}
    (hok : ∀ c s d, p.rest = c :: s → hexDigit c = some d → ∀ p', Emits notify [] p p' →
      p'.rest = s → Ends (hexLoop i ((result <<< 4) ||| d)) Q E p')
    (herr : ∀ p', (p.rest = [] ∨ ∃ c s, p.rest = c :: s ∧ hexDigit c = none) → Emits notify [] p p' →
      E .error p') : Ends (hexLoop (i + 1) result) Q E p := by
  rw [hexLoop]
  refine ends_bind (ends_next (fun c s hs => ?_) fun hnil => herr p (.inl hnil) (Emits.refl p))
  cases hd : hexDigit c with
  | none => exact ends_throw (herr _ (.inr ⟨c, s, hs, hd⟩) (emits_pass c))
  | some d => exact hok c s d hs hd _ (emits_pass c) (rest_pass c hs)

end

/-- The value of four digits, one after the other. -/
theorem toNat_hex4 {w x y z : UInt32} (hw : w.toNat < 16) (hx : x.toNat < 16) (hy : y.toNat < 16)
    (hz : z.toNat < 16) :
    ((((((((0 : UInt32) <<< 4) ||| w) <<< 4) ||| x) <<< 4) ||| y) <<< 4 ||| z).toNat =
      ((w.toNat * 16 + x.toNat) * 16 + y.toNat) * 16 + z.toNat := by
  have h0 : (((0 : UInt32) <<< 4) ||| w).toNat = w.toNat := by
    rw [toNat_shift_or (n := 1) (by decide) (by decide) hw]
    exact zero_add _
  have h1 : (((((0 : UInt32) <<< 4) ||| w) <<< 4) ||| x).toNat = w.toNat * 16 + x.toNat := by
    rw [toNat_shift_or (n := 16) (by omega) (by decide) hx, h0]
  have h2 : (((((((0 : UInt32) <<< 4) ||| w) <<< 4) ||| x) <<< 4) ||| y).toNat =
      (w.toNat * 16 + x.toNat) * 16 + y.toNat := by
    rw [toNat_shift_or (n := 256) (by omega) (by decide) hy, h1]
  rw [toNat_shift_or (n := 4096) (by omega) (by decide) hz, h2]

/-- What `_read_hex4` accepts are four hexadecimal digits of the value it returns. -/
theorem readHex4_sound : Ends readHex4 (fun v p' => Emits notify [] p p' ∧ Hex4 v p.rest p'.rest)
      (fun f p' => f = .error ∧ Emits notify [] p p') p := by
  refine ends_hexLoop_succ notify (fun a s₁ w hs₁ hw p₁ h₁ hr₁ => ?_) fun _ _ h => ⟨rfl, h⟩
  refine ends_hexLoop_succ notify (fun b s₂ x hs₂ hx p₂ h₂ hr₂ => ?_)
    fun _ _ h => ⟨rfl, h₁.trans_nil h⟩
  have h₂ := h₁.trans_nil h₂
  refine ends_hexLoop_succ notify (fun c s₃ y hs₃ hy p₃ h₃ hr₃ => ?_)
    fun _ _ h => ⟨rfl, h₂.trans_nil h⟩
  have h₃ := h₂.trans_nil h₃
  refine ends_hexLoop_succ notify (fun d s₄ z hs₄ hz p₄ h₄ hr₄ => ?_)
    fun _ _ h => ⟨rfl, h₃.trans_nil h⟩
  rw [hexLoop]
  refine ends_pure ⟨h₃.trans_nil h₄, ?_⟩
  rw [hs₁, ← hr₁, hs₂, ← hr₂, hs₃, ← hr₃, hs₄, ← hr₄]
  exact .mk _ hw hx hy hz (toNat_hex4 (hexDigit_lt hw) (hexDigit_lt hx) (hexDigit_lt hy)
    (hexDigit_lt hz))

/-- A digit of the grammar is read. -/
theorem hexLoop_step {i : Nat} {result d : UInt32} {c : UInt8} {s : Bytes}
    {Q : UInt32 → JsonTokenParser N → Prop} (hp : p.rest = c :: s) (hc : hexDigit c = some d)
    (h : ∀ p', Emits notify [] p p' → p'.rest = s →
      Ends (hexLoop i ((result <<< 4) ||| d)) Q (fun _ _ => False) p') :
    Ends (hexLoop (i + 1) result) Q (fun _ _ => False) p := by
  refine ends_hexLoop_succ notify (fun c' s' d' hs' hd' p' hem hp' => ?_) fun _ herr _ => ?_
  · rw [hp] at hs'
    cases hs'
    rw [hc] at hd'
    cases hd'
    exact h p' hem hp'
  obtain hnil | ⟨c', s', hs', hnone⟩ := herr
  · rw [hp] at hnil
    cases hnil
  rw [hp] at hs'
  cases hs'
  rw [hc] at hnone
  cases hnone

variable {v : UInt32}

/-- Four hexadecimal digits are accepted with their value. -/
theorem readHex4_complete {r : Bytes} (h : Hex4 v p.rest r) :
    Ends readHex4 (fun v' p' => v' = v ∧ Emits notify [] p p' ∧ p'.rest = r) (fun _ _ => False) p := by
  generalize hs : p.rest = s at h
  obtain ⟨_, hw, hx, hy, hz, hv⟩ := h
  refine hexLoop_step notify hs hw fun p₁ h₁ hr₁ => ?_
  refine hexLoop_step notify hr₁ hx fun p₂ h₂ hr₂ => ?_
  refine hexLoop_step notify hr₂ hy fun p₃ h₃ hr₃ => ?_
  refine hexLoop_step notify hr₃ hz fun p₄ h₄ hr₄ => ?_
  rw [hexLoop]
  refine ends_pure ⟨UInt32.toNat_inj.1 ?_, ((h₁.trans_nil h₂).trans_nil h₃).trans_nil h₄, hr₄⟩
  rw [hv]
  exact toNat_hex4 (hexDigit_lt hw) (hexDigit_lt hx) (hexDigit_lt hy) (hexDigit_lt hz)

/-! ### Code points -/

/-- The escape of a code point, after its first two characters. -/
inductive CodePoint (c : Char) (s r : Bytes) : Prop
  | single (h : Hex4 c.val s r)
  | surrogates {high low : UInt32} {s' : Bytes} (h : Hex4 high s (backslash :: 0x75 :: s'))
      (h' : Hex4 low s' r) (hh : 0xD800 ≤ high.toNat ∧ high.toNat < 0xDC00)
      (hl : 0xDC00 ≤ low.toNat ∧ low.toNat < 0xE000)
      (hc : c.toNat = 0x10000 + (high.toNat - 0xD800) * 0x400 + (low.toNat - 0xDC00))

theorem CodePoint.chars {c : Char} {b s s' r : Bytes} (h : CodePoint c s s') (hb : Chars b s' r) :
    Chars (String.utf8EncodeChar c ++ b) (backslash :: 0x75 :: s) r := by
  cases h with
  | single h => exact .codePoint h hb
  | surrogates h h' hh hl hc => exact .surrogates h h' hh hl hc hb

theorem toNat_combine {high low : UInt32} (hh : 0xD800 ≤ high.toNat ∧ high.toNat < 0xDC00)
    (hl : 0xDC00 ≤ low.toNat ∧ low.toNat < 0xE000) :
    (combine high low).toNat = 0x10000 + (high.toNat - 0xD800) * 0x400 + (low.toNat - 0xDC00) := by
  have hmask : ∀ x : UInt32, (x &&& 0x3FF).toNat = x.toNat % 1024 := by
    intro x
    rw [UInt32.toNat_and]
    exact and_two_pow_sub_one_eq_mod x.toNat 10
  have hshift : ((high &&& 0x3FF) <<< 10).toNat = 2 ^ 10 * (high.toNat % 1024) := by
    rw [UInt32.toNat_shiftLeft, hmask]
    show (high.toNat % 1024) <<< 10 % 2 ^ 32 = _
    rw [shiftLeft_eq, mod_eq_of_lt (by omega)]
    omega
  rw [combine, UInt32.toNat_add, UInt32.toNat_or, hshift, hmask,
    ← two_pow_add_eq_or_of_lt (by omega)]
  show (0x10000 + _) % 2 ^ 32 = _
  omega

theorem high_iff : 0xD800 ≤ v ∧ v < 0xDC00 ↔ 0xD800 ≤ v.toNat ∧ v.toNat < 0xDC00 := by
  rw [le_iff_toNat_le, lt_iff_toNat_lt]
  rfl

theorem low_iff : 0xDC00 ≤ v ∧ v < 0xE000 ↔ 0xDC00 ≤ v.toNat ∧ v.toNat < 0xE000 := by
  rw [le_iff_toNat_le, lt_iff_toNat_lt]
  rfl

/-- Four digits that are not a surrogate are a character. -/
theorem exists_char {s r : Bytes} (h : Hex4 v s r) (hh : ¬ (0xD800 ≤ v ∧ v < 0xDC00))
    (hl : ¬ (0xDC00 ≤ v ∧ v < 0xE000)) : ∃ c : Char, c.val = v := by
  rw [high_iff] at hh
  rw [low_iff] at hl
  have hlt : v.toNat < 0x10000 := by
    obtain ⟨_, hw, hx, hy, hz, hv⟩ := h
    have := hexDigit_lt hw
    have := hexDigit_lt hx
    have := hexDigit_lt hy
    have := hexDigit_lt hz
    omega
  refine ⟨⟨v, ?_⟩, rfl⟩
  rw [UInt32.isValidChar, Nat.isValidChar]
  omega

/-- A pair of surrogates is a character. -/
theorem exists_char_combine {high low : UInt32} (hh : 0xD800 ≤ high.toNat ∧ high.toNat < 0xDC00)
    (hl : 0xDC00 ≤ low.toNat ∧ low.toNat < 0xE000) : ∃ c : Char, c.val = combine high low := by
  refine ⟨⟨combine high low, ?_⟩, rfl⟩
  rw [UInt32.isValidChar, Nat.isValidChar, toNat_combine hh hl]
  omega

/-- An accepted escape is a code point of the grammar, encoded in UTF-8. -/
theorem parseUnicode_sound (buf : Bytes) :
    Ends (parseUnicode buf) (fun out p' => Emits notify [] p p' ∧ ∃ c : Char,
      out = buf ++ String.utf8EncodeChar c ∧ CodePoint c p.rest p'.rest)
      (fun f p' => f = .error ∧ Emits notify [] p p') p := by
  refine ends_bind ((readHex4_sound notify).mono ?_ fun _ _ h => h)
  rintro high p₁ ⟨h₁, hx₁⟩
  refine ends_ite (fun hh => ?_) fun hh => ends_ite (fun _ => ends_throw ⟨rfl, h₁⟩) fun hl => ?_
  · refine ends_bind (ends_eat (fun s₁ hs₁ => ?_) ⟨rfl, h₁⟩)
    have h₂ := h₁.trans_nil (emits_pass backslash)
    have hr₁ := rest_pass backslash hs₁
    refine ends_bind (ends_eat (fun s₂ hs₂ => ?_) ⟨rfl, h₂⟩)
    have h₃ := h₂.trans_nil (emits_pass 0x75)
    have hr₂ := rest_pass 0x75 hs₂
    refine ends_bind ((readHex4_sound notify).mono ?_ fun _ _ h => ⟨h.1, h₃.trans_nil h.2⟩)
    rintro low p₂ ⟨h₄, hx₂⟩
    have h₄ := h₃.trans_nil h₄
    refine ends_ite (fun hl => ends_pure ?_) fun _ => ends_throw ⟨rfl, h₄⟩
    rw [high_iff] at hh
    rw [low_iff] at hl
    obtain ⟨c, hc⟩ := exists_char_combine hh hl
    refine ⟨h₄, c, by rw [← hc, fromUtf32_char], ?_⟩
    rw [hr₂] at hx₂
    rw [hs₁, ← hr₁, hs₂] at hx₁
    refine .surrogates hx₁ hx₂ hh hl ?_
    rw [← toNat_combine hh hl, ← hc]
    rfl
  · obtain ⟨c, rfl⟩ := exists_char hx₁ hh hl
    exact ends_pure ⟨h₁, c, by rw [fromUtf32_char], .single hx₁⟩

theorem parseUnicode_complete (buf : Bytes) {c : Char} {r : Bytes} (h : CodePoint c p.rest r) :
    Ends (parseUnicode buf) (fun out p' => out = buf ++ String.utf8EncodeChar c ∧
      Emits notify [] p p' ∧ p'.rest = r) (fun _ _ => False) p := by
  cases h with
  | single h =>
    refine ends_bind ((readHex4_complete notify h).mono ?_ fun _ _ h => h)
    rintro _ p₁ ⟨rfl, h₁, hr₁⟩
    have hvalid := c.valid
    rw [UInt32.isValidChar, Nat.isValidChar] at hvalid
    refine ends_ite (fun hh => ?_) fun _ => ends_ite (fun hl => ?_) fun _ => ends_pure ?_
    · rw [high_iff] at hh
      omega
    · rw [low_iff] at hl
      omega
    · exact ⟨by rw [fromUtf32_char], h₁, hr₁⟩
  | surrogates h h' hh hl hc =>
    refine ends_bind ((readHex4_complete notify h).mono ?_ fun _ _ h => h)
    rintro _ p₁ ⟨rfl, h₁, hr₁⟩
    rw [if_pos (high_iff.2 hh)]
    refine ends_bind (ends_eat_of_rest hr₁ ?_)
    have hr₂ := rest_pass backslash hr₁
    refine ends_bind (ends_eat_of_rest hr₂ ?_)
    have hr₃ := rest_pass 0x75 hr₂
    have h₃ := (h₁.trans_nil (emits_pass backslash)).trans_nil (emits_pass 0x75)
    refine ends_bind ((readHex4_complete notify (hr₃ ▸ h')).mono ?_ fun _ _ h => h)
    rintro _ p₂ ⟨rfl, h₄, hr₄⟩
    rw [if_pos (low_iff.2 hl)]
    refine ends_pure ⟨?_, h₃.trans_nil h₄, hr₄⟩
    have hval : c.val = combine _ _ := UInt32.toNat_inj.1 (hc.trans (toNat_combine hh hl).symm)
    rw [← hval, fromUtf32_char]

/-! ### The inside of a string -/

/-- What the loop accepts are characters of the grammar up to the closing quote. -/
theorem stringLoop_sound {fuel : Nat} (buf : Bytes) (hf : p.rest.length < fuel) :
    Ends (stringLoop fuel buf) (fun out p' => Emits notify [] p p' ∧ ∃ b, out = buf ++ b ∧
      Chars b p.rest p'.rest) (fun f p' => f = .error ∧ Emits notify [] p p') p := by
  induction fuel generalizing p buf with
  | zero => exact absurd hf (not_lt_zero _)
  | succ fuel ih =>
    rw [stringLoop]
    refine ends_bind (ends_next (fun c s hs => ?_) fun _ => ⟨rfl, Emits.refl p⟩)
    have hr := rest_pass c hs
    have h₁ : Emits notify [] p (p.pass c) := emits_pass c
    rw [hs, length_cons] at hf
    refine ends_ite (fun hc => ?_) fun hq => ends_ite (fun hc => ?_) fun hb =>
      ends_ite (fun _ => ends_throw ⟨rfl, h₁⟩) fun hlow => ?_
    · subst hc
      refine ends_pure ⟨h₁, [], (append_nil _).symm, ?_⟩
      rw [hs, hr]
      exact .close s
    · subst hc
      refine ends_bind (ends_next (fun e s' hs' => ?_) fun _ => ⟨rfl, h₁⟩)
      have hr' := rest_pass e hs'
      have h₂ := h₁.trans_nil (emits_pass e)
      have hlen : s'.length < s.length := by rw [← hr, hs']; exact lt_succ_self _
      cases hu : unescape e with
      | some b =>
        refine (ih (buf ++ [b]) (by rw [hr']; omega)).mono ?_ fun _ _ h =>
          ⟨h.1, h₂.trans_nil h.2⟩
        rintro _ p' ⟨h, bs, rfl, hchars⟩
        refine ⟨h₂.trans_nil h, b :: bs, by rw [append_assoc]; rfl, ?_⟩
        rw [hs, ← hr, hs', ← hr']
        exact .escaped hu hchars
      | none =>
        refine ends_ite (fun he => ?_) fun _ => ends_throw ⟨rfl, h₂⟩
        subst he
        refine ends_bind ((parseUnicode_sound notify buf).mono ?_ fun _ _ h =>
          ⟨h.1, h₂.trans_nil h.2⟩)
        rintro _ p₃ ⟨h₃, c, rfl, hpoint⟩
        have h₃ := h₂.trans_nil h₃
        have hlen' : p₃.rest.length < s'.length := by
          rw [hr'] at hpoint
          cases hpoint with
          | single h => exact h.length_lt
          | surrogates h h' _ _ _ =>
            have := h.length_lt
            have := h'.length_lt
            simp only [length_cons] at *
            omega
        refine (ih _ (by omega)).mono ?_ fun _ _ h => ⟨h.1, h₃.trans_nil h.2⟩
        rintro _ p' ⟨h, bs, rfl, hchars⟩
        refine ⟨h₃.trans_nil h, String.utf8EncodeChar c ++ bs, by rw [append_assoc], ?_⟩
        rw [hs, ← hr, hs', ← hr']
        exact hpoint.chars hchars
    · refine (ih (buf ++ [c]) (by rw [hr]; omega)).mono ?_ fun _ _ h => ⟨h.1, h₁.trans_nil h.2⟩
      rintro _ p' ⟨h, bs, rfl, hchars⟩
      refine ⟨h₁.trans_nil h, c :: bs, by rw [append_assoc]; rfl, ?_⟩
      rw [hs, ← hr]
      exact .unescaped (UInt8.not_lt.1 hlow) hq hb hchars

theorem unescape_u : unescape 0x75 = none := by decide

section
variable {fuel : Nat} {buf b s s' r : Bytes}

/-- The escape of a code point, followed by the rest of the string. -/
theorem stringLoop_codePoint {c : Char} (hpoint : CodePoint c s s') (hlt : s'.length < s.length)
    (hp : p.rest = backslash :: 0x75 :: s) (hf : (backslash :: 0x75 :: s).length < fuel)
    (hrest : ∀ {p : JsonTokenParser N} {fuel : Nat} (buf : Bytes), p.rest = s' → s'.length < fuel →
      Ends (stringLoop fuel buf) (fun out p' => out = buf ++ b ∧ Emits notify [] p p' ∧ p'.rest = r)
        (fun _ _ => False) p) :
    Ends (stringLoop fuel buf) (fun out p' => out = buf ++ (String.utf8EncodeChar c ++ b) ∧
      Emits notify [] p p' ∧ p'.rest = r) (fun _ _ => False) p := by
  obtain ⟨fuel, rfl⟩ : ∃ n, fuel = n + 1 := ⟨fuel - 1, by omega⟩
  simp only [length_cons] at hf
  rw [stringLoop]
  refine ends_bind (ends_next_of_rest hp ?_)
  have hr := rest_pass backslash hp
  have h₁ : Emits notify [] p (p.pass backslash) := emits_pass backslash
  rw [if_neg (by decide), if_pos rfl]
  refine ends_bind (ends_next_of_rest hr ?_)
  have hr' := rest_pass 0x75 hr
  have h₂ := h₁.trans_nil (emits_pass 0x75)
  simp only [unescape_u]
  rw [if_pos trivial]
  refine ends_bind ((parseUnicode_complete notify buf (hr' ▸ hpoint)).mono ?_ fun _ _ h => h)
  rintro _ p₃ ⟨rfl, h₃, hr₃⟩
  refine (hrest _ hr₃ (by omega)).mono ?_ fun _ _ h => h
  rintro _ p' ⟨rfl, h₄, hp'⟩
  exact ⟨append_assoc .., (h₂.trans_nil h₃).trans_nil h₄, hp'⟩

/-- Characters of the grammar up to a closing quote are accepted and decoded. -/
theorem stringLoop_complete (h : Chars b s r) (buf : Bytes) (hp : p.rest = s)
    (hf : s.length < fuel) :
    Ends (stringLoop fuel buf) (fun out p' => out = buf ++ b ∧ Emits notify [] p p' ∧ p'.rest = r)
      (fun _ _ => False) p := by
  induction h generalizing p fuel buf with
  | close r =>
    obtain ⟨fuel, rfl⟩ : ∃ n, fuel = n + 1 := ⟨fuel - 1, by omega⟩
    rw [stringLoop]
    refine ends_bind (ends_next_of_rest hp ?_)
    rw [if_pos rfl]
    exact ends_pure ⟨(append_nil _).symm, emits_pass quote, rest_pass quote hp⟩
  | @unescaped c b s r hc hq hb _ ih =>
    obtain ⟨fuel, rfl⟩ : ∃ n, fuel = n + 1 := ⟨fuel - 1, by omega⟩
    rw [length_cons] at hf
    rw [stringLoop]
    refine ends_bind (ends_next_of_rest hp ?_)
    rw [if_neg hq, if_neg hb, if_neg (UInt8.not_lt.2 hc)]
    refine (ih (buf ++ [c]) (rest_pass c hp) (by omega)).mono ?_ fun _ _ h => h
    rintro _ p' ⟨rfl, h, hp'⟩
    exact ⟨append_assoc .., (emits_pass c).trans_nil h, hp'⟩
  | @escaped e c b s r he _ ih =>
    obtain ⟨fuel, rfl⟩ : ∃ n, fuel = n + 1 := ⟨fuel - 1, by omega⟩
    simp only [length_cons] at hf
    rw [stringLoop]
    refine ends_bind (ends_next_of_rest hp ?_)
    have hr := rest_pass backslash hp
    rw [if_neg (by decide), if_pos rfl]
    refine ends_bind (ends_next_of_rest hr ?_)
    simp only [he]
    refine (ih (buf ++ [c]) (rest_pass e hr) (by omega)).mono ?_ fun _ _ h => h
    rintro _ p' ⟨rfl, h, hp'⟩
    exact ⟨append_assoc .., ((emits_pass backslash).trans_nil (emits_pass e)).trans_nil h, hp'⟩
  | codePoint hx _ ih =>
    exact stringLoop_codePoint notify (.single hx) hx.length_lt hp hf ih
  | surrogates hx hx' hh hl hc _ ih =>
    refine stringLoop_codePoint notify (.surrogates hx hx' hh hl hc) ?_ hp hf ih
    have := hx.length_lt
    have := hx'.length_lt
    simp only [length_cons] at *
    omega

end

/-! ### Strings -/

/-- The token of a string, or of a key. -/
def stringEvent (isKey : Bool) (b : Bytes) : Event := if isKey then .key b else .string b

section
variable {isKey : Bool}

theorem event_string {b : Bytes} :
    ({ p with lastString := b } : JsonTokenParser N).event (if isKey then .key else .string) =
      stringEvent isKey b := by
  cases isKey <;> rfl

theorem emits_lastString (b : Bytes) : Emits notify [] p { p with lastString := b } :=
  ⟨rfl, (append_nil _).symm, rfl, rfl⟩

/-- `_parse_string` emits a string of the grammar. -/
theorem parseString_sound (hq : ∀ n e, (notify n e).2 = false) (ha : p.abort = false) :
    Ends (parseString notify isKey) (fun _ p' => ∃ b s, p.rest = quote :: s ∧ Chars b s p'.rest ∧
      Emits notify [stringEvent isKey b] p p')
      (fun f p' => f = .error ∧ Emits notify [] p p') p := by
  refine ends_bind (ends_eat (fun s hs => ?_) ⟨rfl, Emits.refl p⟩)
  have h₁ : Emits notify [] p (p.pass quote) := emits_pass quote
  refine ends_bind (ends_markToken notify fun p₂ h₂ hr₂ => ends_bind (ends_get ?_))
  have h₂ := h₁.trans_nil h₂
  rw [rest_pass quote hs] at hr₂
  refine ends_bind ((stringLoop_sound notify [] (by rw [length_rest]; exact lt_succ_self _)).mono
    ?_ fun _ _ h => ⟨h.1, h₂.trans_nil h.2⟩)
  rintro b p₃ ⟨h₃, _, rfl, hchars⟩
  have h₃ := h₂.trans_nil h₃
  refine ends_bind (ends_modify (ends_emit hq ?_ fun p' hem hp' => ?_))
  · exact h₃.abort.trans ha
  have hrest : p'.rest = p₃.rest := hp'
  rw [event_string] at hem
  exact ⟨b, s, hs, by rw [hrest, ← hr₂]; exact hchars,
    (h₃.trans_nil (emits_lastString notify b)).trans hem⟩

/-- A string of the grammar is emitted. -/
theorem parseString_complete (hq : ∀ n e, (notify n e).2 = false) (ha : p.abort = false)
    {b s r : Bytes} (h : Chars b s r) (hp : p.rest = quote :: s) :
    Ends (parseString notify isKey) (fun _ p' => Emits notify [stringEvent isKey b] p p' ∧ p'.rest = r)
      (fun _ _ => False) p := by
  refine ends_bind (ends_eat_of_rest hp ?_)
  have h₁ : Emits notify [] p (p.pass quote) := emits_pass quote
  refine ends_bind (ends_markToken notify fun p₂ h₂ hr₂ => ends_bind (ends_get ?_))
  have h₂ := h₁.trans_nil h₂
  rw [rest_pass quote hp] at hr₂
  refine ends_bind ((stringLoop_complete notify h [] hr₂ ?_).mono ?_ fun _ _ h => h)
  · rw [← length_rest, hr₂]
    exact lt_succ_self _
  rintro b p₃ ⟨rfl, h₃, hr₃⟩
  have h₃ := h₂.trans_nil h₃
  refine ends_bind (ends_modify (ends_emit hq ?_ fun p' hem hp' => ?_))
  · exact h₃.abort.trans ha
  · rw [event_string] at hem
    exact ⟨(h₃.trans_nil (emits_lastString notify b)).trans hem, hp'.trans hr₃⟩

end

end SpacePony.Json
