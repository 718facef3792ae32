import SpacePony.Packages.Encode.Base64

/-!
# Packages — encode — Base64 there and back

Decoding what the encoder puts out gives the data at any line length (`decodeFrom_encodeFrom`).  So
every variant is undone by decoding, except that `encode_url` without padding puts out zero bytes in
its place (`round_trip_iff`).
-/

namespace SpacePony.Base64

open Option List

variable {a : Alphabet} {s : Decoder} {data : List UInt8} {in1 in2 in3 v : UInt8}

/-- Every value is encoded as a character that is decoded to it, and the padding stops. -/
structure Alphabet.Proper (a : Alphabet) : Prop where
  value : ∀ n < 64, ∃ b, encByte (UInt8.ofNat n) a.at62 a.at63 = some b ∧
    a.kind b = .value (UInt8.ofNat n)
  stop : a.kind a.pad = .stop

theorem Alphabet.Proper.char (hp : a.Proper) (hv : v.toNat < 64) :
    ∃ b, encByte v a.at62 a.at63 = some b ∧ a.kind b = .value v := by
  have h := hp.value v.toNat hv
  rwa [UInt8.ofNat_toNat] at h

theorem Alphabet.Proper.ne_pad (hp : a.Proper) {b : UInt8} (h : a.kind b ≠ .stop) : b ≠ a.pad :=
  fun e => h (e ▸ hp.stop)

/-! ### The values of the encoder -/

theorem toNat_out1 : (in1 >>> 2).toNat = in1.toNat / 4 := toNat_shiftRight 2 (by decide)

theorem toNat_out2 :
    (((in1 &&& 0x03) <<< 4) + (in2 >>> 4)).toNat = in1.toNat % 4 * 16 + in2.toNat / 16 := by
  rw [UInt8.toNat_add, toNat_mask 2 rfl (by decide) (by decide), toNat_shiftRight 4 (by decide)]
  have := in2.toNat_lt
  simp
  omega

theorem toNat_out3 :
    (((in2 &&& 0x0f) <<< 2) + (in3 >>> 6)).toNat = in2.toNat % 16 * 4 + in3.toNat / 64 := by
  rw [UInt8.toNat_add, toNat_mask 4 rfl (by decide) (by decide), toNat_shiftRight 6 (by decide)]
  have := in3.toNat_lt
  simp
  omega

theorem toNat_out4 : (in3 &&& 0x3f).toNat = in3.toNat % 64 := toNat_and 6 0x3f rfl

/-! ### Decoding it -/

theorem decodeFrom_value {b : UInt8} (h : a.kind b = .value v) :
    decodeFrom a (b :: data) s = (Decoder.push { s with input := b } v).bind (decodeFrom a data) := by
  rw [decodeFrom, h]

/-- The first two characters of a block give a byte. -/
theorem decodeFrom_two {b1 b2 v1 v2 : UInt8} {x : Nat} (h0 : s.state = 0) (hk1 : a.kind b1 = .value v1)
    (hk2 : a.kind b2 = .value v2) (h1 : v1.toNat = in1.toNat / 4)
    (h2 : v2.toNat = in1.toNat % 4 * 16 + x) (hx : x < 16) : decodeFrom a (b1 :: b2 :: data) s =
      decodeFrom a data ⟨2, b2, (v2 &&& 0x0f) <<< 4, s.out ++ [in1]⟩ := by
  have hb := in1.toNat_lt
  have hbyte : (v1 <<< 2) ||| (v2 >>> 4) = in1 := by
    have hl : (v1 <<< 2).toNat = v1.toNat * 4 := toNat_shiftLeft 2 (by decide) (by simp; omega)
    have hr : (v2 >>> 4).toNat = v2.toNat / 16 := toNat_shiftRight 4 (by decide)
    rw [← UInt8.toNat_inj, toNat_or 2 (by omega) (by omega)]
    omega
  rw [decodeFrom_value hk1, Decoder.push, if_pos h0, bind_some, decodeFrom_value hk2]
  simp [Decoder.push, hbyte]

/-- The third gives another. -/
theorem decodeFrom_third {b3 v3 : UInt8} {x : Nat} {out : List UInt8} {i v2 : UInt8}
    (hk : a.kind b3 = .value v3) (h2 : v2.toNat % 16 = in2.toNat / 16)
    (h3 : v3.toNat = in2.toNat % 16 * 4 + x) (hx : x < 4) :
    decodeFrom a (b3 :: data) ⟨2, i, (v2 &&& 0x0f) <<< 4, out⟩ =
      decodeFrom a data ⟨3, b3, (v3 &&& 0x03) <<< 6, out ++ [in2]⟩ := by
  have hbyte : ((v2 &&& 0x0f) <<< 4) ||| (v3 >>> 2) = in2 := by
    have hl : ((v2 &&& 0x0f) <<< 4).toNat = v2.toNat % 16 * 16 :=
      toNat_mask 4 rfl (by decide) (by decide)
    have hr : (v3 >>> 2).toNat = v3.toNat / 4 := toNat_shiftRight 2 (by decide)
    rw [← UInt8.toNat_inj, toNat_or 4 (by omega) (by omega)]
    omega
  rw [decodeFrom_value hk]
  simp [Decoder.push, hbyte]

theorem decodeFrom_fourth {b4 v3 v4 : UInt8} {out : List UInt8} {i : UInt8}
    (hk : a.kind b4 = .value v4) (h3 : v3.toNat % 4 = in3.toNat / 64)
    (h4 : v4.toNat = in3.toNat % 64) : decodeFrom a (b4 :: data) ⟨3, i, (v3 &&& 0x03) <<< 6, out⟩ =
      decodeFrom a data ⟨0, b4, (v3 &&& 0x03) <<< 6, out ++ [in3]⟩ := by
  have hbyte : ((v3 &&& 0x03) <<< 6) ||| v4 = in3 := by
    have hl : ((v3 &&& 0x03) <<< 6).toNat = v3.toNat % 4 * 64 :=
      toNat_mask 2 rfl (by decide) (by decide)
    rw [← UInt8.toNat_inj, toNat_or 6 (by omega) (by omega)]
    omega
  rw [decodeFrom_value hk]
  simp [Decoder.push, hbyte]

/-- Whitespace changes no more than the last character read. -/
theorem decodeFrom_skip (hp : a.Proper) {sep : List UInt8} (hsep : ∀ b ∈ sep, a.kind b = .skip)
    (data : List UInt8) (s : Decoder) : ∃ i, (i = s.input ∨ i ≠ a.pad) ∧
      decodeFrom a (sep ++ data) s = decodeFrom a data { s with input := i } := by
  induction sep generalizing s with
  | nil => exact ⟨s.input, .inl rfl, rfl⟩
  | cons b sep ih =>
    obtain ⟨hb, hsep⟩ := forall_mem_cons.1 hsep
    obtain ⟨i, hi, h⟩ := ih hsep { s with input := b }
    have hne : b ≠ a.pad := hp.ne_pad (by rw [hb]; decide)
    refine ⟨i, .inr ?_, ?_⟩
    · rcases hi with rfl | hi
      · exact hne
      · exact hi
    · rw [cons_append, decodeFrom, hb]
      exact h

/-- **Decoding what the encoder puts out**, in blocks of three bytes. -/
theorem decodeFrom_encodeFrom (hp : a.Proper) {pad : UInt8} (lineblocks : Nat)
    {linesep : List UInt8} (hsep : ∀ b ∈ linesep, a.kind b = .skip) (data : List UInt8) (blocks : Nat)
    (hpad : pad = a.pad ∨ data.length % 3 = 0) (s : Decoder) (h0 : s.state = 0)
    (hs : s.output = 0 ∨ s.input ≠ a.pad) :
    ∃ e, encodeFrom a.at62 a.at63 pad lineblocks linesep data blocks = some e ∧
      (decodeFrom a e s).bind (finish a) = some (s.out ++ data) := by
  have hend : ∀ b ∈ (if lineblocks > 0 then linesep else []), a.kind b = .skip := by
    split
    · exact hsep
    · simp
  have hfirst : ∀ x : UInt8, (x >>> 2).toNat < 64 := fun x => by
    have := x.toNat_lt
    rw [toNat_out1]
    omega
  have hsecond : ∀ x y : UInt8, (((x &&& 0x03) <<< 4) + (y >>> 4)).toNat < 64 := fun x y => by
    have := y.toNat_lt
    rw [toNat_out2]
    omega
  induction data, blocks using encodeFrom.induct lineblocks generalizing s with
  | case1 in1 in2 in3 data blocks ih =>
    have hthird : (((in2 &&& 0x0f) <<< 2) + (in3 >>> 6)).toNat < 64 := by
      have := in3.toNat_lt
      rw [toNat_out3]
      omega
    obtain ⟨b1, he1, hk1⟩ := hp.char (hfirst in1)
    obtain ⟨b2, he2, hk2⟩ := hp.char (hsecond in1 in2)
    obtain ⟨b3, he3, hk3⟩ := hp.char hthird
    obtain ⟨b4, he4, hk4⟩ := hp.char (v := in3 &&& 0x3f) (by rw [toNat_out4]; omega)
    have hline : ∀ b ∈ (if lineblocks > 0 ∧ blocks + 1 = lineblocks then linesep else []),
        a.kind b = .skip := by
      split
      · exact hsep
      · simp
    have hb2 := in2.toNat_lt
    have hb3 := in3.toNat_lt
    obtain ⟨i, hi, hskip⟩ := decodeFrom_skip hp hline ((encodeFrom a.at62 a.at63 pad lineblocks linesep
      data (if lineblocks > 0 ∧ blocks + 1 = lineblocks then 0 else blocks + 1)).getD [])
      ⟨0, b4, (((in2 &&& 0x0f) <<< 2) + (in3 >>> 6) &&& 0x03) <<< 6, s.out ++ [in1] ++ [in2] ++ [in3]⟩
    have hne : i ≠ a.pad := by
      rcases hi with rfl | hi
      · exact hp.ne_pad (by rw [hk4]; nofun)
      · exact hi
    obtain ⟨e, he, hd⟩ := ih (hpad.imp_right fun h => by
      simp only [length_cons] at h
      omega) _
      (by rfl : (⟨0, i, (((in2 &&& 0x0f) <<< 2) + (in3 >>> 6) &&& 0x03) <<< 6,
        s.out ++ [in1] ++ [in2] ++ [in3]⟩ : Decoder).state = 0) (.inr hne)
    refine ⟨_, by simp only [encodeFrom, he1, he2, he3, he4, he]; rfl, ?_⟩
    rw [he, getD_some] at hskip
    rw [append_assoc, cons_append, cons_append, cons_append, cons_append, nil_append,
      decodeFrom_two h0 hk1 hk2 toNat_out1 toNat_out2 (by omega),
      decodeFrom_third hk3 (by rw [toNat_out2]; omega) toNat_out3 (by omega),
      decodeFrom_fourth hk4 (by rw [toNat_out3]; omega) toNat_out4, hskip, hd]
    simp
  | case2 in1 in2 blocks =>
    have hpad : pad = a.pad := hpad.resolve_right (by simp)
    have h3 : ((in2 &&& 0x0f) <<< 2).toNat = in2.toNat % 16 * 4 :=
      toNat_mask 4 rfl (by decide) (by decide)
    obtain ⟨b1, he1, hk1⟩ := hp.char (hfirst in1)
    obtain ⟨b2, he2, hk2⟩ := hp.char (hsecond in1 in2)
    obtain ⟨b3, he3, hk3⟩ := hp.char (v := (in2 &&& 0x0f) <<< 2) (by rw [h3]; omega)
    have hb2 := in2.toNat_lt
    have hrest : ((in2 &&& 0x0f) <<< 2 &&& 0x03) <<< 6 = 0 := by
      rw [← UInt8.toNat_inj, toNat_mask 2 rfl (by decide) (by decide), h3]
      simp
    refine ⟨_, by simp only [encodeFrom, he1, he2, he3]; rfl, ?_⟩
    rw [cons_append, cons_append, cons_append, cons_append, nil_append,
      decodeFrom_two h0 hk1 hk2 toNat_out1 toNat_out2 (by omega),
      decodeFrom_third hk3 (by rw [toNat_out2]; omega)
        (h3.trans (Nat.add_zero _).symm : _ = in2.toNat % 16 * 4 + 0) (by decide), decodeFrom, hpad,
      hp.stop]
    simp [finish, hrest]
  | case3 in1 blocks =>
    have hpad : pad = a.pad := hpad.resolve_right (by simp)
    obtain ⟨b1, he1, hk1⟩ := hp.char (hfirst in1)
    obtain ⟨b2, he2, hk2⟩ := hp.char (hsecond in1 0)
    have hrest : (((in1 &&& 0x03) <<< 4) + ((0 : UInt8) >>> 4) &&& 0x0f) <<< 4 = 0 := by
      rw [← UInt8.toNat_inj, toNat_mask 4 rfl (by decide) (by decide), toNat_out2]
      simp
    refine ⟨_, by simp only [encodeFrom, he1, he2]; rfl, ?_⟩
    rw [cons_append, cons_append, cons_append, cons_append, nil_append,
      decodeFrom_two h0 hk1 hk2 toNat_out1 toNat_out2 (by decide), decodeFrom, hpad, hp.stop]
    simp only [finish, bind_some, hrest, ne_eq, not_true, if_false]
  | case4 blocks =>
    refine ⟨_, rfl, ?_⟩
    obtain ⟨i, hi, h⟩ := decodeFrom_skip hp hend [] s
    rw [append_nil] at h
    rw [h, append_nil]
    simp only [decodeFrom, bind_some, finish]
    split
    · rename_i hne
      have hipad : i ≠ a.pad := by
        rcases hi with rfl | hi
        · exact hs.resolve_left hne
        · exact hi
      rw [if_neg hipad, if_neg (by rw [h0]; decide)]
    · rfl

theorem proper_standard : standard.Proper := ⟨by decide, rfl⟩

theorem proper_url : url.Proper := ⟨by decide, rfl⟩

/-- With no lines the output is of characters of values, and of the padding where there is a rest. -/
theorem mem_encodeFrom {at62 at63 pad : UInt8} {linesep e : List UInt8} {blocks : Nat}
    (h : encodeFrom at62 at63 pad 0 linesep data blocks = some e) :
    (∀ b ∈ e, data.length % 3 ≠ 0 ∧ b = pad ∨ ∃ i, encByte i at62 at63 = some b) ∧
      (data.length % 3 ≠ 0 → pad ∈ e) := by
  induction data, blocks using encodeFrom.induct 0 generalizing e with
  | case1 in1 in2 in3 data blocks ih =>
    simp only [encodeFrom, bind_eq_bind, bind_eq_some_iff, some.injEq] at h
    obtain ⟨b1, h1, b2, h2, b3, h3, b4, h4, out, ho, rfl⟩ := h
    obtain ⟨hmem, hpad⟩ := ih ho
    have hlen : (in1 :: in2 :: in3 :: data).length % 3 = data.length % 3 := by
      simp only [length_cons]
      omega
    simp only [hlen, Nat.lt_irrefl, gt_iff_lt, false_and, if_false, append_nil, cons_append,
      nil_append, forall_mem_cons]
    exact ⟨⟨.inr ⟨_, h1⟩, .inr ⟨_, h2⟩, .inr ⟨_, h3⟩, .inr ⟨_, h4⟩, hmem⟩, fun h => by simp [hpad h]⟩
  | case2 in1 in2 blocks =>
    simp only [encodeFrom, bind_eq_bind, bind_eq_some_iff, some.injEq] at h
    obtain ⟨b1, h1, b2, h2, b3, h3, rfl⟩ := h
    simp only [Nat.lt_irrefl, gt_iff_lt, if_false, append_nil, forall_mem_cons]
    exact ⟨⟨.inr ⟨_, h1⟩, .inr ⟨_, h2⟩, .inr ⟨_, h3⟩, .inl ⟨by simp, trivial⟩, by simp⟩, by simp⟩
  | case3 in1 blocks =>
    simp only [encodeFrom, bind_eq_bind, bind_eq_some_iff, some.injEq] at h
    obtain ⟨b1, h1, b2, h2, rfl⟩ := h
    simp only [Nat.lt_irrefl, gt_iff_lt, if_false, append_nil, forall_mem_cons]
    exact ⟨⟨.inr ⟨_, h1⟩, .inr ⟨_, h2⟩, .inl ⟨by simp, trivial⟩, .inl ⟨by simp, trivial⟩, by simp⟩, by simp⟩
  | case4 blocks =>
    cases h
    simp

/-! ### The variants -/

/-- The characters of RFC 4648's alphabet for URLs. -/
def UrlChar (b : UInt8) : Prop :=
  b = 45 ∨ b = 95 ∨ 65 ≤ b ∧ b ≤ 90 ∨ 97 ≤ b ∧ b ≤ 122 ∨ 48 ≤ b ∧ b ≤ 57

instance : DecidablePred UrlChar := fun b => by unfold UrlChar; infer_instance

/-- **What is asked of the encoders**: each is undone by its decoder, and without padding there are
only characters for URLs. -/
structure RoundTrip (d : List UInt8) : Prop where
  encode : ∀ (linelen : Nat) (linesep : List UInt8),
    (∀ b ∈ linesep, b = 32 ∨ b = 9 ∨ b = 13 ∨ b = 10) →
      decode (encode d 43 47 61 linelen linesep) standard = some d
  pem : decode (encodePem d) standard = some d
  mime : decode (encodeMime d) standard = some d
  url : ∀ pad, decodeUrl (encodeUrl d pad) = some d
  chars : ∀ b ∈ encodeUrl d false, UrlChar b

/-- What is asked of the encoders that pad with the padding character. -/
structure PaddedRoundTrip (d : List UInt8) : Prop where
  encode : ∀ (linelen : Nat) (linesep : List UInt8),
    (∀ b ∈ linesep, b = 32 ∨ b = 9 ∨ b = 13 ∨ b = 10) →
      decode (encode d 43 47 61 linelen linesep) standard = some d
  pem : decode (encodePem d) standard = some d
  mime : decode (encodeMime d) standard = some d
  url : decodeUrl (encodeUrl d true) = some d

theorem decode_encode (hp : a.Proper) {pad : UInt8} (hpad : pad = a.pad ∨ data.length % 3 = 0)
    (linelen : Nat) {linesep : List UInt8} (hsep : ∀ b ∈ linesep, a.kind b = .skip) :
    decode (encode data a.at62 a.at63 pad linelen linesep) a = some data := by
  obtain ⟨e, he, hd⟩ := decodeFrom_encodeFrom hp (linelen / 4) hsep data 0 hpad
    ⟨0, 0, 0, []⟩ rfl (.inl rfl)
  rw [encode, he, getD_some, decode, hd, nil_append]

theorem kind_skip {b : UInt8} (h : b = 32 ∨ b = 9 ∨ b = 13 ∨ b = 10) : a.kind b = .skip := if_pos h

theorem kind_crlf : ∀ b ∈ crlf, a.kind b = .skip := fun b hb => by
  rcases mem_pair.1 hb with rfl | rfl <;> exact kind_skip (by decide)

/-- **Decoding undoes every encoder that pads with the padding character.** -/
theorem padded_round_trip (d : List UInt8) : PaddedRoundTrip d where
  encode linelen _ hsep :=
    decode_encode proper_standard (.inl rfl) linelen fun b hb => kind_skip (hsep b hb)
  pem := decode_encode proper_standard (.inl rfl) 64 kind_crlf
  mime := decode_encode proper_standard (.inl rfl) 76 kind_crlf
  url := decode_encode proper_url (.inl rfl) 0 kind_crlf

/-- **When decoding undoes every encoder**: `encode_url` without padding is undone if no bytes are left
over by the blocks of three, and the other variants are undone for all data. -/
theorem round_trip_iff (d : List UInt8) :
    PaddedRoundTrip d ∧ (RoundTrip d ↔ d.length % 3 = 0) := by
  have hpadded := padded_round_trip d
  refine ⟨hpadded, ?_⟩
  constructor
  · intro h
    by_contra hne
    cases he : encodeFrom 45 95 0 0 crlf d 0 with
    | some e =>
      have heq : encodeUrl d false = e := by simp [encodeUrl, Base64.encode, he]
      have h0 := h.chars 0 (by rw [heq]; exact (mem_encodeFrom he).2 hne)
      exact absurd h0 (by decide)
    | none =>
      have heq : encodeUrl d false = [] := by simp [encodeUrl, Base64.encode, he]
      have hd := h.url false
      rw [heq] at hd
      cases show some [] = some d from hd
      exact hne rfl
  intro h
  refine ⟨hpadded.encode, hpadded.pem, hpadded.mime, fun pad => ?_, fun b hb => ?_⟩
  · exact decode_encode proper_url (.inr h) 0 kind_crlf
  cases he : encodeFrom 45 95 0 0 crlf d 0 with
  | some e =>
    have heq : encodeUrl d false = e := by simp [encodeUrl, Base64.encode, he]
    have hall : ∀ n < 256, (encByte (UInt8.ofNat n) 45 95).all (UrlChar ·) := by decide +kernel
    rcases (mem_encodeFrom he).1 b (heq ▸ hb) with ⟨hne, -⟩ | ⟨i, hi⟩
    · exact absurd h hne
    · simpa [hi] using hall i.toNat i.toNat_lt
  | none => simp [encodeUrl, Base64.encode, he] at hb

/-- One byte: "QQ" and two zero bytes come out of `encode_url`, and `decode_url` rejects them. -/
theorem round_trip_one : ¬RoundTrip [65] := fun h => by
  have := h.url false
  cases this

end SpacePony.Base64
