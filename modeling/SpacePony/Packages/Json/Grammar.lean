import SpacePony.Packages.Json.TokenParser

/-!
# Packages — json — the grammar

The grammar of RFC 8259 on the bytes of a document.  A production relates the bytes before a text to
the bytes after it, and says what the text denotes.  The bytes of a string above 0x7F stand for
themselves: that they are UTF-8 is not part of this grammar.
-/

namespace SpacePony.Json

open Nat List

/-! ### Whitespace -/

/-- `ws`. -/
inductive Ws : Bytes → Bytes → Prop
  | nil (s : Bytes) : Ws s s
  | cons {c : UInt8} {s r : Bytes} (hc : isWs c = true) (h : Ws s r) : Ws (c :: s) r

/-! ### Numbers -/

/-- `exp`. -/
structure Exponent where
  mark : UInt8
  sign : Option UInt8
  digits : Bytes

/-- `number`, in its parts. -/
structure NumberText where
  negative : Bool := false
  int : Bytes
  frac : Option Bytes := none
  exp : Option Exponent := none

/-- `1*DIGIT`. -/
def Digits (ds : Bytes) : Prop := ds ≠ [] ∧ ∀ c ∈ ds, isDigit c = true

/-- The number that digits stand for. -/
def decimal (ds : Bytes) : Nat := ds.foldl (fun r c => r * 10 + (digit c).toNat) 0

/-- The text of `[ frac ]`. -/
def fracText : Option Bytes → Bytes
  | some ds => dot :: ds
  | none => []

/-- The text of `[ exp ]`. -/
def expText : Option Exponent → Bytes
  | some e => e.mark :: (e.sign.toList ++ e.digits)
  | none => []

/-- The exponent is as the grammar has it. -/
structure Exponent.Wf (e : Exponent) : Prop where
  mark : e.mark = 0x65 ∨ e.mark = 0x45
  sign : ∀ c ∈ e.sign, c = plus ∨ c = minus
  digits : Digits e.digits

/-- What `_parse_number` has for the digits before the dot. -/
def intParts (ds : Bytes) : Int64 × Float × Bool :=
  (ds.foldl i64Step 0,
    if ds.length > 18 then ds.foldl f64Step 0 else (ds.foldl i64Step 0).toFloat, ds.length > 18)

/-- What it has for the part after the dot. -/
def fracParts : Option Bytes → Bool × Float
  | some ds => (true, (ds.foldl fracStep (0, 10)).1)
  | none => (false, 0)

/-- The sign of an exponent, as a factor. -/
def expSign (sign : Option UInt8) : Int64 := if sign = some minus then -1 else 1

/-- What it has for the exponent. -/
def expParts : Option Exponent → Bool × Int64
  | some e => (true, e.digits.foldl i64Step 0 * expSign e.sign)
  | none => (false, 0)

namespace NumberText

/-- `[ minus ] int [ frac ] [ exp ]`. -/
def text (n : NumberText) : Bytes :=
  (if n.negative then [minus] else []) ++ (n.int ++ (fracText n.frac ++ expText n.exp))

/-- The parts are as the grammar has them: `int` has no leading zero. -/
structure Wf (n : NumberText) : Prop where
  int : Digits n.int
  leading : n.int.head? = some zero → n.int.length = 1
  frac : ∀ ds ∈ n.frac, Digits ds
  exp : ∀ e ∈ n.exp, e.Wf

/-- The integer that the part before the dot stands for. -/
def integer (n : NumberText) : Int := if n.negative then -(decimal n.int : Int) else decimal n.int

/-- The sign, as a factor. -/
def sign (n : NumberText) : Int64 := if n.negative then -1 else 1

/-- The floating-point number of the text, as it is computed. -/
def float (n : NumberText) : Float :=
  n.sign.toFloat * ((intParts n.int).2.1 + (fracParts n.frac).2) *
    Float.pow 10 (expParts n.exp).2.toFloat

/-- What a number denotes: an integer of at most eighteen digits is an `I64`, and everything else is
an `F64`. -/
def value (n : NumberText) : JsonNumber :=
  if n.frac.isNone ∧ n.exp.isNone ∧ n.int.length ≤ 18 then .i64 (Int64.ofInt n.integer)
  else .f64 n.float

end NumberText

/-! ### Strings -/

/-- `4HEXDIG`, and its value. -/
inductive Hex4 : UInt32 → Bytes → Bytes → Prop
  | mk {a b c d : UInt8} {w x y z v : UInt32} (r : Bytes) (ha : hexDigit a = some w)
      (hb : hexDigit b = some x) (hc : hexDigit c = some y) (hd : hexDigit d = some z)
      (hv : v.toNat = ((w.toNat * 16 + x.toNat) * 16 + y.toNat) * 16 + z.toNat) :
      Hex4 v (a :: b :: c :: d :: r) r

/-- `*char quotation-mark`, and the bytes that it stands for.  The escape of a code point stands for
its encoding in UTF-8, and two surrogates have to be a pair. -/
inductive Chars : Bytes → Bytes → Bytes → Prop
  | close (r : Bytes) : Chars [] (quote :: r) r
  | unescaped {c : UInt8} {b s r : Bytes} (hc : 0x20 ≤ c) (hq : c ≠ quote) (hb : c ≠ backslash)
      (h : Chars b s r) : Chars (c :: b) (c :: s) r
  | escaped {e c : UInt8} {b s r : Bytes} (he : unescape e = some c) (h : Chars b s r) :
      Chars (c :: b) (backslash :: e :: s) r
  | codePoint {c : Char} {b s s' r : Bytes} (hx : Hex4 c.val s s') (h : Chars b s' r) :
      Chars (String.utf8EncodeChar c ++ b) (backslash :: 0x75 :: s) r
  | surrogates {c : Char} {high low : UInt32} {b s s' s'' r : Bytes}
      (hx : Hex4 high s (backslash :: 0x75 :: s')) (hx' : Hex4 low s' s'')
      (hh : 0xD800 ≤ high.toNat ∧ high.toNat < 0xDC00) (hl : 0xDC00 ≤ low.toNat ∧ low.toNat < 0xE000)
      (hc : c.toNat = 0x10000 + (high.toNat - 0xD800) * 0x400 + (low.toNat - 0xDC00))
      (h : Chars b s'' r) : Chars (String.utf8EncodeChar c ++ b) (backslash :: 0x75 :: s) r

/-! ### Values -/

/-- What is derived: a value, the rest of an array, or the rest of an object. -/
inductive Item
  | value (t : Tree)
  | elements (ts : List Tree)
  | members (ms : List (Bytes × Tree))

/-- `value`, and what follows `begin-array` and `begin-object` where there is an element or a
member. -/
inductive Derives : Item → Bytes → Bytes → Prop
  | literalTrue (r : Bytes) : Derives (.value (.bool true)) (0x74 :: 0x72 :: 0x75 :: 0x65 :: r) r
  | literalFalse (r : Bytes) :
      Derives (.value (.bool false)) (0x66 :: 0x61 :: 0x6C :: 0x73 :: 0x65 :: r) r
  | literalNull (r : Bytes) : Derives (.value .null) (0x6E :: 0x75 :: 0x6C :: 0x6C :: r) r
  | number {n : NumberText} (hn : n.Wf) (r : Bytes) :
      Derives (.value (.number n.value)) (n.text ++ r) r
  | string {b s r : Bytes} (h : Chars b s r) : Derives (.value (.string b)) (quote :: s) r
  | emptyArray {s r : Bytes} (hw : Ws s (closeBracket :: r)) :
      Derives (.value (.array [])) (openBracket :: s) r
  | array {ts : List Tree} {s r : Bytes} (h : Derives (.elements ts) s r) :
      Derives (.value (.array ts)) (openBracket :: s) r
  | emptyObject {s r : Bytes} (hw : Ws s (closeBrace :: r)) :
      Derives (.value (.object [])) (openBrace :: s) r
  | object {ms : List (Bytes × Tree)} {s r : Bytes} (h : Derives (.members ms) s r) :
      Derives (.value (.object ms)) (openBrace :: s) r
  | lastElement {t : Tree} {s s₁ s₂ r : Bytes} (hw : Ws s s₁) (h : Derives (.value t) s₁ s₂)
      (hw' : Ws s₂ (closeBracket :: r)) : Derives (.elements [t]) s r
  | element {t : Tree} {ts : List Tree} {s s₁ s₂ s₃ r : Bytes} (hw : Ws s s₁)
      (h : Derives (.value t) s₁ s₂) (hw' : Ws s₂ (comma :: s₃)) (h' : Derives (.elements ts) s₃ r) :
      Derives (.elements (t :: ts)) s r
  | lastMember {k : Bytes} {t : Tree} {s s₁ s₂ s₃ s₄ s₅ r : Bytes} (hw : Ws s (quote :: s₁))
      (hk : Chars k s₁ s₂) (hw₂ : Ws s₂ (colon :: s₃)) (hw₃ : Ws s₃ s₄)
      (h : Derives (.value t) s₄ s₅) (hw₅ : Ws s₅ (closeBrace :: r)) : Derives (.members [(k, t)]) s r
  | member {k : Bytes} {t : Tree} {ms : List (Bytes × Tree)} {s s₁ s₂ s₃ s₄ s₅ s₆ r : Bytes}
      (hw : Ws s (quote :: s₁)) (hk : Chars k s₁ s₂) (hw₂ : Ws s₂ (colon :: s₃)) (hw₃ : Ws s₃ s₄)
      (h : Derives (.value t) s₄ s₅) (hw₅ : Ws s₅ (comma :: s₆)) (h' : Derives (.members ms) s₆ r) :
      Derives (.members ((k, t) :: ms)) s r

/-- `JSON-text`: one value, with whitespace around it. -/
def Document (t : Tree) (source : Bytes) : Prop :=
  ∃ s r, Ws source s ∧ Derives (.value t) s r ∧ Ws r []

/-! ### Whitespace is passed over -/

section
variable {s s' r : Bytes} {c : UInt8}

/-- The text does not start with whitespace. -/
def NoWs (s : Bytes) : Prop := ∀ c ∈ s.head?, isWs c = false

theorem noWs_cons (hc : isWs c = false) : NoWs (c :: s) := by
  intro c' hc'
  cases hc'
  exact hc

theorem noWs_nil : NoWs [] := nofun

theorem ws_dropWhile (s : Bytes) : Ws s (s.dropWhile isWs) := by
  induction s with
  | nil => exact .nil []
  | cons c s ih =>
    by_cases hc : isWs c = true
    · rw [dropWhile_cons_of_pos hc]
      exact .cons hc ih
    · rw [dropWhile_cons_of_neg hc]
      exact .nil _

theorem noWs_dropWhile (s : Bytes) : NoWs (s.dropWhile isWs) := by
  intro c hc
  have h := head?_dropWhile_not isWs s
  rw [hc] at h
  simpa using h

theorem Ws.dropWhile_eq (h : Ws s r) (hr : NoWs r) : s.dropWhile isWs = r := by
  induction h with
  | nil s =>
    cases s with
    | nil => rfl
    | cons c s => exact dropWhile_cons_of_neg (by rw [hr c rfl]; decide)
  | cons hc _ ih => rw [dropWhile_cons_of_pos hc, ih hr]

theorem Ws.length_le (h : Ws s r) : r.length ≤ s.length := by
  induction h with
  | nil s => exact le_rfl
  | cons _ _ ih => exact ih.trans (le_succ _)

theorem Ws.trans (h : Ws s s') (h' : Ws s' r) : Ws s r := by
  induction h with
  | nil s => exact h'
  | cons hc _ ih => exact .cons hc (ih h')

end

/-! ### Lengths and first characters -/

section
variable {b s r : Bytes} {v : UInt32}

theorem Hex4.length_lt (h : Hex4 v s r) : r.length < s.length := by
  cases h
  simp only [length_cons]
  omega

theorem Chars.length_lt (h : Chars b s r) : r.length < s.length := by
  induction h with
  | close r => exact lt_succ_self _
  | unescaped _ _ _ _ ih => exact ih.trans (lt_succ_self _)
  | escaped _ _ ih =>
    simp only [length_cons]
    omega
  | codePoint hx _ ih =>
    have := hx.length_lt
    simp only [length_cons]
    omega
  | surrogates hx hx' _ _ _ _ ih =>
    have := hx.length_lt
    have := hx'.length_lt
    simp only [length_cons] at *
    omega

theorem isDigit_iff {c : UInt8} : isDigit c = true ↔ 0x30 ≤ c.toNat ∧ c.toNat ≤ 0x39 := by
  rw [isDigit, decide_eq_true_iff, UInt8.le_iff_toNat_le, UInt8.le_iff_toNat_le]
  rfl

/-- The bytes that a value starts with. -/
def startsValue (c : UInt8) : Bool :=
  c = openBrace ∨ c = openBracket ∨ c = quote ∨ c = 0x74 ∨ c = 0x66 ∨ c = 0x6E ∨ c = minus ∨
    isDigit c

theorem NumberText.Wf.exists_cons {n : NumberText} (hn : n.Wf) (r : Bytes) :
    ∃ c s, n.text ++ r = c :: s ∧ (c = minus ∨ isDigit c = true) := by
  rw [NumberText.text]
  cases n.negative with
  | true => exact ⟨minus, _, rfl, .inl rfl⟩
  | false =>
    obtain ⟨c, ds, hds⟩ := exists_cons_of_ne_nil hn.int.1
    rw [hds]
    exact ⟨c, _, rfl, .inr (hn.int.2 c (by rw [hds]; exact .head _))⟩

theorem Derives.exists_cons {t : Tree} (h : Derives (.value t) s r) :
    ∃ c s', s = c :: s' ∧ startsValue c = true := by
  cases h with
  | number hn =>
    obtain ⟨c, s, hs, hc⟩ := hn.exists_cons r
    refine ⟨c, s, hs, ?_⟩
    simp only [startsValue, decide_eq_true_eq]
    tauto
  | _ => exact ⟨_, _, rfl, rfl⟩

theorem ne_of_isDigit {c k : UInt8} (hc : isDigit c = true) (hk : isDigit k = false) : c ≠ k := by
  rintro rfl
  rw [hc] at hk
  cases hk

theorem startsValue_cases {c : UInt8} (h : startsValue c = true) :
    isWs c = false ∧ c ≠ closeBracket ∧ c ≠ closeBrace := by
  simp only [startsValue, decide_eq_true_eq] at h
  rcases h with rfl | rfl | rfl | rfl | rfl | rfl | rfl | hc
  all_goals try decide
  have hne : ∀ k, isDigit k = false → c ≠ k := fun k => ne_of_isDigit hc
  refine ⟨?_, hne _ rfl, hne _ rfl⟩
  rw [isWs, decide_eq_false_iff_not]
  rintro (h | h | h | h)
  · exact hne _ rfl h
  · exact hne _ rfl h
  · exact hne _ rfl h
  · exact hne _ rfl h

theorem Derives.noWs {t : Tree} (h : Derives (.value t) s r) : NoWs s := by
  obtain ⟨c, s', rfl, hc⟩ := h.exists_cons
  exact noWs_cons (startsValue_cases hc).1

/-- A text is not empty. -/
theorem Derives.length_lt {i : Item} (h : Derives i s r) : r.length < s.length := by
  induction h with
  | number hn r =>
    obtain ⟨c, s', hs', -⟩ := hn.exists_cons []
    rw [append_nil] at hs'
    rw [hs', length_append, length_cons]
    omega
  | string h => exact h.length_lt.trans (lt_succ_self _)
  | emptyArray hw =>
    have := hw.length_le
    simp only [length_cons] at *
    omega
  | array _ ih => exact ih.trans (lt_succ_self _)
  | emptyObject hw =>
    have := hw.length_le
    simp only [length_cons] at *
    omega
  | object _ ih => exact ih.trans (lt_succ_self _)
  | lastElement hw _ hw' ih | element hw _ hw' _ ih ih' =>
    have := hw.length_le
    have := hw'.length_le
    simp only [length_cons] at *
    omega
  | lastMember hw hk hw₂ hw₃ _ hw₅ ih | member hw hk hw₂ hw₃ _ hw₅ _ ih ih' =>
    have := hw.length_le
    have := hk.length_lt
    have := hw₂.length_le
    have := hw₃.length_le
    have := hw₅.length_le
    simp only [length_cons] at *
    omega
  | _ =>
    simp only [length_cons]
    omega

/-- Elements and members may have whitespace before them. -/
theorem Derives.elements_of_ws {ts : List Tree} {s' : Bytes} (hw : Ws s s')
    (h : Derives (.elements ts) s' r) : Derives (.elements ts) s r := by
  cases h with
  | lastElement hw' h h' => exact .lastElement (hw.trans hw') h h'
  | element hw' h h' hts => exact .element (hw.trans hw') h h' hts

theorem Derives.members_of_ws {ms : List (Bytes × Tree)} {s' : Bytes} (hw : Ws s s')
    (h : Derives (.members ms) s' r) : Derives (.members ms) s r := by
  cases h with
  | lastMember hw' hk h₂ h₃ h h₅ => exact .lastMember (hw.trans hw') hk h₂ h₃ h h₅
  | member hw' hk h₂ h₃ h h₅ hms => exact .member (hw.trans hw') hk h₂ h₃ h h₅ hms

/-- Elements do not start with a bracket that closes the array. -/
theorem Derives.elements_head {ts : List Tree} (h : Derives (.elements ts) s r) :
    ∃ c s', s.dropWhile isWs = c :: s' ∧ c ≠ closeBracket := by
  have hvalue : ∀ {t : Tree} {s₁ s₂ : Bytes}, Ws s s₁ → Derives (.value t) s₁ s₂ →
      ∃ c s', s.dropWhile isWs = c :: s' ∧ c ≠ closeBracket := by
    intro t s₁ s₂ hw ht
    obtain ⟨c, s', rfl, hc⟩ := ht.exists_cons
    exact ⟨c, s', hw.dropWhile_eq ht.noWs, (startsValue_cases hc).2.1⟩
  cases h with
  | lastElement hw ht _ | element hw ht _ _ => exact hvalue hw ht

/-- Members start with a quotation mark. -/
theorem Derives.members_head {ms : List (Bytes × Tree)} (h : Derives (.members ms) s r) :
    ∃ s', s.dropWhile isWs = quote :: s' := by
  cases h with
  | lastMember hw | member hw => exact ⟨_, hw.dropWhile_eq (noWs_cons rfl)⟩

end

end SpacePony.Json
