import SpacePony.Compiler.Lexer.Scan

/-!
# Compiler — the lexer stays inside the source

Every scanner keeps `ptr + len` at the length of the text and moves forward, and a round of
`lexer_next` faults exactly on a literal that dangles (`scan_ok`, `scan_faults`).
-/

namespace SpacePony.Lexing

open List Hoare Syntax

/-! ### Positions -/

/-- The rest of the text begins at `ptr` and has `len` characters. -/
def Lexer.Ok (s : Lexer) : Prop := s.ptr + s.len = s.source.length

/-- The characters not yet consumed. -/
def Lexer.rest (s : Lexer) : List Char := s.source.drop s.ptr

/-- What `lookn` returns. -/
def Lexer.peek (s : Lexer) (n : Nat) : Char :=
  if s.len < n then '\x00' else s.rest.getD (n - 1) '\x00'

/-- `s'` is a position of the same text, not before `s`. -/
structure Advance (s s' : Lexer) : Prop where
  source : s'.source = s.source
  allow : s'.allowTestSymbols = s.allowTestSymbols
  balance : s'.ptr + s'.len = s.ptr + s.len
  le : s'.len ≤ s.len

theorem Advance.refl (s : Lexer) : Advance s s := ⟨rfl, rfl, rfl, le_rfl⟩

variable {s' : Lexer} {n : Nat}

theorem Advance.trans {s s'' : Lexer} (h : Advance s s') (h' : Advance s' s'') : Advance s s'' :=
  ⟨h'.source.trans h.source, h'.allow.trans h.allow, h'.balance.trans h.balance, h'.le.trans h.le⟩

theorem Advance.ok {s : Lexer} (h : Advance s s') (hs : s.Ok) : s'.Ok := by
  rw [Lexer.Ok, h.source, h.balance]
  exact hs

theorem Advance.rest_eq {s : Lexer} (h : Advance s s') :
    s'.rest = s.rest.drop (s.len - s'.len) := by
  have hptr : s'.ptr = s.ptr + (s.len - s'.len) := by
    have hbal := h.balance
    have hle := h.le
    omega
  rw [Lexer.rest, Lexer.rest, h.source, drop_drop, hptr]

/-- The program moves forward. -/
def Moves {α : Type} (s : Lexer) (_ : α) (s' : Lexer) : Prop := Advance s s'

/-- The program consumes at least a character. -/
def Eats {α : Type} (s : Lexer) (_ : α) (s' : Lexer) : Prop := Advance s s' ∧ s'.len < s.len

theorem Lexer.Ok.length_rest {s : Lexer} (hs : s.Ok) : s.rest.length = s.len := by
  rw [Lexer.rest, length_drop, ← hs]
  omega

theorem le_len_of_peek {s : Lexer} (h : s.peek n ≠ '\x00') : n ≤ s.len := by
  by_contra hlt
  exact h (if_pos (by omega))

theorem Advance.of_fields {s : Lexer} (h₁ : s'.source = s.source)
    (h₂ : s'.allowTestSymbols = s.allowTestSymbols) (h₃ : s'.ptr = s.ptr) (h₄ : s'.len = s.len) :
    Advance s s' := ⟨h₁, h₂, by rw [h₃, h₄], h₄.le⟩

section
variable {α : Type} {s : Lexer}

theorem wp_sourceAt {Q : Char → Lexer → Prop} {i : Nat} (hi : i < s.source.length)
    (h : Q (s.source.getD i '\x00') s) : Wp (sourceAt i) Q s := by
  refine wp_bind (wp_get ?_)
  have hget : s.source[i]? = some (s.source.getD i '\x00') := by
    rw [getD_eq_getElem?_getD, getElem?_eq_getElem hi]
    rfl
  simp only [hget]
  exact wp_pure h

theorem peek_of_le (h0 : 0 < n) (h : n ≤ s.len) :
    s.peek n = s.source.getD (s.ptr + n - 1) '\x00' := by
  rw [Lexer.peek, if_neg (by omega), Lexer.rest, getD_eq_getElem?_getD,
    getD_eq_getElem?_getD, getElem?_drop]
  congr 3
  omega

theorem wp_lookn {Q : Char → Lexer → Prop} (hs : s.Ok) (h0 : 0 < n) (h : Q (s.peek n) s) :
    Wp (lookn n) Q s := by
  refine wp_bind (wp_get (wp_ite (fun hlt => wp_pure ?_) fun hle => ?_))
  · rw [Lexer.peek, if_pos hlt] at h
    exact h
  have hlen : s.ptr + s.len = s.source.length := hs
  refine wp_sourceAt (by omega) ?_
  rw [peek_of_le h0 (by omega)] at h
  exact h

theorem wp_look {Q : Char → Lexer → Prop} (hs : s.Ok) (h : Q (s.peek 1) s) : Wp look Q s := by
  refine wp_bind (wp_get (wp_ite (fun h0 => wp_pure ?_) fun h0 => ?_))
  · rw [Lexer.peek, if_pos (by omega)] at h
    exact h
  have hlen : s.ptr + s.len = s.source.length := hs
  refine wp_sourceAt (by omega) ?_
  rw [peek_of_le Nat.one_pos (by omega)] at h
  exact h

theorem wp_isEof {Q : Bool → Lexer → Prop} (h : Q (s.len == 0) s) : Wp isEof Q s :=
  wp_bind (wp_get (wp_pure h))

variable {c quote : Char} {Q : Unit → Lexer → Prop} {id : TokenId} {x : LexM α} {s₁ : Lexer}
  {rest : List Char} {value : Lexint} {context : String} {endOnE : Bool}

theorem advance_moved (h : n ≤ s.len) : Advance s (moved s c n) := by
  refine ⟨rfl, rfl, ?_, ?_⟩
  · simp only [moved]
    omega
  · simp only [moved]
    omega

/-- The contract of `consume_chars`: with enough characters left, it moves by `n`. -/
theorem wp_consumeChars (hs : s.Ok) (hn : n ≤ s.len)
    (h : ∀ s', Advance s s' → s'.len + n = s.len → s'.buffer = s.buffer → Q () s') :
    Wp (consumeChars n) Q s := by
  refine wp_bind (wp_get (wp_ite (fun hlt => absurd hlt (by omega)) fun _ => wp_ite
    (fun h0 => wp_pure (h s (Advance.refl s) (by omega) rfl)) fun h0 => ?_))
  have hlen : s.ptr + s.len = s.source.length := hs
  refine wp_bind (wp_sourceAt (by omega) (wp_set (h _ (advance_moved hn) ?_ rfl)))
  simp only [moved]
  omega

/-- `consume_chars` faults exactly when too few characters are left. -/
theorem ends_consumeChars {E : Fault → Prop} (hs : s.Ok)
    (h : n ≤ s.len → ∀ s', Advance s s' → s'.len + n = s.len → Q () s')
    (hE : s.len < n → E .assertion) : Ends (consumeChars n) Q E s := by
  by_cases hn : n ≤ s.len
  · exact Wp.ends (wp_consumeChars hs hn fun s' h₁ h₂ _ => h hn s' h₁ h₂)
  · refine ends_bind (Wp.ends (wp_get (ends_ite (fun _ => ends_throw (hE (by omega)))
      fun hlt => absurd hlt (by omega))))

theorem wp_makeTokenSet {Q : Token → Lexer → Prop} {text : TokenText} (h : ∀ t, Q t s) :
    Wp (makeTokenSet id text) Q s :=
  wp_bind (wp_get (wp_pure (h _)))

theorem wp_makeToken {Q : Token → Lexer → Prop} (h : ∀ t, Q t s) :
    Wp (makeToken id) Q s := wp_makeTokenSet h

theorem wp_makeTokenWithText {Q : Token → Lexer → Prop} (h : ∀ t, Q t s) :
    Wp (makeTokenWithText id) Q s := wp_bind (wp_get (wp_makeTokenSet h))

theorem wp_lexErrorAt {line pos : Nat} {message : String}
    (h : ∀ s', Advance s s' → s'.len = s.len → Q () s') : Wp (lexErrorAt line pos message) Q s :=
  wp_modify (h _ (.of_fields rfl rfl rfl rfl) rfl)

theorem wp_lexError {message : String} (h : ∀ s', Advance s s' → s'.len = s.len → Q () s') :
    Wp (lexError message) Q s :=
  wp_bind (wp_get (wp_lexErrorAt h))

theorem wp_appendToToken (h : ∀ s', Advance s s' → s'.len = s.len → Q () s') :
    Wp (appendToToken c) Q s :=
  wp_modify (h _ (.of_fields rfl rfl rfl rfl) rfl)

theorem wp_dropRest (h : ∀ s', Advance s s' → s'.len = 0 → Q () s') : Wp dropRest Q s :=
  wp_modify (h _ ⟨rfl, rfl, rfl, Nat.zero_le _⟩ rfl)

theorem literalDoesntTerminate_ok : Wp literalDoesntTerminate (Moves s) s :=
  wp_bind (wp_lexError fun _ h₁ _ => wp_bind (wp_dropRest fun _ h₂ _ =>
    wp_makeToken fun _ => h₁.trans h₂))

theorem Wp.eats (h : Advance s s₁) (hlt : s₁.len < s.len) (hx : Wp x (Moves s₁) s₁) :
    Wp x (Eats s) s₁ :=
  hx.mono fun _ _ h' => ⟨h.trans h', lt_of_le_of_lt h'.le hlt⟩

theorem Wp.moves (h : Advance s s₁) (hx : Wp x (Moves s₁) s₁) : Wp x (Moves s) s₁ :=
  hx.mono fun _ _ h' => h.trans h'

/-! ### Comments -/

theorem nestedCommentLoop_ok {depth : Nat} (hs : s.Ok) (hn : s.len < n) :
    Wp (nestedCommentLoop n depth) (Moves s) s := by
  induction n generalizing s depth with
  | zero => omega
  | succ n ih =>
    cases depth with
    | zero => exact wp_bind (wp_modify (wp_pure (.of_fields rfl rfl rfl rfl)))
    | succ depth =>
      refine wp_bind (wp_get (wp_ite (fun _ => ?_) fun hlen => ?_))
      · exact wp_bind (wp_lexError fun _ h₁ _ => wp_bind (wp_dropRest fun _ h₂ _ =>
          wp_bind (wp_makeToken fun _ => wp_pure (h₁.trans h₂))))
      refine wp_bind (wp_look hs (wp_bind (wp_lookn hs (by omega) ?_)))
      refine wp_ite (fun _ => ?_) fun _ => wp_ite (fun _ => ?_) fun _ => ?_
      all_goals
        refine wp_bind (wp_consumeChars hs (by omega) fun s₁ h₁ hlen₁ _ => ?_)
        exact Wp.moves h₁ (ih (h₁.ok hs) (by omega))

theorem nestedComment_ok (hs : s.Ok) (h2 : 2 ≤ s.len) : Wp nestedComment (Eats s) s := by
  refine wp_bind (wp_consumeChars hs h2 fun s₁ h₁ hlen₁ _ => wp_bind (wp_get ?_))
  exact Wp.eats h₁ (by omega) (nestedCommentLoop_ok (h₁.ok hs) (by omega))

theorem lineCommentLoop_ok (hs : s.Ok) (hn : s.len < n) : Wp (lineCommentLoop n) (Moves s) s := by
  induction n generalizing s with
  | zero => omega
  | succ n ih =>
    refine wp_bind (wp_isEof (wp_bind (wp_look hs (wp_ite (fun hc => ?_)
      fun _ => wp_pure (Advance.refl s)))))
    have hlen : s.len ≠ 0 := by simpa using hc.1
    refine wp_bind (wp_consumeChars hs (by omega) fun s₁ h₁ hlen₁ _ => ?_)
    exact Wp.moves h₁ (ih (h₁.ok hs) (by omega))

theorem lineComment_ok (hs : s.Ok) (h2 : 2 ≤ s.len) : Wp lineComment (Eats s) s := by
  refine wp_bind (wp_consumeChars hs h2 fun s₁ h₁ hlen₁ _ => wp_bind (wp_get (wp_bind ?_)))
  refine (lineCommentLoop_ok (h₁.ok hs) (by omega)).mono fun _ s₂ h₂ => wp_pure ?_
  exact ⟨h₁.trans h₂, lt_of_le_of_lt h₂.le (by omega)⟩

theorem slash_ok (hs : s.Ok) (h1 : 1 ≤ s.len) : Wp slash (Eats s) s := by
  refine wp_bind (wp_lookn hs (by omega) (wp_ite (fun hc => ?_) fun _ => wp_ite (fun hc => ?_)
    fun _ => wp_ite (fun hc => ?_) fun _ => ?_))
  · exact nestedComment_ok hs (le_len_of_peek (by rw [hc]; decide))
  · exact lineComment_ok hs (le_len_of_peek (by rw [hc]; decide))
  · have h2 : 2 ≤ s.len := le_len_of_peek (by rw [hc]; decide)
    exact wp_bind (wp_consumeChars hs h2 fun s₁ h₁ hlen₁ _ =>
      wp_bind (wp_makeToken fun _ => wp_pure ⟨h₁, by omega⟩))
  · exact wp_bind (wp_consumeChars hs h1 fun s₁ h₁ hlen₁ _ =>
      wp_bind (wp_makeToken fun _ => wp_pure ⟨h₁, by omega⟩))

/-! ### Strings -/

theorem extraQuotes_ok (hs : s.Ok) (hn : s.len < n) : Wp (extraQuotes n) (Moves s) s := by
  induction n generalizing s with
  | zero => omega
  | succ n ih =>
    refine wp_bind (wp_look hs (wp_ite (fun hc => ?_) fun _ => wp_pure (Advance.refl s)))
    have h1 : 1 ≤ s.len := le_len_of_peek (by rw [hc]; decide)
    refine wp_bind (wp_appendToToken fun s₁ h₁ hlen₁ => wp_bind
      (wp_consumeChars (h₁.ok hs) (by omega) fun s₂ h₂ hlen₂ _ => ?_))
    exact Wp.moves (h₁.trans h₂) (ih (h₂.ok (h₁.ok hs)) (by omega))

theorem tripleStringLoop_ok {startLine : Nat} {b : Bool} (hs : s.Ok) (hn : s.len < n) :
    Wp (tripleStringLoop startLine n b) (Moves s) s := by
  induction n generalizing s b with
  | zero => omega
  | succ n ih =>
    refine wp_bind (wp_isEof (wp_ite (fun _ => literalDoesntTerminate_ok) fun heof => ?_))
    have hlen : s.len ≠ 0 := by simpa using heof
    refine wp_bind (wp_look hs (wp_bind (wp_lookn hs (by omega) (wp_bind
      (wp_lookn hs (by omega) (wp_ite (fun hc => ?_) fun _ => ?_))))))
    · have h3 : 3 ≤ s.len := le_len_of_peek (by rw [hc.2.2]; decide)
      refine wp_bind (wp_consumeChars hs h3 fun s₁ h₁ hlen₁ _ => wp_bind (wp_get (wp_bind ?_)))
      refine (extraQuotes_ok (h₁.ok hs) (by omega)).mono fun _ s₂ h₂ => wp_bind (wp_get ?_)
      refine wp_ite (fun _ => ?_) fun _ => ?_
      · exact wp_bind (wp_lexError fun _ h₃ _ => wp_makeToken fun _ => (h₁.trans h₂).trans h₃)
      · exact wp_bind (wp_modify (wp_makeTokenWithText fun _ =>
          (h₁.trans h₂).trans (.of_fields rfl rfl rfl rfl)))
    · refine wp_bind (wp_get (wp_bind (wp_consumeChars hs (by omega) fun s₁ h₁ hlen₁ _ =>
        wp_bind (wp_appendToToken fun s₂ h₂ hlen₂ => ?_))))
      exact Wp.moves (h₁.trans h₂) (ih (h₂.ok (h₁.ok hs)) (by omega))

theorem tripleString_ok (hs : s.Ok) (h3 : 3 ≤ s.len) : Wp tripleString (Eats s) s := by
  refine wp_bind (wp_consumeChars hs h3 fun s₁ h₁ hlen₁ _ => wp_bind (wp_get ?_))
  exact Wp.eats h₁ (by omega) (tripleStringLoop_ok (h₁.ok hs) (by omega))

/-! ### Literals that dangle -/

/-- The text of a literal, after its opening quote, ends right after the backslash of an escape:
no closing quote comes before. -/
def dangles (quote : Char) : List Char → Bool
  | [] => false
  | [c] => c = '\\'
  | c :: d :: rest =>
    if c = quote then false
    else if c = '\\' then dangles quote rest
    else dangles quote (d :: rest)

theorem dangles_cons (hq : c ≠ quote) (hb : c ≠ '\\') :
    dangles quote (c :: rest) = dangles quote rest := by
  cases rest with
  | nil => simp [dangles, hb]
  | cons d rest => simp [dangles, hq, hb]

theorem dangles_quote (hq : quote ≠ '\\') : dangles quote (quote :: rest) = false := by
  cases rest with
  | nil => simp [dangles, hq]
  | cons d rest => simp [dangles]

theorem dangles_escape {d : Char} (hq : quote ≠ '\\') :
    dangles quote ('\\' :: d :: rest) = dangles quote rest := by
  have hne : '\\' ≠ quote := fun h => hq h.symm
  simp [dangles, hne]

theorem rest_of_one (hs : s.Ok) (h : Advance s s₁) (hlen : s₁.len + 1 = s.len) :
    s.rest = s.peek 1 :: s₁.rest := by
  rw [h.rest_eq, show s.len - s₁.len = 1 by omega, Lexer.peek, if_neg (by omega)]
  have hl := hs.length_rest
  cases hr : s.rest with
  | nil => rw [hr] at hl; simp at hl; omega
  | cons c rest => rfl

theorem rest_of_two (hs : s.Ok) (h : Advance s s₁) (hlen : s₁.len + 2 = s.len) :
    s.rest = s.peek 1 :: s.peek 2 :: s₁.rest := by
  rw [h.rest_eq, show s.len - s₁.len = 2 by omega, Lexer.peek, if_neg (by omega), Lexer.peek,
    if_neg (by omega)]
  have hl := hs.length_rest
  match hr : s.rest with
  | [] | [c] => rw [hr] at hl; simp at hl; omega
  | c :: d :: rest => rfl

/-- A hexadecimal digit is neither a quote nor a backslash. -/
theorem hexDigit_ne {d : Nat} (h : hexDigit c = some d) : c ≠ '\x22' ∧ c ≠ '\x27' ∧ c ≠ '\\' := by
  refine ⟨?_, ?_, ?_⟩ <;>
  · rintro rfl
    revert h
    decide +revert

/-- The two quotes of literals. -/
def IsQuote (q : Char) : Prop := q = '\x22' ∨ q = '\x27'

theorem IsQuote.ne_backslash {q : Char} (h : IsQuote q) : q ≠ '\\' := by
  rcases h with rfl | rfl <;> decide

theorem readHexEscape_ok {length textLen value : Nat} (hs : s.Ok) :
    Wp (readHexEscape length textLen value) (fun _ s' => Advance s s' ∧
      ∀ q, IsQuote q → dangles q s'.rest = dangles q s.rest) s := by
  induction length generalizing s textLen value with
  | zero => exact wp_pure ⟨Advance.refl s, fun _ _ => rfl⟩
  | succ length ih =>
    refine wp_bind (wp_look hs ?_)
    cases hc : hexDigit (s.peek 1) with
    | none => exact wp_pure ⟨Advance.refl s, fun _ _ => rfl⟩
    | some digit =>
      have hne := hexDigit_ne hc
      have h1 : 1 ≤ s.len := le_len_of_peek fun h0 => by
        rw [h0] at hc
        revert hc
        decide +revert
      refine wp_bind (wp_consumeChars hs h1 fun s₁ h₁ hlen₁ _ => ?_)
      refine (ih (h₁.ok hs)).mono fun _ s₂ ⟨h₂, hd⟩ => ⟨h₁.trans h₂, fun q hq => ?_⟩
      rw [hd q hq, rest_of_one hs h₁ hlen₁, dangles_cons ?_ hne.2.2]
      rcases hq with rfl | rfl
      · exact hne.1
      · exact hne.2.1

/-- `escape` faults exactly when the backslash is the last character. -/
theorem escape_ends {u b : Bool} (hs : s.Ok) (h1 : 1 ≤ s.len) (hc : s.peek 1 = '\\') :
    Ends (escape u b) (fun _ s' => Advance s s' ∧ s'.len < s.len ∧
        ∀ q, IsQuote q → dangles q s'.rest = dangles q s.rest)
      (fun e => e = .assertion ∧ ∀ q, dangles q s.rest = true) s := by
  refine ends_bind (Wp.ends (wp_get (ends_bind (Wp.ends (wp_lookn hs (by omega) (ends_bind
    (ends_consumeChars hs (fun h2 s₁ h₁ hlen₁ => ?_) fun h2 => ⟨rfl, fun q => ?_⟩)))))))
  · -- the value of the escape is of no matter for the position
    have hskip : ∀ q, IsQuote q → dangles q s₁.rest = dangles q s.rest := fun q hq => by
      rw [rest_of_two hs h₁ hlen₁, hc, dangles_escape hq.ne_backslash]
    refine Wp.ends ?_
    generalize escapeSwitch (s.peek 2) u b = sw
    obtain ⟨value, hexDigits⟩ := sw
    refine wp_ite (fun _ => wp_bind ?_) fun _ => ?_
    · refine (readHexEscape_ok (h₁.ok hs)).mono fun r s₂ ⟨h₂, hd⟩ => ?_
      have hlt : s₂.len < s.len := lt_of_le_of_lt h₂.le (by omega)
      have hd₂ : ∀ q, IsQuote q → dangles q s₂.rest = dangles q s.rest := fun q hq =>
        (hd q hq).trans (hskip q hq)
      have herror : ∀ message, Wp (do lexErrorAt s.line s.pos message; pure none : LexM (Option Nat))
          (fun _ s' => Advance s s' ∧ s'.len < s.len ∧
            ∀ q, IsQuote q → dangles q s'.rest = dangles q s.rest) s₂ := fun message =>
        wp_bind (wp_lexErrorAt fun s₃ h₃ hlen₃ => wp_pure ⟨(h₁.trans h₂).trans h₃, by omega,
          fun q hq => by rw [h₃.rest_eq, hlen₃, Nat.sub_self, drop_zero, hd₂ q hq]⟩)
      cases r with
      | error textLen => exact herror _
      | ok value =>
        refine wp_ite (fun _ => herror _) fun _ => wp_pure ⟨h₁.trans h₂, hlt, hd₂⟩
    cases value with
    | some value => exact wp_pure ⟨h₁, by omega, hskip⟩
    | none =>
      exact wp_bind (wp_lexErrorAt fun s₃ h₃ hlen₃ => wp_pure ⟨h₁.trans h₃, by omega,
        fun q hq => by rw [h₃.rest_eq, hlen₃, Nat.sub_self, drop_zero, hskip q hq]⟩)
  have hl := hs.length_rest
  have hlast : s.rest = ['\\'] := by
    rw [Lexer.peek, if_neg (by omega)] at hc
    match hr : s.rest with
    | [] => rw [hr] at hl; simp at hl; omega
    | [c] => rw [hr] at hc; simpa using hc
    | c :: d :: rest => rw [hr] at hl; simp at hl; omega
  rw [hlast]
  rfl

theorem Advance.rest_same (h : Advance s s₁) (hlen : s₁.len = s.len) : s₁.rest = s.rest := by
  rw [h.rest_eq, hlen, Nat.sub_self, drop_zero]

theorem appendUtf8_ok {value : Nat} :
    Wp (appendUtf8 value) (fun _ s' => Advance s s' ∧ s'.len = s.len) s := by
  refine wp_ite (fun _ => ?_) fun _ => wp_ite (fun _ => ?_) fun _ => wp_ite (fun _ => ?_)
    fun _ => ?_
  · exact wp_appendToToken fun _ h hl => ⟨h, hl⟩
  · exact wp_bind (wp_appendToToken fun _ h₁ hl₁ => wp_appendToToken fun _ h₂ hl₂ =>
      ⟨h₁.trans h₂, hl₂.trans hl₁⟩)
  · exact wp_bind (wp_appendToToken fun _ h₁ hl₁ => wp_bind (wp_appendToToken fun _ h₂ hl₂ =>
      wp_appendToToken fun _ h₃ hl₃ => ⟨(h₁.trans h₂).trans h₃, hl₃.trans (hl₂.trans hl₁)⟩))
  · exact wp_bind (wp_appendToToken fun _ h₁ hl₁ => wp_bind (wp_appendToToken fun _ h₂ hl₂ =>
      wp_bind (wp_appendToToken fun _ h₃ hl₃ => wp_appendToToken fun _ h₄ hl₄ =>
        ⟨((h₁.trans h₂).trans h₃).trans h₄, hl₄.trans (hl₃.trans (hl₂.trans hl₁))⟩)))

/-- The loop of a literal with this quote: it faults exactly when the rest of the text
dangles. -/
def Reads {α : Type} (quote : Char) (x : LexM α) (s : Lexer) : Prop :=
  Ends x (fun _ s' => Advance s s' ∧ dangles quote s.rest = false)
    (fun e => e = .assertion ∧ dangles quote s.rest = true) s

/-- A literal whose rest dangles like that of an earlier position. -/
theorem Reads.earlier (h : Advance s s₁) (hd : dangles quote s₁.rest = dangles quote s.rest)
    (hx : Reads quote x s₁) : Ends x (fun _ s' => Advance s s' ∧ dangles quote s.rest = false)
      (fun e => e = .assertion ∧ dangles quote s.rest = true) s₁ :=
  Ends.mono hx (fun _ _ ⟨h', hd'⟩ => ⟨h.trans h', hd ▸ hd'⟩) fun _ ⟨he, hd'⟩ => ⟨he, hd ▸ hd'⟩

theorem reads_eof (hs : s.Ok) (h0 : s.len = 0) : Reads quote literalDoesntTerminate s := by
  have hrest : s.rest = [] := eq_nil_of_length_eq_zero (hs.length_rest.trans h0)
  refine Wp.ends (literalDoesntTerminate_ok.mono fun _ _ h => ⟨h, ?_⟩)
  rw [hrest]
  rfl

theorem stringLoop_reads (hs : s.Ok) (hn : s.len < n) : Reads '\x22' (stringLoop n) s := by
  induction n generalizing s with
  | zero => omega
  | succ n ih =>
    refine ends_bind (Wp.ends (wp_isEof (ends_ite (fun heof => ?_) fun heof => ?_)))
    · exact reads_eof hs (by simpa using heof)
    have hlen : 1 ≤ s.len := by
      have hne : s.len ≠ 0 := by simpa using heof
      omega
    refine ends_bind (Wp.ends (wp_look hs (ends_ite (fun hc => ?_) fun hc => ends_ite
      (fun hb => ends_bind ?_) fun hb => ?_)))
    · refine Wp.ends (wp_bind (wp_consumeChars hs hlen fun s₁ h₁ hlen₁ _ =>
        wp_makeTokenWithText fun _ => ⟨h₁, ?_⟩))
      rw [rest_of_one hs h₁ hlen₁, hc]
      exact dangles_quote (by decide)
    · refine (escape_ends hs hlen hb).mono (fun value s₁ ⟨h₁, hlt, hd⟩ => ?_)
        fun _ ⟨he, hd⟩ => ⟨he, hd _⟩
      cases value with
      | none => exact (ih (h₁.ok hs) (by omega)).earlier h₁ (hd _ (.inl rfl))
      | some value =>
        refine ends_bind (Wp.ends (appendUtf8_ok.mono fun _ s₂ ⟨h₂, hlen₂⟩ => ?_))
        refine (ih ((h₁.trans h₂).ok hs) (by omega)).earlier (h₁.trans h₂) ?_
        rw [h₂.rest_same hlen₂]
        exact hd _ (.inl rfl)
    · refine ends_bind (Wp.ends (wp_appendToToken fun s₁ h₁ hlen₁ => ends_bind (Wp.ends
        (wp_consumeChars (h₁.ok hs) (by omega) fun s₂ h₂ hlen₂ _ => ?_))))
      refine (ih ((h₁.trans h₂).ok hs) (by omega)).earlier (h₁.trans h₂) ?_
      rw [rest_of_one hs (h₁.trans h₂) (by omega), dangles_cons hc hb]

theorem characterLoop_reads {count : Nat} (hs : s.Ok) (hn : s.len < n) :
    Reads '\x27' (characterLoop n count value) s := by
  induction n generalizing s count value with
  | zero => omega
  | succ n ih =>
    refine ends_bind (Wp.ends (wp_isEof (ends_ite (fun heof => ?_) fun heof => ?_)))
    · exact reads_eof hs (by simpa using heof)
    have hlen : 1 ≤ s.len := by
      have hne : s.len ≠ 0 := by simpa using heof
      omega
    refine ends_bind (Wp.ends (wp_look hs (ends_ite (fun hc => ?_) fun hc => ends_ite
      (fun hb => ends_bind ?_) fun hb => ?_)))
    · refine Wp.ends (wp_bind (wp_consumeChars hs hlen fun s₁ h₁ hlen₁ _ => ?_))
      have hd : dangles '\x27' s.rest = false := by
        rw [rest_of_one hs h₁ hlen₁, hc]
        exact dangles_quote (by decide)
      refine wp_ite (fun _ => ?_) fun _ => wp_makeTokenSet fun _ => ⟨h₁, hd⟩
      exact wp_bind (wp_lexError fun _ h₂ _ => wp_makeToken fun _ => ⟨h₁.trans h₂, hd⟩)
    · refine (escape_ends hs hlen hb).mono (fun e s₁ ⟨h₁, hlt, hd⟩ => ?_)
        fun _ ⟨he, hd⟩ => ⟨he, hd _⟩
      cases e <;> exact (ih (h₁.ok hs) (by omega)).earlier h₁ (hd _ (.inr rfl))
    · refine ends_bind (Wp.ends (wp_consumeChars hs hlen fun s₁ h₁ hlen₁ _ => ?_))
      refine (ih (h₁.ok hs) (by omega)).earlier h₁ ?_
      rw [rest_of_one hs h₁ hlen₁, dangles_cons hc hb]

/-- The text begins with a literal, not a triple quoted string, that dangles. -/
def danglingLiteral : List Char → Bool
  | '\x22' :: '\x22' :: '\x22' :: _ => false
  | '\x22' :: rest => dangles '\x22' rest
  | '\x27' :: rest => dangles '\x27' rest
  | _ => false

/-- A scanner that consumes a character, or faults exactly on a literal that dangles. -/
def Scans {α : Type} (x : LexM α) (s : Lexer) : Prop :=
  Ends x (fun _ s' => (Advance s s' ∧ s'.len < s.len) ∧ danglingLiteral s.rest = false)
    (fun e => e = .assertion ∧ danglingLiteral s.rest = true) s

theorem scans_of_eats (hd : danglingLiteral s.rest = false) (h : Wp x (Eats s) s) : Scans x s :=
  Wp.ends (h.mono fun _ _ h' => ⟨h', hd⟩)

/-- After its opening quote, a literal goes on like the text after the quote. -/
theorem Reads.scans (h : Advance s s₁) (hlt : s₁.len < s.len)
    (hd : danglingLiteral s.rest = dangles quote s₁.rest) (hx : Reads quote x s₁) :
    Ends x (fun _ s' => (Advance s s' ∧ s'.len < s.len) ∧ danglingLiteral s.rest = false)
      (fun e => e = .assertion ∧ danglingLiteral s.rest = true) s₁ :=
  Ends.mono hx (fun _ _ ⟨h', hd'⟩ => ⟨⟨h.trans h', lt_of_le_of_lt h'.le hlt⟩, hd ▸ hd'⟩)
    fun _ ⟨he, hd'⟩ => ⟨he, hd ▸ hd'⟩

theorem string_scans (hs : s.Ok) (h1 : 1 ≤ s.len) (hc : s.peek 1 = '\x22') : Scans string s := by
  refine ends_bind (Wp.ends (wp_lookn hs (by omega) (ends_bind (Wp.ends (wp_lookn hs (by omega)
    (ends_ite (fun hq => ?_) fun hq => ?_))))))
  · have h3 : 3 ≤ s.len := le_len_of_peek (by rw [hq.2]; decide)
    refine scans_of_eats ?_ (tripleString_ok hs h3)
    have hl := hs.length_rest
    rw [Lexer.peek, if_neg (by omega)] at hc hq
    rw [Lexer.peek, if_neg (by omega)] at hq
    match hr : s.rest with
    | [] | [_] | [_, _] => rw [hr] at hl; simp at hl; omega
    | c :: d :: e :: rest =>
      rw [hr] at hc hq
      simp only [getD_cons_zero, getD_cons_succ, Nat.sub_self] at hc hq
      obtain ⟨rfl, rfl⟩ := hq
      rw [hc]
      rfl
  refine ends_bind (Wp.ends (wp_consumeChars hs h1 fun s₁ h₁ hlen₁ _ => ends_bind (Wp.ends
    (wp_get ?_))))
  refine (stringLoop_reads (h₁.ok hs) (by omega)).scans h₁ (by omega) ?_
  have hr := rest_of_one hs h₁ hlen₁
  have hl := (h₁.ok hs).length_rest
  rw [hr, hc]
  match hr₁ : s₁.rest with
  | [] => rfl
  | [c] => simp [danglingLiteral]
  | c :: d :: rest =>
    have hnot : ¬ (c = '\x22' ∧ d = '\x22') := by
      rintro ⟨rfl, rfl⟩
      refine hq ⟨?_, ?_⟩ <;>
      · rw [Lexer.peek, if_neg (by rw [hr₁] at hl; simp at hl; omega), hr, hr₁]
        rfl
    simp only [danglingLiteral]
    split <;> simp_all

theorem character_scans (hs : s.Ok) (h1 : 1 ≤ s.len) (hc : s.peek 1 = '\x27') :
    Scans character s := by
  refine ends_bind (Wp.ends (wp_consumeChars hs h1 fun s₁ h₁ hlen₁ _ => ends_bind (Wp.ends
    (wp_get ?_))))
  refine (characterLoop_reads (h₁.ok hs) (by omega)).scans h₁ (by omega) ?_
  rw [rest_of_one hs h₁ hlen₁, hc]
  rfl

/-! ### Numbers -/

theorem lexIntegerEnd_ok {count : Nat} {under : Bool} :
    Wp (lexIntegerEnd context value count under) (Moves s) s := by
  refine wp_ite (fun _ => ?_) fun _ => wp_ite (fun _ => ?_) fun _ => wp_pure (Advance.refl s)
  all_goals exact wp_bind (wp_lexError fun _ h _ => wp_pure h)

theorem lexIntegerLoop_ok {base : Nat} {count : Nat} {under : Bool} (hs : s.Ok) (hn : s.len < n) :
    Wp (lexIntegerLoop base endOnE context n value count under) (Moves s) s := by
  induction n generalizing s value count under with
  | zero => omega
  | succ n ih =>
    refine wp_bind (wp_isEof (wp_ite (fun _ => lexIntegerEnd_ok) fun heof => ?_))
    have hlen : 1 ≤ s.len := by
      have hne : s.len ≠ 0 := by simpa using heof
      omega
    refine wp_bind (wp_look hs (wp_ite (fun _ => wp_ite (fun _ => ?_) fun _ => ?_) fun _ =>
      wp_ite (fun _ => lexIntegerEnd_ok) fun _ => ?_))
    · exact wp_bind (wp_lexError fun _ h _ => wp_pure h)
    · refine wp_bind (wp_consumeChars hs hlen fun s₁ h₁ hlen₁ _ => ?_)
      exact Wp.moves h₁ (ih (h₁.ok hs) (by omega))
    cases anyDigit (s.peek 1) with
    | none => exact lexIntegerEnd_ok
    | some digit =>
      refine wp_ite (fun _ => ?_) fun _ => ?_
      · exact wp_bind (wp_lexError fun _ h _ => wp_pure h)
      cases value.accum (UInt64.ofNat digit) (UInt64.ofNat base) with
      | none => exact wp_bind (wp_lexError fun _ h _ => wp_pure h)
      | some value =>
        refine wp_bind (wp_consumeChars hs hlen fun s₁ h₁ hlen₁ _ => ?_)
        exact Wp.moves h₁ (ih (h₁.ok hs) (by omega))

theorem lexInteger_ok {base : Nat} (hs : s.Ok) :
    Wp (lexInteger base value endOnE context) (Moves s) s :=
  wp_bind (wp_get (lexIntegerLoop_ok hs (by omega)))

/-- A first decimal digit never overflows. -/
theorem accum_zero_isSome {d : Nat} (h : d < 10) :
    (Lexint.zero.accum (UInt64.ofNat d) 10).isSome = true := by
  have hall : ∀ d : Fin 10, (Lexint.zero.accum (UInt64.ofNat d) 10).isSome = true := by
    decide
  exact hall ⟨d, h⟩

section
variable (hs : s.Ok)
include hs

/-- On a decimal digit, `lex_integer` in base ten consumes it. -/
theorem lexInteger_eats (hc : (s.peek 1).isDigit = true) :
    Wp (lexInteger 10 .zero endOnE context) (Eats s) s := by
  have hrange : '0' ≤ s.peek 1 ∧ s.peek 1 ≤ '9' := by simpa [Char.isDigit, Char.le_def] using hc
  have hlen : 1 ≤ s.len := le_len_of_peek fun h0 => by
    rw [h0] at hc
    exact absurd hc (by decide)
  have hne : ∀ c : Char, c.isDigit = false → s.peek 1 ≠ c := fun c hd heq => by
    rw [heq, hd] at hc
    cases hc
  have hdigit : anyDigit (s.peek 1) = some ((s.peek 1).toNat - '0'.toNat) := by
    rw [anyDigit, if_pos hrange]
  have hlt : (s.peek 1).toNat - '0'.toNat < 10 := by
    have hle : (s.peek 1).toNat ≤ 57 := hrange.2
    have h48 : '0'.toNat = 48 := rfl
    omega
  refine wp_bind (wp_get (wp_bind (wp_isEof (wp_ite (fun heof => ?_) fun _ => ?_))))
  · have h0 : s.len = 0 := by simpa using heof
    omega
  refine wp_bind (wp_look hs ?_)
  rw [if_neg (hne _ (by decide)), if_neg (fun h => h.2.elim (hne _ (by decide))
    (hne _ (by decide))), hdigit]
  refine wp_ite (fun h => absurd h (by omega)) fun _ => ?_
  obtain ⟨value, hv⟩ := Option.isSome_iff_exists.1 (accum_zero_isSome hlt)
  have hv' : Lexint.zero.accum (UInt64.ofNat ((s.peek 1).toNat - '0'.toNat)) (UInt64.ofNat 10) =
      some value := hv
  rw [hv']
  refine wp_bind (wp_consumeChars hs hlen fun s₁ h₁ hlen₁ _ => ?_)
  exact Wp.eats h₁ (by omega) (lexIntegerLoop_ok (h₁.ok hs) (by omega))

theorem consumeSign_ok : Wp (consumeSign (s.peek 1)) (Moves s) s := by
  refine wp_ite (fun hsign => ?_) fun _ => wp_pure (Advance.refl s)
  have hlen : 1 ≤ s.len := le_len_of_peek (by rcases hsign with h | h <;> rw [h] <;> decide)
  exact wp_consumeChars hs hlen fun _ h _ _ => h

theorem realExponent_ok {significand : Lexint} {digits : Nat} :
    Wp (realExponent significand digits) (Moves s) s := by
  refine wp_bind (wp_look hs (wp_ite (fun hc => ?_) fun _ =>
    wp_makeTokenSet fun _ => Advance.refl s))
  have hlen : 1 ≤ s.len := le_len_of_peek (by rcases hc with hc | hc <;> rw [hc] <;> decide)
  refine wp_bind (wp_consumeChars hs hlen fun s₁ h₁ hlen₁ _ => ?_)
  have hs₁ := h₁.ok hs
  refine wp_bind (wp_look hs₁ (wp_bind ?_))
  refine (consumeSign_ok hs₁).mono fun _ s₂ h₂ => wp_bind ((lexInteger_ok (h₂.ok hs₁)).mono fun r s₃ h₃ => ?_)
  cases r with
  | none => exact wp_makeToken fun _ => (h₁.trans h₂).trans h₃
  | some r => exact wp_makeTokenSet fun _ => (h₁.trans h₂).trans h₃

theorem real_ok : Wp (real value) (Moves s) s := by
  refine wp_bind (wp_look hs (wp_ite (fun hc => ?_) fun _ => realExponent_ok hs))
  refine wp_bind (wp_lookn hs (by omega) (wp_ite (fun _ => wp_makeTokenSet fun _ =>
    Advance.refl s) fun _ => ?_))
  have hlen : 1 ≤ s.len := le_len_of_peek (by rw [hc]; decide)
  refine wp_bind (wp_consumeChars hs hlen fun s₁ h₁ hlen₁ _ => wp_bind ?_)
  refine (lexInteger_ok (h₁.ok hs)).mono fun r s₂ h₂ => ?_
  cases r with
  | none => exact wp_makeToken fun _ => h₁.trans h₂
  | some r => exact Wp.moves (h₁.trans h₂) (realExponent_ok ((h₁.trans h₂).ok hs))

theorem nondecimalNumber_ok {base : Nat} : Wp (nondecimalNumber base context) (Moves s) s := by
  refine wp_bind ((lexInteger_ok hs).mono fun r s₁ h₁ => ?_)
  cases r with
  | none => exact wp_makeToken fun _ => h₁
  | some r => exact wp_makeTokenSet fun _ => h₁

theorem decimalNumber_ok (hc : (s.peek 1).isDigit = true) : Wp decimalNumber (Eats s) s := by
  refine wp_bind ((lexInteger_eats hs hc).mono fun r s₁ h₁ => ?_)
  cases r with
  | none => exact wp_makeToken fun _ => h₁
  | some r =>
    refine wp_bind (wp_look (h₁.1.ok hs) (wp_ite (fun _ => ?_) fun _ =>
      wp_makeTokenSet fun _ => h₁))
    exact Wp.eats h₁.1 h₁.2 (real_ok (h₁.1.ok hs))

theorem number_ok (hc : (s.peek 1).isDigit = true) : Wp number (Eats s) s := by
  refine wp_bind (wp_look hs (wp_bind (wp_lookn hs (by omega) (wp_ite (fun h => ?_) fun _ =>
    wp_ite (fun h => ?_) fun _ => decimalNumber_ok hs hc))))
  all_goals
    have h2 : 2 ≤ s.len := le_len_of_peek (by rcases h.2 with h | h <;> rw [h] <;> decide)
    refine wp_bind (wp_consumeChars hs h2 fun s₁ h₁ hlen₁ _ => ?_)
    exact Wp.eats h₁ (by omega) (nondecimalNumber_ok (h₁.ok hs))

/-! ### Keywords and symbols -/

theorem readIdLoop_ok {len : Nat} (hlen : len ≤ s.len) (hn : s.len < n + len) :
    Wp (readIdLoop n len) (fun k s' => Advance s s' ∧ s'.len = s.len ∧ len ≤ k ∧ k ≤ s.len ∧
      (isIdChar (s.peek (len + 1)) = true → len < k)) s := by
  induction n generalizing s len with
  | zero => omega
  | succ n ih =>
    refine wp_bind (wp_lookn hs (by omega) (wp_ite (fun hc => ?_) fun hc => ?_))
    · have hlt : len + 1 ≤ s.len := le_len_of_peek fun h0 => by
        rw [h0] at hc
        exact absurd hc (by decide)
      refine wp_bind (wp_appendToToken fun s₁ h₁ hlen₁ => ?_)
      refine (ih (h₁.ok hs) (by omega) (by omega)).mono
        fun k s₂ ⟨h₂, hl₂, hle, hge, _⟩ => ⟨h₁.trans h₂, by omega, by omega, by omega, ?_⟩
      intro _
      omega
    · exact wp_pure ⟨Advance.refl s, rfl, le_rfl, hlen, fun h => absurd h hc⟩

/-- `keyword` consumes what `read_id` read, and finds a token if it may be an identifier. -/
theorem keyword_ok {allow : Bool} : Wp (keyword allow) (fun t s' => Advance s s' ∧
      (allow = true → isIdChar (s.peek 1) = true → t ≠ none ∧ s'.len < s.len)) s := by
  refine wp_bind (wp_bind (wp_get ((readIdLoop_ok hs (Nat.zero_le _) (by omega)).mono
    fun k s₁ ⟨h₁, hl₁, _, hk, hid⟩ => wp_bind (wp_get ?_))))
  have hs₁ := h₁.ok hs
  cases keywords.find? (fun p => p.1 == s₁.buffer) with
  | some p =>
    refine wp_bind (wp_consumeChars hs₁ (by omega) fun s₂ h₂ hl₂ _ => wp_bind
      (wp_makeToken fun t => wp_pure ⟨h₁.trans h₂, fun _ hc => ⟨by simp, ?_⟩⟩))
    have hpos := hid hc
    omega
  | none =>
    refine wp_ite (fun h => ?_) fun h => wp_pure ⟨h₁, fun ha hc => absurd ⟨ha, hid hc⟩ h⟩
    refine wp_bind (wp_consumeChars hs₁ (by omega) fun s₂ h₂ hl₂ _ => wp_bind
      (wp_makeTokenWithText fun t => wp_pure ⟨h₁.trans h₂, fun _ _ => ⟨by simp, ?_⟩⟩))
    omega

theorem hash_ok (h1 : 1 ≤ s.len) : Wp hash (Eats s) s := by
  refine wp_bind (wp_look hs (wp_bind (wp_appendToToken fun s₁ h₁ hl₁ => wp_bind
    (wp_consumeChars (h₁.ok hs) (by omega) fun s₂ h₂ hl₂ _ => wp_bind ?_))))
  refine (keyword_ok (h₂.ok (h₁.ok hs))).mono fun t s₃ ⟨h₃, _⟩ => ?_
  have heat : Advance s s₃ ∧ s₃.len < s.len :=
    ⟨(h₁.trans h₂).trans h₃, lt_of_le_of_lt h₃.le (by omega)⟩
  cases t with
  | some t => exact wp_pure heat
  | none => exact wp_makeToken fun _ => heat

end

theorem dollarError_ok : Wp dollarError (Moves s) s :=
  wp_bind (wp_lexError fun _ h _ => wp_makeToken fun _ => h)

theorem dollar_ok (hs : s.Ok) (h1 : 1 ≤ s.len) : Wp dollar (Eats s) s := by
  refine wp_bind (wp_look hs (wp_bind (wp_appendToToken fun s₁ h₁ hl₁ => wp_bind
    (wp_consumeChars (h₁.ok hs) (by omega) fun s₂ h₂ hl₂ _ => wp_bind (wp_get ?_)))))
  refine wp_ite (fun _ => wp_bind ?_) fun _ =>
    Wp.eats (h₁.trans h₂) (by omega) dollarError_ok
  refine (keyword_ok (h₂.ok (h₁.ok hs))).mono fun t s₃ ⟨h₃, _⟩ => ?_
  have hlt : s₃.len < s.len := lt_of_le_of_lt h₃.le (by omega)
  cases t with
  | some t => exact wp_pure ⟨(h₁.trans h₂).trans h₃, hlt⟩
  | none => exact Wp.eats ((h₁.trans h₂).trans h₃) hlt dollarError_ok

/-- Symbols have one to three characters, none of them the terminator. -/
theorem symbols_text {p : List Char × TokenId} (h : p ∈ symbols) :
    0 < p.1.length ∧ '\x00' ∉ p.1 := by
  have hall : ∀ p ∈ symbols, 0 < p.1.length ∧ '\x00' ∉ p.1 := by decide
  exact hall p h

/-- A symbol that matches the lookahead lies inside the text. -/
theorem length_le_of_isPrefixOf {text : List Char} (h0 : '\x00' ∉ text)
    (h : text.isPrefixOf [s.peek 1, s.peek 2, s.peek 3] = true) : text.length ≤ s.len := by
  rw [List.isPrefixOf_iff_prefix] at h
  rcases eq_nil_or_concat text with rfl | ⟨pre, c, rfl⟩
  · exact Nat.zero_le _
  obtain ⟨rest, hrest⟩ := h
  have hc : c ≠ '\x00' := fun hc => h0 (by simp [hc])
  -- the last character of the symbol is the lookahead at its length
  have hpeek : s.peek (pre.length + 1) = c := by
    have hlen := congrArg length hrest
    simp at hlen
    match pre, hrest with
    | [], hrest => simp at hrest; exact hrest.1.symm
    | [_], hrest => simp at hrest; exact hrest.2.1.symm
    | [_, _], hrest => simp at hrest; exact hrest.2.2.1.symm
    | _ :: _ :: _ :: _, _ => simp at hlen; omega
  have hle : pre.length + 1 ≤ s.len := le_len_of_peek (by rw [hpeek]; exact hc)
  simpa using hle

theorem symbol_ok (hs : s.Ok) (h1 : 1 ≤ s.len) : Wp symbol (Eats s) s := by
  refine wp_bind (wp_lookn hs (by omega) (wp_bind (wp_lookn hs (by omega) (wp_bind
    (wp_lookn hs (by omega) ?_)))))
  cases hf : symbols.find? (fun p => p.1.isPrefixOf [s.peek 1, s.peek 2, s.peek 3]) with
  | some p =>
    have htext := symbols_text (mem_of_find?_eq_some hf)
    have hle : p.1.length ≤ s.len :=
      length_le_of_isPrefixOf htext.2 (by simpa using find?_some hf)
    refine wp_bind (wp_consumeChars hs hle fun s₁ h₁ hl₁ _ => wp_bind (wp_get
      (wp_makeToken fun _ => ⟨h₁, ?_⟩)))
    omega
  | none =>
    exact wp_bind (wp_lexError fun s₁ h₁ hl₁ => wp_bind (wp_consumeChars (h₁.ok hs) (by omega)
      fun s₂ h₂ hl₂ _ => wp_makeToken fun _ => ⟨h₁.trans h₂, by omega⟩))

end

end SpacePony.Lexing
