import SpacePony.Compiler.Lexer.Safety

/-!
# Compiler — tokenising a source

Whole runs of the lexer, from `lexer_open` over any number of `lexer_next` calls.  A source is
tokenised exactly when no round begins at a literal that dangles (`tokenises_iff`); the source of a
lone quote and a backslash is not (`unfinished_escape`).
-/

namespace SpacePony.Lexing

open Hoare Syntax

/-! ### One round -/

section
variable {α : Type} {s : Lexer}

theorem danglingLiteral_cons {c : Char} {rest : List Char} (h₁ : c ≠ '\x22') (h₂ : c ≠ '\x27') :
    danglingLiteral (c :: rest) = false := by
  unfold danglingLiteral
  split <;> simp_all

theorem rest_eq_cons (hs : s.Ok) (h1 : 1 ≤ s.len) : ∃ rest, s.rest = s.peek 1 :: rest := by
  have hl := hs.length_rest
  rw [Lexer.peek, if_neg (by omega)]
  cases hr : s.rest with
  | nil => rw [hr] at hl; simp at hl; omega
  | cons c rest => exact ⟨rest, rfl⟩

theorem not_dangling (hs : s.Ok) (h1 : 1 ≤ s.len) (h₁ : s.peek 1 ≠ '\x22')
    (h₂ : s.peek 1 ≠ '\x27') : danglingLiteral s.rest = false := by
  obtain ⟨rest, hr⟩ := rest_eq_cons hs h1
  rw [hr]
  exact danglingLiteral_cons h₁ h₂

theorem Scans.found {x : LexM Token} (h : Scans x s) : Scans (found x) s :=
  ends_bind (h.mono (fun _ _ h' => Wp.ends (wp_pure h')) fun _ he => he)

theorem eats_found {x : LexM Token} (h : Wp x (Eats s) s) : Wp (found x) (Eats s) s :=
  wp_bind (h.mono fun _ _ h' => wp_pure h')

theorem scanDefault_ok (hs : s.Ok) (h1 : 1 ≤ s.len) : Wp (scanDefault (s.peek 1)) (Eats s) s := by
  refine wp_ite (fun hd => eats_found (number_ok hs hd)) fun _ => wp_ite (fun ha => ?_)
    fun _ => eats_found (symbol_ok hs h1)
  have hid : isIdChar (s.peek 1) = true := by
    rcases ha with ha | ha
    · simp [isIdChar, Char.isAlphanum, ha]
    · simp [isIdChar, ha]
  refine wp_bind ((keyword_ok hs).mono fun t s₁ ⟨h₁, h₂⟩ => ?_)
  obtain ⟨ht, hlt⟩ := h₂ rfl hid
  cases t with
  | none => exact absurd rfl ht
  | some t => exact wp_pure ⟨h₁, hlt⟩

/-- **A round of `lexer_next`** consumes a character and stays inside the text, or the text
begins with a literal that dangles and the round fails an assertion. -/
theorem scan_scans (hs : s.Ok) (h1 : 1 ≤ s.len) : Scans scan s := by
  refine ends_bind (Wp.ends (wp_modify ?_))
  -- the round only sets the position of its token first
  generalize hs₀ : ({ s with tokenLine := s.line, tokenPos := s.pos, buffer := [] } : Lexer) = s₀
  have hrest : s₀.rest = s.rest := by rw [← hs₀]; rfl
  have hadv : Advance s s₀ := by rw [← hs₀]; exact .of_fields rfl rfl rfl rfl
  have hlen : s₀.len = s.len := by rw [← hs₀]
  have hok : s₀.Ok := hadv.ok hs
  have hback : ∀ {x : LexM (Option Token)}, Scans x s₀ → Ends x
      (fun _ s' => (Advance s s' ∧ s'.len < s.len) ∧ danglingLiteral s.rest = false)
      (fun e => e = .assertion ∧ danglingLiteral s.rest = true) s₀ := fun hx =>
    hx.mono (fun _ _ ⟨⟨h, hlt⟩, hd⟩ => ⟨⟨hadv.trans h, hlen ▸ hlt⟩, hrest ▸ hd⟩)
      fun _ ⟨he, hd⟩ => ⟨he, hrest ▸ hd⟩
  have h1' : 1 ≤ s₀.len := by omega
  have hskip : Wp (do consumeChars 1; pure none : LexM (Option Token)) (Eats s₀) s₀ :=
    wp_bind (wp_consumeChars hok h1' fun s₁ h₁ hl₁ _ => wp_pure ⟨h₁, by omega⟩)
  refine ends_bind (Wp.ends (wp_look hok (hback ?_)))
  have hplain : ∀ c, s₀.peek 1 = c → c ≠ '\x22' → c ≠ '\x27' → danglingLiteral s₀.rest = false :=
    fun c hc h₁ h₂ => not_dangling hok h1' (hc ▸ h₁) (hc ▸ h₂)
  split
  · rename_i hc
    refine scans_of_eats (hplain _ hc (by decide) (by decide)) (wp_bind (wp_modify ?_))
    have hflag : Advance s₀ { s₀ with newline := true, tokenNewline := true } :=
      .of_fields rfl rfl rfl rfl
    exact wp_bind (wp_consumeChars (hflag.ok hok) h1' fun s₁ h₁ hl₁ _ =>
      wp_pure ⟨hflag.trans h₁, Nat.lt_of_succ_le hl₁.le⟩)
  · rename_i hc
    exact scans_of_eats (hplain _ hc (by decide) (by decide)) hskip
  · rename_i hc
    exact scans_of_eats (hplain _ hc (by decide) (by decide)) hskip
  · rename_i hc
    exact scans_of_eats (hplain _ hc (by decide) (by decide)) hskip
  · rename_i hc
    exact scans_of_eats (hplain _ hc (by decide) (by decide)) (slash_ok hok h1')
  · rename_i hc
    exact (string_scans hok h1' hc).found
  · rename_i hc
    exact (character_scans hok h1' hc).found
  · rename_i hc
    exact scans_of_eats (hplain _ hc (by decide) (by decide)) (eats_found (hash_ok hok h1'))
  · rename_i hc
    exact scans_of_eats (hplain _ hc (by decide) (by decide)) (eats_found (dollar_ok hok h1'))
  · rename_i hq hq' _ _
    exact scans_of_eats (not_dangling hok h1' hq hq') (scanDefault_ok hok h1')

theorem scan_ok (hs : s.Ok) (h1 : 1 ≤ s.len) (hd : danglingLiteral s.rest = false) :
    Wp scan (Eats s) s :=
  (Ends.mono (scan_scans hs h1) (fun _ _ h => h.1) fun _ h => h).wp fun _ h =>
    absurd (hd.symm.trans h.2) (by decide)

theorem scan_faults (hs : s.Ok) (h1 : 1 ≤ s.len) (hd : danglingLiteral s.rest = true) :
    scan s = .error .assertion := by
  have h := scan_scans hs h1
  unfold Scans Ends at h
  split at h
  · exact absurd (hd.symm.trans h.2) (by decide)
  · rename_i e he
    rw [he, h.1]

end

/-! ### Runs -/

/-- The states at the beginning of a round of `lexer_next`, in a run from `s₀`: after a round
without a token, after a token, and at the end of the text. -/
inductive Reached (s₀ : Lexer) : Lexer → Prop where
  | start : Reached s₀ s₀
  | skip {s s' : Lexer} (h : Reached s₀ s) (h0 : s.len ≠ 0) (hs : scan s = .ok (none, s')) :
      Reached s₀ s'
  | token {s s' : Lexer} {t : Token} (h : Reached s₀ s) (h0 : s.len ≠ 0)
      (hs : scan s = .ok (some t, s')) : Reached s₀ (clearNewline s')
  | eof {s s' : Lexer} {t : Token} (h : Reached s₀ s) (h0 : s.len = 0)
      (hs : scanEof s = .ok (t, s')) : Reached s₀ (clearNewline s')

theorem Reached.trans {s₀ s s' : Lexer} (h : Reached s₀ s) (h' : Reached s s') : Reached s₀ s' := by
  induction h' with
  | start => exact h
  | skip _ h0 hs ih => exact .skip ih h0 hs
  | token _ h0 hs ih => exact .token ih h0 hs
  | eof _ h0 hs ih => exact .eof ih h0 hs

/-- `n` calls of `lexer_next`. -/
def calls : Nat → LexM (List Token)
  | 0 => pure []
  | n + 1 => do
      let ts ← calls n
      let t ← lexerNext
      pure (ts ++ [t])

/-- The lexer tokenises the source: no call faults, `ptr + len` is always the length of the
source, every call not at the end consumes a character, and some call returns `TK_EOF`. -/
structure Tokenises (source : List Char) (allow : Bool) : Prop where
  total : ∀ n, ∃ ts s, calls n (lexerOpen source allow) = .ok (ts, s) ∧
    s.ptr + s.len = source.length
  progress : ∀ n ts s t s', calls n (lexerOpen source allow) = .ok (ts, s) → s.len ≠ 0 →
    lexerNext s = .ok (t, s') → s'.len < s.len
  finite : ∃ n ts t s, calls (n + 1) (lexerOpen source allow) = .ok (ts ++ [t], s) ∧
    t.id = .tkEof

section
variable {s₀ s s' : Lexer}

theorem advance_clearNewline (s : Lexer) : Advance s (clearNewline s) := .of_fields rfl rfl rfl rfl

theorem scanEof_ok : Wp scanEof (fun t s' => Advance s s' ∧ t.id = .tkEof) s :=
  ⟨_, _, rfl, .of_fields rfl rfl rfl rfl, rfl⟩

variable {n : Nat} {ts : List Token}

/-- The contract of `lexer_next` from a state whose rounds never begin at a literal that
dangles. -/
theorem lexerNextLoop_ok (hs : s.Ok) (hn : s.len < n)
    (hd : ∀ s', Reached s s' → danglingLiteral s'.rest = false) :
    Wp (lexerNextLoop n) (fun t s' => Advance s s' ∧ (s.len ≠ 0 → s'.len < s.len) ∧
      (s.len = 0 → t.id = .tkEof) ∧ Reached s (clearNewline s')) s := by
  induction n generalizing s with
  | zero => omega
  | succ n ih =>
    refine wp_bind (wp_isEof (wp_ite (fun heof => ?_) fun heof => ?_))
    · have h0 : s.len = 0 := by simpa using heof
      obtain ⟨t, s₁, heq, h₁, ht⟩ := scanEof_ok (s := s)
      exact ⟨t, s₁, heq, h₁, fun h => absurd h0 h, fun _ => ht, .eof .start h0 heq⟩
    have h0 : s.len ≠ 0 := by simpa using heof
    obtain ⟨t, s₁, heq, h₁, hlt⟩ := scan_ok hs (by omega) (hd s .start)
    refine wp_bind ⟨t, s₁, heq, ?_⟩
    cases t with
    | some t => exact wp_pure ⟨h₁, fun _ => hlt, fun h => absurd h h0, .token .start h0 heq⟩
    | none =>
      have hstep : Reached s s₁ := .skip .start h0 heq
      refine (ih (h₁.ok hs) (by omega) fun s' hs' => hd s' (hstep.trans hs')).mono
        fun t s₂ ⟨h₂, _, _, hr⟩ => ⟨h₁.trans h₂, fun _ => lt_of_le_of_lt h₂.le hlt,
          fun h => absurd h h0, hstep.trans hr⟩

theorem lexerNext_ok (hs : s.Ok) (hd : ∀ s', Reached s s' → danglingLiteral s'.rest = false) :
    Wp lexerNext (fun t s' => Advance s s' ∧ (s.len ≠ 0 → s'.len < s.len) ∧
      (s.len = 0 → t.id = .tkEof) ∧ Reached s s') s := by
  refine wp_bind (wp_get (wp_bind ?_))
  refine (lexerNextLoop_ok hs (by omega) hd).mono fun t s₁ ⟨h₁, hlt, ht, hr⟩ => ?_
  exact wp_bind (wp_modify (wp_pure ⟨h₁.trans (advance_clearNewline s₁), hlt, ht, hr⟩))

/-- The run lemma: every number of calls ends well, in a state that the run reaches. -/
theorem calls_ok (hs : s.Ok) (hd : ∀ s', Reached s s' → danglingLiteral s'.rest = false)
    (n : Nat) : Wp (calls n) (fun _ s' => Advance s s' ∧ Reached s s') s := by
  induction n with
  | zero => exact wp_pure ⟨Advance.refl s, .start⟩
  | succ n ih =>
    refine wp_bind (ih.mono fun ts s₁ ⟨h₁, hr₁⟩ => wp_bind ?_)
    refine (lexerNext_ok (h₁.ok hs) fun s' hs' => hd s' (hr₁.trans hs')).mono
      fun t s₂ ⟨h₂, _, _, hr₂⟩ => wp_pure ⟨h₁.trans h₂, hr₁.trans hr₂⟩

/-- A first call and `n` more. -/
theorem calls_cons {t : Token} {s₁ s₂ : Lexer} (h : lexerNext s = .ok (t, s₁))
    (hn : calls n s₁ = .ok (ts, s₂)) : calls (n + 1) s = .ok (t :: ts, s₂) := by
  induction n generalizing ts s₂ with
  | zero =>
    cases hn
    have hnil : calls 0 s = .ok ([], s) := rfl
    exact (bind_eq_ok hnil).trans (bind_eq_ok h)
  | succ n ih =>
    obtain ⟨ts', s₃, hts, hrest⟩ := bind_ok hn
    obtain ⟨t', s₄, ht, ⟨⟩⟩ := bind_ok hrest
    exact (bind_eq_ok (ih hts)).trans (bind_eq_ok ht)

/-- Enough calls reach the end of the text, by induction on the characters left. -/
theorem exists_eof (hs : s.Ok) (hd : ∀ s', Reached s s' → danglingLiteral s'.rest = false) :
    ∃ n ts t s', calls (n + 1) s = .ok (ts ++ [t], s') ∧ t.id = .tkEof := by
  induction hl : s.len using Nat.strong_induction_on generalizing s with
  | _ l ih =>
    obtain ⟨t, s₁, heq, h₁, hlt, ht, hr⟩ := lexerNext_ok hs hd
    by_cases h0 : s.len = 0
    · refine ⟨0, [], t, s₁, calls_cons heq rfl, ht h0⟩
    obtain ⟨n, ts, t', s₂, hn, ht'⟩ := ih s₁.len (by have := hlt h0; omega) (h₁.ok hs)
      (fun s' hs' => hd s' (hr.trans hs')) rfl
    exact ⟨n + 1, t :: ts, t', s₂, calls_cons heq hn, ht'⟩

/-! ### A round that begins at a literal that dangles -/

theorem scan_advance {t : Option Token} (hs : s.Ok) (h1 : 1 ≤ s.len)
    (h : scan s = .ok (t, s')) : Advance s s' := by
  have hends := scan_scans hs h1
  unfold Scans Ends at hends
  rw [h] at hends
  exact hends.1.1

theorem Reached.advance (h₀ : s₀.Ok) (h : Reached s₀ s) : Advance s₀ s := by
  induction h with
  | start => exact Advance.refl s₀
  | skip _ h0 hs ih => exact ih.trans (scan_advance (ih.ok h₀) (by omega) hs)
  | token _ h0 hs ih =>
    exact (ih.trans (scan_advance (ih.ok h₀) (by omega) hs)).trans (advance_clearNewline _)
  | @eof s s' t _ h0 hs ih =>
    obtain ⟨t', s₁, heq, h₁, -⟩ := scanEof_ok (s := s)
    cases heq.symm.trans hs
    exact (ih.trans h₁).trans (advance_clearNewline _)

theorem lexerNextLoop_zero_ne {r : Token × Lexer} : lexerNextLoop 0 s ≠ .ok r := fun h => by
  cases h

theorem isEof_eq : isEof s = .ok (s.len == 0, s) := rfl

/-- A round inside a loop that ends well. -/
theorem lexerNextLoop_succ (h0 : s.len ≠ 0) :
    lexerNextLoop (n + 1) s = (scan >>= fun t => match t with
      | some t => pure t
      | none => lexerNextLoop n) s := by
  have hne : ¬ (s.len == 0) = true := by simpa using h0
  exact (bind_eq_ok isEof_eq).trans (congrFun (if_neg hne) s)

theorem lexerNextLoop_eof (h0 : s.len = 0) : lexerNextLoop (n + 1) s = scanEof s := by
  refine (bind_eq_ok isEof_eq).trans ?_
  rw [if_pos (by simpa using h0)]

/-- The call that the round belongs to ends well. -/
def InCall (s₀ s : Lexer) : Prop :=
  ∃ n ts s₁ m t s₂, calls n s₀ = .ok (ts, s₁) ∧ lexerNextLoop m s = .ok (t, s₂) ∧
    lexerNext s₁ = .ok (t, clearNewline s₂)

section
variable (htotal : ∀ n, ∃ ts s, calls n s₀ = .ok (ts, s))
include htotal

theorem inCall_of_calls (h : calls n s₀ = .ok (ts, s)) : InCall s₀ s := by
  obtain ⟨ts', s', hs'⟩ := htotal (n + 1)
  obtain ⟨ts₁, s₁, hts₁, hrest⟩ := bind_ok hs'
  obtain ⟨rfl, rfl⟩ := Prod.mk.inj (Except.ok.inj (hts₁.symm.trans h))
  obtain ⟨t, s₂, ht, -⟩ := bind_ok hrest
  have ht' : (lexerNextLoop (s₁.len + 1) >>= fun t => do modify clearNewline; pure t) s₁ =
      .ok (t, s₂) := ht
  obtain ⟨t', s₃, hloop, hpure⟩ := bind_ok ht'
  obtain ⟨rfl, rfl⟩ := Prod.mk.inj (Except.ok.inj hpure)
  exact ⟨n, ts₁, s₁, s₁.len + 1, t', s₃, h, hloop, ht⟩

/-- A call that returned a token is followed by another call. -/
theorem InCall.next {s₁ : Lexer} {t : Token}
    (hn : calls n s₀ = .ok (ts, s₁)) (hnext : lexerNext s₁ = .ok (t, s)) : InCall s₀ s := by
  have hcalls : calls (n + 1) s₀ = .ok (ts ++ [t], s) :=
    (bind_eq_ok hn).trans (bind_eq_ok hnext)
  exact inCall_of_calls htotal hcalls

/-- Where every number of calls ends well, every round belongs to a call that ends well. -/
theorem Reached.inCall (h : Reached s₀ s) : InCall s₀ s := by
  induction h with
  | start => exact inCall_of_calls htotal (n := 0) rfl
  | skip _ h0 hs ih =>
    obtain ⟨n, ts, s₁, m, t, s₂, hn, hloop, hnext⟩ := ih
    cases m with
    | zero => exact absurd hloop lexerNextLoop_zero_ne
    | succ m =>
      rw [lexerNextLoop_succ h0, bind_eq_ok hs] at hloop
      exact ⟨n, ts, s₁, m, t, s₂, hn, hloop, hnext⟩
  | token _ h0 hs ih =>
    obtain ⟨n, ts, s₁, m, t, s₂, hn, hloop, hnext⟩ := ih
    cases m with
    | zero => exact absurd hloop lexerNextLoop_zero_ne
    | succ m =>
      rw [lexerNextLoop_succ h0, bind_eq_ok hs] at hloop
      cases hloop
      exact .next htotal hn hnext
  | eof _ h0 hs ih =>
    obtain ⟨n, ts, s₁, m, t, s₂, hn, hloop, hnext⟩ := ih
    cases m with
    | zero => exact absurd hloop lexerNextLoop_zero_ne
    | succ m =>
      rw [lexerNextLoop_eof h0, hs] at hloop
      cases hloop
      exact .next htotal hn hnext

end

theorem not_dangling_of_total (h₀ : s₀.Ok) (htotal : ∀ n, ∃ ts s, calls n s₀ = .ok (ts, s))
    (h : Reached s₀ s) : danglingLiteral s.rest = false := by
  by_contra hd
  have hd' : danglingLiteral s.rest = true := by simpa using hd
  have hs : s.Ok := (h.advance h₀).ok h₀
  have h0 : s.len ≠ 0 := fun h0 => by
    rw [List.eq_nil_of_length_eq_zero (hs.length_rest.trans h0)] at hd'
    cases hd'
  obtain ⟨n, ts, s₁, m, t, s₂, -, hloop, -⟩ := h.inCall htotal
  cases m with
  | zero => exact lexerNextLoop_zero_ne hloop
  | succ m =>
    rw [lexerNextLoop_succ h0] at hloop
    obtain ⟨t', s₃, hscan, -⟩ := bind_ok hloop
    rw [scan_faults hs (by omega) hd'] at hscan
    cases hscan

end

theorem lexerOpen_ok (source : List Char) (allow : Bool) : (lexerOpen source allow).Ok :=
  Nat.zero_add _

/-- **The lexer stays inside the source**, and tokenises it, if and only if no round of
`lexer_next` begins at a string or character literal that has no closing quote and whose last
character is a backslash that is not itself escaped. -/
theorem tokenises_iff (source : List Char) (allow : Bool) : Tokenises source allow ↔
      ∀ s, Reached (lexerOpen source allow) s → danglingLiteral s.rest = false := by
  have h₀ := lexerOpen_ok source allow
  constructor
  · intro h s hs
    refine not_dangling_of_total h₀ (fun n => ?_) hs
    obtain ⟨ts, s', hn, -⟩ := h.total n
    exact ⟨ts, s', hn⟩
  intro hd
  refine ⟨fun n => ?_, fun n ts s t s' hn h0 hnext => ?_, exists_eof h₀ hd⟩
  · obtain ⟨ts, s, hn, h, -⟩ := calls_ok h₀ hd n
    refine ⟨ts, s, hn, ?_⟩
    have hok := h.ok h₀
    rw [Lexer.Ok, h.source] at hok
    exact hok
  obtain ⟨ts', s₁, hn', h, hr⟩ := calls_ok h₀ hd n
  cases hn'.symm.trans hn
  obtain ⟨t', s₂, hnext', -, hlt, -⟩ :=
    lexerNext_ok (h.ok h₀) fun s' hs' => hd s' (hr.trans hs')
  cases hnext'.symm.trans hnext
  exact hlt h0

/-- **A source of a quote and a backslash**: the escape consumes two characters where one is
left. -/
theorem unfinished_escape : ¬ Tokenises ['\x22', '\\'] false := by
  intro h
  obtain ⟨ts, s, hn, -⟩ := h.total 1
  have hfault : calls 1 (lexerOpen ['\x22', '\\'] false) = .error .assertion := rfl
  rw [hfault] at hn
  cases hn

end SpacePony.Lexing
