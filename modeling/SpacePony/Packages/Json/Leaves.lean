import Mathlib.Data.List.TakeWhile
import SpacePony.Packages.Json.Grammar

/-!
# Packages — json — what the leaves of the parser read

The parser walks the source by offset, and the grammar is about lists of bytes.  `rest` is what is
left of the source at the offset, and each method of the parser has a rule in terms of it.

* `ends_peek`, `ends_next`, `ends_eat`, `ends_skipWhitespace`, `ends_readWith`: the primitives.
* `ends_readSign`, `ends_readInteger`, `ends_readFrac`, `ends_readExp`: the parts of a number.
* `readHex4_sound`, `parseUnicode_sound`, `stringLoop_sound`, and `_complete` for each: strings.
-/

namespace SpacePony.Json

open Nat Option List Raise Builtin

variable {N : Type}

/-- What is left of the source. -/
def JsonTokenParser.rest (p : JsonTokenParser N) : Bytes := p.source.drop p.offset

/-- The tokens that the parser emits on its way from one state to another.  A consumer that is given
does not ask for an end. -/
structure Emits (notify : N → Event → N × Bool) (es : List Event) (p p' : JsonTokenParser N) :
    Prop where
  source : p'.source = p.source
  emitted : p'.emitted = p.emitted ++ es
  notify : p'.notify = es.foldl (fun n e => (notify n e).1) p.notify
  abort : p'.abort = p.abort

section
variable {notify : N → Event → N × Bool} {es es' : List Event} {p p' p'' : JsonTokenParser N}

theorem Emits.refl (p : JsonTokenParser N) : Emits notify [] p p :=
  ⟨rfl, (append_nil _).symm, rfl, rfl⟩

theorem Emits.trans (h : Emits notify es p p') (h' : Emits notify es' p' p'') :
    Emits notify (es ++ es') p p'' :=
  ⟨h'.source.trans h.source, by rw [h'.emitted, h.emitted, append_assoc],
    by rw [h'.notify, h.notify, foldl_append], h'.abort.trans h.abort⟩

theorem Emits.trans_nil (h : Emits notify es p p') (h' : Emits notify [] p' p'') :
    Emits notify es p p'' := by
  have := h.trans h'
  rwa [append_nil] at this

end

/-! ### Primitives -/

variable {c : UInt8} {s : Bytes}

section
variable {p : JsonTokenParser N} {Q : UInt8 → JsonTokenParser N → Prop}
  {R : Unit → JsonTokenParser N → Prop} {E : Failure → JsonTokenParser N → Prop}
  {notify : N → Event → N × Bool}

theorem rest_eq_cons (h : p.source[p.offset]? = some c) :
    p.rest = c :: p.source.drop (p.offset + 1) := by
  obtain ⟨hlt, rfl⟩ := List.getElem?_eq_some_iff.1 h
  exact drop_eq_getElem_cons hlt

theorem rest_eq_nil (h : p.source[p.offset]? = none) : p.rest = [] :=
  drop_eq_nil_of_le (getElem?_eq_none_iff.1 h)

theorem getElem?_offset (p : JsonTokenParser N) : p.source[p.offset]? = p.rest.head? := by
  rw [JsonTokenParser.rest, head?_drop]

/-- `_peek`: the first byte of the rest. -/
theorem ends_peek (hok : ∀ c s, p.rest = c :: s → Q c p) (herr : p.rest = [] → E .error p) :
    Ends peek Q E p := by
  refine ends_bind (ends_get ?_)
  cases h : p.source[p.offset]? with
  | none => exact ends_throw (herr (rest_eq_nil h))
  | some c => exact ends_pure (hok c _ (rest_eq_cons h))

/-- `_peek_safe`: the first byte of the rest, or zero. -/
theorem ends_peekSafe (h : Q (p.rest.head?.getD 0) p) : Ends peekSafe Q E p := by
  refine ends_bind (ends_get (ends_pure ?_))
  rw [getElem?_offset]
  exact h

theorem emits_pass (c : UInt8) : Emits notify [] p (p.pass c) :=
  ⟨rfl, (append_nil _).symm, rfl, rfl⟩

theorem rest_pass (c' : UInt8) (h : p.rest = c :: s) : (p.pass c').rest = s := by
  show p.source.drop (p.offset + 1) = s
  rw [← drop_drop, ← JsonTokenParser.rest, h]
  rfl

/-- `_next`: the first byte of the rest is passed. -/
theorem ends_next (hok : ∀ c s, p.rest = c :: s → Q c (p.pass c)) (herr : p.rest = [] → E .error p) :
    Ends next Q E p := by
  refine ends_bind (ends_peek (fun c s hs => ?_) herr)
  exact ends_bind (ends_modify (ends_pure (hok c s hs)))

/-- `_eat`: the first byte of the rest is the one that is expected. -/
theorem ends_eat {expected : UInt8} (hok : ∀ s, p.rest = expected :: s → R () (p.pass expected))
    (herr : E .error p) : Ends (eat expected) R E p := by
  refine ends_bind (ends_peek (fun c s hs => ?_) fun _ => herr)
  refine ends_ite (fun _ => ends_throw herr) fun hc => ends_modify ?_
  obtain rfl := not_not.1 hc
  exact hok s hs

theorem ends_peek_of_rest (hp : p.rest = c :: s) (h : Q c p) : Ends peek Q E p := by
  refine ends_peek (fun c' s' hs' => ?_) fun hnil => absurd (hp.symm.trans hnil) nofun
  rw [hp] at hs'
  cases hs'
  exact h

theorem ends_next_of_rest (hp : p.rest = c :: s) (h : Q c (p.pass c)) : Ends next Q E p := by
  refine ends_next (fun c' s' hs' => ?_) fun hnil => absurd (hp.symm.trans hnil) nofun
  rw [hp] at hs'
  cases hs'
  exact h

theorem ends_eat_of_rest (hp : p.rest = c :: s) (h : R () (p.pass c)) : Ends (eat c) R E p := by
  refine ends_bind (ends_peek_of_rest hp ?_)
  rw [if_neg (not_not.2 rfl)]
  exact ends_modify h

theorem skipLoop_spec (notify : N → Event → N × Bool) (fuel : Nat) (p : JsonTokenParser N)
    (hf : p.rest.length ≤ fuel) :
    Emits notify [] p (skipLoop fuel p) ∧ (skipLoop fuel p).rest = p.rest.dropWhile isWs := by
  induction fuel generalizing p with
  | zero =>
    have hnil : p.rest = [] := length_eq_zero_iff.1 (le_zero.1 hf)
    exact ⟨Emits.refl p, by rw [skipLoop, hnil]; rfl⟩
  | succ fuel ih =>
    rw [skipLoop]
    cases h : p.source[p.offset]? with
    | none => exact ⟨Emits.refl p, by rw [rest_eq_nil h]; rfl⟩
    | some c =>
      have hc := rest_eq_cons h
      simp only
      by_cases hw : isWs c = true
      · rw [if_pos hw, hc, dropWhile_cons_of_pos hw, ← rest_pass c hc]
        obtain ⟨he, hr⟩ := ih (p.pass c) (by
          rw [rest_pass c hc]
          rw [hc, length_cons] at hf
          omega)
        exact ⟨(emits_pass c).trans_nil he, hr⟩
      · rw [if_neg hw, hc, dropWhile_cons_of_neg hw]
        exact ⟨Emits.refl p, rfl⟩

theorem length_rest (p : JsonTokenParser N) : p.rest.length = p.source.length - p.offset :=
  length_drop

/-- `_skip_whitespace`. -/
theorem ends_skipWhitespace (notify : N → Event → N × Bool)
    (h : ∀ p', Emits notify [] p p' → p'.rest = p.rest.dropWhile isWs → R () p') :
    Ends skipWhitespace R E p := by
  refine ends_modify ?_
  obtain ⟨he, hr⟩ := skipLoop_spec notify (p.source.length - p.offset) p (length_rest p).le
  exact h _ he hr

/-- `_token_start = _offset`. -/
theorem ends_markToken (notify : N → Event → N × Bool)
    (h : ∀ p', Emits notify [] p p' → p'.rest = p.rest → R () p') : Ends markToken R E p :=
  ends_modify (h _ ⟨rfl, (append_nil _).symm, rfl, rfl⟩ rfl)

/-- `_emit`, to a consumer that does not ask for an end. -/
theorem ends_emit (hq : ∀ n e, (notify n e).2 = false) (ha : p.abort = false) {token : JsonToken}
    (h : ∀ p', Emits notify [p.event token] p p' → p'.rest = p.rest → R () p') :
    Ends (emit notify token) R E p := by
  refine ends_bind (ends_modify (ends_bind (ends_get ?_)))
  have habort : (p.abort || (notify p.notify (p.event token)).2) = false := by rw [ha, hq]; rfl
  have hno : ¬ (p.abort || (notify p.notify (p.event token)).2) = true := by rw [habort]; decide
  refine ends_ite (fun hyes => absurd hyes hno) fun _ => ends_pure ?_
  exact h _ ⟨rfl, rfl, rfl, habort.trans ha.symm⟩ rfl

section
variable {α : Type} {T : α → JsonTokenParser N → Prop} {token : JsonToken} {e : Event}

/-- Whitespace, and the start of a token. -/
theorem ends_skipMark {f : Parse N α} (notify : N → Event → N × Bool)
    (h : ∀ p', Emits notify [] p p' → p'.rest = p.rest.dropWhile isWs → Ends f T E p') :
    Ends (skipWhitespace >>= fun _ => markToken >>= fun _ => f) T E p := by
  refine ends_bind (ends_skipWhitespace notify fun p₁ h₁ hr₁ => ?_)
  exact ends_bind (ends_markToken notify fun p₂ h₂ hr₂ => h p₂ (h₁.trans_nil h₂) (hr₂.trans hr₁))

variable (hq : ∀ n e, (notify n e).2 = false) (ha : p.abort = false) (hp : p.rest = c :: s)
  (he : ∀ p : JsonTokenParser N, p.event token = e)
include hq ha hp he

/-- A bracket that opens, its token, and whitespace. -/
theorem ends_opening {f : Parse N α}
    (h : ∀ p', Emits notify [e] p p' → p'.rest = s.dropWhile isWs → Ends f T E p') :
    Ends (next >>= fun _ => emit notify token >>= fun _ => skipWhitespace >>= fun _ => f) T E p := by
  refine ends_bind (ends_next_of_rest hp ?_)
  have h₁ : Emits notify [] p (p.pass c) := emits_pass c
  refine ends_bind (ends_emit hq (h₁.abort.trans ha) fun p₂ h₂ hr₂ => ?_)
  rw [he] at h₂
  refine ends_bind (ends_skipWhitespace notify fun p₃ h₃ hr₃ => ?_)
  exact h p₃ ((h₁.trans h₂).trans_nil h₃) (by rw [hr₃, hr₂, rest_pass c hp])

/-- A bracket that closes, and its token. -/
theorem ends_closing (h : ∀ p', Emits notify [e] p p' → p'.rest = s → R () p') :
    Ends (next >>= fun _ => emit notify token) R E p := by
  refine ends_bind (ends_next_of_rest hp ?_)
  have h₁ : Emits notify [] p (p.pass c) := emits_pass c
  refine ends_emit hq (h₁.abort.trans ha) fun p₂ h₂ hr₂ => ?_
  rw [he] at h₂
  exact h p₂ (h₁.trans h₂) (hr₂.trans (rest_pass c hp))

end

end

/-! ### Numbers -/

section
variable {α : Type} {step : α → UInt8 → α} {p : JsonTokenParser N}
  {E : Failure → JsonTokenParser N → Prop} (notify : N → Event → N × Bool)

theorem digitsLoop_spec (step : α → UInt8 → α) (fuel : Nat) (result : α) (count : Nat)
    (p : JsonTokenParser N) (hf : p.rest.length ≤ fuel) :
    ∃ p', digitsLoop step fuel result count p =
        ((p.rest.takeWhile isDigit).foldl step result,
          count + (p.rest.takeWhile isDigit).length, p') ∧
      Emits notify [] p p' ∧ p'.rest = p.rest.dropWhile isDigit ∧
      p'.offset = p.offset + (p.rest.takeWhile isDigit).length := by
  induction fuel generalizing p result count with
  | zero =>
    have hnil : p.rest = [] := length_eq_zero_iff.1 (le_zero.1 hf)
    exact ⟨p, by rw [digitsLoop, hnil]; rfl, Emits.refl p, by rw [hnil]; rfl, by rw [hnil]; rfl⟩
  | succ fuel ih =>
    rw [digitsLoop]
    cases h : p.source[p.offset]? with
    | none =>
      have hnil := rest_eq_nil h
      exact ⟨p, by rw [hnil]; rfl, Emits.refl p, by rw [hnil]; rfl, by rw [hnil]; rfl⟩
    | some c =>
      have hc := rest_eq_cons h
      simp only
      by_cases hd : isDigit c = true
      · have hr : ({ p with offset := p.offset + 1 } : JsonTokenParser N).rest =
            p.source.drop (p.offset + 1) := rfl
        rw [hc, length_cons] at hf
        obtain ⟨p', he, hem, hrest, hoff⟩ := ih (step result c) (count + 1)
          { p with offset := p.offset + 1 } (by rw [hr]; omega)
        rw [hr] at he hrest hoff
        rw [if_pos hd, hc, takeWhile_cons_of_pos hd, dropWhile_cons_of_pos hd, he]
        refine ⟨p', ?_, ⟨hem.source, hem.emitted, hem.notify, hem.abort⟩, hrest, ?_⟩
        · rw [foldl_cons, length_cons, add_assoc, add_comm 1]
        · rw [hoff, length_cons, add_assoc, add_comm 1]
      · rw [if_neg hd, hc, takeWhile_cons_of_neg hd, dropWhile_cons_of_neg hd]
        exact ⟨p, rfl, Emits.refl p, hc, rfl⟩

variable {ds : Bytes}

/-- The digits from here on, and an error if there are none. -/
theorem ends_readWith {init : α} {Q : α → JsonTokenParser N → Prop}
    (hds : p.rest.takeWhile isDigit = ds) (hs : p.rest.dropWhile isDigit = s)
    (hok : ds ≠ [] → ∀ p', Emits notify [] p p' → p'.rest = s → p'.offset = p.offset + ds.length →
      Q (ds.foldl step init) p') (herr : ds = [] → ∀ p', Emits notify [] p p' → E .error p') :
    Ends (readWith init step) Q E p := by
  refine ends_bind (ends_get ?_)
  obtain ⟨p', he, hem, hrest, hoff⟩ := digitsLoop_spec notify step
    (p.source.length - p.offset) init 0 p (length_rest p).le
  rw [he, hds, zero_add]
  rw [hds] at hoff
  refine ends_bind (ends_modify ?_)
  refine ends_ite (fun hz => ends_throw ?_) fun hnz => ends_pure ?_
  · exact herr (length_eq_zero_iff.1 hz) p' hem
  · exact hok (fun hnil => hnz (by rw [hnil]; rfl)) p' hem (hrest.trans hs) hoff

/-- The sign of a number. -/
theorem ends_readSign {Q : Int64 → JsonTokenParser N → Prop}
    (hminus : ∀ s, p.rest = minus :: s → ∀ p', Emits notify [] p p' → p'.rest = s → Q (-1) p')
    (hnone : p.rest.head? ≠ some minus → Q 1 p) : Ends readSign Q E p := by
  refine ends_bind (ends_peekSafe (ends_ite (fun hc => ?_) fun hc => ends_pure (hnone fun h => ?_)))
  · refine ends_bind (ends_next (fun c s hs => ends_pure ?_) fun hnil => ?_)
    · rw [hs, head?_cons, getD_some] at hc
      subst hc
      exact hminus s hs _ (emits_pass _) (rest_pass _ hs)
    · rw [hnil] at hc
      cases hc
  · rw [h] at hc
    exact hc rfl

/-- The part of a number before the dot: the digits are read once more where there are many. -/
theorem ends_readInteger {Q : Int64 × Float × Bool → JsonTokenParser N → Prop}
    (hds : p.rest.takeWhile isDigit = ds) (hs : p.rest.dropWhile isDigit = s)
    (hok : ds ≠ [] → ¬ (ds.head? = some zero ∧ ds.length > 1) →
      ∀ p', Emits notify [] p p' → p'.rest = s → Q (intParts ds) p')
    (herr : ds = [] ∨ (ds.head? = some zero ∧ ds.length > 1) →
      ∀ p', Emits notify [] p p' → E .error p') : Ends readInteger Q E p := by
  refine ends_bind (ends_get (ends_bind (ends_readWith notify hds hs (fun hne p' hem hrest hoff => ?_)
    fun hnil => herr (.inl hnil))))
  refine ends_bind (ends_get ?_)
  have hcount : p'.offset - p.offset = ds.length := by omega
  have hhead : p'.source[p.offset]? = ds.head? := by
    rw [hem.source, getElem?_offset, ← hds]
    cases hr : p.rest with
    | nil => rfl
    | cons c r =>
      rw [hr] at hds
      by_cases hc : isDigit c = true
      · rw [takeWhile_cons_of_pos hc]
        rfl
      · rw [takeWhile_cons_of_neg hc] at hds
        exact absurd hds.symm hne
  rw [hcount, hhead]
  refine ends_ite (fun hz => ends_throw (herr (.inr hz) p' hem)) fun hz => ?_
  refine ends_ite (fun hlong => ?_) fun hshort => ends_pure ?_
  · -- from the first digit on again
    refine ends_bind (ends_modify (ends_bind ?_))
    have hback : Emits notify [] p { p' with offset := p.offset } :=
      ⟨hem.source, hem.emitted, hem.notify, hem.abort⟩
    have hrest' : ({ p' with offset := p.offset } : JsonTokenParser N).rest = p.rest := by
      show p'.source.drop p.offset = p.source.drop p.offset
      rw [hem.source]
    refine ends_readWith notify (by rw [hrest', hds]) (by rw [hrest', hs])
      (fun _ p'' hem' hrest'' _ => ends_pure ?_) fun hnil => absurd hnil hne
    have e : intParts ds = (ds.foldl i64Step 0, ds.foldl f64Step 0, true) := by
      rw [intParts, if_pos hlong, decide_eq_true hlong]
    rw [← e]
    exact hok hne hz p'' (hback.trans_nil hem') hrest''
  have e : intParts ds = (ds.foldl i64Step 0, (ds.foldl i64Step 0).toFloat, false) := by
    rw [intParts, if_neg hshort, decide_eq_false hshort]
  rw [← e]
  exact hok hne hz p' hem hrest

/-- The part of a number after the dot. -/
theorem ends_readFrac {Q : Bool × Float → JsonTokenParser N → Prop}
    (hnone : p.rest.head? ≠ some dot → Q (false, 0) p)
    (hdot : ∀ s, p.rest = dot :: s → s.takeWhile isDigit ≠ [] → ∀ p', Emits notify [] p p' →
      p'.rest = s.dropWhile isDigit → Q (true, ((s.takeWhile isDigit).foldl fracStep (0, 10)).1) p')
    (herr : ∀ s, p.rest = dot :: s → s.takeWhile isDigit = [] → ∀ p', Emits notify [] p p' →
      E .error p') : Ends readFrac Q E p := by
  refine ends_bind (ends_peekSafe (ends_ite (fun hc => ?_) fun hc => ends_pure (hnone fun h => ?_)))
  · refine ends_bind (ends_next (fun c s hs => ?_) fun hnil => ?_)
    · rw [hs, head?_cons, getD_some] at hc
      subst hc
      have hr := rest_pass dot hs
      refine ends_bind (ends_bind (ends_readWith notify rfl rfl
        (fun hne p' hem hrest _ => ?_) fun hnil p' hem => ?_))
      · rw [hr] at hne hrest ⊢
        exact ends_pure (ends_pure (hdot s hs hne p' ((emits_pass dot).trans_nil hem) hrest))
      · rw [hr] at hnil
        exact herr s hs hnil p' ((emits_pass dot).trans_nil hem)
    · rw [hnil] at hc
      cases hc
  · rw [h] at hc
    exact hc rfl

/-- The sign of an exponent: what it is, and what is left. -/
theorem ends_readExpSign {Q : Int64 → JsonTokenParser N → Prop}
    (hsome : ∀ c s, p.rest = c :: s → c = plus ∨ c = minus → ∀ p', Emits notify [] p p' →
      p'.rest = s → Q (expSign (some c)) p')
    (hnone : ∀ c s, p.rest = c :: s → c ≠ plus → c ≠ minus → Q (expSign none) p)
    (herr : p.rest = [] → E .error p) : Ends readExpSign Q E p := by
  refine ends_bind (ends_peek (fun c s hs => ?_) herr)
  refine ends_ite (fun hc => ?_) fun hc => ends_ite (fun hc' => ?_) fun hc' => ?_
  · refine ends_bind (ends_next_of_rest hs (ends_pure ?_))
    have := hsome c s hs (.inl hc) _ (emits_pass c) (rest_pass c hs)
    rwa [hc] at this ⊢
  · refine ends_bind (ends_next_of_rest hs (ends_pure ?_))
    have := hsome c s hs (.inr hc') _ (emits_pass c) (rest_pass c hs)
    rwa [hc'] at this ⊢
  · exact ends_pure (hnone c s hs hc hc')

/-- The text does not go on as a number does. -/
def Ended (s : Bytes) : Prop :=
  ∀ c ∈ s.head?, isDigit c = false ∧ c ≠ dot ∧ c ≠ 0x65 ∧ c ≠ 0x45

/-- The text does not go on with a digit. -/
def NoDigit (s : Bytes) : Prop := ∀ c ∈ s.head?, isDigit c = false

theorem takeWhile_digits (hds : ∀ c ∈ ds, isDigit c = true) (hs : NoDigit s) :
    (ds ++ s).takeWhile isDigit = ds ∧ (ds ++ s).dropWhile isDigit = s := by
  rw [takeWhile_append_of_pos hds, dropWhile_append_of_pos hds]
  cases s with
  | nil => exact ⟨append_nil ds, rfl⟩
  | cons c s =>
    have hc : ¬ isDigit c = true := by rw [hs c rfl]; decide
    rw [takeWhile_cons_of_neg hc, dropWhile_cons_of_neg hc, append_nil]
    exact ⟨rfl, rfl⟩

theorem digits_takeWhile (h : s.takeWhile isDigit ≠ []) : Digits (s.takeWhile isDigit) :=
  ⟨h, fun _ hc => mem_takeWhile_imp hc⟩

/-- The exponent that is read is one of the grammar. -/
theorem readExp_sound :
    Ends readExp (fun r p' => Emits notify [] p p' ∧ ∃ e, (∀ x ∈ e, Exponent.Wf x) ∧
      p.rest = expText e ++ p'.rest ∧ r = expParts e)
      (fun f p' => f = .error ∧ Emits notify [] p p') p := by
  refine ends_bind (ends_peekSafe (ends_ite (fun hc => ?_) fun _ => ends_pure
    ⟨Emits.refl p, none, nofun, rfl, rfl⟩))
  refine ends_bind (ends_next (fun mark s hs => ?_) fun _ => ⟨rfl, Emits.refl p⟩)
  rw [hs, head?_cons, getD_some] at hc
  have hr := rest_pass mark hs
  have hpass : Emits notify [] p (p.pass mark) := emits_pass mark
  -- the digits, after a sign or without one
  have hdigits : ∀ (sign : Option UInt8) (q : JsonTokenParser N), Emits notify [] p q →
      (∀ c ∈ sign, c = plus ∨ c = minus) → s = sign.toList ++ q.rest →
      Ends (readDigits >>= fun exp => pure (true, exp * expSign sign))
        (fun r p' => Emits notify [] p p' ∧ ∃ e, (∀ x ∈ e, Exponent.Wf x) ∧
          p.rest = expText e ++ p'.rest ∧ r = expParts e)
        (fun f p' => f = .error ∧ Emits notify [] p p') q := by
    intro sign q hq hsign hsq
    refine ends_bind (ends_readWith notify rfl rfl (fun hne p' hem hrest _ => ends_pure ?_)
      fun _ p' hem => ⟨rfl, hq.trans_nil hem⟩)
    refine ⟨hq.trans_nil hem, some ⟨mark, sign, q.rest.takeWhile isDigit⟩, ?_, ?_, rfl⟩
    · rintro x ⟨⟩
      exact ⟨hc, hsign, digits_takeWhile hne⟩
    · rw [hs, expText, hsq, hrest, cons_append, append_assoc, takeWhile_append_dropWhile]
  refine ends_bind (ends_readExpSign notify (fun c s' hs' hsign p' hem hrest => ?_)
    (fun c s' hs' _ _ => ?_) fun _ => ⟨rfl, hpass⟩)
  · refine hdigits (some c) p' (hpass.trans_nil hem) (fun x hx => ?_) ?_
    · cases hx
      exact hsign
    · rw [← hr, hs', hrest]
      rfl
  · exact hdigits none (p.pass mark) hpass nofun hr.symm

/-- An exponent of the grammar is read. -/
theorem readExp_complete {e : Option Exponent} {r : Bytes} (he : ∀ x ∈ e, Exponent.Wf x)
    (hrest : p.rest = expText e ++ r) (hr : Ended r) :
    Ends readExp (fun a p' => a = expParts e ∧ Emits notify [] p p' ∧ p'.rest = r)
      (fun _ _ => False) p := by
  refine ends_bind (ends_peekSafe (ends_ite (fun hc => ?_) fun hc => ?_))
  · cases e with
    | none =>
      rw [hrest, expText, nil_append] at hc
      cases r with
      | nil => exact absurd hc (by decide)
      | cons c r =>
        obtain ⟨-, -, h1, h2⟩ := hr c rfl
        exact (hc.elim h1 h2).elim
    | some e =>
      obtain ⟨mark, sign, ds⟩ := e
      obtain ⟨-, hsign, hds⟩ := he _ rfl
      rw [expText, cons_append, append_assoc] at hrest
      refine ends_bind (ends_next (fun c s hs => ?_) fun hnil => ?_)
      · rw [hrest] at hs
        cases hs
        have hrest' := rest_pass mark hrest
        -- the digits, after the sign
        have hdigits : ∀ q : JsonTokenParser N, Emits notify [] p q → q.rest = ds ++ r →
            Ends (readDigits >>= fun exp => pure (true, exp * expSign sign))
              (fun a p' => a = expParts (some ⟨mark, sign, ds⟩) ∧ Emits notify [] p p' ∧ p'.rest = r)
              (fun _ _ => False) q := by
          intro q hq hqr
          obtain ⟨htake, hdrop⟩ := takeWhile_digits hds.2 fun c hc => (hr c hc).1
          refine ends_bind (ends_readWith notify (by rw [hqr, htake]) (by rw [hqr, hdrop])
            (fun _ p' hem hp' _ => ends_pure ⟨rfl, hq.trans_nil hem, hp'⟩)
            fun hnil => absurd hnil hds.1)
        refine ends_bind (ends_readExpSign notify (fun c s' hs' hc' p' hem hp' => ?_)
          (fun c s' hs' hp hm => ?_) fun hnil => ?_)
        · -- a sign that is read is the one of the exponent, for a digit is none
          cases sign with
          | none =>
            obtain ⟨d, ds', rfl⟩ := exists_cons_of_ne_nil hds.1
            rw [hrest'] at hs'
            cases hs'
            have hd := hds.2 _ (.head _)
            obtain rfl | rfl := hc' <;> exact absurd hd (by decide)
          | some x =>
            rw [hrest'] at hs'
            cases hs'
            exact hdigits p' ((emits_pass mark).trans_nil hem) hp'
        · cases sign with
          | none => exact hdigits _ (emits_pass mark) hrest'
          | some x =>
            rw [hrest'] at hs'
            cases hs'
            exact ((hsign _ rfl).elim hp hm).elim
        · rw [hrest', append_eq_nil_iff, append_eq_nil_iff] at hnil
          exact absurd hnil.2.1 hds.1
      · rw [hrest] at hnil
        cases hnil
  cases e with
  | none => exact ends_pure ⟨rfl, Emits.refl p, hrest⟩
  | some e =>
    rw [hrest] at hc
    exact absurd (he e rfl).mark hc

/-- Digits do not make a sign, a dot or the mark of an exponent. -/
theorem head?_ne_of_digits (hds : Digits ds) (hc : isDigit c = false) :
    (ds ++ s).head? ≠ some c := by
  obtain ⟨d, ds', rfl⟩ := exists_cons_of_ne_nil hds.1
  intro h
  cases h
  exact absurd (hds.2 _ (.head _)) (by rw [hc]; decide)

theorem Ended.head?_ne (hs : Ended s) : s.head? ≠ some dot :=
  fun h => (hs dot h).2.1 rfl

theorem noDigit_expText {e : Option Exponent} {r : Bytes} (he : ∀ x ∈ e, Exponent.Wf x)
    (hr : Ended r) : NoDigit (expText e ++ r) ∧ (expText e ++ r).head? ≠ some dot := by
  cases e with
  | none => exact ⟨fun c hc => (hr c hc).1, hr.head?_ne⟩
  | some e =>
    have hmark := (he e rfl).mark
    constructor
    · rintro c ⟨⟩
      obtain h | h := hmark <;> rw [h] <;> rfl
    intro hdot
    have hdot' : e.mark = dot := some.inj hdot
    obtain h | h := hmark <;> rw [h] at hdot' <;> cases hdot'

theorem noDigit_fracText {f : Option Bytes} (hs : NoDigit s) : NoDigit (fracText f ++ s) := by
  cases f with
  | none => exact hs
  | some ds =>
    rintro c ⟨⟩
    rfl

/-- The fold of `_read_digits` is the number that the digits stand for. -/
theorem foldl_i64Step (ds : Bytes) : ds.foldl i64Step 0 = Int64.ofInt (decimal ds) := by
  have h : ∀ (r : Nat), ds.foldl i64Step (Int64.ofInt r) =
      Int64.ofInt (ds.foldl (fun r c => r * 10 + (digit c).toNat) r : Nat) := by
    induction ds with
    | nil => exact fun r => rfl
    | cons c ds ih =>
      intro r
      rw [foldl_cons, foldl_cons, ← ih]
      congr 1
      rw [i64Step, cast_add, cast_mul, Int64.ofInt_add, Int64.ofInt_mul]
      rfl
  exact h 0

/-- What is made of the parts of a number is what the number denotes. -/
theorem makeNumber_eq (n : NumberText) :
    makeNumber n.sign (intParts n.int) (fracParts n.frac) (expParts n.exp) = n.value := by
  have hfrac : (fracParts n.frac).1 = n.frac.isSome := by cases n.frac <;> rfl
  have hexp : (expParts n.exp).1 = n.exp.isSome := by cases n.exp <;> rfl
  have hlong : (intParts n.int).2.2 = decide (n.int.length > 18) := rfl
  rw [makeNumber, NumberText.value, hfrac, hexp, hlong]
  by_cases h : n.frac.isNone ∧ n.exp.isNone ∧ n.int.length ≤ 18
  · obtain ⟨hf, he, hl⟩ := h
    have hno : ¬ (n.frac.isSome || n.exp.isSome || decide (n.int.length > 18)) = true := by
      rw [isNone_iff_eq_none] at hf he
      simp [hf, he, hl]
    have hyes : n.frac.isNone = true ∧ n.exp.isNone = true ∧ n.int.length ≤ 18 := ⟨hf, he, hl⟩
    rw [if_neg hno, if_pos hyes, NumberText.sign, intParts, foldl_i64Step]
    unfold NumberText.integer
    cases n.negative with
    | false => simp
    | true => simp [Int64.neg_mul]
  have hyes : (n.frac.isSome || n.exp.isSome || decide (n.int.length > 18)) = true := by
    simp only [isNone_iff_eq_none, not_and_or, not_le] at h
    simp only [Bool.or_eq_true, decide_eq_true_eq, isSome_iff_ne_none]
    tauto
  rw [if_pos hyes, if_neg h]
  rfl

/-! ### The parts together -/

/-- The sign, as text. -/
def signText (negative : Bool) : Bytes := if negative then [minus] else []

theorem readSign_sound :
    Ends readSign (fun r p' => Emits notify [] p p' ∧ ∃ negative, p.rest = signText negative ++ p'.rest ∧
      r = if negative then -1 else 1) E p := by
  refine ends_readSign notify (fun s hs p' hem hp' => ?_) fun _ => ?_
  · exact ⟨hem, true, by rw [hs, hp']; rfl, rfl⟩
  · exact ⟨Emits.refl p, false, rfl, rfl⟩

theorem readInteger_sound : Ends readInteger (fun r p' => Emits notify [] p p' ∧ ∃ ds, Digits ds ∧
      (ds.head? = some zero → ds.length = 1) ∧ p.rest = ds ++ p'.rest ∧ r = intParts ds)
      (fun f p' => f = .error ∧ Emits notify [] p p') p := by
  refine ends_readInteger notify rfl rfl (fun hne hz p' hem hp' => ?_) fun _ p' hem => ⟨rfl, hem⟩
  refine ⟨hem, p.rest.takeWhile isDigit, digits_takeWhile hne, fun h0 => ?_, ?_, rfl⟩
  · have hpos := length_pos_iff.2 hne
    have hnot : ¬ (p.rest.takeWhile isDigit).length > 1 := fun hlt => hz ⟨h0, hlt⟩
    omega
  · rw [hp', takeWhile_append_dropWhile]

theorem readFrac_sound :
    Ends readFrac (fun r p' => Emits notify [] p p' ∧ ∃ frac, (∀ ds ∈ frac, Digits ds) ∧
      p.rest = fracText frac ++ p'.rest ∧ r = fracParts frac)
      (fun f p' => f = .error ∧ Emits notify [] p p') p := by
  refine ends_readFrac notify (fun _ => ?_) (fun s hs hne p' hem hp' => ?_)
    fun s _ _ p' hem => ⟨rfl, hem⟩
  · exact ⟨Emits.refl p, none, nofun, rfl, rfl⟩
  refine ⟨hem, some (s.takeWhile isDigit), fun ds hds => ?_, ?_, rfl⟩
  · cases hds
    exact digits_takeWhile hne
  · rw [hs, hp', fracText, cons_append, takeWhile_append_dropWhile]

theorem emits_lastNumber (x : JsonNumber) : Emits notify [] p { p with lastNumber := x } :=
  ⟨rfl, (append_nil _).symm, rfl, rfl⟩

/-- `_parse_number` emits a number of the grammar. -/
theorem parseNumber_sound (hq : ∀ n e, (notify n e).2 = false) (ha : p.abort = false) :
    Ends (parseNumber notify) (fun _ p' => ∃ n : NumberText, n.Wf ∧
      p.rest = n.text ++ p'.rest ∧ Emits notify [.number n.value] p p')
      (fun f p' => f = .error ∧ Emits notify [] p p') p := by
  refine ends_bind ((readSign_sound notify).mono ?_ fun _ _ h => h)
  rintro _ p₁ ⟨h₁, negative, hr₁, rfl⟩
  refine ends_bind ((readInteger_sound notify).mono ?_ fun _ _ h => ⟨h.1, h₁.trans_nil h.2⟩)
  rintro _ p₂ ⟨h₂, int, hint, hzero, hr₂, rfl⟩
  have h₂ := h₁.trans_nil h₂
  refine ends_bind ((readFrac_sound notify).mono ?_ fun _ _ h => ⟨h.1, h₂.trans_nil h.2⟩)
  rintro _ p₃ ⟨h₃, frac, hfrac, hr₃, rfl⟩
  have h₃ := h₂.trans_nil h₃
  refine ends_bind ((readExp_sound notify).mono ?_ fun _ _ h => ⟨h.1, h₃.trans_nil h.2⟩)
  rintro _ p₄ ⟨h₄, exp, hexp, hr₄, rfl⟩
  have h₄ := h₃.trans_nil h₄
  refine ends_bind (ends_modify (ends_emit hq ?_ fun p' hem hp' => ?_))
  · exact h₄.abort.trans ha
  refine ⟨⟨negative, int, frac, exp⟩, ⟨hint, hzero, hfrac, hexp⟩, ?_, ?_⟩
  · have hp : p'.rest = p₄.rest := hp'
    rw [hr₁, hr₂, hr₃, hr₄, hp, NumberText.text]
    simp only [append_assoc]
    rfl
  · rw [← makeNumber_eq]
    exact (h₄.trans_nil (emits_lastNumber notify _)).trans hem

theorem readSign_complete {negative : Bool} (hp : p.rest = signText negative ++ s)
    (hs : s.head? ≠ some minus) :
    Ends readSign (fun r p' => (r = if negative then -1 else 1) ∧ Emits notify [] p p' ∧ p'.rest = s)
      (fun _ _ => False) p := by
  cases negative with
  | true =>
    refine ends_readSign notify (fun s' hs' p' hem hp' => ?_) fun hne => ?_
    · rw [hp] at hs'
      cases hs'
      exact ⟨rfl, hem, hp'⟩
    · rw [hp] at hne
      exact absurd rfl hne
  | false =>
    refine ends_readSign notify (fun s' hs' p' hem hp' => ?_) fun _ => ⟨rfl, Emits.refl p, hp⟩
    rw [hp] at hs'
    rw [show s = minus :: s' from hs'] at hs
    exact absurd rfl hs

theorem readInteger_complete (hds : Digits ds) (hz : ds.head? = some zero → ds.length = 1)
    (hp : p.rest = ds ++ s) (hs : NoDigit s) :
    Ends readInteger (fun r p' => r = intParts ds ∧ Emits notify [] p p' ∧ p'.rest = s)
      (fun _ _ => False) p := by
  obtain ⟨htake, hdrop⟩ := takeWhile_digits hds.2 hs
  refine ends_readInteger notify (by rw [hp, htake]) (by rw [hp, hdrop])
    (fun _ _ p' hem hp' => ⟨rfl, hem, hp'⟩) fun herr => ?_
  obtain hnil | ⟨h0, hlt⟩ := herr
  · exact absurd hnil hds.1
  · have := hz h0
    omega

theorem readFrac_complete {frac : Option Bytes} (hfrac : ∀ ds ∈ frac, Digits ds)
    (hp : p.rest = fracText frac ++ s) (hs : NoDigit s) (hs' : s.head? ≠ some dot) :
    Ends readFrac (fun r p' => r = fracParts frac ∧ Emits notify [] p p' ∧ p'.rest = s)
      (fun _ _ => False) p := by
  cases frac with
  | none =>
    have hne : p.rest.head? ≠ some dot := by rwa [hp]
    refine ends_readFrac notify (fun _ => ⟨rfl, Emits.refl p, hp⟩)
      (fun t ht _ _ _ _ => ?_) fun t ht _ _ _ => ?_
    · exact absurd (by rw [ht]; rfl) hne
    · exact absurd (by rw [ht]; rfl) hne
  | some ds =>
    have hds := hfrac ds rfl
    obtain ⟨htake, hdrop⟩ := takeWhile_digits hds.2 hs
    have hcons : ∀ t, p.rest = dot :: t → t = ds ++ s := by
      intro t ht
      rw [hp] at ht
      cases ht
      rfl
    refine ends_readFrac notify (fun hne => absurd (by rw [hp]; rfl) hne)
      (fun t ht _ p' hem hp' => ?_) fun t ht hnil _ _ => ?_
    · obtain rfl := hcons t ht
      rw [htake, hdrop] at *
      exact ⟨rfl, hem, hp'⟩
    obtain rfl := hcons t ht
    rw [htake] at hnil
    exact hds.1 hnil

/-- A number of the grammar is emitted. -/
theorem parseNumber_complete (hq : ∀ n e, (notify n e).2 = false) (ha : p.abort = false)
    {n : NumberText} (hn : n.Wf) {r : Bytes} (hp : p.rest = n.text ++ r) (hr : Ended r) :
    Ends (parseNumber notify) (fun _ p' => Emits notify [.number n.value] p p' ∧ p'.rest = r)
      (fun _ _ => False) p := by
  obtain ⟨negative, int, frac, exp⟩ := n
  obtain ⟨hint, hzero, hfrac, hexp⟩ := hn
  have hp : p.rest = signText negative ++ (int ++ (fracText frac ++ (expText exp ++ r))) := by
    rw [hp, NumberText.text]
    simp only [append_assoc]
    rfl
  obtain ⟨hnd, hdot⟩ := noDigit_expText hexp hr
  refine ends_bind ((readSign_complete notify hp (head?_ne_of_digits hint rfl)).mono ?_
    fun _ _ h => h)
  rintro _ p₁ ⟨rfl, h₁, hr₁⟩
  refine ends_bind ((readInteger_complete notify hint hzero hr₁ (noDigit_fracText hnd)).mono ?_
    fun _ _ h => h)
  rintro _ p₂ ⟨rfl, h₂, hr₂⟩
  refine ends_bind ((readFrac_complete notify hfrac hr₂ hnd hdot).mono ?_ fun _ _ h => h)
  rintro _ p₃ ⟨rfl, h₃, hr₃⟩
  refine ends_bind ((readExp_complete notify hexp hr₃ hr).mono ?_ fun _ _ h => h)
  rintro _ p₄ ⟨rfl, h₄, hr₄⟩
  have h := ((h₁.trans_nil h₂).trans_nil h₃).trans_nil h₄
  refine ends_bind (ends_modify (ends_emit hq ?_ fun p' hem hp' => ?_))
  · exact h.abort.trans ha
  refine ⟨?_, hp'.trans hr₄⟩
  rw [← makeNumber_eq]
  exact (h.trans_nil (emits_lastNumber notify _)).trans hem

end

end SpacePony.Json
