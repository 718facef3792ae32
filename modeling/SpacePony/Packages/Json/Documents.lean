import SpacePony.Packages.Json.Productions

/-!
# Packages — json — documents

What the grammar derives is accepted, by induction on the derivation (`Complete`, `complete`).  So
the parser of documents, with its tree builder, accepts exactly the documents of the grammar
(`parse_exact`).
-/

namespace SpacePony.Json

open Nat List Raise

variable {N : Type} (notify : N → Event → N × Bool) {p : JsonTokenParser N}

/-! ### The end of a number -/

section
variable {s r : Bytes} {c : UInt8}

theorem ended_nil : Ended [] := nofun

theorem ended_cons (hc : isDigit c = false ∧ c ≠ dot ∧ c ≠ 0x65 ∧ c ≠ 0x45) : Ended (c :: s) := by
  rintro c' ⟨⟩
  exact hc

theorem Ended.of_ws (h : Ws s r) (hr : Ended r) : Ended s := by
  cases h with
  | nil => exact hr
  | @cons c s _ hc h =>
    refine ended_cons ?_
    simp only [isWs, decide_eq_true_eq] at hc
    rcases hc with rfl | rfl | rfl | rfl <;> decide

end

/-! ### Completeness -/

/-- A production accepts what is derived, where the bound on the recursion is large enough.  The
loops may have whitespace to skip, or have it skipped already. -/
def Complete : Item → Bytes → Bytes → Prop
  | .value t, s, r => ∀ ⦃p : JsonTokenParser N⦄ ⦃fuel : Nat⦄, p.abort = false → Ws p.rest s →
      Ended r → 3 * p.rest.length + 1 ≤ fuel →
      Ends (parseValue notify fuel) (fun _ p' => Emits notify t.tokens p p' ∧ p'.rest = r)
        (fun _ _ => False) p
  | .elements ts, s, r => ∀ ⦃p : JsonTokenParser N⦄ ⦃fuel : Nat⦄, p.abort = false →
      p.rest.dropWhile isWs = s.dropWhile isWs → 3 * p.rest.length + 2 ≤ fuel →
      Ends (arrayLoop notify fuel) (fun _ p' =>
        Emits notify (elementTokens ts ++ [.arrayEnd]) p p' ∧ p'.rest = r) (fun _ _ => False) p
  | .members ms, s, r => ∀ ⦃p : JsonTokenParser N⦄ ⦃fuel : Nat⦄, p.abort = false →
      p.rest.dropWhile isWs = s.dropWhile isWs → 3 * p.rest.length + 2 ≤ fuel →
      Ends (objectLoop notify fuel) (fun _ p' =>
        Emits notify (memberTokens ms ++ [.objectEnd]) p p' ∧ p'.rest = r) (fun _ _ => False) p

/-- The choice that `_parse_value` makes. -/
def dispatch (fuel : Nat) (c : UInt8) : Parse N Unit :=
  if c = openBrace then parseObject notify fuel
  else if c = openBracket then parseArray notify fuel
  else if c = quote then parseString notify false
  else if c = 0x74 then parseTrue notify
  else if c = 0x66 then parseFalse notify
  else if c = 0x6E then parseNull notify
  else if c = minus ∨ isDigit c then parseNumber notify
  else throw .error

section
variable {Q : Unit → JsonTokenParser N → Prop} {E : Failure → JsonTokenParser N → Prop}
  {fuel : Nat} {c : UInt8} {s : Bytes}

/-- A value is complete where the choice by its first character is. -/
theorem complete_of_dispatch {t : Tree} {r : Bytes} (hc : isWs c = false)
    (h : ∀ ⦃p : JsonTokenParser N⦄ ⦃fuel : Nat⦄, p.abort = false → p.rest = c :: s → Ended r →
      3 * s.length + 3 ≤ fuel → Ends (dispatch notify fuel c)
        (fun _ p' => Emits notify t.tokens p p' ∧ p'.rest = r) (fun _ _ => False) p) :
    Complete notify (.value t) (c :: s) r := by
  intro p fuel ha hw hr hf
  have hlen := hw.length_le
  rw [length_cons] at hlen
  obtain ⟨fuel, rfl⟩ : ∃ k, fuel = k + 1 := ⟨fuel - 1, by omega⟩
  rw [parseValue]
  refine ends_skipMark notify fun p₁ h₁ hr₁ => ?_
  rw [hw.dropWhile_eq (noWs_cons hc)] at hr₁
  refine ends_bind (ends_peek_of_rest hr₁ ((h (h₁.abort.trans ha) hr₁ hr (by omega)).mono ?_
    fun _ _ h => h))
  rintro _ p' ⟨hem, hp'⟩
  exact ⟨h₁.trans hem, hp'⟩

/-- The next character after whitespace. -/
theorem ends_skip_next {α : Type} {f : UInt8 → Parse N α} {Q : α → JsonTokenParser N → Prop}
    (hw : Ws p.rest (c :: s)) (hc : isWs c = false)
    (h : ∀ p₁, Emits notify [] p p₁ → p₁.rest = s → Ends (f c) Q E p₁) :
    Ends (skipWhitespace >>= fun _ => markToken >>= fun _ => next >>= f) Q E p := by
  refine ends_skipMark notify fun p₁ h₁ hr₁ => ?_
  rw [hw.dropWhile_eq (noWs_cons hc)] at hr₁
  exact ends_bind (ends_next_of_rest hr₁ (h _ (h₁.trans_nil (emits_pass c)) (rest_pass c hr₁)))

end

variable {t : Tree}

section
variable {notify} (hq : ∀ n e, (notify n e).2 = false)
include hq

theorem complete_number {n : NumberText} (hn : n.Wf) (r : Bytes) :
    Complete notify (.value (.number n.value)) (n.text ++ r) r := by
  obtain ⟨c, s, hs, hc⟩ := hn.exists_cons r
  rw [hs]
  have hne : ∀ k, isDigit k = false → k ≠ minus → c ≠ k := by
    rintro k hk hm rfl
    obtain rfl | hd := hc
    · exact hm rfl
    · rw [hd] at hk
      cases hk
  have hstart : startsValue c = true := by
    simp only [startsValue, decide_eq_true_eq]
    tauto
  refine complete_of_dispatch notify (startsValue_cases hstart).1 fun p _ ha hp hr _ => ?_
  rw [dispatch, if_neg (hne _ rfl (by decide)), if_neg (hne _ rfl (by decide)),
    if_neg (hne _ rfl (by decide)), if_neg (hne _ rfl (by decide)), if_neg (hne _ rfl (by decide)),
    if_neg (hne _ rfl (by decide)), if_pos hc]
  exact parseNumber_complete notify hq ha hn (hp.trans hs.symm) hr

variable {s r : Bytes}

theorem complete_string {b : Bytes} (h : Chars b s r) :
    Complete notify (.value (.string b)) (quote :: s) r := by
  refine complete_of_dispatch notify rfl fun p _ ha hp _ _ => ?_
  rw [dispatch, if_neg (by decide), if_neg (by decide), if_pos rfl]
  exact parseString_complete notify hq ha h hp

/-- The three literals. -/
theorem complete_literal {c : UInt8} (text : Bytes) {token : JsonToken} {e : Event}
    (hc : isWs c = false) (ht : t.tokens = [e]) (he : ∀ p : JsonTokenParser N, p.event token = e)
    (hd : ∀ fuel, dispatch notify fuel c = parseLiteral notify (c :: text) token) :
    Complete notify (.value t) (c :: (text ++ r)) r := by
  refine complete_of_dispatch notify hc fun p _ ha hp _ _ => ?_
  rw [hd, ht]
  exact parseLiteral_complete notify hq ha he hp

section
variable {opening close : UInt8} {start stop : JsonToken} {e : Event} {es : List Event}
  {loop : Nat → Parse N Unit} (hc : isWs opening = false)
  (he : ∀ p : JsonTokenParser N, p.event start = e) (ht : t.tokens = e :: es)
  (hd : ∀ fuel, dispatch notify (fuel + 1) opening = next >>= fun _ => emit notify start >>= fun _ =>
    skipWhitespace >>= fun _ => peek >>= fun c =>
      if c = close then next >>= fun _ => emit notify stop else loop fuel)
include hq hc he ht hd

/-- An array or an object, up to what is behind its first bracket. -/
theorem complete_bracketed (h : ∀ ⦃p : JsonTokenParser N⦄ ⦃fuel : Nat⦄, p.abort = false →
    p.rest = s.dropWhile isWs → 3 * p.rest.length + 2 ≤ fuel →
    Ends (peek >>= fun c => if c = close then next >>= fun _ => emit notify stop else loop fuel)
      (fun _ p' => Emits notify es p p' ∧ p'.rest = r) (fun _ _ => False) p) :
    Complete notify (.value t) (opening :: s) r := by
  refine complete_of_dispatch notify hc fun p fuel ha hp _ hf => ?_
  obtain ⟨fuel, rfl⟩ : ∃ k, fuel = k + 1 := ⟨fuel - 1, by omega⟩
  rw [hd]
  refine ends_opening hq ha hp he fun p₄ h₄ hr₄ => ?_
  have hle : p₄.rest.length ≤ s.length := by
    rw [hr₄]
    exact (ws_dropWhile s).length_le
  refine (h (h₄.abort.trans ha) hr₄ (by omega)).mono ?_ fun _ _ h => h
  rintro _ p' ⟨hem, hp'⟩
  exact ⟨ht ▸ h₄.trans hem, hp'⟩

theorem complete_empty {e' : Event} (hc' : isWs close = false)
    (he' : ∀ p : JsonTokenParser N, p.event stop = e') (hes : es = [e'])
    (hw' : Ws s (close :: r)) : Complete notify (.value t) (opening :: s) r := by
  refine complete_bracketed hq hc he ht hd fun p fuel ha hr _ => ?_
  rw [hw'.dropWhile_eq (noWs_cons hc')] at hr
  refine ends_bind (ends_peek_of_rest hr ?_)
  rw [if_pos rfl]
  exact ends_closing hq ha hr he' fun p' hem hp' => ⟨hes ▸ hem, hp'⟩

/-- The first item does not start with a bracket that closes the array or the object. -/
theorem complete_items (hhead : ∃ c s', s.dropWhile isWs = c :: s' ∧ c ≠ close)
    (ih : ∀ ⦃p : JsonTokenParser N⦄ ⦃fuel : Nat⦄, p.abort = false →
      p.rest.dropWhile isWs = s.dropWhile isWs → 3 * p.rest.length + 2 ≤ fuel →
      Ends (loop fuel) (fun _ p' => Emits notify es p p' ∧ p'.rest = r) (fun _ _ => False) p) :
    Complete notify (.value t) (opening :: s) r := by
  refine complete_bracketed hq hc he ht hd fun p fuel ha hr hf => ?_
  obtain ⟨c, s', hs', hne⟩ := hhead
  refine ends_bind (ends_peek_of_rest (hr.trans hs') ?_)
  rw [if_neg hne]
  refine ih ha ?_ hf
  rw [hr]
  exact (Ws.nil _).dropWhile_eq (noWs_dropWhile s)

end

omit hq in
/-- An element, up to the character after it. -/
theorem arrayLoop_element {s₁ s₂ s₃ : Bytes} {fuel : Nat} {c : UInt8}
    {Q : Unit → JsonTokenParser N → Prop} (ha : p.abort = false)
    (hp : p.rest.dropWhile isWs = s.dropWhile isWs) (hf : 3 * p.rest.length + 1 ≤ fuel)
    (hw : Ws s s₁) (ht : Derives (.value t) s₁ s₂) (ih : Complete notify (.value t) s₁ s₂)
    (hw' : Ws s₂ (c :: s₃)) (hc : isWs c = false) (hend : Ended (c :: s₃))
    (h : ∀ p₁, Emits notify t.tokens p p₁ → p₁.rest = s₃ → s₃.length < p.rest.length →
      Ends (if c = comma then arrayLoop notify fuel
        else if c = closeBracket then emit notify .arrayEnd else throw .error) Q
        (fun _ _ => False) p₁) : Ends (arrayLoop notify (fuel + 1)) Q (fun _ _ => False) p := by
  rw [arrayLoop]
  have hws : Ws p.rest s₁ := by
    rw [← hw.dropWhile_eq ht.noWs, ← hp]
    exact ws_dropWhile _
  refine ends_bind ((ih ha hws (.of_ws hw' hend) hf).mono ?_ fun _ _ h => h)
  rintro _ p₁ ⟨h₁, hr₁⟩
  have hlt : s₃.length < p.rest.length := by
    have := hws.length_le
    have := ht.length_lt
    have := hw'.length_le
    rw [length_cons] at this
    omega
  rw [← hr₁] at hw'
  exact ends_skip_next notify hw' hc fun p₂ h₂ hr₂ => h p₂ (h₁.trans_nil h₂) hr₂ hlt

/-- A member, up to the character after it. -/
theorem objectLoop_member {k : Bytes} {s₁ s₂ s₃ s₄ s₅ s₆ : Bytes} {fuel : Nat} {c : UInt8}
    {Q : Unit → JsonTokenParser N → Prop} (ha : p.abort = false)
    (hp : p.rest.dropWhile isWs = s.dropWhile isWs) (hf : 3 * p.rest.length + 1 ≤ fuel)
    (hw : Ws s (quote :: s₁)) (hk : Chars k s₁ s₂) (hw₂ : Ws s₂ (colon :: s₃)) (hw₃ : Ws s₃ s₄)
    (ht : Derives (.value t) s₄ s₅) (ih : Complete notify (.value t) s₄ s₅) (hw₅ : Ws s₅ (c :: s₆))
    (hc : isWs c = false) (hend : Ended (c :: s₆))
    (h : ∀ p₁, Emits notify (.key k :: t.tokens) p p₁ → p₁.rest = s₆ → s₆.length < p.rest.length →
      Ends (if c = comma then objectLoop notify fuel
        else if c = closeBrace then emit notify .objectEnd else throw .error) Q
        (fun _ _ => False) p₁) : Ends (objectLoop notify (fuel + 1)) Q (fun _ _ => False) p := by
  rw [objectLoop]
  have hle : (quote :: s₁).length ≤ p.rest.length := by
    rw [← hw.dropWhile_eq (noWs_cons rfl), ← hp]
    exact (ws_dropWhile _).length_le
  refine ends_skipMark notify fun p₂ h₂ hr₂ => ?_
  rw [hp, hw.dropWhile_eq (noWs_cons rfl)] at hr₂
  refine ends_bind ((parseString_complete notify hq (h₂.abort.trans ha) hk hr₂).mono ?_
    fun _ _ h => h)
  rintro _ p₃ ⟨h₃, hr₃⟩
  have h₃ : Emits notify [.key k] p p₃ := h₂.trans h₃
  refine ends_bind (ends_skipWhitespace notify fun p₄ h₄ hr₄ => ?_)
  have h₄ := h₃.trans_nil h₄
  rw [hr₃, hw₂.dropWhile_eq (noWs_cons rfl)] at hr₄
  refine ends_bind (ends_eat_of_rest hr₄ ?_)
  have h₅ := h₄.trans_nil (emits_pass colon)
  have hr₅ := rest_pass colon hr₄
  have hlen₃ : s₃.length < p.rest.length := by
    have := hk.length_lt
    have := hw₂.length_le
    simp only [length_cons] at *
    omega
  have hlen : 3 * (p₄.pass colon).rest.length + 1 ≤ fuel := by
    rw [hr₅]
    omega
  refine ends_bind ((ih (h₅.abort.trans ha) (hr₅ ▸ hw₃) (.of_ws hw₅ hend) hlen).mono ?_
    fun _ _ h => h)
  rintro _ p₆ ⟨h₆, hr₆⟩
  have h₆ : Emits notify (.key k :: t.tokens) p p₆ := h₅.trans h₆
  have hlt : s₆.length < p.rest.length := by
    have := hw₃.length_le
    have := ht.length_lt
    have := hw₅.length_le
    rw [length_cons] at this
    omega
  rw [← hr₆] at hw₅
  exact ends_skip_next notify hw₅ hc fun p₇ h₇ hr₇ => h p₇ (h₆.trans_nil h₇) hr₇ hlt

/-- **Completeness**: what is derived is accepted, and the tokens are those of the tree. -/
theorem complete {i : Item} (h : Derives i s r) : Complete notify i s r := by
  induction h with
  | literalTrue r =>
    exact complete_literal hq [0x72, 0x75, 0x65] rfl rfl (fun _ => rfl) fun _ => rfl
  | literalFalse r =>
    exact complete_literal hq [0x61, 0x6C, 0x73, 0x65] rfl rfl (fun _ => rfl) fun _ => rfl
  | literalNull r =>
    exact complete_literal hq [0x75, 0x6C, 0x6C] rfl rfl (fun _ => rfl) fun _ => rfl
  | number hn r => exact complete_number hq hn r
  | string h => exact complete_string hq h
  | emptyArray hw => exact complete_empty hq rfl (fun _ => rfl) rfl (fun _ => rfl) rfl (fun _ => rfl) rfl hw
  | array h ih =>
    exact complete_items hq rfl (fun _ => rfl) rfl (fun _ => rfl) h.elements_head ih
  | emptyObject hw => exact complete_empty hq rfl (fun _ => rfl) rfl (fun _ => rfl) rfl (fun _ => rfl) rfl hw
  | object h ih =>
    obtain ⟨s', hs'⟩ := h.members_head
    exact complete_items hq rfl (fun _ => rfl) rfl (fun _ => rfl) ⟨_, s', hs', by decide⟩ ih
  | @lastElement t s s₁ s₂ r hw h hw' ih =>
    intro p fuel ha hp hf
    obtain ⟨fuel, rfl⟩ : ∃ k, fuel = k + 1 := ⟨fuel - 1, by omega⟩
    refine arrayLoop_element ha hp (by omega) hw h ih hw' rfl (ended_cons (by decide))
      fun p₁ h₁ hr₁ hlt => ?_
    rw [if_neg (by decide), if_pos rfl]
    refine ends_emit hq (h₁.abort.trans ha) fun p' hem hp' => ⟨?_, hp'.trans hr₁⟩
    rw [elementTokens, elementTokens, append_nil]
    exact h₁.trans hem
  | @element t ts s s₁ s₂ s₃ r hw h hw' h' ih ih' =>
    intro p fuel ha hp hf
    obtain ⟨fuel, rfl⟩ : ∃ k, fuel = k + 1 := ⟨fuel - 1, by omega⟩
    refine arrayLoop_element ha hp (by omega) hw h ih hw' rfl (ended_cons (by decide))
      fun p₁ h₁ hr₁ hlt => ?_
    rw [if_pos rfl]
    refine (ih' (h₁.abort.trans ha) (by rw [hr₁]) (by rw [hr₁]; omega)).mono ?_ fun _ _ h => h
    rintro _ p' ⟨hem, hp'⟩
    refine ⟨?_, hp'⟩
    rw [elementTokens, append_assoc]
    exact h₁.trans hem
  | @lastMember k t s s₁ s₂ s₃ s₄ s₅ r hw hk hw₂ hw₃ h hw₅ ih =>
    intro p fuel ha hp hf
    obtain ⟨fuel, rfl⟩ : ∃ k, fuel = k + 1 := ⟨fuel - 1, by omega⟩
    refine objectLoop_member hq ha hp (by omega) hw hk hw₂ hw₃ h ih hw₅ rfl
      (ended_cons (by decide)) fun p₁ h₁ hr₁ hlt => ?_
    rw [if_neg (by decide), if_pos rfl]
    refine ends_emit hq (h₁.abort.trans ha) fun p' hem hp' => ⟨?_, hp'.trans hr₁⟩
    rw [memberTokens, memberTokens, append_nil]
    exact h₁.trans hem
  | @member k t ms s s₁ s₂ s₃ s₄ s₅ s₆ r hw hk hw₂ hw₃ h hw₅ h' ih ih' =>
    intro p fuel ha hp hf
    obtain ⟨fuel, rfl⟩ : ∃ k, fuel = k + 1 := ⟨fuel - 1, by omega⟩
    refine objectLoop_member hq ha hp (by omega) hw hk hw₂ hw₃ h ih hw₅ rfl
      (ended_cons (by decide)) fun p₁ h₁ hr₁ hlt => ?_
    rw [if_pos rfl]
    refine (ih' (h₁.abort.trans ha) (by rw [hr₁]) (by rw [hr₁]; omega)).mono ?_ fun _ _ h => h
    rintro _ p' ⟨hem, hp'⟩
    refine ⟨?_, hp'⟩
    rw [memberTokens, cons_append, append_assoc]
    exact h₁.trans hem

end

/-! ### Documents -/

/-- The state in which `parse` starts. -/
def JsonTokenParser.begin (p : JsonTokenParser N) (source : Bytes) : JsonTokenParser N :=
  { p with source, offset := 0, tokenStart := 0, line := 1, abort := false
           lastNumber := .i64 0, lastString := [] }

theorem rest_begin (p : JsonTokenParser N) (source : Bytes) : (p.begin source).rest = source := rfl

theorem rest_eq_nil_iff : p.rest = [] ↔ p.source.length ≤ p.offset := drop_eq_nil_iff

section
variable {notify} (hq : ∀ n e, (notify n e).2 = false) (source : Bytes)
include hq

/-- What `JsonTokenParser.parse` accepts is a document, or it is empty. -/
theorem tokens_sound (p : JsonTokenParser N) : Ends (JsonTokenParser.parse notify source)
      (fun _ p' => (source.dropWhile isWs = [] ∧ Emits notify [] (p.begin source) p') ∨
        ∃ t, Document t source ∧ Emits notify t.tokens (p.begin source) p')
      (fun f p' => f = .error ∧ ∃ es, ValueStart es ∧ Emits notify es (p.begin source) p') p := by
  refine ends_bind (ends_modify ?_)
  show Ends _ _ _ (p.begin source)
  refine ends_bind (ends_skipWhitespace notify fun p₁ h₁ hr₁ => ?_)
  rw [rest_begin] at hr₁
  refine ends_bind (ends_get (ends_ite (fun hend => ends_pure (.inl ⟨?_, h₁⟩)) fun _ => ?_))
  · rw [← hr₁]
    exact rest_eq_nil_iff.2 hend
  have hlen : p₁.rest.length ≤ source.length := by
    rw [hr₁]
    exact (ws_dropWhile source).length_le
  refine ends_bind (((soundAt notify hq _).value h₁.abort).mono ?_ ?_)
  · rintro _ p₂ ⟨t, s, hws, ht, h₂⟩
    have h₂ : Emits notify t.tokens (p.begin source) p₂ := h₁.trans h₂
    refine ends_bind (ends_skipWhitespace notify fun p₃ h₃ hr₃ => ends_bind (ends_get ?_))
    have h₃ := h₂.trans_nil h₃
    refine ends_ite (fun _ => ends_throw ⟨rfl, _, ⟨t, prefix_rfl⟩, h₃⟩) fun hend =>
      ends_pure (.inr ⟨t, ?_, h₃⟩)
    have hnil : p₃.rest = [] := rest_eq_nil_iff.2 (not_lt.1 hend)
    refine ⟨s, p₂.rest, (ws_dropWhile source).trans (hr₁ ▸ hws), ht, ?_⟩
    rw [← hnil, hr₃]
    exact ws_dropWhile _
  rintro f p₂ ⟨⟨es, hs, hem⟩, hfuel⟩
  cases f with
  | error => exact ⟨rfl, es, hs, h₁.trans hem⟩
  | fuel =>
    have := hfuel rfl
    rw [bound] at this
    omega

/-- A document is accepted. -/
theorem tokens_complete (p : JsonTokenParser N) (h : Document t source) :
    Ends (JsonTokenParser.parse notify source)
      (fun _ p' => Emits notify t.tokens (p.begin source) p') (fun _ _ => False) p := by
  obtain ⟨s, r, hw, ht, hw'⟩ := h
  refine ends_bind (ends_modify ?_)
  show Ends _ _ _ (p.begin source)
  refine ends_bind (ends_skipWhitespace notify fun p₁ h₁ hr₁ => ?_)
  rw [rest_begin, hw.dropWhile_eq ht.noWs] at hr₁
  refine ends_bind (ends_get ?_)
  obtain ⟨c, s', hs, -⟩ := ht.exists_cons
  have hne : ¬ p₁.source.length ≤ p₁.offset := by
    rw [← rest_eq_nil_iff, hr₁, hs]
    exact nofun
  have hlen := hw.length_le
  rw [if_neg hne]
  refine ends_bind ((complete hq ht h₁.abort (by rw [hr₁]; exact .nil s) (.of_ws hw' ended_nil)
    (by rw [hr₁, bound]; omega)).mono ?_ fun _ _ h => h)
  rintro _ p₂ ⟨h₂, hr₂⟩
  refine ends_bind (ends_skipWhitespace notify fun p₃ h₃ hr₃ => ends_bind (ends_get ?_))
  rw [hr₂, hw'.dropWhile_eq noWs_nil] at hr₃
  rw [if_neg (not_lt.2 (rest_eq_nil_iff.1 hr₃))]
  exact ends_pure ((h₁.trans h₂).trans_nil h₃)

end

namespace JsonParser

theorem quiet (b : TreeBuilder) (e : Event) : (consume b e).2 = false := rfl

/-- The state after the tokens `es`. -/
theorem emitted_of_emits {source : Bytes} {es : List Event} {p' : JsonTokenParser TreeBuilder}
    (h : Emits consume es (JsonTokenParser.begin { notify := ({} : TreeBuilder) } source) p') :
    p'.emitted = es ∧ p'.notify = es.foldl TreeBuilder.apply {} :=
  ⟨h.emitted.trans (nil_append es), h.notify⟩

/-- What the run of the tokenizer does. -/
theorem tokenize_cases (source : Bytes) :
    (∃ t p', tokenize source = (.ok (), p') ∧ Document t source ∧ p'.emitted = t.tokens ∧
      p'.notify.result = some t.value) ∨
    (∃ p', tokenize source = (.ok (), p') ∧ source.dropWhile isWs = [] ∧ p'.emitted = [] ∧
      p'.notify.result = none) ∨
    (∃ p', tokenize source = (.error .error, p') ∧ ValueStart p'.emitted) := by
  have h := tokens_sound quiet source { notify := {} }
  unfold Ends at h
  unfold tokenize
  split at h
  · next p' hrun =>
      rw [hrun]
      obtain ⟨hempty, hem⟩ | ⟨t, ht, hem⟩ := h
      · obtain ⟨he, hn⟩ := emitted_of_emits hem
        exact .inr (.inl ⟨p', rfl, hempty, he, by rw [hn]; rfl⟩)
      obtain ⟨he, hn⟩ := emitted_of_emits hem
      refine .inl ⟨t, p', rfl, ht, he, ?_⟩
      rw [hn, (TreeBuilder.foldl_tokens t rfl).2]
      rfl
  next f p' hrun =>
    rw [hrun]
    obtain ⟨rfl, es, hs, hem⟩ := h
    refine .inr (.inr ⟨p', rfl, ?_⟩)
    rw [(emitted_of_emits hem).1]
    exact hs

/-- **The parser accepts the documents**, and returns their values. -/
theorem parse_ok_iff (source : Bytes) (v : JsonValue) :
    parse source = .ok v ↔ ∃ t, Document t source ∧ t.value = v := by
  constructor
  · intro h
    unfold parse at h
    obtain ⟨t, p', hrun, ht, -, hres⟩ | ⟨p', hrun, -, -, hres⟩ | ⟨p', hrun, -⟩ :=
      tokenize_cases source
    · simp only [hrun, hres] at h
      cases h
      exact ⟨t, ht, rfl⟩
    · simp only [hrun, hres] at h
      cases h
    · simp only [hrun] at h
      cases h
  rintro ⟨t, ht, rfl⟩
  obtain ⟨_, p', hrun, hem⟩ := (tokens_complete quiet source { notify := {} } ht).exists_ok
  have hnotify := (emitted_of_emits hem).2
  have hres : p'.notify.result = some t.value := by
    rw [hnotify, (TreeBuilder.foldl_tokens t rfl).2]
    rfl
  have hrun' : tokenize source = (.ok (), p') := hrun
  unfold parse
  simp only [hrun', hres]

end JsonParser

/-! ### What a document denotes -/

theorem decimal_lt (ds : Bytes) (hds : ∀ c ∈ ds, isDigit c = true) : decimal ds < 10 ^ ds.length := by
  have h : ∀ r, ds.foldl (fun r c => r * 10 + (digit c).toNat) r < (r + 1) * 10 ^ ds.length := by
    induction ds with
    | nil => exact fun r => by simp
    | cons c ds ih =>
      intro r
      have hc := isDigit_iff.1 (hds c (.head _))
      have hle : (0x30 : UInt8) ≤ c := UInt8.le_iff_toNat_le.2 hc.1
      have hd : (digit c).toNat ≤ 9 := by
        rw [digit, UInt8.toNat_sub_of_le _ _ hle]
        show c.toNat - 0x30 ≤ 9
        omega
      rw [foldl_cons, length_cons, pow_succ]
      refine (ih (fun c' hc' => hds c' (.tail _ hc')) _).trans_le ?_
      calc (r * 10 + (digit c).toNat + 1) * 10 ^ ds.length
          ≤ ((r + 1) * 10) * 10 ^ ds.length := mul_le_mul_right _ (by omega)
        _ = (r + 1) * (10 ^ ds.length * 10) := by rw [mul_assoc, mul_comm 10]
  have := h 0
  rwa [zero_add, one_mul] at this

/-- An integer of at most eighteen digits is the integer that it denotes. -/
theorem NumberText.value_integer {n : NumberText} (hn : n.Wf) (hf : n.frac = none)
    (he : n.exp = none) (hl : n.int.length ≤ 18) : ∃ i, n.value = .i64 i ∧ i.toInt = n.integer := by
  have hlt : decimal n.int < 10 ^ 18 :=
    (decimal_lt n.int hn.int.2).trans_le (Nat.pow_le_pow_right (by norm_num) hl)
  refine ⟨Int64.ofInt n.integer, if_pos ⟨by rw [hf]; rfl, by rw [he]; rfl, hl⟩, ?_⟩
  refine Int64.toInt_ofInt_of_le ?_ ?_
  · rw [integer]
    split <;> omega
  · rw [integer]
    split <;> omega

/-- **The parser of documents is exact.**

* It accepts the documents of the grammar, and returns the values that they denote.
* Of the members of an object with one key the last one counts, and an integer of at most eighteen
  digits is an `I64` with its value.
* The tokens that are emitted are the start of the tokens of some tree, also where there is an error,
  and the tree builder ignores none of them.
* No document is refused for the bound on the recursion. -/
theorem parse_exact (source : Bytes) :
    (∀ v, JsonParser.parse source = .ok v ↔ ∃ t, Document t source ∧ t.value = v) ∧
    (∀ members, ∃ data, (Tree.object members).value = .object data ∧ (data.map Prod.fst).Nodup ∧
      ∀ k, data.lookup k = (memberValues members).reverse.lookup k) ∧
    (∀ n : NumberText, n.Wf → n.frac = none → n.exp = none → n.int.length ≤ 18 →
      ∃ i, n.value = .i64 i ∧ i.toInt = n.integer) ∧
    (∃ t : Tree, (JsonParser.tokenize source).2.emitted <+: t.tokens) ∧
    TreeBuilder.Takes {} (JsonParser.tokenize source).2.emitted ∧
    (JsonParser.tokenize source).1 ≠ .error .fuel := by
  have htakes : ∀ es, ValueStart es → TreeBuilder.Takes {} es := by
    rintro es ⟨t, ht⟩
    exact (TreeBuilder.foldl_tokens t rfl).1.of_start ht
  have hstart : ValueStart (JsonParser.tokenize source).2.emitted ∧
      (JsonParser.tokenize source).1 ≠ .error .fuel := by
    obtain ⟨t, p', hrun, -, hem, -⟩ | ⟨p', hrun, -, hem, -⟩ | ⟨p', hrun, hs⟩ :=
      JsonParser.tokenize_cases source
    · rw [hrun]
      exact ⟨⟨t, by rw [hem]⟩, nofun⟩
    · rw [hrun]
      exact ⟨by rw [hem]; exact valueStart_nil, nofun⟩
    · rw [hrun]
      exact ⟨hs, nofun⟩
  refine ⟨JsonParser.parse_ok_iff source, fun members => ?_, fun n hn hf he hl =>
    n.value_integer hn hf he hl, hstart.1, htakes _ hstart.1, hstart.2⟩
  have hnil : (([] : List (Bytes × JsonValue)).map Prod.fst).Nodup := nodup_nil
  refine ⟨_, by rw [Tree.value], nodup_foldl_update _ hnil, fun k => ?_⟩
  rw [lookup_foldl_update]
  exact Option.or_none

/-- The text is JSON as RFC 8259 has it: it is derived by the grammar, and it is UTF-8. -/
def Rfc8259 (source : Bytes) : Prop :=
  (∃ t, Document t source) ∧ ∃ cs : List Char, Builtin.encode cs = source

/-- A string with the byte 0xFF, which no encoding of a text has, is accepted. -/
theorem accepts_invalid_utf8 :
    ¬ ∀ source, (∃ v, JsonParser.parse source = .ok v) ↔ Rfc8259 source := by
  intro h
  have hdoc : Document (.string [0xFF]) [quote, 0xFF, quote] :=
    ⟨_, _, .nil _, .string (.unescaped (by decide) (by decide) (by decide) (.close [])), .nil _⟩
  obtain ⟨-, cs, hcs⟩ := (h [quote, 0xFF, quote]).1
    ⟨_, (JsonParser.parse_ok_iff _ _).2 ⟨_, hdoc, rfl⟩⟩
  have hmem : (0xFF : UInt8) ∈ Builtin.encode cs := by
    rw [hcs]
    decide
  exact Builtin.notMem_encode cs hmem

end SpacePony.Json
