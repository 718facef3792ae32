import SpacePony.Packages.Json.Strings

/-!
# Packages — json — productions

What the productions of the parser accept is derived by the grammar, and the tokens that they emit
are those of the tree: the literals first (`parseLiteral_sound`, `parseLiteral_complete`), then the
productions by induction on the bound (`SoundAt`, `soundAt`).
-/

namespace SpacePony.Json

open List Raise

variable {N : Type} (notify : N → Event → N × Bool) {p : JsonTokenParser N}

/-! ### Literals -/

theorem forM_eat_sound (text : Bytes) :
    Ends (text.forM eat) (fun _ p' => Emits notify [] p p' ∧ p.rest = text ++ p'.rest)
      (fun f p' => f = .error ∧ Emits notify [] p p') p := by
  induction text generalizing p with
  | nil => exact ends_pure ⟨Emits.refl p, rfl⟩
  | cons c text ih =>
    refine ends_bind (ends_eat (fun s hs => ?_) ⟨rfl, Emits.refl p⟩)
    have h₁ : Emits notify [] p (p.pass c) := emits_pass c
    refine ih.mono ?_ fun _ _ h => ⟨h.1, h₁.trans_nil h.2⟩
    rintro _ p' ⟨h, hr⟩
    rw [rest_pass c hs] at hr
    exact ⟨h₁.trans_nil h, by rw [hs, hr]; rfl⟩

theorem forM_eat_complete {text s : Bytes} (hp : p.rest = text ++ s) :
    Ends (text.forM eat) (fun _ p' => Emits notify [] p p' ∧ p'.rest = s) (fun _ _ => False) p := by
  induction text generalizing p with
  | nil => exact ends_pure ⟨Emits.refl p, hp⟩
  | cons c text ih =>
    refine ends_bind (ends_eat_of_rest hp ?_)
    have h₁ : Emits notify [] p (p.pass c) := emits_pass c
    refine (ih (rest_pass c hp)).mono ?_ fun _ _ h => h
    rintro _ p' ⟨h, hr⟩
    exact ⟨h₁.trans_nil h, hr⟩

section
variable {text : Bytes} {token : JsonToken} {e : Event}

section
variable (hq : ∀ n e, (notify n e).2 = false) (ha : p.abort = false)
  (he : ∀ p : JsonTokenParser N, p.event token = e)
include hq ha he

/-- An accepted literal has its text read and its token emitted, a refused one emits nothing. -/
theorem parseLiteral_sound : Ends (parseLiteral notify text token)
      (fun _ p' => p.rest = text ++ p'.rest ∧ Emits notify [e] p p')
      (fun f p' => f = .error ∧ Emits notify [] p p') p := by
  refine ends_bind ((forM_eat_sound notify text).mono ?_ fun _ _ h => h)
  rintro _ p₁ ⟨h₁, hr₁⟩
  refine ends_emit hq (h₁.abort.trans ha) fun p' hem hp' => ?_
  rw [he] at hem
  exact ⟨by rw [hr₁, hp'], h₁.trans hem⟩

/-- Where the text stands next, the literal is accepted. -/
theorem parseLiteral_complete {s : Bytes} (hp : p.rest = text ++ s) :
    Ends (parseLiteral notify text token) (fun _ p' => Emits notify [e] p p' ∧ p'.rest = s)
      (fun _ _ => False) p := by
  refine ends_bind ((forM_eat_complete notify hp).mono ?_ fun _ _ h => h)
  rintro _ p₁ ⟨h₁, hr₁⟩
  refine ends_emit hq (h₁.abort.trans ha) fun p' hem hp' => ?_
  rw [he] at hem
  exact ⟨h₁.trans hem, hp'.trans hr₁⟩

end

end

/-! ### Soundness -/

/-- The tokens are the start of those of a value, of elements or of members. -/
def ValueStart (es : List Event) : Prop := ∃ t : Tree, es <+: t.tokens

/-- The tokens are the start of those of elements. -/
def ElementsStart (es : List Event) : Prop := ∃ ts, es <+: elementTokens ts

/-- The tokens are the start of those of members. -/
def MembersStart (es : List Event) : Prop := ∃ ms, es <+: memberTokens ms

/-- A production fails: the tokens are a start, and the bound was reached only where it was too
low. -/
def Fails (fuel need : Nat) (start : List Event → Prop) (p : JsonTokenParser N) (f : Failure)
    (p' : JsonTokenParser N) : Prop :=
  (∃ es, start es ∧ Emits notify es p p') ∧ (f = .fuel → fuel < need)

section
variable {es es' : List Event} {t : Tree} {k : Bytes}

theorem valueStart_nil : ValueStart [] := ⟨.null, nil_prefix⟩

theorem elementsStart_nil : ElementsStart [] := ⟨[], nil_prefix⟩

theorem membersStart_nil : MembersStart [] := ⟨[], nil_prefix⟩

theorem ValueStart.elements (h : ValueStart es) : ElementsStart es := by
  obtain ⟨t, ht⟩ := h
  refine ⟨[t], ht.trans ?_⟩
  rw [elementTokens, elementTokens, append_nil]

theorem ElementsStart.cons (h : ElementsStart es) (t : Tree) : ElementsStart (t.tokens ++ es) := by
  obtain ⟨ts, hts⟩ := h
  refine ⟨t :: ts, ?_⟩
  rw [elementTokens]
  exact (prefix_append_right_inj _).2 hts

theorem ElementsStart.value (h : ElementsStart es) : ValueStart (.arrayStart :: es) := by
  obtain ⟨ts, hts⟩ := h
  refine ⟨.array ts, ?_⟩
  rw [Tree.tokens]
  exact cons_prefix_cons.2 ⟨rfl, hts.trans (prefix_append ..)⟩

theorem ValueStart.members (h : ValueStart es) (k : Bytes) : MembersStart (.key k :: es) := by
  obtain ⟨t, ht⟩ := h
  refine ⟨[(k, t)], ?_⟩
  rw [memberTokens, memberTokens, append_nil]
  exact cons_prefix_cons.2 ⟨rfl, ht⟩

theorem MembersStart.cons (h : MembersStart es) (k : Bytes) (t : Tree) :
    MembersStart (.key k :: (t.tokens ++ es)) := by
  obtain ⟨ms, hms⟩ := h
  refine ⟨(k, t) :: ms, ?_⟩
  rw [memberTokens]
  exact cons_prefix_cons.2 ⟨rfl, (prefix_append_right_inj _).2 hms⟩

theorem MembersStart.value (h : MembersStart es) : ValueStart (.objectStart :: es) := by
  obtain ⟨ms, hms⟩ := h
  refine ⟨.object ms, ?_⟩
  rw [Tree.tokens]
  exact cons_prefix_cons.2 ⟨rfl, hms.trans (prefix_append ..)⟩

end

section
variable {notify} {es : List Event} {start : List Event → Prop} {fuel need : Nat}
  {p₁ p' : JsonTokenParser N} {f : Failure}

theorem fails_of_error (hs : start es) (h : Emits notify es p p₁)
    (hf : f = .error ∧ Emits notify [] p₁ p') : Fails notify fuel need start p f p' :=
  ⟨⟨es, hs, h.trans_nil hf.2⟩, fun e => absurd (hf.1.symm.trans e) nofun⟩

theorem fails_error (hs : start es) (h : Emits notify es p p') :
    Fails notify fuel need start p .error p' :=
  fails_of_error hs h ⟨rfl, Emits.refl p'⟩

/-- A production fails where one that it calls does. -/
theorem Fails.of_call {fuel' need' : Nat} {start' : List Event → Prop}
    (hf : Fails notify fuel' need' start' p₁ f p') (h : Emits notify es p p₁)
    (hs : ∀ es', start' es' → start (es ++ es')) (hn : fuel' < need' → fuel < need) :
    Fails notify fuel need start p f p' := by
  obtain ⟨⟨es', hs', hem⟩, hfuel⟩ := hf
  exact ⟨⟨es ++ es', hs es' hs', h.trans hem⟩, fun e => hn (hfuel e)⟩

end

/-- What the productions do, with a bound on the recursion. -/
structure SoundAt (fuel : Nat) : Prop where
  value : ∀ {p : JsonTokenParser N}, p.abort = false →
    Ends (parseValue notify fuel) (fun _ p' => ∃ t s, Ws p.rest s ∧ Derives (.value t) s p'.rest ∧
      Emits notify t.tokens p p') (Fails notify fuel (3 * p.rest.length + 1) ValueStart p) p
  object : ∀ {p : JsonTokenParser N} {s : Bytes}, p.abort = false → p.rest = openBrace :: s →
    Ends (parseObject notify fuel) (fun _ p' => ∃ t, Derives (.value t) p.rest p'.rest ∧
      Emits notify t.tokens p p') (Fails notify fuel (3 * p.rest.length) ValueStart p) p
  members : ∀ {p : JsonTokenParser N}, p.abort = false →
    Ends (objectLoop notify fuel) (fun _ p' => ∃ ms, Derives (.members ms) p.rest p'.rest ∧
      Emits notify (memberTokens ms ++ [.objectEnd]) p p')
      (Fails notify fuel (3 * p.rest.length + 2) MembersStart p) p
  array : ∀ {p : JsonTokenParser N} {s : Bytes}, p.abort = false → p.rest = openBracket :: s →
    Ends (parseArray notify fuel) (fun _ p' => ∃ t, Derives (.value t) p.rest p'.rest ∧
      Emits notify t.tokens p p') (Fails notify fuel (3 * p.rest.length) ValueStart p) p
  elements : ∀ {p : JsonTokenParser N}, p.abort = false →
    Ends (arrayLoop notify fuel) (fun _ p' => ∃ ts, Derives (.elements ts) p.rest p'.rest ∧
      Emits notify (elementTokens ts ++ [.arrayEnd]) p p')
      (Fails notify fuel (3 * p.rest.length + 2) ElementsStart p) p

section
variable {notify} {fuel : Nat} (hq : ∀ n e, (notify n e).2 = false) (ih : SoundAt notify fuel)
include hq ih

theorem parseValue_sound (ha : p.abort = false) :
    Ends (parseValue notify (fuel + 1)) (fun _ p' => ∃ t s, Ws p.rest s ∧
      Derives (.value t) s p'.rest ∧ Emits notify t.tokens p p')
      (Fails notify (fuel + 1) (3 * p.rest.length + 1) ValueStart p) p := by
  rw [parseValue]
  refine ends_skipMark notify fun p₂ h₂ hr₂ => ?_
  have hws : Ws p.rest p₂.rest := by rw [hr₂]; exact ws_dropWhile _
  have hlen := hws.length_le
  have ha₂ := h₂.abort.trans ha
  refine ends_bind (ends_peek (fun c s hs => ?_) fun _ => fails_error valueStart_nil h₂)
  have hleaf : ∀ {f p'}, f = .error ∧ Emits notify [] p₂ p' →
      Fails notify (fuel + 1) (3 * p.rest.length + 1) ValueStart p f p' :=
    fun hf => fails_of_error valueStart_nil h₂ hf
  have hcall : ∀ {f p'}, Fails notify fuel (3 * p₂.rest.length) ValueStart p₂ f p' →
      Fails notify (fuel + 1) (3 * p.rest.length + 1) ValueStart p f p' :=
    fun hf => hf.of_call h₂ (fun _ h => h) fun _ => by omega
  refine ends_ite (fun hc => ?_) fun _ => ends_ite (fun hc => ?_) fun _ => ends_ite (fun hc => ?_)
    fun _ => ends_ite (fun hc => ?_) fun _ => ends_ite (fun hc => ?_) fun _ =>
    ends_ite (fun hc => ?_) fun _ => ends_ite (fun hc => ?_) fun _ =>
    ends_throw (fails_error valueStart_nil h₂)
  · subst hc
    refine (ih.object ha₂ hs).mono ?_ fun _ _ => hcall
    rintro _ p' ⟨t, ht, hem⟩
    exact ⟨t, _, hws, ht, h₂.trans hem⟩
  · subst hc
    refine (ih.array ha₂ hs).mono ?_ fun _ _ => hcall
    rintro _ p' ⟨t, ht, hem⟩
    exact ⟨t, _, hws, ht, h₂.trans hem⟩
  · refine (parseString_sound notify hq ha₂).mono ?_ fun _ _ => hleaf
    rintro _ p' ⟨b, s', hs', hchars, hem⟩
    refine ⟨.string b, _, hws, ?_, h₂.trans hem⟩
    rw [hs']
    exact .string hchars
  · refine (parseLiteral_sound notify hq ha₂ fun _ => rfl).mono ?_ fun _ _ => hleaf
    rintro _ p' ⟨hr, hem⟩
    refine ⟨.bool true, _, hws, ?_, h₂.trans hem⟩
    rw [hr]
    exact .literalTrue _
  · refine (parseLiteral_sound notify hq ha₂ fun _ => rfl).mono ?_ fun _ _ => hleaf
    rintro _ p' ⟨hr, hem⟩
    refine ⟨.bool false, _, hws, ?_, h₂.trans hem⟩
    rw [hr]
    exact .literalFalse _
  · refine (parseLiteral_sound notify hq ha₂ fun _ => rfl).mono ?_ fun _ _ => hleaf
    rintro _ p' ⟨hr, hem⟩
    refine ⟨.null, _, hws, ?_, h₂.trans hem⟩
    rw [hr]
    exact .literalNull _
  refine (parseNumber_sound notify hq ha₂).mono ?_ fun _ _ => hleaf
  rintro _ p' ⟨n, hn, hr, hem⟩
  refine ⟨.number n.value, _, hws, ?_, h₂.trans hem⟩
  rw [hr]
  exact .number hn _

theorem parseObject_sound (ha : p.abort = false) {s : Bytes} (hp : p.rest = openBrace :: s) :
    Ends (parseObject notify (fuel + 1)) (fun _ p' => ∃ t, Derives (.value t) p.rest p'.rest ∧
      Emits notify t.tokens p p') (Fails notify (fuel + 1) (3 * p.rest.length) ValueStart p) p := by
  rw [parseObject]
  refine ends_opening hq ha hp (fun _ => rfl) fun p₃ h₃ hr₃ => ?_
  have hws : Ws s p₃.rest := by
    rw [hr₃]
    exact ws_dropWhile s
  have hlen := hws.length_le
  have hstart : ValueStart [.objectStart] := membersStart_nil.value
  refine ends_bind (ends_peek (fun c s' hs' => ?_) fun _ => fails_error hstart h₃)
  refine ends_ite (fun hc => ?_) fun _ => ?_
  · subst hc
    refine ends_closing hq (h₃.abort.trans ha) hs' (fun _ => rfl) fun p' hem hp' => ?_
    refine ⟨.object [], ?_, h₃.trans hem⟩
    rw [hp, hp']
    exact .emptyObject (hs' ▸ hws)
  refine (ih.members (h₃.abort.trans ha)).mono ?_ fun _ _ hf =>
    hf.of_call h₃ (fun _ h => h.value) fun _ => by
      rw [hp, length_cons]
      omega
  rintro _ p' ⟨ms, hms, hem⟩
  refine ⟨.object ms, ?_, h₃.trans hem⟩
  rw [hp]
  exact .object (.members_of_ws hws hms)

theorem objectLoop_sound (ha : p.abort = false) :
    Ends (objectLoop notify (fuel + 1)) (fun _ p' => ∃ ms, Derives (.members ms) p.rest p'.rest ∧
      Emits notify (memberTokens ms ++ [.objectEnd]) p p')
      (Fails notify (fuel + 1) (3 * p.rest.length + 2) MembersStart p) p := by
  rw [objectLoop]
  refine ends_skipMark notify fun p₂ h₂ hr₂ => ?_
  have hws₂ : Ws p.rest p₂.rest := by rw [hr₂]; exact ws_dropWhile _
  -- the key
  refine ends_bind ((parseString_sound notify hq (h₂.abort.trans ha)).mono ?_
    fun _ _ hf => fails_of_error membersStart_nil h₂ hf)
  rintro _ p₃ ⟨k, s₃, hs₃, hk, h₃⟩
  have h₃ : Emits notify [.key k] p p₃ := h₂.trans h₃
  have hkey : MembersStart [.key k] := valueStart_nil.members k
  refine ends_bind (ends_skipWhitespace notify fun p₄ h₄ hr₄ => ?_)
  have h₄ := h₃.trans_nil h₄
  have hws₄ : Ws p₃.rest p₄.rest := by rw [hr₄]; exact ws_dropWhile _
  refine ends_bind (ends_eat (fun s₅ hs₅ => ?_) (fails_error hkey h₄))
  have h₅ := h₄.trans_nil (emits_pass colon)
  have hr₅ := rest_pass colon hs₅
  -- the value
  rw [hs₃] at hws₂
  rw [hs₅] at hws₄
  have hlen₂ := hws₂.length_le
  have hlenk := hk.length_lt
  have hlen₄ := hws₄.length_le
  simp only [length_cons] at hlen₂ hlen₄
  refine ends_bind ((ih.value (h₅.abort.trans ha)).mono ?_ fun _ _ hf =>
    hf.of_call h₅ (fun _ h => h.members k) fun _ => by rw [hr₅] at *; omega)
  rintro _ p₆ ⟨t, s₆, hws₆, ht, h₆⟩
  have h₆ : Emits notify (.key k :: t.tokens) p p₆ := h₅.trans h₆
  rw [hr₅] at hws₆
  have hlen₆ := hws₆.length_le
  have hlent := ht.length_lt
  have hmember : MembersStart (.key k :: t.tokens) := by
    have := membersStart_nil.cons k t
    rwa [append_nil] at this
  refine ends_skipMark notify fun p₈ h₈ hr₈ => ?_
  have h₈ := h₆.trans_nil h₈
  have hws₈ : Ws p₆.rest p₈.rest := by rw [hr₈]; exact ws_dropWhile _
  have hlen₈ := hws₈.length_le
  -- what comes after it
  refine ends_bind (ends_next (fun c s₉ hs₉ => ?_) fun _ => fails_error hmember h₈)
  have h₉ := h₈.trans_nil (emits_pass c)
  have hr₉ := rest_pass c hs₉
  rw [hs₉] at hws₈ hlen₈
  rw [length_cons] at hlen₈
  refine ends_ite (fun hc => ?_) fun _ => ends_ite (fun hc => ?_) fun _ =>
    ends_throw (fails_error hmember h₉)
  · subst hc
    refine (ih.members (h₉.abort.trans ha)).mono ?_ fun _ _ hf =>
      hf.of_call h₉ (fun _ h => h.cons k t) fun _ => by rw [hr₉] at *; omega
    rintro _ p' ⟨ms, hms, hem⟩
    rw [hr₉] at hms
    refine ⟨(k, t) :: ms, .member hws₂ hk hws₄ hws₆ ht hws₈ hms, ?_⟩
    have := h₉.trans hem
    rwa [cons_append, ← append_assoc] at this
  subst hc
  refine ends_emit hq (h₉.abort.trans ha) fun p' hem hp' => ?_
  rw [hr₉] at hp'
  refine ⟨[(k, t)], ?_, ?_⟩
  · rw [hp']
    exact .lastMember hws₂ hk hws₄ hws₆ ht hws₈
  · rw [memberTokens, memberTokens, append_nil]
    exact h₉.trans hem

theorem parseArray_sound (ha : p.abort = false) {s : Bytes} (hp : p.rest = openBracket :: s) :
    Ends (parseArray notify (fuel + 1)) (fun _ p' => ∃ t, Derives (.value t) p.rest p'.rest ∧
      Emits notify t.tokens p p') (Fails notify (fuel + 1) (3 * p.rest.length) ValueStart p) p := by
  rw [parseArray]
  refine ends_opening hq ha hp (fun _ => rfl) fun p₃ h₃ hr₃ => ?_
  have hws : Ws s p₃.rest := by
    rw [hr₃]
    exact ws_dropWhile s
  have hlen := hws.length_le
  have hstart : ValueStart [.arrayStart] := elementsStart_nil.value
  refine ends_bind (ends_peek (fun c s' hs' => ?_) fun _ => fails_error hstart h₃)
  refine ends_ite (fun hc => ?_) fun _ => ?_
  · subst hc
    refine ends_closing hq (h₃.abort.trans ha) hs' (fun _ => rfl) fun p' hem hp' => ?_
    refine ⟨.array [], ?_, h₃.trans hem⟩
    rw [hp, hp']
    exact .emptyArray (hs' ▸ hws)
  refine (ih.elements (h₃.abort.trans ha)).mono ?_ fun _ _ hf =>
    hf.of_call h₃ (fun _ h => h.value) fun _ => by
      rw [hp, length_cons]
      omega
  rintro _ p' ⟨ts, hts, hem⟩
  refine ⟨.array ts, ?_, h₃.trans hem⟩
  rw [hp]
  exact .array (.elements_of_ws hws hts)

theorem arrayLoop_sound (ha : p.abort = false) :
    Ends (arrayLoop notify (fuel + 1)) (fun _ p' => ∃ ts, Derives (.elements ts) p.rest p'.rest ∧
      Emits notify (elementTokens ts ++ [.arrayEnd]) p p')
      (Fails notify (fuel + 1) (3 * p.rest.length + 2) ElementsStart p) p := by
  rw [arrayLoop]
  refine ends_bind ((ih.value ha).mono ?_ fun _ _ hf =>
    hf.of_call (Emits.refl p) (fun _ h => h.elements) fun _ => by omega)
  rintro _ p₁ ⟨t, s₁, hws₁, ht, h₁⟩
  have hlen₁ := hws₁.length_le
  have hlent := ht.length_lt
  have helement : ElementsStart t.tokens := by
    have := elementsStart_nil.cons t
    rwa [append_nil] at this
  refine ends_skipMark notify fun p₃ h₃ hr₃ => ?_
  have h₃ := h₁.trans_nil h₃
  have hws₃ : Ws p₁.rest p₃.rest := by rw [hr₃]; exact ws_dropWhile _
  have hlen₃ := hws₃.length_le
  refine ends_bind (ends_next (fun c s₄ hs₄ => ?_) fun _ => fails_error helement h₃)
  have h₄ := h₃.trans_nil (emits_pass c)
  have hr₄ := rest_pass c hs₄
  rw [hs₄] at hws₃ hlen₃
  rw [length_cons] at hlen₃
  refine ends_ite (fun hc => ?_) fun _ => ends_ite (fun hc => ?_) fun _ =>
    ends_throw (fails_error helement h₄)
  · subst hc
    refine (ih.elements (h₄.abort.trans ha)).mono ?_ fun _ _ hf =>
      hf.of_call h₄ (fun _ h => h.cons t) fun _ => by rw [hr₄] at *; omega
    rintro _ p' ⟨ts, hts, hem⟩
    rw [hr₄] at hts
    refine ⟨t :: ts, .element hws₁ ht hws₃ hts, ?_⟩
    have := h₄.trans hem
    rwa [← append_assoc] at this
  subst hc
  refine ends_emit hq (h₄.abort.trans ha) fun p' hem hp' => ?_
  rw [hr₄] at hp'
  refine ⟨[t], ?_, ?_⟩
  · rw [hp']
    exact .lastElement hws₁ ht hws₃
  · rw [elementTokens, elementTokens, append_nil]
    exact h₄.trans hem

end

/-- **Soundness**: what the productions accept is derived, and the tokens are those of the tree. -/
theorem soundAt (hq : ∀ n e, (notify n e).2 = false) (fuel : Nat) : SoundAt notify fuel := by
  induction fuel with
  | zero =>
    have hzero : ∀ {start : List Event → Prop} {need : Nat} {p : JsonTokenParser N}, start [] →
        0 < need → Fails notify 0 need start p .fuel p :=
      fun hs hn => ⟨⟨[], hs, Emits.refl _⟩, fun _ => hn⟩
    refine ⟨fun _ => ?_, fun _ hp => ?_, fun _ => ?_, fun _ hp => ?_, fun _ => ?_⟩
    · rw [parseValue]
      exact ends_throw (hzero valueStart_nil (Nat.succ_pos _))
    · rw [parseObject]
      exact ends_throw (hzero valueStart_nil (by rw [hp, length_cons]; omega))
    · rw [objectLoop]
      exact ends_throw (hzero membersStart_nil (Nat.succ_pos _))
    · rw [parseArray]
      exact ends_throw (hzero valueStart_nil (by rw [hp, length_cons]; omega))
    · rw [arrayLoop]
      exact ends_throw (hzero elementsStart_nil (Nat.succ_pos _))
  | succ fuel ih =>
    exact ⟨fun ha => parseValue_sound hq ih ha, fun ha hp => parseObject_sound hq ih ha hp,
      fun ha => objectLoop_sound hq ih ha, fun ha hp => parseArray_sound hq ih ha hp,
      fun ha => arrayLoop_sound hq ih ha⟩

end SpacePony.Json
