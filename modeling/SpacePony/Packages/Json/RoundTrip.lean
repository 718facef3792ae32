import SpacePony.Packages.Json.Print

/-!
# Packages — json — printing and parsing

What is printed for a value is a document (`printValue_derives`, by induction on the value), and so
parsing it gives a value back: the same one, if and only if every integer in it has at most eighteen
digits (`print_parse_iff`).
-/

namespace SpacePony.Json

open List

/-! ### Values -/

/-- There is no `F64` in the value, and the keys of each object are different. -/
inductive Plain : JsonValue → Prop
  | object {data : List (Bytes × JsonValue)} (hk : (data.map Prod.fst).Nodup)
      (h : ∀ e ∈ data, Plain e.2) : Plain (.object data)
  | array {data : List JsonValue} (h : ∀ v ∈ data, Plain v) : Plain (.array data)
  | string (s : Bytes) : Plain (.string s)
  | i64 (n : Int64) : Plain (.i64 n)
  | bool (b : Bool) : Plain (.bool b)
  | null : Plain .null

/-- The values are structurally equal: of objects the keys are the same, with equal values. -/
inductive Equal : JsonValue → JsonValue → Prop
  | object {xs ys : List (Bytes × JsonValue)}
      (hk : ∀ k, (xs.lookup k).isSome = (ys.lookup k).isSome)
      (h : ∀ k x y, xs.lookup k = some x → ys.lookup k = some y → Equal x y) :
      Equal (.object xs) (.object ys)
  | array {xs ys : List JsonValue} (hl : xs.length = ys.length)
      (h : ∀ (i : Nat) x y, xs[i]? = some x → ys[i]? = some y → Equal x y) :
      Equal (.array xs) (.array ys)
  | string (s : Bytes) : Equal (.string s) (.string s)
  | i64 (n : Int64) : Equal (.i64 n) (.i64 n)
  | f64 (x : Float) : Equal (.f64 x) (.f64 x)
  | bool (b : Bool) : Equal (.bool b) (.bool b)
  | null : Equal .null .null

/-- The integer is in the value. -/
inductive Occurs (n : Int64) : JsonValue → Prop
  | object {data : List (Bytes × JsonValue)} {e : Bytes × JsonValue} (he : e ∈ data)
      (h : Occurs n e.2) : Occurs n (.object data)
  | array {data : List JsonValue} {v : JsonValue} (hv : v ∈ data) (h : Occurs n v) :
      Occurs n (.array data)
  | i64 : Occurs n (.i64 n)

mutual

/-- The tree of the document that is printed. -/
def JsonValue.tree : JsonValue → Tree
  | .object data => .object (pairTrees data)
  | .array data => .array (valueTrees data)
  | .string s => .string s
  | .i64 n => .number (NumberText.ofInt64 n).value
  | .f64 x => .number (.f64 x)
  | .bool b => .bool b
  | .null => .null

/-- The trees of the pairs of an object. -/
def pairTrees : List (Bytes × JsonValue) → List (Bytes × Tree)
  | [] => []
  | (k, v) :: data => (k, v.tree) :: pairTrees data

/-- The trees of the elements of an array. -/
def valueTrees : List JsonValue → List Tree
  | [] => []
  | v :: data => v.tree :: valueTrees data

end

/-! ### Strings -/

section
variable {b s r : Bytes} {c : UInt8}

theorem hexDigit_hexChar {x : UInt8} (hx : x.toNat < 16) :
    ∃ d, hexDigit (hexChar x) = some d ∧ d.toNat = x.toNat := by
  have hx' : x = UInt8.ofNat x.toNat := (UInt8.ofNat_toNat).symm
  generalize x.toNat = k at hx hx'
  subst hx'
  interval_cases k <;> exact ⟨_, rfl, rfl⟩

/-- A control character is escaped by its code point. -/
theorem chars_control (hc : c.toNat < 0x20) (h : Chars b s r) :
    Chars (c :: b) ([backslash, 0x75, 0x30, 0x30, hexChar ((c >>> 4) &&& 0x0F),
      hexChar (c &&& 0x0F)] ++ s) r := by
  have hhigh : ((c >>> 4) &&& 0x0F).toNat = c.toNat / 16 := by
    rw [UInt8.toNat_and, UInt8.toNat_shiftRight]
    show c.toNat >>> 4 &&& 15 = _
    rw [Nat.shiftRight_eq_div_pow, Nat.and_two_pow_sub_one_eq_mod _ 4]
    omega
  have hlow : (c &&& 0x0F).toNat = c.toNat % 16 := by
    rw [UInt8.toNat_and]
    exact Nat.and_two_pow_sub_one_eq_mod _ 4
  obtain ⟨y, hy, hyv⟩ := hexDigit_hexChar (show ((c >>> 4) &&& 0x0F).toNat < 16 by omega)
  obtain ⟨z, hz, hzv⟩ := hexDigit_hexChar (show (c &&& 0x0F).toNat < 16 by omega)
  obtain ⟨ch, hval⟩ : ∃ ch : Char, ch.val.toNat = c.toNat := by
    refine ⟨⟨c.toUInt32, .inl ?_⟩, UInt8.toNat_toUInt32 c⟩
    rw [UInt8.toNat_toUInt32]
    omega
  have henc : String.utf8EncodeChar ch = [c] := by
    unfold String.utf8EncodeChar
    simp only [hval]
    rw [if_pos (by omega), UInt8.ofNat_toNat]
  have hx : Hex4 ch.val
      (0x30 :: 0x30 :: hexChar ((c >>> 4) &&& 0x0F) :: hexChar (c &&& 0x0F) :: s) s := by
    have hzero : hexDigit 0x30 = some 0 := rfl
    refine .mk s hzero hzero hy hz ?_
    rw [hval, hyv, hzv, hhigh, hlow]
    show c.toNat = ((0 * 16 + 0) * 16 + c.toNat / 16) * 16 + c.toNat % 16
    omega
  have := Chars.codePoint hx h
  rwa [henc] at this

/-- What is printed for a byte stands for it. -/
theorem chars_escapeByte (c : UInt8) (h : Chars b s r) : Chars (c :: b) (escapeByte c ++ s) r := by
  unfold escapeByte
  split_ifs with hq hb _ _ _ _ _ hc
  any_goals (subst_vars; exact .escaped rfl h)
  · exact chars_control (UInt8.lt_iff_toNat_lt.1 hc) h
  · exact .unescaped (UInt8.not_lt.1 hc) hq hb h

theorem chars_escaped (b r : Bytes) : Chars b (b.flatMap escapeByte ++ quote :: r) r := by
  induction b with
  | nil => exact .close r
  | cons c b ih =>
    rw [flatMap_cons, append_assoc]
    exact chars_escapeByte c ih

/-- The text of a string. -/
def stringText (s : Bytes) : Bytes := quote :: (s.flatMap escapeByte ++ [quote])

theorem escapedString_eq (buf s : Bytes) : escapedString buf s = buf ++ stringText s := by
  have h : ∀ buf : Bytes, s.foldl (fun b c => b ++ escapeByte c) buf = buf ++ s.flatMap escapeByte := by
    induction s with
    | nil => intro buf; simp
    | cons c s ih =>
      intro buf
      rw [foldl_cons, ih, flatMap_cons, append_assoc]
  rw [escapedString, h, stringText]
  simp

end

/-! ### The printer -/

theorem ws_append {w : Bytes} (hw : ∀ c ∈ w, isWs c = true) (s : Bytes) : Ws (w ++ s) s := by
  induction w with
  | nil => exact .nil s
  | cons c w ih =>
    exact .cons (hw c (.head _)) (ih fun c' hc' => hw c' (.tail _ hc'))

theorem indentBy_eq (buf indent : Bytes) (level : Nat) :
    indentBy buf indent level = buf ++ (replicate level indent).flatten := by
  induction level generalizing buf with
  | zero => rw [indentBy, replicate_zero, flatten_nil, append_nil]
  | succ level ih =>
    rw [indentBy, ih, replicate_succ, flatten_cons, append_assoc]

variable {v : JsonValue}

section
variable {f64String : Float → Bytes} {indent : Bytes} {isPretty : Bool}
  (hi : ∀ c ∈ indent, isWs c = true)
include hi

/-- A new line is whitespace. -/
theorem newLine_spec (isPretty : Bool) (level : Nat) :
    ∃ w, (∀ buf, newLine indent isPretty buf level = buf ++ w) ∧ ∀ c ∈ w, isWs c = true := by
  cases isPretty with
  | false => exact ⟨[], fun buf => (append_nil buf).symm, nofun⟩
  | true =>
    refine ⟨0x0A :: (replicate level indent).flatten, fun buf => ?_, fun c hc => ?_⟩
    · rw [newLine, if_pos rfl, indentBy_eq, append_assoc]
      rfl
    obtain rfl | hc := mem_cons.1 hc
    · rfl
    obtain ⟨l, hl, hc⟩ := mem_flatten.1 hc
    rw [eq_of_mem_replicate hl] at hc
    exact hi c hc

/-- What is printed for a value at a level is a text that denotes its tree. -/
def Prints (f64String : Float → Bytes) (indent : Bytes) (isPretty : Bool) (v : JsonValue) : Prop :=
  ∀ level, ∃ text, (∀ buf, printValue f64String indent isPretty buf level v = buf ++ text) ∧
    ∀ r, Derives (.value v.tree) (text ++ r) r

/-- The elements of an array, with a comma before them unless they are the first ones. -/
theorem printValues_derives {data : List JsonValue}
    (h : ∀ x ∈ v :: data, Prints f64String indent isPretty x) (level : Nat) :
    ∃ text, (∀ buf, printValues f64String indent isPretty buf level true (v :: data) = buf ++ text) ∧
      (∀ buf, printValues f64String indent isPretty buf level false (v :: data) =
        buf ++ comma :: text) ∧
      ∀ w r, (∀ c ∈ w, isWs c = true) →
        Derives (.elements (valueTrees (v :: data))) (text ++ (w ++ closeBracket :: r)) r := by
  induction data generalizing v with
  | nil =>
    obtain ⟨w₁, hw₁, hws₁⟩ := newLine_spec hi isPretty (level + 1)
    obtain ⟨text, htext, hd⟩ := h v (.head _) (level + 1)
    refine ⟨w₁ ++ text, fun buf => ?_, fun buf => ?_, fun w r hw => ?_⟩
    · simp [printValues, hw₁, htext]
    · simp [printValues, hw₁, htext]
    · rw [append_assoc, valueTrees, valueTrees]
      exact .lastElement (ws_append hws₁ _) (hd _) (ws_append hw _)
  | cons v' data ih =>
    obtain ⟨w₁, hw₁, hws₁⟩ := newLine_spec hi isPretty (level + 1)
    obtain ⟨text, htext, hd⟩ := h v (.head _) (level + 1)
    obtain ⟨text', -, hfalse, hd'⟩ := ih fun x hx => h x (.tail _ hx)
    refine ⟨w₁ ++ (text ++ comma :: text'), fun buf => ?_, fun buf => ?_, fun w r hw => ?_⟩
    · rw [printValues]
      simp only [hw₁, htext, hfalse]
      simp
    · rw [printValues]
      simp only [hw₁, htext, hfalse]
      simp
    · rw [append_assoc, append_assoc, cons_append, valueTrees]
      exact .element (ws_append hws₁ _) (hd _) (.nil _) (hd' w r hw)

/-- The pairs of an object. -/
theorem printPairs_derives {e : Bytes × JsonValue} {data : List (Bytes × JsonValue)}
    (h : ∀ x ∈ e :: data, Prints f64String indent isPretty x.2) (level : Nat) :
    ∃ text, (∀ buf, printPairs f64String indent isPretty buf level true (e :: data) = buf ++ text) ∧
      (∀ buf, printPairs f64String indent isPretty buf level false (e :: data) =
        buf ++ comma :: text) ∧
      ∀ w r, (∀ c ∈ w, isWs c = true) →
        Derives (.members (pairTrees (e :: data))) (text ++ (w ++ closeBrace :: r)) r := by
  -- the space after the colon
  obtain ⟨w₂, hw₂, hws₂⟩ : ∃ w, (∀ buf : Bytes, (if isPretty then buf ++ [0x20] else buf) = buf ++ w) ∧
      ∀ c ∈ w, isWs c = true := by
    cases isPretty with
    | false => exact ⟨[], fun buf => (append_nil buf).symm, nofun⟩
    | true => exact ⟨[0x20], fun buf => rfl, by simp [isWs]⟩
  induction data generalizing e with
  | nil =>
    obtain ⟨w₁, hw₁, hws₁⟩ := newLine_spec hi isPretty (level + 1)
    obtain ⟨text, htext, hd⟩ := h e (.head _) (level + 1)
    refine ⟨w₁ ++ (stringText e.1 ++ colon :: (w₂ ++ text)), fun buf => ?_, fun buf => ?_,
      fun w r hw => ?_⟩
    · rw [printPairs]
      simp only [hw₁, hw₂, htext, escapedString_eq, printPairs]
      simp
    · rw [printPairs]
      simp only [hw₁, hw₂, htext, escapedString_eq, printPairs]
      simp
    rw [pairTrees, pairTrees, stringText]
    simp only [append_assoc, cons_append, nil_append]
    exact .lastMember (ws_append hws₁ _) (chars_escaped _ _) (.nil _) (ws_append hws₂ _) (hd _)
      (ws_append hw _)
  | cons e' data ih =>
    obtain ⟨w₁, hw₁, hws₁⟩ := newLine_spec hi isPretty (level + 1)
    obtain ⟨text, htext, hd⟩ := h e (.head _) (level + 1)
    obtain ⟨text', -, hfalse, hd'⟩ := ih fun x hx => h x (.tail _ hx)
    refine ⟨w₁ ++ (stringText e.1 ++ colon :: (w₂ ++ (text ++ comma :: text'))), fun buf => ?_,
      fun buf => ?_, fun w r hw => ?_⟩
    · rw [printPairs]
      simp only [hw₁, hw₂, htext, hfalse, escapedString_eq]
      simp
    · rw [printPairs]
      simp only [hw₁, hw₂, htext, hfalse, escapedString_eq]
      simp
    rw [pairTrees, stringText]
    simp only [append_assoc, cons_append, nil_append]
    exact .member (ws_append hws₁ _) (chars_escaped _ _) (.nil _) (ws_append hws₂ _) (hd _)
      (.nil _) (hd' w r hw)

/-- **The printer**: what is printed for a value is derived by the grammar, and its tree is the one
of the value. -/
theorem prints_of_plain (hv : Plain v) : Prints f64String indent isPretty v := by
  induction hv with
  | @object data hk h ih =>
    intro level
    cases data with
    | nil =>
      refine ⟨[openBrace, closeBrace], fun buf => ?_, fun r => .emptyObject (.nil _)⟩
      rw [printValue, append_assoc]
      rfl
    | cons e data =>
      obtain ⟨text, htrue, -, hd⟩ := printPairs_derives hi ih level
      obtain ⟨w, hw, hws⟩ := newLine_spec hi isPretty level
      refine ⟨openBrace :: (text ++ (w ++ [closeBrace])), fun buf => ?_, fun r => ?_⟩
      · rw [printValue, htrue, hw]
        simp
      rw [JsonValue.tree]
      simp only [append_assoc, cons_append, nil_append]
      exact .object (hd w r hws)
  | @array data h ih =>
    intro level
    cases data with
    | nil =>
      refine ⟨[openBracket, closeBracket], fun buf => ?_, fun r => .emptyArray (.nil _)⟩
      rw [printValue, append_assoc]
      rfl
    | cons v data =>
      obtain ⟨text, htrue, -, hd⟩ := printValues_derives hi ih level
      obtain ⟨w, hw, hws⟩ := newLine_spec hi isPretty level
      refine ⟨openBracket :: (text ++ (w ++ [closeBracket])), fun buf => ?_, fun r => ?_⟩
      · rw [printValue, htrue, hw]
        simp
      rw [JsonValue.tree]
      simp only [append_assoc, cons_append, nil_append]
      exact .array (hd w r hws)
  | string s =>
    refine fun level => ⟨stringText s, fun buf => escapedString_eq buf s, fun r => ?_⟩
    rw [stringText, cons_append, append_assoc]
    exact .string (chars_escaped s r)
  | i64 n =>
    refine fun level => ⟨i64String n, fun buf => by rw [printValue], fun r => ?_⟩
    rw [i64String_eq]
    exact .number (NumberText.wf_ofInt64 n) r
  | bool b =>
    intro level
    cases b with
    | true =>
      exact ⟨[0x74, 0x72, 0x75, 0x65], fun buf => by rw [printValue, if_pos rfl],
        fun r => .literalTrue r⟩
    | false =>
      exact ⟨[0x66, 0x61, 0x6C, 0x73, 0x65], fun buf => by rw [printValue, if_neg nofun],
        fun r => .literalFalse r⟩
  | null =>
    exact fun level => ⟨[0x6E, 0x75, 0x6C, 0x6C], fun buf => by rw [printValue],
      fun r => .literalNull r⟩

end

/-! ### The round trip -/

section
variable {data : List (Bytes × JsonValue)} {vs : List JsonValue}

theorem elementValues_valueTrees (vs : List JsonValue) :
    elementValues (valueTrees vs) = vs.map fun v => v.tree.value := by
  induction vs with
  | nil => rfl
  | cons v vs ih => rw [valueTrees, elementValues, ih, map_cons]

theorem memberValues_pairTrees (data : List (Bytes × JsonValue)) :
    memberValues (pairTrees data) = data.map fun e => (e.1, e.2.tree.value) := by
  induction data with
  | nil => rfl
  | cons e data ih => rw [pairTrees, memberValues, ih, map_cons]

theorem value_tree_array (vs : List JsonValue) :
    (JsonValue.array vs).tree.value = .array (vs.map fun v => v.tree.value) := by
  rw [JsonValue.tree, Tree.value, elementValues_valueTrees]

theorem value_tree_object (hk : (data.map Prod.fst).Nodup) :
    (JsonValue.object data).tree.value = .object (data.map fun e => (e.1, e.2.tree.value)) := by
  have hfst : (data.map fun e => (e.1, e.2.tree.value)).map Prod.fst = data.map Prod.fst := by
    rw [map_map]
    rfl
  rw [JsonValue.tree, Tree.value, memberValues_pairTrees, foldl_update_nodup, nil_append]
  rw [nil_append, hfst]
  exact hk

theorem value_tree_i64 (n : Int64) :
    (JsonValue.i64 n).tree.value = if n.toInt.natAbs < 10 ^ 18 then .i64 n
      else .f64 (NumberText.ofInt64 n).float := by
  rw [JsonValue.tree, Tree.value, value_ofInt64]
  split <;> rfl

theorem lookup_map_value (data : List (Bytes × JsonValue)) (k : Bytes) :
    (data.map fun e => (e.1, e.2.tree.value)).lookup k =
      (data.lookup k).map fun v => v.tree.value := by
  induction data with
  | nil => rfl
  | cons e data ih =>
    rw [map_cons, lookup_cons, lookup_cons, ih]
    cases k == e.1 <;> rfl

theorem mem_of_lookup {k : Bytes} (h : data.lookup k = some v) : (k, v) ∈ data := by
  induction data with
  | nil => cases h
  | cons e data ih =>
    rw [lookup_cons] at h
    by_cases hk : k = e.1
    · subst hk
      simp only [beq_self_eq_true] at h
      cases h
      exact .head _
    · simp only [beq_eq_false_iff_ne.2 hk] at h
      exact .tail _ (ih h)

theorem lookup_of_mem {e : Bytes × JsonValue} (hk : (data.map Prod.fst).Nodup) (he : e ∈ data) :
    data.lookup e.1 = some e.2 := by
  induction data with
  | nil => cases he
  | cons e' data ih =>
    rw [map_cons, nodup_cons] at hk
    rw [lookup_cons]
    obtain rfl | he := mem_cons.1 he
    · simp
    have hne : e.1 ≠ e'.1 := fun h => hk.1 (h ▸ mem_map_of_mem he)
    simp only [beq_eq_false_iff_ne.2 hne]
    exact ih hk.2 he

/-- The value that comes back is equal to the value, if and only if its integers have at most
eighteen digits. -/
theorem equal_tree_iff (hv : Plain v) :
    Equal v v.tree.value ↔ ∀ n, Occurs n v → n.toInt.natAbs < 10 ^ 18 := by
  induction hv with
  | @object data hk _ ih =>
    rw [value_tree_object hk]
    constructor
    · rintro (⟨-, h⟩) n (⟨he, hn⟩)
      refine (ih _ he).1 (h _ _ _ (lookup_of_mem hk he) ?_) n hn
      rw [lookup_map_value, lookup_of_mem hk he]
      rfl
    intro h
    refine .object (fun k => ?_) fun k x y hx hy => ?_
    · rw [lookup_map_value, Option.isSome_map]
    rw [lookup_map_value, hx] at hy
    cases hy
    have he := mem_of_lookup hx
    exact (ih _ he).2 fun n hn => h n (.object he hn)
  | @array data _ ih =>
    rw [value_tree_array]
    constructor
    · rintro (_ | ⟨-, h⟩) n (_ | ⟨hv, hn⟩)
      obtain ⟨i, hi⟩ := getElem?_of_mem hv
      refine (ih _ hv).1 (h i _ _ hi ?_) n hn
      rw [getElem?_map, hi]
      rfl
    intro h
    refine .array (length_map _).symm fun i x y hx hy => ?_
    rw [getElem?_map, hx] at hy
    cases hy
    have hv := mem_of_getElem? hx
    exact (ih _ hv).2 fun n hn => h n (.array hv hn)
  | string s => exact iff_of_true (.string s) nofun
  | i64 n =>
    rw [value_tree_i64]
    constructor
    · intro h n' hn'
      cases hn'
      by_contra hlt
      rw [if_neg hlt] at h
      cases h
    · intro h
      rw [if_pos (h n .i64)]
      exact .i64 n
  | bool b => exact iff_of_true (.bool b) nofun
  | null => exact iff_of_true .null nofun

end

/-- What is printed is parsed to the value of the tree. -/
theorem parse_printValue {f64String : Float → Bytes} {indent : Bytes} {isPretty : Bool}
    (hv : Plain v) (hi : ∀ c ∈ indent, isWs c = true) :
    JsonParser.parse (printValue f64String indent isPretty [] 0 v) = .ok v.tree.value := by
  have hprints : Prints f64String indent isPretty v := prints_of_plain hi hv
  obtain ⟨text, htext, hd⟩ := hprints 0
  rw [JsonParser.parse_ok_iff, htext []]
  refine ⟨v.tree, ⟨text, [], .nil _, ?_, .nil _⟩, rfl⟩
  have := hd []
  rwa [append_nil] at this

/-- **Printing and parsing**: the compact and the pretty form of a value without floating-point
numbers are parsed to an equal value, if and only if every integer in it has at most eighteen
digits. -/
theorem print_parse_iff (f64String : Float → Bytes) {v : JsonValue} (hv : Plain v) {indent : Bytes}
    (hi : ∀ c ∈ indent, isWs c = true) :
    ((∃ w, JsonParser.parse (compact f64String v) = .ok w ∧ Equal v w) ∧
      ∃ w, JsonParser.parse (pretty f64String v indent) = .ok w ∧ Equal v w) ↔
      ∀ n, Occurs n v → n.toInt.natAbs < 10 ^ 18 := by
  have hcompact : JsonParser.parse (compact f64String v) = .ok v.tree.value :=
    parse_printValue hv nofun
  have hpretty : JsonParser.parse (pretty f64String v indent) = .ok v.tree.value :=
    parse_printValue hv hi
  rw [← equal_tree_iff hv]
  constructor
  · rintro ⟨⟨w, hw, he⟩, -⟩
    rw [hcompact] at hw
    cases hw
    exact he
  · intro h
    exact ⟨⟨_, hcompact, h⟩, _, hpretty, h⟩

/-- A value with an escape, a nesting and a negative integer. -/
theorem nested_value_round_trip :
    ((∃ w, JsonParser.parse (compact (fun _ => []) (.object [([0x6B], .array [.i64 (-7), .null,
        .string [0x0A, 0x22, 0xFF]])])) = .ok w ∧
        Equal (.object [([0x6B], .array [.i64 (-7), .null, .string [0x0A, 0x22, 0xFF]])]) w) ∧
      ∃ w, JsonParser.parse (pretty (fun _ => []) (.object [([0x6B], .array [.i64 (-7), .null,
        .string [0x0A, 0x22, 0xFF]])]) [0x20, 0x09]) = .ok w ∧
        Equal (.object [([0x6B], .array [.i64 (-7), .null, .string [0x0A, 0x22, 0xFF]])]) w) := by
  have hplain : Plain
      (.object [([0x6B], .array [.i64 (-7), .null, .string [0x0A, 0x22, 0xFF]])]) := by
    refine .object (by decide) fun e he => ?_
    rw [mem_singleton] at he
    subst he
    refine .array fun v hv => ?_
    simp only [mem_cons, not_mem_nil, or_false] at hv
    rcases hv with rfl | rfl | rfl
    · exact .i64 _
    · exact .null
    · exact .string _
  have hindent : ∀ c ∈ ([0x20, 0x09] : Bytes), isWs c = true := by
    intro c hc
    simp only [mem_cons, not_mem_nil, or_false] at hc
    rcases hc with rfl | rfl <;> rfl
  refine (print_parse_iff (fun _ => []) hplain hindent).2 fun n hn => ?_
  rcases hn with ⟨he, hn⟩ | _ | _
  rw [mem_singleton] at he
  subst he
  rcases hn with _ | ⟨hv, hn⟩ | _
  simp only [mem_cons, not_mem_nil, or_false] at hv
  rcases hv with rfl | rfl | rfl
  · cases hn
    decide
  · cases hn
  · cases hn

/-- The integer 10 ^ 18 has nineteen digits, and comes back as a floating-point number. -/
theorem nineteen_digits_not_round_trip : ¬ ∀ (f64String : Float → Bytes) (v : JsonValue), Plain v →
      ∃ w, JsonParser.parse (compact f64String v) = .ok w ∧ Equal v w := by
  intro h
  obtain ⟨w, hw, he⟩ := h (fun _ => []) (.i64 1000000000000000000) (.i64 _)
  have hparse : JsonParser.parse (compact (fun _ => []) (.i64 1000000000000000000)) =
      .ok (JsonValue.i64 1000000000000000000).tree.value := parse_printValue (.i64 _) nofun
  rw [hparse] at hw
  cases hw
  have := (equal_tree_iff (.i64 _)).1 he _ .i64
  exact absurd this (by decide)

end SpacePony.Json
