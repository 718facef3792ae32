import SpacePony.Compiler.Ast.Hash
import Mathlib.Data.Finset.Powerset

/-!
# Compiler — constants of compile-time evaluation

`create_ast_literal_node` of `ctfe/` turns the result of a `comptime` expression into a literal
tree.  Objects and arrays get the name of a global, looked up by the hash of the tree in
`m_stored_obj_names`; code generation emits one global for each name.

Two constants that share a name are equal exactly in those compilations where no two different
constants cancel (`constants_kept_apart_iff`).  `Pair(1, 2)` and `Pair(2, 1)` do, and share a global
(`constants_confused`).
-/

namespace SpacePony.Ctfe

open Option List Syntax XorFold

/-! ### Values -/

/-- `TK_FVAR`, `TK_FLET` or `TK_EMBED`. -/
inductive FieldKind where
  | fvar | flet | embed
  deriving DecidableEq

def FieldKind.id : FieldKind → TokenId
  | .fvar => .tkFvar
  | .flet => .tkFlet
  | .embed => .tkEmbed

/-- A field among the members of a class or a struct. -/
structure Field where
  kind : FieldKind
  name : CStr
  type : Ast

/-- The type parameter of `CtfeValueInt`. -/
structure IntKind where
  width : Nat
  signed : Bool
  deriving DecidableEq

/-- A `CtfeValue` with the type it carries. -/
inductive Value where
  | bool (type : Ast) (b : Bool)
  | int (type : Ast) (kind : IntKind) (n : BitVec kind.width)
  | float (type : Ast) (d : Double)
  | string (type : Ast) (bytes : CStr)
  | primitive (type : Ast)
  | tuple (type : Ast) (elems : List Value)
  /-- `CtfeValueStruct` with a type of its own: its fields and their values, in order. -/
  | struct (type structType : Ast) (fields : List Field) (values : List Value)
  /-- `CtfeValuePointer`: `m_pointer_type`, `m_elem_size` and the elements allocated. -/
  | pointer (type : Ast) (elemSize : UInt64) (elems : List Value)
  /-- A value of any other type. -/
  | other (type : Ast)

/-- `get_type_ast`. -/
def Value.type : Value → Ast
  | .bool type _ | .int type _ _ | .float type _ | .string type _ | .primitive type
  | .tuple type _ | .struct type _ _ _ | .pointer type _ _ | .other type => type

/-- `static_cast<uint64_t>(m_val)`. -/
def intLow (kind : IntKind) (n : BitVec kind.width) : UInt64 :=
  UInt64.ofBitVec (if kind.signed then n.signExtend 64 else n.setWidth 64)

/-- The literal of `CtfeValueInt::create_ast_literal_node`: only the 128-bit types have a high
half. -/
def intLexint (kind : IntKind) (n : BitVec kind.width) : Lexint :=
  ⟨intLow kind n, if kind.width = 128 then UInt64.ofBitVec (n.extractLsb' 64 64) else 0⟩

/-- `get_type_name`, for a type with a name. -/
def typeName : Ast → Option CStr
  | .node .tkNominal _ _ _ (_ :: .node _ (.string s) _ _ _ :: _) => some s
  | _ => none

/-- `is_literal(type, "Array")`. -/
def isArray (type : Ast) : Bool :=
  typeName type = some ['A', 'r', 'r', 'a', 'y']

/-- `get_value`. -/
def getValue (name : CStr) : List Field → List Value → Option Value
  | f :: fs, v :: vs => if f.name = name then some v else getValue name fs vs
  | _, _ => none

/-- `to_uint64`. -/
def Value.toUint64 : Value → Option UInt64
  | .int _ kind n => some (intLow kind n)
  | _ => none

/-! ### Names -/

/-- The two classes with a table `m_stored_obj_names` of their own. -/
inductive Kind where
  | object | array
  deriving DecidableEq

def Kind.id : Kind → TokenId
  | .object => .tkConstantObject
  | .array => .tkConstantArray

/-- A constant: its kind, its type and its children after the name. -/
structure Constant where
  kind : Kind
  type : Ast
  rest : List Ast

namespace Constant

/-- The tree of a constant whose name node holds `name`. -/
def ast (c : Constant) (name : TokenValue) : Ast :=
  .node c.kind.id .blank none (some c.type) (.node .tkId name none none [] :: c.rest)

/-- The tree that is hashed: its name node is still blank. -/
def body (c : Constant) : Ast := c.ast .blank

theorem ast_inj {c d : Constant} {name : TokenValue} (h : c.ast name = d.ast name) : c = d := by
  obtain ⟨k, t, r⟩ := c
  obtain ⟨k', t', r'⟩ := d
  simp only [ast, Ast.node.injEq, some.injEq, cons.injEq] at h
  obtain ⟨hk, -, -, rfl, -, rfl⟩ := h
  have hkind : k = k' := by cases k <;> cases k' <;> first | rfl | cases hk
  rw [hkind]

end Constant

/-- The decimal digits that `snprintf` prints for a `size_t`. -/
def decimal (n : Nat) : CStr := Nat.toDigits 10 n

/-- The name of `object_hygienic_name` for a type of this name, from the package's id `$package`
and the next hygienic id of the package. -/
def hygienicName (name : CStr) (package id : Nat) : CStr :=
  name ++ '_' :: '$' :: decimal package ++ '$' :: decimal id

/-- What a compilation keeps between constants: the tables `m_stored_obj_names` and each
package's `next_hygienic_id`; `made` lists the constants named so far. -/
structure Names where
  stored : Kind → List (UInt64 × CStr)
  nextHygienicId : Nat → Nat
  made : List (Constant × CStr)

/-- The start of a compilation. -/
def Names.init : Names := ⟨fun _ => [], fun _ => 0, []⟩

/-- `package_hygienic_id` uses up the next id of a package. -/
def Names.packageHygienicId (s : Names) (package : Nat) : Names :=
  { s with nextHygienicId :=
      Function.update s.nextHygienicId package (s.nextHygienicId package + 1) }

/-- `object_hygienic_name`.  The types of objects and arrays are nominal. -/
def objectHygienicName (type : Ast) (s : Names) : Option (CStr × Names) :=
  match typeName type, type with
  | some name, .node _ _ (some (.definition package)) _ _ =>
    some (hygienicName name package (s.nextHygienicId package), s.packageHygienicId package)
  | _, _ => none

section
variable (undefined : Double → UInt64)

/-- The common end of the two `create_ast_literal_node`: hash the tree, take the name stored
under the hash or store a new one, and set it. -/
def nameConstant (c : Constant) (s : Names) : Option (Ast × Names) :=
  let hash := astHash undefined c.body
  match (s.stored c.kind).lookup hash with
  | some name => some (c.ast (.string name), { s with made := (c, name) :: s.made })
  | none =>
    match objectHygienicName c.type s with
    | some (name, s) => some (c.ast (.string name),
        { s with
          stored := Function.update s.stored c.kind ((hash, name) :: s.stored c.kind)
          made := (c, name) :: s.made })
    | none => none

/-- A `TK_INT` without a type. -/
def intNode (n : Lexint) : Ast := .node .tkInt (.integer n) none none []

mutual
/-- `CtfeValue::create_ast_literal_node`. -/
def createLiteral : Value → Names → Option (Ast × Names)
  | .bool type b, s => some ((Ast.blank (if b then .tkTrue else .tkFalse)).setType type, s)
  | .int type kind n, s => some ((intNode (intLexint kind n)).setType type, s)
  | .float type d, s => some (.node .tkFloat (.real d) none (some type) [], s)
  | .string type bytes, s =>
    -- `ast_set_name` reads the bytes as a C string
    some (.node .tkString (.string (bytes.takeWhile (· ≠ '\x00'))) none (some type) [], s)
  | .primitive type, s =>
    some (((Ast.blank .tkConstantObject).append [Ast.blank .tkId, Ast.blank .tkMembers]).setType
      type, s)
  | .tuple type elems, s =>
    match createTuple elems s with
    | some (children, s) => some (.node .tkTuple .blank none (some type) children, s)
    | none => none
  | .struct _ type fields values, s =>
    -- the type is taken from the struct, not from the value
    match createMembers (isArray type)
        ((getValue ['_', 's', 'i', 'z', 'e'] fields values).bind Value.toUint64)
        fields values s with
    | some (members, s) =>
      nameConstant undefined ⟨.object, type, [(Ast.blank .tkMembers).append members]⟩ s
    | none => none
  | .pointer _ _ _, _ => none
  | .other _, _ => none

/-- The elements of a tuple, each with the type of its value. -/
def createTuple : List Value → Names → Option (List Ast × Names)
  | [], s => some ([], s)
  | elem :: elems, s =>
    match createLiteral elem s with
    | some (lit, s) =>
      match createTuple elems s with
      | some (lits, s) => some (lit.setType elem.type :: lits, s)
      | none => none
    | none => none

/-- The loop over the members of `CtfeValueStruct::create_ast_literal_node`.  In an `Array` the
field `_ptr` is cut to `_size`, and its literal keeps the type of the pointer. -/
def createMembers (array : Bool) (size : Option UInt64) :
    List Field → List Value → Names → Option (List Ast × Names)
  | [], _, s => some ([], s)
  | _ :: _, [], _ => none
  | field :: fields, value :: values, s =>
    match (if array ∧ field.name = ['_', 'p', 't', 'r'] then
        size.bind fun n => createArray value n.toNat s
      else
        (createLiteral value s).map fun (lit, s) => (lit.setType field.type, s)) with
    | some (lit, s) =>
      match createMembers array size fields values s with
      | some (nodes, s) =>
        some (.node field.kind.id .blank none (some field.type) [lit] :: nodes, s)
      | none => none
    | none => none

/-- `CtfeValuePointer::create_ast_literal_node`. -/
def createArray : Value → Nat → Names → Option (Ast × Names)
  | .pointer type elemSize elems, arraySize, s =>
    if elems.length = 0 then none
    else
      let size := if arraySize ≠ 0 then arraySize else elems.length
      match createElems size elems s with
      | some (members, s) =>
        nameConstant undefined ⟨.array, type, [intNode ⟨UInt64.ofNat size, 0⟩,
          intNode ⟨elemSize, 0⟩, (Ast.blank .tkMembers).append members]⟩ s
      | none => none
  | _, _, _ => none

/-- The loop over the first `size` elements of an array. -/
def createElems : Nat → List Value → Names → Option (List Ast × Names)
  | 0, _, s => some ([], s)
  | _ + 1, [], _ => none
  | size + 1, elem :: elems, s =>
    match createLiteral elem s with
    | some (lit, s) =>
      match createElems size elems s with
      | some (lits, s) => some (lit :: lits, s)
      | none => none
    | none => none
end

/-- What happens in a compilation: a `comptime` expression is replaced by its literal, or a
hygienic id of a package is used for something else. -/
inductive Event where
  | comptime (value : Value)
  | packageHygienicId (package : Nat)

def step (s : Names) : Event → Option Names
  | .comptime value => (createLiteral undefined value s).map Prod.snd
  | .packageHygienicId package => some (s.packageHygienicId package)

/-- A compilation that does not stop at an assertion. -/
def run : List Event → Names → Option Names
  | [], s => some s
  | e :: es, s => (step undefined s e).bind (run es)

/-! ### Names are fresh -/

theorem append_cons_inj {α : Type*} {x : α} {a b c d : List α} (hb : x ∉ b) (hd : x ∉ d)
    (h : a ++ x :: b = c ++ x :: d) : a = c ∧ b = d := by
  rcases append_eq_append_iff.1 h with ⟨e, he, hxb⟩ | ⟨e, he, hxd⟩
  · cases e with
    | nil => simp_all
    | cons y e =>
      cases hxb
      simp at hb
  cases e with
  | nil => simp_all
  | cons y e =>
    cases hxd
    simp at hd

theorem dollar_notMem_decimal (n : Nat) : '$' ∉ decimal n := by
  intro h
  have hdigit := Nat.isDigit_of_mem_toDigits (by decide) (by decide) h
  exact absurd hdigit (by decide)

theorem decimal_inj {m n : Nat} (h : decimal m = decimal n) : m = n := by
  have hof := congrArg (fun l => Nat.ofDigitChars 10 l 0) h
  simpa only [decimal, Nat.ofDigitChars_ten_toDigits] using hof

theorem hygienicName_inj {s t : CStr} {p q i j : Nat}
    (h : hygienicName s p i = hygienicName t q j) : p = q ∧ i = j := by
  have hassoc : ∀ (s : CStr) p i, hygienicName s p i =
      (s ++ '_' :: '$' :: decimal p) ++ '$' :: decimal i := fun s p i => by simp [hygienicName]
  rw [hassoc, hassoc] at h
  obtain ⟨hpre, hi⟩ :=
    append_cons_inj (dollar_notMem_decimal i) (dollar_notMem_decimal j) h
  have hsplit : ∀ (s : CStr) p, s ++ '_' :: '$' :: decimal p =
      (s ++ ['_']) ++ '$' :: decimal p := fun s p => by simp
  rw [hsplit, hsplit] at hpre
  obtain ⟨-, hp⟩ :=
    append_cons_inj (dollar_notMem_decimal p) (dollar_notMem_decimal q) hpre
  exact ⟨decimal_inj hp, decimal_inj hi⟩

/-- The tables of a compilation: a stored name has a hygienic id already used, a name is stored
once in all tables, and every constant has the name stored under its hash. -/
structure Names.Ok (s : Names) : Prop where
  used : ∀ {k h n}, (h, n) ∈ s.stored k → ∃ t p i, n = hygienicName t p i ∧ i < s.nextHygienicId p
  unique : ∀ {k k' h h' n}, (h, n) ∈ s.stored k → (h', n) ∈ s.stored k' → k = k' ∧ h = h'
  found : ∀ {c n}, (c, n) ∈ s.made →
    (s.stored c.kind).lookup (astHash undefined c.body) = some n

theorem objectHygienicName_spec {type : Ast} {s s' : Names} {n : CStr}
    (h : objectHygienicName type s = some (n, s')) :
    ∃ t p, n = hygienicName t p (s.nextHygienicId p) ∧ s' = s.packageHygienicId p := by
  unfold objectHygienicName at h
  split at h
  · cases h
    exact ⟨_, _, rfl, rfl⟩
  · cases h

theorem Names.Ok.init : (Names.init).Ok undefined :=
  ⟨fun h => by simp [Names.init] at h, fun h => by simp [Names.init] at h,
    fun h => by simp [Names.init] at h⟩

variable {undefined}

/-- Using up a hygienic id keeps every name used. -/
theorem Names.Ok.packageHygienicId {s : Names} (hs : s.Ok undefined) (p : Nat) :
    (s.packageHygienicId p).Ok undefined where
  used := fun hn => by
    obtain ⟨t, q, i, rfl, hi⟩ := hs.used hn
    refine ⟨t, q, i, rfl, ?_⟩
    by_cases hq : q = p
    · subst hq
      simpa [Names.packageHygienicId] using Nat.lt_succ_of_lt hi
    · simpa [Names.packageHygienicId, hq] using hi
  unique := hs.unique
  found := hs.found

theorem mem_of_lookup {l : List (UInt64 × CStr)} {h : UInt64} {n : CStr}
    (hl : l.lookup h = some n) : (h, n) ∈ l := by
  induction l with
  | nil => cases hl
  | cons e l ih =>
    obtain ⟨h', n'⟩ := e
    rw [lookup_cons] at hl
    split at hl
    · rename_i heq
      obtain rfl : h = h' := by simpa using heq
      cases hl
      exact .head _
    · exact .tail _ (ih hl)

/-- The step lemma: naming a constant keeps the tables in order. -/
theorem nameConstant_ok {c : Constant} {s s' : Names} {a : Ast} (hs : s.Ok undefined)
    (h : nameConstant undefined c s = some (a, s')) : s'.Ok undefined := by
  unfold nameConstant at h
  simp only at h
  split at h
  · rename_i n hn
    cases h
    refine ⟨hs.used, hs.unique, fun hmem => ?_⟩
    rcases mem_cons.1 hmem with heq | hmem
    · cases heq
      exact hn
    · exact hs.found hmem
  rename_i hnone
  split at h
  · rename_i n s₁ hname
    cases h
    obtain ⟨t, p, rfl, rfl⟩ := objectHygienicName_spec hname
    -- the new name is in no table: its id is not used yet
    have hfresh : ∀ k h', (h', hygienicName t p (s.nextHygienicId p)) ∉ s.stored k := by
      intro k h' hmem
      obtain ⟨t', p', i, heq, hi⟩ := hs.used hmem
      obtain ⟨rfl, rfl⟩ := hygienicName_inj heq
      exact absurd hi (lt_irrefl _)
    have hbump := hs.packageHygienicId p
    have hcases : ∀ {k h' n'}, (h', n') ∈ Function.update s.stored c.kind
        ((astHash undefined c.body, hygienicName t p (s.nextHygienicId p)) :: s.stored c.kind) k →
        (k = c.kind ∧ h' = astHash undefined c.body ∧
          n' = hygienicName t p (s.nextHygienicId p)) ∨ (h', n') ∈ s.stored k := by
      intro k h' n' hmem
      by_cases hk : k = c.kind
      · subst hk
        rw [Function.update_self] at hmem
        rcases mem_cons.1 hmem with heq | hmem
        · cases heq
          exact .inl ⟨rfl, rfl, rfl⟩
        · exact .inr hmem
      · rw [Function.update_of_ne hk] at hmem
        exact .inr hmem
    refine ⟨fun hmem => ?_, fun hmem hmem' => ?_, fun hmem => ?_⟩
    · rcases hcases hmem with ⟨-, -, rfl⟩ | hmem
      · exact ⟨t, p, s.nextHygienicId p, rfl, by simp [Names.packageHygienicId]⟩
      · exact hbump.used hmem
    · rcases hcases hmem with ⟨rfl, rfl, rfl⟩ | hmem <;>
        rcases hcases hmem' with ⟨rfl, rfl, heq⟩ | hmem'
      · exact ⟨rfl, rfl⟩
      · exact absurd hmem' (hfresh _ _)
      · exact absurd (heq ▸ hmem) (hfresh _ _)
      · exact hs.unique hmem hmem'
    rename_i d n'
    rcases mem_cons.1 hmem with heq | hmem
    · cases heq
      simp
    have hfound := hbump.found hmem
    by_cases hk : d.kind = c.kind
    · rw [hk] at hfound ⊢
      have hne : (astHash undefined d.body == astHash undefined c.body) = false := by
        refine beq_false_of_ne fun heq => ?_
        rw [heq] at hfound
        exact absurd (hnone.symm.trans hfound) (by simp)
      simp only [Function.update_self, lookup_cons, hne, hfound]
    · simpa only [Function.update_of_ne hk] using hfound
  · cases h

/-! ### Runs -/

variable (undefined) in
/-- Naming a constant keeps the property. -/
def NamingKeeps (P : Names → Prop) : Prop :=
  ∀ {c s a s'}, P s → nameConstant undefined c s = some (a, s') → P s'

section
variable {P : Names → Prop}

mutual
/-- What naming a constant keeps, the literal of a value keeps. -/
theorem createLiteral_keeps (hP : NamingKeeps undefined P) {v : Value} {s s' : Names} {a : Ast}
    (hs : P s) (h : createLiteral undefined v s = some (a, s')) : P s' := by
  match v with
  | .bool .. | .int .. | .float .. | .string .. | .primitive .. =>
    cases h
    exact hs
  | .tuple type elems =>
    simp only [createLiteral] at h
    split at h
    · rename_i children s₁ hc
      cases h
      exact createTuple_keeps hP hs hc
    · cases h
  | .struct _ type fields values =>
    simp only [createLiteral] at h
    split at h
    · rename_i members s₁ hm
      exact hP (createMembers_keeps hP hs hm) h
    · cases h
  | .pointer .. | .other .. => simp [createLiteral] at h

theorem createTuple_keeps (hP : NamingKeeps undefined P) {vs : List Value}
    {s s' : Names} {as : List Ast} (hs : P s)
    (h : createTuple undefined vs s = some (as, s')) : P s' := by
  match vs with
  | [] =>
    cases h
    exact hs
  | v :: vs =>
    simp only [createTuple] at h
    split at h
    · rename_i lit s₁ hv
      split at h
      · rename_i lits s₂ hvs
        cases h
        exact createTuple_keeps hP (createLiteral_keeps hP hs hv) hvs
      · cases h
    · cases h

theorem createMembers_keeps (hP : NamingKeeps undefined P) {array : Bool}
    {size : Option UInt64} {fs : List Field} {vs : List Value} {s s' : Names} {as : List Ast}
    (hs : P s) (h : createMembers undefined array size fs vs s = some (as, s')) : P s' := by
  match fs, vs with
  | [], _ =>
    simp only [createMembers, some.injEq, Prod.mk.injEq] at h
    exact h.2 ▸ hs
  | _ :: _, [] => simp [createMembers] at h
  | f :: fs, v :: vs =>
    simp only [createMembers] at h
    split at h
    · rename_i lit s₁ hv
      have hs₁ : P s₁ := by
        split at hv
        · obtain ⟨n, -, hn⟩ := bind_eq_some_iff.1 hv
          exact createArray_keeps hP hs hn
        obtain ⟨⟨lit', s₂⟩, hlit, ⟨⟩⟩ := map_eq_some_iff.1 hv
        exact createLiteral_keeps hP hs hlit
      split at h
      · rename_i nodes s₂ hvs
        cases h
        exact createMembers_keeps hP hs₁ hvs
      · cases h
    · cases h

theorem createArray_keeps (hP : NamingKeeps undefined P) {v : Value} {n : Nat}
    {s s' : Names} {a : Ast} (hs : P s)
    (h : createArray undefined v n s = some (a, s')) : P s' := by
  match v with
  | .pointer type elemSize elems =>
    simp only [createArray] at h
    split at h
    · cases h
    split at h
    · rename_i members s₁ hm
      exact hP (createElems_keeps hP hs hm) h
    · cases h
  | .bool .. | .int .. | .float .. | .string .. | .primitive .. | .tuple .. | .struct ..
  | .other .. => simp [createArray] at h

theorem createElems_keeps (hP : NamingKeeps undefined P) {n : Nat} {vs : List Value}
    {s s' : Names} {as : List Ast} (hs : P s)
    (h : createElems undefined n vs s = some (as, s')) : P s' := by
  match n, vs with
  | 0, _ =>
    simp only [createElems, some.injEq, Prod.mk.injEq] at h
    exact h.2 ▸ hs
  | _ + 1, [] => simp [createElems] at h
  | n + 1, v :: vs =>
    simp only [createElems] at h
    split at h
    · rename_i lit s₁ hv
      split at h
      · rename_i lits s₂ hvs
        cases h
        exact createElems_keeps hP (createLiteral_keeps hP hs hv) hvs
      · cases h
    · cases h
end

end

/-- **The run lemma**: every compilation keeps its tables in order. -/
theorem run_ok {es : List Event} {s s' : Names} (hs : s.Ok undefined)
    (h : run undefined es s = some s') : s'.Ok undefined := by
  induction es generalizing s with
  | nil =>
    cases h
    exact hs
  | cons e es ih =>
    obtain ⟨s₁, he, hes⟩ := bind_eq_some_iff.1 h
    refine ih ?_ hes
    cases e with
    | comptime v =>
      obtain ⟨⟨a, s₂⟩, hv, rfl⟩ := map_eq_some_iff.1 he
      exact createLiteral_keeps (fun hs hc => nameConstant_ok hs hc) hs hv
    | packageHygienicId p =>
      cases he
      exact hs.packageHygienicId p

/-- Two constants share a name exactly when they are of one kind and hash alike. -/
theorem Names.Ok.name_eq_iff {s : Names} (hs : s.Ok undefined) {c d : Constant} {m n : CStr}
    (hc : (c, m) ∈ s.made) (hd : (d, n) ∈ s.made) :
    m = n ↔ c.kind = d.kind ∧ Cancel undefined c.body d.body := by
  have hm := hs.found hc
  have hn := hs.found hd
  rw [← astHash_eq_iff]
  constructor
  · rintro rfl
    exact hs.unique (mem_of_lookup hm) (mem_of_lookup hn)
  rintro ⟨hkind, hhash⟩
  rw [hkind, hhash] at hm
  exact some.inj (hm.symm.trans hn)

/-- Constants with one name, hence one global, are equal as literal trees. -/
def KeptApart (made : List (Constant × CStr)) : Prop :=
  ∀ p ∈ made, ∀ q ∈ made, p.2 = q.2 → p.1.ast (.string p.2) = q.1.ast (.string q.2)

/-- No two different constants of a kind are related by `R`, the constants as they are hashed. -/
def NoneRelated (R : Ast → Ast → Prop) (made : List (Constant × CStr)) : Prop :=
  ∀ p ∈ made, ∀ q ∈ made, p.1.kind = q.1.kind → R p.1.body q.1.body → p.1 = q.1

/-- All literals of the constants of a compilation. -/
def madeLiterals (undefined : Double → UInt64) (made : List (Constant × CStr)) :
    Finset Literal :=
  (made.flatMap fun p => literals undefined p.1.body).toFinset

theorem Names.Ok.keptApart_iff {s : Names} (hs : s.Ok undefined) :
    KeptApart s.made ↔ NoneRelated (Cancel undefined) s.made := by
  constructor
  · intro h p hp q hq hkind hcancel
    have hname : p.2 = q.2 := (hs.name_eq_iff hp hq).2 ⟨hkind, hcancel⟩
    have heq := h p hp q hq hname
    rw [hname] at heq
    exact Constant.ast_inj heq
  · intro h p hp q hq hname
    obtain ⟨hkind, hcancel⟩ := (hs.name_eq_iff hp hq).1 hname
    rw [h p hp q hq hkind hcancel, hname]

/-- Independent literals cancel only against themselves. -/
theorem noneRelated_cancel_iff {made : List (Constant × CStr)}
    (hind : Independent Literal.hash (2 ^ 8) (madeLiterals undefined made)) :
    NoneRelated (Cancel undefined) made ↔ NoneRelated (SameLiterals undefined) made := by
  have hsub : ∀ p ∈ made, (literals undefined p.1.body).toFinset ⊆ madeLiterals undefined made :=
    fun p hp l hl => by
      simp only [madeLiterals, List.mem_toFinset, mem_flatMap] at hl ⊢
      exact ⟨p, hp, hl⟩
  constructor
  · intro h p hp q hq hkind hsame
    exact h p hp q hq hkind hsame.cancel
  · intro h p hp q hq hkind hcancel
    exact h p hp q hq hkind (hcancel.sameLiterals hind (hsub p hp) (hsub q hq))

/-- **When constants are kept apart.**  In every compilation, constants that share a global are
equal if and only if no two different constants of a kind cancel.  Where the hash words of the
literals involved are independent, that is: if and only if no two different constants of a kind
have the same literals up to order, even multiplicities, fractional parts and the fold of their
token ids. -/
theorem constants_kept_apart_iff (undefined : Double → UInt64) (es : List Event) (s : Names)
    (h : run undefined es .init = some s) :
    (KeptApart s.made ↔ NoneRelated (Cancel undefined) s.made) ∧
    (Independent Literal.hash (2 ^ 8) (madeLiterals undefined s.made) →
      (KeptApart s.made ↔ NoneRelated (SameLiterals undefined) s.made)) := by
  have hs : s.Ok undefined := run_ok (Names.Ok.init undefined) h
  refine ⟨hs.keptApart_iff, fun hind => ?_⟩
  rw [hs.keptApart_iff, noneRelated_cancel_iff hind]

end

/-! ### `Pair(1, 2)` and `Pair(2, 1)` -/

/-- A nominal type of a package, without type arguments. -/
def nominal (package : Nat) (name : CStr) : Ast :=
  .node .tkNominal .blank (some (.definition package)) none
    [.node .tkId (.string ('$' :: decimal package)) none none [],
      .node .tkId (.string name) none none [], .blank .tkNone, .blank .tkVal, .blank .tkNone]

/-- `U8`. -/
def u8Type : Ast := nominal 0 ['U', '8']

/-- `class val Pair` with `let x: U8` and `let y: U8`, built as `Pair(x, y)`. -/
def pairValue (x y : BitVec 8) : Value :=
  .struct (nominal 1 ['P', 'a', 'i', 'r']) (nominal 1 ['P', 'a', 'i', 'r'])
    [⟨.flet, ['x'], u8Type⟩, ⟨.flet, ['y'], u8Type⟩]
    [.int u8Type ⟨8, false⟩ x, .int u8Type ⟨8, false⟩ y]

/-- The constant of `Pair(x, y)`. -/
def pairConstant (x y : UInt64) : Constant :=
  ⟨.object, nominal 1 ['P', 'a', 'i', 'r'], [(Ast.blank .tkMembers).append
    [.node .tkFlet .blank none (some u8Type) [(intNode ⟨x, 0⟩).setType u8Type],
      .node .tkFlet .blank none (some u8Type) [(intNode ⟨y, 0⟩).setType u8Type]]]⟩

/-- The name of the first constant of type `Pair`. -/
def pairName : CStr := ['P', 'a', 'i', 'r', '_', '$', '1', '$', '0']

theorem pairConstants_made :
    (run (fun _ => 0) [.comptime (pairValue 1 2), .comptime (pairValue 2 1)] .init).map
      Names.made = some [(pairConstant 2 1, pairName), (pairConstant 1 2, pairName)] :=
  rfl

/-- **The two pairs share a global** although they differ. -/
theorem constants_confused :
    ∃ s, run (fun _ => 0) [.comptime (pairValue 1 2), .comptime (pairValue 2 1)] .init = some s ∧
      ¬ KeptApart s.made := by
  obtain ⟨s, hs, hmade⟩ := map_eq_some_iff.1 pairConstants_made
  refine ⟨s, hs, fun h => ?_⟩
  have heq := h (pairConstant 2 1, pairName) (by simp [hmade])
    (pairConstant 1 2, pairName) (by simp [hmade]) rfl
  have hpair := Constant.ast_inj heq
  simp [pairConstant, Ast.append, Ast.blank, intNode, Ast.setType] at hpair

/-- The hash words of the literals of the two pairs do not cancel. -/
theorem independent_pairs : Independent Literal.hash (2 ^ 8)
    (madeLiterals (fun _ => 0) [(pairConstant 2 1, pairName), (pairConstant 1 2, pairName)]) := by
  have hall : ∀ t ∈ (madeLiterals (fun _ => 0)
      [(pairConstant 2 1, pairName), (pairConstant 1 2, pairName)]).powerset,
      (xorSet Literal.hash t).toNat < 2 ^ 8 → t = ∅ := by decide +kernel
  exact fun t ht => hall t (Finset.mem_powerset.2 ht)

/-- The two pairs, by the general theorem: they have the same literals. -/
theorem constants_kept_apart_iff_pairs :
    ∃ s, run (fun _ => 0) [.comptime (pairValue 1 2), .comptime (pairValue 2 1)] .init = some s ∧
      (KeptApart s.made ↔ NoneRelated (Cancel fun _ => 0) s.made) ∧
      (KeptApart s.made ↔ NoneRelated (SameLiterals fun _ => 0) s.made) := by
  obtain ⟨s, hs, hmade⟩ := map_eq_some_iff.1 pairConstants_made
  obtain ⟨hcancel, hsame⟩ := constants_kept_apart_iff _ _ s hs
  exact ⟨s, hs, hcancel, hsame (hmade ▸ independent_pairs)⟩

end SpacePony.Ctfe
