import SpacePony.Compiler.Ctfe.IntOps

/-!
# Compiler — literals of compile-time results, evaluated again

A compile-time result becomes a literal tree (`createLiteral`), which a later compile-time expression
evaluates like any other literal (`CtfeRunner::evaluate`).

* `literal_round_trip`: what comes back, for the values whose Strings end where their size says, and
  which elements of an `Array` object are written.
* `object_not_evaluated`: the constant of an object is no expression that `CtfeRunner::evaluate`
  supports.
-/

namespace SpacePony.Ctfe

open BitVec Option List Syntax

/-! ### Values with whole Strings -/

/-- A `CtfeValue`.  A String is a struct with `_size`, `_alloc` and the bytes that `_ptr` points
to. -/
inductive Whole where
  | bool (type : Ast) (b : Bool)
  | int (type : Ast) (kind : IntKind) (n : BitVec kind.width)
  | string (type : Ast) (size alloc : UInt64) (bytes : CStr)
  | tuple (type : Ast) (elems : List Whole)
  | struct (type structType : Ast) (fields : List Field) (values : List Whole)
  | pointer (type : Ast) (elemSize : UInt64) (elems : List Whole)

mutual
/-- What `create_ast_literal_node` reads of a value. -/
def Whole.value : Whole → Value
  | .bool type b => .bool type b
  | .int type kind n => .int type kind n
  | .string type _ _ bytes => .string type bytes
  | .tuple type elems => .tuple type (Whole.values elems)
  | .struct type structType fields vs => .struct type structType fields (Whole.values vs)
  | .pointer type elemSize elems => .pointer type elemSize (Whole.values elems)

def Whole.values : List Whole → List Value
  | [] => []
  | w :: ws => w.value :: Whole.values ws
end

mutual
/-- The value without what no method of it shows: the room of a String beyond its size. -/
def Whole.contents : Whole → Whole
  | .bool type b => .bool type b
  | .int type kind n => .int type kind n
  | .string type size _ bytes => .string type size 0 (bytes.take size.toNat)
  | .tuple type elems => .tuple type (Whole.contentsList elems)
  | .struct type structType fields vs => .struct type structType fields (Whole.contentsList vs)
  | .pointer type elemSize elems => .pointer type elemSize (Whole.contentsList elems)

def Whole.contentsList : List Whole → List Whole
  | [] => []
  | w :: ws => w.contents :: Whole.contentsList ws
end

/-! ### Evaluation of literals -/

def IntType.all : List IntType :=
  [.i8, .u8, .i16, .u16, .i32, .u32, .i64, .u64, .i128, .u128, .iLong, .uLong, .iSize, .uSize]

def IntType.name : IntType → CStr
  | .i8 => ['I', '8']
  | .u8 => ['U', '8']
  | .i16 => ['I', '1', '6']
  | .u16 => ['U', '1', '6']
  | .i32 => ['I', '3', '2']
  | .u32 => ['U', '3', '2']
  | .i64 => ['I', '6', '4']
  | .u64 => ['U', '6', '4']
  | .i128 => ['I', '1', '2', '8']
  | .u128 => ['U', '1', '2', '8']
  | .iLong => ['I', 'L', 'o', 'n', 'g']
  | .uLong => ['U', 'L', 'o', 'n', 'g']
  | .iSize => ['I', 'S', 'i', 'z', 'e']
  | .uSize => ['U', 'S', 'i', 'z', 'e']

/-- `CtfeValueInt(const lexint_t&)` -/
def intOfLexint (kind : IntKind) (v : Lexint) : BitVec kind.width :=
  let low := v.low.toBitVec.setWidth kind.width
  if kind.width = 128 then low ||| (v.high.toBitVec.setWidth kind.width <<< 64) else low

section
variable (m : DataModel)

/-- `convert_from_int_literal_to_type`, to an integer type. -/
def convertFromIntLiteral (v : Lexint) (type : Ast) : Option Whole :=
  match typeName type with
  | some s => match IntType.all.find? (·.name = s) with
    | some t => some (.int type (t.kind m) (intOfLexint (t.kind m) v))
    | none => none
  | none => none

mutual
/-- `CtfeRunner::evaluate` of a literal with its type.  The runner does not support any other
expression that `create_ast_literal_node` makes. -/
def evaluate : Ast → Option Whole
  | .node .tkTrue _ _ (some type) _ => some (.bool type true)
  | .node .tkFalse _ _ (some type) _ => some (.bool type false)
  | .node .tkInt (.integer v) _ (some type) _ => convertFromIntLiteral m v type
  | .node .tkString (.string s) _ (some type) _ =>
    some (.string type (UInt64.ofNat s.length) (UInt64.ofNat (s.length + 1)) (s ++ ['\x00']))
  | .node .tkTuple _ _ (some type) children => (evaluateElems children).map (.tuple type)
  | _ => none

def evaluateElems : List Ast → Option (List Whole)
  | [] => some []
  | c :: cs => match evaluate c with
    | some w => (evaluateElems cs).map (w :: ·)
    | none => none
end

/-! ### What comes back -/

mutual
/-- The alternative of `m_val` is the one of the type. -/
def Whole.WellTyped : Whole → Prop
  | .int type kind _ => ∃ t : IntType, typeName type = some t.name ∧ kind = t.kind m
  | .tuple _ elems => Whole.AllWellTyped elems
  | .struct _ _ _ vs => Whole.AllWellTyped vs
  | .pointer _ _ elems => Whole.AllWellTyped elems
  | _ => True

def Whole.AllWellTyped : List Whole → Prop
  | [] => True
  | w :: ws => w.WellTyped ∧ Whole.AllWellTyped ws
end

end

/-- The bytes have their first zero right after the first `n` of them. -/
def EndsAt (n : Nat) (bytes : CStr) : Prop := bytes[n]? = some '\x00' ∧ '\x00' ∉ bytes.take n

mutual
/-- Built from booleans, integers, tuples and Strings that end where their size says. -/
def Whole.Plain : Whole → Prop
  | .bool .. | .int .. => True
  | .string _ size _ bytes => EndsAt size.toNat bytes
  | .tuple _ elems => Whole.AllPlain elems
  | .struct .. | .pointer .. => False

def Whole.AllPlain : List Whole → Prop
  | [] => True
  | w :: ws => w.Plain ∧ Whole.AllPlain ws
end

/-! ### Integers -/

variable {m : DataModel}

theorem find_name (t : IntType) : IntType.all.find? (·.name = t.name) = some t := by
  cases t <;> rfl

theorem toBitVec_intLow (kind : IntKind) (n : BitVec kind.width) (i : Nat) (hi : i < 64)
    (hw : i < kind.width) : (intLow kind n).toBitVec.getLsbD i = n.getLsbD i := by
  rw [intLow, UInt64.toBitVec_ofBitVec]
  split
  · rw [getLsbD_signExtend, if_pos hw]
    simp [hi]
  · rw [getLsbD_setWidth]
    simp [hi]

/-- The two words of a literal hold all the bits of an integer. -/
theorem intOfLexint_intLexint (kind : IntKind) (n : BitVec kind.width)
    (hw : kind.width ≤ 64 ∨ kind.width = 128) : intOfLexint kind (intLexint kind n) = n := by
  apply eq_of_getLsbD_eq
  intro i hi
  rw [intOfLexint, intLexint]
  rcases hw with hw | hw
  · have hne : kind.width ≠ 128 := by omega
    simp only [if_neg hne]
    rw [getLsbD_setWidth, toBitVec_intLow kind n i (by omega) hi]
    simp [hi]
  simp only [if_pos hw]
  rw [getLsbD_or, getLsbD_shiftLeft, getLsbD_setWidth, getLsbD_setWidth]
  rcases Nat.lt_or_ge i 64 with h64 | h64
  · rw [toBitVec_intLow kind n i h64 hi]
    simp [hi, h64]
  have hlow : (intLow kind n).toBitVec.getLsbD i = false := getLsbD_of_ge _ _ h64
  have hhigh : i - 64 < 64 := by omega
  have hlt : i - 64 < kind.width := by omega
  rw [hlow, getLsbD_extractLsb']
  simp [hi, hhigh, hlt, h64, Nat.add_sub_cancel' h64]

theorem convertFromIntLiteral_intLexint {t : IntType} {type : Ast} (ht : typeName type = some t.name)
    (n : BitVec (t.kind m).width) :
    convertFromIntLiteral m (intLexint (t.kind m) n) type = some (.int type (t.kind m) n) := by
  have hw : (t.kind m).width ≤ 64 ∨ (t.kind m).width = 128 := by cases t <;> cases m <;> decide
  simp only [convertFromIntLiteral, ht, find_name, intOfLexint_intLexint _ n hw]

/-! ### Strings -/

theorem takeWhile_of_endsAt {n : Nat} {bytes : CStr} (h : EndsAt n bytes) :
    bytes.takeWhile (· ≠ '\x00') = bytes.take n := by
  induction bytes generalizing n with
  | nil => simp
  | cons c cs ih =>
    cases n with
    | zero =>
      have hc : c = '\x00' := by simpa [EndsAt] using h.1
      simp [hc]
    | succ n =>
      have hc : c ≠ '\x00' := fun hc => h.2 (by simp [hc])
      have hcs : EndsAt n cs := ⟨by simpa using h.1, fun hm => h.2 (by simp [hm])⟩
      rw [takeWhile_cons_of_pos (by simpa using hc), ih hcs, take_succ_cons]

theorem length_take_of_endsAt {n : Nat} {bytes : CStr} (h : EndsAt n bytes) :
    (bytes.take n).length = n := by
  rw [length_take]
  have := (List.getElem?_eq_some_iff.1 h.1).1
  omega

/-! ### The round trip -/

variable {undefined : Double → UInt64} {s : Names}

/-- The literal of a value without names, and what it is evaluated to. -/
structure RoundTrip (m : DataModel) (undefined : Double → UInt64) (w : Whole) (s : Names)
    (ast : Ast) : Prop where
  create : createLiteral undefined w.value s = some (ast, s)
  setType : ast.setType w.value.type = ast
  back : (evaluate m ast).map Whole.contents = some w.contents

mutual
theorem exists_roundTrip {w : Whole} (hw : w.WellTyped m) (hp : w.Plain) (s : Names) :
    ∃ ast, RoundTrip m undefined w s ast := by
  match w with
  | .bool type b =>
    refine ⟨_, rfl, ?_, ?_⟩ <;> cases b <;> rfl
  | .int type kind n =>
    obtain ⟨t, ht, rfl⟩ := hw
    refine ⟨_, rfl, rfl, ?_⟩
    show (convertFromIntLiteral m (intLexint (t.kind m) n) type).map _ = _
    rw [convertFromIntLiteral_intLexint ht]
    rfl
  | .string type size alloc bytes =>
    refine ⟨_, rfl, rfl, ?_⟩
    have hl := length_take_of_endsAt hp
    show some (Whole.contents (.string type _ _ _)) = some (Whole.contents (.string type _ _ _))
    rw [takeWhile_of_endsAt hp, hl, UInt64.ofNat_toNat, Whole.contents, Whole.contents,
      take_left' hl]
  | .tuple type elems =>
    obtain ⟨asts, hc, hb⟩ := exists_roundTrips hw hp s
    refine ⟨.node .tkTuple .blank none (some type) asts, ?_, rfl, ?_⟩
    · simp only [Whole.value, createLiteral, hc]
    · obtain ⟨ws, hws, he⟩ := map_eq_some_iff.1 hb
      simp only [evaluate, hws, map_some, Whole.contents, he]

theorem exists_roundTrips {ws : List Whole} (hw : Whole.AllWellTyped m ws)
    (hp : Whole.AllPlain ws) (s : Names) :
    ∃ asts, createTuple undefined (Whole.values ws) s = some (asts, s) ∧
      (evaluateElems m asts).map Whole.contentsList = some (Whole.contentsList ws) := by
  match ws with
  | [] => exact ⟨[], rfl, rfl⟩
  | w :: ws =>
    obtain ⟨ast, h⟩ := exists_roundTrip hw.1 hp.1 s
    obtain ⟨asts, hc, hb⟩ := exists_roundTrips hw.2 hp.2 s
    refine ⟨ast :: asts, ?_, ?_⟩
    · simp only [Whole.values, createTuple, h.create, hc, h.setType]
    obtain ⟨w', hw', he⟩ := map_eq_some_iff.1 h.back
    obtain ⟨ws', hws', hes⟩ := map_eq_some_iff.1 hb
    simp only [evaluateElems, hw', hws', map_some, Whole.contentsList, he, hes]
end

/-! ### Constants -/

/-- The constant of an object or an array is none of the literals. -/
theorem nameConstant_not_evaluated {c : Constant} {s' : Names} {ast : Ast}
    (h : nameConstant undefined c s = some (ast, s')) :
    (∃ name, ast = c.ast name) ∧ evaluate m ast = none := by
  have hname : ∃ name, ast = c.ast name := by
    simp only [nameConstant] at h
    split at h
    · exact ⟨_, (Prod.mk.inj (some.inj h)).1.symm⟩
    split at h
    · exact ⟨_, (Prod.mk.inj (some.inj h)).1.symm⟩
    · cases h
  refine ⟨hname, ?_⟩
  obtain ⟨name, rfl⟩ := hname
  obtain ⟨kind, type, rest⟩ := c
  cases kind <;> rfl

theorem length_values (ws : List Whole) : (Whole.values ws).length = ws.length := by
  induction ws with
  | nil => rfl
  | cons w ws ih => rw [Whole.values, length_cons, ih, length_cons]

/-! ### Arrays -/

/-- The fields of `Array`. -/
def arrayFields (usize pointer : Ast) : List Field :=
  [⟨.fvar, ['_', 's', 'i', 'z', 'e'], usize⟩, ⟨.fvar, ['_', 'a', 'l', 'l', 'o', 'c'], usize⟩,
    ⟨.fvar, ['_', 'p', 't', 'r'], pointer⟩]

/-- The type has a name and a package, as the types of objects and arrays do. -/
def Named (type : Ast) : Prop := ∀ s, (objectHygienicName type s).isSome

variable (undefined) in
theorem nameConstant_of_named (c : Constant) (h : Named c.type) (s : Names) :
    ∃ name s', nameConstant undefined c s = some (c.ast name, s') := by
  simp only [nameConstant]
  split
  · exact ⟨_, _, rfl⟩
  obtain ⟨⟨name, s'⟩, hn⟩ := isSome_iff_exists.1 (h s)
  rw [hn]
  exact ⟨_, _, rfl⟩

variable (undefined) in
/-- The first elements of an array of plain values have literals that evaluate back. -/
theorem exists_createElems {ws : List Whole} {n : Nat} (hw : Whole.AllWellTyped m ws)
    (hp : Whole.AllPlain ws) (hn : n ≤ ws.length) (s : Names) :
    ∃ lits, createElems undefined n (Whole.values ws) s = some (lits, s) ∧ lits.length = n ∧
      (evaluateElems m lits).map Whole.contentsList = some (Whole.contentsList (ws.take n)) := by
  match n, ws with
  | 0, ws => exact ⟨[], by cases ws <;> rfl, rfl, rfl⟩
  | n + 1, w :: ws =>
    obtain ⟨ast, h⟩ : ∃ ast, RoundTrip m undefined w s ast := exists_roundTrip hw.1 hp.1 s
    obtain ⟨lits, hc, hl, hb⟩ := exists_createElems hw.2 hp.2 (Nat.le_of_succ_le_succ hn) s
    refine ⟨ast :: lits, ?_, by rw [length_cons, hl], ?_⟩
    · simp only [Whole.values, createElems, h.create, hc]
    obtain ⟨w', hw', he⟩ := map_eq_some_iff.1 h.back
    obtain ⟨ws', hws', hes⟩ := map_eq_some_iff.1 hb
    simp only [evaluateElems, hw', hws', map_some, take_succ_cons, Whole.contentsList, he, hes]

variable (undefined) in
/-- The constant of the first elements of an array. -/
theorem exists_createArray {type : Ast} {ws : List Whole} {n : Nat} (hw : Whole.AllWellTyped m ws)
    (hp : Whole.AllPlain ws) (hn0 : n ≠ 0) (hn : n ≤ ws.length) (ht : Named type)
    (elemSize : UInt64) (s : Names) :
    ∃ lits name s', createArray undefined (Whole.pointer type elemSize ws).value n s =
        some (Constant.ast ⟨.array, type, [intNode ⟨UInt64.ofNat n, 0⟩, intNode ⟨elemSize, 0⟩,
          (Ast.blank .tkMembers).append lits]⟩ name, s') ∧ lits.length = n ∧
      (evaluateElems m lits).map Whole.contentsList = some (Whole.contentsList (ws.take n)) := by
  obtain ⟨lits, hc, hl, hb⟩ := exists_createElems undefined hw hp hn s
  obtain ⟨name, s', hname⟩ := nameConstant_of_named undefined ⟨.array, type,
    [intNode ⟨UInt64.ofNat n, 0⟩, intNode ⟨elemSize, 0⟩, (Ast.blank .tkMembers).append lits]⟩ ht s
  have hne : ws.length ≠ 0 := by omega
  refine ⟨lits, name, s', ?_, hl, hb⟩
  simp only [Whole.value, createArray, length_values, if_neg hne, if_pos hn0, hc, hname]

/-- The literals of the members of an `Array` object. -/
theorem createMembers_array (usize pointer : Ast) {lit : Ast} {value : Value} {kind : IntKind}
    (size alloc : BitVec kind.width) {s s' : Names}
    (h : createArray undefined value (intLow kind size).toNat s = some (lit, s')) :
    createMembers undefined true (some (intLow kind size)) (arrayFields usize pointer)
      [.int usize kind size, .int usize kind alloc, value] s =
      some ([.node .tkFvar .blank none (some usize) [(intNode (intLexint kind size)).setType usize],
        .node .tkFvar .blank none (some usize) [(intNode (intLexint kind alloc)).setType usize],
        .node .tkFvar .blank none (some pointer) [lit]], s') := by
  simp [arrayFields, createMembers, createLiteral, h, FieldKind.id, intNode, Ast.setType]

theorem createLiteral_struct (type : Ast) {structType : Ast} (fields : List Field)
    (values : List Value) {members : List Ast} {s s' : Names}
    (h : createMembers undefined (isArray structType)
      ((getValue ['_', 's', 'i', 'z', 'e'] fields values).bind Value.toUint64) fields values s =
        some (members, s')) :
    createLiteral undefined (.struct type structType fields values) s =
      nameConstant undefined ⟨.object, structType, [(Ast.blank .tkMembers).append members]⟩ s' := by
  rw [createLiteral, h]

/-- **What is written back as a literal**: a plain value comes back as it was.  The constant of an
object is not evaluated.  The constant of an `Array` object has, in the place of `_ptr`, the constant
of its first `_size` elements, and each of them comes back. -/
theorem literal_round_trip (m : DataModel) (undefined : Double → UInt64) (w : Whole)
    (hw : w.WellTyped m) (s : Names) :
    (w.Plain → ∃ ast, createLiteral undefined w.value s = some (ast, s) ∧
      (evaluate m ast).map Whole.contents = some w.contents) ∧
    (∀ type structType fields values ast s', w = .struct type structType fields values →
      createLiteral undefined w.value s = some (ast, s') → evaluate m ast = none) ∧
    (∀ type structType usize pointer kind (size alloc : BitVec kind.width) ptrType elemSize elems,
      w = .struct type structType (arrayFields usize pointer)
        [.int usize kind size, .int usize kind alloc, .pointer ptrType elemSize elems] →
      isArray structType → Named structType → Named ptrType → Whole.AllPlain elems →
      (intLow kind size).toNat ≠ 0 → (intLow kind size).toNat ≤ elems.length →
      ∃ ast s' name sizeNode allocNode array arrayName lits,
        createLiteral undefined w.value s = some (ast, s') ∧
        ast = Constant.ast ⟨.object, structType, [(Ast.blank .tkMembers).append [sizeNode, allocNode,
          .node .tkFvar .blank none (some pointer) [array]]]⟩ name ∧
        array = Constant.ast ⟨.array, ptrType, [intNode ⟨intLow kind size, 0⟩,
          intNode ⟨elemSize, 0⟩, (Ast.blank .tkMembers).append lits]⟩ arrayName ∧
        evaluate m array = none ∧ lits.length = (intLow kind size).toNat ∧
        (evaluateElems m lits).map Whole.contentsList =
          some (Whole.contentsList (elems.take (intLow kind size).toNat))) := by
  refine ⟨fun hp => ?_, ?_, ?_⟩
  · obtain ⟨ast, h⟩ := exists_roundTrip hw hp s
    exact ⟨ast, h.create, h.back⟩
  · rintro type structType fields values ast s' rfl h
    simp only [Whole.value, createLiteral] at h
    split at h
    · exact (nameConstant_not_evaluated h).2
    · cases h
  rintro type structType usize pointer kind size alloc ptrType elemSize elems rfl harray hnamed
    hptr hp hn0 hn
  obtain ⟨lits, arrayName, s₁, hcreate, hl, hb⟩ :=
    exists_createArray undefined hw.2.2.1 hp hn0 hn hptr elemSize s
  rw [UInt64.ofNat_toNat] at hcreate
  have hmembers := createMembers_array usize pointer size alloc hcreate
  rw [← harray] at hmembers
  have hlit := createLiteral_struct type (arrayFields usize pointer)
    [.int usize kind size, .int usize kind alloc,
      (Whole.pointer ptrType elemSize elems).value] hmembers
  obtain ⟨name, s₂, hname⟩ := nameConstant_of_named undefined
    ⟨.object, structType, [_]⟩ hnamed s₁
  exact ⟨_, s₂, name, _, _, _, arrayName, lits, hlit.trans hname, rfl, rfl, rfl, hl, hb⟩

/-- A type of a name, of the package 0. -/
def namedType (name : CStr) : Ast :=
  .node .tkNominal .blank (some (.definition 0)) none
    [Ast.blank .tkId, .node .tkId (.string name) none none []]

/-- `(I8(-1), "ab")`, with room for more in the String. -/
def examplePair : Whole :=
  .tuple (Ast.blank .tkTupletype) [.int (namedType ['I', '8']) ⟨8, true⟩ (-1),
    .string (namedType ['S', 't', 'r', 'i', 'n', 'g']) 2 8 ['a', 'b', '\x00', 'c']]

/-- `["a"; (I8(-1), "ab")]`, an array with room for one more. -/
def exampleArray : Whole :=
  .struct (namedType ['A', 'r', 'r', 'a', 'y']) (namedType ['A', 'r', 'r', 'a', 'y'])
    (arrayFields (namedType ['U', 'S', 'i', 'z', 'e'])
      (namedType ['P', 'o', 'i', 'n', 't', 'e', 'r']))
    [.int (namedType ['U', 'S', 'i', 'z', 'e']) ⟨64, false⟩ 2,
      .int (namedType ['U', 'S', 'i', 'z', 'e']) ⟨64, false⟩ 3,
      .pointer (namedType ['P', 'o', 'i', 'n', 't', 'e', 'r']) 8
        [.string (namedType ['S', 't', 'r', 'i', 'n', 'g']) 1 2 ['a', '\x00'], examplePair,
          .bool (namedType ['B', 'o', 'o', 'l']) false]]

theorem named_namedType (name : CStr) : Named (namedType name) := fun _ => rfl

/-- A pair comes back, and the literals of an array are those of its elements up to its size. -/
theorem literal_round_trip_pair :
    (∃ ast, createLiteral (fun _ => 0) examplePair.value .init = some (ast, .init) ∧
      (evaluate .lp64 ast).map Whole.contents = some examplePair.contents) ∧
    ∃ ast s' name sizeNode allocNode array arrayName lits,
      createLiteral (fun _ => 0) exampleArray.value .init = some (ast, s') ∧
      ast = Constant.ast ⟨.object, namedType ['A', 'r', 'r', 'a', 'y'],
        [(Ast.blank .tkMembers).append [sizeNode, allocNode, .node .tkFvar .blank none
          (some (namedType ['P', 'o', 'i', 'n', 't', 'e', 'r'])) [array]]]⟩ name ∧
      array = Constant.ast ⟨.array, namedType ['P', 'o', 'i', 'n', 't', 'e', 'r'],
        [intNode ⟨2, 0⟩, intNode ⟨8, 0⟩, (Ast.blank .tkMembers).append lits]⟩ arrayName ∧
      evaluate .lp64 array = none ∧ lits.length = 2 ∧
      (evaluateElems .lp64 lits).map Whole.contentsList =
        some [.string (namedType ['S', 't', 'r', 'i', 'n', 'g']) 1 0 ['a'], examplePair.contents] := by
  have hpair : examplePair.WellTyped .lp64 := ⟨⟨.i8, rfl, rfl⟩, trivial, trivial⟩
  have hplain : examplePair.Plain := ⟨trivial, ⟨by decide, by decide⟩, trivial⟩
  have harray : exampleArray.WellTyped .lp64 :=
    ⟨⟨.uSize, rfl, rfl⟩, ⟨.uSize, rfl, rfl⟩, ⟨trivial, hpair, trivial, trivial⟩, trivial⟩
  refine ⟨(literal_round_trip .lp64 (fun _ => 0) examplePair hpair .init).1 hplain, ?_⟩
  exact (literal_round_trip .lp64 (fun _ => 0) exampleArray harray .init).2.2 _ _ _ _ _ _ _ _ _ _
    rfl rfl (named_namedType _) (named_namedType _)
    ⟨⟨by decide, by decide⟩, hplain, trivial, trivial⟩ (by decide) (by decide)

/-- An object does not come back: the constant it is written as is no expression of the runner. -/
theorem object_not_evaluated :
    ¬∀ (m : DataModel) (undefined : Double → UInt64) (w : Whole), w.WellTyped m → ∀ s ast s',
      createLiteral undefined w.value s = some (ast, s') →
        (evaluate m ast).map Whole.contents = some w.contents := by
  intro h
  have hback := h .lp64 (fun _ => 0)
    (.struct (namedType ['C']) (namedType ['C']) [] []) trivial .init _ _ rfl
  cases hback

end SpacePony.Ctfe
