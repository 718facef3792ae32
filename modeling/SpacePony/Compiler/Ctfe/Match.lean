import SpacePony.Compiler.Ctfe.Evaluate
import SpacePony.Support.Asks

/-!
# Compiler — a match at compile time

What `TK_MATCH` should select, and exactly when `CtfeRunner` selects it (`match_selects_first_iff`).
-/

namespace SpacePony.Runner

open Bool List

section
variable (P : Program)

/-! ### How the runner decides a case -/

/-- A case, as the loop of `TK_MATCH` decides it.  The frame of a case that is selected stays. -/
def testCase (mtch : Value) : Case → M Bool
  | .mk pattern patternType guard _ => do
      if ← caseIsSubtype P mtch patternType then
        pushFrame
        if ← casePattern P mtch pattern then
          if ← caseGuard guard then return true
          else
            popFrame
            return false
        else
          popFrame
          return false
      else return false

/-- The body of a case. -/
def Case.body : Case → Expr
  | .mk _ _ _ body => body

/-- The body of the case that is selected. -/
def runBranch (body : Expr) : M Value := do
  let ret ← eval .branch body
  popFrame
  return ret

/-- The loop of `TK_MATCH` goes from case to case. -/
theorem matchCases_cons (mtch : Value) (elseBody : Expr) (c : Case) (cases : List Case) :
    matchCases P mtch elseBody (c :: cases) = (do
      if ← testCase P mtch c then runBranch c.body else matchCases P mtch elseBody cases) := by
  obtain ⟨pattern, patternType, guard, body⟩ := c
  simp only [matchCases, testCase, Case.body, runBranch, bind_assoc]
  refine bind_congr fun b => ?_
  cases b with
  | false => simp
  | true =>
    simp only [if_true, bind_assoc]
    refine bind_congr fun _ => bind_congr fun b => ?_
    cases b with
    | false => simp
    | true =>
      simp only [if_true, bind_assoc]
      refine bind_congr fun b => ?_
      cases b <;> simp

/-! ### How a case should be decided -/

/-- The type that a value carries is a subtype. -/
def Value.carries (v : Value) (type : Ty) : Bool := v.type.any (P.isSubtypeIgnoreCap · type)

/-- `is_tuple`. -/
def Value.isTuple (v : Value) : Bool := v.type.any Ty.isTuple

/-- The elements of a tuple. -/
def Value.elems (v : Value) : List Value :=
  match v.val with
  | .tuple elems => elems
  | _ => []

mutual

/-- The type of a value matches, that of a tuple element by element. -/
def typeMatches (v : Value) : Ty → Bool
  | .tuple types => if v.isTuple then elemsMatch v.elems types else v.carries P (.tuple types)
  | .union members => if v.isTuple then anyMatches v members else v.carries P (.union members)
  | type => v.carries P type

def elemsMatch : List Value → List Ty → Bool
  | [], [] => true
  | v :: vs, type :: types => typeMatches v type && elemsMatch vs types
  | _, _ => false

def anyMatches (v : Value) : List Ty → Bool
  | [] => false
  | type :: types => typeMatches v type || anyMatches v types

end

/-- `TK_MATCH_DONTCARE`, the pattern `let _`. -/
def matchDontcare : Expr := .unsupported "$dontcare"

/-- The patterns that are no expressions to compare with: captures, `_`, `let _` and tuples of
patterns, also in parentheses, and the pattern that a case leaves out. -/
def Expr.special : Expr → Bool
  | .none _ | .dontcareref _ | .capture _ | .tuple _ _ => true
  | .unsupported text => text == "$dontcare"
  | .seq [e] => e.special
  | _ => false

/-- `pattern.eq(match)`. -/
def testValue (mtch : Value) (pattern : Expr) : M Bool := do
  let evaluatedPattern ← eval .pattern pattern
  let equal ← invoke P.boolType "eq" mtch.type mtch [evaluatedPattern] none
  assert equal.isBool
  equal.getBool

/-- A capture. -/
def testCapture (mtch : Value) (name : String) : M Bool := do
  match (← get).frames.newValue name mtch with
  | some frames =>
    modify fun s => { s with frames := frames }
    return true
  | none => giveUp ("Parameter with name " ++ name ++
      " was already found in this case expression frame")

mutual

/-- A value whose type matches, against a pattern. -/
def testPattern (mtch : Value) : Expr → M Bool
  | .none _ | .dontcareref _ => return true
  | .capture name => testCapture mtch name
  | .tuple patterns _ => if mtch.isTuple then testPatterns mtch.elems patterns else return false
  | .seq [pattern] =>
    if pattern.special then testPattern mtch pattern else testValue P mtch (.seq [pattern])
  | .unsupported text =>
    if text = "$dontcare" then return true else testValue P mtch (.unsupported text)
  | pattern => testValue P mtch pattern

/-- The elements of a tuple pattern, in order.  The parser makes each a sequence. -/
def testPatterns : List Value → List Expr → M Bool
  | [], [] => return true
  | v :: vs, .seq [pattern] :: patterns => do
      if ← testPattern v pattern then testPatterns vs patterns else return false
  | v :: vs, pattern :: patterns => do
      if ← testPattern v pattern then testPatterns vs patterns else return false
  | _, _ => return false

end

/-- A case applies if the types match, the elements are equal and the guard is true.  The frame of a
case that applies, with its captures, stays. -/
def specCase (mtch : Value) : Case → M Bool
  | .mk pattern patternType guard _ => do
      if typeMatches P mtch patternType then
        pushFrame
        if ← testPattern P mtch pattern then
          if ← caseGuard guard then return true
          else
            popFrame
            return false
        else
          popFrame
          return false
      else return false

/-- A match: the body of the first case that applies, else the `else` clause. -/
def specMatch (mtch : Value) (elseBody : Expr) : List Case → M Value
  | [] => do
      pushFrame
      let ret ← eval .elseBody elseBody
      popFrame
      return ret
  | c :: cases => do
      if ← specCase P mtch c then runBranch c.body else specMatch mtch elseBody cases

/-! ### Values and cases that the compiler lets through -/

/-- A type that the values of no tuple have: neither that of a tuple nor below one. -/
def Program.Apart (type : Ty) : Prop :=
  type.isTuple = false ∧ ∀ types, P.isSubtypeIgnoreCap type (.tuple types) = false

mutual

/-- Every value in it carries a type: a tuple the type of a tuple of its length, another value a
type apart from those. -/
def Value.Typed : Value → Prop
  | .mk (some (.tuple types)) _ (.tuple elems) => elems.length = types.length ∧ Value.AllTyped elems
  | .mk (some type) _ (.bool _) | .mk (some type) _ (.int _) | .mk (some type) _ (.float _)
  | .mk (some type) _ (.struct _) | .mk (some type) _ (.pointer _) => P.Apart type
  | _ => False

def Value.AllTyped : List Value → Prop
  | [] => True
  | v :: vs => v.Typed ∧ Value.AllTyped vs

end

/-- An element of a tuple pattern is a sequence, and a capture or `_` is the only expression of its
sequence. -/
def Element : Expr → Prop
  | .seq [_] => True
  | .seq (.capture _ :: _) | .seq (.dontcareref _ :: _) => False
  | .seq (_ :: _) => True
  | _ => False

mutual

/-- `make_pattern_type`: the type of a tuple pattern is the tuple of the types of its elements. -/
def Fits : Expr → Ty → Prop
  | .tuple patterns _, type => ∃ types, type = .tuple types ∧ AllFit patterns types
  | .seq [pattern], type => Fits pattern type
  | _, _ => True

def AllFit : List Expr → List Ty → Prop
  | [], [] => True
  | pattern :: patterns, type :: types =>
    Element pattern ∧ Fits pattern type ∧ AllFit patterns types
  | _, _ => False

end

/-- A case that the type checker lets through. -/
def Case.Accepted : Case → Prop
  | .mk pattern patternType _ _ => Fits pattern patternType

/-! ### Where the runner decides as it should -/

/-- An element that is no tuple does not carry its type: the case does not apply, whatever the other
elements are. -/
def ElemRefused (vs : List Value) (types : List Ty) : Prop :=
  ∃ p ∈ vs.zip types, p.1.isTuple = false ∧ p.1.carries P p.2 = false

/-- The elements are as many as the types and each carries its type, one that is a tuple itself
matching it element by element. -/
def ElemsMeet (vs : List Value) (types : List Ty) : Prop :=
  vs.length = types.length ∧ ∀ p ∈ vs.zip types,
    p.1.carries P p.2 = true ∧ (p.1.isTuple = true → typeMatches P p.1 p.2 = true)

/-- An element that is a tuple itself does not carry its type, and where the elements are as many as
the types, one that is a tuple does not match its type element by element. -/
def NestedDiffer (vs : List Value) (types : List Ty) : Prop :=
  (∃ p ∈ vs.zip types, p.1.isTuple = true ∧ p.1.carries P p.2 = false) ∧
    (vs.length = types.length →
      ∃ p ∈ vs.zip types, p.1.isTuple = true ∧ typeMatches P p.1 p.2 = false)

/-- A tuple is only held against the type of a tuple, and has an element of another type, or as many
elements as there are types, or nested tuples that do not fit. -/
def TypesFine (mtch : Value) (patternType : Ty) : Prop :=
  mtch.isTuple = true → ∃ types, patternType = .tuple types ∧
    (ElemRefused P mtch.elems types ∨ ElemsMeet P mtch.elems types ∨
      NestedDiffer P mtch.elems types)

/-- A capture, `_` or an expression to compare with. -/
def Expr.atomic : Expr → Bool
  | .dontcareref _ | .capture _ => true
  | e => !e.special

variable (ev : Job → State → Except Failure (Value × State))

/-- Every element that is tested is alone in its sequence and no pattern of its own. -/
def ElemsFine : List Value → List Expr → State → Prop
  | v :: vs, .seq [pattern] :: patterns, s => pattern.atomic = true ∧
      ∀ s', ((testPattern P v pattern s).asks ev).2 = .done (true, s') → ElemsFine vs patterns s'
  | _ :: _, _ :: _, _ => False
  | _, _, _ => True

/-- A tuple meets a tuple of such elements, another value such a pattern. -/
def PatternFine (mtch : Value) (pattern : Expr) (s : State) : Prop :=
  if mtch.isTuple then
    ∃ patterns type, pattern = .tuple patterns type ∧ ElemsFine P ev mtch.elems patterns s
  else pattern.atomic = true

/-- A case that the runner is made for. -/
def CaseFine (mtch : Value) : Case → State → Prop
  | .mk pattern patternType _ _, s => TypesFine P mtch patternType ∧
      (typeMatches P mtch patternType = true → PatternFine P ev mtch pattern s.push)

/-- Every case, up to the first that applies, is one that the runner is made for. -/
def Fine (mtch : Value) : List Case → State → Prop
  | [], _ => True
  | c :: cases, s => CaseFine P ev mtch c s ∧
      ∀ s', ((specCase P mtch c s).asks ev).2 = .done (false, s') → Fine mtch cases s'

/-- Every case that the runner reaches is decided as it should be, with the same evaluations and the
same bindings. -/
def Meets (mtch : Value) : List Case → State → Prop
  | [], _ => True
  | c :: cases, s => (testCase P mtch c s).asks ev = (specCase P mtch c s).asks ev ∧
      ∀ s', ((testCase P mtch c s).asks ev).2 = .done (false, s') → Meets mtch cases s'

variable {P} {ev} {mtch : Value} {s : State}

/-! ### Computations over states -/

theorem bind_apply {α β : Type} (x : M α) (k : α → M β) (s : State) :
    (x >>= k) s = x s >>= fun p => k p.1 p.2 := rfl

/-- Two ways to go on after a test. -/
theorem asks_test_iff {x : M Bool} {k k' : Bool → M Bool} (hf : k false = k' false) :
    ((x >>= k) s).asks ev = ((x >>= k') s).asks ev ↔ ∀ s', ((x s).asks ev).2 = .done (true, s') →
      (k true s').asks ev = (k' true s').asks ev := by
  rw [bind_apply, bind_apply, Resume.asks_bind_eq_iff]
  constructor
  · exact fun h s' hs => h (true, s') hs
  rintro h ⟨b, s'⟩ hs
  cases b with
  | false => rw [hf]
  | true => exact h s' hs

/-! ### Types -/

variable {v : Value} {vs : List Value} {patternType type : Ty} {pattern : Expr}
  {patterns : List Expr} {types : List Ty}

theorem Value.Typed.exists_type (h : v.Typed P) : ∃ type, v.type = some type := by
  obtain ⟨_ | type, m, p⟩ := v
  · cases p <;> simp [Value.Typed] at h
  · exact ⟨type, rfl⟩

theorem Value.Typed.getType (h : v.Typed P) {α : Type} (k : Ty → M α) :
    ∃ type, v.type = some type ∧ (v.getType >>= k) = k type := by
  obtain ⟨type, ht⟩ := h.exists_type
  refine ⟨type, ht, ?_⟩
  rw [Value.getType, ht]
  rfl

/-- A value with the type of a tuple is one. -/
theorem Value.Typed.tuple (h : v.Typed P) (ht : v.isTuple = true) :
    Value.AllTyped P v.elems ∧ (v.getTuple : M (List Value)) = pure v.elems := by
  obtain ⟨_ | type, m, p⟩ := v
  · cases ht
  have hty : type.isTuple = true := ht
  cases p with
  | tuple elems =>
    cases type with
    | tuple types =>
      rw [Value.Typed] at h
      exact ⟨h.2, rfl⟩
    | nominal _ _ _ | union _ | other _ => cases ht
  | bool b | int n | float bits | struct ref | pointer address =>
    rw [Value.Typed, Program.Apart, hty] at h
    cases h.1

/-- No value but a tuple is below a tuple. -/
theorem Value.Typed.carries_tuple (h : v.Typed P) (ht : v.isTuple = false) (types : List Ty) :
    v.carries P (.tuple types) = false := by
  obtain ⟨_ | type, m, p⟩ := v
  · rfl
  have hty : type.isTuple = false := ht
  cases p with
  | tuple elems =>
    cases type with
    | tuple types => cases hty
    | nominal _ _ _ | union _ | other _ => simp [Value.Typed] at h
  | bool b | int n | float bits | struct ref | pointer address =>
    rw [Value.Typed] at h
    exact h.2 types

variable (P) in
/-- `CtfeValueTuple::is_subtype`: the types that the elements carry, one by one; `none` is the
failed assertion. -/
def tupleVerdict : List Value → List Ty → Option Bool
  | [], _ => some true
  | _ :: _, [] => none
  | v :: vs, type :: types => if v.carries P type then tupleVerdict vs types else some false

/-- The loop of `CtfeValueTuple::is_subtype`. -/
theorem tupleIsSubtype_apply (h : Value.AllTyped P vs) (types : List Ty) (s : State) :
    tupleIsSubtype P vs types s = match tupleVerdict P vs types with
      | some b => .done (b, s)
      | none => .fail .assertion := by
  induction vs generalizing types with
  | nil => rfl
  | cons v vs ih =>
    rw [Value.AllTyped] at h
    cases types with
    | nil => rfl
    | cons type types =>
      obtain ⟨vtype, ht, hg⟩ := h.1.getType fun vtype =>
        if P.isSubtypeIgnoreCap vtype type then tupleIsSubtype P vs types else return false
      have hc : v.carries P type = P.isSubtypeIgnoreCap vtype type := by
        rw [Value.carries, ht]
        rfl
      rw [tupleIsSubtype, hg, tupleVerdict, hc]
      cases P.isSubtypeIgnoreCap vtype type with
      | false => rfl
      | true => exact ih h.2 types

/-- What the runner makes of the types. -/
theorem caseIsSubtype_tuple (h : mtch.Typed P) (ht : mtch.isTuple = true) (types : List Ty) :
    caseIsSubtype P mtch (.tuple types) s = match tupleVerdict P mtch.elems types with
      | some b => .done (b, s)
      | none => .fail .assertion := by
  obtain ⟨type, htype, hg⟩ := h.getType fun type => if type.isTuple then
      (do tupleIsSubtype P (← mtch.getTuple) types)
    else return P.isSubtypeIgnoreCap type (.tuple types)
  have hty : type.isTuple = true := by
    rw [Value.isTuple, htype] at ht
    exact ht
  rw [← tupleIsSubtype_apply (h.tuple ht).1]
  show (mtch.getType >>= _) s = _
  rw [hg, if_pos hty, (h.tuple ht).2]
  rfl

theorem caseIsSubtype_other (h : mtch.Typed P) (ht : mtch.isTuple = true)
    (hp : patternType.isTuple = false) : caseIsSubtype P mtch patternType s = .fail .assertion := by
  obtain ⟨type, htype, hg⟩ := h.getType fun type => if type.isTuple then (fail .assertion : M Bool)
    else return P.isSubtypeIgnoreCap type patternType
  have hty : type.isTuple = true := by
    rw [Value.isTuple, htype] at ht
    exact ht
  have heq : caseIsSubtype P mtch patternType = (mtch.getType >>= fun type =>
      if type.isTuple then (fail .assertion : M Bool)
      else return P.isSubtypeIgnoreCap type patternType) := by
    cases patternType with
    | tuple types => cases hp
    | nominal _ _ _ | union _ | other _ => rfl
  rw [heq, hg, if_pos hty]
  rfl

theorem caseIsSubtype_single (h : mtch.Typed P) (ht : mtch.isTuple = false) (patternType : Ty) :
    caseIsSubtype P mtch patternType s = .done (mtch.carries P patternType, s) := by
  obtain ⟨type, htype⟩ := h.exists_type
  have hty : type.isTuple = false := by
    rw [Value.isTuple, htype] at ht
    exact ht
  have hc : mtch.carries P patternType = P.isSubtypeIgnoreCap type patternType := by
    rw [Value.carries, htype]
    rfl
  cases patternType <;>
    simp only [caseIsSubtype, Value.getType, htype, pure_bind, hty, false_eq_true, if_false,
      hc] <;> rfl

theorem typeMatches_single (ht : mtch.isTuple = false) (patternType : Ty) :
    typeMatches P mtch patternType = mtch.carries P patternType := by
  cases patternType with
  | tuple types | union members => rw [typeMatches, ht]; rfl
  | nominal _ _ _ | other _ => rw [typeMatches] <;> exact nofun

theorem elemsMatch_eq_false_iff : elemsMatch P vs types = false ↔
    (vs.length = types.length → ∃ p ∈ vs.zip types, typeMatches P p.1 p.2 = false) := by
  induction vs generalizing types with
  | nil => cases types <;> simp [elemsMatch]
  | cons v vs ih =>
    cases types with
    | nil => simp [elemsMatch]
    | cons type types =>
      rw [elemsMatch, and_eq_false_iff, ih, length_cons, length_cons, Nat.succ_inj, zip_cons_cons]
      simp only [mem_cons, exists_eq_or_imp]
      grind

theorem tupleVerdict_eq_false_iff : tupleVerdict P vs types = some false ↔
    ∃ p ∈ vs.zip types, p.1.carries P p.2 = false := by
  induction vs generalizing types with
  | nil => simp [tupleVerdict]
  | cons v vs ih =>
    cases types with
    | nil => simp [tupleVerdict]
    | cons type types =>
      simp only [tupleVerdict, zip_cons_cons, mem_cons, exists_eq_or_imp, ← ih]
      cases v.carries P type <;> simp

theorem tupleVerdict_eq_true_iff : tupleVerdict P vs types = some true ↔
    vs.length ≤ types.length ∧ ∀ p ∈ vs.zip types, p.1.carries P p.2 = true := by
  induction vs generalizing types with
  | nil => simp [tupleVerdict]
  | cons v vs ih =>
    cases types with
    | nil => simp [tupleVerdict]
    | cons type types =>
      simp only [tupleVerdict, zip_cons_cons, forall_mem_cons, length_cons, Nat.succ_le_succ_iff]
      cases v.carries P type <;> simp [ih]

theorem elemsMatch_of_elemRefused (h : ElemRefused P vs types) : elemsMatch P vs types = false := by
  obtain ⟨p, hp, ht, hc⟩ := h
  exact elemsMatch_eq_false_iff.2 fun _ => ⟨p, hp, by rw [typeMatches_single ht, hc]⟩

/-- Without an element of another type, only nested tuples can be refused. -/
theorem isTuple_of_not_elemRefused (h : ¬ ElemRefused P vs types) {p : Value × Ty}
    (hp : p ∈ vs.zip types) (hc : p.1.carries P p.2 = false) : p.1.isTuple = true :=
  eq_true_of_ne_false fun ht => h ⟨p, hp, ht, hc⟩

theorem isTuple_of_not_typeMatches (h : ¬ ElemRefused P vs types) {p : Value × Ty}
    (hp : p ∈ vs.zip types) (hm : typeMatches P p.1 p.2 = false) : p.1.isTuple = true :=
  eq_true_of_ne_false fun ht => h ⟨p, hp, ht, typeMatches_single ht p.2 ▸ hm⟩

/-- The verdict on a tuple is the one on its elements exactly where one is refused, all meet their
types or the nested ones differ. -/
theorem tupleVerdict_eq_iff : tupleVerdict P vs types = some (elemsMatch P vs types) ↔
    ElemRefused P vs types ∨ ElemsMeet P vs types ∨ NestedDiffer P vs types := by
  by_cases hr : ElemRefused P vs types
  · have hfalse := elemsMatch_of_elemRefused hr
    obtain ⟨p, hp, ht, hc⟩ := hr
    rw [hfalse, tupleVerdict_eq_false_iff]
    exact iff_of_true ⟨p, hp, hc⟩ (.inl ⟨p, hp, ht, hc⟩)
  rw [or_iff_right hr]
  have hfalse : elemsMatch P vs types = false ↔ _ := elemsMatch_eq_false_iff
  cases hm : elemsMatch P vs types with
  | false =>
    have hdiffer := hfalse.1 hm
    rw [tupleVerdict_eq_false_iff]
    constructor
    · rintro ⟨p, hp, hc⟩
      refine .inr ⟨⟨p, hp, isTuple_of_not_elemRefused hr hp hc, hc⟩, fun hlen => ?_⟩
      obtain ⟨q, hq, hne⟩ := hdiffer hlen
      exact ⟨q, hq, isTuple_of_not_typeMatches hr hq hne, hne⟩
    rintro (⟨hlen, hmeet⟩ | ⟨⟨p, hp, -, hc⟩, -⟩)
    · obtain ⟨p, hp, hne⟩ := hdiffer hlen
      rw [(hmeet p hp).2 (isTuple_of_not_typeMatches hr hp hne)] at hne
      cases hne
    · exact ⟨p, hp, hc⟩
  | true =>
    rw [hm, iff_false_left (by decide)] at hfalse
    obtain ⟨hlen, hall⟩ := Classical.not_imp.1 hfalse
    rw [tupleVerdict_eq_true_iff]
    constructor
    · refine fun h => .inl ⟨hlen, fun p hp => ⟨h.2 p hp, fun _ => ?_⟩⟩
      exact eq_true_of_ne_false fun hne => hall ⟨p, hp, hne⟩
    rintro (⟨-, hmeet⟩ | ⟨-, hdiffer⟩)
    · exact ⟨Nat.le_of_eq hlen, fun p hp => (hmeet p hp).1⟩
    · obtain ⟨p, hp, -, hne⟩ := hdiffer hlen
      exact absurd ⟨p, hp, hne⟩ hall

theorem typesFine_iff : TypesFine P mtch patternType ↔ (mtch.isTuple = true →
    ∃ types, patternType = .tuple types ∧
      tupleVerdict P mtch.elems types = some (typeMatches P mtch patternType)) := by
  refine forall_congr' fun ht => exists_congr fun types => and_congr_right ?_
  rintro rfl
  rw [← tupleVerdict_eq_iff, typeMatches, if_pos ht]

/-- Where the types are fine, the runner answers as it should. -/
theorem caseIsSubtype_fine (h : mtch.Typed P) (hf : TypesFine P mtch patternType) :
    caseIsSubtype P mtch patternType s = .done (typeMatches P mtch patternType, s) := by
  cases ht : mtch.isTuple with
  | false => rw [caseIsSubtype_single h ht, typeMatches_single ht]
  | true =>
    obtain ⟨types, rfl, hv⟩ := typesFine_iff.1 hf ht
    rw [caseIsSubtype_tuple h ht, hv]

/-- Where they are not, it fails, or it gives the other answer. -/
theorem caseIsSubtype_not_fine (h : mtch.Typed P) (hf : ¬ TypesFine P mtch patternType) :
    caseIsSubtype P mtch patternType s = .fail .assertion ∨
      caseIsSubtype P mtch patternType s = .done (!typeMatches P mtch patternType, s) := by
  rw [typesFine_iff, Classical.not_imp] at hf
  obtain ⟨ht, hne⟩ := hf
  cases hp : patternType.isTuple with
  | false => exact .inl (caseIsSubtype_other h ht hp)
  | true =>
    cases patternType with
    | nominal _ _ _ | union _ | other _ => cases hp
    | tuple types =>
      rw [caseIsSubtype_tuple h ht]
      cases hv : tupleVerdict P mtch.elems types with
      | none => exact .inl rfl
      | some b =>
        have hb : b ≠ typeMatches P mtch (.tuple types) := fun heq =>
          hne ⟨types, rfl, by rw [hv, heq]⟩
        exact .inr (by rw [eq_not.2 hb])

/-! ### Patterns -/

/-- A job that evaluates a pattern evaluates an expression to compare with. -/
def Compares : Job → Prop
  | .evaluate .pattern e => e.special = false
  | _ => True

/-- What a test may come out with before it has asked for anything: that it has passed, or an error
that is no failed assertion. -/
abbrev Passing (x : Resume Job State Value Failure (Bool × State)) : Prop :=
  x.Starts (fun p => p.1 = true) (· ≠ .assertion)

/-- What follows the pattern of a case. -/
def afterPattern (guard : Option Expr) (b : Bool) : M Bool := do
  if b then
    if ← caseGuard guard then return true
    else
      popFrame
      return false
  else
    popFrame
    return false

theorem testCase_apply (pattern body : Expr) (patternType : Ty) (guard : Option Expr) :
    testCase P mtch (.mk pattern patternType guard body) s =
      caseIsSubtype P mtch patternType s >>= fun p =>
        if p.1 then (casePattern P mtch pattern >>= afterPattern guard) p.2.push
        else .done (false, p.2) := by
  rw [testCase, bind_apply]
  refine bind_congr fun p => ?_
  cases p.1 <;> rfl

theorem specCase_apply (pattern body : Expr) (patternType : Ty) (guard : Option Expr) :
    specCase P mtch (.mk pattern patternType guard body) s =
      if typeMatches P mtch patternType then
        (testPattern P mtch pattern >>= afterPattern guard) s.push
      else .done (false, s) := by
  rw [specCase]
  cases typeMatches P mtch patternType <;> rfl

/-- Reading a `Bool` asks for nothing. -/
theorem readBool_only (v : Value) (s : State) : ((do
      assert v.isBool
      v.getBool : M Bool) s).Only Compares := by
  cases v.isBool with
  | false => trivial
  | true =>
    obtain ⟨type, m, p⟩ := v
    cases p <;> trivial

theorem afterPattern_only (guard : Option Expr) (b : Bool) (s : State) :
    (afterPattern guard b s).Only Compares := by
  cases b with
  | false => trivial
  | true =>
    have hguard : (caseGuard guard s).Only Compares := by
      cases guard with
      | none => trivial
      | some g => exact ⟨trivial, fun v s' => readBool_only v s'⟩
    exact hguard.bind fun ⟨b, _⟩ => by cases b <;> trivial

theorem afterPattern_passing (guard : Option Expr) (s : State) :
    Passing (afterPattern guard true s) := by
  cases guard with
  | none => rfl
  | some g => trivial

theorem testValue_only (h : pattern.special = false) (s : State) :
    (testValue P mtch pattern s).Only Compares :=
  ⟨h, fun _ _ => ⟨trivial, fun v s' => readBool_only v s'⟩⟩

theorem testCapture_only (name : String) (s : State) : (testCapture mtch name s).Only Compares := by
  rw [testCapture, get_bind_apply]
  cases s.frames.newValue name mtch <;> trivial

theorem testCapture_passing (name : String) (s : State) : Passing (testCapture mtch name s) := by
  rw [testCapture, get_bind_apply]
  cases s.frames.newValue name mtch with
  | none => exact nofun
  | some frames => rfl

/-- The test of an expression to compare with. -/
theorem testPattern_value (h : pattern.special = false) :
    testPattern P mtch pattern = testValue P mtch pattern := by
  unfold testPattern
  split
  · cases h
  · cases h
  · cases h
  · cases h
  · rw [Expr.special] at h
    rw [h]
    rfl
  · rw [if_neg (by simpa [Expr.special] using h)]
  · rfl

/-- The pattern of an element. -/
def Expr.element : Expr → Expr
  | .seq [pattern] => pattern
  | pattern => pattern

/-- A sequence of one expression, or a pattern that is its own element. -/
theorem element_cases (pattern : Expr) : (∃ inner, pattern = .seq [inner]) ∨
    (∀ inner, pattern ≠ .seq [inner]) ∧ pattern.element = pattern := by
  by_cases h : ∃ inner, pattern = .seq [inner]
  · exact .inl h
  have hne : ∀ inner, pattern ≠ .seq [inner] := fun inner heq => h ⟨inner, heq⟩
  refine .inr ⟨hne, ?_⟩
  rw [Expr.element]
  exact hne

theorem testPatterns_cons (v : Value) (vs : List Value) (pattern : Expr) (patterns : List Expr) :
    testPatterns P (v :: vs) (pattern :: patterns) = do
      if ← testPattern P v pattern.element then testPatterns P vs patterns else return false := by
  rcases element_cases pattern with ⟨inner, rfl⟩ | ⟨hne, heq⟩
  · rw [testPatterns, Expr.element]
  · rw [heq, testPatterns]
    exact hne

theorem sizeOf_element_le (pattern : Expr) : sizeOf pattern.element ≤ sizeOf pattern := by
  rcases element_cases pattern with ⟨inner, rfl⟩ | ⟨-, heq⟩
  · rw [Expr.element]
    simp only [Expr.seq.sizeOf_spec, cons.sizeOf_spec, nil.sizeOf_spec]
    omega
  · exact Nat.le_of_eq (congrArg sizeOf heq)

/-- **Induction over patterns**: an expression to compare with, no pattern, `_`, a capture, `let _`,
a pattern in parentheses, a tuple of patterns. -/
theorem pattern_induction {motive : Expr → Prop}
    (value : ∀ pattern, pattern.special = false → motive pattern)
    (none : ∀ type, motive (.none type)) (dontcareref : ∀ type, motive (.dontcareref type))
    (capture : ∀ name, motive (.capture name)) (dontcare : motive matchDontcare)
    (seq : ∀ pattern, pattern.special = true → motive pattern → motive (.seq [pattern]))
    (tuple : ∀ patterns type, (∀ pattern ∈ patterns, motive pattern.element) →
      motive (.tuple patterns type)) (pattern : Expr) : motive pattern := by
  cases pattern with
  | none type => exact none type
  | dontcareref type => exact dontcareref type
  | capture name => exact capture name
  | tuple patterns type =>
    refine tuple patterns type fun pattern hp => ?_
    have := sizeOf_lt_of_mem hp
    have := sizeOf_element_le pattern
    exact pattern_induction value none dontcareref capture dontcare seq tuple pattern.element
  | seq es =>
    match es with
    | [pattern] =>
      cases h : pattern.special with
      | true =>
        exact seq pattern h
          (pattern_induction value none dontcareref capture dontcare seq tuple pattern)
      | false => exact value _ (by rwa [Expr.special])
    | [] | _ :: _ :: _ => exact value _ rfl
  | unsupported text =>
    by_cases h : text = "$dontcare"
    · exact h ▸ dontcare
    · exact value _ (by simpa [Expr.special])
  | _ => exact value _ rfl
termination_by sizeOf pattern

/-- The tests of the elements, from the test of each pattern. -/
theorem testPatterns_only_of
    (h : ∀ pattern ∈ patterns, ∀ v s, (testPattern P v pattern.element s).Only Compares)
    (vs : List Value) (s : State) : (testPatterns P vs patterns s).Only Compares := by
  induction vs generalizing patterns s with
  | nil => cases patterns <;> (rw [testPatterns] <;> first | trivial | exact nofun)
  | cons v vs ih =>
    cases patterns with
    | nil => rw [testPatterns] <;> first | trivial | exact nofun
    | cons pattern patterns =>
      rw [testPatterns_cons]
      refine (h pattern (.head _) v s).bind fun ⟨b, s'⟩ => ?_
      cases b with
      | false => trivial
      | true => exact ih (fun p hp => h p (.tail _ hp)) s'

/-- The test of a pattern evaluates only expressions to compare with. -/
theorem testPattern_only (mtch : Value) (pattern : Expr) (s : State) :
    (testPattern P mtch pattern s).Only Compares := by
  induction pattern using pattern_induction generalizing mtch s with
  | value pattern h =>
    rw [testPattern_value h]
    exact testValue_only h s
  | none type | dontcareref type => rw [testPattern]; trivial
  | capture name => rw [testPattern]; exact testCapture_only name s
  | dontcare => rw [matchDontcare, testPattern]; trivial
  | seq pattern h ih =>
    rw [testPattern, h]
    exact ih mtch s
  | tuple patterns type ih =>
    rw [testPattern]
    cases mtch.isTuple with
    | false => trivial
    | true =>
      exact testPatterns_only_of (fun pattern hp v s => ih pattern hp v s) _ s

theorem testPatterns_only (vs : List Value) (patterns : List Expr) (s : State) :
    (testPatterns P vs patterns s).Only Compares :=
  testPatterns_only_of (fun pattern _ v s => testPattern_only v pattern.element s) vs s

theorem allFit_length (h : AllFit patterns types) : patterns.length = types.length := by
  induction patterns generalizing types with
  | nil => cases types <;> simp [AllFit] at h ⊢
  | cons pattern patterns ih =>
    cases types with
    | nil => simp [AllFit] at h
    | cons type types =>
      rw [AllFit] at h
      simp only [length_cons, ih h.2.2]

theorem allFit_element (h : AllFit patterns types) : ∀ pattern ∈ patterns, Element pattern := by
  induction patterns generalizing types with
  | nil => exact fun _ hp => nomatch hp
  | cons pattern patterns ih =>
    cases types with
    | nil => simp [AllFit] at h
    | cons type types =>
      rw [AllFit] at h
      intro p hp
      rcases mem_cons.1 hp with rfl | hp
      · exact h.1
      · exact ih h.2.2 p hp

theorem elemsMatch_length (h : elemsMatch P vs types = true) : vs.length = types.length := by
  induction vs generalizing types with
  | nil => cases types <;> simp [elemsMatch] at h ⊢
  | cons v vs ih =>
    cases types with
    | nil => simp [elemsMatch] at h
    | cons type types =>
      rw [elemsMatch, and_eq_true] at h
      simp only [length_cons, ih h.2]

theorem Fits.seq (h : Fits (.seq [pattern]) type) : Fits pattern type := by
  rwa [Fits] at h

theorem fits_element (h : Fits pattern type) : Fits pattern.element type := by
  rcases element_cases pattern with ⟨inner, rfl⟩ | ⟨-, heq⟩
  · exact h.seq
  · rwa [heq]

/-- A pattern that fits the type that matches passes, as far as no expression is compared. -/
theorem testPattern_passing (hf : Fits pattern type) (hm : mtch.Typed P)
    (ht : typeMatches P mtch type = true) (s : State) : Passing (testPattern P mtch pattern s) := by
  induction pattern using pattern_induction generalizing mtch type s with
  | value pattern h =>
    rw [testPattern_value h]
    trivial
  | none type | dontcareref type => rw [testPattern]; rfl
  | capture name => rw [testPattern]; exact testCapture_passing name s
  | dontcare => rw [matchDontcare, testPattern]; rfl
  | seq pattern h ih =>
    rw [testPattern, h]
    exact ih hf.seq hm ht s
  | tuple patterns _ ih =>
    rw [Fits] at hf
    obtain ⟨types, rfl, hf⟩ := hf
    cases htuple : mtch.isTuple with
    | false =>
      rw [typeMatches_single htuple, hm.carries_tuple htuple] at ht
      cases ht
    | true =>
      rw [typeMatches, htuple, if_pos rfl] at ht
      rw [testPattern, htuple]
      show Passing (testPatterns P mtch.elems patterns s)
      have hall := (hm.tuple htuple).1
      revert ht hall
      generalize mtch.elems = vs
      intro ht hall
      induction vs generalizing patterns types s with
      | nil =>
        cases types with
        | nil =>
          cases patterns with
          | nil => rw [testPatterns]; rfl
          | cons pattern patterns => simp [AllFit] at hf
        | cons type types => simp [elemsMatch] at ht
      | cons v vs ihv =>
        cases types with
        | nil => simp [elemsMatch] at ht
        | cons type types =>
          cases patterns with
          | nil => simp [AllFit] at hf
          | cons pattern patterns =>
            rw [AllFit] at hf
            rw [elemsMatch, and_eq_true] at ht
            rw [Value.AllTyped] at hall
            rw [testPatterns_cons]
            have hpass :=
              ih pattern (.head _) (fits_element hf.2.1) hall.1 ht.1 s
            refine Resume.Starts.bind (hpass.imp ?_)
            rintro ⟨b, s'⟩ rfl
            exact ihv patterns (fun p hp => ih p (.tail _ hp)) s' types
              hf.2.2 ht.2 hall.2

/-! ### The patterns of the runner -/

/-- A pattern that is no expression is `_` or a capture, or the runner does not know it. -/
theorem atomic_cases (h : pattern.special = true) : pattern.atomic = false ∨
    (∃ type, pattern = .dontcareref type) ∨ ∃ name, pattern = .capture name := by
  unfold Expr.atomic
  split
  · exact .inr (.inl ⟨_, rfl⟩)
  · exact .inr (.inr ⟨_, rfl⟩)
  · rw [h]
    exact .inl rfl

theorem special_of_not_atomic (h : pattern.atomic = false) : pattern.special = true := by
  unfold Expr.atomic at h
  split at h
  · cases h
  · cases h
  · simpa using h

/-- Whatever is no capture and not `_` is evaluated and compared. -/
theorem matchEqElement_value (h : pattern.atomic = false ∨ pattern.special = false) :
    matchEqElement P mtch pattern = testValue P mtch pattern := by
  cases pattern with
  | dontcareref | capture => rcases h with h | h <;> cases h
  | _ => rfl

/-- An element that is no pattern of its own is tested as it should be. -/
theorem matchEqElement_atomic (h : pattern.atomic = true) :
    matchEqElement P mtch pattern = testPattern P mtch pattern := by
  cases hs : pattern.special with
  | false => rw [matchEqElement_value (.inr hs), testPattern_value hs]
  | true =>
    rcases atomic_cases hs with hf | ⟨type, rfl⟩ | ⟨name, rfl⟩
    · rw [hf] at h
      cases h
    · rw [testPattern]
      rfl
    · rw [testPattern]
      rfl

/-- One that is evaluates it. -/
theorem matchEqElement_ne (h : pattern.atomic = false) {K : Bool → M Bool}
    {x : Resume Job State Value Failure (Bool × State)} (hx : x.Only Compares) :
    ((matchEqElement P mtch pattern >>= K) s).asks ev ≠ x.asks ev := by
  rw [matchEqElement_value (.inl h)]
  exact Resume.asks_call_ne hx (by rw [Compares, special_of_not_atomic h]; exact Bool.noConfusion)

theorem casePattern_tuple (h : mtch.Typed P) (ht : mtch.isTuple = true) (patterns : List Expr)
    (type : Ty) : casePattern P mtch (.tuple patterns type) = matchElems P mtch.elems patterns := by
  obtain ⟨carried, htype⟩ := h.exists_type
  have hty : carried.isTuple = true := by rwa [Value.isTuple, htype] at ht
  simp only [casePattern, Value.getType, htype, pure_bind, hty, if_true, (h.tuple ht).2]

theorem casePattern_other (h : mtch.Typed P) (ht : mtch.isTuple = true)
    (hp : ∀ patterns type, pattern ≠ .tuple patterns type) :
    casePattern P mtch pattern = fail .assertion := by
  obtain ⟨carried, htype⟩ := h.exists_type
  have hty : carried.isTuple = true := by rwa [Value.isTuple, htype] at ht
  cases pattern with
  | tuple patterns type => exact absurd rfl (hp patterns type)
  | _ => simp only [casePattern, Value.getType, htype, pure_bind, hty, if_true]

theorem casePattern_single (h : mtch.Typed P) (ht : mtch.isTuple = false) (pattern : Expr) :
    casePattern P mtch pattern = matchEqElement P mtch pattern := by
  obtain ⟨carried, htype⟩ := h.exists_type
  have hty : carried.isTuple = false := by rwa [Value.isTuple, htype] at ht
  simp only [casePattern, Value.getType, htype, pure_bind, hty, false_eq_true, if_false]

/-- What the runner makes of a pattern before it has asked for anything. -/
abbrev NotRejected (x : Resume Job State Value Failure (Bool × State)) : Prop :=
  x.Starts (fun p => p.1 = true) fun _ => True

theorem matchEqElement_notRejected (pattern : Expr) (s : State) :
    NotRejected (matchEqElement P mtch pattern s) := by
  cases h : pattern.atomic with
  | false => rw [matchEqElement_value (.inl h)]; trivial
  | true =>
    cases hs : pattern.special with
    | false => rw [matchEqElement_value (.inr hs)]; trivial
    | true =>
      rcases atomic_cases hs with hf | ⟨type, rfl⟩ | ⟨name, rfl⟩
      · rw [hf] at h
        cases h
      · rfl
      · show NotRejected (testCapture mtch name s)
        exact (testCapture_passing name s).weaken

theorem matchElems_notRejected (vs : List Value) (patterns : List Expr) (s : State) :
    NotRejected (matchElems P vs patterns s) := by
  induction vs generalizing patterns s with
  | nil => rfl
  | cons v vs ih =>
    cases patterns with
    | nil => trivial
    | cons element patterns =>
      cases element with
      | seq items =>
        cases items with
        | nil => trivial
        | cons pattern items =>
          refine Resume.Starts.bind ((matchEqElement_notRejected pattern s).imp ?_)
          rintro ⟨b, s'⟩ rfl
          exact ih patterns s'
      | _ => trivial

theorem casePattern_notRejected (h : mtch.Typed P) (pattern : Expr) (s : State) :
    NotRejected (casePattern P mtch pattern s) := by
  cases ht : mtch.isTuple with
  | false =>
    rw [casePattern_single h ht]
    exact matchEqElement_notRejected pattern s
  | true =>
    by_cases hp : ∃ patterns type, pattern = .tuple patterns type
    · obtain ⟨patterns, type, rfl⟩ := hp
      rw [casePattern_tuple h ht]
      exact matchElems_notRejected _ patterns s
    · rw [casePattern_other h ht fun patterns type heq => hp ⟨patterns, type, heq⟩]
      trivial

/-- The first expression of an element that has several is evaluated. -/
theorem element_head {next : Expr} {items : List Expr}
    (h : Element (.seq (pattern :: next :: items))) :
    pattern.atomic = false ∨ pattern.special = false := by
  cases hs : pattern.special with
  | false => exact .inr rfl
  | true =>
    rcases atomic_cases hs with hf | ⟨type, rfl⟩ | ⟨name, rfl⟩
    · exact .inl hf
    · simp [Element] at h
    · simp [Element] at h

/-- An element that is alone in its sequence. -/
theorem elem_iff {k k' : Bool → M Bool} (hf : k false = k' false)
    (hk : ∀ s', ((testPattern P v pattern >>= k') s').Only Compares) :
    ((matchEqElement P v pattern >>= k) s).asks ev = ((testPattern P v pattern >>= k') s).asks ev ↔
      pattern.atomic = true ∧ ∀ s', ((testPattern P v pattern s).asks ev).2 = .done (true, s') →
        (k true s').asks ev = (k' true s').asks ev := by
  cases hatomic : pattern.atomic with
  | true =>
    rw [matchEqElement_atomic hatomic, asks_test_iff hf]
    exact (and_iff_right rfl).symm
  | false => exact iff_of_false (matchEqElement_ne hatomic (hk s)) nofun

/-- An element that has several expressions: the runner compares with the first. -/
theorem elem_several_ne {next : Expr} {items : List Expr}
    (h : Element (.seq (pattern :: next :: items))) (k k' : Bool → M Bool) :
    ((matchEqElement P v pattern >>= k) s).asks ev ≠
      ((testPattern P v (.seq (pattern :: next :: items)) >>= k') s).asks ev := by
  rw [matchEqElement_value (element_head h), testPattern_value rfl]
  refine Resume.asks_call_ne_call fun heq => ?_
  have hsize := congrArg sizeOf (Job.evaluate.inj heq).2
  simp only [Expr.seq.sizeOf_spec, cons.sizeOf_spec] at hsize
  omega

/-- The elements of a tuple. -/
theorem elems_iff (K : Bool → M Bool) (hK : ∀ b s, (K b s).Only Compares)
    (hlen : vs.length = patterns.length) (hel : ∀ pattern ∈ patterns, Element pattern) (s : State) :
    ((matchElems P vs patterns >>= K) s).asks ev = ((testPatterns P vs patterns >>= K) s).asks ev ↔
      ElemsFine P ev vs patterns s := by
  induction vs generalizing patterns s with
  | nil =>
    cases patterns with
    | nil =>
      rw [testPatterns, ElemsFine]
      · exact iff_of_true rfl trivial
      all_goals exact nofun
    | cons pattern patterns => cases hlen
  | cons v vs ih =>
    cases patterns with
    | nil => cases hlen
    | cons element patterns =>
      have hElement := hel element (.head _)
      have hrest := fun s =>
        ih (Nat.succ.inj hlen) (fun p hp => hel p (.tail _ hp)) s
      have hspec : testPatterns P (v :: vs) (element :: patterns) >>= K =
          testPattern P v element.element >>= fun b =>
            (if b then testPatterns P vs patterns else return false) >>= K := by
        rw [testPatterns_cons, bind_assoc]
      cases element with
      | seq items =>
        match items, hElement with
        | [pattern], _ =>
          rw [hspec, matchElems, bind_assoc, ElemsFine, Expr.element, elem_iff]
          · exact and_congr_right fun _ => forall₂_congr fun s' _ => hrest s'
          · rfl
          refine fun s' => (testPattern_only v pattern s').bind fun ⟨b, s''⟩ => ?_
          cases b with
          | false => exact hK false s''
          | true => exact (testPatterns_only vs patterns s'').bind fun p => hK p.1 p.2
        | pattern :: next :: items, hElement =>
          refine iff_of_false ?_ fun h => ?_
          · rw [hspec, matchElems, bind_assoc, Expr.element]
            · exact elem_several_ne hElement _ _
            · exact nofun
          rw [ElemsFine] at h
          · exact h
          all_goals exact nofun
      | _ => cases hElement

/-- A pattern, of a value whose type matches. -/
theorem pattern_iff (hm : mtch.Typed P) (hf : Fits pattern type)
    (ht : typeMatches P mtch type = true) (guard : Option Expr) (s : State) :
    ((casePattern P mtch pattern >>= afterPattern guard) s).asks ev =
      ((testPattern P mtch pattern >>= afterPattern guard) s).asks ev ↔
        PatternFine P ev mtch pattern s := by
  have honly : ((testPattern P mtch pattern >>= afterPattern guard) s).Only Compares :=
    (testPattern_only mtch pattern s).bind fun p => afterPattern_only guard p.1 p.2
  rw [PatternFine]
  cases htuple : mtch.isTuple with
  | false =>
    rw [casePattern_single hm htuple, if_neg Bool.false_ne_true]
    cases hatomic : pattern.atomic with
    | true => exact iff_of_true (by rw [matchEqElement_atomic hatomic]) rfl
    | false => exact iff_of_false (matchEqElement_ne hatomic honly) nofun
  | true =>
    rw [if_pos rfl]
    by_cases hp : ∃ patterns type, pattern = .tuple patterns type
    · obtain ⟨patterns, ptype, rfl⟩ := hp
      rw [Fits] at hf
      obtain ⟨types, rfl, hf⟩ := hf
      rw [typeMatches, htuple, if_pos rfl] at ht
      have hspec : testPattern P mtch (.tuple patterns ptype) =
          testPatterns P mtch.elems patterns := by
        rw [testPattern, htuple, if_pos rfl]
      rw [casePattern_tuple hm htuple, hspec, elems_iff _ (afterPattern_only guard)
        ((elemsMatch_length ht).trans (allFit_length hf).symm) (allFit_element hf)]
      exact ⟨fun h => ⟨patterns, ptype, rfl, h⟩, by rintro ⟨_, _, ⟨rfl, rfl⟩, h⟩; exact h⟩
    refine iff_of_false ?_ fun ⟨patterns, type, heq, _⟩ => hp ⟨patterns, type, heq⟩
    rw [casePattern_other hm htuple fun patterns type heq => hp ⟨patterns, type, heq⟩,
      fail_bind_apply, Resume.asks_fail]
    have hspec : Passing ((testPattern P mtch pattern >>= afterPattern guard) s) := by
      refine Resume.Starts.bind ((testPattern_passing hf hm ht s).imp ?_)
      rintro ⟨b, s'⟩ rfl
      exact afterPattern_passing guard s'
    exact fun heq => hspec.asks_ne_failed (fun hne => hne rfl) heq.symm

/-- **One case**: the runner decides it as it should exactly if it is made for it. -/
theorem case_iff (hm : mtch.Typed P) {c : Case} (hc : c.Accepted) (s : State) :
    (testCase P mtch c s).asks ev = (specCase P mtch c s).asks ev ↔ CaseFine P ev mtch c s := by
  obtain ⟨pattern, patternType, guard, body⟩ := c
  rw [testCase_apply, specCase_apply, CaseFine]
  by_cases hf : TypesFine P mtch patternType
  · rw [caseIsSubtype_fine hm hf, Resume.done_bind]
    cases ht : typeMatches P mtch patternType with
    | false => exact iff_of_true rfl ⟨hf, nofun⟩
    | true =>
      rw [if_pos rfl, if_pos rfl, pattern_iff hm hc ht]
      exact ⟨fun h => ⟨hf, fun _ => h⟩, fun h => h.2 rfl⟩
  refine iff_of_false ?_ fun h => hf h.1
  have hspec : typeMatches P mtch patternType = true →
      Passing ((testPattern P mtch pattern >>= afterPattern guard) s.push) := by
    intro ht
    refine Resume.Starts.bind ((testPattern_passing hc hm ht s.push).imp ?_)
    rintro ⟨b, s'⟩ rfl
    exact afterPattern_passing guard s'
  have hcode : NotRejected ((casePattern P mtch pattern >>= afterPattern guard) s.push) := by
    refine Resume.Starts.bind ((casePattern_notRejected hm pattern s.push).imp ?_)
    rintro ⟨b, s'⟩ rfl
    exact (afterPattern_passing guard s').weaken
  rcases caseIsSubtype_not_fine hm hf with h | h <;> rw [h]
  · rw [Resume.fail_bind, Resume.asks_fail]
    cases ht : typeMatches P mtch patternType with
    | false => exact nofun
    | true => exact fun heq => (hspec ht).asks_ne_failed (fun hne => hne rfl) heq.symm
  rw [Resume.done_bind]
  cases ht : typeMatches P mtch patternType with
  | false => exact hcode.asks_ne_done Bool.false_ne_true
  | true => exact fun heq => (hspec ht).asks_ne_done Bool.false_ne_true heq.symm

/-! ### Matches -/

theorem meets_iff_fine (hm : mtch.Typed P) {cases : List Case}
    (hc : ∀ c ∈ cases, c.Accepted) (s : State) :
    Meets P ev mtch cases s ↔ Fine P ev mtch cases s := by
  induction cases generalizing s with
  | nil => exact Iff.rfl
  | cons c cases ih =>
    rw [Meets, Fine, ← case_iff hm (hc c (.head _))]
    refine and_congr_right fun heq => ?_
    rw [heq]
    exact forall₂_congr fun s' _ => ih (fun c h => hc c (.tail _ h)) s'

/-- The answers of the jobs that a runner has done. -/
abbrev answers (evr : Job → State → Record) (job : Job) (s : State) :
    Except Failure (Value × State) := (evr job s).ending.answer

/-- A match whose cases are decided as they should be has the run that it should have. -/
theorem drive_matchCases {evr : Job → State → Record} {cases : List Case}
    (h : Meets P (answers evr) mtch cases s) (elseBody : Expr) :
    drive evr (matchCases P mtch elseBody cases s) =
      drive evr (specMatch P mtch elseBody cases s) := by
  induction cases generalizing s with
  | nil => rfl
  | cons c cases ih =>
    rw [Meets] at h
    rw [matchCases_cons, specMatch, bind_apply, bind_apply]
    refine drive_congr h.1 ?_
    rintro ⟨b, s'⟩ hs'
    cases b with
    | true => rfl
    | false => exact ih (h.2 s' hs')

/-- **Which case a match selects.**  The runner decides every case up to the first that applies as
it should be decided exactly when each is one that it is made for.  The match then runs the body of
the first case that applies, with the captures of that case, or the `else` clause if none does. -/
theorem match_selects_first_iff (hm : mtch.Typed P) {cases : List Case}
    (hc : ∀ c ∈ cases, c.Accepted) (n : Nat) (s : State) :
    (Meets P (answers (evaluate P n)) mtch cases s ↔ Fine P (answers (evaluate P n)) mtch cases s) ∧
      (Fine P (answers (evaluate P n)) mtch cases s → ∀ elseBody,
        drive (evaluate P n) (matchCases P mtch elseBody cases s) =
          drive (evaluate P n) (specMatch P mtch elseBody cases s)) := by
  have h : Meets P (answers (evaluate P n)) mtch cases s ↔
      Fine P (answers (evaluate P n)) mtch cases s := meets_iff_fine hm hc s
  exact ⟨h, fun hf elseBody => drive_matchCases (h.2 hf) elseBody⟩

/-! ### Tuples that meet the pattern of another type -/

/-- A compiler where a type is a subtype of the types of its name only. -/
def namesProgram : Program := { bareProgram with
  isSubtypeIgnoreCap := fun
    | .nominal _ name _, .nominal _ name' _ => name == name'
    | _, _ => false }

theorem namesProgram_apart (name : String) :
    namesProgram.Apart (.nominal .primitive name []) := ⟨rfl, fun _ => rfl⟩

/-- A type that is a primitive. -/
def primitive (name : String) : Ty := .nominal .primitive name []

/-- `(1, 2)`, an operand of the type `((U8, U8) | None)`. -/
def pairValue : Value :=
  .mk (some (.tuple [primitive "U8", primitive "U8"])) .none
    (.tuple [u8Value .none 1, u8Value .none 2])

/-- `| None => 1`. -/
def noneCase : Case :=
  .mk (.construct (primitive "None") "create" none [] (primitive "None")) (primitive "None") none
    (u8 1)

/-- `| (let a: U8, let b: U8) => a`. -/
def pairCase : Case :=
  .mk (.tuple [.seq [.capture "a"], .seq [.capture "b"]] (.tuple [primitive "U8", primitive "U8"]))
    (.tuple [primitive "U8", primitive "U8"]) none (.ref "a")

theorem pairValue_typed : pairValue.Typed namesProgram := by
  have hu8 : ∀ n, (u8Value .none n).Typed namesProgram := fun n => by
    rw [u8Value, Value.Typed]
    exact namesProgram_apart "U8"
  rw [pairValue, Value.Typed]
  exact ⟨rfl, hu8 1, hu8 2, trivial⟩

theorem pair_accepted : ∀ c ∈ [noneCase, pairCase], c.Accepted := by
  intro c h
  rcases mem_cons.1 h with rfl | h
  · simp [noneCase, Case.Accepted, Fits]
  · rcases mem_singleton.1 h with rfl
    simp [pairCase, Case.Accepted, Fits, AllFit, Element]

theorem pairCase_fine (ev : Job → State → Except Failure (Value × State)) :
    Fine namesProgram ev pairValue [pairCase] startState := by
  have helem : ∀ p ∈ pairValue.elems.zip [primitive "U8", primitive "U8"],
      p.1.carries namesProgram p.2 = true ∧
        (p.1.isTuple = true → typeMatches namesProgram p.1 p.2 = true) := by decide
  refine ⟨⟨fun _ => ⟨_, rfl, .inr (.inl ⟨rfl, helem⟩)⟩, fun _ => ⟨_, _, rfl, rfl, ?_⟩⟩,
    fun _ _ => trivial⟩
  exact fun s' _ => ⟨rfl, fun _ _ => trivial⟩

/-- `match (1, 2) | (let a: U8, let b: U8) => a end`. -/
theorem match_selects_first_pair :
    (Meets namesProgram (answers (evaluate namesProgram 3)) pairValue [pairCase] startState ↔
      Fine namesProgram (answers (evaluate namesProgram 3)) pairValue [pairCase] startState) ∧
      drive (evaluate namesProgram 3)
          (matchCases namesProgram pairValue (u8 0) [pairCase] startState) =
        drive (evaluate namesProgram 3)
          (specMatch namesProgram pairValue (u8 0) [pairCase] startState) := by
  have h := match_selects_first_iff pairValue_typed
    (fun c hc => pair_accepted c (mem_cons_of_mem _ hc)) 3 startState
  exact ⟨h.1, h.2 (pairCase_fine _) (u8 0)⟩

/-- `(1, 2)`. -/
def pairExpr : Expr := .tuple [.seq [u8 1], .seq [u8 2]] (.tuple [primitive "U8", primitive "U8"])

/-- **A tuple that meets another type fails**: `match (1, 2) | None => 1 | (let a: U8, let b: U8) =>
a end` should be `1`, the first element, but the runner fails an assertion. -/
theorem match_tuple_meets_none :
    pairValue.Typed namesProgram ∧ (∀ c ∈ [noneCase, pairCase], c.Accepted) ∧
      (evaluate namesProgram 4 (.evaluate .item (.mtch pairExpr [noneCase, pairCase] (u8 0)))
        startState).ending = .failed .assertion ∧
      (drive (evaluate namesProgram 3)
        (specMatch namesProgram pairValue (u8 0) [noneCase, pairCase] startState)).ending =
          .done (u8Value .none 1) startState ∧
      ¬ Meets namesProgram (answers (evaluate namesProgram 3)) pairValue [noneCase, pairCase]
        startState := by
  refine ⟨pairValue_typed, pair_accepted, rfl, rfl, fun h => ?_⟩
  have hcode : ((testCase namesProgram pairValue noneCase startState).asks
      (answers (evaluate namesProgram 3))).2 = .failed .assertion := rfl
  have hspec : ((specCase namesProgram pairValue noneCase startState).asks
      (answers (evaluate namesProgram 3))).2 = .done (false, startState) := rfl
  rw [h.1, hspec] at hcode
  cases hcode

end

end SpacePony.Runner
