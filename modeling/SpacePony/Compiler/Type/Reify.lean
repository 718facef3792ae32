import SpacePony.Compiler.Type.Cap
import SpacePony.Support.Substitution

/-!
# Type — reification

`reify` and `deferred_reify` of `type/reify.c`: the type arguments in the place of the type
parameters, first those of the type and then those of the method.

* `findTypearg`, `reifyRef`, `reify`, `deferredReify`: the functions.
* `simultaneous_of_uncaptured`, `simultaneous_iff`: **then reification is a simultaneous
  substitution, and only then.**
-/

open SpacePony.Subtype (Cap Eph)
open SpacePony.Substitution (Tree)
open SpacePony.Substitution.Tree

namespace SpacePony.Reify

/-- References to parameters, `TK_TYPEPARAMREF` and `TK_VALUEFORMALPARAMREF`.  A number is a
definition. -/
inductive Ref where
  | type (defn : Nat) (cap : Cap) (eph : Eph)
  | value (defn : Nat)
  deriving DecidableEq

/-- The other nodes: a viewpoint, `this`, and all that are only gone through. -/
inductive Label where
  | arrow
  | thistype
  | other (id data : Nat)
  deriving DecidableEq

/-- A type, or another tree that is reified. -/
abbrev Ast := Tree Ref Label

/-- The parameters of a type or a method. -/
inductive Param where
  | typeparam (defn : Nat)
  | valueformalparam (defn : Nat)

/-- Parameters with their arguments. -/
structure Typeargs where
  params : List Param
  args : List Ast

/-- The definitions of parameters, and the functions that reification calls. -/
structure Context where
  /-- `typeparam_root`. -/
  root : Nat → Nat
  name : Nat → Nat
  constraint : Nat → Ast
  isSubtype : Ast → Ast → Bool
  /-- `consume_type` without a capability, which keeps what is ephemeral twice. -/
  consumeType : Ast → Option Ast
  /-- `alias`. -/
  aliasType : Ast → Ast
  viewpointType : Ast → Ast → Ast

section
variable (C : Context)

/-! ### The functions -/

def isTypeparamref : Ast → Bool
  | .var (.type _ _ _) => true
  | _ => false

/-- Whether `find_typearg` takes a reference for a parameter: they have one root, or one name and
the constraint of the reference is below that of the parameter.  A value parameter goes by its name.
-/
def isTaken : Ref → Param → Bool
  | .type d _ _, .typeparam p =>
    let refDef := C.root d
    let paramDef := C.root p
    refDef = paramDef ||
      (C.name refDef = C.name paramDef &&
        (isTypeparamref (C.constraint paramDef) ||
          C.isSubtype (C.constraint refDef) (C.constraint paramDef)))
  | .value d, .valueformalparam p => C.name d = C.name p
  | _, _ => false

/-- The argument of the first parameter that meets the condition. -/
def firstArg (taken : Param → Bool) : List Param → List Ast → Option Ast
  | p :: ps, a :: as => if taken p then some a else firstArg taken ps as
  | _, _ => none

def findTypearg (A : Typeargs) (ref : Ref) : Option Ast :=
  firstArg (isTaken C ref) A.params A.args

/-- The argument, with the ephemerality of the reference. -/
def withEph (arg : Ast) : Ref → Ast
  | .type _ _ .ephemeral => (C.consumeType arg).getD arg
  | .type _ _ .aliased => C.aliasType arg
  | .type _ _ .none => arg
  | .value _ => arg

/-- `reify_typeparamref` and `reify_valueformalparamref`. -/
def reifyRef (A : Typeargs) (ref : Ref) : Ast :=
  match findTypearg C A ref with
  | some arg => withEph C arg ref
  | none => .var ref

/-- `reify_arrow`. -/
def reifyArrow (left right : Ast) : Ast :=
  match left with
  | .node .arrow [lLeft, lRight] => C.viewpointType lLeft (C.viewpointType lRight right)
  | _ => C.viewpointType left right

/-- What becomes of a node that is not a reference, once its children are reified. -/
def make : Label → List Ast → Ast
  | .arrow, [left, right] => reifyArrow C left right
  | l, ts => .node l ts

/-- `reify`. -/
def reify (A : Typeargs) (ast : Ast) : Ast := ast.substitute (make C) (reifyRef C A)

/-- The same of `replace_type` for `this`. -/
def makeThis (with' : Ast) : Label → List Ast → Ast
  | .thistype, _ => with'
  | .arrow, [left, right] => C.viewpointType left right
  | l, ts => .node l ts

/-- `viewpoint_replacethis`. -/
def viewpointReplacethis (with' : Ast) (ast : Ast) : Ast :=
  ast.substitute (makeThis C with') .var

/-- `deferred_reification_t`. -/
structure Deferred where
  thistype : Option Ast := none
  type : Option Typeargs := none
  method : Option Typeargs := none

/-- `this` is replaced before the parameters. -/
def replaceThis (thistype : Option Ast) (ast : Ast) : Ast :=
  match thistype with
  | some with' => viewpointReplacethis C with' ast
  | none => ast

/-- `deferred_reify`. -/
def deferredReify (D : Deferred) (ast : Ast) : Ast :=
  let rAst := replaceThis C D.thistype ast
  let rAst := match D.type with
    | some A => reify C A rAst
    | none => rAst
  match D.method with
  | some B => reify C B rAst
  | none => rAst

/-! ### Simultaneous substitution -/

/-- The reference is one to the parameter. -/
def refersTo : Ref → Param → Bool
  | .type d _ _, .typeparam p => C.root d = C.root p
  | .value d, .valueformalparam p => d = p
  | _, _ => false

/-- The argument that a reference stands for. -/
def argOf (A : Typeargs) (ref : Ref) : Option Ast := firstArg (refersTo C ref) A.params A.args

/-- The reference is replaced by the argument of the parameter that it refers to. -/
def exactRef (A : Typeargs) (ref : Ref) : Ast :=
  match argOf C A ref with
  | some arg => withEph C arg ref
  | none => .var ref

/-- The same for the parameters of a type and of a method at once. -/
def simultaneousRef (A B : Typeargs) (ref : Ref) : Ast :=
  match argOf C A ref with
  | some arg => withEph C arg ref
  | none => exactRef C B ref

/-- Reification is simultaneous and avoids captures. -/
structure Simultaneous (thistype : Option Ast) (A B : Typeargs) (ast : Ast) : Prop where
  type : reify C A (replaceThis C thistype ast) =
    (replaceThis C thistype ast).substitute (make C) (exactRef C A)
  method : reify C B (replaceThis C thistype ast) =
    (replaceThis C thistype ast).substitute (make C) (exactRef C B)
  deferred : deferredReify C { thistype := thistype, type := some A, method := some B } ast =
    (replaceThis C thistype ast).substitute (make C) (simultaneousRef C A B)

/-- The first parameter that the reference is taken for and the first one that it refers to have the
same argument, or where there is only one of them, its argument is the reference. -/
def TakenRight (A : Typeargs) (ref : Ref) : Prop :=
  match firstArg (isTaken C ref) A.params A.args, firstArg (refersTo C ref) A.params A.args with
  | some taken, some arg => withEph C taken ref = withEph C arg ref
  | some arg, none | none, some arg => withEph C arg ref = .var ref
  | none, none => True

/-- No reference is taken for a parameter that it does not refer to: neither those that are there,
nor those that the arguments of the type bring. -/
structure Uncaptured (A B : Typeargs) (ast : Ast) : Prop where
  type : ∀ ref, Occurs ref ast → TakenRight C A ref
  method : ∀ ref, Occurs ref ast → TakenRight C B ref
  kept : ∀ ref arg, Occurs ref ast → argOf C A ref = some arg →
    reify C B (withEph C arg ref) = withEph C arg ref

/-- There is no viewpoint in the tree. -/
def ArrowFree (ast : Ast) : Prop := ∀ ts, ¬ Part (.node .arrow ts) ast

variable {C} {A B : Typeargs} {thistype : Option Ast} {ast : Ast}

/-! ### When it is one -/

theorem takenRight_iff {ref : Ref} : TakenRight C A ref ↔ reifyRef C A ref = exactRef C A ref := by
  rw [TakenRight, reifyRef, exactRef, findTypearg, argOf]
  cases firstArg (isTaken C ref) A.params A.args with
  | some taken => cases firstArg (refersTo C ref) A.params A.args <;> exact Iff.rfl
  | none =>
    cases firstArg (refersTo C ref) A.params A.args with
    | some arg => exact eq_comm
    | none => exact iff_of_true trivial rfl

theorem ArrowFree.rigid (h : ArrowFree ast) : Rigid (make C) ast := by
  intro l ts hpart us
  cases l with
  | arrow => exact absurd hpart (h ts)
  | thistype | other => cases us <;> rfl

/-- What a reference comes to by both substitutions. -/
theorem reify_exactRef (hmethod : reifyRef C B r = exactRef C B r) :
    reify C B (exactRef C A r) = simultaneousRef C A B r ↔
      ∀ arg, argOf C A r = some arg → reify C B (withEph C arg r) = withEph C arg r := by
  rw [exactRef, simultaneousRef]
  cases argOf C A r with
  | none => exact ⟨fun _ => nofun, fun _ => hmethod⟩
  | some arg =>
    exact ⟨fun h a ha => by cases ha; exact h, fun h => h arg rfl⟩

/-- **Reification is simultaneous** where no reference is captured and the adaptation of viewpoints
respects the arguments of the method. -/
theorem simultaneous_of_uncaptured (h : Uncaptured C A B (replaceThis C thistype ast))
    (harrow : Respects (make C) (reifyRef C B) (reifyRef C A) (replaceThis C thistype ast)) :
    Simultaneous C thistype A B ast where
  type := substitute_congr fun r hr => takenRight_iff.1 (h.type r hr)
  method := substitute_congr fun r hr => takenRight_iff.1 (h.method r hr)
  deferred := by
    show reify C B (reify C A _) = _
    rw [reify, reify, substitute_substitute harrow]
    refine substitute_congr fun r hr => ?_
    rw [takenRight_iff.1 (h.type r hr)]
    exact (reify_exactRef (takenRight_iff.1 (h.method r hr))).2 fun arg => h.kept r arg hr

/-- **Without viewpoints, it is so only where no reference is captured.** -/
theorem uncaptured_of_simultaneous (hfree : ArrowFree (replaceThis C thistype ast))
    (h : Simultaneous C thistype A B ast) : Uncaptured C A B (replaceThis C thistype ast) := by
  have htype := (substitute_eq_iff hfree.rigid).1 h.type
  have hmethod := (substitute_eq_iff hfree.rigid).1 h.method
  have hdeferred : reify C B (reify C A _) = _ := h.deferred
  rw [reify, reify, substitute_substitute hfree.rigid.respects,
    substitute_eq_iff hfree.rigid] at hdeferred
  refine ⟨fun r hr => takenRight_iff.2 (htype r hr), fun r hr => takenRight_iff.2 (hmethod r hr),
    fun r arg hr => ?_⟩
  have hr' := hdeferred r hr
  rw [htype r hr] at hr'
  exact (reify_exactRef (hmethod r hr)).1 hr' arg

/-- Adapting viewpoints respects the arguments of the method. -/
def AdaptsAlike (C : Context) (A B : Typeargs) : Prop :=
  ∀ left right, reify C B (reifyArrow C (reify C A left) (reify C A right)) =
    reifyArrow C (reify C B (reify C A left)) (reify C B (reify C A right))

theorem AdaptsAlike.respects (h : AdaptsAlike C A B) :
    Respects (make C) (reifyRef C B) (reifyRef C A) ast := by
  intro l ts _
  match l, ts with
  | .arrow, [left, right] => exact h left right
  | .arrow, [] | .arrow, [_] | .arrow, _ :: _ :: _ :: _ => exact substitute_node ..
  | .thistype, ts | .other _ _, ts => cases ts <;> exact substitute_node ..

theorem adaptsAlike_of_simultaneous (h : ∀ ast, Simultaneous C none A B ast) :
    AdaptsAlike C A B := by
  have hall : ∀ ast, reify C B (reify C A ast) =
      ast.substitute (make C) (simultaneousRef C A B) := fun ast => (h ast).deferred
  intro left right
  have harrow := hall (.node .arrow [left, right])
  rw [substitute_node, reify, reify, substitute_node] at harrow
  rw [hall left, hall right]
  exact harrow

theorem arrowFree_var (r : Ref) : ArrowFree (.var r) := fun _ => nofun

/-- **When reification is simultaneous substitution.** -/
theorem simultaneous_iff (C : Context) (A B : Typeargs) :
    (∀ thistype ast, ArrowFree (replaceThis C thistype ast) →
      (Simultaneous C thistype A B ast ↔ Uncaptured C A B (replaceThis C thistype ast))) ∧
    (∀ thistype ast, Uncaptured C A B (replaceThis C thistype ast) →
      Respects (make C) (reifyRef C B) (reifyRef C A) (replaceThis C thistype ast) →
        Simultaneous C thistype A B ast) ∧
    ((∀ ast, Simultaneous C none A B ast) ↔ (∀ ast, Uncaptured C A B ast) ∧ AdaptsAlike C A B) := by
  refine ⟨fun thistype ast hfree => ?_, fun thistype ast => simultaneous_of_uncaptured, ?_⟩
  · exact ⟨uncaptured_of_simultaneous hfree,
      fun h => simultaneous_of_uncaptured h hfree.rigid.respects⟩
  constructor
  · intro h
    have href : ∀ r, Uncaptured C A B (replaceThis C none (.var r)) := fun r =>
      uncaptured_of_simultaneous (arrowFree_var r) (h (.var r))
    exact ⟨fun ast => ⟨fun r _ => (href r).type r .var, fun r _ => (href r).method r .var,
      fun r arg _ => (href r).kept r arg .var⟩, adaptsAlike_of_simultaneous h⟩
  · exact fun h ast => simultaneous_of_uncaptured (h.1 _) h.2.respects

end

/-! ### Captures -/

/-- The parameter 0 of a class, the parameter 1 of its method, and a parameter 2 of another class
with the name of the first.  All have the constraint `Any`. -/
def anyParams : Context where
  root := id
  name d := d % 2
  constraint _ := .node (.other 0 0) []
  isSubtype _ _ := true
  consumeType := some
  aliasType := id
  viewpointType left right := .node .arrow [left, right]

/-- The method with parameter 1 calls itself on an instance of its class at parameter 1. -/
def recursiveType : Typeargs := ⟨[.typeparam 0], [.var (.type 1 .capAny .none)]⟩

/-- It does so for `U8`. -/
def recursiveMethod : Typeargs := ⟨[.typeparam 1], [.node (.other 0 1) []]⟩

/-- **A recursive call gets the wrong types**: the reference that the class's argument brings is
taken for the parameter of the method.  And a parameter of another class is taken for one of the
same name. -/
theorem recursive_call_captured :
    deferredReify anyParams ⟨none, some recursiveType, some recursiveMethod⟩
        (.var (.type 0 .capAny .none)) = .node (.other 0 1) [] ∧
    substitute (make anyParams) (simultaneousRef anyParams recursiveType recursiveMethod)
        (.var (.type 0 .capAny .none)) = .var (.type 1 .capAny .none) ∧
    reify anyParams recursiveType (.var (.type 2 .capAny .none)) = .var (.type 1 .capAny .none) ∧
    ¬ Simultaneous anyParams none recursiveType recursiveMethod (.var (.type 0 .capAny .none)) ∧
    ¬ Simultaneous anyParams none recursiveType recursiveMethod (.var (.type 2 .capAny .none)) := by
  refine ⟨rfl, rfl, rfl, fun h => ?_, fun h => ?_⟩
  · exact nomatch h.deferred
  have htype := h.type
  injection htype with htype
  injection htype with htype
  exact absurd htype (by decide)

end SpacePony.Reify
