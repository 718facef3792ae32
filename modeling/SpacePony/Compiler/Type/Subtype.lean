import Mathlib.Algebra.Group.Nat.Defs
import SpacePony.Compiler.Type.Cap
import SpacePony.Support.Ask

/-!
# Type — subtyping

The comparison of two types, `is_x_sub_x_impl` of `type/subtype.c` and all that it dispatches to, as
a decision that asks for further comparisons (`Ask`).  How a comparison that is asked for is answered
(`is_x_sub_x`: the assumptions, the cache) is the subject of the next module.
-/

namespace SpacePony.Subtype

/-! ### Types -/

/-- The value of a value argument: a literal, or an expression that is not evaluated yet. -/
inductive Value where
  | int (n : Nat)
  | float (bits : BitVec 64)
  | bool (b : Bool)
  | string (s : String)
  /-- A constant object by its hash, and by the hash of its type when that is a lambda's. -/
  | object (hash : Nat) (lambda : Option Nat)
  | expr (id : Nat)
  deriving DecidableEq

/-- The kinds of a type's definition. -/
inductive Entity where
  | primitive | struct | «class» | actor | interface | trait
  deriving DecidableEq

/-- The constraints that name a kind of entity. -/
inductive EntityType where
  | «class» | struct | primitive | actor
  deriving DecidableEq

/-- Types, with the nodes that stand among them.  A number is the definition a node points to. -/
inductive Ty where
  | nominal (defn : Nat) (typeargs : List Ty) (cap : Cap) (eph : Eph)
  | typealiasref (defn : Nat) (typeargs : List Ty) (cap : Option Cap) (eph : Eph)
  | typeparamref (defn : Nat) (cap : Cap) (eph : Eph)
  | uniontype (children : List Ty)
  | isecttype (children : List Ty)
  | tupletype (children : List Ty)
  | arrow (left right : Ty)
  | dontcaretype
  | funtype
  | infertype
  | errortype
  | entitytype (kind : EntityType)
  /-- `TK_BOOL_TRUE` and `TK_BOOL_FALSE`. -/
  | boolSingleton (b : Bool)
  | valueformalparamref (defn : Nat)
  | valueformalparam (defn : Nat)
  | valueformalarg (value : Value)
  /-- A capability on the left of an arrow. -/
  | cap (c : Cap)
  | thistype

/-- The node is a type.  Nodes that are not are value parameters and their arguments, and what stands
on the left of an arrow. -/
def Ty.IsType : Ty → Prop
  | .valueformalparamref _ | .valueformalparam _ | .valueformalarg _ | .cap _ | .thistype => False
  | _ => True

/-- Two properties of types and of lists of types, by the nodes that `is_isect_sub_x` and
`is_typeparam_sub_x` decompose. -/
theorem Ty.induct {T : Ty → Prop} {L : List Ty → Prop}
    (isect : ∀ ts, L ts → T (.isecttype ts)) (arrow : ∀ left right, T right → T (.arrow left right))
    (other : ∀ t, (∀ ts, t ≠ .isecttype ts) → (∀ left right, t ≠ .arrow left right) → T t)
    (nil : L []) (cons : ∀ t ts, T t → L ts → L (t :: ts)) (t : Ty) : T t :=
  @Ty.rec T L
    (fun _ _ _ _ _ => other _ (by simp) (by simp)) (fun _ _ _ _ _ => other _ (by simp) (by simp))
    (fun _ _ _ => other _ (by simp) (by simp)) (fun _ _ => other _ (by simp) (by simp))
    (fun ts h => isect ts h) (fun _ _ => other _ (by simp) (by simp))
    (fun left right _ h => arrow left right h) (other _ (by simp) (by simp))
    (other _ (by simp) (by simp)) (other _ (by simp) (by simp)) (other _ (by simp) (by simp))
    (fun _ => other _ (by simp) (by simp)) (fun _ => other _ (by simp) (by simp))
    (fun _ => other _ (by simp) (by simp)) (fun _ => other _ (by simp) (by simp))
    (fun _ => other _ (by simp) (by simp)) (fun _ => other _ (by simp) (by simp))
    (other _ (by simp) (by simp)) nil cons t

/-- How capabilities are compared. -/
inductive CheckCap where
  | sub | eq | bound | ignore
  deriving DecidableEq

/-- One comparison. -/
structure Query where
  sub : Ty
  super : Ty
  checkCap : CheckCap

/-- A type and whether it is annotated to be passed by value. -/
structure Passed where
  type : Ty
  byval : Bool

inductive MethodKind where
  | new | be | fun
  deriving DecidableEq

/-- What the comparison reads of a method.  The receiver capability of a bare method is `none`, the
type parameters are given by their constraints. -/
structure Method where
  kind : MethodKind
  cap : Option Cap
  name : Nat
  typeparams : List Ty
  params : List Passed
  result : Passed
  throws : Bool

def Method.bare (m : Method) : Bool := m.cap.isNone

/-- What a function returns that may return `NULL` or fail an assertion. -/
inductive Lookup (α : Type) where
  | found (a : α)
  | null
  | failed

/-- What the comparison reads of a program. -/
structure Program where
  kind : Nat → Entity
  /-- The annotation `ponyint_bare`. -/
  bare : Nat → Bool
  nosupertype : Nat → Bool
  /-- The definition has been through the traits pass. -/
  traitsDone : Nat → Bool
  isBool : Nat → Bool
  members : Nat → List Method
  /-- `ast_get` on a definition, for methods. -/
  get : Nat → Nat → Option Method
  /-- `reify_method_def` with the type arguments of the type. -/
  reifyMethodDef : Nat → List Ty → Method → Method
  /-- `reify_method_def` of the first method with the type parameters of the second. -/
  reifyWith : Method → Method → Method
  /-- The traits a definition provides, with its type arguments. -/
  traits : Nat → List Ty → List Ty
  /-- The type of a value parameter of a definition. -/
  valueParamType : Nat → Nat → Ty
  /-- The type of a reference to a value parameter, of its name, and of a value. -/
  refType : Nat → Option Ty
  nameType : Nat → Option Ty
  valueType : Value → Option Ty
  typealiasUnfold : Nat → List Ty → Option Cap → Eph → Lookup Ty
  typeparamConstraint : Nat → Option Ty
  typeparamLower : Nat → Cap → Eph → Option Ty
  typeparamUpper : Nat → Cap → Eph → Option Ty
  typeparamRoot : Nat → Nat
  viewpointLower : Ty → Ty → Option Ty
  viewpointUpper : Ty → Ty → Option Ty
  viewpointReifytypeparam : Ty → Ty → Option Ty
  viewpointReifypair : Ty → Ty → Option (Ty × Ty)
  /-- `consume_type`, with the annotation its result still has. -/
  consumeType : Passed → Option Passed

/-! ### Values, capabilities, alternatives -/

/-- `==` on doubles, by their bits. -/
def floatEqual (a b : BitVec 64) : Bool :=
  let magnitude := fun x : BitVec 64 => x.toNat % 2 ^ 63
  let isNan := fun x : BitVec 64 => 0x7ff * 2 ^ 52 < magnitude x
  !isNan a && !isNan b && (a = b || (magnitude a = 0 && magnitude b = 0))

/-- `is_literal_equal` as the type arguments use it: a value that is not a literal is compared
later. -/
def isLiteralEqual : Value → Value → Bool
  | .expr _, _ => true
  | _, .expr _ => true
  | .int a, .int b => a = b
  | .float a, .float b => floatEqual a b
  | .bool a, .bool b => a = b
  | .string a, .string b => a = b
  | .object a la, .object b lb => a = b || (la.isSome && la = lb)
  | _, _ => false

def isSubCapAndEph (subCap : Cap) (subEph : Eph) (superCap : Cap) (superEph : Eph) :
    CheckCap → Bool
  | .ignore => true
  | .sub => isCapSubCap subCap subEph superCap superEph
  | .eq => isCapSubCapConstraint subCap subEph superCap superEph
  | .bound => isCapSubCapBound subCap subEph superCap superEph

mutual

/-- `set_cap_and_ephemeral` with a capability that is there; `none` is its failing assertion. -/
def setCapAndEphemeral (cap : Cap) (eph : Eph) : Ty → Option Ty
  | .uniontype ts => (setCapAndEphemeralAll cap eph ts).map .uniontype
  | .isecttype ts => (setCapAndEphemeralAll cap eph ts).map .isecttype
  | .tupletype ts => (setCapAndEphemeralAll cap eph ts).map .tupletype
  | .nominal d args _ _ => some (.nominal d args cap eph)
  | .typeparamref d _ _ => some (.typeparamref d cap eph)
  | .typealiasref d args _ _ => some (.typealiasref d args (some cap) eph)
  | .arrow _ right => setCapAndEphemeral cap eph right
  | _ => none

def setCapAndEphemeralAll (cap : Cap) (eph : Eph) : List Ty → Option (List Ty)
  | [] => some []
  | t :: ts => do return (← setCapAndEphemeral cap eph t) :: (← setCapAndEphemeralAll cap eph ts)

end

/-- The most alternatives a tuple is expanded into. -/
def maxAlternatives : Nat := 256

/-- The union case of `expand_type_alternatives`: the alternatives of all members, up to the
bound. -/
def unionAlternatives (expand : Ty → Option (Lookup (List Ty))) :
    List Ty → List Ty → Option (Lookup (List Ty))
  | [], result => some (.found result)
  | child :: rest, result =>
    match expand child with
    | none => none
    | some .null => some .null
    | some .failed => some .failed
    | some (.found alts) =>
      if maxAlternatives < (result ++ alts).length then some .null
      else unionAlternatives expand rest (result ++ alts)

/-- The tuple case: each of the tuples so far, extended by each alternative of the next element. -/
def tupleAlternatives (expand : Ty → Option (Lookup (List Ty))) :
    List Ty → List (List Ty) → Option (Lookup (List Ty))
  | [], result => some (.found (result.map .tupletype))
  | child :: rest, result =>
    match expand child with
    | none => none
    | some .null => some .null
    | some .failed => some .failed
    | some (.found alts) =>
      let extended := result.flatMap fun tuple => alts.map fun alt => tuple ++ [alt]
      if maxAlternatives < extended.length then some .null
      else tupleAlternatives expand rest extended

variable (P : Program)

/-- `expand_type_alternatives` under a bound on its depth, which the unfolding of aliases needs. -/
def expandTypeAlternatives : Nat → Ty → Option (Lookup (List Ty))
  | 0, _ => none
  | n + 1, .uniontype ts => unionAlternatives (expandTypeAlternatives n) ts []
  | n + 1, .tupletype ts => tupleAlternatives (expandTypeAlternatives n) ts [[]]
  | n + 1, .typealiasref d args cap eph =>
    match P.typealiasUnfold d args cap eph with
    | .null => some (.found [.typealiasref d args cap eph])
    | .failed => some .failed
    | .found t => expandTypeAlternatives n t
  | _ + 1, t => some (.found [t])

/-- `expand_tuple_unions` of a tuple. -/
def expandTupleUnions (n : Nat) (tuple : Ty) : Option (Lookup (List Ty)) :=
  match expandTypeAlternatives P n tuple with
  | some (.found alts) => if alts.length ≤ 1 then some .null else some (.found alts)
  | r => r

/-! ### Methods -/

/-- A comparison: its questions are comparisons, each with whether errors are collected, and what it
fetches are the alternatives of a tuple. -/
abbrev Tree := Ask (Bool × Query) Ty (Lookup (List Ty))

def isXSubX (errorf : Bool) (sub super : Ty) (checkCap : CheckCap) : Tree :=
  .only (errorf, ⟨sub, super, checkCap⟩)

def isSubtype (errorf : Bool) (sub super : Ty) : Tree := isXSubX errorf sub super .sub

def isEqtype (errorf : Bool) (a b : Ty) : Tree := (isSubtype errorf a b).and (isSubtype errorf b a)

/-- One pair of type arguments, at an index of the definitions' type parameters. -/
def isEqTypearg (errorf : Bool) (aDef bDef index : Nat) : Ty → Ty → Tree
  | .valueformalarg a, .valueformalarg b =>
    (Ask.done (isLiteralEqual a b)).both
      (isEqtype errorf (P.valueParamType aDef index) (P.valueParamType bDef index))
  | .valueformalarg _, _ => .done false
  | _, .valueformalarg _ => .done false
  | a, b => isEqtype errorf a b

def isEqTypeargs (errorf : Bool) (aDef bDef : Nat) (aArgs bArgs : List Ty) : Tree :=
  (Ask.each ((aArgs.zip bArgs).zipIdx.map fun p =>
    isEqTypearg P errorf aDef bDef p.2 p.1.1 p.1.2)).both (.done (aArgs.length = bArgs.length))

/-- One pair of parameters.  Where the annotations differ, the error is reported whether or not there
is a frame to report it in. -/
def isParamSuperParam (errorf : Bool) (sub super : Passed) : Tree :=
  match P.consumeType sub, P.consumeType super with
  | some subType, some superType =>
    if subType.byval ≠ superType.byval then (if errorf then .done false else .fail)
    else isXSubX errorf superType.type subType.type .sub
  | _, _ => .done false

/-- The part of `is_reified_fun_sub_fun` that all methods have: the constraints of the type
parameters, the parameters, and whether the method is partial. -/
def isSignatureSubSignature (errorf : Bool) (sub super : Method) : Tree :=
  (Ask.every ((sub.typeparams.zip super.typeparams).map fun p =>
    isXSubX errorf p.2 p.1 .eq)).and
  ((Ask.every ((sub.params.zip super.params).map fun p =>
    isParamSuperParam P errorf p.1 p.2)).and
  (.done (!sub.throws || super.throws)))

/-- The receiver of a constructor is covariant, that of a method contravariant. -/
def isReceiverSub (sub super : Method) : Bool :=
  match sub.kind, sub.cap, super.cap with
  | .new, some subCap, some superCap => isCapSubCap subCap .none superCap .none
  | .new, _, _ => false
  | _, some subCap, some superCap => isCapSubCap superCap .none subCap .none
  | _, _, _ => true

def isReifiedFunSubFun (errorf : Bool) (sub super : Method) : Tree :=
  if sub.kind = .new then
    if !isReceiverSub sub super then .done false
    else (isSubtype errorf sub.result.type super.result.type).and
      (isSignatureSubSignature P errorf sub super)
  else if sub.bare ≠ super.bare then .fail
  else if !isReceiverSub sub super then .done false
  else (isSubtype errorf sub.result.type super.result.type).and
    (if sub.result.byval ≠ super.result.byval then .done false
    else isSignatureSubSignature P errorf sub super)

/-- Everything that `is_fun_sub_fun` compares without asking. -/
def isFunLikeFun (sub super : Method) : Bool :=
  decide (sub.name = super.name) && decide (sub.kind = .new ↔ super.kind = .new) &&
  decide (sub.typeparams.length = super.typeparams.length) &&
  decide (sub.params.length = super.params.length) && decide (sub.bare = super.bare)

/-- The first method, with the type parameters of the second if that has any. -/
def reifiedSub (sub super : Method) : Method :=
  if super.typeparams.isEmpty then sub else P.reifyWith sub super

def isFunSubFun (errorf : Bool) (sub super : Method) : Tree :=
  if isFunLikeFun sub super then isReifiedFunSubFun P errorf (reifiedSub P sub super) super
  else .done false

/-! ### Unions, intersections, tuples -/

/-- The comparison with the unfolding of an alias, false if there is none. -/
def withUnfolded (d : Nat) (args : List Ty) (cap : Option Cap) (eph : Eph) (k : Ty → Tree) : Tree :=
  match P.typealiasUnfold d args cap eph with
  | .found t => k t
  | .null => .done false
  | .failed => .fail

def isXSubIsect (errorf : Bool) (sub : Ty) (supers : List Ty) (checkCap : CheckCap) : Tree :=
  .every (supers.map fun super => isXSubX errorf sub super checkCap)

/-- The alternatives of a tuple, each against the whole union. -/
def isTupleSubUnion (sub : Ty) (supers : List Ty) (checkCap : CheckCap) : Tree :=
  match sub with
  | .tupletype _ =>
    .fetch sub fun
      | .found alts => .every (alts.map fun alt => isXSubX false alt (.uniontype supers) checkCap)
      | .null => .done false
      | .failed => .fail
  | _ => .done false

/-- The members are tried without a frame; if none fits, they are asked again for their errors. -/
def isXSubUnion (errorf : Bool) (sub : Ty) (supers : List Ty) (checkCap : CheckCap) : Tree :=
  (Ask.some (supers.map fun super => isXSubX false sub super checkCap)).or
  ((isTupleSubUnion sub supers checkCap).or
  (if errorf then
    (Ask.each (supers.map fun super => isXSubX true sub super checkCap)).bind fun _ => .done false
  else .done false))

def isUnionSubX (errorf : Bool) (subs : List Ty) (super : Ty) (checkCap : CheckCap) : Tree :=
  .every (subs.map fun sub => isXSubX errorf sub super checkCap)

mutual

def isIsectSubX (errorf : Bool) (subs : List Ty) (checkCap : CheckCap) : Ty → Tree
  | .isecttype supers => isIsectSubIsect errorf subs checkCap supers
  | .typealiasref d args cap eph =>
    withUnfolded P d args cap eph fun t => isXSubX errorf (.isecttype subs) t checkCap
  | super => .some (subs.map fun sub => isXSubX false sub super checkCap)

def isIsectSubIsect (errorf : Bool) (subs : List Ty) (checkCap : CheckCap) : List Ty → Tree
  | [] => .done true
  | super :: supers =>
    (isIsectSubX errorf subs checkCap super).and (isIsectSubIsect errorf subs checkCap supers)

end

def isTupleSubTuple (errorf : Bool) (subs supers : List Ty) (checkCap : CheckCap) : Tree :=
  if subs.length ≠ supers.length then .done false
  else .each ((subs.zip supers).map fun p => isXSubX errorf p.1 p.2 checkCap)

/-- `is_top_type` of a nominal type, whatever its capability. -/
def isTopNominal (d : Nat) : Bool := P.kind d = .interface && (P.members d).isEmpty

def isTupleSubNominal (errorf : Bool) (subs : List Ty) (d : Nat) (super : Ty)
    (checkCap : CheckCap) : Tree :=
  if isTopNominal P d then .every (subs.map fun sub => isXSubX errorf sub super checkCap)
  else .done false

/-! ### Type parameters and arrows as supertypes -/

def isXSubTypeparam (errorf : Bool) (sub : Ty) (d : Nat) (cap : Cap) (eph : Eph)
    (checkCap : CheckCap) : Tree :=
  if checkCap = .ignore then
    match P.typeparamConstraint d with
    | none => .done false
    | some constraint => isXSubX errorf sub constraint .ignore
  else
    match P.typeparamLower d cap eph with
    | none => .done false
    | some lower => isXSubX errorf sub lower checkCap

/-- The comparison with the lower bound of an arrow. -/
def isXSubLower (errorf : Bool) (sub left right : Ty) (checkCap : CheckCap) : Tree :=
  match P.viewpointLower left right with
  | none => .done false
  | some lower => isXSubX errorf sub lower checkCap

def isXSubArrow (errorf : Bool) (sub left right : Ty) (checkCap : CheckCap) : Tree :=
  if checkCap = .ignore then isXSubX errorf sub right .ignore
  else (isXSubX errorf sub right .ignore).and (isXSubLower P errorf sub left right checkCap)

def isTupleSubX (errorf : Bool) (subs : List Ty) (checkCap : CheckCap) : Ty → Tree
  | .uniontype supers => isXSubUnion errorf (.tupletype subs) supers checkCap
  | .isecttype supers => isXSubIsect errorf (.tupletype subs) supers checkCap
  | .tupletype supers => isTupleSubTuple errorf subs supers checkCap
  | .nominal d args cap eph =>
    isTupleSubNominal P errorf subs d (.nominal d args cap eph) checkCap
  | .typeparamref d cap eph => isXSubTypeparam P errorf (.tupletype subs) d cap eph checkCap
  | .arrow left right => isXSubArrow P errorf (.tupletype subs) left right checkCap
  | .typealiasref d args cap eph =>
    withUnfolded P d args cap eph fun t => isXSubX errorf (.tupletype subs) t checkCap
  | .funtype | .infertype | .errortype | .entitytype _ => .done false
  | _ => .fail

/-! ### Nominal types -/

/-- A nominal type. -/
structure Nominal where
  defn : Nat
  typeargs : List Ty
  cap : Cap
  eph : Eph

def Nominal.toTy (t : Nominal) : Ty := .nominal t.defn t.typeargs t.cap t.eph

/-- The capabilities of two nominal types. -/
def Nominal.isSubCap (sub super : Nominal) (checkCap : CheckCap) : Bool :=
  isSubCapAndEph sub.cap sub.eph super.cap super.eph checkCap

def isNominalSubEntity (errorf : Bool) (sub super : Nominal) (checkCap : CheckCap) : Tree :=
  if sub.defn ≠ super.defn then .done false
  else (isEqTypeargs P errorf sub.defn super.defn sub.typeargs super.typeargs).both
    (.done (sub.isSubCap super checkCap))

/-- One method of the supertype, against that of the subtype with its name. -/
def isMemberProvided (errorf : Bool) (sub super : Nominal) (superMember : Method) : Tree :=
  match P.get sub.defn superMember.name with
  | none => .done false
  | some subMember =>
    isFunSubFun P errorf (P.reifyMethodDef sub.defn sub.typeargs subMember)
      (P.reifyMethodDef super.defn super.typeargs superMember)

def isNominalSubStructural (errorf : Bool) (sub super : Nominal) : Tree :=
  if !(P.traitsDone sub.defn && P.traitsDone super.defn) then .fail
  else if P.nosupertype sub.defn then .done false
  else if P.bare sub.defn ≠ P.bare super.defn then .done false
  else .each ((P.members super.defn).map fun m => isMemberProvided P errorf sub super m)

def isNominalSubInterface (errorf : Bool) (sub super : Nominal) (checkCap : CheckCap) : Tree :=
  (Ask.done (P.kind sub.defn ≠ .struct && sub.isSubCap super checkCap)).both
    (isNominalSubStructural P errorf sub super)

def nominalProvidesTrait (type trait : Nominal) (checkCap : CheckCap) : Tree :=
  if P.bare trait.defn then .fail
  else if P.bare type.defn then .done false
  else .some ((P.traits type.defn type.typeargs).map fun child =>
    match setCapAndEphemeral trait.cap trait.eph child with
    | none => .fail
    | some t => isXSubX false t trait.toTy checkCap)

def isEntitySubTrait (sub super : Nominal) (checkCap : CheckCap) : Tree :=
  (nominalProvidesTrait P sub super checkCap).and (.done (sub.isSubCap super checkCap))

def isTraitSubTrait (errorf : Bool) (sub super : Nominal) (checkCap : CheckCap) : Tree :=
  (if sub.defn = super.defn then
    isEqTypeargs P errorf sub.defn super.defn sub.typeargs super.typeargs
  else nominalProvidesTrait P sub super checkCap).both (.done (sub.isSubCap super checkCap))

def isNominalSubTrait (errorf : Bool) (sub super : Nominal) (checkCap : CheckCap) : Tree :=
  match P.kind sub.defn with
  | .primitive | .class | .actor => isEntitySubTrait P sub super checkCap
  | .struct => .done false
  | .trait => isTraitSubTrait P errorf sub super checkCap
  | .interface => .done false

def isNominalSubNominal (errorf : Bool) (sub super : Nominal) (checkCap : CheckCap) : Tree :=
  match P.kind super.defn with
  | .primitive | .struct | .class | .actor => isNominalSubEntity P errorf sub super checkCap
  | .interface => isNominalSubInterface P errorf sub super checkCap
  | .trait => isNominalSubTrait P errorf sub super checkCap

def isNominalEntityType (sub : Nominal) (super : EntityType) : Bool :=
  match super, P.kind sub.defn with
  | .class, .class | .struct, .struct | .primitive, .primitive | .actor, .actor => true
  | _, _ => false

/-- A bare type is kept out of unions and intersections only if errors are collected. -/
def isNominalSubX (errorf : Bool) (sub : Nominal) (checkCap : CheckCap) : Ty → Tree
  | .uniontype supers =>
    if P.bare sub.defn && errorf then .done false
    else isXSubUnion errorf sub.toTy supers checkCap
  | .isecttype supers =>
    if P.bare sub.defn && errorf then .done false
    else isXSubIsect errorf sub.toTy supers checkCap
  | .tupletype _ => .done false
  | .nominal d args cap eph => isNominalSubNominal P errorf sub ⟨d, args, cap, eph⟩ checkCap
  | .typeparamref d cap eph => isXSubTypeparam P errorf sub.toTy d cap eph checkCap
  | .arrow left right => isXSubArrow P errorf sub.toTy left right checkCap
  | .entitytype kind => .done (isNominalEntityType P sub kind)
  | .typealiasref d args cap eph =>
    withUnfolded P d args cap eph fun t => isXSubX errorf sub.toTy t checkCap
  | .funtype | .infertype | .errortype => .done false
  | _ => .fail

/-! ### Type parameters -/

/-- Two uses of one type parameter share their bounds, so a subcapability is decided there. -/
def isTypeparamSubTypeparam (d : Nat) (cap : Cap) (eph : Eph) (superDef : Nat) (superCap : Cap)
    (superEph : Eph) (checkCap : CheckCap) : Bool :=
  P.typeparamRoot d = P.typeparamRoot superDef &&
    isSubCapAndEph cap eph superCap superEph (if checkCap = .sub then .bound else checkCap)

/-- What `is_typeparam_sub_arrow` does once the right side fits. -/
def isTypeparamSubView (errorf : Bool) (sub left right : Ty) (checkCap : CheckCap) : Tree :=
  match P.viewpointReifytypeparam sub sub, P.viewpointReifytypeparam (.arrow left right) sub with
  | some rSub, some rSuper => isXSubX errorf rSub rSuper checkCap
  | some _, none => .fail
  | none, _ => isXSubLower P errorf sub left right checkCap

/-- `is_typeparam_base_sub_x`, with the comparison of the right side of an arrow as an argument. -/
def isTypeparamBaseSubX (d : Nat) (cap : Cap) (eph : Eph) (checkCap : CheckCap)
    (subRight : Tree) : Ty → Tree
  | .uniontype supers => isXSubUnion false (.typeparamref d cap eph) supers checkCap
  | .isecttype supers => isXSubIsect false (.typeparamref d cap eph) supers checkCap
  | .tupletype _ | .nominal .. => .done false
  | .typeparamref superDef superCap superEph =>
    .done (isTypeparamSubTypeparam P d cap eph superDef superCap superEph checkCap)
  | .arrow left right =>
    if checkCap = .ignore then subRight
    else subRight.and
      (isTypeparamSubView P false (.typeparamref d cap eph) left right checkCap)
  | .typealiasref a args acap aeph =>
    withUnfolded P a args acap aeph fun t => isXSubX false (.typeparamref d cap eph) t checkCap
  | .funtype | .infertype | .errortype => .done false
  | _ => .fail

/-- The comparison of the upper bound of a type parameter. -/
def isTypeparamUpperSubX (errorf : Bool) (d : Nat) (cap : Cap) (eph : Eph) (checkCap : CheckCap)
    (super : Ty) : Tree :=
  if checkCap = .ignore then
    match P.typeparamConstraint d with
    | none => .done false
    | some constraint => isXSubX errorf constraint super .ignore
  else
    match P.typeparamUpper d cap eph with
    | none => .done false
    | some upper => isXSubX errorf upper super checkCap

def isTypeparamSubX (d : Nat) (cap : Cap) (eph : Eph) : Bool → CheckCap → Ty → Tree
  | errorf, checkCap, .arrow left right =>
    (isTypeparamBaseSubX P d cap eph checkCap (isTypeparamSubX d cap eph false .ignore right)
      (.arrow left right)).or
    (isTypeparamUpperSubX P errorf d cap eph checkCap (.arrow left right))
  | errorf, checkCap, super =>
    (isTypeparamBaseSubX P d cap eph checkCap .fail super).or
    (isTypeparamUpperSubX P errorf d cap eph checkCap super)

/-- The value itself is compared later.  The node that a reference points to is the parameter, not
its type. -/
def isTypevalueparamSubX (errorf : Bool) (d : Nat) (checkCap : CheckCap) : Ty → Tree
  | .valueformalparamref superDef =>
    match P.refType superDef with
    | none => .fail
    | some t => isXSubX errorf (.valueformalparamref d) t checkCap
  | .valueformalarg value =>
    match P.nameType d, P.valueType value with
    | some nameType, some valueType => isEqtype errorf nameType valueType
    | _, _ => .fail
  | super => isXSubX errorf (.valueformalparam d) super checkCap

/-! ### Arrows -/

/-- The comparison of the upper bound of an arrow. -/
def isUpperSubX (errorf : Bool) (left right super : Ty) (checkCap : CheckCap) : Tree :=
  match P.viewpointUpper left right with
  | none => .done false
  | some upper => isXSubX errorf upper super checkCap

def isArrowSubNominal (errorf : Bool) (left right super : Ty) (checkCap : CheckCap) : Tree :=
  if checkCap = .ignore then isXSubX errorf right super .ignore
  else (isXSubX errorf right super .ignore).and (isUpperSubX P errorf left right super checkCap)

def isArrowSubTypeparam (errorf : Bool) (left right super : Ty) (checkCap : CheckCap) : Tree :=
  if checkCap = .ignore then isXSubX errorf right super .ignore
  else (isXSubX errorf right super .ignore).and
    (match P.viewpointReifytypeparam (.arrow left right) super,
        P.viewpointReifytypeparam super super with
    | some rSub, some rSuper => isXSubX errorf rSub rSuper checkCap
    | some _, none => .fail
    | none, _ => isArrowSubNominal P errorf left right super checkCap)

def isArrowSubArrow (errorf : Bool) (left right superLeft superRight : Ty) (checkCap : CheckCap) :
    Tree :=
  if checkCap = .ignore then isXSubX errorf right superRight .ignore
  else (isXSubX errorf right superRight .ignore).and
    (match P.viewpointReifypair (.arrow left right) (.arrow superLeft superRight) with
    | some (rSub, rSuper) => isXSubX errorf rSub rSuper checkCap
    | none =>
      match P.viewpointUpper left right, P.viewpointLower superLeft superRight with
      | some upper, some lower => isXSubX errorf upper lower checkCap
      | _, _ => .done false)

def isArrowSubX (errorf : Bool) (left right : Ty) (checkCap : CheckCap) : Ty → Tree
  | .uniontype supers => isXSubUnion errorf (.arrow left right) supers checkCap
  | .isecttype supers => isXSubIsect errorf (.arrow left right) supers checkCap
  | .tupletype _ => .done false
  | .nominal d args cap eph =>
    isArrowSubNominal P errorf left right (.nominal d args cap eph) checkCap
  | .typeparamref d cap eph =>
    isArrowSubTypeparam P errorf left right (.typeparamref d cap eph) checkCap
  | .arrow superLeft superRight =>
    isArrowSubArrow P errorf left right superLeft superRight checkCap
  | .typealiasref d args cap eph =>
    withUnfolded P d args cap eph fun t => isXSubX errorf (.arrow left right) t checkCap
  | .funtype | .infertype | .errortype => .done false
  | _ => .fail

/-! ### The comparison -/

def isEntityTypeSubX (sub : EntityType) : Ty → Bool
  | .entitytype super => sub = super
  | _ => false

/-- A singleton of `Bool` that is not compared with a singleton. -/
def isBoolSingletonSubX (errorf b : Bool) (checkCap : CheckCap) : Ty → Tree
  | .nominal d _ _ _ => .done (P.isBool d)
  | .typealiasref d args cap eph =>
    withUnfolded P d args cap eph fun
      | .nominal d' _ _ _ => .done (P.isBool d')
      | _ => .done false
  | .uniontype supers => isXSubUnion errorf (.boolSingleton b) supers checkCap
  | _ => .done false

/-- The dispatch on the subtype.  A node that is no type falls through the cases to `true`. -/
def isSubDispatch (errorf : Bool) (super : Ty) (checkCap : CheckCap) : Ty → Tree
  | .uniontype subs => isUnionSubX errorf subs super checkCap
  | .isecttype subs => isIsectSubX P errorf subs checkCap super
  | .tupletype subs => isTupleSubX P errorf subs checkCap super
  | .nominal d args cap eph => isNominalSubX P errorf ⟨d, args, cap, eph⟩ checkCap super
  | .typeparamref d cap eph => isTypeparamSubX P d cap eph errorf checkCap super
  | .valueformalparamref d => isTypevalueparamSubX P errorf d checkCap super
  | .arrow left right => isArrowSubX P errorf left right checkCap super
  | .typealiasref d args cap eph =>
    withUnfolded P d args cap eph fun t => isXSubX errorf t super checkCap
  | .funtype | .infertype | .errortype => .done false
  | .entitytype kind => .done (isEntityTypeSubX kind super)
  | .boolSingleton b => isBoolSingletonSubX P errorf b checkCap super
  | .dontcaretype | .valueformalparam _ | .valueformalarg _ | .cap _ | .thistype => .done true

/-- `is_x_sub_x_impl`. -/
def isXSubXImpl (errorf : Bool) (q : Query) : Tree :=
  match q.super, q.sub with
  | .dontcaretype, _ => .done true
  | _, .dontcaretype => .done true
  | .boolSingleton b, .boolSingleton c => .done (c = b)
  | .boolSingleton _, _ => .done false
  | super, sub => isSubDispatch P errorf super q.checkCap sub

end SpacePony.Subtype
