import SpacePony.Compiler.Ctfe.Value

/-!
# Compiler — compile-time evaluation

`CtfeRunner` of `ctfe/ctfe_runner.cc`.  `evaluate`, `evaluate_method`, `call_method`,
`left_side_assign` and `match_eq_element` are computations that ask for the evaluation of their
subexpressions, so that a run records each of them with its position.
-/

namespace SpacePony.Runner

/-! ### Expressions -/

mutual

/-- The expressions that `evaluate` knows. -/
inductive Expr where
  /-- `TK_NONE` and `TK_DONTCARE`. -/
  | none (type : Option Ty)
  /-- `TK_DONTCAREREF`. -/
  | dontcareref (type : Option Ty)
  /-- `TK_TRUE` and `TK_FALSE`. -/
  | bool (b : Bool) (type : Option Ty)
  | int (n : Int) (type : Ty)
  | float (bits : Nat) (type : Ty)
  | string (length address : Nat) (type sizeType allocType ptrType : Ty)
  | this
  | paramref (name : String)
  /-- `TK_VALUEFORMALARG` and `TK_COMPTIME`. -/
  | inner (e : Expr)
  /-- `TK_CALL` of a `TK_NEWREF` or `TK_NEWBEREF`. -/
  | construct (recvType : Ty) (name : String) (typeargs : Option (List Ty)) (args : List Expr)
      (type : Ty)
  /-- `TK_CALL` of a `TK_FUNREF`, or of a `TK_FUNCHAIN` when `chain` holds. -/
  | call (chain : Bool) (receiver : Expr) (recvType : Ty) (name : String)
      (typeargs : Option (List Ty)) (args : List Expr) (type : Ty)
  | seq (items : List Expr)
  | ite (cond thenBranch elseBranch : Expr)
  | ret (e : Expr)
  /-- `TK_VAR` and `TK_LET`. -/
  | decl (name : String)
  /-- `TK_VARREF` and `TK_LETREF`. -/
  | ref (name : String)
  /-- `TK_MATCH_CAPTURE`. -/
  | capture (name : String)
  /-- `TK_FVARREF`, `TK_EMBEDREF` and `TK_FLETREF`. -/
  | field (receiver : Expr) (name : String)
  | assign (left right : Expr)
  | loop (cond body elseBody : Expr)
  | rept (body cond elseBody : Expr)
  | cont
  | brk (e : Option Expr)
  | error
  /-- `TK_TRY` and `TK_TRY_NO_CHECK`; a `then` clause that is not written is `none`. -/
  | tryElse (body elseBody : Expr) (thenClause : Option Expr)
  /-- `TK_TUPLE`; the parser makes each element a sequence. -/
  | tuple (elems : List Expr) (type : Ty)
  | tupleelemref (receiver : Expr) (pos : Nat)
  | iftypeSet (iftype elseClause : Expr)
  | iftype (left right : Ty) (thenBody : Expr)
  | fficall (name : String) (args : List Expr) (returnType : Ty)
  /-- `TK_RECOVER` and `TK_CONSUME`. -/
  | recover (e : Expr) (type : Ty)
  | mtch (operand : Expr) (cases : List Case) (elseBody : Expr)
  | is (recv that : Expr) (type : Ty)
  | sizeof (exprType type : Ty)
  | unsupported (text : String)

/-- A case of a match. -/
inductive Case where
  | mk (pattern : Expr) (patternType : Ty) (guard : Option Expr) (body : Expr)

end

/-- The positions of subexpressions. -/
inductive Role where
  | item
  | cond
  | branch
  | body
  | elseBody
  | thenClause
  | operand
  | left
  | right
  | target
  | element
  | receiver
  | argument
  | pattern
  | guard
  | method
  deriving DecidableEq

/-- What a runner is asked to do. -/
inductive Job where
  | evaluate (role : Role) (e : Expr)
  | callMethod (type : Ty) (name : String) (recvType : Option Ty) (recv : Value) (args : List Value)
      (typeargs : Option (List Ty))
  /-- `handle_ffi_call` after its arguments. -/
  | ffiCall (name : String) (returnType : Ty) (args : List Value)

/-- The computations of a runner. -/
abbrev M := StateT State (Resume Job State Value Failure)

/-! ### What the runner takes from the rest of the compiler -/

/-- The body of a method. -/
inductive Body where
  | none
  | intrinsic
  | seq (e : Expr)

/-- A reified method. -/
structure Method where
  params : List String
  body : Body

/-- A member of an entity, as `populate_struct_members` reads it. -/
inductive Member where
  /-- `TK_FVAR` and `TK_FLET`. -/
  | field (name : String)
  | embed (name : String) (type : Ty)
  | other

/-- The answer of a method that is built in. -/
inductive Builtin where
  /-- `run_method` does not know the method. -/
  | unknown
  | done (v : Value) (s : State)
  | failed (f : Failure)

/-- What the runner takes from the rest of the compiler. -/
structure Program where
  maxRecursionDepth : Nat
  boolType : Ty
  /-- `CtfeValue::run_method`. -/
  runMethod : Ty → Value → List Value → Option (List Ty) → String → State → Builtin
  /-- `get_reified_method`. -/
  reifiedMethod : Ty → Option (List Ty) → String → Option Method
  /-- The members of the entity that a type names. -/
  members : Ty → List Member
  /-- `is_subtype`, `is_subtype_ignore_cap` and `is_subtype_constraint`. -/
  isSubtype : Ty → Ty → Bool
  isSubtypeIgnoreCap : Ty → Ty → Bool
  isSubtypeConstraint : Ty → Ty → Bool
  /-- `handle_ffi_call` after its arguments. -/
  ffi : String → Ty → List Value → State → Builtin
  /-- `get_size_of_type`. -/
  sizeOfType : Ty → Nat

/-! ### The operations of the monad -/

/-- Ask for a subexpression. -/
def eval (role : Role) (e : Expr) : M Value := fun s =>
  .call (.evaluate role e) s fun v s' => .done (v, s')

/-- Ask for a method. -/
def invoke (type : Ty) (name : String) (recvType : Option Ty) (recv : Value) (args : List Value)
    (typeargs : Option (List Ty)) : M Value := fun s =>
  .call (.callMethod type name recvType recv args typeargs) s fun v s' => .done (v, s')

/-- Ask for a function of another language. -/
def invokeFfi (name : String) (returnType : Ty) (args : List Value) : M Value := fun s =>
  .call (.ffiCall name returnType args) s fun v s' => .done (v, s')

/-- Give up. -/
def fail {α : Type} (f : Failure) : M α := fun _ => .fail f

/-- `ast_error_frame` and `throw CtfeFailToEvaluateException`. -/
def giveUp {α : Type} (message : String) : M α := fail (.exception message)

/-- `pony_assert`. -/
def assert (b : Bool) : M Unit := if b then pure () else fail .assertion

variable {α : Type}

@[simp] theorem pure_apply (a : α) (s : State) : (pure a : M α) s = .done (a, s) := rfl

@[simp] theorem fail_bind_apply {β : Type} (f : Failure) (k : α → M β) (s : State) :
    ((fail f : M α) >>= k) s = .fail f := rfl

@[simp] theorem eval_apply (role : Role) (e : Expr) (s : State) :
    eval role e s = .call (.evaluate role e) s fun v s' => .done (v, s') := rfl

@[simp] theorem eval_bind_apply (role : Role) (e : Expr) (k : Value → M α) (s : State) :
    (eval role e >>= k) s = .call (.evaluate role e) s k := rfl

@[simp] theorem get_bind_apply (k : State → M α) (s : State) :
    ((get : M State) >>= k) s = k s s := rfl

@[simp] theorem modify_bind_apply (g : State → State) (k : Unit → M α) (s : State) :
    ((modify g : M Unit) >>= k) s = k () (g s) := rfl

variable (k : Unit → M α)

@[simp] theorem assert_true_bind : (assert true >>= k) = k () := rfl

@[simp] theorem assert_false_bind_apply (s : State) :
    (assert false >>= k) s = .fail .assertion := rfl

/-- The state with a new frame. -/
def State.push (s : State) : State := { s with frames := (fun _ => none) :: s.frames }

/-- The state without its current frame. -/
def State.pop (s : State) : State := { s with frames := s.frames.tail }

/-- `push_frame`. -/
def pushFrame : M Unit := modify State.push

/-- `pop_frame`. -/
def popFrame : M Unit := modify State.pop

@[simp] theorem popFrame_bind_apply (s : State) : (popFrame >>= k) s = k () s.pop := rfl

/-- The type of a value, which must be there. -/
def Value.getType (v : Value) : M Ty :=
  match v.type with
  | some type => pure type
  | none => fail .assertion

/-- `get_bool().get_value()`. -/
def Value.getBool (v : Value) : M Bool :=
  match v.val with
  | .bool b => pure b
  | _ => fail .assertion

@[simp] theorem getBool_bool_bind (t : Option Ty) (m : Modifier) (b : Bool) (k : Bool → M α) :
    ((Value.mk t m (.bool b)).getBool >>= k) = k b := rfl

theorem getBool_bind_of_ne {v : Value} (h : ∀ b, v.val ≠ .bool b) (k : Bool → M α) (s : State) :
    (v.getBool >>= k) s = .fail .assertion := by
  obtain ⟨t, m, p⟩ := v
  cases p with
  | bool b => exact absurd rfl (h b)
  | int n | float bits | struct ref | tuple elems | pointer address => rfl

/-- `get_struct_ref`. -/
def Value.getStructRef (v : Value) : M Nat :=
  match v.val with
  | .struct ref => pure ref
  | _ => fail .assertion

/-- `get_tuple`. -/
def Value.getTuple (v : Value) : M (List Value) :=
  match v.val with
  | .tuple elems => pure elems
  | _ => fail .assertion

/-- The variables of a struct. -/
def getStruct (ref : Nat) : M Frame := do
  match (← get).heap[ref]? with
  | some vars => pure vars
  | none => fail .assertion

/-- `new CtfeValueStruct` with these variables. -/
def newStruct (vars : Frame) : M Nat := do
  let s ← get
  set { s with heap := s.heap ++ [vars] }
  return s.heap.length

/-- Replace the variables of a struct. -/
def setStruct (ref : Nat) (vars : Frame) : M Unit := modify fun s =>
  { s with heap := s.heap.set ref vars }

/-- The answer of a builtin that must know what it is asked. -/
def Builtin.toM (b : Builtin) : M Value :=
  match b with
  | .unknown => fail .assertion
  | .done v s => do
      set s
      return v
  | .failed f => fail f

section
variable (P : Program)

/-! ### Methods -/

/-- The loop of `populate_struct_members`; `none` is its failure. -/
def populateMembers (embed : Ty → M (Option Value)) (vars : Frame) :
    List Member → M (Option Frame)
  | [] => return some vars
  | .field name :: members =>
    match vars.newValue name .empty with
    | some vars' => populateMembers embed vars' members
    | none => return none
  | .embed name type :: members => do
      match ← embed type with
      | some v =>
        match vars.newValue name v with
        | some vars' => populateMembers embed vars' members
        | none => return none
      | none => return none
  | .other :: members => populateMembers embed vars members

/-- `populate_struct_members`: the variables of a new struct. -/
def populateStructMembers : Nat → List Member → M (Option Frame)
  | 0, members => populateMembers (fun _ => fail .duration) (fun _ => none) members
  | n + 1, members => populateMembers
      (fun type => do
        if type.isStruct then
          let ref ← newStruct fun _ => none
          match ← populateStructMembers n (P.members type) with
          | some vars =>
            setStruct ref vars
            return some (.mk (some type) .none (.struct ref))
          | none => return none
        else return none)
      (fun _ => none) members

/-- The receiver of a constructor. -/
def newReceiver (n : Nat) (recvType : Ty) : M Value :=
  match recvType with
  | .nominal .struct _ _ | .nominal .cls _ _ => do
      if recvType.isPointer then return .mk (some recvType) .none (.pointer 0)
      else
        let ref ← newStruct fun _ => none
        match ← populateStructMembers P n (P.members recvType) with
        | some vars =>
          setStruct ref vars
          return .mk (some recvType) .none (.struct ref)
        | none => giveUp "Failed to populate struct/class members"
  | .nominal .primitive _ _ => return .ofType (some recvType)
  | .nominal .actor _ _ => giveUp "Calling actor behaviours is not supported in CTFE."
  | _ => fail .assertion

/-- The arguments of a call, in order. -/
def evalArgs : List Expr → M (List Value)
  | [] => return []
  | argument :: arguments => do
      let v ← eval .argument argument
      let vs ← evalArgs arguments
      return v :: vs

/-- `call_method` between the counting of the depth. -/
def invokeDeeper (type : Ty) (name : String) (recvType : Option Ty) (recv : Value)
    (args : List Value) (typeargs : Option (List Ty)) : M Value := do
  modify fun s => { s with depth := s.depth + 1 }
  let depth := (← get).depth
  if P.maxRecursionDepth ≤ depth then
    giveUp ("compile time expression evaluation reached maximum method recursion depth of " ++
      toString depth ++ ".")
  let returnValue ← invoke type name recvType recv args typeargs
  modify fun s => { s with depth := s.depth - 1 }
  return returnValue

/-- `evaluate_method` of a constructor. -/
def evaluateConstruct (n : Nat) (recvType : Ty) (name : String) (typeargs : Option (List Ty))
    (args : List Expr) (type : Ty) : M Value := do
  let recVal ← newReceiver P n recvType
  let args ← evalArgs args
  let returnValue ← invokeDeeper P type name (some recvType) recVal args typeargs
  return if type.isMachineWord || type.isPointer then returnValue else recVal

/-- `evaluate_method` of a method. -/
def evaluateMethod (chain : Bool) (receiver : Expr) (recvType : Ty) (name : String)
    (typeargs : Option (List Ty)) (args : List Expr) (type : Ty) : M Value := do
  let recVal ← eval .receiver receiver
  let args ← evalArgs args
  let returnValue ← invokeDeeper P type name (some recvType) recVal args typeargs
  return if type.isMachineWord || type.isPointer then returnValue
    else if chain then recVal else returnValue

/-- The loop of `call_method` over the arguments. -/
def bindParams : List String → List Value → M Unit
  | _, [] => return
  | [], _ :: _ => fail .assertion
  | param :: params, arg :: args => do
      modify fun s => { s with frames := (s.frames.newValue param arg).getD s.frames }
      bindParams params args

/-- The frame of a method: the receiver, unless it is empty, and the arguments. -/
def bindFrame (method : Method) (recv : Value) (args : List Value) : M Unit := do
  pushFrame
  if recv.type.isSome then
    modify fun s => { s with frames := (s.frames.newValue "this" recv).getD s.frames }
  if !method.params.isEmpty then bindParams method.params args

/-- The body of a method, which takes the modifier of a `return` away. -/
def runBody (name : String) (method : Method) : M Value :=
  match method.body with
  | .seq e => do
      let returnValue ← eval .method e
      popFrame
      return if returnValue.ctrlFlow = .ret then returnValue.clearModifier else returnValue
  | .none => fail .assertion
  | .intrinsic => giveUp ("Unsupported compiler intrinsic function '" ++ name)

/-- `call_method` where `run_method` does not know the method. -/
def callReified (name : String) (recvType : Ty) (recv : Value) (args : List Value)
    (typeargs : Option (List Ty)) : M Value := do
  let recvType ← if recvType.isInterface then recv.getType else pure recvType
  match P.reifiedMethod recvType typeargs name with
  | none => giveUp ("CTFE: could not find the method '" ++ name ++ "'")
  | some method =>
    bindFrame method recv args
    runBody name method

/-- `call_method`. -/
def callMethod (type : Ty) (name : String) (recvType : Option Ty) (recv : Value)
    (args : List Value) (typeargs : Option (List Ty)) : M Value := do
  match P.runMethod type recv args typeargs name (← get) with
  | .done v s =>
    set s
    return v
  | .failed f => fail f
  | .unknown =>
    match recvType with
    | none => fail .assertion
    | some recvType => callReified P name recvType recv args typeargs

/-- `handle_ffi_call` after its arguments. -/
def callFfi (name : String) (returnType : Ty) (args : List Value) : M Value := do
  (P.ffi name returnType args (← get)).toM

/-! ### Assignment -/

/-- The loop of `left_side_assign` over the elements of a tuple. -/
def assignElems (assign : Expr → Value → M Unit) : List Expr → List Value → M Unit
  | [], _ => return
  | _ :: _, [] => giveUp "Accessing tuple value failed, tuple index out of range"
  | .seq (elem :: _) :: elems, v :: vs => do
      assign elem v
      assignElems assign elems vs
  | _ :: _, _ :: _ => fail .assertion

/-- `update_value` of a local. -/
def assignLocal (name : String) (v : Value) : M Unit := do
  match (← get).frames.updateValue name v with
  | some frames => modify fun s => { s with frames := frames }
  | none => giveUp ("Symbol " ++ name ++ " was not found or previously set")

/-- `update_value` of a field. -/
def assignField (receiver : Value) (name : String) (v : Value) : M Unit := do
  if (← receiver.getType).isStruct then
    let ref ← receiver.getStructRef
    match (← getStruct ref).updateValue name v with
    | some vars => setStruct ref vars
    | none => giveUp ("Could not update symbol '" ++ name ++
        "' was not found in struct, this should not happen")
  else giveUp "Unsupported field variable type"

/-- `left_side_assign`. -/
def leftSideAssign : Nat → Expr → Value → M Unit
  | 0, _, _ => fail .duration
  | n + 1, left, rightVal =>
    match left with
    | .decl name | .ref name => assignLocal name rightVal
    | .field receiver name => do
        let evaluatedReceiver ← eval .target receiver
        assignField evaluatedReceiver name rightVal
    | .tuple elems _ => do
        assert (← rightVal.getType).isTuple
        assignElems (leftSideAssign n) elems (← rightVal.getTuple)
    | .dontcareref _ => return
    | _ => giveUp "Unsupported assignment receiver type"

/-- `TK_ASSIGN`. -/
def evaluateAssign (n : Nat) (left right : Expr) : M Value := do
  let leftValue ← eval .left left
  let rightValue ← eval .right right
  leftSideAssign n left rightValue
  return leftValue

/-! ### Match and identity -/

/-- `CtfeValueTuple::is_subtype`. -/
def tupleIsSubtype : List Value → List Ty → M Bool
  | [], _ => return true
  | _ :: _, [] => fail .assertion
  | v :: vs, type :: types => do
      if P.isSubtypeIgnoreCap (← v.getType) type then tupleIsSubtype vs types else return false

/-- `match_eq_element`. -/
def matchEqElement (mtch : Value) (pattern : Expr) : M Bool :=
  match pattern with
  | .dontcareref _ => return true
  | .capture name => do
      match (← get).frames.newValue name mtch with
      | some frames =>
        modify fun s => { s with frames := frames }
        return true
      | none => giveUp ("Parameter with name " ++ name ++
          " was already found in this case expression frame")
  | pattern => do
      let evaluatedPattern ← eval .pattern pattern
      let equal ← invoke P.boolType "eq" mtch.type mtch [evaluatedPattern] none
      assert equal.isBool
      equal.getBool

/-- The loop over the elements of a tuple pattern. -/
def matchElems : List Value → List Expr → M Bool
  | [], _ => return true
  | v :: vs, .seq (pattern :: _) :: patterns => do
      if ← matchEqElement P v pattern then matchElems vs patterns else return false
  | _ :: _, _ => fail .assertion

/-- Whether the operand has the type of the pattern. -/
def caseIsSubtype (mtch : Value) (patternType : Ty) : M Bool := do
  let matchType ← mtch.getType
  if matchType.isTuple then
    match patternType with
    | .tuple types => tupleIsSubtype P (← mtch.getTuple) types
    | _ => fail .assertion
  else return P.isSubtypeIgnoreCap matchType patternType

/-- Whether the operand matches the pattern. -/
def casePattern (mtch : Value) (pattern : Expr) : M Bool := do
  if (← mtch.getType).isTuple then
    match pattern with
    | .tuple patterns _ => matchElems P (← mtch.getTuple) patterns
    | _ => fail .assertion
  else matchEqElement P mtch pattern

/-- The guard of a case. -/
def caseGuard (guard : Option Expr) : M Bool :=
  match guard with
  | none => return true
  | some guard => do
      let evalGuard ← eval .guard guard
      assert evalGuard.isBool
      evalGuard.getBool

/-- The loop over the cases of a match. -/
def matchCases (mtch : Value) (elseBody : Expr) : List Case → M Value
  | [] => do
      pushFrame
      let ret ← eval .elseBody elseBody
      popFrame
      return ret
  | .mk pattern patternType guard body :: cases => do
      if ← caseIsSubtype P mtch patternType then
        pushFrame
        if ← casePattern P mtch pattern then
          if ← caseGuard guard then
            let ret ← eval .branch body
            popFrame
            return ret
          else
            popFrame
            matchCases mtch elseBody cases
        else
          popFrame
          matchCases mtch elseBody cases
      else matchCases mtch elseBody cases

/-- The loop of `is_operator` over the elements of tuples. -/
def isElems (is : Value → Value → M Bool) : List Value → List Value → M Bool
  | l :: ls, r :: rs => do
      if ← is l r then isElems is ls rs else return false
  | _, _ => return true

/-- `is_operator`. -/
def isOperator : Nat → Value → Value → M Bool
  | 0, _, _ => fail .duration
  | n + 1, left, right => do
      let leftType ← left.getType
      let rightType ← right.getType
      if P.isSubtype leftType rightType then
        if leftType.isNominal then
          if leftType.isPrimitive then
            if leftType.isMachineWord then
              let equal ← invoke P.boolType "eq" (some leftType) left [right] none
              equal.getBool
            else return true
          else if leftType.isStruct then
            return (← left.getStructRef) == (← right.getStructRef)
          else fail .assertion
        else if leftType.isTuple then
          let ls ← left.getTuple
          let rs ← right.getTuple
          if ls.length = rs.length then isElems (isOperator n) ls rs else return false
        else fail .assertion
      else return false

/-! ### Loops and `try` -/

/-- The loop of `TK_WHILE`, from a condition and the value of the last iteration. -/
def whileLoop (cond thenBody : Expr) : Nat → Value → Value → M Value
  | 0, evaluatedCond, evaluatedWhile => do
      if ← evaluatedCond.getBool then fail .duration else return evaluatedWhile
  | n + 1, evaluatedCond, evaluatedWhile => do
      if ← evaluatedCond.getBool then
        pushFrame
        let evaluatedWhile ← eval .body thenBody
        popFrame
        match evaluatedWhile.ctrlFlow with
        | .ret | .error => return evaluatedWhile
        | .brk _ => return evaluatedWhile.clearModifier
        | .cont | .none =>
          let evaluatedCond ← eval .cond cond
          whileLoop cond thenBody n evaluatedCond evaluatedWhile.clearModifier
      else return evaluatedWhile

/-- `TK_WHILE`. -/
def evaluateWhile (n : Nat) (cond thenBody elseBody : Expr) : M Value := do
  let evaluatedCond ← eval .cond cond
  assert evaluatedCond.isBool
  if ← evaluatedCond.getBool then whileLoop cond thenBody n evaluatedCond .empty
  else eval .elseBody elseBody

/-- The loop of `TK_REPEAT`. -/
def repeatLoop (repeatBody cond elseBody : Expr) : Nat → M Value
  | 0 => fail .duration
  | n + 1 => do
      pushFrame
      let repeatValue ← eval .body repeatBody
      popFrame
      match repeatValue.ctrlFlow with
      | .ret | .error => return repeatValue
      | .brk _ => return repeatValue.clearModifier
      | m =>
        let evaluatedCond ← eval .cond cond
        if ← evaluatedCond.getBool then
          if m = .cont then
            pushFrame
            let repeatValue ← eval .elseBody elseBody
            popFrame
            return repeatValue
          else return repeatValue
        else repeatLoop repeatBody cond elseBody n

/-- `TK_REPEAT`: the condition is evaluated before the loop, and its value is not used. -/
def evaluateRepeat (n : Nat) (repeatBody cond elseBody : Expr) : M Value := do
  let _ ← eval .cond cond
  repeatLoop repeatBody cond elseBody n

/-- `TK_TRY`: the `then` clause is not looked at. -/
def evaluateTry (tryBody elseBody : Expr) (_thenClause : Option Expr) : M Value := do
  let evaluatedTry ← eval .body tryBody
  if evaluatedTry.ctrlFlow = .error then eval .elseBody elseBody else return evaluatedTry

/-- How the loops and `try` are run. -/
structure Constructs where
  loop : Nat → Expr → Expr → Expr → M Value
  rept : Nat → Expr → Expr → Expr → M Value
  tryElse : Expr → Expr → Option Expr → M Value

/-- The loops and `try` of the runner. -/
def constructs : Constructs where
  loop := evaluateWhile
  rept := evaluateRepeat
  tryElse := evaluateTry

/-! ### The other expressions -/

/-- `TK_SEQ`: up to the first value with a modifier. -/
def evaluateSeq : Value → List Expr → M Value
  | evaluated, [] => return evaluated
  | _, item :: items => do
      let evaluated ← eval .item item
      if evaluated.ctrlFlow = .none then evaluateSeq evaluated items else return evaluated

/-- The elements of a tuple, in order. -/
def evalElems : List Expr → M (List Value)
  | [] => return []
  | elem :: elems => do
      let v ← eval .element elem
      let vs ← evalElems elems
      return v :: vs

/-- `TK_IF`. -/
def evaluateIf (condition thenBranch elseBranch : Expr) : M Value := do
  let conditionEvaluated ← eval .cond condition
  assert conditionEvaluated.isBool
  pushFrame
  let ret ← if ← conditionEvaluated.getBool then eval .branch thenBranch
    else eval .branch elseBranch
  popFrame
  return ret

/-- `TK_VAR` and `TK_LET`. -/
def evaluateDecl (name : String) : M Value := do
  match (← get).frames.newValue name .empty with
  | some frames =>
    modify fun s => { s with frames := frames }
    return .empty
  | none => giveUp ("CTFE runner tried to create symbol " ++ name ++ " twice in the same frame")

/-- A variable of the frames, or an error. -/
def getVariable (name message : String) : M Value := do
  match (← get).frames.getValue name with
  | some v => return v
  | none => giveUp message

/-- `TK_FVARREF`, `TK_EMBEDREF` and `TK_FLETREF`, after the receiver. -/
def readField (receiver : Value) (name : String) : M Value := do
  if receiver.isNone then
    giveUp "Cannot access variables in 'this' outside the comptime expression scope."
  if (← receiver.getType).isStruct then
    match (← getStruct (← receiver.getStructRef)) name with
    | some v => return v
    | none => giveUp ("Symbol '" ++ name ++ "' was not found in struct, this should not happen")
  else giveUp "Unsupported field variable type"

/-- `TK_TUPLEELEMREF`, after the receiver. -/
def readElem (receiver : Value) (pos : Nat) : M Value := do
  assert (← receiver.getType).isTuple
  match (← receiver.getTuple)[pos]? with
  | some v => return v
  | none => giveUp "Accessing tuple value failed, tuple index out of range"

/-- The new type of a recovered value: the first member of a union that it fits. -/
def recoverType (v : Value) (type : Ty) : M Value :=
  match type with
  | .union members => do
      let valueType ← v.getType
      match members.find? fun member => P.isSubtypeIgnoreCap member valueType with
      | some member => return v.setType member
      | none => fail .assertion
  | type => return v.setType type

/-- `TK_IFTYPE_SET` after its `TK_IFTYPE`: an empty value is taken for a type test that failed. -/
def iftypeElse (elseClause : Expr) (ret : Value) : M Value := do
  if ret.type.isNone then
    if ← ret.getBool then fail .assertion
    else
      pushFrame
      let ret ← eval .branch elseClause
      popFrame
      return ret
  else return ret

/-- `TK_IFTYPE`. -/
def evaluateIftype (left right : Ty) (thenBody : Expr) : M Value := do
  if P.isSubtypeConstraint left right then
    pushFrame
    let ret ← eval .branch thenBody
    popFrame
    return ret
  else return .empty

/-- `TK_STRING`: a new `String` over the bytes of the literal. -/
def newString (length address : Nat) (type sizeType allocType ptrType : Ty) : M Value := do
  let ref ← newStruct fun x =>
    if x = "_size" then some (.mk (some sizeType) .none (.int length))
    else if x = "_alloc" then some (.mk (some allocType) .none (.int (length + 1)))
    else if x = "_ptr" then some (.mk (some ptrType) .none (.pointer address))
    else none
  return .mk (some type) .none (.struct ref)

/-- `evaluate`, with the loops and `try` of `C`. -/
def evaluateExpr (C : Constructs) (n : Nat) : Expr → M Value
  | .none type | .dontcareref type => return .ofType type
  | .bool b type => return .mk (some (type.getD P.boolType)) .none (.bool b)
  | .int i type => return .mk (some type) .none (.int i)
  | .float bits type => do
      assert (type.isLiteral "F32" || type.isLiteral "F64")
      return .mk (some type) .none (.float bits)
  | .string length address type sizeType allocType ptrType =>
    newString length address type sizeType allocType ptrType
  | .this => getVariable "this" "'this' reference was not previously not defined"
  | .paramref name =>
    getVariable name ("Parameter with name " ++ name ++ " was not found in this frame")
  | .inner e => eval .operand e
  | .construct recvType name typeargs args type =>
    evaluateConstruct P n recvType name typeargs args type
  | .call chain receiver recvType name typeargs args type =>
    evaluateMethod P chain receiver recvType name typeargs args type
  | .seq items => evaluateSeq .empty items
  | .ite condition thenBranch elseBranch => evaluateIf condition thenBranch elseBranch
  | .ret e => return (← eval .operand e).setModifier .ret
  | .decl name => evaluateDecl name
  | .ref name | .capture name => getVariable name
      ("Symbol '" ++ name ++ "' was not found because it was not previously created")
  | .field receiver name => do readField (← eval .receiver receiver) name
  | .assign left right => evaluateAssign n left right
  | .loop cond thenBody elseBody => C.loop n cond thenBody elseBody
  | .rept repeatBody cond elseBody => C.rept n repeatBody cond elseBody
  | .cont => return .setModifier .empty .cont
  | .brk (some e) => return (← eval .operand e).setModifier (.brk true)
  | .brk none => return .setModifier .empty (.brk false)
  | .error => return .setModifier .empty .error
  | .tryElse tryBody elseBody thenClause => C.tryElse tryBody elseBody thenClause
  | .tuple elems type => return .mk (some type) .none (.tuple (← evalElems elems))
  | .tupleelemref receiver pos => do readElem (← eval .receiver receiver) pos
  | .iftypeSet iftype elseClause => do iftypeElse elseClause (← eval .cond iftype)
  | .iftype left right thenBody => evaluateIftype P left right thenBody
  | .fficall name args returnType => do
      let args ← evalArgs args
      invokeFfi name returnType args
  | .recover e type => do recoverType P (← eval .operand e) type
  | .mtch operand cases elseBody => do matchCases P (← eval .operand operand) elseBody cases
  | .is recv that type => do
      let recvValue ← eval .left recv
      let thatValue ← eval .right that
      return .mk (some type) .none (.bool (← isOperator P n recvValue thatValue))
  | .sizeof exprType type =>
    if exprType.isMachineWord then
      return .mk (some type) .none (.int (P.sizeOfType exprType))
    else giveUp "The CTFE runner only supports sizeof expressions on machine word types"
  | .unsupported text => giveUp ("The CTFE runner does not support the '" ++ text ++ "' expression")

/-- One job of a runner. -/
def step (C : Constructs) (n : Nat) : Job → State → Resume Job State Value Failure (Value × State)
  | .evaluate _ e => evaluateExpr P C n e
  | .callMethod type name recvType recv args typeargs =>
    callMethod P type name recvType recv args typeargs
  | .ffiCall name returnType args => callFfi P name returnType args

/-- The record of what a runner does. -/
abbrev Record := Run Job State Value Failure

/-- The run of a job with the loops and `try` of `C`. -/
def evaluateWith (C : Constructs) : Nat → Job → State → Record := run (step P C) .duration

/-- The run of a job of a `CtfeRunner`. -/
def evaluate : Nat → Job → State → Record := evaluateWith P constructs

end

/-! ### A compiler to run on -/

/-- A compiler that knows no methods. -/
def bareProgram : Program where
  maxRecursionDepth := 64
  boolType := .nominal .primitive "Bool" []
  runMethod := fun _ _ _ _ _ _ => .unknown
  reifiedMethod := fun _ _ _ => none
  members := fun _ => []
  isSubtype := fun _ _ => true
  isSubtypeIgnoreCap := fun _ _ => true
  isSubtypeConstraint := fun _ _ => true
  ffi := fun _ _ _ _ => .unknown
  sizeOfType := fun _ => 1

/-- The state a runner starts in. -/
def startState : State where
  frames := [fun x => if x = "this" then some .empty else none]
  heap := []
  memory := fun _ => 0
  depth := 0

/-- A literal of type `U8`. -/
def u8 (n : Int) : Expr := .int n (.nominal .primitive "U8" [])

/-- The state with `x` in the current frame. -/
def withX (v : Value) : State :=
  { startState with frames := [fun x => if x = "x" then some v else none] }

/-- A value of type `U8`, with a modifier. -/
def u8Value (m : Modifier) (n : Int) : Value := .mk (some (.nominal .primitive "U8" [])) m (.int n)

end SpacePony.Runner
