import SpacePony.Support.Resume

/-!
# Compiler — values, frames and states of compile-time evaluation

`CtfeValue`, `CtfeFrames` and `CtfeValueStruct` of `ctfe/`.  A value carries a control flow
modifier: that is how the runner represents an expression that returns, breaks, continues or raises
an error.  `evaluate` runs in the monad `M`, over the state of a runner and the ways in which it
gives up (`State`, `Failure`).
-/

namespace SpacePony.Runner

/-- `ControlFlowModifier`.  A `break` also records whether it was written with a value: codegen has a
target for each, the runner never looks. -/
inductive Modifier where
  | none
  | ret
  | brk (valued : Bool)
  | cont
  | error
  deriving DecidableEq

/-- The kinds of entity a nominal type can name. -/
inductive Entity where
  | primitive
  | struct
  | cls
  | actor
  | interface
  | trait
  deriving DecidableEq

/-- What the runner reads of a type, its aliases unfolded. -/
inductive Ty where
  | nominal (entity : Entity) (name : String) (typeargs : List Ty)
  | tuple (elems : List Ty)
  | union (members : List Ty)
  /-- An arrow, an intersection, a type parameter. -/
  | other (text : String)

/-- `is_literal`. -/
def Ty.isLiteral : Ty → String → Bool
  | .nominal _ n _, name => n == name
  | _, _ => false

def Ty.isPointer (type : Ty) : Bool := type.isLiteral "Pointer"

/-- `is_machine_word`: `Bool`, the integers and the floats. -/
def Ty.isMachineWord (type : Ty) : Bool :=
  ["Bool", "I8", "I16", "I32", "I64", "I128", "ILong", "ISize", "U8", "U16", "U32", "U64", "U128",
    "ULong", "USize", "F32", "F64"].any type.isLiteral

/-- `is_struct`: a nominal type that names a struct or a class. -/
def Ty.isStruct : Ty → Bool
  | .nominal .struct _ _ | .nominal .cls _ _ => true
  | _ => false

def Ty.isPrimitive : Ty → Bool
  | .nominal .primitive _ _ => true
  | _ => false

def Ty.isInterface : Ty → Bool
  | .nominal .interface _ _ => true
  | _ => false

def Ty.isNominal : Ty → Bool
  | .nominal _ _ _ => true
  | _ => false

def Ty.isTuple : Ty → Bool
  | .tuple _ => true
  | _ => false

mutual

/-- `CtfeValue`: a type, which may be missing, a modifier, and the alternative that is stored. -/
inductive Value where
  | mk (type : Option Ty) (ctrlFlow : Modifier) (val : Payload)

/-- The alternatives of `m_val`.  Structs are references into the heap. -/
inductive Payload where
  | bool (b : Bool)
  | int (n : Int)
  | float (bits : Nat)
  | struct (ref : Nat)
  | tuple (elems : List Value)
  | pointer (address : Nat)

end

namespace Value

def type : Value → Option Ty
  | mk type _ _ => type

def ctrlFlow : Value → Modifier
  | mk _ ctrlFlow _ => ctrlFlow

def val : Value → Payload
  | mk _ _ val => val

/-- `CtfeValue(type)`: the first alternative of `m_val` is a `CtfeValueBool`, which is false. -/
def ofType (type : Option Ty) : Value := mk type .none (.bool false)

/-- `CtfeValue()`. -/
def empty : Value := ofType none

/-- `set_control_flow_modifier`. -/
def setModifier : Value → Modifier → Value
  | mk type _ val, m => mk type m val

/-- `clear_control_flow_modifier`. -/
def clearModifier (v : Value) : Value := v.setModifier .none

/-- `set_type_ast`. -/
def setType : Value → Ty → Value
  | mk _ m val, type => mk (some type) m val

def isBool (v : Value) : Bool := v.type.any (·.isLiteral "Bool")

def isNone (v : Value) : Bool := v.type.any (·.isLiteral "None")

@[simp] theorem ctrlFlow_setModifier (v : Value) (m : Modifier) : (v.setModifier m).ctrlFlow = m := by
  cases v; rfl

@[simp] theorem ctrlFlow_clearModifier (v : Value) : v.clearModifier.ctrlFlow = .none :=
  ctrlFlow_setModifier v .none

theorem clearModifier_of_none {v : Value} (h : v.ctrlFlow = .none) : v.clearModifier = v := by
  cases v
  cases h
  rfl

end Value

/-! ### Frames -/

/-- `CtfeFrame`, and the variables of a `CtfeValueStruct`. -/
abbrev Frame := String → Option Value

/-- `new_value`, which fails when the name exists. -/
def Frame.newValue (f : Frame) (name : String) (v : Value) : Option Frame :=
  if (f name).isSome then none else some fun x => if x = name then some v else f x

/-- `update_value`, which fails when the name does not exist. -/
def Frame.updateValue (f : Frame) (name : String) (v : Value) : Option Frame :=
  if (f name).isSome then some fun x => if x = name then some v else f x else none

/-- `CtfeFrames`, the current frame first. -/
abbrev Frames := List Frame

/-- `CtfeFrames::new_value`: in the current frame. -/
def Frames.newValue (fs : Frames) (name : String) (v : Value) : Option Frames :=
  match fs with
  | [] => none
  | f :: rest => (f.newValue name v).map (· :: rest)

/-- `CtfeFrames::update_value`: in the first frame that has the name. -/
def Frames.updateValue (fs : Frames) (name : String) (v : Value) : Option Frames :=
  match fs with
  | [] => none
  | f :: rest =>
    match f.updateValue name v with
    | some f' => some (f' :: rest)
    | none => (Frames.updateValue rest name v).map (f :: ·)

/-- `CtfeFrames::get_value`: from the first frame that has the name. -/
def Frames.getValue (fs : Frames) (name : String) : Option Value :=
  fs.findSome? fun f => f name

/-! ### States -/

/-- The state of a `CtfeRunner`: the frames, the allocated structs, the memory behind pointers and
the depth of method calls. -/
structure State where
  frames : Frames
  heap : List Frame
  memory : Nat → UInt8
  depth : Nat

/-- How the runner gives up. -/
inductive Failure where
  /-- `CtfeFailToEvaluateException`, with the error that was reported. -/
  | exception (message : String)
  /-- A failed `pony_assert`, or `std::get` of an alternative that is not stored. -/
  | assertion
  /-- `m_max_duration_exceeded`. -/
  | duration

end SpacePony.Runner
