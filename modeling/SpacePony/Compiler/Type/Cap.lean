import Mathlib.Init

/-!
# Type — capabilities

Reference capabilities with their ephemerality, and the three relations of `cap.c` between them: a
subcapability, membership in a constraint, and the relation for two uses of one type parameter.
-/

namespace SpacePony.Subtype

/-- The reference capabilities, the generic ones included. -/
inductive Cap where
  | iso | trn | ref | val | box | tag | nhb
  | capRead | capSend | capShare | capAlias | capAny
  deriving DecidableEq

/-- What stands after a capability: nothing, `^` or `!`. -/
inductive Eph where
  | none | ephemeral | aliased
  deriving DecidableEq

def capAliasing : Cap → Eph → Cap × Eph
  | cap, .ephemeral =>
    match cap with
    | .iso | .trn | .capSend | .capAny => (cap, .ephemeral)
    | _ => (cap, .none)
  | cap, .aliased =>
    match cap with
    | .iso => (.tag, .none)
    | .trn => (.box, .none)
    | .capSend => (.capShare, .none)
    | .capAny => (.capAlias, .none)
    | _ => (cap, .none)
  | cap, .none => (cap, .none)

/-- The cases that `is_cap_sub_cap` and `is_cap_sub_cap_bound` decide by a subcapability that is
ephemeral after aliasing. -/
def ephemeralSubCap : Cap → Cap → Option Bool
  | .iso, super => some (super ≠ .nhb)
  | .trn, super =>
    match super with
    | .trn | .ref | .val | .box | .capRead | .capShare | .capAlias => some true
    | _ => some false
  | _, _ => none

/-- Every instantiation of `sub` is below every instantiation of `super`. -/
def plainSubCap : Cap → Cap → Bool
  | .iso, super => super = .iso
  | .trn, super => super = .trn ∨ super = .box
  | .ref, super => super = .ref ∨ super = .box
  | .nhb, super =>
    match super with
    | .nhb | .box | .val | .ref | .capRead | .capShare | .capAlias => true
    | _ => false
  | .val, super => super = .val ∨ super = .box ∨ super = .capShare
  | .box, super => super = .box
  | .capRead, super => super = .box
  | _, _ => false

def isCapSubCap (sub : Cap) (subalias : Eph) (super : Cap) (supalias : Eph) : Bool :=
  let (sub, subalias) := capAliasing sub subalias
  let (super, supalias) := capAliasing super supalias
  if supalias = .ephemeral ∧ subalias ≠ .ephemeral then false
  else if super = .tag then true
  else
    match (if subalias = .ephemeral then ephemeralSubCap sub super else none) with
    | some b => b
    | none => plainSubCap sub super

/-- Every instantiation of `sub` is one of `super`. -/
def constraintSubCap : Cap → Cap → Bool
  | sub, .capRead =>
    match sub with
    | .ref | .val | .box | .nhb => true
    | _ => false
  | sub, .capShare =>
    match sub with
    | .val | .tag | .nhb => true
    | _ => false
  | sub, .capSend =>
    match sub with
    | .iso | .val | .tag | .nhb | .capShare => true
    | _ => false
  | sub, .capAlias =>
    match sub with
    | .ref | .val | .box | .tag | .nhb | .capRead | .capShare => true
    | _ => false
  | _, _ => false

def isCapSubCapConstraint (sub : Cap) (subalias : Eph) (super : Cap) (supalias : Eph) : Bool :=
  let (sub, subalias) := capAliasing sub subalias
  let (super, supalias) := capAliasing super supalias
  if supalias = .ephemeral ∧ subalias ≠ .ephemeral then false
  else if sub = super ∨ super = .capAny then true
  else constraintSubCap sub super

/-- Two capabilities of one type parameter, so that their bounds are the same. -/
def boundSubCap : Cap → Cap → Bool
  | .iso, super => super = .iso
  | .trn, super => super = .trn ∨ super = .box
  | .ref, super => super = .box
  | .nhb, super =>
    match super with
    | .box | .ref | .val | .capRead | .capShare | .capAlias => true
    | _ => false
  | .val, super => super = .box ∨ super = .capShare
  | .capRead, super => super = .box ∨ super = .capShare ∨ super = .capAlias
  | .capSend, super =>
    match super with
    | .capRead | .capShare | .capAlias | .capAny => true
    | _ => false
  | .capAlias, super => super = .capRead ∨ super = .capShare
  | .capAny, super =>
    match super with
    | .capRead | .capShare | .capSend | .capAlias => true
    | _ => false
  | _, _ => false

def isCapSubCapBound (sub : Cap) (subalias : Eph) (super : Cap) (supalias : Eph) : Bool :=
  let (sub, subalias) := capAliasing sub subalias
  let (super, supalias) := capAliasing super supalias
  if supalias = .ephemeral ∧ subalias ≠ .ephemeral then false
  else if sub = super ∨ super = .tag then true
  else
    match (if subalias = .ephemeral then ephemeralSubCap sub super else none) with
    | some b => b
    | none => boundSubCap sub super

end SpacePony.Subtype
