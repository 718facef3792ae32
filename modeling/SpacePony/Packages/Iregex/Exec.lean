import SpacePony.Packages.Builtin.Utf32
import SpacePony.Packages.Iregex.Nfa

/-!
# Packages — iregex — the simulation

`_i_regexp_exec.pony`: the set of states that an input leads to, one code point after the other.
-/

namespace SpacePony.Iregex

open Builtin

/-! ### Code points -/

/-- The loop of `_binary_search`.  The interval gets shorter each round, so its length bounds the
number of rounds. -/
def searchLoop (cp : Nat) (ranges : List (Nat × Nat)) : Nat → Nat → Nat → Bool
  | 0, _, _ => false
  | rounds + 1, lo, hi =>
    if lo < hi then
      let mid := (lo + hi) / 2
      match ranges[mid]? with
      | none => false
      | some (start, endCp) =>
        if cp < start then searchLoop cp ranges rounds lo mid
        else if cp > endCp then searchLoop cp ranges rounds (mid + 1) hi
        else true
    else false

/-- `_binary_search`. -/
def binarySearch (cp : Nat) (ranges : List (Nat × Nat)) : Bool :=
  searchLoop cp ranges ranges.length 0 ranges.length

/-- `_RangeMatcher.matches`. -/
def rangeMatches (cp : Nat) (ranges : List (Nat × Nat)) (negated : Bool) : Bool :=
  let found := binarySearch cp ranges
  if negated then !found else found

/-- What `_matches_char` says of a state. -/
def State.matchesChar (s : State) (cp : Nat) : Bool :=
  match s.kind with
  | .charRange => rangeMatches cp s.ranges s.negated
  | .dot => cp ≠ 0x0A ∧ cp ≠ 0x0D
  | _ => false

/-- `_matches_char`. -/
def NFA.matchesChar (nfa : NFA) (idx cp : Nat) : Bool :=
  match nfa.states[idx]? with
  | some s => s.matchesChar cp
  | none => false

/-! ### Sets of states -/

/-- `class _StateSet`. -/
structure StateSet where
  member : List Bool
  active : List Nat

namespace StateSet

/-- `create`. -/
def create (size : Nat) : StateSet := { member := List.replicate size false, active := [] }

/-- `add`. -/
def add (set : StateSet) (idx : Nat) : StateSet :=
  match set.member[idx]? with
  | some false => { member := set.member.set idx true, active := set.active ++ [idx] }
  | _ => set

/-- `contains`. -/
def contains (set : StateSet) (idx : Nat) : Bool := (set.member[idx]?).getD false

/-- `clear`. -/
def clear (set : StateSet) : StateSet :=
  { member := set.active.foldl (fun m idx => m.set idx false) set.member, active := [] }

end StateSet

/-! ### Silent steps -/

/-- The loop of `_add_state`, with a number of rounds.  The head of the list is the top of the
stack. -/
def addLoop (nfa : NFA) : Nat → List Nat → StateSet → Option StateSet
  | _, [], set => some set
  | 0, _ :: _, _ => none
  | rounds + 1, s :: stack, set =>
    if s ≥ nfa.numStates ∨ set.contains s = true then addLoop nfa rounds stack set
    else
      let set := set.add s
      match nfa.states[s]? with
      | some { kind := .split, out1 := o1, out2 := o2, .. } =>
        let stack := if o1 < nfa.numStates then o1 :: stack else stack
        let stack := if o2 < nfa.numStates then o2 :: stack else stack
        addLoop nfa rounds stack set
      | _ => addLoop nfa rounds stack set

/-- `_add_state`.  There are at most two states on the stack for each one that is added. -/
def addState (nfa : NFA) (set : StateSet) (idx : Nat) : Option StateSet :=
  if idx ≥ nfa.numStates then some set
  else addLoop nfa (2 * nfa.numStates + 1) [idx] set

/-- `_has_match`. -/
def hasMatch (nfa : NFA) (set : StateSet) : Bool :=
  set.active.any fun s =>
    match nfa.states[s]? with
    | some { kind := .accept, .. } => true
    | _ => false

/-! ### Inputs -/

/-- The loop over the states of `current`: those that read the code point lead to states that are
added to `next`. -/
def readLoop (nfa : NFA) (cp : Nat) : List Nat → StateSet → Option StateSet
  | [], next => some next
  | idx :: rest, next =>
    if nfa.matchesChar idx cp then
      match nfa.states[idx]? with
      | some s => do
          let next ← addState nfa next s.out1
          readLoop nfa cp rest next
      | none => readLoop nfa cp rest next
    else readLoop nfa cp rest next

/-- The states of `next` become those of `current`, and `next` is empty. -/
def swap (current next : StateSet) : StateSet × StateSet :=
  (next.active.foldl StateSet.add current.clear, next.clear)

/-- The loop of `is_match`, with a number of rounds. -/
def isMatchLoop (nfa : NFA) (input : List UInt8) :
    Nat → Nat → StateSet → StateSet → Option Bool
  | 0, offset, current, _ => if offset < input.length then none else some (hasMatch nfa current)
  | rounds + 1, offset, current, next =>
    if offset < input.length then
      match utf32 input offset with
      | some (cp, len) => do
          let next ← readLoop nfa cp current.active next
          let (current, next) := swap current next
          isMatchLoop nfa input rounds (offset + len) current next
      | none => some false
    else some (hasMatch nfa current)

/-- `is_match`. -/
def isMatch (nfa : NFA) (input : List UInt8) : Option Bool := do
  let next := StateSet.create nfa.numStates
  let current ← addState nfa (StateSet.create nfa.numStates) nfa.startState
  isMatchLoop nfa input input.length 0 current next

/-- The loop of `search`, with a number of rounds. -/
def matchSearchLoop (nfa : NFA) (input : List UInt8) :
    Nat → Nat → StateSet → StateSet → Option Bool
  | 0, offset, _, _ => if offset < input.length then none else some false
  | rounds + 1, offset, current, next =>
    if offset < input.length then
      match utf32 input offset with
      | some (cp, len) => do
          let current ← addState nfa current nfa.startState
          let next ← readLoop nfa cp current.active next
          if hasMatch nfa next then some true
          else
            let (current, next) := swap current next
            matchSearchLoop nfa input rounds (offset + len) current next
      | none => some false
    else some false

/-- `search`. -/
def search (nfa : NFA) (input : List UInt8) : Option Bool := do
  let next := StateSet.create nfa.numStates
  let current ← addState nfa (StateSet.create nfa.numStates) nfa.startState
  if hasMatch nfa current then some true
  else matchSearchLoop nfa input input.length 0 current next

end SpacePony.Iregex
