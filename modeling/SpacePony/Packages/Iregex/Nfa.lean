import SpacePony.Support.Automata

/-!
# Packages — iregex — the automaton

`_i_regexp_ast.pony` and `_i_regexp_nfa.pony`: a regular expression, and the automaton that is built
for it.  A fragment is a start state and the outputs that do not lead anywhere yet; `patch` makes
them lead to a state.
-/

namespace SpacePony.Iregex

open Automata

/-! ### Expressions -/

/-- `type _RegexNode`.  A code point is a number, and a count is a `USize`. -/
inductive RegexNode
  | literal (codepoint : Nat)
  | dot
  | charClass (ranges : List (Nat × Nat)) (negated : Bool)
  | alternation (left right : RegexNode)
  | concatenation (left right : RegexNode)
  | quantified (expr : RegexNode) (minCount : UInt64) (maxCount : Option UInt64)
  | group (expr : RegexNode)
  | emptyMatch

/-- The code point is in one of the ranges, both ends included. -/
def InRanges (ranges : List (Nat × Nat)) (cp : Nat) : Prop := ∃ r ∈ ranges, r.1 ≤ cp ∧ cp ≤ r.2

/-- A number of words of a language, one after the other. -/
def repeated (L : Language Nat) (minCount : UInt64) (maxCount : Option UInt64) : Language Nat :=
  {w | ∃ n, minCount.toNat ≤ n ∧ (∀ m, maxCount = some m → n ≤ m.toNat) ∧ w ∈ L ^ n}

/-- The language of an expression, over code points. -/
def RegexNode.language : RegexNode → Language Nat
  | literal c => symbols fun a => a = c
  | dot => symbols fun a => a ≠ 0x0A ∧ a ≠ 0x0D
  | charClass ranges negated => symbols fun a => InRanges ranges a ↔ negated = false
  | alternation left right => left.language + right.language
  | concatenation left right => left.language * right.language
  | quantified expr minCount maxCount => repeated expr.language minCount maxCount
  | group expr => expr.language
  | emptyMatch => 1

/-- The ranges are sorted, and no two overlap. -/
def SortedRanges (ranges : List (Nat × Nat)) : Prop :=
  ranges.Pairwise (fun a b => a.2 < b.1) ∧ ∀ r ∈ ranges, r.1 ≤ r.2

/-- The ranges of every class are sorted. -/
def RegexNode.Sorted : RegexNode → Prop
  | charClass ranges _ => SortedRanges ranges
  | alternation left right => left.Sorted ∧ right.Sorted
  | concatenation left right => left.Sorted ∧ right.Sorted
  | quantified expr _ _ => expr.Sorted
  | group expr => expr.Sorted
  | literal _ | dot | emptyMatch => True

/-! ### The automaton -/

/-- `type _NFAStateKind`. -/
inductive StateKind
  | split
  | charRange
  | dot
  | accept
  deriving DecidableEq

/-- A state: what the parallel arrays hold at its index. -/
structure State where
  kind : StateKind
  out1 : Nat
  out2 : Nat
  ranges : List (Nat × Nat) := []
  negated : Bool := false

/-- `class _NFA`. -/
structure NFA where
  states : List State
  startState : Nat

/-- `num_states`. -/
def NFA.numStates (nfa : NFA) : Nat := nfa.states.length

/-- `class _NFAFragment`.  An output is a state and whether it is the second one. -/
structure NFAFragment where
  start : Nat
  outs : List (Nat × Bool)

/-! ### The builder -/

/-- `_max_states`. -/
def maxStates : Nat := 10000

/-- `_none`: `USize.max_value()`. -/
def noState : Nat := 2 ^ 64 - 1

/-- `class _NFABuildCtx`: the states so far. -/
abbrev NFABuildCtx := List State

namespace NFABuildCtx

/-- `_add_split`. -/
def addSplit (c : NFABuildCtx) (o1 o2 : Nat) : NFABuildCtx :=
  c ++ [{ kind := .split, out1 := o1, out2 := o2 }]

/-- `_add_char`. -/
def addChar (c : NFABuildCtx) (r : List (Nat × Nat)) (neg : Bool) : NFABuildCtx :=
  c ++ [{ kind := .charRange, out1 := noState, out2 := noState, ranges := r, negated := neg }]

/-- `_add_dot`. -/
def addDot (c : NFABuildCtx) : NFABuildCtx :=
  c ++ [{ kind := .dot, out1 := noState, out2 := noState }]

/-- `_add_match`. -/
def addMatch (c : NFABuildCtx) : NFABuildCtx :=
  c ++ [{ kind := .accept, out1 := noState, out2 := noState }]

/-- One round of the loop of `patch`. -/
def patchOne (target : Nat) (c : NFABuildCtx) (o : Nat × Bool) : NFABuildCtx :=
  c.modify o.1 fun s => if o.2 then { s with out2 := target } else { s with out1 := target }

/-- `patch`. -/
def patch (c : NFABuildCtx) (outs : List (Nat × Bool)) (target : Nat) : NFABuildCtx :=
  outs.foldl (patchOne target) c

end NFABuildCtx

open NFABuildCtx

/-- A step of the builder: a fragment, and the states with those of the fragment. -/
abbrev Builder := NFABuildCtx → Option (NFAFragment × NFABuildCtx)

/-- `{n,}`: the loop that puts `k` more copies after the first one. -/
def moreCopies (buildExpr : Builder) : Nat → NFAFragment → Builder
  | 0, result, c => some (result, c)
  | k + 1, result, c => do
      let (next, c) ← buildExpr c
      moreCopies buildExpr k { start := result.start, outs := next.outs }
        (c.patch result.outs next.start)

/-- `{n,m}`: the loop for the `k` copies that are required. -/
def requiredCopies (buildExpr : Builder) :
    Nat → Option NFAFragment → NFABuildCtx → Option (Option NFAFragment × NFABuildCtx)
  | 0, result, c => some (result, c)
  | k + 1, result, c => do
      let (e, c) ← buildExpr c
      match result with
      | some prev =>
        requiredCopies buildExpr k (some { start := prev.start, outs := e.outs })
          (c.patch prev.outs e.start)
      | none => requiredCopies buildExpr k (some e) c

/-- `{n,m}`: the loop for the `k` copies that are optional. -/
def optionalCopies (buildExpr : Builder) :
    Nat → Option NFAFragment → NFABuildCtx → Option (Option NFAFragment × NFABuildCtx)
  | 0, result, c => some (result, c)
  | k + 1, result, c => do
      let (e, c) ← buildExpr c
      let s := c.length
      let c := c.addSplit e.start noState
      match result with
      | some prev =>
        optionalCopies buildExpr k (some { start := prev.start, outs := e.outs ++ [(s, true)] })
          (c.patch prev.outs s)
      | none => optionalCopies buildExpr k (some { start := s, outs := e.outs ++ [(s, true)] }) c

/-- `_build_quantified`, where `max_count` is `None`. -/
def buildUnbounded (buildExpr : Builder) (minCount : UInt64) : Builder := fun c =>
  if minCount = 0 then do
    let (e, c) ← buildExpr c
    let s := c.length
    let c := c.addSplit e.start noState
    some ({ start := s, outs := [(s, true)] }, c.patch e.outs s)
  else if minCount = 1 then do
    let (e, c) ← buildExpr c
    let s := c.length
    let c := c.addSplit e.start noState
    some ({ start := e.start, outs := [(s, true)] }, c.patch e.outs s)
  else do
    let (result, c) ← buildExpr c
    let (result, c) ← moreCopies buildExpr (minCount.toNat - 2) result c
    let (last, c) ← buildExpr c
    let c := c.patch result.outs last.start
    let s := c.length
    let c := c.addSplit last.start noState
    some ({ start := result.start, outs := [(s, true)] }, c.patch last.outs s)

/-- `_build_quantified`, where `max_count` is a number. -/
def buildBounded (buildExpr : Builder) (minCount maxCount : UInt64) : Builder := fun c =>
  if minCount = 0 ∧ maxCount = 0 then
    let s := c.length
    some ({ start := s, outs := [(s, false), (s, true)] }, c.addSplit noState noState)
  else if minCount = 0 ∧ maxCount = 1 then do
    let (e, c) ← buildExpr c
    let s := c.length
    some ({ start := s, outs := e.outs ++ [(s, true)] }, c.addSplit e.start noState)
  else do
    let (result, c) ← requiredCopies buildExpr minCount.toNat none c
    let (result, c) ← optionalCopies buildExpr (maxCount - minCount).toNat result c
    let r ← result
    some (r, c)

/-- What `build_node` does after it has checked the number of states. -/
def checked (b : Builder) : Builder := fun c => if c.length > maxStates then none else b c

/-- `build_node`. -/
def RegexNode.buildNode : RegexNode → Builder
  | literal codepoint => checked fun c =>
    let s := c.length
    some ({ start := s, outs := [(s, false)] }, c.addChar [(codepoint, codepoint)] false)
  | dot => checked fun c =>
    let s := c.length
    some ({ start := s, outs := [(s, false)] }, c.addDot)
  | charClass ranges negated => checked fun c =>
    let s := c.length
    some ({ start := s, outs := [(s, false)] }, c.addChar ranges negated)
  | alternation left right => checked fun c => do
      let (left, c) ← left.buildNode c
      let (right, c) ← right.buildNode c
      let s := c.length
      some ({ start := s, outs := left.outs ++ right.outs }, c.addSplit left.start right.start)
  | concatenation left right => checked fun c => do
      let (left, c) ← left.buildNode c
      let (right, c) ← right.buildNode c
      some ({ start := left.start, outs := right.outs }, c.patch left.outs right.start)
  | quantified expr minCount none => checked (buildUnbounded expr.buildNode minCount)
  | quantified expr minCount (some maxCount) =>
    checked (buildBounded expr.buildNode minCount maxCount)
  | group expr => checked expr.buildNode
  | emptyMatch => checked fun c =>
    let s := c.length
    some ({ start := s, outs := [(s, false), (s, true)] }, c.addSplit noState noState)

/-- `_NFABuilder.build`. -/
def build (ast : RegexNode) : Option NFA := do
  let (frag, c) ← ast.buildNode []
  let matchState := c.length
  let c := c.addMatch
  some { states := c.patch frag.outs matchState, startState := frag.start }

end SpacePony.Iregex
