import Mathlib.Data.Finset.Card
import Mathlib.Data.Finset.Range
import Mathlib.Data.List.Basic

/-!
# Compiler — type aliases

The definitions of type aliases, their unfolding (`type/typealias.c`) and the pass that decides which
recursive ones are legal (`pass/typealias_recursion.c`).

Capabilities and ephemerality are left out, for they do not decide where an alias stands; so is the
adaptation of arrows, which `reify` makes while it replaces parameters.
-/

namespace SpacePony.Alias

/-! ### Types and their unfolding -/

/-- The types that hold a list of types inline. -/
inductive Compound where
  | union
  | isect
  | tuple
  deriving DecidableEq

/-- Types.  A parameter is one of those of the alias in whose body it stands. -/
inductive Ty where
  | nominal (id : Nat) (args : List Ty)
  /-- `TK_TYPEALIASREF`. -/
  | aliasref (name : Nat) (args : List Ty)
  /-- `TK_TYPEPARAMREF`. -/
  | param (index : Nat)
  | compound (kind : Compound) (members : List Ty)
  | arrow (left right : Ty)
  /-- A capability, `this`, a parameter of something else. -/
  | leaf

/-- The bodies of the aliases of a program. -/
abbrev Program := List Ty

/-- `alias_body`. -/
def Program.body (prog : Program) (name : Nat) : Ty := prog[name]?.getD .leaf

mutual

/-- `reify`: the arguments in the place of the parameters.  `reify_defaults` has seen to it that no
argument is missing. -/
def Ty.reify (args : List Ty) : Ty → Ty
  | .nominal id ts => .nominal id (Ty.reifyAll args ts)
  | .aliasref name ts => .aliasref name (Ty.reifyAll args ts)
  | .param index => args[index]?.getD .leaf
  | .compound kind ts => .compound kind (Ty.reifyAll args ts)
  | .arrow left right => .arrow (left.reify args) (right.reify args)
  | .leaf => .leaf

def Ty.reifyAll (args : List Ty) : List Ty → List Ty
  | [] => []
  | t :: ts => t.reify args :: Ty.reifyAll args ts

end

section
attribute [local simp] Ty.reify Ty.reifyAll

theorem Ty.reifyAll_eq_map (args ts : List Ty) : Ty.reifyAll args ts = ts.map (Ty.reify args) := by
  induction ts with
  | nil => simp
  | cons t ts ih => simp [ih]

@[simp] theorem Ty.reify_aliasref (args ts : List Ty) (name : Nat) :
    (Ty.aliasref name ts).reify args = .aliasref name (ts.map (Ty.reify args)) := by
  simp [Ty.reifyAll_eq_map]

@[simp] theorem Ty.reify_compound (args ts : List Ty) (kind : Compound) :
    (Ty.compound kind ts).reify args = .compound kind (ts.map (Ty.reify args)) := by
  simp [Ty.reifyAll_eq_map]

end

section
variable (prog : Program)

/-- `unfold_one`. -/
def unfoldOne (name : Nat) (args : List Ty) : Ty := (prog.body name).reify args

/-- What `typealias_unfold` ends with. -/
inductive Unfolded where
  | type (t : Ty)
  /-- The assertion that no definition comes twice fails. -/
  | cycle

/-- There are fewer definitions left once one more has been visited. -/
theorem unvisited_lt {name : Nat} {visited : List Nat} (hname : name < prog.length)
    (hnew : name ∉ visited) : (Finset.range prog.length \ (name :: visited).toFinset).card <
      (Finset.range prog.length \ visited.toFinset).card := by
  refine Finset.card_lt_card (Finset.ssubset_iff_of_subset ?_ |>.mpr ⟨name, ?_, ?_⟩)
  · intro e he
    simp only [Finset.mem_sdiff, List.mem_toFinset, List.mem_cons, not_or] at he ⊢
    exact ⟨he.1, he.2.2⟩
  · simp [hname, hnew]
  · simp

/-- The loop of `typealias_unfold`. -/
def unfoldLoop (visited : List Nat) (t : Ty) : Unfolded :=
  match t with
  | .aliasref name args =>
    if _ : name ∈ visited then .cycle
    else if _ : name < prog.length then
      unfoldLoop (name :: visited) (unfoldOne prog name args)
    else .type .leaf
  | t => .type t
termination_by (Finset.range prog.length \ visited.toFinset).card
decreasing_by exact unvisited_lt prog ‹name < prog.length› ‹name ∉ visited›

/-- `typealias_unfold`. -/
def typealiasUnfold (name : Nat) (args : List Ty) : Unfolded :=
  unfoldLoop prog [name] (unfoldOne prog name args)

/-! ### How an alias uses its parameters -/

/-- `typeparam_use_t`. -/
inductive Use where
  | unused
  | constructiveOnly
  | nonConstructive
  deriving DecidableEq

/-- The stronger of two uses. -/
def Use.join : Use → Use → Use
  | .nonConstructive, _ | _, .nonConstructive => .nonConstructive
  | .constructiveOnly, _ | _, .constructiveOnly => .constructiveOnly
  | .unused, .unused => .unused

mutual

/-- `typeparam_use_in_body` for the parameter `index`; `enter` is the use of a parameter in the body
of another alias. -/
def useIn (enter : List Nat → Nat → Nat → Use) (index : Nat) (visited : List Nat)
    (constructive : Bool) : Ty → Use
  | .param i =>
    if i = index then if constructive then .constructiveOnly else .nonConstructive else .unused
  | .nominal _ args => useInAll enter index visited true args
  | .aliasref name args =>
    if name ∈ visited then .unused
    else useInArgs enter index (name :: visited) constructive name 0 args
  | .arrow _ right => useIn enter index visited constructive right
  | .compound _ ts => useInAll enter index visited constructive ts
  | .leaf => .unused

def useInAll (enter : List Nat → Nat → Nat → Use) (index : Nat) (visited : List Nat)
    (constructive : Bool) : List Ty → Use
  | [] => .unused
  | t :: ts => (useIn enter index visited constructive t).join
      (useInAll enter index visited constructive ts)

/-- The loop over the arguments of an alias, the first of which is the `i`th. -/
def useInArgs (enter : List Nat → Nat → Nat → Use) (index : Nat) (visited : List Nat)
    (constructive : Bool) (name i : Nat) : List Ty → Use
  | [] => .unused
  | t :: ts =>
    let rest := useInArgs enter index visited constructive name (i + 1) ts
    match enter visited name i with
    | .unused => rest
    | .constructiveOnly => (useIn enter index visited true t).join rest
    | .nonConstructive =>
      if useIn enter index visited constructive t = .unused then rest else .nonConstructive

end

theorem Use.join_eq_unused {a b : Use} : a.join b = .unused ↔ a = .unused ∧ b = .unused := by
  cases a <;> cases b <;> decide

theorem Use.join_eq_nonConstructive {a b : Use} :
    a.join b = .nonConstructive ↔ a = .nonConstructive ∨ b = .nonConstructive := by
  cases a <;> cases b <;> decide

section
attribute [local simp] useIn useInAll useInArgs
variable {enter : List Nat → Nat → Nat → Use} {index : Nat} {visited : List Nat} {c : Bool}
  {ts : List Ty}

theorem useInAll_eq_unused : useInAll enter index visited c ts = .unused ↔
      ∀ t ∈ ts, useIn enter index visited c t = .unused := by
  induction ts with
  | nil => simp
  | cons t ts ih => simp [Use.join_eq_unused, ih]

theorem useInAll_eq_nonConstructive : useInAll enter index visited c ts = .nonConstructive ↔
      ∃ t ∈ ts, useIn enter index visited c t = .nonConstructive := by
  induction ts with
  | nil => simp
  | cons t ts ih => simp [Use.join_eq_nonConstructive, ih]

end

/-- `typeparam_use_in_body` of a definition, at most `n` definitions deep. -/
def typeparamUse : Nat → List Nat → Nat → Nat → Use
  | 0, _, _, _ => .unused
  | n + 1, visited, name, index =>
    useIn (typeparamUse n) index visited false (prog.body name)

/-! ### The reference graph -/

/-- The use of a parameter; definitions are not entered twice. -/
def useOf (name index : Nat) : Use := typeparamUse prog (prog.length + 1) [] name index

mutual

/-- `collect_edges`: the aliases that a type refers to, and whether the reference is constructive. -/
def collectEdges (constructive : Bool) : Ty → List (Nat × Bool)
  | .aliasref name args => (name, constructive) :: collectArgs constructive name 0 args
  | .nominal _ args => collectAll true args
  | .compound _ ts => collectAll constructive ts
  | .arrow _ right => collectEdges constructive right
  | .param _ | .leaf => []

def collectAll (constructive : Bool) : List Ty → List (Nat × Bool)
  | [] => []
  | t :: ts => collectEdges constructive t ++ collectAll constructive ts

def collectArgs (constructive : Bool) (name i : Nat) : List Ty → List (Nat × Bool)
  | [] => []
  | t :: ts =>
    (match useOf prog name i with
    | .unused => []
    | .constructiveOnly => collectEdges true t
    | .nonConstructive => collectEdges constructive t) ++
      collectArgs constructive name (i + 1) ts

end

/-- `all_edges`, each with its position. -/
def edges (name : Nat) : List (Nat × Bool) := collectEdges prog false (prog.body name)

/-- `all_edges`. -/
def allEdges (name : Nat) : List Nat := (edges prog name).map Prod.fst

/-- `non_constructive_edges`. -/
def nonConstructiveEdges (name : Nat) : List Nat :=
  ((edges prog name).filter fun e => !e.2).map Prod.fst

/-- `constructive_edges`. -/
def constructiveEdges (name : Nat) : List Nat :=
  ((edges prog name).filter fun e => e.2).map Prod.fst

/-- Whether at most `n` edges lead from one alias to another. -/
def reaches (next : Nat → List Nat) : Nat → Nat → Nat → Bool
  | 0, a, b => a == b
  | n + 1, a, b => a == b || (next a).any fun e => reaches next n e b

/-- Whether two aliases have one `scc_id`: each leads to the other. -/
def sameScc (a b : Nat) : Bool :=
  reaches (allEdges prog) prog.length a b && reaches (allEdges prog) prog.length b a

/-- Whether the component of an alias is a cycle. -/
def isCycleScc (a : Nat) : Bool :=
  (allEdges prog a).any fun e => reaches (allEdges prog) prog.length e a

/-- The search for a cycle of non-constructive edges, at the alias `a`. -/
def nonConsCycle (a : Nat) : Bool :=
  (nonConstructiveEdges prog a).any fun e =>
    reaches (nonConstructiveEdges prog) prog.length e a

/-- `has_intra_constructive`. -/
def hasIntraConstructive (a : Nat) : Bool :=
  (List.range prog.length).any fun b =>
    sameScc prog a b && (constructiveEdges prog b).any (sameScc prog a)

/-! ### Base cases -/

mutual

/-- `subtree_references_scc`. -/
def referencesScc (scc : Nat → Bool) : Ty → Bool
  | .aliasref name args => scc name || anyReferencesScc scc args
  | .nominal _ args => anyReferencesScc scc args
  | .compound _ ts => anyReferencesScc scc ts
  | .arrow left right => referencesScc scc left || referencesScc scc right
  | .param _ | .leaf => false

def anyReferencesScc (scc : Nat → Bool) : List Ty → Bool
  | [] => false
  | t :: ts => referencesScc scc t || anyReferencesScc scc ts

end

mutual

/-- `subtree_has_base_case_union`; `enter` looks into the body of an alias outside the component. -/
def hasBaseCaseUnion (scc enter : Nat → Bool) : Ty → Bool
  | .compound kind ts =>
    (kind == .union && ts.any fun t => !referencesScc scc t) || anyBaseCaseUnion scc enter ts
  | .aliasref name args => (!scc name && enter name) || anyBaseCaseUnion scc enter args
  | .nominal _ args => anyBaseCaseUnion scc enter args
  | .arrow left right => hasBaseCaseUnion scc enter left || hasBaseCaseUnion scc enter right
  | .param _ | .leaf => false

def anyBaseCaseUnion (scc enter : Nat → Bool) : List Ty → Bool
  | [] => false
  | t :: ts => hasBaseCaseUnion scc enter t || anyBaseCaseUnion scc enter ts

end

/-- A base case in the body of an alias, at most `n` definitions deep; a definition that is entered
twice shows nothing new. -/
def bodyHasBaseCase (scc : Nat → Bool) : Nat → Nat → Bool
  | 0, _ => false
  | n + 1, name => hasBaseCaseUnion scc (bodyHasBaseCase scc n) (prog.body name)

/-- `has_base_case`. -/
def hasBaseCase (a : Nat) : Bool :=
  (List.range prog.length).any fun b =>
    sameScc prog a b && bodyHasBaseCase prog (sameScc prog a) (prog.length + 1) b

/-- `pass_typealias_recursion`: whether the program passes `check_base_cases`. -/
def passTypealiasRecursion : Bool :=
  (List.range prog.length).all fun a => !isCycleScc prog a ||
    (!nonConsCycle prog a && hasIntraConstructive prog a && hasBaseCase prog a)

end

end SpacePony.Alias
