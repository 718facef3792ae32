import Mathlib.Logic.Function.Basic
import SpacePony.Compiler.Type.Subtype

/-!
# Type — assumptions and the cache

How a comparison is answered: `is_x_sub_x` of `type/subtype.c` with the assumption stack of
`type/type_assume.c` and the cache of `type/subtype_cache.c`.  `isAssumptionMatch` and `verdict` say
whether a comparison repeats one on the stack and what becomes of it, `fingerprintNode` and `Entry`
are the cache.
-/

namespace SpacePony.Subtype

open List

/-! ### Assumptions -/

mutual

/-- `is_assumption_match`: capabilities and ephemerality of a type are not compared, and nodes of the
kinds it does not list never match. -/
def isAssumptionMatch : Ty → Ty → Bool
  | .nominal d args _ _, .nominal d' args' _ _ => d = d' && areAssumptionMatches args args'
  | .typealiasref d args _ _, .typealiasref d' args' _ _ => d = d' && areAssumptionMatches args args'
  | .typeparamref d _ _, .typeparamref d' _ _ => d = d'
  | .uniontype ts, .uniontype us => areAssumptionMatches ts us
  | .isecttype ts, .isecttype us => areAssumptionMatches ts us
  | .tupletype ts, .tupletype us => areAssumptionMatches ts us
  | .arrow left right, .arrow left' right' =>
    isAssumptionMatch left left' && isAssumptionMatch right right'
  | .cap c, .cap c' => c = c' && c ≠ .nhb
  | .thistype, .thistype => true
  | _, _ => false

def areAssumptionMatches : List Ty → List Ty → Bool
  | [], [] => true
  | t :: ts, u :: us => isAssumptionMatch t u && areAssumptionMatches ts us
  | _, _ => false

end

/-- The comparison matches an assumption. -/
def Query.isMatch (asked assumed : Query) : Bool :=
  isAssumptionMatch asked.sub assumed.sub && isAssumptionMatch asked.super assumed.super

/-- Both types of a comparison, if they are nominal, by their definitions. -/
def Query.nominalDefs (q : Query) : Option (Nat × Nat) :=
  match q.sub, q.super with
  | .nominal d _ _ _, .nominal d' _ _ _ => some (d, d')
  | _, _ => none

def Ty.isTypealiasref : Ty → Bool
  | .typealiasref .. => true
  | _ => false

/-- The comparisons at which cycles are looked for. -/
def Query.guard (q : Query) : Bool :=
  q.sub.isTypealiasref || q.super.isTypealiasref || q.nominalDefs.isSome

def sameDefLimit : Nat := 4

/-- `type_assume_same_def_count`, for a comparison of nominal types.  The other entries of the stack
have an alias on one side, and a definition of an alias is none of a nominal type. -/
def sameDefCount (stack : List Query) (defs : Nat × Nat) : Nat :=
  stack.countP fun assumed => assumed.nominalDefs = some defs

/-- What becomes of a comparison that is not found in the cache. -/
inductive Verdict where
  /-- It is not guarded and goes on as it is. -/
  | plain
  /-- Too many comparisons of its definitions are under way. -/
  | bail
  /-- It matches the assumption at an index. -/
  | cycle (index : Nat)
  /-- It is assumed, and goes on. -/
  | enter

def verdict (stack : List Query) (q : Query) : Verdict :=
  if !q.guard then .plain
  else if q.nominalDefs.any fun defs => sameDefLimit ≤ sameDefCount stack defs then .bail
  else
    match stack.findIdx? fun assumed => q.isMatch assumed with
    | some index => .cycle index
    | none => .enter

/-- The stack during the comparison. -/
def Verdict.push : Verdict → List Query → Query → List Query
  | .enter, stack, q => stack ++ [q]
  | _, stack, _ => stack

/-! ### The cache -/

/-- The kinds of nodes that a fingerprint tells apart. -/
inductive NodeId where
  | nominal | typealiasref | typeparamref | uniontype | isecttype | tupletype | arrow
  | dontcaretype | funtype | infertype | errortype | entitytype (kind : EntityType)
  | boolSingleton (b : Bool) | valueformalparamref | valueformalparam | valueformalarg
  | cap (c : Cap) | thistype
  deriving DecidableEq

/-- What is appended to a fingerprint. -/
inductive Word where
  | id (node : NodeId)
  | ptr (defn : Nat)
  | cap (c : Option Cap)
  | eph (e : Eph)
  | count (n : Nat)
  | checkCap (m : CheckCap)
  deriving DecidableEq

mutual

def fingerprintNode : Ty → List Word
  | .nominal d args cap eph =>
    [.id .nominal, .ptr d, .cap (some cap), .eph eph, .count args.length] ++ fingerprintAll args
  | .typealiasref d args cap eph =>
    [.id .typealiasref, .ptr d, .cap cap, .eph eph, .count args.length] ++ fingerprintAll args
  | .typeparamref d cap eph => [.id .typeparamref, .ptr d, .cap (some cap), .eph eph]
  | .uniontype ts => [.id .uniontype, .count ts.length] ++ fingerprintAll ts
  | .isecttype ts => [.id .isecttype, .count ts.length] ++ fingerprintAll ts
  | .tupletype ts => [.id .tupletype, .count ts.length] ++ fingerprintAll ts
  | .arrow left right => [.id .arrow] ++ fingerprintNode left ++ fingerprintNode right
  | .dontcaretype => [.id .dontcaretype]
  | .funtype => [.id .funtype]
  | .infertype => [.id .infertype]
  | .errortype => [.id .errortype]
  | .entitytype kind => [.id (.entitytype kind)]
  | .boolSingleton b => [.id (.boolSingleton b)]
  | .valueformalparamref _ => [.id .valueformalparamref]
  | .valueformalparam _ => [.id .valueformalparam]
  | .valueformalarg _ => [.id .valueformalarg]
  | .cap c => [.id (.cap c)]
  | .thistype => [.id .thistype]

def fingerprintAll : List Ty → List Word
  | [] => []
  | t :: ts => fingerprintNode t ++ fingerprintAll ts

end

/-- `build_fingerprint`. -/
def buildFingerprint (q : Query) : List Word :=
  fingerprintNode q.sub ++ fingerprintNode q.super ++ [.checkCap q.checkCap]

inductive CacheKind where
  | unconditional
  | dependsOnTopLevel
  deriving DecidableEq

/-- An entry of the cache, together with the comparison that it was recorded for and the stack at
that time, which the cache of the source does not keep. -/
structure Entry where
  result : Bool
  kind : CacheKind
  query : Query
  stack : List Query

/-! ### Answering a comparison -/

/-- What happens while a comparison is answered. -/
inductive Event where
  /-- `is_x_sub_x_impl` is called. -/
  | compare (errorf : Bool) (q : Query)
  /-- A comparison is answered by an assumption. -/
  | cycle (assumed asked : Query)
  /-- A comparison under a stack is answered from the cache. -/
  | reuse (entry : Entry) (asked : Query) (stack : List Query)
  /-- An entry is recorded, after cycles to these indices. -/
  | record (entry : Entry) (hits : List Nat)

/-- The state of one thread: the stack, the cache and the two accumulators, where `none` stands for
`INT_MAX`.  The indices of the cycles and the events are a record only. -/
structure State where
  stack : List Query
  cache : List Word → Option Entry
  minMatchIdx : Option Nat
  subtreePoisoned : Bool
  hits : List Nat
  log : List Event

namespace State

/-- Between two comparisons from outside the stack is empty; the rest is whatever the last one
left. -/
def idle (cache : List Word → Option Entry) (minMatchIdx : Option Nat) (subtreePoisoned : Bool) :
    State :=
  ⟨[], cache, minMatchIdx, subtreePoisoned, [], []⟩

/-- `subtype_cache_clear`, when the stack is empty. -/
def clear (s : State) : State :=
  if s.stack.isEmpty then
    { s with cache := fun _ => none, minMatchIdx := none, subtreePoisoned := false, hits := [] }
  else s

/-- `subtype_cache_lookup` with the conditions under which its answer is used. -/
def lookup (s : State) (errorf : Bool) (q : Query) : Option Entry :=
  if errorf then none
  else (s.cache (buildFingerprint q)).filter fun entry =>
    entry.kind = .unconditional || !s.stack.isEmpty

/-- A comparison is answered by an entry; that it depends on the lowest assumption is passed on. -/
def reuse (s : State) (entry : Entry) (q : Query) : State :=
  let s := { s with log := s.log ++ [.reuse entry q s.stack] }
  if entry.kind = .dependsOnTopLevel then { s with minMatchIdx := some 0, hits := s.hits ++ [0] }
  else s

/-- The smaller of two indices, one of which may be `INT_MAX`. -/
def minIdx : Option Nat → Option Nat → Option Nat
  | none, i => i
  | i, none => i
  | some i, some j => some (min i j)

/-- A comparison is answered by the assumption at an index. -/
def cycle (s : State) (index : Nat) (q : Query) : State :=
  { s with
    minMatchIdx := minIdx s.minMatchIdx (some index)
    hits := s.hits ++ [index]
    log := s.log ++ ((s.stack[index]?).map fun assumed => .cycle assumed q).toList }

def poison (s : State) : State := { s with subtreePoisoned := true }

/-- A comparison goes on under a stack, with fresh accumulators. -/
def descend (s : State) (stack : List Query) (errorf : Bool) (q : Query) : State :=
  { s with
    stack := stack
    minMatchIdx := none
    subtreePoisoned := false
    hits := []
    log := s.log ++ [.compare errorf q] }

/-- The entry that is recorded for a comparison, by the accumulators that it ends with. -/
def newEntry (s : State) (errorf : Bool) (q : Query) (r : Outcome) (t : State) : Option Entry :=
  match r with
  | .answer result =>
    if errorf || t.subtreePoisoned then none
    else if t.minMatchIdx.all fun i => s.stack.length ≤ i then
      some ⟨result, .unconditional, q, s.stack⟩
    else if t.minMatchIdx = some 0 then some ⟨result, .dependsOnTopLevel, q, s.stack⟩
    else none
  | _ => none

/-- The state after a comparison that began in `s` and ended in `t`. -/
def leave (s : State) (errorf : Bool) (q : Query) (r : Outcome) (t : State) : State where
  stack := s.stack
  cache :=
    match newEntry s errorf q r t with
    | some entry => Function.update t.cache (buildFingerprint q) (some entry)
    | none => t.cache
  minMatchIdx := minIdx s.minMatchIdx t.minMatchIdx
  subtreePoisoned := s.subtreePoisoned || t.subtreePoisoned
  hits := s.hits ++ t.hits
  log := t.log ++ ((newEntry s errorf q r t).map fun entry => .record entry t.hits).toList

end State

variable (P : Program)

/-- `is_x_sub_x`, under a bound on its depth. -/
def isXSubXCached : Nat → Bool × Query → State → Outcome × State
  | 0, _, s => (.timeout, s)
  | n + 1, (errorf, q), s =>
    let s := s.clear
    match s.lookup errorf q with
    | some entry => (.answer entry.result, s.reuse entry q)
    | none =>
      match verdict s.stack q with
      | .bail => (.answer false, s.poison)
      | .cycle index => (.answer true, s.cycle index q)
      | v =>
        let inner := (isXSubXImpl P errorf q).run (isXSubXCached n) (expandTupleUnions P n)
          (s.descend (v.push s.stack q) errorf q)
        (inner.1, s.leave errorf q inner.1 inner.2)

/-- The same recursion without lookups and without insertions. -/
def isXSubXUncached : Nat → List Query → Bool × Query → Outcome
  | 0, _, _ => .timeout
  | n + 1, stack, (errorf, q) =>
    match verdict stack q with
    | .bail => .answer false
    | .cycle _ => .answer true
    | v => (isXSubXImpl P errorf q).eval (isXSubXUncached n (v.push stack q))
        (expandTupleUnions P n)

/-! ### What a comparison leaves alone -/

variable {P}

/-- The assumptions at some indices. -/
def assumed (stack : List Query) (hits : List Nat) : Set Query :=
  { q | ∃ i ∈ hits, stack[i]? = some q }

theorem assumed_mono {stack : List Query} {hits hits' : List Nat} (h : hits ⊆ hits') :
    assumed stack hits ⊆ assumed stack hits' := by
  rintro q ⟨i, hi, hq⟩
  exact ⟨i, h hi, hq⟩

/-- The state `s'` has the stack of `s`, and at least its events and its cycles. -/
structure State.Extends (s s' : State) : Prop where
  stack : s'.stack = s.stack
  log : s.log ⊆ s'.log
  hits : assumed s.stack s.hits ⊆ assumed s'.stack s'.hits

namespace State

theorem Extends.refl (s : State) : s.Extends s := ⟨rfl, List.Subset.refl _, subset_rfl⟩

theorem Extends.trans {a b c : State} (hab : a.Extends b) (hbc : b.Extends c) : a.Extends c :=
  ⟨hbc.stack.trans hab.stack, List.Subset.trans hab.log hbc.log, hab.hits.trans hbc.hits⟩

theorem clear_stack (s : State) : s.clear.stack = s.stack := by
  unfold clear
  split <;> rfl

theorem clear_log (s : State) : s.clear.log = s.log := by
  unfold clear
  split <;> rfl

variable {s : State} {errorf : Bool} {q : Query} {entry : Entry}

theorem clear_eq_self (h : s.stack ≠ []) : s.clear = s := by
  unfold clear
  split
  · rename_i hempty
    exact absurd (isEmpty_iff.1 hempty) h
  · rfl

theorem extends_clear (s : State) : s.Extends s.clear where
  stack := clear_stack s
  log := by rw [clear_log]; exact List.Subset.refl _
  hits := by
    by_cases h : s.stack = []
    · rintro q ⟨i, -, hi⟩
      simp [h] at hi
    · rw [clear_eq_self h]

theorem extends_reuse (s : State) (entry : Entry) (q : Query) : s.Extends (s.reuse entry q) := by
  unfold reuse
  split
  · exact ⟨rfl, subset_append_left .., assumed_mono (subset_append_left ..)⟩
  · exact ⟨rfl, subset_append_left .., subset_rfl⟩

theorem extends_cycle (s : State) (index : Nat) (q : Query) : s.Extends (s.cycle index q) :=
  ⟨rfl, subset_append_left .., assumed_mono (subset_append_left ..)⟩

theorem extends_poison (s : State) : s.Extends s.poison :=
  ⟨rfl, List.Subset.refl _, subset_rfl⟩

theorem extends_leave {t : State} {r : Outcome} {stack : List Query}
    (h : (s.descend stack errorf q).Extends t) : s.Extends (s.leave errorf q r t) where
  stack := rfl
  log := fun _ hev => mem_append_left _ (h.log (mem_append_left _ hev))
  hits := assumed_mono (subset_append_left ..)

theorem lookup_some (h : s.lookup errorf q = some entry) :
    errorf = false ∧ s.cache (buildFingerprint q) = some entry := by
  unfold lookup at h
  split at h
  · cases h
  · rename_i herrorf
    exact ⟨Bool.eq_false_iff.2 herrorf, (Option.filter_eq_some_iff.1 h).1⟩

@[simp] theorem reuse_cache (s : State) (entry : Entry) (q : Query) :
    (s.reuse entry q).cache = s.cache := by
  unfold reuse
  split <;> rfl

theorem mem_reuse_log (s : State) (entry : Entry) (q : Query) :
    .reuse entry q s.stack ∈ (s.reuse entry q).log := by
  unfold reuse
  split <;> exact mem_append_right _ (.head _)

/-- What is recorded is the answer to the comparison. -/
theorem newEntry_some {t : State} {r : Outcome} (h : newEntry s errorf q r t = some entry) :
    errorf = false ∧ r = .answer entry.result ∧ entry.query = q ∧ entry.stack = s.stack := by
  unfold newEntry at h
  split at h
  · split at h
    · cases h
    rename_i hnot
    obtain ⟨herrorf, -⟩ := not_or.1 (mt Bool.or_eq_true_iff.2 hnot)
    have herrorf := Bool.eq_false_iff.2 herrorf
    split at h
    · cases h
      exact ⟨herrorf, rfl, rfl, rfl⟩
    split at h
    · cases h
      exact ⟨herrorf, rfl, rfl, rfl⟩
    · cases h
  · cases h

/-- An entry after a comparison was there before its end, or is the one that it records. -/
theorem leave_cache {t : State} {r : Outcome} {k : List Word}
    (h : (s.leave errorf q r t).cache k = some entry) :
    t.cache k = some entry ∨ k = buildFingerprint q ∧ newEntry s errorf q r t = some entry := by
  unfold leave at h
  cases hnew : newEntry s errorf q r t with
  | none =>
    simp only [hnew] at h
    exact .inl h
  | some new =>
    simp only [hnew] at h
    by_cases hk : k = buildFingerprint q
    · rw [hk, Function.update_self] at h
      exact .inr ⟨hk, h⟩
    · rw [Function.update_of_ne hk] at h
      exact .inl h

end State

/-- **A comparison only adds** to the events and the cycles, and leaves the stack as it was. -/
theorem isXSubXCached_extends (n : Nat) (eq : Bool × Query) (s : State) :
    s.Extends (isXSubXCached P n eq s).2 := by
  induction n generalizing eq s with
  | zero => exact .refl s
  | succ n ih =>
    obtain ⟨errorf, q⟩ := eq
    have hdescend := fun (stack : List Query) =>
      (isXSubXImpl P errorf q).run_rel (f := expandTupleUnions P n) State.Extends.refl
        (fun hab hbc => hab.trans hbc) ih (s.clear.descend stack errorf q)
    refine (State.extends_clear s).trans ?_
    simp only [isXSubXCached]
    cases s.clear.lookup errorf q with
    | some entry => exact State.extends_reuse ..
    | none =>
      cases verdict s.clear.stack q with
      | bail => exact State.extends_poison _
      | cycle index => exact State.extends_cycle ..
      | plain | enter => exact State.extends_leave (hdescend _)

/-! ### A program to try it on -/

/-- A program of classes without members. -/
def blank : Program where
  kind _ := .class
  bare _ := false
  nosupertype _ := false
  traitsDone _ := true
  isBool _ := false
  members _ := []
  get _ _ := none
  reifyMethodDef _ _ m := m
  reifyWith m _ := m
  traits _ _ := []
  valueParamType _ _ := .nominal 9 [] .val .none
  refType _ := none
  nameType _ := none
  valueType _ := none
  typealiasUnfold _ _ _ _ := .null
  typeparamConstraint _ := none
  typeparamLower _ _ _ := none
  typeparamUpper _ _ _ := none
  typeparamRoot d := d
  viewpointLower _ _ := none
  viewpointUpper _ _ := none
  viewpointReifytypeparam _ _ := none
  viewpointReifypair _ _ := none
  consumeType p := some p

/-- A method `fun box f(): T`. -/
def getter (result : Ty) : Method := ⟨.fun, some .box, 0, [], [], ⟨result, false⟩, false⟩

/-- The program with these kinds of definitions, each of which may have a method of name `0`. -/
def blankWith (kind : Nat → Entity) (method : Nat → Option Method) : Program :=
  { blank with kind := kind, members := fun d => (method d).toList, get := fun d _ => method d }

/-- A type without arguments. -/
def plainType (d : Nat) (cap : Cap) : Ty := .nominal d [] cap .none

end SpacePony.Subtype
