import SpacePony.Compiler.Ctfe.Abrupt

/-!
# Compiler — assignment at compile time and in compiled code

`evaluate` takes the left side of an assignment for its value, then the right side, and then walks
the left side again to store.  `gen_assign` takes the right side first.  The runner does as both
exactly when no target is a field and the right side completes normally and leaves the targets as
they were (`assign_agrees_iff`).
-/

namespace SpacePony.Runner

open List Nat

/-! ### Targets -/

/-- What can stand on the left of an assignment, with its receivers. -/
inductive Target (ρ : Type) where
  /-- `TK_VAR` and `TK_LET`. -/
  | decl (name : String)
  /-- `TK_VARREF`. -/
  | ref (name : String)
  /-- `TK_DONTCAREREF`. -/
  | dontcare (type : Option Ty)
  /-- `TK_FVARREF` and `TK_FLETREF`. -/
  | field (receiver : ρ) (name : String)
  | tuple (elems : List (Target ρ)) (type : Ty)

namespace Target

variable {ρ : Type}

/-- Induction over targets and lists of targets. -/
theorem induct {P : Target ρ → Prop} {Q : List (Target ρ) → Prop} (decl : ∀ name, P (.decl name))
    (ref : ∀ name, P (.ref name)) (dontcare : ∀ type, P (.dontcare type))
    (field : ∀ receiver name, P (.field receiver name))
    (tuple : ∀ elems type, Q elems → P (.tuple elems type)) (nil : Q [])
    (cons : ∀ t ts, P t → Q ts → Q (t :: ts)) : (∀ t, P t) ∧ ∀ ts, Q ts :=
  ⟨@Target.rec ρ P Q decl ref dontcare field tuple nil cons,
    @Target.rec_1 ρ P Q decl ref dontcare field tuple nil cons⟩

mutual

/-- The expression of a target; the parser makes each element of a tuple a sequence. -/
def expr : Target Expr → Expr
  | .decl name => .decl name
  | .ref name => .ref name
  | .dontcare type => .dontcareref type
  | .field receiver name => .field receiver name
  | .tuple elems type => .tuple (exprs elems) type

def exprs : List (Target Expr) → List Expr
  | [] => []
  | t :: ts => .seq [t.expr] :: exprs ts

end

mutual

/-- Whether a field is among the targets. -/
def hasField : Target ρ → Bool
  | .decl _ | .ref _ | .dontcare _ => false
  | .field _ _ => true
  | .tuple elems _ => anyField elems

def anyField : List (Target ρ) → Bool
  | [] => false
  | t :: ts => t.hasField || anyField ts

end

mutual

/-- How deep tuples are nested. -/
def depth : Target ρ → Nat
  | .tuple elems _ => depths elems + 1
  | _ => 1

def depths : List (Target ρ) → Nat
  | [] => 0
  | t :: ts => max t.depth (depths ts)

end

/-- A new local without a value, in the current frame. -/
def declareLocal (name : String) (s : State) : State :=
  match s.frames with
  | [] => s
  | f :: rest =>
    { s with frames := (fun x => if x = name then some .empty else f x) :: rest }

mutual

/-- The locals that the targets declare. -/
def declare : Target ρ → State → State
  | .decl name, s => declareLocal name s
  | .ref _, s | .dontcare _, s | .field _ _, s => s
  | .tuple elems _, s => declareAll elems s

def declareAll : List (Target ρ) → State → State
  | [], s => s
  | t :: ts, s => declareAll ts (t.declare s)

end

/-! ### The right side first -/

mutual

/-- Each receiver once, in order. -/
def resolve : Target Expr → M (Target Value)
  | .decl name => return .decl name
  | .ref name => return .ref name
  | .dontcare type => return .dontcare type
  | .field receiver name => return .field (← eval .target receiver) name
  | .tuple elems type => return .tuple (← resolveAll elems) type

def resolveAll : List (Target Expr) → M (List (Target Value))
  | [] => return []
  | t :: ts => return (← t.resolve) :: (← resolveAll ts)

end

/-- The value of a local. -/
def getLocal (name : String) : M Value :=
  getVariable name ("Symbol '" ++ name ++ "' was not found because it was not previously created")

mutual

/-- The values of the targets. -/
def read : Target Value → M Value
  | .decl name | .ref name => getLocal name
  | .dontcare type => return .ofType type
  | .field receiver name => readField receiver name
  | .tuple elems type => return .mk (some type) .none (.tuple (← readAll elems))

def readAll : List (Target Value) → M (List Value)
  | [] => return []
  | t :: ts => return (← t.read) :: (← readAll ts)

end

mutual

/-- The components of a value to the targets. -/
def store : Target Value → Value → M Unit
  | .decl name, v | .ref name, v => assignLocal name v
  | .dontcare _, _ => return
  | .field receiver name, v => assignField receiver name v
  | .tuple elems _, v => do
      assert (← v.getType).isTuple
      storeAll elems (← v.getTuple)

def storeAll : List (Target Value) → List Value → M Unit
  | [], _ => return
  | _ :: _, [] => fail .assertion
  | t :: ts, v :: vs => do
      t.store v
      storeAll ts vs

end

/-- The right side first, then each receiver once, then the values that the targets have, and then
the store.  Space for declared locals is there from the start; nothing is stored where the right side
completes abruptly. -/
def assignOnce (t : Target Expr) (right : Expr) : M Value := do
  modify t.declare
  let rightValue ← eval .right right
  if rightValue.ctrlFlow = .none then
    let places ← t.resolve
    let old ← places.read
    places.store rightValue
    return old
  else return rightValue

/-! ### What codegen makes -/

mutual

/-- `gen_expr` of a target, after `gen_localdecl`. -/
def genExpr : Target Expr → M Value
  | .decl name | .ref name => getLocal name
  | .dontcare type => return .ofType type
  | .field receiver name => do readField (← eval .receiver receiver) name
  | .tuple elems type => return .mk (some type) .none (.tuple (← genExprs elems))

/-- The loop of `gen_tuple`. -/
def genExprs : List (Target Expr) → M (List Value)
  | [] => return []
  | t :: ts => return (← t.genExpr) :: (← genExprs ts)

end

mutual

/-- `assign_rvalue`.  Nobody can use the value of an assignment to `_`. -/
def assignRvalue : Target Expr → Value → M Value
  | .decl name, v | .ref name, v => do
      let old ← getLocal name
      assignLocal name v
      return old
  | .dontcare type, _ => return .ofType type
  | .field receiver name, v => do
      let evaluatedReceiver ← eval .target receiver
      let old ← readField evaluatedReceiver name
      assignField evaluatedReceiver name v
      return old
  | .tuple elems type, v => do
      let old ← genExprs elems
      assert (← v.getType).isTuple
      assignTuple elems (← v.getTuple)
      return .mk (some type) .none (.tuple old)

/-- `assign_tuple`. -/
def assignTuple : List (Target Expr) → List Value → M Unit
  | [], _ => return
  | _ :: _, [] => fail .assertion
  | t :: ts, v :: vs => do
      let _ ← t.assignRvalue v
      assignTuple ts vs

end

/-- `gen_assign`.  `gen_localdecl` makes the space for declared locals in the entry block of the
function. -/
def genAssign (t : Target Expr) (right : Expr) : M Value := do
  modify t.declare
  let rightValue ← eval .right right
  if rightValue.ctrlFlow = .none then t.assignRvalue rightValue else return rightValue

/-! ### The locals of a target -/

mutual

/-- The values of the targets in the frames. -/
def valueIn : Target ρ → Frames → Option Value
  | .decl name, fs | .ref name, fs => fs.getValue name
  | .dontcare type, _ => some (.ofType type)
  | .field _ _, _ => none
  | .tuple elems type, fs => (valuesIn elems fs).map fun vs => .mk (some type) .none (.tuple vs)

def valuesIn : List (Target ρ) → Frames → Option (List Value)
  | [], _ => some []
  | t :: ts, fs => (t.valueIn fs).bind fun v => (valuesIn ts fs).map (v :: ·)

end

/-- The elements of a tuple. -/
def elemsOf : Value → Option (List Value)
  | .mk (some (.tuple _)) _ (.tuple vs) => some vs
  | _ => none

mutual

/-- The frames with the components of a value in the targets. -/
def storeIn : Target ρ → Value → Frames → Option Frames
  | .decl name, v, fs | .ref name, v, fs => fs.updateValue name v
  | .dontcare _, _, fs => some fs
  | .field _ _, _, _ => none
  | .tuple elems _, v, fs => (elemsOf v).bind fun vs => storesIn elems vs fs

def storesIn : List (Target ρ) → List Value → Frames → Option Frames
  | [], _, fs => some fs
  | _ :: _, [], _ => none
  | t :: ts, v :: vs, fs => (t.storeIn v fs).bind fun fs' => storesIn ts vs fs'

end

end Target

/-! ### What a run evaluates, and how it ends -/

/-- A right side or a receiver. -/
inductive Visit where
  | right (e : Expr)
  | receiver (e : Expr)

/-- The right sides and receivers that the run of an assignment evaluates, in order; the elements of
a tuple on the left are looked into. -/
def visits : Record → List Visit
  | .stop _ => []
  | .call job _ own rest =>
    (match job with
    | .evaluate .left _ | .evaluate .element _ | .evaluate .item _ => visits own
    | .evaluate .right e => [.right e]
    | .evaluate .receiver e | .evaluate .target e => [.receiver e]
    | _ => []) ++ visits rest

/-- The value and the state that a run ends with, if it does not fail. -/
def result (record : Record) : Option (Value × State) :=
  match record.ending with
  | .done v s => some (v, s)
  | .failed _ => none

/-- The runner evaluates the right side and the receivers, stores and ends as `assignOnce` does, and
ends as compiled code does. -/
def AssignsAsCompiled (P : Program) (n : Nat) (role : Role) (t : Target Expr) (right : Expr)
    (s : State) : Prop :=
  let run := evaluate P (n + 1) (.evaluate role (.assign t.expr right)) s
  let once := drive (evaluate P n) (t.assignOnce right s)
  let compiled := drive (evaluate P n) (t.genAssign right s)
  visits run = visits once ∧ result run = result once ∧ result run = result compiled

/-- No target is a field, the left side has a value, and the right side completes normally and leaves
the targets with the values they had.  (Where it completes abruptly, the target already holds the
very value that it completes with.) -/
def Undisturbed (P : Program) (n : Nat) (t : Target Expr) (right : Expr) (s : State) : Prop :=
  t.hasField = false ∧ ∃ l s₁, (evaluate P n (.evaluate .left t.expr) s).ending = .done l s₁ ∧
    ∀ r s₂, (evaluate P n (.evaluate .right right) s₁).ending = .done r s₂ →
      if r.ctrlFlow = .none then
        (t.storeIn r s₂.frames).isSome = true → t.valueIn s₂.frames = some l
      else r = l ∧ t.storeIn r s₂.frames = some s₂.frames

/-! ### Frames -/

theorem Frame.updateValue_isSome (f : Frame) (x : String) (v : Value) :
    (f.updateValue x v).isSome = (f x).isSome := by
  rw [Frame.updateValue]
  split
  · next h => rw [h]; rfl
  · next h => simpa using h

theorem Frames.getValue_cons (f : Frame) (fs : Frames) (x : String) :
    Frames.getValue (f :: fs) x = (f x).or (Frames.getValue fs x) := by
  simp only [Frames.getValue, findSome?_cons]
  cases f x <;> rfl

/-- A store goes through where there is a value to replace. -/
theorem Frames.updateValue_isSome (fs : Frames) (x : String) (v : Value) :
    (fs.updateValue x v).isSome = (fs.getValue x).isSome := by
  induction fs with
  | nil => rfl
  | cons f fs ih =>
    rw [Frames.getValue_cons, Frames.updateValue]
    have hf := f.updateValue_isSome x v
    cases hu : f.updateValue x v with
    | some f' =>
      rw [hu] at hf
      cases hx : f x with
      | some w => rfl
      | none => rw [hx] at hf; cases hf
    | none =>
      rw [hu] at hf
      cases hx : f x with
      | some w => rw [hx] at hf; cases hf
      | none => simpa using ih

/-- The frames have the same names. -/
def SameNames (fs fs' : Frames) : Prop := ∀ x, (fs'.getValue x).isSome = (fs.getValue x).isSome

theorem Frames.updateValue_sameNames {fs fs' : Frames} {x : String} {v : Value}
    (h : fs.updateValue x v = some fs') : SameNames fs fs' := by
  induction fs generalizing fs' with
  | nil => cases h
  | cons f fs ih =>
    intro y
    rw [Frames.updateValue] at h
    cases hu : f.updateValue x v with
    | some f' =>
      rw [hu] at h
      cases h
      rw [Frames.getValue_cons, Frames.getValue_cons]
      rw [Frame.updateValue] at hu
      split at hu
      case isTrue hx =>
        cases hu
        by_cases hy : y = x
        · rw [hy]
          simp [hx]
        · simp [hy]
      case isFalse => cases hu
    | none =>
      simp only [hu, Option.map_eq_some_iff] at h
      obtain ⟨fs'', hfs, rfl⟩ := h
      rw [Frames.getValue_cons, Frames.getValue_cons]
      have := ih hfs y
      cases f y with
      | some w => rfl
      | none => simpa using this

/-! ### Computations that ask for nothing -/

/-- The computation asks for nothing and does what `g` does. -/
def Settles {α : Type} (x : M α) (g : State → Option (α × State)) : Prop :=
  ∀ s, (∃ a, g s = some a ∧ x s = .done a) ∨ g s = none ∧ ∃ f, x s = .fail f

namespace Settles

variable {α β : Type}

theorem pure (a : α) : Settles (pure a : M α) fun s => some (a, s) := fun _ => .inl ⟨_, rfl, rfl⟩

theorem fail (f : Failure) : Settles (fail f : M α) fun _ => none := fun _ => .inr ⟨rfl, f, rfl⟩

theorem congr {x : M α} {g g' : State → Option (α × State)} (hx : Settles x g)
    (h : ∀ s, g s = g' s) : Settles x g' := by
  have : g = g' := funext h
  exact this ▸ hx

theorem bind {x : M α} {f : α → M β} {g : State → Option (α × State)}
    {g' : α → State → Option (β × State)} (hx : Settles x g) (hf : ∀ a, Settles (f a) (g' a)) :
    Settles (x >>= f) fun s => (g s).bind fun a => g' a.1 a.2 := by
  intro s
  have hbind : (x >>= f) s = (x s).bind fun a => f a.1 a.2 := rfl
  simp only [hbind]
  rcases hx s with ⟨a, ha, h⟩ | ⟨hn, e, h⟩
  · rw [h, ha]
    exact hf a.1 a.2
  · rw [h, hn]
    exact .inr ⟨rfl, e, rfl⟩

/-- A computation that asks for nothing is not visible. -/
theorem drive {x : M Value} {g : State → Option (Value × State)} (hx : Settles x g)
    (ev : Job → State → Record) (s : State) :
    visits (drive ev (x s)) = [] ∧ result (drive ev (x s)) = g s := by
  rcases hx s with ⟨a, ha, h⟩ | ⟨hn, e, h⟩
  · rw [h, ha]
    exact ⟨rfl, rfl⟩
  · rw [h, hn]
    exact ⟨rfl, rfl⟩

theorem getLocal (name : String) :
    Settles (Target.getLocal name) fun s => (s.frames.getValue name).map fun v => (v, s) := by
  intro s
  rw [Target.getLocal, getVariable, get_bind_apply]
  dsimp only
  cases s.frames.getValue name with
  | some v => exact .inl ⟨_, rfl, rfl⟩
  | none => exact .inr ⟨rfl, _, rfl⟩

/-- The state with other frames. -/
theorem assignLocal (name : String) (v : Value) : Settles (assignLocal name v) fun s =>
    (s.frames.updateValue name v).map fun fs => ((), { s with frames := fs }) := by
  intro s
  rw [Runner.assignLocal, get_bind_apply]
  dsimp only
  cases s.frames.updateValue name v with
  | some fs => exact .inl ⟨_, rfl, rfl⟩
  | none => exact .inr ⟨rfl, _, rfl⟩

/-- Taking a tuple apart. -/
theorem elemsOf {f : List Value → M α} {g : List Value → State → Option (α × State)} (v : Value)
    (hf : ∀ vs, Settles (f vs) (g vs)) :
    Settles (v.getType >>= fun type => assert type.isTuple >>= fun _ => v.getTuple >>= f)
      fun s => (Target.elemsOf v).bind fun vs => g vs s := by
  obtain ⟨type, m, val⟩ := v
  cases type with
  | none => exact fun s => .inr ⟨rfl, _, rfl⟩
  | some type =>
    cases type with
    | tuple types =>
      cases val with
      | tuple vs => exact hf vs
      | _ => exact fun s => .inr ⟨rfl, _, rfl⟩
    | _ => exact fun s => .inr ⟨rfl, _, rfl⟩

end Settles

namespace Target

variable {ρ : Type}

/-! ### Targets without fields -/

/-- Storing keeps the names. -/
theorem storeIn_sameNames : (∀ (t : Target ρ) v fs fs', t.storeIn v fs = some fs' →
      SameNames fs fs') ∧
    ∀ (ts : List (Target ρ)) vs fs fs', storesIn ts vs fs = some fs' → SameNames fs fs' := by
  refine induct ?decl ?ref ?dontcare ?field ?tuple ?nil ?cons
  case decl | ref => exact fun name v fs fs' => Frames.updateValue_sameNames
  case dontcare =>
    rintro type v fs fs' ⟨⟩ x
    rfl
  case field => exact nofun
  case tuple =>
    intro elems type ih v fs fs' h
    obtain ⟨vs, -, h⟩ := Option.bind_eq_some_iff.1 h
    exact ih vs fs fs' h
  case nil =>
    rintro vs fs fs' ⟨⟩ x
    rfl
  case cons =>
    intro t ts iht ihts vs fs fs' h
    cases vs with
    | nil => cases h
    | cons v vs =>
      obtain ⟨fs'', h₁, h₂⟩ := Option.bind_eq_some_iff.1 h
      intro x
      rw [ihts vs fs'' fs' h₂ x, iht v fs fs'' h₁ x]

/-- Whether the targets have values depends on the names only. -/
theorem valueIn_isSome {fs fs' : Frames} (h : SameNames fs fs') :
    (∀ t : Target ρ, (t.valueIn fs').isSome = (t.valueIn fs).isSome) ∧
      ∀ ts : List (Target ρ), (valuesIn ts fs').isSome = (valuesIn ts fs).isSome := by
  refine induct ?decl ?ref ?dontcare ?field ?tuple ?nil ?cons
  case decl | ref => exact h
  case dontcare => exact fun _ => rfl
  case field => exact fun _ _ => rfl
  case tuple =>
    intro elems type ih
    simpa [valueIn] using ih
  case nil => rfl
  case cons =>
    intro t ts iht ihts
    simp only [valuesIn]
    cases h₁ : t.valueIn fs <;> cases h₂ : t.valueIn fs' <;> simp_all

/-- Where a store goes through there are values to replace. -/
theorem valueIn_of_storeIn : (∀ (t : Target ρ) v fs fs', t.storeIn v fs = some fs' →
      (t.valueIn fs).isSome = true) ∧
    ∀ (ts : List (Target ρ)) vs fs fs', storesIn ts vs fs = some fs' →
      (valuesIn ts fs).isSome = true := by
  have hlocal : ∀ (name : String) (v : Value) (fs fs' : Frames), fs.updateValue name v = some fs' →
      (fs.getValue name).isSome = true := by
    intro name v fs fs' h
    rw [← fs.updateValue_isSome name v, h]
    rfl
  refine induct ?decl ?ref ?dontcare ?field ?tuple ?nil ?cons
  case decl | ref => exact hlocal
  case dontcare => exact fun _ _ _ _ _ => rfl
  case field => exact nofun
  case tuple =>
    intro elems type ih v fs fs' h
    obtain ⟨vs, -, h⟩ := Option.bind_eq_some_iff.1 h
    simpa [valueIn] using ih vs fs fs' h
  case nil => exact fun _ _ _ _ => rfl
  case cons =>
    intro t ts iht ihts vs fs fs' h
    cases vs with
    | nil => cases h
    | cons v vs =>
      obtain ⟨fs'', h₁, h₂⟩ := Option.bind_eq_some_iff.1 h
      have ht := iht v fs fs'' h₁
      have hts := ihts vs fs'' fs' h₂
      -- the first store keeps the names that the others look for
      rw [(valueIn_isSome (storeIn_sameNames.1 t v fs fs'' h₁)).2 ts] at hts
      obtain ⟨w, hw⟩ := Option.isSome_iff_exists.1 ht
      obtain ⟨ws, hws⟩ := Option.isSome_iff_exists.1 hts
      simp [valuesIn, hw, hws]

theorem anyField_cons {t : Target ρ} {ts : List (Target ρ)} (h : anyField (t :: ts) = false) :
    t.hasField = false ∧ anyField ts = false := by
  simpa [anyField] using h

/-- The value of the targets, in a state. -/
def look {α : Type} (g : Frames → Option α) (s : State) : Option (α × State) :=
  (g s.frames).map fun a => (a, s)

/-- The state with the frames of a store. -/
def put (g : Frames → Option Frames) (s : State) : Option (Unit × State) :=
  (g s.frames).map fun fs => ((), { s with frames := fs })

theorem look_tuple (ts : List (Target ρ)) (type : Ty) (s : State) :
    ((look (valuesIn ts) s).bind fun a => some (Value.mk (some type) .none (.tuple a.1), a.2)) =
      look (valueIn (.tuple ts type)) s := by
  simp only [look, valueIn]
  cases valuesIn ts s.frames <;> rfl

theorem look_cons (t : Target ρ) (ts : List (Target ρ)) (s : State) :
    ((look t.valueIn s).bind fun a => (look (valuesIn ts) a.2).bind fun b =>
      some (a.1 :: b.1, b.2)) = look (valuesIn (t :: ts)) s := by
  simp only [look, valuesIn]
  cases t.valueIn s.frames with
  | none => rfl
  | some v => cases h : valuesIn ts s.frames <;> simp [h]

theorem genExpr_settles : (∀ t : Target Expr, t.hasField = false →
      Settles t.genExpr (look t.valueIn)) ∧
    ∀ ts : List (Target Expr), anyField ts = false →
      Settles (genExprs ts) (look (valuesIn ts)) := by
  refine induct ?decl ?ref ?dontcare ?field ?tuple ?nil ?cons
  case decl | ref => exact fun name _ => .getLocal name
  case dontcare => exact fun type _ => .pure _
  case field => exact nofun
  case tuple =>
    intro elems type ih h
    refine ((ih h).bind fun vs => .pure (Value.mk (some type) .none (.tuple vs))).congr
      (look_tuple elems type)
  case nil => exact fun _ => .pure []
  case cons =>
    intro t ts iht ihts h
    obtain ⟨h₁, h₂⟩ := anyField_cons h
    refine ((iht h₁).bind fun v => (ihts h₂).bind fun vs => .pure (v :: vs)).congr
      (look_cons t ts)

/-- The targets without their receivers, of which there are none. -/
theorem resolve_settles : (∀ t : Target Expr, t.hasField = false →
      ∃ t' : Target Value, t'.hasField = false ∧ t'.valueIn = t.valueIn ∧ t'.storeIn = t.storeIn ∧
        Settles t.resolve fun s => some (t', s)) ∧
    ∀ ts : List (Target Expr), anyField ts = false →
      ∃ ts' : List (Target Value), anyField ts' = false ∧ valuesIn ts' = valuesIn ts ∧
        storesIn ts' = storesIn ts ∧ Settles (resolveAll ts) fun s => some (ts', s) := by
  refine induct ?decl ?ref ?dontcare ?field ?tuple ?nil ?cons
  case decl => exact fun name _ => ⟨.decl name, rfl, rfl, rfl, .pure _⟩
  case ref => exact fun name _ => ⟨.ref name, rfl, rfl, rfl, .pure _⟩
  case dontcare => exact fun type _ => ⟨.dontcare type, rfl, rfl, rfl, .pure _⟩
  case field => exact nofun
  case tuple =>
    intro elems type ih h
    obtain ⟨ts', hf, hv, hs, hset⟩ := ih h
    refine ⟨.tuple ts' type, hf, ?_, ?_, hset.bind fun ts => .pure (Target.tuple ts type)⟩
    · funext fs
      simp only [valueIn, hv]
    · funext v fs
      simp only [storeIn, hs]
  case nil => exact fun _ => ⟨[], rfl, rfl, rfl, .pure _⟩
  case cons =>
    intro t ts iht ihts h
    obtain ⟨h₁, h₂⟩ := anyField_cons h
    obtain ⟨t', hf, hv, hs, hset⟩ := iht h₁
    obtain ⟨ts', hfs, hvs, hss, hsets⟩ := ihts h₂
    refine ⟨t' :: ts', ?_, ?_, ?_, hset.bind fun t => hsets.bind fun ts => .pure (t :: ts)⟩
    · simp [anyField, hf, hfs]
    · funext fs
      simp only [valuesIn, hv, hvs]
    funext vs fs
    cases vs with
    | nil => rfl
    | cons v vs => simp only [storesIn, hs, hss]

theorem read_settles : (∀ t : Target Value, t.hasField = false → Settles t.read (look t.valueIn)) ∧
    ∀ ts : List (Target Value), anyField ts = false →
      Settles (readAll ts) (look (valuesIn ts)) := by
  refine induct ?decl ?ref ?dontcare ?field ?tuple ?nil ?cons
  case decl | ref => exact fun name _ => .getLocal name
  case dontcare => exact fun type _ => .pure _
  case field => exact nofun
  case tuple =>
    intro elems type ih h
    refine ((ih h).bind fun vs => .pure (Value.mk (some type) .none (.tuple vs))).congr
      (look_tuple elems type)
  case nil => exact fun _ => .pure []
  case cons =>
    intro t ts iht ihts h
    obtain ⟨h₁, h₂⟩ := anyField_cons h
    refine ((iht h₁).bind fun v => (ihts h₂).bind fun vs => .pure (v :: vs)).congr
      (look_cons t ts)

/-- One store after another. -/
theorem put_bind (t : Target ρ) (ts : List (Target ρ)) (v : Value) (vs : List Value) (s : State) :
    ((put (t.storeIn v) s).bind fun a => put (storesIn ts vs) a.2) =
      put (storesIn (t :: ts) (v :: vs)) s := by
  simp only [put, storesIn]
  cases t.storeIn v s.frames <;> rfl

theorem store_settles : (∀ t : Target Value, t.hasField = false →
      ∀ v, Settles (t.store v) (put (t.storeIn v))) ∧
    ∀ ts : List (Target Value), anyField ts = false →
      ∀ vs, Settles (storeAll ts vs) (put (storesIn ts vs)) := by
  refine induct ?decl ?ref ?dontcare ?field ?tuple ?nil ?cons
  case decl | ref => exact fun name _ v => .assignLocal name v
  case dontcare => exact fun type _ v => .pure ()
  case field => exact nofun
  case tuple =>
    intro elems type ih h v
    refine (Settles.elemsOf v (ih h)).congr fun s => ?_
    simp only [put, storeIn]
    cases elemsOf v <;> rfl
  case nil => exact fun _ vs => .pure ()
  case cons =>
    intro t ts iht ihts h vs
    obtain ⟨h₁, h₂⟩ := anyField_cons h
    cases vs with
    | nil => exact .fail _
    | cons v vs =>
      exact ((iht h₁ v).bind fun _ => ihts h₂ vs).congr fun s => put_bind t ts v vs s

/-- Values that are taken, and a store. -/
def swap (t : Target ρ) (v : Value) (s : State) : Option (Value × State) :=
  (t.valueIn s.frames).bind fun old => (put (t.storeIn v) s).map fun a => (old, a.2)

theorem assignRvalue_settles : (∀ t : Target Expr, t.hasField = false →
      ∀ v, Settles (t.assignRvalue v) (t.swap v)) ∧
    ∀ ts : List (Target Expr), anyField ts = false →
      ∀ vs, Settles (assignTuple ts vs) (put (storesIn ts vs)) := by
  have hlocal : ∀ name v, Settles (getLocal name >>= fun old => assignLocal name v >>= fun _ =>
      (pure old : M Value)) fun s => (s.frames.getValue name).bind fun old =>
        (put (fun fs => fs.updateValue name v) s).map fun a => (old, a.2) := by
    intro name v
    refine ((Settles.getLocal name).bind fun old => (Settles.assignLocal name v).bind fun _ =>
      .pure old).congr fun s => ?_
    cases s.frames.getValue name with
    | none => rfl
    | some old => cases h : s.frames.updateValue name v <;> simp [put, h]
  refine induct ?decl ?ref ?dontcare ?field ?tuple ?nil ?cons
  case decl | ref => exact fun name _ v => hlocal name v
  case dontcare => exact fun type _ v => .pure _
  case field => exact nofun
  case tuple =>
    intro elems type ih h v
    refine ((genExpr_settles.2 elems h).bind fun old => Settles.elemsOf v fun vs =>
      (ih h vs).bind fun _ => .pure (Value.mk (some type) .none (.tuple old))).congr fun s => ?_
    simp only [look, swap, valueIn, put, storeIn]
    cases valuesIn elems s.frames with
    | none => rfl
    | some old =>
      cases elemsOf v with
      | none => rfl
      | some vs => cases h : storesIn elems vs s.frames <;> simp [h]
  case nil => exact fun _ vs => .pure ()
  case cons =>
    intro t ts iht ihts h vs
    obtain ⟨h₁, h₂⟩ := anyField_cons h
    cases vs with
    | nil => exact .fail _
    | cons v vs =>
      refine ((iht h₁ v).bind fun _ => ihts h₂ vs).congr fun s => ?_
      rw [← put_bind]
      -- a store that goes through has an old value
      simp only [swap]
      cases h : t.storeIn v s.frames with
      | none => cases t.valueIn s.frames <;> simp [put, h]
      | some fs =>
        obtain ⟨old, hold⟩ :=
          Option.isSome_iff_exists.1 (valueIn_of_storeIn.1 t v s.frames fs h)
        simp [put, h, hold]

/-! ### The left side in the runner -/

theorem leftSideAssign_settles : (∀ t : Target Expr, t.hasField = false → ∀ n v, t.depth ≤ n →
      Settles (leftSideAssign n t.expr v) (put (t.storeIn v))) ∧
    ∀ ts : List (Target Expr), anyField ts = false → ∀ n vs, depths ts ≤ n →
      Settles (assignElems (leftSideAssign n) (exprs ts) vs) (put (storesIn ts vs)) := by
  have hfuel : ∀ {n : Nat}, 1 ≤ n → ∃ m, n = m + 1 := fun h => ⟨_, (Nat.sub_add_cancel h).symm⟩
  refine induct ?decl ?ref ?dontcare ?field ?tuple ?nil ?cons
  case decl | ref =>
    intro name _ n v h
    obtain ⟨m, rfl⟩ := hfuel h
    exact .assignLocal name v
  case dontcare =>
    intro type _ n v h
    obtain ⟨m, rfl⟩ := hfuel h
    exact .pure ()
  case field => exact nofun
  case tuple =>
    intro elems type ih hf n v h
    obtain ⟨m, rfl⟩ := hfuel (Nat.le_trans (Nat.le_add_left 1 _) h)
    refine (Settles.elemsOf v fun vs => ih hf m vs (Nat.le_of_succ_le_succ h)).congr fun s => ?_
    simp only [put, storeIn]
    cases elemsOf v <;> rfl
  case nil => exact fun _ n vs _ => .pure ()
  case cons =>
    intro t ts iht ihts hf n vs h
    obtain ⟨h₁, h₂⟩ := anyField_cons hf
    obtain ⟨hd, hds⟩ := Nat.max_le.1 h
    cases vs with
    | nil => exact .fail _
    | cons v vs =>
      exact ((iht h₁ n v hd).bind fun _ => ihts h₂ n vs hds).congr fun s => put_bind t ts v vs s

section
variable {P : Program}

/-- The run of a left side: it evaluates receivers only, and where it ends it has evaluated one if
there is a field, and else has only declared the new locals. -/
def Looks (field : Bool) (declared : State) (depth n : Nat) (record : Record) : Prop :=
  (∀ v ∈ visits record, ∃ e, v = .receiver e) ∧
    ∀ l s, record.ending = .done l s →
      if field then visits record ≠ [] else visits record = [] ∧ s = declared ∧ depth ≤ n

theorem looks_stop (field : Bool) (declared : State) (depth n : Nat) (f : Failure) :
    Looks field declared depth n (.stop (.failed f)) := ⟨nofun, nofun⟩

variable {field : Bool} {declared s : State} {depth n : Nat} {t : Target Expr}

theorem Looks.imp {depth' n' : Nat} {record : Record} (h : Looks field declared depth n record)
    (himp : depth ≤ n → depth' ≤ n') : Looks field declared depth' n' record := by
  refine ⟨h.1, fun l s hl => ?_⟩
  have hend := h.2 l s hl
  cases field with
  | true => exact hend
  | false => exact ⟨hend.1, hend.2.1, himp hend.2.2⟩

/-- The parser's sequence of one expression is that expression. -/
theorem looks_seq {role : Role} {e : Expr}
    (h : Looks field declared depth n (evaluate P n (.evaluate .item e) s)) :
    Looks field declared depth (n + 1) (evaluate P (n + 1) (.evaluate role (.seq [e])) s) := by
  refine Looks.imp ?_ (le_succ_of_le : depth ≤ n → depth ≤ n + 1)
  have hstep : evaluate P (n + 1) (.evaluate role (.seq [e])) s =
      drive (evaluate P n) (.call (.evaluate .item e) s fun v s' => .done (v, s')) := by
    have hseq : (fun v : Value => if v.ctrlFlow = .none then evaluateSeq v [] else
        (pure v : M Value)) = fun v => (pure v : M Value) := by
      funext v
      exact ite_self _
    show drive (evaluate P n) (evaluateSeq .empty [e] s) = _
    rw [evaluateSeq, hseq]
    rfl
  rw [hstep]
  cases he : (evaluate P n (.evaluate .item e) s).ending with
  | failed f =>
    rw [drive_call_failed he]
    exact ⟨fun v hv => h.1 v (by simpa [visits] using hv), nofun⟩
  | done r s' =>
    rw [drive_call_done he]
    refine ⟨fun v hv => h.1 v (by simpa [visits] using hv), fun l s'' hl => ?_⟩
    have := h.2 r s' he
    cases hl
    simpa [visits] using this

/-- Two runs one after the other. -/
theorem looks_cons {c : Job} {e : Expr} (hc : c = .evaluate .element e) {s' : State} {v : Value}
    {fields : Bool} {depths : Nat} {own rest : Record} {declare declareRest : State → State}
    (hown : Looks field (declare s) depth n own) (hending : own.ending = .done v s')
    (hrest : Looks fields (declareRest s') depths n rest) :
    Looks (field || fields) (declareRest (declare s)) (max depth depths) n (.call c s own rest) := by
  subst hc
  refine ⟨fun w hw => ?_, fun l s'' hl => ?_⟩
  · rcases mem_append.1 hw with hw | hw
    · exact hown.1 w hw
    · exact hrest.1 w hw
  have h₁ := hown.2 v s' hending
  have h₂ := hrest.2 l s'' hl
  cases field with
  | true => exact fun h => h₁ (append_eq_nil_iff.1 h).1
  | false =>
    cases fields with
    | true => exact fun h => h₂ (append_eq_nil_iff.1 h).2
    | false =>
      obtain ⟨hv, rfl, hd⟩ := h₁
      obtain ⟨hvs, rfl, hds⟩ := h₂
      exact ⟨append_eq_nil_iff.2 ⟨hv, hvs⟩, rfl, Nat.max_le.2 ⟨hd, hds⟩⟩

/-- A left side that asks for nothing. -/
theorem looks_of_settles {x : M Value} {g : State → Option (Value × State)} (hx : Settles x g)
    (ev : Job → State → Record) (hdepth : depth ≤ n)
    (hg : ∀ l s', g s = some (l, s') → s' = declared) :
    Looks false declared depth n (drive ev (x s)) := by
  obtain ⟨hvisits, hresult⟩ := hx.drive ev s
  refine ⟨fun v hv => ?_, fun l s' hl => ⟨hvisits, hg l s' ?_, hdepth⟩⟩
  · rw [hvisits] at hv
    cases hv
  · rw [← hresult, result, hl]

theorem evaluateDecl_settles (name : String) : Settles (evaluateDecl name) fun s =>
    (s.frames.newValue name .empty).map fun fs => (.empty, { s with frames := fs }) := by
  intro s
  rw [evaluateDecl, get_bind_apply]
  dsimp only
  cases s.frames.newValue name .empty with
  | some fs => exact .inl ⟨_, rfl, rfl⟩
  | none => exact .inr ⟨rfl, _, rfl⟩

theorem declareLocal_of_newValue {name : String} {fs : Frames}
    (h : s.frames.newValue name .empty = some fs) :
    { s with frames := fs } = declareLocal name s := by
  rw [declareLocal]
  cases hf : s.frames with
  | nil => rw [hf] at h; cases h
  | cons f rest =>
    rw [hf] at h
    obtain ⟨f', hf', rfl⟩ := Option.map_eq_some_iff.1 h
    rw [Frame.newValue] at hf'
    split at hf'
    · cases hf'
    · cases hf'
      rfl

/-- **The left side**, on its own. -/
theorem looks_left : (∀ t : Target Expr, ∀ n role s,
      Looks t.hasField (t.declare s) t.depth n (evaluate P n (.evaluate role t.expr) s)) ∧
    ∀ ts : List (Target Expr), ∀ n (g : List Value → Value) s,
      Looks (anyField ts) (declareAll ts s) (depths ts) n
        (drive (evaluate P n) ((evalElems (exprs ts) >>= fun vs => (pure (g vs) : M Value)) s)) := by
  have hstart : ∀ {t : Target Expr}, (∀ n role s, Looks t.hasField (t.declare s) t.depth (n + 1)
      (evaluate P (n + 1) (.evaluate role t.expr) s)) → ∀ n role s,
      Looks t.hasField (t.declare s) t.depth n (evaluate P n (.evaluate role t.expr) s) := by
    intro t h n role s
    cases n with
    | zero => exact looks_stop _ _ _ _ _
    | succ n => exact h n role s
  refine induct ?decl ?ref ?dontcare ?field ?tuple ?nil ?cons
  case decl =>
    refine fun name => hstart fun n role s => ?_
    refine looks_of_settles (evaluateDecl_settles name) (evaluate P n) (le_add_left 1 n) fun l s' h => ?_
    obtain ⟨fs, hfs, ⟨⟩⟩ := Option.map_eq_some_iff.1 h
    exact declareLocal_of_newValue hfs
  case ref =>
    refine fun name => hstart fun n role s => ?_
    refine looks_of_settles (Settles.getLocal name) (evaluate P n) (le_add_left 1 n) fun l s' h => ?_
    obtain ⟨v, hv, ⟨⟩⟩ := Option.map_eq_some_iff.1 h
    rfl
  case dontcare =>
    refine fun type => hstart fun n role s => ?_
    refine looks_of_settles (Settles.pure (.ofType type)) (evaluate P n) (le_add_left 1 n) ?_
    rintro l s' ⟨⟩
    rfl
  case field =>
    refine fun receiver name => hstart fun n role s => ?_
    have hcall : evaluate P (n + 1) (.evaluate role (.field receiver name)) s =
      drive (evaluate P n) (.call (.evaluate .receiver receiver) s fun v s' =>
        readField v name s') := rfl
    have hrest : ∀ v s', visits (drive (evaluate P n) (readField v name s')) = [] := by
      intro v s'
      rcases Reads.readField v name s' with ⟨a, h⟩ | ⟨f, h⟩
      · rw [h]
        rfl
      · rw [h]
        rfl
    have hvisits : visits (evaluate P (n + 1) (.evaluate role (.field receiver name)) s) =
        [.receiver receiver] := by
      rw [hcall]
      cases he : (evaluate P n (.evaluate .receiver receiver) s).ending with
      | failed f =>
        rw [drive_call_failed he]
        rfl
      | done v s' =>
        rw [drive_call_done he]
        exact congrArg (Visit.receiver receiver :: ·) (hrest v s')
    refine ⟨fun v hv => ?_, fun l s' _ => ?_⟩
    · rw [expr, hvisits, mem_singleton] at hv
      exact ⟨receiver, hv⟩
    · rw [expr, hvisits]
      exact cons_ne_nil _ _
  case tuple =>
    intro elems type ih
    refine hstart fun n role s => ?_
    exact (ih n (fun vs => .mk (some type) .none (.tuple vs)) s).imp succ_le_succ
  case nil =>
    intro n g s
    refine looks_of_settles (Settles.pure (g [])) (evaluate P n) (zero_le n) ?_
    rintro l s' ⟨⟩
    rfl
  case cons =>
    intro t ts iht ihts n g s
    have hcall : (evalElems (exprs (t :: ts)) >>= fun vs => (pure (g vs) : M Value)) s =
        .call (.evaluate .element (.seq [t.expr])) s fun v s' =>
          (evalElems (exprs ts) >>= fun vs => (pure (g (v :: vs)) : M Value)) s' := by
      rw [exprs, evalElems]
      simp only [bind_assoc, pure_bind]
      rfl
    have hown : Looks t.hasField (t.declare s) t.depth n
        (evaluate P n (.evaluate .element (.seq [t.expr])) s) := by
      cases n with
      | zero => exact looks_stop _ _ _ _ _
      | succ n => exact looks_seq (iht n .item s)
    rw [hcall]
    cases he : (evaluate P n (.evaluate .element (.seq [t.expr])) s).ending with
    | failed f =>
      rw [drive_call_failed he]
      exact ⟨fun v hv => hown.1 v (by simpa [visits] using hv), nofun⟩
    | done v s' =>
      rw [drive_call_done he]
      exact looks_cons rfl hown he (ihts n (fun vs => g (v :: vs)) s')

/-! ### Both assignments after the right side -/

/-- What an assignment does after its right side, where no target is a field. -/
def afterRight (t : Target Expr) (r : Value) (s : State) : Option (Value × State) :=
  if r.ctrlFlow = .none then t.swap r s else some (r, s)

theorem assignOnce_settles (ht : t.hasField = false) (r : Value) :
    Settles (if r.ctrlFlow = .none then t.resolve >>= fun places => places.read >>= fun old =>
      places.store r >>= fun _ => (pure old : M Value) else pure r) (t.afterRight r) := by
  by_cases hr : r.ctrlFlow = .none
  · obtain ⟨t', hf, hv, hs, hset⟩ := resolve_settles.1 t ht
    rw [if_pos hr]
    intro s
    rcases hset s with ⟨a, ha, h⟩ | ⟨hn, -⟩
    · cases ha
      have hbind : (t.resolve >>= fun places => places.read >>= fun old =>
          places.store r >>= fun _ => (pure old : M Value)) s =
          (t'.read >>= fun old => t'.store r >>= fun _ => (pure old : M Value)) s := by
        show (t.resolve s).bind _ = _
        rw [h]
        rfl
      rw [hbind]
      refine ((read_settles.1 t' hf).bind fun old => (store_settles.1 t' hf r).bind fun _ =>
        .pure old).congr (fun s => ?_) s
      simp only [look, hv, hs, afterRight, if_pos hr, swap]
      cases t.valueIn s.frames with
      | none => rfl
      | some old => cases h : put (t.storeIn r) s <;> simp [h]
    · cases hn
  · rw [if_neg hr]
    refine (Settles.pure r).congr fun s => ?_
    rw [afterRight, if_neg hr]

theorem genAssign_settles (ht : t.hasField = false) (r : Value) :
    Settles (if r.ctrlFlow = .none then t.assignRvalue r else (pure r : M Value))
      (t.afterRight r) := by
  by_cases hr : r.ctrlFlow = .none
  · rw [if_pos hr]
    refine (assignRvalue_settles.1 t ht r).congr fun s => ?_
    rw [afterRight, if_pos hr]
  rw [if_neg hr]
  refine (Settles.pure r).congr fun s => ?_
  rw [afterRight, if_neg hr]

theorem leftSide_settles (ht : t.hasField = false) (hn : t.depth ≤ n) (l r : Value) :
    Settles (leftSideAssign n t.expr r >>= fun _ => (pure l : M Value)) fun s =>
      (put (t.storeIn r) s).map fun a => (l, a.2) := by
  refine ((leftSideAssign_settles.1 t ht n r hn).bind fun _ => .pure l).congr fun s => ?_
  cases put (t.storeIn r) s <;> rfl

/-- The two sides agree after the right side. -/
theorem afterRight_iff {l r : Value} :
    ((put (t.storeIn r) s).map fun a => (l, a.2)) = t.afterRight r s ↔
      if r.ctrlFlow = .none then (t.storeIn r s.frames).isSome = true → t.valueIn s.frames = some l
      else r = l ∧ t.storeIn r s.frames = some s.frames := by
  by_cases hr : r.ctrlFlow = .none
  · rw [if_pos hr, afterRight, if_pos hr, swap, put]
    cases h : t.storeIn r s.frames with
    | none => cases t.valueIn s.frames <;> simp
    | some fs =>
      obtain ⟨old, hold⟩ := Option.isSome_iff_exists.1 (valueIn_of_storeIn.1 t r s.frames fs h)
      simp [hold, eq_comm]
  rw [if_neg hr, afterRight, if_neg hr, put]
  cases h : t.storeIn r s.frames with
  | none => simp
  | some fs =>
    simp only [Option.map_some, Option.some.injEq, Prod.mk.injEq]
    refine ⟨fun hs => ⟨hs.1.symm, congrArg State.frames hs.2⟩, fun hs => ⟨hs.1.symm, ?_⟩⟩
    rw [hs.2]

end

end Target

/-- **When compile-time assignment is compiled assignment.**  For every target, right side, state and
time limit: the runner evaluates the right side first and then each receiver once, stores the
components, yields the values that the targets had just before the store and ends in the state that
compiled code ends in, if and only if no target is a field, the left side has a value and the right
side completes normally and leaves the targets with the values they had. -/
theorem assign_agrees_iff (P : Program) (n : Nat) (role : Role) (t : Target Expr) (right : Expr)
    (s : State) : AssignsAsCompiled P n role t right s ↔ Undisturbed P n t right s := by
  have hrun : evaluate P (n + 1) (.evaluate role (.assign t.expr right)) s =
      drive (evaluate P n) (.call (.evaluate .left t.expr) s fun l s₁ =>
        .call (.evaluate .right right) s₁ fun r s₂ =>
          (leftSideAssign n t.expr r >>= fun _ => (pure l : M Value)) s₂) := rfl
  have honce : t.assignOnce right s = .call (.evaluate .right right) (t.declare s) fun r s₂ =>
      (if r.ctrlFlow = .none then t.resolve >>= fun places => places.read >>= fun old =>
        places.store r >>= fun _ => (pure old : M Value) else pure r : M Value) s₂ := rfl
  have hcompiled : t.genAssign right s = .call (.evaluate .right right) (t.declare s) fun r s₂ =>
      (if r.ctrlFlow = .none then t.assignRvalue r else (pure r : M Value) : M Value) s₂ := rfl
  obtain ⟨hreceivers, hleft⟩ := (Target.looks_left (P := P)).1 t n .left s
  -- `assignOnce` starts with the right side
  have hhead : ∃ vs, visits (drive (evaluate P n) (t.assignOnce right s)) = .right right :: vs := by
    rw [honce, drive_call]
    exact ⟨_, rfl⟩
  obtain ⟨later, hhead⟩ := hhead
  have hnever : ∀ vs ws, vs ≠ [] → (∀ v ∈ vs, ∃ e, v = Visit.receiver e) →
      vs ++ ws ≠ .right right :: later := by
    intro vs ws hne hall h
    cases vs with
    | nil => exact hne rfl
    | cons v vs =>
      obtain ⟨e, rfl⟩ := hall v mem_cons_self
      cases h
  rw [AssignsAsCompiled, Undisturbed, hhead, hrun]
  cases he : (evaluate P n (.evaluate .left t.expr) s).ending with
  | failed f =>
    refine iff_of_false ?_ ?_
    · rintro ⟨h, -⟩
      rw [drive_call_failed he] at h
      by_cases hnil : visits (evaluate P n (.evaluate .left t.expr) s) = []
      · have hnone : visits (evaluate P n (.evaluate .left t.expr) s) ++ [] =
            .right right :: later := h
        rw [hnil] at hnone
        cases hnone
      · exact hnever _ _ hnil hreceivers h
    · rintro ⟨-, l, s₁, hl, -⟩
      cases hl
  | done l s₁ =>
    have hl := hleft l s₁ he
    rw [drive_call_done he]
    cases ht : t.hasField with
    | true =>
      rw [ht] at hl
      refine iff_of_false (fun h => hnever _ _ hl hreceivers h.1) fun h => nomatch h.1
    | false =>
      rw [ht] at hl
      obtain ⟨hnil, rfl, hdepth⟩ := hl
      rw [← hhead, honce, hcompiled]
      cases her : (evaluate P n (.evaluate .right right) (t.declare s)).ending with
      | failed f =>
        rw [drive_call_failed her, drive_call_failed her, drive_call_failed her]
        refine iff_of_true ⟨?_, rfl, rfl⟩ ⟨rfl, l, _, rfl, fun r s₂ h => ?_⟩
        · simp [visits, hnil]
        · cases her.symm.trans h
      | done r s₂ =>
        rw [drive_call_done her, drive_call_done her, drive_call_done her]
        obtain ⟨hv, hres⟩ := (Target.leftSide_settles ht hdepth l r).drive (evaluate P n) s₂
        obtain ⟨hv', hres'⟩ := (Target.assignOnce_settles ht r).drive (evaluate P n) s₂
        obtain ⟨-, hres''⟩ := (Target.genAssign_settles ht r).drive (evaluate P n) s₂
        -- nothing is seen of what comes after the right side, and it ends as it settles
        have hresult : ∀ c q own rest, result (.call c q own rest) = result rest :=
          fun _ _ _ _ => rfl
        simp only [visits, hnil, hv, hv', hresult, hres, hres', hres'', Target.afterRight_iff]
        constructor
        · rintro ⟨-, h, -⟩
          refine ⟨trivial, l, _, rfl, fun r' s' h' => ?_⟩
          cases her.symm.trans h'
          exact h
        · rintro ⟨-, l', s', hl', h⟩
          cases hl'
          exact ⟨rfl, h r s₂ her, h r s₂ her⟩

/-! ### A right side that assigns the target -/

/-- `(x = U8(2); U8(3))`. -/
def reassign : Expr := .seq [.assign (.ref "x") (u8 2), u8 3]

/-- **The old value is stale**: `x = (x = U8(2); U8(3))` yields the 2 that `x` had just before the
store, but 1 at compile time. -/
theorem assign_yields_stale_value :
    ¬ AssignsAsCompiled bareProgram 8 .item (.ref "x") reassign (withX (u8Value .none 1)) ∧
      (result (evaluate bareProgram 9 (.evaluate .item (.assign (.ref "x") reassign))
        (withX (u8Value .none 1)))).map Prod.fst = some (u8Value .none 1) ∧
      (result (drive (evaluate bareProgram 8) (Target.genAssign (.ref "x") reassign
        (withX (u8Value .none 1))))).map Prod.fst = some (u8Value .none 2) := by
  have hrun : (result (evaluate bareProgram 9 (.evaluate .item (.assign (.ref "x") reassign))
      (withX (u8Value .none 1)))).map Prod.fst = some (u8Value .none 1) := rfl
  have hcompiled : (result (drive (evaluate bareProgram 8) (Target.genAssign (.ref "x") reassign
      (withX (u8Value .none 1))))).map Prod.fst = some (u8Value .none 2) := rfl
  refine ⟨fun h => ?_, hrun, hcompiled⟩
  have hsame := (congrArg (Option.map Prod.fst) h.2.2).symm.trans hrun
  rw [hcompiled] at hsame
  cases hsame

end SpacePony.Runner
