import SpacePony.Compiler.Ctfe.Evaluate
import SpacePony.Support.Guarded
import Mathlib.Data.List.Infix

/-!
# Compiler — abrupt completion in compile-time evaluation

An expression that returns, breaks, continues or raises an error is a value with a modifier.  Each
construct must look at the modifiers of its subexpressions, and many do not: the runner propagates
everywhere exactly when, in that evaluation, no subexpression at another position completes abruptly
and no `then` clause is reached (`abrupt_propagates_iff`).
-/

namespace SpacePony.Runner

/-! ### What is to hold -/

/-- The same `ControlFlowModifier`, whether or not a `break` was written with a value. -/
def Modifier.same : Modifier → Modifier → Bool
  | .brk _, .brk _ => true
  | m, m' => m == m'

/-- Whether a modifier of the job `child` is meant for the job `parent`: a loop takes the breaks and
continues of its body, a `try` the errors of its body, a method call the returns of the method. -/
def handles (parent child : Job) (m : Modifier) : Bool :=
  match parent, child, m with
  | .evaluate _ (.loop _ _ _), .evaluate .body _, .brk _
  | .evaluate _ (.loop _ _ _), .evaluate .body _, .cont
  | .evaluate _ (.rept _ _ _), .evaluate .body _, .brk _
  | .evaluate _ (.rept _ _ _), .evaluate .body _, .cont
  | .evaluate _ (.tryElse _ _ _), .evaluate .body _, .error
  | .callMethod _ _ _ _ _ _, .evaluate .method _, .ret => true
  | _, _, _ => false

/-- What is watched in a job: the answers with a modifier that the job does not handle.  It ends well
with the same modifier when nothing has been stored since; frames may have been popped. -/
def watch (parent : Job) : Watch Job State Value where
  abrupt := fun child v => v.ctrlFlow ≠ .none ∧ handles parent child v.ctrlFlow = false
  endsWell := fun v s v' s' => v'.ctrlFlow.same v.ctrlFlow = true ∧ s'.heap = s.heap ∧
    s'.memory = s.memory ∧ s'.frames <:+ s.frames

/-- A `then` clause. -/
def Job.isThen : Job → Bool
  | .evaluate .thenClause _ => true
  | _ => false

/-- A `try` with a `then` clause that is left has evaluated it exactly once. -/
def ThenOnce : Job → Record → Prop
  | .evaluate _ (.tryElse _ _ (some _)), record =>
    (∃ v s, record.ending = .done v s) → record.calls.countP Job.isThen = 1
  | _, _ => True

/-- Abrupt completion propagates in the run of a job. -/
def Propagates (job : Job) (record : Record) : Prop :=
  (watch job).Kept record ∧ ThenOnce job record

/-! ### What the runner does -/

/-- The computation ends in `s` with the modifier `m`. -/
def gives (x : M Value) (s : State) (m : Modifier) : Bool :=
  match x s with
  | .done (v, _) => v.ctrlFlow.same m
  | _ => false

section
variable (P : Program)

/-- The positions where the runner ends the job `parent` with the modifier of `v`, the value of its
subexpression `child` in the state `s`. -/
def passes (parent child : Job) (v : Value) (s : State) : Bool :=
  match parent, child with
  | .evaluate _ (.inner _), _ | .evaluate _ (.seq _), _ | .evaluate _ (.iftype _ _ _), _ => true
  | .evaluate _ (.ite _ _ _), .evaluate .branch _ => true
  | .evaluate _ (.loop _ _ _), .evaluate .body _ | .evaluate _ (.loop _ _ _), .evaluate .elseBody _
  | .evaluate _ (.rept _ _ _), .evaluate .body _ | .evaluate _ (.rept _ _ _), .evaluate .elseBody _
  | .evaluate _ (.tryElse _ _ _), .evaluate .body _
  | .evaluate _ (.tryElse _ _ _), .evaluate .elseBody _
  | .evaluate _ (.mtch _ _ _), .evaluate .branch _
  | .evaluate _ (.mtch _ _ _), .evaluate .elseBody _ => true
  | .evaluate _ (.ret _), _ => v.ctrlFlow.same .ret
  | .evaluate _ (.brk _), _ => v.ctrlFlow.same (.brk true)
  | .evaluate _ (.field _ name), _ => gives (readField v name) s v.ctrlFlow
  | .evaluate _ (.tupleelemref _ pos), _ => gives (readElem v pos) s v.ctrlFlow
  | .evaluate _ (.recover _ type), _ => gives (recoverType P v type) s v.ctrlFlow
  | .evaluate _ (.construct _ _ _ _ type), .callMethod _ _ _ _ _ _ =>
    type.isMachineWord || type.isPointer
  | .evaluate _ (.call chain _ _ _ _ _ type), .callMethod _ _ _ _ _ _ =>
    type.isMachineWord || type.isPointer || !chain
  | .evaluate _ (.iftypeSet _ _), .evaluate .cond _ => v.type.isSome
  | .evaluate _ (.iftypeSet _ _), .evaluate .branch _ => true
  | .evaluate _ (.fficall _ _ _), .ffiCall _ _ _ => true
  | .callMethod _ _ _ _ _ _, _ => true
  | _, _ => false

/-- The answers at which the runner goes on. -/
def exposed (parent child : Job) (v : Value) (s : State) : Prop := passes P parent child v s = false

/-- `try` as `gen_try` and `gen_then_clauses` have it: the `then` clause comes after the body and the
`else` clause, however they complete. -/
def evaluateTryThen (tryBody elseBody : Expr) (thenClause : Option Expr) : M Value := do
  let v ← evaluateTry tryBody elseBody none
  match thenClause with
  | none => return v
  | some t =>
    let _ ← eval .thenClause t
    return v

/-- The loops of the runner, and `try` with its `then` clause. -/
def withThen : Constructs where
  loop := evaluateWhile
  rept := evaluateRepeat
  tryElse := evaluateTryThen

/-- A modifier that the job does not handle ends it there, in the frames it started with. -/
def guard (parent : Job) (start : State) (child : Job) (v : Value) (s : State) :
    Option (Value × State) :=
  if v.ctrlFlow ≠ .none ∧ handles parent child v.ctrlFlow = false ∧
      passes P parent child v s = false then
    some (v, { s with
      frames := s.frames.drop (s.frames.length - start.frames.length), depth := start.depth })
  else none

/-- The evaluation in which modifiers propagate. -/
def propagating : Nat → Job → State → Record := runUntil (step P withThen) (guard P) .duration

/-- The `then` clause of a `try` is not reached. -/
def ThenUnreached : Job → Record → Prop
  | .evaluate _ (.tryElse _ _ (some _)), record => record.calls.countP Job.isThen = 0
  | _, _ => True

/-- No subexpression of the job at a position where the runner goes on completes abruptly, and no
`then` clause is reached. -/
def Unexposed (job : Job) (record : Record) : Prop :=
  (watch job).Quiet (exposed P job) record ∧ ThenUnreached job record

end

/-! ### Computations that go on -/

/-- The computations of a job, at a state. -/
abbrev Comp := Resume Job State Value Failure (Value × State)

/-- If the computation ends right away, it ends without a modifier. -/
def Plain (p : Comp) : Prop := ∀ v s, p = .done (v, s) → v.ctrlFlow = .none

variable (f : Failure) (v receiver : Value)

theorem plain_fail : Plain (.fail f) := nofun

theorem plain_call (c : Job) (s : State) (k : Value → State → Comp) : Plain (.call c s k) := nofun

theorem plain_done {v : Value} (s : State) (h : v.ctrlFlow = .none) : Plain (.done (v, s)) := by
  rintro _ _ ⟨⟩
  exact h

theorem same_none {m : Modifier} (h : m ≠ .none) : Modifier.same .none m = false := by
  cases m <;> simp_all [Modifier.same]

@[simp] theorem Modifier.same_self (m : Modifier) : m.same m = true := by
  cases m <;> simp [Modifier.same]

theorem Modifier.same_comm (m m' : Modifier) : m.same m' = m'.same m := by
  cases m <;> cases m' <;> rfl

theorem Plain.misses {p : Comp} (hp : Plain p) (job : Job) {v : Value} (hv : v.ctrlFlow ≠ .none)
    (s : State) : (watch job).Misses v s p := by
  intro v' s' he hwell
  have h : v'.ctrlFlow.same v.ctrlFlow = true := hwell.1
  rw [hp v' s' he, same_none hv] at h
  cases h

section
variable {P : Program} {job : Job}

/-- The rule for a job of the runner. -/
def Sound (P : Program) (job : Job) (p : Comp) : Prop := (watch job).Respects (exposed P job) p

theorem sound_fail : Sound P job (.fail f) := trivial

theorem sound_done (a : Value × State) : Sound P job (.done a) := trivial

/-- An answer that the runner does not look at. -/
theorem sound_unchecked {c : Job} {s : State} {k : Value → State → Comp}
    (hpass : ∀ v s, passes P job c v s = false) (hhandles : ∀ m, handles job c m = false)
    (hgo : ∀ v s', v.ctrlFlow = .none → Sound P job (k v s'))
    (hplain : ∀ v s', v.ctrlFlow ≠ .none → Plain (k v s')) : Sound P job (.call c s k) := by
  intro v s'
  refine ⟨fun h => hgo v s' ?_, fun h _ => (hplain v s' h.1).misses job h.1 s',
    fun _ hex => absurd (hpass v s') hex⟩
  by_contra hv
  exact h ⟨hv, hhandles _⟩

/-- An answer whose modifier the runner passes on. -/
theorem sound_checked {c : Job} {s : State} {k : Value → State → Comp}
    (hpass : ∀ v s, v.ctrlFlow ≠ .none → passes P job c v s = true)
    (hgo : ∀ v s', v.ctrlFlow = .none ∨ handles job c v.ctrlFlow = true → Sound P job (k v s'))
    (hend : ∀ v s', v.ctrlFlow ≠ .none → handles job c v.ctrlFlow = false →
      ∃ s'', k v s' = .done (v, s'') ∧ s''.heap = s'.heap ∧ s''.memory = s'.memory ∧
        s''.frames <:+ s'.frames) : Sound P job (.call c s k) := by
  intro v s'
  refine ⟨fun h => hgo v s' ?_, fun h hex => ?_, fun h _ => ?_⟩
  · by_cases hv : v.ctrlFlow = .none
    · exact .inl hv
    refine .inr ?_
    by_contra hh
    exact h ⟨hv, Bool.eq_false_iff.2 hh⟩
  · rw [exposed, hpass v s' h.1] at hex
    cases hex
  · obtain ⟨s'', hk, hstate⟩ := hend v s' h.1 h.2
    exact ⟨v, s'', hk, v.ctrlFlow.same_self, hstate⟩

/-- An answer that goes through a computation that keeps the state and asks for nothing. -/
theorem sound_through {c : Job} {s : State} {x : Value → M Value}
    (hpass : ∀ v s, passes P job c v s = gives (x v) s v.ctrlFlow)
    (hquiet : ∀ v s, (∃ w, x v s = .done (w, s)) ∨ ∃ f, x v s = .fail f) :
    Sound P job (.call c s x) := by
  intro v s'
  rcases hquiet v s' with ⟨w, hw⟩ | ⟨f, hf⟩
  · have hgives : passes P job c v s' = w.ctrlFlow.same v.ctrlFlow := by rw [hpass, gives, hw]
    refine ⟨fun _ => ?_, fun _ hex => ?_, fun _ hex => ⟨w, s', hw, ?_⟩⟩
    · rw [hw]
      exact sound_done _
    · rintro v' s'' he hwell
      rw [hw] at he
      cases he
      rw [exposed, hgives, hwell.1] at hex
      cases hex
    · rw [exposed, hgives, Bool.not_eq_false] at hex
      exact ⟨hex, rfl, rfl, List.suffix_rfl⟩
  have hgives : passes P job c v s' = false := by rw [hpass, gives, hf]
  refine ⟨fun _ => ?_, fun _ _ => ?_, fun _ hex => absurd hgives hex⟩
  · rw [hf]
    exact sound_fail f
  · rw [hf]
    exact nofun

/-- All jobs that the computation asks for are at positions the runner does not look at. -/
def Unchecked (P : Program) (job : Job) {α : Type} (x : M α) : Prop :=
  ∀ (f : α → M Value) (s : State), (∀ a s', Sound P job (f a s')) → (∀ a s', Plain (f a s')) →
    Sound P job ((x >>= f) s) ∧ Plain ((x >>= f) s)

namespace Unchecked

variable {α β : Type}

theorem pure (a : α) : Unchecked P job (pure a : M α) :=
  fun _ s hsound hplain => ⟨hsound a s, hplain a s⟩

theorem fail : Unchecked P job (fail f : M α) :=
  fun _ _ _ _ => ⟨sound_fail f, plain_fail f⟩

theorem bind {x : M α} {g : α → M β} (hx : Unchecked P job x) (hg : ∀ a, Unchecked P job (g a)) :
    Unchecked P job (x >>= g) := by
  intro f s hsound hplain
  rw [bind_assoc]
  exact hx _ s (fun a s' => (hg a f s' hsound hplain).1) fun a s' => (hg a f s' hsound hplain).2

/-- A computation that asks for nothing. -/
theorem of_quiet {x : M α} (h : ∀ s, (∃ a s', x s = .done (a, s')) ∨ ∃ f, x s = .fail f) :
    Unchecked P job x := by
  intro f s hsound hplain
  have hbind : (x >>= f) s = (x s).bind fun a => f a.1 a.2 := rfl
  rw [hbind]
  rcases h s with ⟨a, s', hx⟩ | ⟨e, hx⟩
  · rw [hx]
    exact ⟨hsound a s', hplain a s'⟩
  · rw [hx]
    exact ⟨sound_fail e, plain_fail e⟩

theorem ite {c : Prop} [Decidable c] {x y : M α} (hx : Unchecked P job x)
    (hy : Unchecked P job y) : Unchecked P job (if c then x else y) := by
  split
  · exact hx
  · exact hy

/-- One job. -/
theorem call {c : Job} {x : M Value} (hx : ∀ s, x s = .call c s fun v s' => .done (v, s'))
    (hpass : ∀ v s, passes P job c v s = false) (hhandles : ∀ m, handles job c m = false) :
    Unchecked P job x := by
  intro f s hsound hplain
  have hbind : (x >>= f) s = (x s).bind fun a => f a.1 a.2 := rfl
  rw [hbind, hx s]
  exact ⟨sound_unchecked hpass hhandles (fun v s' _ => hsound v s') fun v s' _ => hplain v s',
    plain_call _ _ _⟩

theorem assert (b : Bool) : Unchecked P job (assert b) := by
  cases b with
  | true => exact pure ()
  | false => exact fail .assertion

theorem getType : Unchecked P job v.getType := by
  rw [Value.getType]
  cases v.type with
  | some type => exact pure type
  | none => exact fail .assertion

theorem getBool : Unchecked P job v.getBool := by
  rw [Value.getBool]
  cases v.val with
  | bool b => exact pure b
  | _ => exact fail .assertion

theorem getStructRef : Unchecked P job v.getStructRef := by
  rw [Value.getStructRef]
  cases v.val with
  | struct ref => exact pure ref
  | _ => exact fail .assertion

theorem getTuple : Unchecked P job v.getTuple := by
  rw [Value.getTuple]
  cases v.val with
  | tuple elems => exact pure elems
  | _ => exact fail .assertion

theorem get : Unchecked P job (get : M State) :=
  of_quiet fun s => .inl ⟨s, s, rfl⟩

theorem modify (g : State → State) : Unchecked P job (modify g : M Unit) :=
  of_quiet fun s => .inl ⟨(), g s, rfl⟩

theorem getStruct (ref : Nat) : Unchecked P job (getStruct ref) := by
  refine get.bind fun s => ?_
  cases s.heap[ref]? with
  | some vars => exact pure vars
  | none => exact fail .assertion

end Unchecked

/-! ### The parts of the constructs -/

/-- The positions of a role are not looked at. -/
def Ignores (P : Program) (job : Job) (role : Role) : Prop :=
  (∀ e v s, passes P job (.evaluate role e) v s = false) ∧
    ∀ e m, handles job (.evaluate role e) m = false

theorem unchecked_eval {role : Role} (h : Ignores P job role) (e : Expr) :
    Unchecked P job (eval role e) :=
  .call (fun _ => rfl) (h.1 e) (h.2 e)

theorem unchecked_evalArgs (h : Ignores P job .argument) (args : List Expr) :
    Unchecked P job (evalArgs args) := by
  induction args with
  | nil => exact .pure []
  | cons arg args ih =>
    exact (unchecked_eval h arg).bind fun v => ih.bind fun vs => .pure (v :: vs)

theorem unchecked_evalElems (h : Ignores P job .element) (elems : List Expr) :
    Unchecked P job (evalElems elems) := by
  induction elems with
  | nil => exact .pure []
  | cons elem elems ih =>
    exact (unchecked_eval h elem).bind fun v => ih.bind fun vs => .pure (v :: vs)

theorem unchecked_assignLocal (name : String) (v : Value) : Unchecked P job (assignLocal name v) := by
  refine .bind .get fun s => ?_
  cases s.frames.updateValue name v with
  | some frames => exact .modify _
  | none => exact .fail _

theorem unchecked_assignField (name : String) (v : Value) :
    Unchecked P job (assignField receiver name v) := by
  refine .bind (.getType receiver) fun type => .ite (.bind (.getStructRef receiver) fun ref =>
    .bind (.getStruct ref) fun vars => ?_) (.fail _)
  cases vars.updateValue name v with
  | some vars' => exact .modify _
  | none => exact .fail _

theorem unchecked_assignElems {assign : Expr → Value → M Unit}
    (h : ∀ e v, Unchecked P job (assign e v)) (elems : List Expr) (vs : List Value) :
    Unchecked P job (assignElems assign elems vs) := by
  induction elems generalizing vs with
  | nil => exact .pure ()
  | cons elem elems ih =>
    cases vs with
    | nil => exact .fail _
    | cons v vs =>
      cases elem with
      | seq items =>
        cases items with
        | nil => exact .fail _
        | cons item items => exact (h item v).bind fun _ => ih vs
      | _ => exact .fail _

theorem unchecked_leftSideAssign (h : Ignores P job .target) (n : Nat) (left : Expr) (v : Value) :
    Unchecked P job (leftSideAssign n left v) := by
  induction n generalizing left v with
  | zero => exact .fail _
  | succ n ih =>
    cases left with
    | decl name | ref name => exact unchecked_assignLocal name v
    | field receiver name =>
      exact (unchecked_eval h receiver).bind fun r => unchecked_assignField r name v
    | tuple elems type =>
      exact .bind (.getType v) fun t => .bind (.assert _) fun _ => .bind (.getTuple v) fun vs =>
        unchecked_assignElems ih elems vs
    | dontcareref type => exact .pure ()
    | _ => exact .fail _

theorem unchecked_bindParams (params : List String) (args : List Value) :
    Unchecked P job (bindParams params args) := by
  induction args generalizing params with
  | nil => cases params <;> exact .pure ()
  | cons arg args ih =>
    cases params with
    | nil => exact .fail _
    | cons param params => exact .bind (.modify _) fun _ => ih params

theorem unchecked_tupleIsSubtype (vs : List Value) (types : List Ty) :
    Unchecked P job (tupleIsSubtype P vs types) := by
  induction vs generalizing types with
  | nil => exact .pure true
  | cons v vs ih =>
    cases types with
    | nil => exact .fail _
    | cons type types => exact .bind (.getType v) fun t => .ite (ih types) (.pure false)

theorem unchecked_caseIsSubtype (mtch : Value) (type : Ty) :
    Unchecked P job (caseIsSubtype P mtch type) := by
  refine .bind (.getType mtch) fun matchType => .ite ?_ (.pure _)
  cases type with
  | tuple types => exact .bind (.getTuple mtch) fun vs => unchecked_tupleIsSubtype vs types
  | _ => exact .fail _

/-- The positions of method calls are not looked at. -/
def IgnoresCalls (P : Program) (job : Job) : Prop :=
  ∀ type name recvType recv args typeargs,
    (∀ v s, passes P job (.callMethod type name recvType recv args typeargs) v s = false) ∧
      ∀ m, handles job (.callMethod type name recvType recv args typeargs) m = false

theorem unchecked_invoke (h : IgnoresCalls P job) (type : Ty) (name : String)
    (recvType : Option Ty) (recv : Value) (args : List Value) (typeargs : Option (List Ty)) :
    Unchecked P job (invoke type name recvType recv args typeargs) :=
  .call (fun _ => rfl) (h type name recvType recv args typeargs).1
    (h type name recvType recv args typeargs).2

section
variable (h : Ignores P job .pattern) (hcalls : IgnoresCalls P job)
include h hcalls

theorem unchecked_matchEqElement
    (mtch : Value) (pattern : Expr) : Unchecked P job (matchEqElement P mtch pattern) := by
  have hother : Unchecked P job (eval .pattern pattern >>= fun evaluatedPattern =>
      invoke P.boolType "eq" mtch.type mtch [evaluatedPattern] none >>= fun equal =>
        assert equal.isBool >>= fun _ => equal.getBool) :=
    (unchecked_eval h pattern).bind fun v => (unchecked_invoke hcalls _ _ _ _ _ _).bind fun equal =>
      .bind (.assert _) fun _ => .getBool equal
  cases pattern with
  | dontcareref type => exact .pure true
  | capture name =>
    refine .bind .get fun s => ?_
    cases s.frames.newValue name mtch with
    | some frames => exact .bind (.modify _) fun _ => .pure true
    | none => exact .fail _
  | _ => exact hother

theorem unchecked_matchElems
    (vs : List Value) (patterns : List Expr) : Unchecked P job (matchElems P vs patterns) := by
  induction vs generalizing patterns with
  | nil => exact .pure true
  | cons v vs ih =>
    cases patterns with
    | nil => exact .fail _
    | cons pattern patterns =>
      cases pattern with
      | seq items =>
        cases items with
        | nil => exact .fail _
        | cons item items =>
          exact (unchecked_matchEqElement h hcalls v item).bind fun b =>
            .ite (ih patterns) (.pure false)
      | _ => exact .fail _

theorem unchecked_casePattern
    (mtch : Value) (pattern : Expr) : Unchecked P job (casePattern P mtch pattern) := by
  refine .bind (.getType mtch) fun type => .ite ?_ (unchecked_matchEqElement h hcalls mtch pattern)
  cases pattern with
  | tuple patterns type =>
    exact .bind (.getTuple mtch) fun vs => unchecked_matchElems h hcalls vs patterns
  | _ => exact .fail _

end

theorem unchecked_caseGuard (h : Ignores P job .guard) (guard : Option Expr) :
    Unchecked P job (caseGuard guard) := by
  cases guard with
  | none => exact .pure true
  | some guard =>
    exact (unchecked_eval h guard).bind fun v => .bind (.assert _) fun _ => .getBool v

theorem unchecked_isElems {is : Value → Value → M Bool} (h : ∀ l r, Unchecked P job (is l r))
    (ls rs : List Value) : Unchecked P job (isElems is ls rs) := by
  induction ls generalizing rs with
  | nil => exact .pure true
  | cons l ls ih =>
    cases rs with
    | nil => exact .pure true
    | cons r rs => exact (h l r).bind fun b => .ite (ih rs) (.pure false)

theorem unchecked_isOperator (hcalls : IgnoresCalls P job) (n : Nat) (left right : Value) :
    Unchecked P job (isOperator P n left right) := by
  induction n generalizing left right with
  | zero => exact .fail _
  | succ n ih =>
    refine .bind (.getType left) fun leftType => .bind (.getType right) fun rightType =>
      .ite (.ite (.ite (.ite ?_ (.pure true)) (.ite ?_ (.fail _))) (.ite ?_ (.fail _)))
        (.pure false)
    · exact (unchecked_invoke hcalls _ _ _ _ _ _).bind fun equal => .getBool equal
    · exact .bind (.getStructRef left) fun l => .bind (.getStructRef right) fun r => .pure _
    · exact .bind (.getTuple left) fun ls => .bind (.getTuple right) fun rs =>
        .ite (unchecked_isElems ih ls rs) (.pure false)

end

/-! ### Computations that ask for nothing -/

/-- The computation asks for nothing and ends, if it does, with a result that has `Q`. -/
def Silent {α : Type} (Q : α → Prop) (x : M α) : Prop :=
  ∀ s, (∃ a s', x s = .done (a, s') ∧ Q a) ∨ ∃ f, x s = .fail f

namespace Silent

variable {α β : Type} {Q : α → Prop} {R : β → Prop}

theorem pure {a : α} (h : Q a) : Silent Q (pure a : M α) := fun s => .inl ⟨a, s, rfl, h⟩

theorem fail : Silent Q (fail f : M α) := fun _ => .inr ⟨f, rfl⟩

theorem bind {x : M α} {g : α → M β} (hx : Silent Q x) (hg : ∀ a, Q a → Silent R (g a)) :
    Silent R (x >>= g) := by
  intro s
  have hbind : (x >>= g) s = (x s).bind fun a => g a.1 a.2 := rfl
  rw [hbind]
  rcases hx s with ⟨a, s', h, ha⟩ | ⟨f, h⟩
  · rw [h]
    exact hg a ha s'
  · rw [h]
    exact .inr ⟨f, rfl⟩

theorem ite {c : Prop} [Decidable c] {x y : M α} (hx : Silent Q x) (hy : Silent Q y) :
    Silent Q (if c then x else y) := by
  split
  · exact hx
  · exact hy

theorem newStruct (vars : Frame) : Silent (fun _ => True) (newStruct vars) :=
  fun _ => .inl ⟨_, _, rfl, trivial⟩

theorem modify (g : State → State) : Silent (fun _ => True) (modify g : M Unit) :=
  fun s => .inl ⟨(), g s, rfl, trivial⟩

theorem get : Silent (fun _ => True) (get : M State) := fun s => .inl ⟨s, s, rfl, trivial⟩

/-- The embedded fields of a new struct. -/
theorem populateMembers {embed : Ty → M (Option Value)}
    (hembed : ∀ type, Silent (fun _ => True) (embed type)) (vars : Frame) (members : List Member) :
    Silent (fun _ => True) (populateMembers embed vars members) := by
  induction members generalizing vars with
  | nil => exact .pure trivial
  | cons member members ih =>
    cases member with
    | field name =>
      simp only [Runner.populateMembers]
      cases vars.newValue name .empty with
      | some vars' => exact ih vars'
      | none => exact .pure trivial
    | embed name type =>
      refine (hembed type).bind fun v _ => ?_
      cases v with
      | none => exact .pure trivial
      | some v =>
        dsimp only
        cases vars.newValue name v with
        | some vars' => exact ih vars'
        | none => exact .pure trivial
    | other => exact ih vars

theorem populateStructMembers (P : Program) (n : Nat) (members : List Member) :
    Silent (fun _ => True) (populateStructMembers P n members) := by
  induction n generalizing members with
  | zero => exact .populateMembers (fun _ => .fail _) _ members
  | succ n ih =>
    refine .populateMembers (fun type => .ite ?_ (.pure trivial)) _ members
    refine (Silent.newStruct _).bind fun ref _ => (ih _).bind fun vars _ => ?_
    cases vars with
    | none => exact .pure trivial
    | some vars => exact (Silent.modify _).bind fun _ _ => .pure trivial

/-- The receiver of a constructor has no modifier. -/
theorem newReceiver (P : Program) (n : Nat) (recvType : Ty) :
    Silent (fun v => v.ctrlFlow = .none) (newReceiver P n recvType) := by
  cases recvType with
  | nominal entity name typeargs =>
    cases entity with
    | struct | cls =>
      refine .ite (.pure rfl) ((Silent.newStruct _).bind fun ref _ =>
        (populateStructMembers P n _).bind fun vars _ => ?_)
      cases vars with
      | none => exact .fail _
      | some vars => exact (Silent.modify _).bind fun _ _ => .pure rfl
    | primitive => exact .pure rfl
    | actor | interface | trait => exact .fail _
  | tuple elems | union members | other text => exact .fail _

theorem evaluateDecl (name : String) : Silent (fun _ => True) (evaluateDecl name) := by
  refine get.bind fun s _ => ?_
  cases s.frames.newValue name .empty with
  | some frames => exact (Silent.modify _).bind fun _ _ => .pure trivial
  | none => exact .fail _

theorem sound {P : Program} {job : Job} {Q : Value → Prop} {x : M Value} (hx : Silent Q x)
    (s : State) : Sound P job (x s) := by
  rcases hx s with ⟨a, s', h, -⟩ | ⟨f, h⟩
  · rw [h]
    exact sound_done _
  · rw [h]
    exact sound_fail f

end Silent

/-- The computation asks for nothing and keeps the state. -/
def Reads {α : Type} (x : M α) : Prop := ∀ s, (∃ a, x s = .done (a, s)) ∨ ∃ f, x s = .fail f

namespace Reads

variable {α β : Type}

theorem pure (a : α) : Reads (pure a : M α) := fun _ => .inl ⟨a, rfl⟩

theorem fail : Reads (fail f : M α) := fun _ => .inr ⟨f, rfl⟩

theorem bind {x : M α} {g : α → M β} (hx : Reads x) (hg : ∀ a, Reads (g a)) : Reads (x >>= g) := by
  intro s
  have hbind : (x >>= g) s = (x s).bind fun a => g a.1 a.2 := rfl
  rw [hbind]
  rcases hx s with ⟨a, h⟩ | ⟨f, h⟩
  · rw [h]
    exact hg a s
  · rw [h]
    exact .inr ⟨f, rfl⟩

theorem ite {c : Prop} [Decidable c] {x y : M α} (hx : Reads x) (hy : Reads y) :
    Reads (if c then x else y) := by
  split
  · exact hx
  · exact hy

theorem get : Reads (get : M State) := fun s => .inl ⟨s, rfl⟩

theorem assert (b : Bool) : Reads (assert b) := by
  cases b with
  | true => exact pure ()
  | false => exact fail .assertion

theorem getType : Reads v.getType := by
  rw [Value.getType]
  cases v.type with
  | some type => exact pure type
  | none => exact fail .assertion

theorem getStructRef : Reads v.getStructRef := by
  rw [Value.getStructRef]
  cases v.val with
  | struct ref => exact pure ref
  | _ => exact fail .assertion

theorem getTuple : Reads v.getTuple := by
  rw [Value.getTuple]
  cases v.val with
  | tuple elems => exact pure elems
  | _ => exact fail .assertion

theorem getStruct (ref : Nat) : Reads (getStruct ref) := by
  refine get.bind fun s => ?_
  cases s.heap[ref]? with
  | some vars => exact pure vars
  | none => exact fail .assertion

theorem getVariable (name message : String) : Reads (getVariable name message) := by
  refine get.bind fun s => ?_
  cases s.frames.getValue name with
  | some v => exact pure v
  | none => exact fail _

theorem readField (name : String) : Reads (readField receiver name) := by
  refine .ite (.bind (fail _) fun _ => ?_) ?_
  all_goals
    refine (getType receiver).bind fun type => .ite ((getStructRef receiver).bind fun ref =>
      (getStruct ref).bind fun vars => ?_) (fail _)
    cases vars name with
    | some v => exact pure v
    | none => exact fail _

theorem readElem (pos : Nat) : Reads (readElem receiver pos) := by
  refine (getType receiver).bind fun type => (assert _).bind fun _ =>
    (getTuple receiver).bind fun vs => ?_
  cases vs[pos]? with
  | some v => exact pure v
  | none => exact fail _

theorem recoverType (P : Program) (v : Value) (type : Ty) : Reads (recoverType P v type) := by
  cases type with
  | union members =>
    refine (getType v).bind fun valueType => ?_
    cases members.find? fun member => P.isSubtypeIgnoreCap member valueType with
    | some member => exact pure _
    | none => exact fail _
  | nominal entity name typeargs | tuple elems | other text => exact pure _

theorem sound {P : Program} {job : Job} {x : M Value} (hx : Reads x) (s : State) :
    Sound P job (x s) := by
  rcases hx s with ⟨a, h⟩ | ⟨f, h⟩
  · rw [h]
    exact sound_done _
  · rw [h]
    exact sound_fail f

end Reads

end SpacePony.Runner
