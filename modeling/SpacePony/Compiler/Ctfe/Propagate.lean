import SpacePony.Compiler.Ctfe.Abrupt

/-!
# Compiler — where abrupt completion propagates

Each construct of the runner against the rule of `Abrupt.lean`, and the result for whole runs.

* `step_sound`: one job, whose `try` has no `then` clause, ends well after exactly the answers that
  `passes` names.
* `abrupt_propagates_iff`: when abrupt completion propagates in a run of the runner.
-/

namespace SpacePony.Runner

open List

/-! ### The constructs -/

section
variable {P : Program} {role : Role} {job : Job}

variable {r : Role} {e : Expr} {f : Value → M Value}

/-- A subexpression that the runner does not look at. -/
theorem sound_eval_unchecked {s : State} (h : Ignores P job r)
    (hgo : ∀ v s', v.ctrlFlow = .none → Sound P job (f v s'))
    (hplain : ∀ v s', v.ctrlFlow ≠ .none → Plain (f v s')) : Sound P job ((eval r e >>= f) s) :=
  sound_unchecked (h.1 e) (h.2 e) hgo hplain

/-- A subexpression whose modifier the runner passes on. -/
theorem sound_eval_checked {s : State}
    (hpass : ∀ v s, v.ctrlFlow ≠ .none → passes P job (.evaluate r e) v s = true)
    (hgo : ∀ v s', v.ctrlFlow = .none ∨ handles job (.evaluate r e) v.ctrlFlow = true →
      Sound P job (f v s'))
    (hend : ∀ v s', v.ctrlFlow ≠ .none → handles job (.evaluate r e) v.ctrlFlow = false →
      ∃ s'', f v s' = .done (v, s'') ∧ s''.heap = s'.heap ∧ s''.memory = s'.memory ∧
        s''.frames <:+ s'.frames) : Sound P job ((eval r e >>= f) s) :=
  sound_checked hpass hgo hend

/-- A subexpression whose value is the value of the job, in the frame below. -/
theorem sound_eval_pop {s : State} (hpass : ∀ v s, passes P job (.evaluate r e) v s = true) :
    Sound P job ((eval r e >>= fun v => popFrame >>= fun _ => (pure v : M Value)) s) :=
  sound_checked (fun v s _ => hpass v s) (fun _ _ _ => sound_done _) fun _ s' _ _ =>
    ⟨s'.pop, rfl, rfl, rfl, tail_suffix _⟩

/-- A subexpression whose value is the value of the job. -/
theorem sound_eval {s : State} (hpass : ∀ v s, passes P job (.evaluate r e) v s = true) :
    Sound P job (eval r e s) :=
  sound_checked (fun v s _ => hpass v s) (fun _ _ _ => sound_done _) fun _ s' _ _ =>
    ⟨s', rfl, rfl, rfl, suffix_rfl⟩

/-- The method of a call asks for one job, unless the calls are too deep. -/
theorem invokeDeeper_bind (type : Ty) (name : String) (recvType : Option Ty) (recv : Value)
    (args : List Value) (typeargs : Option (List Ty)) (f : Value → M Value) (s : State) :
    (∃ e, (invokeDeeper P type name recvType recv args typeargs >>= f) s = .fail e) ∨
      (invokeDeeper P type name recvType recv args typeargs >>= f) s =
        .call (.callMethod type name recvType recv args typeargs) { s with depth := s.depth + 1 }
          fun v s' => f v { s' with depth := s'.depth - 1 } := by
  rw [invokeDeeper, bind_assoc, modify_bind_apply, bind_assoc, get_bind_apply]
  by_cases h : P.maxRecursionDepth ≤ s.depth + 1
  · left
    simp only [if_pos h]
    exact ⟨_, rfl⟩
  right
  simp only [if_neg h]
  rfl

theorem sound_invokeDeeper {type : Ty} {name : String} {recvType : Option Ty}
    {recv recVal : Value} {args : List Value} {typeargs : Option (List Ty)} {own : Bool} {s : State}
    (hpass : ∀ v s, passes P job (.callMethod type name recvType recv args typeargs) v s = own)
    (hhandles : ∀ m, handles job (.callMethod type name recvType recv args typeargs) m = false)
    (hrec : recVal.ctrlFlow = .none) :
    Sound P job ((invokeDeeper P type name recvType recv args typeargs >>= fun v =>
      (pure (if own then v else recVal) : M Value)) s) := by
  rcases invokeDeeper_bind type name recvType recv args typeargs
    (fun v => (pure (if own then v else recVal) : M Value)) s with ⟨e, he⟩ | he
  · rw [he]
    exact sound_fail e
  rw [he]
  cases own with
  | false =>
    exact sound_unchecked hpass hhandles (fun _ _ _ => sound_done _)
      fun _ _ _ => plain_done _ hrec
  | true =>
    exact sound_checked (fun v s _ => hpass v s) (fun _ _ _ => sound_done _)
      fun _ _ _ _ => ⟨_, rfl, rfl, rfl, suffix_rfl⟩

theorem plain_invokeDeeper {type : Ty} {name : String} {recvType : Option Ty} {recv : Value}
    {args : List Value} {typeargs : Option (List Ty)} {s : State} :
    Plain ((invokeDeeper P type name recvType recv args typeargs >>= f) s) := by
  rcases invokeDeeper_bind type name recvType recv args typeargs f s with ⟨e, he⟩ | he
  · rw [he]
    exact plain_fail e
  · rw [he]
    exact plain_call _ _ _

/-- A computation that is in order and ends, if right away, without a modifier. -/
def Proceeds (P : Program) (job : Job) (x : M Value) : Prop :=
  ∀ s, Sound P job (x s) ∧ Plain (x s)

theorem Unchecked.proceeds {α : Type} {x : M α} {f : α → M Value} (hx : Unchecked P job x)
    (hf : ∀ a, Proceeds P job (f a)) : Proceeds P job (x >>= f) :=
  fun s => hx f s (fun a s' => (hf a s').1) fun a s' => (hf a s').2

theorem proceeds_ite {c : Prop} [Decidable c] {x y : M Value} (hx : Proceeds P job x)
    (hy : Proceeds P job y) : Proceeds P job (if c then x else y) := by
  split
  · exact hx
  · exact hy

theorem proceeds_eval_pop (hpass : ∀ v s, passes P job (.evaluate r e) v s = true) :
    Proceeds P job (eval r e >>= fun v => popFrame >>= fun _ => (pure v : M Value)) :=
  fun _ => ⟨sound_eval_pop hpass, plain_call _ _ _⟩

/-- A subexpression that the runner does not look at, before a computation that goes on. -/
theorem sound_eval_proceeds {s : State} (h : Ignores P job r) (hf : ∀ v, Proceeds P job (f v)) :
    Sound P job ((eval r e >>= f) s) :=
  sound_eval_unchecked h (fun v s' _ => (hf v s').1) fun v s' _ => (hf v s').2

theorem proceeds_fail (f : Failure) : Proceeds P job (fail f : M Value) :=
  fun _ => ⟨sound_fail f, plain_fail f⟩

theorem proceeds_pure {v : Value} (h : v.ctrlFlow = .none) : Proceeds P job (pure v : M Value) :=
  fun s => ⟨sound_done _, plain_done s h⟩

theorem proceeds_eval (hpass : ∀ v s, passes P job (.evaluate r e) v s = true) :
    Proceeds P job (eval r e) :=
  fun _ => ⟨sound_eval hpass, plain_call _ _ _⟩

variable (n : Nat)

/-- A constructor: the receiver is the value of the call, unless it is a machine word. -/
theorem sound_construct (recvType : Ty) (name : String) (typeargs : Option (List Ty))
    (args : List Expr) (type : Ty) (s : State) :
    Sound P (.evaluate role (.construct recvType name typeargs args type))
      (evaluateConstruct P n recvType name typeargs args type s) := by
  have hbind : evaluateConstruct P n recvType name typeargs args type s =
      (newReceiver P n recvType s).bind fun a => (evalArgs args >>= fun args =>
        invokeDeeper P type name (some recvType) a.1 args typeargs >>= fun v =>
          (pure (if type.isMachineWord || type.isPointer then v else a.1) : M Value)) a.2 := rfl
  rw [hbind]
  rcases Silent.newReceiver P n recvType s with ⟨recVal, s', h, hrec⟩ | ⟨f, h⟩
  · rw [h]
    refine (unchecked_evalArgs ⟨fun _ _ _ => rfl, fun _ _ => rfl⟩ args _ s' (fun vs s'' => ?_)
      fun vs s'' => plain_invokeDeeper).1
    exact sound_invokeDeeper (fun _ _ => rfl) (fun _ => rfl) hrec
  · rw [h]
    exact sound_fail f

/-- A method call: with `.>` the receiver is the value of the call, unless it is a machine word. -/
theorem sound_method (chain : Bool) (receiver : Expr) (recvType : Ty) (name : String)
    (typeargs : Option (List Ty)) (args : List Expr) (type : Ty) (s : State) :
    Sound P (.evaluate role (.call chain receiver recvType name typeargs args type))
      (evaluateMethod P chain receiver recvType name typeargs args type s) := by
  refine sound_eval_unchecked ⟨fun _ _ _ => rfl, fun _ _ => rfl⟩ (fun recVal s' hrec => ?_)
    fun recVal s' _ => ?_
  · refine (unchecked_evalArgs ⟨fun _ _ _ => rfl, fun _ _ => rfl⟩ args _ s' (fun vs s'' => ?_)
      fun vs s'' => plain_invokeDeeper).1
    have hvalue : (fun returnValue => (pure (if (type.isMachineWord || type.isPointer) = true then
        returnValue else if chain = true then recVal else returnValue) : M Value)) =
        fun v => (pure (if (type.isMachineWord || type.isPointer || !chain) = true then v
          else recVal) : M Value) := by
      funext v
      cases chain <;> cases (type.isMachineWord || type.isPointer) <;> rfl
    rw [hvalue]
    exact sound_invokeDeeper (fun _ _ => rfl) (fun _ => rfl) hrec
  cases args with
  | nil =>
    rw [evalArgs, pure_bind]
    exact plain_invokeDeeper
  | cons arg args => exact plain_call _ _ _

theorem sound_seq (all items : List Expr) (v : Value) (s : State) :
    Sound P (.evaluate role (.seq all)) (evaluateSeq v items s) := by
  induction items generalizing v s with
  | nil => exact sound_done _
  | cons item items ih =>
    refine sound_eval_checked (fun _ _ _ => rfl) (fun v s' hv => ?_) fun v s' hv _ => ?_
    · rcases hv with hv | hv
      · rw [if_pos hv]
        exact ih v s'
      · cases hv
    · rw [if_neg hv]
      exact ⟨s', rfl, rfl, rfl, suffix_rfl⟩

theorem sound_if (condition thenBranch elseBranch : Expr) (s : State) :
    Sound P (.evaluate role (.ite condition thenBranch elseBranch))
      (evaluateIf condition thenBranch elseBranch s) := by
  refine sound_eval_proceeds ⟨fun _ _ _ => rfl, fun _ _ => rfl⟩ fun v => ?_
  refine (Unchecked.assert v.isBool).proceeds fun _ => ?_
  refine Unchecked.proceeds (.modify State.push) fun _ => ?_
  exact (Unchecked.getBool v).proceeds fun c =>
    proceeds_ite (proceeds_eval_pop fun _ _ => rfl) (proceeds_eval_pop fun _ _ => rfl)

/-- A target of an assignment, after both sides. -/
theorem sound_assign (left right : Expr) (s : State) :
    Sound P (.evaluate role (.assign left right)) (evaluateAssign n left right s) := by
  refine sound_eval_unchecked ⟨fun _ _ _ => rfl, fun _ _ => rfl⟩ (fun leftValue s' hleft => ?_)
    fun leftValue s' _ => plain_call _ _ _
  have hrest := fun (v : Value) (s : State) =>
    @unchecked_leftSideAssign P (.evaluate role (.assign left right))
      ⟨fun _ _ _ => rfl, fun _ _ => rfl⟩ n left v (fun _ => pure leftValue) s
      (fun _ _ => sound_done _) fun _ s => plain_done s hleft
  exact sound_eval_unchecked ⟨fun _ _ _ => rfl, fun _ _ => rfl⟩ (fun v s' _ => (hrest v s').1)
    fun v s' _ => (hrest v s').2

/-- The cases of a match: the patterns and the guards are not looked at. -/
theorem proceeds_matchCases (operand : Expr) (all cases : List Case) (elseBody : Expr) (v : Value) :
    Proceeds P (.evaluate role (.mtch operand all elseBody)) (matchCases P v elseBody cases) := by
  induction cases with
  | nil =>
    exact Unchecked.proceeds (.modify State.push) fun _ => proceeds_eval_pop fun _ _ => rfl
  | cons case cases ih =>
    obtain ⟨pattern, patternType, guard, body⟩ := case
    have hnext : Proceeds P (.evaluate role (.mtch operand all elseBody))
        (popFrame >>= fun _ => matchCases P v elseBody cases) :=
      Unchecked.proceeds (.modify State.pop) fun _ => ih
    refine (unchecked_caseIsSubtype v patternType).proceeds fun _ => proceeds_ite ?_ ih
    refine Unchecked.proceeds (.modify State.push) fun _ => ?_
    refine (unchecked_casePattern ⟨fun _ _ _ => rfl, fun _ _ => rfl⟩
      (fun _ _ _ _ _ _ => ⟨fun _ _ => rfl, fun _ => rfl⟩) v pattern).proceeds fun _ =>
        proceeds_ite ?_ hnext
    exact (unchecked_caseGuard ⟨fun _ _ _ => rfl, fun _ _ => rfl⟩ guard).proceeds fun _ =>
      proceeds_ite (proceeds_eval_pop fun _ _ => rfl) hnext

/-- The loop of a `while`: the body's returns and errors are passed on, the condition is not looked
at. -/
theorem proceeds_whileLoop (cond body elseBody : Expr) (n : Nat) (c v : Value)
    (hv : v.ctrlFlow = .none) :
    Proceeds P (.evaluate role (.loop cond body elseBody)) (whileLoop cond body n c v) := by
  induction n generalizing c v with
  | zero =>
    exact (Unchecked.getBool c).proceeds fun b => proceeds_ite (proceeds_fail _) (proceeds_pure hv)
  | succ n ih =>
    refine (Unchecked.getBool c).proceeds fun b => proceeds_ite ?_ (proceeds_pure hv)
    refine Unchecked.proceeds (.modify State.push) fun _ s => ⟨?_, plain_call _ _ _⟩
    have hcond : ∀ v : Value, Proceeds P (.evaluate role (.loop cond body elseBody))
        (eval .cond cond >>= fun c => whileLoop cond body n c v.clearModifier) := fun v s =>
      ⟨sound_eval_proceeds ⟨fun _ _ _ => rfl, fun _ _ => rfl⟩ fun c =>
        ih c v.clearModifier v.ctrlFlow_clearModifier, plain_call _ _ _⟩
    refine sound_eval_checked (fun _ _ _ => rfl) (fun v s' _ => ?_) fun v s' hv hh => ?_
    · rw [popFrame_bind_apply]
      cases v.ctrlFlow with
      | none | cont => exact (hcond v s'.pop).1
      | brk valued | ret | error => exact sound_done _
    rw [popFrame_bind_apply]
    cases hm : v.ctrlFlow with
    | none => exact absurd hm hv
    | cont | brk valued => rw [hm] at hh; cases hh
    | ret | error => exact ⟨s'.pop, rfl, rfl, rfl, tail_suffix _⟩

theorem sound_while (cond body elseBody : Expr) (s : State) :
    Sound P (.evaluate role (.loop cond body elseBody)) (evaluateWhile n cond body elseBody s) := by
  refine sound_eval_proceeds ⟨fun _ _ _ => rfl, fun _ _ => rfl⟩ fun c => ?_
  refine (Unchecked.assert c.isBool).proceeds fun _ => (Unchecked.getBool c).proceeds fun b => ?_
  exact proceeds_ite (proceeds_whileLoop cond body elseBody n c .empty rfl)
    (proceeds_eval fun _ _ => rfl)

/-- The loop of a `repeat`. -/
theorem proceeds_repeatLoop (body cond elseBody : Expr) (n : Nat) :
    Proceeds P (.evaluate role (.rept body cond elseBody)) (repeatLoop body cond elseBody n) := by
  induction n with
  | zero => exact proceeds_fail _
  | succ n ih =>
    refine Unchecked.proceeds (.modify State.push) fun _ s => ⟨?_, plain_call _ _ _⟩
    -- the condition after a body that completed with `m`, where the loop may end
    have hcond : ∀ (m : Modifier) (v : Value), (m ≠ .cont → v.ctrlFlow = .none) →
        Proceeds P (.evaluate role (.rept body cond elseBody)) (eval .cond cond >>= fun c =>
          c.getBool >>= fun b => if b then
            if m = .cont then pushFrame >>= fun _ => eval .elseBody elseBody >>= fun v =>
              popFrame >>= fun _ => pure v
            else pure v
          else repeatLoop body cond elseBody n) := by
      intro m v hv s
      refine ⟨sound_eval_proceeds ⟨fun _ _ _ => rfl, fun _ _ => rfl⟩ fun c => ?_, plain_call _ _ _⟩
      refine (Unchecked.getBool c).proceeds fun b => proceeds_ite ?_ ih
      by_cases hm : m = .cont
      · rw [if_pos hm]
        exact Unchecked.proceeds (.modify State.push) fun _ => proceeds_eval_pop fun _ _ => rfl
      · rw [if_neg hm]
        exact proceeds_pure (hv hm)
    refine sound_eval_checked (fun _ _ _ => rfl) (fun v s' _ => ?_) fun v s' hv hh => ?_
    · rw [popFrame_bind_apply]
      cases hm : v.ctrlFlow with
      | none => exact (hcond .none v (fun _ => hm) s'.pop).1
      | cont => exact (hcond .cont v (fun h => absurd rfl h) s'.pop).1
      | brk valued | ret | error => exact sound_done _
    rw [popFrame_bind_apply]
    cases hm : v.ctrlFlow with
    | none => exact absurd hm hv
    | cont | brk valued => rw [hm] at hh; cases hh
    | ret | error => exact ⟨s'.pop, rfl, rfl, rfl, tail_suffix _⟩

theorem sound_repeat (body cond elseBody : Expr) (s : State) :
    Sound P (.evaluate role (.rept body cond elseBody)) (evaluateRepeat n body cond elseBody s) :=
  sound_eval_proceeds ⟨fun _ _ _ => rfl, fun _ _ => rfl⟩ fun _ =>
    proceeds_repeatLoop body cond elseBody n

theorem sound_try (tryBody elseBody : Expr) (thenClause : Option Expr) (s : State) :
    Sound P (.evaluate role (.tryElse tryBody elseBody thenClause))
      (evaluateTry tryBody elseBody thenClause s) := by
  refine sound_eval_checked (fun _ _ _ => rfl) (fun v s' _ => ?_) fun v s' hv hh => ?_
  · split
    · exact sound_eval fun _ _ => rfl
    · exact sound_done _
  have hm : v.ctrlFlow ≠ .error := by
    intro hm
    rw [hm] at hh
    cases hh
  rw [if_neg hm]
  exact ⟨s', rfl, rfl, rfl, suffix_rfl⟩

/-- A value that is empty is taken for a type test that failed. -/
theorem sound_iftypeSet (iftype elseClause : Expr) (s : State) :
    Sound P (.evaluate role (.iftypeSet iftype elseClause))
      ((eval .cond iftype >>= iftypeElse elseClause) s) := by
  intro v s'
  have hpass : passes P (.evaluate role (.iftypeSet iftype elseClause)) (.evaluate .cond iftype) v s' =
    v.type.isSome := rfl
  cases htype : v.type with
  | none =>
    have hrest : Proceeds P (.evaluate role (.iftypeSet iftype elseClause))
        (iftypeElse elseClause v) := by
      rw [iftypeElse, htype]
      exact (Unchecked.getBool v).proceeds fun b => proceeds_ite (proceeds_fail _)
        (Unchecked.proceeds (.modify State.push) fun _ => proceeds_eval_pop fun _ _ => rfl)
    rw [htype] at hpass
    exact ⟨fun _ => (hrest s').1, fun hab _ => (hrest s').2.misses _ hab.1 s',
      fun _ hex => absurd hpass hex⟩
  | some type =>
    have hrest : iftypeElse elseClause v s' = .done (v, s') := by
      rw [iftypeElse, htype]
      rfl
    rw [htype] at hpass
    refine ⟨fun _ => ?_, fun _ hex => ?_, fun _ _ => ⟨v, s', hrest, v.ctrlFlow.same_self, rfl, rfl,
      suffix_rfl⟩⟩
    · have hsound : Sound P (.evaluate role (.iftypeSet iftype elseClause))
          (iftypeElse elseClause v s') := by
        rw [hrest]
        exact sound_done _
      exact hsound
    · cases hpass.symm.trans hex

/-- The operand of a `return` or a `break`. -/
theorem sound_setModifier {m : Modifier} {s : State}
    (hpass : ∀ v s, passes P job (.evaluate .operand e) v s = v.ctrlFlow.same m) :
    Sound P job ((eval .operand e >>= fun v => (pure (v.setModifier m) : M Value)) s) := by
  refine @sound_through P job (.evaluate .operand e) s (fun v => pure (v.setModifier m))
    (fun v s => ?_) fun v => Reads.pure _
  rw [hpass, gives, pure_apply, Modifier.same_comm]
  simp

theorem unchecked_bindFrame (method : Method) (recv : Value) (args : List Value) :
    Unchecked P job (bindFrame method recv args) := by
  have hparams : Unchecked P job (if (!method.params.isEmpty) = true then
      bindParams method.params args else pure PUnit.unit) :=
    .ite (unchecked_bindParams method.params args) (.pure _)
  exact .bind (.modify State.push) fun _ => .ite (.bind (.modify _) fun _ => hparams) hparams

/-- A method call: the modifiers of the body other than a `return` are passed on. -/
theorem sound_callMethod (type : Ty) (name : String) (recvType : Option Ty) (recv : Value)
    (args : List Value) (typeargs : Option (List Ty)) (s : State) :
    Sound P (.callMethod type name recvType recv args typeargs)
      (callMethod P type name recvType recv args typeargs s) := by
  have hbody : ∀ method, Proceeds P (.callMethod type name recvType recv args typeargs)
      (runBody name method) := by
    intro method
    rw [runBody]
    cases method.body with
    | none | intrinsic => exact proceeds_fail _
    | seq e =>
      refine fun s => ⟨sound_eval_checked (fun _ _ _ => rfl) (fun _ _ _ => sound_done _)
        fun v s' hv hh => ?_, plain_call _ _ _⟩
      have hm : v.ctrlFlow ≠ .ret := by
        intro hm
        rw [hm] at hh
        cases hh
      rw [if_neg hm]
      exact ⟨s'.pop, rfl, rfl, rfl, tail_suffix _⟩
  unfold callMethod
  rw [get_bind_apply]
  cases P.runMethod type recv args typeargs name s with
  | done v s' => exact sound_done _
  | failed f => exact sound_fail f
  | unknown =>
    cases recvType with
    | none => exact sound_fail _
    | some t =>
      have hall : Proceeds P (.callMethod type name (some t) recv args typeargs)
          (callReified P name t recv args typeargs) := by
        refine proceeds_ite ((Unchecked.getType recv).proceeds fun t => ?_)
          ((Unchecked.pure t).proceeds fun t => ?_)
        all_goals
          dsimp only
          cases P.reifiedMethod t typeargs name with
          | none => exact proceeds_fail _
          | some method =>
            exact (unchecked_bindFrame method recv args).proceeds fun _ => hbody method
      exact (hall s).1

theorem sound_callFfi (name : String) (returnType : Ty) (args : List Value) (s : State) :
    Sound P (.ffiCall name returnType args) (callFfi P name returnType args s) := by
  rw [callFfi, get_bind_apply]
  cases P.ffi name returnType args s with
  | unknown => exact sound_fail _
  | done v s' => exact sound_done _
  | failed f => exact sound_fail f

/-- A function of another language, after its arguments. -/
theorem sound_fficall (name : String) (args : List Expr) (returnType : Ty) (s : State) :
    Sound P (.evaluate role (.fficall name args returnType))
      ((evalArgs args >>= fun args => invokeFfi name returnType args) s) := by
  refine ((unchecked_evalArgs ⟨fun _ _ _ => rfl, fun _ _ => rfl⟩ args).proceeds
    (fun vs s' => ⟨?_, plain_call _ _ _⟩) s).1
  exact sound_checked (fun _ _ _ => rfl) (fun _ _ _ => sound_done _) fun _ s' _ _ =>
    ⟨s', rfl, rfl, rfl, suffix_rfl⟩

theorem sound_is (recv that : Expr) (type : Ty) (s : State) :
    Sound P (.evaluate role (.is recv that type)) ((eval .left recv >>= fun recvValue =>
      eval .right that >>= fun thatValue => isOperator P n recvValue thatValue >>= fun b =>
        (pure (.mk (some type) .none (.bool b)) : M Value)) s) := by
  refine sound_eval_proceeds ⟨fun _ _ _ => rfl, fun _ _ => rfl⟩ fun recvValue => ?_
  refine (unchecked_eval ⟨fun _ _ _ => rfl, fun _ _ => rfl⟩ that).proceeds fun thatValue => ?_
  exact (unchecked_isOperator (fun _ _ _ _ _ _ => ⟨fun _ _ => rfl, fun _ => rfl⟩) n recvValue
    thatValue).proceeds fun b => proceeds_pure rfl

/-- **One job** ends well after exactly the answers that `passes` names. -/
theorem step_sound (P : Program) (n : Nat) (job : Job) (s : State) :
    Sound P job (step P constructs n job s) := by
  cases job with
  | callMethod type name recvType recv args typeargs =>
    exact sound_callMethod type name recvType recv args typeargs s
  | ffiCall name returnType args => exact sound_callFfi name returnType args s
  | evaluate role e =>
    cases e with
    | none type | dontcareref type | bool b type | int i type => exact sound_done _
    | float bits type =>
      exact ((Unchecked.assert _).proceeds (fun _ => proceeds_pure rfl) s).1
    | string length address type sizeType allocType ptrType => exact sound_done _
    | this | paramref name => exact (Reads.getVariable _ _).sound s
    | inner e => exact sound_eval fun _ _ => rfl
    | construct recvType name typeargs args type =>
      exact sound_construct n recvType name typeargs args type s
    | call chain receiver recvType name typeargs args type =>
      exact sound_method chain receiver recvType name typeargs args type s
    | seq items => exact sound_seq items items .empty s
    | ite cond thenBranch elseBranch => exact sound_if cond thenBranch elseBranch s
    | ret e => exact sound_setModifier fun _ _ => rfl
    | decl name => exact (Silent.evaluateDecl name).sound s
    | ref name | capture name => exact (Reads.getVariable _ _).sound s
    | field receiver name => exact sound_through (fun _ _ => rfl) fun v => Reads.readField v name
    | assign left right => exact sound_assign n left right s
    | loop cond body elseBody => exact sound_while n cond body elseBody s
    | rept body cond elseBody => exact sound_repeat n body cond elseBody s
    | cont => exact sound_done _
    | brk e =>
      cases e with
      | none => exact sound_done _
      | some e => exact sound_setModifier fun _ _ => rfl
    | error => exact sound_done _
    | tryElse tryBody elseBody thenClause => exact sound_try tryBody elseBody thenClause s
    | tuple elems type =>
      exact ((unchecked_evalElems ⟨fun _ _ _ => rfl, fun _ _ => rfl⟩ elems).proceeds
        (fun _ => proceeds_pure rfl) s).1
    | tupleelemref receiver pos =>
      exact sound_through (fun _ _ => rfl) fun v => Reads.readElem v pos
    | iftypeSet iftype elseClause => exact sound_iftypeSet iftype elseClause s
    | iftype left right thenBody =>
      exact (proceeds_ite (Unchecked.proceeds (.modify State.push) fun _ =>
        proceeds_eval_pop fun _ _ => rfl) (proceeds_pure rfl) s).1
    | fficall name args returnType => exact sound_fficall name args returnType s
    | recover e type => exact sound_through (fun _ _ => rfl) fun v => Reads.recoverType P v type
    | mtch operand cases elseBody =>
      exact sound_eval_proceeds ⟨fun _ _ _ => rfl, fun _ _ => rfl⟩
        (proceeds_matchCases operand cases cases elseBody)
    | is recv that type => exact sound_is n recv that type s
    | sizeof exprType type => exact (proceeds_ite (proceeds_pure rfl) (proceeds_fail _) s).1
    | unsupported text => exact sound_fail _

end

/-! ### `then` clauses, and whole runs -/

section
variable {P : Program}

/-- Jobs without a `then` clause are the same in both evaluations. -/
theorem step_withThen (P : Program) (n : Nat) {job : Job} (h : ∀ role tryBody elseBody thenClause,
      job ≠ .evaluate role (.tryElse tryBody elseBody (some thenClause))) :
    step P withThen n job = step P constructs n job := by
  cases job with
  | callMethod | ffiCall => rfl
  | evaluate role e =>
    cases e with
    | tryElse tryBody elseBody thenClause =>
      cases thenClause with
      | some t => exact absurd rfl (h role tryBody elseBody t)
      | none => exact bind_pure (evaluateTry tryBody elseBody none)
    | brk e => cases e <;> rfl
    | _ => rfl

theorem guard_eq_none_iff (job : Job) (start : State) (c : Job) (v : Value) (s : State) :
    guard P job start c v s = none ↔ ¬ ((watch job).abrupt c v ∧ exposed P job c v s) := by
  rw [guard]
  split
  case isTrue h => exact iff_of_false nofun (not_not_intro ⟨⟨h.1, h.2.1⟩, h.2.2⟩)
  case isFalse h => exact iff_of_true rfl fun hab => h ⟨hab.1.1, hab.1.2, hab.2⟩

/-- A job without a `then` clause. -/
theorem stepMatches_of_sound {Rule Clean : Job → Record → Prop} {ev₁ ev₂ : Job → State → Record}
    (hev : RunsMatch Rule Clean ev₁ ev₂) {job : Job} {s : State} {p : Comp} (hp : Sound P job p)
    (hthen : ∀ record, ThenOnce job record ∧ ThenUnreached job record) :
    StepMatches Rule Clean (Propagates job) (Unexposed P job) (drive ev₁ p)
      (driveUntil (guard P job s) ev₂ p) := by
  obtain ⟨hiff, heq⟩ := hp.stepMatches (guard_eq_none_iff job s) hev
  refine ⟨?_, fun h => heq ⟨h.1.1, h.2⟩⟩
  simp only [Propagates, Unexposed, (hthen _).1, (hthen _).2, and_true]
  exact hiff

/-- The rest of a `try` after its body. -/
def afterTry (elseBody : Expr) (v : Value) : M Value :=
  if v.ctrlFlow = .error then eval .elseBody elseBody else pure v

/-- The rest of a `try` with its `then` clause. -/
def thenAfter (t : Expr) (v : Value) : M Value := eval .thenClause t >>= fun _ => pure v

section
variable {ev₁ ev₂ : Job → State → Record} {role : Role} {tryBody elseBody t : Expr}
  {s s' start : State} {own : Record}

/-- Two runs that are the same, and in order. -/
theorem stepMatches_same {rule clean : Record → Prop} {record : Record} (hrule : rule record)
    (hclean : clean record) (hbelow : record.Below Propagates) (hbelow' : record.Below (Unexposed P)) :
    StepMatches Propagates (Unexposed P) rule clean record record :=
  ⟨iff_of_true ⟨hrule, hbelow⟩ ⟨hclean, hbelow'⟩, fun _ => rfl⟩

/-- A `try` that is left without its `then` clause breaks the rule. -/
theorem not_propagates_of_done {record : Record} {v : Value}
    (hending : record.ending = .done v s) (hthen : record.calls.countP Job.isThen = 0) :
    ¬ Propagates (.evaluate role (.tryElse tryBody elseBody (some t))) record := by
  intro h
  have hone : record.calls.countP Job.isThen = 1 := h.2 ⟨v, s, hending⟩
  rw [hthen] at hone
  cases hone

/-- The `then` clause comes next. -/
theorem calls_thenAfter (stop : Job → Value → State → Option (Value × State)) (v : Value) :
    (driveUntil stop ev₂ (thenAfter t v s)).calls.countP Job.isThen ≠ 0 := by
  have hcall : thenAfter t v s = .call (.evaluate .thenClause t) s fun _ s' => .done (v, s') := rfl
  rw [hcall, driveUntil_call]
  simp [Job.isThen]

/-- A `try` whose `then` clause comes next after the answer to `c` is not clean. -/
theorem not_unreached_of_thenAfter (stop : Job → Value → State → Option (Value × State))
    (c : Job) (v : Value) : ¬ ThenUnreached (.evaluate role (.tryElse tryBody elseBody (some t)))
      (.call c s' own (driveUntil stop ev₂ (thenAfter t v s))) := by
  intro h
  have hzero : (c :: (driveUntil stop ev₂ (thenAfter t v s)).calls).countP Job.isThen = 0 := h
  rw [countP_cons] at hzero
  exact calls_thenAfter stop v (Nat.eq_zero_of_add_eq_zero_right hzero)

/-- **A `try` with a `then` clause**: the runner never evaluates it. -/
theorem stepMatches_try (hev : RunsMatch Propagates (Unexposed P) ev₁ ev₂) :
    StepMatches Propagates (Unexposed P)
      (Propagates (.evaluate role (.tryElse tryBody elseBody (some t))))
      (Unexposed P (.evaluate role (.tryElse tryBody elseBody (some t))))
      (drive ev₁ (evaluateTry tryBody elseBody (some t) s))
      (driveUntil (guard P (.evaluate role (.tryElse tryBody elseBody (some t))) start) ev₂
        (evaluateTryThen tryBody elseBody (some t) s)) := by
  have hp₁ : evaluateTry tryBody elseBody (some t) s =
      .call (.evaluate .body tryBody) s fun v s' => afterTry elseBody v s' := rfl
  have hp₂ : evaluateTryThen tryBody elseBody (some t) s =
      .call (.evaluate .body tryBody) s fun v s' => (afterTry elseBody v >>= thenAfter t) s' := rfl
  -- the positions of a `try` are all checked
  have hgo : ∀ r e v s, r = .body ∨ r = .elseBody →
      guard P (.evaluate role (.tryElse tryBody elseBody (some t))) start (.evaluate r e) v s =
        none := by
    rintro r e v s (rfl | rfl)
    · exact (guard_eq_none_iff _ _ _ _ _).2 fun h => nomatch h.2
    · exact (guard_eq_none_iff _ _ _ _ _).2 fun h => nomatch h.2
  rw [hp₁, hp₂, drive_call, driveUntil_call]
  refine .of_call hev fun hru hcl hown => ?_
  rw [← drive_call, ← driveUntil_call]
  cases he : (ev₂ (.evaluate .body tryBody) s).ending with
  | failed f =>
    rw [drive_call_failed (hown ▸ he), driveUntil_call_failed he, hown]
    refine stepMatches_same ⟨⟨fun v s' h => ?_, trivial⟩, fun h => ?_⟩
      ⟨⟨fun v s' h => ?_, trivial⟩, ?_⟩ ⟨hown ▸ hru, trivial⟩ ⟨hcl, trivial⟩
    · cases he.symm.trans h
    · obtain ⟨v, s', h⟩ := h
      cases h
    · cases he.symm.trans h
    · simp [ThenUnreached, Job.isThen]
  | done v s' =>
    rw [drive_call_done (hown ▸ he), driveUntil_call_go he (hgo _ _ _ _ (.inl rfl))]
    by_cases hv : v.ctrlFlow = .error
    · have hafter : afterTry elseBody v = eval .elseBody elseBody := if_pos hv
      rw [hafter, eval_apply, eval_bind_apply]
      obtain ⟨hiff', heq'⟩ := hev (.evaluate .elseBody elseBody) s'
      by_cases hcl' : (ev₂ (.evaluate .elseBody elseBody) s').Everywhere (Unexposed P)
          (.evaluate .elseBody elseBody)
      case neg =>
        refine .of_false (fun h => ?_) fun h => ?_
        · rw [drive_call] at h
          exact hcl' (hiff'.1 h.2.2.1)
        · rw [driveUntil_call] at h
          exact hcl' h.2.2.1
      have hown' := heq' hcl'
      cases he' : (ev₂ (.evaluate .elseBody elseBody) s').ending with
      | failed f =>
        rw [drive_call_failed (hown' ▸ he'), driveUntil_call_failed he', hown, hown']
        -- the error of the body is the `try`'s own
        have hhandled : ∀ {A : Value → State → Prop} w q,
            (ev₂ (.evaluate .body tryBody) s).ending = .done w q →
            (watch (.evaluate role (.tryElse tryBody elseBody (some t)))).abrupt
              (.evaluate .body tryBody) w → A w q := by
          intro A w q h hab
          cases he.symm.trans h
          have hh := hab.2
          rw [hv] at hh
          cases hh
        have hfailed : ∀ {A : Value → State → Prop} w q,
            (ev₂ (.evaluate .elseBody elseBody) s').ending = .done w q → A w q :=
          fun w q h => nomatch he'.symm.trans h
        refine stepMatches_same ⟨⟨hhandled, hfailed, trivial⟩, fun h => ?_⟩
          ⟨⟨hhandled, hfailed, trivial⟩, ?_⟩ ⟨hown ▸ hru, hown' ▸ hiff'.2 hcl', trivial⟩
          ⟨hcl, hcl', trivial⟩
        · obtain ⟨w, q, h⟩ := h
          cases h
        · simp [ThenUnreached, Job.isThen]
      | done w s'' =>
        rw [drive_call_done (hown' ▸ he'), driveUntil_call_go he' (hgo _ _ _ _ (.inr rfl)), hown]
        refine .of_false (fun h => not_propagates_of_done rfl ?_ h.1) fun h => ?_
        · simp [Job.isThen]
        have hzero : ThenUnreached (.evaluate role (.tryElse tryBody elseBody (some t)))
            (.call (.evaluate .elseBody elseBody) s' (ev₂ (.evaluate .elseBody elseBody) s')
              (driveUntil (guard P (.evaluate role (.tryElse tryBody elseBody (some t))) start)
                ev₂ (thenAfter t w s''))) := by
          have hzero := h.1.2
          simpa [ThenUnreached, Job.isThen] using hzero
        exact not_unreached_of_thenAfter _ _ _ hzero
    have hafter : afterTry elseBody v = pure v := if_neg hv
    rw [hafter, pure_bind, hown]
    refine .of_false (fun h => not_propagates_of_done rfl ?_ h.1) fun h => ?_
    · simp [Job.isThen]
    · exact not_unreached_of_thenAfter _ _ _ h.1.2

end

/-- A job that is out of time has asked for nothing. -/
theorem propagates_stop (job : Job) (f : Failure) : Propagates job (.stop (.failed f)) := by
  refine ⟨trivial, ?_⟩
  unfold ThenOnce
  split
  · rintro ⟨v, s, h⟩
    cases h
  · exact trivial

theorem unexposed_stop (job : Job) (f : Failure) : Unexposed P job (.stop (.failed f)) := by
  refine ⟨trivial, ?_⟩
  unfold ThenUnreached
  split
  · exact countP_nil
  · exact trivial

/-- Jobs without a `then` clause have none to evaluate. -/
theorem then_trivial {job : Job} (h : ∀ role tryBody elseBody thenClause,
      job ≠ .evaluate role (.tryElse tryBody elseBody (some thenClause))) (record : Record) :
    ThenOnce job record ∧ ThenUnreached job record := by
  unfold ThenOnce ThenUnreached
  split
  · exact absurd rfl (h _ _ _ _)
  · exact ⟨trivial, trivial⟩

/-- **When abrupt completion propagates.**  For every job, state and time limit: in every job of the
run of the runner a modifier that the job does not handle ends the job with that modifier, with
nothing evaluated or stored after it, and every `try` that is left has evaluated its `then` clause
once, if and only if in the propagating run no such modifier comes at a position where the runner
goes on and no `then` clause is reached. -/
theorem abrupt_propagates_iff (P : Program) (n : Nat) (job : Job) (s : State) :
    (evaluate P n job s).Everywhere Propagates job ↔
      (propagating P n job s).Everywhere (Unexposed P) job := by
  refine (everywhere_iff (fun job => propagates_stop job .duration)
    (fun job => unexposed_stop job .duration) (fun n job s ev₁ ev₂ hev => ?_) n job s).1
  by_cases htry : ∃ role tryBody elseBody t,
      job = .evaluate role (.tryElse tryBody elseBody (some t))
  · obtain ⟨role, tryBody, elseBody, t, rfl⟩ := htry
    exact stepMatches_try hev
  have hnone : ∀ role tryBody elseBody thenClause,
      job ≠ .evaluate role (.tryElse tryBody elseBody (some thenClause)) :=
    fun role tryBody elseBody t h => htry ⟨role, tryBody, elseBody, t, h⟩
  rw [step_withThen P n hnone]
  exact stepMatches_of_sound hev (step_sound P n job s) (then_trivial hnone)

end

/-! ### An error that is stored -/

/-- A compiler with one method, `fun apply(): U8 ? => error`. -/
def partialProgram : Program :=
  { bareProgram with reifiedMethod := fun _ _ _ => some ⟨[], .seq (.seq [.error])⟩ }

/-- `F()?`. -/
def partialCall : Expr :=
  .call false (.none (some (.nominal .primitive "F" []))) (.nominal .primitive "F" []) "apply" none []
    (.nominal .primitive "U8" [])

/-- `try x = F()? else U8(2) end`. -/
def partialAssign : Expr := .tryElse (.seq [.assign (.ref "x") partialCall]) (.seq [u8 2]) none

/-- **An error is stored in a variable**: the `try` ends with the old value of `x` and not with that
of its `else` clause, and `x` holds the error. -/
theorem error_stored_in_local :
    ¬ (evaluate partialProgram 8 (.evaluate .item partialAssign) (withX (u8Value .none 1))).Everywhere
        Propagates (.evaluate .item partialAssign) ∧
      ∃ f : Frame, (evaluate partialProgram 8 (.evaluate .item partialAssign)
        (withX (u8Value .none 1))).ending =
          .done (u8Value .none 1) { startState with frames := [f] } ∧
        f "x" = some (.setModifier .empty .error) := by
  refine ⟨fun h => ?_, _, rfl, rfl⟩
  -- the assignment in the body of the `try`
  have hassign := h.2.1.2.1.1.1.2.1 _ _ rfl ⟨by decide, rfl⟩
  have hsame := hassign.1
  cases hsame

end SpacePony.Runner
