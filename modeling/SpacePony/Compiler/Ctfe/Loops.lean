import SpacePony.Compiler.Ctfe.Evaluate

/-!
# Compiler — compile-time loops against compiled loops

`gen_while`, `gen_repeat`, `gen_break` and `gen_continue` of `codegen/gencontrol.c` as blocks that
jump to one another, next to `TK_WHILE` and `TK_REPEAT` of the runner.  The runner evaluates the
same conditions, bodies and `else` clauses, in the same order and states and with the same values,
exactly when `LoopsAgree` holds of every loop of the compiled run (`loops_agree_iff`).
-/

namespace SpacePony.Runner

/-! ### The compiled loops -/

/-- The branch on a condition: a value that is not a `Bool` has no compiled form. -/
def Value.test (v : Value) : M Bool := do
  assert v.isBool
  v.getBool

/-- The jumps out of a loop that `gen_break`, `gen_return` and `gen_error` emit: a `break` with a
value goes to the post block, one without to the `else` block. -/
def jumpOut (elseClause : Expr) (v : Value) : M Value :=
  match v.ctrlFlow with
  | .brk true => return v.clearModifier
  | .brk false => eval .elseBody elseClause
  | _ => return v

/-- What follows a condition of `gen_while`.  In the init block, where no body has given a value, a
condition that fails goes to the `else` block; after a body it goes to the post block with the
body's value. -/
def genWhileBranch (elseClause : Expr) (value : Option Value) (enter init : M Value) (c : Value) :
    M Value :=
  match c.ctrlFlow with
  | .none => do
      if ← c.test then enter
      else match value with
        | some v => return v
        | none => eval .elseBody elseClause
  | .cont => init
  | _ => jumpOut elseClause c

/-- Where a body of `gen_while` goes: to the condition at its end, or where `gen_continue` and the
other jumps go. -/
def genWhileNext (elseClause : Expr) (next : Option Value → M Value) (v : Value) : M Value :=
  match v.ctrlFlow with
  | .none => next (some v)
  | .cont => next none
  | _ => jumpOut elseClause v

/-- The body block of `gen_while`. -/
def genWhileBody (body elseClause : Expr) (next : Option Value → M Value) : M Value := do
  pushFrame
  let v ← eval .body body
  popFrame
  genWhileNext elseClause next v

/-- `gen_while`, from its condition: in the init block when there is no value yet. -/
def genWhile (cond body elseClause : Expr) : Nat → Option Value → M Value
  | 0, value => do
      let c ← eval .cond cond
      -- the time limit is met after the condition of the init block, or on entering the body
      genWhileBranch elseClause value (fail .duration)
        (do let _ ← eval .cond cond; fail .duration) c
  | n + 1, value => do
      let c ← eval .cond cond
      genWhileBranch elseClause value
        (genWhileBody body elseClause (genWhile cond body elseClause n))
        (genWhile cond body elseClause n none) c

/-- What follows a condition of `gen_repeat`: after a body the post block, in the block that a
`continue` jumps to the `else` block. -/
def genRepeatBranch (elseClause : Expr) (value : Option Value) (enter again : M Value) (c : Value) :
    M Value :=
  match c.ctrlFlow with
  | .none => do
      if ← c.test then
        match value with
        | some v => return v
        | none => eval .elseBody elseClause
      else enter
  | .cont => again
  | _ => jumpOut elseClause c

/-- `gen_repeat`: with `none` from its body block, with `some value` from the condition, where
`value` is what the body gave, if it did not `continue`. -/
def genRepeat (body cond elseClause : Expr) : Nat → Option (Option Value) → M Value
  | 0, _ => fail .duration
  | n + 1, none => do
      pushFrame
      let v ← eval .body body
      popFrame
      match v.ctrlFlow with
      | .none => genRepeat body cond elseClause n (some (some v))
      | .cont => genRepeat body cond elseClause n (some none)
      | _ => jumpOut elseClause v
  | n + 1, some value => do
      let c ← eval .cond cond
      genRepeatBranch elseClause value (genRepeat body cond elseClause n none)
        (genRepeat body cond elseClause n (some none)) c

/-- The evaluation with the compiled loops. -/
def compiledLoops : Constructs where
  loop := fun n cond body elseClause => genWhile cond body elseClause n none
  rept := fun n body cond elseClause => genRepeat body cond elseClause (n + 1) none
  tryElse := evaluateTry

/-! ### Where they agree -/

/-- Where a `while` stands when it evaluates its condition: `none` on entry, else the value of the
last body and whether that body continued. -/
abbrev Phase := Option (Value × Bool)

/-- What a condition of a compiled `while` may be for the runner to go on in the same way. -/
def CondAgrees (phase : Phase) (c : Value) : Prop :=
  match phase with
  | none => c.ctrlFlow = .none ∨ c.ctrlFlow = .brk false ∧ c.isBool ∧ c.val = .bool false
  | some (v, continued) =>
    -- a condition that completes normally is a `Bool`, and true after a `continue`
    c.ctrlFlow = .none ∧ (if c.isBool then continued → c.val ≠ .bool false
      else ∀ b, c.val ≠ .bool b) ∨
    c.ctrlFlow = .brk true ∧ c.val = .bool false ∧ c.clearModifier = v

/-- What a run of a compiled `while` must be. -/
def WhileAgrees : Phase → Record → Prop
  | phase, .call (.evaluate .cond _) _ own rest =>
    (∀ c s, own.ending = .done c s → CondAgrees phase c) ∧ WhileAgrees phase rest
  | _, .call (.evaluate .body _) _ own rest =>
    ∀ v s, own.ending = .done v s → v.ctrlFlow ≠ .brk false ∧
      WhileAgrees (some (v.clearModifier, v.ctrlFlow = .cont)) rest
  | _, _ => True

/-- What the run of a job must be: a `while` goes as `WhileAgrees` says, and a `repeat` is not
entered. -/
def LoopsAgree : Job → Record → Prop
  | .evaluate _ (.loop _ _ _), record => WhileAgrees none record
  | .evaluate _ (.rept _ _ _), record => record.calls = []
  | _, _ => True

/-! ### The loop of the runner against the blocks -/

section
variable {cond body elseClause : Expr} {ev ev₁ ev₂ : Job → State → Record}

theorem whileAgrees_stop (phase : Phase) (e : Ending State Value Failure) :
    WhileAgrees phase (.stop e) := by
  rw [WhileAgrees]
  · trivial
  · rintro _ _ _ _ ⟨⟩
  · rintro _ _ _ _ ⟨⟩

theorem whileAgrees_else (phase : Phase) (s : State) (own rest : Record) :
    WhileAgrees phase (.call (.evaluate .elseBody elseClause) s own rest) := by
  rw [WhileAgrees]
  · trivial
  · rintro _ _ _ _ ⟨⟩
  · rintro _ _ _ _ ⟨⟩

variable {s : State} {k : Value → State → Resume Job State Value Failure (Value × State)} {n : Nat}
  {c v : Value}

theorem whileAgrees_cond {phase : Phase} :
    WhileAgrees phase (drive ev (.call (.evaluate .cond cond) s k)) ↔
      ∀ c s', (ev (.evaluate .cond cond) s).ending = .done c s' →
        CondAgrees phase c ∧ WhileAgrees phase (drive ev (k c s')) := by
  cases h : (ev (.evaluate .cond cond) s).ending with
  | done c s' =>
    rw [drive_call_done h, WhileAgrees]
    constructor
    · rintro ⟨h₁, h₂⟩ c' s'' he
      cases he
      exact ⟨h₁ c s' h, h₂⟩
    intro hall
    refine ⟨fun c' s'' he => ?_, (hall c s' rfl).2⟩
    cases h.symm.trans he
    exact (hall c s' rfl).1
  | failed f =>
    rw [drive_call_failed h, WhileAgrees]
    refine iff_of_true ⟨fun c s' he => ?_, whileAgrees_stop phase _⟩ fun c s' he => (nomatch he)
    cases h.symm.trans he

theorem whileAgrees_body {phase : Phase} :
    WhileAgrees phase (drive ev (.call (.evaluate .body body) s k)) ↔
      ∀ v s', (ev (.evaluate .body body) s).ending = .done v s' → v.ctrlFlow ≠ .brk false ∧
        WhileAgrees (some (v.clearModifier, v.ctrlFlow = .cont)) (drive ev (k v s')) := by
  cases h : (ev (.evaluate .body body) s).ending with
  | done v s' =>
    rw [drive_call_done h, WhileAgrees]
    constructor
    · rintro hall v' s'' he
      cases he
      exact hall v s' h
    intro hall v' s'' he
    cases h.symm.trans he
    exact hall v s' rfl
  | failed f =>
    rw [drive_call_failed h, WhileAgrees]
    refine iff_of_true (fun v s' he => ?_) fun v s' he => (nomatch he)
    cases h.symm.trans he

/-- The blocks that a condition of `gen_while` jumps to. -/
def genWhileEnter (cond body elseClause : Expr) : Nat → M Value
  | 0 => fail .duration
  | n + 1 => genWhileBody body elseClause (genWhile cond body elseClause n)

/-- The init block as the target of a `continue` in a condition. -/
def genWhileInit (cond body elseClause : Expr) : Nat → M Value
  | 0 => do
      let _ ← eval .cond cond
      fail .duration
  | n + 1 => genWhile cond body elseClause n none

theorem genWhile_eq (n : Nat) (value : Option Value) :
    genWhile cond body elseClause n value = eval .cond cond >>=
      genWhileBranch elseClause value (genWhileEnter cond body elseClause n)
        (genWhileInit cond body elseClause n) := by
  cases n <;> rfl

theorem genWhileInit_apply (cond body elseClause : Expr) (n : Nat) (s : State) : ∃ k,
    genWhileInit cond body elseClause n s = .call (.evaluate .cond cond) s k := by
  cases n with
  | zero => exact ⟨_, rfl⟩
  | succ n => exact ⟨_, congrFun (genWhile_eq n none) s⟩

/-- What the runner does after a condition other than the first. -/
theorem whileLoop_of_false (h : c.val = .bool false) :
    whileLoop cond body n c v s = .done (v, s) := by
  obtain ⟨t, m, p⟩ := c
  cases h
  cases n <;> rfl

theorem whileLoop_of_ne (h : ∀ b, c.val ≠ .bool b) :
    whileLoop cond body n c v s = .fail .assertion := by
  cases n <;> exact getBool_bind_of_ne h _ s

theorem whileLoop_zero_of_true (h : c.val = .bool true) :
    whileLoop cond body 0 c v s = .fail .duration := by
  obtain ⟨t, m, p⟩ := c
  cases h
  rfl

/-- What the runner does after the body. -/
def afterBody (cond body : Expr) (n : Nat) (v : Value) : M Value :=
  match v.ctrlFlow with
  | .ret | .error => return v
  | .brk _ => return v.clearModifier
  | .cont | .none => do
      let c ← eval .cond cond
      whileLoop cond body n c v.clearModifier

theorem whileLoop_succ_of_true (h : c.val = .bool true) : whileLoop cond body (n + 1) c v s =
      .call (.evaluate .body body) s.push fun v s' => afterBody cond body n v s'.pop := by
  obtain ⟨t, m, p⟩ := c
  cases h
  rfl

theorem whileLoop_ne_call {s' : State} {job : Job} (hjob : ∀ e, Job.evaluate .body e ≠ job) :
    drive ev₁ (whileLoop cond body n c v s) ≠ drive ev₂ (.call job s' k) := by
  by_cases hfalse : c.val = .bool false
  · rw [whileLoop_of_false hfalse]
    exact drive_call_ne_stop.symm
  by_cases htrue : c.val = .bool true
  · cases n with
    | zero =>
      rw [whileLoop_zero_of_true htrue]
      exact drive_call_ne_stop.symm
    | succ n =>
      rw [whileLoop_succ_of_true htrue]
      exact drive_call_ne_call (hjob body)
  · rw [whileLoop_of_ne (by rintro (_ | _) <;> assumption)]
    exact drive_call_ne_stop.symm

/-- The runner leaves the loop after a condition exactly when it reads as false. -/
theorem whileLoop_eq_done_iff {r : Value} {s' : State} :
    drive ev₁ (whileLoop cond body n c v s) = .stop (.done r s') ↔
      c.val = .bool false ∧ v = r ∧ s = s' := by
  by_cases hfalse : c.val = .bool false
  · rw [whileLoop_of_false hfalse, drive_done]
    simp [hfalse]
  refine iff_of_false ?_ fun h => hfalse h.1
  by_cases htrue : c.val = .bool true
  · cases n with
    | zero =>
      rw [whileLoop_zero_of_true htrue]
      exact nofun
    | succ n =>
      rw [whileLoop_succ_of_true htrue]
      exact drive_call_ne_stop
  · rw [whileLoop_of_ne (by rintro (_ | _) <;> assumption)]
    exact nofun

theorem whileLoop_eq_assertion_iff :
    drive ev₁ (whileLoop cond body n c v s) = .stop (.failed .assertion) ↔
      ∀ b, c.val ≠ .bool b := by
  by_cases hfalse : c.val = .bool false
  · rw [whileLoop_of_false hfalse]
    exact iff_of_false nofun fun h => h false hfalse
  by_cases htrue : c.val = .bool true
  · refine iff_of_false ?_ fun h => h true htrue
    cases n with
    | zero =>
      rw [whileLoop_zero_of_true htrue]
      exact nofun
    | succ n =>
      rw [whileLoop_succ_of_true htrue]
      exact drive_call_ne_stop
  · have hne : ∀ b, c.val ≠ .bool b := by rintro (_ | _) <;> assumption
    rw [whileLoop_of_ne hne]
    exact iff_of_true rfl hne

/-- Where both loops enter the body. -/
def EnterAgrees (cond body elseClause : Expr) (ev₁ ev₂ : Job → State → Record) (n : Nat) : Prop :=
  ∀ (c v : Value) (phase : Phase) (s : State), c.val = .bool true →
    AgreeIff ev₁ ev₂ (whileLoop cond body n c v s) (genWhileEnter cond body elseClause n s)
      (WhileAgrees phase)

section
variable (henter : EnterAgrees cond body elseClause ev₁ ev₂ n)
include henter

/-- A condition that completes normally. -/
theorem branch_agrees_normal (c v : Value)
    (continued : Bool) (s : State) (hc : c.ctrlFlow = .none) (init : M Value) :
    AgreeIff ev₁ ev₂ (whileLoop cond body n c v s)
      (genWhileBranch elseClause (if continued then none else some v)
        (genWhileEnter cond body elseClause n) init c s)
      fun record => CondAgrees (some (v, continued)) c ∧
        WhileAgrees (some (v, continued)) record := by
  simp only [genWhileBranch, hc, Value.test]
  cases hbool : c.isBool with
  | false =>
    rw [AgreeIff, bind_assoc, assert_false_bind_apply, drive_fail, whileLoop_eq_assertion_iff]
    simp [CondAgrees, hc, hbool, whileAgrees_stop]
  | true =>
    rw [bind_assoc, assert_true_bind]
    by_cases htrue : c.val = .bool true
    · obtain ⟨t, m, p⟩ := c
      cases htrue
      rw [getBool_bool_bind, if_pos rfl]
      refine (henter _ v (some (v, continued)) s rfl).congr fun record => ?_
      simp [CondAgrees, hbool, hc, Value.val]
    by_cases hfalse : c.val = .bool false
    · rw [whileLoop_of_false hfalse]
      obtain ⟨t, m, p⟩ := c
      cases hfalse
      rw [getBool_bool_bind, if_neg (by rintro ⟨⟩)]
      cases continued with
      | false =>
        refine .refl ⟨?_, whileAgrees_stop _ _⟩
        simp [CondAgrees, hbool, hc]
      | true =>
        refine .of_ne drive_call_ne_stop.symm ?_
        simp [CondAgrees, hbool, hc, Value.val]
    have hne : ∀ b, c.val ≠ .bool b := by rintro (_ | _) <;> assumption
    rw [whileLoop_of_ne hne, getBool_bind_of_ne hne]
    refine .refl ⟨?_, whileAgrees_stop _ _⟩
    simp [CondAgrees, hbool, hc, hne]

/-- What follows a condition other than the first. -/
theorem branch_agrees (c v : Value) (continued : Bool) (s : State) (hv : v.ctrlFlow = .none) :
    AgreeIff ev₁ ev₂ (whileLoop cond body n c v s)
      (genWhileBranch elseClause (if continued then none else some v)
        (genWhileEnter cond body elseClause n) (genWhileInit cond body elseClause n) c s)
      fun record => CondAgrees (some (v, continued)) c ∧
        WhileAgrees (some (v, continued)) record := by
  -- a value that is not the one of the last body cannot be the result
  have hdone : c.ctrlFlow ≠ .none → drive ev₁ (whileLoop cond body n c v s) ≠ .stop (.done c s) := by
    intro hc heq
    rw [whileLoop_eq_done_iff] at heq
    exact hc (heq.2.1 ▸ hv)
  cases hc : c.ctrlFlow with
  | none => exact branch_agrees_normal henter c v continued s hc _
  | cont =>
    obtain ⟨k, hk⟩ := genWhileInit_apply cond body elseClause n s
    simp only [genWhileBranch, hc, hk]
    refine .of_ne (whileLoop_ne_call (by simp)) ?_
    simp [CondAgrees, hc]
  | brk valued =>
    cases valued with
    | true =>
      simp only [genWhileBranch, hc, jumpOut]
      rw [AgreeIff, pure_apply, drive_done, whileLoop_eq_done_iff]
      constructor
      · rintro ⟨hfalse, rfl, -⟩
        exact ⟨⟨.inr ⟨hc, hfalse, rfl⟩, whileAgrees_stop _ _⟩, trivial⟩
      rintro ⟨⟨⟨hnone, -⟩ | ⟨-, hfalse, hclear⟩, -⟩, -⟩
      · cases hc.symm.trans hnone
      · exact ⟨hfalse, hclear.symm, rfl⟩
    | false =>
      simp only [genWhileBranch, hc, jumpOut]
      refine .of_ne (whileLoop_ne_call (by simp)) ?_
      simp [CondAgrees, hc]
  | ret | error =>
    simp only [genWhileBranch, hc, jumpOut]
    refine .of_ne (hdone (hc ▸ (by rintro ⟨⟩))) ?_
    simp [CondAgrees, hc]

/-- From a condition other than the first. -/
theorem cond_agrees (hv : v.ctrlFlow = .none) (continued : Bool) (s : State) :
    AgreeIff ev₁ ev₂ ((eval .cond cond >>= fun c => whileLoop cond body n c v) s)
      (genWhile cond body elseClause n (if continued then none else some v) s)
      (WhileAgrees (some (v, continued))) := by
  rw [genWhile_eq]
  exact .call _ whileAgrees_cond fun c s' => branch_agrees henter c v continued s' hv

end

theorem genWhileEnter_succ (n : Nat) (s : State) :
    genWhileEnter cond body elseClause (n + 1) s = .call (.evaluate .body body) s.push
      fun v s' => genWhileNext elseClause (genWhile cond body elseClause n) v s'.pop := rfl

/-- **The bodies.** -/
theorem enterAgrees (n : Nat) : EnterAgrees cond body elseClause ev₁ ev₂ n := by
  induction n with
  | zero =>
    intro c v phase s htrue
    rw [whileLoop_zero_of_true htrue]
    exact .refl (whileAgrees_stop _ _)
  | succ n ih =>
    intro c v phase s htrue
    rw [whileLoop_succ_of_true htrue, genWhileEnter_succ]
    refine .call (fun v record => v.ctrlFlow ≠ .brk false ∧
      WhileAgrees (some (v.clearModifier, v.ctrlFlow = .cont)) record)
      whileAgrees_body fun v s' => ?_
    cases hv : v.ctrlFlow with
    | none =>
      simp only [afterBody, genWhileNext, hv]
      have h := cond_agrees ih v.ctrlFlow_clearModifier false s'.pop
      rw [Value.clearModifier_of_none hv] at h ⊢
      exact h.congr fun record => by simp
    | cont =>
      simp only [afterBody, genWhileNext, hv]
      exact (cond_agrees ih v.ctrlFlow_clearModifier true s'.pop).congr fun record => by simp
    | brk valued =>
      cases valued with
      | true =>
        simp only [afterBody, genWhileNext, hv, jumpOut]
        exact .refl ⟨nofun, whileAgrees_stop _ _⟩
      | false =>
        simp only [afterBody, genWhileNext, hv, jumpOut]
        exact .of_ne drive_call_ne_stop.symm fun h => h.1 rfl
    | ret | error =>
      simp only [afterBody, genWhileNext, hv, jumpOut]
      exact .refl ⟨nofun, whileAgrees_stop _ _⟩

/-- What the runner does after the first condition. -/
def afterFirst (cond body elseClause : Expr) (n : Nat) (c : Value) : M Value := do
  assert c.isBool
  if ← c.getBool then whileLoop cond body n c .empty else eval .elseBody elseClause

theorem afterFirst_of_not_isBool (h : c.isBool = false) :
    afterFirst cond body elseClause n c s = .fail .assertion := by
  rw [afterFirst, h]
  rfl

theorem afterFirst_of_ne (hc : c.isBool = true) (h : ∀ b, c.val ≠ .bool b) :
    afterFirst cond body elseClause n c s = .fail .assertion := by
  rw [afterFirst, hc, assert_true_bind, getBool_bind_of_ne h]

theorem afterFirst_of_bool {b : Bool} (hc : c.isBool = true) (h : c.val = .bool b) :
    afterFirst cond body elseClause n c s =
      (if b then whileLoop cond body n c .empty else eval .elseBody elseClause) s := by
  rw [afterFirst, hc]
  obtain ⟨t, m, p⟩ := c
  cases h
  rfl

/-- The runner never leaves the loop right after the first condition, and goes on only with the body
or the `else` clause. -/
theorem afterFirst_ne {n : Nat} {c : Value} {s : State} :
    (∀ r s', drive ev₁ (afterFirst cond body elseClause n c s) ≠ .stop (.done r s')) ∧
      ∀ e s' k, drive ev₁ (afterFirst cond body elseClause n c s) ≠
        drive ev₂ (.call (.evaluate .cond e) s' k) := by
  cases hbool : c.isBool with
  | false =>
    rw [afterFirst_of_not_isBool hbool]
    exact ⟨nofun, fun e s' k => drive_call_ne_stop.symm⟩
  | true =>
    by_cases htrue : c.val = .bool true
    · rw [afterFirst_of_bool hbool htrue, if_pos rfl]
      refine ⟨fun r s' h => ?_, fun e s' k => whileLoop_ne_call nofun⟩
      cases htrue.symm.trans (whileLoop_eq_done_iff.1 h).1
    by_cases hfalse : c.val = .bool false
    · rw [afterFirst_of_bool hbool hfalse, if_neg nofun]
      exact ⟨fun r s' => drive_call_ne_stop, fun e s' k => drive_call_ne_call (by simp)⟩
    · rw [afterFirst_of_ne hbool (by rintro (_ | _) <;> assumption)]
      exact ⟨nofun, fun e s' k => drive_call_ne_stop.symm⟩

/-- A first condition that completes normally. -/
theorem first_agrees_normal (n : Nat) (hc : c.ctrlFlow = .none) (init : M Value) (s : State) :
    AgreeIff ev₁ ev₂ (afterFirst cond body elseClause n c s)
      (genWhileBranch elseClause none (genWhileEnter cond body elseClause n) init c s)
      fun record => CondAgrees none c ∧ WhileAgrees none record := by
  simp only [genWhileBranch, hc, Value.test]
  cases hbool : c.isBool with
  | false =>
    rw [afterFirst_of_not_isBool hbool, bind_assoc, assert_false_bind_apply]
    exact .refl ⟨.inl hc, whileAgrees_stop _ _⟩
  | true =>
    rw [bind_assoc, assert_true_bind]
    by_cases htrue : c.val = .bool true
    · rw [afterFirst_of_bool hbool htrue, if_pos rfl]
      have h := @enterAgrees cond body elseClause ev₁ ev₂ n c .empty none s htrue
      obtain ⟨t, m, p⟩ := c
      cases htrue
      exact h.congr fun record => and_iff_right (.inl hc)
    by_cases hfalse : c.val = .bool false
    · rw [afterFirst_of_bool hbool hfalse, if_neg nofun]
      obtain ⟨t, m, p⟩ := c
      cases hfalse
      refine .refl ⟨.inl hc, ?_⟩
      rw [eval_apply, drive]
      exact whileAgrees_else none s _ _
    · have hne : ∀ b, c.val ≠ .bool b := by rintro (_ | _) <;> assumption
      rw [afterFirst_of_ne hbool hne, getBool_bind_of_ne hne]
      exact .refl ⟨.inl hc, whileAgrees_stop _ _⟩

/-- A first condition that breaks without a value. -/
theorem first_agrees_break (n : Nat) (hc : c.ctrlFlow = .brk false) (s : State) :
    AgreeIff ev₁ ev₂ (afterFirst cond body elseClause n c s) (eval .elseBody elseClause s)
      fun record => CondAgrees none c ∧ WhileAgrees none record := by
  by_cases h : c.isBool = true ∧ c.val = .bool false
  · rw [afterFirst_of_bool h.1 h.2, if_neg (by rintro ⟨⟩)]
    refine .refl ⟨.inr ⟨hc, h⟩, ?_⟩
    rw [eval_apply, drive]
    exact whileAgrees_else none s _ _
  refine .of_ne ?_ fun hq => ?_
  · cases hbool : c.isBool with
    | false =>
      rw [afterFirst_of_not_isBool hbool]
      exact drive_call_ne_stop.symm
    | true =>
      by_cases htrue : c.val = .bool true
      · rw [afterFirst_of_bool hbool htrue, if_pos rfl]
        exact whileLoop_ne_call (by simp)
      have hfalse : c.val ≠ .bool false := fun hval => h ⟨hbool, hval⟩
      rw [afterFirst_of_ne hbool (by rintro (_ | _) <;> assumption)]
      exact drive_call_ne_stop.symm
  · rcases hq.1 with hnone | ⟨-, hand⟩
    · cases hc.symm.trans hnone
    · exact h hand

/-- What follows the first condition. -/
theorem first_agrees (n : Nat) (c : Value) (s : State) :
    AgreeIff ev₁ ev₂ (afterFirst cond body elseClause n c s)
      (genWhileBranch elseClause none (genWhileEnter cond body elseClause n)
        (genWhileInit cond body elseClause n) c s)
      fun record => CondAgrees none c ∧ WhileAgrees none record := by
  have hne := @afterFirst_ne cond body elseClause ev₁ ev₂ n c s
  cases hc : c.ctrlFlow with
  | none => exact first_agrees_normal n hc _ s
  | cont =>
    obtain ⟨k, hk⟩ := genWhileInit_apply cond body elseClause n s
    simp only [genWhileBranch, hc, hk]
    refine .of_ne (hne.2 _ _ _) ?_
    simp [CondAgrees, hc]
  | brk valued =>
    cases valued with
    | true =>
      simp only [genWhileBranch, hc, jumpOut]
      refine .of_ne (hne.1 _ _) ?_
      simp [CondAgrees, hc]
    | false =>
      simp only [genWhileBranch, hc, jumpOut]
      exact first_agrees_break n hc s
  | ret | error =>
    simp only [genWhileBranch, hc, jumpOut]
    refine .of_ne (hne.1 _ _) ?_
    simp [CondAgrees, hc]

/-- **The loop**, from its first condition. -/
theorem while_agrees (n : Nat) (s : State) :
    AgreeIff ev₁ ev₂ (evaluateWhile n cond body elseClause s)
      (genWhile cond body elseClause n none s) (WhileAgrees none) := by
  have hfirst : evaluateWhile n cond body elseClause =
      eval .cond cond >>= afterFirst cond body elseClause n := rfl
  rw [genWhile_eq, hfirst]
  exact .call _ whileAgrees_cond fun c s' => first_agrees n c s'

end

/-- One job of both evaluations: only the loops differ. -/
theorem step_agrees (P : Program) (n : Nat) (job : Job) (s : State)
    (ev₁ ev₂ : Job → State → Record) :
    AgreeIff ev₁ ev₂ (step P constructs n job s) (step P compiledLoops n job s)
      (LoopsAgree job) := by
  cases job with
  | callMethod | ffiCall => exact .refl trivial
  | evaluate role e =>
    cases e with
    | loop cond body elseClause => exact while_agrees n s
    | rept body cond elseClause =>
      -- the runner asks for the condition, the compiled loop for the body
      exact .of_ne (drive_call_ne_call (by simp)) drive_call_calls_ne_nil
    | brk e => cases e <;> exact .refl trivial
    | _ => exact .refl trivial

/-- **When compile-time loops mean what compiled loops mean.**  For every job, state and time limit,
the runner performs the evaluations that the compiled loops perform, in the same order and states and
with the same results, if and only if `LoopsAgree` holds everywhere in the compiled run: no `repeat`
is entered, no body of a `while` breaks without a value, no condition fails right after a `continue`,
and no condition completes abruptly. -/
theorem loops_agree_iff (P : Program) (n : Nat) (job : Job) (s : State) :
    evaluate P n job s = evaluateWith P compiledLoops n job s ↔
      (evaluateWith P compiledLoops n job s).Everywhere LoopsAgree job := by
  refine run_eq_iff (fun job => ?_) (fun n job s ev₁ ev₂ => step_agrees P n job s ev₁ ev₂) n job s
  cases job with
  | callMethod | ffiCall => exact trivial
  | evaluate role e =>
    cases e with
    | loop cond body elseClause => exact whileAgrees_stop none (.failed .duration)
    | rept body cond elseClause => rfl
    | _ => exact trivial

/-! ### A `break` without a value -/

/-- `while true do break else U8(5) end`. -/
def breakLoop : Expr := .loop (.bool true none) (.seq [.brk none]) (.seq [u8 5])

/-- **A `break` without a value gives nothing**: the compiled loop evaluates its `else` clause, the
runner does not. -/
theorem loops_disagree_break : evaluate bareProgram 3 (.evaluate .item breakLoop) startState ≠
        evaluateWith bareProgram compiledLoops 3 (.evaluate .item breakLoop) startState ∧
      (evaluate bareProgram 3 (.evaluate .item breakLoop) startState).ending =
        .done .empty startState ∧
      (evaluateWith bareProgram compiledLoops 3 (.evaluate .item breakLoop) startState).ending =
        .done (.mk (some (.nominal .primitive "U8" [])) .none (.int 5)) startState := by
  have hrunner : (evaluate bareProgram 3 (.evaluate .item breakLoop) startState).ending =
      .done .empty startState := rfl
  have hcompiled : (evaluateWith bareProgram compiledLoops 3 (.evaluate .item breakLoop)
      startState).ending =
      .done (.mk (some (.nominal .primitive "U8" [])) .none (.int 5)) startState := rfl
  refine ⟨fun h => ?_, hrunner, hcompiled⟩
  rw [h, hcompiled] at hrunner
  injection hrunner with hv
  cases hv

end SpacePony.Runner
