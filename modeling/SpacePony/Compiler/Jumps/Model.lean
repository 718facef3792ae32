import Mathlib.Data.Nat.Notation

/-!
# Compiler — expressions that jump away

Which expressions never complete: the flags that `pass/refer.c` sets bottom up, and the control flow
that `codegen/gencontrol.c` and `codegen/genmatch.c` generate.
-/

namespace SpacePony.Jumps

mutual

/-- The expressions. -/
inductive Expr where
  /-- Any other expression: its operands in order, then a result, or an error if it can. -/
  | op (operands : List Expr) (canError : Bool)
  | seq (items : List Expr)
  /-- `TK_IF` and `TK_IFDEF`. -/
  | ite (cond left right : Expr)
  /-- `TK_IFTYPE_SET`. -/
  | iftype (left right : Expr)
  | whileLoop (cond body elseClause : Expr)
  | repeatLoop (body cond elseClause : Expr)
  | mtch (operand : Expr) (cases : List Case) (elseClause : Option Expr)
  /-- `TK_TRY` and `TK_TRY_NO_CHECK`. -/
  | tryElse (body elseClause thenClause : Expr)
  /-- `TK_DISPOSING_BLOCK`, with `ast_canerror` of it. -/
  | disposing (canError : Bool) (body disposeClause : Expr)
  | brk (value : Option Expr)
  | cont
  | ret (value : Expr)
  | error

/-- A case of a match: the expressions that the operand is compared with, the guard, the body. -/
inductive Case where
  | mk (patterns : List Expr) (guard : Option Expr) (body : Expr)

end

/-! ### The refer pass -/

/-- The flags that jumps leave on the body of a loop. -/
inductive Mark where
  /-- `AST_FLAG_MAY_BREAK`. -/
  | mayBreak
  /-- `AST_FLAG_MAY_BREAK_VALUE`. -/
  | mayBreakValue
  /-- `AST_FLAG_MAY_CONTINUE`. -/
  | mayContinue
  deriving DecidableEq

/-- What the pass says of an expression: whether it has `AST_FLAG_JUMPS_AWAY`, the flags that it
sets on the loop body of the frame, and the errors. -/
structure Verdict where
  jumpsAway : Bool
  marks : List Mark
  errors : List String

/-- `branch_count++` for a branch that does not jump away. -/
def Verdict.branch (v : Verdict) : Nat := if v.jumpsAway then 0 else 1

/-- `refer_while`. -/
def referWhile (cond body elseClause : Verdict) : Verdict where
  jumpsAway := body.branch + elseClause.branch = 0 && decide (Mark.mayBreakValue ∉ body.marks)
  marks := cond.marks ++ elseClause.marks
  errors := cond.errors ++ body.errors ++ elseClause.errors

/-- `refer_repeat`. -/
def referRepeat (body cond elseClause : Verdict) : Verdict where
  jumpsAway :=
    let branchCount := body.branch + if .mayBreak ∈ body.marks then elseClause.branch else 0
    let valueViaContinue := decide (Mark.mayContinue ∈ body.marks) && !elseClause.jumpsAway
    branchCount = 0 && decide (Mark.mayBreakValue ∉ body.marks) && !valueViaContinue
  marks := cond.marks ++ elseClause.marks
  errors := body.errors ++ cond.errors ++ elseClause.errors

/-- `refer_try`. -/
def referTry (body elseClause thenClause : Verdict) : Verdict where
  jumpsAway := !thenClause.jumpsAway && body.branch + elseClause.branch = 0
  marks := body.marks ++ elseClause.marks ++ thenClause.marks
  errors := body.errors ++ elseClause.errors ++ thenClause.errors ++
    if thenClause.jumpsAway then ["then clause always terminates the function"] else []

/-- `refer_break` and `refer_continue`: outside of a loop nothing is set. -/
def referJump (inLoop : Bool) (value : Verdict) (marks : List Mark) : Verdict where
  jumpsAway := inLoop
  marks := value.marks ++ if inLoop then marks else []
  errors := value.errors ++ if inLoop then [] else ["must be in a loop"]

mutual

/-- `pass_refer`; `inLoop` says whether the frame has a loop body.  The frame of the condition and
of the `else` of a loop keeps the loop body it had outside. -/
def refer (inLoop : Bool) : Expr → Verdict
  | .op operands _ =>
    ⟨false, (referItems inLoop operands).marks, (referItems inLoop operands).errors⟩
  | .seq items => referItems inLoop items
  | .ite cond left right =>
    let cond := refer inLoop cond
    let left := refer inLoop left
    let right := refer inLoop right
    ⟨left.branch + right.branch = 0, cond.marks ++ left.marks ++ right.marks,
      cond.errors ++ left.errors ++ right.errors⟩
  | .iftype left right =>
    let left := refer inLoop left
    let right := refer inLoop right
    ⟨left.branch + right.branch = 0, left.marks ++ right.marks, left.errors ++ right.errors⟩
  | .whileLoop cond body elseClause =>
    referWhile (refer inLoop cond) (refer true body) (refer inLoop elseClause)
  | .repeatLoop body cond elseClause =>
    referRepeat (refer true body) (refer inLoop cond) (refer inLoop elseClause)
  | .mtch operand cases elseClause =>
    let operand := refer inLoop operand
    let cases := referCases inLoop cases
    let elseClause := referOption inLoop elseClause
    ⟨cases.branch + elseClause.branch = 0, operand.marks ++ cases.marks ++ elseClause.marks,
      operand.errors ++ cases.errors ++ elseClause.errors⟩
  | .tryElse body elseClause thenClause =>
    referTry (refer inLoop body) (refer inLoop elseClause) (refer inLoop thenClause)
  | .disposing _ body disposeClause =>
    let body := refer inLoop body
    let disposeClause := refer inLoop disposeClause
    ⟨body.branch = 0, body.marks ++ disposeClause.marks, body.errors ++ disposeClause.errors⟩
  | .brk value => referJump inLoop (referOption inLoop value)
      (.mayBreak :: if value.isSome then [.mayBreakValue] else [])
  | .cont => referJump inLoop ⟨false, [], []⟩ [.mayContinue]
  | .ret value => ⟨true, (refer inLoop value).marks, (refer inLoop value).errors⟩
  | .error => ⟨true, [], []⟩

/-- The expressions of a sequence, with `refer_seq`: the last one decides. -/
def referItems (inLoop : Bool) : List Expr → Verdict
  | [] => ⟨false, [], []⟩
  | [item] => refer inLoop item
  | item :: items => ⟨(referItems inLoop items).jumpsAway,
      (refer inLoop item).marks ++ (referItems inLoop items).marks,
      (refer inLoop item).errors ++ (referItems inLoop items).errors⟩

/-- An expression that may be `TK_NONE`, which is not flagged. -/
def referOption (inLoop : Bool) : Option Expr → Verdict
  | none => ⟨false, [], []⟩
  | some e => refer inLoop e

/-- `refer_cases`: all have to jump away. -/
def referCases (inLoop : Bool) : List Case → Verdict
  | [] => ⟨false, [], ["match must have at least one case"]⟩
  | [the] => referCase inLoop the
  | the :: cases => ⟨(referCase inLoop the).branch + (referCases inLoop cases).branch = 0,
      (referCase inLoop the).marks ++ (referCases inLoop cases).marks,
      (referCase inLoop the).errors ++ (referCases inLoop cases).errors⟩

/-- A case: its body decides. -/
def referCase (inLoop : Bool) : Case → Verdict
  | .mk patterns guard body =>
    let patterns := referItems inLoop patterns
    let guard := referOption inLoop guard
    let body := refer inLoop body
    ⟨body.jumpsAway, patterns.marks ++ guard.marks ++ body.marks,
      patterns.errors ++ guard.errors ++ body.errors⟩

end

section
attribute [local simp] refer referItems referOption referCases referCase
variable {b : Bool} {e : Expr} {es es' : List Expr}

theorem referItems_cons_marks :
    (referItems b (e :: es)).marks = (refer b e).marks ++ (referItems b es).marks := by
  cases es with
  | nil => simp
  | cons e' es => simp

theorem referCases_cons_marks {c : Case} {cs : List Case} :
    (referCases b (c :: cs)).marks = (referCase b c).marks ++ (referCases b cs).marks := by
  cases cs with
  | nil => simp
  | cons c' cs => simp

/-- The marks of a pattern and its guard. -/
theorem referItems_append_marks :
    (referItems b (es ++ es')).marks = (referItems b es).marks ++ (referItems b es').marks := by
  induction es with
  | nil => simp
  | cons e es ih => simp only [List.cons_append, referItems_cons_marks, ih, List.append_assoc]

theorem referItems_toList_marks {e : Option Expr} :
    (referItems b e.toList).marks = (referOption b e).marks := by
  cases e with
  | none | some e => simp

end

/-! ### The ancestors of an expression -/

/-- An ancestor of an expression, with the child it is in.  Sequences, branches and operations are
left out: neither the pass nor codegen looks at them. -/
inductive Crumb where
  /-- The body of a loop; codegen's number of it. -/
  | loopBody (loop : Nat)
  | loopCond
  | loopElse
  | tryBody (thenClause : Expr)
  | tryElse (thenClause : Expr)
  | tryThen
  | disposeBody (disposeClause : Expr)
  | disposeClause

/-- The ancestors of an expression, innermost first. -/
abbrev Path := List Crumb

/-- The loop body of the pass's frame. -/
def loopBody : Path → Option Nat
  | [] => none
  | .loopBody loop :: _ => some loop
  | _ :: path => loopBody path

/-- `gen_then_clauses`, each clause with its own ancestors: up to the first loop if `withinLoop`
holds, else to the method. -/
def thenClauses (withinLoop : Bool) : Path → List (Path × Expr)
  | [] => []
  | .loopBody _ :: path | .loopCond :: path | .loopElse :: path =>
    if withinLoop then [] else thenClauses withinLoop path
  | .tryBody t :: path | .tryElse t :: path =>
    (.tryThen :: path, t) :: thenClauses withinLoop path
  | .disposeBody d :: path => (.disposeClause :: path, d) :: thenClauses withinLoop path
  | .tryThen :: path | .disposeClause :: path => thenClauses withinLoop path

/-- The clause that `gen_error` generates, that of the innermost `try` if the error is in its `else`
or of the innermost disposing block if it is in the body. -/
def errorClause : Path → List (Path × Expr)
  | [] => []
  | .loopBody _ :: path | .loopCond :: path | .loopElse :: path => errorClause path
  | .tryElse t :: path => [(.tryThen :: path, t)]
  | .disposeBody d :: path => [(.disposeClause :: path, d)]
  | .tryBody _ :: _ | .tryThen :: _ | .disposeClause :: _ => []

/-! ### The generated code -/

/-- Where an expression is generated: its ancestors, and how many loops `codegen_pushloop` has
pushed.  A loop is numbered by the count at its push. -/
structure Ctx where
  path : Path
  loops : Nat

/-- The loop that `break_target`, `break_novalue_target` and `continue_target` belong to. -/
def Ctx.target (κ : Ctx) : Option Nat := match κ.loops with
  | 0 => none
  | n + 1 => some n

/-- The context of a child that is an ancestor of its own. -/
def Ctx.enter (κ : Ctx) (crumb : Crumb) : Ctx := ⟨crumb :: κ.path, κ.loops⟩

/-- The context of the condition of a loop, between `codegen_pushloop` and `codegen_poploop`. -/
def Ctx.enterCond (κ : Ctx) : Ctx := ⟨.loopCond :: κ.path, κ.loops + 1⟩

/-- The context of the body of a loop. -/
def Ctx.enterBody (κ : Ctx) : Ctx := ⟨.loopBody κ.loops :: κ.path, κ.loops + 1⟩

/-- How the code of an expression is left: a branch to a target of the frame it is generated in, or
a `ret`. -/
inductive Outcome where
  | normal
  | brk (valued : Bool)
  | cont
  | ret
  /-- To `try_else_target`, out of the method if there is none. -/
  | error
  /-- Not yet. -/
  | cut
  deriving DecidableEq

/-- What a run records. -/
inductive Event where
  /-- A `break` or `continue`: the loop whose body the pass marked, and the loop it goes to. -/
  | jump (recorded target : Option Nat)
  /-- An expression has completed; `inLoop` is that of the pass. -/
  | completed (inLoop : Bool) (e : Expr)

/-- The event of leaving an expression. -/
def completion (κ : Ctx) (e : Expr) (o : Outcome) : List Event :=
  if o = .normal then [.completed (loopBody κ.path).isSome e] else []

/-- The loops. -/
inductive Loop where
  | whileLoop (cond body elseClause : Expr)
  | repeatLoop (body cond elseClause : Expr)

namespace Loop

def cond : Loop → Expr
  | whileLoop cond _ _ | repeatLoop _ cond _ => cond

def body : Loop → Expr
  | whileLoop _ body _ | repeatLoop body _ _ => body

def elseClause : Loop → Expr
  | whileLoop _ _ elseClause | repeatLoop _ _ elseClause => elseClause

def expr : Loop → Expr
  | whileLoop cond body elseClause => .whileLoop cond body elseClause
  | repeatLoop body cond elseClause => .repeatLoop body cond elseClause

end Loop

/-- The blocks of a loop. -/
inductive Block where
  /-- `while_init` and `repeat_cond`, the target of a `continue`. -/
  | cond
  | body
  /-- The condition that the body evaluates itself. -/
  | bodyCond
  | els
  /-- `while_post` and `repeat_post`, the target of a `break` with a value. -/
  | post
  deriving DecidableEq

/-- The block a loop starts with. -/
def Loop.start : Loop → Block
  | whileLoop _ _ _ => .cond
  | repeatLoop _ _ _ => .body

/-- The blocks that a condition chooses from, when it is true and when it is false. -/
def Loop.branch : Loop → Block → Bool → Block
  | whileLoop _ _ _, .cond, true => .body
  | whileLoop _ _ _, .cond, false => .els
  | whileLoop _ _ _, _, true => .body
  | whileLoop _ _ _, _, false => .post
  | repeatLoop _ _ _, .cond, true => .els
  | repeatLoop _ _ _, .cond, false => .body
  | repeatLoop _ _ _, _, true => .post
  | repeatLoop _ _ _, _, false => .body

/-- The block of the loop that its condition or body goes to by a jump. -/
def Outcome.block : Outcome → Option Block
  | .brk true => some .post
  | .brk false => some .els
  | .cont => some .cond
  | _ => none

/-- What is run: an expression, its own code, expressions in order, clauses, the code of
`gen_error`, a block of a loop, cases, and the code after an error in a `try` or a disposing
block. -/
inductive Code where
  | expr (e : Expr)
  | node (e : Expr)
  | items (es : List Expr)
  | clauses (cs : List (Path × Expr))
  | raise
  | block (l : Loop) (b : Block)
  | cases (cs : List Case) (elseClause : Option Expr)
  | tryElse (elseClause thenClause : Expr)
  | disposeElse (disposeClause : Expr)

/-- The runs of the generated code, with what they record and how they end.  Every choice that
depends on a value is free. -/
inductive Exec : Ctx → Code → List Event → Outcome → Prop where
  | cut {κ : Ctx} {c : Code} : Exec κ c [] .cut
  | expr {κ : Ctx} {e : Expr} {ev : List Event} {o : Outcome} (h : Exec κ (.node e) ev o) :
      Exec κ (.expr e) (ev ++ completion κ e o) o
  -- expressions in order
  | nil {κ : Ctx} : Exec κ (.items []) [] .normal
  | jumps {κ : Ctx} {e : Expr} {es : List Expr} {ev : List Event} {o : Outcome}
      (h : Exec κ (.expr e) ev o) (ho : o ≠ .normal) : Exec κ (.items (e :: es)) ev o
  | cons {κ : Ctx} {e : Expr} {es : List Expr} {ev ev' : List Event} {o : Outcome}
      (h : Exec κ (.expr e) ev .normal) (t : Exec κ (.items es) ev' o) :
      Exec κ (.items (e :: es)) (ev ++ ev') o
  -- clauses, each with its own ancestors but the targets of the jump
  | noClause {κ : Ctx} : Exec κ (.clauses []) [] .normal
  | clauseJumps {κ : Ctx} {p : Path} {e : Expr} {cs : List (Path × Expr)} {ev : List Event}
      {o : Outcome} (h : Exec ⟨p, κ.loops⟩ (.expr e) ev o) (ho : o ≠ .normal) :
      Exec κ (.clauses ((p, e) :: cs)) ev o
  | clause {κ : Ctx} {p : Path} {e : Expr} {cs : List (Path × Expr)} {ev ev' : List Event}
      {o : Outcome} (h : Exec ⟨p, κ.loops⟩ (.expr e) ev .normal) (t : Exec κ (.clauses cs) ev' o) :
      Exec κ (.clauses ((p, e) :: cs)) (ev ++ ev') o
  -- `gen_error`
  | raiseJumps {κ : Ctx} {ev : List Event} {o : Outcome}
      (h : Exec κ (.clauses (errorClause κ.path)) ev o) (ho : o ≠ .normal) : Exec κ .raise ev o
  | raise {κ : Ctx} {ev : List Event} (h : Exec κ (.clauses (errorClause κ.path)) ev .normal) :
      Exec κ .raise ev .error
  | error {κ : Ctx} {ev : List Event} {o : Outcome} (h : Exec κ .raise ev o) :
      Exec κ (.node .error) ev o
  -- operations, sequences and branches
  | op {κ : Ctx} {es : List Expr} {canError : Bool} {ev : List Event} {o : Outcome}
      (h : Exec κ (.items es) ev o) : Exec κ (.node (.op es canError)) ev o
  | opError {κ : Ctx} {es : List Expr} {ev : List Event} (h : Exec κ (.items es) ev .normal) :
      Exec κ (.node (.op es true)) ev .error
  | seq {κ : Ctx} {es : List Expr} {ev : List Event} {o : Outcome} (h : Exec κ (.items es) ev o) :
      Exec κ (.node (.seq es)) ev o
  | iteJumps {κ : Ctx} {cond left right : Expr} {ev : List Event} {o : Outcome}
      (h : Exec κ (.expr cond) ev o) (ho : o ≠ .normal) : Exec κ (.node (.ite cond left right)) ev o
  | ite {κ : Ctx} {cond left right branch : Expr} {ev ev' : List Event} {o : Outcome}
      (h : Exec κ (.expr cond) ev .normal) (hb : branch = left ∨ branch = right)
      (t : Exec κ (.expr branch) ev' o) : Exec κ (.node (.ite cond left right)) (ev ++ ev') o
  | iftype {κ : Ctx} {left right branch : Expr} {ev : List Event} {o : Outcome}
      (hb : branch = left ∨ branch = right) (h : Exec κ (.expr branch) ev o) :
      Exec κ (.node (.iftype left right)) ev o
  -- loops
  | loop {κ : Ctx} {l : Loop} {ev : List Event} {o : Outcome} (h : Exec κ (.block l l.start) ev o) :
      Exec κ (.node l.expr) ev o
  | cond {κ : Ctx} {l : Loop} {b : Block} {ev ev' : List Event} {o : Outcome} (value : Bool)
      (hb : b = .cond ∨ b = .bodyCond) (h : Exec κ.enterCond (.expr l.cond) ev .normal)
      (t : Exec κ (.block l (l.branch b value)) ev' o) : Exec κ (.block l b) (ev ++ ev') o
  | condJumps {κ : Ctx} {l : Loop} {b b' : Block} {ev ev' : List Event} {o o' : Outcome}
      (hb : b = .cond ∨ b = .bodyCond) (h : Exec κ.enterCond (.expr l.cond) ev o)
      (ho : o.block = some b') (t : Exec κ (.block l b') ev' o') :
      Exec κ (.block l b) (ev ++ ev') o'
  | condLeaves {κ : Ctx} {l : Loop} {b : Block} {ev : List Event} {o : Outcome}
      (hb : b = .cond ∨ b = .bodyCond) (h : Exec κ.enterCond (.expr l.cond) ev o)
      (hn : o ≠ .normal) (ho : o.block = none) : Exec κ (.block l b) ev o
  | body {κ : Ctx} {l : Loop} {ev ev' : List Event} {o : Outcome}
      (h : Exec κ.enterBody (.expr l.body) ev .normal) (t : Exec κ (.block l .bodyCond) ev' o) :
      Exec κ (.block l .body) (ev ++ ev') o
  | bodyJumps {κ : Ctx} {l : Loop} {b : Block} {ev ev' : List Event} {o o' : Outcome}
      (h : Exec κ.enterBody (.expr l.body) ev o) (ho : o.block = some b)
      (t : Exec κ (.block l b) ev' o') : Exec κ (.block l .body) (ev ++ ev') o'
  | bodyLeaves {κ : Ctx} {l : Loop} {ev : List Event} {o : Outcome}
      (h : Exec κ.enterBody (.expr l.body) ev o) (hn : o ≠ .normal) (ho : o.block = none) :
      Exec κ (.block l .body) ev o
  | els {κ : Ctx} {l : Loop} {ev : List Event} {o : Outcome}
      (h : Exec (κ.enter .loopElse) (.expr l.elseClause) ev o) : Exec κ (.block l .els) ev o
  | post {κ : Ctx} {l : Loop} : Exec κ (.block l .post) [] .normal
  -- matches
  | mtchJumps {κ : Ctx} {operand : Expr} {cs : List Case} {els : Option Expr} {ev : List Event}
      {o : Outcome} (h : Exec κ (.expr operand) ev o) (ho : o ≠ .normal) :
      Exec κ (.node (.mtch operand cs els)) ev o
  | mtch {κ : Ctx} {operand : Expr} {cs : List Case} {els : Option Expr} {ev ev' : List Event}
      {o : Outcome} (h : Exec κ (.expr operand) ev .normal) (t : Exec κ (.cases cs els) ev' o) :
      Exec κ (.node (.mtch operand cs els)) (ev ++ ev') o
  | noCase {κ : Ctx} {els : Expr} {ev : List Event} {o : Outcome} (h : Exec κ (.expr els) ev o) :
      Exec κ (.cases [] (some els)) ev o
  | caseJumps {κ : Ctx} {patterns : List Expr} {guard : Option Expr} {body : Expr} {cs : List Case}
      {els : Option Expr} {ev : List Event} {o : Outcome}
      (h : Exec κ (.items (patterns ++ guard.toList)) ev o) (ho : o ≠ .normal) :
      Exec κ (.cases (.mk patterns guard body :: cs) els) ev o
  | caseFails {κ : Ctx} {patterns tested : List Expr} {guard : Option Expr} {body : Expr}
      {cs : List Case} {els : Option Expr} {ev ev' : List Event} {o : Outcome}
      (ht : tested.IsPrefix (patterns ++ guard.toList)) (h : Exec κ (.items tested) ev .normal)
      (t : Exec κ (.cases cs els) ev' o) :
      Exec κ (.cases (.mk patterns guard body :: cs) els) (ev ++ ev') o
  | caseTaken {κ : Ctx} {patterns : List Expr} {guard : Option Expr} {body : Expr} {cs : List Case}
      {els : Option Expr} {ev ev' : List Event} {o : Outcome}
      (h : Exec κ (.items (patterns ++ guard.toList)) ev .normal) (t : Exec κ (.expr body) ev' o) :
      Exec κ (.cases (.mk patterns guard body :: cs) els) (ev ++ ev') o
  -- `try`: the `then` clause after the body is generated before `codegen_poptry`
  | tryJumps {κ : Ctx} {body els t : Expr} {ev : List Event} {o : Outcome}
      (h : Exec (κ.enter (.tryBody t)) (.expr body) ev o) (hn : o ≠ .normal) (ho : o ≠ .error) :
      Exec κ (.node (.tryElse body els t)) ev o
  | tryThen {κ : Ctx} {body els t : Expr} {ev ev' : List Event} {o : Outcome}
      (h : Exec (κ.enter (.tryBody t)) (.expr body) ev .normal)
      (ht : Exec (κ.enter .tryThen) (.expr t) ev' o) (ho : o ≠ .error) :
      Exec κ (.node (.tryElse body els t)) (ev ++ ev') o
  | tryError {κ : Ctx} {body els t : Expr} {ev ev' : List Event} {o : Outcome}
      (h : Exec (κ.enter (.tryBody t)) (.expr body) ev .error)
      (he : Exec κ (.tryElse els t) ev' o) : Exec κ (.node (.tryElse body els t)) (ev ++ ev') o
  | tryThenError {κ : Ctx} {body els t : Expr} {ev ev' ev'' : List Event} {o : Outcome}
      (h : Exec (κ.enter (.tryBody t)) (.expr body) ev .normal)
      (ht : Exec (κ.enter .tryThen) (.expr t) ev' .error) (he : Exec κ (.tryElse els t) ev'' o) :
      Exec κ (.node (.tryElse body els t)) (ev ++ ev' ++ ev'') o
  | elseJumps {κ : Ctx} {els t : Expr} {ev : List Event} {o : Outcome}
      (h : Exec (κ.enter (.tryElse t)) (.expr els) ev o) (hn : o ≠ .normal) :
      Exec κ (.tryElse els t) ev o
  | elseThen {κ : Ctx} {els t : Expr} {ev ev' : List Event} {o : Outcome}
      (h : Exec (κ.enter (.tryElse t)) (.expr els) ev .normal)
      (ht : Exec (κ.enter .tryThen) (.expr t) ev' o) : Exec κ (.tryElse els t) (ev ++ ev') o
  -- disposing blocks, the same: without `ast_canerror` there is no block to go to
  | disposeJumps {κ : Ctx} {canError : Bool} {body d : Expr} {ev : List Event} {o : Outcome}
      (h : Exec (κ.enter (.disposeBody d)) (.expr body) ev o) (hn : o ≠ .normal)
      (ho : canError = true → o ≠ .error) : Exec κ (.node (.disposing canError body d)) ev o
  | dispose {κ : Ctx} {canError : Bool} {body d : Expr} {ev ev' : List Event} {o : Outcome}
      (h : Exec (κ.enter (.disposeBody d)) (.expr body) ev .normal)
      (hd : Exec (κ.enter .disposeClause) (.expr d) ev' o) (ho : canError = true → o ≠ .error) :
      Exec κ (.node (.disposing canError body d)) (ev ++ ev') o
  | disposeError {κ : Ctx} {body d : Expr} {ev ev' : List Event} {o : Outcome}
      (h : Exec (κ.enter (.disposeBody d)) (.expr body) ev .error)
      (he : Exec κ (.disposeElse d) ev' o) : Exec κ (.node (.disposing true body d)) (ev ++ ev') o
  | disposeClauseError {κ : Ctx} {body d : Expr} {ev ev' ev'' : List Event} {o : Outcome}
      (h : Exec (κ.enter (.disposeBody d)) (.expr body) ev .normal)
      (hd : Exec (κ.enter .disposeClause) (.expr d) ev' .error)
      (he : Exec κ (.disposeElse d) ev'' o) :
      Exec κ (.node (.disposing true body d)) (ev ++ ev' ++ ev'') o
  | disposeElseJumps {κ : Ctx} {d : Expr} {ev : List Event} {o : Outcome}
      (h : Exec (κ.enter .disposeClause) (.expr d) ev o) (hn : o ≠ .normal) :
      Exec κ (.disposeElse d) ev o
  | disposeElse {κ : Ctx} {d : Expr} {ev ev' : List Event} {o : Outcome}
      (h : Exec (κ.enter .disposeClause) (.expr d) ev .normal) (hr : Exec κ .raise ev' o) :
      Exec κ (.disposeElse d) (ev ++ ev') o
  -- jumps: the clauses come before the value of a `break`, and after that of a `return`
  | brkClause {κ : Ctx} {value : Option Expr} {ev : List Event} {o : Outcome}
      (h : Exec κ (.clauses (thenClauses true κ.path)) ev o) (ho : o ≠ .normal) :
      Exec κ (.node (.brk value)) ev o
  | brkValue {κ : Ctx} {value : Option Expr} {ev ev' : List Event} {o : Outcome}
      (h : Exec κ (.clauses (thenClauses true κ.path)) ev .normal)
      (hv : Exec κ (.items value.toList) ev' o) (ho : o ≠ .normal) :
      Exec κ (.node (.brk value)) (ev ++ ev') o
  | brk {κ : Ctx} {value : Option Expr} {ev ev' : List Event}
      (h : Exec κ (.clauses (thenClauses true κ.path)) ev .normal)
      (hv : Exec κ (.items value.toList) ev' .normal) :
      Exec κ (.node (.brk value)) (ev ++ ev' ++ [.jump (loopBody κ.path) κ.target])
        (.brk value.isSome)
  | contClause {κ : Ctx} {ev : List Event} {o : Outcome}
      (h : Exec κ (.clauses (thenClauses true κ.path)) ev o) (ho : o ≠ .normal) :
      Exec κ (.node .cont) ev o
  | cont {κ : Ctx} {ev : List Event} (h : Exec κ (.clauses (thenClauses true κ.path)) ev .normal) :
      Exec κ (.node .cont) (ev ++ [.jump (loopBody κ.path) κ.target]) .cont
  | retValue {κ : Ctx} {value : Expr} {ev : List Event} {o : Outcome}
      (h : Exec κ (.expr value) ev o) (ho : o ≠ .normal) : Exec κ (.node (.ret value)) ev o
  | retClause {κ : Ctx} {value : Expr} {ev ev' : List Event} {o : Outcome}
      (h : Exec κ (.expr value) ev .normal)
      (ht : Exec κ (.clauses (thenClauses false κ.path)) ev' o) (ho : o ≠ .normal) :
      Exec κ (.node (.ret value)) (ev ++ ev') o
  | ret {κ : Ctx} {value : Expr} {ev ev' : List Event} (h : Exec κ (.expr value) ev .normal)
      (ht : Exec κ (.clauses (thenClauses false κ.path)) ev' .normal) :
      Exec κ (.node (.ret value)) (ev ++ ev') .ret

end SpacePony.Jumps
