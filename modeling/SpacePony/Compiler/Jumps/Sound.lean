import SpacePony.Compiler.Jumps.Model

/-!
# Compiler — jumping away is sound

An expression with `AST_FLAG_JUMPS_AWAY` does not complete, as long as the jumps go where the refer
pass recorded them.  The pass marks the loop whose *body* a `break` stands in, codegen sends it to
the loop pushed last.  The two differ in the condition of a loop, and where a jump out of a loop
generates a `then` or dispose clause of an expression around the loop.

* `exec_meets`: every run does.
* `jumps_away_sound`: **no expression that is flagged completes.**
* `break_in_condition_completes`: one does that breaks in its condition.
-/

namespace SpacePony.Jumps

open List

variable {κ : Ctx} {o : Outcome} {ev : List Event} {m : Mark}

/-! ### The marks a jump leaves -/

/-- The mark that a jump with this outcome has left. -/
def Outcome.mark : Outcome → Option Mark
  | .brk true => some .mayBreakValue
  | .brk false => some .mayBreak
  | .cont => some .mayContinue
  | _ => none

/-- What the clauses on a path mark on the loop body `t`. -/
def pathMarks (t : Option Nat) : Path → List Mark
  | [] => []
  | .tryBody c :: path | .tryElse c :: path | .disposeBody c :: path =>
    (if loopBody path = t then (refer (loopBody path).isSome c).marks else []) ++ pathMarks t path
  | _ :: path => pathMarks t path

/-- What is marked on the loop body that codegen sends the jumps to, by an expression that marks
`ms` and by the clauses around it. -/
def Ctx.marks (κ : Ctx) (ms : List Mark) : List Mark :=
  (if loopBody κ.path = κ.target then ms else []) ++ pathMarks κ.target κ.path

/-- What the pass says of an expression here. -/
def Ctx.refer (κ : Ctx) (e : Expr) : Verdict := Jumps.refer (loopBody κ.path).isSome e

/-- The loops around are those that codegen has pushed. -/
def Ctx.Below (κ : Ctx) : Prop := ∀ l, .loopBody l ∈ κ.path → l < κ.loops

variable {ms : List Mark} {crumb : Crumb} {path : Path} {n : Nat} {b : Bool} {es : List Expr}
  {v : Verdict} {l : Loop}

theorem marks_mono {ms' : List Mark} (h : ms ⊆ ms') : κ.marks ms ⊆ κ.marks ms' := by
  rw [Ctx.marks, Ctx.marks]
  intro m hm
  rcases mem_append.1 hm with hm | hm
  · split at hm
    case isTrue ht =>
      rw [if_pos ht]
      exact mem_append_left _ (h hm)
    case isFalse => cases hm
  · exact mem_append_right _ hm

theorem pathMarks_subset : pathMarks κ.target κ.path ⊆ κ.marks ms :=
  subset_append_right _ _

/-- Entering a construct that has a clause: the clause marks what the construct marks. -/
theorem marks_enter {c : Expr} {ms' : List Mark}
    (hc : crumb = .tryBody c ∨ crumb = .tryElse c ∨ crumb = .disposeBody c)
    (h : ms ++ (κ.refer c).marks ⊆ ms') : (κ.enter crumb).marks ms ⊆ κ.marks ms' := by
  have hloop : loopBody (κ.enter crumb).path = loopBody κ.path := by
    rcases hc with rfl | rfl | rfl <;> rfl
  have hpath : pathMarks κ.target (κ.enter crumb).path =
      (if loopBody κ.path = κ.target then (κ.refer c).marks else []) ++
        pathMarks κ.target κ.path := by
    rcases hc with rfl | rfl | rfl <;> rfl
  have htarget : (κ.enter crumb).target = κ.target := rfl
  rw [Ctx.marks, Ctx.marks, hloop, htarget, hpath]
  split
  · intro m hm
    rcases mem_append.1 hm with hm | hm
    · exact mem_append_left _ (h (mem_append_left _ hm))
    rcases mem_append.1 hm with hm | hm
    · exact mem_append_left _ (h (mem_append_right _ hm))
    · exact mem_append_right _ hm
  · exact fun m hm => hm

/-- Entering a clause. -/
theorem marks_enter_clause (hc : crumb = .tryThen ∨ crumb = .disposeClause ∨ crumb = .loopElse) :
    (κ.enter crumb).marks ms = κ.marks ms := by
  rcases hc with rfl | rfl | rfl <;> rfl

/-! ### The loops around -/

theorem Ctx.Below.enter (h : κ.Below) (hc : ∀ l, crumb ≠ .loopBody l) : (κ.enter crumb).Below := by
  intro l hl
  rcases mem_cons.1 hl with heq | hl
  · exact absurd heq.symm (hc l)
  · exact h l hl

theorem Ctx.Below.enterCond (h : κ.Below) : κ.enterCond.Below := by
  intro l hl
  rcases mem_cons.1 hl with heq | hl
  · cases heq
  · exact Nat.lt_succ_of_lt (h l hl)

theorem Ctx.Below.enterBody (h : κ.Below) : κ.enterBody.Below := by
  intro l hl
  rcases mem_cons.1 hl with heq | hl
  · cases heq
    exact Nat.lt_succ_self _
  · exact Nat.lt_succ_of_lt (h l hl)

theorem loopBody_mem {l : Nat} (h : loopBody path = some l) : .loopBody l ∈ path := by
  induction path with
  | nil => cases h
  | cons crumb path ih =>
    cases crumb with
    | loopBody l' =>
      cases h
      exact .head _
    | loopCond | loopElse | tryBody _ | tryElse _ | tryThen | disposeBody _ | disposeClause =>
      exact .tail _ (ih h)

/-- No clause around marks a loop that is not around. -/
theorem pathMarks_eq_nil {l : Nat} (h : ∀ l', .loopBody l' ∈ path → l' < l) :
    pathMarks (some l) path = [] := by
  induction path with
  | nil => rfl
  | cons crumb path ih =>
    have ht : ∀ l', .loopBody l' ∈ path → l' < l := fun l' hl => h l' (.tail _ hl)
    have hne : loopBody path ≠ some l := fun heq => Nat.lt_irrefl l (ht l (loopBody_mem heq))
    cases crumb with
    | loopBody l' | loopCond | loopElse | tryThen | disposeClause => exact ih ht
    | tryBody c | tryElse c | disposeBody c =>
      simp only [pathMarks, if_neg hne, nil_append]
      exact ih ht

/-- In the condition of a loop nothing marks the loop. -/
theorem marks_enterCond (h : κ.Below) (ms : List Mark) : κ.enterCond.marks ms = [] := by
  have hne : loopBody κ.path ≠ some κ.loops := fun heq => Nat.lt_irrefl _ (h _ (loopBody_mem heq))
  have hpath : pathMarks (some κ.loops) κ.path = [] := pathMarks_eq_nil h
  show (if loopBody κ.path = some κ.loops then ms else []) ++ pathMarks (some κ.loops) κ.path = []
  rw [if_neg hne, hpath]
  rfl

/-- In the body of a loop only the body marks the loop. -/
theorem marks_enterBody (h : κ.Below) (ms : List Mark) : κ.enterBody.marks ms = ms := by
  have hpath : pathMarks (some κ.loops) κ.path = [] := pathMarks_eq_nil h
  show (if some κ.loops = some κ.loops then ms else []) ++ pathMarks (some κ.loops) κ.path = ms
  rw [if_pos rfl, hpath, append_nil]

/-! ### The clauses that a jump generates -/

/-- A clause that may be generated under `κ`: it marks what the clauses around mark. -/
def Ctx.Clause (κ : Ctx) (c : Path × Expr) : Prop :=
  (⟨c.1, κ.loops⟩ : Ctx).Below ∧
    (⟨c.1, κ.loops⟩ : Ctx).marks (Jumps.refer (loopBody c.1).isSome c.2).marks ⊆
      pathMarks κ.target κ.path

/-- What holds of a clause under the ancestors of an expression holds under its own. -/
theorem Ctx.Clause.cons {c : Path × Expr} (h : (⟨path, n⟩ : Ctx).Clause c) :
    (⟨crumb :: path, n⟩ : Ctx).Clause c := by
  refine ⟨h.1, List.Subset.trans h.2 ?_⟩
  show pathMarks _ path ⊆ pathMarks _ (crumb :: path)
  cases crumb with
  | loopBody l | loopCond | loopElse | tryThen | disposeClause => exact List.Subset.refl _
  | tryBody c | tryElse c | disposeBody c => exact subset_append_right _ _

/-- The clause of the construct an expression is in. -/
theorem clause_head {last : Crumb} {c : Expr}
    (hc : crumb = .tryBody c ∨ crumb = .tryElse c ∨ crumb = .disposeBody c)
    (hl : last = .tryThen ∨ last = .disposeClause) (h : (⟨crumb :: path, n⟩ : Ctx).Below) :
    (⟨crumb :: path, n⟩ : Ctx).Clause (last :: path, c) := by
  have hb : (⟨path, n⟩ : Ctx).Below := fun l hl => h l (.tail _ hl)
  constructor
  · rcases hl with rfl | rfl
    · have h : ∀ l, Crumb.tryThen ≠ .loopBody l := nofun
      exact hb.enter h
    · have h : ∀ l, Crumb.disposeClause ≠ .loopBody l := nofun
      exact hb.enter h
  · rcases hl with rfl | rfl <;> rcases hc with rfl | rfl | rfl <;> exact List.Subset.refl _

theorem thenClauses_clause {w : Bool} :
    ∀ {path : Path}, (⟨path, n⟩ : Ctx).Below → ∀ c ∈ thenClauses w path, (⟨path, n⟩ : Ctx).Clause c
  | [], _, _, hc => nomatch hc
  | crumb :: path, h, c, hc => by
      have hb : (⟨path, n⟩ : Ctx).Below := fun l hl => h l (.tail _ hl)
      have ih := thenClauses_clause (w := w) hb
      cases crumb with
      | loopBody l | loopCond | loopElse =>
        simp only [thenClauses] at hc
        split at hc
        · cases hc
        · exact (ih c hc).cons
      | tryThen | disposeClause => exact (ih c hc).cons
      | tryBody t =>
        rcases mem_cons.1 hc with rfl | hc
        · exact clause_head (.inl rfl) (.inl rfl) h
        · exact (ih c hc).cons
      | tryElse t =>
        rcases mem_cons.1 hc with rfl | hc
        · exact clause_head (.inr (.inl rfl)) (.inl rfl) h
        · exact (ih c hc).cons
      | disposeBody d =>
        rcases mem_cons.1 hc with rfl | hc
        · exact clause_head (.inr (.inr rfl)) (.inr rfl) h
        · exact (ih c hc).cons

theorem errorClause_clause :
    ∀ {path : Path}, (⟨path, n⟩ : Ctx).Below → ∀ c ∈ errorClause path, (⟨path, n⟩ : Ctx).Clause c
  | [], _, _, hc => nomatch hc
  | crumb :: path, h, c, hc => by
      have hb : (⟨path, n⟩ : Ctx).Below := fun l hl => h l (.tail _ hl)
      cases crumb with
      | loopBody l | loopCond | loopElse => exact (errorClause_clause hb c hc).cons
      | tryThen | disposeClause | tryBody t => cases hc
      | tryElse t =>
        rcases mem_singleton.1 hc with rfl
        exact clause_head (.inr (.inl rfl)) (.inl rfl) h
      | disposeBody d =>
        rcases mem_singleton.1 hc with rfl
        exact clause_head (.inr (.inr rfl)) (.inr rfl) h

/-! ### What a run of each kind of code keeps to -/

/-- A run that ends with `o` ends as the pass says: it completes only if the expression is not
flagged, and it jumps within a loop only if the loop body is marked so. -/
structure Ends (κ : Ctx) (v : Verdict) (o : Outcome) : Prop where
  completes : o = .normal → v.jumpsAway = false
  marked : ∀ m, o.mark = some m → m ∈ κ.marks v.marks

/-- A run of clauses jumps within a loop only if the clauses around mark the loop body so. -/
def ByClauses (κ : Ctx) (o : Outcome) : Prop :=
  ∀ m, o.mark = some m → m ∈ pathMarks κ.target κ.path

/-- The blocks of a loop that its body lets it reach. -/
def Loop.Reaches (κ : Ctx) : Loop → Block → Prop
  | _, .body => True
  | l, .bodyCond => (refer true l.body).jumpsAway = false
  | .whileLoop _ _ _, .cond | .whileLoop _ _ _, .els => True
  | .repeatLoop body _ _, .cond => .mayContinue ∈ (refer true body).marks
  | .repeatLoop body _ _, .els =>
    .mayBreak ∈ (refer true body).marks ∨ .mayContinue ∈ (refer true body).marks
  | l, .post => (κ.refer l.expr).jumpsAway = false

/-- What a code is only run with. -/
def Ctx.Admits (κ : Ctx) : Code → Prop
  | .clauses cs => ∀ c ∈ cs, κ.Clause c
  | .block l b => l.Reaches κ b
  | _ => True

/-- What a run of a code that ends with `o` keeps to. -/
def Meets (κ : Ctx) : Code → Outcome → Prop
  | .expr e, o | .node e, o => Ends κ (κ.refer e) o
  | .items es, o => Ends κ (referItems (loopBody κ.path).isSome es) o
  | .clauses _, o => ByClauses κ o
  | .raise, o => o ≠ .normal ∧ ByClauses κ o
  | .block l _, o => Ends κ (κ.refer l.expr) o
  | .cases cs els, o =>
    ((∀ c ∈ cs, (referCase (loopBody κ.path).isSome c).jumpsAway = true) →
      (referOption (loopBody κ.path).isSome els).jumpsAway = true → o ≠ .normal) ∧
    ∀ m, o.mark = some m → m ∈ κ.marks ((referCases (loopBody κ.path).isSome cs).marks ++
      (referOption (loopBody κ.path).isSome els).marks)
  | .tryElse els t, o => (o = .normal → (κ.refer els).jumpsAway = false) ∧
      ∀ m, o.mark = some m → m ∈ κ.marks ((κ.refer els).marks ++ (κ.refer t).marks)
  | .disposeElse d, o => o ≠ .normal ∧ ∀ m, o.mark = some m → m ∈ κ.marks (κ.refer d).marks

/-- Every jump goes to the loop whose body the pass has marked. -/
def Own (ev : List Event) : Prop := ∀ recorded target, .jump recorded target ∈ ev →
  ∃ l, recorded = some l ∧ target = some l

/-- No expression that is flagged has completed. -/
def Unflagged (ev : List Event) : Prop :=
  ∀ inLoop e, .completed inLoop e ∈ ev → (refer inLoop e).jumpsAway = false

theorem Own.left {ev ev' : List Event} (h : Own (ev ++ ev')) : Own ev :=
  fun r t hm => h r t (mem_append_left _ hm)

theorem Own.right {ev ev' : List Event} (h : Own (ev ++ ev')) : Own ev' :=
  fun r t hm => h r t (mem_append_right _ hm)

theorem Unflagged.append {ev ev' : List Event} (h : Unflagged ev) (h' : Unflagged ev') :
    Unflagged (ev ++ ev') := fun b e hm => (mem_append.1 hm).elim (h b e) (h' b e)

theorem unflagged_nil : Unflagged [] := fun _ _ hm => nomatch hm

theorem unflagged_jump {r t : Option Nat} : Unflagged [.jump r t] := fun _ _ hm => by
  rcases mem_singleton.1 hm with h
  cases h

/-! ### The verdicts -/

/-- A sequence that is flagged ends with an expression that is. -/
theorem referItems_cons_jumpsAway {e : Expr} (he : (refer b e).jumpsAway = false)
    (hes : (referItems b es).jumpsAway = false) : (referItems b (e :: es)).jumpsAway = false := by
  cases es with
  | nil => simpa only [referItems] using he
  | cons e' es => simpa only [referItems] using hes

theorem branch_eq_zero : v.branch = 0 ↔ v.jumpsAway = true := by
  rw [Verdict.branch]
  split <;> simp_all

/-- Cases that are flagged are all flagged. -/
theorem referCases_jumpsAway : ∀ {cs : List Case}, (referCases b cs).jumpsAway = true →
      ∀ c ∈ cs, (referCase b c).jumpsAway = true
  | [], _, _, hc => nomatch hc
  | [c], h, c', hc => by
      rcases mem_singleton.1 hc with rfl
      simpa only [referCases] using h
  | c :: c₂ :: cs, h, c', hc => by
      simp only [referCases, decide_eq_true_eq, Nat.add_eq_zero_iff, branch_eq_zero] at h
      rcases mem_cons.1 hc with rfl | hc
      · exact h.1
      · exact referCases_jumpsAway h.2 c' hc

/-- A `try` whose `else` completes, or whose body does. -/
theorem referTry_completes {body els t : Verdict}
    (h : body.jumpsAway = false ∨ els.jumpsAway = false) :
    (referTry body els t).jumpsAway = false := by
  rcases h with h | h <;> simp [referTry, Verdict.branch, h]

/-! ### The loops -/

theorem reaches_start : l.Reaches κ l.start := by
  cases l <;> trivial

theorem mark_of_block {b : Block} (h : o.block = some b) : ∃ m, o.mark = some m := by
  cases o with
  | brk valued => cases valued <;> exact ⟨_, rfl⟩
  | cont => exact ⟨_, rfl⟩
  | normal | ret | error | cut => cases h

theorem mark_of_block_none (h : o.block = none) : o.mark = none := by
  cases o with
  | brk valued => cases valued <;> cases h
  | cont => cases h
  | normal | ret | error | cut => rfl

/-- Where the condition of a loop goes. -/
theorem reaches_branch {b : Block} {value : Bool} (hb : b = .cond ∨ b = .bodyCond)
    (h : l.Reaches κ b) : l.Reaches κ (l.branch b value) := by
  rcases hb with rfl | rfl <;> cases l <;> cases value
  case inl.whileLoop.false | inl.whileLoop.true | inl.repeatLoop.false => trivial
  case inl.repeatLoop.true => exact .inr h
  case inr.whileLoop.true | inr.repeatLoop.false => trivial
  case inr.whileLoop.false cond body els =>
    have hb : (refer true body).jumpsAway = false := h
    show (referWhile _ (refer true body) _).jumpsAway = false
    simp [referWhile, Verdict.branch, hb]
  case inr.repeatLoop.true body cond els =>
    have hb : (refer true body).jumpsAway = false := h
    show (referRepeat (refer true body) _ _).jumpsAway = false
    simp [referRepeat, Verdict.branch, hb]

/-- Where a jump in the body of a loop goes. -/
theorem reaches_jump {b : Block} (hb : o.block = some b)
    (h : ∀ m, o.mark = some m → m ∈ (refer true l.body).marks) : l.Reaches κ b := by
  cases o with
  | normal | ret | error | cut => cases hb
  | cont =>
    cases hb
    have hm := h _ rfl
    cases l with
    | whileLoop cond body els => trivial
    | repeatLoop body cond els => exact hm
  | brk valued =>
    cases valued <;> cases hb <;> have hm := h _ rfl
    · cases l with
      | whileLoop cond body els => trivial
      | repeatLoop body cond els => exact .inl hm
    cases l with
    | whileLoop cond body els =>
      have hm : .mayBreakValue ∈ (refer true body).marks := hm
      show (referWhile _ (refer true body) _).jumpsAway = false
      simp [referWhile, hm]
    | repeatLoop body cond els =>
      have hm : .mayBreakValue ∈ (refer true body).marks := hm
      show (referRepeat (refer true body) _ _).jumpsAway = false
      simp [referRepeat, hm]

/-- A loop whose `else` completes. -/
theorem els_completes (h : l.Reaches κ .els) (he : (κ.refer l.elseClause).jumpsAway = false) :
    (κ.refer l.expr).jumpsAway = false := by
  cases l with
  | whileLoop cond body els =>
    have he : (refer (loopBody κ.path).isSome els).jumpsAway = false := he
    show (referWhile _ _ (refer (loopBody κ.path).isSome els)).jumpsAway = false
    simp [referWhile, Verdict.branch, he]
  | repeatLoop body cond els =>
    have he : (refer (loopBody κ.path).isSome els).jumpsAway = false := he
    show (referRepeat (refer true body) _ (refer (loopBody κ.path).isSome els)).jumpsAway = false
    rcases h with h | h
    · simp [referRepeat, Verdict.branch, he, h]
    · simp [referRepeat, he, h]

/-- A loop marks what its `else` marks. -/
theorem els_marks : (κ.refer l.elseClause).marks ⊆ (κ.refer l.expr).marks := by
  cases l <;> exact subset_append_right _ _

/-! ### Every run keeps to it -/

/-- An outcome that is no jump within a loop. -/
theorem Ends.of_mark_none (hn : o ≠ .normal) (hm : o.mark = none) : Ends κ v o :=
  ⟨fun h => absurd h hn, fun m h => by rw [hm] at h; cases h⟩

/-- What ends as a part of an expression says, and does not complete, ends as the whole says. -/
theorem Ends.of_ne (hn : o ≠ .normal) (hm : ∀ m, o.mark = some m → m ∈ κ.marks ms)
    (h : ms ⊆ v.marks) : Ends κ v o :=
  ⟨fun ho => absurd ho hn, fun m ho => marks_mono h (hm m ho)⟩

/-- What the clauses around mark, an expression marks. -/
theorem Ends.of_clauses (hn : o ≠ .normal) (hm : ByClauses κ o) : Ends κ v o :=
  ⟨fun ho => absurd ho hn, fun m ho => pathMarks_subset (hm m ho)⟩

/-- Leaving an expression. -/
theorem unflagged_completion {e : Expr} (h : Ends κ (κ.refer e) o) :
    Unflagged (completion κ e o) := by
  intro b e' hm
  rw [completion] at hm
  split at hm
  case isTrue ho =>
    rcases mem_singleton.1 hm with heq
    cases heq
    exact h.completes ho
  case isFalse => cases hm

/-- The `else` of a `try` decides. -/
theorem ends_tryElse {body els t : Expr} (h : Meets κ (.tryElse els t) o) :
    Ends κ (κ.refer (.tryElse body els t)) o := by
  refine ⟨fun ho => ?_, fun m ho => marks_mono ?_ (h.2 m ho)⟩
  · show (refer _ (.tryElse body els t)).jumpsAway = false
    rw [refer]
    exact referTry_completes (.inr (h.1 ho))
  show _ ⊆ (refer _ (.tryElse body els t)).marks
  rw [refer, referTry, append_assoc]
  exact subset_append_right _ _

/-- The body of a `try`, with the clause generated by the jumps in it. -/
theorem tryMarks_body {body els t : Expr} : ((κ.enter (.tryBody t)).refer body).marks ++
    (κ.refer t).marks ⊆ (κ.refer (.tryElse body els t)).marks := by
  show _ ⊆ (refer _ (.tryElse body els t)).marks
  rw [refer, referTry]
  exact append_subset.2 ⟨subset_append_of_subset_left _ (subset_append_left _ _),
    subset_append_right _ _⟩

theorem disposeMarks_clause {canError : Bool} {body d : Expr} :
    (κ.refer d).marks ⊆ (κ.refer (.disposing canError body d)).marks := by
  show _ ⊆ (refer _ (.disposing canError body d)).marks
  rw [refer]
  exact subset_append_right _ _

/-- A jump to the loop that the pass has marked: it is one of the marks. -/
theorem marks_of_own (h : ∃ l, loopBody κ.path = some l ∧ κ.target = some l)
    (hm : (loopBody κ.path).isSome = true → m ∈ ms) : m ∈ κ.marks ms := by
  obtain ⟨l, hl, ht⟩ := h
  rw [Ctx.marks, hl, ht, if_pos rfl]
  exact mem_append_left _ (hm (by rw [hl]; rfl))

/-- **Every run keeps to what the pass says**, as long as its jumps go where the pass has recorded
them. -/
theorem exec_meets {c : Code} (h : Exec κ c ev o) (hown : Own ev) (hb : κ.Below)
    (hr : κ.Admits c) : Unflagged ev ∧ Meets κ c o := by
  induction h with
  | @cut κ c =>
    have hnone : ∀ v, Ends κ v .cut := fun v => .of_mark_none nofun rfl
    refine ⟨unflagged_nil, ?_⟩
    cases c with
    | expr e | node e | items es | block l b => exact hnone _
    | clauses cs => exact nofun
    | raise => exact ⟨nofun, nofun⟩
    | cases cs els => exact ⟨fun _ _ => nofun, nofun⟩
    | tryElse els t | disposeElse d => exact ⟨nofun, nofun⟩
  | expr h ih =>
    obtain ⟨hu, hm⟩ := ih hown.left hb trivial
    exact ⟨hu.append (unflagged_completion hm), hm⟩
  -- expressions in order
  | nil =>
    exact ⟨unflagged_nil, fun _ => by rw [referItems], nofun⟩
  | @jumps κ e es ev o h ho ih =>
    obtain ⟨hu, hm⟩ := ih hown hb trivial
    refine ⟨hu, .of_ne ho hm.marked ?_⟩
    rw [referItems_cons_marks]
    exact subset_append_left _ _
  | @cons κ e es ev ev' o h t ih iht =>
    obtain ⟨hu, hm⟩ := ih hown.left hb trivial
    obtain ⟨hu', hm'⟩ := iht hown.right hb trivial
    refine ⟨hu.append hu', fun ho => ?_, fun m ho => ?_⟩
    · exact referItems_cons_jumpsAway (hm.completes rfl) (hm'.completes ho)
    · rw [referItems_cons_marks]
      exact marks_mono (subset_append_right _ _) (hm'.marked m ho)
  -- clauses
  | noClause =>
    exact ⟨unflagged_nil, nofun⟩
  | clauseJumps h ho ih =>
    have hc := hr _ (.head _)
    obtain ⟨hu, hm⟩ := ih hown hc.1 trivial
    exact ⟨hu, fun m hmark => hc.2 (hm.marked m hmark)⟩
  | clause h t ih iht =>
    obtain ⟨hu, hm⟩ := ih hown.left (hr _ (.head _)).1 trivial
    obtain ⟨hu', hm'⟩ := iht hown.right hb fun c hm => hr c (.tail _ hm)
    exact ⟨hu.append hu', hm'⟩
  -- errors
  | raiseJumps h ho ih =>
    obtain ⟨hu, hm⟩ := ih hown hb (errorClause_clause hb)
    exact ⟨hu, ho, hm⟩
  | raise h ih =>
    obtain ⟨hu, hm⟩ := ih hown hb (errorClause_clause hb)
    exact ⟨hu, nofun, nofun⟩
  | error h ih =>
    obtain ⟨hu, hn, hm⟩ := ih hown hb trivial
    exact ⟨hu, .of_clauses hn hm⟩
  -- operations, sequences and branches
  | @op κ es canError ev o h ih =>
    obtain ⟨hu, hm⟩ := ih hown hb trivial
    refine ⟨hu, fun _ => ?_, fun m ho => ?_⟩
    · show (refer _ (.op es canError)).jumpsAway = false
      rw [refer]
    show m ∈ κ.marks (refer _ (.op es canError)).marks
    rw [refer]
    exact hm.marked m ho
  | opError h ih =>
    exact ⟨(ih hown hb trivial).1, .of_mark_none nofun rfl⟩
  | @seq κ es ev o h ih =>
    obtain ⟨hu, hm⟩ := ih hown hb trivial
    refine ⟨hu, ?_⟩
    show Ends κ (refer _ (.seq es)) o
    rw [refer]
    exact hm
  | @iteJumps κ cond left right ev o h ho ih =>
    obtain ⟨hu, hm⟩ := ih hown hb trivial
    refine ⟨hu, .of_ne ho hm.marked ?_⟩
    show _ ⊆ (refer _ (.ite cond left right)).marks
    rw [refer]
    exact subset_append_of_subset_left _ (subset_append_left _ _)
  | @ite κ cond left right branch ev ev' o h hbr t ih iht =>
    obtain ⟨hu, hm⟩ := ih hown.left hb trivial
    obtain ⟨hu', hm'⟩ := iht hown.right hb trivial
    refine ⟨hu.append hu', fun ho => ?_, fun m ho => marks_mono ?_ (hm'.marked m ho)⟩
    · have hbranch := hm'.completes ho
      show (refer _ (.ite cond left right)).jumpsAway = false
      rw [refer]
      rcases hbr with rfl | rfl <;> simp_all [Ctx.refer, Verdict.branch]
    show _ ⊆ (refer _ (.ite cond left right)).marks
    rw [refer]
    rcases hbr with rfl | rfl
    · exact subset_append_of_subset_left _ (subset_append_right _ _)
    · exact subset_append_right _ _
  | @iftype κ left right branch ev o hbr h ih =>
    obtain ⟨hu, hm⟩ := ih hown hb trivial
    refine ⟨hu, fun ho => ?_, fun m ho => marks_mono ?_ (hm.marked m ho)⟩
    · have hbranch := hm.completes ho
      show (refer _ (.iftype left right)).jumpsAway = false
      rw [refer]
      rcases hbr with rfl | rfl <;> simp_all [Ctx.refer, Verdict.branch]
    show _ ⊆ (refer _ (.iftype left right)).marks
    rw [refer]
    rcases hbr with rfl | rfl
    · exact subset_append_left _ _
    · exact subset_append_right _ _
  -- loops
  | loop h ih =>
    exact ih hown hb reaches_start
  | cond value hbl h t ih iht =>
    obtain ⟨hu, -⟩ := ih hown.left hb.enterCond trivial
    obtain ⟨hu', hm'⟩ := iht hown.right hb (reaches_branch hbl hr)
    exact ⟨hu.append hu', hm'⟩
  | condJumps hbl h ho t ih iht =>
    obtain ⟨hu, hm⟩ := ih hown.left hb.enterCond trivial
    -- nothing marks the loop from its condition
    obtain ⟨m, hmark⟩ := mark_of_block ho
    have hmem := hm.marked m hmark
    rw [marks_enterCond hb] at hmem
    cases hmem
  | condLeaves hbl h hn ho ih =>
    obtain ⟨hu, -⟩ := ih hown hb.enterCond trivial
    exact ⟨hu, .of_mark_none hn (mark_of_block_none ho)⟩
  | body h t ih iht =>
    obtain ⟨hu, hm⟩ := ih hown.left hb.enterBody trivial
    obtain ⟨hu', hm'⟩ := iht hown.right hb (hm.completes rfl)
    exact ⟨hu.append hu', hm'⟩
  | bodyJumps h ho t ih iht =>
    obtain ⟨hu, hm⟩ := ih hown.left hb.enterBody trivial
    have hmarks := hm.marked
    rw [marks_enterBody hb] at hmarks
    obtain ⟨hu', hm'⟩ := iht hown.right hb (reaches_jump ho hmarks)
    exact ⟨hu.append hu', hm'⟩
  | bodyLeaves h hn ho ih =>
    obtain ⟨hu, -⟩ := ih hown hb.enterBody trivial
    exact ⟨hu, .of_mark_none hn (mark_of_block_none ho)⟩
  | els h ih =>
    obtain ⟨hu, hm⟩ := ih hown (hb.enter nofun) trivial
    have hmarks := hm.marked
    rw [marks_enter_clause (.inr (.inr rfl))] at hmarks
    exact ⟨hu, fun ho => els_completes hr (hm.completes ho), fun m ho =>
      marks_mono els_marks (hmarks m ho)⟩
  | post =>
    exact ⟨unflagged_nil, fun _ => hr, nofun⟩
  -- matches
  | @mtchJumps κ operand cs els ev o h ho ih =>
    obtain ⟨hu, hm⟩ := ih hown hb trivial
    refine ⟨hu, .of_ne ho hm.marked ?_⟩
    show _ ⊆ (refer _ (.mtch operand cs els)).marks
    rw [refer]
    exact subset_append_of_subset_left _ (subset_append_left _ _)
  | @mtch κ operand cs els ev ev' o h t ih iht =>
    obtain ⟨hu, -⟩ := ih hown.left hb trivial
    obtain ⟨hu', hn, hm⟩ := iht hown.right hb trivial
    refine ⟨hu.append hu', fun ho => ?_, fun m ho => marks_mono ?_ (hm m ho)⟩
    · refine Bool.eq_false_iff.2 fun hflag => ?_
      have hflag : (refer _ (.mtch operand cs els)).jumpsAway = true := hflag
      simp only [refer, decide_eq_true_eq, Nat.add_eq_zero_iff, branch_eq_zero] at hflag
      exact hn (referCases_jumpsAway hflag.1) hflag.2 ho
    · show _ ⊆ (refer _ (.mtch operand cs els)).marks
      rw [refer, append_assoc]
      exact subset_append_right _ _
  | noCase h ih =>
    obtain ⟨hu, hm⟩ := ih hown hb trivial
    refine ⟨hu, fun _ hels ho => ?_, fun m ho => marks_mono ?_ (hm.marked m ho)⟩
    · have hflag := hm.completes ho
      rw [Ctx.refer] at hflag
      rw [referOption, hflag] at hels
      cases hels
    · rw [referOption]
      exact subset_append_right _ _
  | @caseJumps κ patterns guard body cs els ev o h ho ih =>
    obtain ⟨hu, hm⟩ := ih hown hb trivial
    refine ⟨hu, fun _ _ => ho, fun m hmark => marks_mono ?_ (hm.marked m hmark)⟩
    rw [referCases_cons_marks, referCase, referItems_append_marks, referItems_toList_marks]
    simp only [append_assoc]
    exact append_subset.2 ⟨subset_append_left _ _,
      subset_append_of_subset_right _ (subset_append_left _ _)⟩
  | @caseFails κ patterns tested guard body cs els ev ev' o hp h t ih iht =>
    obtain ⟨hu, -⟩ := ih hown.left hb trivial
    obtain ⟨hu', hn, hm⟩ := iht hown.right hb trivial
    refine ⟨hu.append hu', fun hcs => hn fun c hc => hcs c (.tail _ hc),
      fun m ho => marks_mono ?_ (hm m ho)⟩
    rw [referCases_cons_marks, append_assoc]
    exact subset_append_right _ _
  | @caseTaken κ patterns guard body cs els ev ev' o h t ih iht =>
    obtain ⟨hu, -⟩ := ih hown.left hb trivial
    obtain ⟨hu', hm⟩ := iht hown.right hb trivial
    refine ⟨hu.append hu', fun hcs _ ho => ?_, fun m ho => marks_mono ?_ (hm.marked m ho)⟩
    · have hflag := hcs _ (.head _)
      rw [referCase] at hflag
      exact absurd (hm.completes ho) (by rw [Ctx.refer, hflag]; nofun)
    · rw [referCases_cons_marks, referCase, append_assoc]
      exact subset_append_of_subset_left _ (subset_append_right _ _)
  -- `try`
  | @tryJumps κ body els t ev o h hn ho ih =>
    obtain ⟨hu, hm⟩ := ih hown (hb.enter nofun) trivial
    exact ⟨hu, fun h => absurd h hn, fun m hmark =>
      marks_enter (.inl rfl) tryMarks_body (hm.marked m hmark)⟩
  | @tryThen κ body els t ev ev' o h ht ho ih iht =>
    obtain ⟨hu, hm⟩ := ih hown.left (hb.enter nofun) trivial
    obtain ⟨hu', hm'⟩ := iht hown.right (hb.enter nofun) trivial
    have hmarks := hm'.marked
    rw [marks_enter_clause (.inl rfl)] at hmarks
    refine ⟨hu.append hu', fun _ => ?_, fun m hmark => marks_mono ?_ (hmarks m hmark)⟩
    · show (refer _ (.tryElse body els t)).jumpsAway = false
      rw [refer]
      exact referTry_completes (.inl (hm.completes rfl))
    show _ ⊆ (refer _ (.tryElse body els t)).marks
    rw [refer]
    exact subset_append_right _ _
  | tryError h he ih ihe =>
    obtain ⟨hu, -⟩ := ih hown.left (hb.enter nofun) trivial
    obtain ⟨hu', hm⟩ := ihe hown.right hb trivial
    exact ⟨hu.append hu', ends_tryElse hm⟩
  | tryThenError h ht he ih iht ihe =>
    obtain ⟨hu, -⟩ := ih hown.left.left (hb.enter nofun) trivial
    obtain ⟨hu', -⟩ := iht hown.left.right (hb.enter nofun) trivial
    obtain ⟨hu'', hm⟩ := ihe hown.right hb trivial
    exact ⟨(hu.append hu').append hu'', ends_tryElse hm⟩
  | elseJumps h hn ih =>
    obtain ⟨hu, hm⟩ := ih hown (hb.enter nofun) trivial
    exact ⟨hu, fun ho => absurd ho hn, fun m hmark =>
      marks_enter (.inr (.inl rfl)) (List.Subset.refl _) (hm.marked m hmark)⟩
  | elseThen h ht ih iht =>
    obtain ⟨hu, hm⟩ := ih hown.left (hb.enter nofun) trivial
    obtain ⟨hu', hm'⟩ := iht hown.right (hb.enter nofun) trivial
    have hmarks := hm'.marked
    rw [marks_enter_clause (.inl rfl)] at hmarks
    exact ⟨hu.append hu', fun _ => hm.completes rfl, fun m hmark =>
      marks_mono (subset_append_right _ _) (hmarks m hmark)⟩
  -- disposing blocks
  | @disposeJumps κ canError body d ev o h hn ho ih =>
    obtain ⟨hu, hm⟩ := ih hown (hb.enter nofun) trivial
    refine ⟨hu, fun h => absurd h hn, fun m hmark =>
      marks_enter (.inr (.inr rfl)) ?_ (hm.marked m hmark)⟩
    show _ ⊆ (refer _ (.disposing canError body d)).marks
    rw [refer]
    exact List.Subset.refl _
  | @dispose κ canError body d ev ev' o h hd ho ih ihd =>
    obtain ⟨hu, hm⟩ := ih hown.left (hb.enter nofun) trivial
    obtain ⟨hu', hm'⟩ := ihd hown.right (hb.enter nofun) trivial
    have hmarks := hm'.marked
    rw [marks_enter_clause (.inr (.inl rfl))] at hmarks
    refine ⟨hu.append hu', fun _ => ?_, fun m hmark => marks_mono disposeMarks_clause
      (hmarks m hmark)⟩
    have hbody : (refer (loopBody κ.path).isSome body).jumpsAway = false := hm.completes rfl
    show (refer _ (.disposing canError body d)).jumpsAway = false
    simp [refer, Verdict.branch, hbody]
  | disposeError h he ih ihe =>
    obtain ⟨hu, -⟩ := ih hown.left (hb.enter nofun) trivial
    obtain ⟨hu', hn, hm⟩ := ihe hown.right hb trivial
    exact ⟨hu.append hu', .of_ne hn hm disposeMarks_clause⟩
  | disposeClauseError h hd he ih ihd ihe =>
    obtain ⟨hu, -⟩ := ih hown.left.left (hb.enter nofun) trivial
    obtain ⟨hu', -⟩ := ihd hown.left.right (hb.enter nofun) trivial
    obtain ⟨hu'', hn, hm⟩ := ihe hown.right hb trivial
    exact ⟨(hu.append hu').append hu'', .of_ne hn hm disposeMarks_clause⟩
  | disposeElseJumps h hn ih =>
    obtain ⟨hu, hm⟩ := ih hown (hb.enter nofun) trivial
    have hmarks := hm.marked
    rw [marks_enter_clause (.inr (.inl rfl))] at hmarks
    exact ⟨hu, hn, hmarks⟩
  | disposeElse h hr ih ihr =>
    obtain ⟨hu, -⟩ := ih hown.left (hb.enter nofun) trivial
    obtain ⟨hu', hn, hm⟩ := ihr hown.right hb trivial
    exact ⟨hu.append hu', hn, fun m hmark => pathMarks_subset (hm m hmark)⟩
  -- jumps
  | brkClause h ho ih =>
    obtain ⟨hu, hm⟩ := ih hown hb (thenClauses_clause hb)
    exact ⟨hu, .of_clauses ho hm⟩
  | @brkValue κ value ev ev' o h hv ho ih ihv =>
    obtain ⟨hu, -⟩ := ih hown.left hb (thenClauses_clause hb)
    obtain ⟨hu', hm⟩ := ihv hown.right hb trivial
    refine ⟨hu.append hu', .of_ne ho hm.marked ?_⟩
    show _ ⊆ (refer _ (.brk value)).marks
    rw [referItems_toList_marks, refer]
    exact subset_append_left _ _
  | @brk κ value ev ev' h hv ih ihv =>
    obtain ⟨hu, -⟩ := ih hown.left.left hb (thenClauses_clause hb)
    obtain ⟨hu', -⟩ := ihv hown.left.right hb trivial
    refine ⟨(hu.append hu').append unflagged_jump, nofun, fun m hmark => ?_⟩
    refine marks_of_own (hown.right _ _ (.head _)) fun hin => ?_
    show m ∈ (refer _ (.brk value)).marks
    rw [refer, referJump, hin]
    cases value <;> cases hmark <;> simp
  | contClause h ho ih =>
    obtain ⟨hu, hm⟩ := ih hown hb (thenClauses_clause hb)
    exact ⟨hu, .of_clauses ho hm⟩
  | @cont κ ev h ih =>
    obtain ⟨hu, -⟩ := ih hown.left hb (thenClauses_clause hb)
    refine ⟨hu.append unflagged_jump, nofun, fun m hmark => ?_⟩
    refine marks_of_own (hown.right _ _ (.head _)) fun hin => ?_
    show m ∈ (refer _ .cont).marks
    rw [refer, referJump, hin]
    cases hmark
    simp
  | @retValue κ value ev o h ho ih =>
    obtain ⟨hu, hm⟩ := ih hown hb trivial
    refine ⟨hu, .of_ne ho hm.marked ?_⟩
    show _ ⊆ (refer _ (.ret value)).marks
    rw [refer]
    exact List.Subset.refl _
  | retClause h ht ho ih iht =>
    obtain ⟨hu, -⟩ := ih hown.left hb trivial
    obtain ⟨hu', hm⟩ := iht hown.right hb (thenClauses_clause hb)
    exact ⟨hu.append hu', .of_clauses ho hm⟩
  | ret h ht ih iht =>
    obtain ⟨hu, -⟩ := ih hown.left hb trivial
    obtain ⟨hu', -⟩ := iht hown.right hb (thenClauses_clause hb)
    exact ⟨hu.append hu', .of_mark_none nofun rfl⟩

/-! ### The method -/

/-- The run of a method. -/
def Runs (body : Expr) (ev : List Event) (o : Outcome) : Prop := Exec ⟨[], 0⟩ (.expr body) ev o

/-- **Jumping away is sound.**  In a run of a method whose jumps all go to the loop whose body the
refer pass has marked, no expression with `AST_FLAG_JUMPS_AWAY` completes. -/
theorem jumps_away_sound {body : Expr} (h : Runs body ev o) (hown : Own ev) : Unflagged ev :=
  (exec_meets h hown nofun trivial).1

/-- An expression that just has a value. -/
def value : Expr := .op [] false

/-- `while value do break value else return value end`. -/
def breakOut : Expr := .whileLoop value (.seq [.brk (some value)]) (.seq [.ret value])

/-- The run that breaks out. -/
def breakOutEvents : List Event :=
  [.completed false value, .completed true value, .jump (some 0) (some 0),
    .completed false breakOut]

theorem exec_value {κ : Ctx} :
    Exec κ (.expr value) [.completed (loopBody κ.path).isSome value] .normal := by
  have h : Exec κ (.node value) [] .normal := .op .nil
  exact .expr h

/-- A `break` with a value, where it generates no clause. -/
theorem exec_break {κ : Ctx} (h : thenClauses true κ.path = []) :
    Exec κ (.expr (.seq [.brk (some value)]))
      [.completed (loopBody κ.path).isSome value, .jump (loopBody κ.path) κ.target]
      (.brk true) := by
  have hclauses : Exec κ (.clauses (thenClauses true κ.path)) [] .normal := h ▸ .noClause
  have hvalue : Exec κ (.items (some value).toList)
      [.completed (loopBody κ.path).isSome value] .normal := .cons exec_value .nil
  exact .expr (.seq (.jumps (.expr (.brk hclauses hvalue)) nofun))

theorem runs_breakOut : Runs breakOut breakOutEvents .normal := by
  have hbody : Exec ⟨[], 0⟩
      (.block (.whileLoop value (.seq [.brk (some value)]) (.seq [.ret value])) .body)
      [.completed true value, .jump (some 0) (some 0)] .normal :=
    @Exec.bodyJumps ⟨[], 0⟩ (.whileLoop _ _ _) .post _ [] (.brk true) _ (exec_break rfl) rfl .post
  have hcond : Exec ⟨[], 0⟩
      (.block (.whileLoop value (.seq [.brk (some value)]) (.seq [.ret value])) .cond)
      [.completed false value, .completed true value, .jump (some 0) (some 0)] .normal :=
    .cond true (.inl rfl) exec_value hbody
  exact .expr (.loop hcond)

/-- A body that breaks out of its loop has no flagged step. -/
theorem jumps_away_sound_breakOut : Unflagged breakOutEvents :=
  jumps_away_sound runs_breakOut fun r t h => by
    simp only [breakOutEvents, mem_cons, not_mem_nil, reduceCtorEq, or_false,
      false_or, Event.jump.injEq] at h
    exact ⟨0, h⟩

/-- `while if value then break value else value end do return value else return value end`, whose
condition breaks. -/
def breakInCond : Expr :=
  .whileLoop (.ite value (.seq [.brk (some value)]) value) (.seq [.ret value]) (.seq [.ret value])

/-- The loop in a loop: the pass marks the body of the outer one. -/
def nested : Expr := .whileLoop value (.seq [breakInCond]) value

/-- A run of it, up to where the inner loop has completed. -/
def nestedEvents : List Event :=
  [.completed false value, .completed true value, .completed true value, .jump (some 0) (some 1),
    .completed true breakInCond, .completed true (.seq [breakInCond])]

theorem runs_nested : Runs nested nestedEvents .cut := by
  have hbreak : Exec ⟨[.loopCond, .loopBody 0], 2⟩
      (.expr (.ite value (.seq [.brk (some value)]) value))
      [.completed true value, .completed true value, .jump (some 0) (some 1)] (.brk true) :=
    .expr (.ite exec_value (.inl rfl) (exec_break rfl))
  have hcond : Exec ⟨[.loopBody 0], 1⟩
      (.block (.whileLoop (.ite value (.seq [.brk (some value)]) value) (.seq [.ret value])
        (.seq [.ret value])) .cond)
      [.completed true value, .completed true value, .jump (some 0) (some 1)] .normal :=
    @Exec.condJumps ⟨[.loopBody 0], 1⟩ (.whileLoop _ _ _) _ .post _ [] _ _ (.inl rfl) hbreak rfl
      .post
  have hinner : Exec ⟨[.loopBody 0], 1⟩ (.expr (.seq [breakInCond]))
      [.completed true value, .completed true value, .jump (some 0) (some 1),
        .completed true breakInCond, .completed true (.seq [breakInCond])] .normal :=
    .expr (.seq (.cons (.expr (.loop hcond)) .nil))
  have hbody : Exec ⟨[], 0⟩ (.block (.whileLoop value (.seq [breakInCond]) value) .body)
      [.completed true value, .completed true value, .jump (some 0) (some 1),
        .completed true breakInCond, .completed true (.seq [breakInCond])] .cut :=
    @Exec.body ⟨[], 0⟩ (.whileLoop _ _ _) _ [] _ hinner .cut
  have hstart : Exec ⟨[], 0⟩ (.block (.whileLoop value (.seq [breakInCond]) value) .cond)
      nestedEvents .cut :=
    @Exec.cond ⟨[], 0⟩ (.whileLoop _ _ _) _ [_] _ _ true (.inl rfl) exec_value hbody
  exact .expr (.loop hstart)

/-- A `break` with a value in the condition of a loop: the pass accepts the method and flags the
loop, which completes. -/
theorem break_in_condition_completes :
    ¬ ∀ body ev o, (refer false body).errors = [] → Runs body ev o → Unflagged ev := by
  intro h
  have hflag : (refer true breakInCond).jumpsAway = true := by decide
  have hcompleted : (refer true breakInCond).jumpsAway = false :=
    h nested nestedEvents .cut (by decide) runs_nested true breakInCond (by simp [nestedEvents])
  rw [hflag] at hcompleted
  cases hcompleted
end SpacePony.Jumps
