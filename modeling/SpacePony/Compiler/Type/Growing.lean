import SpacePony.Compiler.Type.Alias
import SpacePony.Compiler.Type.Assume

/-!
# Type — an alias that grows

The pass for recursive aliases does not see all the places where an alias stands inline.  So there
are aliases that it accepts and that unfold to larger and larger ones, and a comparison of these has
no end (`growing_diverges`): no two of its comparisons match, and none is of two nominal types.
-/

namespace SpacePony.Subtype

mutual

/-- A type as the pass for recursive aliases sees it. -/
def Ty.erase : Ty → Alias.Ty
  | .nominal d args _ _ => .nominal d (Ty.eraseAll args)
  | .typealiasref d args _ _ => .aliasref d (Ty.eraseAll args)
  | .uniontype ts => .compound .union (Ty.eraseAll ts)
  | .isecttype ts => .compound .isect (Ty.eraseAll ts)
  | .tupletype ts => .compound .tuple (Ty.eraseAll ts)
  | .arrow left right => .arrow left.erase right.erase
  | _ => .leaf

def Ty.eraseAll : List Ty → List Alias.Ty
  | [] => []
  | t :: ts => t.erase :: Ty.eraseAll ts

end

/-- The aliases of the program are those of `prog`. -/
def Program.HasAliases (P : Program) (prog : Alias.Program) : Prop :=
  ∀ d < prog.length, ∀ args cap eph, ∃ t, P.typealiasUnfold d args cap eph = .found t ∧
    Alias.typealiasUnfold prog d (Ty.eraseAll args) = .type t.erase

/-- `type Opt[T] is (T | C)`, `type M[X] is Opt[Opt[X]]` and `type R[X] is M[R[(X, X)]]`, where `C`
is the class `9`. -/
def growing : Alias.Program :=
  [.compound .union [.param 0, .nominal 9 []], .aliasref 0 [.aliasref 0 [.param 0]],
    .aliasref 1 [.aliasref 2 [.compound .tuple [.param 0, .param 0]]]]

/-- `Opt[t]` and `R[t]`. -/
def opt (t : Ty) : Ty := .typealiasref 0 [t] none .none

def grown (t : Ty) : Ty := .typealiasref 2 [t] none .none

/-- A program with these aliases. -/
def growingProgram : Program :=
  { blank with typealiasUnfold := fun d args _ _ =>
      let t := args[0]?.getD .errortype
      match d with
      | 0 => .found (.uniontype [t, plainType 9 .val])
      | 1 => .found (.uniontype [opt t, plainType 9 .val])
      | _ => .found (.uniontype [opt (grown (.tupletype [t, t])), plainType 9 .val]) }

theorem eraseAll_getD (args : List Ty) :
    (Ty.eraseAll args)[0]?.getD .leaf = (args[0]?.getD Ty.errortype).erase := by
  cases args with
  | nil | cons t args => rfl

theorem growingProgram_hasAliases : growingProgram.HasAliases growing := by
  intro d hd args cap eph
  have hOpt : ∀ args, Alias.unfoldOne growing 0 args =
      .compound .union [args[0]?.getD .leaf, .nominal 9 []] := fun _ => rfl
  have hM : ∀ args, Alias.unfoldOne growing 1 args =
      .aliasref 0 [.aliasref 0 [args[0]?.getD .leaf]] := fun _ => rfl
  have hR : ∀ args, Alias.unfoldOne growing 2 args = .aliasref 1
      [.aliasref 2 [.compound .tuple [args[0]?.getD .leaf, args[0]?.getD .leaf]]] := fun _ => rfl
  have hstop : ∀ visited kind ts, Alias.unfoldLoop growing visited (.compound kind ts) =
      .type (.compound kind ts) := by
    intro visited kind ts
    rw [Alias.unfoldLoop]
    simp
  have hnext : ∀ visited name args, name ∉ visited → name < growing.length →
      Alias.unfoldLoop growing visited (.aliasref name args) =
        Alias.unfoldLoop growing (name :: visited) (Alias.unfoldOne growing name args) := by
    intro visited name args hv hn
    rw [Alias.unfoldLoop, dif_neg hv, dif_pos hn]
  have hd3 : d < 3 := hd
  obtain rfl | rfl | rfl : d = 0 ∨ d = 1 ∨ d = 2 := by omega
  · refine ⟨_, rfl, ?_⟩
    rw [Alias.typealiasUnfold, hOpt, hstop, eraseAll_getD]
    rfl
  · refine ⟨_, rfl, ?_⟩
    rw [Alias.typealiasUnfold, hM, hnext _ _ _ (by decide) (by decide), hOpt, hstop, eraseAll_getD]
    rfl
  · refine ⟨_, rfl, ?_⟩
    rw [Alias.typealiasUnfold, hR, hnext _ _ _ (by decide) (by decide), hM,
      hnext _ _ _ (by decide) (by decide), hOpt, hstop, eraseAll_getD]
    rfl

/-- `C`, `(C, C)`, `((C, C), (C, C))` and so on. -/
def pairs : Nat → Ty
  | 0 => plainType 9 .val
  | k + 1 => .tupletype [pairs k, pairs k]

/-- The comparisons that are under way when `R` comes for the `k`th time. -/
def pending : Nat → List Query
  | 0 => []
  | k + 1 => pending k ++ [⟨grown (pairs k), plainType 7 .val, .sub⟩,
      ⟨opt (grown (pairs (k + 1))), plainType 7 .val, .sub⟩]

theorem pairs_mismatch {j k : Nat} (h : j < k) : isAssumptionMatch (pairs k) (pairs j) = false := by
  induction k generalizing j with
  | zero => cases h
  | succ k ih =>
    cases j with
    | zero => rfl
    | succ j =>
      simp only [pairs, isAssumptionMatch, areAssumptionMatches, ih (Nat.lt_of_succ_lt_succ h),
        Bool.false_and]

theorem pending_mem {k : Nat} {q : Query} (h : q ∈ pending k) : ∃ j < k,
    q = ⟨grown (pairs j), plainType 7 .val, .sub⟩ ∨
      q = ⟨opt (grown (pairs (j + 1))), plainType 7 .val, .sub⟩ := by
  induction k with
  | zero => cases h
  | succ k ih =>
    rcases List.mem_append.1 h with h | h
    · obtain ⟨j, hj, hq⟩ := ih h
      exact ⟨j, Nat.lt_succ_of_lt hj, hq⟩
    · refine ⟨k, Nat.lt_succ_self k, ?_⟩
      simpa using h

/-- A comparison of an alias that matches no assumption is entered. -/
theorem verdict_of_alias {stack : List Query} {d : Nat} {args : List Ty} {cap : Option Cap}
    {eph : Eph} {super : Ty} {m : CheckCap} (h : ∀ assumed ∈ stack,
      Query.isMatch ⟨.typealiasref d args cap eph, super, m⟩ assumed = false) :
    verdict stack ⟨.typealiasref d args cap eph, super, m⟩ = .enter := by
  have hfind : (stack.findIdx? fun assumed =>
      Query.isMatch ⟨.typealiasref d args cap eph, super, m⟩ assumed) = none :=
    List.findIdx?_eq_none_iff.2 h
  simp only [verdict, Query.guard, Ty.isTypealiasref, Bool.true_or, Bool.not_true,
    Bool.false_eq_true, if_false, Query.nominalDefs, Option.any_none, hfind]

/-- A comparison that starts with another one runs out of fuel with it. -/
theorem timeout_of_ask {P : Program} {n : Nat} {q q' : Query} {s : State} {k : Bool → Tree}
    {v : Verdict} (hempty : s.clear.lookup false q = none) (hv : verdict s.clear.stack q = v)
    (hgo : v = .plain ∨ v = .enter) (hask : isXSubXImpl P false q = .ask (false, q') k)
    (h : (isXSubXCached P n (false, q')
      (s.clear.descend (v.push s.clear.stack q) false q)).1 = .timeout) :
    (isXSubXCached P (n + 1) (false, q) s).1 = .timeout := by
  have hrun : ((isXSubXImpl P false q).run (isXSubXCached P n) (expandTupleUnions P n)
      (s.clear.descend (v.push s.clear.stack q) false q)).1 = .timeout := by
    rw [hask, Ask.run_ask, h]
  rw [isXSubXCached]
  simp only [hempty, hv]
  rcases hgo with rfl | rfl
  · exact hrun
  · exact hrun

/-- A state under a stack, with nothing in the cache. -/
def State.Fresh (s : State) (stack : List Query) : Prop :=
  s.clear.stack = stack ∧ ∀ k, s.clear.cache k = none

theorem State.Fresh.descend {s : State} {stack stack' : List Query} (h : s.Fresh stack)
    (errorf : Bool) (q : Query) : (s.clear.descend stack' errorf q).Fresh stack' := by
  have hcache : ∀ k, (s.clear.descend stack' errorf q).cache k = none := h.2
  generalize hs : s.clear.descend stack' errorf q = s' at hcache
  have hstack : s'.stack = stack' := hs ▸ rfl
  refine ⟨(State.clear_stack s').trans hstack, fun k => ?_⟩
  unfold State.clear
  split
  · rfl
  · exact hcache k

/-- A comparison that runs out of fuel, whatever the state. -/
def Stuck (P : Program) (n : Nat) (stack : List Query) (q : Query) : Prop :=
  ∀ s : State, s.Fresh stack → (isXSubXCached P n (false, q) s).1 = .timeout

theorem Stuck.step {P : Program} {n : Nat} {stack : List Query} {q q' : Query} {k : Bool → Tree}
    {v : Verdict} (hv : verdict stack q = v) (hgo : v = .plain ∨ v = .enter)
    (hask : isXSubXImpl P false q = .ask (false, q') k) (h : Stuck P n (v.push stack q) q') :
    Stuck P (n + 1) stack q := by
  intro s hs
  refine timeout_of_ask ?_ (hs.1 ▸ hv) hgo hask ?_
  · rw [State.lookup, if_neg nofun, hs.2]
    rfl
  · rw [hs.1]
    exact h _ (hs.descend false q)

/-- `R` and `Opt`, against an unrelated class. -/
def grownQuery (k : Nat) : Query := ⟨grown (pairs k), plainType 7 .val, .sub⟩

def optQuery (k : Nat) : Query := ⟨opt (grown (pairs (k + 1))), plainType 7 .val, .sub⟩

theorem verdict_grownQuery (k : Nat) : verdict (pending k) (grownQuery k) = .enter := by
  refine verdict_of_alias fun assumed hassumed => ?_
  obtain ⟨j, hj, rfl | rfl⟩ := pending_mem hassumed
  · simp only [Query.isMatch, grown, isAssumptionMatch, areAssumptionMatches, pairs_mismatch hj,
      Bool.false_and, Bool.and_false]
  · rfl

theorem verdict_optQuery (k : Nat) :
    verdict (pending k ++ [grownQuery k]) (optQuery k) = .enter := by
  refine verdict_of_alias fun assumed hassumed => ?_
  rcases List.mem_append.1 hassumed with hassumed | hassumed
  · obtain ⟨j, hj, rfl | rfl⟩ := pending_mem hassumed
    · rfl
    have hmismatch := pairs_mismatch (Nat.succ_lt_succ hj)
    simp only [Query.isMatch, opt, grown, isAssumptionMatch, areAssumptionMatches, hmismatch,
      Bool.false_and, Bool.and_false]
  · rcases List.mem_singleton.1 hassumed with rfl
    rfl

/-- Each comparison of `R` asks for one of a larger `R`. -/
theorem growing_stuck (n k : Nat) : Stuck growingProgram n (pending k) (grownQuery k) ∧
    Stuck growingProgram n (pending k ++ [grownQuery k])
      ⟨.uniontype [opt (grown (pairs (k + 1))), plainType 9 .val], plainType 7 .val, .sub⟩ ∧
    Stuck growingProgram n (pending k ++ [grownQuery k]) (optQuery k) ∧
    Stuck growingProgram n (pending (k + 1))
      ⟨.uniontype [grown (pairs (k + 1)), plainType 9 .val], plainType 7 .val, .sub⟩ := by
  induction n generalizing k with
  | zero => exact ⟨fun _ _ => rfl, fun _ _ => rfl, fun _ _ => rfl, fun _ _ => rfl⟩
  | succ n ih =>
    have hpending : pending k ++ [grownQuery k] ++ [optQuery k] = pending (k + 1) := by
      rw [List.append_assoc]
      rfl
    refine ⟨?_, ?_, ?_, ?_⟩
    · exact .step (verdict_grownQuery k) (.inr rfl) rfl (ih k).2.1
    · exact .step rfl (.inl rfl) rfl (ih k).2.2.1
    · refine .step (verdict_optQuery k) (.inr rfl) rfl ?_
      rw [Verdict.push, hpending]
      exact (ih k).2.2.2
    · exact .step rfl (.inl rfl) rfl (ih (k + 1)).1

/-- **A legal alias that grows**: the pass accepts `R`, but `R[C]` is compared with an unrelated
class without an end. -/
theorem growing_diverges :
    growingProgram.HasAliases growing ∧ Alias.passTypealiasRecursion growing = true ∧
      ∀ n cache minMatchIdx subtreePoisoned, (isXSubXCached growingProgram n
        (false, ⟨grown (plainType 9 .val), plainType 7 .val, .sub⟩)
        (State.idle cache minMatchIdx subtreePoisoned)).1 = .timeout := by
  refine ⟨growingProgram_hasAliases, by decide, fun n cache minMatchIdx subtreePoisoned => ?_⟩
  exact (growing_stuck n 0).1 _ ⟨rfl, fun _ => rfl⟩

end SpacePony.Subtype
