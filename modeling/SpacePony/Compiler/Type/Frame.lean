import SpacePony.Compiler.Type.Transparent

/-!
# Type — comparisons with and without an error frame

A caller of `is_x_sub_x` may pass a frame that collects errors.  Whether it does should not matter
for the answer, and in neither case should an assertion fail.

Two places depend on the frame.  Where the annotations of two parameters differ the error is reported
without looking whether there is a frame, which fails an assertion (`byval_without_frame`), and a bare
type is kept out of unions and intersections only with a frame.  `Comparable` says of one comparison
that it fails no assertion itself, and a call fails none iff all that it comes to are of that kind
(`uncached_ne_crash_iff`).  `frame_irrelevant` is the result.
-/

namespace SpacePony.Subtype

open List

variable (P : Program)

/-! ### The condition

What a comparison comes to depends on how the comparisons before it come out, `O`, and on the
alternatives of the tuples, `F`. -/

section Condition

variable (O : Bool × Query → Outcome) (F : Ty → Option (Lookup (List Ty)))

/-- The decision comes out as `b`. -/
def ComesOut (t : Tree) (b : Bool) : Prop := t.eval O F = .answer b

/-- Without a frame, two parameters are annotated alike. -/
def ParamComparable (errorf : Bool) (p : Passed × Passed) : Prop :=
  errorf = false → ∀ a b, P.consumeType p.1 = some a → P.consumeType p.2 = some b → a.byval = b.byval

/-- The parameters that are come to: those before them fit, and the constraints do. -/
def SignatureComparable (errorf : Bool) (sub super : Method) : Prop :=
  ComesOut O F (.every ((sub.typeparams.zip super.typeparams).map fun p =>
      isXSubX errorf p.2 p.1 .eq)) true →
    Ask.InTurn (fun p => ComesOut O F (isParamSuperParam P errorf p.1 p.2) true)
      (ParamComparable P errorf) (sub.params.zip super.params)

/-- Two methods whose signatures are come to only if receiver and result fit. -/
def ReifiedComparable (errorf : Bool) (sub super : Method) : Prop :=
  (sub.kind ≠ .new → sub.bare = super.bare) ∧
  (isReceiverSub sub super = true →
    O (errorf, ⟨sub.result.type, super.result.type, .sub⟩) = .answer true →
    (sub.kind ≠ .new → sub.result.byval = super.result.byval) →
    SignatureComparable P O F errorf sub super)

def MethodComparable (errorf : Bool) (sub super : Method) : Prop :=
  isFunLikeFun sub super = true → ReifiedComparable P O F errorf (reifiedSub P sub super) super

def MemberComparable (errorf : Bool) (sub super : Nominal) (m : Method) : Prop :=
  ∀ f, P.get sub.defn m.name = some f →
    MethodComparable P O F errorf (P.reifyMethodDef sub.defn sub.typeargs f)
      (P.reifyMethodDef super.defn super.typeargs m)

/-- The traits that are come to can take the capability of the supertype. -/
def ProvidesComparable (sub super : Nominal) (m : CheckCap) : Prop :=
  P.bare super.defn = false ∧ (P.bare sub.defn = false → Ask.InTurn
    (fun child => ∃ t, setCapAndEphemeral super.cap super.eph child = some t ∧
      O (false, ⟨t, super.toTy, m⟩) = .answer false)
    (fun child => setCapAndEphemeral super.cap super.eph child ≠ none)
    (P.traits sub.defn sub.typeargs))

def NominalComparable (errorf : Bool) (sub super : Nominal) (m : CheckCap) : Prop :=
  match P.kind super.defn with
  | .interface => (P.traitsDone sub.defn && P.traitsDone super.defn) = true ∧
      (P.nosupertype sub.defn = false → P.bare sub.defn = P.bare super.defn → Ask.InTurn
        (fun f => ∃ b, ComesOut O F (isMemberProvided P errorf sub super f) b)
        (MemberComparable P O F errorf sub super) (P.members super.defn))
  | .trait =>
    match P.kind sub.defn with
    | .struct | .interface => True
    | .trait => sub.defn ≠ super.defn → ProvidesComparable P O sub super m
    | _ => ProvidesComparable P O sub super m
  | _ => True

/-- An alias that is unfolded without failing. -/
def Unfolds : Ty → Prop
  | .typealiasref d args cap eph => P.typealiasUnfold d args cap eph ≠ .failed
  | _ => True

/-- Both types are instantiated for the capabilities of a type parameter, or not the first. -/
def ReifiesAlike (sub super typeparam : Ty) : Prop :=
  P.viewpointReifytypeparam sub typeparam ≠ none →
    P.viewpointReifytypeparam super typeparam ≠ none

/-- What a type parameter can be compared with. -/
def TypeparamComparable (d : Nat) (cap : Cap) (eph : Eph) (m : CheckCap) : Ty → Prop
  | .arrow left right => TypeparamComparable d cap eph .ignore right ∧
      (m ≠ .ignore → ComesOut O F (isTypeparamSubX P d cap eph false .ignore right) true →
        ReifiesAlike P (.typeparamref d cap eph) (.arrow left right) (.typeparamref d cap eph))
  | .entitytype _ | .dontcaretype | .boolSingleton _ => False
  | super => super.IsType ∧ Unfolds P super

mutual

/-- What an intersection can be compared with. -/
def IsectComparable (errorf : Bool) (subs : List Ty) (m : CheckCap) : Ty → Prop
  | .isecttype supers => IsectAllComparable errorf subs m supers
  | super => Unfolds P super

def IsectAllComparable (errorf : Bool) (subs : List Ty) (m : CheckCap) : List Ty → Prop
  | [] => True
  | super :: supers => IsectComparable errorf subs m super ∧
      (ComesOut O F (isIsectSubX P errorf subs m super) true →
        IsectAllComparable errorf subs m supers)

end

/-- What a subtype can be compared with. -/
def SubComparable (errorf : Bool) (super : Ty) (m : CheckCap) : Ty → Prop
  | .isecttype subs => IsectComparable P O F errorf subs m super
  | .tupletype ts => super.IsType ∧ Unfolds P super ∧ ∀ us, super = .uniontype us →
      ComesOut O F (.some (us.map fun u => isXSubX false (.tupletype ts) u m)) false →
        F (.tupletype ts) ≠ some .failed
  | .nominal d args cap eph => super.IsType ∧ Unfolds P super ∧
      ∀ d' args' cap' eph', super = .nominal d' args' cap' eph' →
        NominalComparable P O F errorf ⟨d, args, cap, eph⟩ ⟨d', args', cap', eph'⟩ m
  | .typeparamref d cap eph => TypeparamComparable P O F d cap eph m super
  | .valueformalparamref d => (∀ d', super = .valueformalparamref d' → P.refType d' ≠ none) ∧
      ∀ v, super = .valueformalarg v → P.nameType d ≠ none ∧ P.valueType v ≠ none
  | .arrow left right => super.IsType ∧ Unfolds P super ∧ (∀ kind, super ≠ .entitytype kind) ∧
      ∀ d cap eph, super = .typeparamref d cap eph → m ≠ .ignore →
        O (errorf, ⟨right, super, .ignore⟩) = .answer true →
          ReifiesAlike P (.arrow left right) super super
  | .typealiasref d args cap eph => P.typealiasUnfold d args cap eph ≠ .failed
  | .boolSingleton _ => Unfolds P super
  | _ => True

/-- The comparison of the two types comes to no failing assertion of its own. -/
def Comparable (errorf : Bool) (q : Query) : Prop :=
  match q.super, q.sub with
  | .dontcaretype, _ => True
  | _, .dontcaretype => True
  | .boolSingleton _, _ => True
  | super, sub => SubComparable P O F errorf super q.checkCap sub

end Condition

/-- All the comparisons that are come to have the property `C`. -/
def OnTheWay (C : (Bool × Query → Outcome) → (Ty → Option (Lookup (List Ty))) → Bool × Query → Prop) :
    Nat → List Query → Bool × Query → Prop
  | 0, _, _ => True
  | n + 1, stack, (errorf, q) =>
    match verdict stack q with
    | .bail => True
    | .cycle _ => True
    | v => C (isXSubXUncached P n (v.push stack q)) (expandTupleUnions P n) (errorf, q) ∧
        (isXSubXImpl P errorf q).All (isXSubXUncached P n (v.push stack q)) (expandTupleUnions P n)
          (OnTheWay C n (v.push stack q))

/-- All the comparisons that are come to can be made. -/
def Smooth : Nat → List Query → Bool × Query → Prop :=
  OnTheWay P fun O F eq => Comparable P O F eq.1 eq.2

/-- With a frame, no bare type comes to a union or an intersection. -/
def BareApart : Nat → List Query → Bool × Query → Prop :=
  OnTheWay P fun _ _ eq => eq.1 = true → ∀ d args cap eph, eq.2.sub = .nominal d args cap eph →
    P.bare d = true → ∀ us, eq.2.super ≠ .uniontype us ∧ eq.2.super ≠ .isecttype us

/-! ### No failures -/

variable {P} {O : Bool × Query → Outcome} {F : Ty → Option (Lookup (List Ty))} {m : CheckCap}
  {errorf : Bool} {sub : Nominal} {d : Nat} {cap : Cap} {eph : Eph} {subs : List Ty} {super : Ty}
  {q : Query} {stack : List Query} {n : Nat} {α : Type} {f : α → Tree} {l : List α}

@[simp] theorem passes_isXSubX (sub super : Ty) : (isXSubX errorf sub super m).Passes O F :=
  Ask.passes_only

@[simp] theorem passes_isEqtype (a b : Ty) : (isEqtype errorf a b).Passes O F := by
  simp [isEqtype, isSubtype]

@[simp] theorem passes_isEqTypeargs (aDef bDef : Nat) (aArgs bArgs : List Ty) :
    (isEqTypeargs P errorf aDef bDef aArgs bArgs).Passes O F := by
  refine Ask.passes_both.2 ⟨Ask.passes_each.2 (.of_forall fun p _ => ?_), fun _ => trivial⟩
  unfold isEqTypearg
  split
  · exact Ask.passes_both.2 ⟨trivial, fun _ => passes_isEqtype _ _⟩
  · trivial
  · trivial
  · exact passes_isEqtype _ _

theorem passes_isParamSuperParam (p : Passed × Passed) :
    (isParamSuperParam P errorf p.1 p.2).Passes O F ↔ ParamComparable P errorf p := by
  unfold isParamSuperParam ParamComparable
  split
  · rename_i a b ha hb
    by_cases hbyval : a.byval = b.byval
    · simp [ha, hb, hbyval]
    · cases errorf with
      | true | false => simp [ha, hb, hbyval]
  · rename_i hnone
    exact iff_of_true trivial fun _ a b ha hb => (hnone a b ha hb).elim

theorem passes_isSignatureSubSignature (sub super : Method) :
    (isSignatureSubSignature P errorf sub super).Passes O F ↔
      SignatureComparable P O F errorf sub super := by
  have hconstraints : (Ask.every ((sub.typeparams.zip super.typeparams).map fun p =>
      isXSubX errorf p.2 p.1 .eq)).Passes O F :=
    Ask.passes_every.2 (.of_forall fun p _ => passes_isXSubX _ _)
  rw [isSignatureSubSignature, Ask.passes_and, and_iff_right hconstraints]
  refine imp_congr_right fun _ => ?_
  simp only [Ask.passes_and, Ask.passes_done, implies_true, and_true, Ask.passes_every]
  exact Ask.inTurn_congr (fun _ _ => Iff.rfl) fun p _ => passes_isParamSuperParam p

theorem passes_isReifiedFunSubFun (sub super : Method) :
    (isReifiedFunSubFun P errorf sub super).Passes O F ↔
      ReifiedComparable P O F errorf sub super := by
  unfold isReifiedFunSubFun ReifiedComparable
  by_cases hnew : sub.kind = .new
  · cases hreceiver : isReceiverSub sub super with
    | true | false => simp [hnew, isSubtype, isXSubX, passes_isSignatureSubSignature]
  by_cases hbare : sub.bare = super.bare
  · cases hreceiver : isReceiverSub sub super with
    | false => simp [hnew, hbare]
    | true =>
      by_cases hbyval : sub.result.byval = super.result.byval
      · simp [hnew, hbare, hbyval, isSubtype, isXSubX, passes_isSignatureSubSignature]
      · simp [hnew, hbare, hbyval, isSubtype, isXSubX]
  · simp [hnew, hbare]

theorem passes_isMemberProvided (super : Nominal) (f : Method) :
    (isMemberProvided P errorf sub super f).Passes O F ↔
      MemberComparable P O F errorf sub super f := by
  unfold isMemberProvided MemberComparable MethodComparable
  cases P.get sub.defn f.name with
  | none => simp
  | some g =>
    simp only [Option.some.injEq, forall_eq', isFunSubFun]
    split
    · rename_i hlike
      rw [passes_isReifiedFunSubFun, imp_iff_right hlike]
    · rename_i hlike
      exact iff_of_true trivial fun h => absurd h hlike

theorem passes_nominalProvidesTrait (super : Nominal) :
    (nominalProvidesTrait P sub super m).Passes O F ↔ ProvidesComparable P O sub super m := by
  unfold nominalProvidesTrait ProvidesComparable
  cases P.bare super.defn with
  | true => simp
  | false =>
    cases P.bare sub.defn with
    | true => simp
    | false =>
      simp only [Bool.false_eq_true, if_false, true_and, forall_const, Ask.passes_some]
      refine Ask.inTurn_congr (fun child _ => ?_) fun child _ => ?_
      · cases setCapAndEphemeral super.cap super.eph child with
        | none => simp [Ask.eval]
        | some t => simp [isXSubX]
      · cases setCapAndEphemeral super.cap super.eph child with
        | none | some t => simp

theorem passes_isNominalSubNominal (super : Nominal) :
    (isNominalSubNominal P errorf sub super m).Passes O F ↔
      NominalComparable P O F errorf sub super m := by
  have hentity : (isNominalSubEntity P errorf sub super m).Passes O F := by
    unfold isNominalSubEntity
    split
    · trivial
    · exact Ask.passes_both.2 ⟨passes_isEqTypeargs _ _ _ _, fun _ => trivial⟩
  unfold isNominalSubNominal NominalComparable
  cases P.kind super.defn with
  | interface =>
    simp only [isNominalSubInterface, isNominalSubStructural, Ask.passes_both, Ask.passes_done,
      Ask.eval, true_and, Outcome.answer.injEq, exists_eq', forall_const]
    cases P.traitsDone sub.defn && P.traitsDone super.defn with
    | false => simp
    | true =>
      cases P.nosupertype sub.defn with
      | true => simp
      | false =>
        by_cases hbare : P.bare sub.defn = P.bare super.defn
        · simp only [hbare, not_true_eq_false, Bool.not_true, if_false, Bool.false_eq_true, true_and,
            forall_const, ne_eq, Ask.passes_each]
          exact Ask.inTurn_congr (fun _ _ => Iff.rfl) fun f _ => passes_isMemberProvided super f
        · simp [hbare]
  | trait =>
    simp only [isNominalSubTrait]
    cases P.kind sub.defn with
    | trait =>
      simp only [isTraitSubTrait, Ask.passes_both, Ask.passes_done, implies_true, and_true]
      split
      · rename_i heq
        exact iff_of_true (passes_isEqTypeargs _ _ _ _) fun h => absurd heq h
      · rename_i hne
        rw [passes_nominalProvidesTrait, imp_iff_right hne]
    | struct | interface => exact Iff.rfl
    | _ =>
      simp only [isEntitySubTrait, Ask.passes_and, Ask.passes_done, implies_true, and_true]
      exact passes_nominalProvidesTrait super
  | _ => exact iff_of_true hentity trivial

theorem passes_every_isXSubX {g h : α → Ty} :
    (Ask.every (l.map fun a => isXSubX errorf (g a) (h a) m)).Passes O F :=
  Ask.passes_every.2 (.of_forall fun _ _ => passes_isXSubX _ _)

theorem passes_withUnfolded {args : List Ty} {cap : Option Cap} {k : Ty → Tree}
    (hk : ∀ t, (k t).Passes O F) :
    (withUnfolded P d args cap eph k).Passes O F ↔ P.typealiasUnfold d args cap eph ≠ .failed := by
  unfold withUnfolded
  cases P.typealiasUnfold d args cap eph with
  | found t => exact iff_of_true (hk t) nofun
  | null => exact iff_of_true trivial nofun
  | failed => exact iff_of_false id fun h => h rfl

theorem passes_isXSubUnion {sub : Ty} {supers : List Ty} :
    (isXSubUnion errorf sub supers m).Passes O F ↔ ∀ ts, sub = .tupletype ts →
      ComesOut O F (.some (supers.map fun super => isXSubX false sub super m)) false →
        F sub ≠ some .failed := by
  have hframe : (if errorf then (Ask.each (supers.map fun super => isXSubX true sub super m)).bind
      fun _ => .done false else .done false : Tree).Passes O F := by
    split
    · exact Ask.passes_bind.2 ⟨Ask.passes_each.2 (.of_forall fun _ _ => passes_isXSubX _ _),
        fun _ _ => trivial⟩
    · trivial
  have hsome : (Ask.some (supers.map fun super => isXSubX false sub super m)).Passes O F :=
    Ask.passes_some.2 (.of_forall fun _ _ => passes_isXSubX _ _)
  rw [isXSubUnion, Ask.passes_or, and_iff_right hsome, Ask.passes_or, and_iff_left fun _ => hframe]
  cases sub with
  | tupletype ts =>
    simp only [Ty.tupletype.injEq, forall_eq', isTupleSubUnion, ComesOut]
    refine imp_congr_right fun _ => ⟨fun h hfailed => h .failed hfailed, fun h y hy => ?_⟩
    cases y with
    | found alts => exact passes_every_isXSubX
    | null => trivial
    | failed => exact h hy
  | _ => exact iff_of_true (fun _ => trivial) nofun

theorem passes_isXSubIsect (sub : Ty) (supers : List Ty) :
    (isXSubIsect errorf sub supers m).Passes O F := passes_every_isXSubX

theorem passes_isXSubTypeparam (sub : Ty) :
    (isXSubTypeparam P errorf sub d cap eph m).Passes O F := by
  unfold isXSubTypeparam
  split
  · split
    · trivial
    · exact passes_isXSubX _ _
  split
  · trivial
  · exact passes_isXSubX _ _

theorem passes_isXSubLower (sub left right : Ty) :
    (isXSubLower P errorf sub left right m).Passes O F := by
  unfold isXSubLower
  split
  · trivial
  · exact passes_isXSubX _ _

theorem passes_isXSubArrow (sub left right : Ty) :
    (isXSubArrow P errorf sub left right m).Passes O F := by
  unfold isXSubArrow
  split
  · exact passes_isXSubX _ _
  · exact Ask.passes_and.2 ⟨passes_isXSubX _ _, fun _ => passes_isXSubLower _ _ _⟩

theorem passes_isIsectSubX : (isIsectSubX P errorf subs m super).Passes O F ↔
    IsectComparable P O F errorf subs m super := by
  have hsome : ∀ super, (Ask.some (subs.map fun sub => isXSubX false sub super m)).Passes O F :=
    fun super => Ask.passes_some.2 (.of_forall fun _ _ => passes_isXSubX _ _)
  refine Ty.induct
    (T := fun super => (isIsectSubX P errorf subs m super).Passes O F ↔
      IsectComparable P O F errorf subs m super)
    (L := fun supers => (isIsectSubIsect P errorf subs m supers).Passes O F ↔
      IsectAllComparable P O F errorf subs m supers)
    ?isect ?arrow ?other ?nil ?cons super
  case isect => exact fun supers ih => ih
  case arrow => exact fun left right _ => iff_of_true (hsome _) trivial
  case other =>
    intro t hisect _
    cases t with
    | isecttype supers => exact absurd rfl (hisect supers)
    | typealiasref d args cap eph => exact passes_withUnfolded fun _ => passes_isXSubX _ _
    | _ => exact iff_of_true (hsome _) trivial
  case nil => exact Iff.rfl
  case cons =>
    intro super supers ih ih'
    rw [isIsectSubIsect, Ask.passes_and, ih, ih', IsectAllComparable, ComesOut]

theorem passes_isTupleSubX (hdont : super ≠ .dontcaretype) (hbool : ∀ b, super ≠ .boolSingleton b) :
    (isTupleSubX P errorf subs m super).Passes O F ↔
      SubComparable P O F errorf super m (.tupletype subs) := by
  cases super with
  | uniontype supers =>
    simp [SubComparable, isTupleSubX, passes_isXSubUnion, Ty.IsType, Unfolds]
  | isecttype supers =>
    exact iff_of_true (passes_isXSubIsect _ _)
      ⟨trivial, trivial, fun _ h => Ty.noConfusion h⟩
  | tupletype supers =>
    refine iff_of_true ?_ ⟨trivial, trivial, fun _ h => Ty.noConfusion h⟩
    simp only [isTupleSubX, isTupleSubTuple]
    split
    · trivial
    · exact Ask.passes_each.2 (.of_forall fun _ _ => passes_isXSubX _ _)
  | nominal d args cap eph =>
    refine iff_of_true ?_ ⟨trivial, trivial, fun _ h => Ty.noConfusion h⟩
    simp only [isTupleSubX, isTupleSubNominal]
    split
    · exact passes_every_isXSubX
    · trivial
  | typeparamref d cap eph =>
    exact iff_of_true (passes_isXSubTypeparam _)
      ⟨trivial, trivial, fun _ h => Ty.noConfusion h⟩
  | arrow left right =>
    exact iff_of_true (passes_isXSubArrow _ _ _)
      ⟨trivial, trivial, fun _ h => Ty.noConfusion h⟩
  | typealiasref d args cap eph =>
    exact (passes_withUnfolded fun _ => passes_isXSubX _ _).trans
      ⟨fun h => ⟨trivial, h, fun _ h => Ty.noConfusion h⟩, fun h => h.2.1⟩
  | dontcaretype => exact absurd rfl hdont
  | boolSingleton b => exact absurd rfl (hbool b)
  | funtype | infertype | errortype | entitytype kind =>
    exact iff_of_true trivial ⟨trivial, trivial, fun _ h => Ty.noConfusion h⟩
  | _ => exact iff_of_false id fun h => h.1

theorem passes_isNominalSubX (hdont : super ≠ .dontcaretype)
    (hbool : ∀ b, super ≠ .boolSingleton b) : (isNominalSubX P errorf sub m super).Passes O F ↔
      SubComparable P O F errorf super m sub.toTy := by
  cases super with
  | uniontype supers =>
    refine iff_of_true ?_ ⟨trivial, trivial, fun _ _ _ _ h => Ty.noConfusion h⟩
    simp only [isNominalSubX]
    split
    · trivial
    · exact passes_isXSubUnion.2 nofun
  | isecttype supers =>
    refine iff_of_true ?_ ⟨trivial, trivial, fun _ _ _ _ h => Ty.noConfusion h⟩
    simp only [isNominalSubX]
    split
    · trivial
    · exact passes_isXSubIsect _ _
  | nominal d args cap eph =>
    refine (passes_isNominalSubNominal _).trans
      ⟨fun h => ⟨trivial, trivial, ?_⟩, fun h => h.2.2 d args cap eph rfl⟩
    rintro _ _ _ _ ⟨⟩
    exact h
  | typeparamref d cap eph =>
    exact iff_of_true (passes_isXSubTypeparam _)
      ⟨trivial, trivial, fun _ _ _ _ h => Ty.noConfusion h⟩
  | arrow left right =>
    exact iff_of_true (passes_isXSubArrow _ _ _)
      ⟨trivial, trivial, fun _ _ _ _ h => Ty.noConfusion h⟩
  | typealiasref d args cap eph =>
    exact (passes_withUnfolded fun _ => passes_isXSubX _ _).trans
      ⟨fun h => ⟨trivial, h, fun _ _ _ _ h => Ty.noConfusion h⟩, fun h => h.2.1⟩
  | dontcaretype => exact absurd rfl hdont
  | boolSingleton b => exact absurd rfl (hbool b)
  | tupletype supers | funtype | infertype | errortype | entitytype kind =>
    exact iff_of_true trivial ⟨trivial, trivial, fun _ _ _ _ h => Ty.noConfusion h⟩
  | _ => exact iff_of_false id fun h => h.1

/-- A pair of instances is compared where there are both, and an assertion fails where there is only
the first. -/
theorem passes_reified {a b : Option Ty} {t : Tree} (ht : t.Passes O F) :
    (match a, b with
      | some rSub, some rSuper => isXSubX errorf rSub rSuper m
      | some _, none => .fail
      | none, _ => t : Tree).Passes O F ↔ (a ≠ none → b ≠ none) := by
  cases a with
  | none => exact iff_of_true ht fun h => absurd rfl h
  | some rSub =>
    cases b with
    | none => exact iff_of_false id fun h => h nofun rfl
    | some rSuper => exact iff_of_true (passes_isXSubX _ _) fun _ => nofun

theorem passes_isTypeparamBaseSubX {subRight : Tree} (h : ∀ left right, super = .arrow left right →
      subRight = isTypeparamSubX P d cap eph false .ignore right ∧
      (subRight.Passes O F ↔ TypeparamComparable P O F d cap eph .ignore right)) :
    (isTypeparamBaseSubX P d cap eph m subRight super).Passes O F ↔
      TypeparamComparable P O F d cap eph m super := by
  cases super with
  | uniontype supers => exact iff_of_true (passes_isXSubUnion.2 nofun) ⟨trivial, trivial⟩
  | isecttype supers => exact iff_of_true (passes_isXSubIsect _ _) ⟨trivial, trivial⟩
  | arrow left right =>
    obtain ⟨rfl, hright⟩ := h left right rfl
    rw [isTypeparamBaseSubX, TypeparamComparable, ← hright]
    split
    · rename_i hm
      exact ⟨fun h => ⟨h, fun hm' => absurd hm hm'⟩, fun h => h.1⟩
    · rename_i hm
      rw [Ask.passes_and, imp_iff_right hm, isTypeparamSubView]
      exact and_congr_right fun _ => imp_congr_right fun _ => passes_reified (passes_isXSubLower _ _ _)
  | typealiasref a args acap aeph =>
    exact (passes_withUnfolded fun _ => passes_isXSubX _ _).trans
      ⟨fun h => ⟨trivial, h⟩, fun h => h.2⟩
  | dontcaretype | boolSingleton b | entitytype kind => exact Iff.rfl
  | tupletype supers | nominal superDef args superCap superEph
  | typeparamref superDef superCap superEph | funtype | infertype | errortype =>
    exact iff_of_true trivial ⟨trivial, trivial⟩
  | _ => exact iff_of_false id fun h => h.1

theorem passes_isTypeparamSubX : (isTypeparamSubX P d cap eph errorf m super).Passes O F ↔
    TypeparamComparable P O F d cap eph m super := by
  have hupper : ∀ (errorf : Bool) (m : CheckCap) (super : Ty),
      (isTypeparamUpperSubX P errorf d cap eph m super).Passes O F := by
    intro errorf m super
    unfold isTypeparamUpperSubX
    split
    · split
      · trivial
      · exact passes_isXSubX _ _
    split
    · trivial
    · exact passes_isXSubX _ _
  have hother : ∀ t : Ty, (∀ left right, t ≠ .arrow left right) → ∀ (errorf : Bool) (m : CheckCap),
      (isTypeparamSubX P d cap eph errorf m t).Passes O F ↔
        TypeparamComparable P O F d cap eph m t := by
    intro t harrow errorf m
    rw [isTypeparamSubX.eq_def]
    split
    · exact absurd rfl (harrow _ _)
    · rw [Ask.passes_or, and_iff_left fun _ => hupper _ _ _]
      exact passes_isTypeparamBaseSubX fun left right heq => absurd heq (harrow left right)
  refine Ty.induct (T := fun super => ∀ (errorf : Bool) (m : CheckCap),
      (isTypeparamSubX P d cap eph errorf m super).Passes O F ↔
        TypeparamComparable P O F d cap eph m super)
    (L := fun _ => True) ?isect ?arrow ?other ?nil ?cons super errorf m
  case isect => exact fun supers _ => hother _ nofun
  case arrow =>
    intro left right ih errorf m
    rw [isTypeparamSubX, Ask.passes_or, and_iff_left fun _ => hupper _ _ _]
    refine passes_isTypeparamBaseSubX fun left' right' heq => ?_
    cases heq
    exact ⟨rfl, ih _ _⟩
  case other => exact fun t _ => hother t
  case nil => trivial
  case cons => exact fun _ _ _ _ => trivial

theorem passes_isArrowSubNominal (left right super : Ty) :
    (isArrowSubNominal P errorf left right super m).Passes O F := by
  unfold isArrowSubNominal
  split
  · exact passes_isXSubX _ _
  refine Ask.passes_and.2 ⟨passes_isXSubX _ _, fun _ => ?_⟩
  unfold isUpperSubX
  split
  · trivial
  · exact passes_isXSubX _ _

theorem passes_isArrowSubX {left right : Ty} (hdont : super ≠ .dontcaretype)
    (hbool : ∀ b, super ≠ .boolSingleton b) :
    (isArrowSubX P errorf left right m super).Passes O F ↔
      SubComparable P O F errorf super m (.arrow left right) := by
  cases super with
  | uniontype supers =>
    exact iff_of_true (passes_isXSubUnion.2 nofun)
      ⟨trivial, trivial, fun _ h => Ty.noConfusion h, fun _ _ _ h => Ty.noConfusion h⟩
  | isecttype supers =>
    exact iff_of_true (passes_isXSubIsect _ _)
      ⟨trivial, trivial, fun _ h => Ty.noConfusion h, fun _ _ _ h => Ty.noConfusion h⟩
  | nominal d args cap eph =>
    exact iff_of_true (passes_isArrowSubNominal _ _ _)
      ⟨trivial, trivial, fun _ h => Ty.noConfusion h, fun _ _ _ h => Ty.noConfusion h⟩
  | typeparamref d cap eph =>
    simp only [isArrowSubX, isArrowSubTypeparam]
    split
    · rename_i hm
      exact iff_of_true (passes_isXSubX _ _) ⟨trivial, trivial, nofun, fun _ _ _ _ h => absurd hm h⟩
    · rename_i hm
      rw [Ask.passes_and, and_iff_right (passes_isXSubX _ _), isXSubX, Ask.eval_only]
      refine (imp_congr_right fun _ => passes_reified (passes_isArrowSubNominal _ _ _)).trans
        ⟨fun h => ⟨trivial, trivial, fun _ h => Ty.noConfusion h, fun d' cap' eph' heq _ => ?_⟩,
          fun h => h.2.2.2 d cap eph rfl hm⟩
      cases heq
      exact h
  | arrow left' right' =>
    refine iff_of_true ?_
      ⟨trivial, trivial, fun _ h => Ty.noConfusion h, fun _ _ _ h => Ty.noConfusion h⟩
    simp only [isArrowSubX, isArrowSubArrow]
    split
    · exact passes_isXSubX _ _
    refine Ask.passes_and.2 ⟨passes_isXSubX _ _, fun _ => ?_⟩
    split
    · exact passes_isXSubX _ _
    split
    · exact passes_isXSubX _ _
    · trivial
  | typealiasref d args cap eph =>
    exact (passes_withUnfolded fun _ => passes_isXSubX _ _).trans
      ⟨fun h => ⟨trivial, h, nofun, nofun⟩, fun h => h.2.1⟩
  | entitytype kind => exact iff_of_false id fun h => h.2.2.1 kind rfl
  | dontcaretype => exact absurd rfl hdont
  | boolSingleton b => exact absurd rfl (hbool b)
  | tupletype supers | funtype | infertype | errortype =>
    exact iff_of_true trivial
      ⟨trivial, trivial, fun _ h => Ty.noConfusion h, fun _ _ _ h => Ty.noConfusion h⟩
  | _ => exact iff_of_false id fun h => h.1

theorem passes_isTypevalueparamSubX : (isTypevalueparamSubX P errorf d m super).Passes O F ↔
    SubComparable P O F errorf super m (.valueformalparamref d) := by
  cases super with
  | valueformalparamref d' =>
    simp only [isTypevalueparamSubX, SubComparable, reduceCtorEq, false_implies, implies_true,
      and_true, Ty.valueformalparamref.injEq, forall_eq']
    cases P.refType d' with
    | none | some t => simp
  | valueformalarg v =>
    simp only [isTypevalueparamSubX, SubComparable, reduceCtorEq, false_implies, implies_true,
      true_and, Ty.valueformalarg.injEq, forall_eq']
    cases P.nameType d with
    | none => simp
    | some t =>
      cases P.valueType v with
      | none | some u => simp
  | _ =>
    exact iff_of_true (passes_isXSubX _ _)
      ⟨fun _ h => Ty.noConfusion h, fun _ h => Ty.noConfusion h⟩

theorem passes_isBoolSingletonSubX {b : Bool} :
    (isBoolSingletonSubX P errorf b m super).Passes O F ↔ Unfolds P super := by
  cases super with
  | uniontype supers => exact iff_of_true (passes_isXSubUnion.2 nofun) trivial
  | typealiasref d args cap eph =>
    refine passes_withUnfolded fun t => ?_
    split
    · trivial
    · trivial
  | _ => exact iff_of_true trivial trivial

/-- A comparison is decided at once, or by what the subtype is. -/
theorem isXSubXImpl_cases (q : Query) :
    (∃ b, ∀ errorf, isXSubXImpl P errorf q = .done b ∧
      ∀ O F, Comparable P O F errorf q) ∨
    ((q.super ≠ .dontcaretype ∧ ∀ b, q.super ≠ .boolSingleton b) ∧ ∀ errorf,
      isXSubXImpl P errorf q = isSubDispatch P errorf q.super q.checkCap q.sub ∧
      ∀ O F, Comparable P O F errorf q ↔ SubComparable P O F errorf q.super q.checkCap q.sub) := by
  obtain ⟨sub, super, m⟩ := q
  simp only [isXSubXImpl, Comparable]
  split
  · exact .inl ⟨true, fun _ => ⟨rfl, fun _ _ => trivial⟩⟩
  · refine .inl ⟨true, fun _ => ⟨rfl, fun _ _ => ?_⟩⟩
    split <;> trivial
  · exact .inl ⟨_, fun _ => ⟨rfl, fun _ _ => trivial⟩⟩
  · refine .inl ⟨false, fun _ => ⟨rfl, fun _ _ => ?_⟩⟩
    split
    · trivial
    · trivial
    · trivial
    · rename_i hbool _ _
      exact absurd rfl (hbool _)
  · rename_i hdont hbool hsub _
    refine .inr ⟨⟨hdont, hbool⟩, fun _ => ⟨rfl, fun _ _ => ?_⟩⟩
    split
    · exact absurd rfl hdont
    · exact absurd rfl hsub
    · exact absurd rfl (hbool _)
    · exact Iff.rfl

/-- **One comparison comes to no failure of its own** iff it can be made. -/
theorem passes_impl : (isXSubXImpl P errorf q).Passes O F ↔ Comparable P O F errorf q := by
  rcases isXSubXImpl_cases (P := P) q with ⟨b, hb⟩ | ⟨⟨hdont, hbool⟩, hdispatch⟩
  · rw [(hb errorf).1]
    exact iff_of_true trivial ((hb errorf).2 O F)
  rw [(hdispatch errorf).1, (hdispatch errorf).2]
  obtain ⟨sub, super, m⟩ := q
  cases sub with
  | uniontype subs => exact iff_of_true passes_every_isXSubX trivial
  | isecttype subs => exact passes_isIsectSubX
  | tupletype subs => exact passes_isTupleSubX hdont hbool
  | nominal d args cap eph =>
    exact @passes_isNominalSubX _ _ _ _ _ ⟨d, args, cap, eph⟩ super hdont hbool
  | typeparamref d cap eph => exact passes_isTypeparamSubX
  | valueformalparamref d => exact passes_isTypevalueparamSubX
  | arrow left right => exact passes_isArrowSubX hdont hbool
  | typealiasref d args cap eph => exact passes_withUnfolded fun _ => passes_isXSubX _ _
  | boolSingleton b => exact passes_isBoolSingletonSubX
  | _ => exact iff_of_true trivial trivial

/-! ### The same comparison without the frame

Each decision without the frame asks what the decision with the frame asks, in the same order; with
the frame, a union asks once more about the members that were answered no. -/

/-- The second question is the first, or the first without the frame. -/
def Unframed (p p' : Bool × Query) : Prop := p' = p ∨ p' = (false, p.2)

/-- The second decision is the first without the frame. -/
abbrev Mirrors (S : Set (Bool × Query)) (t u : Tree) : Prop := Ask.Mirrors Unframed S t u

variable {S : Set (Bool × Query)}

theorem mirrors_isXSubX (sub super : Ty) :
    Mirrors S (isXSubX errorf sub super m) (isXSubX false sub super m) :=
  .ask (.inr rfl) (.done _ _) (.done _ _)

theorem mirrors_self (t : Tree) : Mirrors S t t := .refl (fun _ => .inl rfl) S t

theorem mirrors_every_isXSubX {g h : α → Ty} :
    Mirrors S (.every (l.map fun a => isXSubX errorf (g a) (h a) m))
      (.every (l.map fun a => isXSubX false (g a) (h a) m)) :=
  .every (fun _ _ _ => mirrors_isXSubX _ _) S

theorem mirrors_each_isXSubX {g h : α → Ty} :
    Mirrors S (.each (l.map fun a => isXSubX errorf (g a) (h a) m))
      (.each (l.map fun a => isXSubX false (g a) (h a) m)) :=
  .each (fun _ _ _ => mirrors_isXSubX _ _) S

theorem mirrors_some_isXSubX {g h : α → Ty} :
    Mirrors S (.some (l.map fun a => isXSubX errorf (g a) (h a) m))
      (.some (l.map fun a => isXSubX false (g a) (h a) m)) :=
  .some (fun _ _ _ => mirrors_isXSubX _ _) S

theorem mirrors_isEqtype (a b : Ty) : Mirrors S (isEqtype errorf a b) (isEqtype false a b) :=
  (mirrors_isXSubX a b).and fun _ _ => mirrors_isXSubX b a

theorem mirrors_isEqTypeargs (aDef bDef : Nat) (aArgs bArgs : List Ty) :
    Mirrors S (isEqTypeargs P true aDef bDef aArgs bArgs)
      (isEqTypeargs P false aDef bDef aArgs bArgs) := by
  refine (Ask.Mirrors.each (fun p _ S => ?_) S).both fun _ _ => .done _ _
  unfold isEqTypearg
  split
  · exact (Ask.Mirrors.done _ _).both fun _ _ => mirrors_isEqtype _ _
  · exact .done _ _
  · exact .done _ _
  · exact mirrors_isEqtype _ _

theorem mirrors_isParamSuperParam (sub super : Passed) :
    Mirrors S (isParamSuperParam P true sub super) (isParamSuperParam P false sub super) := by
  unfold isParamSuperParam
  split
  · split
    · exact .fail _ _
    · exact mirrors_isXSubX _ _
  · exact .done _ _

theorem mirrors_isFunSubFun (sub super : Method) :
    Mirrors S (isFunSubFun P true sub super) (isFunSubFun P false sub super) := by
  have hsignature : ∀ S sub, Mirrors S (isSignatureSubSignature P true sub super)
      (isSignatureSubSignature P false sub super) := fun S sub =>
    mirrors_every_isXSubX.and fun S' _ =>
      (Ask.Mirrors.every (fun p _ _ => mirrors_isParamSuperParam p.1 p.2) S').and
        fun _ _ => .done _ _
  unfold isFunSubFun
  split
  · unfold isReifiedFunSubFun
    split
    · split
      · exact .done _ _
      · exact (mirrors_isXSubX _ _).and fun S _ => hsignature S _
    split
    · exact .fail _ _
    split
    · exact .done _ _
    refine (mirrors_isXSubX _ _).and fun S _ => ?_
    split
    · exact .done _ _
    · exact hsignature S _
  · exact .done _ _

theorem mirrors_isNominalSubNominal (super : Nominal) :
    Mirrors S (isNominalSubNominal P true sub super m) (isNominalSubNominal P false sub super m) := by
  have hentity : Mirrors S (isNominalSubEntity P true sub super m)
      (isNominalSubEntity P false sub super m) := by
    unfold isNominalSubEntity
    split
    · exact .done _ _
    · exact (mirrors_isEqTypeargs _ _ _ _).both fun _ _ => .done _ _
  unfold isNominalSubNominal
  cases P.kind super.defn with
  | interface =>
    refine (Ask.Mirrors.done _ _).both fun S _ => ?_
    unfold isNominalSubStructural
    split
    · exact .fail _ _
    split
    · exact .done _ _
    split
    · exact .done _ _
    refine .each (fun f _ S => ?_) S
    unfold isMemberProvided
    split
    · exact .done _ _
    · exact mirrors_isFunSubFun _ _
  | trait =>
    simp only [isNominalSubTrait]
    cases P.kind sub.defn with
    | trait =>
      refine Ask.Mirrors.both ?_ fun _ _ => .done _ _
      split
      · exact mirrors_isEqTypeargs _ _ _ _
      · exact mirrors_self _
    | struct | interface => exact .done _ _
    | _ => exact mirrors_self _
  | _ => exact hentity

theorem mirrors_withUnfolded {args : List Ty} {cap : Option Cap} {k k' : Ty → Tree}
    (hk : ∀ t, Mirrors S (k t) (k' t)) :
    Mirrors S (withUnfolded P d args cap eph k) (withUnfolded P d args cap eph k') := by
  unfold withUnfolded
  split
  · exact hk _
  · exact .done _ _
  · exact .fail _ _

theorem mirrors_isXSubUnion (sub : Ty) (supers : List Ty) :
    Mirrors S (isXSubUnion true sub supers m) (isXSubUnion false sub supers m) := by
  refine .some_or (fun _ => .inl rfl) fun S _ hno => (mirrors_self _).or fun S' hS => ?_
  exact .ask_each (fun _ => .inr rfl) (fun a ha => hS (hno a ha)) fun _ => .done _ _

theorem mirrors_isXSubIsect (sub : Ty) (supers : List Ty) :
    Mirrors S (isXSubIsect errorf sub supers m) (isXSubIsect false sub supers m) :=
  mirrors_every_isXSubX

theorem mirrors_isXSubTypeparam (sub : Ty) : Mirrors S
    (isXSubTypeparam P true sub d cap eph m) (isXSubTypeparam P false sub d cap eph m) := by
  unfold isXSubTypeparam
  split
  · split
    · exact .done _ _
    · exact mirrors_isXSubX _ _
  split
  · exact .done _ _
  · exact mirrors_isXSubX _ _

theorem mirrors_isXSubArrow (sub left right : Ty) :
    Mirrors S (isXSubArrow P true sub left right m) (isXSubArrow P false sub left right m) := by
  unfold isXSubArrow
  split
  · exact mirrors_isXSubX _ _
  refine (mirrors_isXSubX _ _).and fun _ _ => ?_
  unfold isXSubLower
  split
  · exact .done _ _
  · exact mirrors_isXSubX _ _

theorem mirrors_isIsectSubX :
    Mirrors S (isIsectSubX P true subs m super) (isIsectSubX P false subs m super) := by
  refine Ty.induct
    (T := fun super => ∀ S,
      Mirrors S (isIsectSubX P true subs m super) (isIsectSubX P false subs m super))
    (L := fun supers => ∀ S,
      Mirrors S (isIsectSubIsect P true subs m supers) (isIsectSubIsect P false subs m supers))
    ?isect ?arrow ?other ?nil ?cons super S
  case isect => exact fun supers ih => ih
  case arrow => exact fun left right _ S => mirrors_some_isXSubX
  case other =>
    intro t hisect _ S
    cases t with
    | isecttype supers => exact absurd rfl (hisect supers)
    | typealiasref d args cap eph => exact mirrors_withUnfolded fun _ => mirrors_isXSubX _ _
    | _ => exact mirrors_some_isXSubX
  case nil => exact fun S => .done S true
  case cons => exact fun super supers ih ih' S => (ih S).and fun S' _ => ih' S'

theorem mirrors_isTupleSubX (super : Ty) :
    Mirrors S (isTupleSubX P true subs m super) (isTupleSubX P false subs m super) := by
  cases super with
  | uniontype supers => exact mirrors_isXSubUnion _ _
  | isecttype supers => exact mirrors_isXSubIsect _ _
  | tupletype supers =>
    simp only [isTupleSubX, isTupleSubTuple]
    split
    · exact .done _ _
    · exact mirrors_each_isXSubX
  | nominal d args cap eph =>
    simp only [isTupleSubX, isTupleSubNominal]
    split
    · exact mirrors_every_isXSubX
    · exact .done _ _
  | typeparamref d cap eph => exact mirrors_isXSubTypeparam _
  | arrow left right => exact mirrors_isXSubArrow _ _ _
  | typealiasref d args cap eph => exact mirrors_withUnfolded fun _ => mirrors_isXSubX _ _
  | funtype | infertype | errortype | entitytype kind => exact .done _ _
  | _ => exact .fail _ _

theorem mirrors_isNominalSubX (h : P.bare sub.defn = true → ∀ us,
    super ≠ .uniontype us ∧ super ≠ .isecttype us) :
    Mirrors S (isNominalSubX P true sub m super) (isNominalSubX P false sub m super) := by
  cases super with
  | uniontype supers =>
    have hb : P.bare sub.defn = false := by simpa using fun hb => (h hb supers).1
    simp only [isNominalSubX, hb]
    exact mirrors_isXSubUnion _ _
  | isecttype supers =>
    have hb : P.bare sub.defn = false := by simpa using fun hb => (h hb supers).2
    simp only [isNominalSubX, hb]
    exact mirrors_isXSubIsect _ _
  | nominal d args cap eph => exact mirrors_isNominalSubNominal _
  | typeparamref d cap eph => exact mirrors_isXSubTypeparam _
  | arrow left right => exact mirrors_isXSubArrow _ _ _
  | typealiasref d args cap eph => exact mirrors_withUnfolded fun _ => mirrors_isXSubX _ _
  | tupletype supers | funtype | infertype | errortype | entitytype kind => exact .done _ _
  | _ => exact .fail _ _

theorem mirrors_isTypeparamSubX (super : Ty) : Mirrors S
    (isTypeparamSubX P d cap eph true m super) (isTypeparamSubX P d cap eph false m super) := by
  have hupper : ∀ S, Mirrors S (isTypeparamUpperSubX P true d cap eph m super)
      (isTypeparamUpperSubX P false d cap eph m super) := by
    intro S
    unfold isTypeparamUpperSubX
    split
    · split
      · exact .done _ _
      · exact mirrors_isXSubX _ _
    split
    · exact .done _ _
    · exact mirrors_isXSubX _ _
  cases super with
  | arrow left right | _ => exact (mirrors_self _).or fun S _ => hupper S

theorem mirrors_isArrowSubNominal (left right super : Ty) : Mirrors S
    (isArrowSubNominal P true left right super m) (isArrowSubNominal P false left right super m) := by
  unfold isArrowSubNominal
  split
  · exact mirrors_isXSubX _ _
  refine (mirrors_isXSubX _ _).and fun _ _ => ?_
  unfold isUpperSubX
  split
  · exact .done _ _
  · exact mirrors_isXSubX _ _

theorem mirrors_isArrowSubX (left right super : Ty) :
    Mirrors S (isArrowSubX P true left right m super) (isArrowSubX P false left right m super) := by
  cases super with
  | uniontype supers => exact mirrors_isXSubUnion _ _
  | isecttype supers => exact mirrors_isXSubIsect _ _
  | nominal d args cap eph => exact mirrors_isArrowSubNominal _ _ _
  | typeparamref d cap eph =>
    simp only [isArrowSubX, isArrowSubTypeparam]
    split
    · exact mirrors_isXSubX _ _
    refine (mirrors_isXSubX _ _).and fun _ _ => ?_
    split
    · exact mirrors_isXSubX _ _
    · exact .fail _ _
    · exact mirrors_isArrowSubNominal _ _ _
  | arrow left' right' =>
    simp only [isArrowSubX, isArrowSubArrow]
    split
    · exact mirrors_isXSubX _ _
    refine (mirrors_isXSubX _ _).and fun _ _ => ?_
    split
    · exact mirrors_isXSubX _ _
    split
    · exact mirrors_isXSubX _ _
    · exact .done _ _
  | typealiasref d args cap eph => exact mirrors_withUnfolded fun _ => mirrors_isXSubX _ _
  | tupletype supers | funtype | infertype | errortype => exact .done _ _
  | _ => exact .fail _ _

theorem mirrors_isTypevalueparamSubX (super : Ty) : Mirrors S
    (isTypevalueparamSubX P true d m super) (isTypevalueparamSubX P false d m super) := by
  cases super with
  | valueformalparamref d' =>
    simp only [isTypevalueparamSubX]
    split
    · exact .fail _ _
    · exact mirrors_isXSubX _ _
  | valueformalarg v =>
    simp only [isTypevalueparamSubX]
    split
    · exact mirrors_isEqtype _ _
    · exact .fail _ _
  | _ => exact mirrors_isXSubX _ _

theorem mirrors_isBoolSingletonSubX (b : Bool) (super : Ty) : Mirrors S
    (isBoolSingletonSubX P true b m super) (isBoolSingletonSubX P false b m super) := by
  cases super with
  | uniontype supers => exact mirrors_isXSubUnion _ _
  | typealiasref d args cap eph | _ => exact mirrors_self _

/-- **One comparison mirrors itself without the frame**, if it is not that of a bare type with a
union or an intersection. -/
theorem mirrors_impl (h : ∀ d args cap eph, q.sub = .nominal d args cap eph → P.bare d = true →
    ∀ us, q.super ≠ .uniontype us ∧ q.super ≠ .isecttype us) :
    Mirrors S (isXSubXImpl P true q) (isXSubXImpl P false q) := by
  rcases isXSubXImpl_cases (P := P) q with ⟨b, hb⟩ | ⟨-, hdispatch⟩
  · rw [(hb true).1, (hb false).1]
    exact .done _ _
  rw [(hdispatch true).1, (hdispatch false).1]
  obtain ⟨sub, super, m⟩ := q
  cases sub with
  | uniontype subs => exact mirrors_every_isXSubX
  | isecttype subs => exact mirrors_isIsectSubX
  | tupletype subs => exact mirrors_isTupleSubX super
  | nominal d args cap eph =>
    exact @mirrors_isNominalSubX _ _ ⟨d, args, cap, eph⟩ super S (h d args cap eph rfl)
  | typeparamref d cap eph => exact mirrors_isTypeparamSubX super
  | valueformalparamref d => exact mirrors_isTypevalueparamSubX super
  | arrow left right => exact mirrors_isArrowSubX left right super
  | typealiasref d args cap eph => exact mirrors_withUnfolded fun _ => mirrors_isXSubX _ _
  | boolSingleton b => exact mirrors_isBoolSingletonSubX b super
  | _ => exact .done _ _

/-! ### Whole comparisons -/

/-- **A comparison fails no assertion** iff all that it comes to can be made. -/
theorem uncached_ne_crash_iff {eq : Bool × Query} :
    isXSubXUncached P n stack eq ≠ .crash ↔ Smooth P n stack eq := by
  induction n generalizing stack eq with
  | zero => simp [isXSubXUncached, Smooth, OnTheWay]
  | succ n ih =>
    obtain ⟨errorf, q⟩ := eq
    have hgo : ∀ stack, (isXSubXImpl P errorf q).eval (isXSubXUncached P n stack)
        (expandTupleUnions P n) ≠ .crash ↔
        Comparable P (isXSubXUncached P n stack) (expandTupleUnions P n) errorf q ∧
          (isXSubXImpl P errorf q).All (isXSubXUncached P n stack) (expandTupleUnions P n)
            (Smooth P n stack) := fun stack => by
      rw [Ask.eval_ne_crash_iff, passes_impl]
      exact and_congr_right fun _ =>
        ⟨Ask.All.imp fun _ => ih.1, Ask.All.imp fun _ => ih.2⟩
    simp only [isXSubXUncached, Smooth, OnTheWay]
    cases verdict stack q with
    | bail | cycle index => simp
    | plain | enter => exact hgo _

/-- **The frame makes no difference** where no bare type comes to a union or an intersection and the
comparison without a frame fails no assertion. -/
theorem BareApart.frame_eq (h : BareApart P n stack (true, q))
    (hcrash : isXSubXUncached P n stack (false, q) ≠ .crash) :
    isXSubXUncached P n stack (true, q) = isXSubXUncached P n stack (false, q) := by
  induction n generalizing stack q with
  | zero => rfl
  | succ n ih =>
    simp only [BareApart, OnTheWay] at h
    simp only [isXSubXUncached] at hcrash ⊢
    cases hv : verdict stack q with
    | bail | cycle index => rfl
    | plain | enter =>
      simp only [hv] at h hcrash ⊢
      obtain ⟨hbare, hall⟩ := h
      refine (mirrors_impl (S := ∅) (hbare trivial)).eval_eq ?_ (fun _ h => False.elim h) hall hcrash
      rintro ⟨errorf, q⟩ q' (rfl | rfl) hq hcrash
      · rfl
      cases errorf with
      | true => exact ih hq hcrash
      | false => rfl

/-! ### The result -/

/-- Neither of the two calls fails an assertion, and one answers what the other does. -/
def SameWithFrame (call : Bool → Nat → Outcome) : Prop :=
  (∀ errorf n, call errorf n ≠ .crash) ∧
    ∀ b, (∃ n, call false n = .answer b) ↔ ∃ n, call true n = .answer b

/-- **The frame makes no difference** only if all that is come to can be compared; and as long as no
bare type comes to a union or an intersection under the frame, it makes none iff all that the call
without a frame comes to can be compared.  What is found in the cache has to be faithful. -/
theorem frame_irrelevant {q : Query} {cache : List Word → Option Entry} {minMatchIdx : Option Nat}
    {subtreePoisoned : Bool} (hfaithful : ∀ errorf n, ∀ ev ∈ (isXSubXCached P n (errorf, q)
      (.idle cache minMatchIdx subtreePoisoned)).2.log, ev.Faithful P) :
    (SameWithFrame (fun errorf n =>
        (isXSubXCached P n (errorf, q) (.idle cache minMatchIdx subtreePoisoned)).1) →
      ∀ errorf n, Smooth P n [] (errorf, q)) ∧
    ((∀ n, BareApart P n [] (true, q)) →
      (SameWithFrame (fun errorf n =>
          (isXSubXCached P n (errorf, q) (.idle cache minMatchIdx subtreePoisoned)).1) ↔
        ∀ n, Smooth P n [] (false, q))) := by
  have hout : ∀ errorf n r,
      (isXSubXCached P n (errorf, q) (.idle cache minMatchIdx subtreePoisoned)).1 = r →
      r ≠ .timeout → ∃ m, isXSubXUncached P m [] (errorf, q) = r := by
    intro errorf n r hr hne
    rw [(isXSubXCached_idle ..).1] at hr
    obtain ⟨m, hm⟩ := (isXSubXCached_right n (errorf, q) _ State.right_idle
      (faithful_idle (hfaithful errorf n))).2 (hr ▸ hne)
    exact ⟨m, hm.trans hr⟩
  have hin : ∀ errorf n r, isXSubXUncached P n [] (errorf, q) = r → r ≠ .timeout →
      (isXSubXCached P n (errorf, q) (.idle cache minMatchIdx subtreePoisoned)).1 = r := by
    intro errorf n r hr hne
    rw [(isXSubXCached_idle ..).1]
    exact (isXSubXCached_eq n (errorf, q) _ State.right_idle
      (faithful_idle (hfaithful errorf n)) (hr ▸ hne)).trans hr
  have hsmooth : ∀ errorf, (∀ n, (isXSubXCached P n (errorf, q)
      (.idle cache minMatchIdx subtreePoisoned)).1 ≠ .crash) → ∀ n, Smooth P n [] (errorf, q) :=
    fun errorf h n => uncached_ne_crash_iff.1 fun hcrash => h n (hin errorf n _ hcrash nofun)
  refine ⟨fun h errorf => hsmooth errorf (h.1 errorf), fun hbare =>
    ⟨fun h => hsmooth false (h.1 false), fun h => ?_⟩⟩
  have hne : ∀ n, isXSubXUncached P n [] (false, q) ≠ .crash :=
    fun n => uncached_ne_crash_iff.2 (h n)
  have hsame : ∀ errorf n, isXSubXUncached P n [] (errorf, q) =
      isXSubXUncached P n [] (false, q) := by
    intro errorf n
    cases errorf with
    | true => exact (hbare n).frame_eq (hne n)
    | false => rfl
  refine ⟨fun errorf n hcrash => ?_, fun b => ⟨fun ⟨n, hn⟩ => ?_, fun ⟨n, hn⟩ => ?_⟩⟩
  · obtain ⟨m, hm⟩ := hout errorf n _ hcrash nofun
    exact hne m ((hsame errorf m).symm.trans hm)
  · obtain ⟨m, hm⟩ := hout false n _ hn nofun
    exact ⟨m, hin true m _ ((hsame true m).trans hm) nofun⟩
  · obtain ⟨m, hm⟩ := hout true n _ hn nofun
    exact ⟨m, hin false m _ ((hsame true m).symm.trans hm) nofun⟩

/-- Bare interfaces with one method each, and two more. -/
def bareInterfaces (method : Nat → Option Method) : Program :=
  { blankWith (fun _ => .interface) method with bare := fun d => decide (d < 2) }

/-- A bare function from `A val` to `A`, whose parameter may be annotated `byval`. -/
def bareFun (byval : Bool) (result : Cap) : Method :=
  ⟨.fun, none, 0, [], [⟨plainType 2 .val, byval⟩], ⟨plainType 2 result, false⟩, false⟩

/-- `@{(\byval\ A val): A ref}` and `@{(A val): A val}`. -/
def resultsDiffer : Program :=
  bareInterfaces fun d =>
    if d = 0 then some (bareFun true .ref) else if d = 1 then some (bareFun false .val) else none

def differingFuns : Query := ⟨plainType 0 .val, plainType 1 .val, .sub⟩

def differingResults : Query := ⟨plainType 2 .ref, plainType 2 .val, .sub⟩

theorem uncached_differingResults (errorf : Bool) (n : Nat) :
    isXSubXUncached resultsDiffer n [differingFuns] (errorf, differingResults) ≠ .answer true := by
  cases n with
  | zero => nofun
  | succ n => cases errorf <;> nofun

/-- The results are compared and nothing else. -/
theorem onTheWay_differingFuns {C} {errorf : Bool}
    (hfuns : ∀ n, C (isXSubXUncached resultsDiffer n [differingFuns])
      (expandTupleUnions resultsDiffer n) (errorf, differingFuns))
    (hresults : ∀ n, C (isXSubXUncached resultsDiffer n [differingFuns, differingResults])
      (expandTupleUnions resultsDiffer n) (errorf, differingResults)) (n : Nat) :
    OnTheWay resultsDiffer C n [] (errorf, differingFuns) := by
  cases n with
  | zero => trivial
  | succ n =>
    refine ⟨hfuns n, ?_, fun b hb => ?_⟩
    · cases n with
      | zero => trivial
      | succ n => exact ⟨hresults n, trivial⟩
    · cases b with
      | true => exact absurd hb (uncached_differingResults errorf n)
      | false => trivial

/-- Neither call comes to the parameters, whose annotations differ. -/
theorem same_result_with_and_without_frame :
    (SameWithFrame fun errorf n => (isXSubXCached resultsDiffer n (errorf, differingFuns)
      (.idle (fun _ => none) none false)).1) ∧
    ∃ n, (isXSubXCached resultsDiffer n (false, differingFuns)
      (.idle (fun _ => none) none false)).1 = .answer false := by
  have hfaithful : ∀ errorf n, ∀ ev ∈ (isXSubXCached resultsDiffer n (errorf, differingFuns)
      (.idle (fun _ => none) none false)).2.log, ev.Faithful resultsDiffer := by
    intro errorf n ev hev
    have hreuse : reuses (isXSubXCached resultsDiffer n (errorf, differingFuns)
        (.idle (fun _ => none) none false)).2.log = [] := by
      rcases n with _ | _ | n <;> cases errorf <;> rfl
    cases ev with
    | reuse entry asked stack => exact absurd (mem_reuses hev) (hreuse ▸ not_mem_nil)
    | _ => trivial
  refine ⟨((frame_irrelevant hfaithful).2 fun n => ?_).2 fun n => ?_, 2, rfl⟩
  · exact onTheWay_differingFuns (fun _ _ _ _ _ _ _ _ _ => ⟨nofun, nofun⟩)
      (fun _ _ _ _ _ _ _ _ _ => ⟨nofun, nofun⟩) n
  · refine onTheWay_differingFuns (fun n => ⟨trivial, trivial, ?_⟩) (fun n => ⟨trivial, trivial, ?_⟩) n
    · rintro _ _ _ _ ⟨⟩
      refine ⟨rfl, fun _ _ => ⟨?_, fun _ => trivial⟩⟩
      rintro f ⟨⟩ -
      exact ⟨fun _ => rfl, fun _ h => absurd h (uncached_differingResults false n)⟩
    · rintro _ _ _ _ ⟨⟩
      exact ⟨rfl, fun _ _ => trivial⟩

/-- **Without a frame, a difference in `byval` fails an assertion**: `@{(\byval\ A): A}` and
`@{(A): A}`. -/
theorem byval_without_frame :
    (isXSubXCached (bareInterfaces fun d => if d < 2 then some (bareFun (d = 0) .val) else none) 4
      (false, ⟨plainType 0 .val, plainType 1 .val, .sub⟩)
      (.idle (fun _ => none) none false)).1 = .crash ∧
    (isXSubXCached (bareInterfaces fun d => if d < 2 then some (bareFun (d = 0) .val) else none) 4
      (true, ⟨plainType 0 .val, plainType 1 .val, .sub⟩)
      (.idle (fun _ => none) none false)).1 = .answer false := by
  decide

end SpacePony.Subtype
