import Mathlib.Data.List.Forall2
import SpacePony.Compiler.Type.Assume
import SpacePony.Support.Coinduction

/-!
# Type — the declarative rules

The rules of subtyping, as the comments of `type/subtype.c` state them, and the greatest relation
that is closed under them.  Nothing here knows of the order of the comparisons, of assumptions or of
the cache.  A comparison that comes out true follows by rules from the comparisons it relied on
(`impl_sound`).
-/

namespace SpacePony.Subtype

open Ask.Holds Bool Option List

variable (P : Program)

/-! ### Rules -/

/-- `t'` is one of the alternatives of `t`, with the unions inside tuples distributed. -/
inductive Alternative : Ty → Ty → Prop where
  | union {ts : List Ty} {t alt : Ty} (ht : t ∈ ts) (h : Alternative t alt) :
      Alternative (.uniontype ts) alt
  | tuple {ts alts : List Ty} (hlen : ts.length = alts.length)
      (h : ∀ (i : Nat) (t alt : Ty), ts[i]? = some t → alts[i]? = some alt → Alternative t alt) :
      Alternative (.tupletype ts) (.tupletype alts)
  | unfold {d : Nat} {args : List Ty} {cap : Option Cap} {eph : Eph} {t alt : Ty}
      (ht : P.typealiasUnfold d args cap eph = .found t) (h : Alternative t alt) :
      Alternative (.typealiasref d args cap eph) alt
  | folded {d : Nat} {args : List Ty} {cap : Option Cap} {eph : Eph}
      (ht : P.typealiasUnfold d args cap eph = .null) :
      Alternative (.typealiasref d args cap eph) (.typealiasref d args cap eph)
  | single {t : Ty} (hunion : ∀ ts, t ≠ .uniontype ts) (htuple : ∀ ts, t ≠ .tupletype ts)
      (halias : t.isTypealiasref = false) : Alternative t t

section

variable (R : Set Query)

/-- Two types below each other. -/
def EqtypeRule (a b : Ty) : Prop := ⟨a, b, .sub⟩ ∈ R ∧ ⟨b, a, .sub⟩ ∈ R

/-- Type arguments are invariant; values are equal and of equal types. -/
def TypeargRule (aDef bDef index : Nat) : Ty → Ty → Prop
  | .valueformalarg a, .valueformalarg b => isLiteralEqual a b = true ∧
      EqtypeRule R (P.valueParamType aDef index) (P.valueParamType bDef index)
  | .valueformalarg _, _ => False
  | _, .valueformalarg _ => False
  | a, b => EqtypeRule R a b

def TypeargsRule (aDef bDef : Nat) (aArgs bArgs : List Ty) : Prop :=
  aArgs.length = bArgs.length ∧
    ∀ p ∈ (aArgs.zip bArgs).zipIdx, TypeargRule P R aDef bDef p.2 p.1.1 p.1.2

/-- Parameters are contravariant. -/
def ParamRule (sub super : Passed) : Prop :=
  ∃ a b, P.consumeType sub = some a ∧ P.consumeType super = some b ∧ a.byval = b.byval ∧
    ⟨b.type, a.type, .sub⟩ ∈ R

/-- Methods: a covariant result, a contravariant receiver (covariant for a constructor),
contravariant constraints and parameters, and no error that the supertype's method has not. -/
structure ReifiedMethodRule (sub super : Method) : Prop where
  receiver : isReceiverSub sub super = true
  result : ⟨sub.result.type, super.result.type, .sub⟩ ∈ R
  byval : sub.kind ≠ .new → sub.result.byval = super.result.byval
  constraints : ∀ p ∈ sub.typeparams.zip super.typeparams, ⟨p.2, p.1, .eq⟩ ∈ R
  params : ∀ p ∈ sub.params.zip super.params, ParamRule P R p.1 p.2
  throws : sub.throws = true → super.throws = true

def MethodRule (sub super : Method) : Prop :=
  isFunLikeFun sub super = true ∧ ReifiedMethodRule P R (reifiedSub P sub super) super

/-- `implements(N, I)`. -/
structure StructuralRule (sub super : Nominal) : Prop where
  supertype : P.nosupertype sub.defn = false
  bare : P.bare sub.defn = P.bare super.defn
  members : ∀ m ∈ P.members super.defn, ∃ f, P.get sub.defn m.name = some f ∧
    MethodRule P R (P.reifyMethodDef sub.defn sub.typeargs f)
      (P.reifyMethodDef super.defn super.typeargs m)

/-- One rule, with premises in `R`. -/
inductive Rule : Query → Prop where
  | dontcareSuper {sub : Ty} {m : CheckCap} : Rule ⟨sub, .dontcaretype, m⟩
  | dontcareSub {super : Ty} {m : CheckCap} : Rule ⟨.dontcaretype, super, m⟩
  | boolSingleton {b : Bool} {m : CheckCap} : Rule ⟨.boolSingleton b, .boolSingleton b, m⟩
  | bool {b : Bool} {d : Nat} {args : List Ty} {cap : Cap} {eph : Eph} {m : CheckCap}
      (h : P.isBool d = true) : Rule ⟨.boolSingleton b, .nominal d args cap eph, m⟩
  | unionSub {ts : List Ty} {super : Ty} {m : CheckCap} (h : ∀ t ∈ ts, ⟨t, super, m⟩ ∈ R) :
      Rule ⟨.uniontype ts, super, m⟩
  | unionSuper {sub t : Ty} {ts : List Ty} {m : CheckCap} (ht : t ∈ ts) (h : ⟨sub, t, m⟩ ∈ R) :
      Rule ⟨sub, .uniontype ts, m⟩
  /-- A tuple of unions is a union of tuples. -/
  | distribute {ts us : List Ty} {m : CheckCap}
      (hself : ¬Alternative P (.tupletype ts) (.tupletype ts))
      (h : ∀ alt, Alternative P (.tupletype ts) alt → ⟨alt, .uniontype us, m⟩ ∈ R) :
      Rule ⟨.tupletype ts, .uniontype us, m⟩
  | isectSub {ts : List Ty} {t super : Ty} {m : CheckCap} (ht : t ∈ ts)
      (h : ⟨t, super, m⟩ ∈ R) : Rule ⟨.isecttype ts, super, m⟩
  | isectSuper {sub : Ty} {ts : List Ty} {m : CheckCap} (h : ∀ t ∈ ts, ⟨sub, t, m⟩ ∈ R) :
      Rule ⟨sub, .isecttype ts, m⟩
  | tuple {ts us : List Ty} {m : CheckCap} (hlen : ts.length = us.length)
      (h : ∀ p ∈ ts.zip us, ⟨p.1, p.2, m⟩ ∈ R) : Rule ⟨.tupletype ts, .tupletype us, m⟩
  | tupleTop {ts : List Ty} {d : Nat} {args : List Ty} {cap : Cap} {eph : Eph} {m : CheckCap}
      (htop : isTopNominal P d = true) (h : ∀ t ∈ ts, ⟨t, .nominal d args cap eph, m⟩ ∈ R) :
      Rule ⟨.tupletype ts, .nominal d args cap eph, m⟩
  | aliasSub {d : Nat} {args : List Ty} {cap : Option Cap} {eph : Eph} {t super : Ty}
      {m : CheckCap} (ht : P.typealiasUnfold d args cap eph = .found t) (h : ⟨t, super, m⟩ ∈ R) :
      Rule ⟨.typealiasref d args cap eph, super, m⟩
  | aliasSuper {d : Nat} {args : List Ty} {cap : Option Cap} {eph : Eph} {sub t : Ty}
      {m : CheckCap} (ht : P.typealiasUnfold d args cap eph = .found t) (h : ⟨sub, t, m⟩ ∈ R) :
      Rule ⟨sub, .typealiasref d args cap eph, m⟩
  /-- Two uses of one type parameter. -/
  | typeparam {d d' : Nat} {cap cap' : Cap} {eph eph' : Eph} {m : CheckCap}
      (h : isTypeparamSubTypeparam P d cap eph d' cap' eph' m = true) :
      Rule ⟨.typeparamref d cap eph, .typeparamref d' cap' eph', m⟩
  /-- What is below a type parameter is below its lower bound. -/
  | typeparamSuper {sub lower : Ty} {d : Nat} {cap : Cap} {eph : Eph} {m : CheckCap}
      (hm : m ≠ .ignore) (hl : P.typeparamLower d cap eph = some lower)
      (h : ⟨sub, lower, m⟩ ∈ R) : Rule ⟨sub, .typeparamref d cap eph, m⟩
  | typeparamSuperIgnore {sub constraint : Ty} {d : Nat} {cap : Cap} {eph : Eph}
      (hc : P.typeparamConstraint d = some constraint) (h : ⟨sub, constraint, .ignore⟩ ∈ R) :
      Rule ⟨sub, .typeparamref d cap eph, .ignore⟩
  /-- What is above a type parameter is above its upper bound. -/
  | typeparamSub {super upper : Ty} {d : Nat} {cap : Cap} {eph : Eph} {m : CheckCap}
      (hm : m ≠ .ignore) (hu : P.typeparamUpper d cap eph = some upper)
      (h : ⟨upper, super, m⟩ ∈ R) : Rule ⟨.typeparamref d cap eph, super, m⟩
  | typeparamSubIgnore {super constraint : Ty} {d : Nat} {cap : Cap} {eph : Eph}
      (hc : P.typeparamConstraint d = some constraint) (h : ⟨constraint, super, .ignore⟩ ∈ R) :
      Rule ⟨.typeparamref d cap eph, super, .ignore⟩
  | arrowSuper {sub left right lower : Ty} {m : CheckCap} (hm : m ≠ .ignore)
      (hl : P.viewpointLower left right = some lower) (h : ⟨sub, lower, m⟩ ∈ R) :
      Rule ⟨sub, .arrow left right, m⟩
  | arrowSuperIgnore {sub left right : Ty} (h : ⟨sub, right, .ignore⟩ ∈ R) :
      Rule ⟨sub, .arrow left right, .ignore⟩
  | arrowSub {left right super upper : Ty} {m : CheckCap} (hm : m ≠ .ignore)
      (hu : P.viewpointUpper left right = some upper) (h : ⟨upper, super, m⟩ ∈ R) :
      Rule ⟨.arrow left right, super, m⟩
  | arrowSubIgnore {left right super : Ty} (h : ⟨right, super, .ignore⟩ ∈ R) :
      Rule ⟨.arrow left right, super, .ignore⟩
  | arrows {left right left' right' upper lower : Ty} {m : CheckCap} (hm : m ≠ .ignore)
      (hu : P.viewpointUpper left right = some upper)
      (hl : P.viewpointLower left' right' = some lower) (h : ⟨upper, lower, m⟩ ∈ R) :
      Rule ⟨.arrow left right, .arrow left' right', m⟩
  /-- For all instantiations of the viewpoint of both arrows. -/
  | arrowsReified {left right left' right' a b : Ty} {m : CheckCap} (hm : m ≠ .ignore)
      (hr : P.viewpointReifypair (.arrow left right) (.arrow left' right') = some (a, b))
      (h : ⟨a, b, m⟩ ∈ R) : Rule ⟨.arrow left right, .arrow left' right', m⟩
  /-- For all instantiations of a type parameter's capability. -/
  | typeparamSubReified {d : Nat} {cap : Cap} {eph : Eph} {left right a b : Ty} {m : CheckCap}
      (hm : m ≠ .ignore)
      (ha : P.viewpointReifytypeparam (.typeparamref d cap eph) (.typeparamref d cap eph) = some a)
      (hb : P.viewpointReifytypeparam (.arrow left right) (.typeparamref d cap eph) = some b)
      (h : ⟨a, b, m⟩ ∈ R) : Rule ⟨.typeparamref d cap eph, .arrow left right, m⟩
  | typeparamSuperReified {d : Nat} {cap : Cap} {eph : Eph} {left right a b : Ty} {m : CheckCap}
      (hm : m ≠ .ignore)
      (ha : P.viewpointReifytypeparam (.arrow left right) (.typeparamref d cap eph) = some a)
      (hb : P.viewpointReifytypeparam (.typeparamref d cap eph) (.typeparamref d cap eph) = some b)
      (h : ⟨a, b, m⟩ ∈ R) : Rule ⟨.arrow left right, .typeparamref d cap eph, m⟩
  /-- `N = C`, `k <: k'`. -/
  | entity {sub super : Nominal} {m : CheckCap} (hkind : P.kind super.defn ≠ .interface)
      (hdef : sub.defn = super.defn)
      (hargs : TypeargsRule P R sub.defn super.defn sub.typeargs super.typeargs)
      (hcap : sub.isSubCap super m = true) : Rule ⟨sub.toTy, super.toTy, m⟩
  /-- `implements(N, I)`, `k <: k'`; a struct has no descriptor. -/
  | interface {sub super : Nominal} {m : CheckCap} (hkind : P.kind super.defn = .interface)
      (hstruct : P.kind sub.defn ≠ .struct) (hcap : sub.isSubCap super m = true)
      (h : StructuralRule P R sub super) : Rule ⟨sub.toTy, super.toTy, m⟩
  /-- `implements(C, R)`, `k <: k'`. -/
  | trait {sub super : Nominal} {m : CheckCap} {child t : Ty}
      (hkind : P.kind super.defn = .trait) (hstruct : P.kind sub.defn ≠ .struct)
      (hinterface : P.kind sub.defn ≠ .interface) (hbare : P.bare sub.defn = false)
      (hchild : child ∈ P.traits sub.defn sub.typeargs)
      (ht : setCapAndEphemeral super.cap super.eph child = some t)
      (h : ⟨t, super.toTy, m⟩ ∈ R) (hcap : sub.isSubCap super m = true) :
      Rule ⟨sub.toTy, super.toTy, m⟩
  | nominalEntityType {sub : Nominal} {kind : EntityType} {m : CheckCap}
      (h : isNominalEntityType P sub kind = true) : Rule ⟨sub.toTy, .entitytype kind, m⟩
  | entityType {kind : EntityType} {m : CheckCap} : Rule ⟨.entitytype kind, .entitytype kind, m⟩

end

variable {P} {R R' : Set Query}

variable {aDef bDef d : Nat} {sub : Nominal} {q : Query} {args ts alts supers subs : List Ty}
  {eph : Eph} {super left right : Ty} {cap : Cap}

theorem TypeargRule.mono (h : R ⊆ R') {index : Nat} {a b : Ty}
    (hab : TypeargRule P R aDef bDef index a b) : TypeargRule P R' aDef bDef index a b := by
  revert hab
  unfold TypeargRule
  split
  · exact fun hab => ⟨hab.1, h hab.2.1, h hab.2.2⟩
  · exact id
  · exact id
  · exact fun hab => ⟨h hab.1, h hab.2⟩

theorem TypeargsRule.mono (h : R ⊆ R') {aArgs bArgs : List Ty}
    (hargs : TypeargsRule P R aDef bDef aArgs bArgs) : TypeargsRule P R' aDef bDef aArgs bArgs :=
  ⟨hargs.1, fun p hp => (hargs.2 p hp).mono h⟩

theorem ReifiedMethodRule.mono (h : R ⊆ R') {sub super : Method}
    (hrule : ReifiedMethodRule P R sub super) : ReifiedMethodRule P R' sub super where
  receiver := hrule.receiver
  result := h hrule.result
  byval := hrule.byval
  constraints := fun p hp => h (hrule.constraints p hp)
  params := fun p hp => by
    obtain ⟨a, b, ha, hb, hbyval, hab⟩ := hrule.params p hp
    exact ⟨a, b, ha, hb, hbyval, h hab⟩
  throws := hrule.throws

theorem StructuralRule.mono (h : R ⊆ R') {super : Nominal} (hrule : StructuralRule P R sub super) :
    StructuralRule P R' sub super where
  supertype := hrule.supertype
  bare := hrule.bare
  members := fun m hm => by
    obtain ⟨f, hf, hlike, hfun⟩ := hrule.members m hm
    exact ⟨f, hf, hlike, hfun.mono h⟩

theorem Rule.mono (h : R ⊆ R') (hq : Rule P R q) : Rule P R' q := by
  cases hq with
  | dontcareSuper => exact .dontcareSuper
  | dontcareSub => exact .dontcareSub
  | boolSingleton => exact .boolSingleton
  | bool hb => exact .bool hb
  | unionSub hall => exact .unionSub fun t ht => h (hall t ht)
  | unionSuper ht ht' => exact .unionSuper ht (h ht')
  | distribute hself hall => exact .distribute hself fun alt halt => h (hall alt halt)
  | isectSub ht ht' => exact .isectSub ht (h ht')
  | isectSuper hall => exact .isectSuper fun t ht => h (hall t ht)
  | tuple hlen hall => exact .tuple hlen fun p hp => h (hall p hp)
  | tupleTop htop hall => exact .tupleTop htop fun t ht => h (hall t ht)
  | aliasSub ht ht' => exact .aliasSub ht (h ht')
  | aliasSuper ht ht' => exact .aliasSuper ht (h ht')
  | typeparam hp => exact .typeparam hp
  | typeparamSuper hm hl hr => exact .typeparamSuper hm hl (h hr)
  | typeparamSuperIgnore hc hr => exact .typeparamSuperIgnore hc (h hr)
  | typeparamSub hm hu hr => exact .typeparamSub hm hu (h hr)
  | typeparamSubIgnore hc hr => exact .typeparamSubIgnore hc (h hr)
  | arrowSuper hm hl hr => exact .arrowSuper hm hl (h hr)
  | arrowSuperIgnore hr => exact .arrowSuperIgnore (h hr)
  | arrowSub hm hu hr => exact .arrowSub hm hu (h hr)
  | arrowSubIgnore hr => exact .arrowSubIgnore (h hr)
  | arrows hm hu hl hr => exact .arrows hm hu hl (h hr)
  | arrowsReified hm hp hr => exact .arrowsReified hm hp (h hr)
  | typeparamSubReified hm ha hb hr => exact .typeparamSubReified hm ha hb (h hr)
  | typeparamSuperReified hm ha hb hr => exact .typeparamSuperReified hm ha hb (h hr)
  | entity hkind hdef hargs hcap => exact .entity hkind hdef (hargs.mono h) hcap
  | interface hkind hstruct hcap hs => exact .interface hkind hstruct hcap (hs.mono h)
  | trait hkind hstruct hinterface hbare hchild ht hr hcap =>
    exact .trait hkind hstruct hinterface hbare hchild ht (h hr) hcap
  | nominalEntityType hk => exact .nominalEntityType hk
  | entityType => exact .entityType

variable (P) in
/-- The rules as a map on sets of comparisons. -/
def rules : Set Query →o Set Query where
  toFun R := { q | Rule P R q }
  monotone' := fun _ _ h _ hq => Rule.mono h hq

variable (P) in
/-- The greatest relation closed under the rules: every member follows by a rule from members. -/
def Declarative (q : Query) : Prop := q ∈ (rules P).gfp

theorem Declarative.rule (h : Declarative P q) : Rule P { q | Declarative P q } q := by
  have hgfp : (rules P) (rules P).gfp = (rules P).gfp := (rules P).map_gfp
  rw [Declarative, ← hgfp] at h
  exact h

theorem Nominal.toTy_injective : Function.Injective Nominal.toTy := by
  rintro ⟨d, args, cap, eph⟩ ⟨d', args', cap', eph'⟩ h
  cases h
  rfl

/-- A type below an interface has its capability checked and its methods compared. -/
theorem Rule.of_interface {super : Nominal} {m : CheckCap} (hkind : P.kind super.defn = .interface)
    (h : Rule P R ⟨sub.toTy, super.toTy, m⟩) :
    sub.isSubCap super m = true ∧ StructuralRule P R sub super := by
  generalize hq : (⟨sub.toTy, super.toTy, m⟩ : Query) = q at h
  cases h with
  | interface _ _ hcap hs =>
    simp only [Query.mk.injEq, Nominal.toTy_injective.eq_iff] at hq
    obtain ⟨rfl, rfl, rfl⟩ := hq
    exact ⟨hcap, hs⟩
  | entity hkind' =>
    simp only [Query.mk.injEq, Nominal.toTy_injective.eq_iff] at hq
    obtain ⟨rfl, rfl, rfl⟩ := hq
    exact absurd hkind hkind'
  | trait hkind' =>
    simp only [Query.mk.injEq, Nominal.toTy_injective.eq_iff] at hq
    obtain ⟨rfl, rfl, rfl⟩ := hq
    rw [hkind] at hkind'
    cases hkind'
  | _ => simp [Nominal.toTy] at hq

/-! ### The alternatives of a tuple -/

theorem Alternative.ne_uniontype {t alt : Ty} (h : Alternative P t alt) (ts : List Ty) :
    alt ≠ .uniontype ts := by
  induction h with
  | union _ _ ih => exact ih
  | tuple => simp
  | unfold _ _ ih => exact ih
  | folded => simp
  | single hunion => exact hunion ts

/-- An alternative that is an alias cannot be unfolded. -/
theorem Alternative.unfold_eq_null {t alt : Ty} (h : Alternative P t alt) {cap : Option Cap}
    (halt : alt = .typealiasref d args cap eph) : P.typealiasUnfold d args cap eph = .null := by
  induction h with
  | union _ _ ih => exact ih halt
  | tuple => cases halt
  | unfold _ _ ih => exact ih halt
  | folded ht =>
    cases halt
    exact ht
  | single _ _ halias =>
    subst halt
    cases halias

theorem forall₂_of_getElem? {α β : Type} {R : α → β → Prop} {as : List α} {bs : List β}
    (hlen : as.length = bs.length)
    (h : ∀ (i : Nat) (a : α) (b : β), as[i]? = some a → bs[i]? = some b → R a b) :
    List.Forall₂ R as bs :=
  List.forall₂_iff_get.2 ⟨hlen, fun i hi hi' =>
    h i _ _ (List.getElem?_eq_getElem hi) (List.getElem?_eq_getElem hi')⟩

section

variable {expand : Ty → Option (Lookup (List Ty))}

theorem unionAlternatives_found {result : List Ty}
    (h : unionAlternatives expand ts result = some (.found alts)) :
    result ⊆ alts ∧ ∀ t ∈ ts, ∃ own, expand t = some (.found own) ∧ own ⊆ alts := by
  induction ts generalizing result with
  | nil =>
    cases h
    exact ⟨List.Subset.refl _, by simp⟩
  | cons t ts ih =>
    simp only [unionAlternatives] at h
    split at h
    · cases h
    · cases h
    · cases h
    rename_i own hown
    split at h
    · cases h
    obtain ⟨hresult, hts⟩ := ih h
    obtain ⟨hsub, hown'⟩ := append_subset.1 hresult
    exact ⟨hsub, forall_mem_cons.2 ⟨⟨own, hown, hown'⟩, hts⟩⟩

theorem tupleAlternatives_found {result : List (List Ty)}
    (h : tupleAlternatives expand ts result = some (.found alts)) {us : List Ty}
    (hus : List.Forall₂ (fun t u => ∀ own, expand t = some (.found own) → u ∈ own) ts us)
    {start : List Ty} (hstart : start ∈ result) : .tupletype (start ++ us) ∈ alts := by
  induction hus generalizing result start with
  | nil =>
    cases h
    simpa using hstart
  | @cons t u ts us hu _ ih =>
    simp only [tupleAlternatives] at h
    split at h
    · cases h
    · cases h
    · cases h
    rename_i own hown
    split at h
    · cases h
    have hmem : start ++ [u] ∈ result.flatMap fun tuple => own.map fun alt => tuple ++ [alt] :=
      mem_flatMap.2 ⟨start, hstart, mem_map.2 ⟨u, hu own hown, rfl⟩⟩
    simpa using ih h hmem

/-- A tuple whose elements have no other alternatives has none. -/
theorem tupleAlternatives_single {start : List Ty}
    (h : tupleAlternatives expand ts [start] = some (.found alts))
    (hts : ∀ t ∈ ts, ∀ own, expand t = some (.found own) → own = [t]) :
    alts = [.tupletype (start ++ ts)] := by
  induction ts generalizing start with
  | nil =>
    cases h
    simp
  | cons t ts ih =>
    obtain ⟨ht, hts⟩ := forall_mem_cons.1 hts
    simp only [tupleAlternatives] at h
    split at h
    · cases h
    · cases h
    · cases h
    rename_i own hown
    rw [ht own hown] at h
    split at h
    · cases h
    simpa using ih h hts

end

/-- The expansion of a type holds all of its alternatives, and only the type itself if that is one
of them. -/
theorem expandTypeAlternatives_found {n : Nat} {t : Ty} {alts : List Ty}
    (h : expandTypeAlternatives P n t = some (.found alts)) :
    (∀ alt, Alternative P t alt → alt ∈ alts) ∧ (Alternative P t t → alts = [t]) := by
  induction n generalizing t alts with
  | zero => cases h
  | succ n ih =>
    cases t with
    | uniontype ts =>
      obtain ⟨-, hts⟩ := unionAlternatives_found h
      refine ⟨fun alt halt => ?_, fun hself => absurd rfl (hself.ne_uniontype _)⟩
      cases halt with
      | union ht hown =>
        obtain ⟨own, hexp, hsub⟩ := hts _ ht
        exact hsub ((ih hexp).1 alt hown)
      | single hunion => exact absurd rfl (hunion _)
    | tupletype ts =>
      refine ⟨fun alt halt => ?_, fun hself => ?_⟩
      · cases halt with
        | tuple hlen hown =>
          have hpoint := (forall₂_of_getElem? hlen hown).imp
            fun t u (htu : Alternative P t u) own hexp => (@ih t own hexp).1 u htu
          simpa using tupleAlternatives_found h hpoint (.head _)
        | single _ htuple => exact absurd rfl (htuple _)
      have hts := tupleAlternatives_single h fun t ht own hexp => by
        refine (ih hexp).2 ?_
        cases hself with
        | tuple _ hown =>
          obtain ⟨i, hi⟩ := getElem?_of_mem ht
          exact hown i t t hi hi
        | single _ htuple => exact absurd rfl (htuple _)
      simpa using hts
    | typealiasref d args cap eph =>
      simp only [expandTypeAlternatives] at h
      split at h
      · rename_i hnull
        cases h
        refine ⟨fun alt halt => ?_, fun _ => rfl⟩
        cases halt with
        | unfold ht => rw [hnull] at ht; cases ht
        | folded => exact .head _
        | single _ _ halias => cases halias
      · cases h
      rename_i t' hfound
      refine ⟨fun alt halt => ?_, fun hself => ?_⟩
      · cases halt with
        | unfold ht hown =>
          rw [hfound] at ht
          cases ht
          exact (ih h).1 alt hown
        | folded ht => rw [hfound] at ht; cases ht
        | single _ _ halias => cases halias
      · rw [hself.unfold_eq_null rfl] at hfound
        cases hfound
    | _ =>
      -- any other type is its only alternative
      cases h
      refine ⟨fun alt halt => ?_, fun _ => rfl⟩
      cases halt
      exact .head _

theorem expandTupleUnions_found {n : Nat} {t : Ty}
    (h : expandTupleUnions P n t = some (.found alts)) :
    (∀ alt, Alternative P t alt → alt ∈ alts) ∧ ¬Alternative P t t := by
  unfold expandTupleUnions at h
  split at h
  · rename_i own hown
    split at h
    · cases h
    rename_i hlen
    cases h
    obtain ⟨hall, hself⟩ := expandTypeAlternatives_found hown
    refine ⟨hall, fun halt => hlen ?_⟩
    rw [hself halt, length_singleton]
  · rename_i hne
    exact absurd h (hne alts)

/-! ### A comparison follows by the rules

One lemma for each function of the comparison: if it can come out true with the positive answers
taken from `R`, then the rules give what it decides from premises in `R`. -/

variable (P R) in
/-- The decision can come out true with the positive answers taken from `R`. -/
def HoldsIn (t : Tree) : Prop :=
  t.Holds { p | p.2 ∈ R } fun x y => ∃ n, expandTupleUnions P n x = some y

variable {errorf : Bool} {m : CheckCap}

@[simp] theorem holdsIn_isXSubX {sub : Ty} :
    HoldsIn P R (isXSubX errorf sub super m) ↔ ⟨sub, super, m⟩ ∈ R :=
  Ask.holds_only

theorem HoldsIn.isEqtype {a b : Ty} (h : HoldsIn P R (isEqtype errorf a b)) : EqtypeRule R a b :=
  ⟨holdsIn_isXSubX.1 (of_and h).1, holdsIn_isXSubX.1 (of_and h).2⟩

/-- Two type arguments that are found equal meet the rule for them. -/
theorem HoldsIn.isEqTypearg {index : Nat} {a b : Ty}
    (h : HoldsIn P R (isEqTypearg P errorf aDef bDef index a b)) :
    TypeargRule P R aDef bDef index a b := by
  revert h
  unfold Subtype.isEqTypearg
  split
  · intro h
    obtain ⟨hlit, htype⟩ := of_both h
    exact ⟨hlit, HoldsIn.isEqtype htype⟩
  · exact nofun
  · exact nofun
  rename_i hleft hright _
  intro h
  unfold TypeargRule
  split
  · exact (hleft _ rfl).elim
  · exact (hleft _ rfl).elim
  · exact (hright _ rfl).elim
  · exact HoldsIn.isEqtype h

/-- Two lists of type arguments are equal in number and each pair meets its rule. -/
theorem HoldsIn.isEqTypeargs {aArgs bArgs : List Ty}
    (h : HoldsIn P R (isEqTypeargs P errorf aDef bDef aArgs bArgs)) :
    TypeargsRule P R aDef bDef aArgs bArgs := by
  obtain ⟨heach, hlen⟩ := of_both h
  refine ⟨of_decide_eq_true hlen, fun p hp => ?_⟩
  exact HoldsIn.isEqTypearg (of_each heach _ (mem_map_of_mem hp))

theorem HoldsIn.isParamSuperParam {sub super : Passed}
    (h : HoldsIn P R (isParamSuperParam P errorf sub super)) : ParamRule P R sub super := by
  unfold Subtype.isParamSuperParam at h
  split at h
  · rename_i a b ha hb
    split at h
    · cases errorf with
      | true => cases h
      | false => cases h
    · rename_i hbyval
      exact ⟨a, b, ha, hb, not_not.1 hbyval, holdsIn_isXSubX.1 h⟩
  · cases h

theorem HoldsIn.isReifiedFunSubFun {sub super : Method}
    (h : HoldsIn P R (isReifiedFunSubFun P errorf sub super)) : ReifiedMethodRule P R sub super := by
  have hsignature : ∀ {t : Tree}, HoldsIn P R (t.and (isSignatureSubSignature P errorf sub super)) →
      HoldsIn P R t ∧ (∀ p ∈ sub.typeparams.zip super.typeparams, (⟨p.2, p.1, .eq⟩ : Query) ∈ R) ∧
      (∀ p ∈ sub.params.zip super.params, ParamRule P R p.1 p.2) ∧
      (sub.throws = true → super.throws = true) := by
    intro t h
    obtain ⟨ht, hrest⟩ := of_and h
    obtain ⟨hconstraints, hrest⟩ := of_and hrest
    obtain ⟨hparams, hthrows⟩ := of_and hrest
    refine ⟨ht, fun p hp => ?_, fun p hp => ?_, fun hsub => ?_⟩
    · exact holdsIn_isXSubX.1 (of_every hconstraints _ (mem_map_of_mem hp))
    · exact HoldsIn.isParamSuperParam (of_every hparams _ (mem_map_of_mem hp))
    · simpa [hsub] using hthrows
  unfold Subtype.isReifiedFunSubFun at h
  split at h
  · rename_i hnew
    split at h
    · cases h
    rename_i hreceiver
    obtain ⟨hresult, hconstraints, hparams, hthrows⟩ := hsignature h
    exact ⟨by simpa using hreceiver, holdsIn_isXSubX.1 hresult, fun hkind => absurd hnew hkind,
      hconstraints, hparams, hthrows⟩
  split at h
  · cases h
  split at h
  · cases h
  rename_i hreceiver
  obtain ⟨hresult, hrest⟩ := of_and h
  split at hrest
  · cases hrest
  rename_i hbyval
  obtain ⟨-, hconstraints, hparams, hthrows⟩ := hsignature (t := .done true) hrest
  exact ⟨by simpa using hreceiver, holdsIn_isXSubX.1 hresult,
    fun _ => not_not.1 hbyval, hconstraints, hparams, hthrows⟩

theorem HoldsIn.isFunSubFun {sub super : Method}
    (h : HoldsIn P R (isFunSubFun P errorf sub super)) : MethodRule P R sub super := by
  unfold Subtype.isFunSubFun at h
  split at h
  · rename_i hlike
    exact ⟨hlike, HoldsIn.isReifiedFunSubFun h⟩
  · cases h

/-- A structural match has every method of the supertype matched. -/
theorem HoldsIn.isNominalSubStructural {super : Nominal}
    (h : HoldsIn P R (isNominalSubStructural P errorf sub super)) :
    StructuralRule P R sub super := by
  unfold Subtype.isNominalSubStructural at h
  split at h
  · cases h
  split at h
  · cases h
  rename_i hsupertype
  split at h
  · cases h
  rename_i hbare
  refine ⟨by simpa using hsupertype, not_not.1 hbare, fun m hm => ?_⟩
  have hmember := of_each h _ (mem_map_of_mem hm)
  simp only [isMemberProvided] at hmember
  split at hmember
  · cases hmember
  · rename_i f hf
    exact ⟨f, hf, HoldsIn.isFunSubFun hmember⟩

/-- A comparison with an unfolded alias. -/
theorem HoldsIn.withUnfolded {cap : Option Cap} {k : Ty → Tree}
    (h : HoldsIn P R (withUnfolded P d args cap eph k)) :
    ∃ t, P.typealiasUnfold d args cap eph = .found t ∧ HoldsIn P R (k t) := by
  unfold Subtype.withUnfolded at h
  split at h
  · rename_i t ht
    exact ⟨t, ht, h⟩
  · cases h
  · cases h

theorem HoldsIn.aliasSuper {cap : Option Cap} {sub : Ty}
    (h : HoldsIn P R (Subtype.withUnfolded P d args cap eph fun t => isXSubX errorf sub t m)) :
    Rule P R ⟨sub, .typealiasref d args cap eph, m⟩ := by
  obtain ⟨t, ht, ht'⟩ := HoldsIn.withUnfolded h
  exact .aliasSuper ht (holdsIn_isXSubX.1 ht')

theorem HoldsIn.isXSubIsect {sub : Ty} (h : HoldsIn P R (isXSubIsect errorf sub supers m)) :
    Rule P R ⟨sub, .isecttype supers, m⟩ :=
  .isectSuper fun _ ht =>
    holdsIn_isXSubX.1 (of_every h _ (mem_map_of_mem ht))

theorem HoldsIn.isTupleSubUnion {sub : Ty} (h : HoldsIn P R (isTupleSubUnion sub supers m)) :
    Rule P R ⟨sub, .uniontype supers, m⟩ := by
  unfold Subtype.isTupleSubUnion at h
  split at h
  · obtain ⟨y, ⟨n, hn⟩, h⟩ := h
    cases y with
    | found alts =>
      obtain ⟨hall, hself⟩ := expandTupleUnions_found hn
      refine .distribute hself fun alt halt => ?_
      exact holdsIn_isXSubX.1 (of_every h _ (mem_map_of_mem (hall alt halt)))
    | null => cases h
    | failed => cases h
  · cases h

theorem HoldsIn.isXSubUnion {sub : Ty} (h : HoldsIn P R (isXSubUnion errorf sub supers m)) :
    Rule P R ⟨sub, .uniontype supers, m⟩ := by
  rcases of_or h with h | h
  · obtain ⟨t, ht, h⟩ := of_some h
    obtain ⟨super, hsuper, rfl⟩ := mem_map.1 ht
    exact .unionSuper hsuper (holdsIn_isXSubX.1 h)
  rcases of_or h with h | h
  · exact HoldsIn.isTupleSubUnion h
  split at h
  · rcases of_bind h with ⟨-, h⟩ | h
    · cases h
    · cases h
  · cases h

theorem HoldsIn.isXSubTypeparam {sub : Ty}
    (h : HoldsIn P R (isXSubTypeparam P errorf sub d cap eph m)) :
    Rule P R ⟨sub, .typeparamref d cap eph, m⟩ := by
  unfold Subtype.isXSubTypeparam at h
  split at h
  · rename_i hm
    subst hm
    split at h
    · cases h
    · rename_i hc
      exact .typeparamSuperIgnore hc (holdsIn_isXSubX.1 h)
  rename_i hm
  split at h
  · cases h
  · rename_i hl
    exact .typeparamSuper hm hl (holdsIn_isXSubX.1 h)

theorem HoldsIn.isXSubLower {sub : Ty} (hm : m ≠ .ignore)
    (h : HoldsIn P R (isXSubLower P errorf sub left right m)) :
    Rule P R ⟨sub, .arrow left right, m⟩ := by
  unfold Subtype.isXSubLower at h
  split at h
  · cases h
  · rename_i hl
    exact .arrowSuper hm hl (holdsIn_isXSubX.1 h)

theorem HoldsIn.isXSubArrow {sub : Ty} (h : HoldsIn P R (isXSubArrow P errorf sub left right m)) :
    Rule P R ⟨sub, .arrow left right, m⟩ := by
  unfold Subtype.isXSubArrow at h
  split at h
  · rename_i hm
    subst hm
    exact .arrowSuperIgnore (holdsIn_isXSubX.1 h)
  · rename_i hm
    exact HoldsIn.isXSubLower hm (of_and h).2

/-- A comparison with every type of a list. -/
theorem HoldsIn.every_isXSubX
    (h : HoldsIn P R (.every (ts.map fun sub => isXSubX errorf sub super m))) :
    ∀ t ∈ ts, (⟨t, super, m⟩ : Query) ∈ R :=
  fun _ ht => holdsIn_isXSubX.1 (of_every h _ (mem_map_of_mem ht))

theorem HoldsIn.isTupleSubX (h : HoldsIn P R (isTupleSubX P errorf subs m super)) :
    Rule P R ⟨.tupletype subs, super, m⟩ := by
  cases super with
  | uniontype supers => exact HoldsIn.isXSubUnion h
  | isecttype supers => exact HoldsIn.isXSubIsect h
  | tupletype supers =>
    simp only [Subtype.isTupleSubX, isTupleSubTuple] at h
    split at h
    · cases h
    rename_i hlen
    refine .tuple (not_not.1 hlen) fun p hp => ?_
    exact holdsIn_isXSubX.1 (of_each h _ (mem_map_of_mem hp))
  | nominal d args cap eph =>
    simp only [Subtype.isTupleSubX, isTupleSubNominal] at h
    split at h
    · rename_i htop
      exact .tupleTop htop (HoldsIn.every_isXSubX h)
    · cases h
  | typeparamref d cap eph => exact HoldsIn.isXSubTypeparam h
  | arrow left right => exact HoldsIn.isXSubArrow h
  | typealiasref d args cap eph => exact HoldsIn.aliasSuper h
  | _ => cases h

theorem HoldsIn.nominalProvidesTrait {super : Nominal}
    (h : HoldsIn P R (nominalProvidesTrait P sub super m)) (hkind : P.kind super.defn = .trait)
    (hstruct : P.kind sub.defn ≠ .struct) (hinterface : P.kind sub.defn ≠ .interface)
    (hcap : sub.isSubCap super m = true) : Rule P R ⟨sub.toTy, super.toTy, m⟩ := by
  unfold Subtype.nominalProvidesTrait at h
  split at h
  · cases h
  split at h
  · cases h
  rename_i hbare
  obtain ⟨t, ht, h⟩ := of_some h
  obtain ⟨child, hchild, rfl⟩ := mem_map.1 ht
  split at h
  · cases h
  rename_i ht
  exact .trait hkind hstruct hinterface (by simpa using hbare) hchild ht
    (holdsIn_isXSubX.1 h) hcap

theorem HoldsIn.isNominalSubEntity {super : Nominal} (hkind : P.kind super.defn ≠ .interface)
    (h : HoldsIn P R (isNominalSubEntity P errorf sub super m)) :
    Rule P R ⟨sub.toTy, super.toTy, m⟩ := by
  unfold Subtype.isNominalSubEntity at h
  split at h
  · cases h
  rename_i hdef
  obtain ⟨hargs, hcap⟩ := of_both h
  exact .entity hkind (not_not.1 hdef) (HoldsIn.isEqTypeargs hargs) hcap

theorem HoldsIn.isNominalSubInterface {super : Nominal} (hkind : P.kind super.defn = .interface)
    (h : HoldsIn P R (isNominalSubInterface P errorf sub super m)) :
    Rule P R ⟨sub.toTy, super.toTy, m⟩ := by
  obtain ⟨hpure, hstructural⟩ := of_both h
  simp only [Ask.holds_done, and_eq_true, decide_eq_true_eq] at hpure
  exact .interface hkind hpure.1 hpure.2 (HoldsIn.isNominalSubStructural hstructural)

theorem HoldsIn.isNominalSubTrait {super : Nominal} (hkind : P.kind super.defn = .trait)
    (h : HoldsIn P R (isNominalSubTrait P errorf sub super m)) :
    Rule P R ⟨sub.toTy, super.toTy, m⟩ := by
  have hentity : P.kind sub.defn ≠ .struct → P.kind sub.defn ≠ .interface →
      HoldsIn P R (isEntitySubTrait P sub super m) → Rule P R ⟨sub.toTy, super.toTy, m⟩ := by
    intro hstruct hinterface h
    obtain ⟨hprovides, hcap⟩ := of_and h
    exact HoldsIn.nominalProvidesTrait hprovides hkind hstruct hinterface hcap
  unfold Subtype.isNominalSubTrait at h
  cases hsub : P.kind sub.defn with
  | primitive | «class»
  | actor => exact hentity (by simp [hsub]) (by simp [hsub]) (by simpa [hsub] using h)
  | struct | interface =>
    simp only [hsub] at h
    cases h
  | trait =>
    simp only [hsub] at h
    obtain ⟨h, hcap⟩ := of_both h
    split at h
    · rename_i hdef
      exact .entity (by simp [hkind]) hdef (HoldsIn.isEqTypeargs h) hcap
    · exact HoldsIn.nominalProvidesTrait h hkind (by simp [hsub]) (by simp [hsub]) hcap

/-- Each kind of supertype is decided by a rule of its own. -/
theorem HoldsIn.isNominalSubNominal {sub super : Nominal}
    (h : HoldsIn P R (isNominalSubNominal P errorf sub super m)) :
    Rule P R ⟨sub.toTy, super.toTy, m⟩ := by
  unfold Subtype.isNominalSubNominal at h
  cases hsuper : P.kind super.defn with
  | interface => exact HoldsIn.isNominalSubInterface hsuper (by simpa only [hsuper] using h)
  | trait => exact HoldsIn.isNominalSubTrait hsuper (by simpa only [hsuper] using h)
  | _ => exact HoldsIn.isNominalSubEntity (by simp [hsuper]) (by simpa only [hsuper] using h)

theorem HoldsIn.isNominalSubX {sub : Nominal} {super : Ty}
    (h : HoldsIn P R (isNominalSubX P errorf sub m super)) : Rule P R ⟨sub.toTy, super, m⟩ := by
  cases super with
  | uniontype supers =>
    simp only [Subtype.isNominalSubX] at h
    split at h
    · cases h
    · exact HoldsIn.isXSubUnion h
  | isecttype supers =>
    simp only [Subtype.isNominalSubX] at h
    split at h
    · cases h
    · exact HoldsIn.isXSubIsect h
  | nominal d args cap eph => exact @HoldsIn.isNominalSubNominal P R errorf m sub ⟨d, args, cap, eph⟩ h
  | typeparamref d cap eph => exact HoldsIn.isXSubTypeparam h
  | arrow left right => exact HoldsIn.isXSubArrow h
  | entitytype kind => exact .nominalEntityType h
  | typealiasref d args cap eph => exact HoldsIn.aliasSuper h
  | _ => cases h

/-! ### The comparisons that decompose a supertype without asking -/

/-- What follows from `R` by finitely many rules. -/
abbrev Closed (P : Program) (R : Set Query) : Set Query := Coinduction.closure (rules P) R

theorem Rule.closed (h : Rule P R q) : Rule P (Closed P R) q :=
  h.mono Coinduction.subset_closure

theorem Rule.mem_closed (h : Rule P (Closed P R) q) : q ∈ Closed P R :=
  Coinduction.rule_closure_subset h

/-- The rule for an intersection that is compared with a type which is none and no alias. -/
theorem HoldsIn.some_isXSubX
    (h : HoldsIn P R (.some (subs.map fun sub => isXSubX errorf sub super m))) :
    Rule P R ⟨.isecttype subs, super, m⟩ := by
  obtain ⟨t, ht, h⟩ := of_some h
  obtain ⟨sub, hsub, rfl⟩ := mem_map.1 ht
  exact .isectSub hsub (holdsIn_isXSubX.1 h)

theorem HoldsIn.isIsectSubX : HoldsIn P R (isIsectSubX P errorf subs m super) →
      Rule P (Closed P R) ⟨.isecttype subs, super, m⟩ := by
  refine Ty.induct
    (T := fun super => HoldsIn P R (Subtype.isIsectSubX P errorf subs m super) →
      Rule P (Closed P R) ⟨.isecttype subs, super, m⟩)
    (L := fun supers => HoldsIn P R (isIsectSubIsect P errorf subs m supers) →
      ∀ super ∈ supers, Rule P (Closed P R) ⟨.isecttype subs, super, m⟩)
    ?isect ?arrow ?other ?nil ?cons super
  case isect =>
    intro supers ih h
    exact .isectSuper fun super hsuper => (ih h super hsuper).mem_closed
  case arrow =>
    intro left right _ h
    exact (HoldsIn.some_isXSubX h).closed
  case other =>
    intro t hisect _ h
    cases t with
    | isecttype supers => exact absurd rfl (hisect supers)
    | typealiasref d args cap eph => exact (HoldsIn.aliasSuper h).closed
    | _ => exact (HoldsIn.some_isXSubX h).closed
  case nil => simp
  case cons =>
    intro super supers ih ih' h
    obtain ⟨h, h'⟩ := of_and h
    exact forall_mem_cons.2 ⟨ih h, ih' h'⟩

theorem HoldsIn.isTypeparamUpperSubX
    (h : HoldsIn P R (isTypeparamUpperSubX P errorf d cap eph m super)) :
    Rule P R ⟨.typeparamref d cap eph, super, m⟩ := by
  unfold Subtype.isTypeparamUpperSubX at h
  split at h
  · rename_i hm
    subst hm
    split at h
    · cases h
    · rename_i hc
      exact .typeparamSubIgnore hc (holdsIn_isXSubX.1 h)
  rename_i hm
  split at h
  · cases h
  · rename_i hu
    exact .typeparamSub hm hu (holdsIn_isXSubX.1 h)

theorem HoldsIn.isTypeparamSubView (hm : m ≠ .ignore)
    (h : HoldsIn P R (isTypeparamSubView P errorf (.typeparamref d cap eph) left right m)) :
    Rule P R ⟨.typeparamref d cap eph, .arrow left right, m⟩ := by
  unfold Subtype.isTypeparamSubView at h
  split at h
  · rename_i ha hb
    exact .typeparamSubReified hm ha hb (holdsIn_isXSubX.1 h)
  · cases h
  · exact HoldsIn.isXSubLower hm h

theorem HoldsIn.isTypeparamBaseSubX {subRight : Tree}
    (hright : ∀ left right, super = .arrow left right → HoldsIn P R subRight →
      Rule P (Closed P R) ⟨.typeparamref d cap eph, right, .ignore⟩)
    (h : HoldsIn P R (isTypeparamBaseSubX P d cap eph m subRight super)) :
    Rule P (Closed P R) ⟨.typeparamref d cap eph, super, m⟩ := by
  cases super with
  | uniontype supers => exact (HoldsIn.isXSubUnion h).closed
  | isecttype supers => exact (HoldsIn.isXSubIsect h).closed
  | typeparamref superDef superCap superEph => exact .typeparam h
  | arrow left right =>
    simp only [Subtype.isTypeparamBaseSubX] at h
    split at h
    · rename_i hm
      subst hm
      exact .arrowSuperIgnore (hright left right rfl h).mem_closed
    · rename_i hm
      exact (HoldsIn.isTypeparamSubView hm (of_and h).2).closed
  | typealiasref a args acap aeph => exact (HoldsIn.aliasSuper h).closed
  | _ => cases h

theorem HoldsIn.isTypeparamSubX (h : HoldsIn P R (isTypeparamSubX P d cap eph errorf m super)) :
    Rule P (Closed P R) ⟨.typeparamref d cap eph, super, m⟩ := by
  refine Ty.induct (T := fun super => ∀ (errorf : Bool) (m : CheckCap),
      HoldsIn P R (Subtype.isTypeparamSubX P d cap eph errorf m super) →
        Rule P (Closed P R) ⟨.typeparamref d cap eph, super, m⟩)
    (L := fun _ => True) ?isect ?arrow ?other ?nil ?cons super errorf m h
  case isect =>
    intro supers _ errorf m h
    rcases of_or h with h | h
    · exact HoldsIn.isTypeparamBaseSubX (by simp) h
    · exact (HoldsIn.isTypeparamUpperSubX h).closed
  case arrow =>
    intro left right ih errorf m h
    rcases of_or h with h | h
    · refine HoldsIn.isTypeparamBaseSubX (fun left' right' heq h' => ?_) h
      cases heq
      exact ih _ _ h'
    · exact (HoldsIn.isTypeparamUpperSubX h).closed
  case other =>
    intro t _ harrow errorf m h
    rw [Subtype.isTypeparamSubX.eq_def] at h
    split at h
    · exact absurd rfl (harrow _ _)
    rcases of_or h with h | h
    · exact HoldsIn.isTypeparamBaseSubX (fun left right heq => absurd heq (harrow left right)) h
    · exact (HoldsIn.isTypeparamUpperSubX h).closed
  case nil => trivial
  case cons => exact fun _ _ _ _ => trivial

/-! ### Arrows, and the whole comparison -/

theorem HoldsIn.isArrowSubNominal (h : HoldsIn P R (isArrowSubNominal P errorf left right super m)) :
    Rule P R ⟨.arrow left right, super, m⟩ := by
  unfold Subtype.isArrowSubNominal at h
  split at h
  · rename_i hm
    subst hm
    exact .arrowSubIgnore (holdsIn_isXSubX.1 h)
  rename_i hm
  have hupper := (of_and h).2
  simp only [isUpperSubX] at hupper
  split at hupper
  · cases hupper
  · rename_i hu
    exact .arrowSub hm hu (holdsIn_isXSubX.1 hupper)

theorem HoldsIn.isArrowSubTypeparam
    (h : HoldsIn P R (isArrowSubTypeparam P errorf left right (.typeparamref d cap eph) m)) :
    Rule P R ⟨.arrow left right, .typeparamref d cap eph, m⟩ := by
  unfold Subtype.isArrowSubTypeparam at h
  split at h
  · rename_i hm
    subst hm
    exact .arrowSubIgnore (holdsIn_isXSubX.1 h)
  rename_i hm
  have hreified := (of_and h).2
  split at hreified
  · rename_i ha hb
    exact .typeparamSuperReified hm ha hb (holdsIn_isXSubX.1 hreified)
  · cases hreified
  · exact HoldsIn.isArrowSubNominal hreified

theorem HoldsIn.isArrowSubArrow {left' right' : Ty}
    (h : HoldsIn P R (isArrowSubArrow P errorf left right left' right' m)) :
    Rule P (Closed P R) ⟨.arrow left right, .arrow left' right', m⟩ := by
  unfold Subtype.isArrowSubArrow at h
  split at h
  · rename_i hm
    subst hm
    have hright : Rule P R ⟨right, .arrow left' right', .ignore⟩ :=
      .arrowSuperIgnore (holdsIn_isXSubX.1 h)
    exact .arrowSubIgnore hright.closed.mem_closed
  rename_i hm
  have hrest := (of_and h).2
  split at hrest
  · rename_i hr
    exact (Rule.arrowsReified hm hr (holdsIn_isXSubX.1 hrest)).closed
  split at hrest
  · rename_i hu hl
    exact (Rule.arrows hm hu hl (holdsIn_isXSubX.1 hrest)).closed
  · cases hrest

theorem HoldsIn.isArrowSubX (h : HoldsIn P R (isArrowSubX P errorf left right m super)) :
    Rule P (Closed P R) ⟨.arrow left right, super, m⟩ := by
  cases super with
  | uniontype supers => exact (HoldsIn.isXSubUnion h).closed
  | isecttype supers => exact (HoldsIn.isXSubIsect h).closed
  | nominal d args cap eph => exact (HoldsIn.isArrowSubNominal h).closed
  | typeparamref d cap eph => exact (HoldsIn.isArrowSubTypeparam h).closed
  | arrow left' right' => exact HoldsIn.isArrowSubArrow h
  | typealiasref d args cap eph => exact (HoldsIn.aliasSuper h).closed
  | _ => cases h

theorem HoldsIn.isBoolSingletonSubX {b : Bool}
    (h : HoldsIn P R (isBoolSingletonSubX P errorf b m super)) :
    Rule P (Closed P R) ⟨.boolSingleton b, super, m⟩ := by
  cases super with
  | nominal d args cap eph => exact .bool h
  | typealiasref d args cap eph =>
    obtain ⟨t, ht, h⟩ := HoldsIn.withUnfolded h
    cases t with
    | nominal d' args' cap' eph' => exact .aliasSuper ht (Rule.bool h).mem_closed
    | _ => cases h
  | uniontype supers => exact (HoldsIn.isXSubUnion h).closed
  | _ => cases h

theorem HoldsIn.isSubDispatch {sub super : Ty} (hsub : sub.IsType)
    (h : HoldsIn P R (isSubDispatch P errorf super m sub)) : Rule P (Closed P R) ⟨sub, super, m⟩ := by
  cases sub with
  | uniontype subs => exact (Rule.unionSub (HoldsIn.every_isXSubX h)).closed
  | isecttype subs => exact HoldsIn.isIsectSubX h
  | tupletype subs => exact (HoldsIn.isTupleSubX h).closed
  | nominal d args cap eph =>
    exact (@HoldsIn.isNominalSubX P R errorf m ⟨d, args, cap, eph⟩ super h).closed
  | typeparamref d cap eph => exact HoldsIn.isTypeparamSubX h
  | arrow left right => exact HoldsIn.isArrowSubX h
  | typealiasref d args cap eph =>
    obtain ⟨t, ht, ht'⟩ := HoldsIn.withUnfolded h
    exact (Rule.aliasSub ht (holdsIn_isXSubX.1 ht')).closed
  | funtype | infertype | errortype => cases h
  | entitytype kind =>
    cases super with
    | entitytype kind' =>
      obtain rfl : kind = kind' := of_decide_eq_true h
      exact .entityType
    | _ => cases h
  | boolSingleton b => exact HoldsIn.isBoolSingletonSubX h
  | dontcaretype => exact .dontcareSub
  | valueformalparamref d | valueformalparam d | valueformalarg v | cap c
  | thistype => exact hsub.elim

/-- **A comparison that comes out true follows by rules** from the comparisons that it relied on. -/
theorem impl_sound (hsub : q.sub.IsType) (h : HoldsIn P R (isXSubXImpl P errorf q)) :
    Rule P (Closed P R) q := by
  obtain ⟨sub, super, m⟩ := q
  unfold isXSubXImpl at h
  split at h
  · rename_i hsuper
    subst hsuper
    exact .dontcareSuper
  · rename_i hsub' _
    subst hsub'
    exact .dontcareSub
  · rename_i b c hsuper hsub'
    obtain rfl : c = b := of_decide_eq_true h
    subst hsuper hsub'
    exact .boolSingleton
  · cases h
  · exact HoldsIn.isSubDispatch hsub h

end SpacePony.Subtype
