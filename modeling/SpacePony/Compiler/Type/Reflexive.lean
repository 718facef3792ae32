import SpacePony.Compiler.Type.Termination

/-!
# Type — a type and itself

`is_x_sub_x` takes no shortcut where the two types are the same: it takes them apart and compares
their members, and those of an interface method by method.

It does not always find its way back (`subtype_not_refl`).  Of the comparisons of one interface with
itself only four are made inside one another, and an intersection is not found among the members of
a union.

* `covers_sure`: such a comparison holds if those that it leads to do.
* `subtype_refl`: **a type is a subtype of itself**, unless the guard answers a comparison of a
  nominal type with itself.
-/

namespace SpacePony.Subtype

open List

/-! ### Types that can be compared with themselves -/

section
variable (P : Program) (G : CheckCap → Ty → Prop) (N : Ty → Prop)

/-- A method that can be compared with itself. -/
structure MethodFormed (f : Method) : Prop where
  reified : reifiedSub P f f = f
  receiver : isReceiverSub f f = true
  result : G .sub f.result.type
  typeparams : ∀ t ∈ f.typeparams, G .eq t
  params : ∀ p ∈ f.params, ∃ c, P.consumeType p = some c ∧ G .sub c.type

/-- An argument of a definition, at an index. -/
def TypeargFormed (d index : Nat) : Ty → Prop
  | .valueformalarg v => isLiteralEqual v v = true ∧ G .sub (P.valueParamType d index)
  | t => G .sub t

/-- A nominal type whose capability can be compared with itself, and its arguments or its
methods. -/
structure NominalFormed (m : CheckCap) (t : Nominal) : Prop where
  cap : t.isSubCap t m = true
  typeargs : P.kind t.defn ≠ .interface → ∀ p ∈ t.typeargs.zipIdx, TypeargFormed P G t.defn p.2 p.1
  nosupertype : P.kind t.defn = .interface → P.nosupertype t.defn = false
  members : P.kind t.defn = .interface → ∀ f ∈ P.members t.defn, P.get t.defn f.name = some f ∧
    MethodFormed P G (P.reifyMethodDef t.defn t.typeargs f)

/-- An arrow that is the same on both sides, for all capabilities or between its bounds. -/
def ArrowFormed (m : CheckCap) (left right : Ty) : Prop :=
  G .ignore right ∧ (m ≠ .ignore →
    match P.viewpointReifypair (.arrow left right) (.arrow left right) with
    | some (a, b) => a = b ∧ G m a
    | none => ∃ t, P.viewpointUpper left right = some t ∧ P.viewpointLower left right = some t ∧
        G m t)

/-- A type that can be compared with itself, where the types in `G` can and those in `N` can be
members of unions. -/
def Formed (m : CheckCap) : Ty → Prop
  | .nominal d args cap eph => NominalFormed P G m ⟨d, args, cap, eph⟩
  | .typealiasref d args cap eph => ∃ t, P.typealiasUnfold d args cap eph = .found t ∧ G m t
  | .uniontype ts => ∀ t ∈ ts, G m t ∧ N t
  | .isecttype ts | .tupletype ts => ∀ t ∈ ts, G m t
  | .arrow left right => ArrowFormed P G m left right
  | .typeparamref .. | .dontcaretype => True
  | _ => False

/-- A member of a union: no intersection, also not as an alias, and no bare type. -/
def Single : Ty → Prop
  | .nominal d _ _ _ => P.bare d = false
  | .typealiasref d args cap eph => ∀ t, P.typealiasUnfold d args cap eph = .found t → N t
  | .uniontype ts => ∀ t ∈ ts, N t
  | .tupletype _ | .typeparamref .. | .arrow .. | .dontcaretype => True
  | _ => False

/-- Types that are made of one another. -/
structure WellFormed : Prop where
  formed : ∀ m t, G m t → Formed P G N m t
  single : ∀ t, N t → Single P N t

/-- The second type covers the first, because they are the same once they are taken apart. -/
inductive Covers (m : CheckCap) : Ty → Ty → Prop where
  | refl {t : Ty} (h : G m t) : Covers m t t
  | member {s t : Ty} {ts : List Ty} (hs : N s) (ht : t ∈ ts) (h : Covers m s t) :
      Covers m s (.uniontype ts)
  | unfoldSuper {s t : Ty} {d : Nat} {args : List Ty} {cap : Option Cap} {eph : Eph}
      (ht : P.typealiasUnfold d args cap eph = .found t) (h : Covers m s t) :
      Covers m s (.typealiasref d args cap eph)
  | isect {s t : Ty} {ss : List Ty} (hs : s ∈ ss) (h : Covers m s t) : Covers m (.isecttype ss) t
  | unfoldSub {s t : Ty} {d : Nat} {args : List Ty} {cap : Option Cap} {eph : Eph}
      (hs : P.typealiasUnfold d args cap eph = .found s) (h : Covers m s t) :
      Covers m (.typealiasref d args cap eph) t

/-- The comparisons of types that cover one another. -/
def covered : Set (Bool × Query) := { e | Covers P G N e.2.checkCap e.2.sub e.2.super }

end

variable {ss args ts : List Ty} {d : Nat} {cap : Option Cap} {eph : Eph}

section
variable {P : Program} {G : CheckCap → Ty → Prop} {N : Ty → Prop} {m : CheckCap} {s t : Ty}

/-- The types that are compared. -/
def Ty.Proper : Ty → Prop
  | .nominal .. | .typealiasref .. | .uniontype _ | .isecttype _ | .tupletype _ | .arrow ..
  | .typeparamref .. | .dontcaretype => True
  | _ => False

namespace Covers

section
variable (hW : WellFormed P G N)
include hW

theorem proper (h : Covers P G N m s t) : s.Proper ∧ t.Proper := by
  induction h with
  | @refl t h =>
    have hformed := hW.formed m t h
    cases t <;> first | exact ⟨trivial, trivial⟩ | exact hformed.elim
  | member _ _ _ ih | unfoldSuper _ _ ih => exact ⟨ih.1, trivial⟩
  | isect _ _ ih | unfoldSub _ _ ih => exact ⟨trivial, ih.2⟩

/-- The members of a union that is covered. -/
theorem of_union (h : Covers P G N m (.uniontype ss) t) : ∀ s ∈ ss, Covers P G N m s t := by
  generalize hu : Ty.uniontype ss = u at h
  induction h with
  | refl h =>
    subst hu
    intro s hs
    obtain ⟨hG, hN⟩ := hW.formed m _ h s hs
    exact .member hN hs (.refl hG)
  | member hs ht _ ih =>
    subst hu
    exact fun s hmem => .member (hW.single _ hs s hmem) ht (ih rfl s hmem)
  | unfoldSuper ht _ ih => exact fun s hs => .unfoldSuper ht (ih hu s hs)
  | isect | unfoldSub => cases hu

/-- The unfolding of an alias that is covered. -/
theorem of_aliasSub (h : Covers P G N m (.typealiasref d args cap eph) t) :
    ∃ s, P.typealiasUnfold d args cap eph = .found s ∧ Covers P G N m s t := by
  generalize hu : Ty.typealiasref d args cap eph = u at h
  induction h with
  | refl h =>
    subst hu
    obtain ⟨s, hs, hG⟩ := hW.formed m _ h
    exact ⟨s, hs, .unfoldSuper hs (.refl hG)⟩
  | member hN ht _ ih =>
    subst hu
    obtain ⟨s, hs, hcovers⟩ := ih rfl
    exact ⟨s, hs, .member (hW.single _ hN s hs) ht hcovers⟩
  | unfoldSuper ht _ ih =>
    obtain ⟨s, hs, hcovers⟩ := ih hu
    exact ⟨s, hs, .unfoldSuper ht hcovers⟩
  | isect => cases hu
  | unfoldSub hs h _ =>
    cases hu
    exact ⟨_, hs, h⟩

/-- The members of an intersection that covers. -/
theorem of_isect (h : Covers P G N m s (.isecttype ts)) : ∀ t ∈ ts, Covers P G N m s t := by
  generalize hu : Ty.isecttype ts = u at h
  induction h with
  | refl h =>
    subst hu
    exact fun t ht => .isect ht (.refl (hW.formed m _ h t ht))
  | member | unfoldSuper => cases hu
  | isect hs _ ih => exact fun t ht => .isect hs (ih hu t ht)
  | unfoldSub hs _ ih => exact fun t ht => .unfoldSub hs (ih hu t ht)

/-- The unfolding of an alias that covers. -/
theorem of_aliasSuper (h : Covers P G N m s (.typealiasref d args cap eph)) :
    ∃ t, P.typealiasUnfold d args cap eph = .found t ∧ Covers P G N m s t := by
  generalize hu : Ty.typealiasref d args cap eph = u at h
  induction h with
  | refl h =>
    subst hu
    obtain ⟨t, ht, hG⟩ := hW.formed m _ h
    exact ⟨t, ht, .unfoldSub ht (.refl hG)⟩
  | member => cases hu
  | unfoldSuper ht h _ =>
    cases hu
    exact ⟨_, ht, h⟩
  | isect hs _ ih =>
    obtain ⟨t, ht, h⟩ := ih hu
    exact ⟨t, ht, .isect hs h⟩
  | unfoldSub hs _ ih =>
    obtain ⟨t, ht, h⟩ := ih hu
    exact ⟨t, ht, .unfoldSub hs h⟩

/-- One member of an intersection is covered by what is none. -/
theorem of_isectSub (h : Covers P G N m (.isecttype ss) t)
    (hisect : ∀ ts, t ≠ .isecttype ts) (halias : t.isTypealiasref = false) :
    ∃ s ∈ ss, Covers P G N m s t := by
  cases h with
  | refl => exact absurd rfl (hisect _)
  | member hs => exact (hW.single _ hs).elim
  | unfoldSuper => cases halias
  | isect hs h => exact ⟨_, hs, h⟩

end

/-- A type that is not taken apart before its supertype. -/
def Plain : Ty → Prop
  | .uniontype _ | .isecttype _ | .typealiasref .. => False
  | _ => True

/-- One member of a union covers it. -/
theorem of_unionSuper (hs : Plain s) (h : Covers P G N m s (.uniontype ts)) :
    N s ∧ ∃ t ∈ ts, Covers P G N m s t := by
  cases h with
  | refl => exact hs.elim
  | member hN ht h => exact ⟨hN, _, ht, h⟩
  | isect | unfoldSub => exact hs.elim

/-- Otherwise the types are the same. -/
theorem eq_of_plain (hs : Plain s) (ht : (∀ ts, t ≠ .uniontype ts) ∧ t.isTypealiasref = false)
    (h : Covers P G N m s t) : s = t ∧ G m t := by
  cases h with
  | refl h => exact ⟨rfl, h⟩
  | member => exact absurd rfl (ht.1 _)
  | unfoldSuper => cases ht.2
  | isect | unfoldSub => exact hs.elim

end Covers

end

/-! ### A comparison of types that cover one another -/

section
variable {P : Program} {G : CheckCap → Ty → Prop} {N : Ty → Prop} {m : CheckCap} {s t : Ty}
  {errorf : Bool}

/-- The decision does not come out false as long as types cover one another. -/
abbrev Certain (P : Program) (G : CheckCap → Ty → Prop) (N : Ty → Prop) (t : Tree) : Prop :=
  t.Sure (covered P G N)

theorem certain_isXSubX (h : Covers P G N m s t) : Certain P G N (isXSubX errorf s t m) :=
  Ask.sure_only h

variable {α : Type} {l : List α} {f : α → Tree}

theorem certain_every (h : ∀ a ∈ l, Certain P G N (f a)) : Certain P G N (.every (l.map f)) := by
  refine Ask.Sure.every fun t ht => ?_
  obtain ⟨a, ha, rfl⟩ := mem_map.1 ht
  exact h a ha

theorem certain_each (h : ∀ a ∈ l, Certain P G N (f a)) : Certain P G N (.each (l.map f)) := by
  refine Ask.Sure.each fun t ht => ?_
  obtain ⟨a, ha, rfl⟩ := mem_map.1 ht
  exact h a ha

theorem certain_some (h : ∃ a ∈ l, Certain P G N (f a)) : Certain P G N (.some (l.map f)) := by
  obtain ⟨a, ha, hf⟩ := h
  exact Ask.Sure.some ⟨f a, mem_map_of_mem ha, hf⟩

theorem certain_isEqtype (h : G .sub t) : Certain P G N (isEqtype errorf t t) :=
  (certain_isXSubX (.refl h)).and (certain_isXSubX (.refl h))

theorem mem_zip_self {p : α × α} (h : p ∈ l.zip l) : p.1 = p.2 ∧ p.1 ∈ l := by
  induction l with
  | nil => cases h
  | cons a l ih =>
    rcases mem_cons.1 h with rfl | h
    · exact ⟨rfl, .head _⟩
    · exact ⟨(ih h).1, .tail _ (ih h).2⟩

theorem zip_self (l : List α) : l.zip l = l.map fun a => (a, a) := by
  induction l with
  | nil => rfl
  | cons a l ih => rw [zip_cons_cons, ih, map_cons]

theorem certain_isEqTypeargs (h : ∀ p ∈ args.zipIdx, TypeargFormed P G d p.2 p.1) :
    Certain P G N (isEqTypeargs P errorf d d args args) := by
  refine Ask.Sure.both (certain_each fun p hp => ?_) (by simp [Ask.Sure])
  obtain ⟨⟨a, b⟩, index⟩ := p
  rw [zip_self, zipIdx_map] at hp
  obtain ⟨⟨a', index'⟩, hmem, ⟨⟩⟩ := mem_map.1 hp
  have hformed := h _ hmem
  show Certain P G N (isEqTypearg P errorf d d _ a a)
  cases a with
  | valueformalarg v => exact Ask.Sure.both hformed.1 (certain_isEqtype hformed.2)
  | _ => exact certain_isEqtype hformed

theorem certain_isFunSubFun {f : Method} (h : MethodFormed P G f) :
    Certain P G N (isFunSubFun P errorf f f) := by
  have hlike : isFunLikeFun f f = true := by simp [isFunLikeFun]
  have hresult : Certain P G N (isSubtype errorf f.result.type f.result.type) :=
    certain_isXSubX (.refl h.result)
  have hsignature : Certain P G N (isSignatureSubSignature P errorf f f) := by
    refine Ask.Sure.and (certain_every fun p hp => ?_)
      (Ask.Sure.and (certain_every fun p hp => ?_) (by simp [Ask.Sure]))
    · obtain ⟨heq, hmem⟩ := mem_zip_self hp
      rw [← heq]
      exact certain_isXSubX (.refl (h.typeparams _ hmem))
    obtain ⟨heq, hmem⟩ := mem_zip_self hp
    obtain ⟨c, hc, hG⟩ := h.params _ hmem
    rw [← heq, isParamSuperParam, hc]
    simp only [ne_eq, not_true_eq_false, if_false]
    exact certain_isXSubX (.refl hG)
  rw [isFunSubFun, if_pos hlike, h.reified, isReifiedFunSubFun]
  split
  · rw [h.receiver]
    exact hresult.and hsignature
  · rw [if_neg (not_not.2 rfl), h.receiver, if_neg (not_not.2 rfl)]
    exact hresult.and hsignature

theorem certain_isNominalSubNominal {t : Nominal} (h : NominalFormed P G m t) :
    Certain P G N (isNominalSubNominal P errorf t t m) := by
  have hcap : Certain P G N (.done (t.isSubCap t m)) := h.cap
  have hentity : P.kind t.defn ≠ .interface →
      Certain P G N (isNominalSubEntity P errorf t t m) := by
    intro hkind
    rw [isNominalSubEntity, if_neg (not_not.2 rfl)]
    exact (certain_isEqTypeargs (h.typeargs hkind)).both hcap
  unfold isNominalSubNominal
  cases hkind : P.kind t.defn with
  | primitive | struct | «class» | actor => exact hentity (by rw [hkind]; nofun)
  | interface =>
    refine Ask.Sure.both (by simp [Ask.Sure, hkind, h.cap]) ?_
    rw [isNominalSubStructural]
    split
    · trivial
    rw [h.nosupertype hkind, if_neg nofun, if_neg (not_not.2 rfl)]
    refine certain_each fun f hf => ?_
    obtain ⟨hget, hformed⟩ := h.members hkind f hf
    rw [isMemberProvided, hget]
    exact certain_isFunSubFun hformed
  | trait =>
    show Certain P G N (isNominalSubTrait P errorf t t m)
    rw [isNominalSubTrait, hkind]
    show Certain P G N (isTraitSubTrait P errorf t t m)
    rw [isTraitSubTrait, if_pos rfl]
    exact (certain_isEqTypeargs (h.typeargs (by rw [hkind]; nofun))).both hcap

/-! #### Types that are taken apart -/

theorem certain_aliasSuper (hW : WellFormed P G N)
    (h : Covers P G N m s (.typealiasref d args cap eph)) :
    Certain P G N (withUnfolded P d args cap eph fun t => isXSubX errorf s t m) := by
  obtain ⟨t, ht, hcovers⟩ := h.of_aliasSuper hW
  rw [withUnfolded, ht]
  exact certain_isXSubX hcovers

theorem certain_isXSubUnion (h : ∃ t ∈ ts, Covers P G N m s t) :
    Certain P G N (isXSubUnion errorf s ts m) := by
  obtain ⟨t, ht, hcovers⟩ := h
  exact Ask.Sure.or_left (certain_some ⟨t, ht, certain_isXSubX hcovers⟩)

/-- By the intersections in the supertype. -/
theorem certain_isIsectSubX (hW : WellFormed P G N) (h : Covers P G N m (.isecttype ss) t) :
    Certain P G N (isIsectSubX P errorf ss m t) := by
  revert h
  refine Ty.induct
    (T := fun t => Covers P G N m (.isecttype ss) t → Certain P G N (isIsectSubX P errorf ss m t))
    (L := fun ts => (∀ t ∈ ts, Covers P G N m (.isecttype ss) t) →
      Certain P G N (isIsectSubIsect P errorf ss m ts)) ?_ ?_ ?_ ?_ ?_ t
  · intro ts ih h
    rw [isIsectSubX]
    exact ih (h.of_isect hW)
  · intro left right _ h
    obtain ⟨s, hs, hcovers⟩ := h.of_isectSub hW (by simp) rfl
    rw [isIsectSubX]
    · exact certain_some ⟨s, hs, certain_isXSubX hcovers⟩
    all_goals simp
  · intro t hisect harrow h
    unfold isIsectSubX
    split
    · exact absurd rfl (hisect _)
    · exact certain_aliasSuper hW h
    rename_i halias
    have hnone : t.isTypealiasref = false := by
      cases t with
      | typealiasref => exact absurd rfl (halias _ _ _ _)
      | _ => rfl
    obtain ⟨s, hs, hcovers⟩ := h.of_isectSub hW hisect hnone
    exact certain_some ⟨s, hs, certain_isXSubX hcovers⟩
  · intro _
    rw [isIsectSubIsect]
    rfl
  · intro t ts ht hts h
    obtain ⟨h₁, h₂⟩ := forall_mem_cons.1 h
    rw [isIsectSubIsect]
    exact (ht h₁).and (hts h₂)

/-- What a type that is not taken apart first is compared with: a union, an alias, or itself. -/
theorem certain_plain {f : Ty → Tree} (hs : Covers.Plain s)
    (hunion : ∀ ts, N s → (∃ t ∈ ts, Covers P G N m s t) → Certain P G N (f (.uniontype ts)))
    (halias : ∀ d args cap eph, Covers P G N m s (.typealiasref d args cap eph) →
      Certain P G N (f (.typealiasref d args cap eph)))
    (hself : G m s → Certain P G N (f s)) (h : Covers P G N m s t) : Certain P G N (f t) := by
  cases t with
  | uniontype ts =>
    obtain ⟨hN, hex⟩ := h.of_unionSuper hs
    exact hunion ts hN hex
  | typealiasref d args cap eph => exact halias d args cap eph h
  | _ =>
    obtain ⟨rfl, hG⟩ := h.eq_of_plain hs ⟨by simp, rfl⟩
    exact hself hG

theorem certain_isTupleSubX (hW : WellFormed P G N) (h : Covers P G N m (.tupletype ss) t) :
    Certain P G N (isTupleSubX P errorf ss m t) := by
  refine certain_plain (s := .tupletype ss) (f := isTupleSubX P errorf ss m) trivial
    (fun ts _ h => ?_) (fun d args cap eph h => certain_aliasSuper hW h) (fun hG => ?_) h
  · exact certain_isXSubUnion h
  show Certain P G N (isTupleSubTuple errorf ss ss m)
  rw [isTupleSubTuple, if_neg (not_not.2 rfl)]
  refine certain_each fun p hp => ?_
  obtain ⟨heq, hmem⟩ := mem_zip_self hp
  rw [← heq]
  exact certain_isXSubX (.refl (hW.formed m _ hG _ hmem))

theorem certain_isNominalSubX (hW : WellFormed P G N) {s : Nominal}
    (h : Covers P G N m s.toTy t) : Certain P G N (isNominalSubX P errorf s m t) := by
  refine certain_plain (s := s.toTy) (f := isNominalSubX P errorf s m) trivial (fun ts hN h => ?_)
    (fun d args cap eph h => certain_aliasSuper hW h) (fun hG => ?_) h
  · have hbare : P.bare s.defn = false := hW.single _ hN
    rw [isNominalSubX, hbare]
    exact certain_isXSubUnion h
  · exact certain_isNominalSubNominal (hW.formed m _ hG)

/-- A capability and itself, where the bounds are the same. -/
theorem isSubCapAndEph_self {cap : Cap} (h : m ≠ .sub) :
    isSubCapAndEph cap eph cap eph m = true := by
  cases m with
  | sub => exact absurd rfl h
  | eq => simp [isSubCapAndEph, isCapSubCapConstraint]
  | bound => simp [isSubCapAndEph, isCapSubCapBound]
  | ignore => rfl

theorem certain_isTypeparamSubX (hW : WellFormed P G N) {cap : Cap}
    (h : Covers P G N m (.typeparamref d cap eph) t) :
    Certain P G N (isTypeparamSubX P d cap eph errorf m t) := by
  refine certain_plain (s := .typeparamref d cap eph) (f := isTypeparamSubX P d cap eph errorf m)
    trivial (fun ts _ h => ?_) (fun d args cap eph h => ?_) (fun hG => ?_) h
  · rw [isTypeparamSubX]
    · exact Ask.Sure.or_left (certain_isXSubUnion h)
    · simp
  · rw [isTypeparamSubX]
    · exact Ask.Sure.or_left (certain_aliasSuper hW h)
    · simp
  rw [isTypeparamSubX]
  · refine Ask.Sure.or_left ?_
    show isTypeparamSubTypeparam P d cap eph d cap eph m = true
    rw [isTypeparamSubTypeparam, decide_eq_true rfl, Bool.true_and]
    exact isSubCapAndEph_self (by cases m <;> simp)
  · simp

theorem certain_isArrowSubX (hW : WellFormed P G N) {left right : Ty}
    (h : Covers P G N m (.arrow left right) t) :
    Certain P G N (isArrowSubX P errorf left right m t) := by
  refine certain_plain (s := .arrow left right) (f := isArrowSubX P errorf left right m) trivial
    (fun ts _ h => ?_) (fun d args cap eph h => certain_aliasSuper hW h) (fun hG => ?_) h
  · exact certain_isXSubUnion h
  obtain ⟨hright, hview⟩ := hW.formed m _ hG
  show Certain P G N (isArrowSubArrow P errorf left right left right m)
  rw [isArrowSubArrow]
  split
  · exact certain_isXSubX (.refl hright)
  rename_i hm
  have hview := hview hm
  refine Ask.Sure.and (certain_isXSubX (.refl hright)) ?_
  split
  · rename_i a b hpair
    rw [hpair] at hview
    obtain ⟨rfl, hG⟩ := hview
    exact certain_isXSubX (.refl hG)
  rename_i hpair
  rw [hpair] at hview
  obtain ⟨u, hupper, hlower, hG⟩ := hview
  rw [hupper, hlower]
  exact certain_isXSubX (.refl hG)

/-- **A comparison of types that cover one another** does not come out false as long as those that
it leads to do not. -/
theorem covers_sure (hW : WellFormed P G N) {q : Query}
    (h : Covers P G N q.checkCap q.sub q.super) : Certain P G N (isXSubXImpl P errorf q) := by
  obtain ⟨s, t, m⟩ := q
  obtain ⟨hs, ht⟩ := h.proper hW
  have hdispatch : Certain P G N (isSubDispatch P errorf t m s) := by
    cases s with
    | uniontype ss =>
      exact certain_every fun s hs => certain_isXSubX (h.of_union hW s hs)
    | isecttype ss => exact certain_isIsectSubX hW h
    | tupletype ss => exact certain_isTupleSubX hW h
    | nominal d args cap eph =>
      have h : Covers P G N m (Nominal.toTy ⟨d, args, cap, eph⟩) t := h
      exact certain_isNominalSubX hW h
    | typeparamref d cap eph => exact certain_isTypeparamSubX hW h
    | arrow left right => exact certain_isArrowSubX hW h
    | typealiasref d args cap eph =>
      obtain ⟨u, hu, hcovers⟩ := h.of_aliasSub hW
      show Certain P G N (withUnfolded P d args cap eph fun u => isXSubX errorf u t m)
      rw [withUnfolded, hu]
      exact certain_isXSubX hcovers
    | dontcaretype => rfl
    | _ => exact hs.elim
  unfold isXSubXImpl
  split
  · rfl
  · rfl
  · rename_i heq _
    cases heq
    exact ht.elim
  · rename_i heq _ _
    cases heq
    exact ht.elim
  · exact hdispatch

end

/-! ### A note of what the guard answers -/

/-- `is_x_sub_x` with a note of the comparisons that the divergence guard answers. -/
def isXSubXNoted (P : Program) : Nat → Bool × Query → State × List Query →
    Outcome × State × List Query
  | 0, _, s => (.timeout, s)
  | n + 1, (errorf, q), (s, bails) =>
    let s := s.clear
    match s.lookup errorf q with
    | some entry => (.answer entry.result, s.reuse entry q, bails)
    | none =>
      match verdict s.stack q with
      | .bail => (.answer false, s.poison, bails ++ [q])
      | .cycle index => (.answer true, s.cycle index q, bails)
      | v =>
        let inner := (isXSubXImpl P errorf q).run (isXSubXNoted P n) (expandTupleUnions P n)
          (s.descend (v.push s.stack q) errorf q, bails)
        (inner.1, s.leave errorf q inner.1 inner.2.1, inner.2.2)

section
variable {P : Program} {G : CheckCap → Ty → Prop} {N : Ty → Prop} {m : CheckCap} {errorf : Bool}

/-- The note changes nothing. -/
theorem isXSubXNoted_erase (n : Nat) (e : Bool × Query) (s : State × List Query) :
    (isXSubXNoted P n e s).1 = (isXSubXCached P n e s.1).1 ∧
      (isXSubXNoted P n e s).2.1 = (isXSubXCached P n e s.1).2 := by
  induction n generalizing e s with
  | zero => exact ⟨rfl, rfl⟩
  | succ n ih =>
    obtain ⟨errorf, q⟩ := e
    obtain ⟨s, bails⟩ := s
    have hinner := fun stack : List Query => Ask.run_erase (h := Prod.fst)
      (o := isXSubXCached P n) (u := isXSubXNoted P n) (f := expandTupleUnions P n) ih
      (isXSubXImpl P errorf q) (s.clear.descend stack errorf q, bails)
    simp only [isXSubXNoted, isXSubXCached]
    cases s.clear.lookup errorf q with
    | some entry => exact ⟨rfl, rfl⟩
    | none =>
      cases verdict s.clear.stack q with
      | bail | cycle index => exact ⟨rfl, rfl⟩
      | plain =>
        obtain ⟨h₁, h₂⟩ := hinner (Verdict.plain.push s.clear.stack q)
        exact ⟨h₁, by simp only [h₁, h₂]⟩
      | enter =>
        obtain ⟨h₁, h₂⟩ := hinner (Verdict.enter.push s.clear.stack q)
        exact ⟨h₁, by simp only [h₁, h₂]⟩

/-- Nothing is taken off the notes. -/
theorem isXSubXNoted_bails (n : Nat) (e : Bool × Query) (s : State × List Query) :
    s.2 ⊆ (isXSubXNoted P n e s).2.2 := by
  induction n generalizing e s with
  | zero => exact List.Subset.refl _
  | succ n ih =>
    obtain ⟨errorf, q⟩ := e
    obtain ⟨s, bails⟩ := s
    have hinner := fun stack : List Query => (isXSubXImpl P errorf q).run_rel
      (R := fun a b : State × List Query => a.2 ⊆ b.2) (f := expandTupleUnions P n)
      (fun _ => List.Subset.refl _) List.Subset.trans ih (s.clear.descend stack errorf q, bails)
    simp only [isXSubXNoted]
    cases s.clear.lookup errorf q with
    | some entry => exact List.Subset.refl _
    | none =>
      cases verdict s.clear.stack q with
      | bail => exact subset_append_left ..
      | cycle index => exact List.Subset.refl _
      | plain | enter => exact hinner _

/-- Whatever is used of the cache was recorded for the same comparison, and the guard answered no
comparison of a nominal type with itself. -/
structure Undisturbed (s : State × List Query) : Prop where
  reuse : ∀ entry asked stack, .reuse entry asked stack ∈ s.1.log → entry.query = asked
  bails : ∀ q ∈ s.2, q.sub ≠ q.super

variable {s : State × List Query}

theorem Undisturbed.mono {s' : State × List Query} (h : Undisturbed s') (hlog : s.1.log ⊆ s'.1.log)
    (hbails : s.2 ⊆ s'.2) : Undisturbed s :=
  ⟨fun entry asked stack hev => h.reuse entry asked stack (hlog hev),
    fun q hq => h.bails q (hbails hq)⟩

theorem Undisturbed.before {n : Nat} {e : Bool × Query} (h : Undisturbed (isXSubXNoted P n e s).2) :
    Undisturbed s := by
  refine h.mono ?_ (isXSubXNoted_bails n e s)
  rw [(isXSubXNoted_erase n e s).2]
  exact (isXSubXCached_extends n e s.1).log

/-- What the cache has of types that cover one another is true. -/
def Covering (P : Program) (G : CheckCap → Ty → Prop) (N : Ty → Prop) (s : State × List Query) :
    Prop :=
  ∀ k entry, s.1.cache k = some entry →
    Covers P G N entry.query.checkCap entry.query.sub entry.query.super → entry.result = true

theorem Covering.clear (h : Covering P G N s) : Covering P G N (s.1.clear, s.2) := by
  unfold State.clear
  split
  · exact fun _ _ hentry => nomatch hentry
  · exact h

/-- Types that cover one another are the same where the guard answers. -/
theorem eq_of_bail {stack : List Query} {q : Query} (hv : verdict stack q = .bail)
    (h : Covers P G N q.checkCap q.sub q.super) : q.sub = q.super := by
  obtain ⟨s, t, m⟩ := q
  have hnominal : (Query.mk s t m).nominalDefs ≠ none := by
    intro hnone
    unfold verdict at hv
    rw [hnone, Option.any_none, if_neg Bool.false_ne_true] at hv
    split at hv
    · cases hv
    · split at hv <;> cases hv
  cases s with
  | nominal d args cap eph =>
    cases t with
    | nominal d' args' cap' eph' =>
      exact (Covers.eq_of_plain (s := .nominal d args cap eph) trivial ⟨by simp, rfl⟩ h).1
    | _ => exact absurd rfl hnominal
  | _ => exact absurd rfl hnominal

/-- **Along an undisturbed run** no comparison of types that cover one another comes out false, and
none is recorded as false. -/
theorem covers_noted (hW : WellFormed P G N) (n : Nat) (e : Bool × Query) (s : State × List Query)
    (hs : Covering P G N s) (hend : Undisturbed (isXSubXNoted P n e s).2) :
    Covering P G N (isXSubXNoted P n e s).2 ∧
      (e ∈ covered P G N → (isXSubXNoted P n e s).1 ≠ .answer false) := by
  induction n generalizing e s with
  | zero => exact ⟨hs, fun _ => nofun⟩
  | succ n ih =>
    obtain ⟨errorf, q⟩ := e
    obtain ⟨s, bails⟩ := s
    have hclear := hs.clear
    have hgo : ∀ stack : List Query, ∀ inner, (isXSubXImpl P errorf q).run (isXSubXNoted P n)
          (expandTupleUnions P n) (s.clear.descend stack errorf q, bails) = inner →
        Undisturbed (s.clear.leave errorf q inner.1 inner.2.1, inner.2.2) →
        Covering P G N (s.clear.leave errorf q inner.1 inner.2.1, inner.2.2) ∧
          (Covers P G N q.checkCap q.sub q.super → inner.1 ≠ .answer false) := by
      intro stack inner hinner hleave
      have hafter : Undisturbed inner.2 :=
        hleave.mono (subset_append_left ..) (List.Subset.refl _)
      have hcover : Covering P G N inner.2 := by
        subst hinner
        exact Ask.run_invariant (fun e s hs h => (ih e s hs h).1) (fun e s h => h.before) _ _
          hclear hafter
      have hsure : Covers P G N q.checkCap q.sub q.super → inner.1 ≠ .answer false := by
        intro hq
        subst hinner
        exact (covers_sure hW hq).run_ne_false (fun e s hs h => (ih e s hs h).1)
          (fun e s h => h.before) (fun e he s hs h => (ih e s hs h).2 he) hclear hafter
      refine ⟨fun k entry hentry hq => ?_, hsure⟩
      rcases State.leave_cache hentry with hentry | ⟨-, hnew⟩
      · exact hcover k entry hentry hq
      obtain ⟨-, hresult, hquery, -⟩ := State.newEntry_some hnew
      rw [hquery] at hq
      have hne := hsure hq
      rw [hresult] at hne
      cases hentry : entry.result with
      | true => rfl
      | false => exact absurd (congrArg Outcome.answer hentry) hne
    simp only [isXSubXNoted] at hend ⊢
    cases hlookup : s.clear.lookup errorf q with
    | some entry =>
      simp only [hlookup] at hend ⊢
      refine ⟨?_, fun hq => ?_⟩
      · rw [Covering, State.reuse_cache]
        exact hclear
      have heq := hend.reuse entry q _ (s.clear.mem_reuse_log entry q)
      subst heq
      rw [hclear _ entry (State.lookup_some hlookup).2 hq]
      exact nofun
    | none =>
      simp only [hlookup] at hend ⊢
      cases hv : verdict s.clear.stack q with
      | bail =>
        simp only [hv] at hend ⊢
        refine ⟨hclear, fun hq => ?_⟩
        exact absurd (eq_of_bail hv hq)
          (hend.bails q (mem_append_right _ (.head _)))
      | cycle index => exact ⟨hclear, fun _ => nofun⟩
      | plain | enter =>
        simp only [hv] at hend ⊢
        exact hgo _ _ rfl hend

/-- What is left in a cache from before makes no difference. -/
theorem isXSubXNoted_idle (n : Nat) (e : Bool × Query) (cache : List Word → Option Entry)
    (minMatchIdx : Option Nat) (subtreePoisoned : Bool) :
    isXSubXNoted P (n + 1) e (State.idle cache minMatchIdx subtreePoisoned, []) =
      isXSubXNoted P (n + 1) e (State.idle (fun _ => none) none false, []) := rfl

end

/-- **A type is a subtype of itself**, with and without an error frame: the comparison comes to an
end, and if no assertion fails on the way, whatever is used of the cache was recorded for the same
comparison and the divergence guard answers no comparison of a nominal type with itself, then it
comes out true. -/
theorem subtype_refl {P : Program} {defs : Finset Nat} {T : Ty → Prop} {size : Ty → Nat}
    {G : CheckCap → Ty → Prop} {N : Ty → Prop} (hP : Table P defs T size) (hW : WellFormed P G N)
    {t : Ty} (ht : T t) (hG : G .sub t) (errorf : Bool) :
    ∃ n, ∀ n' ≥ n, ∀ cache minMatchIdx subtreePoisoned,
      (isXSubXCached P n' (errorf, ⟨t, t, .sub⟩)
        (State.idle cache minMatchIdx subtreePoisoned)).1 ≠ .crash →
      Undisturbed (isXSubXNoted P n' (errorf, ⟨t, t, .sub⟩)
        (State.idle cache minMatchIdx subtreePoisoned, [])).2 →
      (isXSubXCached P n' (errorf, ⟨t, t, .sub⟩)
        (State.idle cache minMatchIdx subtreePoisoned)).1 = .answer true := by
  obtain ⟨n, hn⟩ := hP.ends errorf (q := ⟨t, t, .sub⟩) ⟨ht, ht⟩ []
  refine ⟨n, fun n' hn' cache minMatchIdx subtreePoisoned hcrash hundisturbed => ?_⟩
  have hend := hn n' hn' (State.idle cache minMatchIdx subtreePoisoned) rfl
  have herase := (isXSubXNoted_erase (P := P) n' (errorf, ⟨t, t, .sub⟩)
    (State.idle cache minMatchIdx subtreePoisoned, [])).1
  cases n' with
  | zero => exact absurd rfl hend
  | succ n' =>
    rw [isXSubXNoted_idle] at hundisturbed herase
    have hempty : Covering P G N (State.idle (fun _ => none) none false, []) :=
      fun _ _ hentry => nomatch hentry
    have hfalse := (covers_noted hW (n' + 1) _ _ hempty hundisturbed).2 (.refl hG)
    rw [herase] at hfalse
    cases ho : (isXSubXCached P (n' + 1) (errorf, ⟨t, t, .sub⟩)
        (State.idle cache minMatchIdx subtreePoisoned)).1 with
    | answer b =>
      cases b with
      | true => rfl
      | false => exact absurd ho hfalse
    | crash => exact absurd ho hcrash
    | timeout => exact absurd ho hend

/-! ### The interface that grows -/

/-- Types of `driftingProgram`: the class, the interface `I` without an argument and with such a
type as its argument, and unions of them. -/
inductive Boxes : Ty → Prop where
  | plain : Boxes (plainType 9 .val)
  | bare : Boxes (plainType 0 .ref)
  | boxed {t : Ty} (h : Boxes t) : Boxes (boxed t)
  | union {ts : List Ty} (h : ∀ t ∈ ts, Boxes t) : Boxes (.uniontype ts)

theorem boxes_interface (m : CheckCap) (h : Boxes
      (driftingProgram.reifyMethodDef 0 args (getter (boxed (boxed .errortype)))).result.type) :
    NominalFormed driftingProgram (fun _ => Boxes) m ⟨0, args, .ref, .none⟩ where
  cap := by cases m <;> rfl
  typeargs hkind := absurd rfl hkind
  nosupertype _ := rfl
  members _ f hf := by
    obtain rfl := mem_singleton.1 hf
    refine ⟨rfl, ?_⟩
    match args, h with
    | [], h | [_], h | _ :: _ :: _, h => exact ⟨rfl, rfl, h, nofun, nofun⟩

theorem driftingProgram_wellFormed : WellFormed driftingProgram (fun _ => Boxes) Boxes where
  formed m t h := by
    cases h with
    | plain => exact ⟨by cases m <;> rfl, nofun, nofun, nofun⟩
    | bare => exact boxes_interface m .plain
    | boxed h => exact boxes_interface m h.boxed.boxed
    | union h => exact fun t ht => ⟨h t ht, h t ht⟩
  single t h := by
    cases h with
    | plain | bare | boxed => exact rfl
    | union h => exact h

/-- `interface I fun box f(): I`. -/
def recursiveProgram : Program :=
  { driftingProgram with
    reifyMethodDef := fun _ _ f => { f with result := ⟨plainType 0 .ref, false⟩ } }

theorem over_recursive : (plainType 0 .ref).Over {0, 9} := by simp [plainType, Ty.Over, Ty.AllOver]

theorem recursiveProgram_table : Table recursiveProgram {0, 9} (Ty.Over {0, 9}) Ty.nodes :=
  { driftingProgram_table with
    method := fun _ hf => driftingProgram_own hf ▸ ⟨nofun, nofun, over_recursive⟩ }

theorem recursiveProgram_wellFormed : WellFormed recursiveProgram
    (fun _ t => t = plainType 0 .ref) fun t => t = plainType 0 .ref where
  formed m t h := by
    subst h
    refine ⟨by cases m <;> rfl, nofun, fun _ => rfl, fun _ f hf => ?_⟩
    obtain rfl := mem_singleton.1 hf
    exact ⟨rfl, rfl, rfl, rfl, nofun, nofun⟩
  single t h := by
    subst h
    rfl

/-- `I`, whose method has `I` as its result: the comparison comes back to itself. -/
theorem interface_refl : ∃ n, (isXSubXCached recursiveProgram n
    (false, ⟨plainType 0 .ref, plainType 0 .ref, .sub⟩)
    (State.idle (fun _ => none) none false)).1 = .answer true := by
  obtain ⟨n, hn⟩ := subtype_refl recursiveProgram_table recursiveProgram_wellFormed over_recursive
    rfl false
  refine ⟨n + 8, hn (n + 8) (Nat.le_add_right n 8) (fun _ => none) none false (by rintro ⟨⟩)
    ⟨?_, fun _ hq => absurd hq not_mem_nil⟩⟩
  have hreuse : reuses (isXSubXNoted recursiveProgram (n + 8)
      (false, ⟨plainType 0 .ref, plainType 0 .ref, .sub⟩)
      (State.idle (fun _ => none) none false, [])).2.1.log = [] := rfl
  intro entry asked stack hev
  exact absurd (mem_reuses hev) (hreuse ▸ not_mem_nil)

/-- **Not every type is a subtype of itself**: five comparisons of `I` with itself are more than the
guard allows, and an intersection is not found among the members of a union. -/
theorem subtype_not_refl : (WellFormed driftingProgram (fun _ => Boxes) Boxes ∧
      Boxes (boxed (plainType 9 .val)) ∧ (isXSubXCached driftingProgram 8
      (false, ⟨boxed (plainType 9 .val), boxed (plainType 9 .val), .sub⟩)
      (State.idle (fun _ => none) none false)).1 = .answer false) ∧
    (isXSubXCached blank 6
      (false, ⟨.uniontype [.isecttype [plainType 1 .ref, plainType 2 .ref], plainType 3 .ref],
        .uniontype [.isecttype [plainType 1 .ref, plainType 2 .ref], plainType 3 .ref], .sub⟩)
      (State.idle (fun _ => none) none false)).1 = .answer false :=
  ⟨⟨driftingProgram_wellFormed, .boxed .plain, rfl⟩, rfl⟩

end SpacePony.Subtype
