import SpacePony.Compiler.Type.Declarative
import SpacePony.Compiler.Type.Growing
import SpacePony.Compiler.Type.Transparent
import Mathlib.Algebra.Order.BigOperators.Group.List
import Mathlib.Algebra.Order.BigOperators.GroupWithZero.List
import Mathlib.Algebra.Order.Ring.Nat

/-!
# Type — distributing tuples over unions

`expand_type_alternatives` turns a type into a union of tuples, which `is_x_sub_union` compares one
by one when a tuple of unions is below no single member.  It is so exactly where the type settles
(`distributes_iff`).
-/

namespace SpacePony.Subtype

open Ask.Holds Nat List
open Option (some)

/-! ### Values -/

/-- A value: one that is not a tuple, or a tuple of values. -/
inductive Val (α : Type) where
  | atom (a : α)
  | tuple (vs : List (Val α))

/-- A value has a type: one of the members of a union, a tuple element by element, an alias as what
it unfolds to, and any other type as `base` says. -/
inductive Has (P : Program) {α : Type} (base : Ty → Val α → Prop) : Ty → Val α → Prop where
  | union {ts : List Ty} {t : Ty} {v : Val α} (ht : t ∈ ts) (h : Has P base t v) :
      Has P base (.uniontype ts) v
  | tuple {ts : List Ty} {vs : List (Val α)} (hlen : ts.length = vs.length)
      (h : ∀ (i : Nat) (t : Ty) (v : Val α), ts[i]? = some t → vs[i]? = some v → Has P base t v) :
      Has P base (.tupletype ts) (.tuple vs)
  | unfold {d : Nat} {args : List Ty} {cap : Option Cap} {eph : Eph} {t : Ty} {v : Val α}
      (ht : P.typealiasUnfold d args cap eph = .found t) (h : Has P base t v) :
      Has P base (.typealiasref d args cap eph) v
  | base {t : Ty} {v : Val α} (hunion : ∀ ts, t ≠ .uniontype ts) (htuple : ∀ ts, t ≠ .tupletype ts)
      (halias : t.isTypealiasref = false) (h : base t v) : Has P base t v

/-- No union and no alias stands outside type arguments and intersections. -/
inductive Ty.Distributed : Ty → Prop where
  | tuple {ts : List Ty} (h : ∀ t ∈ ts, t.Distributed) : Distributed (.tupletype ts)
  | arrow {left right : Ty} (hl : left.Distributed) (hr : right.Distributed) :
      Distributed (.arrow left right)
  | other {t : Ty} (hunion : ∀ ts, t ≠ .uniontype ts) (htuple : ∀ ts, t ≠ .tupletype ts)
      (halias : t.isTypealiasref = false) (harrow : ∀ left right, t ≠ .arrow left right) :
      Distributed t

/-- How many alternatives a type has. -/
inductive Count (P : Program) : Ty → Nat → Prop where
  | union {ts : List Ty} {ns : List Nat} (hlen : ts.length = ns.length)
      (h : ∀ (i : Nat) (t : Ty) (n : Nat), ts[i]? = some t → ns[i]? = some n → Count P t n) :
      Count P (.uniontype ts) ns.sum
  | tuple {ts : List Ty} {ns : List Nat} (hlen : ts.length = ns.length)
      (h : ∀ (i : Nat) (t : Ty) (n : Nat), ts[i]? = some t → ns[i]? = some n → Count P t n) :
      Count P (.tupletype ts) ns.prod
  | unfold {d : Nat} {args : List Ty} {cap : Option Cap} {eph : Eph} {t : Ty} {n : Nat}
      (ht : P.typealiasUnfold d args cap eph = .found t) (h : Count P t n) :
      Count P (.typealiasref d args cap eph) n
  | single {t : Ty} (hunion : ∀ ts, t ≠ .uniontype ts) (htuple : ∀ ts, t ≠ .tupletype ts)
      (halias : t.isTypealiasref = false) : Count P t 1

/-- Lower bounds for how many alternatives a type has: that of one member, and the alternatives of
the first members together. -/
inductive AtLeast (P : Program) : Ty → Nat → Prop where
  | member {ts : List Ty} {t : Ty} {n : Nat} (ht : t ∈ ts) (h : AtLeast P t n) :
      AtLeast P (.uniontype ts) n
  | members {ts rest : List Ty} {ns : List Nat} (h : List.Forall₂ (Count P) ts ns) :
      AtLeast P (.uniontype (ts ++ rest)) ns.sum
  | element {ts : List Ty} {t : Ty} {n : Nat} (ht : t ∈ ts) (h : AtLeast P t n) :
      AtLeast P (.tupletype ts) n
  | elements {ts rest : List Ty} {ns : List Nat} (h : List.Forall₂ (Count P) ts ns) :
      AtLeast P (.tupletype (ts ++ rest)) ns.prod
  | unfold {d : Nat} {args : List Ty} {cap : Option Cap} {eph : Eph} {t : Ty} {n : Nat}
      (ht : P.typealiasUnfold d args cap eph = .found t) (h : AtLeast P t n) :
      AtLeast P (.typealiasref d args cap eph) n

/-- What the expansion of a type has to be: it gives up when there are too many alternatives, or it
gives alternatives without a union or an alias that have the same values together. -/
inductive Expansion (P : Program) (t : Ty) : Lookup (List Ty) → Prop where
  | null {n : Nat} (hcount : AtLeast P t n) (hmore : maxAlternatives < n) : Expansion P t .null
  | found {alts : List Ty} (hcount : Count P t alts.length) (hle : alts.length ≤ maxAlternatives)
      (hdist : ∀ alt ∈ alts, alt.Distributed)
      (hvalues : ∀ {α : Type} (base : Ty → Val α → Prop) (v : Val α),
        Has P base (.uniontype alts) v ↔ Has P base t v) : Expansion P t (.found alts)

/-! ### What an expansion comes to -/

/-- The expansion of a type comes to a part of it: what an alias unfolds to, or a member when those
before it have no more alternatives than the maximum. -/
inductive Enters (P : Program) : Ty → Ty → Prop where
  | member {ts rest : List Ty} {t : Ty} {ns : List Nat} (h : List.Forall₂ (Count P) ts ns)
      (hle : ns.sum ≤ maxAlternatives) : Enters P (.uniontype (ts ++ t :: rest)) t
  | element {ts rest : List Ty} {t : Ty} {ns : List Nat} (h : List.Forall₂ (Count P) ts ns)
      (hle : ns.prod ≤ maxAlternatives) : Enters P (.tupletype (ts ++ t :: rest)) t
  | unfold {d : Nat} {args : List Ty} {cap : Option Cap} {eph : Eph} {t : Ty}
      (ht : P.typealiasUnfold d args cap eph = .found t) :
      Enters P (.typealiasref d args cap eph) t

/-- The unfolding of the alias fails its assertion. -/
def Ty.Fails (P : Program) : Ty → Prop
  | .typealiasref d args k eph => P.typealiasUnfold d args k eph = .failed
  | _ => False

/-- No chain of parts that the expansion comes to is endless, and none of them fails an assertion.
-/
inductive Settles (P : Program) : Ty → Prop where
  | intro {t : Ty} (hfails : ¬ t.Fails P) (h : ∀ u, Enters P t u → Settles P u) : Settles P t

/-- Types `T` as they are when they are compared: a union has a member, an arrow has been
distributed over what is on its right, and reification gives an alias a type. -/
structure Shaped (P : Program) (T : Ty → Prop) : Prop where
  union_ne_nil {ts : List Ty} (h : T (.uniontype ts)) : ts ≠ []
  union {ts : List Ty} (h : T (.uniontype ts)) : ∀ t ∈ ts, T t
  tuple {ts : List Ty} (h : T (.tupletype ts)) : ∀ t ∈ ts, T t
  arrow {left right : Ty} (h : T (.arrow left right)) : (Ty.arrow left right).Distributed
  unfold_ne_null {d : Nat} {args : List Ty} {cap : Option Cap} {eph : Eph}
    (h : T (.typealiasref d args cap eph)) : P.typealiasUnfold d args cap eph ≠ .null
  unfold {d : Nat} {args : List Ty} {cap : Option Cap} {eph : Eph} {t : Ty}
    (h : T (.typealiasref d args cap eph)) (ht : P.typealiasUnfold d args cap eph = .found t) : T t

section
variable {P : Program} {α : Type} {base : Ty → Val α → Prop} {t : Ty} {ts alts : List Ty}
  {v : Val α} {vs : List (Val α)}

theorem rel_of_forall₂ {α β : Type} {R : α → β → Prop} {as : List α} {bs : List β} {i : Nat} {a : α}
    {b : β} (h : List.Forall₂ R as bs) (ha : as[i]? = some a) (hb : bs[i]? = some b) : R a b := by
  obtain ⟨hi, rfl⟩ := List.getElem?_eq_some_iff.1 ha
  obtain ⟨hi', rfl⟩ := List.getElem?_eq_some_iff.1 hb
  exact h.get hi hi'

theorem has_uniontype : Has P base (.uniontype ts) v ↔ ∃ t ∈ ts, Has P base t v := by
  constructor
  · intro h
    cases h with
    | union ht h => exact ⟨_, ht, h⟩
    | base hunion => exact absurd rfl (hunion ts)
  · rintro ⟨t, ht, h⟩
    exact .union ht h

theorem has_tupletype :
    Has P base (.tupletype ts) v ↔ ∃ vs, v = .tuple vs ∧ List.Forall₂ (Has P base) ts vs := by
  constructor
  · intro h
    cases h with
    | @tuple _ vs hlen h =>
      exact ⟨vs, rfl, forall₂_of_getElem? hlen h⟩
    | base _ htuple => exact absurd rfl (htuple ts)
  rintro ⟨vs, rfl, h⟩
  exact .tuple h.length_eq fun _ _ _ => rel_of_forall₂ h

theorem has_typealiasref {d : Nat} {args : List Ty} {cap : Option Cap} {eph : Eph}
    (ht : P.typealiasUnfold d args cap eph = .found t) :
    Has P base (.typealiasref d args cap eph) v ↔ Has P base t v := by
  constructor
  · intro h
    cases h with
    | unfold ht' h =>
      cases ht.symm.trans ht'
      exact h
    | base _ _ halias => cases halias
  · exact .unfold ht

/-! ### Counting the alternatives -/

theorem count_uniontype {ns : List Nat} (h : List.Forall₂ (Count P) ts ns) :
    Count P (.uniontype ts) ns.sum :=
  .union h.length_eq fun _ _ _ => rel_of_forall₂ h

theorem count_tupletype {ns : List Nat} (h : List.Forall₂ (Count P) ts ns) :
    Count P (.tupletype ts) ns.prod :=
  .tuple h.length_eq fun _ _ _ => rel_of_forall₂ h

end

variable {n : Nat} {result : List Ty}

section
variable {P : Program} {T : Ty → Prop} (hW : Shaped P T)
include hW

/-- A type has an alternative. -/
theorem Count.pos {t : Ty} (h : Count P t n) (ht : T t) : 0 < n := by
  induction h with
  | @union ts ns hlen _ ih =>
    obtain ⟨t, ts, rfl⟩ := exists_cons_of_ne_nil (hW.union_ne_nil ht)
    cases ns with
    | nil => cases hlen
    | cons n ns =>
      have := ih 0 t n rfl rfl (hW.union ht t (.head _))
      rw [sum_cons]
      omega
  | @tuple ts ns hlen _ ih =>
    refine prod_pos fun n hn => ?_
    obtain ⟨i, hi, rfl⟩ := getElem_of_mem hn
    have hi' : i < ts.length := hlen ▸ hi
    exact ih i ts[i] _ (getElem?_eq_getElem hi') (getElem?_eq_getElem hi)
      (hW.tuple ht _ (getElem_mem hi'))
  | unfold hd _ ih => exact ih (hW.unfold ht hd)
  | single => exact one_pos

theorem Counts.pos {ts : List Ty} {ns : List Nat} (h : List.Forall₂ (Count P) ts ns)
    (ht : ∀ t ∈ ts, T t) : ∀ n ∈ ns, 0 < n := by
  induction h with
  | nil => exact nofun
  | cons h _ ih =>
    obtain ⟨ht, hts⟩ := forall_mem_cons.1 ht
    exact forall_mem_cons.2 ⟨h.pos hW ht, ih hts⟩

end

/-! ### The values of a tuple -/

section
variable {P : Program}

/-- Values of the elements of a tuple, one of which is set apart. -/
theorem forall₂_middle {α β : Type} {R : α → β → Prop} {as bs : List α} {a : α} {vs : List β} :
    List.Forall₂ R (as ++ a :: bs) vs ↔
      ∃ vs₁ v vs₂, vs = vs₁ ++ v :: vs₂ ∧ List.Forall₂ R as vs₁ ∧ R a v ∧
        List.Forall₂ R bs vs₂ := by
  induction as generalizing vs with
  | nil =>
    constructor
    · intro h
      cases h with
      | cons ha hbs => exact ⟨[], _, _, rfl, .nil, ha, hbs⟩
    rintro ⟨_, v, vs₂, rfl, h, ha, hbs⟩
    cases h
    exact .cons ha hbs
  | cons a' as ih =>
    constructor
    · intro h
      cases h with
      | cons ha' h =>
        obtain ⟨vs₁, v, vs₂, rfl, has, ha, hbs⟩ := ih.1 h
        exact ⟨_ :: vs₁, v, vs₂, rfl, .cons ha' has, ha, hbs⟩
    · rintro ⟨_, v, vs₂, rfl, h, ha, hbs⟩
      cases h with
      | cons ha' has => exact .cons ha' (ih.2 ⟨_, v, vs₂, rfl, has, ha, hbs⟩)

/-- One element of a tuple, against its alternatives. -/
theorem forall₂_alternatives {α : Type} {base : Ty → Val α → Prop} {done rest own : List Ty}
    {t : Ty} {vs : List (Val α)} (h : ∀ v, Has P base (.uniontype own) v ↔ Has P base t v) :
    (∃ u ∈ own, List.Forall₂ (Has P base) (done ++ u :: rest) vs) ↔
      List.Forall₂ (Has P base) (done ++ t :: rest) vs := by
  simp only [forall₂_middle]
  constructor
  · rintro ⟨u, hu, vs₁, v, vs₂, rfl, hd, hv, hr⟩
    exact ⟨vs₁, v, vs₂, rfl, hd, (h v).1 (.union hu hv), hr⟩
  rintro ⟨vs₁, v, vs₂, rfl, hd, hv, hr⟩
  obtain ⟨u, hu, hv⟩ := has_uniontype.1 ((h v).2 hv)
  exact ⟨u, hu, vs₁, v, vs₂, rfl, hd, hv, hr⟩

end

/-! ### The expansion -/

section
variable {P : Program} {t : Ty} {ts : List Ty}

/-- A type that is neither a union, a tuple nor an alias is its only alternative. -/
theorem expandTypeAlternatives_single (hunion : ∀ ts, t ≠ .uniontype ts)
    (htuple : ∀ ts, t ≠ .tupletype ts) (halias : t.isTypealiasref = false) (n : Nat) :
    expandTypeAlternatives P (n + 1) t = some (.found [t]) := by
  cases t with
  | uniontype ts => exact absurd rfl (hunion ts)
  | tupletype ts => exact absurd rfl (htuple ts)
  | typealiasref => cases halias
  | _ => rfl

end

/-! ### Members that are counted -/

/-- The result of an expansion with `k` alternatives. -/
def Counted (k : Nat) (r : Lookup (List Ty)) : Prop :=
  (∃ alts, r = .found alts ∧ alts.length = k) ∨ (r = .null ∧ maxAlternatives < k)

section
variable {expand : Ty → Option (Lookup (List Ty))} {ts rest : List Ty} {ns : List Nat} {t : Ty}
  {r : Lookup (List Ty)}

theorem length_extended (result : List (List Ty)) (own : List Ty) :
    (result.flatMap fun tuple => own.map fun alt => tuple ++ [alt]).length =
      result.length * own.length := by
  simp [length_flatMap]

theorem unionAlternatives_counted
    (h : List.Forall₂ (fun t n => ∀ r, expand t = some r → Counted n r) ts ns)
    (hrun : unionAlternatives expand ts result = some r) : Counted (result.length + ns.sum) r := by
  induction h generalizing result with
  | nil => exact .inl ⟨result, (some.inj hrun).symm, rfl⟩
  | @cons t n ts ns ht _ ih =>
    rw [sum_cons]
    cases hexp : expand t with
    | none => simp [unionAlternatives, hexp] at hrun
    | some z =>
      rcases ht z hexp with ⟨own, rfl, rfl⟩ | ⟨rfl, hmore⟩
      · simp only [unionAlternatives, hexp] at hrun
        split at hrun
        · rename_i hlen
          rw [length_append] at hlen
          exact .inr ⟨(some.inj hrun).symm, by omega⟩
        · have hcounted := ih hrun
          rwa [length_append, add_assoc] at hcounted
      · simp only [unionAlternatives, hexp] at hrun
        exact .inr ⟨(some.inj hrun).symm, by omega⟩

theorem tupleAlternatives_counted {result : List (List Ty)} (hpos : 0 < result.length)
    (hns : ∀ n ∈ ns, 0 < n)
    (h : List.Forall₂ (fun t n => ∀ r, expand t = some r → Counted n r) ts ns)
    (hrun : tupleAlternatives expand ts result = some r) : Counted (result.length * ns.prod) r := by
  induction h generalizing result with
  | nil =>
    refine .inl ⟨_, (some.inj hrun).symm, ?_⟩
    rw [length_map, prod_nil, mul_one]
  | @cons t n ts ns ht _ ih =>
    obtain ⟨hn, hrest⟩ := List.forall_mem_cons.1 hns
    have hprod : 0 < ns.prod := prod_pos hrest
    rw [prod_cons, ← mul_assoc]
    cases hexp : expand t with
    | none => simp [tupleAlternatives, hexp] at hrun
    | some z =>
      rcases ht z hexp with ⟨own, rfl, rfl⟩ | ⟨rfl, hmore⟩
      · simp only [tupleAlternatives, hexp, length_extended] at hrun
        split at hrun
        · rename_i hlen
          exact .inr ⟨(some.inj hrun).symm, lt_of_lt_of_le hlen (Nat.le_mul_of_pos_right _ hprod)⟩
        · have hcounted := ih (by rw [length_extended]; exact mul_pos hpos hn) hrest hrun
          rwa [length_extended] at hcounted
      simp only [tupleAlternatives, hexp] at hrun
      refine .inr ⟨(some.inj hrun).symm, ?_⟩
      calc maxAlternatives < n := hmore
        _ ≤ result.length * n := Nat.le_mul_of_pos_left n hpos
        _ ≤ result.length * n * ns.prod := Nat.le_mul_of_pos_right _ hprod

/-- The loop over the members of a union comes to a member. -/
theorem unionAlternatives_enters
    (h : List.Forall₂ (fun t n => ∀ r, expand t = some r → Counted n r) ts ns)
    (hle : result.length + ns.sum ≤ maxAlternatives)
    (hrun : unionAlternatives expand (ts ++ t :: rest) result = some r) (hr : r ≠ .failed) :
    ∃ r', expand t = some r' ∧ r' ≠ .failed := by
  induction h generalizing result with
  | nil =>
    cases hexp : expand t with
    | none => simp [unionAlternatives, hexp] at hrun
    | some z =>
      refine ⟨z, rfl, fun hz => hr ?_⟩
      subst hz
      simpa [unionAlternatives, hexp] using hrun.symm
  | @cons t' n ts ns ht' _ ih =>
    rw [sum_cons] at hle
    cases hexp : expand t' with
    | none => simp [unionAlternatives, hexp] at hrun
    | some z =>
      rcases ht' z hexp with ⟨own, rfl, rfl⟩ | ⟨-, hmore⟩
      · simp only [cons_append, unionAlternatives, hexp] at hrun
        rw [if_neg (by rw [length_append]; omega)] at hrun
        exact ih (by rw [length_append]; omega) hrun
      · omega

/-- The loop over the elements of a tuple comes to an element. -/
theorem tupleAlternatives_enters {result : List (List Ty)} (hpos : 0 < result.length)
    (hns : ∀ n ∈ ns, 0 < n)
    (h : List.Forall₂ (fun t n => ∀ r, expand t = some r → Counted n r) ts ns)
    (hle : result.length * ns.prod ≤ maxAlternatives)
    (hrun : tupleAlternatives expand (ts ++ t :: rest) result = some r) (hr : r ≠ .failed) :
    ∃ r', expand t = some r' ∧ r' ≠ .failed := by
  induction h generalizing result with
  | nil =>
    cases hexp : expand t with
    | none => simp [tupleAlternatives, hexp] at hrun
    | some z =>
      refine ⟨z, rfl, fun hz => hr ?_⟩
      subst hz
      simpa [tupleAlternatives, hexp] using hrun.symm
  | @cons t' n ts ns ht' _ ih =>
    obtain ⟨hn, hrest⟩ := List.forall_mem_cons.1 hns
    have hprod : 0 < ns.prod := prod_pos hrest
    rw [prod_cons, ← Nat.mul_assoc] at hle
    have hsmall : result.length * n ≤ maxAlternatives :=
      (Nat.le_mul_of_pos_right _ hprod).trans hle
    cases hexp : expand t' with
    | none => simp [tupleAlternatives, hexp] at hrun
    | some z =>
      rcases ht' z hexp with ⟨own, rfl, rfl⟩ | ⟨-, hmore⟩
      · simp only [cons_append, tupleAlternatives, hexp, length_extended] at hrun
        rw [if_neg (by omega)] at hrun
        exact ih (by rw [length_extended]; exact Nat.mul_pos hpos hn) hrest
          (by rw [length_extended]; exact hle) hrun
      · have := Nat.le_mul_of_pos_left n hpos
        omega

end

section
variable {P : Program} {T : Ty → Prop} (hW : Shaped P T)
include hW

/-- The expansion of a type whose alternatives are counted finds them or gives up. -/
theorem Count.expand {t : Ty} {k : Nat} (h : Count P t k) (ht : T t) {r : Lookup (List Ty)}
    (hrun : expandTypeAlternatives P n t = some r) : Counted k r := by
  induction h generalizing n r with
  | @union ts ns hlen _ ih =>
    cases n with
    | zero => cases hrun
    | succ n =>
      have hall : List.Forall₂ (fun t k => ∀ r, expandTypeAlternatives P n t = some r →
          Counted k r) ts ns := forall₂_iff_get.2 ⟨hlen, fun i hi hi' r hr =>
        ih i _ _ (getElem?_eq_getElem hi) (getElem?_eq_getElem hi')
          (hW.union ht _ (getElem_mem hi)) hr⟩
      simpa using unionAlternatives_counted hall hrun
  | @tuple ts ns hlen hc ih =>
    cases n with
    | zero => cases hrun
    | succ n =>
      have hall : List.Forall₂ (fun t k => ∀ r, expandTypeAlternatives P n t = some r →
          Counted k r) ts ns := forall₂_iff_get.2 ⟨hlen, fun i hi hi' r hr =>
        ih i _ _ (getElem?_eq_getElem hi) (getElem?_eq_getElem hi')
          (hW.tuple ht _ (getElem_mem hi)) hr⟩
      have hns := Counts.pos hW (forall₂_of_getElem? hlen hc) (hW.tuple ht)
      simpa using tupleAlternatives_counted (show 0 < [([] : List Ty)].length from one_pos)
        hns hall hrun
  | unfold hd _ ih =>
    cases n with
    | zero => cases hrun
    | succ n =>
      simp only [expandTypeAlternatives, hd] at hrun
      exact ih (hW.unfold ht hd) hrun
  | single hunion htuple halias =>
    cases n with
    | zero => cases hrun
    | succ n =>
      rw [expandTypeAlternatives_single hunion htuple halias] at hrun
      exact .inl ⟨_, (some.inj hrun).symm, rfl⟩

/-- **An expansion that comes to an end** without a failing assertion comes only to parts whose
expansion does. -/
theorem settles_of_expand {t : Ty} (ht : T t) {r : Lookup (List Ty)}
    (hrun : expandTypeAlternatives P n t = some r) (hr : r ≠ .failed) : Settles P t := by
  induction n generalizing t r with
  | zero => cases hrun
  | succ n ih =>
    have hcounted : ∀ {ts : List Ty} {ns : List Nat}, (∀ t ∈ ts, T t) →
        List.Forall₂ (Count P) ts ns →
        List.Forall₂ (fun t k => ∀ r, expandTypeAlternatives P n t = some r → Counted k r)
          ts ns := by
      intro ts ns hts h
      induction h with
      | nil => exact .nil
      | cons h _ ih =>
        obtain ⟨ht, hts⟩ := forall_mem_cons.1 hts
        exact .cons (fun r hr => h.expand hW ht hr) (ih hts)
    refine ⟨fun hfails => ?_, fun u hu => ?_⟩
    · cases t with
      | typealiasref d args cap eph =>
        have hd : P.typealiasUnfold d args cap eph = .failed := hfails
        simp only [expandTypeAlternatives, hd, some.injEq] at hrun
        exact hr hrun.symm
      | _ => exact hfails
    cases hu with
    | @member ts rest _ ns h hle =>
      have hts := hW.union ht
      have hfirst : ∀ t ∈ ts, T t := fun t ht => hts t (mem_append_left _ ht)
      obtain ⟨r', hr', hne⟩ := unionAlternatives_enters (hcounted hfirst h)
        (by simpa using hle) hrun hr
      exact ih (hts u (by simp)) hr' hne
    | @element ts rest _ ns h hle =>
      have hts := hW.tuple ht
      have hfirst : ∀ t ∈ ts, T t := fun t ht => hts t (mem_append_left _ ht)
      obtain ⟨r', hr', hne⟩ := tupleAlternatives_enters
        (show 0 < [([] : List Ty)].length from one_pos) (Counts.pos hW h hfirst)
        (hcounted hfirst h) (by simpa using hle) hrun hr
      exact ih (hts u (by simp)) hr' hne
    | unfold hd =>
      simp only [expandTypeAlternatives, hd] at hrun
      exact ih (hW.unfold ht hd) hrun hr

end

/-! ### Expansions that settle -/

section
variable {P : Program} {done ts : List Ty} {ms : List Nat}

/-- One more member is counted. -/
theorem Counts.snoc {t : Ty} (h : List.Forall₂ (Count P) done ms) (ht : Count P t n) :
    List.Forall₂ (Count P) (done ++ [t]) (ms ++ [n]) :=
  rel_append h (.cons ht .nil)

/-- The loop over the members of a union, of which those in `done` come before. -/
theorem unionAlternatives_spec (hms : List.Forall₂ (Count P) done ms)
    (hlen : result.length = ms.sum) (hres : result.length ≤ maxAlternatives)
    (h : ∀ t, Enters P (.uniontype (done ++ ts)) t →
      ∃ n r, expandTypeAlternatives P n t = some r ∧ Expansion P t r) :
    (∃ n k, unionAlternatives (expandTypeAlternatives P n) ts result = some .null ∧
      AtLeast P (.uniontype (done ++ ts)) k ∧ maxAlternatives < k) ∨
    ∃ n ns alts,
      unionAlternatives (expandTypeAlternatives P n) ts result = some (.found (result ++ alts)) ∧
      List.Forall₂ (Count P) ts ns ∧ alts.length = ns.sum ∧
      (result ++ alts).length ≤ maxAlternatives ∧ (∀ alt ∈ alts, alt.Distributed) ∧
      ∀ {α : Type} (base : Ty → Val α → Prop) (v : Val α),
        Has P base (.uniontype alts) v ↔ Has P base (.uniontype ts) v := by
  induction ts generalizing done ms result with
  | nil =>
    refine .inr ⟨0, [], [], ?_, .nil, rfl, ?_, nofun, fun _ _ => Iff.rfl⟩
    · rw [append_nil]
      rfl
    · rwa [append_nil]
  | cons t ts ih =>
    obtain ⟨n, r, hexp, hr⟩ := h t (.member hms (hlen ▸ hres))
    cases hr with
    | @null k hcount hmore =>
      refine .inl ⟨n, k, by simp only [unionAlternatives, hexp], .member ?_ hcount, hmore⟩
      exact mem_append_right _ (.head _)
    | @found own hcount _ hdist hvalues =>
      have hms' := Counts.snoc hms hcount
      have hlen' : (result ++ own).length = (ms ++ [own.length]).sum := by simp [hlen]
      have hassoc : done ++ t :: ts = done ++ [t] ++ ts := by simp
      by_cases hmore : maxAlternatives < (result ++ own).length
      · refine .inl ⟨n, _, ?_, hassoc ▸ .members hms', hlen' ▸ hmore⟩
        simp only [unionAlternatives, hexp, if_pos hmore]
      -- the loop goes on with one more member before the rest
      have hrest := ih hms' hlen' (Nat.le_of_not_lt hmore) (hassoc ▸ h)
      have hstep : ∀ {m y},
          unionAlternatives (expandTypeAlternatives P m) ts (result ++ own) = some y →
          unionAlternatives (expandTypeAlternatives P (max n m)) (t :: ts) result = some y := by
        intro m y hy
        have hexp' := expandTypeAlternatives_more (le_max_left n m) hexp
        simp only [unionAlternatives, hexp', if_neg hmore]
        exact unionAlternatives_more
          (fun _ _ => expandTypeAlternatives_more (le_max_right n m)) hy
      rcases hrest with ⟨m, k, hrun, hk, hmore⟩ | ⟨m, ns, alts, hrun, hns, hsum, hle, hd, hv⟩
      · exact .inl ⟨max n m, k, hstep hrun, hassoc ▸ hk, hmore⟩
      refine .inr ⟨max n m, own.length :: ns, own ++ alts, ?_, .cons hcount hns, ?_, ?_, ?_,
        fun base v => ?_⟩
      · rw [hstep hrun, append_assoc]
      · rw [length_append, hsum, sum_cons]
      · rwa [← append_assoc]
      · exact forall_mem_append.2 ⟨hdist, hd⟩
      have ho := hvalues base v
      have ha := hv base v
      rw [has_uniontype] at ho ha ⊢
      rw [has_uniontype] at ha ⊢
      simp only [mem_append, mem_cons, or_and_right, exists_or, exists_eq_left, ho, ha]

/-- The loop over the elements of a tuple, of which those in `done` come before. -/
theorem tupleAlternatives_spec {result : List (List Ty)} (hms : List.Forall₂ (Count P) done ms)
    (hlen : result.length = ms.prod) (hres : result.length ≤ maxAlternatives)
    (hdone : ∀ us ∈ result, ∀ u ∈ us, u.Distributed)
    (h : ∀ t, Enters P (.tupletype (done ++ ts)) t →
      ∃ n r, expandTypeAlternatives P n t = some r ∧ Expansion P t r) :
    (∃ n k, tupleAlternatives (expandTypeAlternatives P n) ts result = some .null ∧
      AtLeast P (.tupletype (done ++ ts)) k ∧ maxAlternatives < k) ∨
    ∃ n ns, ∃ tuples : List (List Ty),
      tupleAlternatives (expandTypeAlternatives P n) ts result =
        some (.found (tuples.map .tupletype)) ∧
      List.Forall₂ (Count P) ts ns ∧ tuples.length = result.length * ns.prod ∧
      tuples.length ≤ maxAlternatives ∧ (∀ us ∈ tuples, ∀ u ∈ us, u.Distributed) ∧
      ∀ {α : Type} (base : Ty → Val α → Prop) (vs : List (Val α)),
        (∃ us ∈ tuples, List.Forall₂ (Has P base) us vs) ↔
          ∃ us ∈ result, List.Forall₂ (Has P base) (us ++ ts) vs := by
  induction ts generalizing done ms result with
  | nil =>
    refine .inr ⟨0, [], result, rfl, .nil, ?_, hres, hdone, fun base vs => ?_⟩
    · rw [prod_nil, Nat.mul_one]
    · simp only [append_nil]
  | cons t ts ih =>
    obtain ⟨n, r, hexp, hr⟩ := h t (.element hms (hlen ▸ hres))
    cases hr with
    | @null k hcount hmore =>
      refine .inl ⟨n, k, by simp only [tupleAlternatives, hexp], .element ?_ hcount, hmore⟩
      exact mem_append_right _ (.head _)
    | @found own hcount _ hdist hvalues =>
      have hms' := Counts.snoc hms hcount
      have hprod : result.length * own.length = (ms ++ [own.length]).prod := by simp [hlen]
      have hassoc : done ++ t :: ts = done ++ [t] ++ ts := by simp
      by_cases hmore : maxAlternatives < result.length * own.length
      · refine .inl ⟨n, _, ?_, hassoc ▸ .elements hms', hprod ▸ hmore⟩
        simp only [tupleAlternatives, hexp, length_extended, if_pos hmore]
      have hrest := ih hms' ((length_extended result own).trans hprod)
        (by rw [length_extended]; exact Nat.le_of_not_lt hmore) (fun us hus u hu => by
          obtain ⟨us', hus', hmem⟩ := mem_flatMap.1 hus
          obtain ⟨alt, halt, rfl⟩ := mem_map.1 hmem
          rcases mem_append.1 hu with hu | hu
          · exact hdone us' hus' u hu
          · rw [mem_singleton.1 hu]
            exact hdist alt halt) (hassoc ▸ h)
      have hstep : ∀ {m y}, tupleAlternatives (expandTypeAlternatives P m) ts
          (result.flatMap fun tuple => own.map fun alt => tuple ++ [alt]) = some y →
          tupleAlternatives (expandTypeAlternatives P (max n m)) (t :: ts) result =
            some y := by
        intro m y hy
        have hexp' := expandTypeAlternatives_more (le_max_left n m) hexp
        simp only [tupleAlternatives, hexp', length_extended, if_neg hmore]
        exact tupleAlternatives_more
          (fun _ _ => expandTypeAlternatives_more (le_max_right n m)) hy
      rw [length_extended] at hrest
      rcases hrest with ⟨m, k, hrun, hk, hmore⟩ |
        ⟨m, ns, tuples, hrun, hns, hcard, hle, hd, hv⟩
      · exact .inl ⟨max n m, k, hstep hrun, hassoc ▸ hk, hmore⟩
      refine .inr ⟨max n m, own.length :: ns, tuples, hstep hrun, .cons hcount hns, ?_, hle,
        hd, fun base vs => ?_⟩
      · rw [hcard, prod_cons, Nat.mul_assoc]
      rw [hv base vs]
      simp only [← forall₂_alternatives (hvalues base), mem_flatMap, mem_map]
      constructor
      · rintro ⟨_, ⟨us, hus, u, hu, rfl⟩, h⟩
        exact ⟨us, hus, u, hu, by simpa using h⟩
      · rintro ⟨us, hus, u, hu, h⟩
        exact ⟨_, ⟨us, hus, u, hu, rfl⟩, by simpa using h⟩

theorem Enters.mem_uniontype {u : Ty} (h : Enters P (.uniontype ts) u) : u ∈ ts := by
  cases h
  simp

theorem Enters.mem_tupletype {u : Ty} (h : Enters P (.tupletype ts) u) : u ∈ ts := by
  cases h
  simp

/-- **Where it settles, the expansion comes to an end and is what it has to be.** -/
theorem Settles.expansion {T : Ty → Prop} (hW : Shaped P T) {t : Ty} (h : Settles P t)
    (ht : T t) : ∃ n r, expandTypeAlternatives P n t = some r ∧ Expansion P t r := by
  induction h with
  | @intro t hfails h ih =>
    by_cases hsingle : (∀ ts, t ≠ .uniontype ts) ∧ (∀ ts, t ≠ .tupletype ts) ∧
        t.isTypealiasref = false
    · obtain ⟨hunion, htuple, halias⟩ := hsingle
      have hdist : t.Distributed := by
        cases t with
        | arrow => exact hW.arrow ht
        | _ => exact .other hunion htuple halias (by simp)
      refine ⟨1, _, expandTypeAlternatives_single hunion htuple halias 0,
        .found (.single hunion htuple halias) (le_of_ble_eq_true rfl) ?_ fun base v => ?_⟩
      · simpa using hdist
      · simp [has_uniontype]
    cases t with
    | uniontype ts =>
      have henters : ∀ u, Enters P (.uniontype ([] ++ ts)) u →
          ∃ n r, expandTypeAlternatives P n u = some r ∧ Expansion P u r :=
        fun u hu => ih u hu (hW.union ht u hu.mem_uniontype)
      have hloop := unionAlternatives_spec .nil (show ([] : List Ty).length = 0 from rfl)
        (zero_le _) henters
      rcases hloop with ⟨n, k, hrun, hk, hmore⟩ |
        ⟨n, ns, alts, hrun, hns, hsum, hle, hdist, hvalues⟩
      · exact ⟨n + 1, _, hrun, .null hk hmore⟩
      · exact ⟨n + 1, _, hrun, .found (hsum ▸ count_uniontype hns) hle hdist hvalues⟩
    | tupletype ts =>
      have henters : ∀ u, Enters P (.tupletype ([] ++ ts)) u →
          ∃ n r, expandTypeAlternatives P n u = some r ∧ Expansion P u r :=
        fun u hu => ih u hu (hW.tuple ht u hu.mem_tupletype)
      have hloop := tupleAlternatives_spec .nil (show [([] : List Ty)].length = 1 from rfl)
        (by decide) (by simp) henters
      rcases hloop with ⟨n, k, hrun, hk, hmore⟩ |
        ⟨n, ns, tuples, hrun, hns, hcard, hle, hdist, hvalues⟩
      · exact ⟨n + 1, _, hrun, .null hk hmore⟩
      have hlen : (tuples.map Ty.tupletype).length = ns.prod := by
        rw [length_map, hcard, length_singleton, one_mul]
      refine ⟨n + 1, _, hrun, .found (hlen ▸ count_tupletype hns) ?_ ?_ fun base v => ?_⟩
      · rw [length_map]
        exact hle
      · intro alt halt
        obtain ⟨us, hus, rfl⟩ := mem_map.1 halt
        exact .tuple (hdist us hus)
      rw [has_uniontype, has_tupletype]
      constructor
      · rintro ⟨alt, halt, h⟩
        obtain ⟨us, hus, rfl⟩ := mem_map.1 halt
        obtain ⟨vs, rfl, hvs⟩ := has_tupletype.1 h
        obtain ⟨us', hus', hvs⟩ := (hvalues base vs).1 ⟨us, hus, hvs⟩
        rw [mem_singleton.1 hus'] at hvs
        exact ⟨vs, rfl, hvs⟩
      · rintro ⟨vs, rfl, hvs⟩
        obtain ⟨us, hus, hvs⟩ := (hvalues base vs).2 ⟨[], .head _, hvs⟩
        exact ⟨_, mem_map_of_mem hus, has_tupletype.2 ⟨vs, rfl, hvs⟩⟩
    | typealiasref d args cap eph =>
      cases hd : P.typealiasUnfold d args cap eph with
      | failed => exact absurd hd hfails
      | null => exact absurd hd (hW.unfold_ne_null ht)
      | found u =>
        obtain ⟨n, r, hr, hE⟩ := ih u (.unfold hd) (hW.unfold ht hd)
        refine ⟨n + 1, r, by simp only [expandTypeAlternatives, hd, hr], ?_⟩
        cases hE with
        | null hcount hmore => exact .null (.unfold hd hcount) hmore
        | found hcount hle hdist hvalues =>
          refine .found (.unfold hd hcount) hle hdist fun base v => ?_
          rw [hvalues base v, has_typealiasref hd]
    | _ => exact absurd ⟨by simp, by simp, rfl⟩ hsingle

end

/-! ### The comparison that uses the expansion -/

/-- A type and the elements of the tuples in it. -/
inductive Part : Ty → Ty → Prop where
  | self (t : Ty) : Part t t
  | element {t u : Ty} {ts : List Ty} (h : Part t (.tupletype ts)) (hu : u ∈ ts) : Part t u

/-- Distributing a type over its unions keeps its meaning. -/
structure Distributes (P : Program) (t : Ty) : Prop where
  /-- The expansion comes to an end and is what it has to be. -/
  expansion : ∃ n r, (∀ n' ≥ n, expandTypeAlternatives P n' t = some r) ∧ Expansion P t r
  /-- The comparison with a union comes out true only if that has all the values of the type,
  provided that the comparisons it asks for do. -/
  retry : ∀ {α : Type} (base : Ty → Val α → Prop) (errorf : Bool) (supers : List Ty) (m : CheckCap)
    (R : Set Query), (∀ q ∈ R, ∀ v, Has P base q.sub v → Has P base q.super v) →
    HoldsIn P R (isXSubUnion errorf t supers m) →
    ∀ v, Has P base t v → Has P base (.uniontype supers) v
  /-- No alternative is expanded again, nor is a tuple in it. -/
  once : ∀ n alts, expandTupleUnions P n t = some (.found alts) → ∀ alt ∈ alts, ∀ u, Part alt u →
    ∃ k, ∀ k' ≥ k, ∀ supers m o,
      (isTupleSubUnion u supers m).eval o (expandTupleUnions P k') = .answer false

section
variable {P : Program} {t : Ty}

theorem Ty.Distributed.part (h : t.Distributed) {u : Ty} (hu : Part t u) : u.Distributed := by
  induction hu with
  | self => exact h
  | element _ hmem ih =>
    cases ih with
    | tuple hts => exact hts _ hmem
    | other _ htuple => exact absurd rfl (htuple _)

/-- A type that is distributed has a finite expansion. -/
theorem Ty.Distributed.exists_expand (h : t.Distributed) :
    ∃ n, expandTypeAlternatives P n t = some (.found [t]) := by
  have hloop : ∀ {ts us : List Ty}, (∀ t ∈ ts, ∃ n, expandTypeAlternatives P n t =
      some (.found [t])) → ∃ n, tupleAlternatives (expandTypeAlternatives P n) ts [us] =
      some (.found [.tupletype (us ++ ts)]) := by
    intro ts
    induction ts with
    | nil => exact fun _ => ⟨0, by simp [tupleAlternatives]⟩
    | cons t ts ih =>
      intro us hall
      obtain ⟨⟨n, hn⟩, hts⟩ := forall_mem_cons.1 hall
      obtain ⟨m, hm⟩ := @ih (us ++ [t]) hts
      have hone : ¬ maxAlternatives < 1 := by decide
      refine ⟨max n m, ?_⟩
      simp only [tupleAlternatives, expandTypeAlternatives_more (le_max_left n m) hn,
        flatMap_cons, map_cons, map_nil, flatMap_nil, append_nil, length_singleton, if_neg hone]
      have hrest := tupleAlternatives_more
        (fun _ _ => expandTypeAlternatives_more (le_max_right n m)) hm
      simpa using hrest
  induction h with
  | @tuple ts _ ih =>
    obtain ⟨n, hn⟩ := @hloop ts [] ih
    exact ⟨n + 1, hn⟩
  | arrow => exact ⟨1, rfl⟩
  | other hunion htuple halias => exact ⟨1, expandTypeAlternatives_single hunion htuple halias 0⟩

/-- A tuple that is distributed is not expanded. -/
theorem Ty.Distributed.once (h : t.Distributed) : ∃ k, ∀ k' ≥ k, ∀ supers m o,
    (isTupleSubUnion t supers m).eval o (expandTupleUnions P k') = .answer false := by
  obtain ⟨k, hk⟩ := h.exists_expand (P := P)
  refine ⟨k, fun k' hk' supers m o => ?_⟩
  have hnull : expandTupleUnions P k' t = some .null := by
    rw [expandTupleUnions, expandTypeAlternatives_more hk' hk]
    rfl
  cases t with
  | tupletype ts => simp only [isTupleSubUnion, Ask.eval, hnull]
  | _ => rfl

theorem Expansion.of_expand (hE : ∃ n r, expandTypeAlternatives P n t = some r ∧ Expansion P t r)
    {r : Lookup (List Ty)} (hr : expandTypeAlternatives P n t = some r) : Expansion P t r := by
  obtain ⟨m, r', hr', hE⟩ := hE
  have h := expandTypeAlternatives_more (le_max_left n m) hr
  rw [expandTypeAlternatives_more (le_max_right n m) hr'] at h
  cases h
  exact hE

/-- What `expand_tuple_unions` gives is an expansion. -/
theorem expandTypeAlternatives_of_found {alts : List Ty}
    (h : expandTupleUnions P n t = some (.found alts)) :
    expandTypeAlternatives P n t = some (.found alts) := by
  unfold expandTupleUnions at h
  split at h
  · rename_i own hown
    split at h
    · cases h
    · rwa [hown]
  · exact h

/-- An expansion keeps the meaning of the type in the comparison that uses it. -/
theorem distributes_of_expansion
    (hE : ∃ n r, expandTypeAlternatives P n t = some r ∧ Expansion P t r) : Distributes P t where
  expansion := by
    obtain ⟨n, r, hr, hexp⟩ := hE
    exact ⟨n, r, fun n' hn' => expandTypeAlternatives_more hn' hr, hexp⟩
  retry base errorf supers m R hR hholds v hv := by
    have hmembers : ∀ {e : Bool} {u : Ty}, HoldsIn P R (isXSubX e u (.uniontype supers) m) →
        ∀ v, Has P base u v → Has P base (.uniontype supers) v :=
      fun h v hv => hR _ (holdsIn_isXSubX.1 h) v hv
    rcases of_or hholds with h | h
    · obtain ⟨tree, htree, h⟩ := of_some h
      obtain ⟨super, hsuper, rfl⟩ := mem_map.1 htree
      exact .union hsuper (hR _ (holdsIn_isXSubX.1 h) v hv)
    rcases of_or h with h | h
    · -- the retry: every alternative is below the union
      unfold isTupleSubUnion at h
      split at h
      · obtain ⟨y, ⟨n, hn⟩, h⟩ := h
        cases y with
        | null | failed => simp at h
        | found alts =>
          cases Expansion.of_expand hE (expandTypeAlternatives_of_found hn) with
          | found _ _ _ hvalues =>
            obtain ⟨alt, halt, hv⟩ := has_uniontype.1 ((hvalues base v).2 hv)
            exact hmembers (of_every h _ (mem_map_of_mem halt)) v hv
      · simp at h
    split at h
    · rcases of_bind h with ⟨-, h⟩ | h
      · simp at h
      · simp at h
    · simp at h
  once n alts hn alt halt u hu := by
    cases Expansion.of_expand hE (expandTypeAlternatives_of_found hn) with
    | found _ _ hdist => exact ((hdist alt halt).part hu).once

/-- **Distributing tuples over unions keeps the meaning of a type** if and only if the expansion
comes to no endless chain of parts and to no alias whose unfolding fails. -/
theorem distributes_iff {T : Ty → Prop} (hW : Shaped P T) (ht : T t) :
    Distributes P t ↔ Settles P t := by
  constructor
  · intro h
    obtain ⟨n, r, hr, hE⟩ := h.expansion
    refine settles_of_expand hW ht (hr n le_rfl) ?_
    rintro rfl
    cases hE
  · exact fun h => distributes_of_expansion (h.expansion hW ht)

/-- `(Opt[C], D)`. -/
theorem distributes_optional : Distributes growingProgram
    (.tupletype [opt (plainType 9 .val), plainType 7 .val]) := by
  let C := plainType 9 .val
  let D := plainType 7 .val
  have hW : Shaped growingProgram fun t =>
      t ∈ [.tupletype [opt C, D], opt C, .uniontype [C, C], C, D] := by
    refine ⟨?_, ?_, ?_, ?_, ?_, ?_⟩
    · simp [C, D, opt, plainType]
    · simp [C, D, opt, plainType]
    · simp [C, D, opt, plainType]
    · simp [C, D, opt, plainType]
    · rintro d args cap eph h ht
      obtain ⟨rfl, rfl, rfl, rfl⟩ : d = 0 ∧ args = [C] ∧ cap = none ∧ eph = .none := by
        simpa [C, D, opt, plainType] using h
      cases ht
    rintro d args cap eph t h ht
    obtain ⟨rfl, rfl, rfl, rfl⟩ : d = 0 ∧ args = [C] ∧ cap = none ∧ eph = .none := by
      simpa [C, D, opt, plainType] using h
    cases ht
    simp [C]
  have hplain : ∀ n, Settles growingProgram (plainType n .val) :=
    fun n => ⟨id, fun u hu => by cases hu⟩
  have hunion : Settles growingProgram (.uniontype [C, C]) := by
    refine ⟨id, fun u hu => ?_⟩
    obtain rfl : u = C := by simpa using hu.mem_uniontype
    exact hplain 9
  have hopt : Settles growingProgram (opt C) := by
    refine ⟨(by rintro ⟨⟩), fun u hu => ?_⟩
    cases hu with
    | unfold ht =>
      cases ht
      exact hunion
  refine (distributes_iff hW (by simp [C, D])).2 ⟨id, fun u hu => ?_⟩
  obtain rfl | rfl : u = opt C ∨ u = D := by simpa using hu.mem_tupletype
  · exact hopt
  · exact hplain 7

/-- What the endless alias is made of has no expansion. -/
theorem growing_endless (n : Nat) (t : Ty) :
    expandTypeAlternatives growingProgram n (grown t) = none ∧
    expandTypeAlternatives growingProgram n (.uniontype [opt (grown t), plainType 9 .val]) = none ∧
    expandTypeAlternatives growingProgram n (opt (grown t)) = none ∧
    expandTypeAlternatives growingProgram n (.uniontype [grown t, plainType 9 .val]) = none := by
  induction n generalizing t with
  | zero => exact ⟨rfl, rfl, rfl, rfl⟩
  | succ n ih =>
    refine ⟨(ih (.tupletype [t, t])).2.1, ?_, (ih t).2.2.2, ?_⟩
    · simp only [expandTypeAlternatives, unionAlternatives, (ih t).2.2.1]
    · simp only [expandTypeAlternatives, unionAlternatives, (ih t).1]

/-- **An alias that the pass for recursive aliases accepts and that has no expansion.** -/
theorem growing_not_distributes :
    growingProgram.HasAliases growing ∧ Alias.passTypealiasRecursion growing = true ∧
      ¬ Distributes growingProgram (grown (plainType 9 .val)) := by
  refine ⟨growingProgram_hasAliases, by decide, fun h => ?_⟩
  obtain ⟨n, r, hr, -⟩ := h.expansion
  have hrun := hr n le_rfl
  rw [(growing_endless n _).1] at hrun
  cases hrun

end

end SpacePony.Subtype
