import SpacePony.Compiler.Type.Alias
import Mathlib.Data.Fintype.Card
import Mathlib.Data.Fintype.EquivFin
import Mathlib.Logic.Function.Iterate
import Mathlib.Logic.Relation
import Mathlib.Order.WellFounded

/-!
# Compiler — the inline structure of type aliases

Unfolding the aliases at inline positions must come to an end, and `typealias_unfold` must not meet
a definition twice.  Every type unfolds exactly when no alias stands inline in its own unfolding
(`unfolds_iff_acyclic`); `aliases_finite_iff` says when the inline structure of every type is finite
and no assertion fails.
-/

namespace SpacePony.Alias

open List

/-! ### Induction over types -/

/-- Induction over types together with lists of types. -/
theorem Ty.induct {P : Ty → Prop} {Q : List Ty → Prop}
    (nominal : ∀ id args, Q args → P (.nominal id args))
    (aliasref : ∀ name args, Q args → P (.aliasref name args)) (param : ∀ i, P (.param i))
    (compound : ∀ kind ts, Q ts → P (.compound kind ts))
    (arrow : ∀ left right, P left → P right → P (.arrow left right)) (leaf : P .leaf) (nil : Q [])
    (cons : ∀ t ts, P t → Q ts → Q (t :: ts)) : (∀ t, P t) ∧ ∀ ts, Q ts :=
  ⟨@Ty.rec P Q nominal aliasref param compound arrow leaf nil cons,
    @Ty.rec_1 P Q nominal aliasref param compound arrow leaf nil cons⟩

/-- Induction where the members of a list are taken one by one. -/
theorem Ty.ind {P : Ty → Prop} (t : Ty)
    (nominal : ∀ id args, (∀ t ∈ args, P t) → P (.nominal id args))
    (aliasref : ∀ name args, (∀ t ∈ args, P t) → P (.aliasref name args))
    (param : ∀ i, P (.param i)) (compound : ∀ kind ts, (∀ t ∈ ts, P t) → P (.compound kind ts))
    (arrow : ∀ left right, P left → P right → P (.arrow left right)) (leaf : P .leaf) : P t := by
  refine (Ty.induct (Q := fun ts => ∀ t ∈ ts, P t) nominal aliasref param compound arrow leaf nofun
    fun t ts ht hts u hu => ?_).1 t
  rcases mem_cons.1 hu with rfl | hu
  · exact ht
  · exact hts u hu

section
variable (prog : Program)

/-! ### Finite inline structure -/

mutual

/-- Every alias at an inline position is unfolded once. -/
def unfoldInline : Ty → Ty
  | .aliasref name args => unfoldOne prog name args
  | .compound kind ts => .compound kind (unfoldInlineAll ts)
  | .arrow left right => .arrow left (unfoldInline right)
  | t => t

def unfoldInlineAll : List Ty → List Ty
  | [] => []
  | t :: ts => unfoldInline t :: unfoldInlineAll ts

end

mutual

/-- Whether an alias stands at an inline position. -/
def hasInlineAlias : Ty → Bool
  | .aliasref _ _ => true
  | .compound _ ts => anyInlineAlias ts
  | .arrow _ right => hasInlineAlias right
  | _ => false

def anyInlineAlias : List Ty → Bool
  | [] => false
  | t :: ts => hasInlineAlias t || anyInlineAlias ts

end

/-- The inline structure of a type is finite: finitely many rounds of unfolding leave no alias at an
inline position. -/
def FiniteInline (t : Ty) : Prop := ∃ k, hasInlineAlias ((unfoldInline prog)^[k] t) = false

/-- The same, as a finite derivation. -/
inductive Unfolds : Ty → Prop
  | nominal (id : Nat) (args : List Ty) : Unfolds (.nominal id args)
  | param (index : Nat) : Unfolds (.param index)
  | leaf : Unfolds .leaf
  | compound (kind : Compound) {ts : List Ty} (h : ∀ t ∈ ts, Unfolds t) :
      Unfolds (.compound kind ts)
  | arrow (left : Ty) {right : Ty} (h : Unfolds right) : Unfolds (.arrow left right)
  | aliasref {name : Nat} {args : List Ty} (h : Unfolds (unfoldOne prog name args)) :
      Unfolds (.aliasref name args)

variable {prog}

theorem unfoldInlineAll_eq_map (ts : List Ty) :
    unfoldInlineAll prog ts = ts.map (unfoldInline prog) := by
  induction ts with
  | nil => rfl
  | cons t ts ih => rw [unfoldInlineAll, ih, map_cons]

theorem anyInlineAlias_eq_false {ts : List Ty} :
    anyInlineAlias ts = false ↔ ∀ t ∈ ts, hasInlineAlias t = false := by
  induction ts with
  | nil => simp [anyInlineAlias]
  | cons t ts ih => simp [anyInlineAlias, ih]

/-- Where no alias stands inline there is nothing to unfold. -/
theorem unfoldInline_eq_self (t : Ty) (h : hasInlineAlias t = false) : unfoldInline prog t = t := by
  induction t using Ty.ind with
  | nominal => rfl
  | aliasref => cases h
  | param | leaf => rfl
  | arrow left right _ ih => rw [unfoldInline, ih h]
  | compound kind ts ih =>
    have hall := anyInlineAlias_eq_false.1 h
    rw [unfoldInline, unfoldInlineAll_eq_map, map_congr_left fun t ht => ih t ht (hall t ht),
      map_id']

theorem iterate_compound (kind : Compound) (ts : List Ty) (k : Nat) :
    (unfoldInline prog)^[k] (.compound kind ts) = .compound kind (ts.map (unfoldInline prog)^[k]) := by
  induction k generalizing ts with
  | zero => simp
  | succ k ih =>
    rw [Function.iterate_succ_apply, unfoldInline, unfoldInlineAll_eq_map, ih, map_map]
    rfl

theorem iterate_arrow (left right : Ty) (k : Nat) :
    (unfoldInline prog)^[k] (.arrow left right) = .arrow left ((unfoldInline prog)^[k] right) := by
  induction k generalizing right with
  | zero => rfl
  | succ k ih => rw [Function.iterate_succ_apply, unfoldInline, ih, Function.iterate_succ_apply]

variable {t : Ty} {args : List Ty}

/-- More rounds change nothing once no alias stands inline. -/
theorem iterate_of_le {k k' : Nat} (hk : k ≤ k')
    (h : hasInlineAlias ((unfoldInline prog)^[k] t) = false) :
    hasInlineAlias ((unfoldInline prog)^[k'] t) = false := by
  obtain ⟨d, rfl⟩ := Nat.exists_eq_add_of_le hk
  induction d with
  | zero => exact h
  | succ d ih =>
    have hd := ih (Nat.le_add_right k d)
    rw [← Nat.add_assoc, Function.iterate_succ_apply', unfoldInline_eq_self _ hd]
    exact hd

/-- A list of types that are finite inline is so after one number of rounds. -/
theorem exists_rounds {ts : List Ty} (h : ∀ t ∈ ts, FiniteInline prog t) :
    ∃ k, ∀ t ∈ ts, hasInlineAlias ((unfoldInline prog)^[k] t) = false := by
  induction ts with
  | nil => exact ⟨0, nofun⟩
  | cons t ts ih =>
    obtain ⟨k, hk⟩ := h t (.head _)
    obtain ⟨k', hk'⟩ := ih fun t ht => h t (.tail _ ht)
    refine ⟨max k k', fun u hu => ?_⟩
    rcases mem_cons.1 hu with rfl | hu
    · exact iterate_of_le (Nat.le_max_left k k') hk
    · exact iterate_of_le (Nat.le_max_right k k') (hk' u hu)

theorem Unfolds.finiteInline (h : Unfolds prog t) : FiniteInline prog t := by
  induction h with
  | nominal | param | leaf => exact ⟨0, rfl⟩
  | compound kind _ ih =>
    obtain ⟨k, hk⟩ := exists_rounds ih
    refine ⟨k, ?_⟩
    rw [iterate_compound]
    refine anyInlineAlias_eq_false.2 fun t ht => ?_
    obtain ⟨u, hu, rfl⟩ := mem_map.1 ht
    exact hk u hu
  | arrow left _ ih =>
    obtain ⟨k, hk⟩ := ih
    exact ⟨k, by rw [iterate_arrow]; exact hk⟩
  | aliasref _ ih =>
    obtain ⟨k, hk⟩ := ih
    exact ⟨k + 1, hk⟩

theorem unfolds_of_hasInlineAlias (t : Ty) (h : hasInlineAlias t = false) : Unfolds prog t := by
  induction t using Ty.ind with
  | nominal id args => exact .nominal id args
  | aliasref => cases h
  | param i => exact .param i
  | leaf => exact .leaf
  | arrow left right _ ih => exact .arrow left (ih h)
  | compound kind ts ih =>
    exact .compound kind fun t ht => ih t ht (anyInlineAlias_eq_false.1 h t ht)

theorem unfolds_of_unfoldInline (t : Ty) (h : Unfolds prog (unfoldInline prog t)) :
    Unfolds prog t := by
  induction t using Ty.ind with
  | nominal id args => exact .nominal id args
  | aliasref name args => exact .aliasref h
  | param i => exact .param i
  | leaf => exact .leaf
  | arrow left right _ ih =>
    cases h with
    | arrow _ h => exact .arrow left (ih h)
  | compound kind ts ih =>
    rw [unfoldInline, unfoldInlineAll_eq_map] at h
    cases h with
    | compound _ h =>
      exact .compound kind fun t ht => ih t ht (h _ (mem_map_of_mem ht))

/-- **Finite inline structure** is a finite derivation. -/
theorem finiteInline_iff_unfolds (t : Ty) : FiniteInline prog t ↔ Unfolds prog t := by
  refine ⟨?_, Unfolds.finiteInline⟩
  rintro ⟨k, hk⟩
  induction k generalizing t with
  | zero => exact unfolds_of_hasInlineAlias t hk
  | succ k ih => exact unfolds_of_unfoldInline t (ih _ hk)

/-! ### What stands inline -/

variable (prog) in
/-- The parameter stands inline in the type, also where an alias puts its argument inline. -/
inductive InlineParam : Ty → Nat → Prop
  | param (index : Nat) : InlineParam (.param index) index
  | compound (kind : Compound) {ts : List Ty} {t : Ty} {index : Nat} (hmem : t ∈ ts)
      (h : InlineParam t index) : InlineParam (.compound kind ts) index
  | arrow (left : Ty) {right : Ty} {index : Nat} (h : InlineParam right index) :
      InlineParam (.arrow left right) index
  | aliasref {name j index : Nat} {args : List Ty} {t : Ty} (hused : InlineParam (prog.body name) j)
      (harg : args[j]? = some t) (h : InlineParam t index) : InlineParam (.aliasref name args) index

variable (prog) in
/-- The alias stands inline in the type, also where another alias puts its argument inline. -/
inductive InlineRef : Ty → Nat → Prop
  | here (name : Nat) (args : List Ty) : InlineRef (.aliasref name args) name
  | compound (kind : Compound) {ts : List Ty} {t : Ty} {e : Nat} (hmem : t ∈ ts)
      (h : InlineRef t e) : InlineRef (.compound kind ts) e
  | arrow (left : Ty) {right : Ty} {e : Nat} (h : InlineRef right e) :
      InlineRef (.arrow left right) e
  | arg {name j e : Nat} {args : List Ty} {t : Ty} (hused : InlineParam prog (prog.body name) j)
      (harg : args[j]? = some t) (h : InlineRef t e) : InlineRef (.aliasref name args) e

variable (prog) in
/-- The second alias stands inline in the body of the first. -/
def InlineEdge (d e : Nat) : Prop := InlineRef prog (prog.body d) e

theorem InlineRef.reify {e : Nat} (h : InlineRef prog t e) (args : List Ty) :
    InlineRef prog (t.reify args) e := by
  induction h with
  | here name ts =>
    rw [Ty.reify_aliasref]
    exact .here name _
  | compound kind hmem _ ih =>
    rw [Ty.reify_compound]
    exact .compound kind (mem_map_of_mem hmem) ih
  | arrow left _ ih => exact .arrow _ ih
  | arg hused harg _ ih =>
    rw [Ty.reify_aliasref]
    exact .arg hused (by rw [getElem?_map, harg]; rfl) ih

/-- What stands inline in an argument stands inline where the parameter stood. -/
theorem InlineParam.reify_ref {a : Ty} {j e : Nat} (h : InlineParam prog t j)
    (harg : args[j]? = some a) (ha : InlineRef prog a e) : InlineRef prog (t.reify args) e := by
  induction h with
  | param i =>
    rw [Ty.reify, harg]
    exact ha
  | compound kind hmem _ ih =>
    rw [Ty.reify_compound]
    exact .compound kind (mem_map_of_mem hmem) (ih harg)
  | arrow left _ ih => exact .arrow _ (ih harg)
  | aliasref hused hk _ _ ih =>
    rw [Ty.reify_aliasref]
    exact .arg hused (by rw [getElem?_map, hk]; rfl) (ih harg)

/-! ### Unfolding and cycles -/

/-- The arguments that an alias puts inline unfold. -/
def ArgsUnfold (prog : Program) (t : Ty) (args : List Ty) : Prop :=
  ∀ j a, InlineParam prog t j → args[j]? = some a → Unfolds prog a

/-- A type with arguments in it unfolds where the aliases and the arguments inline in it do. -/
theorem unfolds_reify (t : Ty)
    (hrefs : ∀ e, InlineRef prog t e → ∀ bs, ArgsUnfold prog (prog.body e) bs →
      Unfolds prog (.aliasref e bs))
    (hargs : ArgsUnfold prog t args) : Unfolds prog (t.reify args) := by
  induction t using Ty.ind with
  | nominal id ts => exact .nominal id _
  | leaf => exact .leaf
  | param i =>
    rw [Ty.reify]
    cases h : args[i]? with
    | some a => exact hargs i a (.param i) h
    | none => exact .leaf
  | arrow left right _ ih =>
    exact .arrow _ (ih (fun e he => hrefs e (.arrow left he))
      fun j a hj => hargs j a (.arrow left hj))
  | compound kind ts ih =>
    rw [Ty.reify_compound]
    refine .compound kind fun u hu => ?_
    obtain ⟨t, ht, rfl⟩ := mem_map.1 hu
    exact ih t ht (fun e he => hrefs e (.compound kind ht he))
      fun j a hj => hargs j a (.compound kind ht hj)
  | aliasref name bs ih =>
    rw [Ty.reify_aliasref]
    refine hrefs name (.here name bs) _ fun j a hj ha => ?_
    obtain ⟨b, hb, rfl⟩ : ∃ b, bs[j]? = some b ∧ b.reify args = a := by
      rw [getElem?_map] at ha
      exact Option.map_eq_some_iff.1 ha
    exact ih b (mem_of_getElem? hb) (fun e he => hrefs e (.arg hj hb he))
      fun i a hi => hargs i a (.aliasref hj hb hi)

/-- An alias below which there is no infinite descent. -/
theorem unfolds_of_acc {d : Nat} (hd : Acc (fun e d => InlineEdge prog d e) d) :
    ∀ args, ArgsUnfold prog (prog.body d) args → Unfolds prog (.aliasref d args) := by
  induction hd with
  | intro d _ ih => exact fun args hargs => .aliasref (unfolds_reify _ ih hargs)

theorem unfolds_of_wellFounded (h : WellFounded fun e d => InlineEdge prog d e) (t : Ty) :
    Unfolds prog t := by
  induction t using Ty.ind with
  | nominal id args => exact .nominal id args
  | param i => exact .param i
  | leaf => exact .leaf
  | arrow left right _ ih => exact .arrow left ih
  | compound kind ts ih => exact .compound kind ih
  | aliasref name args ih =>
    exact unfolds_of_acc (h.apply name) args fun j a _ ha => ih a (mem_of_getElem? ha)

/-- Below an alias that stands inline in a type that unfolds there is no infinite descent. -/
theorem acc_of_unfolds (h : Unfolds prog t) :
    ∀ e, InlineRef prog t e → Acc (fun e d => InlineEdge prog d e) e := by
  induction h with
  | nominal | param | leaf => exact nofun
  | compound kind _ ih =>
    intro e he
    cases he with
    | compound _ hmem he => exact ih _ hmem e he
  | arrow left _ ih =>
    intro e he
    cases he with
    | arrow _ he => exact ih e he
  | aliasref _ ih =>
    intro e he
    cases he with
    | here => exact ⟨_, fun e' he' => ih e' (he'.reify _)⟩
    | arg hused harg he => exact ih e (hused.reify_ref harg he)

theorem wellFounded_iff_unfolds :
    (WellFounded fun e d => InlineEdge prog d e) ↔ ∀ t, Unfolds prog t := by
  refine ⟨unfolds_of_wellFounded, fun h => ⟨fun d => ?_⟩⟩
  exact acc_of_unfolds (h (.aliasref d [])) d (.here d [])

variable (prog) in
/-- No alias leads inline to itself. -/
def InlineAcyclic : Prop := ∀ d, ¬ Relation.TransGen (InlineEdge prog) d d

/-- A name that is not defined leads nowhere. -/
theorem not_inlineEdge {d e : Nat} (hd : ¬ d < prog.length) : ¬ InlineEdge prog d e := by
  intro h
  rw [InlineEdge, Program.body, getElem?_eq_none (Nat.le_of_not_lt hd)] at h
  cases h

/-- A program has finitely many definitions, so that descent without end is a cycle. -/
theorem inlineAcyclic_iff_wellFounded :
    InlineAcyclic prog ↔ WellFounded fun e d => InlineEdge prog d e := by
  constructor
  · intro hacyclic
    let lower : Fin prog.length → Fin prog.length → Prop := fun e d =>
      Relation.TransGen (InlineEdge prog) d e
    have : Std.Irrefl lower := ⟨fun a => hacyclic a⟩
    have hwf : WellFounded lower := Finite.wellFounded_of_trans_of_irrefl lower
    have hundefined : ∀ d, ¬ d < prog.length → Acc (fun e d => InlineEdge prog d e) d :=
      fun d hd => ⟨d, fun e he => absurd he (not_inlineEdge hd)⟩
    have hdefined : ∀ d : Fin prog.length, Acc (fun e d => InlineEdge prog d e) d.val := by
      intro d
      induction hwf.apply d with
      | intro d _ ih =>
        refine ⟨_, fun e he => ?_⟩
        by_cases hlt : e < prog.length
        · exact ih ⟨e, hlt⟩ (.single he)
        · exact hundefined e hlt
    refine ⟨fun d => ?_⟩
    by_cases hd : d < prog.length
    · exact hdefined ⟨d, hd⟩
    · exact hundefined d hd
  intro hwf d hd
  have hswap : Relation.TransGen (fun e d => InlineEdge prog d e) d d :=
    Relation.transGen_swap.1 hd
  exact hwf.transGen.irrefl.irrefl d hswap

/-- **Every type unfolds exactly when no alias stands inline in its own unfolding.** -/
theorem unfolds_iff_acyclic : (∀ t, FiniteInline prog t) ↔ InlineAcyclic prog := by
  rw [inlineAcyclic_iff_wellFounded, wellFounded_iff_unfolds]
  simp only [finiteInline_iff_unfolds]

/-! ### The check of `typealias_unfold` -/

variable (prog) in
/-- `type Id[T] is T`: the body of an alias is one of its parameters. -/
def ForwardsParam : Prop := ∃ name index, prog.body name = .param index

/-- The alias that an alias is unfolded to is that of its body, unless the body is a parameter. -/
theorem inlineEdge_of_unfoldOne (h : ¬ ForwardsParam prog) {name name' : Nat} {args' : List Ty}
    (hunfold : unfoldOne prog name args = .aliasref name' args') : InlineEdge prog name name' := by
  rw [unfoldOne] at hunfold
  cases hbody : prog.body name with
  | aliasref e bs =>
    rw [hbody, Ty.reify_aliasref] at hunfold
    cases hunfold
    rw [InlineEdge, hbody]
    exact .here name' bs
  | param i => exact absurd ⟨name, i, hbody⟩ h
  | nominal id ts | compound kind ts | arrow left right
  | leaf => rw [hbody] at hunfold; cases hunfold

/-- The loop does not come to a definition that leads to the next one. -/
theorem unfoldLoop_ne_cycle (hacyclic : InlineAcyclic prog) (hparam : ¬ ForwardsParam prog)
    (visited : List Nat) (t : Ty) (hlead : ∀ name args, t = .aliasref name args →
      ∀ v ∈ visited, Relation.TransGen (InlineEdge prog) v name) :
    unfoldLoop prog visited t ≠ .cycle := by
  induction visited, t using unfoldLoop.induct prog with
  | case1 visited name args hvisited =>
    exact absurd (hlead name args rfl name hvisited) (hacyclic name)
  | case2 visited name args hvisited hname ih =>
    rw [unfoldLoop, dif_neg hvisited, dif_pos hname]
    refine ih fun name' args' h v hv => ?_
    have hedge := inlineEdge_of_unfoldOne hparam h
    rcases mem_cons.1 hv with rfl | hv
    · exact .single hedge
    · exact .tail (hlead name args rfl v hv) hedge
  | case3 visited name args hvisited hname =>
    rw [unfoldLoop, dif_neg hvisited, dif_neg hname]
    exact nofun
  | case4 visited t hne =>
    unfold unfoldLoop
    split
    · exact absurd rfl (hne _ _)
    · exact nofun

/-- An alias that is one of its parameters meets itself in its argument. -/
theorem typealiasUnfold_forwards {name index : Nat} (h : prog.body name = .param index) :
    typealiasUnfold prog name (replicate (index + 1) (.aliasref name [])) = .cycle := by
  have hone : unfoldOne prog name (replicate (index + 1) (.aliasref name [])) =
      .aliasref name [] := by
    rw [unfoldOne, h, Ty.reify, getElem?_replicate_of_lt (Nat.lt_succ_self index)]
    rfl
  rw [typealiasUnfold, hone, unfoldLoop, dif_pos (.head _)]

variable (prog) in
/-- The inline structure of every type is finite, and no unfolding fails its assertion. -/
def WellBehaved : Prop :=
  (∀ t, FiniteInline prog t) ∧ ∀ name args, typealiasUnfold prog name args ≠ .cycle

theorem wellBehaved_iff : WellBehaved prog ↔ InlineAcyclic prog ∧ ¬ ForwardsParam prog := by
  rw [WellBehaved, unfolds_iff_acyclic]
  refine and_congr_right fun hacyclic => ⟨fun h => ?_, fun hparam name args => ?_⟩
  · rintro ⟨name, index, hbody⟩
    exact h name _ (typealiasUnfold_forwards hbody)
  refine unfoldLoop_ne_cycle hacyclic hparam [name] _ fun name' args' h v hv => ?_
  rw [mem_singleton] at hv
  subst hv
  exact .single (inlineEdge_of_unfoldOne hparam h)

end

/-- **When the legal aliases have a finite inline structure.**  For every program: that it passes the
legality check implies that unfolding ends for every type and fails no assertion, if and only if it
implies that no alias leads inline to itself, through bodies and through the arguments that aliases
put inline, and that no alias is just one of its parameters. -/
theorem aliases_finite_iff (prog : Program) :
    (passTypealiasRecursion prog = true → WellBehaved prog) ↔
      (passTypealiasRecursion prog = true → InlineAcyclic prog ∧ ¬ ForwardsParam prog) := by
  rw [wellBehaved_iff]

/-! ### A legal alias without an end -/

/-- `type Id[T] is T`, `type M[X] is Id[Id[X]]` and `type R is M[R]`. -/
def endless : Program :=
  [.param 0, .aliasref 0 [.aliasref 0 [.param 0]], .aliasref 1 [.aliasref 2 []]]

/-- **The pass lets an endless alias through**: the use of `X` in `Id[Id[X]]` is not seen, for `Id`
has been visited, and so `R` has no edge to itself; and `Id[Id[U64]]` fails the assertion. -/
theorem endless_is_accepted :
    passTypealiasRecursion endless = true ∧ ¬ FiniteInline endless (.aliasref 2 []) ∧
      typealiasUnfold endless 0 [.aliasref 0 [.nominal 0 []]] = .cycle := by
  refine ⟨by decide, fun h => ?_, ?_⟩
  · have hidParam : InlineParam endless (endless.body 0) 0 := .param 0
    have hparam : InlineParam endless (endless.body 1) 0 :=
      .aliasref hidParam rfl (.aliasref hidParam rfl (.param 0))
    have hself : InlineEdge endless 2 2 := .arg hparam rfl (.here 2 [])
    have hacc := acc_of_unfolds ((finiteInline_iff_unfolds _).1 h) 2 (.here 2 [])
    have hfalse : ∀ d, Acc (fun e d => InlineEdge endless d e) d → d ≠ 2 := by
      intro d hd
      induction hd with
      | intro d _ ih =>
        rintro rfl
        exact ih 2 hself rfl
    exact hfalse 2 hacc rfl
  · have hone : unfoldOne endless 0 [.aliasref 0 [.nominal 0 []]] = .aliasref 0 [.nominal 0 []] := rfl
    rw [typealiasUnfold, hone, unfoldLoop, dif_pos mem_cons_self]

end SpacePony.Alias
