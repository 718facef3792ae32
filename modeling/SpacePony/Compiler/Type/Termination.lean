import Mathlib.Algebra.GroupWithZero.Nat
import SpacePony.Compiler.Type.Transparent
import Mathlib.Algebra.Order.BigOperators.Group.List
import Mathlib.Algebra.Order.Group.Nat
import Mathlib.Algebra.Order.BigOperators.Group.Finset
import Mathlib.Data.Finset.Prod

/-!
# Type — when a comparison comes to an end

`is_x_sub_x` decomposes the two types until both are nominal.  From there a comparison can go on to
types of any size, but only four comparisons of the same two definitions can be under way at once.

So it comes to an end where the decomposition does, and that is up to the aliases
(`subtype_terminates`).
-/

namespace SpacePony.Subtype

open Nat Option List

/-- The types in the signature of a method. -/
structure Method.Over (T : Ty → Prop) (f : Method) : Prop where
  typeparams : ∀ t ∈ f.typeparams, T t
  params : ∀ p ∈ f.params, T p.type
  result : T f.result.type

/-- The types `T` of a program with finitely many definitions, and their size. -/
structure Table (P : Program) (defs : Finset Nat) (T : Ty → Prop) (size : Ty → Nat) : Prop where
  defn {d args cap eph} (h : T (.nominal d args cap eph)) : d ∈ defs
  typearg {d args cap eph} (h : T (.nominal d args cap eph)) : ∀ t ∈ args, T t
  valueParamType (d index : Nat) : T (P.valueParamType d index)
  method {d args cap eph f} (h : T (.nominal d args cap eph))
    (hf : f ∈ P.members d ∨ ∃ name, P.get d name = some f) : (P.reifyMethodDef d args f).Over T
  reifyWith {f g} (hf : f.Over T) (hg : g.Over T) : (P.reifyWith f g).Over T
  consumeType {p c} (h : T p.type) (hc : P.consumeType p = some c) : T c.type
  trait {d args cap eph cap' eph' child t} (h : T (.nominal d args cap eph))
    (hc : child ∈ P.traits d args) (ht : setCapAndEphemeral cap' eph' child = some t) : T t
  union {ts} (h : T (.uniontype ts)) : ∀ t ∈ ts, T t ∧ size t < size (.uniontype ts)
  isect {ts} (h : T (.isecttype ts)) : ∀ t ∈ ts, T t ∧ size t < size (.isecttype ts)
  tuple (ts) : T (.tupletype ts) ↔ ∀ t ∈ ts, T t
  tuple_size (ts) : size (.tupletype ts) = (ts.map size).sum + 1
  unfold {d args cap eph t} (h : T (.typealiasref d args cap eph))
    (ht : P.typealiasUnfold d args cap eph = .found t) :
    T t ∧ size t < size (.typealiasref d args cap eph)
  bound {d cap eph t} (h : T (.typeparamref d cap eph))
    (ht : P.typeparamConstraint d = some t ∨ P.typeparamLower d cap eph = some t ∨
      P.typeparamUpper d cap eph = some t) : T t ∧ size t < size (.typeparamref d cap eph)
  right {left right} (h : T (.arrow left right)) : T right ∧ size right < size (.arrow left right)
  view {left right t} (h : T (.arrow left right))
    (ht : P.viewpointLower left right = some t ∨ P.viewpointUpper left right = some t) :
    T t ∧ size t < size (.arrow left right)
  reify {t d cap eph r} (h : T t)
    (hr : P.viewpointReifytypeparam t (.typeparamref d cap eph) = some r) :
    ∃ ts, r = .tupletype ts ∧ ∀ u ∈ ts, T u ∧ size u ≤ size t
  reify_self {d cap eph ts} (h : T (.typeparamref d cap eph))
    (hr : P.viewpointReifytypeparam (.typeparamref d cap eph) (.typeparamref d cap eph) =
      some (.tupletype ts)) : ∀ u ∈ ts, size u < size (.typeparamref d cap eph)
  reifypair {a b a' b'} (ha : T a) (hb : T b) (hr : P.viewpointReifypair a b = some (a', b')) :
    ∃ ts us, a' = .tupletype ts ∧ b' = .tupletype us ∧ (∀ t ∈ ts, T t ∧ size t < size a) ∧
      ∀ u ∈ us, T u ∧ size u ≤ size b
  ref {d t} (h : T (.valueformalparamref d))
    (ht : P.refType d = some t ∨ P.nameType d = some t ∨ t = .valueformalparam d) :
    T t ∧ size t < size (.valueformalparamref d)
  value {v t} (h : T (.valueformalarg v)) (ht : P.valueType v = some t) :
    T t ∧ size t < size (.valueformalarg v)

/-! ### The size of a comparison -/

section
variable (size : Ty → Nat)

/-- The size of two types. -/
def weight (s t : Ty) : Nat := 2 * (size s + size t) + 2

/-- The size of a comparison.  Two tuples are compared element by element. -/
def measure : Ty → Ty → Nat
  | .tupletype ss, .tupletype ts => ((ss.zip ts).map fun p => weight size p.1 p.2).foldr max 0 + 1
  | s, t => weight size s t

def Query.measure (q : Query) : Nat := Subtype.measure size q.sub q.super

/-- A comparison that a comparison may ask for: of two types of the program, and smaller unless it
comes from two nominal types. -/
def Descends (T : Ty → Prop) (q q' : Query) : Prop :=
  (T q'.sub ∧ T q'.super) ∧ (q.nominalDefs = none → q'.measure size < q.measure size)

end

variable {ts : List Ty} {d : Nat}

section
variable {P : Program} {defs : Finset Nat} {T : Ty → Prop} {size : Ty → Nat}

theorem le_foldr_max {l : List Nat} {n : Nat} (h : n ∈ l) : n ≤ l.foldr max 0 := by
  induction l with
  | nil => cases h
  | cons m l ih =>
    rcases mem_cons.1 h with rfl | h
    · exact le_max_left _ _
    · exact (ih h).trans (le_max_right _ _)

theorem foldr_max_le {l : List Nat} {n : Nat} (h : ∀ m ∈ l, m ≤ n) : l.foldr max 0 ≤ n := by
  induction l with
  | nil => exact zero_le n
  | cons m l ih =>
    obtain ⟨hm, hl⟩ := forall_mem_cons.1 h
    exact max_le hm (ih hl)

theorem measure_of_ne {s t : Ty} (h : ∀ ss ts, s = .tupletype ss → t ≠ .tupletype ts) :
    measure size s t = weight size s t := by
  cases s with
  | tupletype ss =>
    cases t with
    | tupletype ts => exact absurd rfl (h ss ts rfl)
    | _ => rfl
  | _ => rfl

/-- An element is smaller than its tuple. -/
theorem Table.size_elem (hP : Table P defs T size) {t : Ty} (ht : t ∈ ts) :
    size t < size (.tupletype ts) := by
  rw [hP.tuple_size]
  exact lt_succ_of_le (single_le_sum (fun _ _ => zero_le _) _ (mem_map_of_mem ht))

variable {ss alts : List Ty} {expand : Ty → Option (Lookup (List Ty))} {q : Query}
  {stack : List Query}

/-- The size of the comparison of two tuples, all of whose elements are small. -/
theorem measure_tuple_le {n : Nat} (h : ∀ p ∈ ss.zip ts, weight size p.1 p.2 ≤ n) :
    measure size (.tupletype ss) (.tupletype ts) ≤ n + 1 := by
  refine succ_le_succ (foldr_max_le fun m hm => ?_)
  obtain ⟨p, hp, rfl⟩ := mem_map.1 hm
  exact h p hp

theorem Table.measure_le (hP : Table P defs T size) (s t : Ty) :
    measure size s t ≤ weight size s t := by
  cases s with
  | tupletype ss =>
    cases t with
    | tupletype ts =>
      refine (measure_tuple_le (n := weight size (.tupletype ss) (.tupletype ts) - 1) ?_).trans ?_
      · rintro ⟨u, v⟩ hp
        obtain ⟨hu, hv⟩ := of_mem_zip hp
        have := hP.size_elem hu
        have := hP.size_elem hv
        simp only [weight]
        omega
      · simp only [weight]
        omega
    | _ => exact le_rfl
  | _ => exact le_rfl

/-- Two elements are smaller than their tuples. -/
theorem Table.measure_elem (hP : Table P defs T size) {p : Ty × Ty} (hp : p ∈ ss.zip ts) :
    measure size p.1 p.2 < measure size (.tupletype ss) (.tupletype ts) :=
  lt_succ_of_le ((hP.measure_le p.1 p.2).trans (le_foldr_max (mem_map.2 ⟨p, hp, rfl⟩)))

/-! ### The alternatives of a tuple -/

/-- What the alternatives of a type are made of: they are no larger, and smaller if there are
several. -/
def SmallAlternatives (T : Ty → Prop) (size : Ty → Nat) (t : Ty) (alts : List Ty) : Prop :=
  ∀ alt ∈ alts, T alt ∧ size alt ≤ size t ∧ (1 < alts.length → size alt < size t)

theorem unionAlternatives_small {result : List Ty} {n : Nat}
    (hexpand : ∀ t ∈ ts, ∀ own, expand t = some (.found own) → ∀ alt ∈ own, T alt ∧ size alt < n)
    (hresult : ∀ alt ∈ result, T alt ∧ size alt < n)
    (h : unionAlternatives expand ts result = some (.found alts)) :
    ∀ alt ∈ alts, T alt ∧ size alt < n := by
  induction ts generalizing result with
  | nil =>
    cases h
    exact hresult
  | cons t ts ih =>
    obtain ⟨ht, hts⟩ := forall_mem_cons.1 hexpand
    simp only [unionAlternatives] at h
    split at h
    · cases h
    · cases h
    · cases h
    rename_i own hown
    split at h
    · cases h
    · refine ih hts ?_ h
      exact forall_mem_append.2 ⟨hresult, ht own hown⟩

/-- The tuples so far, of elements that are no larger than `done`: if there are several, they are
smaller. -/
def SmallTuples (T : Ty → Prop) (size : Ty → Nat) (done : List Ty) (result : List (List Ty)) :
    Prop :=
  ∀ us ∈ result, (∀ u ∈ us, T u) ∧ (us.map size).sum ≤ (done.map size).sum ∧
    (1 < result.length → (us.map size).sum < (done.map size).sum)

theorem SmallTuples.extend {done : List Ty} {result : List (List Ty)} {t : Ty} {own : List Ty}
    (hresult : SmallTuples T size done result) (hown : SmallAlternatives T size t own) :
    SmallTuples T size (done ++ [t])
      (result.flatMap fun tuple => own.map fun alt => tuple ++ [alt]) := by
  intro us hus
  obtain ⟨tuple, htuple, hus⟩ := List.mem_flatMap.1 hus
  obtain ⟨alt, halt, rfl⟩ := List.mem_map.1 hus
  obtain ⟨hT, hle, hlt⟩ := hresult tuple htuple
  obtain ⟨hTalt, hlealt, hltalt⟩ := hown alt halt
  have hsum : ∀ l : List Ty, ∀ x, ((l ++ [x]).map size).sum = (l.map size).sum + size x := by
    intro l x
    simp
  rw [hsum, hsum]
  refine ⟨?_, Nat.add_le_add hle hlealt, fun hlen => ?_⟩
  · exact List.forall_mem_append.2 ⟨hT, List.forall_mem_singleton.2 hTalt⟩
  have hprod : (result.flatMap fun tuple => own.map fun alt => tuple ++ [alt]).length =
      result.length * own.length := by
    simp [length_flatMap]
  rw [hprod] at hlen
  by_cases hr : 1 < result.length
  · exact Nat.add_lt_add_of_lt_of_le (hlt hr) hlealt
  have ho : 1 < own.length := by
    by_contra ho
    have := Nat.mul_le_mul (Nat.le_of_not_lt hr) (Nat.le_of_not_lt ho)
    omega
  exact Nat.add_lt_add_of_le_of_lt hle (hltalt ho)

theorem tupleAlternatives_small {done : List Ty} {result : List (List Ty)}
    (hexpand : ∀ t ∈ ts, ∀ own, expand t = some (.found own) → SmallAlternatives T size t own)
    (hresult : SmallTuples T size done result)
    (h : tupleAlternatives expand ts result = some (.found alts)) :
    ∃ final, alts = final.map .tupletype ∧ SmallTuples T size (done ++ ts) final := by
  induction ts generalizing done result with
  | nil =>
    cases h
    exact ⟨result, rfl, by rwa [append_nil]⟩
  | cons t ts ih =>
    obtain ⟨ht, hts⟩ := forall_mem_cons.1 hexpand
    simp only [tupleAlternatives] at h
    split at h
    · cases h
    · cases h
    · cases h
    rename_i own hown
    split at h
    · cases h
    · obtain ⟨final, hfinal, hsmall⟩ := ih hts (hresult.extend (ht own hown)) h
      exact ⟨final, hfinal, by rwa [append_assoc] at hsmall⟩

theorem Table.expandTypeAlternatives_small (hP : Table P defs T size) {n : Nat} {t : Ty} (ht : T t)
    (h : expandTypeAlternatives P n t = some (.found alts)) : SmallAlternatives T size t alts := by
  induction n generalizing t alts with
  | zero => cases h
  | succ n ih =>
    have hstrict : (∀ alt ∈ alts, T alt ∧ size alt < size t) → SmallAlternatives T size t alts :=
      fun hall alt halt => ⟨(hall alt halt).1, (hall alt halt).2.le, fun _ => (hall alt halt).2⟩
    cases t with
    | uniontype ts =>
      refine hstrict (unionAlternatives_small (fun u hu own hown alt halt => ?_)
        (forall_mem_nil _) h)
      obtain ⟨hTu, hlt⟩ := hP.union ht u hu
      obtain ⟨hTalt, hle, -⟩ := ih hTu hown alt halt
      exact ⟨hTalt, hle.trans_lt hlt⟩
    | tupletype ts =>
      have hstart : SmallTuples T size [] [[]] :=
        forall_mem_singleton.2 ⟨nofun, le_rfl, fun h => absurd h (lt_irrefl 1)⟩
      obtain ⟨final, rfl, hfinal⟩ := tupleAlternatives_small
        (fun u hu own hown => ih ((hP.tuple ts).1 ht u hu) hown) hstart h
      intro alt halt
      obtain ⟨us, hus, rfl⟩ := mem_map.1 halt
      obtain ⟨hT, hle, hlt⟩ := hfinal us hus
      rw [hP.tuple_size, hP.tuple_size, length_map]
      exact ⟨(hP.tuple us).2 hT, succ_le_succ hle, fun hlen => succ_lt_succ (hlt hlen)⟩
    | typealiasref d args cap eph =>
      simp only [expandTypeAlternatives] at h
      split at h
      · cases h
        exact forall_mem_singleton.2 ⟨ht, le_rfl, fun h => absurd h (lt_irrefl 1)⟩
      · cases h
      rename_i u hu
      obtain ⟨hTu, hlt⟩ := hP.unfold ht hu
      refine hstrict fun alt halt => ?_
      obtain ⟨hTalt, hle, -⟩ := ih hTu h alt halt
      exact ⟨hTalt, hle.trans_lt hlt⟩
    | _ =>
      -- any other type is its only alternative
      cases h
      exact forall_mem_singleton.2 ⟨ht, le_rfl, fun h => absurd h (lt_irrefl 1)⟩

/-- The tuples that a tuple is expanded into are smaller. -/
theorem Table.expandTupleUnions_small (hP : Table P defs T size) {n : Nat} {t : Ty} (ht : T t)
    (h : expandTupleUnions P n t = some (.found alts)) :
    ∀ alt ∈ alts, T alt ∧ size alt < size t := by
  unfold expandTupleUnions at h
  split at h
  · rename_i own hown
    split at h
    · cases h
    rename_i hlen
    cases h
    intro alt halt
    obtain ⟨hT, -, hlt⟩ := hP.expandTypeAlternatives_small ht hown alt halt
    exact ⟨hT, hlt (Nat.lt_of_not_le hlen)⟩
  · rename_i hne
    exact absurd h (hne alts)

theorem unionAlternatives_ends (h : ∀ t ∈ ts, expand t ≠ none) (result : List Ty) :
    unionAlternatives expand ts result ≠ none := by
  induction ts generalizing result with
  | nil => rintro ⟨⟩
  | cons t ts ih =>
    obtain ⟨ht, hts⟩ := forall_mem_cons.1 h
    simp only [unionAlternatives]
    split
    · exact absurd ‹_› ht
    · rintro ⟨⟩
    · rintro ⟨⟩
    · split
      · rintro ⟨⟩
      · exact ih hts _

theorem tupleAlternatives_ends (h : ∀ t ∈ ts, expand t ≠ none) (result : List (List Ty)) :
    tupleAlternatives expand ts result ≠ none := by
  induction ts generalizing result with
  | nil => rintro ⟨⟩
  | cons t ts ih =>
    obtain ⟨ht, hts⟩ := forall_mem_cons.1 h
    simp only [tupleAlternatives]
    split
    · exact absurd ‹_› ht
    · rintro ⟨⟩
    · rintro ⟨⟩
    · split
      · rintro ⟨⟩
      · exact ih hts _

theorem Table.expandTypeAlternatives_ends (hP : Table P defs T size) {n : Nat} {t : Ty} (ht : T t)
    (hn : size t < n) : expandTypeAlternatives P n t ≠ none := by
  induction n generalizing t with
  | zero => cases hn
  | succ n ih =>
    have hsmaller : ∀ {u}, T u → size u < size t → expandTypeAlternatives P n u ≠ none :=
      fun hu hlt => ih hu (hlt.trans_le (le_of_lt_succ hn))
    cases t with
    | uniontype ts =>
      exact unionAlternatives_ends
        (fun u hu => hsmaller (hP.union ht u hu).1 (hP.union ht u hu).2) []
    | tupletype ts =>
      exact tupleAlternatives_ends
        (fun u hu => hsmaller ((hP.tuple ts).1 ht u hu) (hP.size_elem hu)) [[]]
    | typealiasref d args cap eph =>
      simp only [expandTypeAlternatives]
      split
      · rintro ⟨⟩
      · rintro ⟨⟩
      · rename_i u hu
        exact hsmaller (hP.unfold ht hu).1 (hP.unfold ht hu).2
    | _ => rintro ⟨⟩

/-- The expansion of a tuple comes to an end. -/
theorem Table.expandTupleUnions_ends (hP : Table P defs T size) {t : Ty} (ht : T t) :
    ∃ y n, ∀ n' ≥ n, expandTupleUnions P n' t = some y := by
  have hends := hP.expandTypeAlternatives_ends ht (lt_succ_self _)
  cases hexp : expandTypeAlternatives P (size t + 1) t with
  | none => exact absurd hexp hends
  | some r =>
    have hsome : ∃ y, expandTupleUnions P (size t + 1) t = some y := by
      rw [expandTupleUnions, hexp]
      split
      · split
        · exact ⟨_, rfl⟩
        · exact ⟨_, rfl⟩
      · exact ⟨r, rfl⟩
    obtain ⟨y, hy⟩ := hsome
    exact ⟨y, size t + 1, fun n' hn => expandTupleUnions_more hn hy⟩

/-! ### What a comparison asks for -/

/-- Everything that a decision may ask for has the property `p`. -/
abbrev Asked (P : Program) (p : Query → Prop) (t : Tree) : Prop :=
  t.Only (fun e => p e.2) fun x y => ∃ n, ∀ n' ≥ n, expandTupleUnions P n' x = some y

/-- A comparison of two types of the program. -/
def Known (T : Ty → Prop) (q : Query) : Prop := T q.sub ∧ T q.super

/-- A comparison of two types of the program that is smaller than `n`. -/
def Below (T : Ty → Prop) (size : Ty → Nat) (n : Nat) (q : Query) : Prop :=
  Known T q ∧ q.measure size < n

section
variable {p : Query → Prop} {errorf : Bool} {m : CheckCap}

theorem asked_isXSubX {s t : Ty} (h : p ⟨s, t, m⟩) : Asked P p (isXSubX errorf s t m) :=
  Ask.only_only h

theorem asked_isEqtype {a b : Ty} (hab : p ⟨a, b, .sub⟩) (hba : p ⟨b, a, .sub⟩) :
    Asked P p (isEqtype errorf a b) :=
  (asked_isXSubX hab).and (asked_isXSubX hba)

theorem asked_every {α : Type} {l : List α} {f : α → Tree} (h : ∀ a ∈ l, Asked P p (f a)) :
    Asked P p (.every (l.map f)) := by
  refine Ask.Only.every fun t ht => ?_
  obtain ⟨a, ha, rfl⟩ := mem_map.1 ht
  exact h a ha

theorem asked_some {α : Type} {l : List α} {f : α → Tree} (h : ∀ a ∈ l, Asked P p (f a)) :
    Asked P p (.some (l.map f)) := by
  refine Ask.Only.some fun t ht => ?_
  obtain ⟨a, ha, rfl⟩ := mem_map.1 ht
  exact h a ha

theorem asked_each {α : Type} {l : List α} {f : α → Tree} (h : ∀ a ∈ l, Asked P p (f a)) :
    Asked P p (.each (l.map f)) := by
  refine Ask.Only.each fun t ht => ?_
  obtain ⟨a, ha, rfl⟩ := mem_map.1 ht
  exact h a ha

/-! #### Two nominal types -/

section
variable (hP : Table P defs T size)
include hP

theorem Table.asked_isEqTypeargs {aDef bDef : Nat} {as bs : List Ty}
    (ha : ∀ t ∈ as, T t) (hb : ∀ t ∈ bs, T t) :
    Asked P (Known T) (isEqTypeargs P errorf aDef bDef as bs) := by
  refine Ask.Only.both (asked_each ?_) trivial
  rintro ⟨⟨a, b⟩, index⟩ hp
  obtain ⟨ha', hb'⟩ := of_mem_zip (fst_mem_of_mem_zipIdx hp)
  have hvalue : Known T ⟨P.valueParamType aDef index, P.valueParamType bDef index, .sub⟩ ∧
      Known T ⟨P.valueParamType bDef index, P.valueParamType aDef index, .sub⟩ :=
    ⟨⟨hP.valueParamType .., hP.valueParamType ..⟩, hP.valueParamType .., hP.valueParamType ..⟩
  have htype : Asked P (Known T) (isEqtype errorf a b) :=
    asked_isEqtype ⟨ha a ha', hb b hb'⟩ ⟨hb b hb', ha a ha'⟩
  unfold isEqTypearg
  split
  · exact Ask.Only.both trivial (asked_isEqtype hvalue.1 hvalue.2)
  · trivial
  · trivial
  · exact htype

theorem Table.asked_isParamSuperParam {sub super : Passed}
    (hsub : T sub.type) (hsuper : T super.type) :
    Asked P (Known T) (isParamSuperParam P errorf sub super) := by
  unfold isParamSuperParam
  split
  · rename_i a b ha hb
    split
    · split <;> trivial
    · exact asked_isXSubX ⟨hP.consumeType hsuper hb, hP.consumeType hsub ha⟩
  · trivial

theorem Table.asked_isFunSubFun {sub super : Method} (hsub : sub.Over T) (hsuper : super.Over T) :
    Asked P (Known T) (isFunSubFun P errorf sub super) := by
  unfold isFunSubFun
  split
  · have hreified : (reifiedSub P sub super).Over T := by
      unfold reifiedSub
      split
      · exact hsub
      · exact hP.reifyWith hsub hsuper
    generalize reifiedSub P sub super = sub' at hreified
    have hresult : Asked P (Known T) (isSubtype errorf sub'.result.type super.result.type) :=
      asked_isXSubX ⟨hreified.result, hsuper.result⟩
    have hsignature : Asked P (Known T) (isSignatureSubSignature P errorf sub' super) := by
      refine Ask.Only.and (asked_every fun q hq => ?_)
        (Ask.Only.and (asked_every fun q hq => ?_) trivial)
      · obtain ⟨h₁, h₂⟩ := of_mem_zip hq
        exact asked_isXSubX ⟨hsuper.typeparams _ h₂, hreified.typeparams _ h₁⟩
      · obtain ⟨h₁, h₂⟩ := of_mem_zip hq
        exact hP.asked_isParamSuperParam (hreified.params _ h₁) (hsuper.params _ h₂)
    unfold isReifiedFunSubFun
    split
    · split
      · trivial
      · exact hresult.and hsignature
    split
    · trivial
    split
    · trivial
    refine hresult.and ?_
    split
    · trivial
    · exact hsignature
  · trivial

theorem Table.asked_nominalProvidesTrait {type trait : Nominal}
    (htype : T type.toTy) (htrait : T trait.toTy) :
    Asked P (Known T) (nominalProvidesTrait P type trait m) := by
  unfold nominalProvidesTrait
  split
  · trivial
  split
  · trivial
  refine asked_some fun child hchild => ?_
  split
  · trivial
  · rename_i t ht
    exact asked_isXSubX ⟨hP.trait htype hchild ht, htrait⟩

/-- Two nominal types ask for comparisons of any size. -/
theorem Table.asked_isNominalSubNominal {sub super : Nominal}
    (hsub : T sub.toTy) (hsuper : T super.toTy) :
    Asked P (Known T) (isNominalSubNominal P errorf sub super m) := by
  have hargs : Asked P (Known T)
      (isEqTypeargs P errorf sub.defn super.defn sub.typeargs super.typeargs) :=
    hP.asked_isEqTypeargs (hP.typearg hsub) (hP.typearg hsuper)
  have hprovides := hP.asked_nominalProvidesTrait (m := m) hsub hsuper
  have hentity : Asked P (Known T) (isNominalSubEntity P errorf sub super m) := by
    unfold isNominalSubEntity
    split
    · trivial
    · exact hargs.both trivial
  unfold isNominalSubNominal
  split
  · exact hentity
  · exact hentity
  · exact hentity
  · exact hentity
  · refine Ask.Only.both trivial ?_
    unfold isNominalSubStructural
    split
    · trivial
    split
    · trivial
    split
    · trivial
    refine asked_each fun f hf => ?_
    unfold isMemberProvided
    split
    · trivial
    · rename_i g hg
      exact hP.asked_isFunSubFun (hP.method hsub (.inr ⟨_, hg⟩)) (hP.method hsuper (.inl hf))
  · unfold isNominalSubTrait
    split
    · exact hprovides.and trivial
    · exact hprovides.and trivial
    · exact hprovides.and trivial
    · trivial
    · refine Ask.Only.both ?_ trivial
      split
      · exact hargs
      · exact hprovides
    · trivial

end

end

/-! #### Types that are decomposed -/

section
variable {errorf : Bool} {m : CheckCap} {n : Nat} {s t u : Ty}
variable (hP : Table P defs T size)

include hP

theorem Table.below {v : Ty} (hu : T u) (hv : T v)
    (h : weight size u v < n) : Below T size n ⟨u, v, m⟩ :=
  ⟨⟨hu, hv⟩, (hP.measure_le u v).trans_lt h⟩

/-- A smaller subtype. -/
theorem Table.below_sub (ht : T t) (hn : weight size s t ≤ n)
    (hu : T u ∧ size u < size s) : Below T size n ⟨u, t, m⟩ := by
  refine hP.below hu.1 ht (lt_of_lt_of_le ?_ hn)
  simp only [weight]
  omega

/-- A smaller supertype. -/
theorem Table.below_super (hs : T s) (hn : weight size s t ≤ n)
    (hu : T u ∧ size u < size t) : Below T size n ⟨s, u, m⟩ := by
  refine hP.below hs hu.1 (lt_of_lt_of_le ?_ hn)
  simp only [weight]
  omega

/-- Two smaller types. -/
theorem Table.below_both {v : Ty} (hn : weight size s t ≤ n)
    (hu : T u ∧ size u < size s) (hv : T v ∧ size v < size t) : Below T size n ⟨u, v, m⟩ := by
  refine hP.below hu.1 hv.1 (lt_of_lt_of_le ?_ hn)
  simp only [weight]
  omega

variable {eph : Eph} {supers subs : List Ty} {cap : Cap} {left right : Ty}

theorem Table.asked_aliasSuper {args : List Ty} {cap : Option Cap}
    (hs : T s) (ht : T (.typealiasref d args cap eph))
    (hn : weight size s (.typealiasref d args cap eph) ≤ n) :
    Asked P (Below T size n) (withUnfolded P d args cap eph fun t => isXSubX errorf s t m) := by
  unfold withUnfolded
  split
  · rename_i u hu
    exact asked_isXSubX (hP.below_super hs hn (hP.unfold ht hu))
  · trivial
  · trivial

theorem Table.asked_isXSubIsect (hs : T s) (ht : T (.isecttype supers))
    (hn : weight size s (.isecttype supers) ≤ n) :
    Asked P (Below T size n) (isXSubIsect errorf s supers m) :=
  asked_every fun u hu => asked_isXSubX (hP.below_super hs hn (hP.isect ht u hu))

theorem Table.asked_isTupleSubUnion (hs : T s)
    (ht : T (.uniontype supers)) (hn : weight size s (.uniontype supers) ≤ n) :
    Asked P (Below T size n) (isTupleSubUnion s supers m) := by
  unfold isTupleSubUnion
  split
  · refine ⟨hP.expandTupleUnions_ends hs, fun y hy => ?_⟩
    obtain ⟨k, hk⟩ := hy
    cases y with
    | found alts =>
      refine asked_every fun alt halt => ?_
      exact asked_isXSubX (hP.below_sub ht hn
        (hP.expandTupleUnions_small hs (hk k le_rfl) alt halt))
    | null | failed => trivial
  · trivial

theorem Table.asked_isXSubUnion (hs : T s) (ht : T (.uniontype supers))
    (hn : weight size s (.uniontype supers) ≤ n) :
    Asked P (Below T size n) (isXSubUnion errorf s supers m) := by
  have hmember : ∀ errorf, ∀ u ∈ supers, Asked P (Below T size n) (isXSubX errorf s u m) :=
    fun _ u hu => asked_isXSubX (hP.below_super hs hn (hP.union ht u hu))
  refine Ask.Only.or (asked_some (hmember false))
    (Ask.Only.or (hP.asked_isTupleSubUnion hs ht hn) ?_)
  split
  · exact Ask.Only.bind (asked_each (hmember true)) fun _ => trivial
  · trivial

theorem Table.asked_isUnionSubX (hs : T (.uniontype subs)) (ht : T t)
    (hn : weight size (.uniontype subs) t ≤ n) :
    Asked P (Below T size n) (isUnionSubX errorf subs t m) :=
  asked_every fun u hu => asked_isXSubX (hP.below_sub ht hn (hP.union hs u hu))

/-- By the intersections in the supertype. -/
theorem Table.asked_isIsectSubX (hs : T (.isecttype subs)) (ht : T t)
    (hn : weight size (.isecttype subs) t ≤ n) :
    Asked P (Below T size n) (isIsectSubX P errorf subs m t) := by
  revert ht hn
  refine Ty.induct
    (T := fun t => T t → weight size (.isecttype subs) t ≤ n →
      Asked P (Below T size n) (isIsectSubX P errorf subs m t))
    (L := fun ts => (∀ u ∈ ts, T u ∧ weight size (.isecttype subs) u ≤ n) →
      Asked P (Below T size n) (isIsectSubIsect P errorf subs m ts)) ?_ ?_ ?_ ?_ ?_ t
  · intro ts ih ht hn
    rw [isIsectSubX]
    refine ih fun u hu => ⟨(hP.isect ht u hu).1, le_trans ?_ hn⟩
    have := (hP.isect ht u hu).2
    simp only [weight]
    omega
  · intro left right _ ht hn
    rw [isIsectSubX]
    · exact asked_some fun u hu => asked_isXSubX (hP.below_sub ht hn (hP.isect hs u hu))
    all_goals exact nofun
  · intro t hisect harrow ht hn
    unfold isIsectSubX
    split
    · exact absurd rfl (hisect _)
    · exact hP.asked_aliasSuper hs ht hn
    · exact asked_some fun u hu => asked_isXSubX (hP.below_sub ht hn (hP.isect hs u hu))
  · intro _
    rw [isIsectSubIsect]
    trivial
  · intro t ts ht hts h
    obtain ⟨h₁, h₂⟩ := forall_mem_cons.1 h
    rw [isIsectSubIsect]
    exact Ask.Only.and (ht h₁.1 h₁.2) (hts h₂)

theorem Table.asked_isTupleSubTuple (hs : T (.tupletype subs))
    (ht : T (.tupletype supers)) (hn : measure size (.tupletype subs) (.tupletype supers) ≤ n) :
    Asked P (Below T size n) (isTupleSubTuple errorf subs supers m) := by
  unfold isTupleSubTuple
  split
  · trivial
  refine asked_each fun p hp => asked_isXSubX ?_
  obtain ⟨h₁, h₂⟩ := of_mem_zip hp
  exact ⟨⟨(hP.tuple subs).1 hs _ h₁, (hP.tuple supers).1 ht _ h₂⟩, (hP.measure_elem hp).trans_le hn⟩

theorem Table.asked_isXSubTypeparam (hs : T s)
    (ht : T (.typeparamref d cap eph)) (hn : weight size s (.typeparamref d cap eph) ≤ n) :
    Asked P (Below T size n) (isXSubTypeparam P errorf s d cap eph m) := by
  unfold isXSubTypeparam
  split
  · split
    · trivial
    · rename_i u hu
      exact asked_isXSubX (hP.below_super hs hn (hP.bound ht (.inl hu)))
  split
  · trivial
  · rename_i u hu
    exact asked_isXSubX (hP.below_super hs hn (hP.bound ht (.inr (.inl hu))))

theorem Table.asked_isXSubLower (hs : T s) (ht : T (.arrow left right))
    (hn : weight size s (.arrow left right) ≤ n) :
    Asked P (Below T size n) (isXSubLower P errorf s left right m) := by
  unfold isXSubLower
  split
  · trivial
  · rename_i u hu
    exact asked_isXSubX (hP.below_super hs hn (hP.view ht (.inl hu)))

theorem Table.asked_isXSubArrow (hs : T s) (ht : T (.arrow left right))
    (hn : weight size s (.arrow left right) ≤ n) :
    Asked P (Below T size n) (isXSubArrow P errorf s left right m) := by
  have hright : Asked P (Below T size n) (isXSubX errorf s right .ignore) :=
    asked_isXSubX (hP.below_super hs hn (hP.right ht))
  unfold isXSubArrow
  split
  · exact hright
  · exact hright.and (hP.asked_isXSubLower hs ht hn)

theorem Table.asked_isTupleSubX (hs : T (.tupletype subs)) (ht : T t)
    (hn : measure size (.tupletype subs) t ≤ n) :
    Asked P (Below T size n) (isTupleSubX P errorf subs m t) := by
  cases t with
  | tupletype supers => exact hP.asked_isTupleSubTuple hs ht hn
  | uniontype supers => exact hP.asked_isXSubUnion hs ht hn
  | isecttype supers => exact hP.asked_isXSubIsect hs ht hn
  | nominal d args cap eph =>
    show Asked P (Below T size n) (isTupleSubNominal P errorf subs d _ m)
    unfold isTupleSubNominal
    split
    · exact asked_every fun u hu => asked_isXSubX
        (hP.below_sub ht hn ⟨(hP.tuple subs).1 hs u hu, hP.size_elem hu⟩)
    · trivial
  | typeparamref d cap eph => exact hP.asked_isXSubTypeparam hs ht hn
  | arrow left right => exact hP.asked_isXSubArrow hs ht hn
  | typealiasref d args cap eph => exact hP.asked_aliasSuper hs ht hn
  | _ => trivial

theorem Table.asked_isNominalSubX {sub : Nominal} (hs : T sub.toTy)
    (ht : T t) (hnominal : ∀ d args cap eph, t ≠ .nominal d args cap eph)
    (hn : weight size sub.toTy t ≤ n) :
    Asked P (Below T size n) (isNominalSubX P errorf sub m t) := by
  cases t with
  | nominal d args cap eph => exact absurd rfl (hnominal d args cap eph)
  | uniontype supers =>
    rw [isNominalSubX]
    split
    · trivial
    · exact hP.asked_isXSubUnion hs ht hn
  | isecttype supers =>
    rw [isNominalSubX]
    split
    · trivial
    · exact hP.asked_isXSubIsect hs ht hn
  | typeparamref d cap eph => exact hP.asked_isXSubTypeparam hs ht hn
  | arrow left right => exact hP.asked_isXSubArrow hs ht hn
  | typealiasref d args cap eph => exact hP.asked_aliasSuper hs ht hn
  | _ => trivial

theorem Table.asked_isTypeparamUpperSubX
    (hs : T (.typeparamref d cap eph)) (ht : T t) (hn : weight size (.typeparamref d cap eph) t ≤ n) :
    Asked P (Below T size n) (isTypeparamUpperSubX P errorf d cap eph m t) := by
  unfold isTypeparamUpperSubX
  split
  · split
    · trivial
    · rename_i u hu
      exact asked_isXSubX (hP.below_sub ht hn (hP.bound hs (.inl hu)))
  split
  · trivial
  · rename_i u hu
    exact asked_isXSubX (hP.below_sub ht hn (hP.bound hs (.inr (.inr hu))))

/-- Two tuples whose elements are smaller on one side and no larger on the other. -/
theorem Table.below_tuples (hs : ∀ u ∈ ss, T u ∧ size u ≤ size s)
    (ht : ∀ u ∈ ts, T u ∧ size u ≤ size t)
    (hlt : (∀ u ∈ ss, size u < size s) ∨ ∀ u ∈ ts, size u < size t) (hn : weight size s t ≤ n) :
    Below T size n ⟨.tupletype ss, .tupletype ts, m⟩ := by
  refine ⟨⟨(hP.tuple ss).2 fun u hu => (hs u hu).1, (hP.tuple ts).2 fun u hu => (ht u hu).1⟩, ?_⟩
  refine ((measure_tuple_le (n := weight size s t - 2) ?_).trans_lt ?_).trans_le hn
  · intro p hp
    obtain ⟨h₁, h₂⟩ := of_mem_zip hp
    have hs₁ := (hs _ h₁).2
    have ht₂ := (ht _ h₂).2
    rcases hlt with hlt | hlt
    · have := hlt _ h₁
      simp only [weight]
      omega
    have := hlt _ h₂
    simp only [weight]
    omega
  · simp only [weight]
    omega

theorem Table.asked_isTypeparamSubView (hs : T (.typeparamref d cap eph))
    (ht : T (.arrow left right))
    (hn : weight size (.typeparamref d cap eph) (.arrow left right) ≤ n) : Asked P (Below T size n)
      (isTypeparamSubView P errorf (.typeparamref d cap eph) left right m) := by
  unfold isTypeparamSubView
  split
  · rename_i rSub rSuper hsub hsuper
    obtain ⟨ss, rfl, hss⟩ := hP.reify hs hsub
    obtain ⟨ts, rfl, hts⟩ := hP.reify ht hsuper
    exact asked_isXSubX (hP.below_tuples hss hts (.inl (hP.reify_self hs hsub)) hn)
  · trivial
  · exact hP.asked_isXSubLower hs ht hn

theorem Table.asked_isTypeparamBaseSubX {subRight : Tree}
    (hs : T (.typeparamref d cap eph)) (ht : T t) (hn : weight size (.typeparamref d cap eph) t ≤ n)
    (hright : Asked P (Below T size n) subRight) :
    Asked P (Below T size n) (isTypeparamBaseSubX P d cap eph m subRight t) := by
  cases t with
  | uniontype supers => exact hP.asked_isXSubUnion hs ht hn
  | isecttype supers => exact hP.asked_isXSubIsect hs ht hn
  | arrow left right =>
    rw [isTypeparamBaseSubX]
    split
    · exact hright
    · exact hright.and (hP.asked_isTypeparamSubView hs ht hn)
  | typealiasref a args acap aeph => exact hP.asked_aliasSuper hs ht hn
  | _ => trivial

/-- By the right sides of the arrow that is the supertype. -/
theorem Table.asked_isTypeparamSubX (hs : T (.typeparamref d cap eph))
    (ht : T t) (hn : weight size (.typeparamref d cap eph) t ≤ n) :
    Asked P (Below T size n) (isTypeparamSubX P d cap eph errorf m t) := by
  revert errorf m ht hn
  refine Ty.induct
    (T := fun t => ∀ {errorf m}, T t → weight size (.typeparamref d cap eph) t ≤ n →
      Asked P (Below T size n) (isTypeparamSubX P d cap eph errorf m t))
    (L := fun _ => True) ?_ ?_ ?_ trivial (fun _ _ _ _ => trivial) t
  · intro ts _ errorf m ht hn
    rw [isTypeparamSubX]
    · exact Ask.Only.or (hP.asked_isTypeparamBaseSubX hs ht hn trivial)
        (hP.asked_isTypeparamUpperSubX hs ht hn)
    · exact nofun
  · intro left right ih errorf m ht hn
    have hright := (hP.right ht).2
    have hle : weight size (.typeparamref d cap eph) right ≤ n := by
      refine le_trans ?_ hn
      simp only [weight]
      omega
    rw [isTypeparamSubX]
    exact Ask.Only.or (hP.asked_isTypeparamBaseSubX hs ht hn (ih (hP.right ht).1 hle))
      (hP.asked_isTypeparamUpperSubX hs ht hn)
  · intro t _ harrow errorf m ht hn
    unfold isTypeparamSubX
    split
    · exact absurd rfl (harrow _ _)
    · exact Ask.Only.or (hP.asked_isTypeparamBaseSubX hs ht hn trivial)
        (hP.asked_isTypeparamUpperSubX hs ht hn)

theorem Table.asked_isTypevalueparamSubX
    (hs : T (.valueformalparamref d)) (ht : T t) (hn : weight size (.valueformalparamref d) t ≤ n) :
    Asked P (Below T size n) (isTypevalueparamSubX P errorf d m t) := by
  unfold isTypevalueparamSubX
  split
  · split
    · trivial
    · rename_i u hu
      exact asked_isXSubX (hP.below_super hs hn (hP.ref ht (.inl hu)))
  · split
    · rename_i u v hu hv
      have hu := hP.ref hs (.inr (.inl hu))
      have hv := hP.value ht hv
      refine asked_isEqtype (hP.below_both hn hu hv) ?_
      refine hP.below_both ?_ hv hu
      simp only [weight] at hn ⊢
      omega
    · trivial
  · exact asked_isXSubX (hP.below_sub ht hn (hP.ref hs (.inr (.inr rfl))))

section
variable (hs : T (.arrow left right))
include hs

theorem Table.asked_isUpperSubX (ht : T t) (hn : weight size (.arrow left right) t ≤ n) :
    Asked P (Below T size n) (isUpperSubX P errorf left right t m) := by
  unfold isUpperSubX
  split
  · trivial
  · rename_i u hu
    exact asked_isXSubX (hP.below_sub ht hn (hP.view hs (.inr hu)))

theorem Table.asked_isArrowSubNominal (ht : T t) (hn : weight size (.arrow left right) t ≤ n) :
    Asked P (Below T size n) (isArrowSubNominal P errorf left right t m) := by
  have hright : Asked P (Below T size n) (isXSubX errorf right t .ignore) :=
    asked_isXSubX (hP.below_sub ht hn (hP.right hs))
  unfold isArrowSubNominal
  split
  · exact hright
  · exact hright.and (hP.asked_isUpperSubX hs ht hn)

theorem Table.asked_isArrowSubTypeparam (ht : T (.typeparamref d cap eph))
    (hn : weight size (.arrow left right) (.typeparamref d cap eph) ≤ n) : Asked P (Below T size n)
      (isArrowSubTypeparam P errorf left right (.typeparamref d cap eph) m) := by
  have hright : Asked P (Below T size n) (isXSubX errorf right (.typeparamref d cap eph) .ignore) :=
    asked_isXSubX (hP.below_sub ht hn (hP.right hs))
  unfold isArrowSubTypeparam
  split
  · exact hright
  refine hright.and ?_
  split
  · rename_i rSub rSuper hsub hsuper
    obtain ⟨ss, rfl, hss⟩ := hP.reify hs hsub
    obtain ⟨ts, rfl, hts⟩ := hP.reify ht hsuper
    exact asked_isXSubX (hP.below_tuples hss hts (.inr (hP.reify_self ht hsuper)) hn)
  · trivial
  · exact hP.asked_isArrowSubNominal hs ht hn

theorem Table.asked_isArrowSubArrow {superLeft superRight : Ty}
    (ht : T (.arrow superLeft superRight))
    (hn : weight size (.arrow left right) (.arrow superLeft superRight) ≤ n) :
    Asked P (Below T size n) (isArrowSubArrow P errorf left right superLeft superRight m) := by
  have hright : ∀ m, Asked P (Below T size n) (isXSubX errorf right superRight m) :=
    fun m => asked_isXSubX (hP.below_both hn (hP.right hs) (hP.right ht))
  unfold isArrowSubArrow
  split
  · exact hright _
  refine (hright _).and ?_
  split
  · rename_i rSub rSuper hpair
    obtain ⟨ss, ts, rfl, rfl, hss, hts⟩ := hP.reifypair hs ht hpair
    exact asked_isXSubX (hP.below_tuples (fun u hu => ⟨(hss u hu).1, (hss u hu).2.le⟩) hts
      (.inl fun u hu => (hss u hu).2) hn)
  split
  · rename_i upper lower hupper hlower
    exact asked_isXSubX (hP.below_both hn (hP.view hs (.inr hupper)) (hP.view ht (.inl hlower)))
  · trivial

theorem Table.asked_isArrowSubX (ht : T t) (hn : weight size (.arrow left right) t ≤ n) :
    Asked P (Below T size n) (isArrowSubX P errorf left right m t) := by
  cases t with
  | uniontype supers => exact hP.asked_isXSubUnion hs ht hn
  | isecttype supers => exact hP.asked_isXSubIsect hs ht hn
  | nominal d args cap eph => exact hP.asked_isArrowSubNominal hs ht hn
  | typeparamref d cap eph => exact hP.asked_isArrowSubTypeparam hs ht hn
  | arrow superLeft superRight => exact hP.asked_isArrowSubArrow hs ht hn
  | typealiasref d args cap eph => exact hP.asked_aliasSuper hs ht hn
  | _ => trivial

end

/-- The dispatch on the subtype, of two types that are not both nominal. -/
theorem Table.asked_isSubDispatch (hs : T s) (ht : T t) (hq : (Query.mk s t m).nominalDefs = none) :
    Asked P (Below T size (measure size s t)) (isSubDispatch P errorf t m s) := by
  have hweight : (∀ ss, s ≠ .tupletype ss) → weight size s t ≤ measure size s t :=
    fun h => (measure_of_ne fun ss _ heq => absurd heq (h ss)).ge
  cases s with
  | uniontype subs => exact hP.asked_isUnionSubX hs ht (hweight nofun)
  | isecttype subs => exact hP.asked_isIsectSubX hs ht (hweight nofun)
  | tupletype subs => exact hP.asked_isTupleSubX hs ht le_rfl
  | nominal d args cap eph =>
    have hs : T (Nominal.toTy ⟨d, args, cap, eph⟩) := hs
    refine hP.asked_isNominalSubX hs ht ?_ (hweight nofun)
    rintro d' args' cap' eph' rfl
    cases hq
  | typeparamref d cap eph => exact hP.asked_isTypeparamSubX hs ht (hweight nofun)
  | valueformalparamref d => exact hP.asked_isTypevalueparamSubX hs ht (hweight nofun)
  | arrow left right => exact hP.asked_isArrowSubX hs ht (hweight nofun)
  | typealiasref d args cap eph =>
    show Asked P _ (withUnfolded P d args cap eph fun u => isXSubX errorf u t m)
    unfold withUnfolded
    split
    · rename_i u hu
      exact asked_isXSubX (hP.below_sub ht (hweight nofun) (hP.unfold hs hu))
    · trivial
    · trivial
  | boolSingleton b =>
    show Asked P _ (isBoolSingletonSubX P errorf b m t)
    cases t with
    | typealiasref d args cap eph =>
      show Asked P _ (withUnfolded P d args cap eph _)
      unfold withUnfolded
      split
      · rename_i u hu
        cases u <;> trivial
      · trivial
      · trivial
    | uniontype supers => exact hP.asked_isXSubUnion hs ht (hweight nofun)
    | _ => trivial
  | _ => trivial

end

/-- **What a comparison asks for**: comparisons of types of the program, and smaller ones unless it
compares two nominal types. -/
theorem Table.asked_isXSubXImpl (hP : Table P defs T size) (errorf : Bool) (hq : Known T q) :
    Asked P (Descends size T q) (isXSubXImpl P errorf q) := by
  obtain ⟨s, t, m⟩ := q
  obtain ⟨hs, ht⟩ := hq
  have hdispatch : Asked P (Descends size T ⟨s, t, m⟩) (isSubDispatch P errorf t m s) := by
    cases hnominal : (Query.mk s t m).nominalDefs with
    | none =>
      refine Ask.Only.imp (fun e he => ?_) (hP.asked_isSubDispatch hs ht hnominal)
      exact ⟨he.1, fun _ => he.2⟩
    | some defs =>
      cases s with
      | nominal d args cap eph =>
        cases t with
        | nominal d' args' cap' eph' =>
          have hs : T (Nominal.toTy ⟨d, args, cap, eph⟩) := hs
          have ht : T (Nominal.toTy ⟨d', args', cap', eph'⟩) := ht
          refine Ask.Only.imp (fun e he => ?_) (hP.asked_isNominalSubNominal hs ht)
          exact ⟨he, nofun⟩
        | _ => cases hnominal
      | _ => cases hnominal
  unfold isXSubXImpl
  split
  · trivial
  · trivial
  · trivial
  · trivial
  · exact hdispatch

/-! ### Comparisons under way -/

/-- How many comparisons of two nominal types can still be begun. -/
def budget (defs : Finset Nat) (stack : List Query) : Nat :=
  ∑ p ∈ defs ×ˢ defs, (sameDefLimit - sameDefCount stack p)

theorem sameDefCount_push (stack : List Query) (q : Query) (p : Nat × Nat) :
    sameDefCount (stack ++ [q]) p =
      sameDefCount stack p + if q.nominalDefs = some p then 1 else 0 := by
  rw [sameDefCount, countP_append, countP_singleton]
  simp only [decide_eq_true_eq]
  rfl

/-- A comparison that is not of two nominal types takes nothing. -/
theorem budget_push_of_none (h : q.nominalDefs = none) (stack : List Query) :
    budget defs (stack ++ [q]) = budget defs stack := by
  refine Finset.sum_congr rfl fun p _ => ?_
  rw [sameDefCount_push, h, if_neg nofun, add_zero]

/-- One of two nominal types takes one. -/
theorem budget_push_lt {p : Nat × Nat} (h : q.nominalDefs = some p) (hp : p ∈ defs ×ˢ defs)
    (hlt : sameDefCount stack p < sameDefLimit) :
    budget defs (stack ++ [q]) < budget defs stack := by
  refine Finset.sum_lt_sum (fun p' _ => ?_) ⟨p, hp, ?_⟩
  · rw [sameDefCount_push]
    omega
  · rw [sameDefCount_push, if_pos h]
    omega

/-- What an entered comparison of two nominal types says. -/
theorem sameDefCount_lt_of_enter {p : Nat × Nat} (hv : verdict stack q = .enter)
    (hp : q.nominalDefs = some p) : sameDefCount stack p < sameDefLimit := by
  unfold verdict at hv
  split at hv
  · cases hv
  split at hv
  · cases hv
  rename_i hbail
  rw [hp, any_some, decide_eq_true_eq] at hbail
  exact Nat.lt_of_not_le hbail

theorem verdict_plain (hv : verdict stack q = .plain) : q.nominalDefs = none := by
  unfold verdict at hv
  split at hv
  · rename_i hguard
    cases hn : q.nominalDefs with
    | none => rfl
    | some p => simp [Query.guard, hn] at hguard
  · split at hv
    · cases hv
    · split at hv <;> cases hv

theorem Table.nominalDefs_mem (hP : Table P defs T size) (hq : Known T q) {p : Nat × Nat}
    (hp : q.nominalDefs = some p) : p ∈ defs ×ˢ defs := by
  obtain ⟨s, t, m⟩ := q
  obtain ⟨hs, ht⟩ := hq
  cases s with
  | nominal d args cap eph =>
    cases t with
    | nominal d' args' cap' eph' =>
      cases hp
      exact Finset.mem_product.2 ⟨hP.defn hs, hP.defn ht⟩
    | _ => cases hp
  | _ => cases hp

/-- A comparison ends under a stack if what it asks for ends under the stack that it leaves. -/
theorem ends_of_asked {errorf : Bool}
    (h : ∀ v, verdict stack q = v → v = .plain ∨ v = .enter → Asked P (fun q' => ∀ errorf,
      ∃ n, ∀ n' ≥ n, ∀ s, s.stack = v.push stack q →
        (isXSubXCached P n' (errorf, q') s).1 ≠ .timeout) (isXSubXImpl P errorf q)) :
    ∃ n, ∀ n' ≥ n, ∀ s, s.stack = stack → (isXSubXCached P n' (errorf, q) s).1 ≠ .timeout := by
  have hrun : ∀ v, verdict stack q = v → v = .plain ∨ v = .enter → ∃ n, ∀ n' ≥ n, ∀ s,
      s.stack = v.push stack q → ((isXSubXImpl P errorf q).run (isXSubXCached P n')
        (expandTupleUnions P n') s).1 ≠ .timeout := by
    intro v hv hgo
    refine Ask.Only.ends (o := isXSubXCached P) (f := expandTupleUnions P)
      (C := fun s => s.stack = v.push stack q) ?_ fun n q s hs => ?_
    · exact Ask.Only.imp (fun e he => he e.1) (h v hv hgo)
    · rw [← hs]
      exact (isXSubXCached_extends n q s).stack
  have hfuel : ∃ n, ∀ n' ≥ n, ∀ v, verdict stack q = v → v = .plain ∨ v = .enter → ∀ s,
      s.stack = v.push stack q → ((isXSubXImpl P errorf q).run (isXSubXCached P n')
        (expandTupleUnions P n') s).1 ≠ .timeout := by
    by_cases hgo : verdict stack q = .plain ∨ verdict stack q = .enter
    · obtain ⟨n, hn⟩ := hrun _ rfl hgo
      exact ⟨n, fun n' hn' v hv _ s => hv ▸ hn n' hn' s⟩
    · exact ⟨0, fun n' _ v hv hv' => absurd (hv ▸ hv') hgo⟩
  obtain ⟨n, hn⟩ := hfuel
  refine ⟨n + 1, fun n' hn' s hs => ?_⟩
  obtain ⟨n', rfl⟩ := Nat.exists_eq_add_of_le' hn'
  have hle : n ≤ n' + n := Nat.le_add_left n n'
  show (isXSubXCached P ((n' + n) + 1) (errorf, q) s).1 ≠ .timeout
  rw [isXSubXCached]
  cases s.clear.lookup errorf q with
  | some entry => rintro ⟨⟩
  | none =>
    have hclear : s.clear.stack = stack := (State.clear_stack s).trans hs
    have hn := hn (n' + n) hle
    rw [hclear]
    cases hv : verdict stack q with
    | bail | cycle index => rintro ⟨⟩
    | plain => exact hn _ hv (.inl rfl) _ rfl
    | enter => exact hn _ hv (.inr rfl) _ rfl

/-- **Every comparison comes to an end**, under any stack: each decomposes its types until both are
nominal, and then takes one of the comparisons of nominal types that can still be begun. -/
theorem Table.ends (hP : Table P defs T size) (errorf : Bool) {q : Query} (hq : Known T q)
    (stack : List Query) :
    ∃ n, ∀ n' ≥ n, ∀ s, s.stack = stack → (isXSubXCached P n' (errorf, q) s).1 ≠ .timeout := by
  induction hb : budget defs stack using Nat.strong_induction_on
    generalizing errorf q stack with
  | _ b ihb =>
    subst hb
    induction hk : q.measure size using Nat.strong_induction_on generalizing errorf q stack with
    | _ k ihk =>
      subst hk
      refine ends_of_asked fun v hv hgo => ?_
      refine Ask.Only.imp (fun e he errorf => ?_) (hP.asked_isXSubXImpl errorf hq)
      obtain ⟨hknown, hsmall⟩ := he
      cases hn : q.nominalDefs with
      | none =>
        -- the same budget, and a smaller comparison
        have hbudget : budget defs (v.push stack q) = budget defs stack := by
          rcases hgo with rfl | rfl
          · rfl
          · exact budget_push_of_none hn stack
        refine ihk _ (hsmall hn) errorf hknown _ (fun b hlt errorf q hq stack' hb => ?_) rfl
        exact ihb b (hbudget ▸ hlt) errorf hq stack' hb
      | some p =>
        have henter : v = .enter := by
          rcases hgo with rfl | rfl
          · rw [verdict_plain hv] at hn
            cases hn
          · rfl
        subst henter
        exact ihb _ (budget_push_lt hn (hP.nominalDefs_mem hq hn)
          (sameDefCount_lt_of_enter hv hn)) errorf hknown _ rfl

end

/-- **Subtyping comes to an end**, if the types of the program can be taken apart: they have a size
that every step of the decomposition makes smaller.  The methods of its interfaces may mention them
at types of any size. -/
theorem subtype_terminates {P : Program} {defs : Finset Nat} {T : Ty → Prop} {size : Ty → Nat}
    (hP : Table P defs T size) {sub super : Ty} (hsub : T sub) (hsuper : T super) (errorf : Bool)
    (m : CheckCap) : ∃ n, ∀ n' ≥ n, ∀ cache minMatchIdx subtreePoisoned,
      (isXSubXCached P n' (errorf, ⟨sub, super, m⟩)
        (State.idle cache minMatchIdx subtreePoisoned)).1 ≠ .timeout := by
  obtain ⟨n, hn⟩ := hP.ends errorf (q := ⟨sub, super, m⟩) ⟨hsub, hsuper⟩ []
  exact ⟨n, fun n' hn' _ _ _ => hn n' hn' _ rfl⟩

/-! ### A generic interface that grows -/

mutual

/-- A type made of these definitions, unions, intersections and tuples. -/
def Ty.Over (defs : Finset Nat) : Ty → Prop
  | .nominal d args _ _ => d ∈ defs ∧ Ty.AllOver defs args
  | .uniontype ts | .isecttype ts | .tupletype ts => Ty.AllOver defs ts
  | _ => False

def Ty.AllOver (defs : Finset Nat) : List Ty → Prop
  | [] => True
  | t :: ts => t.Over defs ∧ Ty.AllOver defs ts

end

mutual

/-- The nodes of a type down to the nominal types. -/
def Ty.nodes : Ty → Nat
  | .uniontype ts | .isecttype ts | .tupletype ts => Ty.allNodes ts + 1
  | _ => 0

def Ty.allNodes : List Ty → Nat
  | [] => 0
  | t :: ts => t.nodes + Ty.allNodes ts

end

theorem Ty.allOver_iff {defs : Finset Nat} : Ty.AllOver defs ts ↔ ∀ t ∈ ts, t.Over defs := by
  induction ts with
  | nil => simp [Ty.AllOver]
  | cons t ts ih => rw [Ty.AllOver, ih, forall_mem_cons]

theorem Ty.allNodes_eq (ts : List Ty) : Ty.allNodes ts = (ts.map Ty.nodes).sum := by
  induction ts with
  | nil => rfl
  | cons t ts ih => rw [Ty.allNodes, ih, map_cons, sum_cons]

theorem Ty.nodes_lt {t : Ty} (h : t ∈ ts) : t.nodes < Ty.allNodes ts + 1 := by
  rw [Ty.allNodes_eq]
  exact lt_succ_of_le (single_le_sum (fun _ _ => zero_le _) _ (mem_map_of_mem h))

/-- `I[A]`, of the interface `0`. -/
def boxed (t : Ty) : Ty := .nominal 0 [t] .ref .none

/-- `interface I[A] fun box f(): I[I[A]]`, where a class without arguments is `9`. -/
def driftingProgram : Program :=
  { blankWith (fun d => if d = 0 then .interface else .class)
      (fun d => if d = 0 then some (getter (boxed (boxed .errortype))) else none) with
    reifyMethodDef := fun _ args f => match args with
      | [t] => { f with result := ⟨boxed (boxed t), false⟩ }
      | _ => { f with result := ⟨plainType 9 .val, false⟩ } }

theorem over_boxed {t : Ty} : (boxed t).Over {0, 9} ↔ t.Over {0, 9} := by
  simp [boxed, Ty.Over, Ty.AllOver]

theorem over_plainType (cap : Cap) : (plainType 9 cap).Over {0, 9} := by
  simp [plainType, Ty.Over, Ty.AllOver]

theorem driftingProgram_method {args : List Ty} (h : ∀ t ∈ args, t.Over {0, 9}) {f : Method}
    (hf : f = getter (boxed (boxed .errortype))) :
    (driftingProgram.reifyMethodDef d args f).Over (Ty.Over {0, 9}) := by
  subst hf
  match args with
  | [t] =>
    refine ⟨nofun, nofun, ?_⟩
    exact over_boxed.2 (over_boxed.2 (h t (.head _)))
  | [] | _ :: _ :: _ => exact ⟨nofun, nofun, over_plainType .val⟩

theorem driftingProgram_own {f : Method}
    (hf : f ∈ driftingProgram.members d ∨ ∃ name, driftingProgram.get d name = some f) :
    f = getter (boxed (boxed .errortype)) := by
  have hsome : (if d = 0 then some (getter (boxed (boxed .errortype))) else none) = some f := by
    rcases hf with hf | ⟨name, hf⟩
    · exact mem_toList.1 hf
    · exact hf
  split at hsome
  · exact (some.inj hsome).symm
  · cases hsome

/-- Its types are made of `I`, the class, unions, intersections and tuples. -/
theorem driftingProgram_table : Table driftingProgram {0, 9} (Ty.Over {0, 9}) Ty.nodes where
  defn h := (Ty.Over.eq_1 .. ▸ h).1
  typearg h := Ty.allOver_iff.1 (Ty.Over.eq_1 .. ▸ h).2
  valueParamType _ _ := over_plainType .val
  method h hf := driftingProgram_method (Ty.allOver_iff.1 (Ty.Over.eq_1 .. ▸ h).2)
    (driftingProgram_own hf)
  reifyWith hf _ := hf
  consumeType h hc := some.inj hc ▸ h
  trait _ hc _ := nomatch hc
  union h t ht := ⟨Ty.allOver_iff.1 (Ty.Over.eq_2 .. ▸ h) t ht, Ty.nodes_lt ht⟩
  isect h t ht := ⟨Ty.allOver_iff.1 (Ty.Over.eq_3 .. ▸ h) t ht, Ty.nodes_lt ht⟩
  tuple ts := by rw [Ty.Over, Ty.allOver_iff]
  tuple_size ts := by rw [Ty.nodes, Ty.allNodes_eq]
  unfold h := h.elim
  bound h := h.elim
  right h := h.elim
  view h := h.elim
  reify _ hr := nomatch hr
  reify_self h := h.elim
  reifypair _ _ hr := nomatch hr
  ref h := h.elim
  value h := h.elim

/-- The comparison of `I[C]` with itself goes on to `I[I[C]]`, and still comes to an end. -/
theorem drifting_terminates : ∃ n, ∀ n' ≥ n, ∀ cache minMatchIdx subtreePoisoned,
    (isXSubXCached driftingProgram n'
      (false, ⟨boxed (plainType 9 .val), boxed (plainType 9 .val), .sub⟩)
      (State.idle cache minMatchIdx subtreePoisoned)).1 ≠ .timeout :=
  subtype_terminates driftingProgram_table (over_boxed.2 (over_plainType .val))
    (over_boxed.2 (over_plainType .val)) false .sub

end SpacePony.Subtype
