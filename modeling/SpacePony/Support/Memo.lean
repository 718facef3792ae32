import Mathlib.Data.List.Pairwise
import Mathlib.Logic.Function.Basic

/-!
# Support — tables of results under keys

A table keeps the result of a request under its key, and answers a later request with the same key
from the table.  A request whose result is `none` fails and is not kept.  The answers to a sequence
of requests are the results exactly when no request follows one of the same key and another result
(`Memo.run_eq_iff`).
-/

namespace SpacePony.Memo

variable {Request Key Value : Type*} [DecidableEq Key] (key : Request → Key)
  (fresh : Request → Option Value)

/-- The answer to a request, and the table after it. -/
def get (table : Key → Option Value) (r : Request) : Option Value × (Key → Option Value) :=
  match table (key r) with
  | some v => (some v, table)
  | none =>
    match fresh r with
    | none => (none, table)
    | some v => (some v, Function.update table (key r) (some v))

/-- The answers to a sequence of requests. -/
def run : List Request → (Key → Option Value) → List (Option Value)
  | [], _ => []
  | r :: rs, table => (get key fresh table r).1 :: run rs (get key fresh table r).2

/-- The request `r'` is not answered with the result of `r`, or rightly so. -/
def Apart (r r' : Request) : Prop := key r = key r' → fresh r = none ∨ fresh r' = fresh r

/-- What the table has of the key of a request is its result. -/
def Agrees (table : Key → Option Value) (r : Request) : Prop :=
  table (key r) = none ∨ table (key r) = fresh r

variable {key fresh} {table : Key → Option Value} {r r' : Request}

theorem get_fst_iff : (get key fresh table r).1 = fresh r ↔ Agrees key fresh table r := by
  rw [get, Agrees]
  cases htable : table (key r) with
  | some v => simp
  | none =>
    cases fresh r with
    | some v | none => simp

/-- After a request that is rightly answered, the table agrees with another request exactly when it
did before and the two are apart. -/
theorem agrees_get_iff (h : Agrees key fresh table r) :
    Agrees key fresh (get key fresh table r).2 r' ↔
      Agrees key fresh table r' ∧ Apart key fresh r r' := by
  rw [get]
  cases htable : table (key r) with
  | some v =>
    have hv : fresh r = some v := by
      rcases h with h | h
      · rw [htable] at h
        cases h
      · rw [← h, htable]
    dsimp only
    refine ⟨fun h' => ⟨h', fun hkey => .inr ?_⟩, fun h' => h'.1⟩
    rcases h' with h' | h'
    · rw [← hkey, htable] at h'
      cases h'
    · rw [← h', ← hkey, htable, hv]
  | none =>
    cases hfresh : fresh r with
    | none => exact ⟨fun h' => ⟨h', fun _ => .inl hfresh⟩, fun h' => h'.1⟩
    | some v =>
      dsimp only
      by_cases hkey : key r = key r'
      · have hnone : table (key r') = none := hkey ▸ htable
        have hnew : Function.update table (key r) (some v) (key r') = some v := by
          rw [← hkey, Function.update_self]
        rw [Agrees, hnew, Agrees, hnone, Apart, hfresh]
        constructor
        · rintro (h' | h')
          · cases h'
          · exact ⟨.inl rfl, fun _ => .inr h'.symm⟩
        · rintro ⟨-, h'⟩
          exact .inr ((h' hkey).resolve_left (by simp)).symm
      have hold : Function.update table (key r) (some v) (key r') = table (key r') :=
        Function.update_of_ne (Ne.symm hkey) ..
      rw [Agrees, hold, Apart]
      exact ⟨fun h' => ⟨h', fun e => absurd e hkey⟩, fun h' => h'.1⟩

theorem run_eq_iff_of_table {rs : List Request} : run key fresh rs table = rs.map fresh ↔
    (∀ r ∈ rs, Agrees key fresh table r) ∧ rs.Pairwise (Apart key fresh) := by
  induction rs generalizing table with
  | nil => simp [run]
  | cons r rs ih =>
    rw [run, List.map_cons, List.cons.injEq, get_fst_iff, ih, List.pairwise_cons,
      List.forall_mem_cons]
    constructor
    · rintro ⟨hr, hrs, hpair⟩
      have hboth := fun r' hr' => (agrees_get_iff hr).1 (hrs r' hr')
      exact ⟨⟨hr, fun r' hr' => (hboth r' hr').1⟩, fun r' hr' => (hboth r' hr').2, hpair⟩
    · rintro ⟨⟨hr, hrs⟩, happart, hpair⟩
      exact ⟨hr, fun r' hr' => (agrees_get_iff hr).2 ⟨hrs r' hr', happart r' hr'⟩, hpair⟩

/-- **When a table is transparent**: the answers to a sequence of requests are their results exactly
when all of them are apart. -/
theorem run_eq_iff {rs : List Request} :
    run key fresh rs (fun _ => none) = rs.map fresh ↔ rs.Pairwise (Apart key fresh) := by
  rw [run_eq_iff_of_table]
  exact ⟨fun h => h.2, fun h => ⟨fun r _ => .inl rfl, h⟩⟩

end SpacePony.Memo
