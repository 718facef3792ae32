import SpacePony.Packages.Iregex.Nfa
import SpacePony.Support.Gaps

/-!
# Packages — iregex — ranges negated

`_negate_ranges`, which `_parse_cce1` calls for `\P{..}` in a class, and when its result is the
complement of the ranges (`negateRanges_negates_iff`).
-/

namespace SpacePony.Iregex

open List Gaps

/-- The gap before a range: what is pushed for it. -/
def gapRanges (pos rangeStart : Nat) : List (Nat × Nat) :=
  if rangeStart > pos then
    if pos ≤ 0xD7FF ∧ rangeStart > 0 then
      let gapEnd := rangeStart - 1
      if pos ≤ 0xD7FF ∧ gapEnd ≥ 0xD800 then
        (pos, 0xD7FF) :: if gapEnd ≥ 0xE000 then [(0xE000, gapEnd)] else []
      else if pos ≥ 0xE000 then [(pos, gapEnd)]
      else if gapEnd < 0xD800 then [(pos, gapEnd)]
      else []
    else if pos ≥ 0xE000 then [(pos, rangeStart - 1)]
    else []
  else []

/-- The trailing gap. -/
def trailingRanges (pos : Nat) : List (Nat × Nat) :=
  if pos ≤ 0x10FFFF then
    if pos ≤ 0xD7FF then [(pos, 0xD7FF), (0xE000, 0x10FFFF)]
    else if pos ≥ 0xD800 ∧ pos ≤ 0xDFFF then [(0xE000, 0x10FFFF)]
    else [(pos, 0x10FFFF)]
  else []

/-- A round of the loop of `_negate_ranges`, on `pos` and `result`. -/
def negateStep (s : Nat × List (Nat × Nat)) (range : Nat × Nat) : Nat × List (Nat × Nat) :=
  ((range.2 + 1) % 2 ^ 32, s.2 ++ gapRanges s.1 range.1)

/-- `_negate_ranges`. -/
def negateRanges (ranges : List (Nat × Nat)) : List (Nat × Nat) :=
  let (pos, result) := ranges.foldl negateStep (0, [])
  result ++ trailingRanges pos

/-- A Unicode scalar value. -/
def IsScalar (cp : Nat) : Prop := cp ≤ 0xD7FF ∨ 0xE000 ≤ cp ∧ cp ≤ 0x10FFFF

/-- The result is sorted and has exactly the scalar values that are not in the ranges. -/
def Negates (ranges result : List (Nat × Nat)) : Prop :=
  SortedRanges result ∧ ∀ cp, InRanges result cp ↔ IsScalar cp ∧ ¬ InRanges ranges cp

/-- A gap from a surrogate on that ends behind U+E000. -/
def FromSurrogate (pos rangeStart : Nat) : Prop :=
  0xD800 ≤ pos ∧ pos ≤ 0xDFFF ∧ 0xE000 < rangeStart

variable {ranges result : List (Nat × Nat)} {pos hi : Nat}

/-- The loop gives what is put out for the gaps. -/
theorem foldl_negateStep (hc : ∀ r ∈ ranges, r.2 ≤ 0x10FFFF) :
    (ranges.foldl negateStep (pos, result)).2 ++
      trailingRanges (ranges.foldl negateStep (pos, result)).1 =
      result ++ sweep gapRanges trailingRanges pos ranges := by
  induction ranges generalizing pos result with
  | nil => rfl
  | cons r ranges ih =>
    have hr := hc r (.head _)
    have hmod : (r.2 + 1) % 2 ^ 32 = r.2 + 1 := Nat.mod_eq_of_lt (by omega)
    rw [foldl_cons, ih fun r hr => hc r (.tail _ hr), negateStep, hmod, append_assoc]
    rfl

theorem negateRanges_eq (hc : ∀ r ∈ ranges, r.2 ≤ 0x10FFFF) :
    negateRanges ranges = sweep gapRanges trailingRanges 0 ranges :=
  (foldl_negateStep hc).trans (nil_append _)

/-- Both sides of the surrogates. -/
theorem between_pair {d : Nat} (hpos : pos ≤ 0xD7FF) (hlow : 0xE000 ≤ d) (hd : d < hi) :
    Between pos hi [(pos, 0xD7FF), (0xE000, d)] :=
  (between_singleton (le_refl pos) hpos (Nat.lt_succ_self _)).append
    (between_singleton (le_refl _) hlow hd) (by omega) (by omega) (by omega)

theorem between_gapRanges (pos hi : Nat) : Between pos hi (gapRanges pos hi) := by
  unfold gapRanges
  dsimp only
  split_ifs
  · exact between_pair (by omega) (by omega) (by omega)
  all_goals first | exact between_nil _ _ | exact between_singleton (by omega) (by omega) (by omega)

theorem between_trailingRanges (pos : Nat) (h : pos ≤ 0x110000) :
    Between pos 0x110000 (trailingRanges pos) := by
  unfold trailingRanges
  split_ifs
  · exact between_pair (by omega) (by omega) (by omega)
  all_goals first | exact between_nil _ _ | exact between_singleton (by omega) (by omega) (by omega)

theorem complements_trailingRanges (pos : Nat) (h : pos ≤ 0x110000) :
    Complements IsScalar pos 0x110000 [] (trailingRanges pos) := by
  intro x hx hlt
  unfold trailingRanges
  split_ifs <;> simp only [covers_cons, not_covers_nil, or_false, false_iff, not_false_eq_true,
      and_true, IsScalar] <;>
      omega

theorem complements_gapRanges (h : pos ≤ hi) (hhi : hi ≤ 0x110000) :
    Complements IsScalar pos hi [] (gapRanges pos hi) ↔ ¬ FromSurrogate pos hi := by
  constructor
  · rintro hc ⟨h₁, h₂, h₃⟩
    have := hc 0xE000 (by omega) h₃
    have hnil : gapRanges pos hi = [] := by
      unfold gapRanges
      rw [if_pos (by omega), if_neg (by omega), if_neg (by omega)]
    rw [hnil] at this
    simp [IsScalar] at this
  · intro hn x hx hlt
    unfold FromSurrogate at hn
    unfold gapRanges
    dsimp only
    split_ifs <;> simp only [covers_cons, not_covers_nil, or_false, false_iff, not_false_eq_true,
      and_true, IsScalar] <;>
      omega

/-- **When the negation is the complement**: no gap between two ranges begins at a surrogate and ends
behind U+E000. -/
theorem negateRanges_negates_iff (hs : SortedRanges ranges) (hc : ∀ r ∈ ranges, r.2 ≤ 0x10FFFF) :
    Negates ranges (negateRanges ranges) ↔
      ranges.IsChain fun a b => ¬ FromSurrogate (a.2 + 1) b.1 := by
  have hr : Between 0 0x110000 ranges :=
    ⟨hs.1, fun r hr => ⟨Nat.zero_le _, hs.2 r hr, Nat.lt_succ_of_le (hc r hr)⟩⟩
  have hb := hr.sweep between_gapRanges between_trailingRanges (Nat.zero_le _)
  have hsorted : SortedRanges (negateRanges ranges) := by
    rw [negateRanges_eq hc]
    exact ⟨hb.sorted, fun r hr => (hb.bounds r hr).2.1⟩
  have hwhole := complements_sweep between_gapRanges between_trailingRanges
    (fun _ _ => complements_gapRanges) complements_trailingRanges hr (Nat.zero_le _)
  have hfirst : ∀ r ∈ ranges.head?, ¬ FromSurrogate 0 r.1 := fun r _ h => absurd h.1 (by decide)
  rw [← negateRanges_eq hc, and_iff_right hfirst] at hwhole
  rw [Negates, and_iff_right hsorted, ← hwhole]
  refine ⟨fun h cp _ _ => h cp, fun h cp => ?_⟩
  rcases Nat.lt_or_ge cp 0x110000 with hlt | hge
  · exact h cp (Nat.zero_le _) hlt
  · rw [negateRanges_eq hc]
    refine iff_of_false (fun hcp => ?_) fun hcp => ?_
    · have := hb.covers hcp
      omega
    · have := hcp.1
      unfold IsScalar at this
      omega

/-- The ranges around the surrogates that are letters. -/
theorem negateRanges_negates_letters :
    Negates [(0xAC00, 0xD7A3), (0xD7B0, 0xD7C6), (0xD7CB, 0xD7FB), (0xF900, 0xFA6D)]
      (negateRanges [(0xAC00, 0xD7A3), (0xD7B0, 0xD7C6), (0xD7CB, 0xD7FB), (0xF900, 0xFA6D)]) :=
  (negateRanges_negates_iff (by simp [SortedRanges]) (by simp)).2 (by simp [FromSurrogate])

/-- Two ranges that are neighbours in the category `Cn`: U+E000 is in neither of them, and it is not
in the result. -/
theorem negateRanges_drops : SortedRanges [(0xD7FC, 0xD7FF), (0xFA6E, 0xFA6F)] ∧
    ¬ Negates [(0xD7FC, 0xD7FF), (0xFA6E, 0xFA6F)]
      (negateRanges [(0xD7FC, 0xD7FF), (0xFA6E, 0xFA6F)]) := by
  refine ⟨by simp [SortedRanges], fun h => ?_⟩
  have hresult : negateRanges [(0xD7FC, 0xD7FF), (0xFA6E, 0xFA6F)] =
      [(0, 0xD7FB), (0xFA70, 0x10FFFF)] := by decide
  have hin := (h.2 0xE000).2 (by simp [IsScalar, InRanges])
  rw [hresult] at hin
  simp [InRanges] at hin

end SpacePony.Iregex
