import Mathlib.Data.List.Chain

/-!
# Support — the gaps between ranges

Ranges are read in order, and other ranges are put out for the gap before each of them and for what
is behind the last one.  What is put out is sorted, and no two of its ranges overlap
(`Between.sweep`); it is the complement exactly when it is the complement in every gap
(`complements_sweep`).
-/

namespace SpacePony.Gaps

open List

/-- The number is in one of the ranges, both ends included. -/
def Covers (rs : List (ℕ × ℕ)) (x : ℕ) : Prop := ∃ r ∈ rs, r.1 ≤ x ∧ x ≤ r.2

/-- Ranges one behind the other, from `lo` on and below `hi`. -/
structure Between (lo hi : ℕ) (rs : List (ℕ × ℕ)) : Prop where
  sorted : rs.Pairwise fun a b => a.2 < b.1
  bounds : ∀ r ∈ rs, lo ≤ r.1 ∧ r.1 ≤ r.2 ∧ r.2 < hi

/-- Of the numbers with the property from `lo` to `hi`, `out` covers those that `rs` does not. -/
def Complements (P : ℕ → Prop) (lo hi : ℕ) (rs out : List (ℕ × ℕ)) : Prop :=
  ∀ x, lo ≤ x → x < hi → (Covers out x ↔ P x ∧ ¬ Covers rs x)

/-- What is put out for the gaps. -/
def sweep (fill : ℕ → ℕ → List (ℕ × ℕ)) (rest : ℕ → List (ℕ × ℕ)) : ℕ → List (ℕ × ℕ) → List (ℕ × ℕ)
  | pos, [] => rest pos
  | pos, r :: rs => fill pos r.1 ++ sweep fill rest (r.2 + 1) rs

variable {P : ℕ → Prop} {fill : ℕ → ℕ → List (ℕ × ℕ)} {rest : ℕ → List (ℕ × ℕ)}
  {rs out out' : List (ℕ × ℕ)} {r : ℕ × ℕ} {lo mid mid' hi pos x : ℕ}

@[simp] theorem not_covers_nil : ¬ Covers [] x := fun ⟨_, hr, _⟩ => not_mem_nil hr

theorem covers_cons : Covers (r :: rs) x ↔ r.1 ≤ x ∧ x ≤ r.2 ∨ Covers rs x := by
  simp [Covers]

theorem covers_append : Covers (out ++ out') x ↔ Covers out x ∨ Covers out' x := by
  simp [Covers, or_and_right, exists_or]

theorem between_nil (lo hi : ℕ) : Between lo hi [] := ⟨.nil, fun _ hr => absurd hr not_mem_nil⟩

theorem between_singleton {a b : ℕ} (hlo : lo ≤ a) (hab : a ≤ b) (hhi : b < hi) :
    Between lo hi [(a, b)] :=
  ⟨pairwise_singleton _ _, fun r hr => by
    rw [mem_singleton.1 hr]
    exact ⟨hlo, hab, hhi⟩⟩

/-- What is covered is between the bounds. -/
theorem Between.covers (h : Between lo hi rs) (hx : Covers rs x) : lo ≤ x ∧ x < hi := by
  obtain ⟨r, hr, h₁, h₂⟩ := hx
  obtain ⟨hlo, -, hhi⟩ := h.bounds r hr
  exact ⟨hlo.trans h₁, h₂.trans_lt hhi⟩

/-- One list behind the other. -/
theorem Between.append (h : Between lo mid out) (h' : Between mid' hi out') (hle : mid ≤ mid')
    (hlo : lo ≤ mid') (hhi : mid ≤ hi) : Between lo hi (out ++ out') where
  sorted := pairwise_append.2 ⟨h.sorted, h'.sorted, fun a ha b hb =>
    (h.bounds a ha).2.2.trans_le (hle.trans (h'.bounds b hb).1)⟩
  bounds r hr := by
    rcases mem_append.1 hr with hr | hr
    · obtain ⟨h₁, h₂, h₃⟩ := h.bounds r hr
      exact ⟨h₁, h₂, h₃.trans_le hhi⟩
    · obtain ⟨h₁, h₂, h₃⟩ := h'.bounds r hr
      exact ⟨hlo.trans h₁, h₂, h₃⟩

/-- The ranges behind the first one. -/
theorem Between.tail (h : Between lo hi (r :: rs)) : Between (r.2 + 1) hi rs where
  sorted := (pairwise_cons.1 h.sorted).2
  bounds r' hr' := by
    obtain ⟨-, h₂, h₃⟩ := h.bounds r' (.tail _ hr')
    exact ⟨(pairwise_cons.1 h.sorted).1 r' hr', h₂, h₃⟩

/-- **The complement in two parts**, in the gap before a range and behind the range. -/
theorem complements_cons_append (hr : Between lo hi (r :: rs)) (h : Between lo r.1 out)
    (h' : Between (r.2 + 1) hi out') : Complements P lo hi (r :: rs) (out ++ out') ↔
      Complements P lo r.1 [] out ∧ Complements P (r.2 + 1) hi rs out' := by
  obtain ⟨hlo, hle, hhi⟩ := hr.bounds r (.head _)
  have hgap : ∀ x < r.1, ¬ Covers out' x ∧ (Covers (r :: rs) x ↔ Covers [] x) := by
    refine fun x hx => ⟨fun hc => ?_, iff_of_false (fun hc => ?_) not_covers_nil⟩
    · have := h'.covers hc
      omega
    · rcases covers_cons.1 hc with hc | hc
      · omega
      · have := hr.tail.covers hc
        omega
  have hbehind : ∀ x, r.2 < x → ¬ Covers out x ∧ (Covers (r :: rs) x ↔ Covers rs x) := by
    refine fun x hx => ⟨fun hc => ?_, ?_⟩
    · have := h.covers hc
      omega
    · rw [covers_cons, or_iff_right fun hc => by omega]
  constructor
  · refine fun hc => ⟨fun x hx hxr => ?_, fun x hrx hx => ?_⟩
    · rw [← (hgap x hxr).2, ← hc x hx (by omega), covers_append, or_iff_left (hgap x hxr).1]
    · rw [← (hbehind x hrx).2, ← hc x (by omega) hx, covers_append, or_iff_right (hbehind x hrx).1]
  · rintro ⟨hc, hc'⟩ x hx hxhi
    rw [covers_append]
    rcases Nat.lt_or_ge x r.1 with hxr | hxr
    · rw [or_iff_left (hgap x hxr).1, hc x hx hxr, (hgap x hxr).2]
    rcases Nat.lt_or_ge r.2 x with hrx | hrx
    · rw [or_iff_right (hbehind x hrx).1, hc' x hrx hxhi, (hbehind x hrx).2]
    -- in the range itself
    refine iff_of_false ?_ fun hp => hp.2 (covers_cons.2 (.inl ⟨hxr, hrx⟩))
    rintro (hc | hc)
    · have := h.covers hc
      omega
    · have := h'.covers hc
      omega

section
variable {top : ℕ} (hfill : ∀ lo hi, Between lo hi (fill lo hi))
  (hrest : ∀ lo ≤ top, Between lo top (rest lo))
include hfill hrest

/-- **What is put out** is sorted, and no two of its ranges overlap. -/
theorem Between.sweep (h : Between pos top rs) (hpos : pos ≤ top) :
    Between pos top (sweep fill rest pos rs) := by
  induction rs generalizing pos with
  | nil => exact hrest pos hpos
  | cons r rs ih =>
    obtain ⟨hlo, hle, hhi⟩ := h.bounds r (.head _)
    exact (hfill pos r.1).append (ih h.tail hhi) (by omega) (by omega) (by omega)

/-- **The whole is the complement exactly when every gap is.** -/
theorem complements_sweep {good : ℕ → ℕ → Prop}
    (hgood : ∀ lo hi, lo ≤ hi → hi ≤ top → (Complements P lo hi [] (fill lo hi) ↔ good lo hi))
    (hlast : ∀ lo ≤ top, Complements P lo top [] (rest lo))
    (h : Between pos top rs) (hpos : pos ≤ top) :
    Complements P pos top rs (Gaps.sweep fill rest pos rs) ↔
      (∀ r ∈ rs.head?, good pos r.1) ∧ rs.IsChain fun a b => good (a.2 + 1) b.1 := by
  induction rs generalizing pos with
  | nil => simpa [Gaps.sweep] using hlast pos hpos
  | cons r rs ih =>
    obtain ⟨hlo, hle, hhi⟩ := h.bounds r (.head _)
    have htail := h.tail.sweep hfill hrest hhi
    rw [Gaps.sweep, complements_cons_append h (hfill pos r.1) htail, ih h.tail hhi, isChain_cons,
      hgood pos r.1 hlo (by omega)]
    simp

end

end SpacePony.Gaps
