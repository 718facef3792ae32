import Mathlib.Data.List.Forall2
import Mathlib.Data.List.Perm.Basic
import Mathlib.Tactic

/-!
# Support — arrays compressed by a bitmap

A list that holds one element for each bit of a bitmap, in the order of the bits.  The place of an
element is the number of bits below its own (`rank`).

* `Sparse.at_bit`: the element of a bit, which can be replaced, or taken out with its bit.
* `Sparse.at_gap`: the place for the element of a bit that is not set.
-/

namespace SpacePony.Compressed

open List

variable {w : Nat}

/-- Bit `i` is set: `(b and (1 << i)) != 0`. -/
def checkBit (b : BitVec w) (i : Nat) : Bool := (b &&& (1#w <<< i)) != 0#w

/-- `b or (1 << i)`. -/
def setBit (b : BitVec w) (i : Nat) : BitVec w := b ||| (1#w <<< i)

/-- `b and not (1 << i)`. -/
def clearBit (b : BitVec w) (i : Nat) : BitVec w := b &&& ~~~ (1#w <<< i)

/-- The bits below bit `i`: `not (-1 << i)`. -/
def below (w i : Nat) : BitVec w := ~~~ (BitVec.allOnes w <<< i)

/-- The bits of a bitmap, ascending. -/
def bits (b : BitVec w) : List Nat := (range w).filter b.getLsbD

/-- The number of bits. -/
def popcount (b : BitVec w) : Nat := (range w).countP b.getLsbD

/-- The number of bits below bit `i`. -/
def rank (b : BitVec w) (i : Nat) : Nat := popcount (b &&& below w i)

section
variable {b : BitVec w} {i j : Nat}

theorem getLsbD_one_shiftLeft (hi : i < w) : (1#w <<< i).getLsbD j = decide (j = i) := by
  rw [BitVec.getLsbD_shiftLeft, BitVec.getLsbD_one]
  by_cases h : j = i
  · subst h
    simp [hi]
    omega
  by_cases hlt : j < i
  · simp [h, hlt]
  · have : j - i ≠ 0 := by omega
    simp [h, this]

theorem checkBit_eq (hi : i < w) : checkBit b i = b.getLsbD i := by
  rw [checkBit, Bool.eq_iff_iff, bne_iff_ne]
  constructor
  · intro h
    by_contra hb
    refine h (BitVec.eq_of_getLsbD_eq fun j _ => ?_)
    rw [BitVec.getLsbD_and, getLsbD_one_shiftLeft hi]
    by_cases hj : j = i
    · subst hj
      simp [Bool.eq_false_iff.2 hb]
    · simp [hj]
  · intro hb h
    have := congrArg (fun x => x.getLsbD i) h
    simp [getLsbD_one_shiftLeft hi, hb] at this

theorem getLsbD_setBit (hi : i < w) : (setBit b i).getLsbD j = (b.getLsbD j || decide (j = i)) := by
  rw [setBit, BitVec.getLsbD_or, getLsbD_one_shiftLeft hi]

theorem getLsbD_clearBit (hi : i < w) (hj : j < w) :
    (clearBit b i).getLsbD j = (b.getLsbD j && !decide (j = i)) := by
  rw [clearBit, BitVec.getLsbD_and, BitVec.getLsbD_not, getLsbD_one_shiftLeft hi]
  simp [hj]

theorem getLsbD_below (hj : j < w) : (below w i).getLsbD j = decide (j < i) := by
  rw [below, BitVec.getLsbD_not, BitVec.getLsbD_shiftLeft, BitVec.getLsbD_allOnes]
  by_cases h : j < i
  · simp [h, hj]
  · simp [h, hj]
    omega

theorem popcount_eq (b : BitVec w) : popcount b = (bits b).length := by
  rw [popcount, bits, countP_eq_length_filter]

theorem mem_bits : i ∈ bits b ↔ b.getLsbD i = true := by
  rw [bits, mem_filter, mem_range]
  exact ⟨And.right, fun h => ⟨BitVec.lt_of_getLsbD h, h⟩⟩

/-- The bits on either side of bit `i`. -/
def lower (b : BitVec w) (i : Nat) : List Nat := (range i).filter b.getLsbD

@[inherit_doc lower]
def upper (b : BitVec w) (i : Nat) : List Nat :=
  (range' (i + 1) (w - i - 1)).filter b.getLsbD

theorem range_split (hi : i < w) : range w = range i ++ i :: range' (i + 1) (w - i - 1) := by
  rw [range_eq_range', range_eq_range', ← range'_succ]
  have := @range'_append 0 i (w - i - 1 + 1) 1
  rw [Nat.one_mul, Nat.zero_add] at this
  rw [this]
  congr 1
  omega

theorem bits_of_set (h : b.getLsbD i = true) : bits b = lower b i ++ i :: upper b i := by
  rw [bits, range_split (BitVec.lt_of_getLsbD h), filter_append, filter_cons_of_pos h]
  rfl

theorem bits_of_unset (hi : i < w) (h : b.getLsbD i = false) : bits b = lower b i ++ upper b i := by
  rw [bits, range_split hi, filter_append, filter_cons_of_neg (by simp [h])]
  rfl

theorem lower_congr {b' : BitVec w} (h : ∀ j < i, b'.getLsbD j = b.getLsbD j) :
    lower b' i = lower b i :=
  filter_congr fun j hj => h j (mem_range.1 hj)

theorem upper_congr {b' : BitVec w} (h : ∀ j, i < j → j < w → b'.getLsbD j = b.getLsbD j) :
    upper b' i = upper b i :=
  filter_congr fun j hj => by
    obtain ⟨h1, h2⟩ := mem_range'_1.1 hj
    exact h j (by omega) (by omega)

theorem rank_eq (hi : i < w) : rank b i = (lower b i).length := by
  have hunset : (b &&& below w i).getLsbD i = false := by simp [getLsbD_below hi]
  have hlow : lower (b &&& below w i) i = lower b i :=
    lower_congr fun j hj => by simp [getLsbD_below (hj.trans hi), hj]
  have hup : upper (b &&& below w i) i = [] := by
    rw [upper, filter_eq_nil_iff]
    intro j hj
    obtain ⟨h1, h2⟩ := mem_range'_1.1 hj
    have hlt : j < w := by omega
    have hge : ¬ j < i := by omega
    simp [getLsbD_below hlt, hge]
  rw [rank, popcount_eq, bits_of_unset hi hunset, hlow, hup, append_nil]

theorem bits_setBit (hi : i < w) : bits (setBit b i) = lower b i ++ i :: upper b i := by
  rw [bits_of_set (i := i) (by simp [getLsbD_setBit hi]), lower_congr (b := b),
    upper_congr (b := b)]
  · intro j hj _
    simp [getLsbD_setBit hi, show ¬ j = i by omega]
  · intro j hj
    simp [getLsbD_setBit hi, show ¬ j = i by omega]

theorem bits_clearBit (hi : i < w) : bits (clearBit b i) = lower b i ++ upper b i := by
  rw [bits_of_unset (i := i) hi (by simp [getLsbD_clearBit hi hi]), lower_congr (b := b),
    upper_congr (b := b)]
  · intro j hj hjw
    simp [getLsbD_clearBit hi hjw, show ¬ j = i by omega]
  · intro j hj
    simp [getLsbD_clearBit hi (hj.trans hi), show ¬ j = i by omega]

theorem rank_setBit (hi : i < w) : rank (setBit b i) i = rank b i := by
  rw [rank_eq hi, rank_eq hi, lower_congr (b := b)]
  intro j hj
  simp [getLsbD_setBit hi, show ¬ j = i by omega]

end

/-! ### Compressed lists -/

variable {α : Type*} {R S : Nat → α → Prop} {b : BitVec w} {xs : List α} {i : Nat}

/-- The list has, for each bit of `b`, an element that `R` relates to it. -/
def Sparse (R : Nat → α → Prop) (b : BitVec w) (xs : List α) : Prop := List.Forall₂ R (bits b) xs

theorem Sparse.length (h : Sparse R b xs) : xs.length = popcount b :=
  (List.Forall₂.length_eq h).symm.trans (popcount_eq b).symm

theorem Sparse.mem (h : Sparse R b xs) {x : α} (hx : x ∈ xs) : ∃ i, b.getLsbD i = true ∧ R i x := by
  obtain ⟨n, hn, rfl⟩ := getElem_of_mem hx
  obtain ⟨hlen, hget⟩ := forall₂_iff_get.1 h
  refine ⟨(bits b)[n], mem_bits.1 (getElem_mem _), hget n (by omega) hn⟩

theorem sparse_zero : Sparse R (0#w) ([] : List α) := by
  have : bits (0#w) = [] := by
    rw [bits, filter_eq_nil_iff]
    intro j _
    simp
  rw [Sparse, this]
  exact .nil

/-- A list that goes with two lists one after the other is two such lists. -/
theorem forall₂_append_left {R : Nat → α → Prop} {as bs : List Nat} {xs : List α} :
    List.Forall₂ R (as ++ bs) xs ↔
      ∃ ys zs, xs = ys ++ zs ∧ List.Forall₂ R as ys ∧ List.Forall₂ R bs zs := by
  induction as generalizing xs with
  | nil => simp
  | cons a as ih =>
    rw [cons_append, forall₂_cons_left_iff]
    constructor
    · rintro ⟨x, rest, hx, hrest, rfl⟩
      obtain ⟨ys, zs, rfl, h1, h2⟩ := ih.1 hrest
      exact ⟨x :: ys, zs, rfl, .cons hx h1, h2⟩
    rintro ⟨ys, zs, rfl, h1, h2⟩
    obtain ⟨x, ys', hx, h1', rfl⟩ := forall₂_cons_left_iff.1 h1
    exact ⟨x, ys' ++ zs, hx, ih.2 ⟨ys', zs, rfl, h1', h2⟩, rfl⟩

/-- **At a bit that is set**: its element is at the bit's rank; another may take its place, or the
bit may be cleared and the element taken out. -/
theorem Sparse.at_bit (h : Sparse R b xs) (hb : b.getLsbD i = true) :
    ∃ lo x hi, xs = lo ++ x :: hi ∧ lo.length = rank b i ∧ R i x ∧
      (∀ y, R i y → Sparse R b (lo ++ y :: hi)) ∧ Sparse R (clearBit b i) (lo ++ hi) := by
  have hw := BitVec.lt_of_getLsbD hb
  have hs := h
  rw [Sparse, bits_of_set hb] at hs
  obtain ⟨lo, rest, rfl, hlo, hrest⟩ := forall₂_append_left.1 hs
  obtain ⟨x, hi, hx, hhi, rfl⟩ := forall₂_cons_left_iff.1 hrest
  refine ⟨lo, x, hi, rfl, ?_, hx, fun y hy => ?_, ?_⟩
  · rw [rank_eq hw, hlo.length_eq]
  · rw [Sparse, bits_of_set hb]
    exact forall₂_append_left.2 ⟨lo, y :: hi, rfl, hlo, .cons hy hhi⟩
  · rw [Sparse, bits_clearBit hw]
    exact forall₂_append_left.2 ⟨lo, hi, rfl, hlo, hhi⟩

/-- **At a bit that is not set**: its element goes to the bit's rank. -/
theorem Sparse.at_gap (h : Sparse R b xs) (hw : i < w) (hb : b.getLsbD i = false) :
    ∃ lo hi, xs = lo ++ hi ∧ lo.length = rank b i ∧
      ∀ y, R i y → Sparse R (setBit b i) (lo ++ y :: hi) := by
  have hs := h
  rw [Sparse, bits_of_unset hw hb] at hs
  obtain ⟨lo, hi, rfl, hlo, hhi⟩ := forall₂_append_left.1 hs
  refine ⟨lo, hi, rfl, ?_, fun y hy => ?_⟩
  · rw [rank_eq hw, hlo.length_eq]
  · rw [Sparse, bits_setBit hw]
    exact forall₂_append_left.2 ⟨lo, y :: hi, rfl, hlo, .cons hy hhi⟩

end SpacePony.Compressed
