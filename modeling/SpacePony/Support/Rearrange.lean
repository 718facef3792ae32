import Mathlib.Order.CompletePartialOrder
import Mathlib.Data.Set.BooleanAlgebra
import Mathlib.Data.List.Basic
import Mathlib.Data.Set.Disjoint
import Mathlib.Data.Set.Subsingleton
import Mathlib.Logic.Equiv.Basic
import Mathlib.Logic.Relation
import Mathlib.Tactic.Cases

/-!
# Support — rearranging a list in place

A list that is rearranged in place.  Two sorted parts are sorted together when a value divides them
(`SortedOn.glue`).
-/

namespace SpacePony.Rearrange

open List

variable {α : Type} {S T : Set ℕ} {xs ys zs : List α} {P Q : α → Prop} {r : α → α → Prop}
  {i j k : ℕ}

/-! ### Exchanges -/

/-- The values at `i` and `j` change places. -/
def exchange (xs : List α) (i j : ℕ) : List α :=
  match xs[i]?, xs[j]? with
  | some x, some y => (xs.set i y).set j x
  | _, _ => xs

@[simp] theorem length_exchange : (exchange xs i j).length = xs.length := by
  unfold exchange
  split <;> simp

theorem exchange_eq (hi : i < xs.length) (hj : j < xs.length) :
    exchange xs i j = (xs.set i xs[j]).set j xs[i] := by
  simp [exchange, hi, hj]

@[simp] theorem exchange_self : exchange xs i i = xs := by
  by_cases hi : i < xs.length
  · rw [exchange_eq hi hi, set_getElem_self, set_getElem_self]
  · simp [exchange, hi]

theorem getElem?_exchange (hi : i < xs.length) (hj : j < xs.length) :
    (exchange xs i j)[k]? = xs[Equiv.swap i j k]? := by
  rw [exchange_eq hi hj, getElem?_set, getElem?_set, Equiv.swap_apply_def]
  by_cases hkj : k = j
  · subst hkj
    by_cases hki : k = i <;> simp [hki, hi, hj]
  have hjk : j ≠ k := fun e => hkj e.symm
  by_cases hki : k = i
  · subst hki
    simp [hjk, hi, hj]
  · have hik : i ≠ k := fun e => hki e.symm
    simp [hjk, hik, hki, hkj]

theorem getElem?_exchange_of_ne (hi : i < xs.length) (hj : j < xs.length) (hki : k ≠ i)
    (hkj : k ≠ j) : (exchange xs i j)[k]? = xs[k]? := by
  rw [getElem?_exchange hi hj, Equiv.swap_apply_of_ne_of_ne hki hkj]

theorem getElem?_exchange_right (hi : i < xs.length) (hj : j < xs.length) :
    (exchange xs i j)[j]? = xs[i]? := by
  rw [getElem?_exchange hi hj, Equiv.swap_apply_right]

theorem exchange_perm (xs : List α) (i j : ℕ) : (exchange xs i j).Perm xs := by
  by_cases hi : i < xs.length
  · by_cases hj : j < xs.length
    · rw [exchange_eq hi hj]
      exact set_set_perm hi hj
    · simp [exchange, hj]
  · simp [exchange, hi]

/-! ### Rearrangements -/

/-- Exchanges of positions of `S`, one after another. -/
def Rearranged (S : Set ℕ) : List α → List α → Prop :=
  Relation.ReflTransGen fun xs ys =>
    ∃ i ∈ S, ∃ j ∈ S, i < xs.length ∧ j < xs.length ∧ ys = exchange xs i j

namespace Rearranged

theorem refl (S : Set ℕ) (xs : List α) : Rearranged S xs xs :=
  Relation.ReflTransGen.refl

theorem trans (h : Rearranged S xs ys) (h' : Rearranged S ys zs) : Rearranged S xs zs :=
  Relation.ReflTransGen.trans h h'

theorem exchange (hi : i ∈ S) (hj : j ∈ S) (hil : i < xs.length) (hjl : j < xs.length) :
    Rearranged S xs (exchange xs i j) :=
  .single ⟨i, hi, j, hj, hil, hjl, rfl⟩

theorem mono (h : Rearranged S xs ys) (hST : S ⊆ T) : Rearranged T xs ys := by
  refine Relation.ReflTransGen.mono ?_ _ _ h
  rintro xs ys ⟨i, hi, j, hj, hrest⟩
  exact ⟨i, hST hi, j, hST hj, hrest⟩

/-- A rearrangement is a permutation. -/
theorem perm (h : Rearranged S xs ys) : ys.Perm xs := by
  induction h with
  | refl => exact .refl xs
  | tail _ hstep ih =>
    rcases hstep with ⟨i, -, j, -, -, -, rfl⟩
    exact (exchange_perm _ i j).trans ih

theorem length (h : Rearranged S xs ys) : ys.length = xs.length := h.perm.length_eq

/-- The values at other positions stay. -/
theorem outside (h : Rearranged S xs ys) (hk : k ∉ S) : ys[k]? = xs[k]? := by
  induction h with
  | refl => rfl
  | tail _ hstep ih =>
    rcases hstep with ⟨i, hi, j, hj, hil, hjl, rfl⟩
    have hki : k ≠ i := fun e => hk (e ▸ hi)
    have hkj : k ≠ j := fun e => hk (e ▸ hj)
    rw [getElem?_exchange_of_ne hil hjl hki hkj, ih]

/-- A value at a position of `S` was at a position of `S`. -/
theorem inside (h : Rearranged S xs ys) (hk : k ∈ S) : ∃ m ∈ S, ys[k]? = xs[m]? := by
  induction h generalizing k with
  | refl => exact ⟨k, hk, rfl⟩
  | tail _ hstep ih =>
    rcases hstep with ⟨i, hi, j, hj, hil, hjl, rfl⟩
    rw [getElem?_exchange hil hjl]
    refine ih ?_
    rw [Equiv.swap_apply_def]
    split_ifs
    exacts [hj, hi, hk]

end Rearranged

/-! ### What holds of the values at some positions -/

/-- The values at the positions `S` meet `P`. -/
def On (S : Set ℕ) (P : α → Prop) (xs : List α) : Prop := ∀ k ∈ S, ∀ x, xs[k]? = some x → P x

theorem On.imp (h : On S P xs) (hPQ : ∀ x, P x → Q x) : On S Q xs :=
  fun k hk x hx => hPQ x (h k hk x hx)

theorem On.union (hS : On S P xs) (hT : On T P xs) : On (S ∪ T) P xs := by
  rintro k (hk | hk)
  exacts [hS k hk, hT k hk]

theorem On.singleton {x : α} (hk : xs[k]? = some x) (hx : P x) : On {k} P xs := by
  rintro _ rfl y hy
  rw [hk, Option.some.injEq] at hy
  exact hy ▸ hx

theorem On.congr (h : On S P xs) (he : ∀ k ∈ S, ys[k]? = xs[k]?) : On S P ys :=
  fun k hk x hx => h k hk x (he k hk ▸ hx)

/-- What holds after an exchange, by where the two positions are. -/
theorem on_exchange (hi : i < xs.length) (hj : j < xs.length)
    (hrest : ∀ k ∈ S, k ≠ i → k ≠ j → ∀ x, xs[k]? = some x → P x)
    (hiS : i ∈ S → ∀ x, xs[j]? = some x → P x) (hjS : j ∈ S → ∀ x, xs[i]? = some x → P x) :
    On S P (exchange xs i j) := by
  intro k hk x hx
  rw [getElem?_exchange hi hj] at hx
  rcases eq_or_ne k i with rfl | hki
  · rw [Equiv.swap_apply_left] at hx
    exact hiS hk x hx
  rcases eq_or_ne k j with rfl | hkj
  · rw [Equiv.swap_apply_right] at hx
    exact hjS hk x hx
  · rw [Equiv.swap_apply_of_ne_of_ne hki hkj] at hx
    exact hrest k hk hki hkj x hx

theorem Rearranged.on (h : Rearranged S xs ys) (hP : On S P xs) : On S P ys := by
  intro k hk x hx
  obtain ⟨m, hm, he⟩ := h.inside hk
  exact hP m hm x (he ▸ hx)

theorem Rearranged.on_of_disjoint (h : Rearranged S xs ys) (hST : Disjoint T S)
    (hP : On T P xs) : On T P ys :=
  hP.congr fun _ hk => h.outside (Set.disjoint_left.1 hST hk)

/-- The values at the positions `S` are in the order `r`. -/
def SortedOn (r : α → α → Prop) (S : Set ℕ) (xs : List α) : Prop :=
  ∀ i ∈ S, ∀ j ∈ S, i < j → ∀ x y, xs[i]? = some x → xs[j]? = some y → r x y

namespace SortedOn

theorem of_subsingleton (hS : S.Subsingleton) : SortedOn r S xs := by
  intro i hi j hj hij
  exact absurd (hS hi hj) hij.ne

theorem mono (h : SortedOn r S xs) (hTS : T ⊆ S) : SortedOn r T xs :=
  fun i hi j hj => h i (hTS hi) j (hTS hj)

theorem congr (h : SortedOn r S xs) (he : ∀ k ∈ S, ys[k]? = xs[k]?) : SortedOn r S ys := by
  intro i hi j hj hij x y hx hy
  exact h i hi j hj hij x y (he i hi ▸ hx) (he j hj ▸ hy)

/-- What is sorted outside the rearranged positions stays sorted. -/
theorem moved (h : SortedOn r T xs) (hm : Rearranged S xs ys) (hTS : Disjoint T S) :
    SortedOn r T ys :=
  h.congr fun _ hk => hm.outside (Set.disjoint_left.1 hTS hk)

/-- **Two sorted parts**, one before the other and a value between them, are sorted together. -/
theorem glue {m : α} (htrans : ∀ x y z, r x y → r y z → r x z) (hS : SortedOn r S xs)
    (hT : SortedOn r T xs) (hST : ∀ i ∈ S, ∀ j ∈ T, i < j) (hSm : On S (r · m) xs)
    (hmT : On T (r m ·) xs) : SortedOn r (S ∪ T) xs := by
  rintro i (hi | hi) j (hj | hj) hij x y hx hy
  · exact hS i hi j hj hij x y hx hy
  · exact htrans x m y (hSm i hi x hx) (hmT j hj y hy)
  · exact absurd (hST j hj i hi) hij.asymm
  · exact hT i hi j hj hij x y hx hy

end SortedOn

/-! ### Spans -/

/-- The positions from `lo` to `hi`. -/
def span (lo hi : ℤ) : Set ℕ := {i | lo ≤ i ∧ i ≤ hi}

@[simp] theorem mem_span {lo hi : ℤ} : k ∈ span lo hi ↔ lo ≤ k ∧ k ≤ hi := Iff.rfl

theorem span_subset {lo hi lo' hi' : ℤ} (hlo : lo' ≤ lo) (hhi : hi ≤ hi') :
    span lo hi ⊆ span lo' hi' := by
  rintro k ⟨h, h'⟩
  exact ⟨hlo.trans h, h'.trans hhi⟩

theorem span_disjoint {lo hi lo' hi' : ℤ} (h : hi < lo' ∨ hi' < lo) :
    Disjoint (span lo hi) (span lo' hi') := by
  rw [Set.disjoint_left]
  rintro k ⟨h₁, h₂⟩ ⟨h₃, h₄⟩
  omega

end SpacePony.Rearrange
