import SpacePony.Support.Rearrange

/-!
# Support — heaps in a list

The parent of the position `i` is `(i - 1) / 2`, and `r x y` says that `x` may be the parent of `y`;
`r` is a total preorder.

* `UpHole.up`, `UpHole.done`, `DownHole.down`, `DownHole.done`: what one step of a sift does.
* `HeapFrom.top`: **the first value may be the parent of every other one.**
-/

namespace SpacePony.ImplicitHeap

open Rearrange

variable {α : Type} {r : α → α → Prop} {xs : List α} {lo n i j k m : ℕ}

/-! ### The order of two positions -/

/-- The values at `i` and `j`, if there are any, are in the order `r`. -/
def Rel (r : α → α → Prop) (xs : List α) (i j : ℕ) : Prop :=
  ∀ x y, xs[i]? = some x → xs[j]? = some y → r x y

theorem Rel.of {x y : α} (hx : xs[i]? = some x) (hy : xs[j]? = some y) (h : r x y) :
    Rel r xs i j := by
  intro x' y' hx' hy'
  rw [hx, Option.some.injEq] at hx'
  rw [hy, Option.some.injEq] at hy'
  exact hx' ▸ hy' ▸ h

theorem Rel.trans (htrans : ∀ x y z, r x y → r y z → r x z) (hj : j < xs.length)
    (h : Rel r xs i j) (h' : Rel r xs j k) : Rel r xs i k := by
  intro x z hx hz
  have hy := List.getElem?_eq_getElem hj
  exact htrans x _ z (h x _ hx hy) (h' _ z hy hz)

theorem rel_exchange (hi : i < xs.length) (hj : j < xs.length) :
    Rel r (exchange xs i j) k m ↔ Rel r xs (Equiv.swap i j k) (Equiv.swap i j m) := by
  unfold Rel
  rw [getElem?_exchange hi hj, getElem?_exchange hi hj]

theorem rel_exchange_of_ne (hi : i < xs.length) (hj : j < xs.length) (hki : k ≠ i) (hkj : k ≠ j)
    (hmi : m ≠ i) (hmj : m ≠ j) : Rel r (exchange xs i j) k m ↔ Rel r xs k m := by
  rw [rel_exchange hi hj, Equiv.swap_apply_of_ne_of_ne hki hkj,
    Equiv.swap_apply_of_ne_of_ne hmi hmj]

/-! ### The heap order -/

/-- Every position before `n` whose parent is at `lo` or later is in order with its parent. -/
def HeapFrom (r : α → α → Prop) (lo n : ℕ) (xs : List α) : Prop :=
  ∀ i, 0 < i → i < n → lo ≤ (i - 1) / 2 → Rel r xs ((i - 1) / 2) i

/-- The heap order but for the position `k` and its parent. -/
structure UpHole (r : α → α → Prop) (k : ℕ) (xs : List α) : Prop where
  lt : k < xs.length
  order : ∀ i, 0 < i → i < xs.length → i ≠ k → Rel r xs ((i - 1) / 2) i
  grand : 0 < k → ∀ i, 0 < i → i < xs.length → (i - 1) / 2 = k → Rel r xs ((k - 1) / 2) i

/-- The heap order from `lo` but for the position `k` and its children. -/
structure DownHole (r : α → α → Prop) (lo n k : ℕ) (xs : List α) : Prop where
  lo_le : lo ≤ k
  order : ∀ i, 0 < i → i < n → lo ≤ (i - 1) / 2 → (i - 1) / 2 ≠ k → Rel r xs ((i - 1) / 2) i
  grand : 0 < k → lo ≤ (k - 1) / 2 → ∀ i, 0 < i → i < n → (i - 1) / 2 = k →
    Rel r xs ((k - 1) / 2) i

namespace UpHole

/-- The value at `k` changes places with its parent. -/
theorem up (htrans : ∀ x y z, r x y → r y z → r x z) (h : UpHole r k xs) (hk : 0 < k)
    (hkp : Rel r xs k ((k - 1) / 2)) : UpHole r ((k - 1) / 2) (exchange xs ((k - 1) / 2) k) := by
  have hkn := h.lt
  have hpn : (k - 1) / 2 < xs.length := by omega
  refine ⟨by simpa using hpn, fun i hi hin hne => ?_, fun hp i hi hin hip => ?_⟩
  · rw [length_exchange] at hin
    rw [rel_exchange hpn hkn]
    rcases eq_or_ne i k with rfl | hik
    · rwa [Equiv.swap_apply_left, Equiv.swap_apply_right]
    rw [Equiv.swap_apply_of_ne_of_ne hne hik]
    rcases eq_or_ne ((i - 1) / 2) ((k - 1) / 2) with he | hep
    · rw [he, Equiv.swap_apply_left]
      exact hkp.trans htrans hpn (he ▸ h.order i hi hin hik)
    rcases eq_or_ne ((i - 1) / 2) k with he | hek
    · rw [he, Equiv.swap_apply_right]
      exact h.grand hk i hi hin he
    · rw [Equiv.swap_apply_of_ne_of_ne hep hek]
      exact h.order i hi hin hik
  rw [length_exchange] at hin
  have hpp := h.order ((k - 1) / 2) hp hpn (by omega)
  rw [rel_exchange hpn hkn, Equiv.swap_apply_of_ne_of_ne (by omega) (by omega)]
  rcases eq_or_ne i k with rfl | hik
  · rwa [Equiv.swap_apply_right]
  · rw [Equiv.swap_apply_of_ne_of_ne (by omega) hik]
    exact hpp.trans htrans hpn (hip ▸ h.order i hi hin hik)

/-- The value at `k` is in order with its parent, or has none. -/
theorem done (h : UpHole r k xs) (hk : k = 0 ∨ Rel r xs ((k - 1) / 2) k) :
    HeapFrom r 0 xs.length xs := by
  intro i hi hin _
  rcases eq_or_ne i k with rfl | hik
  · exact hk.resolve_left hi.ne'
  · exact h.order i hi hin hik

end UpHole

namespace DownHole

/-- The value at `k` changes places with its child `j`, which may be the parent of the other. -/
theorem down (h : DownHole r lo n k xs) (hn : n ≤ xs.length) (hj : 0 < j) (hjn : j < n)
    (hjk : (j - 1) / 2 = k) (hr : Rel r xs j k)
    (hsib : ∀ i, 0 < i → i < n → (i - 1) / 2 = k → i ≠ j → Rel r xs j i) :
    DownHole r lo n j (exchange xs k j) := by
  have hlo := h.lo_le
  have hkn : k < xs.length := by omega
  have hjn' : j < xs.length := by omega
  refine ⟨by omega, fun i hi hin hlop hne => ?_, fun _ _ i hi hin hij => ?_⟩
  · rw [rel_exchange hkn hjn']
    rcases eq_or_ne i j with rfl | hij
    · rwa [hjk, Equiv.swap_apply_left, Equiv.swap_apply_right]
    rcases eq_or_ne i k with rfl | hik
    · rw [Equiv.swap_apply_left, Equiv.swap_apply_of_ne_of_ne (by omega) hne]
      exact h.grand hi hlop j hj hjn hjk
    rw [Equiv.swap_apply_of_ne_of_ne hik hij]
    rcases eq_or_ne ((i - 1) / 2) k with he | hek
    · rw [he, Equiv.swap_apply_left]
      exact hsib i hi hin he hij
    · rw [Equiv.swap_apply_of_ne_of_ne hek hne]
      exact h.order i hi hin hlop hek
  · rw [rel_exchange hkn hjn', hjk, Equiv.swap_apply_left,
      Equiv.swap_apply_of_ne_of_ne (by omega) (by omega)]
    exact hij ▸ h.order i hi hin (by omega) (by omega)

/-- The value at `k` is in order with its children. -/
theorem done (h : DownHole r lo n k xs)
    (hk : ∀ i, 0 < i → i < n → (i - 1) / 2 = k → Rel r xs k i) : HeapFrom r lo n xs := by
  intro i hi hin hlo
  rcases eq_or_ne ((i - 1) / 2) k with he | hne
  · rw [he]
    exact hk i hi hin he
  · exact h.order i hi hin hlo hne

end DownHole

namespace HeapFrom

/-- A new value at the end. -/
theorem upHole (h : HeapFrom r 0 (xs.length - 1) xs) (hlen : 0 < xs.length) :
    UpHole r (xs.length - 1) xs where
  lt := by omega
  order i hi hin hne := h i hi (by omega) (by omega)
  grand _ i hi hin hik := by omega

/-- One position more, before the others. -/
theorem downHole (h : HeapFrom r (lo + 1) n xs) : DownHole r lo n lo xs where
  lo_le := le_rfl
  order i hi hin hlo hne := h i hi hin (by omega)
  grand hlo hle := by omega

theorem congr {ys : List α} (h : HeapFrom r lo n xs) (he : ∀ i < n, ys[i]? = xs[i]?) :
    HeapFrom r lo n ys := by
  intro i hi hin hlo x y hx hy
  rw [he _ (by omega)] at hx
  rw [he _ hin] at hy
  exact h i hi hin hlo x y hx hy

/-- **The first value may be the parent of every other one.** -/
theorem top (hrefl : ∀ x, r x x) (htrans : ∀ x y z, r x y → r y z → r x z)
    (h : HeapFrom r 0 n xs) (hn : n ≤ xs.length) (i : ℕ) (hi : i < n) : Rel r xs 0 i := by
  induction i using Nat.strong_induction_on with
  | _ i ih =>
    rcases Nat.eq_zero_or_pos i with rfl | hpos
    · intro x y hx hy
      rw [hx, Option.some.injEq] at hy
      exact hy ▸ hrefl x
    · exact (ih ((i - 1) / 2) (by omega) (by omega)).trans htrans (by omega)
        (h i hpos hi (by omega))

end HeapFrom

end SpacePony.ImplicitHeap
