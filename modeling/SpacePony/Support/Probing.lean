import Mathlib.Data.Finset.Card
import Mathlib.Data.List.Perm.Basic
import Mathlib.Data.Nat.ModEq
import Mathlib.Tactic

/-!
# Support — open addressing with deleted cells

A table of cells, each empty, deleted or full, and for each element a sequence of slots to look for
it in.  Slots may be visited twice, and not every slot need be visited.
-/

namespace SpacePony.Probing

open List

/-- A cell of a table. -/
inductive Cell (α : Type)
  | empty
  | deleted
  | full (a : α)
deriving DecidableEq

variable {α : Type}

/-- The element of a full cell. -/
def Cell.elem? : Cell α → Option α
  | full a => some a
  | _ => none

/-- The elements of a table, in the order of their slots. -/
def elems (T : List (Cell α)) : List α := T.filterMap Cell.elem?

/-- Every element is at a slot of its own sequence, with no empty cell before it. -/
def Placed (probe : α → Nat → Nat) (T : List (Cell α)) : Prop :=
  ∀ s a, T[s]? = some (.full a) →
    ∃ j < T.length, probe a j = s ∧ ∀ i < j, T[probe a i]? ≠ some .empty

section
variable {probe : α → Nat → Nat} {T : List (Cell α)} {s : Nat} {c : Cell α}

theorem placed_replicate (n : Nat) : Placed probe (replicate n .empty) := by
  intro s a h
  cases eq_of_mem_replicate (mem_of_getElem? h)

/-- A cell that is not emptied stays so. -/
theorem set_ne_empty (hc : c ≠ .empty) {i : Nat} (h : T[i]? ≠ some .empty) :
    (T.set s c)[i]? ≠ some .empty := by
  rw [getElem?_set]
  split_ifs with hs hl
  · exact fun e => hc (Option.some.inj e)
  · simp
  · exact h

/-- **Writing a cell.**  What is written must be at a slot of its own sequence, if it is an
element. -/
theorem Placed.set (hT : Placed probe T) (hc : c ≠ .empty)
    (hp : ∀ a, c = .full a → ∃ j < T.length, probe a j = s ∧ ∀ i < j, T[probe a i]? ≠ some .empty) :
    Placed probe (T.set s c) := by
  intro s' a h
  rw [length_set]
  have key : ∃ j < T.length, probe a j = s' ∧ ∀ i < j, T[probe a i]? ≠ some .empty := by
    rw [getElem?_set] at h
    split_ifs at h with hs hl
    · exact hs ▸ hp a (Option.some.inj h)
    · exact hT s' a h
  obtain ⟨j, hj, e, hi⟩ := key
  exact ⟨j, hj, e, fun i hij => set_ne_empty hc (hi i hij)⟩

/-! ### The elements -/

theorem mem_elems {a : α} : a ∈ elems T ↔ ∃ s : Nat, T[s]? = some (.full a) := by
  rw [elems, mem_filterMap]
  constructor
  · rintro ⟨c, hc, e⟩
    cases c with
    | full b =>
      cases e
      exact getElem?_of_mem hc
    | empty | deleted => cases e
  · rintro ⟨s, h⟩
    exact ⟨.full a, mem_of_getElem? h, rfl⟩

theorem elems_replicate (n : Nat) : elems (replicate n (.empty : Cell α)) = [] := by
  rw [elems, filterMap_eq_nil_iff]
  intro c hc
  rw [eq_of_mem_replicate hc]
  rfl

/-- The elements of a table are those of one of its cells and those of the others. -/
theorem elems_perm (h : T[s]? = some c) : (elems T).Perm (c.elem?.toList ++ elems (T.eraseIdx s)) := by
  obtain ⟨hs, rfl⟩ := List.getElem?_eq_some_iff.1 h
  have := ((getElem_cons_eraseIdx_perm hs).symm).filterMap (Cell.elem? (α := α))
  refine this.trans (List.Perm.of_eq ?_)
  rw [filterMap_cons]
  cases T[s].elem? <;> rfl

/-- The elements after a write. -/
theorem elems_set_perm (c : Cell α) (h : s < T.length) :
    (elems (T.set s c)).Perm (c.elem?.toList ++ elems (T.eraseIdx s)) := by
  have := elems_perm (T := T.set s c) (s := s) (c := c) (by simp [h])
  rwa [eraseIdx_set_eq] at this

theorem card_full (T : List (Cell α)) :
    ((Finset.range T.length).filter fun i => (T[i]?.bind Cell.elem?).isSome).card =
      (elems T).length := by
  induction T using reverseRecOn with
  | nil => rfl
  | append_singleton T c ih =>
    have hlast : ((T ++ [c])[T.length]?.bind Cell.elem?) = c.elem? := by simp
    have hrest : ((Finset.range T.length).filter fun i =>
        ((T ++ [c])[i]?.bind Cell.elem?).isSome) =
        (Finset.range T.length).filter fun i => (T[i]?.bind Cell.elem?).isSome := by
      refine Finset.filter_congr fun i hi => ?_
      rw [getElem?_append_left (Finset.mem_range.1 hi)]
    have hlen : (elems (T ++ [c])).length = (elems T).length + (elems [c]).length := by
      rw [elems, filterMap_append, length_append, elems, elems]
    rw [hlen, ← ih, length_append, length_singleton, Finset.range_add_one,
      Finset.filter_insert, hlast, hrest]
    cases he : c.elem? with
    | none | some a => simp [elems, he]

end

/-! ### Quadratic probing -/

/-- The triangular numbers, as the sum that quadratic probing computes. -/
def triangle (j : Nat) : Nat := (j + j * j) / 2

theorem two_mul_triangle (j : Nat) : 2 * triangle j = j * (j + 1) := by
  have h : j + j * j = j * (j + 1) := by ring
  rw [triangle, h]
  exact Nat.mul_div_cancel' (Nat.even_mul_succ_self j).two_dvd

/-- Over a number of slots that is a power of two, the first triangular numbers are different. -/
theorem triangle_inj {k a b : Nat} (ha : a < 2 ^ k) (hb : b < 2 ^ k)
    (h : triangle a ≡ triangle b [MOD 2 ^ k]) : a = b := by
  wlog hab : a ≤ b generalizing a b with H
  · exact (H hb ha h.symm (Nat.le_of_not_le hab)).symm
  obtain ⟨d, rfl⟩ := Nat.exists_eq_add_of_le hab
  have ht : 2 * triangle (a + d) = 2 * triangle a + d * (2 * a + d + 1) := by
    rw [two_mul_triangle, two_mul_triangle]
    ring
  have hle : triangle a ≤ triangle (a + d) := by nlinarith
  have hdvd : 2 ^ (k + 1) ∣ d * (2 * a + d + 1) := by
    obtain ⟨c, hc⟩ := (Nat.modEq_iff_dvd' hle).1 h
    refine ⟨c, ?_⟩
    have : d * (2 * a + d + 1) = 2 * (triangle (a + d) - triangle a) := by omega
    rw [this, hc, pow_succ]
    ring
  -- the factors have different parity, and so the power divides one of them
  obtain hd | hd := Nat.even_or_odd d
  · have hodd : Nat.Coprime (2 ^ (k + 1)) (2 * a + d + 1) := by
      refine Nat.Coprime.pow_left _ (Nat.coprime_two_left.2 ?_)
      obtain ⟨e, rfl⟩ := hd
      exact ⟨a + e, by ring⟩
    have := Nat.eq_zero_of_dvd_of_lt (hodd.dvd_of_dvd_mul_right hdvd) (by rw [pow_succ]; omega)
    omega
  have hodd : Nat.Coprime (2 ^ (k + 1)) d :=
    Nat.Coprime.pow_left _ (Nat.coprime_two_left.2 hd)
  have := Nat.le_of_dvd (by omega) (hodd.dvd_of_dvd_mul_left hdvd)
  rw [pow_succ] at this
  omega

/-- **A free cell is met** by quadratic probing that leaves out one slot, when at least two cells
are not full. -/
theorem exists_free {T : List (Cell α)} {k : Nat} (hn : T.length = 2 ^ k) (h : Nat)
    (hfree : (elems T).length + 2 ≤ T.length) :
    ∃ j < T.length - 1, ∀ a, T[(h + triangle j) % T.length]? ≠ some (.full a) := by
  have hpos : 0 < T.length := by omega
  by_contra hall
  push Not at hall
  -- otherwise the slots that are probed are different and full, and there are too many of them
  have hsub : (Finset.range (T.length - 1)).image (fun j => (h + triangle j) % T.length) ⊆
      (Finset.range T.length).filter fun i => (T[i]?.bind Cell.elem?).isSome := by
    intro s hs
    obtain ⟨j, hj, rfl⟩ := Finset.mem_image.1 hs
    obtain ⟨a, ha⟩ := hall j (Finset.mem_range.1 hj)
    refine Finset.mem_filter.2 ⟨Finset.mem_range.2 (Nat.mod_lt _ hpos), ?_⟩
    rw [ha]
    rfl
  have hle := Finset.card_le_card hsub
  rw [card_full, Finset.card_image_of_injOn, Finset.card_range] at hle
  · omega
  intro a ha b hb e
  have ha := Finset.mem_range.1 ha
  have hb := Finset.mem_range.1 hb
  rw [hn] at ha hb e
  exact triangle_inj (by omega) (by omega) (Nat.ModEq.add_left_cancel' h e)

end SpacePony.Probing
