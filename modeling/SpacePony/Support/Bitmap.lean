import Mathlib.Data.List.Basic
import Mathlib.Tactic

/-!
# Support — Bitmaps

A set of natural numbers kept in an array of 64-bit words: number `k` is bit `k % 64` of word
`k / 64`.  `mem` reads a bit the way the C sources do, by masking a word with `1 << (k % 64)`;
`insert` and `erase` write one.  Words past the end of the array read as zero.
-/

namespace SpacePony.Bitmap

open Bool List

/-- An array of 64-bit words. -/
abbrev Words := List (BitVec 64)

/-- The word `i` of the array, zero past its end. -/
def word (w : Words) (i : Nat) : BitVec 64 := w.getD i 0#64

/-- `1 << j`. -/
def mask (j : Nat) : BitVec 64 := 1#64 <<< j

/-- Bit `k` of the array is set. -/
def mem (w : Words) (k : Nat) : Bool := (word w (k / 64) &&& mask (k % 64)) != 0#64

/-- `w[k / 64] |= 1 << (k % 64)`. -/
def insert (w : Words) (k : Nat) : Words := w.modify (k / 64) (· ||| mask (k % 64))

/-- `w[k / 64] &= ~(1 << (k % 64))`. -/
def erase (w : Words) (k : Nat) : Words := w.modify (k / 64) (· &&& ~~~ (mask (k % 64)))

/-- The words of two arrays, or-ed. -/
def union (a b : Words) : Words := zipWith (· ||| ·) a b

/-- No word of `b` meets the word of `a` at the same place. -/
def disjoint (a b : Words) : Bool :=
  (range b.length).all fun i => (word a i &&& word b i) == 0#64

variable {j k : Nat}

theorem getLsbD_mask {i : Nat} (hj : j < 64) : (mask j).getLsbD i = decide (i = j) := by
  simp only [mask, BitVec.getLsbD_shiftLeft, BitVec.getLsbD_one]
  by_cases h : i = j
  · subst h; simp [hj]
  by_cases hi : i < j
  · simp [hi, h]
  · simp only [h, decide_false, and_eq_false_iff]
    exact .inr (by simp; omega)

/-- Masking a word with `1 << j` tests its bit `j`. -/
theorem and_mask_ne_zero (x : BitVec 64) (hj : j < 64) :
    (x &&& mask j) ≠ 0#64 ↔ x.getLsbD j = true := by
  constructor
  · intro h
    by_contra hx
    refine h (BitVec.eq_of_getLsbD_eq fun i _ => ?_)
    rw [BitVec.getLsbD_and, getLsbD_mask hj]
    by_cases e : i = j
    · subst e; simp [not_eq_true _ ▸ hx]
    · simp [e]
  · intro hx h
    have := congrArg (fun y => y.getLsbD j) h
    simp [BitVec.getLsbD_and, getLsbD_mask hj, hx] at this

variable (w : Words)

theorem mem_iff (k : Nat) : mem w k = true ↔ (word w (k / 64)).getLsbD (k % 64) = true := by
  rw [mem, bne_iff_ne, and_mask_ne_zero _ (Nat.mod_lt _ (by decide))]

theorem word_modify (f : BitVec 64 → BitVec 64) (n i : Nat) :
    word (w.modify n f) i = if n = i ∧ i < w.length then f (word w i) else word w i := by
  simp only [word, getD_eq_getElem?_getD, getElem?_modify]
  by_cases hn : n = i
  · subst hn
    by_cases hl : n < w.length
    · simp [hl]
    · simp [hl]
  · simp [hn]

/-- Two numbers with the same word and bit are equal. -/
theorem eq_of_div_mod (hd : j / 64 = k / 64) (hm : j % 64 = k % 64) : j = k := by
  omega

theorem mem_insert {w : Words} (hk : k / 64 < w.length) (j : Nat) :
    mem (insert w k) j = true ↔ j = k ∨ mem w j = true := by
  rw [mem_iff, mem_iff, insert, word_modify]
  by_cases hd : k / 64 = j / 64
  · rw [if_pos ⟨hd, hd ▸ hk⟩, BitVec.getLsbD_or, getLsbD_mask (Nat.mod_lt _ (by decide)),
      or_eq_true, decide_eq_true_iff]
    refine ⟨fun h => h.symm.imp (fun hm => eq_of_div_mod hd.symm hm) id, fun h => ?_⟩
    exact h.symm.imp id fun e => by rw [e]
  · rw [if_neg fun h => hd h.1]
    exact ⟨.inr, fun h => h.resolve_left fun e => hd (by rw [e])⟩

theorem mem_erase {w : Words} (hk : k / 64 < w.length) (j : Nat) :
    mem (erase w k) j = true ↔ j ≠ k ∧ mem w j = true := by
  rw [mem_iff, mem_iff, erase, word_modify]
  by_cases hd : k / 64 = j / 64
  · rw [if_pos ⟨hd, hd ▸ hk⟩, BitVec.getLsbD_and, BitVec.getLsbD_not,
      getLsbD_mask (Nat.mod_lt _ (by decide)), and_eq_true]
    have hlt : j % 64 < 64 := Nat.mod_lt _ (by decide)
    by_cases hm : j % 64 = k % 64
    · simp [eq_of_div_mod hd.symm hm]
    · have hne : j ≠ k := fun e => hm (by rw [e])
      simp [hm, hne, hlt]
  · rw [if_neg fun h => hd h.1]
    exact ⟨fun h => ⟨fun e => hd (by rw [e]), h⟩, And.right⟩

/-- Clearing a bit sets none. -/
theorem mem_of_mem_erase {w : Words} (h : mem (erase w k) j = true) : mem w j = true := by
  by_cases hk : k / 64 < w.length
  · exact ((mem_erase hk j).1 h).2
  · rwa [erase, modify_eq_self (Nat.not_lt.1 hk)] at h

@[simp] theorem length_insert (k : Nat) : (insert w k).length = w.length := by
  simp [insert]

@[simp] theorem length_erase (k : Nat) : (erase w k).length = w.length := by
  simp [erase]

theorem word_replicate (n i : Nat) : word (replicate n 0#64) i = 0#64 := by
  simp only [word, getD_eq_getElem?_getD, getElem?_replicate]
  split <;> rfl

@[simp] theorem mem_replicate (n k : Nat) : mem (replicate n 0#64) k = false := by
  simp [mem, word_replicate]

theorem word_union {a b : Words} (h : a.length = b.length) (i : Nat) :
    word (union a b) i = word a i ||| word b i := by
  simp only [word, union, getD_eq_getElem?_getD, getElem?_zipWith]
  by_cases hi : i < a.length
  · have hb : i < b.length := h ▸ hi
    simp [getElem?_eq_getElem hi, getElem?_eq_getElem hb]
  · have hb : ¬ i < b.length := h ▸ hi
    simp [getElem?_eq_none (Nat.not_lt.1 hi), getElem?_eq_none (Nat.not_lt.1 hb)]

theorem mem_union {a b : Words} (h : a.length = b.length) (k : Nat) :
    mem (union a b) k = true ↔ mem a k = true ∨ mem b k = true := by
  rw [mem_iff, mem_iff, mem_iff, word_union h, BitVec.getLsbD_or, or_eq_true]

theorem length_union {a b : Words} (h : a.length = b.length) : (union a b).length = b.length := by
  simp [union, h]

/-- Word by word disjointness is disjointness of the sets. -/
theorem disjoint_iff (a b : Words) :
    disjoint a b = true ↔ ∀ k, ¬ (mem a k = true ∧ mem b k = true) := by
  simp only [disjoint, all_eq_true, mem_range, beq_iff_eq, mem_iff]
  constructor
  · rintro h k ⟨ha, hb⟩
    have hk : k / 64 < b.length := by
      by_contra hl
      simp [word, getElem?_eq_none (Nat.not_lt.1 hl)] at hb
    have := congrArg (fun y => y.getLsbD (k % 64)) (h _ hk)
    simp [BitVec.getLsbD_and, ha, hb] at this
  intro h i _
  refine BitVec.eq_of_getLsbD_eq fun j hj => ?_
  have hd : (64 * i + j) / 64 = i := by omega
  have hm : (64 * i + j) % 64 = j := by omega
  have := h (64 * i + j)
  rw [hd, hm] at this
  rw [BitVec.getLsbD_and]
  simpa using this

end SpacePony.Bitmap
