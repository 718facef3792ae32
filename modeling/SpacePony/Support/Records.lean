import Mathlib.Data.List.Basic

/-!
# Support — Records

Records of one size laid out one after the other in a list of bytes.  A part of the list (`slice`),
or the list with a part written over (`splice`), is a list of records when the parts start and end
between records (`slice_flatMap`, `splice_flatMap`).
-/

namespace SpacePony.Records

open Nat List

variable {α β : Type}

/-- The `n` elements from `i` on. -/
def slice (xs : List α) (i n : Nat) : List α := (xs.drop i).take n

/-- The list with `ys` written over it from `i` on. -/
def splice (xs : List α) (i : Nat) (ys : List α) : List α :=
  xs.take i ++ ys ++ xs.drop (i + ys.length)

section
variable {xs ys zs : List α} {i j n m : Nat} {a : α}

theorem length_slice (h : i + n ≤ xs.length) : (slice xs i n).length = n := by
  rw [slice, length_take, length_drop]
  omega

theorem length_splice (h : i + ys.length ≤ xs.length) : (splice xs i ys).length = xs.length := by
  simp only [splice, length_append, length_take, length_drop]
  omega

theorem getElem?_slice (h : j < n) : (slice xs i n)[j]? = xs[i + j]? := by
  rw [slice, getElem?_take_of_lt h, getElem?_drop]

theorem slice_slice (h : j + m ≤ n) : slice (slice xs i n) j m = slice xs (i + j) m := by
  rw [slice, slice, slice, drop_take, drop_drop, take_take]
  congr 1
  omega

theorem mem_of_mem_slice (h : a ∈ slice xs i n) : a ∈ xs :=
  mem_of_mem_drop (mem_of_mem_take h)

theorem mem_splice (h : a ∈ splice xs i ys) : a ∈ xs ∨ a ∈ ys := by
  rcases mem_append.1 h with h | h
  · rcases mem_append.1 h with h | h
    · exact .inl (mem_of_mem_take h)
    · exact .inr h
  · exact .inl (mem_of_mem_drop h)

theorem slice_one (h : i < xs.length) : slice xs i 1 = [xs[i]] := by
  rw [slice, drop_eq_getElem_cons h, take_succ_cons, take_zero]

theorem splice_nil : splice xs i [] = xs := by
  rw [splice, append_nil, length_nil, Nat.add_zero, take_append_drop]

/-- Two parts written over all of a list. -/
theorem splice_all (h : ys.length + zs.length = xs.length) :
    splice (splice xs 0 ys) ys.length zs = ys ++ zs := by
  simp only [splice, take_zero, nil_append, Nat.zero_add, take_left', drop_append, drop_drop]
  rw [drop_of_length_le (by omega), drop_of_length_le (by omega), nil_append, append_nil]

/-- Writing what is there. -/
theorem splice_slice (h : i + n ≤ xs.length) : splice xs i (slice xs i n) = xs := by
  rw [splice, length_slice h, slice, append_assoc, ← drop_drop, take_append_drop, take_append_drop]

/-- Writing on with what is there. -/
theorem splice_append_slice (h : i + ys.length + m ≤ xs.length) :
    splice xs i (ys ++ slice xs (i + ys.length) m) = splice xs i ys := by
  have hl := length_slice h
  rw [splice, splice, length_append, hl, slice, append_assoc, append_assoc,
    append_assoc, ← Nat.add_assoc, ← drop_drop (i := m), take_append_drop]

end

section
variable {f : α → List β} {S : Nat} {xs ys : List α} {i n : Nat}

section
variable (hf : ∀ a, (f a).length = S)
include hf

theorem length_flatMap : (xs.flatMap f).length = xs.length * S := by
  induction xs with
  | nil => simp
  | cons a xs ih => rw [flatMap_cons, length_append, ih, hf, length_cons, succ_mul, Nat.add_comm]

theorem take_flatMap : (xs.flatMap f).take (n * S) = (xs.take n).flatMap f := by
  induction n generalizing xs with
  | zero => simp
  | succ n ih =>
    cases xs with
    | nil => simp
    | cons a xs =>
      rw [flatMap_cons, take_succ_cons, flatMap_cons, ← ih, take_append, hf,
        take_of_length_le (by rw [hf, succ_mul]; omega)]
      congr 2
      rw [succ_mul]
      omega

theorem drop_flatMap : (xs.flatMap f).drop (n * S) = (xs.drop n).flatMap f := by
  induction n generalizing xs with
  | zero => simp
  | succ n ih =>
    cases xs with
    | nil => simp
    | cons a xs =>
      rw [flatMap_cons, drop_succ_cons, ← ih, drop_append, hf,
        drop_of_length_le (by rw [hf, succ_mul]; omega), nil_append]
      congr 1
      rw [succ_mul]
      omega

/-- A slice of whole records is the bytes of a slice of the records. -/
theorem slice_flatMap : slice (xs.flatMap f) (i * S) (n * S) = (slice xs i n).flatMap f := by
  rw [slice, slice, drop_flatMap hf, take_flatMap hf]

/-- Splicing whole records over bytes is splicing the records. -/
theorem splice_flatMap :
    splice (xs.flatMap f) (i * S) (ys.flatMap f) = (splice xs i ys).flatMap f := by
  rw [splice, splice, length_flatMap hf, ← Nat.add_mul, take_flatMap hf, drop_flatMap hf,
    flatMap_append, flatMap_append]

end

end

end SpacePony.Records
