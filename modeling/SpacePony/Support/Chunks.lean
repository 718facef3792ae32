import Mathlib.Data.List.Basic
import Mathlib.Tactic

/-!
# Support — Chunks

A list cut into chunks of one size: `chunk S xs j` is the `j`-th of them.  The last one that has an
element may be shorter, and those after it are empty.

* `getElem?_chunk`: an index splits into the chunk and the index in it.
* `chunk_set_same`, `chunk_append_same` and the like: a change is a change of one chunk.
* `flatMap_eq_of_chunks`: the chunks together are the list.
-/

namespace SpacePony.Chunks

open Nat List

variable {α β : Type}

/-- The `j`-th chunk of size `S`. -/
def chunk (S : Nat) (xs : List α) (j : Nat) : List α := (xs.drop (j * S)).take S

section
variable {S : Nat} {xs ys : List α} {i j : Nat}

theorem getElem?_chunk {k : Nat} (hk : k < S) : (chunk S xs j)[k]? = xs[j * S + k]? := by
  rw [chunk, getElem?_take_of_lt hk, getElem?_drop]

/-- The element at `i` is in the chunk `i / S`. -/
theorem getElem?_eq_chunk (hS : 0 < S) : xs[i]? = (chunk S xs (i / S))[i % S]? := by
  rw [getElem?_chunk (mod_lt _ hS), div_add_mod']

theorem length_chunk : (chunk S xs j).length = min S (xs.length - j * S) := by
  rw [chunk, length_take, length_drop]

/-- There is nothing beyond the end. -/
theorem chunk_eq_nil (h : xs.length ≤ j * S) : chunk S xs j = [] := by
  rw [chunk, drop_of_length_le h, take_nil]

theorem ext_getElem?_lt {as bs : List α} (h : ∀ k, k < S → as[k]? = bs[k]?)
    (ha : as.length ≤ S) (hb : bs.length ≤ S) : as = bs := by
  refine ext_getElem? fun k => ?_
  by_cases hk : k < S
  · exact h k hk
  · rw [getElem?_eq_none (by omega), getElem?_eq_none (by omega)]

theorem length_chunk_le : (chunk S xs j).length ≤ S := by
  rw [length_chunk]
  omega

/-- The index `j * S + k` is the index `i` only in the chunk of `i`. -/
theorem index_eq_iff {k : Nat} (hk : k < S) : j * S + k = i ↔ j = i / S ∧ k = i % S := by
  constructor
  · rintro rfl
    rw [mul_comm, mul_add_div (by omega), mul_add_mod, div_eq_of_lt hk, mod_eq_of_lt hk]
    exact ⟨rfl, rfl⟩
  · rintro ⟨rfl, rfl⟩
    exact div_add_mod' i S

theorem chunk_set_same (v : α) :
    chunk S (xs.set i v) (i / S) = (chunk S xs (i / S)).set (i % S) v := by
  refine ext_getElem?_lt (S := S) (fun k hk => ?_) length_chunk_le
    (by rw [length_set]; exact length_chunk_le)
  have hidx : i / S * S + k = i ↔ k = i % S := by
    rw [index_eq_iff hk]
    exact and_iff_right rfl
  rw [getElem?_chunk hk, getElem?_set', getElem?_set', getElem?_chunk hk]
  by_cases hki : k = i % S
  · rw [if_pos (hidx.2 hki).symm, if_pos hki.symm]
  · rw [if_neg fun h => hki (hidx.1 h.symm), if_neg (Ne.symm hki)]

theorem chunk_set_other (v : α) (hj : j ≠ i / S) : chunk S (xs.set i v) j = chunk S xs j := by
  refine ext_getElem?_lt (S := S) (fun k hk => ?_) length_chunk_le length_chunk_le
  rw [getElem?_chunk hk, getElem?_chunk hk, getElem?_set_ne]
  exact fun h => hj ((index_eq_iff hk).1 h.symm).1

/-- What is appended and does not go over the end of a chunk is appended to that chunk. -/
theorem chunk_append_same (hfit : xs.length % S + ys.length ≤ S) :
    chunk S (xs ++ ys) (xs.length / S) = chunk S xs (xs.length / S) ++ ys := by
  have hlen : xs.length / S * S + xs.length % S = xs.length := div_add_mod' _ _
  have hdrop : (xs.drop (xs.length / S * S)).length = xs.length % S := by
    rw [length_drop]
    omega
  rw [chunk, chunk, drop_append_of_le_length (by omega), take_append,
    take_of_length_le (l := ys) (by omega)]

theorem chunk_append_other (hfit : xs.length % S + ys.length ≤ S) (hj : j ≠ xs.length / S) :
    chunk S (xs ++ ys) j = chunk S xs j := by
  have hlen : xs.length / S * S + xs.length % S = xs.length := div_add_mod' _ _
  obtain hlt | hgt := lt_or_gt_of_ne hj
  · have hle : (j + 1) * S ≤ xs.length / S * S := mul_le_mul_right S hlt
    rw [succ_mul] at hle
    rw [chunk, chunk, drop_append_of_le_length (by omega), take_append_of_le_length]
    rw [length_drop]
    omega
  · have hle : (xs.length / S + 1) * S ≤ j * S := mul_le_mul_right S hgt
    rw [succ_mul] at hle
    rw [chunk_eq_nil (by rw [length_append]; omega), chunk_eq_nil (by omega)]

/-- The chunk that the end is in. -/
theorem length_chunk_end (hS : 0 < S) : (chunk S xs (xs.length / S)).length = xs.length % S := by
  have hlen : xs.length / S * S + xs.length % S = xs.length := div_add_mod' _ _
  have hlt := mod_lt xs.length hS
  rw [length_chunk]
  omega

theorem chunk_zero (h : xs.length ≤ S) : chunk S xs 0 = xs := by
  rw [chunk, zero_mul, drop_zero, take_of_length_le h]

theorem chunk_succ : chunk S xs (j + 1) = chunk S (xs.drop S) j := by
  rw [chunk, chunk, drop_drop, succ_mul, add_comm]

end

/-- The chunks together are the list. -/
theorem flatMap_eq_of_chunks {S : Nat} {f : β → List α} :
    ∀ {ns : List β} {xs : List α}, xs.length ≤ ns.length * S →
      (∀ j n, ns[j]? = some n → f n = chunk S xs j) → ns.flatMap f = xs
  | [], xs, hlen, _ => by
      have hnil : xs = [] := length_eq_zero_iff.1 (by simpa using hlen)
      rw [hnil, flatMap_nil]
  | n :: ns, xs, hlen, hf => by
      have htail : ns.flatMap f = xs.drop S := by
        refine flatMap_eq_of_chunks (S := S) ?_ fun j m hm => ?_
        · rw [length_cons, succ_mul] at hlen
          rw [length_drop]
          omega
        · rw [← chunk_succ]
          exact hf (j + 1) m (by rwa [getElem?_cons_succ])
      rw [flatMap_cons, htail, hf 0 n getElem?_cons_zero, chunk, zero_mul,
        drop_zero, take_append_drop]

end SpacePony.Chunks
