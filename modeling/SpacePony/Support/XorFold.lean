import Mathlib.Data.Finset.Fold
import Mathlib.Order.SymmDiff
import Mathlib.Data.Finset.SymmDiff
import Mathlib.Algebra.Ring.Parity

/-!
# Support — folding words with exclusive or

Exclusive or forgets the order of its arguments and every argument that occurs an even number of
times: what a fold over a list keeps is the set of its odd elements (`xorList_eq_xorSet_oddSet`).
Two folds differ by the fold over the symmetric difference (`xorSet_symmDiff`).
-/

namespace SpacePony.XorFold

open Finset

variable {α : Type*} [DecidableEq α]

/-- The exclusive or of the words of a list. -/
def xorList (word : α → UInt64) : List α → UInt64
  | [] => 0
  | a :: l => word a ^^^ xorList word l

/-- The exclusive or of the words of a finite set. -/
def xorSet (word : α → UInt64) (s : Finset α) : UInt64 :=
  s.fold (· ^^^ ·) 0 word

/-- The elements that occur an odd number of times. -/
def oddSet : List α → Finset α
  | [] => ∅
  | a :: l => symmDiff {a} (oddSet l)

variable (word : α → UInt64)

omit [DecidableEq α] in
theorem xorList_append (l m : List α) :
    xorList word (l ++ m) = xorList word l ^^^ xorList word m := by
  induction l with
  | nil => simp [xorList]
  | cons a l ih => simp only [List.cons_append, xorList, ih, UInt64.xor_assoc]

theorem mem_oddSet {l : List α} {a : α} : a ∈ oddSet l ↔ Odd (l.count a) := by
  induction l with
  | nil => simp [oddSet]
  | cons b l ih =>
    by_cases h : a = b
    · subst h
      simp [oddSet, mem_symmDiff, ih, Nat.odd_add_one]
    · have hb : (b == a) = false := by simpa using fun e => h e.symm
      simp [oddSet, mem_symmDiff, ih, h, hb, List.count_cons]

theorem oddSet_subset (l : List α) : oddSet l ⊆ l.toFinset := by
  intro a ha
  obtain ⟨k, hk⟩ := mem_oddSet.1 ha
  rw [List.mem_toFinset, ← List.count_pos_iff]
  omega

theorem xorSet_singleton_symmDiff (a : α) (s : Finset α) :
    xorSet word (symmDiff {a} s) = word a ^^^ xorSet word s := by
  by_cases ha : a ∈ s
  · have herase : symmDiff {a} s = s.erase a := by
      ext b
      by_cases h : b = a
      · subst h; simp [mem_symmDiff, ha]
      · simp [mem_symmDiff, h]
    have hs : xorSet word s = word a ^^^ xorSet word (s.erase a) := by
      conv_lhs => rw [← insert_erase ha]
      exact fold_insert (notMem_erase a s)
    rw [herase, hs, ← UInt64.xor_assoc, UInt64.xor_self, UInt64.zero_xor]
  have hinsert : symmDiff {a} s = insert a s := by
    ext b
    by_cases h : b = a
    · subst h; simp [mem_symmDiff, ha]
    · simp [mem_symmDiff, h]
  rw [hinsert]
  exact fold_insert ha

/-- A fold over the symmetric difference is the exclusive or of the two folds. -/
theorem xorSet_symmDiff (s t : Finset α) :
    xorSet word (symmDiff s t) = xorSet word s ^^^ xorSet word t := by
  induction s using Finset.induction_on with
  | empty =>
    rw [show symmDiff ∅ t = t from bot_symmDiff t]
    simp [xorSet]
  | insert a s ha ih =>
    have hinsert : insert a s = symmDiff {a} s := by
      ext b
      by_cases h : b = a
      · subst h; simp [mem_symmDiff, ha]
      · simp [mem_symmDiff, h]
    rw [hinsert, symmDiff_assoc, xorSet_singleton_symmDiff, ih, xorSet_singleton_symmDiff,
      UInt64.xor_assoc]

/-- **What a fold keeps**: the words of the elements that occur an odd number of times. -/
theorem xorList_eq_xorSet_oddSet (l : List α) : xorList word l = xorSet word (oddSet l) := by
  induction l with
  | nil => simp [xorList, oddSet, xorSet]
  | cons a l ih => rw [xorList, oddSet, xorSet_singleton_symmDiff, ih]

theorem xor_eq_xor {a b c d : UInt64} (h : a ^^^ b = c ^^^ d) : a ^^^ c = b ^^^ d := by
  calc a ^^^ c = (a ^^^ b) ^^^ (b ^^^ c) := by
          rw [UInt64.xor_assoc, ← UInt64.xor_assoc b b c, UInt64.xor_self, UInt64.zero_xor]
    _ = (c ^^^ d) ^^^ (b ^^^ c) := by rw [h]
    _ = (c ^^^ c) ^^^ (b ^^^ d) := by ac_rfl
    _ = b ^^^ d := by rw [UInt64.xor_self, UInt64.zero_xor]

theorem xor_eq_xor_iff {a b c d : UInt64} : a ^^^ b = c ^^^ d ↔ a ^^^ c = b ^^^ d :=
  ⟨xor_eq_xor, xor_eq_xor⟩

theorem eq_of_xor_eq_zero {a b : UInt64} (h : a ^^^ b = 0) : a = b := by
  calc a = (a ^^^ b) ^^^ b := by rw [UInt64.xor_assoc, UInt64.xor_self, UInt64.xor_zero]
    _ = b := by rw [h, UInt64.zero_xor]

/-- The words of the set do not cancel: no nonempty part of it folds to a word below `bound`. -/
def Independent (word : α → UInt64) (bound : Nat) (s : Finset α) : Prop :=
  ∀ t ⊆ s, (xorSet word t).toNat < bound → t = ∅

theorem Independent.symmDiff_eq_empty {word : α → UInt64} {bound : Nat} {s a b : Finset α}
    (hs : Independent word bound s) (ha : a ⊆ s) (hb : b ⊆ s)
    (h : (xorSet word (symmDiff a b)).toNat < bound) : a = b := by
  refine symmDiff_eq_bot.1 (hs _ (fun x hx => ?_) h)
  rcases mem_symmDiff.1 hx with ⟨hx, -⟩ | ⟨hx, -⟩
  · exact ha hx
  · exact hb hx

end SpacePony.XorFold
