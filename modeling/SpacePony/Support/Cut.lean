import Mathlib.Data.List.Basic
import Mathlib.Tactic

/-!
# Support — Sequences cut at a separator

A sequence is the pieces that end with a separator and the piece after the last one.  Cutting it up
(`cut`) and putting the pieces together (`join`) are inverse to each other, as long as no piece has
a separator of its own.
-/

namespace SpacePony.Cut

open List

variable {α : Type}

/-- The pieces, each ended by a separator, and the last one. -/
def join (sep : α) (ls : List (List α)) (last : List α) : List α :=
  ls.flatMap (· ++ [sep]) ++ last

/-- The pieces before each separator, and the one after the last. -/
def cut [DecidableEq α] (sep : α) : List α → List (List α) × List α
  | [] => ([], [])
  | c :: cs =>
    if c = sep then ([] :: (cut sep cs).1, (cut sep cs).2)
    else
      match cut sep cs with
      | ([], last) => ([], c :: last)
      | (l :: ls, last) => ((c :: l) :: ls, last)

section
variable {sep : α} {l last : List α} {ls : List (List α)}

@[simp] theorem join_nil : join sep [] last = last := rfl

theorem join_cons : join sep (l :: ls) last = l ++ sep :: join sep ls last := by
  simp [join]

theorem join_append (last' : List α) : join sep ls last ++ last' = join sep ls (last ++ last') := by
  simp [join]

variable [DecidableEq α]

theorem join_cut (sep : α) (cs : List α) : join sep (cut sep cs).1 (cut sep cs).2 = cs := by
  induction cs with
  | nil => rfl
  | cons c cs ih =>
    rw [cut]
    split
    case isTrue h =>
      rw [join_cons, ih, h]
      rfl
    case isFalse h =>
      split
      case h_1 last e => rw [e] at ih; exact congrArg (c :: ·) ih
      case h_2 l ls last e =>
        rw [e, join_cons] at ih
        rw [join_cons, ← ih]
        rfl

/-- No piece has a separator. -/
theorem not_mem_cut (sep : α) (cs : List α) :
    (∀ l ∈ (cut sep cs).1, sep ∉ l) ∧ sep ∉ (cut sep cs).2 := by
  induction cs with
  | nil => exact ⟨fun l hl => absurd hl not_mem_nil, not_mem_nil⟩
  | cons c cs ih =>
    rw [cut]
    split
    case isTrue h => exact ⟨forall_mem_cons.2 ⟨not_mem_nil, ih.1⟩, ih.2⟩
    case isFalse h =>
      split
      case h_1 last e =>
        rw [e] at ih
        exact ⟨fun l hl => absurd hl not_mem_nil, by simp [Ne.symm h, ih.2]⟩
      case h_2 l ls last e =>
        rw [e] at ih
        obtain ⟨hl, hls⟩ := forall_mem_cons.1 ih.1
        exact ⟨forall_mem_cons.2 ⟨by simp [Ne.symm h, hl], hls⟩, ih.2⟩

theorem cut_of_not_mem (h : sep ∉ last) : cut sep last = ([], last) := by
  induction last with
  | nil => rfl
  | cons c cs ih =>
    have hc : c ≠ sep := fun e => h (e ▸ (.head _))
    rw [cut, if_neg hc, ih fun hm => h (.tail _ hm)]

theorem cut_append_sep (h : sep ∉ l) (cs : List α) :
    cut sep (l ++ sep :: cs) = (l :: (cut sep cs).1, (cut sep cs).2) := by
  induction l with
  | nil => rw [nil_append, cut, if_pos rfl]
  | cons c l ih =>
    have hc : c ≠ sep := fun e => h (e ▸ (.head _))
    rw [cons_append, cut, if_neg hc, ih fun hm => h (.tail _ hm)]

section
variable (hls : ∀ l ∈ ls, sep ∉ l) (hlast : sep ∉ last)
include hls hlast

/-- Pieces without separators are what their sequence is cut into. -/
theorem cut_join : cut sep (join sep ls last) = (ls, last) := by
  induction ls with
  | nil => exact cut_of_not_mem hlast
  | cons l ls ih =>
    obtain ⟨hl, hls⟩ := forall_mem_cons.1 hls
    rw [join_cons, cut_append_sep hl, ih hls]

/-- Pieces without the separator can be told from their join. -/
theorem join_inj {ls' : List (List α)} {last' : List α} (hls' : ∀ l ∈ ls', sep ∉ l)
    (hlast' : sep ∉ last')
    (h : join sep ls last = join sep ls' last') : ls = ls' ∧ last = last' := by
  have := congrArg (cut sep) h
  rw [cut_join hls hlast, cut_join hls' hlast'] at this
  exact Prod.ext_iff.1 this

theorem count_join : (join sep ls last).count sep = ls.length := by
  induction ls with
  | nil => rw [join_nil, count_eq_zero_of_not_mem hlast, length_nil]
  | cons l ls ih =>
    obtain ⟨hl, hls⟩ := forall_mem_cons.1 hls
    rw [join_cons, count_append, count_eq_zero_of_not_mem hl, count_cons_self,
      ih hls, length_cons, Nat.zero_add]

end

end

end SpacePony.Cut
