import Mathlib.Data.List.Basic
import Mathlib.Tactic

/-!
# Support — Sequences in pieces

A sequence held as a list of pieces of any length, read from the front.  A piece is a list and the
number of its elements that are read already; the sequence is what is left of the pieces (`rest`).
Reading is seen in the sequence by `rest_advance`, `WF.advance` and `emptyAt_advance`.
-/

namespace SpacePony.Pieces

open Nat List

/-- A list and the number of its elements that are read already. -/
abbrev Piece (α : Type) := List α × Nat

variable {α : Type}

/-- What is left of a piece. -/
def Piece.left (p : Piece α) : List α := p.1.drop p.2

/-- The sequence that the pieces hold. -/
def rest (ps : List (Piece α)) : List α := ps.flatMap Piece.left

/-- The pieces after `n` more elements are read; a piece read to its end is dropped when it is
passed. -/
def advance : List (Piece α) → Nat → List (Piece α)
  | ps, 0 => ps
  | [], _ + 1 => []
  | (xs, i) :: ps, n + 1 =>
    if xs.length - i > n + 1 then (xs, i + (n + 1)) :: ps
    else advance ps (n + 1 - (xs.length - i))

/-- A piece with nothing left stands at position `k`. -/
def emptyAt : List (Piece α) → Nat → Bool
  | [], _ => false
  | (xs, i) :: ps, k =>
    (k == 0 && xs.length - i == 0) || (decide (xs.length - i ≤ k) && emptyAt ps (k - (xs.length - i)))

/-- Nothing is read beyond a piece's end, and only the first piece is read in part. -/
structure WF (ps : List (Piece α)) : Prop where
  read_le : ∀ p ∈ ps, p.2 ≤ p.1.length
  tail_fresh : ∀ p ∈ ps.tail, p.2 = 0

section
variable {p : Piece α} {ps : List (Piece α)} {xs : List α} {i n k : Nat}

@[simp] theorem length_left : (Piece.left (xs, i)).length = xs.length - i := length_drop

@[simp] theorem rest_nil : rest ([] : List (Piece α)) = [] := rfl

@[simp] theorem rest_cons : rest (p :: ps) = p.left ++ rest ps := flatMap_cons

theorem rest_append (qs : List (Piece α)) : rest (ps ++ qs) = rest ps ++ rest qs :=
  flatMap_append

section
attribute [local simp] advance

@[simp] theorem advance_zero : advance ps 0 = ps := by simp

theorem advance_of_lt (h : n < xs.length - i) : advance ((xs, i) :: ps) n = (xs, i + n) :: ps := by
  cases n with
  | zero => simp
  | succ n => simp [h]

theorem advance_of_le (hn : 0 < n) (h : xs.length - i ≤ n) :
    advance ((xs, i) :: ps) n = advance ps (n - (xs.length - i)) := by
  obtain ⟨n, rfl⟩ := Nat.exists_eq_add_of_lt hn
  rw [Nat.zero_add] at h ⊢
  simp [Nat.not_lt.2 h]

end

/-- Advancing by `n` drops the first `n` elements. -/
theorem rest_advance (ps : List (Piece α)) (n : Nat) : rest (advance ps n) = (rest ps).drop n := by
  fun_induction advance ps n with
  | case1 ps => rw [drop_zero]
  | case2 n => rw [rest_nil, drop_nil]
  | case3 xs i ps n h =>
    rw [rest_cons, rest_cons, drop_append_of_le_length (by rw [length_left]; omega),
      Piece.left, Piece.left, drop_drop]
  | case4 xs i ps n h ih =>
    have hpast : (Piece.left (xs, i)).length ≤ n + 1 := by
      rw [length_left]
      omega
    rw [ih, rest_cons, drop_append, drop_of_length_le hpast, length_left, nil_append]

theorem advance_advance (ps : List (Piece α)) (m n : Nat) :
    advance (advance ps m) n = advance ps (m + n) := by
  fun_induction advance ps m with
  | case1 ps => rw [zero_add]
  | case2 m =>
    cases n with
    | zero => rw [advance_zero, add_zero, advance]
    | succ n => rw [advance, ← add_assoc, advance]
  | case3 xs i ps m hlt =>
    by_cases hn : n < xs.length - (i + (m + 1))
    · rw [advance_of_lt hn, advance_of_lt (by omega), add_assoc]
    rw [advance_of_le (by omega) (by omega), advance_of_le (by omega) (by omega)]
    congr 1
    omega
  | case4 xs i ps m hle ih =>
    rw [ih, advance_of_le (i := i) (by omega) (by omega)]
    congr 1
    omega

theorem WF.tail {ps : List (Piece α)} (h : WF (p :: ps)) : WF ps :=
  ⟨fun q hq => h.read_le q (.tail _ hq), fun q hq => h.tail_fresh q (mem_of_mem_tail hq)⟩

theorem WF.advance {ps : List (Piece α)} (h : WF ps) (n : Nat) : WF (advance ps n) := by
  fun_induction Pieces.advance ps n with
  | case1 ps | case2 n => exact h
  | case3 xs i ps n hlt =>
    refine ⟨fun q hq => ?_, h.tail_fresh⟩
    rcases mem_cons.1 hq with rfl | hq
    · show i + (n + 1) ≤ xs.length
      omega
    · exact h.tail.read_le q hq
  | case4 xs i ps n hle ih => exact ih h.tail

theorem WF.push {ps : List (Piece α)} (h : WF ps) (xs : List α) : WF (ps ++ [(xs, 0)]) := by
  refine ⟨fun q hq => ?_, fun q hq => ?_⟩
  · rcases mem_append.1 hq with hq | hq
    · exact h.read_le q hq
    · rw [mem_singleton.1 hq]
      exact zero_le _
  cases ps with
  | nil => exact absurd hq (by simp)
  | cons p ps =>
    rw [cons_append, tail_cons] at hq
    rcases mem_append.1 hq with hq | hq
    · exact h.tail_fresh q hq
    · rw [mem_singleton.1 hq]

/-- A property of the lists of the pieces stays as they are read. -/
theorem forall_advance {P : List α → Prop} (h : ∀ p ∈ ps, P p.1) (n : Nat) :
    ∀ p ∈ advance ps n, P p.1 := by
  fun_induction advance ps n with
  | case1 ps | case2 n => exact h
  | case3 xs i ps n hlt =>
    intro q hq
    rcases mem_cons.1 hq with rfl | hq
    · exact h (xs, i) (.head _)
    · exact h q (.tail _ hq)
  | case4 xs i ps n hle ih => exact ih fun q hq => h q (.tail _ hq)

theorem emptyAt_cons : emptyAt ((xs, i) :: ps) k = true ↔
    (k = 0 ∧ xs.length - i = 0) ∨ (xs.length - i ≤ k ∧ emptyAt ps (k - (xs.length - i)) = true) := by
  simp [emptyAt]

theorem emptyAt_eq_false (h : ∀ p ∈ ps, p.1.length - p.2 ≠ 0) (k : Nat) : emptyAt ps k = false := by
  induction ps generalizing k with
  | nil => rfl
  | cons p ps ih =>
    obtain ⟨xs, i⟩ := p
    have hleft : xs.length - i ≠ 0 := h _ (.head _)
    rw [← Bool.not_eq_true, emptyAt_cons]
    rintro (⟨-, hx⟩ | ⟨-, hps⟩)
    · exact hleft hx
    · rw [ih fun p hp => h p (.tail _ hp)] at hps
      exact Bool.false_ne_true hps

/-- A piece with nothing left that is met after `n` elements stood `n` further on. -/
theorem emptyAt_advance (h : emptyAt (advance ps n) k = true) : emptyAt ps (n + k) = true := by
  fun_induction advance ps n with
  | case1 ps => rwa [zero_add]
  | case2 n => exact absurd h (by simp [emptyAt])
  | case3 xs i ps n hlt =>
    rw [emptyAt_cons] at h ⊢
    rcases h with ⟨-, hx⟩ | ⟨hle, h⟩
    · omega
    · refine .inr ⟨by omega, ?_⟩
      rwa [show n + 1 + k - (xs.length - i) = k - (xs.length - (i + (n + 1))) by omega]
  | case4 xs i ps n hle ih =>
    refine emptyAt_cons.2 (.inr ⟨by omega, ?_⟩)
    rw [show n + 1 + k - (xs.length - i) = n + 1 - (xs.length - i) + k by omega]
    exact ih h

end

end SpacePony.Pieces
