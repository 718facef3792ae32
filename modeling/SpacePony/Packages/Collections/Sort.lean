import Mathlib.Data.BitVec
import SpacePony.Support.Raise
import SpacePony.Support.Rearrange

/-!
# Packages — collections — Sort

`sort.pony`: dual-pivot quicksort of a sequence in place.
-/

namespace SpacePony.Collections

open Raise

/-! ### Comparisons -/

/-- `interface Comparable`: what a class gives, and the methods that it has by default. -/
structure Comparable (B : Type) where
  lt : B → B → Bool
  eq : B → B → Bool

namespace Comparable

variable {B : Type} (c : Comparable B) (x y : B)

def le : Bool := c.lt x y || c.eq x y

def ge : Bool := !c.lt x y

def gt : Bool := !c.le x y

/-- The comparisons are those of a total preorder. -/
structure Preordered : Prop where
  le_trans : ∀ x y z, c.le x y → c.le y z → c.le x z
  le_total : ∀ x y, c.le x y ∨ c.le y x
  lt_iff : ∀ x y, c.lt x y ↔ ¬ c.le y x

namespace Preordered

variable {c x y} (hc : c.Preordered)
include hc

theorem le_refl (x : B) : c.le x x := (hc.le_total x x).elim id id

theorem le_of_lt (h : c.lt x y) : c.le x y :=
  (hc.le_total x y).resolve_right ((hc.lt_iff x y).1 h)

theorem ge_iff : c.ge x y ↔ c.le y x := by
  simp [ge, ← Bool.not_eq_true, hc.lt_iff]

theorem not_lt_iff : ¬ c.lt x y ↔ c.le y x := by
  rw [hc.lt_iff, not_not]

theorem le_of_gt (h : c.gt x y) : c.le y x :=
  (hc.le_total x y).resolve_left (by simpa [gt] using h)

end Preordered

theorem not_gt_iff : ¬ c.gt x y ↔ c.le x y := by
  simp [gt]

/-- The comparisons of `USize`. -/
def ofNat : Comparable ℕ := ⟨fun x y => decide (x < y), fun x y => decide (x = y)⟩

theorem ofNat_preordered : ofNat.Preordered where
  le_trans x y z := by
    simp only [le, ofNat, Bool.or_eq_true, decide_eq_true_iff]
    omega
  le_total x y := by
    simp only [le, ofNat, Bool.or_eq_true, decide_eq_true_iff]
    omega
  lt_iff x y := by
    simp only [le, ofNat, Bool.or_eq_true, decide_eq_true_iff]
    omega

end Comparable

/-! ### The sequence -/

/-- A sequence: its elements, and the positions that were asked for. -/
structure Sequence (w : ℕ) (B : Type) where
  items : List B
  fits : items.length < 2 ^ (w - 1)
  indexed : List ℕ := []

/-- Why a method has no result: it raises an error, or it takes more rounds than it is given. -/
inductive Stop where
  | raised
  | rounds
deriving DecidableEq

/-- A method that works on a sequence. -/
abbrev Act (w : ℕ) (B : Type) := ExceptT Stop (StateM (Sequence w B))

namespace Sequence

variable {w : ℕ} {B : Type}

/-- The position `i` is asked for. -/
def index (s : Sequence w B) (i : ℕ) : Sequence w B := { s with indexed := s.indexed ++ [i] }

/-- The element at `i` becomes `v`. -/
def put (s : Sequence w B) (i : ℕ) (v : B) : Sequence w B :=
  { s with items := s.items.set i v, fits := by rw [List.length_set]; exact s.fits }

/-- `Seq.apply`. -/
def apply (i : BitVec w) : Act w B B := do
  modify (·.index i.toNat)
  match (← get).items[i.toNat]? with
  | some x => pure x
  | none => throw .raised

/-- `Seq.update`, which returns the element that was there. -/
def update (i : BitVec w) (v : B) : Act w B B := do
  modify (·.index i.toNat)
  match (← get).items[i.toNat]? with
  | some x => modify (·.put i.toNat v); pure x
  | none => throw .raised

/-- `Seq.size`. -/
def size (s : Sequence w B) : BitVec w := .ofNat w s.items.length

end Sequence

/-! ### The methods -/

namespace PonySort

open Sequence

variable {w : ℕ} {B : Type} (c : Comparable B)

/-- `Sort._swap`. -/
def swap (i j : BitVec w) : Act w B Unit := do
  let x ← apply j
  let y ← update i x
  let _ ← update j y

/-- The pivots of `_sort` in their order. -/
def order (lo hi : BitVec w) : Act w B Unit := do
  let x ← apply lo
  let y ← apply hi
  if c.gt x y then swap lo hi else pure ()

/-- `while (a(g.usize())? > q) and (k < g) do g = g - 1 end`. -/
def scan (q : B) (k g : BitVec w) : Act w B (ForInStep (BitVec w)) := do
  let x ← apply g
  if c.gt x q && k.slt g then pure (.yield (g - 1)) else pure (.done g)

/-- A smaller element than `p` at `k` goes to the left part, which ends before `l`. -/
def toLeft (p : B) (k l : BitVec w) : Act w B (BitVec w) := do
  let x ← apply k
  if c.lt x p then do
    swap k l
    pure (l + 1)
  else pure l

/-- The loop of `_sort` over the positions from `k` to `g`. -/
def partition (rounds : ℕ) (p q : B) :
    BitVec w × BitVec w × BitVec w → Act w B (ForInStep (BitVec w × BitVec w × BitVec w))
  | (l, g, k) =>
    if k.sle g then do
      let x ← apply k
      if c.lt x p then do
        swap k l
        pure (.yield (l + 1, g, k + 1))
      else do
        let y ← apply k
        if c.ge y q then do
          let g ← loop .rounds (scan c q k) rounds g
          swap k g
          let l ← toLeft c p k l
          pure (.yield (l, g - 1, k + 1))
        else pure (.yield (l, g, k + 1))
    else pure (.done (l, g, k))

/-- `Sort._sort`. -/
def sort : ℕ → BitVec w → BitVec w → Act w B Unit
  | 0, _, _ => throw .rounds
  | rounds + 1, lo, hi =>
    if hi.sle lo then pure () else do
      order c lo hi
      let p ← apply lo
      let q ← apply hi
      let (l, g, _) ← loop .rounds (partition c rounds p q) rounds (lo + 1, hi - 1, lo + 1)
      let (l, g) := (l - 1, g + 1)
      swap lo l
      swap hi g
      sort rounds lo (l - 1)
      sort rounds (l + 1) (g - 1)
      sort rounds (g + 1) hi

/-- `Sort.apply`, which hides an error of `_sort`. -/
def apply (rounds : ℕ) : Act w B Unit := do
  let s ← get
  tryCatch (sort c rounds 0 (s.size - 1)) fun
    | .raised => pure ()
    | .rounds => throw .rounds

end PonySort

end SpacePony.Collections
