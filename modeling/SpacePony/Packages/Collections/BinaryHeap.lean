import SpacePony.Packages.Builtin.Array
import SpacePony.Packages.Collections.Sort
import SpacePony.Support.ImplicitHeap

/-!
# Packages — collections — BinaryHeap

`heap.pony`: a priority queue in an array.
-/

namespace SpacePony.Collections

open Raise Builtin Rearrange ImplicitHeap

variable {A : Type} {T : Target}

/-- `type BinaryHeapPriority`. -/
inductive HeapPriority where
  | min
  | max
deriving DecidableEq

namespace HeapPriority

/-- `MinHeapPriority.apply`, `MaxHeapPriority.apply`. -/
def apply (p : HeapPriority) (c : Comparable A) (x y : A) : Bool :=
  match p with
  | .min => c.lt x y
  | .max => c.gt x y

/-- `x` may be the parent of `y`. -/
def rel (p : HeapPriority) (c : Comparable A) (x y : A) : Prop :=
  match p with
  | .min => c.le x y
  | .max => c.le y x

variable {p : HeapPriority} {c : Comparable A} {x y z : A}

section
variable (hc : c.Preordered)
include hc

theorem apply_iff : p.apply c x y ↔ ¬ p.rel c y x := by
  cases p with
  | min => exact hc.lt_iff x y
  | max => exact (by simp [Comparable.gt] : c.gt x y ↔ ¬ c.le x y)

theorem rel_refl (x : A) : p.rel c x x := by
  cases p <;> exact hc.le_refl x

theorem rel_trans (x y z : A) (h : p.rel c x y) (h' : p.rel c y z) : p.rel c x z := by
  cases p with
  | min => exact hc.le_trans x y z h h'
  | max => exact hc.le_trans z y x h' h

theorem rel_total (x y : A) : p.rel c x y ∨ p.rel c y x := by
  cases p with
  | min => exact hc.le_total x y
  | max => exact hc.le_total y x

theorem rel_of_apply (h : p.apply c x y) : p.rel c x y :=
  (rel_total hc x y).resolve_right ((apply_iff hc).1 h)

theorem rel_of_not_apply (h : ¬ p.apply c x y) : p.rel c y x := by
  rwa [apply_iff hc, not_not] at h

end

end HeapPriority

namespace BinaryHeap

/-! ### The methods -/

variable (T) (p : HeapPriority) (c : Comparable A)

/-- `x - 1` of a `USize`. -/
def pred (x : ℕ) : ℕ := (x + (2 ^ T.w - 1)) % 2 ^ T.w

/-- The loop of `_sift_up`. -/
def siftUpStep (idx : ℕ) : Arr A (ForInStep ℕ) :=
  let parentIdx := pred T idx / 2
  if parentIdx = idx then pure (.done idx) else do
    let x ← PonyArray.apply idx
    let y ← PonyArray.apply parentIdx
    if p.apply c x y then do
      PonyArray.swapElements parentIdx idx
      pure (.yield parentIdx)
    else pure (.done idx)

/-- `BinaryHeap._sift_up`.  A loop is given as many rounds as there are indices. -/
def siftUp (n : ℕ) : Arr A Unit :=
  PonyArray.attempt do
    let _ ← loop .rounds (siftUpStep T p c) (2 ^ T.w) n

/-- The child of `idx` that `_sift_down` looks at. -/
def child (n left : ℕ) : Arr A ℕ :=
  let right := (left + 1) % 2 ^ T.w
  if right < n then do
    let x ← PonyArray.apply right
    let y ← PonyArray.apply left
    if p.apply c x y then pure right else pure left
  else pure left

/-- The loop of `_sift_down`. -/
def siftDownStep (n idx : ℕ) : Arr A (ForInStep ℕ) :=
  let left := (2 * idx + 1) % 2 ^ T.w
  if left ≥ n ∨ left < 0 then pure (.done idx) else do
    let left ← child T p c n left
    let x ← PonyArray.apply left
    let y ← PonyArray.apply idx
    if p.apply c x y then do
      PonyArray.swapElements idx left
      pure (.yield left)
    else pure (.done idx)

/-- `BinaryHeap._sift_down`. -/
def siftDown (start n : ℕ) : Arr A Unit :=
  PonyArray.attempt do
    let _ ← loop .rounds (siftDownStep T p c n) (2 ^ T.w) start

/-- The loop of `_make_heap`, whose condition reads the old value of `i`. -/
def makeHeapStep (n i : ℕ) : Arr A (ForInStep ℕ) :=
  if i > 0 then do
    siftDown T p c (pred T i) n
    pure (.yield (pred T i))
  else pure (.done (pred T i))

/-- `BinaryHeap._make_heap`. -/
def makeHeap : Arr A Unit := do
  let n := (← get).items.length
  if n < 2 then pure () else do
    let _ ← loop .rounds (makeHeapStep T p c n) (2 ^ T.w) (n / 2)

/-- `new create`. -/
def create (M : Memory T) (len : ℕ) : Arr A Unit := PonyArray.create M len

/-- `BinaryHeap.clear`. -/
def clear : Arr A Unit := PonyArray.clear

/-- `BinaryHeap.peek`. -/
def peek : Arr A A := PonyArray.apply 0

/-- `BinaryHeap.push`. -/
def push (M : Memory T) (value : A) : Arr A Unit := do
  PonyArray.push M value
  siftUp T p c (pred T (← get).items.length)

/-- `BinaryHeap.pop`. -/
def pop : Arr A A := do
  let n := pred T (← get).items.length
  PonyArray.swapElements 0 n
  siftDown T p c 0 n
  PonyArray.pop T

/-- `BinaryHeap.append`. -/
def append (M : Memory T) (seq : ReadSeq T A) (offset len : ℕ) : Arr A Unit := do
  PonyArray.append M seq offset len
  makeHeap T p c

/-- `BinaryHeap.concat`. -/
def concat (M : Memory T) (iter : Iterator A) (offset len : ℕ) : Arr A Unit := do
  PonyArray.concat M iter offset len
  makeHeap T p c

end BinaryHeap

end SpacePony.Collections
