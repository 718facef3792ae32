import SpacePony.Packages.Collections.HashMap
import SpacePony.Packages.Persistent.Map

/-!
# Packages — persistent — the vector

`_vec_node.pony` and `vec.pony`: a tree of nodes with up to thirty-two entries each, in which all
leaves are full, and a tail of less than thirty-two values that are not in the tree yet.  Popping
never makes the tree less deep, so nodes that have no value any more stay in it, and a later push
fills them again.
-/

namespace SpacePony.Persistent

open Collections

variable {A : Type}

/-! ### Bits -/

/-- The amount of a checked shift, which is at most the width less one.  `*~` wraps around. -/
def shift32 (d : Nat) : Nat := min 63 (d * 5 % usize)

/-- `mask`. -/
def mask (n d : Nat) : Nat := (n >>> shift32 d) &&& 0b11111

/-- `next_pow32`. -/
def nextPow32 (n : Nat) : Nat := (32 <<< shift32 n) % usize

/-- `-` of `USize`. -/
def usub (a b : Nat) : Nat := (a + (usize - b)) % usize

/-! ### Nodes -/

/-- `class _VecNode`: its entries are values or nodes. -/
inductive VecNode (A : Type)
  | leaves (ls : List A)
  | nodes (ns : List (VecNode A))

namespace VecNode

/-- `empty`. -/
def empty (depth : Nat) : VecNode A := if depth = 0 then leaves [] else nodes []

/-- `grow_root`. -/
def growRoot (n : VecNode A) : VecNode A := nodes [n]

/-- `apply`.  There are no nodes below depth 0. -/
def apply : Nat → Nat → VecNode A → Option A
  | depth, i, leaves ls => ls[mask i depth]?
  | 0, _, nodes _ => none
  | depth + 1, i, nodes ns => do
      let n ← ns[mask i (depth + 1)]?
      apply depth i n

/-- `push`.  The cast of the entries to nodes fails at depth 0. -/
def push : Nat → Nat → List A → VecNode A → Option (VecNode A)
  | _, _, _, leaves _ => none
  | 0, _, _, nodes _ => none
  | 1, _, tail, nodes ns => some (nodes (ns ++ [leaves tail]))
  | depth + 2, i, tail, nodes ns =>
    let idx := mask i (depth + 2)
    if ns.length > idx then do
      let n ← ns[idx]?
      let sn ← push (depth + 1) i tail n
      let ns' ← setAt ns idx sn
      some (nodes ns')
    else do
      let sn ← push (depth + 1) i tail (empty (depth + 1))
      some (nodes (ns ++ [sn]))

/-- `pop`. -/
def pop : Nat → Nat → VecNode A → Option (VecNode A × List A)
  | _, _, leaves ls => some (leaves ls, ls)
  | 0, _, nodes _ => none
  | 1, i, nodes ns => do
      let n ← ns[mask i 1]?
      let r ← pop 0 i n
      some (nodes ns.dropLast, r.2)
  | depth + 2, i, nodes ns => do
      let n ← ns[mask i (depth + 2)]?
      let (sn, tail) ← pop (depth + 1) i n
      let ns' ← setAt ns (mask i (depth + 2)) sn
      some (nodes ns', tail)

/-- `update`. -/
def update : Nat → Nat → A → VecNode A → Option (VecNode A)
  | depth, i, v, leaves ls => do
      let ls' ← setAt ls (mask i depth) v
      some (leaves ls')
  | 0, _, _, nodes _ => none
  | depth + 1, i, v, nodes ns => do
      let n ← ns[mask i (depth + 1)]?
      let sn ← update depth i v n
      let ns' ← setAt ns (mask i (depth + 1)) sn
      some (nodes ns')

/-- `leaf_nodes`: the leaves are pushed to `lns` from the left to the right. -/
def leafNodes : VecNode A → List (List A) → List (List A)
  | leaves ls, lns => lns ++ [ls]
  | nodes ns, lns => go ns lns
where
  /-- The loop over the nodes. -/
  go : List (VecNode A) → List (List A) → List (List A)
    | [], lns => lns
    | n :: ns, lns => go ns (leafNodes n lns)

end VecNode

/-! ### The vector -/

/-- `class Vec`. -/
structure Vec (A : Type) where
  root : Option (VecNode A) := none
  tail : List A := []
  size : Nat := 0
  depth : Nat := usize - 1

namespace Vec

/-- `_tail_offset`. -/
def tailOffset (v : Vec A) : Nat := usub v.size v.tail.length

/-- `apply`. -/
def apply (v : Vec A) (i : Nat) : Option A :=
  if i < v.tailOffset then do
    let r ← v.root
    r.apply v.depth i
  else
    v.tail[usub i v.tailOffset]?

/-- `update`. -/
def update (v : Vec A) (i : Nat) (value : A) : Option (Vec A) :=
  if i < v.tailOffset then do
    let r ← v.root
    let root ← r.update v.depth i value
    some { v with root := some root }
  else do
    let tail ← setAt v.tail (usub i v.tailOffset) value
    some { v with tail }

/-- What `push` tries when the tail is full and the tree is: the root below a new one, with the full
tail in it. -/
def growAndPush (v : Vec A) (r : VecNode A) (tail : List A) : Option (VecNode A) :=
  r.growRoot.push ((v.depth + 1) % usize) v.tailOffset tail

/-- What `push` tries when the tail is full and the tree is not: the root with the full tail. -/
def pushTail (v : Vec A) (tail : List A) : Option (VecNode A) := do
  let r ← v.root
  r.push v.depth v.tailOffset tail

/-- `push`.  Where a push to the tree raises an error the root is kept as it is. -/
def push (v : Vec A) (value : A) : Vec A :=
  let size := (v.size + 1) % usize
  let tail := v.tail ++ [value]
  if tail.length < 32 then
    { v with tail, size }
  else if v.tailOffset = nextPow32 v.depth then
    let root :=
      match v.root with
      | some r => (v.growAndPush r tail).getD r
      | none => .leaves tail
    { root := some root, tail := [], size, depth := (v.depth + 1) % usize }
  else
    { v with root := (v.pushTail tail).or v.root, tail := [], size }

/-- `push` does not take a branch in which it keeps the root and the full tail is dropped. -/
def PushKeepsTail (v : Vec A) (value : A) : Prop :=
  (v.tail ++ [value]).length < 32 ∨
    if v.tailOffset = nextPow32 v.depth then
      ∀ r, v.root = some r → (v.growAndPush r (v.tail ++ [value])).isSome
    else
      (v.pushTail (v.tail ++ [value])).isSome

/-- `pop`. -/
def pop (v : Vec A) : Option (Vec A) :=
  let size := usub v.size 1
  if v.tail.length > 0 then
    some { v with tail := v.tail.dropLast, size }
  else do
    let r ← v.root
    let (root, tail) ← r.pop v.depth size
    if v.depth = 0 then
      some { root := none, tail := tail.dropLast, size, depth := usize - 1 }
    else
      some { v with root := some root, tail := tail.dropLast, size }

/-- The loop of `insert` from `idx` on, `k` rounds. -/
def insertLoop (self : Vec A) : Nat → Nat → Vec A → A → Option (Vec A)
  | 0, _, vec, _ => some vec
  | k + 1, idx, vec, prev => do
      let next ← self.apply idx
      let vec ← vec.update idx prev
      insertLoop self k (idx + 1) vec next

/-- `insert`. -/
def insert (v : Vec A) (i : Nat) (value : A) : Option (Vec A) :=
  if v.size ≤ i then none
  else do
    let vec ← v.insertLoop (v.size - i) i v value
    let last ← v.apply (usub v.size 1)
    some (vec.push last)

/-- The loop of `delete` from `idx` on, `k` rounds. -/
def deleteLoop (self : Vec A) : Nat → Nat → Vec A → Option (Vec A)
  | 0, _, vec => some vec
  | k + 1, idx, vec => do
      let value ← self.apply idx
      let vec ← vec.update (idx - 1) value
      deleteLoop self k (idx + 1) vec

/-- `delete`. -/
def delete (v : Vec A) (i : Nat) : Option (Vec A) :=
  if v.size ≤ i then none
  else do
    let vec ← v.pop
    v.deleteLoop (v.size - (i + 1)) (i + 1) vec

/-- `concat`. -/
def concat (v : Vec A) (iter : List A) : Vec A := iter.foldl push v

/-- `_leaf_nodes`. -/
def leafNodes (v : Vec A) : List (List A) :=
  let lns :=
    match v.root with
    | some r => r.leafNodes []
    | none => []
  if v.tail.length > 0 then lns ++ [v.tail] else lns

end Vec

/-! ### Iterators -/

/-- `class VecPairs`. -/
structure VecPairs (A : Type) where
  leafNodes : List (List A)
  idx : Nat := 0
  i : Nat := 0

namespace VecPairs

/-- `create`, which is `Vec.pairs`. -/
def create (v : Vec A) : VecPairs A := { leafNodes := v.leafNodes }

/-- `has_next`. -/
def hasNext (p : VecPairs A) : Bool := p.leafNodes.length > 0

/-- `next`: the index and the value, and the iterator after it. -/
def next (p : VecPairs A) : Option ((Nat × A) × VecPairs A) := do
  let leaves ← p.leafNodes[0]?
  let v ← leaves[p.idx]?
  if p.idx + 1 = leaves.length then
    some ((p.i, v), { leafNodes := p.leafNodes.tail, idx := 0, i := p.i + 1 })
  else
    some ((p.i, v), { p with idx := p.idx + 1, i := p.i + 1 })

/-- A `for` loop over the pairs, with at most `fuel` rounds: the pairs in order, if the loop ends
because there is no next one. -/
def collect : Nat → VecPairs A → Option (List (Nat × A))
  | 0, p => if p.hasNext then none else some []
  | fuel + 1, p =>
    if p.hasNext then do
      let (x, p') ← p.next
      let xs ← collect fuel p'
      some (x :: xs)
    else some []

end VecPairs

namespace Vec

/-- The pairs that a loop over `pairs` reads. -/
def pairs (v : Vec A) (fuel : Nat) : Option (List (Nat × A)) := (VecPairs.create v).collect fuel

/-- The indices that a loop over `keys` reads. -/
def keys (v : Vec A) (fuel : Nat) : Option (List Nat) := (v.pairs fuel).map (List.map Prod.fst)

/-- The values that a loop over `values` reads. -/
def values (v : Vec A) (fuel : Nat) : Option (List A) := (v.pairs fuel).map (List.map Prod.snd)

end Vec

end SpacePony.Persistent
