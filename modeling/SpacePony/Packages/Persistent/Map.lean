import SpacePony.Packages.Collections.HashFunction
import SpacePony.Support.Sparse

/-!
# Packages — persistent — the map

`_map_node.pony`, `_bits.pony` and `map.pony`: a trie over the bits of a 32-bit hash, five at a
level.  A node has one bitmap for the entries it holds and one for the nodes below it, and one array
for both.  Two keys that agree in the first thirty bits are in a collision node, in one of four bins.

Every object is immutable once it is shared: `update_mut` writes to a clone only.  So the nodes are
values here.

* `MapSubNodes.apply`, `MapSubNodes.updateMut`, `MapSubNodes.remove` and those of `Collisions`.
-/

namespace SpacePony.Persistent

open Collections Compressed

variable {K V : Type}

/-! ### Bits -/

/-- `collision_depth`. -/
def collisionDepth : Nat := 6

/-- `mask32`. -/
def mask32 (n : BitVec 32) (d : Nat) : Nat := ((n >>> (d * 5)) &&& 0b11111#32).toNat

/-- `H.hash(key).u32()`. -/
def hash32 (H : HashFunction K) (k : K) : BitVec 32 := (H.hash k).setWidth 32

/-! ### Arrays -/

/-- `Array.insert`. -/
def insertAt {α : Type} (xs : List α) (i : Nat) (x : α) : Option (List α) :=
  if i ≤ xs.length then some (xs.insertIdx i x) else none

/-- `Array.delete`. -/
def deleteAt {α : Type} (xs : List α) (i : Nat) : Option (List α) :=
  if i < xs.length then some (xs.eraseIdx i) else none

/-- `Array.update`. -/
def setAt {α : Type} (xs : List α) (i : Nat) (x : α) : Option (List α) :=
  if i < xs.length then some (xs.set i x) else none

/-! ### Nodes -/

/-- `type _MapNode`: a `_MapEntry`, a `_MapCollisions` or a `_MapSubNodes`. -/
inductive MapNode (K V : Type)
  | entry (e : K × V)
  | collisions (bins : List (List (K × V)))
  | subNodes (nodes : List (MapNode K V)) (nodeMap dataMap : BitVec 32)

/-- `class _MapSubNodes`. -/
structure MapSubNodes (K V : Type) where
  nodes : List (MapNode K V) := []
  nodeMap : BitVec 32 := 0
  dataMap : BitVec 32 := 0

/-- Nodes as one node. -/
def MapSubNodes.node (ns : MapSubNodes K V) : MapNode K V :=
  .subNodes ns.nodes ns.nodeMap ns.dataMap

namespace Collisions

/-- `_MapCollisions.create`. -/
def create : List (List (K × V)) := [[], [], [], []]

/-- A bin is given one more entry. -/
def push (bins : List (List (K × V))) (idx : Nat) (e : K × V) : Option (List (List (K × V))) := do
  let bin ← bins[idx]?
  setAt bins idx (bin ++ [e])

/-- `_MapCollisions.apply`. -/
def apply (H : HashFunction K) (bins : List (List (K × V))) (hash : BitVec 32) (k : K) :
    Option V := do
  let bin ← bins[mask32 hash collisionDepth]?
  (bin.find? fun e => H.eq k e.1).map Prod.snd

/-- `_MapCollisions.update_mut`: whether the entry is new. -/
def updateMut (H : HashFunction K) (bins : List (List (K × V))) (hash : BitVec 32) (e : K × V) :
    Option (Bool × List (List (K × V))) := do
  let idx := mask32 hash collisionDepth
  let bin ← bins[idx]?
  match bin.findIdx? fun e' => H.eq e.1 e'.1 with
  | some i =>
    let bins ← setAt bins idx (bin.set i e)
    some (false, bins)
  | none =>
    let bins ← push bins idx e
    some (true, bins)

/-- `_MapCollisions.remove`. -/
def remove (H : HashFunction K) (bins : List (List (K × V))) (hash : BitVec 32) (k : K) :
    Option (List (List (K × V))) := do
  let idx := mask32 hash collisionDepth
  let bin ← bins[idx]?
  match bin.findIdx? fun e => H.eq k e.1 with
  | some i =>
    let bin ← deleteAt bin i
    setAt bins idx bin
  | none => none

/-- `_MapCollisions.pull_last`. -/
def pullLast (bins : List (List (K × V))) : Option (K × V) := bins.findSome? List.head?

end Collisions

namespace MapSubNodes

/-- `compressed_idx`; an index of -1 is none. -/
def compressedIdx (ns : MapSubNodes K V) (idx : Nat) : Option Nat :=
  if checkBit (ns.nodeMap ||| ns.dataMap) idx = false then none
  else
    let msk := below 32 idx
    if checkBit ns.dataMap idx then some (popcount (ns.dataMap &&& msk))
    else some (popcount ns.dataMap + popcount (ns.nodeMap &&& msk))

/-- `apply`. -/
def apply (H : HashFunction K) : (levels depth : Nat) → BitVec 32 → K → MapSubNodes K V → Option V
  | 0, _, _, _, _ => none
  | levels + 1, depth, hash, k, ns => do
      let cIdx ← ns.compressedIdx (mask32 hash depth)
      match ← ns.nodes[cIdx]? with
      | .entry e => if H.eq k e.1 then some e.2 else none
      | .subNodes nodes nodeMap dataMap =>
        apply H levels (depth + 1) hash k { nodes, nodeMap, dataMap }
      | .collisions bins => Collisions.apply H bins hash k

/-- The collision node of two entries, as `update_mut` makes it. -/
def collide (H : HashFunction K) (entry0 : K × V) (hash : BitVec 32) (e : K × V) :
    Option (MapNode K V) := do
  let idx0 := mask32 (hash32 H entry0.1) collisionDepth
  let idx1 := mask32 hash collisionDepth
  let bins ← Collisions.push Collisions.create idx0 entry0
  let bins ← Collisions.push bins idx1 e
  some (.collisions bins)

/-- `update_mut`: whether the key is new. -/
def updateMut (H : HashFunction K) :
    (levels depth : Nat) → BitVec 32 → K → V → MapSubNodes K V → Option (Bool × MapSubNodes K V)
  | 0, _, _, _, _, _ => none
  | levels + 1, depth, hash, k, v, ns =>
    let idx := mask32 hash depth
    match ns.compressedIdx idx with
    | none => do
        let ns := { ns with dataMap := setBit ns.dataMap idx }
        let cIdx ← ns.compressedIdx idx
        let nodes ← insertAt ns.nodes cIdx (.entry (k, v))
        some (true, { ns with nodes })
    | some cIdx =>
      if checkBit ns.nodeMap idx then
        if depth < collisionDepth - 1 then do
          match ← ns.nodes[cIdx]? with
          | .subNodes nodes nodeMap dataMap =>
            let (insert, sn) ←
              updateMut H levels (depth + 1) hash k v { nodes, nodeMap, dataMap }
            let nodes ← setAt ns.nodes cIdx sn.node
            some (insert, { ns with nodes })
          | _ => none
        else do
          match ← ns.nodes[cIdx]? with
          | .collisions bins =>
            let (insert, bins) ← Collisions.updateMut H bins hash (k, v)
            let nodes ← setAt ns.nodes cIdx (.collisions bins)
            some (insert, { ns with nodes })
          | _ => none
      else do
        match ← ns.nodes[cIdx]? with
        | .entry entry0 =>
          if H.eq k entry0.1 then
            let nodes ← setAt ns.nodes cIdx (.entry (k, v))
            some (false, { ns with nodes })
          else
            let subNode ←
              if depth < collisionDepth - 1 then do
                let idx0 := mask32 (hash32 H entry0.1) (depth + 1)
                let sn : MapSubNodes K V :=
                  { nodes := [.entry entry0], nodeMap := 0, dataMap := setBit 0 idx0 }
                let (_, sn) ← updateMut H levels (depth + 1) hash k v sn
                some sn.node
              else collide H entry0 hash (k, v)
            let nodes ← deleteAt ns.nodes cIdx
            let ns : MapSubNodes K V :=
              { nodes, nodeMap := setBit ns.nodeMap idx, dataMap := clearBit ns.dataMap idx }
            let cIdx ← ns.compressedIdx idx
            let nodes ← insertAt ns.nodes cIdx subNode
            some (true, { ns with nodes })
        | _ => none

/-- The entry `n` takes the place of the node at `cIdx`. -/
def compact (ns : MapSubNodes K V) (idx cIdx : Nat) (n : MapNode K V) :
    Option (MapSubNodes K V) := do
  let nodes ← deleteAt ns.nodes cIdx
  let ns : MapSubNodes K V :=
    { nodes, nodeMap := clearBit ns.nodeMap idx, dataMap := setBit ns.dataMap idx }
  let cIdx ← ns.compressedIdx idx
  let nodes ← insertAt ns.nodes cIdx n
  some { ns with nodes }

/-- `remove`. -/
def remove (H : HashFunction K) :
    (levels depth : Nat) → BitVec 32 → K → MapSubNodes K V → Option (MapSubNodes K V)
  | 0, _, _, _, _ => none
  | levels + 1, depth, hash, k, ns => do
      let idx := mask32 hash depth
      let cIdx ← ns.compressedIdx idx
      if checkBit ns.dataMap idx then
        -- the key of the entry is not compared
        let nodes ← deleteAt ns.nodes cIdx
        some { ns with dataMap := clearBit ns.dataMap idx, nodes }
      else
        match ← ns.nodes[cIdx]? with
        | .entry _ => none
        | .subNodes nodes nodeMap dataMap =>
          let sn ← remove H levels (depth + 1) hash k { nodes, nodeMap, dataMap }
          if sn.nodes.length = 1 ∧ sn.dataMap ≠ 0 then
            let n ← sn.nodes[0]?
            ns.compact idx cIdx n
          else
            let nodes ← setAt ns.nodes cIdx sn.node
            some { ns with nodes }
        | .collisions bins =>
          let bins ← Collisions.remove H bins hash k
          if (bins.map List.length).sum = 1 then
            let e ← Collisions.pullLast bins
            ns.compact idx cIdx (.entry e)
          else
            let nodes ← setAt ns.nodes cIdx (.collisions bins)
            some { ns with nodes }

end MapSubNodes

/-! ### The map -/

/-- `class HashMap`. -/
structure HashMap (K V : Type) where
  root : MapSubNodes K V := {}
  size : Nat := 0

namespace HashMap

variable (H : HashFunction K) (m : HashMap K V)

/-- The levels of a trie: there are no nodes below a collision node. -/
def levels : Nat := collisionDepth

/-- `apply`. -/
def apply (k : K) : Option V := m.root.apply H levels 0 (hash32 H k) k

/-- `get_or_else`. -/
def getOrElse (k : K) (alt : V) : V := (m.apply H k).getD alt

/-- `contains`. -/
def contains (k : K) : Bool := (m.apply H k).isSome

/-- `_MapSubNodes.update` of the root, or an error. -/
def updateRoot (key : K) (value : V) : Option (Bool × MapSubNodes K V) :=
  m.root.updateMut H levels 0 (hash32 H key) key value

/-- `update`. -/
def update (key : K) (value : V) : HashMap K V :=
  match m.updateRoot H key value with
  | some (insertion, r) => { root := r, size := if insertion then m.size + 1 else m.size }
  | none => m

/-- `remove`. -/
def remove (k : K) : Option (HashMap K V) :=
  (m.root.remove H levels 0 (hash32 H k) k).map fun r => { root := r, size := m.size - 1 }

/-- `add`. -/
def add (key : K) (value : V) : HashMap K V := m.update H key value

/-- `sub`. -/
def sub (key : K) : HashMap K V := (m.remove H key).getD m

/-- `concat`, of what the iterator yields. -/
def concat (iter : List (K × V)) : HashMap K V := iter.foldl (fun m e => m.update H e.1 e.2) m

end HashMap

end SpacePony.Persistent
