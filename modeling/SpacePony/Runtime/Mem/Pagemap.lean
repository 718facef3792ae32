import SpacePony.Runtime.Mem.PoolSize
import SpacePony.Support.Hoare
import SpacePony.Support.PrefixTree

/-!
# Runtime — memory — the pagemap

`mem/pagemap.c`: the prefix tree from pages of the heap to the chunk and the actor they belong to.

* `ponyintPagemapGetChunk`, `ponyintPagemapGet`, `ponyintPagemapSet`, `ponyintPagemapSetBulk`.
* A node is a node of a `PrefixTree.Tree`; words hold pointers, whose kind the tree does not know.
* An access outside a node, a failed assertion or a loop that does not end is a `Fault`.

The calls run one at a time, so the exchange that hangs a new node into the tree compares with what
was just read.  A node lowest in the tree has two words for each page.
-/

namespace SpacePony.Mem

open PrefixTree

/-! ### The levels -/

def pagemapAddressBits : Nat := 48
def pagemapLevels : Nat := 3
def pagemapBits : Nat := (pagemapAddressBits - poolAlignBits) / pagemapLevels
def pagemapExcess : Nat := (pagemapAddressBits - poolAlignBits) % pagemapLevels

def l1Mask : Nat := pagemapBits
def l2Mask : Nat := pagemapBits + (if pagemapExcess > 1 then 1 else 0)
def l3Mask : Nat := pagemapBits + (if pagemapExcess > 0 then 1 else 0)

def l1Shift : Nat := poolAlignBits
def l2Shift : Nat := l1Shift + l1Mask
def l3Shift : Nat := l2Shift + l2Mask

structure Level where
  shift : Nat
  mask : Nat
  size : Nat

/-- The lowest level is sized to hold two pointers an entry. -/
def level : List Level :=
  [⟨l3Shift, (1 <<< l3Mask) - 1, (1 <<< l3Mask) * ptrSize⟩,
    ⟨l2Shift, (1 <<< l2Mask) - 1, (1 <<< l2Mask) * ptrSize⟩,
    ⟨l1Shift, (1 <<< l1Mask) - 1, (1 <<< l1Mask) * ptrSize * 2⟩]

/-- `level[PAGEMAP_LEVELS - 1]`. -/
def lowest : Level := ⟨l1Shift, (1 <<< l1Mask) - 1, (1 <<< l1Mask) * ptrSize * 2⟩

/-! ### Memory -/

inductive Fault where
  | access
  | assertion
  | endless
deriving DecidableEq

/-- A program over the pagemap. -/
abbrev PagemapM := StateT Tree (Except Fault)

def atomicLoad (slot : Slot) : PagemapM Ptr := do
  match (← get).read slot with
  | some v => pure v
  | none => throw .access

def atomicStore (slot : Slot) (v : Ptr) : PagemapM Unit := do
  let _ ← atomicLoad slot
  modify (·.write slot v)

/-- Whether the exchange took place, and what the slot held. -/
def atomicCompareExchange (slot : Slot) (expected new : Ptr) : PagemapM (Bool × Ptr) := do
  let v ← atomicLoad slot
  if v = expected then
    modify (·.write slot new)
    pure (true, v)
  else
    pure (false, v)

/-- `ponyint_pool_alloc` of a node and the `memset` that clears it. -/
def allocNode (size : Nat) : PagemapM Ptr := do
  modify (·.alloc (size / ptrSize))
  return (← get).nodes.length

def ponyAssert (p : Bool) : PagemapM Unit :=
  if p then pure () else throw .assertion

/-- `((uintptr_t)addr >> level[i].shift) & level[i].mask`. -/
def ixOf (addr : Nat) (l : Level) : Nat := (addr >>> l.shift) &&& l.mask

/-! ### Reading -/

/-- One level after the other, down to the slot of the chunk: `next_node`, `node` and `ix`. -/
def getWalk (addr : Nat) : List Level → Slot × Ptr × Nat → PagemapM (Option (Slot × Ptr × Nat))
  | [], st => pure (some st)
  | l :: ls, (_, node, _) => do
      if node = NULL then
        pure none
      else
        let ix := ixOf addr l
        if ls.isEmpty then
          let ix := ix * 2
          ponyAssert (ix ≤ l.size)
          ponyAssert (ix / 2 ≤ l.mask)
          getWalk addr ls (.entry node ix, node, ix)
        else
          let child ← atomicLoad (.entry node ix)
          ponyAssert (ix ≤ l.size)
          ponyAssert (ix ≤ l.mask)
          getWalk addr ls (.entry node ix, child, ix)

def ponyintPagemapGetChunk (addr : Nat) : PagemapM Ptr := do
  let node ← atomicLoad .root
  match ← getWalk addr level (.root, node, 0) with
  | none => pure NULL
  | some (nextNode, _, _) => atomicLoad nextNode

/-- The chunk, and what `*actor` holds afterwards. -/
def ponyintPagemapGet (addr : Nat) (actor : Ptr) : PagemapM (Ptr × Ptr) := do
  let node ← atomicLoad .root
  match ← getWalk addr level (.root, node, 0) with
  | none => pure (NULL, actor)
  | some (nextNode, node, ix) =>
    let chunk ← atomicLoad nextNode
    let ix := ix + 1
    ponyAssert (ix ≤ lowest.size)
    ponyAssert (ix / 2 ≤ lowest.mask)
    let pagemapActor ← atomicLoad (.entry node ix)
    pure (chunk, pagemapActor)

/-! ### Writing -/

/-- The node in the slot, a new one where there is none. -/
def nodeAt (nextNode : Slot) (l : Level) : PagemapM Ptr := do
  let node ← atomicLoad nextNode
  if node = NULL then
    let newNode ← allocNode l.size
    let (exchanged, found) ← atomicCompareExchange nextNode node newNode
    -- where another thread was faster, the new node goes back to the pool
    if exchanged then pure newNode else pure found
  else
    pure node

/-- One level after the other, down to the slot of the chunk, with the nodes on the way. -/
def setWalk (addr : Nat) : List Level → Slot × Ptr × Nat → PagemapM (Slot × Ptr × Nat)
  | [], st => pure st
  | l :: ls, (nextNode, _, _) => do
      let node ← nodeAt nextNode l
      let ix := ixOf addr l
      ponyAssert (ix ≤ l.size)
      ponyAssert (ix ≤ l.mask)
      let ix := if ls.isEmpty then ix * 2 else ix
      setWalk addr ls (.entry node ix, node, ix)

def ponyintPagemapSet (addr : Nat) (chunk actor : Ptr) : PagemapM Unit := do
  let (nextNode, node, ix) ← setWalk addr level (.root, NULL, 0)
  ponyAssert (ix ≤ lowest.size)
  ponyAssert (ix / 2 ≤ lowest.mask)
  atomicStore nextNode chunk
  let ix := ix + 1
  ponyAssert (ix ≤ lowest.size)
  ponyAssert (ix / 2 ≤ lowest.mask)
  atomicStore (.entry node ix) actor

/-- The `do` loop: the pages of one lowest node, and the address after them. -/
def fillSegment (chunk actor : Ptr) (addrEnd : Nat) (node : Ptr) :
    Nat → Slot → Nat → Nat → PagemapM Nat
  | 0, _, _, _ => throw .endless
  | fuel + 1, nextNode, addrPtr, ix => do
      atomicStore nextNode chunk
      let addrPtr := (addrPtr + poolAlign) % 2 ^ 64
      let ix := ix + 1
      ponyAssert (ix ≤ lowest.size)
      ponyAssert (ix / 2 ≤ lowest.mask)
      atomicStore (.entry node ix) actor
      let ix := ix + 1
      if addrPtr < addrEnd ∧ ix / 2 ≤ lowest.mask then
        fillSegment chunk actor addrEnd node fuel (.entry node ix) addrPtr ix
      else
        pure addrPtr

/-- The `while` loop. -/
def setBulkLoop (chunk actor : Ptr) (addrEnd : Nat) : Nat → Nat → PagemapM Unit
  | 0, addrPtr => if addrPtr < addrEnd then throw .endless else pure ()
  | fuel + 1, addrPtr => do
      if addrPtr < addrEnd then
        let (nextNode, node, ix) ← setWalk addrPtr level (.root, NULL, 0)
        let addrPtr ← fillSegment chunk actor addrEnd node (lowest.mask + 1) nextNode addrPtr ix
        setBulkLoop chunk actor addrEnd fuel addrPtr
      else
        pure ()

/-- A round of the `while` loop fills a page at least, so there are no more rounds than pages. -/
def ponyintPagemapSetBulk (addr : Nat) (chunk actor : Ptr) (size : Nat) : PagemapM Unit :=
  setBulkLoop chunk actor ((addr + size) % 2 ^ 64) (size / poolAlign) addr

end SpacePony.Mem
