import Mathlib.Logic.Function.Basic
import SpacePony.Runtime.Mem.PoolSize
import SpacePony.Support.Regions

/-!
# Runtime — memory — the free blocks of a thread

The list of free blocks headed by `pool_block_header` (`mem/pool.c`), for requests of pages.

* `poolBlockRemove`, `poolBlockInsert`, `poolBlockGet`, `poolAllocPages`, `poolFreePages`.
* What comes from elsewhere is an argument: the block that `pool_block_pull` finds on the global
  list, and the address that `ponyint_virt_alloc` gets from the system.
* The loops along the list have fuel for as many blocks as an address space can hold.
-/

namespace SpacePony.Mem

open Regions

/-- `pool_block_t`, without the fields that only the global list uses. -/
structure PoolBlock where
  prev : Ptr
  next : Ptr
  size : Nat
deriving DecidableEq

/-- The memory in which free blocks have their header, and `pool_block_header`. -/
structure PoolBlocks where
  mem : Ptr → PoolBlock
  head : Ptr
  totalSize : Nat
  largestSize : Nat

/-- `POOL_MMAP`: when we map memory, pull at least this many bytes. -/
def poolMmap : Nat := 128 * 1024 * 1024

inductive PoolFault where
  | assertion
  | endless
deriving DecidableEq

/-- As many blocks of `POOL_ALIGN` bytes as there is room for. -/
def maxBlocks : Nat := 2 ^ 64 / poolAlign

namespace PoolBlocks

def init : PoolBlocks := ⟨fun _ => ⟨NULL, NULL, 0⟩, NULL, 0, 0⟩

/-- `block->size`. -/
def size (s : PoolBlocks) (block : Ptr) : Nat := (s.mem block).size

def setPrev (s : PoolBlocks) (block prev : Ptr) : PoolBlocks :=
  { s with mem := Function.update s.mem block { s.mem block with prev := prev } }

def setNext (s : PoolBlocks) (block next : Ptr) : PoolBlocks :=
  { s with mem := Function.update s.mem block { s.mem block with next := next } }

def setSize (s : PoolBlocks) (block : Ptr) (size : Nat) : PoolBlocks :=
  { s with mem := Function.update s.mem block { s.mem block with size := size } }

end PoolBlocks

def poolBlockRemove (block : Ptr) (s : PoolBlocks) : PoolBlocks :=
  let prev := (s.mem block).prev
  let next := (s.mem block).next
  let s := if prev ≠ NULL then s.setNext prev next else { s with head := next }
  if next ≠ NULL then s.setPrev next prev else s

/-- Where a block of the size goes: the blocks before and after it. -/
def insertPosition (s : PoolBlocks) (size : Nat) : Nat → Ptr → Ptr → Except PoolFault (Ptr × Ptr)
  | 0, _, _ => .error .endless
  | fuel + 1, prev, next =>
    if next = NULL then .ok (prev, next)
    else if size ≤ s.size next then .ok (prev, next)
    else insertPosition s size fuel next (s.mem next).next

def poolBlockInsert (block : Ptr) (s : PoolBlocks) : Except PoolFault PoolBlocks := do
  let (prev, next) ← insertPosition s (s.size block) (maxBlocks + 1) NULL s.head
  let s := s.setPrev block prev
  let s := s.setNext block next
  let s := if prev ≠ NULL then s.setNext prev block else { s with head := block }
  pure (if next ≠ NULL then s.setPrev next block else s)

/-- The size that is left of a block is `rem`: the block moves forward where it is now smaller than
the block before it. -/
def shrinkBlock (block : Ptr) (size : Nat) (s : PoolBlocks) : Except PoolFault PoolBlocks := do
  let rem := s.size block - size
  let s := s.setSize block rem
  let s := { s with totalSize := (s.totalSize + 2 ^ 64 - size) % 2 ^ 64 }
  let prev := (s.mem block).prev
  let next := (s.mem block).next
  if prev ≠ NULL ∧ s.size prev > s.size block then
    let s := if next = NULL then { s with largestSize := s.size prev } else s
    poolBlockInsert block (poolBlockRemove block s)
  else if next = NULL then
    pure { s with largestSize := rem }
  else
    pure s

/-- A block of exactly the size leaves the list. -/
def takeBlock (block : Ptr) (size : Nat) (s : PoolBlocks) : PoolBlocks :=
  let prev := (s.mem block).prev
  let next := (s.mem block).next
  let s := if next = NULL then
      { s with largestSize := if prev = NULL then 0 else s.size prev }
    else s
  let s := poolBlockRemove block s
  { s with totalSize := (s.totalSize + 2 ^ 64 - size) % 2 ^ 64 }

/-- The loop over the list: the address of the block carved out. -/
def findBlock (size : Nat) (s : PoolBlocks) : Nat → Ptr → Except PoolFault (Ptr × PoolBlocks)
  | 0, _ => .error .endless
  | fuel + 1, block =>
    if block = NULL then
      -- if we didn't find any suitable block, something has gone really wrong
      .error .assertion
    else if s.size block > size then do
      let s' ← shrinkBlock block size s
      pure (block + (s.size block - size), s')
    else if s.size block = size then
      pure (block, takeBlock block size s)
    else
      findBlock size s fuel (s.mem block).next

/-- A block enters the list and counts with `size` bytes. -/
def addBlock (block : Ptr) (size : Nat) (s : PoolBlocks) : Except PoolFault PoolBlocks := do
  let s ← poolBlockInsert block s
  let s := { s with totalSize := (s.totalSize + size) % 2 ^ 64 }
  pure (if s.largestSize < size then { s with largestSize := size } else s)

/-- `pulled` is what `pool_block_pull` finds; its size stands in its header. -/
def poolBlockGet (size : Nat) (pulled : Option Region) (s : PoolBlocks) :
    Except PoolFault (Option Ptr × PoolBlocks) := do
  if s.largestSize ≥ size then
    let (p, s) ← findBlock size s (maxBlocks + 1) s.head
    pure (some p, s)
  else
    match pulled with
    | none => pure (none, s)
    | some ⟨block, blockSize⟩ =>
      if size = blockSize then
        pure (some block, s)
      else
        let rem := blockSize - size
        let s ← addBlock block rem (s.setSize block rem)
        pure (some (block + rem), s)

/-- `fresh` is what `ponyint_virt_alloc` returns. -/
def poolAllocPages (size : Nat) (pulled : Option Region) (fresh : Ptr) (s : PoolBlocks) :
    Except PoolFault (Ptr × PoolBlocks) := do
  let (p, s) ← poolBlockGet size pulled s
  match p with
  | some p => pure (p, s)
  | none =>
    -- we have no free blocks big enough
    if size ≥ poolMmap then
      pure (fresh, s)
    else
      let rem := poolMmap - size
      let s := { s with mem := Function.update s.mem fresh ⟨NULL, NULL, rem⟩ }
      let s ← addBlock fresh rem s
      pure (fresh + rem, s)

def poolFreePages (p : Ptr) (size : Nat) (s : PoolBlocks) : Except PoolFault PoolBlocks :=
  addBlock p size { s with mem := Function.update s.mem p ⟨NULL, NULL, size⟩ }

end SpacePony.Mem
