import SpacePony.Runtime.Mem.PoolBlocks

/-!
# Runtime — memory — the pool

The pool allocator of `mem/pool.c` as one thread runs it: free lists by size class, and blocks of
pages above the classes.

* `PoolLocal`, `Pool`: the lists of the thread, the global lists, and the bytes of the memory.
* `ponyintPoolAlloc`, `ponyintPoolFree`, `ponyintPoolAllocSize`, `ponyintPoolFreeSize`,
  `ponyintPoolReallocSize`.
* A free list is a list of addresses; the global list of blocks is a list of regions.
* `obtained` counts the bytes the system has given; no function reads it.
* What a block holds after it is allocated or given back is not known: the pool writes its links
  into free blocks and gives their pages back to the system (`Env.junk`).
-/

namespace SpacePony.Mem

open Regions

/-- `pool_local_t`: the free list of a size class, and the rest of the block it is cut from. -/
structure PoolLocal where
  pool : List Ptr
  length : Nat
  start : Ptr
  stop : Ptr
deriving DecidableEq

structure Pool where
  locals : Nat → PoolLocal
  /-- `pool_global[index].central`. -/
  central : Nat → List (List Ptr)
  blocks : PoolBlocks
  /-- The list headed by `pool_block_global`. -/
  blockGlobal : List Region
  mem : Nat → UInt8
  obtained : Nat

/-- What the code cannot know: where the system puts new memory, and what unused memory holds. -/
structure Env where
  fresh : Ptr
  junk : Nat → UInt8

/-- `pool_global[index].count`. -/
def poolGlobalCount (index : Nat) : Nat := poolMax / (poolMin <<< index)

namespace Pool

def init : Pool :=
  ⟨fun _ => ⟨[], 0, NULL, NULL⟩, fun _ => [], .init, [], fun _ => 0, 0⟩

def setLocal (st : Pool) (index : Nat) (l : PoolLocal) : Pool :=
  { st with locals := Function.update st.locals index l }

def setCentral (st : Pool) (index : Nat) (c : List (List Ptr)) : Pool :=
  { st with central := Function.update st.central index c }

/-- The bytes of the region are no longer known. -/
def forget (st : Pool) (r : Region) (junk : Nat → UInt8) : Pool :=
  { st with mem := fun a => if r.start ≤ a ∧ a < r.start + r.size then junk a else st.mem a }

/-- `memcpy(dst, src, n)`. -/
def copy (st : Pool) (dst src : Ptr) (n : Nat) : Pool :=
  { st with mem := fun a => if dst ≤ a ∧ a < dst + n then st.mem (src + (a - dst)) else st.mem a }

end Pool

/-! ### Pages -/

/-- `pool_alloc_pages`. The global list is only looked at where the thread's own list cannot serve
the request. -/
def poolPages (size : Nat) (env : Env) (st : Pool) : Except PoolFault (Ptr × Pool) := do
  let pulled := st.blockGlobal.find? fun r => decide (size ≤ r.size)
  let (p, blocks) ← poolAllocPages size pulled env.fresh st.blocks
  if st.blocks.largestSize ≥ size then
    pure (p, { st with blocks := blocks })
  else
    match pulled with
    | some r => pure (p, { st with blocks := blocks, blockGlobal := st.blockGlobal.erase r })
    | none =>
      let bytes := if size ≥ poolMmap then size else poolMmap
      pure (p, { st with blocks := blocks, obtained := st.obtained + bytes })

/-! ### Size classes -/

def poolPush (index : Nat) (st : Pool) : Except PoolFault Pool :=
  let thread := st.locals index
  if 0 < thread.length ∧ thread.length ≤ poolGlobalCount index then
    let st := st.setLocal index { thread with pool := [], length := 0 }
    .ok (st.setCentral index (thread.pool :: st.central index))
  else
    .error .assertion

def poolPull (index : Nat) (st : Pool) : Except PoolFault (Option (Ptr × Pool)) :=
  match st.central index with
  | [] => .ok none
  | top :: next =>
    if 0 < top.length ∧ top.length ≤ poolGlobalCount index then
      let thread := { st.locals index with pool := top.tail, length := top.length - 1 }
      .ok (some (top.headD NULL, (st.setLocal index thread).setCentral index next))
    else
      .error .assertion

/-- `pool_get`, up to where it needs memory that is not on a free list of the class. -/
def poolGetWith (carve : Pool → Except PoolFault (Ptr × Pool)) (index : Nat) (st : Pool) :
    Except PoolFault (Ptr × Pool) := do
  let thread := st.locals index
  match thread.pool with
  | p :: next =>
    pure (p, st.setLocal index { thread with pool := next, length := thread.length - 1 })
  | [] =>
    match ← poolPull index st with
    | some r => pure r
    | none => carve st

/-- `pool_get` for a class of `POOL_ALIGN` bytes and more. -/
def poolGetAligned (index : Nat) (env : Env) (st : Pool) : Except PoolFault (Ptr × Pool) :=
  poolGetWith (poolPages (poolSize index) env) index st

/-- The next piece of the block that the class is cut from, or the first of a new block. -/
def poolCut (index : Nat) (env : Env) (st : Pool) : Except PoolFault (Ptr × Pool) := do
  let thread := st.locals index
  if thread.start < thread.stop then
    pure (thread.start, st.setLocal index { thread with start := thread.start + poolSize index })
  else
    let (mem, st) ← poolGetAligned poolAlignIndex env st
    let thread := { st.locals index with start := mem + poolSize index, stop := mem + poolAlign }
    pure (mem, st.setLocal index thread)

def poolGet (index : Nat) (env : Env) (st : Pool) : Except PoolFault (Ptr × Pool) :=
  if poolSize index < poolAlign then poolGetWith (poolCut index env) index st
  else poolGetAligned index env st

def ponyintPoolAlloc (index : Nat) (env : Env) (st : Pool) : Except PoolFault (Ptr × Pool) := do
  let (p, st) ← poolGet index env st
  pure (p, st.forget ⟨p, poolSize index⟩ env.junk)

def ponyintPoolFree (index : Nat) (p : Ptr) (env : Env) (st : Pool) : Except PoolFault Pool := do
  if ¬ index < poolCount then throw .assertion
  let st ← if (st.locals index).length = poolGlobalCount index then poolPush index st else pure st
  let thread := st.locals index
  if ¬ thread.length < poolGlobalCount index then throw .assertion
  let st := st.setLocal index { thread with pool := p :: thread.pool, length := thread.length + 1 }
  pure (st.forget ⟨p, poolSize index⟩ env.junk)

/-! ### Any size -/

/-- `pool_alloc_size`. -/
def poolAllocSize (size : Nat) (env : Env) (st : Pool) : Except PoolFault (Ptr × Pool) := do
  let (p, st) ← poolPages size env st
  pure (p, st.forget ⟨p, size⟩ env.junk)

def ponyintPoolAllocSize (size : Nat) (env : Env) (st : Pool) : Except PoolFault (Ptr × Pool) :=
  let index := ponyintPoolIndex size
  if index < poolCount then ponyintPoolAlloc index env st
  else poolAllocSize (ponyintPoolAdjustSize size) env st

/-- `pool_free_size`. -/
def poolFreeSize (size : Nat) (p : Ptr) (env : Env) (st : Pool) : Except PoolFault Pool := do
  let blocks ← poolFreePages p size st.blocks
  pure ({ st with blocks := blocks }.forget ⟨p, size⟩ env.junk)

def ponyintPoolFreeSize (size : Nat) (p : Ptr) (env : Env) (st : Pool) : Except PoolFault Pool :=
  let index := ponyintPoolIndex size
  if index < poolCount then ponyintPoolFree index p env st
  else poolFreeSize (ponyintPoolAdjustSize size) p env st

def ponyintPoolReallocSize (oldSize newSize : Nat) (p : Ptr) (env : Env) (st : Pool) :
    Except PoolFault (Ptr × Pool) := do
  -- Can only reuse the old pointer if the old index/adjusted size is equal to the new one, not
  -- greater.
  if p = NULL then
    return ← ponyintPoolAllocSize newSize env st
  let oldIndex := ponyintPoolIndex oldSize
  let newIndex := ponyintPoolIndex newSize
  let mut oldAdjSize := 0
  let mut newP := NULL
  let mut st := st
  if newIndex < poolCount then
    if oldIndex = newIndex then
      return (p, st)
    (newP, st) ← ponyintPoolAlloc newIndex env st
  else
    let newAdjSize := ponyintPoolAdjustSize newSize
    if oldIndex ≥ poolCount then
      oldAdjSize := ponyintPoolAdjustSize oldSize
      if oldAdjSize = newAdjSize then
        return (p, st)
    (newP, st) ← poolAllocSize newAdjSize env st
  st := st.copy newP p (if oldSize < newSize then oldSize else newSize)
  if oldIndex < poolCount then
    st ← ponyintPoolFree oldIndex p env st
  else
    st ← poolFreeSize oldAdjSize p env st
  return (newP, st)

end SpacePony.Mem
