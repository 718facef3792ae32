import Mathlib.Data.Nat.Log
import SpacePony.Support.Bitmap
import SpacePony.Support.RobinHood

/-!
# Runtime — the hash map's table

`ds/hash.c`: a linear probing Robin Hood hash map with backward shift deletion.  Which buckets
are in use is kept in a bitmap beside the buckets.

The C calls itself in a circle: a put may resize, and a resize puts every entry in the new
table.  Here `shiftPut` takes the resize it may do as an argument.  The puts of a `resize` are
given none (`noResize`), so that a resize inside a resize is `none`, and so is a failed
`pony_assert` and a loop that does not end in as many rounds as there are buckets.

An index that a caller has not got from a `get` is `HASHMAP_UNKNOWN`; here indices the caller
holds are `Option Nat`, with `none` for that.  `HASHMAP_BEGIN` is `(size_t)-1`, so that the scan
of `next` starts at bucket `0`; here the scan is given the bucket to start at.
-/

namespace SpacePony.Hash

variable {α : Type}

/-- `MIN_HASHMAP_SIZE`. -/
def minHashmapSize : Nat := 8

/-- `hashmap_entry_t`. -/
structure Entry (α : Type) where
  ptr : Option α
  hash : Nat

/-- `hashmap_t`. -/
structure Hashmap (α : Type) where
  count : Nat
  size : Nat
  itemBitmap : Bitmap.Words
  buckets : List (Entry α)

/-- The bucket at `i`. -/
def Hashmap.bucket (m : Hashmap α) (i : Nat) : Entry α := m.buckets.getD i ⟨none, 0⟩

/-- The bitmap says that bucket `i` is in use. -/
def Hashmap.inUse (m : Hashmap α) (i : Nat) : Bool := Bitmap.mem m.itemBitmap i

/-- Writing a bucket. -/
def Hashmap.setBucket (m : Hashmap α) (i : Nat) (e : Entry α) : Hashmap α :=
  { m with buckets := m.buckets.set i e }

/-- The words a bitmap of `size` bits takes. -/
def bitmapSize (size : Nat) : Nat := (size >>> 6) + if size &&& 63 = 0 then 0 else 1

/-- A table of `size` buckets, none in use. -/
def allocTable (size : Nat) : Hashmap α :=
  ⟨0, size, List.replicate (bitmapSize size) 0#64, List.replicate size ⟨none, 0⟩⟩

/-- `ponyint_next_pow2`: the least power of two that is not smaller. -/
def nextPow2 (i : Nat) : Nat := 2 ^ Nat.clog 2 i

/-- `ponyint_hashmap_init`. -/
def init (size : Nat) : Hashmap α :=
  let size := size <<< 1
  allocTable (if size < minHashmapSize then minHashmapSize else nextPow2 size)

/-- `get_probe_length`. -/
def getProbeLength (m : Hashmap α) (hash current mask : Nat) : Nat :=
  (current + m.size - (hash &&& mask)) &&& mask

/-- What `search` returns and writes through its out parameters. -/
structure Search (α : Type) where
  elem : Option α
  pos : Nat
  probeLength : Nat
  oiProbeLength : Nat

/-- `cmp(key, elem)` on a bucket's pointer. -/
def cmpPtr (cmp : α → α → Bool) (key : α) : Option α → Bool
  | some e => cmp key e
  | none => false

/-- The loop of `search`, with the rounds it has left. -/
def searchLoop (cmp : α → α → Bool) (m : Hashmap α) (key : α) (hash mask : Nat) :
    Nat → Nat → Nat → Nat → Search α
  | 0, _, p, oi => ⟨none, m.size, p, oi⟩
  | rounds + 1, index, p, oi =>
    if m.inUse index = false then ⟨none, index, p, oi⟩
    else
      let b := m.bucket index
      let oiP := getProbeLength m b.hash index mask
      if p > oiP then ⟨none, index, p, oiP⟩
      else if hash = b.hash ∧ cmpPtr cmp key b.ptr = true then ⟨b.ptr, index, p, oi⟩
      else searchLoop cmp m key hash mask rounds ((index + 1) &&& mask) (p + 1) oi

/-- `search`, from a probe length. -/
def search (cmp : α → α → Bool) (m : Hashmap α) (key : α) (hash p oi : Nat) : Search α :=
  let mask := m.size - 1
  searchLoop cmp m key hash mask (mask + 1) (((hash &&& mask) + p) &&& mask) p oi

/-- `ponyint_hashmap_get`, with the index it leaves behind `pos`. -/
def get (cmp : α → α → Bool) (m : Hashmap α) (key : α) (hash : Nat) (pos : Option Nat) :
    Option α × Option Nat :=
  if m.count = 0 then (none, pos)
  else
    let r := search cmp m key hash 0 0
    (r.elem, some r.pos)

/-- One more bucket in use, and a resize past half full. -/
def countUp (resize : Hashmap α → Option (Hashmap α)) (m : Hashmap α) (pos : Nat) :
    Option (Hashmap α) :=
  let m := { m with count := m.count + 1, itemBitmap := Bitmap.insert m.itemBitmap pos }
  if m.count <<< 1 > m.size then resize m else some m

/-- The loop of `shift_put`. -/
def shiftPutLoop (cmp : α → α → Bool) (resize : Hashmap α → Option (Hashmap α)) :
    Nat → Hashmap α → α → Nat → Nat → Nat → Option α → Option (Hashmap α)
  | 0, _, _, _, _, _, _ => none
  | rounds + 1, m, ci, ciHash, pos, oi, elem =>
    if ¬ pos < m.size then none
    else if elem.isNone = true ∧ m.inUse pos = true then
      -- swap with the element there, and find the next place for that
      let old := m.bucket pos
      let m := m.setBucket pos ⟨some ci, ciHash⟩
      match old.ptr with
      | none => none
      | some oiEntry =>
        let r := search cmp m oiEntry old.hash oi oi
        shiftPutLoop cmp resize rounds m oiEntry old.hash r.pos r.oiProbeLength r.elem
    else
      let m := m.setBucket pos ⟨some ci, ciHash⟩
      if elem.isNone = true then countUp resize m pos else some m

/-- `shift_put`. -/
def shiftPut (cmp : α → α → Bool) (resize : Hashmap α → Option (Hashmap α)) (m : Hashmap α)
    (entry : α) (hash index pl oiPl : Nat) (elem : Option α) : Option (Hashmap α) :=
  if pl > oiPl ∨ (pl = oiPl ∧ pl = 0) then
    shiftPutLoop cmp resize (m.size + 1) m entry hash index oiPl elem
  else none

/-- `ponyint_hashmap_put` with a resize to use, and what it returns. -/
def putWith (cmp : α → α → Bool) (resize : Hashmap α → Option (Hashmap α)) (m : Hashmap α)
    (entry : α) (hash : Nat) : Option (Hashmap α × Option α) :=
  let m := if m.size = 0 then init 4 else m
  let r := search cmp m entry hash 0 0
  (shiftPut cmp resize m entry hash r.pos r.probeLength r.oiProbeLength r.elem).map (·, r.elem)

/-- `__pony_ffszu`: one more than the first bit set, zero if none is. -/
def ffs (x : BitVec 64) : Nat :=
  match (List.range 64).find? fun i => x.getLsbD i with
  | some i => i + 1
  | none => 0

/-- The loop of `ponyint_hashmap_next`: word by word from bucket `index`. -/
def nextLoop (bitmap : Bitmap.Words) (size : Nat) : Nat → Nat → Option Nat
  | 0, _ => none
  | rounds + 1, index =>
    if index < size then
      let offset := index % 64
      let f := ffs (Bitmap.word bitmap (index / 64) >>> offset)
      if f = 0 then nextLoop bitmap size rounds (index + (64 - offset))
      else some (index + (f - 1))
    else none

/-- `ponyint_hashmap_next`: the first bucket in use at `start` or after. -/
def next (m : Hashmap α) (start : Nat) : Option Nat :=
  if m.count = 0 then none else nextLoop m.itemBitmap m.size (m.size + 1) start

/-- The loop of `resize`: every bucket in use of `old` is put in `m`. -/
def resizeLoop (put : Hashmap α → α → Nat → Option (Hashmap α × Option α)) (old : Hashmap α) :
    Nat → Nat → Hashmap α → Option (Hashmap α)
  | 0, _, _ => none
  | rounds + 1, start, m =>
    match next old start with
    | none => some m
    | some i =>
      match (old.bucket i).ptr with
      | none => none
      | some curr => do
        let r ← put m curr (old.bucket i).hash
        resizeLoop put old rounds (i + 1) r.1

/-- No resize may happen here. -/
def noResize : Hashmap α → Option (Hashmap α) := fun _ => none

/-- `resize`.  Its puts may not resize in their turn. -/
def resize (cmp : α → α → Bool) (m : Hashmap α) : Option (Hashmap α) := do
  let size := if m.size < minHashmapSize then minHashmapSize else m.size <<< 3
  let r ← resizeLoop (putWith cmp noResize) m (m.size + 1) 0 (allocTable size)
  if r.count = m.count then pure r else none

/-- `ponyint_hashmap_put`. -/
def put (cmp : α → α → Bool) (m : Hashmap α) (entry : α) (hash : Nat) :
    Option (Hashmap α × Option α) :=
  putWith cmp (resize cmp) m entry hash

/-- `ponyint_hashmap_putindex`. -/
def putindex (cmp : α → α → Bool) (m : Hashmap α) (entry : α) (hash : Nat) (pos : Option Nat) :
    Option (Hashmap α) :=
  match pos with
  | none => (put cmp m entry hash).map Prod.fst
  | some pos =>
    let m := if m.size = 0 then init 4 else m
    if ¬ pos < m.size then none
    else if m.inUse pos = false then
      countUp (resize cmp) (m.setBucket pos ⟨some entry, hash⟩) pos
    else
      let mask := m.size - 1
      let oi := getProbeLength m (m.bucket pos).hash pos mask
      let ci := getProbeLength m hash pos mask
      if ci > oi then shiftPut cmp (resize cmp) m entry hash pos ci oi none
      else (put cmp m entry hash).map Prod.fst

/-- The loop of `shift_delete`: items move back until one is home, or a bucket is free. -/
def shiftDeleteLoop : Nat → Hashmap α → Nat → Option (Hashmap α × Nat)
  | 0, _, _ => none
  | rounds + 1, m, pos =>
    let mask := m.size - 1
    let nextPos := (pos + 1) &&& mask
    if m.inUse nextPos = true ∧ getProbeLength m (m.bucket nextPos).hash nextPos mask ≠ 0 then
      shiftDeleteLoop rounds (m.setBucket pos (m.bucket nextPos)) nextPos
    else some (m, pos)

/-- `shift_delete`. -/
def shiftDelete (m : Hashmap α) (index : Nat) : Option (Hashmap α) :=
  if ¬ index < m.size then none
  else do
    let (m, pos) ← shiftDeleteLoop m.size m index
    let m := m.setBucket pos { m.bucket pos with ptr := none }
    pure { m with count := m.count - 1, itemBitmap := Bitmap.erase m.itemBitmap pos }

/-- `ponyint_hashmap_remove`, and what it returns. -/
def remove (cmp : α → α → Bool) (m : Hashmap α) (entry : α) (hash : Nat) :
    Option (Hashmap α × Option α) :=
  if m.count = 0 then some (m, none)
  else
    let r := search cmp m entry hash 0 0
    if r.elem.isSome = true then (shiftDelete m r.pos).map (·, r.elem) else some (m, none)

/-- `ponyint_hashmap_removeindex`. -/
def removeindex (m : Hashmap α) (index : Nat) : Option (Hashmap α) :=
  if m.size ≤ index then some m
  else if m.inUse index = true then shiftDelete m index
  else some m

/-- `ponyint_hashmap_clearindex`. -/
def clearindex (m : Hashmap α) (index : Nat) : Hashmap α :=
  if m.size ≤ index then m
  else if m.inUse index = false then m
  else
    { m.setBucket index { m.bucket index with ptr := none } with
      count := m.count - 1, itemBitmap := Bitmap.erase m.itemBitmap index }

/-- The loop of `optimize_item`: from the home of the item at `oldIndex` to the first bucket that
is free, or whose item is nearer to its own home. -/
def optimizeItemLoop (cmp : α → α → Bool) (m : Hashmap α) (oldIndex h : Nat) (entry : α) :
    Nat → Nat → Option (Hashmap α × Nat)
  | 0, _ => some (m, 0)
  | rounds + 1, index =>
    let mask := m.size - 1
    if index = oldIndex then some (m, 0)
    else if m.inUse index = false then
      (putindex cmp (clearindex m oldIndex) entry h (some index)).map (·, 1)
    else if getProbeLength m h index mask > getProbeLength m (m.bucket index).hash index mask then
      (putindex cmp (clearindex m oldIndex) entry h (some index)).map (·, 1)
    else optimizeItemLoop cmp m oldIndex h entry rounds ((index + 1) &&& mask)

/-- `optimize_item`: what it returns counts the items that it has moved. -/
def optimizeItem (cmp : α → α → Bool) (m : Hashmap α) (oldIndex : Nat) : Option (Hashmap α × Nat) :=
  match (m.bucket oldIndex).ptr with
  | none => none
  | some entry =>
    let h := (m.bucket oldIndex).hash
    optimizeItemLoop cmp m oldIndex h entry m.size (h &&& (m.size - 1))

/-- One round of `ponyint_hashmap_optimize`, over every bucket in use. -/
def optimizePass (cmp : α → α → Bool) :
    Nat → Nat → Hashmap α → Nat → Option (Hashmap α × Nat)
  | 0, _, _, _ => none
  | rounds + 1, start, m, count =>
    match next m start with
    | none => some (m, count)
    | some i => do
      let (m, moved) ← optimizeItem cmp m i
      optimizePass cmp rounds (i + 1) m (count + moved)

/-- `ponyint_hashmap_optimize`, with the rounds it has left. -/
def optimize (cmp : α → α → Bool) : Nat → Hashmap α → Option (Hashmap α)
  | 0, _ => none
  | rounds + 1, m => do
    let (m, count) ← optimizePass cmp (m.size + 1) 0 m 0
    if count > 0 then optimize cmp rounds m else some m

end SpacePony.Hash
