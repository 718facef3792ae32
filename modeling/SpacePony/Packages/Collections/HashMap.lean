import SpacePony.Packages.Collections.HashFunction
import SpacePony.Support.Probing

/-!
# Packages — collections — the mutable hash map

`map.pony`: an array of cells with quadratic probing and deleted cells.  Where a sum or a product
can exceed a `USize` it is taken modulo `usize`; the number of entries, which an array bounds, is
not.
-/

namespace SpacePony.Collections

open Probing
open Prod (snd fst)

variable {K V : Type}

/-- The number of values of a `USize`. -/
def usize : Nat := 2 ^ 64

/-- `class HashMap`. -/
structure HashMap (K V : Type) where
  size : Nat
  array : List (Cell (K × V))

/-- `USize.next_pow2`. -/
def nextPow2 (x : Nat) : Nat :=
  let clz := 64 - ((x + (usize - 1)) % usize).size
  1 <<< (if clz = 0 then 0 else 64 - clz)

namespace HashMap

/-- `Array.init`.  An element is a reference, of eight bytes. -/
def init (len : Nat) : Option (List (Cell (K × V))) :=
  if 8 * len < usize then some (List.replicate len .empty) else none

/-- `new create`. -/
def create (prealloc : Nat) : Option (HashMap K V) := do
  let len := (prealloc * 4) % usize / 3
  let n := nextPow2 (max len 8)
  let array ← init n
  some { size := 0, array := array }

/-- The slot that `_search` tries after round `i`. -/
def nextIdx (h mask i : Nat) : Nat :=
  ((h + (i + i * i % usize) % usize / 2) % usize) &&& mask

/-- The loop of `_search`, with `rounds` to go. -/
def searchLoop (H : HashFunction K) (array : List (Cell (K × V))) (key : K) (h mask : Nat) :
    (rounds i idx idxDel : Nat) → Nat × Bool
  | 0, _, _, idxDel => (idxDel, false)
  | rounds + 1, i, idx, idxDel =>
    match array[idx]? with
    | none => (idxDel, false)
    | some (.full e) =>
      if H.eq e.1 key then (idx, true)
      else searchLoop H array key h mask rounds (i + 1) (nextIdx h mask i) idxDel
    | some .empty => if idxDel ≤ mask then (idxDel, false) else (idx, false)
    | some .deleted =>
      searchLoop H array key h mask rounds (i + 1) (nextIdx h mask i)
        (if mask < idxDel then idx else idxDel)

/-- `_search`. -/
def search (H : HashFunction K) (m : HashMap K V) (key : K) : Nat × Bool :=
  let idxDel := m.array.length
  let mask := idxDel - 1
  let h := (H.hash key).toNat
  searchLoop H m.array key h mask m.array.length 0 (h &&& mask) idxDel

/-! ### Reading -/

/-- `index`. -/
def index (m : HashMap K V) (i : Nat) : Option (K × V) := m.array[i]?.bind Cell.elem?

/-- `apply`. -/
def apply (H : HashFunction K) (m : HashMap K V) (key : K) : Option V :=
  let (i, found) := search H m key
  if found then (m.index i).map snd else none

/-- `get_or_else`. -/
def getOrElse (H : HashFunction K) (m : HashMap K V) (key : K) (alt : V) : V :=
  let (i, found) := search H m key
  if found then ((m.index i).map snd).getD alt else alt

/-- `contains`. -/
def contains (H : HashFunction K) (m : HashMap K V) (k : K) : Bool := (search H m k).2

/-- `next_index`. -/
def nextIndex (m : HashMap K V) (prev : Nat) : Option Nat :=
  let start := (prev + 1) % usize
  (List.range' start (m.array.length - start)).find? fun i => (m.index i).isSome

/-- The fields of `MapKeys`, `MapValues` and `MapPairs`. -/
structure MapPairs where
  i : Nat := usize - 1
  count : Nat := 0

/-- `MapPairs.has_next`. -/
def MapPairs.hasNext (it : MapPairs) (m : HashMap K V) : Bool := it.count < m.size

/-- `MapPairs.next`. -/
def MapPairs.next (it : MapPairs) (m : HashMap K V) : Option ((K × V) × MapPairs) := do
  let i ← m.nextIndex it.i
  let e ← m.index i
  some (e, { i := i, count := it.count + 1 })

/-- What a `for` loop sees of an iterator; an error of `next` ends the loop. -/
def MapPairs.run (m : HashMap K V) : Nat → MapPairs → List (K × V)
  | 0, _ => []
  | rounds + 1, it =>
    if it.hasNext m then
      match it.next m with
      | none => []
      | some (e, it) => e :: run m rounds it
    else []

/-- `pairs`: `next` counts up to the size, and so there are no more rounds than that. -/
def pairs (m : HashMap K V) : List (K × V) := MapPairs.run m m.size {}

/-- `keys`. -/
def keys (m : HashMap K V) : List K := m.pairs.map fst

/-- `values`. -/
def values (m : HashMap K V) : List V := m.pairs.map snd

/-! ### Writing -/

section
variable (H : HashFunction K) (resize : HashMap K V → Nat → Option (HashMap K V))

/-- The entry `(key, value)` is written to slot `i`. -/
def write (m : HashMap K V) (i : Nat) (key : K) (value : V) : HashMap K V :=
  { m with array := m.array.set i (.full (key, value)) }

/-- What follows an insertion: one more entry, and more space when there are too many. -/
def grow (m : HashMap K V) : Option (HashMap K V) :=
  let m := { m with size := m.size + 1 }
  if m.array.length * 3 < m.size * 4 then resize m (m.array.length * 2) else some m

/-- `update`, with the old value. -/
def updateWith (m : HashMap K V) (key : K) (value : V) : Option (Option V × HashMap K V) :=
  let (i, _) := search H m key
  match m.array[i]? with
  | none => some (none, m)
  | some (.full (_, v)) => some (some v, m.write i key value)
  | some _ => (grow resize (m.write i key value)).map fun m => (none, m)

/-- `_resize`, with the `update` that it uses. -/
def resizeWith (update : HashMap K V → K → V → Option (Option V × HashMap K V))
    (m : HashMap K V) (len : Nat) : Option (HashMap K V) := do
  let array ← init len
  (elems m.array).foldlM (fun m e => (update m e.1 e.2).map snd) { size := 0, array := array }

end

/-- `_resize`, nested at most `depth` times. -/
def resize (H : HashFunction K) : Nat → HashMap K V → Nat → Option (HashMap K V)
  | 0 => fun _ _ => none
  | depth + 1 => resizeWith (updateWith H (resize H depth))

section
variable (H : HashFunction K) (depth : Nat)

/-- `update`. -/
def update (m : HashMap K V) (key : K) (value : V) : Option (Option V × HashMap K V) :=
  updateWith H (resize H depth) m key value

/-- `upsert`, with the value that the key is set to. -/
def upsert (m : HashMap K V) (key : K) (value : V) (f : V → V → V) :
    Option (V × HashMap K V) :=
  let (i, found) := search H m key
  match found, m.array[i]? with
  | _, none => some (value, m)
  | true, some (.full (pkey, pvalue)) =>
    let newValue := f pvalue value
    some (newValue, m.write i pkey newValue)
  | true, some _ => some (value, { m with array := m.array.set i .empty })
  | false, some _ => (grow (resize H depth) (m.write i key value)).map fun m => (value, m)

/-- `insert`, with the new value. -/
def insert (m : HashMap K V) (key : K) (value : V) : Option (V × HashMap K V) :=
  let (i, found) := search H m key
  match m.array[i]? with
  | none => some (value, m)
  | some _ =>
    let m := m.write i key value
    if found then some (value, m)
    else (grow (resize H depth) m).map fun m => (value, m)

/-- `insert_if_absent`, with the value that is read back. -/
def insertIfAbsent (m : HashMap K V) (key : K) (value : V) : Option (V × HashMap K V) :=
  let (i, found) := search H m key
  match found, m.array[i]? with
  | _, none => some (value, m)
  | true, some _ => some (((m.index i).map snd).getD value, m)
  | false, some _ =>
    -- the slot is read after the map may have been resized
    (grow (resize H depth) (m.write i key value)).map fun m =>
      (((m.index i).map snd).getD value, m)

/-- `remove`, with the entry, or an error. -/
def remove (m : HashMap K V) (key : K) : Option (K × V) × HashMap K V :=
  let (i, found) := search H m key
  if found then
    let m := { m with size := m.size - 1 }
    (m.index i, { m with array := m.array.set i .deleted })
  else (none, m)

/-- `concat`, of what the iterator yields. -/
def concat (m : HashMap K V) (iter : List (K × V)) : Option (HashMap K V) :=
  iter.foldlM (fun m e => (update H depth m e.1 e.2).map snd) m

/-- `compact`. -/
def compact (m : HashMap K V) : Option (HashMap K V) :=
  resize H depth m (max (nextPow2 (m.size * 4 / 3)) 8)

/-- `clone`, with the hash function of the map, which is the default. -/
def clone (m : HashMap K V) : Option (HashMap K V) := do
  let r ← create m.size
  m.pairs.foldlM (fun r e => (update H depth r e.1 e.2).map snd) r

/-- `add`. -/
def add (m : HashMap K V) (key : K) (value : V) : Option (HashMap K V) := do
  let r ← clone H depth m
  (update H depth r key value).map snd

/-- `sub`. -/
def sub (m : HashMap K V) (key : K) : Option (HashMap K V) :=
  (clone H depth m).map fun r => (remove H r key).2

end

/-- `clear`. -/
def clear : Option (HashMap K V) := do
  let array ← init 8
  some { size := 0, array := array }

/-! ### Operations -/

/-- What a caller may do; `create`, `clone`, `add` and `sub` make the map that it goes on with. -/
inductive Op (K V : Type)
  | create (prealloc : Nat)
  | update (key : K) (value : V)
  | upsert (key : K) (value : V) (f : V → V → V)
  | insert (key : K) (value : V)
  | insertIfAbsent (key : K) (value : V)
  | remove (key : K)
  | concat (iter : List (K × V))
  | compact
  | clone
  | add (key : K) (value : V)
  | sub (key : K)
  | clear

/-- What an operation returns, besides a map. -/
inductive Ret (K V : Type)
  | none
  | old (v : Option V)
  | value (v : V)
  | entry (e : Option (K × V))

/-- The operation, and what it returns. -/
def Op.exec (H : HashFunction K) (depth : Nat) (m : HashMap K V) :
    Op K V → Option (Ret K V × HashMap K V)
  | create prealloc => (HashMap.create prealloc).map fun m => (.none, m)
  | update key value => (m.update H depth key value).map fun r => (.old r.1, r.2)
  | upsert key value f => (m.upsert H depth key value f).map fun r => (.value r.1, r.2)
  | insert key value => (m.insert H depth key value).map fun r => (.value r.1, r.2)
  | insertIfAbsent key value =>
    (m.insertIfAbsent H depth key value).map fun r => (.value r.1, r.2)
  | remove key => some (.entry (m.remove H key).1, (m.remove H key).2)
  | concat iter => (m.concat H depth iter).map fun m => (.none, m)
  | compact => (m.compact H depth).map fun m => (.none, m)
  | clone => (m.clone H depth).map fun m => (.none, m)
  | add key value => (m.add H depth key value).map fun m => (.none, m)
  | sub key => (m.sub H depth key).map fun m => (.none, m)
  | clear => HashMap.clear.map fun m => (.none, m)

end HashMap

end SpacePony.Collections
