import SpacePony.Support.Records

/-!
# Compiler — pointers of compile-time evaluation

`CtfeValuePointer` is a pointer into an array of bytes with a number of elements left from it.  The
elements of one type all take `get_size_of_type` bytes.

* `alloc` … `copyTo`: the methods.  They end in the exception of `CtfeValueException`, in an access
  outside an array or to a tuple that is deleted (`Stop.fault`), or in an assertion (`Stop.abort`).
* `step`, `run`: chains of methods, which may go on after an exception.
-/

namespace SpacePony.CtfePointer

open Records

/-! ### Values in memory -/

/-- A `CtfeValue`, as far as an array tells values apart. -/
inductive Value where
  /-- `CtfeValue()` -/
  | empty
  /-- A machine word, with the bytes it is written as. -/
  | word (bytes : List UInt8)
  /-- A `CtfeValueStruct`. -/
  | object (id : Nat)
  /-- A `CtfeValueTuple`: which values it has, and in memory the address `m_vars` of them. -/
  | tuple (vars : Nat)
  /-- A primitive that is no machine word, or a pointer. -/
  | other (id : Nat)
  deriving DecidableEq

/-- A byte of memory: a number, or the `k`-th byte of the pointer to an object or of a
`CtfeValue`. -/
inductive Byte where
  | raw (b : UInt8)
  | part (v : Value) (k : Nat)
  deriving DecidableEq

def zeros (n : Nat) : List Byte := List.replicate n (.raw 0)

def parts (v : Value) (n : Nat) : List Byte := (List.range n).map (.part v)

/-- How `read_from_array` and `write_to_array` treat the elements: as machine words of some bytes,
as pointers to objects (the classes, structs and interfaces), or as whole `CtfeValue`s. -/
inductive Rep where
  | word (width : Nat)
  | reference
  | boxed
  deriving DecidableEq

/-- The bytes that an element is read from. -/
def Rep.width (size : Nat) : Rep → Nat
  | .word w => w
  | .reference => 8
  | .boxed => size

/-- `m_elem_pointer_type`, of which `get_size_of_type` gives the size.  A `Bool` or an integer is as
long as its word; an `F32` or `F64` is a primitive there and gets the room of a `CtfeValue`. -/
structure ElemType where
  size : Nat
  rep : Rep
  width_pos : 0 < rep.width size
  width_le : rep.width size ≤ size

def ElemType.width (e : ElemType) : Nat := e.rep.width e.size

/-- The values that the type checker lets an array of the type hold.  Every value may have an
interface, and a `Pointer` is a struct. -/
def ElemType.Typed (e : ElemType) (v : Value) : Prop :=
  match e.rep with
  | .word w => ∃ bs : List UInt8, v = .word bs ∧ bs.length = w
  | _ => True

/-- The element that an array is made of. -/
def ElemType.zero (e : ElemType) : Value :=
  match e.rep with
  | .word w => .word (List.replicate w 0)
  | _ => .empty

/-- How a method ends without a result. -/
inductive Stop where
  /-- `CtfeValueException` -/
  | exception
  /-- An access outside the arrays, or to the values of a tuple that is deleted. -/
  | fault
  /-- An assertion, or a value of another alternative of `m_val`. -/
  | abort
  deriving DecidableEq

/-- `CtfeValue::write_to_memory` -/
def Value.writeToMemory : Value → Except Stop (List Byte)
  | .word bs => .ok (bs.map .raw)
  | .object id => .ok (parts (.object id) 8)
  | .empty | .tuple _ | .other _ => .error .abort

/-- The bytes of a `CtfeValue`. -/
def Value.copied (size : Nat) : Value → List Byte
  | .empty => zeros size
  | v => parts v size

/-- The number of a byte. -/
def Byte.raw? : Byte → Option UInt8
  | .raw b => some b
  | .part _ _ => none

/-- The value that bytes are the bytes of.  A pointer to no object cannot be followed. -/
def decodeParts (bs : List Byte) : Except Stop Value :=
  if bs = zeros bs.length then .ok .empty
  else match bs.head? with
    | some (.part v 0) => if bs = parts v bs.length then .ok v else .error .fault
    | _ => .error .fault

/-- `CtfeValue::read_from_memory`, or the `CtfeValue` itself. -/
def decode (e : ElemType) (bs : List Byte) : Except Stop Value :=
  match e.rep with
  | .word _ => match bs.mapM Byte.raw? with
    | some ns => .ok (.word ns)
    | none => .error .fault
  | _ => decodeParts bs

/-! ### Pointers -/

/-- `m_array`, as an array and an offset in bytes, and `m_size`. -/
structure Pointer where
  array : Option Nat
  offset : Nat
  size : UInt64
  deriving DecidableEq

/-- The arrays. -/
abbrev Memory := List (List Byte)

/-- The `n` bytes at an address. -/
def load (m : Memory) (array : Option Nat) (addr n : Nat) : Except Stop (List Byte) :=
  if n = 0 then .ok []
  else match array.bind (m[·]?) with
    | some bs => if addr + n ≤ bs.length then .ok (slice bs addr n) else .error .fault
    | none => .error .fault

def store (m : Memory) (array : Option Nat) (addr : Nat) (new : List Byte) : Except Stop Memory :=
  if new = [] then .ok m
  else match array with
    | some k => match m[k]? with
      | some bs => if addr + new.length ≤ bs.length then .ok (m.set k (splice bs addr new))
        else .error .fault
      | none => .error .fault
    | none => .error .fault

variable (e : ElemType)

/-- A number of elements in bytes, of type `size_t`. -/
def ElemType.bytes (n : UInt64) : Nat := (n * UInt64.ofNat e.size).toNat

def readFromArray (m : Memory) (p : Pointer) (pos : Nat) : Except Stop Value := do
  decode e (← load m p.array (p.offset + pos) e.width)

def writeToArray (m : Memory) (p : Pointer) (pos : Nat) (v : Value) : Except Stop Memory :=
  match e.rep with
  | .boxed => store m p.array (p.offset + pos) (v.copied e.size)
  | _ => do store m p.array (p.offset + pos) (← v.writeToMemory)

/-! ### Tuples -/

/-- The values of the tuples in memory, by the address of them; none once they are deleted. -/
abbrev Tuples := List (Option Nat)

/-- The copy of a value that is written to memory: a tuple gets new room for its values. -/
def Value.copyIn (t : Tuples) : Value → Value × Tuples
  | .tuple vars => (.tuple t.length, t ++ [some vars])
  | v => (v, t)

/-- The copy of a value in memory: the values of a tuple are read. -/
def Value.copyOut (t : Tuples) : Value → Except Stop Value
  | .tuple n => match t[n]? with
    | some (some vars) => .ok (.tuple vars)
    | _ => .error .fault
  | v => .ok v

/-- `~CtfeValueTuple`, for a value that is written over. -/
def Value.delete (t : Tuples) : Value → Except Stop Tuples
  | .tuple n => match t[n]? with
    | some (some _) => .ok (t.set n none)
    | _ => .error .fault
  | _ => .ok t

/-! ### Methods -/

/-- `alloc`, the constructor from a size. -/
def alloc (m : Memory) (size : UInt64) : Pointer × Memory :=
  if size = 0 then (⟨none, 0, 0⟩, m)
  else (⟨some m.length, 0, size⟩, m ++ [zeros (e.bytes size)])

def realloc (m : Memory) (p : Pointer) (size copyLen : UInt64) : Except Stop (Pointer × Memory) :=
  if copyLen > p.size then .error .exception
  else if size > p.size then do
    let (newP, m) := alloc e m size
    let bs ← load m p.array p.offset (e.bytes copyLen)
    let m ← store m newP.array newP.offset bs
    -- `fill` from beyond the end does not stop there
    if e.bytes size < e.bytes copyLen then .error .fault
    else do
      let m ← store m newP.array (newP.offset + e.bytes copyLen)
        (zeros (e.bytes size - e.bytes copyLen))
      pure (newP, m)
  else pure (p, m)

def apply (m : Memory) (t : Tuples) (p : Pointer) (i : UInt64) : Except Stop Value :=
  if i < p.size then do (← readFromArray e m p (e.bytes i)).copyOut t else .error .exception

def update (m : Memory) (t : Tuples) (p : Pointer) (i : UInt64) (v : Value) :
    Except Stop (Value × Memory × Tuples) :=
  if i < p.size then do
    let old ← readFromArray e m p (e.bytes i)
    let ret ← old.copyOut t
    let (new, t) := v.copyIn t
    let m ← writeToArray e m p (e.bytes i) new
    let t ← old.delete t
    pure (ret, m, t)
  else .error .exception

/-- The size of the new pointer takes away bytes, not elements. -/
def pointerAtIndex (p : Pointer) (i : UInt64) : Except Stop Pointer :=
  if i < p.size then
    .ok ⟨p.array, p.offset + e.bytes i, p.size - i * UInt64.ofNat e.size⟩
  else .error .exception

/-- The bytes are copied: a tuple and its copy have the same values. -/
def copyTo (m : Memory) (p that : Pointer) (len : UInt64) : Except Stop (Pointer × Memory) :=
  if len > p.size ∨ len > that.size then .error .exception
  else do
    let bs ← load m p.array p.offset (e.bytes len)
    let m ← store m that.array that.offset bs
    pure (p, m)

/-! ### Chains of methods -/

/-- A method, called on the pointers that earlier methods gave. -/
inductive Op where
  | alloc (n : UInt64)
  | pointerAtIndex (p : Nat) (i : UInt64)
  | apply (p : Nat) (i : UInt64)
  | update (p : Nat) (i : UInt64) (v : {v : Value // e.Typed v})
  | copyTo (p that : Nat) (len : UInt64)
  | realloc (p : Nat) (size copyLen : UInt64)

/-- What a method gives: a pointer, added to those at hand, a value or an exception. -/
inductive Result where
  | pointer
  | value (v : Value)
  | exception
  deriving DecidableEq

structure State where
  memory : Memory := []
  pointers : List Pointer := []
  tuples : Tuples := []
  deriving DecidableEq

/-- `run_method` -/
def runMethod (s : State) : Op e → Except Stop (Result × State)
  | .alloc n =>
    let (p, m) := alloc e s.memory n
    .ok (.pointer, ⟨m, s.pointers ++ [p], s.tuples⟩)
  | .pointerAtIndex p i => match s.pointers[p]? with
    | some p => do
      let q ← pointerAtIndex e p i
      pure (.pointer, { s with pointers := s.pointers ++ [q] })
    | none => .error .exception
  | .apply p i => match s.pointers[p]? with
    | some p => do pure (.value (← apply e s.memory s.tuples p i), s)
    | none => .error .exception
  | .update p i v => match s.pointers[p]? with
    | some p => do
      let (ret, m, t) ← update e s.memory s.tuples p i v
      pure (.value ret, ⟨m, s.pointers, t⟩)
    | none => .error .exception
  | .copyTo p that len => match s.pointers[p]?, s.pointers[that]? with
    | some p, some that => do
      let (q, m) ← copyTo e s.memory p that len
      pure (.pointer, ⟨m, s.pointers ++ [q], s.tuples⟩)
    | _, _ => .error .exception
  | .realloc p size copyLen => match s.pointers[p]? with
    | some p => do
      let (q, m) ← realloc e s.memory p size copyLen
      pure (.pointer, ⟨m, s.pointers ++ [q], s.tuples⟩)
    | none => .error .exception

/-- An exception leaves the pointers and the arrays as they were. -/
def step (s : State) (op : Op e) : Except Stop (Result × State) :=
  match runMethod e s op with
  | .error .exception => .ok (.exception, s)
  | r => r

def run (s : State) : List (Op e) → Except Stop (List Result × State)
  | [] => .ok ([], s)
  | op :: ops => do
    let (r, s) ← step e s op
    let (rs, s) ← run s ops
    pure (r :: rs, s)

/-! ### Bounded views of arrays -/

/-- The `len` elements of an array from `start` on. -/
structure View where
  array : Option Nat
  start : Nat
  len : Nat
  deriving DecidableEq

/-- Lists of values, and views of them. -/
structure Views where
  arrays : List (List Value) := []
  views : List View := []
  deriving DecidableEq

namespace Views

variable (a : Views)

/-- The elements in view. -/
def elems (v : View) : List Value :=
  match v.array.bind (a.arrays[·]?) with
  | some xs => slice xs v.start v.len
  | none => []

/-- The arrays with values written over a view, from its `i`-th element on. -/
def put (v : View) (i : Nat) (ys : List Value) : List (List Value) :=
  match v.array with
  | some k => a.arrays.modify k (splice · (v.start + i) ys)
  | none => a.arrays

end Views

/-- The view from the `i`-th element on. -/
def View.drop (v : View) (i : Nat) : View := ⟨v.array, v.start + i, v.len - i⟩

/-- A new view, of a new array unless it is empty. -/
def Views.fresh (a : Views) (xs : List Value) : Views :=
  if xs = [] then { a with views := a.views ++ [⟨none, 0, 0⟩] }
  else ⟨a.arrays ++ [xs], a.views ++ [⟨some a.arrays.length, 0, xs.length⟩]⟩

/-- What each method is there for.  `realloc` keeps some of the elements and zeroes the rest, in a
new array where there are to be more of them. -/
def specStep (a : Views) : Op e → Result × Views
  | .alloc n => (.pointer, a.fresh (List.replicate n.toNat e.zero))
  | .pointerAtIndex p i => match a.views[p]? with
    | some v =>
      if i.toNat < v.len then (.pointer, { a with views := a.views ++ [v.drop i.toNat] })
      else (.exception, a)
    | none => (.exception, a)
  | .apply p i => match a.views[p]? with
    | some v => match (a.elems v)[i.toNat]? with
      | some x => (.value x, a)
      | none => (.exception, a)
    | none => (.exception, a)
  | .update p i x => match a.views[p]? with
    | some v => match (a.elems v)[i.toNat]? with
      | some old => (.value old, { a with arrays := a.put v i.toNat [x.val] })
      | none => (.exception, a)
    | none => (.exception, a)
  | .copyTo p that len => match a.views[p]?, a.views[that]? with
    | some v, some w =>
      if len.toNat ≤ v.len ∧ len.toNat ≤ w.len then
        (.pointer, ⟨a.put w 0 ((a.elems v).take len.toNat), a.views ++ [v]⟩)
      else (.exception, a)
    | _, _ => (.exception, a)
  | .realloc p size copyLen => match a.views[p]? with
    | some v =>
      if copyLen.toNat ≤ v.len then
        if v.len < size.toNat then
          (.pointer, a.fresh ((a.elems v).take copyLen.toNat ++
            List.replicate (size.toNat - copyLen.toNat) e.zero))
        else (.pointer, ⟨a.put v copyLen.toNat
          (List.replicate (v.len - copyLen.toNat) e.zero), a.views ++ [v]⟩)
      else (.exception, a)
    | none => (.exception, a)

def specRun (a : Views) : List (Op e) → List Result × Views
  | [] => ([], a)
  | op :: ops =>
    let r := specStep e a op
    let rs := specRun r.2 ops
    (r.1 :: rs.1, rs.2)

end SpacePony.CtfePointer
