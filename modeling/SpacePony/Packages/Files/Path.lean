import Mathlib.Algebra.Order.Ring.Int
import Mathlib.Data.List.Basic

/-!
# Packages — files — Path

The operations of `path.pony` on the names of paths, on a POSIX platform: a separator is `/`, and
there are no volumes.

* `rel`, with at most `n` rounds of each of its loops.
* `split`, `base`, `dir`, `ext`.

A string is the list of its bytes.  Its size is less than what an `ISize` holds, as that of every
string in memory.
-/

namespace SpacePony.Files

/-- A string: its bytes. -/
abbrev Bytes := List UInt8

/-- `'/'`. -/
abbrev slash : UInt8 := 0x2F

/-- `'.'`. -/
abbrev dot : UInt8 := 0x2E

/-! ### Strings -/

/-- `offset_to_index`; `none` is an index that wraps and is beyond every string. -/
def offsetToIndex (s : Bytes) (i : ℤ) : Option ℕ :=
  if i < 0 then (if 0 ≤ i + s.length then some (i + s.length).toNat else none) else some i.toNat

/-- The loop of `find`. -/
def findFrom (c : UInt8) : Bytes → ℕ → Option ℕ
  | [], _ => none
  | x :: s, i => if x = c then some i else findFrom c s (i + 1)

/-- `find`, for a separator. -/
def find (s : Bytes) (c : UInt8) (offset : ℕ) : Option ℕ := findFrom c (s.drop offset) offset

/-- The loop of `rfind`. -/
def rfindFrom (s : Bytes) (c : UInt8) : ℕ → Option ℕ
  | 0 => if s[0]? = some c then some 0 else none
  | i + 1 => if s[i + 1]? = some c then some (i + 1) else rfindFrom s c i

/-- `rfind`, for a separator. -/
def rfind (s : Bytes) (c : UInt8) (offset : ℤ := -1) : Option ℕ :=
  match offsetToIndex s offset with
  | some i => if i < s.length then rfindFrom s c i else none
  | none => none

/-- The loop of `compare_sub`. -/
def compareLoop : ℕ → Bytes → Bytes → Ordering
  | 0, _, _ | _, [], [] => .eq
  | _ + 1, [], _ :: _ => .lt
  | _ + 1, _ :: _, [] => .gt
  | n + 1, a :: s, b :: that =>
    if a = b then compareLoop n s that else if a > b then .gt else .lt

/-- `compare_sub`, from the beginning of `that`. -/
def compareSub (s that : Bytes) (n : ℕ) (offset : ℕ := 0) : Ordering :=
  compareLoop n (s.drop offset) that

/-- `delete`; no length is `-1`, the largest. -/
def delete (s : Bytes) (offset : ℤ) (len : Option ℕ) : Bytes :=
  match offsetToIndex s offset with
  | some i => if i < s.length then s.take i ++ (len.map fun n => s.drop (i + n)).getD [] else s
  | none => s

/-- `trim`. -/
def trim (s : Bytes) (start : ℕ) (stop : Option ℕ := none) : Bytes :=
  ((stop.map s.take).getD s).drop start

/-! ### Paths -/

/-- `is_sep`. -/
def isSep (c : UInt8) : Bool := c = slash

/-- `sep`. -/
def sep : Bytes := [slash]

/-- `is_abs`. -/
def isAbs (path : Bytes) : Bool :=
  match path with
  | c :: _ => isSep c
  | [] => false

/-- `type _PathState`. -/
inductive PathState where
  | sep
  | dot
  | dot2
  | other
deriving DecidableEq

/-- The variables of the loop of `clean`. -/
structure Cleaning where
  s : Bytes
  state : PathState
  backtrack : ℤ
deriving DecidableEq

/-- The position behind a separator that is at the offset or before it, or the beginning. -/
def lastStart (s : Bytes) (offset : ℤ) : ℕ := ((rfind s slash offset).map (· + 1)).getD 0

/-- The round of a separator. -/
def Cleaning.separator (m : Cleaning) : Cleaning :=
  match m.state with
  | .dot2 =>
    if m.backtrack = -1 then { m with s := m.s ++ [dot, dot] ++ sep, state := .sep }
    else
      let s := delete m.s m.backtrack none
      let backtrack := lastStart s (m.backtrack - 2)
      if s.length = 0 ∨ compareSub s [dot, dot, slash] 3 backtrack = .eq then ⟨s, .sep, -1⟩
      else ⟨s, .sep, backtrack⟩
  | .other => { m with s := m.s ++ sep, state := .sep }
  | .sep | .dot => { m with state := .sep }

/-- The round of a dot. -/
def Cleaning.dot (m : Cleaning) : Cleaning :=
  match m.state with
  | .sep => { m with state := .dot }
  | .dot => { m with state := .dot2 }
  | .dot2 => ⟨m.s ++ [Files.dot, Files.dot, Files.dot], .other, m.s.length⟩
  | .other => { m with s := m.s ++ [Files.dot] }

/-- The round of another byte. -/
def Cleaning.other (m : Cleaning) (c : UInt8) : Cleaning :=
  match m.state with
  | .sep => ⟨m.s ++ [c], .other, m.s.length⟩
  | .dot => ⟨m.s ++ [Files.dot] ++ [c], .other, m.s.length⟩
  | .dot2 => ⟨m.s ++ [Files.dot, Files.dot] ++ [c], .other, m.s.length⟩
  | .other => { m with s := m.s ++ [c] }

/-- A round of the loop. -/
def Cleaning.step (m : Cleaning) (c : UInt8) : Cleaning :=
  if isSep c then m.separator else if c = Files.dot then m.dot else m.other c

/-- The dots that the path ends with. -/
def Cleaning.lastDots (m : Cleaning) : Bytes :=
  match m.state with
  | .dot2 => if m.backtrack = -1 then m.s ++ [Files.dot, Files.dot] else delete m.s m.backtrack none
  | .sep | .dot | .other => m.s

/-- Without the separator at the end, and `.` for an empty string. -/
def tidy (s : Bytes) : Bytes :=
  let s :=
    match s[s.length - 1]? with
    | some c => if isSep c ∧ s.length > 1 then delete s (-1) (some sep.length) else s
    | none => s
  if s.length > 0 then s else [Files.dot]

/-- What follows the loop. -/
def Cleaning.finish (m : Cleaning) : Bytes := tidy m.lastDots

/-- `clean`. -/
def clean (path : Bytes) : Bytes :=
  match path with
  | [] => Cleaning.finish ⟨[], .other, -1⟩
  | c :: rest =>
    if isSep c then (rest.foldl Cleaning.step ⟨sep, .sep, -1⟩).finish
    else if c = dot then (rest.foldl Cleaning.step ⟨[], .dot, -1⟩).finish
    else (path.foldl Cleaning.step ⟨[], .other, 0⟩).finish

/-- `join`. -/
def join (path nextPath : Bytes) : Bytes :=
  if path.length = 0 then clean nextPath
  else if nextPath.length = 0 then clean path
  else if isAbs nextPath then clean nextPath
  else
    match path[path.length - 1]? with
    | some c =>
      if isSep c then
        match nextPath[0]? with
        | some c' =>
          if isSep c' then clean (path ++ trim nextPath 1) else clean (path ++ nextPath)
        | none => clean (path ++ sep ++ nextPath)
      else clean (path ++ sep ++ nextPath)
    | none => clean (path ++ sep ++ nextPath)

/-- The position of a separator, or the size. -/
def findOrSize (s : Bytes) (offset : ℕ) : ℕ := (find s slash offset).getD s.length

/-- The variables of the loop of `rel`. -/
structure Relating where
  toI : ℕ
  to0 : ℕ
  targetI : ℕ
  target0 : ℕ
deriving DecidableEq

/-- The loop of `rel` over the beginning that the paths share; `none` is out of rounds. -/
def relLoop (toClean targetClean : Bytes) : ℕ → Relating → Option Relating
  | 0, _ => none
  | n + 1, r =>
    let toI := findOrSize toClean r.toI
    let targetI := findOrSize targetClean r.targetI
    if toI ≠ targetI ∨ compareSub toClean targetClean targetI ≠ .eq then
      some { r with toI := toI, targetI := targetI }
    else
      let toI := if toI < toClean.length then toI + 1 else toI
      let targetI := if targetI < targetClean.length then targetI + 1 else targetI
      relLoop toClean targetClean n ⟨toI, toI, targetI, targetI⟩

/-- The loop of `rel` over the separators that are left; `none` is out of rounds. -/
def upLoop (toClean : Bytes) : ℕ → ℕ → Bytes → Option Bytes
  | 0, _, _ => none
  | n + 1, toI, result =>
    match find toClean slash toI with
    | some i => upLoop toClean n (i + 1) (result ++ [dot, dot] ++ sep)
    | none => some result

/-- `rel`, with at most `n` rounds of each loop.  `none` is out of rounds, and then `none` is an
error. -/
def rel (n : ℕ) (to' target : Bytes) : Option (Option Bytes) :=
  let toClean := clean to'
  let targetClean := clean target
  if toClean = targetClean then some (some [dot])
  else do
    let r ← relLoop toClean targetClean n ⟨0, 0, 0, 0⟩
    if r.toI - r.to0 = 2 ∧ compareSub toClean [dot, dot] 2 r.to0 = .eq then some none
    else if r.to0 ≠ toClean.length then
      let result ← upLoop toClean n r.toI []
      some (some (result ++ [dot, dot] ++ sep ++ trim targetClean r.target0))
    else some (some (trim targetClean r.target0))

/-- `split`, at the separator of the platform. -/
def split (path : Bytes) (separator : UInt8 := slash) : Bytes × Bytes :=
  match rfind path separator with
  | some i => (clean (trim path 0 (some i)), trim path (i + 1))
  | none => ([], path)

/-- `ext`. -/
def ext (path : Bytes) : Bytes :=
  match rfind path dot with
  | some i =>
    let j := (rfind path slash).getD i
    if i ≥ j then trim path (i + 1) else []
  | none => []

/-- `base`. -/
def base (path : Bytes) (withExt : Bool := true) : Bytes :=
  let b :=
    match rfind path slash with
    | some i => trim path (i + 1)
    | none => path
  if withExt then b
  else
    let eSize := (ext b).length
    if eSize > 0 then trim b 0 (some (b.length - eSize - 1)) else b

/-- `dir`. -/
def dir (path : Bytes) : Bytes :=
  match rfind path slash with
  | some i => clean (trim path 0 (some i))
  | none => path

end SpacePony.Files
