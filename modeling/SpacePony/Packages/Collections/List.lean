import Mathlib.Data.BitVec
import Mathlib.Logic.Function.Basic

/-!
# Packages — collections — the mutable list

`list_node.pony` and `list.pony`: lists and nodes are objects that refer to each other, and a caller
may hold a reference to any of them.  A reference is an address other than null, as wide as a
`USize`, so that no list has more nodes than its size can count.
-/

namespace SpacePony.Collections

variable {α : Type} {w : Nat}

/-- A reference to an object. -/
abbrev Ref (w : Nat) := {a : BitVec w // a ≠ 0}

/-- `class ListNode`. -/
structure ListNode (α : Type) (w : Nat) where
  item : Option α
  list : Option (Ref w) := none
  prev : Option (Ref w) := none
  next : Option (Ref w) := none

/-- `class List`. -/
structure PonyList (w : Nat) where
  head : Option (Ref w) := none
  tail : Option (Ref w) := none
  size : BitVec w := 0

/-- The objects, and which addresses are theirs. -/
structure Heap (α : Type) (w : Nat) where
  node : Ref w → ListNode α w := fun _ => { item := none }
  list : Ref w → PonyList w := fun _ => {}
  used : Ref w → Bool := fun _ => false

namespace Heap

/-- A write to some fields of the node `n`. -/
def setNode (h : Heap α w) (n : Ref w) (f : ListNode α w → ListNode α w) : Heap α w :=
  { h with node := Function.update h.node n (f (h.node n)) }

/-- A write to some fields of the list `l`. -/
def setList (h : Heap α w) (l : Ref w) (f : PonyList w → PonyList w) : Heap α w :=
  { h with list := Function.update h.list l (f (h.list l)) }

section
variable (h : Heap α w) (n m : Ref w) (f : ListNode α w → ListNode α w)
  (g : PonyList w → PonyList w)

@[simp] theorem node_setNode : (h.setNode n f).node m = if m = n then f (h.node n) else h.node m :=
  Function.update_apply ..

@[simp] theorem list_setNode : (h.setNode n f).list = h.list := rfl

@[simp] theorem used_setNode : (h.setNode n f).used = h.used := rfl

@[simp] theorem list_setList : (h.setList n g).list m = if m = n then g (h.list n) else h.list m :=
  Function.update_apply ..

@[simp] theorem node_setList : (h.setList n g).node = h.node := rfl

@[simp] theorem used_setList : (h.setList n g).used = h.used := rfl

end

end Heap

/-! ### The private methods of lists -/

namespace PonyList

/-- `_increment`. -/
def increment (h : Heap α w) (this : Ref w) : Heap α w :=
  h.setList this fun l => { l with size := l.size + 1 }

/-- `_decrement`. -/
def decrement (h : Heap α w) (this : Ref w) : Heap α w :=
  h.setList this fun l => { l with size := l.size - 1 }

/-- `_set_head`. -/
def setHead (h : Heap α w) (this : Ref w) (head : Option (Ref w)) : Heap α w :=
  h.setList this fun l => { l with head := head }

/-- `_set_tail`. -/
def setTail (h : Heap α w) (this : Ref w) (tail : Option (Ref w)) : Heap α w :=
  h.setList this fun l => { l with tail := tail }

end PonyList

/-! ### Nodes -/

namespace ListNode

/-- `new create`, at the address that was allocated. -/
def create (h : Heap α w) (n : Ref w) (item : Option α) : Heap α w :=
  { h.setNode n fun _ => { item := item } with used := Function.update h.used n true }

/-- `update`: the previous item, or an error. -/
def update (h : Heap α w) (this : Ref w) (value : Option α) : Option α × Heap α w :=
  ((h.node this).item, h.setNode this fun n => { n with item := value })

/-- `pop`: the item, or an error. -/
def pop (h : Heap α w) (this : Ref w) : Option α × Heap α w := update h this none

/-- `remove`, what it does to the links of the neighbours and of the list `list'`. -/
def unlink (h : Heap α w) (this list' : Ref w) : Heap α w :=
  match (h.node this).prev, (h.node this).next with
  | some prev', some next' =>
    -- in the middle of the list
    let h := h.setNode prev' fun n => { n with next := (h.node this).next }
    let h := h.setNode next' fun n => { n with prev := (h.node this).prev }
    let h := h.setNode this fun n => { n with prev := none }
    h.setNode this fun n => { n with next := none }
  | some prev', none =>
    -- the tail
    let h := h.setNode prev' fun n => { n with next := none }
    let h := PonyList.setTail h list' (some prev')
    h.setNode this fun n => { n with prev := none }
  | none, some next' =>
    -- the head
    let h := h.setNode next' fun n => { n with prev := none }
    let h := PonyList.setHead h list' (some next')
    h.setNode this fun n => { n with next := none }
  | none, none =>
    -- the only member
    PonyList.setTail (PonyList.setHead h list' none) list' none

/-- `remove`. -/
def remove (h : Heap α w) (this : Ref w) : Heap α w :=
  match (h.node this).list with
  | none => h
  | some list' =>
    (PonyList.decrement (unlink h this list') list').setNode this fun n => { n with list := none }

/-- `prepend`, once `that` is out of its list. -/
def linkBefore (h : Heap α w) (this that list' : Ref w) : Heap α w :=
  let h := match (h.node this).prev with
    | some prev' => h.setNode prev' fun n => { n with next := some that }
    | none => PonyList.setHead h list' (some that)
  let h := h.setNode that fun n => { n with list := some list' }
  let h := h.setNode that fun n => { n with prev := (h.node this).prev }
  let h := h.setNode that fun n => { n with next := some this }
  let h := h.setNode this fun n => { n with prev := some that }
  PonyList.increment h list'

/-- `prepend`: whether `that` was removed from a list. -/
def prepend (h : Heap α w) (this that : Ref w) : Bool × Heap α w :=
  if (h.node this).prev = some that ∨ this = that then (false, h)
  else match (h.node this).list with
    | none => (false, h)
    | some list' => ((h.node that).list.isSome, linkBefore (remove h that) this that list')

/-- `append`, once `that` is out of its list. -/
def linkAfter (h : Heap α w) (this that list' : Ref w) : Heap α w :=
  let h := match (h.node this).next with
    | some next' => h.setNode next' fun n => { n with prev := some that }
    | none => PonyList.setTail h list' (some that)
  let h := h.setNode that fun n => { n with list := some list' }
  let h := h.setNode that fun n => { n with prev := some this }
  let h := h.setNode that fun n => { n with next := (h.node this).next }
  let h := h.setNode this fun n => { n with next := some that }
  PonyList.increment h list'

/-- `append`: whether `that` was removed from a list. -/
def append (h : Heap α w) (this that : Ref w) : Bool × Heap α w :=
  if (h.node this).next = some that ∨ this = that then (false, h)
  else match (h.node this).list with
    | none => (false, h)
    | some list' => ((h.node that).list.isSome, linkAfter (remove h that) this that list')

/-- `_set_list`. -/
def setList (h : Heap α w) (this list : Ref w) : Heap α w :=
  (remove h this).setNode this fun n => { n with list := some list }

end ListNode

/-! ### Lists -/

namespace PonyList

/-- `new create`, at the address that was allocated. -/
def create (h : Heap α w) (l : Ref w) : Heap α w :=
  { h.setList l fun _ => {} with used := Function.update h.used l true }

/-- The node that is `i` steps after `a`, or an error when a step finds none. -/
def walk (h : Heap α w) : Nat → Option (Ref w) → Option (Ref w)
  | _, none => none
  | 0, some n => some n
  | i + 1, some n => walk h i (h.node n).next

/-- `index`. -/
def index (h : Heap α w) (this : Ref w) (i : BitVec w) : Option (Ref w) :=
  if (h.list this).size ≤ i then none else walk h i.toNat (h.list this).head

/-- `remove`: the removed node, or an error. -/
def remove (h : Heap α w) (this : Ref w) (i : BitVec w) : Option (Ref w) × Heap α w :=
  match index h this i with
  | none => (none, h)
  | some n => (some n, ListNode.remove h n)

/-- `clear`. -/
def clear (h : Heap α w) (this : Ref w) : Heap α w :=
  let h := setHead h this none
  let h := setTail h this none
  h.setList this fun l => { l with size := 0 }

/-- `_set_both`. -/
def setBoth (h : Heap α w) (this node : Ref w) : Heap α w :=
  let h := ListNode.setList h node this
  let h := setHead h this (some node)
  let h := setTail h this (some node)
  h.setList this fun l => { l with size := 1 }

/-- `prepend_node`. -/
def prependNode (h : Heap α w) (this node : Ref w) : Heap α w :=
  match (h.list this).head with
  | some head' => (ListNode.prepend h head' node).2
  | none => setBoth h this node

/-- `append_node`. -/
def appendNode (h : Heap α w) (this node : Ref w) : Heap α w :=
  match (h.list this).tail with
  | some tail' => (ListNode.append h tail' node).2
  | none => setBoth h this node

/-- The loop of `append_list` and `prepend_list`: while `that` has a size, the node that `pick`
finds in it is given to `put`, and an error of `pick` is ignored. -/
def moveLoop (pick : PonyList w → Option (Ref w)) (put : Heap α w → Ref w → Heap α w)
    (that : Ref w) : Nat → Heap α w → Option (Heap α w)
  | 0, _ => none
  | k + 1, h =>
    if 0 < (h.list that).size then
      match pick (h.list that) with
      | some n => moveLoop pick put that k (put h n)
      | none => moveLoop pick put that k h
    else some h

/-- `append_list`. -/
def appendList (k : Nat) (h : Heap α w) (this that : Ref w) : Option (Heap α w) :=
  if this ≠ that then moveLoop head (fun h n => appendNode h this n) that k h else some h

/-- `prepend_list`. -/
def prependList (k : Nat) (h : Heap α w) (this that : Ref w) : Option (Heap α w) :=
  if this ≠ that then moveLoop tail (fun h n => prependNode h this n) that k h else some h

/-- `push`, where the new node is allocated at `n`. -/
def push (h : Heap α w) (this n : Ref w) (a : α) : Heap α w :=
  appendNode (ListNode.create h n (some a)) this n

/-- `unshift`, where the new node is allocated at `n`. -/
def unshift (h : Heap α w) (this n : Ref w) (a : α) : Heap α w :=
  prependNode (ListNode.create h n (some a)) this n

/-- What `pop` and `shift` do with the node they find: they remove it and take its item, or raise
an error. -/
def take (h : Heap α w) : Option (Ref w) → Option α × Heap α w
  | none => (none, h)
  | some n => ListNode.pop (ListNode.remove h n) n

/-- `pop`. -/
def pop (h : Heap α w) (this : Ref w) : Option α × Heap α w := take h (h.list this).tail

/-- `shift`. -/
def shift (h : Heap α w) (this : Ref w) : Option α × Heap α w := take h (h.list this).head

/-- `truncate`: an error of `pop` ends the loop. -/
def truncate (len : BitVec w) (this : Ref w) : Nat → Heap α w → Option (Heap α w)
  | 0, _ => none
  | k + 1, h =>
    if len < (h.list this).size then
      match pop h this with
      | (some _, h) => truncate len this k h
      | (none, h) => some h
    else some h

end PonyList

/-! ### Runs -/

/-- What a caller may do, with the addresses that are allocated for it, and what the collector may
do meanwhile. -/
inductive Op (α : Type) (w : Nat)
  | newNode (n : Ref w) (item : Option α)
  | newList (l : Ref w)
  | push (l n : Ref w) (a : α)
  | unshift (l n : Ref w) (a : α)
  | pop (l : Ref w)
  | shift (l : Ref w)
  | truncate (l : Ref w) (len : BitVec w)
  | remove (l : Ref w) (i : BitVec w)
  | clear (l : Ref w)
  | prependNode (l n : Ref w)
  | appendNode (l n : Ref w)
  | appendList (l m : Ref w)
  | prependList (l m : Ref w)
  | nodePrepend (n m : Ref w)
  | nodeAppend (n m : Ref w)
  | nodeRemove (n : Ref w)
  | nodeUpdate (n : Ref w) (value : Option α)
  | nodePop (n : Ref w)
  | collect (dead : Ref w → Bool)

namespace Heap

/-- The objects at the addresses `dead` are gone. -/
def collect (h : Heap α w) (dead : Ref w → Bool) : Heap α w where
  node n := if dead n then { item := none } else h.node n
  list l := if dead l then {} else h.list l
  used r := h.used r && !dead r

/-- No object that stays refers to one at the addresses `dead`. -/
def Garbage (h : Heap α w) (dead : Ref w → Bool) : Prop :=
  ∀ r, dead r = false → ∀ d, dead d = true →
    (h.node r).list ≠ some d ∧ (h.node r).prev ≠ some d ∧ (h.node r).next ≠ some d ∧
    (h.list r).head ≠ some d ∧ (h.list r).tail ≠ some d

end Heap

namespace Op

/-- The operation with `k` rounds for its loop. -/
def exec (k : Nat) (h : Heap α w) : Op α w → Option (Heap α w)
  | newNode n item => some (ListNode.create h n item)
  | newList l => some (PonyList.create h l)
  | push l n a => some (PonyList.push h l n a)
  | unshift l n a => some (PonyList.unshift h l n a)
  | pop l => some (PonyList.pop h l).2
  | shift l => some (PonyList.shift h l).2
  | truncate l len => PonyList.truncate len l k h
  | remove l i => some (PonyList.remove h l i).2
  | clear l => some (PonyList.clear h l)
  | prependNode l n => some (PonyList.prependNode h l n)
  | appendNode l n => some (PonyList.appendNode h l n)
  | appendList l m => PonyList.appendList k h l m
  | prependList l m => PonyList.prependList k h l m
  | nodePrepend n m => some (ListNode.prepend h n m).2
  | nodeAppend n m => some (ListNode.append h n m).2
  | nodeRemove n => some (ListNode.remove h n)
  | nodeUpdate n value => some (ListNode.update h n value).2
  | nodePop n => some (ListNode.pop h n).2
  | collect dead => some (h.collect dead)

/-- What is allocated was free, what is referred to exists, and only garbage is collected. -/
def Allowed (h : Heap α w) : Op α w → Prop
  | newNode r _ | newList r => h.used r = false
  | push l n _ | unshift l n _ => h.used l = true ∧ h.used n = false
  | pop r | shift r | truncate r _ | remove r _ | clear r | nodeRemove r | nodeUpdate r _
  | nodePop r => h.used r = true
  | prependNode r s | appendNode r s | appendList r s | prependList r s | nodePrepend r s
  | nodeAppend r s => h.used r = true ∧ h.used s = true
  | collect dead => h.Garbage dead

end Op

/-- The heaps reached by operations that all meet `ok`. -/
inductive Reach (ok : Heap α w → Op α w → Prop) : Heap α w → Prop
  | start : Reach ok {}
  | step {h h' : Heap α w} {op : Op α w} {k : Nat} (r : Reach ok h) (allowed : op.Allowed h)
      (hok : ok h op) (e : op.exec k h = some h') : Reach ok h'

end SpacePony.Collections
