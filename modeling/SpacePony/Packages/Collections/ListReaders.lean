import Mathlib.Data.List.TakeWhile
import SpacePony.Packages.Collections.ListRep

/-!
# Packages — collections — the readers of a list

`list.pony`: the methods that read a list, each by itself along the links of the nodes.

* `ListNodes`, `ListValues`: the iterators; `drain` is what they give until `has_next` is false.
* `walk`, `seek`, `collect`: the loops and recursions that several methods have.  A new list is the
  list of its values: `push` adds at the end, `unshift` at the front.
* A function that is handed over to a method has no effects, and gives `flat_map` a new list at
  each call.
* `readers_agree`: **every reader that starts at the head gives the list's values; the two that are
  to run backwards give at most one.**
-/

namespace SpacePony.Collections.PonyList

open BitVec Linked
open List (map_cons foldl_cons map_take map_drop take_of_length_le nil_append)

variable {α β : Type} {w : Nat}

/-! ### Iterators -/

/-- `class ListNodes`, and `class ListValues`. -/
structure ListNodes (w : Nat) where
  next : Option (Ref w)
  reverse : Bool := false

namespace ListNodes

/-- The node that `next` returns, and the iterator after it. -/
def advance (h : Heap α w) (it : ListNodes w) : Option (Ref w × ListNodes w) :=
  match it.next with
  | some next' =>
    some (next', { it with next := if it.reverse then (h.node next').prev else (h.node next').next })
  | none => none

/-- The nodes that `ListNodes.next` gives while `has_next`. -/
def drain (h : Heap α w) : Nat → ListNodes w → Option (List (Ref w))
  | 0, _ => none
  | k + 1, it =>
    match advance h it with
    | some (n, it) => (drain h k it).map (n :: ·)
    | none => some []

/-- What `ListValues.next` gives, or its error, while `has_next`. -/
def drainValues (h : Heap α w) (k : Nat) (it : ListNodes w) : Option (List (Option α)) :=
  (drain h k it).map fun ns => ns.map fun n => (h.node n).item

end ListNodes

variable (k : Nat) (h : Heap α w) (this : Ref w)

/-- `List.nodes`. -/
def nodes : ListNodes w := { next := (h.list this).head }

/-- `List.rnodes`. -/
def rnodes : ListNodes w := { next := (h.list this).head, reverse := true }

/-- `List.values`. -/
def values : ListNodes w := { next := (h.list this).head }

/-- `List.rvalues`. -/
def rvalues : ListNodes w := { next := (h.list this).head, reverse := true }

/-- `List.apply`. -/
def apply (i : BitVec w) : Option α := do
  let n ← index h this i
  (h.node n).item

/-! ### Methods -/

/-- The recursion of `_map`, `_flat_map`, `_filter`, `_fold` and `_reverse`: `g` puts an item into
the accumulator, a node without an item is passed over, and the last node has no next. -/
def walkFrom (g : β → α → β) : Nat → Ref w → β → Option β
  | 0, _, _ => none
  | k + 1, ln, acc =>
    let acc := match (h.node ln).item with
      | some x => g acc x
      | none => acc
    match (h.node ln).next with
    | some next' => walkFrom g k next' acc
    | none => some acc

/-- A recursion from the head, if there is one. -/
def walkAll (g : β → α → β) (acc : β) : Option β :=
  match (h.list this).head with
  | some head' => walkFrom h g k head' acc
  | none => some acc

/-- `List.map`. -/
def map (f : α → β) : Option (List β) := walkAll k h this (fun acc x => acc ++ [f x]) []

/-- `List.flat_map`. -/
def flatMap (f : α → List β) : Option (List β) := walkAll k h this (fun acc x => acc ++ f x) []

/-- `List.filter`. -/
def filter (f : α → Bool) : Option (List α) :=
  walkAll k h this (fun acc x => if f x then acc ++ [x] else acc) []

/-- `List.fold`. -/
def fold (f : β → α → β) (acc : β) : Option β := walkAll k h this f acc

/-- `List.reverse`. -/
def reverse : Option (List α) := walkAll k h this (fun acc x => x :: acc) []

/-- The recursion of `_every`, `_exists` and `_contains`: it ends with `found` at an item with
`stop`, and with the opposite at a node with no item and after the last. -/
def seekFrom (stop : α → Bool) (found : Bool) : Nat → Ref w → Option Bool
  | 0, _ => none
  | k + 1, ln =>
    match (h.node ln).item with
    | some x =>
      if stop x then some found
      else match (h.node ln).next with
        | some next' => seekFrom stop found k next'
        | none => some (!found)
    | none => some (!found)

/-- A search from the head, if there is one. -/
def seek (stop : α → Bool) (found : Bool) : Option Bool :=
  match (h.list this).head with
  | some head' => seekFrom h stop found k head'
  | none => some (!found)

/-- `List.every`. -/
def every (f : α → Bool) : Option Bool := seek k h this (fun x => !f x) false

/-- `List.exists`. -/
def exists' (f : α → Bool) : Option Bool := seek k h this f true

/-- `List.contains`, where `eq` is `==` of the elements. -/
def contains (eq : α → α → Bool) (a : α) : Option Bool := seek k h this (eq a) true

/-- The body of the loop of `partition`.  A `for` loop goes on after an error of `next`. -/
def partitionStep (f : α → Bool) (ls : List α × List α) : Option α → List α × List α
  | some item => if f item then (ls.1 ++ [item], ls.2) else (ls.1, ls.2 ++ [item])
  | none => ls

/-- `List.partition`. -/
def partition (f : α → Bool) : Option (List α × List α) :=
  ((values h this).drainValues h k).map fun items => items.foldl (partitionStep f) ([], [])

/-- How often the body of a loop over `Range(min, max)` runs. -/
def rangeLength (min max : BitVec w) : Nat := if min < max then max.toNat - min.toNat else 0

/-- The loops of `drop`, `take` and `take_while`: the items from `ln` on, as long as they meet `f`.
An error at a node with no item, or after the last node, ends the loop. -/
def collect (f : α → Bool) : (rounds : Nat) → Ref w → List α
  | 0, _ => []
  | rounds + 1, ln =>
    match (h.node ln).item with
    | some x =>
      if f x then
        x :: match (h.node ln).next with
          | some next' => collect f rounds next'
          | none => []
      else []
    | none => []

/-- `List.drop`. -/
def drop (n : BitVec w) : List α :=
  let size := (h.list this).size
  if n < size then
    match index h this n with
    | some node => collect h (fun _ => true) (rangeLength n size) node
    | none => []
  else []

/-- `List.take`. -/
def takeFirst (n : BitVec w) : List α :=
  let size := (h.list this).size
  if 0 < size then
    match (h.list this).head with
    | some node => collect h (fun _ => true) (rangeLength 0 (if n < size then n else size)) node
    | none => []
  else []

/-- `List.take_while`. -/
def takeWhile (f : α → Bool) : List α :=
  let size := (h.list this).size
  if 0 < size then
    match (h.list this).head with
    | some node => collect h f (rangeLength 0 size) node
    | none => []
  else []

/-! ### What the readers give -/

/-- The nodes of the list `l` are `ns`, and their items the values `vs`. -/
structure Represents (h : Heap α w) (l : Ref w) (ns : List (Ref w)) (vs : List α) : Prop where
  next : Chain (fun n => (h.node n).next) (h.list l).head ns
  prev : Chain (fun n => (h.node n).prev) (h.list l).tail ns.reverse
  size : ns.length = (h.list l).size.toNat
  items : ns.map (fun n => (h.node n).item) = vs.map some

variable {k h this} {ns : List (Ref w)} {vs : List α} {n : Ref w}

theorem drain_eq {it : ListNodes w} (hk : ns.length < k)
    (hc : Chain (fun n => if it.reverse then (h.node n).prev else (h.node n).next) it.next ns) :
    it.drain h k = some ns := by
  obtain ⟨k, rfl⟩ : ∃ j, k = j + 1 := ⟨k - 1, by omega⟩
  induction ns generalizing it k with
  | nil =>
    obtain ⟨a, r⟩ := it
    cases hc
    rfl
  | cons n ns ih =>
    obtain ⟨a, r⟩ := it
    cases hc with
    | cons hc =>
      obtain ⟨k, rfl⟩ : ∃ j, k = j + 1 := ⟨k - 1, by simp at hk; omega⟩
      have hrest := @ih ⟨if r then (h.node n).prev else (h.node n).next, r⟩ hc k
        (by simpa using hk)
      simp only [ListNodes.drain, ListNodes.advance] at hrest ⊢
      rw [hrest]
      rfl

/-- The values from a node on. -/
inductive ItemsFrom (h : Heap α w) : Ref w → List α → Prop
  | last {n : Ref w} {v : α} : (h.node n).item = some v → (h.node n).next = none → ItemsFrom h n [v]
  | cons {n n' : Ref w} {v : α} {vs : List α} : (h.node n).item = some v →
      (h.node n).next = some n' → ItemsFrom h n' vs → ItemsFrom h n (v :: vs)

theorem itemsFrom (hc : Chain (fun n => (h.node n).next) (some n) ns)
    (hi : ns.map (fun n => (h.node n).item) = vs.map some) : ItemsFrom h n vs := by
  induction ns generalizing n vs with
  | nil => cases hc
  | cons m ns ih =>
    cases hc with
    | cons hc =>
      obtain _ | ⟨v, vs⟩ := vs
      · simp at hi
      rw [map_cons, map_cons, List.cons.injEq] at hi
      cases hnext : (h.node m).next with
      | none =>
        rw [hnext] at hc
        cases hc
        obtain rfl : vs = [] := by simpa using hi.2.symm
        exact .last hi.1 hnext
      | some n' => exact .cons hi.1 hnext (ih (hnext ▸ hc) hi.2)

theorem walkFrom_eq {g : β → α → β} {acc : β} (hr : ItemsFrom h n vs) (hk : vs.length < k) :
    walkFrom h g k n acc = some (vs.foldl g acc) := by
  obtain ⟨k, rfl⟩ : ∃ j, k = j + 1 := ⟨k - 1, by omega⟩
  induction hr generalizing k acc with
  | last hi hn => simp [walkFrom, hi, hn]
  | cons hi hn _ ih =>
    obtain ⟨k, rfl⟩ : ∃ j, k = j + 1 := ⟨k - 1, by simp at hk; omega⟩
    simp only [walkFrom, hi, hn, foldl_cons] at ih ⊢
    exact ih k (by simpa using hk)

theorem seekFrom_eq {stop : α → Bool} {found : Bool} (hr : ItemsFrom h n vs) (hk : vs.length < k) :
    seekFrom h stop found k n = some (if vs.any stop then found else !found) := by
  obtain ⟨k, rfl⟩ : ∃ j, k = j + 1 := ⟨k - 1, by omega⟩
  induction hr generalizing k with
  | @last n v hi hn => cases hs : stop v <;> simp [seekFrom, hi, hn, hs]
  | @cons n n' v vs hi hn _ ih =>
    obtain ⟨k, rfl⟩ : ∃ j, k = j + 1 := ⟨k - 1, by simp at hk; omega⟩
    rw [seekFrom]
    by_cases hs : stop v = true
    · simp [hi, hs]
    · simpa [hi, hn, hs] using ih k (by simpa using hk)

theorem collect_eq {f : α → Bool} {rounds : ℕ} (hr : ItemsFrom h n vs) :
    collect h f rounds n = (vs.take rounds).takeWhile f := by
  induction hr generalizing rounds with
  | @last n v hi hn =>
    obtain _ | rounds := rounds
    · rfl
    · cases hf : f v <;> simp [collect, hi, hn, hf]
  | @cons n n' v vs hi hn _ ih =>
    obtain _ | rounds := rounds
    · rfl
    · cases hf : f v <;> simp [collect, hi, hn, hf, ih]

theorem walk_eq {a : Option (Ref w)} {i : ℕ} (hc : Chain (fun n => (h.node n).next) a ns) :
    walk h i a = ns[i]? := by
  induction ns generalizing a i with
  | nil =>
    cases hc
    cases i <;> rfl
  | cons n ns ih =>
    cases hc with
    | cons hc =>
      cases i with
      | zero => rfl
      | succ i => exact ih hc

variable (f : α → Bool)

theorem foldl_partitionStep (vs as bs : List α) : (vs.map some).foldl (partitionStep f) (as, bs) =
      (as ++ vs.filter f, bs ++ vs.filter fun x => !f x) := by
  induction vs generalizing as bs with
  | nil => simp
  | cons v vs ih =>
    rw [map_cons, foldl_cons]
    cases hf : f v with
    | true | false => simp [partitionStep, hf, ih]

namespace Represents

variable (R : Represents h this ns vs)
include R

theorem length_eq : vs.length = ns.length := by
  have := congrArg List.length R.items
  simpa using this.symm

/-- The list is empty, or its values are those from the head on. -/
theorem head_cases : (h.list this).head = none ∧ vs = [] ∨
    ∃ n, (h.list this).head = some n ∧ ItemsFrom h n vs := by
  have hnext := R.next
  cases hhead : (h.list this).head with
  | none =>
    rw [hhead] at hnext
    cases hnext
    exact .inl ⟨rfl, by simpa using R.items.symm⟩
  | some n => exact .inr ⟨n, rfl, itemsFrom (hhead ▸ hnext) R.items⟩

theorem walkAll_eq (g : β → α → β) (acc : β) (hk : ns.length < k) :
    walkAll k h this g acc = some (vs.foldl g acc) := by
  unfold walkAll
  rcases R.head_cases with ⟨hhead, rfl⟩ | ⟨n, hhead, hr⟩ <;> rw [hhead]
  · rfl
  · exact walkFrom_eq hr (R.length_eq ▸ hk)

theorem seek_eq (stop : α → Bool) (found : Bool) (hk : ns.length < k) :
    seek k h this stop found = some (if vs.any stop then found else !found) := by
  unfold seek
  rcases R.head_cases with ⟨hhead, rfl⟩ | ⟨n, hhead, hr⟩ <;> rw [hhead]
  · rfl
  · exact seekFrom_eq hr (R.length_eq ▸ hk)

theorem index_eq (i : BitVec w) : index h this i = ns[i.toNat]? := by
  unfold index
  rw [walk_eq R.next]
  split_ifs with hle
  · rw [le_def, ← R.size] at hle
    exact (List.getElem?_eq_none hle).symm
  · rfl

theorem apply_eq (i : BitVec w) : apply h this i = vs[i.toNat]? := by
  have hitems := congrArg (fun os : List (Option α) => os[i.toNat]?) R.items
  unfold apply
  rw [R.index_eq]
  cases hn : ns[i.toNat]? <;> cases hv : vs[i.toNat]? <;> simp_all

theorem nodes_eq (hk : ns.length < k) : (nodes h this).drain h k = some ns :=
  drain_eq hk R.next

theorem values_eq (hk : ns.length < k) : (values h this).drainValues h k = some (vs.map some) := by
  rw [ListNodes.drainValues, show (values h this).drain h k = some ns from drain_eq hk R.next]
  exact congrArg some R.items

/-- The iterators that are to run backwards start at the head, and give it only. -/
theorem rnodes_eq (hk : ns.length < k) : (rnodes h this).drain h k = some (ns.take 1) := by
  have hnext := R.next
  have hprev := R.prev
  cases ns with
  | nil =>
    refine drain_eq hk ?_
    show Chain _ (h.list this).head []
    generalize (h.list this).head = o at hnext
    cases hnext
    exact .nil
  | cons n ns =>
    rw [List.reverse_cons] at hprev
    refine drain_eq (show [n].length < _ by simp at hk ⊢; omega) ?_
    show Chain _ (h.list this).head [n]
    generalize (h.list this).head = o at hnext
    cases hnext
    refine .cons ?_
    rw [if_pos (show (rnodes h this).reverse = true from rfl), hprev.last]
    exact .nil

theorem rvalues_eq (hk : ns.length < k) :
    (rvalues h this).drainValues h k = some ((vs.take 1).map some) := by
  rw [ListNodes.drainValues, show (rvalues h this).drain h k = some (ns.take 1) from R.rnodes_eq hk,
    Option.map_some, map_take, R.items, map_take]

theorem partition_eq (hk : ns.length < k) :
    partition k h this f = some (vs.filter f, vs.filter fun x => !f x) := by
  rw [partition, R.values_eq hk, Option.map_some, foldl_partitionStep]
  rfl

theorem size_toNat : (h.list this).size.toNat = vs.length := by
  rw [← R.size, R.length_eq]

theorem drop_eq (n : BitVec w) : drop h this n = vs.drop n.toNat := by
  have hsize := R.size_toNat
  have hlen := R.length_eq
  unfold drop
  rw [R.index_eq]
  simp only [lt_def, rangeLength, hsize]
  split_ifs with hlt
  · obtain ⟨node, hnode⟩ : ∃ node, ns[n.toNat]? = some node :=
      ⟨_, List.getElem?_eq_getElem (by omega)⟩
    have hi : (ns.drop n.toNat).map (fun n => (h.node n).item) = (vs.drop n.toNat).map some := by
      rw [map_drop, R.items, map_drop]
    have hc := R.next.drop n.toNat
    rw [hnode] at hc
    simp only [hnode]
    rw [collect_eq (itemsFrom hc hi), take_of_length_le (by simp), List.takeWhile_eq_self_iff.2 (by simp)]
  · exact (List.drop_eq_nil_of_le (by omega)).symm

/-- The loops that start at the head. -/
theorem collect_head (rounds : ℕ) : (match (h.list this).head with
      | some node => collect h f rounds node
      | none => []) = (vs.take rounds).takeWhile f := by
  rcases R.head_cases with ⟨hhead, rfl⟩ | ⟨n, hhead, hr⟩ <;> rw [hhead]
  · simp
  · exact collect_eq hr

theorem takeFirst_eq (n : BitVec w) : takeFirst h this n = vs.take n.toNat := by
  have hsize := R.size_toNat
  have hmin : (0 : BitVec w).toNat = 0 := by simp
  unfold takeFirst
  simp only [lt_def, rangeLength, hmin, hsize, R.collect_head]
  split_ifs with hpos hlt hzero hzero
  · rw [Nat.sub_zero, List.takeWhile_eq_self_iff.2 (by simp)]
  · obtain hn : n.toNat = 0 := by omega
    simp [hn]
  · rw [Nat.sub_zero, hsize, List.takeWhile_eq_self_iff.2 (by simp),
      take_of_length_le le_rfl, take_of_length_le (by omega)]
  · exact absurd (hsize ▸ hpos) hzero
  · have hnil : vs = [] := List.eq_nil_of_length_eq_zero (by omega)
    simp [hnil]

theorem takeWhile_eq : takeWhile h this f = vs.takeWhile f := by
  have hsize := R.size_toNat
  have hmin : (0 : BitVec w).toNat = 0 := by simp
  unfold takeWhile
  simp only [lt_def, rangeLength, hmin, hsize, R.collect_head]
  split_ifs with hpos
  · rw [Nat.sub_zero, take_of_length_le le_rfl]
  · have hnil : vs = [] := List.eq_nil_of_length_eq_zero (by omega)
    simp [hnil]

end Represents

theorem foldl_filter (vs as : List α) :
    vs.foldl (fun acc x => if f x then acc ++ [x] else acc) as = as ++ vs.filter f := by
  induction vs generalizing as with
  | nil => simp
  | cons v vs ih =>
    rw [foldl_cons, ih]
    cases hf : f v <;> simp [hf]

/-- The readers that run forwards give the sequence `vs`, and the functions of it. -/
structure ReadsForwards (k : ℕ) (h : Heap α w) (this : Ref w) (ns : List (Ref w)) (vs : List α) :
    Prop where
  nodes : (nodes h this).drain h k = some ns
  values : (values h this).drainValues h k = some (vs.map some)
  index : ∀ i, index h this i = ns[i.toNat]?
  apply : ∀ i, apply h this i = vs[i.toNat]?
  map : ∀ (β : Type) (f : α → β), map k h this f = some (vs.map f)
  flatMap : ∀ (β : Type) (f : α → List β), flatMap k h this f = some (vs.flatMap f)
  filter : ∀ f, filter k h this f = some (vs.filter f)
  fold : ∀ (β : Type) (f : β → α → β) (acc : β), fold k h this f acc = some (vs.foldl f acc)
  every : ∀ f, every k h this f = some (vs.all f)
  exists' : ∀ f, exists' k h this f = some (vs.any f)
  partition : ∀ f, partition k h this f = some (vs.partition f)
  drop : ∀ n, drop h this n = vs.drop n.toNat
  take : ∀ n, takeFirst h this n = vs.take n.toNat
  takeWhile : ∀ f, takeWhile h this f = vs.takeWhile f
  reverse : reverse k h this = some vs.reverse
  contains : ∀ eq a, contains k h this eq a = some (vs.any (eq a))

/-- The readers that run backwards give the reverse. -/
structure ReadsBackwards (k : ℕ) (h : Heap α w) (this : Ref w) (ns : List (Ref w)) (vs : List α) :
    Prop where
  rnodes : (rnodes h this).drain h k = some ns.reverse
  rvalues : (rvalues h this).drainValues h k = some (vs.reverse.map some)

theorem Represents.readsForwards (R : Represents h this ns vs) (hk : ns.length < k) :
    ReadsForwards k h this ns vs where
  nodes := R.nodes_eq hk
  values := R.values_eq hk
  index := R.index_eq
  apply := R.apply_eq
  map β f := by
    rw [map, R.walkAll_eq _ _ hk, List.foldl_append_eq_append, nil_append, ← List.flatMap_def]
    exact congrArg some List.map_eq_flatMap.symm
  flatMap β f := by
    rw [flatMap, R.walkAll_eq _ _ hk, List.foldl_append_eq_append, nil_append, ← List.flatMap_def]
  filter f := by
    rw [filter, R.walkAll_eq _ _ hk, foldl_filter, nil_append]
  fold β f acc := R.walkAll_eq f acc hk
  every f := by
    rw [every, R.seek_eq _ _ hk, List.all_eq_not_any_not]
    cases vs.any fun x => !f x <;> rfl
  exists' f := by
    rw [exists', R.seek_eq _ _ hk]
    cases vs.any f <;> rfl
  partition f := by
    rw [R.partition_eq f hk, List.partition_eq_filter_filter]
    rfl
  drop := R.drop_eq
  take := R.takeFirst_eq
  takeWhile := R.takeWhile_eq
  reverse := by
    rw [reverse, R.walkAll_eq _ _ hk, List.foldl_flip_cons_eq_append', List.append_nil]
  contains eq a := by
    rw [contains, R.seek_eq _ _ hk]
    cases vs.any (eq a) <;> rfl

theorem readsBackwards_iff (R : Represents h this ns vs) (hk : ns.length < k) :
    ReadsBackwards k h this ns vs ↔ ns.length ≤ 1 := by
  constructor
  · intro hb
    have hnodes := hb.rnodes
    rw [R.rnodes_eq hk, Option.some.injEq] at hnodes
    have := congrArg List.length hnodes
    simp at this
    omega
  intro hle
  have hvs := R.length_eq
  have hrev : ∀ {β : Type} (xs : List β), xs.length ≤ 1 → xs.take 1 = xs.reverse := by
    rintro β (_ | ⟨x, _ | ⟨y, xs⟩⟩) hxs
    · rfl
    · rfl
    · simp at hxs
  exact ⟨by rw [R.rnodes_eq hk, hrev ns hle], by rw [R.rvalues_eq hk, hrev vs (by omega)]⟩

/-- **The readers agree**, but for the ones that run backwards, which do on lists with one node or
none. -/
theorem readers_agree (R : Represents h this ns vs) (hk : ns.length < k) :
    ReadsForwards k h this ns vs ∧ (ReadsBackwards k h this ns vs ↔ ns.length ≤ 1) :=
  ⟨R.readsForwards hk, readsBackwards_iff R hk⟩

/-- A list of the two values true and false, at address 1, with its nodes at 2 and 3. -/
def trueFalse : Heap Bool 64 :=
  PonyList.push (PonyList.push (PonyList.create {} ⟨1, by decide⟩) ⟨1, by decide⟩ ⟨2, by decide⟩ true)
    ⟨1, by decide⟩ ⟨3, by decide⟩ false

theorem trueFalse_represents :
    Represents trueFalse ⟨1, by decide⟩ [⟨2, by decide⟩, ⟨3, by decide⟩] [true, false] :=
  ⟨.cons (.cons .nil), .cons (.cons .nil), rfl, rfl⟩

/-- A list of two nodes is not read backwards in full. -/
theorem not_readers_agree : ¬ ∀ (h : Heap Bool 64) (this : Ref 64) (ns : List (Ref 64))
    (vs : List Bool), Represents h this ns vs → ∃ k, ReadsBackwards k h this ns vs := by
  intro hall
  obtain ⟨k, hb⟩ := hall _ _ _ _ trueFalse_represents
  have hnodes := hb.rnodes
  match k with
  | 0 | 1 => exact nomatch hnodes
  | k + 2 =>
    have hlen : some 1 = some 2 := congrArg (Option.map List.length) hnodes
    exact nomatch hlen

/-- The same list is read forwards in full. -/
theorem readers_agree_trueFalse :
    ReadsForwards 3 trueFalse ⟨1, by decide⟩ [⟨2, by decide⟩, ⟨3, by decide⟩] [true, false] :=
  (readers_agree trueFalse_represents (by decide)).1

end SpacePony.Collections.PonyList
