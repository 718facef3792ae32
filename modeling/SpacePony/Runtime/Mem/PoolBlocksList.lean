import SpacePony.Runtime.Mem.PoolBlocks
import SpacePony.Support.Linked

/-!
# Runtime — memory — the list of free blocks

The pointers of the free blocks as a doubly linked list: a block is taken out (`Listed.remove`), or
put before the first that is not smaller (`Listed.insert`).
-/

namespace SpacePony.Mem

open List Linked

/-- The pointer, where it is one. -/
def ptr? (p : Ptr) : Option Ptr := if p = NULL then none else some p

theorem ptr?_eq_some {p x : Ptr} : ptr? p = some x ↔ p = x ∧ p ≠ NULL := by
  rw [ptr?]
  split
  · next h => exact ⟨fun hc => absurd hc (Option.some_ne_none x).symm, fun hc => absurd h hc.2⟩
  · next h => exact ⟨fun hs => ⟨Option.some.inj hs, h⟩, fun hs => congrArg some hs.1⟩

theorem ptr?_eq_none {p : Ptr} : ptr? p = none ↔ p = NULL := by
  rw [ptr?]
  split
  · next h => exact ⟨fun _ => h, fun _ => rfl⟩
  · next h => exact ⟨fun hc => absurd hc (Option.some_ne_none p), fun hc => absurd hc h⟩

theorem ptr?_of_ne {p : Ptr} (h : p ≠ NULL) : ptr? p = some p := if_neg h

namespace PoolBlocks

def nextOf (s : PoolBlocks) (x : Ptr) : Option Ptr := ptr? (s.mem x).next
def prevOf (s : PoolBlocks) (x : Ptr) : Option Ptr := ptr? (s.mem x).prev

/-- From the head on, the blocks are linked both ways. -/
structure Listed (s : PoolBlocks) (xs : List Ptr) : Prop where
  head : ptr? s.head = xs.head?
  links : Links s.nextOf s.prevOf none xs none
  nodup : xs.Nodup
  nonnull : ∀ x ∈ xs, x ≠ NULL

/-- What an operation on the links leaves alone. -/
structure SameSizes (s s' : PoolBlocks) : Prop where
  size : ∀ x, s'.size x = s.size x
  total : s'.totalSize = s.totalSize
  largest : s'.largestSize = s.largestSize

variable {s s' : PoolBlocks} {xs as bs : List Ptr} {x : Ptr}

/-- Headers elsewhere do not matter. -/
theorem Listed.congr (h : Listed s xs) (hhead : s'.head = s.head)
    (hmem : ∀ x ∈ xs, (s'.mem x).prev = (s.mem x).prev ∧ (s'.mem x).next = (s.mem x).next) :
    Listed s' xs :=
  ⟨hhead ▸ h.head, h.links.congr fun x hx => ⟨congrArg ptr? (hmem x hx).2, congrArg ptr? (hmem x hx).1⟩,
    h.nodup, h.nonnull⟩

theorem Listed.unique {ys : List Ptr} (h : Listed s xs) (h' : Listed s ys) : xs = ys :=
  (h.head ▸ h.links.chain_next).unique (h'.head ▸ h'.links.chain_next)

/-- The neighbours of a block in its place. -/
theorem Listed.at_mem (h : Listed s (as ++ x :: bs)) :
    ptr? (s.mem x).prev = as.getLast? ∧ ptr? (s.mem x).next = bs.head? :=
  h.links.at_mem

/-- A pointer changed where a pointer leads. -/
theorem ptr?_ite {p n a b : Ptr} : ptr? (if p ≠ NULL ∧ n = p then a else b) =
    if ptr? p = some n then ptr? a else ptr? b := by
  by_cases hn : ptr? p = some n
  · have ⟨e, hne⟩ := ptr?_eq_some.1 hn
    rw [if_pos hn, if_pos ⟨hne, e.symm⟩]
  · rw [if_neg hn, if_neg fun hc => hn (ptr?_eq_some.2 ⟨hc.2.symm, hc.1⟩)]

/-! ### Taking a block out -/

theorem remove_mem (x n : Ptr) (s : PoolBlocks) : (poolBlockRemove x s).mem n
      = ⟨if (s.mem x).next ≠ NULL ∧ n = (s.mem x).next then (s.mem x).prev else (s.mem n).prev,
        if (s.mem x).prev ≠ NULL ∧ n = (s.mem x).prev then (s.mem x).next else (s.mem n).next,
        s.size n⟩ := by
  rw [poolBlockRemove]
  by_cases hp : (s.mem x).prev = NULL <;> by_cases hn : (s.mem x).next = NULL <;>
    simp [hp, hn, setNext, setPrev, size, Function.update_apply] <;> split_ifs <;> simp_all

theorem remove_next (x n : Ptr) (s : PoolBlocks) : ((poolBlockRemove x s).mem n).next
    = if (s.mem x).prev ≠ NULL ∧ n = (s.mem x).prev then (s.mem x).next else (s.mem n).next := by
  rw [remove_mem]

theorem remove_prev (x n : Ptr) (s : PoolBlocks) : ((poolBlockRemove x s).mem n).prev
    = if (s.mem x).next ≠ NULL ∧ n = (s.mem x).next then (s.mem x).prev else (s.mem n).prev := by
  rw [remove_mem]

theorem remove_head (h : Listed s (as ++ x :: bs)) :
    ptr? (poolBlockRemove x s).head = (as ++ bs).head? := by
  obtain ⟨hprev, hnext⟩ := h.at_mem
  have hhead : (poolBlockRemove x s).head
      = if (s.mem x).prev ≠ NULL then s.head else (s.mem x).next := by
    rw [poolBlockRemove]
    by_cases hp : (s.mem x).prev = NULL <;> by_cases hn : (s.mem x).next = NULL <;>
      simp [hp, hn, setNext, setPrev]
  rw [hhead]
  cases as with
  | nil =>
    rw [if_neg (not_not.2 (ptr?_eq_none.1 hprev)), hnext]
    rfl
  | cons a as =>
    have hne : (s.mem x).prev ≠ NULL := by
      intro hc
      rw [ptr?_eq_none.2 hc, getLast?_cons] at hprev
      cases hprev
    rw [if_pos hne, h.head]
    rfl

theorem SameSizes.remove (x : Ptr) (s : PoolBlocks) : SameSizes s (poolBlockRemove x s) := by
  have hsize : ∀ n, (poolBlockRemove x s).size n = s.size n := fun n => by
    have hmem := congrArg PoolBlock.size (remove_mem x n s)
    exact hmem
  refine ⟨hsize, ?_, ?_⟩ <;>
  · rw [poolBlockRemove]
    by_cases hp : (s.mem x).prev = NULL <;> by_cases hn : (s.mem x).next = NULL <;>
      simp [hp, hn, setNext, setPrev]

/-- **A block taken out of the list.** -/
theorem Listed.remove (h : Listed s (as ++ x :: bs)) : Listed (poolBlockRemove x s) (as ++ bs) := by
  obtain ⟨hprev, hnext⟩ := h.at_mem
  have hsub : (as ++ bs).Sublist (as ++ x :: bs) :=
    (List.Sublist.refl as).append (sublist_cons_self x bs)
  refine ⟨remove_head h, h.links.erase h.nodup (fun n _ => ?_) (fun n _ => ?_),
    h.nodup.sublist hsub, fun y hy => h.nonnull y (hsub.subset hy)⟩
  · rw [nextOf, remove_next, ptr?_ite, hprev, hnext]
    rfl
  · rw [prevOf, remove_prev, ptr?_ite, hprev, hnext]
    rfl

/-! ### Putting a block in -/

/-- The pointer of the block, `NULL` where there is none. -/
def ptrOf (x : Option Ptr) : Ptr := x.getD NULL

theorem ptr?_ptrOf {x : Option Ptr} (h : ∀ p ∈ x, p ≠ NULL) : ptr? (ptrOf x) = x := by
  cases x with
  | none => rfl
  | some p => exact ptr?_of_ne (h p rfl)

theorem ptrOf_ptr? (p : Ptr) : ptrOf (ptr? p) = p := by
  rw [ptr?]
  split
  · next h => exact h.symm
  · rfl

/-- The position of a block: before the first that is not smaller. -/
theorem insertPosition_spec (as bs : List Ptr) (size : Nat) {fuel : Nat}
    (h : Listed s (as ++ bs)) (hfuel : bs.length < fuel) (has : ∀ y ∈ as, s.size y < size) :
    ∃ cs ds, as ++ bs = cs ++ ds ∧
      insertPosition s size fuel (ptrOf as.getLast?) (ptrOf bs.head?)
        = .ok (ptrOf cs.getLast?, ptrOf ds.head?) ∧
      (∀ y ∈ cs, s.size y < size) ∧ ∀ y ∈ ds.head?, size ≤ s.size y := by
  induction fuel generalizing as bs with
  | zero => exact absurd hfuel (Nat.not_lt_zero _)
  | succ fuel ih =>
    cases bs with
    | nil => exact ⟨as, [], rfl, rfl, has, fun y hy => by cases hy⟩
    | cons b bs =>
      have hb : b ≠ NULL := h.nonnull b (mem_append_right as (.head _))
      rw [insertPosition, if_neg (show ptrOf (b :: bs).head? ≠ NULL from hb)]
      by_cases hle : size ≤ s.size b
      · rw [if_pos (show size ≤ s.size (ptrOf (b :: bs).head?) from hle)]
        exact ⟨as, b :: bs, rfl, rfl, has, fun y hy => by cases hy; exact hle⟩
      rw [if_neg (show ¬ size ≤ s.size (ptrOf (b :: bs).head?) from hle)]
      have hnext : (s.mem b).next = ptrOf bs.head? := by rw [← h.at_mem.2, ptrOf_ptr?]
      have hlast : ptrOf (b :: bs).head? = ptrOf (as ++ [b]).getLast? := by
        rw [getLast?_concat]
        rfl
      rw [hlast, show (s.mem (ptrOf (as ++ [b]).getLast?)).next = ptrOf bs.head? by
        rw [← hlast]; exact hnext, append_cons as b bs]
      rw [append_cons as b bs] at h
      refine ih _ _ h (Nat.lt_of_succ_lt_succ hfuel) fun y hy => ?_
      rcases mem_append.1 hy with hy | hy
      · exact has y hy
      · rw [mem_singleton.1 hy]
        exact Nat.lt_of_not_le hle

/-- The links that a block gets between two others. -/
def link (s : PoolBlocks) (x prev next : Ptr) : PoolBlocks :=
  let s := s.setPrev x prev
  let s := s.setNext x next
  let s := if prev ≠ NULL then s.setNext prev x else { s with head := x }
  if next ≠ NULL then s.setPrev next x else s

variable {prev next : Ptr}

theorem poolBlockInsert_eq
    (h : insertPosition s (s.size x) (maxBlocks + 1) NULL s.head = .ok (prev, next)) :
    poolBlockInsert x s = .ok (s.link x prev next) := by
  rw [poolBlockInsert, h]
  rfl

section
variable (hp : prev ≠ x) (hn : next ≠ x)
include hp hn

theorem link_mem (n : Ptr) : (s.link x prev next).mem n
      = ⟨if n = x then prev else if next ≠ NULL ∧ n = next then x else (s.mem n).prev,
        if n = x then next else if prev ≠ NULL ∧ n = prev then x else (s.mem n).next,
        s.size n⟩ := by
  rw [link]
  by_cases hp0 : prev = NULL <;> by_cases hn0 : next = NULL <;>
    simp [hp0, hn0, setNext, setPrev, size, Function.update_apply] <;> split_ifs <;> simp_all

theorem link_next (n : Ptr) : ((s.link x prev next).mem n).next
      = if n = x then next else if prev ≠ NULL ∧ n = prev then x else (s.mem n).next := by
  rw [link_mem hp hn]

theorem link_prev (n : Ptr) : ((s.link x prev next).mem n).prev
      = if n = x then prev else if next ≠ NULL ∧ n = next then x else (s.mem n).prev := by
  rw [link_mem hp hn]

theorem SameSizes.link : SameSizes s (s.link x prev next) := by
  have hsize : ∀ n, (s.link x prev next).size n = s.size n := fun n => by
    have hmem := congrArg PoolBlock.size (link_mem hp hn n (s := s))
    exact hmem
  refine ⟨hsize, ?_, ?_⟩ <;>
  · rw [PoolBlocks.link]
    by_cases hp0 : prev = NULL <;> by_cases hn0 : next = NULL <;>
      simp [hp0, hn0, setNext, setPrev]

end

theorem link_head : (s.link x prev next).head = if prev ≠ NULL then s.head else x := by
  rw [link]
  by_cases hp0 : prev = NULL <;> by_cases hn0 : next = NULL <;>
    simp [hp0, hn0, setNext, setPrev]

/-- A block linked between two neighbours. -/
theorem Listed.link (h : Listed s (as ++ bs)) (hx : x ∉ as ++ bs) (hx0 : x ≠ NULL) :
    Listed (s.link x (ptrOf as.getLast?) (ptrOf bs.head?)) (as ++ x :: bs) ∧
      SameSizes s (s.link x (ptrOf as.getLast?) (ptrOf bs.head?)) := by
  have has : ∀ p ∈ as.getLast?, p ∈ as ++ bs := fun p hp =>
    mem_append_left bs (mem_of_mem_getLast? hp)
  have hbs : ∀ p ∈ bs.head?, p ∈ as ++ bs := fun p hp =>
    mem_append_right as (mem_of_mem_head? hp)
  have hprev : ptr? (ptrOf as.getLast?) = as.getLast? :=
    ptr?_ptrOf fun p hp => h.nonnull p (has p hp)
  have hnext : ptr? (ptrOf bs.head?) = bs.head? :=
    ptr?_ptrOf fun p hp => h.nonnull p (hbs p hp)
  have hpx : ptrOf as.getLast? ≠ x := by
    intro e
    rw [e, ptr?_of_ne hx0] at hprev
    exact hx (has x hprev.symm)
  have hnx : ptrOf bs.head? ≠ x := by
    intro e
    rw [e, ptr?_of_ne hx0] at hnext
    exact hx (hbs x hnext.symm)
  have hperm : (as ++ x :: bs).Perm (x :: (as ++ bs)) := perm_middle
  have hnodup : (as ++ x :: bs).Nodup := hperm.nodup_iff.2 (nodup_cons.2 ⟨hx, h.nodup⟩)
  refine ⟨⟨?_, h.links.insert hnodup (fun n => ?_) (fun n => ?_), hnodup, fun y hy => ?_⟩,
    .link hpx hnx⟩
  · rw [link_head]
    cases as with
    | nil =>
      have hnull : ¬ ptrOf ([] : List Ptr).getLast? ≠ NULL := not_not.2 rfl
      rw [if_neg hnull]
      exact ptr?_of_ne hx0
    | cons a as =>
      have hne : ptrOf (a :: as).getLast? ≠ NULL := by
        intro hc
        rw [ptr?_eq_none.2 hc, getLast?_cons] at hprev
        cases hprev
      rw [if_pos hne, h.head]
      rfl
  · rw [nextOf, link_next hpx hnx]
    by_cases hn : n = x
    · rw [if_pos hn, if_pos hn, hnext]
    rw [if_neg hn, if_neg hn]
    rw [ptr?_ite, hprev, ptr?_of_ne hx0]
    rfl
  · rw [prevOf, link_prev hpx hnx]
    by_cases hn : n = x
    · rw [if_pos hn, if_pos hn, hprev]
    rw [if_neg hn, if_neg hn]
    rw [ptr?_ite, hnext, ptr?_of_ne hx0]
    rfl
  · rcases mem_cons.1 (hperm.mem_iff.1 hy) with rfl | hy
    · exact hx0
    · exact h.nonnull y hy

/-- **A block put into the list**, before the first that is not smaller. -/
theorem Listed.insert (h : Listed s xs) (hx : x ∉ xs) (hx0 : x ≠ NULL)
    (hlen : xs.length ≤ maxBlocks) :
    ∃ s' as bs, poolBlockInsert x s = .ok s' ∧ xs = as ++ bs ∧ Listed s' (as ++ x :: bs) ∧
      SameSizes s s' ∧ (∀ y ∈ as, s.size y < s.size x) ∧ ∀ y ∈ bs.head?, s.size x ≤ s.size y := by
  have hhead : s.head = ptrOf xs.head? := by rw [← h.head, ptrOf_ptr?]
  obtain ⟨as, bs, e, hrun, hsmall, hlarge⟩ := insertPosition_spec [] xs (s.size x) h
    (Nat.lt_succ_of_le hlen) fun y hy => absurd hy not_mem_nil
  rw [← hhead] at hrun
  rw [nil_append] at e
  subst e
  obtain ⟨hlist, hsame⟩ := h.link hx hx0
  exact ⟨_, as, bs, poolBlockInsert_eq hrun, rfl, hlist, hsame, hsmall, hlarge⟩

end PoolBlocks

end SpacePony.Mem
