import SpacePony.Packages.Collections.List
import SpacePony.Support.Linked

/-!
# Packages — collections — the sequences that lists are

Lists are sequences of nodes.  `Rep.remove`, `Rep.appendNode`, `Rep.prependNode`, `Rep.collect` and
the rest say what each method, and the collector, makes of the sequences.
-/

namespace SpacePony.Collections

open PonyList ListNode Nat Bool List Linked
open Function (update update_of_ne update_self)

variable {α : Type} {w : Nat}

/-- The list's chains are finite and each other's reverse, of the length that `size` returns, and
hold the nodes whose owner is the list. -/
def Consistent (h : Heap α w) (l : Ref w) : Prop :=
  ∃ ns : List (Ref w), Chain (fun n => (h.node n).next) (h.list l).head ns ∧
    Chain (fun n => (h.node n).prev) (h.list l).tail ns.reverse ∧
    ns.length = (h.list l).size.toNat ∧ ∀ n, n ∈ ns ↔ (h.node n).list = some l

/-- The lists of the heap are the sequences of nodes `seq`. -/
structure Rep (h : Heap α w) (seq : Ref w → List (Ref w)) : Prop where
  links : ∀ l, Links (fun n => (h.node n).next) (fun n => (h.node n).prev) none (seq l) none
  nodup : ∀ l, (seq l).Nodup
  head : ∀ l, (h.list l).head = (seq l).head?
  tail : ∀ l, (h.list l).tail = (seq l).getLast?
  size : ∀ l, (h.list l).size = BitVec.ofNat w (seq l).length
  mem : ∀ l n, n ∈ seq l ↔ (h.node n).list = some l
  loose : ∀ n, (h.node n).list = none → (h.node n).prev = none ∧ (h.node n).next = none
  used : ∀ n l, (h.node n).list = some l → h.used n = true ∧ h.used l = true

/-! ### Two changes -/

/-- The node `x` is put into the list `l`, between `p` and `q`. -/
structure Inserted (h h' : Heap α w) (l x : Ref w) (p q : Option (Ref w)) : Prop where
  list : ∀ n, (h'.node n).list = if n = x then some l else (h.node n).list
  next : ∀ n, (h'.node n).next =
    if n = x then q else if p = some n then some x else (h.node n).next
  prev : ∀ n, (h'.node n).prev =
    if n = x then p else if q = some n then some x else (h.node n).prev
  head : ∀ m, (h'.list m).head = if m = l ∧ p = none then some x else (h.list m).head
  tail : ∀ m, (h'.list m).tail = if m = l ∧ q = none then some x else (h.list m).tail
  size : ∀ m, (h'.list m).size = if m = l then (h.list m).size + 1 else (h.list m).size
  used : h'.used = h.used

/-- The node `x` is taken out of the list `l`, from between `p` and `q`. -/
structure Removed (h h' : Heap α w) (l x : Ref w) (p q : Option (Ref w)) : Prop where
  list : ∀ n, (h'.node n).list = if n = x then none else (h.node n).list
  next : ∀ n, (h'.node n).next =
    if n = x then none else if p = some n then q else (h.node n).next
  prev : ∀ n, (h'.node n).prev =
    if n = x then none else if q = some n then p else (h.node n).prev
  head : ∀ m, (h'.list m).head = if m = l ∧ p = none then q else (h.list m).head
  tail : ∀ m, (h'.list m).tail = if m = l ∧ q = none then p else (h.list m).tail
  size : ∀ m, (h'.list m).size = if m = l then (h.list m).size - 1 else (h.list m).size
  used : h'.used = h.used

section
variable {h h' : Heap α w} {l x : Ref w} {as bs : List (Ref w)}

theorem ne_neighbours {n : Ref w} (hn : n ∉ as ++ bs) :
    as.getLast? ≠ some n ∧ bs.head? ≠ some n :=
  ⟨fun e => hn (mem_append_left _ (mem_of_mem_getLast? e)),
    fun e => hn (mem_append_right _ (mem_of_mem_head? e))⟩

/-- The links of a node that is not in the list stay. -/
theorem Inserted.frame (I : Inserted h h' l x as.getLast? bs.head?) {n : Ref w} (hx : n ≠ x)
    (hn : n ∉ as ++ bs) :
    (h'.node n).next = (h.node n).next ∧ (h'.node n).prev = (h.node n).prev := by
  obtain ⟨hna, hnb⟩ := ne_neighbours hn
  rw [I.next, I.prev, if_neg hx, if_neg hx, if_neg hna, if_neg hnb]
  exact ⟨rfl, rfl⟩

/-- The links of a node that is not in the list stay. -/
theorem Removed.frame (D : Removed h h' l x as.getLast? bs.head?) {n : Ref w} (hx : n ≠ x)
    (hn : n ∉ as ++ bs) :
    (h'.node n).next = (h.node n).next ∧ (h'.node n).prev = (h.node n).prev := by
  obtain ⟨hna, hnb⟩ := ne_neighbours hn
  rw [D.next, D.prev, if_neg hx, if_neg hx, if_neg hna, if_neg hnb]
  exact ⟨rfl, rfl⟩

end

namespace Rep

variable {h h' : Heap α w} {seq : Ref w → List (Ref w)} {l x : Ref w} {as bs : List (Ref w)}

theorem consistent_of_length (R : Rep h seq) (hlt : (seq l).length < 2 ^ w) : Consistent h l := by
  refine ⟨seq l, ?_, ?_, ?_, R.mem l⟩
  · exact R.head l ▸ (R.links l).chain_next
  · exact R.tail l ▸ (R.links l).chain_prev
  · rw [R.size, BitVec.toNat_ofNat, mod_eq_of_lt hlt]

/-- There are fewer nodes than addresses, and so their number is a size. -/
theorem length_lt (R : Rep h seq) (l : Ref w) : (seq l).length < 2 ^ w := by
  let address : Ref w → Nat := fun r => r.1.toNat
  have hinj : Function.Injective address := fun r s e => Subtype.ext (BitVec.eq_of_toNat_eq e)
  have hsub : ((seq l).map address).toFinset ⊆ (Finset.range (2 ^ w)).erase 0 := by
    intro a ha
    obtain ⟨r, -, rfl⟩ := mem_map.1 (mem_toFinset.1 ha)
    have hne : r.1.toNat ≠ 0 := fun e => r.2 (BitVec.eq_of_toNat_eq e)
    exact Finset.mem_erase.2 ⟨hne, Finset.mem_range.2 r.1.isLt⟩
  have hle := Finset.card_le_card hsub
  rw [toFinset_card_of_nodup ((R.nodup l).map hinj), length_map,
    Finset.card_erase_of_mem (by simp), Finset.card_range] at hle
  exact lt_of_le_sub_one (Nat.two_pow_pos w) hle

theorem consistent (R : Rep h seq) (l : Ref w) : Consistent h l :=
  R.consistent_of_length (R.length_lt l)

/-- A node is in one list only. -/
theorem list_eq (R : Rep h seq) {m n : Ref w} (hl : n ∈ seq l) (hm : n ∈ seq m) : m = l :=
  Option.some.inj (((R.mem m n).1 hm).symm.trans ((R.mem l n).1 hl))

/-- **Insertion.**  A node that is in no list is put between two neighbours. -/
theorem insert (R : Rep h seq) (e : seq l = as ++ bs) (hx : (h.node x).list = none)
    (hux : h.used x = true) (hul : h.used l = true) (I : Inserted h h' l x as.getLast? bs.head?) :
    Rep h' (update seq l (as ++ x :: bs)) := by
  have hnot : ∀ m, x ∉ seq m := fun m hm => by simp [(R.mem m x).1 hm] at hx
  have hnd : (as ++ x :: bs).Nodup := by
    rw [nodup_middle, nodup_cons, ← e]
    exact ⟨hnot l, R.nodup l⟩
  refine ⟨fun m => ?_, fun m => ?_, fun m => ?_, fun m => ?_, fun m => ?_, fun m n => ?_,
    fun n hn => ?_, fun n m hn => ?_⟩
  · by_cases hm : m = l
    · subst hm
      rw [update_self]
      exact (e ▸ R.links m).insert hnd I.next I.prev
    rw [update_of_ne hm]
    refine (R.links m).congr fun n hn => I.frame (fun e => hnot m (e ▸ hn)) ?_
    exact e ▸ fun hl => hm (R.list_eq hl hn)
  · by_cases hm : m = l
    · subst hm
      rwa [update_self]
    · rw [update_of_ne hm]
      exact R.nodup m
  · rw [I.head]
    by_cases hm : m = l
    · subst hm
      rw [update_self, R.head, e]
      cases as <;> simp [getLast?_cons]
    · simp [hm, R.head]
  · rw [I.tail]
    by_cases hm : m = l
    · subst hm
      rw [update_self, R.tail, e]
      cases bs <;> simp [getLast?_append, getLast?_cons]
    · simp [hm, R.tail]
  · rw [I.size]
    by_cases hm : m = l
    · subst hm
      rw [if_pos rfl, update_self, R.size, e, length_append, length_append,
        length_cons, ← add_assoc, BitVec.ofNat_add (x := as.length + bs.length)]
      rfl
    · rw [if_neg hm, update_of_ne hm, R.size]
  · rw [I.list]
    by_cases hm : m = l
    · subst hm
      rw [update_self, mem_append, mem_cons]
      by_cases hn : n = x
      · simp [hn]
      · rw [if_neg hn, ← R.mem, e, mem_append]
        simp [hn]
    rw [update_of_ne hm]
    by_cases hn : n = x
    · subst hn
      simp [hnot m, Ne.symm hm]
    · rw [if_neg hn, R.mem]
  · rw [I.list] at hn
    have hnx : n ≠ x := fun e => by simp [e] at hn
    rw [if_neg hnx] at hn
    have hnl : n ∉ as ++ bs := e ▸ fun hm => by simp [(R.mem l n).1 hm] at hn
    rw [(I.frame hnx hnl).1, (I.frame hnx hnl).2]
    exact R.loose n hn
  · rw [I.list] at hn
    rw [I.used]
    by_cases hnx : n = x
    · rw [if_pos hnx] at hn
      rw [hnx, ← Option.some.inj hn]
      exact ⟨hux, hul⟩
    · rw [if_neg hnx] at hn
      exact R.used n m hn

/-- **Removal.**  A node is taken out from between its neighbours. -/
theorem erase (R : Rep h seq) (e : seq l = as ++ x :: bs)
    (D : Removed h h' l x as.getLast? bs.head?) : Rep h' (update seq l (as ++ bs)) := by
  have hxl : x ∈ seq l := by simp [e]
  have hnd : (as ++ x :: bs).Nodup := e ▸ R.nodup l
  obtain ⟨hxn, hnd'⟩ := nodup_cons.1 (nodup_middle.1 hnd)
  have hout : ∀ {n}, n ∉ seq l → n ∉ as ++ bs := fun hn hm => hn (by
    rw [e]
    exact (mem_append.1 hm).elim (mem_append_left _)
      fun hb => mem_append_right _ (.tail _ hb))
  refine ⟨fun m => ?_, fun m => ?_, fun m => ?_, fun m => ?_, fun m => ?_, fun m n => ?_,
    fun n hn => ?_, fun n m hn => ?_⟩
  · by_cases hm : m = l
    · subst hm
      rw [update_self]
      refine (e ▸ R.links m).erase hnd (fun n hn => ?_) fun n hn => ?_
      · rw [D.next, if_neg hn]
      · rw [D.prev, if_neg hn]
    rw [update_of_ne hm]
    refine (R.links m).congr fun n hn => D.frame ?_ (hout fun hl => hm (R.list_eq hl hn))
    rintro rfl
    exact hm (R.list_eq hxl hn)
  · by_cases hm : m = l
    · subst hm
      rwa [update_self]
    · rw [update_of_ne hm]
      exact R.nodup m
  · rw [D.head]
    by_cases hm : m = l
    · subst hm
      rw [update_self, R.head, e]
      cases as <;> simp [getLast?_cons]
    · simp [hm, R.head]
  · rw [D.tail]
    by_cases hm : m = l
    · subst hm
      rw [update_self, R.tail, e]
      cases bs <;> simp [getLast?_append, getLast?_cons]
    · simp [hm, R.tail]
  · rw [D.size]
    by_cases hm : m = l
    · subst hm
      rw [if_pos rfl, update_self, R.size, e, length_append, length_append,
        length_cons, ← add_assoc, BitVec.ofNat_add (x := as.length + bs.length)]
      exact BitVec.add_sub_cancel _ _
    · rw [if_neg hm, update_of_ne hm, R.size]
  · rw [D.list]
    by_cases hnx : n = x
    · subst hnx
      rw [if_pos rfl]
      by_cases hm : m = l
      · subst hm
        simpa using hxn
      · rw [update_of_ne hm]
        simpa using fun hn => hm (R.list_eq hxl hn)
    rw [if_neg hnx, ← R.mem]
    by_cases hm : m = l
    · subst hm
      simp [e, hnx]
    · rw [update_of_ne hm]
  · rw [D.list] at hn
    by_cases hnx : n = x
    · rw [D.next, D.prev, if_pos hnx, if_pos hnx]
      exact ⟨rfl, rfl⟩
    rw [if_neg hnx] at hn
    have hnl : n ∉ seq l := fun hm => by simp [(R.mem l n).1 hm] at hn
    rw [(D.frame hnx (hout hnl)).1, (D.frame hnx (hout hnl)).2]
    exact R.loose n hn
  · rw [D.list] at hn
    rw [D.used]
    by_cases hnx : n = x
    · simp [hnx] at hn
    · rw [if_neg hnx] at hn
      exact R.used n m hn

end Rep

/-! ### The methods are made of these -/

section
variable {h : Heap α w} {l x y : Ref w}

theorem ListNode.remove_removed (hl : (h.node x).list = some l) :
    Removed h (remove h x) l x (h.node x).prev (h.node x).next := by
  rw [remove, hl]
  dsimp only
  rw [unlink]
  -- one case for each of the places that the node can be at
  cases hP : (h.node x).prev <;> cases hQ : (h.node x).next
  all_goals
    refine ⟨fun n => ?_, fun n => ?_, fun n => ?_, fun m => ?_, fun m => ?_, fun m => ?_, ?_⟩ <;>
    simp only [setHead, setTail, decrement, Heap.node_setNode,
      Heap.list_setNode, Heap.used_setNode, Heap.node_setList, Heap.list_setList,
      Heap.used_setList] <;>
    grind

theorem ListNode.linkBefore_inserted (hne : x ≠ y) (hx : (h.node x).prev ≠ some x) :
    Inserted h (linkBefore h x y l) l y (h.node x).prev (some x) := by
  rw [linkBefore]
  cases hP : (h.node x).prev
  all_goals
    refine ⟨fun n => ?_, fun n => ?_, fun n => ?_, fun m => ?_, fun m => ?_, fun m => ?_, ?_⟩ <;>
    simp only [setHead, increment, Heap.node_setNode,
      Heap.list_setNode, Heap.used_setNode, Heap.node_setList, Heap.list_setList,
      Heap.used_setList] <;>
    grind

theorem ListNode.linkAfter_inserted (hne : x ≠ y) (hx : (h.node x).next ≠ some x) :
    Inserted h (linkAfter h x y l) l y (some x) (h.node x).next := by
  rw [linkAfter]
  cases hQ : (h.node x).next
  all_goals
    refine ⟨fun n => ?_, fun n => ?_, fun n => ?_, fun m => ?_, fun m => ?_, fun m => ?_, ?_⟩ <;>
    simp only [setTail, increment, Heap.node_setNode,
      Heap.list_setNode, Heap.used_setNode, Heap.node_setList, Heap.list_setList,
      Heap.used_setList] <;>
    grind

theorem PonyList.setBoth_inserted
    (hx : ((ListNode.remove h x).node x).prev = none ∧ ((ListNode.remove h x).node x).next = none)
    (hl : ((ListNode.remove h x).list l).size = 0) :
    Inserted (ListNode.remove h x) (PonyList.setBoth h l x) l x none none := by
  rw [PonyList.setBoth, ListNode.setList]
  refine ⟨fun n => ?_, fun n => ?_, fun n => ?_, fun m => ?_, fun m => ?_, fun m => ?_, ?_⟩ <;>
    simp only [PonyList.setHead, PonyList.setTail, Heap.node_setNode, Heap.list_setNode,
      Heap.used_setNode, Heap.node_setList, Heap.list_setList, Heap.used_setList] <;>
    grind

theorem ListNode.used_remove : (remove h x).used = h.used := by
  cases hl : (h.node x).list with
  | none => rw [remove, hl]
  | some l => exact (remove_removed hl).used

theorem ListNode.list_remove : ((remove h x).node x).list = none := by
  cases hl : (h.node x).list with
  | none => rw [remove, hl]; exact hl
  | some l => rw [(remove_removed hl).list, if_pos rfl]

theorem ListNode.used_append : (append h x y).2.used = h.used := by
  rw [append]
  split_ifs
  · rfl
  cases (h.node x).list with
  | none => rfl
  | some l =>
    dsimp only
    rw [linkAfter]
    cases ((remove h y).node x).next <;> exact used_remove

theorem ListNode.used_prepend : (prepend h x y).2.used = h.used := by
  rw [prepend]
  split_ifs
  · rfl
  cases (h.node x).list with
  | none => rfl
  | some l =>
    dsimp only
    rw [linkBefore]
    cases ((remove h y).node x).prev <;> exact used_remove

theorem PonyList.used_appendNode : (appendNode h l x).used = h.used := by
  rw [appendNode]
  cases (h.list l).tail with
  | none => exact used_remove
  | some t => exact used_append

theorem PonyList.used_prependNode : (prependNode h l x).used = h.used := by
  rw [prependNode]
  cases (h.list l).head with
  | none => exact used_remove
  | some t => exact used_prepend

end

/-! ### What each method makes of the sequences -/

namespace Rep

variable {h : Heap α w} {seq : Ref w → List (Ref w)} {l x y : Ref w}

/-- The sequences without the node `x`. -/
def without (seq : Ref w → List (Ref w)) (x : Ref w) : Ref w → List (Ref w) :=
  fun m => (seq m).erase x

theorem length_without_lt (hx : x ∈ seq l) : (without seq x l).length < (seq l).length :=
  (length_erase_of_mem hx).trans_lt (sub_one_lt (length_pos_of_mem hx).ne')

section
variable (R : Rep h seq)
include R

/-- `ListNode.remove` takes the node out of the list it is in, if any. -/
theorem remove (x : Ref w) : Rep (ListNode.remove h x) (without seq x) := by
  cases hl : (h.node x).list with
  | none =>
    have hseq : without seq x = seq := by
      funext m
      exact erase_of_not_mem fun hm => by simp [(R.mem m x).1 hm] at hl
    rw [ListNode.remove, hl, hseq]
    exact R
  | some l =>
    have hx : x ∈ seq l := (R.mem l x).2 hl
    obtain ⟨as, bs, e⟩ := append_of_mem hx
    obtain ⟨hp, hn⟩ := (e ▸ R.links l).at_mem
    have hseq : without seq x = update seq l (as ++ bs) := by
      funext m
      by_cases hm : m = l
      · subst hm
        have hxa : x ∉ as := fun ha =>
          (nodup_cons.1 (nodup_middle.1 (e ▸ R.nodup m))).1 (by simp [ha])
        rw [update_self, without, e, erase_append_right _ hxa, erase_cons_head]
      · rw [update_of_ne hm]
        exact erase_of_not_mem fun hxm => hm (R.list_eq hx hxm)
    rw [hseq]
    exact R.erase e (hp ▸ hn ▸ remove_removed hl)

theorem ne_of_without {as bs : List (Ref w)} (e : without seq y l = as ++ x :: bs) : x ≠ y := by
  have hx : x ∈ without seq y l := by simp [e]
  rintro rfl
  exact absurd (((R.remove x).mem l x).1 hx) (by rw [list_remove]; simp)

/-- `ListNode.append`: `y` follows `x`. -/
theorem linkAfter {as bs : List (Ref w)} (e : without seq y l = as ++ x :: bs)
    (hl : h.used l = true) (hy : h.used y = true) :
    Rep (ListNode.linkAfter (ListNode.remove h y) x y l)
      (update (without seq y) l (as ++ x :: y :: bs)) := by
  have R' := R.remove y
  have hnd : (as ++ x :: bs).Nodup := e ▸ R'.nodup l
  obtain ⟨-, hn⟩ := (e ▸ R'.links l).at_mem
  have hself : ((ListNode.remove h y).node x).next ≠ some x := by
    rw [hn]
    intro e
    exact (nodup_cons.1 (nodup_middle.1 hnd)).1
      (mem_append_right _ (mem_of_mem_head? e))
  have I := linkAfter_inserted (l := l) (R.ne_of_without e) hself
  rw [hn] at I
  have e' : without seq y l = (as ++ [x]) ++ bs := by rw [e, append_assoc]; rfl
  have I' : Inserted (ListNode.remove h y) (ListNode.linkAfter (ListNode.remove h y) x y l) l y
      (as ++ [x]).getLast? bs.head? := by rwa [getLast?_concat]
  have := R'.insert e' list_remove (by rwa [used_remove])
    (by rwa [used_remove]) I'
  rwa [append_assoc] at this

/-- `ListNode.prepend`: `y` precedes `x`. -/
theorem linkBefore {as bs : List (Ref w)} (e : without seq y l = as ++ x :: bs)
    (hl : h.used l = true) (hy : h.used y = true) :
    Rep (ListNode.linkBefore (ListNode.remove h y) x y l)
      (update (without seq y) l (as ++ y :: x :: bs)) := by
  have R' := R.remove y
  have hnd : (as ++ x :: bs).Nodup := e ▸ R'.nodup l
  obtain ⟨hp, -⟩ := (e ▸ R'.links l).at_mem
  have hself : ((ListNode.remove h y).node x).prev ≠ some x := by
    rw [hp]
    intro e
    exact (nodup_cons.1 (nodup_middle.1 hnd)).1
      (mem_append_left _ (mem_of_mem_getLast? e))
  have I := linkBefore_inserted (l := l) (R.ne_of_without e) hself
  rw [hp] at I
  exact R'.insert e list_remove (by rwa [used_remove])
    (by rwa [used_remove]) (by rwa [head?_cons])

/-- `_set_both`, of a list that has no nodes. -/
theorem setBoth (e : seq l = []) (hl : h.used l = true) (hx : h.used x = true) :
    Rep (PonyList.setBoth h l x) (update (without seq x) l [x]) := by
  have R' := R.remove x
  have e' : without seq x l = [] := by rw [without, e]; rfl
  refine R'.insert (show _ = [] ++ [] from e') list_remove (by rwa [used_remove])
    (by rwa [used_remove]) (setBoth_inserted (R'.loose x list_remove) ?_)
  rw [R'.size, e']
  rfl

theorem exists_without (hne : x ≠ y) (hl : (h.node x).list = some l) :
    ∃ as bs, without seq y l = as ++ x :: bs :=
  append_of_mem ((mem_erase_of_ne hne).2 ((R.mem l x).2 hl))

theorem nodeAppend (hy : h.used y = true) : ∃ seq', Rep (ListNode.append h x y).2 seq' := by
  rw [ListNode.append]
  split_ifs with hc
  · exact ⟨seq, R⟩
  cases hl : (h.node x).list with
  | none => exact ⟨seq, R⟩
  | some l =>
    obtain ⟨as, bs, e⟩ := R.exists_without (fun e => hc (.inr e)) hl
    exact ⟨_, R.linkAfter e (R.used x l hl).2 hy⟩

theorem nodePrepend (hy : h.used y = true) : ∃ seq', Rep (ListNode.prepend h x y).2 seq' := by
  rw [ListNode.prepend]
  split_ifs with hc
  · exact ⟨seq, R⟩
  cases hl : (h.node x).list with
  | none => exact ⟨seq, R⟩
  | some l =>
    obtain ⟨as, bs, e⟩ := R.exists_without (fun e => hc (.inr e)) hl
    exact ⟨_, R.linkBefore e (R.used x l hl).2 hy⟩

/-- The sequences that a node is moved in, when it is in its place already. -/
theorem update_without (hx : x ∈ seq l) {xs : List (Ref w)} (e : seq l = xs) :
    update (without seq x) l xs = seq := by
  funext m
  by_cases hm : m = l
  · subst hm
    rw [update_self, e]
  · rw [update_of_ne hm]
    exact erase_of_not_mem fun hxm => hm (R.list_eq hx hxm)

/-- **`append_node`** makes the node the last of the list, wherever it was. -/
theorem appendNode (hl : h.used l = true) (hx : h.used x = true) :
    Rep (PonyList.appendNode h l x) (update (without seq x) l (without seq x l ++ [x])) := by
  rw [PonyList.appendNode, R.tail]
  obtain hs | ⟨cs, t, hs⟩ := eq_nil_or_concat' (seq l)
  · have e : without seq x l = [] := by rw [without, hs]; rfl
    rw [hs, e]
    exact R.setBoth hs hl hx
  have ht : t ∈ seq l := by simp [hs]
  obtain ⟨-, hn⟩ := (hs ▸ R.links l).at_mem
  rw [hs, getLast?_concat]
  dsimp only
  rw [ListNode.append]
  by_cases htx : t = x
  · -- it is the last node already
    subst htx
    have htc : t ∉ cs := fun hc =>
      (disjoint_of_nodup_append (hs ▸ R.nodup l)) hc (mem_singleton_self t)
    have e : without seq t l ++ [t] = seq l := by
      rw [without, hs, erase_append_right _ htc, erase_cons_head, append_nil]
    rw [if_pos (.inr rfl), e, R.update_without ht rfl]
    exact R
  have e : without seq x l = cs.erase x ++ [t] := by
    rw [without, hs]
    by_cases hxc : x ∈ cs
    · exact erase_append_left _ hxc
    · rw [erase_append_right _ hxc, erase_of_not_mem hxc,
        erase_of_not_mem (by simpa using Ne.symm htx)]
  rw [if_neg (by rw [hn]; simpa using htx), (R.mem l t).1 ht]
  have := R.linkAfter e hl hx
  rwa [← singleton_append, ← append_assoc, ← e] at this

/-- **`prepend_node`** makes the node the first of the list, wherever it was. -/
theorem prependNode (hl : h.used l = true) (hx : h.used x = true) :
    Rep (PonyList.prependNode h l x) (update (without seq x) l (x :: without seq x l)) := by
  rw [PonyList.prependNode, R.head]
  cases hs : seq l with
  | nil =>
    have e : without seq x l = [] := by rw [without, hs]; rfl
    rw [e]
    exact R.setBoth hs hl hx
  | cons t cs =>
    have ht : t ∈ seq l := by simp [hs]
    have hlinks : Links _ _ none ([] ++ t :: cs) none := hs ▸ R.links l
    obtain ⟨hp, -⟩ := hlinks.at_mem
    rw [head?_cons]
    dsimp only
    rw [ListNode.prepend]
    by_cases htx : t = x
    · -- it is the first node already
      subst htx
      have e : t :: without seq t l = seq l := by rw [without, hs, erase_cons_head]
      rw [if_pos (.inr rfl), e, R.update_without ht rfl]
      exact R
    have e : without seq x l = t :: cs.erase x := by
      rw [without, hs, erase_cons_tail (by rwa [beq_iff_eq])]
    rw [if_neg (by rw [hp]; simpa using htx), (R.mem l t).1 ht, e]
    exact R.linkBefore (show _ = [] ++ t :: cs.erase x from e) hl hx

/-- The sequences are those of the links; the items play no part. -/
theorem congr {h' : Heap α w}
    (hn : ∀ n, (h'.node n).list = (h.node n).list ∧ (h'.node n).prev = (h.node n).prev ∧
      (h'.node n).next = (h.node n).next)
    (hl : ∀ l, h'.list l = h.list l) (hu : ∀ r, h.used r = true → h'.used r = true) :
    Rep h' seq := by
  refine ⟨fun l => ?_, R.nodup, fun l => ?_, fun l => ?_, fun l => ?_, fun l n => ?_,
    fun n hn' => ?_, fun n l hn' => ?_⟩
  · exact (R.links l).congr fun n _ => ⟨(hn n).2.2, (hn n).2.1⟩
  · rw [hl, R.head]
  · rw [hl, R.tail]
  · rw [hl, R.size]
  · rw [(hn n).1, R.mem]
  · rw [(hn n).1] at hn'
    rw [(hn n).2.1, (hn n).2.2]
    exact R.loose n hn'
  · rw [(hn n).1] at hn'
    exact ⟨hu n (R.used n l hn').1, hu l (R.used n l hn').2⟩

/-- A list without nodes is as it was created. -/
theorem list_eq_nil (hl : seq l = []) : h.list l = {} := by
  have h1 := R.head l
  have h2 := R.tail l
  have h3 := R.size l
  rw [hl] at h1 h2 h3
  cases e : h.list l
  rw [e] at h1 h2 h3
  simp_all

theorem newNode (hx : h.used x = false) (item : Option α) : Rep (ListNode.create h x item) seq := by
  have hl : (h.node x).list = none := by
    cases e : (h.node x).list with
    | none => rfl
    | some l => simp [(R.used x l e).1] at hx
  have hx' := R.loose x hl
  refine R.congr (fun n => ?_) (fun _ => rfl) fun r hr => ?_
  · by_cases hn : n = x
    · subst hn
      simp [ListNode.create, hl, hx']
    · simp [ListNode.create, hn]
  · by_cases hn : r = x <;> simp [ListNode.create, hn, hr]

theorem newList (hl : h.used l = false) : Rep (PonyList.create h l) seq := by
  have hs : seq l = [] := eq_nil_iff_forall_not_mem.2 fun n hn => by
    simp [(R.used n l ((R.mem l n).1 hn)).2] at hl
  refine R.congr (fun _ => ⟨rfl, rfl, rfl⟩) (fun m => ?_) fun r hr => ?_
  · by_cases hm : m = l
    · subst hm
      simp [PonyList.create, R.list_eq_nil hs]
    · simp [PonyList.create, hm]
  · by_cases hn : r = l <;> simp [PonyList.create, hn, hr]

theorem nodeUpdate (value : Option α) : Rep (ListNode.update h x value).2 seq := by
  refine R.congr (fun n => ?_) (fun _ => rfl) fun _ hr => hr
  by_cases hn : n = x <;> simp [ListNode.update, hn]

/-- A list whose size is zero has no nodes. -/
theorem eq_nil_of_size (hl : (h.list l).size = 0) : seq l = [] := by
  have hlen := congrArg BitVec.toNat (R.size l)
  rw [hl, BitVec.toNat_ofNat, mod_eq_of_lt (R.length_lt l)] at hlen
  exact eq_nil_of_length_eq_zero hlen.symm

theorem size_pos (hl : 0 < (h.list l).size) : seq l ≠ [] := by
  intro hs
  rw [R.list_eq_nil hs] at hl
  exact absurd hl (by simp)

/-- `clear` does no harm to a list that has no nodes. -/
theorem clear (hl : (h.list l).size = 0) : Rep (PonyList.clear h l) seq := by
  have hs := R.eq_nil_of_size hl
  refine R.congr (fun _ => ⟨rfl, rfl, rfl⟩) (fun m => ?_) fun _ hr => hr
  by_cases hm : m = l
  · subst hm
    simp [PonyList.clear, PonyList.setHead, PonyList.setTail, R.list_eq_nil hs]
  · simp [PonyList.clear, PonyList.setHead, PonyList.setTail, hm]

/-- The nodes of a list that is not garbage are not garbage. -/
theorem not_dead {dead : Ref w → Bool} (hg : h.Garbage dead)
    (hl : dead l = false) : ∀ n ∈ seq l, dead n = false := by
  have key : ∀ (xs : List (Ref w)) (p : Option (Ref w)),
      Links (fun n => (h.node n).next) (fun n => (h.node n).prev) p xs none →
      (∀ n, xs.head? = some n → dead n = false) → ∀ n ∈ xs, dead n = false := by
    -- along the list: each node keeps the next one alive
    intro xs
    induction xs with
    | nil => intro _ _ _ n hn; cases hn
    | cons x xs ih =>
      rintro p ⟨-, hx, hxs⟩ hd n hn
      have hdx : dead x = false := hd x rfl
      rcases mem_cons.1 hn with rfl | hn
      · exact hdx
      refine ih _ hxs (fun m hm => ?_) n hn
      by_contra hdm
      rw [Option.or_none] at hx
      exact (hg x hdx m (eq_true_of_not_eq_false hdm)).2.2.1 (hx.trans hm)
  refine key _ _ (R.links l) fun n hn => ?_
  by_contra hdn
  exact (hg l hl n (eq_true_of_not_eq_false hdn)).2.2.2.1 ((R.head l).trans hn)

theorem collect {dead : Ref w → Bool} (hg : h.Garbage dead) :
    Rep (h.collect dead) fun l => if dead l then [] else seq l := by
  refine ⟨fun l => ?_, fun l => ?_, fun l => ?_, fun l => ?_, fun l => ?_, fun l n => ?_,
    fun n hn => ?_, fun n l hn => ?_⟩
  · cases hl : dead l with
    | true => trivial
    | false =>
      refine (R.links l).congr fun n hn => ?_
      simp [Heap.collect, R.not_dead hg hl n hn]
  · cases hl : dead l <;> simp [R.nodup]
  · cases hl : dead l <;> simp [Heap.collect, hl, R.head]
  · cases hl : dead l <;> simp [Heap.collect, hl, R.tail]
  · cases hl : dead l <;> simp [Heap.collect, hl, R.size]
  · cases hn : dead n with
    | true =>
      cases hl : dead l with
      | true => simp [Heap.collect, hn]
      | false =>
        have hnot : n ∉ seq l := fun hm => by simp [R.not_dead hg hl n hm] at hn
        simp [Heap.collect, hn, hnot]
    | false =>
      cases hl : dead l with
      | true => simpa [Heap.collect, hn] using (hg n hn l hl).1
      | false => simp [Heap.collect, hn, R.mem]
  · cases hd : dead n with
    | true => simp [Heap.collect, hd]
    | false =>
      rw [Heap.collect] at hn ⊢
      simp only [hd, false_eq_true, if_false] at hn ⊢
      exact R.loose n hn
  · cases hd : dead n with
    | true => simp [Heap.collect, hd] at hn
    | false =>
      simp only [Heap.collect, hd, false_eq_true, if_false] at hn
      have hl : dead l = false := by
        by_contra hdl
        exact (hg n hd l (eq_true_of_not_eq_false hdl)).1 hn
      simp [Heap.collect, hd, hl, R.used n l hn]

end

end Rep

end SpacePony.Collections
