import SpacePony.Packages.Collections.ListRep

/-!
# Packages — collections — the mutable list over whole runs

* `Op.exec_rep`, `Op.exec_ends`: every operation leaves lists that are sequences of nodes, `clear`
  of a list that has nodes apart, and its loop ends.
* `consistent_without_clear`: so lists stay consistent in every run that clears empty lists only.
* `clear_leaves_owner`: a list that is cleared keeps its nodes' owner, and a node removed later
  takes its size below zero.
-/

namespace SpacePony.Collections

open PonyList Linked

variable {α : Type} {w : Nat} {h h' : Heap α w} {seq : Ref w → List (Ref w)} {l this that : Ref w}

/-! ### The loops -/

namespace PonyList

/-- What a round of the loop of `append_list` or `prepend_list` needs: `that` has a node to pick,
and putting it into `this` takes it from `that`. -/
def Moves (pick : PonyList w → Option (Ref w)) (put : Heap α w → Ref w → Heap α w)
    (this that : Ref w) : Prop :=
  ∀ (h : Heap α w) (seq : Ref w → List (Ref w)), Rep h seq → h.used this = true → seq that ≠ [] →
    ∃ n seq', pick (h.list that) = some n ∧ Rep (put h n) seq' ∧ (put h n).used this = true ∧
      (seq' that).length < (seq that).length

theorem appendNode_moves (hne : this ≠ that) :
    Moves (α := α) head (fun h n => appendNode h this n) this that := by
  intro h seq R hu hs
  obtain ⟨n, ns, e⟩ := List.exists_cons_of_ne_nil hs
  have hn : n ∈ seq that := by simp [e]
  refine ⟨n, _, by rw [R.head, e]; rfl,
    R.appendNode hu (R.used n that ((R.mem that n).1 hn)).1, by rwa [used_appendNode], ?_⟩
  rw [Function.update_of_ne hne.symm]
  exact Rep.length_without_lt hn

theorem prependNode_moves (hne : this ≠ that) :
    Moves (α := α) tail (fun h n => prependNode h this n) this that := by
  intro h seq R hu hs
  obtain ⟨n, e⟩ := Option.isSome_iff_exists.1 (List.getLast?_isSome.2 hs)
  have hn : n ∈ seq that := List.mem_of_mem_getLast? e
  refine ⟨n, _, by rw [R.tail, e],
    R.prependNode hu (R.used n that ((R.mem that n).1 hn)).1, by rwa [used_prependNode], ?_⟩
  rw [Function.update_of_ne hne.symm]
  exact Rep.length_without_lt hn

section
variable {pick : PonyList w → Option (Ref w)} {put : Heap α w → Ref w → Heap α w} {k : Nat}

theorem moveLoop_rep (M : Moves pick put this that) (R : Rep h seq) (hu : h.used this = true)
    (e : moveLoop pick put that k h = some h') : ∃ seq', Rep h' seq' := by
  induction k generalizing h seq with
  | zero => cases e
  | succ k ih =>
    rw [moveLoop] at e
    split_ifs at e with hsz
    · obtain ⟨n, seq₁, hp, R₁, hu₁, -⟩ := M h seq R hu (R.size_pos hsz)
      rw [hp] at e
      exact ih R₁ hu₁ e
    · cases e
      exact ⟨seq, R⟩

theorem moveLoop_ends (M : Moves pick put this that) (R : Rep h seq) (hu : h.used this = true)
    (hk : (seq that).length < k) : ∃ h', moveLoop pick put that k h = some h' := by
  induction k generalizing h seq with
  | zero => cases hk
  | succ k ih =>
    rw [moveLoop]
    split_ifs with hsz
    · obtain ⟨n, seq₁, hp, R₁, hu₁, hlt⟩ := M h seq R hu (R.size_pos hsz)
      rw [hp]
      exact ih R₁ hu₁ (by omega)
    · exact ⟨h, rfl⟩

end

theorem take_rep (R : Rep h seq) (o : Option (Ref w)) : ∃ seq', Rep (take h o).2 seq' := by
  cases o with
  | none => exact ⟨seq, R⟩
  | some n => exact ⟨_, (R.remove n).nodeUpdate none⟩

/-- A list that has nodes loses one when it is popped. -/
theorem pop_rep (R : Rep h seq) (hs : seq l ≠ []) :
    ∃ seq', Rep (pop h l).2 seq' ∧ (seq' l).length < (seq l).length := by
  obtain ⟨n, e⟩ := Option.isSome_iff_exists.1 (List.getLast?_isSome.2 hs)
  have hn : n ∈ seq l := List.mem_of_mem_getLast? e
  refine ⟨Rep.without seq n, ?_, ?_⟩
  · rw [pop, R.tail, e]
    exact (R.remove n).nodeUpdate none
  · exact Rep.length_without_lt hn

theorem truncate_rep {len : BitVec w} {k : Nat} (R : Rep h seq)
    (e : truncate len l k h = some h') : ∃ seq', Rep h' seq' := by
  induction k generalizing h seq with
  | zero => cases e
  | succ k ih =>
    rw [truncate] at e
    split_ifs at e with hsz
    · obtain ⟨seq₁, R₁⟩ := take_rep R (h.list l).tail
      rw [pop] at e
      revert e R₁
      rcases take h (h.list l).tail with ⟨_ | a, h₁⟩ <;> intro e R₁
      · cases e
        exact ⟨seq₁, R₁⟩
      · exact ih R₁ e
    · cases e
      exact ⟨seq, R⟩

theorem truncate_ends {len : BitVec w} {k : Nat} (R : Rep h seq) (hk : (seq l).length < k) :
    ∃ h', truncate len l k h = some h' := by
  induction k generalizing h seq with
  | zero => cases hk
  | succ k ih =>
    rw [truncate]
    split_ifs with hsz
    · have hpos : 0 < (h.list l).size := lt_of_le_of_lt (Nat.zero_le _) hsz
      obtain ⟨seq₁, R₁, hlt⟩ := pop_rep R (R.size_pos hpos)
      revert R₁
      rcases pop h l with ⟨_ | a, h₁⟩ <;> intro R₁
      · exact ⟨h₁, rfl⟩
      · exact ih R₁ (by omega)
    · exact ⟨h, rfl⟩

end PonyList

/-! ### Steps -/

/-- `clear` is used on empty lists only. -/
def ClearsEmpty (h : Heap α w) (op : Op α w) : Prop :=
  ∀ l, op = .clear l → (h.list l).size = 0

namespace Op

/-- **Step.**  An operation that clears no nodes leaves lists that are sequences of nodes. -/
theorem exec_rep {op : Op α w} {k : Nat} (R : Rep h seq) (ha : op.Allowed h)
    (hc : ClearsEmpty h op) (e : op.exec k h = some h') : ∃ seq', Rep h' seq' := by
  cases op with
  | newNode n item => cases e; exact ⟨_, R.newNode ha item⟩
  | newList l => cases e; exact ⟨_, R.newList ha⟩
  | push l n a =>
    cases e
    have hl : (ListNode.create h n (some a)).used l = true := by
      by_cases hn : l = n <;> simp [ListNode.create, hn, ha.1]
    exact ⟨_, (R.newNode ha.2 (some a)).appendNode hl (by simp [ListNode.create])⟩
  | unshift l n a =>
    cases e
    have hl : (ListNode.create h n (some a)).used l = true := by
      by_cases hn : l = n <;> simp [ListNode.create, hn, ha.1]
    exact ⟨_, (R.newNode ha.2 (some a)).prependNode hl (by simp [ListNode.create])⟩
  | pop l | shift l => cases e; exact take_rep R _
  | truncate l len => exact truncate_rep R e
  | remove l i =>
    cases e
    rw [PonyList.remove]
    cases PonyList.index h l i with
    | none => exact ⟨_, R⟩
    | some n => exact ⟨_, R.remove n⟩
  | clear l => cases e; exact ⟨_, R.clear (hc l rfl)⟩
  | prependNode l n => cases e; exact ⟨_, R.prependNode ha.1 ha.2⟩
  | appendNode l n => cases e; exact ⟨_, R.appendNode ha.1 ha.2⟩
  | appendList l m =>
    simp only [exec, PonyList.appendList] at e
    split_ifs at e with hne
    · exact moveLoop_rep (appendNode_moves hne) R ha.1 e
    · cases e
      exact ⟨_, R⟩
  | prependList l m =>
    simp only [exec, PonyList.prependList] at e
    split_ifs at e with hne
    · exact moveLoop_rep (prependNode_moves hne) R ha.1 e
    · cases e
      exact ⟨_, R⟩
  | nodePrepend n m => cases e; exact R.nodePrepend ha.2
  | nodeAppend n m => cases e; exact R.nodeAppend ha.2
  | nodeRemove n => cases e; exact ⟨_, R.remove n⟩
  | nodeUpdate n value => cases e; exact ⟨_, R.nodeUpdate value⟩
  | nodePop n => cases e; exact ⟨_, R.nodeUpdate none⟩
  | collect dead => cases e; exact ⟨_, R.collect ha⟩

/-- Every operation ends. -/
theorem exec_ends (R : Rep h seq) (op : Op α w) (ha : op.Allowed h) :
    ∃ k h', op.exec k h = some h' := by
  cases op with
  | truncate l len => exact ⟨_, truncate_ends R (Nat.lt_succ_self _)⟩
  | appendList l m =>
    refine ⟨(seq m).length + 1, ?_⟩
    simp only [exec, PonyList.appendList]
    split_ifs with hne
    · exact moveLoop_ends (appendNode_moves hne) R ha.1 (Nat.lt_succ_self _)
    · exact ⟨h, rfl⟩
  | prependList l m =>
    refine ⟨(seq m).length + 1, ?_⟩
    simp only [exec, PonyList.prependList]
    split_ifs with hne
    · exact moveLoop_ends (prependNode_moves hne) R ha.1 (Nat.lt_succ_self _)
    · exact ⟨h, rfl⟩
  | _ => exact ⟨0, _, rfl⟩

end Op

/-! ### Runs -/

theorem rep_empty : Rep ({} : Heap α w) fun _ => [] :=
  ⟨fun _ => trivial, fun _ => List.nodup_nil, fun _ => rfl, fun _ => rfl, fun _ => rfl,
    fun _ _ => by simp, fun _ _ => ⟨rfl, rfl⟩, fun _ _ hn => by simp at hn⟩

theorem Reach.rep (r : Reach ClearsEmpty h) : ∃ seq, Rep h seq := by
  induction r with
  | start => exact ⟨_, rep_empty⟩
  | step _ ha hc e ih =>
    obtain ⟨seq, R⟩ := ih
    exact Op.exec_rep R ha hc e

/-- **Lists stay consistent**, and no operation hangs, in every run that clears empty lists only. -/
theorem consistent_without_clear (r : Reach ClearsEmpty h) :
    (∀ l, Consistent h l) ∧ ∀ op : Op α w, op.Allowed h → ∃ k h', op.exec k h = some h' := by
  obtain ⟨seq, R⟩ := r.rep
  exact ⟨R.consistent, Op.exec_ends R⟩

/-- Three nodes are pushed onto a list at address 1, the last one is popped, and the first one goes
over to a list at address 5. -/
theorem consistent_after_pop : let l : Ref 64 := ⟨1, by decide⟩
    let m : Ref 64 := ⟨5, by decide⟩
    let n : Ref 64 := ⟨2, by decide⟩
    let h : Heap Bool 64 := appendNode (create (pop (push (push (push (create {} l) l n true) l
      ⟨3, by decide⟩ false) l ⟨4, by decide⟩ true) l).2 m) m n
    Reach ClearsEmpty h ∧ Consistent h l ∧ Consistent h m := by
  intro l m n h
  have r : Reach ClearsEmpty h := by
    have r₁ := @Reach.step Bool 64 ClearsEmpty _ _ (.newList l) 0 .start rfl (by rintro _ ⟨⟩) rfl
    have r₂ := @Reach.step _ _ _ _ _ (.push l n true) 0 r₁ ⟨rfl, rfl⟩ (by rintro _ ⟨⟩) rfl
    have r₃ := @Reach.step _ _ _ _ _ (.push l ⟨3, by decide⟩ false) 0 r₂ ⟨rfl, rfl⟩
      (by rintro _ ⟨⟩) rfl
    have r₄ := @Reach.step _ _ _ _ _ (.push l ⟨4, by decide⟩ true) 0 r₃ ⟨rfl, rfl⟩
      (by rintro _ ⟨⟩) rfl
    have r₅ := @Reach.step _ _ _ _ _ (.pop l) 0 r₄ rfl (by rintro _ ⟨⟩) rfl
    have r₆ := @Reach.step _ _ _ _ _ (.newList m) 0 r₅ rfl (by rintro _ ⟨⟩) rfl
    exact @Reach.step _ _ _ _ _ (.appendNode m n) 0 r₆ ⟨rfl, rfl⟩ (by rintro _ ⟨⟩) rfl
  exact ⟨r, (consistent_without_clear r).1 l, (consistent_without_clear r).1 m⟩

/-- A node is pushed, its list is cleared, and then the node is removed: the list has no head, and
the size 2^64 - 1. -/
theorem clear_leaves_owner :
    ¬ ∀ h : Heap Bool 64, Reach (fun _ _ => True) h → ∀ l, Consistent h l := by
  intro hall
  let l : Ref 64 := ⟨1, by decide⟩
  let n : Ref 64 := ⟨2, by decide⟩
  let h : Heap Bool 64 :=
    ListNode.remove (clear (push (create {} l) l n true) l) n
  have r : Reach (fun _ _ => True) h := by
    have r₁ := @Reach.step Bool 64 (fun _ _ => True) _ _ (.newList l) 0 .start rfl trivial rfl
    have r₂ := @Reach.step _ _ _ _ _ (.push l n true) 0 r₁ ⟨rfl, rfl⟩ trivial rfl
    have r₃ := @Reach.step _ _ _ _ _ (.clear l) 0 r₂ rfl trivial rfl
    exact @Reach.step _ _ _ _ _ (.nodeRemove n) 0 r₃ rfl trivial rfl
  obtain ⟨ns, hc, -, hlen, -⟩ := hall h r l
  have hhead : (h.list l).head = none := by decide
  have hsize : (h.list l).size = 0xffffffffffffffff := by decide
  rw [hhead] at hc
  cases hc
  rw [hsize] at hlen
  exact absurd hlen (by decide)

end SpacePony.Collections
