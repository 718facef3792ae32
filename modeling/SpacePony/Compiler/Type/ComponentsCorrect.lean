import SpacePony.Compiler.Type.Components
import SpacePony.Compiler.Type.Alias

/-!
# Compiler — the components are the strongly connected ones

The turns keep the invariant (`Tarjan.Inv.visit`, `Inv.look`, `Inv.leave`, `Inv.root`), so that in the
end the ids are the components (`tarjan_components`).  On the graph of the aliases they are those that
the pass over the base cases works with (`sameScc_iff`, `isCycleScc_iff`).
-/

namespace SpacePony.Alias

open Nat List Relation
open Prod (fst)
open Function (update update_apply update_eq_self update_of_ne update_self)

variable {g : Graph}

namespace Tarjan

/-! ### The invariant -/

/-- The node has an index. -/
def Visited {n : Nat} (s : Tarjan n) (v : Fin n) : Prop := s.tarjanIndex v ≠ none

/-- The index of a node that is visited. -/
def num {n : Nat} (s : Tarjan n) (v : Fin n) : Nat := (s.tarjanIndex v).getD 0

/-- The nodes on the work stack. -/
def gray {n : Nat} (s : Tarjan n) : List (Fin n) := s.work.map fst

/-- The edge has been looked at. -/
def Seen (g : Graph) (s : Tarjan g.count) (v w : Fin g.count) : Prop :=
  s.Visited v ∧ g.Edge v w ∧ ∀ i, (v, i) ∈ s.work → w ∈ (g.allEdges v).take i

/-- What holds in every state. -/
structure Inv (g : Graph) (s : Tarjan g.count) : Prop where
  num_lt : ∀ v, s.Visited v → s.num v < s.index
  /-- The stack is in the order of the indices. -/
  sorted : s.sccStack.Pairwise fun v w => s.num w < s.num v
  mem_stack : ∀ v, v ∈ s.sccStack ↔ s.Visited v ∧ s.sccId v = none
  onStack : ∀ v, s.onStack v = true ↔ v ∈ s.sccStack
  visited : ∀ v, s.sccId v ≠ none → s.Visited v
  gray : s.gray.Sublist s.sccStack
  /-- A low link is the index of a node that is reached. -/
  low : ∀ v ∈ s.gray, s.tarjanLowlink v ≤ s.num v ∧
    ∃ u ∈ s.sccStack, s.num u = s.tarjanLowlink v ∧ g.Reach v u
  seen : ∀ v w, s.Seen g v w → s.Visited w
  /-- An edge that leads down the stack has lowered a low link. -/
  lowered : ∀ x ∈ s.sccStack, ∀ y ∈ s.sccStack, s.Seen g x y → ∀ v ∈ s.gray, s.num v ≤ s.num x →
    ∃ q ∈ s.gray, s.num v ≤ s.num q ∧ s.tarjanLowlink q ≤ s.num y
  above : ∀ v ∈ s.gray, ∀ x ∈ s.sccStack, s.num v ≤ s.num x → g.Reach v x
  below : ∀ x ∈ s.sccStack, ∃ v ∈ s.gray, s.num v ≤ s.num x ∧ g.Reach x v
  id_lt : ∀ v c, s.sccId v = some c → c < s.sccCount
  /-- What has an id is closed. -/
  closed : ∀ v c, s.sccId v = some c → ∀ w, g.Edge v w → ∃ c' ≤ c, s.sccId w = some c'
  component : ∀ v c, s.sccId v = some c →
    ∀ w, g.Reach v w ∧ g.Reach w v ↔ s.sccId w = some c

theorem inv_init : Inv g ({} : Tarjan g.count) where
  num_lt _ h := absurd rfl h
  sorted := .nil
  mem_stack _ := ⟨nofun, fun h => absurd rfl h.1⟩
  onStack _ := ⟨nofun, nofun⟩
  visited _ h := absurd rfl h
  gray := .slnil
  low := nofun
  seen _ _ h := absurd rfl h.1
  lowered := nofun
  above := nofun
  below := nofun
  id_lt := nofun
  closed := nofun
  component := nofun

section
variable {s : Tarjan g.count} {v w x y : Fin g.count} {i : Nat} {work : List (Fin g.count × Nat)}

theorem Inv.nodup_num (I : Inv g s) : (s.sccStack.map s.num).Nodup :=
  (pairwise_map.2 I.sorted).imp fun h => ne_of_gt h

theorem Inv.nodup (I : Inv g s) : s.sccStack.Nodup := .of_map _ I.nodup_num

theorem Inv.gray_mem (I : Inv g s) (h : v ∈ s.gray) : v ∈ s.sccStack := I.gray.subset h

/-- The node at the top of the work stack was visited last of those on it. -/
theorem Inv.top (I : Inv g s) (hw : s.work = (v, i) :: work) :
    ∀ u ∈ work.map fst, s.num u < s.num v := by
  have h := I.sorted.sublist I.gray
  rw [Tarjan.gray, hw, map_cons] at h
  exact (pairwise_cons.1 h).1

theorem Inv.top_not_mem (I : Inv g s) (hw : s.work = (v, i) :: work) : v ∉ work.map fst :=
  fun h => lt_irrefl _ (I.top hw v h)

/-- What has an id leads only to what has a lower one. -/
theorem Inv.reach_id (I : Inv g s) {c : Nat} (hv : s.sccId v = some c) (h : g.Reach v w) :
    ∃ c' ≤ c, s.sccId w = some c' := by
  induction h with
  | refl => exact ⟨c, le_rfl, hv⟩
  | tail _ hedge ih =>
    obtain ⟨c', hle, hc'⟩ := ih
    obtain ⟨c'', hle', hc''⟩ := I.closed _ c' hc' _ hedge
    exact ⟨c'', hle'.trans hle, hc''⟩

theorem lower_eq {n : Nat} (s : Tarjan n) (v : Fin n) (low : Nat) : s.lower v low =
    { s with
      tarjanLowlink := update s.tarjanLowlink v (min low (s.tarjanLowlink v)) } := by
  unfold lower
  split
  · rw [min_eq_left (by omega)]
  · rw [min_eq_right (by omega), update_eq_self]

/-! ### A node is visited -/

theorem num_visit (s : Tarjan g.count) (w v : Fin g.count) :
    (s.visit w).num v = if v = w then s.index else s.num v := by
  show (update s.tarjanIndex w (some s.index) v).getD 0 = _
  rw [update_apply]
  split
  · rfl
  · rfl

theorem visited_visit (s : Tarjan g.count) (w v : Fin g.count) :
    (s.visit w).Visited v ↔ v = w ∨ s.Visited v := by
  show update s.tarjanIndex w (some s.index) v ≠ none ↔ _
  by_cases h : v = w
  · simp [h]
  · rw [update_of_ne h]
    simp [h, Visited]

/-- A node is visited, from every node on the work stack. -/
theorem Inv.visit (I : Inv g s) (hnone : s.tarjanIndex w = none) (hgray : work.map fst = s.gray)
    (hseen : ∀ x y, Seen g { s with work := work } x y → Seen g s x y ∨ y = w)
    (hreach : ∀ v ∈ s.gray, g.Reach v w) : Inv g (Tarjan.visit { s with work := work } w) := by
  have hnew : w ∉ s.sccStack := fun h => ((I.mem_stack w).1 h).1 hnone
  have hid : s.sccId w = none := by
    by_contra h
    exact I.visited w h hnone
  have hnum : ∀ v, (Tarjan.visit { s with work := work } w).num v =
      if v = w then s.index else s.num v := num_visit _ w
  have hold : ∀ v ∈ s.sccStack, (Tarjan.visit { s with work := work } w).num v = s.num v := by
    intro v hv
    rw [hnum, if_neg (ne_of_mem_of_not_mem hv hnew)]
  have hself : (Tarjan.visit { s with work := work } w).num w = s.index := by rw [hnum, if_pos rfl]
  have hlt : ∀ v ∈ s.sccStack, s.num v < s.index :=
    fun v hv => I.num_lt v ((I.mem_stack v).1 hv).1
  have hlow : ∀ v ∈ s.sccStack,
      (Tarjan.visit { s with work := work } w).tarjanLowlink v = s.tarjanLowlink v := by
    intro v hv
    exact update_of_ne (ne_of_mem_of_not_mem hv hnew) _ _
  have hgray' : (Tarjan.visit { s with work := work } w).gray = w :: s.gray := by
    rw [← hgray]
    rfl
  have hcases : ∀ v ∈ (Tarjan.visit { s with work := work } w).gray, v = w ∨ v ∈ s.gray := by
    intro v hv
    rw [hgray'] at hv
    exact mem_cons.1 hv
  have hsee : ∀ x y, (Tarjan.visit { s with work := work } w).Seen g x y →
      x ≠ w ∧ (s.Seen g x y ∨ y = w) := by
    rintro x y ⟨hx, hedge, hidx⟩
    have hxw : x ≠ w := by
      rintro rfl
      simpa using hidx 0 (.head _)
    have hx' : s.Visited x := ((visited_visit _ w x).1 hx).resolve_left hxw
    exact ⟨hxw, hseen x y ⟨hx', hedge, fun i hi => hidx i (.tail _ hi)⟩⟩
  refine ⟨?_, ?_, ?_, ?_, ?_, ?_, ?_, ?_, ?_, ?_, ?_, I.id_lt, I.closed, I.component⟩
  · intro v hv
    rw [hnum]
    split
    · exact lt_succ_self _
    rcases (visited_visit _ w v).1 hv with h | h
    · contradiction
    · exact lt_succ_of_lt (I.num_lt v h)
  · refine pairwise_cons.2 ⟨fun v hv => ?_, ?_⟩
    · rw [hold v hv, hself]
      exact hlt v hv
    · refine I.sorted.imp_of_mem fun hv hu h => ?_
      rwa [hold _ hv, hold _ hu]
  · intro v
    rw [visited_visit]
    show v ∈ w :: s.sccStack ↔ (v = w ∨ s.Visited v) ∧ s.sccId v = none
    rw [mem_cons, I.mem_stack]
    constructor
    · rintro (rfl | ⟨hv, hi⟩)
      · exact ⟨.inl rfl, hid⟩
      · exact ⟨.inr hv, hi⟩
    rintro ⟨rfl | hv, hi⟩
    · exact .inl rfl
    · exact .inr ⟨hv, hi⟩
  · intro v
    show update s.onStack w true v = true ↔ v ∈ w :: s.sccStack
    by_cases h : v = w
    · simp [h]
    · simp [h, I.onStack]
  · intro v hv
    exact (visited_visit _ w v).2 (.inr (I.visited v hv))
  · rw [hgray']
    exact I.gray.cons_cons w
  · intro v hv
    rcases hcases v hv with rfl | hv
    · have hlow' : (Tarjan.visit { s with work := work } v).tarjanLowlink v = s.index :=
        update_self v _ _
      refine ⟨?_, v, .head _, ?_, .refl⟩
      · rw [hself, hlow']
      · rw [hself, hlow']
    obtain ⟨hle, u, hu, hnumu, hr⟩ := I.low v hv
    have hv' := I.gray_mem hv
    refine ⟨?_, u, .tail _ hu, ?_, hr⟩
    · rw [hlow v hv', hold v hv']
      exact hle
    · rw [hlow v hv', hold u hu]
      exact hnumu
  · intro x y h
    rw [visited_visit]
    rcases (hsee x y h).2 with h | rfl
    · exact .inr (I.seen x y h)
    · exact .inl rfl
  · intro x hx y hy h v hv hle
    obtain ⟨hxw, hxy⟩ := hsee x y h
    have hx' : x ∈ s.sccStack := (mem_cons.1 hx).resolve_left hxw
    rw [hold x hx'] at hle
    have hv' : v ∈ s.gray := by
      refine (hcases v hv).resolve_left ?_
      rintro rfl
      rw [hself] at hle
      exact absurd (hlt x hx') (by omega)
    have hvs := I.gray_mem hv'
    rw [hold v hvs] at hle
    rcases mem_cons.1 hy with rfl | hy'
    · -- the new node is above all others
      refine ⟨v, hv, le_rfl, ?_⟩
      rw [hlow v hvs, hself]
      exact (I.low v hv').1.trans (hlt v hvs).le
    rcases hxy with hxy | rfl
    · obtain ⟨q, hq, hvq, hqy⟩ := I.lowered x hx' y hy' hxy v hv' hle
      have hqs := I.gray_mem hq
      refine ⟨q, by rw [hgray']; exact .tail _ hq, ?_, ?_⟩
      · rwa [hold v hvs, hold q hqs]
      · rwa [hlow q hqs, hold y hy']
    · exact absurd hy' hnew
  · intro v hv x hx hle
    rcases hcases v hv with rfl | hv'
    · rcases mem_cons.1 hx with rfl | hx'
      · exact .refl
      · rw [hself, hold x hx'] at hle
        exact absurd (hlt x hx') (by omega)
    rcases mem_cons.1 hx with rfl | hx'
    · exact hreach v hv'
    · rw [hold x hx', hold v (I.gray_mem hv')] at hle
      exact I.above v hv' x hx' hle
  · intro x hx
    rcases mem_cons.1 hx with rfl | hx'
    · exact ⟨x, by rw [hgray']; exact .head _, le_rfl, .refl⟩
    obtain ⟨v, hv, hle, hr⟩ := I.below x hx'
    refine ⟨v, by rw [hgray']; exact .tail _ hv, ?_, hr⟩
    rwa [hold x hx', hold v (I.gray_mem hv)]

/-! ### An edge is looked at -/

/-- One more edge of the node at the top has been looked at. -/
theorem Inv.seen_next (I : Inv g s) (hw : s.work = (v, i) :: work)
    (he : (g.allEdges v)[i]? = some w)
    (h : Seen g { s with work := (v, i + 1) :: work } x y) : s.Seen g x y ∨ x = v ∧ y = w := by
  obtain ⟨hx, hedge, hidx⟩ := h
  by_cases hxv : x = v
  · subst hxv
    have htake := hidx (i + 1) (.head _)
    rw [take_add_one, he, mem_append] at htake
    rcases htake with htake | htake
    · refine .inl ⟨hx, hedge, fun j hj => ?_⟩
      rw [hw, mem_cons] at hj
      rcases hj with hj | hj
      · cases hj
        exact htake
      · exact absurd (mem_map_of_mem hj) (I.top_not_mem hw)
    · exact .inr ⟨rfl, by simpa using htake⟩
  refine .inl ⟨hx, hedge, fun j hj => ?_⟩
  rw [hw, mem_cons] at hj
  rcases hj with hj | hj
  · cases hj
    exact absurd rfl hxv
  · exact hidx j (.tail _ hj)

/-- An edge to a node that is visited is looked at, and may lower the low link. -/
theorem Inv.look (I : Inv g s) (hw : s.work = (v, i) :: work) (he : (g.allEdges v)[i]? = some w)
    (hvis : s.Visited w) {l : Nat} (hle : l ≤ s.tarjanLowlink v)
    (hl : l = s.tarjanLowlink v ∨ ∃ u ∈ s.sccStack, s.num u = l ∧ g.Reach v u)
    (hlow : w ∈ s.sccStack → l ≤ s.num w) : Inv g { s with
      work := (v, i + 1) :: work
      tarjanLowlink := update s.tarjanLowlink v l } := by
  have hgray : s.gray = v :: work.map fst := by rw [Tarjan.gray, hw, map_cons]
  have hlower : ∀ q, update s.tarjanLowlink v l q ≤ s.tarjanLowlink q := by
    intro q
    by_cases hq : q = v
    · rw [hq, update_self]
      exact hle
    · rw [update_of_ne hq]
  refine { I with gray := ?_, low := ?_, seen := ?_, lowered := ?_, above := ?_, below := ?_ }
  · exact (hgray ▸ I.gray : (v :: work.map fst).Sublist s.sccStack)
  · intro q hq
    obtain ⟨hqle, hex⟩ := I.low q (hgray ▸ hq)
    refine ⟨(hlower q).trans hqle, ?_⟩
    by_cases hqv : q = v
    · subst hqv
      show ∃ u ∈ s.sccStack, s.num u = update s.tarjanLowlink q l q ∧ g.Reach q u
      rw [update_self]
      rcases hl with rfl | hl
      · exact hex
      · exact hl
    · show ∃ u ∈ s.sccStack, s.num u = update s.tarjanLowlink v l q ∧ g.Reach q u
      rwa [update_of_ne hqv]
  · intro x y h
    rcases I.seen_next hw he h with h | ⟨-, rfl⟩
    · exact I.seen x y h
    · exact hvis
  · intro x hx y hy h u hu hux
    rcases I.seen_next hw he h with h | ⟨rfl, rfl⟩
    · obtain ⟨q, hq, huq, hqy⟩ := I.lowered x hx y hy h u (hgray ▸ hu) hux
      exact ⟨q, show q ∈ v :: work.map fst from hgray ▸ hq, huq, (hlower q).trans hqy⟩
    refine ⟨x, .head _, hux, ?_⟩
    show update s.tarjanLowlink x l x ≤ s.num y
    rw [update_self]
    exact hlow hy
  · exact fun u hu => I.above u (hgray ▸ hu)
  · intro x hx
    obtain ⟨u, hu, h⟩ := I.below x hx
    exact ⟨u, show u ∈ v :: work.map fst from hgray ▸ hu, h⟩

/-! ### A node ends -/

/-- All edges of a node that ends have been looked at. -/
theorem seen_end (hw : s.work = (v, i) :: work)
    (he : (g.allEdges v)[i]? = none) (h : Seen g { s with work := work } x y) : s.Seen g x y := by
  obtain ⟨hx, hedge, hidx⟩ := h
  refine ⟨hx, hedge, fun j hj => ?_⟩
  rw [hw, mem_cons] at hj
  rcases hj with hj | hj
  · cases hj
    rw [take_of_length_le (getElem?_eq_none_iff.1 he)]
    exact hedge
  · exact hidx j hj

theorem Inv.seen_of_not_gray (I : Inv g s) (hx : x ∈ s.sccStack) (hg : x ∉ s.gray)
    (hedge : g.Edge x y) : s.Seen g x y :=
  ⟨((I.mem_stack x).1 hx).1, hedge, fun _ hj => absurd (mem_map_of_mem hj) hg⟩

/-- A node that ends and is no root leads below itself. -/
theorem Inv.leads_below (I : Inv g s) (hw : s.work = (v, i) :: work)
    (hroot : s.tarjanLowlink v ≠ s.num v) :
    ∃ u ∈ work.map fst, s.num u < s.num v ∧ g.Reach v u := by
  have hv : v ∈ s.gray := by rw [Tarjan.gray, hw]; exact .head _
  obtain ⟨hle, u, hu, hnum, hr⟩ := I.low v hv
  obtain ⟨q, hq, hqle, hqr⟩ := I.below u hu
  have hlt : s.num q < s.num v := by omega
  refine ⟨q, ?_, hlt, hr.trans hqr⟩
  rw [Tarjan.gray, hw, map_cons, mem_cons] at hq
  refine hq.resolve_left ?_
  rintro rfl
  exact lt_irrefl _ hlt

/-- A node that is no root ends, and its parent gets its low link. -/
theorem Inv.leave (I : Inv g s) {p : Fin g.count} {j : Nat} {rest : List (Fin g.count × Nat)}
    (hw : s.work = (v, i) :: (p, j) :: rest) (he : (g.allEdges v)[i]? = none)
    (hroot : s.tarjanLowlink v ≠ s.num v) : Inv g { s with
      work := (p, j) :: rest
      tarjanLowlink :=
        update s.tarjanLowlink p (min (s.tarjanLowlink v) (s.tarjanLowlink p)) } := by
  set work := (p, j) :: rest with hwork
  have hp : p ∈ work.map fst := .head _
  have hgray : s.gray = v :: work.map fst := by rw [Tarjan.gray, hw, map_cons]
  have hmem : ∀ q ∈ work.map fst, q ∈ s.gray :=
    fun q hq => hgray ▸ .tail _ hq
  have hv : v ∈ s.gray := hgray ▸ (.head _)
  have htop := I.top hw
  have hbelow_p : ∀ q ∈ work.map fst, s.num q ≤ s.num p := by
    have h := I.sorted.sublist I.gray
    rw [hgray, hwork, map_cons, pairwise_cons, pairwise_cons] at h
    intro q hq
    rcases mem_cons.1 hq with rfl | hq
    · exact le_rfl
    · exact (h.2.1 q hq).le
  have hlower : ∀ q, update s.tarjanLowlink p
      (min (s.tarjanLowlink v) (s.tarjanLowlink p)) q ≤ s.tarjanLowlink q := by
    intro q
    by_cases hq : q = p
    · rw [hq, update_self]
      exact min_le_right _ _
    · rw [update_of_ne hq]
  refine { I with gray := ?_, low := ?_, seen := ?_, lowered := ?_, above := ?_, below := ?_ }
  · exact ((sublist_cons_self v _).trans (hgray ▸ List.Sublist.refl _)).trans I.gray
  · intro q hq
    obtain ⟨hqle, hex⟩ := I.low q (hmem q hq)
    refine ⟨(hlower q).trans hqle, ?_⟩
    show ∃ u ∈ s.sccStack, s.num u = update s.tarjanLowlink p
      (min (s.tarjanLowlink v) (s.tarjanLowlink p)) q ∧ g.Reach q u
    by_cases hqp : q = p
    · subst hqp
      rw [update_self]
      rcases le_total (s.tarjanLowlink v) (s.tarjanLowlink q) with hle | hle
      · -- the parent reaches what the node reaches
        rw [min_eq_left hle]
        obtain ⟨-, u, hu, hnum, hr⟩ := I.low v hv
        exact ⟨u, hu, hnum, (I.above q (hmem q hq) v (I.gray_mem hv) (htop q hq).le).trans hr⟩
      · rwa [min_eq_right hle]
    · rwa [update_of_ne hqp]
  · exact fun x y h => I.seen x y (seen_end hw he h)
  · intro x hx y hy h u hu hux
    obtain ⟨q, hq, huq, hqy⟩ := I.lowered x hx y hy (seen_end hw he h) u (hmem u hu) hux
    rw [hgray, mem_cons] at hq
    rcases hq with rfl | hq
    · refine ⟨p, hp, hbelow_p u hu, ?_⟩
      show update s.tarjanLowlink p _ p ≤ s.num y
      rw [update_self]
      exact (min_le_left _ _).trans hqy
    · exact ⟨q, hq, huq, (hlower q).trans hqy⟩
  · exact fun u hu => I.above u (hmem u hu)
  · intro x hx
    obtain ⟨q, hq, hqx, hr⟩ := I.below x hx
    rw [hgray, mem_cons] at hq
    rcases hq with rfl | hq
    · obtain ⟨u, hu, hlt, hru⟩ := I.leads_below hw hroot
      exact ⟨u, hu, hlt.le.trans hqx, hr.trans hru⟩
    · exact ⟨q, hq, hqx, hr⟩

/-! ### A root ends -/

/-- The nodes above `v` are taken from the stack and get an id. -/
theorem popScc_eq {n : Nat} {v : Fin n} {above rest : List (Fin n)} (hv : v ∉ above)
    (s : Tarjan n) : popScc v (above ++ v :: rest) s =
      { s with
        sccStack := rest
        onStack := fun w => if w ∈ v :: above then false else s.onStack w
        sccId := fun w => if w ∈ v :: above then some s.sccCount else s.sccId w } := by
  induction above generalizing s with
  | nil =>
    rw [nil_append, popScc, if_pos rfl]
    congr 1
    · funext w
      simp [update_apply]
    · funext w
      simp [update_apply]
  | cons a above ih =>
    obtain ⟨hva, hv⟩ := not_or.1 (fun h => hv (mem_cons.2 h))
    rw [cons_append, popScc, if_neg (Ne.symm hva), ih hv]
    congr 1
    · funext w
      by_cases hwv : w = v
      · simp [hwv]
      by_cases hwa : w = a
      · simp [hwa]
      · simp [hwv, hwa]
    funext w
    by_cases hwv : w = v
    · simp [hwv]
    by_cases hwa : w = a
    · simp [hwa]
    · simp [hwv, hwa]

/-- The state once a root has ended. -/
def rooted {n : Nat} (s : Tarjan n) (v : Fin n) (above rest : List (Fin n))
    (work : List (Fin n × Nat)) : Tarjan n :=
  { s with
    sccStack := rest
    onStack := fun w => if w ∈ v :: above then false else s.onStack w
    sccId := fun w => if w ∈ v :: above then some s.sccCount else s.sccId w
    sccCount := s.sccCount + 1
    work := work }

section
variable {above rest : List (Fin g.count)}

theorem sublist_rest {α : Type} {a : α} {above rest as : List α} (ha : a ∉ above)
    (h : (a :: as).Sublist (above ++ a :: rest)) : as.Sublist rest := by
  induction above with
  | nil => exact cons_sublist_cons.1 h
  | cons b above ih =>
    obtain ⟨hab, ha⟩ := not_or.1 (fun hb => ha (mem_cons.2 hb))
    cases h with
    | cons _ h => exact ih ha h
    | cons_cons => exact absurd rfl hab

/-- The nodes above a root on the stack. -/
theorem Inv.mem_popped (I : Inv g s) (hs : s.sccStack = above ++ v :: rest)
    (hx : x ∈ s.sccStack) : x ∈ v :: above ↔ s.num v ≤ s.num x := by
  have hsorted := I.sorted
  rw [hs, pairwise_append, pairwise_cons] at hsorted
  obtain ⟨-, ⟨hrest, -⟩, habove⟩ := hsorted
  constructor
  · intro h
    rcases mem_cons.1 h with rfl | h
    · exact le_rfl
    · exact (habove x h v (.head _)).le
  intro hle
  rw [hs, mem_append, mem_cons] at hx
  rcases hx with hx | rfl | hx
  · exact .tail _ hx
  · exact .head _
  · exact absurd (hrest x hx) (by omega)

section
variable (I : Inv g s) (hw : s.work = (v, i) :: work) (he : (g.allEdges v)[i]? = none)
  (hroot : s.tarjanLowlink v = s.num v) (hx : x ∈ s.sccStack) (hvx : s.num v ≤ s.num x)
include I hw he hroot hx hvx

/-- What is above a root leads only to what is above it, or to what has an id. -/
theorem Inv.root_edge (hedge : g.Edge x y) :
    (y ∈ s.sccStack ∧ s.num v ≤ s.num y) ∨ ∃ c < s.sccCount, s.sccId y = some c := by
  have hgray : s.gray = v :: work.map fst := by rw [Tarjan.gray, hw, map_cons]
  have htop := I.top hw
  -- a node above the root is not on the work stack, so all of its edges have been looked at
  have hseen : s.Seen g x y := by
    by_cases hxv : x = v
    · subst hxv
      refine seen_end hw he ⟨((I.mem_stack x).1 hx).1, hedge, fun j hj => ?_⟩
      exact absurd (mem_map_of_mem hj) (I.top_not_mem hw)
    refine I.seen_of_not_gray hx (fun hg => ?_) hedge
    rw [hgray, mem_cons] at hg
    exact absurd (htop x (hg.resolve_left hxv)) (by omega)
  have hvis := I.seen x y hseen
  by_cases hid : s.sccId y = none
  · have hy := (I.mem_stack y).2 ⟨hvis, hid⟩
    have hv : v ∈ s.gray := hgray ▸ (.head _)
    obtain ⟨q, hq, hvq, hqy⟩ := I.lowered x hx y hy hseen v hv hvx
    rw [hgray, mem_cons] at hq
    rcases hq with rfl | hq
    · exact .inl ⟨hy, hroot ▸ hqy⟩
    · exact absurd (htop q hq) (by omega)
  · obtain ⟨c, hc⟩ := Option.ne_none_iff_exists'.1 hid
    exact .inr ⟨c, I.id_lt y c hc, hc⟩

theorem Inv.root_reach (h : g.Reach x y) :
    (y ∈ s.sccStack ∧ s.num v ≤ s.num y) ∨ ∃ c < s.sccCount, s.sccId y = some c := by
  induction h with
  | refl => exact .inl ⟨hx, hvx⟩
  | tail _ hedge ih =>
    rcases ih with ⟨hz, hvz⟩ | ⟨c, hlt, hc⟩
    · exact I.root_edge hw he hroot hz hvz hedge
    · obtain ⟨c', hle, hc'⟩ := I.closed _ c hc _ hedge
      exact .inr ⟨c', by omega, hc'⟩

/-- What is above a root reaches it. -/
theorem Inv.reach_root : g.Reach x v := by
  obtain ⟨q, hq, hqx, hr⟩ := I.below x hx
  have hqs := I.gray_mem hq
  rw [Tarjan.gray, hw, map_cons, mem_cons] at hq
  rcases hq with rfl | hq
  · exact hr
  have hlt := I.top hw q hq
  rcases I.root_reach hw he hroot hx hvx hr with ⟨-, hle⟩ | ⟨c, -, hc⟩
  · omega
  have hnone := ((I.mem_stack q).1 hqs).2
  rw [hc] at hnone
  cases hnone

/-- The nodes above a root are its component. -/
theorem Inv.root_component : g.Reach x y ∧ g.Reach y x ↔ y ∈ s.sccStack ∧ s.num v ≤ s.num y := by
  have hv : v ∈ s.gray := by rw [Tarjan.gray, hw]; exact .head _
  constructor
  · rintro ⟨hxy, hyx⟩
    rcases I.root_reach hw he hroot hx hvx hxy with h | ⟨c, -, hc⟩
    · exact h
    obtain ⟨c', -, hc'⟩ := I.reach_id hc hyx
    have hnone := ((I.mem_stack x).1 hx).2
    rw [hc'] at hnone
    cases hnone
  · rintro ⟨hy, hvy⟩
    exact ⟨(I.reach_root hw he hroot hx hvx).trans (I.above v hv y hy hvy),
      (I.reach_root hw he hroot hy hvy).trans (I.above v hv x hx hvx)⟩

end

/-- A root ends, and what is above it becomes a component. -/
theorem Inv.root (I : Inv g s) (hw : s.work = (v, i) :: work) (he : (g.allEdges v)[i]? = none)
    (hroot : s.tarjanLowlink v = s.num v) (hs : s.sccStack = above ++ v :: rest) :
    Inv g (s.rooted v above rest work) := by
  have hgray : s.gray = v :: work.map fst := by rw [Tarjan.gray, hw, map_cons]
  have hmem : ∀ q ∈ work.map fst, q ∈ s.gray :=
    fun q hq => hgray ▸ .tail _ hq
  have htop := I.top hw
  have hrest : ∀ x, x ∈ rest ↔ x ∈ s.sccStack ∧ s.num x < s.num v := by
    intro x
    have hnodup := I.nodup
    rw [hs] at hnodup
    constructor
    · intro hx
      have hxs : x ∈ s.sccStack := by rw [hs]; simp [hx]
      refine ⟨hxs, Nat.lt_of_not_le fun hle => ?_⟩
      have hpop := (I.mem_popped hs hxs).2 hle
      rw [nodup_append, nodup_cons] at hnodup
      rcases List.mem_cons.1 hpop with rfl | hpop
      · exact hnodup.2.1.1 hx
      · exact hnodup.2.2 x hpop x (.tail _ hx) rfl
    rintro ⟨hx, hlt⟩
    have hpop := mt (I.mem_popped hs hx).1 (by omega)
    rw [hs, mem_append, mem_cons] at hx
    rcases hx with hx | rfl | hx
    · exact absurd (.tail _ hx) hpop
    · exact absurd (.head _) hpop
    · exact hx
  have hsub : rest ⊆ s.sccStack := fun x hx => ((hrest x).1 hx).1
  have hpopped : ∀ x, x ∈ v :: above ↔ x ∈ s.sccStack ∧ s.num v ≤ s.num x := by
    intro x
    constructor
    · intro hx
      have hxs : x ∈ s.sccStack := by
        rw [hs]
        rcases List.mem_cons.1 hx with rfl | hx
        · simp
        · simp [hx]
      exact ⟨hxs, (I.mem_popped hs hxs).1 hx⟩
    · rintro ⟨hx, hle⟩
      exact (I.mem_popped hs hx).2 hle
  have hid : ∀ x, (s.rooted v above rest work).sccId x =
      if x ∈ v :: above then some s.sccCount else s.sccId x := fun _ => rfl
  have hold : ∀ x c, s.sccId x = some c → x ∉ v :: above := by
    intro x c hc hx
    rw [((I.mem_stack x).1 ((hpopped x).1 hx).1).2] at hc
    cases hc
  refine ⟨I.num_lt, ?_, ?_, ?_, ?_, ?_, ?_, ?_, ?_, ?_, ?_, ?_, ?_, ?_⟩
  · have h := I.sorted
    rw [hs] at h
    exact (List.pairwise_append.1 h).2.1.of_cons
  · intro x
    rw [hid]
    show x ∈ rest ↔ s.Visited x ∧ _
    split
    · rename_i hx
      simpa using fun h => absurd ((hpopped x).1 hx).2 (by have := ((hrest x).1 h).2; omega)
    rename_i hx
    rw [← I.mem_stack, hrest]
    exact ⟨fun h => h.1, fun h => ⟨h, Nat.lt_of_not_le fun hle => hx ((hpopped x).2 ⟨h, hle⟩)⟩⟩
  · intro x
    show (if x ∈ v :: above then false else s.onStack x) = true ↔ x ∈ rest
    split
    · rename_i hx
      simpa using fun h => absurd ((hpopped x).1 hx).2 (by have := ((hrest x).1 h).2; omega)
    rename_i hx
    rw [I.onStack, hrest]
    exact ⟨fun h => ⟨h, Nat.lt_of_not_le fun hle => hx ((hpopped x).2 ⟨h, hle⟩)⟩, fun h => h.1⟩
  · intro x hx
    rw [hid] at hx
    split at hx
    · rename_i hpop
      exact ((I.mem_stack x).1 ((hpopped x).1 hpop).1).1
    · exact I.visited x hx
  · refine sublist_rest (fun ha => ?_) (hs ▸ hgray ▸ I.gray)
    have hnodup := I.nodup
    rw [hs, nodup_append] at hnodup
    exact hnodup.2.2 v ha v (.head _) rfl
  · intro q hq
    obtain ⟨hle, u, hu, hnum, hr⟩ := I.low q (hmem q hq)
    exact ⟨hle, u, (hrest u).2 ⟨hu, hnum.trans_lt (hle.trans_lt (htop q hq))⟩, hnum, hr⟩
  · exact fun x y h => I.seen x y (seen_end hw he h)
  · intro x hx y hy h u hu hux
    obtain ⟨q, hq, huq, hqy⟩ := I.lowered x (hsub hx) y (hsub hy) (seen_end hw he h) u (hmem u hu)
      hux
    rw [hgray, mem_cons] at hq
    rcases hq with rfl | hq
    · exact absurd ((hrest y).1 hy).2 (by omega)
    · exact ⟨q, hq, huq, hqy⟩
  · exact fun u hu x hx => I.above u (hmem u hu) x (hsub hx)
  · intro x hx
    obtain ⟨q, hq, hqx, hr⟩ := I.below x (hsub hx)
    rw [hgray, mem_cons] at hq
    rcases hq with rfl | hq
    · exact absurd ((hrest x).1 hx).2 (by omega)
    · exact ⟨q, hq, hqx, hr⟩
  · intro x c hx
    rw [hid] at hx
    split at hx
    · cases hx
      exact Nat.lt_succ_self _
    · exact Nat.lt_succ_of_lt (I.id_lt x c hx)
  · intro x c hx y hedge
    rw [hid] at hx
    simp only [hid]
    split at hx
    · rename_i hpop
      cases hx
      obtain ⟨hxs, hvx⟩ := (hpopped x).1 hpop
      rcases I.root_edge hw he hroot hxs hvx hedge with h | ⟨c', hlt, hc'⟩
      · exact ⟨s.sccCount, le_rfl, if_pos ((hpopped y).2 h)⟩
      · exact ⟨c', hlt.le, by rw [if_neg (hold y c' hc'), hc']⟩
    · obtain ⟨c', hle, hc'⟩ := I.closed x c hx y hedge
      exact ⟨c', hle, by rw [if_neg (hold y c' hc'), hc']⟩
  intro x c hx y
  rw [hid] at hx
  rw [hid]
  split at hx
  · rename_i hpop
    cases hx
    obtain ⟨hxs, hvx⟩ := (hpopped x).1 hpop
    rw [I.root_component hw he hroot hxs hvx, ← hpopped]
    split
    · exact ⟨fun _ => rfl, fun _ => ‹_›⟩
    rename_i hy
    simp only [hy, false_iff]
    exact fun h => Nat.lt_irrefl _ (I.id_lt y _ h)
  rw [I.component x c hx y]
  split
  · rename_i hy
    have hnone := ((I.mem_stack y).1 ((hpopped y).1 hy).1).2
    rw [hnone]
    have := I.id_lt x c hx
    simp only [reduceCtorEq, false_iff, Option.some.injEq]
    omega
  · exact Iff.rfl

end

/-! ### A turn -/

theorem Inv.visited_gray (I : Inv g s) (hv : v ∈ s.gray) : s.tarjanIndex v = some (s.num v) := by
  have hvis := ((I.mem_stack v).1 (I.gray_mem hv)).1
  obtain ⟨k, hk⟩ := Option.ne_none_iff_exists'.1 hvis
  rw [num, hk]
  rfl

theorem Inv.finish (I : Inv g s) (hw : s.work = (v, i) :: work)
    (he : (g.allEdges v)[i]? = none) : Inv g (s.finish v work) := by
  have hv : v ∈ s.gray := by rw [Tarjan.gray, hw]; exact .head _
  have hcond : s.tarjanIndex v = some (s.tarjanLowlink v) ↔ s.tarjanLowlink v = s.num v := by
    rw [I.visited_gray hv, Option.some.injEq]
    exact eq_comm
  unfold Tarjan.finish
  by_cases hroot : s.tarjanLowlink v = s.num v
  · obtain ⟨above, rest, hs⟩ := append_of_mem (I.gray_mem hv)
    have hnot : v ∉ above := by
      have hnodup := I.nodup
      rw [hs, nodup_append] at hnodup
      exact fun h => hnodup.2.2 v h v (.head _) rfl
    have I' := I.root hw he hroot hs
    simp only [if_pos (hcond.2 hroot), hs, popScc_eq hnot]
    cases work with
    | nil => exact I'
    | cons f rest' =>
      -- the low link of a root is above that of its parent
      have hp : f.1 ∈ (f :: rest').map fst := .head _
      have hle := (I.low f.1 (by rw [Tarjan.gray, hw]; exact .tail _ hp)).1
      have hlt := I.top hw f.1 hp
      have hmin : min (s.tarjanLowlink v) (s.tarjanLowlink f.1) = s.tarjanLowlink f.1 :=
        min_eq_right (by omega)
      simp only [lower_eq, hmin, update_eq_self]
      exact I'
  simp only [if_neg (mt hcond.1 hroot)]
  cases work with
  | nil =>
    obtain ⟨u, hu, -⟩ := I.leads_below hw hroot
    cases hu
  | cons f rest =>
    obtain ⟨p, j⟩ := f
    simp only [lower_eq]
    exact I.leave hw he hroot

/-- **A turn keeps the invariant.** -/
theorem Inv.round (I : Inv g s) : Inv g (s.round g) := by
  unfold Tarjan.round
  split
  · exact I
  rename_i v i work hw
  have hv : v ∈ s.gray := by rw [Tarjan.gray, hw]; exact .head _
  split
  · rename_i w he
    have hedge : g.Edge v w := mem_of_getElem? he
    dsimp only
    split
    · rename_i hnone
      refine I.visit hnone (by rw [Tarjan.gray, hw]; rfl)
        (fun x y h => (I.seen_next hw he h).imp_right And.right) fun u hu => ?_
      have huv : s.num u ≤ s.num v := by
        rw [Tarjan.gray, hw, map_cons, mem_cons] at hu
        rcases hu with rfl | hu
        · exact le_rfl
        · exact (I.top hw u hu).le
      exact (I.above u hu v (I.gray_mem hv) huv).tail hedge
    rename_i k hk
    have hk : s.tarjanIndex w = some k := hk
    have hnum : s.num w = k := by rw [num, hk]; rfl
    have hvis : s.Visited w := by rw [Visited, hk]; exact Option.some_ne_none k
    split
    · rename_i hon
      have hws : w ∈ s.sccStack := (I.onStack w).1 hon
      simp only [lower_eq]
      refine I.look hw he hvis (min_le_right _ _) ?_ fun _ => hnum ▸ min_le_left _ _
      rcases le_total k (s.tarjanLowlink v) with hle | hle
      · refine .inr ⟨w, hws, ?_, .single hedge⟩
        rw [min_eq_left hle, hnum]
      · exact .inl (min_eq_right hle)
    rename_i hon
    have hws : w ∉ s.sccStack := fun h => hon ((I.onStack w).2 h)
    have I' := I.look hw he hvis le_rfl (.inl rfl) fun h => absurd h hws
    rwa [update_eq_self] at I'
  · exact I.finish hw ‹_›

/-- The first node of a run is visited. -/
theorem Inv.start (I : Inv g s) (hw : s.work = []) (hv : s.tarjanIndex v = none) :
    Inv g (s.visit v) := by
  have hgray : s.gray = [] := by rw [Tarjan.gray, hw]; rfl
  refine @Inv.visit g s v s.work I hv rfl (fun x y h => .inl h) fun u hu => ?_
  rw [hgray] at hu
  cases hu

end

/-! ### Runs -/

/-- The states that come up, whichever root is next. -/
inductive Reached (g : Graph) : Tarjan g.count → Prop where
  | init : Reached g {}
  | start {s : Tarjan g.count} {v : Fin g.count} (h : Reached g s) (hw : s.work = [])
      (hv : s.tarjanIndex v = none) : Reached g (s.visit v)
  | round {s : Tarjan g.count} (h : Reached g s) : Reached g (s.round g)

theorem Reached.inv {s : Tarjan g.count} (h : Reached g s) : Inv g s := by
  induction h with
  | init => exact inv_init
  | start _ hw hv ih => exact ih.start hw hv
  | round _ ih => exact ih.round

section
variable {s : Tarjan g.count} {v : Fin g.count}

/-- A turn leaves what is visited visited. -/
theorem visited_round (hv : s.Visited v) : (s.round g).Visited v := by
  unfold Tarjan.round
  split
  · exact hv
  split
  · dsimp only
    split
    · exact (visited_visit _ _ _).2 (.inr hv)
    split
    · rwa [Visited, lower_tarjanIndex]
    · exact hv
  · rwa [Visited, finish_tarjanIndex]

/-- The loop comes to an end with an empty work stack. -/
theorem loop_spec (h : Reached g s) : Reached g (loop g s) ∧ (loop g s).work = [] ∧
    ∀ v, s.Visited v → (loop g s).Visited v := by
  induction hm : turns g s using Nat.strong_induction_on generalizing s with
  | _ m ih =>
    rw [loop]
    split
    · exact ⟨h, ‹_›, fun _ => id⟩
    · obtain ⟨hr, hw, hvis⟩ := ih _ (hm ▸ turns_round ‹_›) h.round rfl
      exact ⟨hr, hw, fun v hv => hvis v (visited_round hv)⟩

/-- The roots are taken in order until all nodes are visited. -/
theorem roots_spec (vs : List (Fin g.count)) (h : Reached g s) (hw : s.work = []) :
    let s' := vs.foldl (fun s v => if s.tarjanIndex v = none then s.strongconnect g v else s) s
    Reached g s' ∧ s'.work = [] ∧ (∀ v, s.Visited v → s'.Visited v) ∧ ∀ v ∈ vs, s'.Visited v := by
  induction vs generalizing s with
  | nil => exact ⟨h, hw, fun _ => id, nofun⟩
  | cons v vs ih =>
    rw [foldl_cons]
    by_cases hv : s.tarjanIndex v = none
    · rw [if_pos hv]
      obtain ⟨hr, hw', hvis⟩ := loop_spec (h.start hw hv)
      obtain ⟨hr', hw'', hvis', hall⟩ := ih hr hw'
      refine ⟨hr', hw'', fun u hu => ?_, fun u hu => ?_⟩
      · exact hvis' u (hvis u ((visited_visit s v u).2 (.inr hu)))
      rcases mem_cons.1 hu with rfl | hu
      · exact hvis' u (hvis u ((visited_visit s u u).2 (.inl rfl)))
      · exact hall u hu
    rw [if_neg hv]
    obtain ⟨hr', hw'', hvis', hall⟩ := ih h hw
    refine ⟨hr', hw'', hvis', fun u hu => ?_⟩
    rcases mem_cons.1 hu with rfl | hu
    · exact hvis' u hv
    · exact hall u hu

end

/-- What the ids are when all is done. -/
structure Components (g : Graph) (s : Tarjan g.count) : Prop where
  total : ∀ v, ∃ c < s.sccCount, s.sccId v = some c
  /-- One id is one component. -/
  component : ∀ v w, s.sccId v = s.sccId w ↔ g.Reach v w ∧ g.Reach w v
  /-- What is reached has no higher id. -/
  order : ∀ v w a b, g.Reach v w → s.sccId v = some a → s.sccId w = some b → b ≤ a

theorem Inv.components {s : Tarjan g.count} (I : Inv g s) (hw : s.work = [])
    (hvis : ∀ v, s.Visited v) : Components g s := by
  have hstack : ∀ v, v ∉ s.sccStack := by
    intro v hv
    obtain ⟨u, hu, -⟩ := I.below v hv
    rw [Tarjan.gray, hw] at hu
    cases hu
  have hid : ∀ v, ∃ c, s.sccId v = some c := fun v =>
    Option.ne_none_iff_exists'.1 fun h => hstack v ((I.mem_stack v).2 ⟨hvis v, h⟩)
  refine ⟨fun v => ?_, fun v w => ?_, fun v w a b hr ha hb => ?_⟩
  · obtain ⟨c, hc⟩ := hid v
    exact ⟨c, I.id_lt v c hc, hc⟩
  · obtain ⟨c, hc⟩ := hid v
    rw [I.component v c hc w, hc]
    exact ⟨Eq.symm, Eq.symm⟩
  obtain ⟨c, hle, hc⟩ := I.reach_id ha hr
  rw [hb] at hc
  cases hc
  exact hle

end Tarjan

/-- **The ids are the components**, and no stack ever holds more than all nodes. -/
theorem tarjan_components (g : Graph) : Tarjan.Components g g.tarjan ∧
    Tarjan.Reached g g.tarjan ∧ ∀ s, Tarjan.Reached g s →
      s.work.length ≤ g.count ∧ s.sccStack.length ≤ g.count := by
  obtain ⟨hr, hw, -, hall⟩ := Tarjan.roots_spec (finRange g.count) .init rfl
  refine ⟨hr.inv.components hw fun v => hall v (mem_finRange v), hr, fun s hs => ?_⟩
  have I := hs.inv
  have hstack : s.sccStack.length ≤ g.count := by simpa using I.nodup.length_le_card
  refine ⟨?_, hstack⟩
  have hgray := I.gray.length_le
  rw [Tarjan.gray, length_map] at hgray
  exact hgray.trans hstack

/-! ### Walks that are bounded -/

section
variable {α : Type} {R : α → α → Prop} {a b : α}

/-- A walk is one that never starts a step at `a`, or goes on so from a last visit to `a`. -/
theorem last_visit (a : α) {c : α} (h : ReflTransGen R c b) :
    ReflTransGen (fun v w => v ≠ a ∧ R v w) c b ∨
      ∃ e, R a e ∧ ReflTransGen (fun v w => v ≠ a ∧ R v w) e b := by
  induction h using ReflTransGen.head_induction_on with
  | refl => exact .inl .refl
  | @head c e hce _ ih =>
    rcases ih with ih | ih
    · by_cases hc : c = a
      · exact .inr ⟨e, hc ▸ hce, ih⟩
      · exact .inl (ih.head ⟨hc, hce⟩)
    · exact .inr ih

/-- A walk that starts its steps in `s` can do with as many steps as `s` has members. -/
theorem reaches_of_walk {next : Nat → List Nat} {s : Finset Nat} {a b : Nat}
    (h : ReflTransGen (fun v w => v ∈ s ∧ w ∈ next v) a b) : reaches next s.card a b = true := by
  induction hn : s.card generalizing s a with
  | zero =>
    rcases h.cases_head with rfl | ⟨e, ⟨ha, -⟩, -⟩
    · simp [reaches]
    · exact absurd ha (Finset.card_eq_zero.1 hn ▸ Finset.notMem_empty a)
  | succ n ih =>
    rcases last_visit a h with h | ⟨e, ⟨ha, he⟩, h⟩
    · rcases h.cases_head with rfl | ⟨e, ⟨hne, -⟩, -⟩
      · simp [reaches]
      · exact absurd rfl hne
    have hrest : ReflTransGen (fun v w => v ∈ s.erase a ∧ w ∈ next v) e b :=
      ReflTransGen.mono (fun v w hvw => ⟨Finset.mem_erase.2 ⟨hvw.1, hvw.2.1⟩, hvw.2.2⟩) _ _ h
    have hcard : (s.erase a).card = n := by rw [Finset.card_erase_of_mem ha, hn, Nat.add_sub_cancel]
    simp only [reaches, Bool.or_eq_true, any_eq_true]
    exact .inr ⟨e, he, ih hrest hcard⟩

theorem reaches_iff {next : Nat → List Nat} {n a b : Nat} (hnext : ∀ v w, w ∈ next v → v < n) :
    reaches next n a b = true ↔ ReflTransGen (fun v w => w ∈ next v) a b := by
  constructor
  · intro h
    have hwalk : ∀ n a, reaches next n a b = true → ReflTransGen (fun v w => w ∈ next v) a b := by
      intro n
      induction n with
      | zero =>
        intro a h
        rw [reaches, beq_iff_eq] at h
        exact h ▸ .refl
      | succ n ih =>
        intro a h
        simp only [reaches, Bool.or_eq_true, beq_iff_eq, any_eq_true] at h
        rcases h with rfl | ⟨e, he, h⟩
        · exact .refl
        · exact (ih e h).head he
    exact hwalk n a h
  · intro h
    have hreaches := reaches_of_walk (s := Finset.range n) (ReflTransGen.mono (fun v w hvw =>
      ⟨Finset.mem_range.2 (hnext v w hvw), hvw⟩) _ _ h)
    rwa [Finset.card_range] at hreaches

end

/-! ### The graph of the aliases -/

section
variable (prog : Program)

theorem lt_of_mem_allEdges {v w : Nat} (h : w ∈ allEdges prog v) : v < prog.length := by
  by_contra hv
  have hbody : prog.body v = .leaf := by
    rw [Program.body, getElem?_eq_none (Nat.le_of_not_lt hv)]
    rfl
  simp [allEdges, edges, hbody, collectEdges] at h

/-- The references of the aliases as a graph. -/
def Program.graph : Graph where
  count := prog.length
  allEdges v := (allEdges prog v).filterMap fun w =>
    if h : w < prog.length then some ⟨w, h⟩ else none

variable {prog}

theorem edge_iff {v w : Fin prog.graph.count} : prog.graph.Edge v w ↔ w.val ∈ allEdges prog v := by
  constructor
  · intro h
    obtain ⟨u, hu, h⟩ := mem_filterMap.1 h
    split at h
    · cases h
      exact hu
    · cases h
  · exact fun h => mem_filterMap.2 ⟨w, h, dif_pos w.isLt⟩

theorem reach_iff {v w : Fin prog.graph.count} : prog.graph.Reach v w ↔
    reaches (allEdges prog) prog.length v w = true := by
  rw [reaches_iff fun v w => lt_of_mem_allEdges prog]
  constructor
  · exact fun h => h.lift Fin.val fun _ _ => edge_iff.1
  intro h
  have hwalk : ∀ a, ReflTransGen (fun v w => w ∈ allEdges prog v) a w →
      ∃ h : a < prog.length, prog.graph.Reach ⟨a, h⟩ w := by
    intro a h
    induction h using ReflTransGen.head_induction_on with
    | refl => exact ⟨w.isLt, .refl⟩
    | head hab _ ih =>
      obtain ⟨hb, ih⟩ := ih
      exact ⟨lt_of_mem_allEdges prog hab, ih.head (edge_iff.2 hab)⟩
  exact (hwalk v h).2

/-- **Two aliases are in one component** exactly if Tarjan's algorithm gives them one id. -/
theorem sameScc_iff {v w : Fin prog.graph.count} :
    sameScc prog v w = true ↔ prog.graph.tarjan.sccId v = prog.graph.tarjan.sccId w := by
  rw [(tarjan_components prog.graph).1.component, reach_iff, reach_iff, sameScc, Bool.and_eq_true]

/-- **A component is a cycle** exactly if a reference leads to an alias with the same id. -/
theorem isCycleScc_iff {v : Fin prog.graph.count} : isCycleScc prog v = true ↔
    ∃ w, prog.graph.Edge v w ∧ prog.graph.tarjan.sccId w = prog.graph.tarjan.sccId v := by
  simp only [isCycleScc, any_eq_true]
  constructor
  · rintro ⟨e, he, h⟩
    have he' : e < prog.length := by
      rcases ((reaches_iff fun v w => lt_of_mem_allEdges prog).1 h).cases_head with rfl | ⟨u, hu, -⟩
      · exact v.isLt
      · exact lt_of_mem_allEdges prog hu
    have hedge : prog.graph.Edge v ⟨e, he'⟩ := edge_iff.2 he
    exact ⟨⟨e, he'⟩, hedge, ((tarjan_components prog.graph).1.component _ _).2
      ⟨reach_iff.2 h, .single hedge⟩⟩
  · rintro ⟨w, hw, h⟩
    exact ⟨w, edge_iff.1 hw, reach_iff.1 (((tarjan_components prog.graph).1.component _ _).1 h).1⟩

end

end SpacePony.Alias
