import SpacePony.Compiler.Type.ComponentsCorrect
import Mathlib.Data.List.Chain

/-!
# Compiler — a cycle of the alias graph

The grouping of `check_base_cases` and `find_cycle_path`, of `pass/typealias_recursion.c`.  A turn
of the search keeps its invariant (`Search.Inv.round`); the ids are the components, and the search
finds a cycle in each that has one (`components_and_cycles`).
-/

namespace SpacePony.Alias

open List
open Prod (fst)
open Function (update update_of_ne update_self)

/-! ### The members of the components -/

/-- The members of each component, and the position of each node among them, which is none before it
is set (`SIZE_MAX`). -/
structure Groups (n : Nat) where
  groups : Nat → List (Fin n) := fun _ => []
  sccPos : Fin n → Option Nat := fun _ => none

namespace Groups

variable {n : Nat}

/-- One turn of the grouping loop; `fill` is how many members a group has. -/
def add (sccId : Fin n → Option Nat) (gs : Groups n) (v : Fin n) : Groups n :=
  match sccId v with
  | none => gs
  | some c =>
    { groups := update gs.groups c (gs.groups c ++ [v])
      sccPos := update gs.sccPos v (some (gs.groups c).length) }

/-- The grouping loop. -/
def fill (sccId : Fin n → Option Nat) : Groups n := (finRange n).foldl (add sccId) {}

/-- The nodes of `vs` are in their groups, each at its position. -/
structure Holds (sccId : Fin n → Option Nat) (vs : List (Fin n)) (gs : Groups n) : Prop where
  groups : ∀ c, gs.groups c = vs.filter fun v => sccId v = some c
  sccPos : ∀ v ∈ vs, ∀ c, sccId v = some c →
    ∃ i, gs.sccPos v = some i ∧ (gs.groups c)[i]? = some v

/-- Adding a vertex to the group of its component. -/
theorem Holds.add {sccId : Fin n → Option Nat} {vs : List (Fin n)} {gs : Groups n}
    (h : Holds sccId vs gs) {v : Fin n} (hv : v ∉ vs) :
    Holds sccId (vs ++ [v]) (Groups.add sccId gs v) := by
  unfold Groups.add
  split
  · rename_i hnone
    refine ⟨fun c => ?_, fun w hw c hc => ?_⟩
    · rw [filter_append, h.groups]
      simp [hnone]
    refine h.sccPos w ?_ c hc
    rcases List.mem_append.1 hw with hw | hw
    · exact hw
    · rw [List.mem_singleton.1 hw, hnone] at hc
      cases hc
  rename_i d hd
  refine ⟨fun c => ?_, fun w hw c hc => ?_⟩
  · rw [filter_append]
    by_cases hcd : c = d
    · subst hcd
      simp [hd, h.groups]
    · simp [Ne.symm hcd, hcd, hd, h.groups]
  by_cases hwv : w = v
  · subst hwv
    rw [hd] at hc
    cases hc
    exact ⟨_, update_self .., by simp⟩
  have hmem : w ∈ vs := by simpa [hwv] using hw
  obtain ⟨i, hi, hget⟩ := h.sccPos w hmem c hc
  refine ⟨i, (update_of_ne hwv _ _).trans hi, ?_⟩
  show (update gs.groups d (gs.groups d ++ [v]) c)[i]? = some w
  by_cases hcd : c = d
  · subst hcd
    rw [update_self, getElem?_append_left (List.getElem?_eq_some_iff.1 hget).1]
    exact hget
  · rwa [update_of_ne hcd]

theorem holds_fill (sccId : Fin n → Option Nat) : Holds sccId (finRange n) (fill sccId) := by
  have hloop : ∀ (vs done : List (Fin n)) (gs : Groups n), Holds sccId done gs →
      (done ++ vs).Nodup → Holds sccId (done ++ vs) (vs.foldl (Groups.add sccId) gs) := by
    intro vs
    induction vs with
    | nil => exact fun done gs h _ => by rwa [append_nil]
    | cons v vs ih =>
      intro done gs h hnodup
      have hv : v ∉ done := fun hv =>
        (nodup_append.1 hnodup).2.2 v hv v (.head _) rfl
      have hassoc : done ++ v :: vs = done ++ [v] ++ vs := by simp
      rw [hassoc] at hnodup ⊢
      exact ih _ _ (h.add hv) hnodup
  exact hloop (finRange n) [] {} ⟨fun _ => rfl, nofun⟩ (nodup_finRange n)

end Groups

variable (g : Graph)

/-- Whether a component is a cycle: it has two members, or one that refers to itself. -/
def Graph.isCycleScc (members : List (Fin g.count)) : Bool :=
  match members with
  | [] => false
  | [v] => (g.allEdges v).any fun w => w = v
  | _ => true

/-! ### The search -/

/-- The path so far with the next edge of each member on it, the top first, and the members that are
on the path and those that are done. -/
structure Search where
  path : List (Nat × Nat) := [(0, 0)]
  onPath : Nat → Bool := update (fun _ => false) 0 true
  done : Nat → Bool := fun _ => false

/-- How the search goes on. -/
inductive Search.Next where
  | more (s : Search)
  /-- An edge leads back to the first member. -/
  | found (s : Search)
  /-- An assertion fails. -/
  | failed

/-- What the search returns. -/
inductive CyclePath where
  | found (path : List Nat)
  /-- All members in their order. -/
  | fallback
  | failed

variable {v : Fin g.count}

section
variable (sccId : Fin g.count → Option Nat) (sccPos : Fin g.count → Option Nat)
  (members : List (Fin g.count))

/-- One turn of the loops of `find_cycle_path`, at the top of the path. -/
def Search.round (s : Search) : Search.Next :=
  match s.path with
  | [] => .more s
  | (cur, edgeIdx) :: rest =>
    match members[cur]? with
    | none => .failed
    | some v =>
      match (g.allEdges v)[edgeIdx]? with
      | some target =>
        let s := { s with path := (cur, edgeIdx + 1) :: rest }
        if sccId target ≠ members.head?.bind sccId then .more s
        else
          match sccPos target with
          | none => .failed
          | some idx =>
            if members[idx]? ≠ some target then .failed
            else if idx = 0 then .found s
            else if s.onPath idx then .more s
            else if s.done idx then .more s
            else .more { s with
              path := (idx, 0) :: s.path
              onPath := update s.onPath idx true }
      | none => .more { s with
          path := rest
          onPath := update s.onPath cur false
          done := update s.done cur true }

/-- How many edges a member has. -/
def degree (i : Nat) : Nat :=
  match members[i]? with
  | none => 0
  | some v => (g.allEdges v).length

/-- The turns that are left at most. -/
def Search.turns (s : Search) : Nat :=
  ((Finset.range members.length).filter fun i => s.onPath i = false ∧ s.done i = false).sum
      (fun i => degree g members i + 2) +
    (s.path.map fun f => degree g members f.1 - f.2 + 1).sum

variable {g sccId sccPos members} {s s' : Search}

theorem turns_push {idx : Nat} (hv : members[idx]? = some v) (hpath : s.onPath idx = false)
    (hdone : s.done idx = false) : Search.turns g members { s with
      path := (idx, 0) :: s.path
      onPath := update s.onPath idx true } + 1 = s.turns g members := by
  have hset : ((Finset.range members.length).filter fun i =>
      update s.onPath idx true i = false ∧ s.done i = false) =
      ((Finset.range members.length).filter fun i =>
        s.onPath i = false ∧ s.done i = false).erase idx := by
    ext i
    rw [Finset.mem_erase, Finset.mem_filter, Finset.mem_filter]
    by_cases hi : i = idx
    · simp [hi]
    · simp [hi]
  have hmem : idx ∈ (Finset.range members.length).filter fun i =>
      s.onPath i = false ∧ s.done i = false :=
    Finset.mem_filter.2 ⟨Finset.mem_range.2 (List.getElem?_eq_some_iff.1 hv).1, hpath, hdone⟩
  have hsum := Finset.add_sum_erase _ (fun i => degree g members i + 2) hmem
  rw [Search.turns, Search.turns, hset, map_cons, sum_cons]
  dsimp only at hsum ⊢
  omega

theorem turns_pop {cur edgeIdx : Nat} {rest : List (Nat × Nat)}
    (hpath : s.path = (cur, edgeIdx) :: rest) : Search.turns g members { s with
      path := rest
      onPath := update s.onPath cur false
      done := update s.done cur true } < s.turns g members := by
  have hsub : ((Finset.range members.length).filter fun i =>
      update s.onPath cur false i = false ∧ update s.done cur true i = false) ⊆
      (Finset.range members.length).filter fun i => s.onPath i = false ∧ s.done i = false := by
    intro i hi
    rw [Finset.mem_filter] at hi ⊢
    have hne : i ≠ cur := by
      rintro rfl
      simpa using hi.2.2
    simpa [hne] using hi
  have hle := Finset.sum_le_sum_of_subset (f := fun i => degree g members i + 2) hsub
  rw [Search.turns, Search.turns, hpath, map_cons, sum_cons]
  dsimp only at hle ⊢
  omega

/-- **A turn brings the search nearer to its end.** -/
theorem turns_round (hpath : s.path ≠ []) (h : s.round g sccId sccPos members = .more s') :
    s'.turns g members < s.turns g members := by
  obtain ⟨⟨cur, e⟩, rest, hs⟩ := exists_cons_of_ne_nil hpath
  rw [Search.round, hs] at h
  dsimp only at h
  split at h
  · cases h
  rename_i v hv
  split at h
  · rename_i target htarget
    have he : e < degree g members cur := by
      rw [degree, hv]
      exact (List.getElem?_eq_some_iff.1 htarget).1
    have hnext : Search.turns g members { s with path := (cur, e + 1) :: rest } <
        s.turns g members := by
      simp only [Search.turns, hs, map_cons, sum_cons]
      omega
    split at h
    · cases h
      exact hnext
    split at h
    · cases h
    split at h
    · cases h
    rename_i hidx
    split at h
    · cases h
    split at h
    · cases h
      exact hnext
    rename_i hon
    split at h
    · cases h
      exact hnext
    rename_i hdone
    cases h
    have hpush := turns_push (s := { s with path := (cur, e + 1) :: rest })
      (not_not.1 hidx) (by simpa using hon) (by simpa using hdone)
    exact (Nat.lt_succ_self _).trans (hpush.trans_lt hnext)
  · cases h
    exact turns_pop hs

end

section
variable (sccId : Fin g.count → Option Nat) (sccPos : Fin g.count → Option Nat)
  (members : List (Fin g.count))

/-- The loop of `find_cycle_path`. -/
def Search.loop (s : Search) : CyclePath :=
  if _h : s.path = [] then .fallback
  else
    match _hs : s.round g sccId sccPos members with
    | .more s' => Search.loop s'
    | .found s' => .found (s'.path.map fst).reverse
    | .failed => .failed
termination_by s.turns g members
decreasing_by exact turns_round ‹_› ‹_›

/-- `find_cycle_path`: the members on the path, from the first. -/
def findCyclePath : CyclePath := Search.loop g sccId sccPos members {}

end

/-! ### What the search finds -/

section
variable {g}

/-- An edge joins one member to another. -/
def Joined (members : List (Fin g.count)) (i j : Nat) : Prop :=
  ∃ v w, members[i]? = some v ∧ members[j]? = some w ∧ g.Edge v w

/-- The members and their positions are those of one component. -/
structure OneScc (sccId sccPos : Fin g.count → Option Nat) (members : List (Fin g.count))
    (c : Nat) : Prop where
  id : ∀ v ∈ members, sccId v = some c
  pos : ∀ v, sccId v = some c → ∃ i, sccPos v = some i ∧ members[i]? = some v
  nodup : members.Nodup

variable {sccId sccPos : Fin g.count → Option Nat} {members : List (Fin g.count)} {c : Nat}
  {s s' : Search}

/-- An edge between members that the search has looked at. -/
def Search.Seen (g : Graph) (members : List (Fin g.count)) (s : Search) (i j : Nat) : Prop :=
  (i ∈ s.path.map fst ∨ s.done i = true) ∧ ∃ v w, members[i]? = some v ∧
    members[j]? = some w ∧ g.Edge v w ∧ ∀ e, (i, e) ∈ s.path → w ∈ (g.allEdges v).take e

/-- What holds in every state of the search. -/
structure Search.Inv (g : Graph) (members : List (Fin g.count)) (s : Search) : Prop where
  lt : ∀ i ∈ s.path.map fst, i < members.length
  nodup : (s.path.map fst).Nodup
  onPath : ∀ i, s.onPath i = true ↔ i ∈ s.path.map fst
  /-- Each member on the path refers to the one above it. -/
  chain : (s.path.map fst).IsChain fun i j => Joined members j i
  first : s.path = [] ∧ s.done 0 = true ∨ (s.path.map fst).getLast? = some 0
  /-- No edge that has been looked at leads to the first member. -/
  seen : ∀ i j, s.Seen g members i j → j ≠ 0 ∧ (j ∈ s.path.map fst ∨ s.done j = true)

theorem Search.inv_init (h : members ≠ []) : Search.Inv g members {} where
  lt := by simpa using length_pos_iff.2 h
  nodup := nodup_singleton 0
  onPath i := by
    by_cases hi : i = 0
    · simp [hi]
    · simp [hi]
  chain := .singleton 0
  first := .inr rfl
  seen := by
    rintro i j ⟨hi, v, w, -, -, -, htake⟩
    have hi : i = 0 := by simpa using hi
    subst hi
    simpa using htake 0 (.head _)

variable {w : Fin g.count}

section
variable {cur e : Nat} {rest : List (Nat × Nat)}

section
variable (I : s.Inv g members) (hs : s.path = (cur, e) :: rest)
include I hs

theorem Search.Inv.not_mem : cur ∉ rest.map fst := by
  have h := I.nodup
  rw [hs, map_cons, nodup_cons] at h
  exact h.1

section
variable (hv : members[cur]? = some v) (hw : (g.allEdges v)[e]? = some w)
include hv hw

/-- One more edge of the member at the top has been looked at. -/
theorem Search.Inv.seen_next {i j : Nat}
    (h : Search.Seen g members { s with path := (cur, e + 1) :: rest } i j) :
    s.Seen g members i j ∨ members[j]? = some w := by
  obtain ⟨hi', v', w', hv', hw', hedge, htake⟩ := h
  have hi : i ∈ s.path.map fst ∨ s.done i = true := by rw [hs]; exact hi'
  by_cases hic : i = cur
  · subst hic
    rw [hv] at hv'
    cases hv'
    have hlast := htake (e + 1) (.head _)
    rw [take_add_one, hw, mem_append] at hlast
    rcases hlast with hlast | hlast
    · refine .inl ⟨hi, v, w', hv, hw', hedge, fun e' he' => ?_⟩
      rw [hs, mem_cons] at he'
      rcases he' with he' | he'
      · cases he'
        exact hlast
      · exact absurd (mem_map_of_mem he') (I.not_mem hs)
    · have hww : w' = w := by simpa using hlast
      exact .inr (hww ▸ hw')
  refine .inl ⟨hi, v', w', hv', hw', hedge, fun e' he' => ?_⟩
  rw [hs, mem_cons] at he'
  rcases he' with he' | he'
  · cases he'
    exact absurd rfl hic
  · exact htake e' (.tail _ he')

/-- An edge is looked at that leads to no other member. -/
theorem Search.Inv.skip
    (hskip : ∀ j, members[j]? = some w → j ≠ 0 ∧ (j ∈ s.path.map fst ∨ s.done j = true)) :
    Search.Inv g members { s with path := (cur, e + 1) :: rest } := by
  have hmap : ((cur, e + 1) :: rest).map fst = s.path.map fst := by rw [hs]; rfl
  refine ⟨?_, ?_, ?_, ?_, ?_, fun i j h => ?_⟩
  · exact hmap ▸ I.lt
  · exact hmap ▸ I.nodup
  · exact hmap ▸ I.onPath
  · exact hmap ▸ I.chain
  · refine .inr ?_
    have hfirst := I.first
    rw [← hmap, hs] at hfirst
    exact hfirst.resolve_left fun h => nomatch h.1
  show j ≠ 0 ∧ (j ∈ ((cur, e + 1) :: rest).map fst ∨ s.done j = true)
  rw [hmap]
  rcases I.seen_next hs hv hw h with h | h
  · exact I.seen i j h
  · exact hskip j h

/-- An edge is looked at that leads to a member that is neither on the path nor done. -/
theorem Search.Inv.push {idx : Nat}
    (hidx : members[idx]? = some w) (hpos : ∀ j, members[j]? = some w → j = idx) (hne : idx ≠ 0)
    (hon : s.onPath idx = false) : Search.Inv g members { s with
        path := (idx, 0) :: (cur, e + 1) :: rest
        onPath := update s.onPath idx true } := by
  have hmap : ((cur, e + 1) :: rest).map fst = s.path.map fst := by rw [hs]; rfl
  have hnot : idx ∉ s.path.map fst := by
    intro h
    rw [(I.onPath idx).2 h] at hon
    cases hon
  refine ⟨?_, ?_, fun i => ?_, ?_, ?_, ?_⟩
  · rw [map_cons, hmap, forall_mem_cons]
    exact ⟨(List.getElem?_eq_some_iff.1 hidx).1, I.lt⟩
  · rw [map_cons, hmap, nodup_cons]
    exact ⟨hnot, I.nodup⟩
  · rw [map_cons, hmap, mem_cons]
    show update s.onPath idx true i = true ↔ _
    by_cases hi : i = idx
    · simp [hi]
    · simp [hi, I.onPath]
  · have hchain := I.chain
    rw [← hmap] at hchain
    rw [map_cons, map_cons, isChain_cons_cons]
    exact ⟨⟨v, w, hv, hidx, mem_of_getElem? hw⟩, hchain⟩
  · refine .inr ?_
    have hfirst := I.first
    rw [← hmap, hs] at hfirst
    have hlast := hfirst.resolve_left fun h => nomatch h.1
    rw [map_cons, getLast?_cons, hlast]
    rfl
  rintro i j ⟨hi, v', w', hv', hw', hedge, htake⟩
  rw [map_cons, hmap, mem_cons] at hi ⊢
  have hii : i ≠ idx := by
    rintro rfl
    simpa using htake 0 (.head _)
  have hseen : Search.Seen g members { s with path := (cur, e + 1) :: rest } i j := by
    refine ⟨?_, v', w', hv', hw', hedge, fun e' he' => htake e' (.tail _ he')⟩
    rw [hmap]
    rcases hi with (hi | hi) | hi
    · exact absurd hi hii
    · exact .inl hi
    · exact .inr hi
  rcases I.seen_next hs hv hw hseen with h | h
  · obtain ⟨hj, hj'⟩ := I.seen i j h
    exact ⟨hj, hj'.imp_left .inr⟩
  · obtain rfl := hpos j h
    exact ⟨hne, .inl (.inl rfl)⟩

end

/-- All edges of the member at the top have been looked at. -/
theorem Search.Inv.pop
    (hv : members[cur]? = some v) (he : (g.allEdges v)[e]? = none) : Search.Inv g members { s with
        path := rest
        onPath := update s.onPath cur false
        done := update s.done cur true } := by
  have hmap : s.path.map fst = cur :: rest.map fst := by rw [hs, map_cons]
  have hnot := I.not_mem hs
  have hdone : ∀ j, (j ∈ s.path.map fst ∨ s.done j = true) ↔
      (j ∈ rest.map fst ∨ update s.done cur true j = true) := by
    intro j
    rw [hmap, mem_cons]
    by_cases hj : j = cur
    · simp [hj]
    · simp [hj]
  refine ⟨fun i hi => ?_, ?_, fun i => ?_, ?_, ?_, ?_⟩
  · exact I.lt i (by rw [hmap]; exact .tail _ hi)
  · have h := I.nodup
    rw [hmap, nodup_cons] at h
    exact h.2
  · show update s.onPath cur false i = true ↔ i ∈ rest.map fst
    by_cases hi : i = cur
    · simpa [hi] using hnot
    · rw [update_of_ne hi, I.onPath, hmap, mem_cons]
      simp [hi]
  · have h := I.chain
    rw [hmap] at h
    exact h.of_cons
  · have hfirst := I.first
    rw [hmap, hs] at hfirst
    have hlast := hfirst.resolve_left fun h => nomatch h.1
    cases rest with
    | nil =>
      have hcur : cur = 0 := by simpa using hlast
      subst hcur
      exact .inl ⟨rfl, update_self 0 true s.done⟩
    | cons f rest => exact .inr (by simpa [getLast?_cons] using hlast)
  rintro i j ⟨hi, v', w', hv', hw', hedge, htake⟩
  rw [← hdone] at hi ⊢
  refine I.seen i j ⟨hi, v', w', hv', hw', hedge, fun e' he' => ?_⟩
  rw [hs, mem_cons] at he'
  rcases he' with he' | he'
  · cases he'
    rw [hv] at hv'
    cases hv'
    rw [take_of_length_le (getElem?_eq_none_iff.1 he)]
    exact hedge
  · exact htake e' he'

end

end

/-! ### The search, to its end -/

/-- The path is a cycle of members: it begins at the first, goes along edges, and one leads back. -/
structure IsCycle (members : List (Fin g.count)) (p : List Nat) : Prop where
  first : p.head? = some 0
  nodup : p.Nodup
  lt : ∀ i ∈ p, i < members.length
  chain : p.IsChain (Joined members)
  closes : ∃ i, p.getLast? = some i ∧ Joined members i 0

/-- The path when an edge of the member at the top leads back to the first member. -/
theorem Search.Inv.isCycle (I : s.Inv g members) {cur e : Nat} {rest : List (Nat × Nat)}
    (hs : s.path = (cur, e) :: rest) (hback : Joined members cur 0) :
    IsCycle members (s.path.map fst).reverse where
  first := by
    rw [head?_reverse]
    exact I.first.resolve_left fun h => by rw [hs] at h; exact nomatch h.1
  nodup := nodup_reverse.2 I.nodup
  lt i hi := I.lt i (mem_reverse.1 hi)
  chain := isChain_reverse.2 I.chain
  closes := ⟨cur, by rw [getLast?_reverse, hs]; rfl, hback⟩

/-- **A turn keeps the invariant**, or it finds a cycle; no assertion fails. -/
theorem Search.Inv.round (S : OneScc sccId sccPos members c) (I : s.Inv g members)
    (hpath : s.path ≠ []) : match s.round g sccId sccPos members with
    | .more s' => s'.Inv g members
    | .found s' => IsCycle members (s'.path.map fst).reverse
    | .failed => False := by
  obtain ⟨⟨cur, e⟩, rest, hs⟩ := exists_cons_of_ne_nil hpath
  have hlt : cur < members.length := I.lt cur (by rw [hs]; exact .head _)
  obtain ⟨v, hv⟩ : ∃ v, members[cur]? = some v := ⟨_, getElem?_eq_getElem hlt⟩
  have hhead : members.head?.bind sccId = some c := by
    obtain ⟨u, rest', rfl⟩ := exists_cons_of_length_pos (Nat.zero_lt_of_lt hlt)
    exact S.id u (.head _)
  simp only [Search.round, hs, hv, hhead]
  cases hw : (g.allEdges v)[e]? with
  | none => exact I.pop hs hv hw
  | some w =>
    dsimp only
    by_cases hid : sccId w = some c
    · rw [if_neg (not_not.2 hid)]
      obtain ⟨idx, hpos, hidx⟩ := S.pos w hid
      have huniq : ∀ j, members[j]? = some w → j = idx := by
        intro j hj
        have hj' : j < members.length := (List.getElem?_eq_some_iff.1 hj).1
        exact (getElem?_inj hj' S.nodup).1 (hj.trans hidx.symm)
      rw [hpos]
      dsimp only
      rw [if_neg (not_not.2 hidx)]
      by_cases hzero : idx = 0
      · rw [if_pos hzero]
        subst hzero
        have hmap : ((cur, e + 1) :: rest).map fst = s.path.map fst := by rw [hs]; rfl
        show IsCycle members (((cur, e + 1) :: rest).map fst).reverse
        rw [hmap]
        exact I.isCycle hs ⟨v, w, hv, hidx, mem_of_getElem? hw⟩
      rw [if_neg hzero]
      by_cases hon : s.onPath idx = true
      · rw [if_pos hon]
        refine I.skip hs hv hw fun j hj => ?_
        obtain rfl := huniq j hj
        exact ⟨hzero, .inl ((I.onPath j).1 hon)⟩
      rw [if_neg hon]
      by_cases hdone : s.done idx = true
      · rw [if_pos hdone]
        refine I.skip hs hv hw fun j hj => ?_
        obtain rfl := huniq j hj
        exact ⟨hzero, .inr hdone⟩
      · rw [if_neg hdone]
        exact I.push hs hv hw hidx huniq hzero (by simpa using hon)
    · rw [if_pos hid]
      exact I.skip hs hv hw fun j hj => absurd (S.id w (mem_of_getElem? hj)) hid

/-- The loop finds a cycle, or it ends with an empty path. -/
theorem Search.Inv.loop (S : OneScc sccId sccPos members c) (I : s.Inv g members) :
    (∃ p, s.loop g sccId sccPos members = .found p ∧ IsCycle members p) ∨
      ∃ s' : Search, s'.Inv g members ∧ s'.path = [] := by
  induction hm : s.turns g members using Nat.strong_induction_on generalizing s with
  | _ m ih =>
    rw [Search.loop]
    split
    · exact .inr ⟨s, I, ‹_›⟩
    rename_i hpath
    have hround := I.round S hpath
    split
    · rename_i s' hs'
      rw [hs'] at hround
      exact ih _ (hm ▸ turns_round hpath hs') hround rfl
    · rename_i s' hs'
      rw [hs'] at hround
      exact .inl ⟨_, rfl, hround⟩
    · rename_i hs'
      rw [hs'] at hround
      exact hround.elim

/-- When all is done, no way leads back to the first member. -/
theorem Search.Inv.not_transGen (I : s.Inv g members) (hpath : s.path = []) :
    ¬ Relation.TransGen (Joined members) 0 0 := by
  have hseen : ∀ i j, s.done i = true → Joined members i j → s.Seen g members i j := by
    rintro i j hi ⟨v, w, hv, hw, hedge⟩
    refine ⟨.inr hi, v, w, hv, hw, hedge, fun e he => ?_⟩
    rw [hpath] at he
    cases he
  have hdone : ∀ i, Relation.ReflTransGen (Joined members) 0 i → s.done i = true := by
    intro i h
    induction h with
    | refl => exact (I.first.resolve_right fun h => by rw [hpath] at h; cases h).2
    | tail _ hij ih =>
      refine ((I.seen _ _ (hseen _ _ ih hij)).2).resolve_left fun h => ?_
      rw [hpath] at h
      cases h
  intro h
  obtain ⟨i, hi, hback⟩ := Relation.TransGen.tail'_iff.1 h
  exact (I.seen i 0 (hseen i 0 (hdone i hi) hback)).1 rfl

/-! ### A cyclic component has a cycle -/

section
variable (S : OneScc sccId sccPos members c)
  (hcomp : ∀ v w, sccId v = sccId w ↔ g.Reach v w ∧ g.Reach w v)
include S hcomp

/-- What the first member reaches in its component, it reaches along members. -/
theorem OneScc.reach_members (hv : members[0]? = some v) (h : g.Reach v w) (hback : g.Reach w v) :
    ∃ j, members[j]? = some w ∧ Relation.ReflTransGen (Joined members) 0 j := by
  induction h with
  | refl => exact ⟨0, hv, .refl⟩
  | @tail a b hva hab ih =>
    obtain ⟨i, hi, hreach⟩ := ih (.head hab hback)
    have hid : sccId b = some c :=
      ((hcomp b v).2 ⟨hback, hva.tail hab⟩).trans (S.id v (mem_of_getElem? hv))
    obtain ⟨j, -, hj⟩ := S.pos b hid
    exact ⟨j, hj, hreach.tail ⟨a, b, hi, hj, hab⟩⟩

theorem OneScc.transGen
    (hcycle : g.isCycleScc members = true) : Relation.TransGen (Joined members) 0 0 := by
  match hm : members with
  | [] => cases hcycle
  | [v] =>
    obtain ⟨w, hw, hvw⟩ := any_eq_true.1 hcycle
    obtain rfl : w = v := by simpa using hvw
    exact .single ⟨w, w, rfl, rfl, hw⟩
  | v :: w :: rest =>
    have hne : v ≠ w := fun h => by
      subst h
      exact (nodup_cons.1 S.nodup).1 (.head _)
    have hid : sccId v = sccId w :=
      (S.id v (.head _)).trans
        (S.id w (.tail _ (.head _))).symm
    obtain ⟨hvw, hwv⟩ := (hcomp v w).1 hid
    -- the last edge of the way back
    rcases Relation.ReflTransGen.cases_tail hwv with heq | ⟨u, hwu, huv⟩
    · exact absurd heq hne
    · obtain ⟨i, hi, hreach⟩ := S.reach_members hcomp rfl (hvw.trans hwu) (.single huv)
      exact .tail' hreach ⟨u, v, hi, rfl, huv⟩

/-- The search finds a cycle where there is one. -/
theorem findCyclePath_found (hcycle : g.isCycleScc members = true) :
    ∃ p, findCyclePath g sccId sccPos members = .found p ∧ IsCycle members p := by
  have hne : members ≠ [] := by
    rintro rfl
    cases hcycle
  refine (Search.Inv.loop S (Search.inv_init hne)).resolve_right ?_
  rintro ⟨s', I, hpath⟩
  exact I.not_transGen hpath (S.transGen hcomp hcycle)

end

/-- The groups are those of the components. -/
theorem Groups.oneScc (sccId : Fin g.count → Option Nat) (c : Nat) :
    OneScc sccId (Groups.fill sccId).sccPos ((Groups.fill sccId).groups c) c := by
  have H := Groups.holds_fill sccId
  refine ⟨fun v hv => ?_, fun v hv => H.sccPos v (mem_finRange v) c hv, ?_⟩
  · rw [H.groups, mem_filter] at hv
    simpa using hv.2
  · rw [H.groups]
    exact (nodup_finRange g.count).filter _

end

end SpacePony.Alias
