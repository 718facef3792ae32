import Mathlib.Algebra.BigOperators.Group.Finset.Basic
import Mathlib.Algebra.BigOperators.Group.List.Basic
import Mathlib.Tactic.Abel

/-!
# Support — trial deletion

A net has weighted edges, and vertices that a search may follow.  A search keeps a stack of edges:
it takes one, adds its weight to the vertex it leads to, and follows the vertex if it is new.
-/

namespace SpacePony.TrialDeletion

open Finset
open Prod (snd fst)

variable {ι G : Type*} [DecidableEq ι] [AddCommGroup G]

/-- Weighted edges, and the vertices that may be followed. -/
structure Net (ι G : Type*) where
  edges : ι → List (ι × G)
  follow : ι → Prop

/-- The weight of the edges of the list that lead to `v`. -/
def arriving (l : List (ι × G)) (v : ι) : G := ((l.filter fun e => e.1 = v).map snd).sum

/-- The weight of the edges from the set that lead to `v`. -/
def flow (g : Net ι G) (S : Finset ι) (v : ι) : G := ∑ u ∈ S, arriving (g.edges u) v

/-- The same net with the weights taken away. -/
def Net.neg (g : Net ι G) : Net ι G :=
  ⟨fun u => (g.edges u).map fun e => (e.1, -e.2), g.follow⟩

variable {g : Net ι G} {S T D D₀ B W R : Finset ι} {st : List (ι × G)} {base r r' rc : ι → G}
  {s u v root : ι} {w : G}

@[simp] theorem arriving_nil : arriving ([] : List (ι × G)) v = 0 := rfl

theorem arriving_cons (e : ι × G) (l : List (ι × G)) (v : ι) :
    arriving (e :: l) v = (if e.1 = v then e.2 else 0) + arriving l v := by
  rw [arriving, arriving]
  by_cases h : e.1 = v
  · rw [if_pos h, List.filter_cons_of_pos (by simpa using h), List.map_cons, List.sum_cons]
  · rw [if_neg h, List.filter_cons_of_neg (by simpa using h), zero_add]

theorem arriving_append (l m : List (ι × G)) (v : ι) :
    arriving (l ++ m) v = arriving l v + arriving m v := by
  rw [arriving, List.filter_append, List.map_append, List.sum_append]
  rfl

theorem arriving_reverse (l : List (ι × G)) (v : ι) : arriving l.reverse v = arriving l v := by
  rw [arriving, List.filter_reverse, List.map_reverse, List.sum_reverse]
  rfl

theorem arriving_neg (l : List (ι × G)) (v : ι) :
    arriving (l.map fun e => (e.1, -e.2)) v = -arriving l v := by
  induction l with
  | nil => exact neg_zero.symm
  | cons e l ih =>
    rw [List.map_cons, arriving_cons, arriving_cons, ih, neg_add]
    by_cases h : e.1 = v
    · rw [if_pos h, if_pos h]
    · rw [if_neg h, if_neg h, neg_zero]

/-- Nothing arrives where no edge leads. -/
theorem arriving_eq_zero {l : List (ι × G)} (h : ∀ e ∈ l, e.1 ≠ v) : arriving l v = 0 := by
  rw [arriving, List.filter_eq_nil_iff.2 fun e he => by simpa using h e he]
  rfl

@[simp] theorem flow_empty : flow g ∅ v = 0 := sum_empty

theorem flow_insert (h : u ∉ S) : flow g (insert u S) v = arriving (g.edges u) v + flow g S v :=
  sum_insert h

theorem flow_neg : flow g.neg S v = -flow g S v := by
  rw [flow, flow, ← sum_neg_distrib]
  exact sum_congr rfl fun u _ => arriving_neg _ v

/-- A set and a part of it. -/
theorem flow_sdiff_add (h : T ⊆ S) : flow g (S \ T) v + flow g T v = flow g S v := sum_sdiff h

/-! ### A search -/

/-- A search from `s`, that began with the vertices `D₀` and the numbers `base`: by now it has seen
the vertices `D`, of those with `P`. -/
structure Flood (g : Net ι G) (P : ι → Prop) (s : ι) (D₀ D : Finset ι) (st : List (ι × G))
    (base r : ι → G) : Prop where
  start : D₀ ⊆ D
  within : ∀ v ∈ D, P v
  pending : ∀ e ∈ st, g.follow e.1 → P e.1
  entry : g.follow s → s ∈ D ∨ s ∈ st.map fst
  closed : ∀ u ∈ D, ∀ e ∈ g.edges u, g.follow e.1 → e.1 ∈ D ∨ e.1 ∈ st.map fst
  balance : ∀ v, g.follow v → r v + arriving st v = base v + flow g (D \ D₀) v
  other : ∀ v, ¬ g.follow v → r v = base v

omit [DecidableEq ι] [AddCommGroup G] in
/-- What is seen or on the stack is so after the top of the stack has been seen. -/
theorem mem_or_tail (h : u ∈ D ∨ u ∈ ((v, w) :: st).map fst) (hv : u = v → u ∈ D) :
    u ∈ D ∨ u ∈ st.map fst := by
  rcases h with h | h
  · exact .inl h
  rw [List.map_cons] at h
  rcases List.mem_cons.1 h with h | h
  · exact .inl (hv h)
  · exact .inr h

/-- The flood starts at its source, with nothing reached that was not before. -/
theorem Flood.begin {P : ι → Prop} (hD : ∀ v ∈ D₀, P v) (hs : g.follow s → P s)
    (hclosed : ∀ u ∈ D₀, ∀ e ∈ g.edges u, g.follow e.1 → e.1 ∈ D₀) :
    Flood g P s D₀ D₀ [(s, 0)] base base := by
  refine ⟨Subset.refl _, hD, fun e he hf => ?_, fun _ => .inr (.head _),
    fun u hu e he hf => .inl (hclosed u hu e he hf), fun v _ => ?_, fun _ _ => rfl⟩
  · obtain rfl := List.mem_singleton.1 he
    exact hs hf
  · rw [arriving_cons, arriving_nil, ite_self, sdiff_self]
    simp

section
variable {P : ι → Prop}

/-- **An edge to a vertex that is not followed.** -/
theorem Flood.skip (h : Flood g P s D₀ D ((v, w) :: st) base r) (hv : ¬ g.follow v) :
    Flood g P s D₀ D st base r := by
  refine ⟨h.start, h.within, fun e he => h.pending e (.tail _ he), fun hs => ?_,
    fun u hu e he hf => ?_, fun u hu => ?_, h.other⟩
  · exact mem_or_tail (h.entry hs) fun e => absurd (e ▸ hs) hv
  · exact mem_or_tail (h.closed u hu e he hf) fun e' => absurd (e' ▸ hf) hv
  · rw [← h.balance u hu, arriving_cons, if_neg fun e : v = u => hv (e ▸ hu), zero_add]

/-- The weight of the top of the stack, added. -/
theorem balance_add (h : r u + arriving ((v, w) :: st) u = base u + flow g S u) :
    Function.update r v (r v + w) u + arriving st u = base u + flow g S u := by
  rw [← h, arriving_cons]
  by_cases e : u = v
  · subst e
    rw [Function.update_self, if_pos rfl, add_assoc]
  · rw [Function.update_of_ne e, if_neg fun e' => e e'.symm, zero_add]

/-- The numbers of what is not followed stay. -/
theorem Flood.other_update (h : Flood g P s D₀ D st base r) (hf : g.follow v) :
    ∀ u, ¬ g.follow u → Function.update r v (r v + w) u = base u := by
  intro u hu
  have hne : u ≠ v := fun e => hu (e ▸ hf)
  rw [Function.update_of_ne hne, h.other u hu]

/-- **An edge to a vertex that has been seen.** -/
theorem Flood.seen (h : Flood g P s D₀ D ((v, w) :: st) base r) (hf : g.follow v) (hv : v ∈ D) :
    Flood g P s D₀ D st base (Function.update r v (r v + w)) := by
  refine ⟨h.start, h.within, fun e he => h.pending e (.tail _ he), fun hs => ?_,
    fun u hu e he hf => ?_, fun u hu => balance_add (h.balance u hu), h.other_update hf⟩
  · exact mem_or_tail (h.entry hs) fun e => e ▸ hv
  · exact mem_or_tail (h.closed u hu e he hf) fun e' => e' ▸ hv

/-- **An edge to a vertex that is new.** -/
theorem Flood.visit (h : Flood g P s D₀ D ((v, w) :: st) base r) (hf : g.follow v) (hv : v ∉ D)
    (hP : ∀ e ∈ g.edges v, g.follow e.1 → P e.1) :
    Flood g P s D₀ (insert v D) ((g.edges v).reverse ++ st) base
      (Function.update r v (r v + w)) := by
  have hmem : ∀ u, (u ∈ D ∨ u ∈ ((v, w) :: st).map fst) →
      u ∈ insert v D ∨ u ∈ ((g.edges v).reverse ++ st).map fst := fun u hu => by
    have htail := mem_or_tail (hu.imp_left (mem_insert_of_mem (b := v)))
      fun e => e ▸ mem_insert_self v D
    rw [List.map_append]
    exact htail.imp_right (List.mem_append_right _)
  refine ⟨h.start.trans (subset_insert v D), fun u hu => ?_, fun e he hfe => ?_,
    fun hs => hmem s (h.entry hs), fun u hu e he hfe => ?_, fun u hu => ?_, h.other_update hf⟩
  · rcases mem_insert.1 hu with rfl | hu
    · exact h.pending _ (.head _) hf
    · exact h.within u hu
  · rcases List.mem_append.1 he with he | he
    · exact hP e (List.mem_reverse.1 he) hfe
    · exact h.pending e (.tail _ he) hfe
  · rcases mem_insert.1 hu with rfl | hu
    · refine .inr (List.mem_map_of_mem (List.mem_append_left _ (List.mem_reverse.2 he)))
    · exact hmem e.1 (h.closed u hu e he hfe)
  have hnot : v ∉ D \ D₀ := fun hc => hv (mem_sdiff.1 hc).1
  have hD : insert v D \ D₀ = insert v (D \ D₀) :=
    insert_sdiff_of_notMem D fun hc => hv (h.start hc)
  have hadd := balance_add (h.balance u hu)
  rw [arriving_append, arriving_reverse, hD, flow_insert hnot, add_left_comm, hadd]
  abel

/-- **A search that has ended.** -/
theorem Flood.final (h : Flood g P s D₀ D [] base r) :
    (g.follow s → s ∈ D) ∧ (∀ u ∈ D, ∀ e ∈ g.edges u, g.follow e.1 → e.1 ∈ D) ∧
      ∀ v, g.follow v → r v = base v + flow g (D \ D₀) v := by
  have hnil : ∀ {u}, (u ∈ D ∨ u ∈ ([] : List (ι × G)).map fst) → u ∈ D := fun hu =>
    hu.resolve_right List.not_mem_nil
  refine ⟨fun hs => hnil (h.entry hs), fun u hu e he hf => hnil (h.closed u hu e he hf),
    fun v hv => ?_⟩
  rw [← h.balance v hv, arriving_nil, add_zero]

end

/-! ### What is held from outside -/

/-- What a search from the root follows. -/
inductive Reach (g : Net ι G) (root : ι) : ι → Prop where
  | root (h : g.follow root) : Reach g root root
  | step {u : ι} {e : ι × G} (hu : Reach g root u) (he : e ∈ g.edges u) (hf : g.follow e.1) :
      Reach g root e.1

/-- What leads, within the region, from a vertex whose number is not what the region accounts
for. -/
inductive Held (g : Net ι G) (R : Finset ι) (rc : ι → G) : ι → Prop where
  | outside {v : ι} (hv : v ∈ R) (h : rc v ≠ flow g R v) : Held g R rc v
  | step {u : ι} {e : ι × G} (hu : Held g R rc u) (he : e ∈ g.edges u) (hf : g.follow e.1) :
      Held g R rc e.1

/-- The set is what a search from the root follows. -/
def IsRegion (g : Net ι G) (root : ι) (R : Finset ι) : Prop := ∀ v, v ∈ R ↔ Reach g root v

section
omit [DecidableEq ι] [AddCommGroup G]

theorem IsRegion.root_mem (h : IsRegion g root R) (hf : g.follow root) : root ∈ R :=
  (h root).2 (.root hf)

theorem IsRegion.step (h : IsRegion g root R) (hu : u ∈ R) {e : ι × G} (he : e ∈ g.edges u)
    (hf : g.follow e.1) : e.1 ∈ R := (h e.1).2 (((h u).1 hu).step he hf)

theorem IsRegion.follow (h : IsRegion g root R) (hv : v ∈ R) : g.follow v := by
  cases (h v).1 hv with
  | root hf | step _ _ hf => exact hf

end

theorem IsRegion.held_mem (h : IsRegion g root R) (hv : Held g R rc v) : v ∈ R := by
  induction hv with
  | outside hv _ => exact hv
  | step _ he hf ih => exact h.step ih he hf

section
omit [DecidableEq ι]

theorem Reach.neg (h : Reach g root v) : Reach g.neg root v := by
  induction h with
  | root hf => exact .root hf
  | step _ he hf ih => exact ih.step (e := (_, -_)) (List.mem_map_of_mem he) hf

theorem Reach.of_neg (h : Reach g.neg root v) : Reach g root v := by
  induction h with
  | root hf => exact .root hf
  | step _ he hf ih =>
    obtain ⟨e, he', rfl⟩ := List.mem_map.1 he
    exact ih.step (e := e) he' hf

theorem IsRegion.neg (h : IsRegion g root R) : IsRegion g.neg root R :=
  fun v => (h v).trans ⟨Reach.neg, Reach.of_neg⟩

end

/-- **A search from the root ends with its region.** -/
theorem Flood.region {P : ι → Prop} (h : Flood g P root D₀ D [] base r) (hR : IsRegion g root R)
    (hP : ∀ v, P v → v ∈ R) : D = R := by
  obtain ⟨hentry, hclosed, -⟩ := h.final
  refine Subset.antisymm (fun v hv => hP v (h.within v hv)) fun v hv => ?_
  induction (hR v).1 hv with
  | root hf => exact hentry hf
  | step hu he hf ih => exact hclosed _ (ih ((hR _).2 hu)) _ he hf

/-! ### The vertices that are not held -/

/-- A search for the vertices that are not held: `B` have been found to be held, `W` not to be, so
far. -/
structure White (g : Net ι G) (R : Finset ι) (rc : ι → G) (root : ι) (B W : Finset ι)
    (st : List (ι × G)) (r : ι → G) : Prop where
  black : ∀ v ∈ B, Held g R rc v
  white : ∀ v ∈ W, v ∈ R ∧ v ∉ B ∧ rc v = flow g R v
  pending : ∀ e ∈ st, g.follow e.1 → e.1 ∈ R
  entry : g.follow root → root ∈ B ∪ W ∨ root ∈ st.map fst
  blackClosed : ∀ u ∈ B, ∀ e ∈ g.edges u, g.follow e.1 → e.1 ∈ B
  whiteClosed : ∀ u ∈ W, ∀ e ∈ g.edges u, g.follow e.1 → e.1 ∈ B ∪ W ∨ e.1 ∈ st.map fst
  balance : ∀ v, g.follow v → r v + flow g (R \ B) v = rc v
  other : ∀ v, ¬ g.follow v → r v = rc v

theorem White.begin (hR : IsRegion g root R) (hbalance : ∀ v, g.follow v → r v + flow g R v = rc v)
    (hother : ∀ v, ¬ g.follow v → r v = rc v) : White g R rc root ∅ ∅ [(root, 0)] r := by
  refine ⟨fun v hv => absurd hv (notMem_empty v), fun v hv => absurd hv (notMem_empty v),
    fun e he hf => ?_, fun _ => .inr (.head _), fun u hu => absurd hu (notMem_empty u),
    fun u hu => absurd hu (notMem_empty u), fun v hv => ?_, hother⟩
  · obtain rfl := List.mem_singleton.1 he
    exact hR.root_mem hf
  · rw [sdiff_empty, hbalance v hv]

/-- **A vertex that is not followed, or is black or white.** -/
theorem White.skip (h : White g R rc root B W ((v, w) :: st) r) (hv : g.follow v → v ∈ B ∪ W) :
    White g R rc root B W st r := by
  refine ⟨h.black, h.white, fun e he => h.pending e (.tail _ he), fun hf => ?_,
    h.blackClosed, fun u hu e he hf => ?_, h.balance, h.other⟩
  · exact mem_or_tail (h.entry hf) fun e => e ▸ hv (e ▸ hf)
  · exact mem_or_tail (h.whiteClosed u hu e he hf) fun e' => e' ▸ hv (e' ▸ hf)

/-- What is white is not black. -/
theorem White.sdiff_eq (h : White g R rc root B W st r) : W \ B = W :=
  sdiff_eq_self_of_disjoint (disjoint_left.2 fun _ hv => (h.white _ hv).2.1)

/-- What is black brings nothing to what is not. -/
theorem White.flow_black (h : White g R rc root B W st r) (hf : g.follow v) (hv : v ∉ B) :
    flow g B v = 0 :=
  sum_eq_zero fun u hu => arriving_eq_zero fun e he hev =>
    hv (hev ▸ h.blackClosed u hu e he (hev.symm ▸ hf))

/-- What the search reads at a vertex that is not black. -/
theorem White.balance_of_notMem (h : White g R rc root B W st r) (hsub : B ⊆ R)
    (hf : g.follow v) (hv : v ∉ B) : r v + flow g R v = rc v := by
  rw [← h.balance v hf, ← flow_sdiff_add (v := v) hsub, h.flow_black hf hv, add_zero]

section
variable (h : White g R rc root B W ((v, w) :: st) r) (hR : IsRegion g root R)
include h hR

/-- **A vertex that the region accounts for** becomes white. -/
theorem White.turn (hf : g.follow v) (hv : v ∉ B ∪ W) (hzero : r v = 0) :
    White g R rc root B (insert v W) ((g.edges v).reverse ++ st) r := by
  obtain ⟨hvB, -⟩ := notMem_union.1 hv
  have hsub : B ⊆ R := fun u hu => hR.held_mem (h.black u hu)
  have hvR : v ∈ R := h.pending _ (.head _) hf
  have hmem : ∀ u, (u ∈ B ∪ W ∨ u ∈ ((v, w) :: st).map fst) →
      u ∈ B ∪ insert v W ∨ u ∈ ((g.edges v).reverse ++ st).map fst := fun u hu => by
    rw [union_insert, List.map_append]
    exact (mem_or_tail (hu.imp_left (mem_insert_of_mem (b := v)))
      fun e => by rw [e]; exact mem_insert_self ..).imp_right (List.mem_append_right _)
  refine ⟨h.black, fun u hu => ?_, fun e he hfe => ?_, fun hs => hmem root (h.entry hs),
    h.blackClosed, fun u hu e he hfe => ?_, h.balance, h.other⟩
  · rcases mem_insert.1 hu with rfl | hu
    · refine ⟨hvR, hvB, ?_⟩
      rw [← h.balance_of_notMem hsub hf hvB, hzero, zero_add]
    · exact h.white u hu
  · rcases List.mem_append.1 he with he | he
    · exact hR.step hvR (List.mem_reverse.1 he) hfe
    · exact h.pending e (.tail _ he) hfe
  · rcases mem_insert.1 hu with rfl | hu
    · exact .inr (List.mem_map_of_mem (List.mem_append_left _ (List.mem_reverse.2 he)))
    · exact hmem e.1 (h.whiteClosed u hu e he hfe)

/-- A vertex that the region does not account for is held. -/
theorem White.held (hf : g.follow v) (hv : v ∉ B) (hr : r v ≠ 0) : Held g R rc v := by
  refine .outside (h.pending _ (.head _) hf) fun e => hr ?_
  have hbalance := h.balance_of_notMem (fun u hu => hR.held_mem (h.black u hu)) hf hv
  rw [e] at hbalance
  exact add_eq_right.1 hbalance

/-- **What leads from a held vertex** becomes black. -/
theorem White.blacken
    (hflood : Flood g (Held g R rc) v B D [] r r') : White g R rc root D (W \ D) st r' := by
  obtain ⟨hentry, hclosed, hbalance⟩ := hflood.final
  have hDR : D ⊆ R := fun u hu => hR.held_mem (hflood.within u hu)
  have hmem : ∀ u, g.follow u → (u ∈ B ∪ W ∨ u ∈ ((v, w) :: st).map fst) →
      u ∈ D ∪ (W \ D) ∨ u ∈ st.map fst := fun u hfu hu => by
    rw [union_sdiff_self_eq_union]
    have hsub : B ∪ W ⊆ D ∪ W := union_subset_union hflood.start (Subset.refl W)
    exact mem_or_tail (hu.imp_left fun hBW => hsub hBW)
      fun e => mem_union_left W (e ▸ hentry (e ▸ hfu))
  refine ⟨hflood.within, fun u hu => ?_, fun e he => h.pending e (.tail _ he),
    fun hs => hmem root hs (h.entry hs), hclosed, fun u hu e he hf => ?_, fun u hu => ?_,
    fun u hu => (hflood.other u hu).trans (h.other u hu)⟩
  · obtain ⟨huW, huD⟩ := mem_sdiff.1 hu
    exact ⟨(h.white u huW).1, huD, (h.white u huW).2.2⟩
  · exact hmem e.1 hf (h.whiteClosed u (mem_sdiff.1 hu).1 e he hf)
  have hsplit : flow g (R \ B) u = flow g (R \ D) u + flow g (D \ B) u := by
    have hpart : D \ B ⊆ R \ B := sdiff_subset_sdiff hDR (Subset.refl B)
    rw [← flow_sdiff_add (v := u) hpart, sdiff_sdiff_sdiff_cancel_right hflood.start]
  rw [hbalance u hu, ← h.balance u hu, hsplit]
  abel

end

/-- **What is white at the end** is what is not held. -/
theorem White.final (h : White g R rc root B W [] r) (hR : IsRegion g root R) :
    (∀ v, v ∈ B ↔ Held g R rc v) ∧ ∀ v, v ∈ W ↔ v ∈ R ∧ ¬ Held g R rc v := by
  have hnil : ∀ {u}, (u ∈ B ∪ W ∨ u ∈ ([] : List (ι × G)).map fst) → u ∈ B ∪ W := fun hu =>
    hu.resolve_right List.not_mem_nil
  have hall : ∀ v ∈ R, v ∈ B ∪ W := fun v hv => by
    induction (hR v).1 hv with
    | root hf => exact hnil (h.entry hf)
    | step hu he hf ih =>
      rcases mem_union.1 (ih ((hR _).2 hu)) with hB | hW
      · exact mem_union_left W (h.blackClosed _ hB _ he hf)
      · exact hnil (h.whiteClosed _ hW _ he hf)
  have hheld : ∀ v, Held g R rc v → v ∈ B := fun v hv => by
    induction hv with
    | outside hv hne =>
      rcases mem_union.1 (hall _ hv) with hB | hW
      · exact hB
      · exact absurd (h.white _ hW).2.2 hne
    | step _ he hf ih => exact h.blackClosed _ ih _ he hf
  refine ⟨fun v => ⟨h.black v, hheld v⟩, fun v => ⟨fun hv => ?_, fun ⟨hv, hnot⟩ => ?_⟩⟩
  · exact ⟨(h.white v hv).1, fun hc => (h.white v hv).2.1 (hheld v hc)⟩
  · exact (mem_union.1 (hall v hv)).resolve_left fun hB => hnot (h.black v hB)

end SpacePony.TrialDeletion
