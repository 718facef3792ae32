import SpacePony.Runtime.Cycle.Scan
import Mathlib.Data.List.Nodup
import Mathlib.Data.List.Perm.Basic

/-!
# Runtime — the reference counts of views

`view_rc` counts the entries for a view in `d->views` and in the maps of other views, so that a
view is freed when the last of them goes.

* `step_acc`: each operation keeps the counts, if the references of what it frees can go (`Gives`).
* `accounted_of_frees_empty`: counts are right in every run that never frees a view with
  references of its own (`FreesEmpty`).
* `not_accounted_zombie`: freeing a view with a reference leaves a count too high.
-/

namespace SpacePony.Cycle

open Int List Cells Hoare
open Prod (snd fst mk)

/-- The references to a view in the maps of the views in use. -/
def refs (h : List (Option View)) (v : ViewId) : Nat :=
  total (fun x : View => (x.map.map ViewRef.view).count v) h

/-- One for a view in `d->views`. -/
def inViews (d : Detector) (v : ViewId) : Nat := if v ∈ d.views.map snd then 1 else 0

/-- Every view in use is counted, and a view that neither `d->views` nor another view refers to
is freed. -/
def Accounted (d : Detector) : Prop :=
  (∀ v x, cell d.heap v = some x → x.viewRc = inViews d v + refs d.heap v) ∧
  ∀ v, v ∉ d.views.map snd → refs d.heap v = 0 → cell d.heap v = none

/-! ### What most operations leave alone -/

/-- What the counts depend on in a view. -/
def core (x : View) : ActorId × Nat × List ViewRef := (x.actor, x.viewRc, x.map)

/-- The members of each cycle are under different actors. -/
def CycleKeys (d : Detector) : Prop :=
  ∀ e ∈ d.perceived, (e.2.map.map fst).Nodup

/-- `d` differs from `d₀` in nothing that counts. -/
structure Quiet (d₀ d : Detector) : Prop where
  views : d.views = d₀.views
  heap : d.heap.map (Option.map core) = d₀.heap.map (Option.map core)
  cycles : CycleKeys d

variable {m : ViewMap}

section
variable {d₀ d : Detector} {v : ViewId} {rc : UInt64} {x y : View} {token : Token}

theorem Quiet.write (h : Quiet d₀ d) (hc : cell d.heap v = some x) (hy : core y = core x) :
    Quiet d₀ { d with heap := write d.heap v y } :=
  ⟨h.views, (map_write hc hy).trans h.heap, h.cycles⟩

theorem markGrey_quiet : Keeps (Quiet d₀) (markGrey v rc) := by
  refine Keeps.getV fun x d hd hx => ends_ite (fun _ => ends_bind ?_) fun _ => ends_pure hd
  have hgrey : ∀ (m : ViewMap) (y : View), core y = core x →
      Ends (greyView v rc y) (fun _ d' => Quiet d₀ d') (fun _ => True) { d with deferred := m } := by
    intro m y hy
    have hm : Quiet d₀ { d with deferred := m } := ⟨hd.views, hd.heap, hd.cycles⟩
    refine ends_ite (fun _ => ?_) fun _ => ?_
    · exact ends_bind (ends_setV (ends_pure (hm.write hx hy)))
    · exact ends_bind (ends_assert (fun _ => ends_bind (ends_setV (ends_pure (hm.write hx hy))))
        fun _ => trivial)
  exact ends_undefer (fun m => hgrey m _ rfl) fun _ => hgrey d.deferred x rfl

theorem markBlack_quiet : Keeps (Quiet d₀) (markBlack v rc) := by
  refine Keeps.getV fun x d hd hx => ends_ite (fun _ => ends_ite (fun _ => ?_) fun _ => ?_)
    fun _ => ?_
  · exact ends_bind (ends_setV (ends_pure (hd.write hx rfl)))
  · exact ends_bind (ends_setV (ends_pure (hd.write hx rfl)))
  · exact ends_bind (ends_assert (fun _ => ends_pure hd) fun _ => trivial)

theorem markWhite_quiet : Keeps (Quiet d₀) (markWhite v rc) := by
  refine Keeps.getV fun x d hd hx => ends_ite (fun _ => ?_) fun _ => ends_pure hd
  refine ends_bind (ends_assert (fun _ => ends_ite (fun _ => ?_) fun _ => ?_) fun _ => trivial)
  · exact (scan_keeps (fun _ _ => markBlack_quiet) 0).bind (fun _ => Keeps.pure) d hd
  · exact ends_bind (ends_assert (fun _ => ends_bind (ends_setV (ends_pure (hd.write hx rfl))))
      fun _ => trivial)

theorem nodup_remove {a : ActorId} (h : (m.map fst).Nodup) :
    ((remove m a).map fst).Nodup :=
  h.sublist (List.Sublist.map _ filter_sublist)

theorem nodup_put {a : ActorId} (h : (m.map fst).Nodup) :
    ((put m a v).map fst).Nodup := by
  rw [put, map_cons, nodup_cons]
  refine ⟨fun hmem => ?_, nodup_remove h⟩
  obtain ⟨e, he, heq⟩ := mem_map.1 hmem
  have hne : e.1 ≠ a := by simpa using (mem_filter.1 he).2
  exact hne heq

theorem cycleKeys_map {f : Token × Perceived → Token × Perceived}
    (hf : ∀ e ∈ d.perceived, ((f e).2.map.map fst).Nodup) :
    CycleKeys { d with perceived := d.perceived.map f } := by
  intro e he
  obtain ⟨e', he', rfl⟩ := mem_map.1 he
  exact hf e' he'

theorem collectView_quiet : Keeps (Quiet d₀) (collectView token v rc) := by
  refine Keeps.getV fun x d hd hx => ends_ite (fun _ => ends_bind ?_)
    fun _ => markBlack_quiet d hd
  refine ends_bind (ends_assert (fun _ => ends_bind (ends_assert (fun _ => ?_)
    fun _ => trivial)) fun _ => trivial)
  refine ends_bind (ends_setV (ends_modify (markBlack_quiet _ ?_)))
  have hw := hd.write (y := { x with perceived := some token }) hx rfl
  refine ⟨hw.views, hw.heap, cycleKeys_map fun e he => ?_⟩
  split
  · exact nodup_put (hd.cycles e he)
  · exact hd.cycles e he

theorem perceive_quiet {count : Int} : Keeps (Quiet d₀) (perceive v count) := by
  intro d hd
  refine ends_bind (ends_get (ends_bind (ends_set (ends_bind ?_))))
  have hnew : Quiet d₀
      { d with perceived := (d.nextToken, ⟨0, []⟩) :: d.perceived, nextToken := d.nextToken + 1 } := by
    refine ⟨hd.views, hd.heap, fun e he => ?_⟩
    rcases mem_cons.1 he with rfl | he
    · exact nodup_nil
    · exact hd.cycles e he
  refine (scan_keeps (fun _ _ => collectView_quiet) 0 _ hnew).mono (fun count' d' hd' => ?_)
    fun _ h => h
  refine ends_bind (ends_assert (fun _ => ends_bind (ends_get ?_)) fun _ => trivial)
  cases d'.perceived.lookup d.nextToken with
  | none => exact ends_throw trivial
  | some per =>
    exact ends_bind (ends_assert (fun _ => ends_modify ⟨hd'.views, hd'.heap, hd'.cycles⟩)
      fun _ => trivial)

theorem detect_quiet : Keeps (Quiet d₀) (detect v) := by
  refine Keeps.getV fun x d hd hx => ?_
  refine Keeps.assert.bind (fun _ => ?_) d hd
  refine (scan_keeps (fun _ _ => markGrey_quiet) 0).bind fun _ => ?_
  refine (scan_keeps (fun _ _ => markWhite_quiet) 0).bind fun count => ?_
  exact Keeps.assert.bind fun _ => Keeps.ite Keeps.pure (perceive_quiet.bind fun _ => Keeps.pure)

theorem deferredRound_quiet {actor : ActorId} : Keeps (Quiet d₀) (deferredRound actor) := by
  intro d hd
  refine ends_bind (ends_get ?_)
  cases d.deferred.lookup actor with
  | none => exact ends_pure hd
  | some v =>
    refine ends_bind (ends_getV (fun x hx => ends_bind (ends_assert (fun _ => ends_bind
      (ends_modify (ends_bind (ends_setV ?_)))) fun _ => trivial)) fun _ => trivial)
    have hm : Quiet d₀ { d with deferred := remove d.deferred actor } :=
      ⟨hd.views, hd.heap, hd.cycles⟩
    exact (detect_quiet.bind fun _ => Keeps.pure) _ (hm.write hx rfl)

theorem clearPerceived_quiet (members : ViewMap) : Keeps (Quiet d₀) (clearPerceived members) := by
  induction members with
  | nil => exact Keeps.pure
  | cons e members ih =>
    exact Keeps.getV fun x d hd hx => ends_bind (ends_setV (ih _ (hd.write hx rfl)))

theorem CycleKeys.filter {p : Token × Perceived → Bool} (h : CycleKeys d) :
    CycleKeys { d with perceived := d.perceived.filter p } :=
  fun e he => h e (mem_filter.1 he).1

theorem expire_quiet : Keeps (Quiet d₀) (expire v) := by
  refine Keeps.getV fun x d hd hx => ?_
  cases x.perceived with
  | none => exact ends_pure hd
  | some token =>
    refine ends_bind (ends_get ?_)
    cases d.perceived.lookup token with
    | none => exact ends_throw trivial
    | some per =>
      refine ends_bind ((clearPerceived_quiet per.map d hd).mono (fun _ d₁ hd₁ => ?_) fun _ h => h)
      refine ends_bind (ends_modify (ends_bind (ends_getV (fun y hy => ?_) fun _ => trivial)))
      have hf : Quiet d₀ { d₁ with perceived := d₁.perceived.filter (·.1 ≠ token) } :=
        ⟨hd₁.views, hd₁.heap, hd₁.cycles.filter⟩
      exact ends_setV (hf.write hy rfl)

theorem dropDeferred_quiet : Keeps (Quiet d₀) (dropDeferred x) :=
  fun _ hd => ends_ite (fun _ => ends_modify ⟨hd.views, hd.heap, hd.cycles⟩) fun _ => ends_pure hd

theorem collectMark_quiet (members : ViewMap) : Keeps (Quiet d₀) (collectMark token members) := by
  induction members with
  | nil => exact Keeps.pure
  | cons e members ih =>
    refine Keeps.getV fun x d hd hx => ?_
    exact Keeps.assert.bind (fun _ => dropDeferred_quiet.bind fun _ => ih) d hd

theorem defer_quiet : Keeps (Quiet d₀) (defer v) := by
  refine Keeps.getV fun x d hd hx => ends_ite (fun _ => ends_pure hd) fun _ => ?_
  refine ends_bind (ends_modify (ends_setV ?_))
  have hm : Quiet d₀ { d with deferred := put d.deferred x.actor v } :=
    ⟨hd.views, hd.heap, hd.cycles⟩
  exact hm.write hx rfl

theorem unblock_quiet {actor : ActorId} : Keeps (Quiet d₀) (unblock actor) := by
  intro d hd
  refine ends_bind (ends_get ?_)
  cases d.views.lookup actor with
  | none => exact ends_throw trivial
  | some v =>
    refine ends_bind (ends_getV (fun x hx => ends_bind ?_) fun _ => trivial)
    refine ends_undefer (fun m => ends_bind (ends_setV (expire_quiet _ ?_)))
      fun _ => ends_bind (ends_setV (expire_quiet _ (hd.write hx rfl)))
    have hm : Quiet d₀ { d with deferred := m } := ⟨hd.views, hd.heap, hd.cycles⟩
    exact hm.write hx rfl

end

/-! ### The invariant -/

/-- One at a view, zero elsewhere. -/
def one (v : ViewId) : ViewId → Int := fun u => if u = v then 1 else 0

/-- How often a map of references refers to each view. -/
def weight (map : List ViewRef) : ViewId → Int := fun u => (map.map ViewRef.view).count u

/-- What the count of a view is too high by. -/
def slack (d : Detector) (v : ViewId) (x : View) : Int :=
  x.viewRc - inViews d v - refs d.heap v

/-- The invariant of the counts, up to a bound `R` on what each of them is too high by. -/
structure Acc (R : ViewId → Int → Prop) (d : Detector) : Prop where
  keys : (d.views.map fst).Nodup
  valid : ∀ {a v}, (a, v) ∈ d.views → ∃ x, cell d.heap v = some x ∧ x.actor = a
  refKeys : ∀ {v x}, cell d.heap v = some x → (x.map.map ViewRef.view).Nodup
  count : ∀ {v x}, cell d.heap v = some x → R v (slack d v x)
  pos : ∀ {v x}, cell d.heap v = some x → 0 < x.viewRc
  alive : ∀ {v}, cell d.heap v = none → refs d.heap v = 0
  cycles : CycleKeys d

/-- A bound on every count: new views meet it, and no count is too low. -/
structure Bound (R : Int → Prop) : Prop where
  zero : R 0
  nonneg : ∀ {k}, R k → 0 ≤ k

/-- Every count meets the bound. -/
def Counts (R : Int → Prop) : Detector → Prop := Acc fun _ => R

/-- Every count meets the bound once one is taken from the count of `v`. -/
def Owes (R : Int → Prop) (v : ViewId) : Detector → Prop := Acc fun u k => R (k - one v u)

theorem bound_zero : Bound (· = 0) := ⟨rfl, fun h => Int.le_of_eq h.symm⟩

section
variable {R' S : ViewId → Int → Prop} {R : Int → Prop} {d d' : Detector} {v view find : ViewId}
  {a : ActorId} {x y : View} {rc : UInt64}

theorem Counts.accounted (h : Counts (· = 0) d) : Accounted d := by
  refine ⟨fun v x hx => ?_, fun v hv hr => ?_⟩
  · have hcount : slack d v x = 0 := h.count hx
    rw [slack] at hcount
    omega
  by_contra hne
  obtain ⟨x, hx⟩ := Option.ne_none_iff_exists'.1 hne
  have hcount : slack d v x = 0 := h.count hx
  have hpos := h.pos hx
  rw [slack, inViews, if_neg hv, hr] at hcount
  omega

theorem Acc.congr (h : Acc S d) (ho : ∀ u x, cell d.heap u = some x → ∀ k, S u k → R' u k) :
    Acc R' d :=
  ⟨h.keys, h.valid, h.refKeys, fun hx => ho _ _ hx _ (h.count hx), h.pos, h.alive, h.cycles⟩

theorem refs_eq_total (h : List (Option View)) (v : ViewId) :
    refs h v = total (fun c : ActorId × Nat × List ViewRef => (c.2.2.map ViewRef.view).count v)
      (h.map (Option.map core)) := by
  rw [total_map]
  rfl

theorem Quiet.cell_eq (hq : Quiet d d') (hx : cell d'.heap v = some x) :
    ∃ y, cell d.heap v = some y ∧ core y = core x := by
  have hmap : (cell d'.heap v).map core = (cell d.heap v).map core := by
    rw [← cell_map, ← cell_map, hq.heap]
  rw [hx] at hmap
  obtain ⟨y, hy, hcore⟩ := Option.map_eq_some_iff.1 hmap.symm
  exact ⟨y, hy, hcore⟩

theorem Quiet.refs_eq (hq : Quiet d d') : refs d'.heap v = refs d.heap v := by
  rw [refs_eq_total, refs_eq_total, hq.heap]

theorem Quiet.symm (hc : CycleKeys d) (hq : Quiet d d') : Quiet d' d :=
  ⟨hq.views.symm, hq.heap.symm, hc⟩

theorem core_eq (h : core x = core y) : x.actor = y.actor ∧ x.viewRc = y.viewRc ∧ x.map = y.map :=
  ⟨congrArg (·.1) h, congrArg (·.2.1) h, congrArg (·.2.2) h⟩

/-- The invariant depends on nothing that a quiet operation changes. -/
theorem Acc.quiet (h : Acc S d) (hq : Quiet d d') : Acc S d' where
  keys := hq.views ▸ h.keys
  valid := by
    intro a v ha
    obtain ⟨y, hy, hya⟩ := h.valid (hq.views ▸ ha)
    obtain ⟨x, hx, hcore⟩ := (hq.symm h.cycles).cell_eq hy
    exact ⟨x, hx, (core_eq hcore).1.trans hya⟩
  refKeys := by
    intro v x hx
    obtain ⟨y, hy, hcore⟩ := hq.cell_eq hx
    rw [← (core_eq hcore).2.2]
    exact h.refKeys hy
  count := by
    intro v x hx
    obtain ⟨y, hy, hcore⟩ := hq.cell_eq hx
    have hslack : slack d' v x = slack d v y := by
      rw [slack, slack, (core_eq hcore).2.1, hq.refs_eq, inViews, hq.views, inViews]
    rw [hslack]
    exact h.count hy
  pos := by
    intro v x hx
    obtain ⟨y, hy, hcore⟩ := hq.cell_eq hx
    rw [← (core_eq hcore).2.1]
    exact h.pos hy
  alive := by
    intro v hv
    rw [hq.refs_eq]
    refine h.alive (Option.eq_none_iff_forall_ne_some.2 fun x hx => ?_)
    obtain ⟨y, hy, -⟩ := (hq.symm h.cycles).cell_eq hx
    rw [hv] at hy
    cases hy
  cycles := hq.cycles

theorem Quiet.refl (hc : CycleKeys d) : Quiet d d := ⟨rfl, rfl, hc⟩

/-- A quiet program keeps the invariant. -/
theorem Acc.of_quiet {α : Type} {p : DetM α} (hp : ∀ d₀, Keeps (Quiet d₀) p) :
    Keeps (Acc S) p :=
  fun d hd => (hp d d (Quiet.refl hd.cycles)).mono (fun _ _ hq => hd.quiet hq) fun _ h => h

/-! ### Changes to the counts -/

/-- An actor has one view in `d->views`. -/
theorem Acc.actor_unique {b : ActorId} (h : Acc S d) (ha : (a, v) ∈ d.views)
    (hb : (b, v) ∈ d.views) : a = b := by
  obtain ⟨x, hx, rfl⟩ := h.valid ha
  obtain ⟨y, hy, rfl⟩ := h.valid hb
  rw [hx] at hy
  exact congrArg View.actor (Option.some.inj hy)

section
variable (h : Acc S d) (hx : cell d.heap v = some x)
include h hx

/-- References point to views that are in use. -/
theorem Acc.ref_alive : ∀ ref ∈ x.map, cell d.heap ref.view ≠ none := by
  intro ref href hnone
  have hzero := h.alive hnone
  have hle := le_total (w := fun x : View => (x.map.map ViewRef.view).count ref.view) hx
  have hone : 0 < (x.map.map ViewRef.view).count ref.view :=
    count_pos_iff.2 (mem_map.2 ⟨ref, href, rfl⟩)
  rw [refs] at hzero
  omega

/-- A view is written: its own count and those of the views it refers to change. -/
theorem Acc.write (hactor : y.actor = x.actor)
    (hkeys : (y.map.map ViewRef.view).Nodup) (hpos : 0 < y.viewRc)
    (halive : ∀ ref ∈ y.map, cell d.heap ref.view ≠ none) :
    Acc (fun u k => S u (k - ((y.viewRc : Int) - x.viewRc) * one v u + weight y.map u -
      weight x.map u)) { d with heap := write d.heap v y } := by
  have hrefs : ∀ u, (refs (Cells.write d.heap v y) u : Int) + weight x.map u =
      refs d.heap u + weight y.map u := fun u => by
    have := total_write (w := fun x : View => (x.map.map ViewRef.view).count u) (a := y) hx
    simp only [refs, weight]
    omega
  refine ⟨h.keys, fun {b u} hmem => ?_, fun {u z} hz => ?_, fun {u z} hz => ?_, fun {u z} hz => ?_,
    fun {u} hu => ?_, h.cycles⟩
  · obtain ⟨z, hz, hzb⟩ := h.valid hmem
    by_cases huv : u = v
    · subst huv
      rw [hx] at hz
      cases hz
      exact ⟨y, by rw [cell_write hx, if_pos rfl], hactor.trans hzb⟩
    · exact ⟨z, by rw [cell_write hx, if_neg huv, hz], hzb⟩
  · rcases cell_write_cases hx hz with ⟨rfl, rfl⟩ | ⟨-, hz⟩
    · exact hkeys
    · exact h.refKeys hz
  · have hsum := hrefs u
    rcases cell_write_cases hx hz with ⟨rfl, rfl⟩ | ⟨hne, hz⟩
    · have hslack : slack { d with heap := Cells.write d.heap u z } u z -
          ((z.viewRc : Int) - x.viewRc) * one u u + weight z.map u - weight x.map u =
          slack d u x := by
        rw [one, if_pos rfl, mul_one]
        show (z.viewRc : Int) - inViews d u - refs (Cells.write d.heap u z) u - _ + _ - _ =
          (x.viewRc : Int) - inViews d u - refs d.heap u
        omega
      rw [hslack]
      exact h.count hx
    have hslack : slack { d with heap := Cells.write d.heap v y } u z -
        ((y.viewRc : Int) - x.viewRc) * one v u + weight y.map u - weight x.map u =
        slack d u z := by
      rw [one, if_neg hne, Int.mul_zero]
      show (z.viewRc : Int) - inViews d u - refs (Cells.write d.heap v y) u - _ + _ - _ =
        (z.viewRc : Int) - inViews d u - refs d.heap u
      omega
    rw [hslack]
    exact h.count hz
  · rcases cell_write_cases hx hz with ⟨rfl, rfl⟩ | ⟨-, hz⟩
    · exact hpos
    · exact h.pos hz
  · have hsum := hrefs u
    have hnone : cell d.heap u = none := by
      rw [cell_write hx] at hu
      split at hu
      · cases hu
      · exact hu
    have hdead := h.alive hnone
    have hzero : weight y.map u = 0 := by
      rw [weight, count_eq_zero_of_not_mem]
      · rfl
      intro hmem
      obtain ⟨ref, href, rfl⟩ := mem_map.1 hmem
      exact halive ref href hnone
    have hnonneg : 0 ≤ weight x.map u := natCast_nonneg _
    show refs (Cells.write d.heap v y) u = 0
    omega

theorem Acc.write_rc {n : Nat} (hn : 0 < n) :
    Acc (fun u k => S u (k - ((n : Int) - x.viewRc) * one v u))
      { d with heap := Cells.write d.heap v { x with viewRc := n } } := by
  have hkeys := h.refKeys hx
  have halive := h.ref_alive hx
  refine (h.write (y := { x with viewRc := n }) hx rfl hkeys hn halive).congr fun u _ _ k hk => ?_
  have hk' : k - ((n : Int) - x.viewRc) * one v u + weight x.map u - weight x.map u =
      k - ((n : Int) - x.viewRc) * one v u := by omega
  exact hk' ▸ hk

theorem Acc.write_map {m : List ViewRef}
    (hkeys : (m.map ViewRef.view).Nodup) (halive : ∀ ref ∈ m, cell d.heap ref.view ≠ none) :
    Acc (fun u k => S u (k + weight m u - weight x.map u))
      { d with heap := Cells.write d.heap v { x with map := m } } := by
  have hpos := h.pos hx
  refine (h.write (y := { x with map := m }) hx rfl hkeys hpos halive).congr fun u _ _ k hk => ?_
  have hk' : k - ((x.viewRc : Int) - x.viewRc) * one v u + weight m u - weight x.map u =
      k + weight m u - weight x.map u := by
    rw [sub_self, Int.zero_mul, sub_zero]
  exact hk' ▸ hk

/-- A view that nothing refers to is freed, and the references of its map with it. -/
theorem Acc.free (hv : v ∉ d.views.map snd) (hr : refs d.heap v = 0) :
    Acc (fun u k => S u (k - weight x.map u)) { d with heap := free d.heap v } := by
  have hrefs : ∀ u, (refs (Cells.free d.heap v) u : Int) + weight x.map u = refs d.heap u :=
    fun u => by
      have := total_free (w := fun x : View => (x.map.map ViewRef.view).count u) hx
      simp only [refs, weight]
      omega
  have hcell : ∀ {u z}, cell (Cells.free d.heap v) u = some z → cell d.heap u = some z :=
    fun {u z} hz => by
      rw [cell_free] at hz
      split at hz
      · cases hz
      · exact hz
  refine ⟨h.keys, fun {b u} hmem => ?_, fun hz => h.refKeys (hcell hz), fun {u z} hz => ?_,
    fun hz => h.pos (hcell hz), fun {u} hu => ?_, h.cycles⟩
  · obtain ⟨z, hz, hzb⟩ := h.valid hmem
    have hne : u ≠ v := fun huv => hv (huv ▸ mem_map.2 ⟨_, hmem, rfl⟩)
    exact ⟨z, by rw [cell_free, if_neg hne, hz], hzb⟩
  · have hsum := hrefs u
    have hslack : slack { d with heap := Cells.free d.heap v } u z - weight x.map u =
        slack d u z := by
      show (z.viewRc : Int) - inViews d u - refs (Cells.free d.heap v) u - _ =
        (z.viewRc : Int) - inViews d u - refs d.heap u
      omega
    rw [hslack]
    exact h.count (hcell hz)
  have hsum := hrefs u
  have hnonneg : 0 ≤ weight x.map u := natCast_nonneg _
  have hdead : refs d.heap u = 0 := by
    rw [cell_free] at hu
    split at hu
    · rename_i huv
      exact huv ▸ hr
    · exact h.alive hu
  show refs (Cells.free d.heap v) u = 0
  omega

end

theorem mem_remove {b : ActorId} : (b, v) ∈ remove m a ↔ (b, v) ∈ m ∧ b ≠ a := by
  simp [remove]

/-- A view is taken out of `d->views`. -/
theorem Acc.remove (h : Acc S d) (hmem : (a, v) ∈ d.views) :
    Acc (fun u k => S u (k - one v u)) { d with views := remove d.views a } := by
  refine ⟨nodup_remove h.keys, fun hb => h.valid (mem_remove.1 hb).1, h.refKeys,
    fun {u z} hz => ?_, h.pos, h.alive, h.cycles⟩
  have hin : (inViews d u : Int) =
      inViews { d with views := Cycle.remove d.views a } u + one v u := by
    by_cases huv : u = v
    · subst huv
      rw [one, if_pos rfl, inViews, if_pos (mem_map.2 ⟨_, hmem, rfl⟩), inViews, if_neg]
      · rfl
      intro hu
      obtain ⟨⟨b, u'⟩, hb, rfl⟩ := mem_map.1 hu
      obtain ⟨hb, hne⟩ := mem_remove.1 hb
      exact hne (h.actor_unique hb hmem)
    rw [one, if_neg huv, add_zero, inViews, inViews]
    congr 2
    refine propext ⟨fun hu => ?_, fun hu => ?_⟩
    · obtain ⟨⟨b, u'⟩, hb, rfl⟩ := mem_map.1 hu
      refine mem_map.2 ⟨_, mem_remove.2 ⟨hb, ?_⟩, rfl⟩
      rintro rfl
      exact huv (inj_on_of_nodup_map h.keys hb hmem rfl ▸ rfl)
    · obtain ⟨⟨b, u'⟩, hb, rfl⟩ := mem_map.1 hu
      exact mem_map.2 ⟨_, (mem_remove.1 hb).1, rfl⟩
  have hslack : slack { d with views := Cycle.remove d.views a } u z - one v u = slack d u z := by
    show (z.viewRc : Int) - _ - refs d.heap u - _ = (z.viewRc : Int) - _ - refs d.heap u
    omega
  rw [hslack]
  exact h.count hz

theorem mem_of_lookup (h : m.lookup a = some v) : (a, v) ∈ m := by
  induction m with
  | nil => cases h
  | cons e m ih =>
    obtain ⟨b, u⟩ := e
    rw [lookup_cons] at h
    split at h
    · rename_i heq
      obtain rfl : a = b := by simpa using heq
      cases h
      exact .head _
    · exact .tail _ (ih h)

theorem lookup_none_iff : m.lookup a = none ↔ a ∉ m.map fst := by
  induction m with
  | nil => simp
  | cons e m ih =>
    obtain ⟨b, u⟩ := e
    rw [lookup_cons]
    by_cases hab : a = b
    · subst hab
      simp
    · have hbeq : (a == b) = false := beq_false_of_ne hab
      simp [hbeq, hab, ih]

theorem put_of_notMem (h : a ∉ m.map fst) : put m a v = (a, v) :: m := by
  rw [put, filter_eq_self.2]
  intro e he
  have hne : e.1 ≠ a := fun heq => h (mem_map.2 ⟨e, he, heq⟩)
  simpa using hne

/-- A view of an actor that has none is allocated. -/
theorem Counts.alloc (hR : Bound R) (h : Counts R d) (hnot : a ∉ d.views.map fst) :
    Counts R
      { d with heap := alloc d.heap (newView a), views := put d.views a d.heap.length } := by
  have hrefs : ∀ u, refs (Cells.alloc d.heap (newView a)) u = refs d.heap u := fun u => by
    rw [refs, total_alloc]
    rfl
  have hnone : cell d.heap d.heap.length = none := by
    rw [cell, getElem?_eq_none le_rfl]
    rfl
  rw [put_of_notMem hnot]
  refine ⟨nodup_cons.2 ⟨hnot, h.keys⟩, fun {b u} hmem => ?_, fun {u z} hz => ?_,
    fun {u z} hz => ?_, fun {u z} hz => ?_, fun {u} hu => ?_, h.cycles⟩
  · rcases mem_cons.1 hmem with heq | hmem
    · obtain ⟨rfl, rfl⟩ := mk.inj heq
      exact ⟨newView b, by rw [cell_alloc, if_pos rfl], rfl⟩
    obtain ⟨z, hz, hzb⟩ := h.valid hmem
    have hlt := lt_length_of_cell hz
    exact ⟨z, by rw [cell_alloc, if_neg (by omega), hz], hzb⟩
  · rcases cell_alloc_cases hz with ⟨-, rfl⟩ | ⟨-, hz⟩
    · exact nodup_nil
    · exact h.refKeys hz
  · rcases cell_alloc_cases hz with ⟨rfl, rfl⟩ | ⟨hne, hz⟩
    · rw [slack, hrefs, h.alive hnone, inViews, if_pos (by simp)]
      exact hR.zero
    have hin : inViews { d with heap := Cells.alloc d.heap (newView a)
                                views := (a, d.heap.length) :: d.views } u = inViews d u := by
      simp only [inViews, map_cons, mem_cons, hne, false_or]
    rw [slack, hin, hrefs]
    exact h.count hz
  · rcases cell_alloc_cases hz with ⟨-, rfl⟩ | ⟨-, hz⟩
    · exact Nat.one_pos
    · exact h.pos hz
  · rw [cell_alloc] at hu
    split at hu
    · cases hu
    · exact (hrefs u).trans (h.alive hu)

/-! ### Operations that count -/

/-- The counts, with a view that stays in `d->views`. -/
def Tracks (R : Int → Prop) (e : ActorId × ViewId) (d : Detector) : Prop :=
  Counts R d ∧ e ∈ d.views

/-- `get_view`: the view of the actor, a new one if there is none. -/
theorem getView_acc {create : Bool} (hR : Bound R) (h : Counts R d) :
    Ends (getView a create) (fun r d' => Counts R d' ∧ (∀ u, r = some u → (a, u) ∈ d'.views) ∧
      ∀ e ∈ d.views, e ∈ d'.views) (fun _ => True) d := by
  refine ends_bind (ends_get ?_)
  cases hl : d.views.lookup a with
  | some u =>
    refine ends_pure ⟨h, fun u' hu' => ?_, fun _ he => he⟩
    cases hu'
    exact mem_of_lookup hl
  | none =>
    refine ends_ite (fun _ => ?_) fun _ => ends_pure ⟨h, by simp, fun _ he => he⟩
    have hnot := lookup_none_iff.1 hl
    refine ends_bind (ends_set (ends_pure ⟨h.alloc hR hnot, fun u hu => ?_, fun e he => ?_⟩))
    · cases hu
      exact .head _
    · rw [put_of_notMem hnot]
      exact .tail _ he

/-- The references of a view can go with it. -/
def Spare (R : Int → Prop) (x : View) : Prop :=
  x.viewRc = 1 → ∀ u k, R k → R (k + weight x.map u)

theorem Quiet.spare (hq : Quiet d d') (h : ∀ x, cell d.heap v = some x → Spare R x)
    (hx : cell d'.heap v = some x) : Spare R x := by
  obtain ⟨y, hy, hcore⟩ := hq.cell_eq hx
  rw [Spare, ← (core_eq hcore).2.1, ← (core_eq hcore).2.2]
  exact h y hy

/-- A count that is too high by one, in full. -/
theorem Owes.le_viewRc (hR : Bound R) (h : Owes R v d) (hx : cell d.heap v = some x) :
    1 + inViews d v + refs d.heap v ≤ x.viewRc := by
  have hcount : R (slack d v x - one v v) := h.count hx
  have hle := hR.nonneg hcount
  rw [one, if_pos rfl, slack] at hle
  omega

/-- `view_free`, for a view whose count is one too high. -/
theorem viewFree_acc (hR : Bound R) (h : Owes R v d)
    (hspare : ∀ x, cell d.heap v = some x → Spare R x) :
    Ends (viewFree v) (fun _ d' => Counts R d' ∧ d'.views = d.views ∧ d'.perceived = d.perceived ∧
      ∀ u, u ≠ v → cell d'.heap u = cell d.heap u) (fun _ => True) d := by
  refine ends_bind (ends_getV (fun x hx => ?_) fun _ => trivial)
  have hle := h.le_viewRc hR hx
  refine ends_ite (fun hone => ?_) fun hmany => ?_
  · have hnot : v ∉ d.views.map snd := fun hmem => by
      rw [inViews, if_pos hmem] at hle
      omega
    refine ends_modify ⟨(h.free hx hnot (by omega)).congr fun u z hz k hk => ?_, rfl, rfl,
      fun u hu => ?_⟩
    · have hne : u ≠ v := fun huv => by
        rw [cell_free, if_pos huv] at hz
        cases hz
      rw [one, if_neg hne, sub_zero] at hk
      have hk' := hspare x hx (by omega) u _ hk
      rwa [sub_add_cancel] at hk'
    · rw [cell_free, if_neg hu]
  have hpos' : 0 < x.viewRc - 1 := by omega
  refine ends_setV ⟨(h.write_rc hx hpos').congr fun u _ _ k hk => ?_, rfl, rfl, fun u hu => ?_⟩
  · have hsub : ((x.viewRc - 1 : Nat) : Int) - x.viewRc = -1 := by omega
    rw [hsub] at hk
    have hk' : k - -1 * one v u - one v u = k := by omega
    exact hk' ▸ hk
  · rw [cell_write hx, if_neg hu]

/-- The same references as before, in any order and with any counts. -/
theorem Acc.write_perm {m : List ViewRef} (h : Acc S d) (hx : cell d.heap v = some x)
    (hperm : (m.map ViewRef.view).Perm (x.map.map ViewRef.view)) :
    Acc S { d with heap := Cells.write d.heap v { x with map := m } } := by
  have halive : ∀ ref ∈ m, cell d.heap ref.view ≠ none := fun ref href => by
    obtain ⟨ref', href', heq⟩ := mem_map.1
      (hperm.mem_iff.1 (mem_map.2 ⟨ref, href, rfl⟩))
    rw [← heq]
    exact h.ref_alive hx ref' href'
  refine (h.write_map hx (hperm.nodup_iff.2 (h.refKeys hx)) halive).congr fun u _ _ k hk => ?_
  rw [weight, weight, hperm.count_eq, Int.add_sub_cancel] at hk
  exact hk

theorem weight_cons (map : List ViewRef) (u : ViewId) :
    weight (⟨find, rc⟩ :: map) u = weight map u + one find u := by
  rw [weight, weight, one, map_cons, count_cons]
  by_cases hu : u = find
  · simp [hu]
  · simp [hu, Ne.symm hu]

/-- Dropping a reference takes one from the weight of its view. -/
theorem weight_filter {map : List ViewRef} (hkeys : (map.map ViewRef.view).Nodup)
    (hmem : find ∈ map.map ViewRef.view) (u : ViewId) :
    weight (map.filter (·.view ≠ find)) u = weight map u - one find u := by
  have hfilter : (map.filter (·.view ≠ find)).map ViewRef.view =
      (map.map ViewRef.view).filter (· ≠ find) := by
    rw [filter_map]
    rfl
  rw [weight, weight, one, hfilter]
  by_cases hu : u = find
  · subst hu
    rw [count_eq_one_of_mem hkeys hmem, count_eq_zero_of_not_mem (by simp)]
    simp
  · rw [count_filter (by simpa using hu), if_neg hu, sub_zero]

theorem map_view_setRef (map : List ViewRef) :
    (setRef map find rc).map ViewRef.view = map.map ViewRef.view := by
  rw [setRef, map_map]
  refine map_congr_left fun ref _ => ?_
  rw [Function.comp_apply]
  split
  · rfl
  · rfl

variable {e : ActorId × ViewId} {token : Token}

/-- The part of `apply_delta` for a positive count. -/
theorem addRef_acc (hfind : (a, find) ∈ d.views) (h : Tracks R e d) :
    Ends (addRef view find rc) (fun _ d' => Tracks R e d') (fun _ => True) d := by
  obtain ⟨h, he⟩ := h
  refine ends_bind (ends_getV (fun x hx => ends_ite (fun _ => ?_) fun hany => ?_) fun _ => trivial)
  · refine ends_setV ⟨Acc.write_perm h hx ?_, he⟩
    rw [map_view_setRef]
  have hnot : find ∉ x.map.map ViewRef.view := fun hmem => hany (by
    obtain ⟨ref, href, rfl⟩ := mem_map.1 hmem
    exact any_eq_true.2 ⟨ref, href, by simp⟩)
  have hadd := Acc.write_map (m := ⟨find, rc⟩ :: x.map) h hx
    (nodup_cons.2 ⟨hnot, h.refKeys hx⟩) (fun ref href => by
      rcases mem_cons.1 href with rfl | href
      · obtain ⟨z, hz, -⟩ := h.valid hfind
        exact Option.ne_none_iff_exists'.2 ⟨z, hz⟩
      · exact h.ref_alive hx ref href)
  refine ends_bind (ends_setV (ends_bind (ends_getV (fun y hy => ?_) fun _ => trivial)))
  refine ends_setV ⟨(hadd.write_rc hy (Nat.succ_pos _)).congr fun u _ _ k hk => ?_, he⟩
  have hsub : ((y.viewRc + 1 : Nat) : Int) - y.viewRc = 1 := by omega
  rw [hsub, weight_cons] at hk
  have hk' : k - 1 * one find u + (weight x.map u + one find u) - weight x.map u = k := by omega
  exact hk' ▸ hk

/-- A reference is dropped: its view is owed one. -/
theorem Counts.drop (h : Counts R d) (hx : cell d.heap view = some x)
    (hany : x.map.any (·.view = find) = true) :
    Owes R find { d with heap := Cells.write d.heap view
                           { x with map := x.map.filter (·.view ≠ find) } } := by
  have hmem : find ∈ x.map.map ViewRef.view := by
    obtain ⟨ref, href, heq⟩ := any_eq_true.1 hany
    exact mem_map.2 ⟨ref, href, by simpa using heq⟩
  have hkeys := h.refKeys hx
  have hdrop := Acc.write_map (m := x.map.filter (·.view ≠ find)) h hx
    (hkeys.sublist (List.Sublist.map _ filter_sublist))
    (fun ref href => h.ref_alive hx ref (mem_filter.1 href).1)
  refine hdrop.congr fun u _ _ k hk => ?_
  rw [weight_filter hkeys hmem] at hk
  have hk' : k + (weight x.map u - one find u) - weight x.map u = k - one find u := by omega
  exact hk' ▸ hk

/-- A view that is owed one and is in `d->views` is not freed. -/
theorem Owes.two_le (hR : Bound R) (h : Owes R v d) (hmem : (a, v) ∈ d.views)
    (hx : cell d.heap v = some x) : 2 ≤ x.viewRc := by
  have hle := h.le_viewRc hR hx
  rw [inViews, if_pos (mem_map.2 ⟨_, hmem, rfl⟩)] at hle
  omega

/-- The part of `apply_delta` for a count of zero. -/
theorem dropRef_acc (hR : Bound R) (hfind : (a, find) ∈ d.views) (h : Tracks R e d) :
    Ends (dropRef view find) (fun _ d' => Tracks R e d') (fun _ => True) d := by
  obtain ⟨h, he⟩ := h
  refine ends_bind (ends_getV (fun x hx => ends_ite (fun hany => ?_) fun _ => ends_pure ⟨h, he⟩)
    fun _ => trivial)
  have howes := h.drop hx hany
  refine ends_bind (ends_setV ((viewFree_acc hR howes fun y hy hone => ?_).mono
    (fun _ d' hd' => ⟨hd'.1, hd'.2.1 ▸ he⟩) fun _ h => h))
  have htwo := howes.two_le hR hfind hy
  omega

theorem applyOne_acc (hR : Bound R) (h : Tracks R e d) :
    Ends (applyOne view a rc) (fun _ d' => Tracks R e d') (fun _ => True) d := by
  refine ends_bind ((getView_acc hR h.1).mono (fun r d' hd' => ?_) fun _ h => h)
  obtain ⟨hacc, hfound, hkeep⟩ := hd'
  have htracks : Tracks R e d' := ⟨hacc, hkeep e h.2⟩
  cases r with
  | none => exact ends_pure htracks
  | some find =>
    exact ends_ite (fun _ => addRef_acc (hfound find rfl) htracks)
      fun _ => dropRef_acc hR (hfound find rfl) htracks

theorem applyDelta_acc (hR : Bound R) (delta : List (ActorId × UInt64)) :
    Keeps (Tracks R e) (applyDelta view delta) := by
  induction delta with
  | nil => exact Keeps.pure
  | cons p delta ih => exact Keeps.bind (fun d hd => applyOne_acc hR hd) fun _ => ih

/-- The references of the views that an operation gives up can go with them. -/
def Gives (R : Int → Prop) (d : Detector) : Op → Prop
  | .block actor rc _ => rc = 0 → ∀ v x, d.views.lookup actor = some v → cell d.heap v = some x →
      Spare R x
  | .ack token => ∀ per, d.perceived.lookup token = some per → per.ack + 1 = per.map.length →
      ∀ e ∈ per.map, e ∈ d.views ∧ ∀ x, cell d.heap e.2 = some x → Spare R x
  | _ => True

theorem Tracks.of_quiet {α : Type} {p : DetM α} (hp : ∀ d₀, Keeps (Quiet d₀) p) :
    Keeps (Tracks R e) p :=
  fun d hd => (hp d d (Quiet.refl hd.1.cycles)).mono
    (fun _ _ hq => ⟨Acc.quiet hd.1 hq, hq.views ▸ hd.2⟩) fun _ h => h

theorem Tracks.write_core (h : Tracks R e d) (hx : cell d.heap v = some x) (hy : core y = core x) :
    Tracks R e { d with heap := Cells.write d.heap v y } :=
  ⟨Acc.quiet h.1 ((Quiet.refl h.1.cycles).write hx hy), h.2⟩

section
variable (hR : Bound R) (h : Counts R d)
include hR h

/-- A view is taken out of `d->views` and given up. -/
theorem giveUp_acc (hmem : (a, v) ∈ d.views)
    (hspare : ∀ x, cell d.heap v = some x → Spare R x) {eff : List Effect} :
    Ends (viewFree v) (fun _ d' => Counts R d' ∧ d'.views = Cycle.remove d.views a ∧
      d'.perceived = d.perceived ∧ ∀ u, u ≠ v → cell d'.heap u = cell d.heap u) (fun _ => True)
      { d with views := Cycle.remove d.views a, effects := eff } := by
  have hquiet : Quiet { d with views := Cycle.remove d.views a }
      { d with views := Cycle.remove d.views a, effects := eff } := ⟨rfl, rfl, h.cycles⟩
  exact viewFree_acc hR ((Acc.remove h hmem).quiet hquiet) hspare

theorem reapView_acc (hmem : (a, v) ∈ d.views) (hspare : ∀ x, cell d.heap v = some x → Spare R x) :
    Ends (reapView v) (fun _ d' => Counts R d') (fun _ => True) d := by
  refine ends_bind (ends_getV (fun x hx => ?_) fun _ => trivial)
  obtain ⟨y, hy, hya⟩ := h.valid hmem
  rw [hx] at hy
  cases hy
  refine ends_bind ((dropDeferred_quiet d (Quiet.refl h.cycles)).mono (fun _ d₁ hq₁ => ?_)
    fun _ h => h)
  refine ends_bind ((expire_quiet d₁ hq₁).mono (fun _ d₂ hq₂ => ?_) fun _ h => h)
  refine ends_bind (ends_modify ?_)
  rw [hya]
  refine (giveUp_acc hR (Acc.quiet h hq₂) (hq₂.views ▸ hmem) fun z hz => ?_).mono
    (fun _ _ hd' => hd'.1) fun _ h => h
  exact hq₂.spare hspare hz

theorem block_acc {delta : List (ActorId × UInt64)} (hc : Gives R d (.block a rc delta)) :
    Ends (block a rc delta) (fun _ d' => Counts R d') (fun _ => True) d := by
  refine ends_ite (fun hrc => ?_) fun _ => ?_
  · refine ends_bind (ends_bind (ends_get ?_))
    cases hl : d.views.lookup a with
    | none => exact ends_pure (ends_modify (Acc.quiet h ⟨rfl, rfl, h.cycles⟩))
    | some v =>
      refine ends_pure (ends_bind ?_)
      refine (reapView_acc hR h (mem_of_lookup hl) fun x hx => hc hrc v x hl hx).mono
        (fun _ d' h' => ?_) fun _ h => h
      exact ends_modify (Acc.quiet h' ⟨rfl, rfl, h'.cycles⟩)
  refine ends_bind ((getView_acc hR h).mono (fun r d' hd' => ?_) fun _ h => h)
  cases r with
  | none => exact ends_throw trivial
  | some v =>
    have htracks : Tracks R (a, v) d' := ⟨hd'.1, hd'.2.1 v rfl⟩
    refine ends_bind (ends_getV (fun x hx => ends_bind (ends_setV ?_)) fun _ => trivial)
    refine Ends.mono (Keeps.bind (applyDelta_acc hR delta) (fun _ => ?_) _
      (htracks.write_core hx rfl)) (fun _ _ hd'' => hd''.1) fun _ h => h
    refine Keeps.getV fun x d₁ hd₁ hx => ends_bind (ends_setV ?_)
    exact Keeps.bind (Tracks.of_quiet fun _ => expire_quiet)
      (fun _ => Tracks.of_quiet fun _ => defer_quiet) _ (hd₁.write_core hx rfl)

/-- The members of a cycle are given up one by one. -/
theorem collectFree_acc {members : ViewMap} (hkeys : (members.map fst).Nodup)
    (hmem : ∀ e ∈ members, e ∈ d.views ∧ ∀ x, cell d.heap e.2 = some x → Spare R x) :
    Ends (collectFree members) (fun _ d' => Counts R d') (fun _ => True) d := by
  induction members generalizing d with
  | nil => exact ends_pure h
  | cons e members ih =>
    obtain ⟨a, v⟩ := e
    obtain ⟨hnot, hkeys'⟩ := nodup_cons.1 hkeys
    obtain ⟨hav, hspare⟩ := hmem (a, v) (.head _)
    refine ends_bind (ends_getV (fun x hx => ?_) fun _ => trivial)
    obtain ⟨y, hy, rfl⟩ := h.valid hav
    rw [hx] at hy
    cases hy
    refine ends_bind (ends_modify (ends_bind ((giveUp_acc hR h hav hspare).mono
      (fun _ d' hd' => ?_) fun _ h => h)))
    obtain ⟨hacc, hviews, -, hcells⟩ := hd'
    refine ih hacc hkeys' fun e he => ?_
    obtain ⟨hev, hspare'⟩ := hmem e (.tail _ he)
    have hne : e.1 ≠ x.actor := fun heq => hnot (mem_map.2 ⟨e, he, heq⟩)
    have hne' : e.2 ≠ v := fun heq => hne (h.actor_unique (v := v) (heq ▸ hev) hav)
    refine ⟨hviews ▸ mem_remove.2 ⟨hev, hne⟩, fun z hz => hspare' z ?_⟩
    rw [← hcells e.2 hne', hz]

theorem collect_acc {per : Perceived} (hkeys : (per.map.map fst).Nodup)
    (hmem : ∀ e ∈ per.map, e ∈ d.views ∧ ∀ x, cell d.heap e.2 = some x → Spare R x) :
    Ends (collect token per) (fun _ d' => Counts R d') (fun _ => True) d := by
  have hgone : Quiet d { d with perceived := d.perceived.filter (·.1 ≠ token) } :=
    ⟨rfl, rfl, h.cycles.filter⟩
  refine ends_bind (ends_modify (ends_bind ?_))
  refine (collectMark_quiet per.map _ hgone).mono (fun _ d' hq => ?_) fun _ h => h
  refine collectFree_acc hR (Acc.quiet h hq) hkeys fun e he => ?_
  obtain ⟨hev, hspare⟩ := hmem e he
  exact ⟨hq.views ▸ hev, fun x hx => hq.spare hspare hx⟩

end

theorem mem_perceived_of_lookup {l : List (Token × Perceived)} {per : Perceived}
    (h : l.lookup token = some per) : (token, per) ∈ l := by
  induction l with
  | nil => cases h
  | cons e l ih =>
    obtain ⟨t, p⟩ := e
    rw [lookup_cons] at h
    split at h
    · rename_i heq
      obtain rfl : token = t := by simpa using heq
      cases h
      exact .head _
    · exact .tail _ (ih h)

theorem ack_acc (hR : Bound R) (h : Counts R d) (hc : Gives R d (.ack token)) :
    Ends (ack token) (fun _ d' => Counts R d') (fun _ => True) d := by
  refine ends_bind (ends_get ?_)
  cases hl : d.perceived.lookup token with
  | none => exact ends_pure h
  | some per =>
    refine ends_ite (fun hlast => ?_) fun _ => ?_
    · exact collect_acc hR h (h.cycles _ (mem_perceived_of_lookup hl)) (hc per hl hlast)
    refine ends_modify (Acc.quiet h ⟨rfl, rfl, cycleKeys_map fun e he => ?_⟩)
    split
    · exact h.cycles e he
    · exact h.cycles e he

theorem reorder_acc {map : List ViewRef} : Keeps (Counts R) (reorder v map) := by
  refine Keeps.getV fun x d h hx => ends_bind (ends_assert (fun hp => ?_) fun _ => trivial)
  exact ends_setV (Acc.write_perm h hx ((isPerm_iff.1 hp).map _))

theorem reorderCycle_acc {map : ViewMap} : Keeps (Counts R) (reorderCycle token map) := by
  intro d h
  refine ends_modify (Acc.quiet h ⟨rfl, rfl, cycleKeys_map fun e he => ?_⟩)
  split
  · rename_i hp
    exact ((isPerm_iff.1 hp.2).map fst).nodup_iff.2 (h.cycles e he)
  · exact h.cycles e he

/-- One operation keeps the counts, if the references of the views it gives up can go. -/
theorem step_acc {op : Op} (hR : Bound R) (h : Counts R d) (hc : Gives R d op) :
    Ends (step op) (fun _ d' => Counts R d') (fun _ => True) d := by
  cases op with
  | block a rc delta => exact block_acc hR h hc
  | unblock a => exact Acc.of_quiet (fun _ => unblock_quiet) d h
  | deferred a => exact Acc.of_quiet (fun _ => deferredRound_quiet) d h
  | ack token => exact ack_acc hR h hc
  | reorder v map => exact reorder_acc d h
  | reorderCycle token map => exact reorderCycle_acc d h

theorem counts_empty : Counts R Detector.empty where
  keys := nodup_nil
  valid := by intro a v h; cases h
  refKeys := by intro v x h; simp [cell, Detector.empty] at h
  count := by intro v x h; simp [cell, Detector.empty] at h
  pos := by intro v x h; simp [cell, Detector.empty] at h
  alive := by intro v _; rfl
  cycles := by intro e he; cases he

end

/-! ### Runs that keep the counts -/

/-- The views that `block` and `ack` free have no references of their own. -/
def FreesEmpty (d : Detector) : Op → Prop
  | .block actor rc _ => rc = 0 → ∀ v x, d.views.lookup actor = some v → cell d.heap v = some x →
      x.viewRc = 1 → x.map = []
  | .ack token => ∀ per, d.perceived.lookup token = some per → per.ack + 1 = per.map.length →
      ∀ e ∈ per.map, d.views.lookup e.1 = some e.2 ∧
        ∀ x, cell d.heap e.2 = some x → x.viewRc = 1 → x.map = []
  | _ => True

theorem FreesEmpty.gives {d : Detector} {op : Op} (h : FreesEmpty d op) : Gives (· = 0) d op := by
  have hspare : ∀ x : View, (x.viewRc = 1 → x.map = []) → Spare (· = 0) x := by
    intro x hx hone u k hk
    rw [hx hone, hk]
    rfl
  cases op with
  | block a rc delta => exact fun hrc v x hv hx => hspare x (h hrc v x hv hx)
  | ack token =>
    intro per hper hlast e he
    obtain ⟨hlook, hempty⟩ := h per hper hlast e he
    exact ⟨mem_of_lookup hlook, fun x hx => hspare x (hempty x hx)⟩
  | _ => exact trivial

theorem Run.counts {d : Detector} (h : Run FreesEmpty d) : Counts (· = 0) d := by
  induction h with
  | start => exact counts_empty
  | step op _ hc hs ih =>
    have hstep := step_acc bound_zero ih hc.gives
    rw [Ends, hs] at hstep
    exact hstep

/-- **Every view is accounted for**, in every run that frees no view with references of its own. -/
theorem accounted_of_frees_empty {d : Detector} (h : Run FreesEmpty d) : Accounted d :=
  h.counts.accounted

/-- A perceived cycle of two actors, while a third is reaped. -/
theorem accounted_reaped : Run FreesEmpty pairOnly ∧ Accounted pairOnly := by
  have hreap : Run FreesEmpty pairOnly := by
    refine run_pairOnly (fun _ _ _ _ hrc h => absurd h hrc) (fun _ _ => trivial)
      (fun _ _ => trivial) fun _ v x hv hx _ => ?_
    obtain rfl : 2 = v := Option.some.inj hv
    cases hx
    rfl
  exact ⟨hreap, accounted_of_frees_empty hreap⟩

/-- **A zombie leaks a count**: an actor is reaped while its view holds a reference; the count of
the view it referred to stays too high. -/
theorem not_accounted_zombie : ¬ ∀ d, Run (fun _ _ => True) d → Accounted d := by
  intro h
  have hrun : Run (fun _ _ => True)
      ⟨[none, some { newView 1 with viewRc := 2 }], [(1, 1)], [], [], 0, [.destroy 0]⟩ :=
    Run.start.steps [.block 0 1 [(1, 1)], .unblock 0, .block 0 0 []] (fun _ _ _ => trivial)
      (by decide)
  have hcount := (h _ hrun).1 1 _ rfl
  revert hcount
  decide

end SpacePony.Cycle
