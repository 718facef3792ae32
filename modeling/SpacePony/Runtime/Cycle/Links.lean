import SpacePony.Runtime.Cycle.Accounting

/-!
# Runtime — the pointers between views

A view can be in `d->views`, in `d->deferred`, in a perceived cycle and in the maps of other views.
The pointers are right in every run that leaves no view of a destroyed actor behind with its flags
set (`LeavesNone`, `linked_of_leaves_none`); the views of a collected cycle do stay behind, and
still name the cycle (`not_linked_collected`).
-/

namespace SpacePony.Cycle

open List Cells Hoare
open Prod (snd fst mk ext)

/-- The view is a member of the cycle with the token. -/
def members (l : List (Token × Perceived)) (t : Token) (v : ViewId) : Prop :=
  ∃ per, (t, per) ∈ l ∧ v ∈ per.map.map snd

/-- No pointer to a view dangles, and the maps agree with the flags. -/
structure Linked (d : Detector) : Prop where
  views : ∀ e ∈ d.views, cell d.heap e.2 ≠ none
  deferred : ∀ e ∈ d.deferred, cell d.heap e.2 ≠ none
  cycles : ∀ c ∈ d.perceived, ∀ e ∈ c.2.map, cell d.heap e.2 ≠ none
  refs : ∀ v x, cell d.heap v = some x → ∀ ref ∈ x.map, cell d.heap ref.view ≠ none
  deferred_iff : ∀ v, v ∈ d.deferred.map snd ↔
    v ∈ d.views.map snd ∧ ∃ x, cell d.heap v = some x ∧ x.deferred = true
  perceived_iff : ∀ v x t, cell d.heap v = some x →
    (x.perceived = some t ↔ members d.perceived t v)

/-! ### The invariant -/

/-- The flags of the views, with the members of the cycles. -/
structure Links (M : Token → ViewId → Prop) (d : Detector) : Prop where
  keys : (d.views.map fst).Nodup
  valid : ∀ {a v}, (a, v) ∈ d.views → ∃ x, cell d.heap v = some x ∧ x.actor = a
  live : ∀ {v x}, cell d.heap v = some x → x.blocked = true → (x.actor, v) ∈ d.views
  deferredKeys : (d.deferred.map fst).Nodup
  deferred : ∀ {a v}, (a, v) ∈ d.deferred ↔
    ∃ x, cell d.heap v = some x ∧ x.actor = a ∧ x.deferred = true
  deferredBlocked : ∀ {v x}, cell d.heap v = some x → x.deferred = true → x.blocked = true
  perceived : ∀ {v x t}, cell d.heap v = some x → (x.perceived = some t ↔ M t v)
  apart : ∀ {v x t}, cell d.heap v = some x → M t v → x.deferred = false

/-- The perceived cycles: tokens are used once, and members are in `d->views`. -/
structure Cycles (d : Detector) : Prop where
  tokens : (d.perceived.map fst).Nodup
  bound : ∀ {c}, c ∈ d.perceived → c.1 < d.nextToken
  views : ∀ {c e}, c ∈ d.perceived → e ∈ c.2.map → e ∈ d.views

/-- The invariant between operations. -/
structure Sound (d : Detector) : Prop where
  links : Links (members d.perceived) d
  cycles : Cycles d

section
variable {M N : Token → ViewId → Prop} {d d' d₀ : Detector} {v u : ViewId} {a : ActorId}
  {x y : View} {token : Token} {rc : UInt64}

theorem Links.congr (h : Links M d) (hm : ∀ t v, M t v ↔ N t v) : Links N d :=
  (funext fun t => funext fun v => propext (hm t v) : M = N) ▸ h

theorem Links.of_eq (h : Links M d) (hh : d'.heap = d.heap) (hv : d'.views = d.views)
    (hm : d'.deferred = d.deferred) : Links M d' := by
  constructor
  · rw [hv]
    exact h.keys
  · rw [hh, hv]
    exact h.valid
  · rw [hh, hv]
    exact h.live
  · rw [hm]
    exact h.deferredKeys
  · rw [hh, hm]
    exact h.deferred
  · rw [hh]
    exact h.deferredBlocked
  · rw [hh]
    exact h.perceived
  · rw [hh]
    exact h.apart

theorem Links.view_unique (h : Links M d) (hv : (a, v) ∈ d.views) (hu : (a, u) ∈ d.views) : v = u :=
  congrArg snd (inj_on_of_nodup_map h.keys hv hu rfl)

/-- What the flags depend on in a view. -/
def flags (x : View) : ActorId × Bool × Bool × Option Token :=
  (x.actor, x.blocked, x.deferred, x.perceived)

theorem flags_eq (h : flags x = flags y) : x.actor = y.actor ∧ x.blocked = y.blocked ∧
    x.deferred = y.deferred ∧ x.perceived = y.perceived :=
  ⟨congrArg (·.1) h, congrArg (·.2.1) h, congrArg (·.2.2.1) h, congrArg (·.2.2.2) h⟩

/-- A view is written, and the deferred set with it. -/
theorem Links.write {m : ViewMap} (h : Links M d) (hx : cell d.heap v = some x)
    (hactor : y.actor = x.actor) (hperceived : y.perceived = x.perceived)
    (hlive : y.blocked = true → (x.actor, v) ∈ d.views)
    (hblocked : y.deferred = true → y.blocked = true) (hapart : ∀ t, M t v → y.deferred = false)
    (hkeys : (m.map fst).Nodup)
    (hm : ∀ a u, (a, u) ∈ m ↔ if u = v then a = x.actor ∧ y.deferred = true else (a, u) ∈ d.deferred) :
    Links M { d with heap := write d.heap v y, deferred := m } := by
  have hself : cell (Cells.write d.heap v y) v = some y := by rw [cell_write hx, if_pos rfl]
  refine ⟨h.keys, fun {b u} hmem => ?_, fun {u z} hz hb => ?_, hkeys, fun {b u} => ?_,
    fun {u z} hz hd => ?_, fun {u z t} hz => ?_, fun {u z t} hz ht => ?_⟩
  · obtain ⟨z, hz, hzb⟩ := h.valid hmem
    by_cases huv : u = v
    · subst huv
      rw [hx] at hz
      cases hz
      exact ⟨y, hself, hactor.trans hzb⟩
    · exact ⟨z, by rw [cell_write hx, if_neg huv, hz], hzb⟩
  · rcases cell_write_cases hx hz with ⟨rfl, rfl⟩ | ⟨-, hz⟩
    · exact hactor ▸ hlive hb
    · exact h.live hz hb
  · rw [hm]
    by_cases huv : u = v
    · subst huv
      rw [if_pos rfl]
      constructor
      · rintro ⟨rfl, hd⟩
        exact ⟨y, hself, hactor, hd⟩
      rintro ⟨z, hz, rfl, hd⟩
      rw [hself] at hz
      cases hz
      exact ⟨hactor, hd⟩
    · rw [if_neg huv, h.deferred, cell_write hx, if_neg huv]
  · rcases cell_write_cases hx hz with ⟨rfl, rfl⟩ | ⟨-, hz⟩
    · exact hblocked hd
    · exact h.deferredBlocked hz hd
  · rcases cell_write_cases hx hz with ⟨rfl, rfl⟩ | ⟨-, hz⟩
    · rw [hperceived]
      exact h.perceived hx
    · exact h.perceived hz
  · rcases cell_write_cases hx hz with ⟨rfl, rfl⟩ | ⟨-, hz⟩
    · exact hapart t ht
    · exact h.apart hz ht

/-- The deferred set, at one view and at the others. -/
theorem Links.mem_deferred {b : ActorId} (h : Links M d) (hx : cell d.heap v = some x) :
    (b, u) ∈ d.deferred ↔ if u = v then b = x.actor ∧ x.deferred = true else (b, u) ∈ d.deferred := by
  by_cases huv : u = v
  · subst huv
    rw [if_pos rfl, h.deferred, hx]
    constructor
    · rintro ⟨z, hz, rfl, hd⟩
      cases hz
      exact ⟨rfl, hd⟩
    · rintro ⟨rfl, hd⟩
      exact ⟨x, rfl, rfl, hd⟩
  · rw [if_neg huv]

/-- A view is written without a change to its flags. -/
theorem Links.write_flags (h : Links M d) (hx : cell d.heap v = some x)
    (hy : flags y = flags x) : Links M { d with heap := Cells.write d.heap v y } := by
  obtain ⟨hactor, hblocked, hdeferred, hperceived⟩ := flags_eq hy
  refine h.write hx hactor hperceived ?_ ?_ ?_ h.deferredKeys ?_
  · rw [hblocked]
    exact h.live hx
  · rw [hblocked, hdeferred]
    exact h.deferredBlocked hx
  · rw [hdeferred]
    exact fun t ht => h.apart hx ht
  · rw [hdeferred]
    exact fun b u => h.mem_deferred hx

theorem Links.deferred_unique (h : Links M d) (hv : (a, v) ∈ d.deferred)
    (hu : (a, u) ∈ d.deferred) : v = u :=
  congrArg snd (inj_on_of_nodup_map h.deferredKeys hv hu rfl)

/-- The deferred set without a view that is in it. -/
theorem Links.mem_remove_deferred {b : ActorId} (h : Links M d) (hx : cell d.heap v = some x)
    (hdeferred : x.deferred = true) :
    (b, u) ∈ remove d.deferred x.actor ↔ u ≠ v ∧ (b, u) ∈ d.deferred := by
  have hmem : (x.actor, v) ∈ d.deferred := h.deferred.2 ⟨x, hx, rfl, hdeferred⟩
  rw [mem_remove]
  constructor
  · rintro ⟨hb, hne⟩
    refine ⟨?_, hb⟩
    rintro rfl
    obtain ⟨z, hz, rfl, -⟩ := h.deferred.1 hb
    rw [hx] at hz
    exact hne (congrArg View.actor (Option.some.inj hz).symm)
  rintro ⟨hne, hb⟩
  refine ⟨hb, ?_⟩
  rintro rfl
  exact hne (h.deferred_unique hb hmem)

/-- The cycle a view is in is changed. -/
theorem Links.set_perceived {p : Option Token} (h : Links M d) (hx : cell d.heap v = some x)
    (hp : p ≠ none → x.deferred = false) (hm : ∀ t u, N t u ↔ if u = v then p = some t else M t u) :
    Links N { d with heap := Cells.write d.heap v { x with perceived := p } } := by
  have hcell : ∀ {u z}, cell (Cells.write d.heap v { x with perceived := p }) u = some z →
      (u = v ∧ z = { x with perceived := p }) ∨ (u ≠ v ∧ cell d.heap u = some z) :=
    fun {u z} hz => by
      rw [cell_write hx] at hz
      split at hz
      · exact .inl ⟨‹_›, (Option.some.inj hz).symm⟩
      · exact .inr ⟨‹_›, hz⟩
  have hself : cell (Cells.write d.heap v { x with perceived := p }) v =
      some { x with perceived := p } := by rw [cell_write hx, if_pos rfl]
  refine ⟨h.keys, fun {b u} hmem => ?_, fun {u z} hz hb => ?_, h.deferredKeys, fun {b u} => ?_,
    fun {u z} hz hd => ?_, fun {u z t} hz => ?_, fun {u z t} hz ht => ?_⟩
  · obtain ⟨z, hz, hzb⟩ := h.valid hmem
    by_cases huv : u = v
    · subst huv
      rw [hx] at hz
      cases hz
      exact ⟨_, hself, hzb⟩
    · exact ⟨z, by rw [cell_write hx, if_neg huv, hz], hzb⟩
  · rcases hcell hz with ⟨rfl, rfl⟩ | ⟨-, hz⟩
    · exact h.live (x := x) hx hb
    · exact h.live hz hb
  · rw [h.deferred]
    by_cases huv : u = v
    · subst huv
      rw [hself, hx]
      simp
    · rw [cell_write hx, if_neg huv]
  · rcases hcell hz with ⟨rfl, rfl⟩ | ⟨-, hz⟩
    · exact h.deferredBlocked (x := x) hx hd
    · exact h.deferredBlocked hz hd
  · rw [hm]
    rcases hcell hz with ⟨rfl, rfl⟩ | ⟨hne, hz⟩
    · rw [if_pos rfl]
    · rw [if_neg hne]
      exact h.perceived hz
  · rw [hm] at ht
    rcases hcell hz with ⟨rfl, rfl⟩ | ⟨hne, hz⟩
    · rw [if_pos rfl] at ht
      exact hp (by rw [ht]; simp)
    · rw [if_neg hne] at ht
      exact h.apart hz ht

theorem Cycles.of_eq (h : Cycles d) (hp : d'.perceived = d.perceived)
    (hn : d'.nextToken = d.nextToken) (hv : d'.views = d.views) : Cycles d' := by
  refine ⟨?_, fun hc => ?_, fun hc he => ?_⟩
  · rw [hp]
    exact h.tokens
  · rw [hp] at hc
    rw [hn]
    exact h.bound hc
  · rw [hp] at hc
    rw [hv]
    exact h.views hc he

theorem Sound.write_flags (h : Sound d) (hx : cell d.heap v = some x) (hy : flags y = flags x) :
    Sound { d with heap := Cells.write d.heap v y } :=
  ⟨h.links.write_flags hx hy, h.cycles.of_eq rfl rfl rfl⟩

/-- A view leaves the deferred set. -/
theorem Sound.undefer (h : Sound d) (hx : cell d.heap v = some x)
    (hdeferred : x.deferred = true) (hactor : y.actor = x.actor)
    (hperceived : y.perceived = x.perceived) (hblocked : y.blocked = true → x.blocked = true)
    (hy : y.deferred = false) :
    Sound { d with heap := Cells.write d.heap v y, deferred := remove d.deferred x.actor } := by
  refine ⟨h.links.write hx hactor hperceived (fun hb => h.links.live hx (hblocked hb)) ?_
    (fun _ _ => hy) (nodup_remove h.links.deferredKeys) fun b u => ?_, h.cycles.of_eq rfl rfl rfl⟩
  · rw [hy]
    intro hd
    cases hd
  rw [h.links.mem_remove_deferred hx hdeferred, hy]
  by_cases huv : u = v
  · simp [huv]
  · simp [huv]

/-! ### Scans -/

theorem markGrey_sound : Keeps Sound (markGrey v rc) := by
  refine Keeps.getV fun x d hd hx => ends_ite (fun _ => ends_bind ?_) fun _ => ends_pure hd
  have hgrey : ∀ (m : ViewMap) (y : View), (∀ z : View, flags z = flags y →
      Sound { d with deferred := m, heap := Cells.write d.heap v z }) →
      Ends (greyView v rc y) (fun _ d' => Sound d') (fun _ => True) { d with deferred := m } := by
    intro m y hy
    refine ends_ite (fun _ => ends_bind (ends_setV (ends_pure (hy _ rfl)))) fun _ => ?_
    exact ends_bind (ends_assert (fun _ => ends_bind (ends_setV (ends_pure (hy _ rfl))))
      fun _ => trivial)
  refine ends_ite (fun hdef => ends_bind (ends_modify (ends_pure (hgrey _ _ fun z hz => ?_))))
    fun _ => ends_pure (hgrey d.deferred x fun z hz => hd.write_flags hx hz)
  obtain ⟨hactor, hblocked, hdeferred, hperceived⟩ := flags_eq hz
  exact hd.undefer hx hdef hactor hperceived (fun hb => hblocked ▸ hb) hdeferred

theorem markBlack_sound : Keeps Sound (markBlack v rc) := by
  refine Keeps.getV fun x d hd hx => ends_ite (fun _ => ends_ite (fun _ => ?_) fun _ => ?_)
    fun _ => ?_
  · exact ends_bind (ends_setV (ends_pure (hd.write_flags hx rfl)))
  · exact ends_bind (ends_setV (ends_pure (hd.write_flags hx rfl)))
  · exact ends_bind (ends_assert (fun _ => ends_pure hd) fun _ => trivial)

theorem markWhite_sound : Keeps Sound (markWhite v rc) := by
  refine Keeps.getV fun x d hd hx => ends_ite (fun _ => ?_) fun _ => ends_pure hd
  refine ends_bind (ends_assert (fun _ => ends_ite (fun _ => ?_) fun _ => ?_) fun _ => trivial)
  · exact (scan_keeps (fun _ _ => markBlack_sound) 0).bind (fun _ => Keeps.pure) d hd
  · exact ends_bind (ends_assert (fun _ => ends_bind (ends_setV (ends_pure (hd.write_flags hx rfl))))
      fun _ => trivial)

/-- The record of a cycle gets a member. -/
def addMember (token : Token) (a : ActorId) (v : ViewId) (c : Token × Perceived) :
    Token × Perceived :=
  if c.1 = token then (c.1, { c.2 with map := put c.2.map a v }) else c

theorem addMember_fst {c : Token × Perceived} : (addMember token a v c).1 = c.1 := by
  rw [addMember]
  split
  · rfl
  · rfl

theorem members_addMember {l : List (Token × Perceived)} {t : Token}
    (hl : token ∈ l.map fst) (hnew : ∀ c ∈ l, c.1 = token → a ∉ c.2.map.map fst) :
    members (l.map (addMember token a v)) t u ↔ (t = token ∧ u = v) ∨ members l t u := by
  constructor
  · rintro ⟨per, hper, hu⟩
    obtain ⟨⟨t', per'⟩, hc, heq⟩ := mem_map.1 hper
    rw [addMember] at heq
    split at heq
    · rename_i ht
      obtain ⟨rfl, rfl⟩ := mk.inj heq
      rw [put_of_notMem (hnew _ hc ht), map_cons] at hu
      rcases mem_cons.1 hu with rfl | hu
      · exact .inl ⟨ht, rfl⟩
      · exact .inr ⟨per', hc, hu⟩
    · obtain ⟨rfl, rfl⟩ := mk.inj heq
      exact .inr ⟨per', hc, hu⟩
  rintro (⟨rfl, rfl⟩ | ⟨per, hper, hu⟩)
  · obtain ⟨⟨t', per⟩, hc, rfl⟩ := mem_map.1 hl
    refine ⟨_, mem_map.2 ⟨_, hc, if_pos rfl⟩, ?_⟩
    exact .head _
  by_cases ht : t = token
  · refine ⟨_, mem_map.2 ⟨_, hper, if_pos ht⟩, ?_⟩
    rw [put_of_notMem (hnew _ hper ht)]
    exact .tail _ hu
  · exact ⟨per, mem_map.2 ⟨_, hper, if_neg ht⟩, hu⟩

/-- A view joins a perceived cycle. -/
theorem Sound.join (h : Sound d) (htoken : token ∈ d.perceived.map fst)
    (hx : cell d.heap v = some x) (hblocked : x.blocked = true) (hdeferred : x.deferred = false)
    (hperceived : x.perceived = none) : Sound { d with
      heap := Cells.write d.heap v { x with perceived := some token }
      perceived := d.perceived.map (addMember token x.actor v) } := by
  have hview := h.links.live hx hblocked
  have halone : ∀ t, ¬ members d.perceived t v := fun t ht => by
    have := (h.links.perceived hx).2 ht
    rw [hperceived] at this
    cases this
  have hnew : ∀ c ∈ d.perceived, c.1 = token → x.actor ∉ c.2.map.map fst := by
    rintro c hc rfl hmem
    obtain ⟨⟨b, u⟩, he, rfl⟩ := mem_map.1 hmem
    obtain rfl := h.links.view_unique hview (h.cycles.views hc he)
    exact halone c.1 ⟨c.2, hc, mem_map.2 ⟨_, he, rfl⟩⟩
  have hlinks := h.links.set_perceived (N := members (d.perceived.map (addMember token x.actor v)))
    (p := some token) hx (fun _ => hdeferred) fun t u => by
      rw [members_addMember htoken hnew]
      by_cases huv : u = v
      · subst huv
        rw [if_pos rfl]
        constructor
        · rintro (⟨rfl, -⟩ | ht)
          · rfl
          · exact absurd ht (halone t)
        · intro ht
          exact .inl ⟨(Option.some.inj ht).symm, rfl⟩
      · simp [huv]
  refine ⟨hlinks.of_eq rfl rfl rfl, ?_, fun {c} hc => ?_, fun {c e} hc he => ?_⟩
  · have hkeys : (d.perceived.map (addMember token x.actor v)).map fst =
        d.perceived.map fst := by
      rw [map_map]
      exact map_congr_left fun c _ => addMember_fst
    show ((d.perceived.map (addMember token x.actor v)).map fst).Nodup
    rw [hkeys]
    exact h.cycles.tokens
  · obtain ⟨c', hc', rfl⟩ := mem_map.1 hc
    rw [addMember_fst]
    exact h.cycles.bound hc'
  obtain ⟨c', hc', rfl⟩ := mem_map.1 hc
  rw [addMember] at he
  split at he
  · rename_i ht
    rw [put_of_notMem (hnew c' hc' ht)] at he
    rcases mem_cons.1 he with rfl | he
    · exact hview
    · exact h.cycles.views hc' he
  · exact h.cycles.views hc' he

/-- The invariant while the members of a cycle are collected. -/
def Collecting (token : Token) (d : Detector) : Prop :=
  Sound d ∧ token ∈ d.perceived.map fst

theorem markBlack_collecting : Keeps (Collecting token) (markBlack v rc) := by
  rintro d ⟨hd, ht⟩
  have hsame : Keeps (fun d => token ∈ d.perceived.map fst) (markBlack v rc) := by
    refine Keeps.getV fun x d hd hx => ends_ite (fun _ => ends_ite (fun _ => ?_) fun _ => ?_)
      fun _ => ?_
    · exact ends_bind (ends_setV (ends_pure hd))
    · exact ends_bind (ends_setV (ends_pure hd))
    · exact ends_bind (ends_assert (fun _ => ends_pure hd) fun _ => trivial)
  exact ((markBlack_sound d hd).and (hsame d ht)).mono (fun _ _ h => h) fun _ h => h.1

theorem collectView_collecting : Keeps (Collecting token) (collectView token v rc) := by
  refine Keeps.getV fun x d hd hx => ends_ite (fun hwhite => ends_bind ?_)
    fun _ => markBlack_collecting d hd
  refine ends_bind (ends_assert (fun hdef => ends_bind (ends_assert (fun hper => ?_)
    fun _ => trivial)) fun _ => trivial)
  refine ends_bind (ends_setV (ends_modify ?_))
  by_cases hblocked : x.blocked = true
  · refine markBlack_collecting _ ⟨hd.1.join hd.2 hx hblocked hdef hper, ?_⟩
    obtain ⟨c, hc, hct⟩ := mem_map.1 hd.2
    exact mem_map.2 ⟨_, mem_map.2 ⟨c, hc, rfl⟩, addMember_fst.trans hct⟩
  -- a white view that is not blocked fails the assertion in `mark_black`
  refine ends_bind (ends_getV (fun z hz => ?_) fun _ => trivial)
  rw [cell_write hx, if_pos rfl] at hz
  cases hz
  refine ends_ite (fun hb => absurd hb hblocked) fun _ => ?_
  refine ends_bind (ends_assert (fun hblack => ?_) fun _ => trivial)
  have hblack : x.color = .black := hblack
  rw [hwhite] at hblack
  cases hblack

theorem perceive_sound {count : Int} : Keeps Sound (perceive v count) := by
  intro d hd
  refine ends_bind (ends_get (ends_bind (ends_set (ends_bind ?_))))
  have hfresh : d.nextToken ∉ d.perceived.map fst := fun hmem => by
    obtain ⟨c, hc, hct⟩ := mem_map.1 hmem
    exact absurd (hct ▸ hd.cycles.bound hc) (Nat.lt_irrefl _)
  have hmembers : ∀ t v, members d.perceived t v ↔
      members ((d.nextToken, ⟨0, []⟩) :: d.perceived) t v := by
    intro t v
    constructor
    · rintro ⟨per, hper, hv⟩
      exact ⟨per, .tail _ hper, hv⟩
    rintro ⟨per, hper, hv⟩
    rcases mem_cons.1 hper with heq | hper
    · cases heq
      cases hv
    · exact ⟨per, hper, hv⟩
  have hlinks := hd.links.congr hmembers
  have hnew : Collecting d.nextToken
      { d with perceived := (d.nextToken, ⟨0, []⟩) :: d.perceived
               nextToken := d.nextToken + 1 } := by
    refine ⟨⟨hlinks.of_eq rfl rfl rfl, ?_, fun {c} hc => ?_, fun {c e} hc he => ?_⟩, .head _⟩
    · exact nodup_cons.2 ⟨hfresh, hd.cycles.tokens⟩
    · rcases mem_cons.1 hc with rfl | hc
      · exact Nat.lt_succ_self _
      · exact Nat.lt_succ_of_lt (hd.cycles.bound hc)
    · rcases mem_cons.1 hc with rfl | hc
      · cases he
      · exact hd.cycles.views hc he
  refine (scan_keeps (fun _ _ => collectView_collecting) 0 _ hnew).mono (fun count' d' hd' => ?_)
    fun _ h => h
  refine ends_bind (ends_assert (fun _ => ends_bind (ends_get ?_)) fun _ => trivial)
  obtain ⟨⟨hlinks', hcycles'⟩, -⟩ := hd'
  cases d'.perceived.lookup d.nextToken with
  | none => exact ends_throw trivial
  | some per =>
    exact ends_bind (ends_assert (fun _ => ends_modify ⟨hlinks'.of_eq rfl rfl rfl,
      hcycles'.of_eq rfl rfl rfl⟩) fun _ => trivial)

theorem detect_sound : Keeps Sound (detect v) := by
  refine Keeps.getV fun x d hd hx => ?_
  refine Keeps.assert.bind (fun _ => ?_) d hd
  refine (scan_keeps (fun _ _ => markGrey_sound) 0).bind fun _ => ?_
  refine (scan_keeps (fun _ _ => markWhite_sound) 0).bind fun count => ?_
  exact Keeps.assert.bind fun _ => Keeps.ite Keeps.pure (perceive_sound.bind fun _ => Keeps.pure)

theorem deferredRound_sound : Keeps Sound (deferredRound a) := by
  intro d hd
  refine ends_bind (ends_get ?_)
  cases hl : d.deferred.lookup a with
  | none => exact ends_pure hd
  | some v =>
    refine ends_bind (ends_getV (fun x hx => ends_bind (ends_assert (fun hdef => ends_bind
      (ends_modify (ends_bind (ends_setV ?_)))) fun _ => trivial)) fun _ => trivial)
    obtain ⟨z, hz, rfl, -⟩ := hd.links.deferred.1 (mem_of_lookup hl)
    rw [hx] at hz
    cases hz
    exact (detect_sound.bind fun _ => Keeps.pure) _ (hd.undefer hx hdef rfl rfl id rfl)

/-! ### Cycles that end -/

/-- A view outside of any cycle. -/
def outside (x : View) : View := { x with perceived := none }

/-- `d` differs from `d₀` in the cycles only. -/
structure Kept (d₀ d : Detector) : Prop where
  views : d.views = d₀.views
  deferred : d.deferred = d₀.deferred
  heap : d.heap.map (Option.map outside) = d₀.heap.map (Option.map outside)

theorem Kept.cell_eq (h : Kept d d') (hx : cell d'.heap v = some x) :
    ∃ y, cell d.heap v = some y ∧ outside y = outside x := by
  have hmap : (cell d'.heap v).map outside = (cell d.heap v).map outside := by
    rw [← cell_map, ← cell_map, h.heap]
  rw [hx] at hmap
  exact Option.map_eq_some_iff.1 hmap.symm

theorem Kept.write (h : Kept d₀ d) {p : Option Token} (hx : cell d.heap v = some x) :
    Kept d₀ { d with heap := Cells.write d.heap v { x with perceived := p } } :=
  ⟨h.views, h.deferred, (map_write (a := { x with perceived := p }) hx rfl).trans h.heap⟩

variable {ms : ViewMap} {view : ViewId}

theorem clearPerceived_links (h : Links M d) (hk : Kept d₀ d) :
    Ends (clearPerceived ms) (fun _ d' => Links (fun t u => M t u ∧ u ∉ ms.map snd) d' ∧
      Kept d₀ d' ∧ d'.perceived = d.perceived ∧ d'.nextToken = d.nextToken) (fun _ => True) d := by
  induction ms generalizing d M with
  | nil => exact ends_pure ⟨h.congr fun t u => by simp, hk, rfl, rfl⟩
  | cons e ms ih =>
    obtain ⟨b, v⟩ := e
    refine ends_bind (ends_getV (fun x hx => ends_bind (ends_setV ?_)) fun _ => trivial)
    have hclear := h.set_perceived (p := none) (N := fun t u => M t u ∧ u ≠ v) hx
      (fun hne => absurd rfl hne) fun t u => by
        by_cases huv : u = v
        · simp [huv]
        · simp [huv]
    refine (ih hclear (hk.write hx)).mono (fun _ d' hd' => ?_) fun _ h => h
    obtain ⟨hlinks, hkept, hper, hnext⟩ := hd'
    refine ⟨hlinks.congr fun t u => ?_, hkept, hper, hnext⟩
    rw [map_cons, mem_cons, not_or, and_assoc]

/-- A cycle and the rest of them. -/
theorem members_filter (h : Sound d) {per : Perceived} {t : Token}
    (hper : (token, per) ∈ d.perceived) : (members d.perceived t u ∧ u ∉ per.map.map snd) ↔
      members (d.perceived.filter (·.1 ≠ token)) t u := by
  constructor
  · rintro ⟨⟨per', hper', hu⟩, hnot⟩
    refine ⟨per', mem_filter.2 ⟨hper', ?_⟩, hu⟩
    have hne : t ≠ token := by
      rintro rfl
      obtain rfl : per' = per :=
        congrArg snd (inj_on_of_nodup_map h.cycles.tokens hper' hper rfl)
      exact hnot hu
    simpa using hne
  rintro ⟨per', hper', hu⟩
  obtain ⟨hper', hne⟩ := mem_filter.1 hper'
  have hne : t ≠ token := by simpa using hne
  refine ⟨⟨per', hper', hu⟩, fun hu' => hne ?_⟩
  -- a view is in one cycle at most
  obtain ⟨⟨b, u'⟩, he, rfl⟩ := mem_map.1 hu
  obtain ⟨x, hx, -⟩ := h.links.valid (h.cycles.views hper' he)
  have h₁ := (h.links.perceived hx).2 ⟨per', hper', mem_map.2 ⟨_, he, rfl⟩⟩
  have h₂ := (h.links.perceived hx).2 ⟨per, hper, hu'⟩
  rw [h₁] at h₂
  exact Option.some.inj h₂

theorem Cycles.filter (h : Cycles d) {p : Token × Perceived → Bool} :
    Cycles { d with perceived := d.perceived.filter p } :=
  ⟨h.tokens.sublist (List.Sublist.map _ filter_sublist),
    fun hc => h.bound (mem_filter.1 hc).1, fun hc he => h.views (mem_filter.1 hc).1 he⟩

/-- `expire`: the cycle of a view is forgotten by all its members. -/
theorem expire_sound (h : Sound d) : Ends (expire v) (fun _ d' => Sound d' ∧ Kept d d' ∧
    ∀ t, ¬ members d'.perceived t v) (fun _ => True) d := by
  refine ends_bind (ends_getV (fun x hx => ?_) fun _ => trivial)
  cases hp : x.perceived with
  | none =>
    refine ends_pure ⟨h, ⟨rfl, rfl, rfl⟩, fun t ht => ?_⟩
    have := (h.links.perceived hx).2 ht
    rw [hp] at this
    cases this
  | some token =>
    refine ends_bind (ends_get ?_)
    cases hl : d.perceived.lookup token with
    | none => exact ends_throw trivial
    | some per =>
      have hper := mem_perceived_of_lookup hl
      refine ends_bind ((clearPerceived_links h.links ⟨rfl, rfl, rfl⟩).mono
        (fun _ d₁ hd₁ => ?_) fun _ h => h)
      obtain ⟨hlinks, hkept, hsame, hnext⟩ := hd₁
      have hlinks' := hlinks.congr fun t u => members_filter (t := t) (u := u) h hper
      have hcycles : Cycles d₁ := h.cycles.of_eq hsame hnext hkept.views
      -- the view itself was a member
      have hgone : ∀ t, ¬ members (d.perceived.filter (·.1 ≠ token)) t v := fun t ht => by
        obtain ⟨ht, hnot⟩ := (members_filter h hper).2 ht
        have htoken := (h.links.perceived hx).2 ht
        rw [hp] at htoken
        cases htoken
        obtain ⟨per', hper', hv⟩ := ht
        obtain rfl : per' = per :=
          congrArg snd (inj_on_of_nodup_map h.cycles.tokens hper' hper rfl)
        exact hnot hv
      refine ends_bind (ends_modify (ends_bind (ends_getV (fun y hy => ?_) fun _ => trivial)))
      have hkept' := hkept.write (p := none) hy
      refine ends_setV ⟨⟨?_, hcycles.filter.of_eq rfl rfl rfl⟩,
        ⟨hkept'.views, hkept'.deferred, hkept'.heap⟩, ?_⟩
      · have hset := hlinks'.set_perceived (p := none)
          (N := members (d₁.perceived.filter (·.1 ≠ token))) hy
          (fun hne => absurd rfl hne) fun t u => by
            rw [hsame]
            by_cases huv : u = v
            · subst huv
              rw [if_pos rfl]
              exact iff_of_false (hgone t) (by simp)
            · rw [if_neg huv]
        exact hset.of_eq rfl rfl rfl
      · rw [hsame]
        exact hgone

/-! ### Messages -/

/-- A view is blocked or unblocked. -/
theorem Sound.set_blocked {b : Bool} (h : Sound d) (hx : cell d.heap v = some x)
    (hlive : b = true → (x.actor, v) ∈ d.views) (hdef : x.deferred = true → b = true) :
    Sound { d with heap := Cells.write d.heap v { x with blocked := b } } :=
  ⟨h.links.write hx rfl rfl hlive hdef (fun _ ht => h.links.apart (x := x) hx ht)
    h.links.deferredKeys fun _ _ => h.links.mem_deferred hx, h.cycles.of_eq rfl rfl rfl⟩

/-- The end of `block`: a blocked view outside of any cycle is deferred. -/
theorem defer_sound (h : Sound d) (halone : ∀ t, ¬ members d.perceived t v)
    (hblocked : ∀ x, cell d.heap v = some x → x.blocked = true) :
    Ends (defer v) (fun _ d' => Sound d') (fun _ => True) d := by
  refine ends_bind (ends_getV (fun x hx => ends_ite (fun _ => ends_pure h) fun hdef => ?_)
    fun _ => trivial)
  have hview := h.links.live hx (hblocked x hx)
  have hnot : x.actor ∉ d.deferred.map fst := fun hmem => by
    obtain ⟨⟨b, u⟩, he, rfl⟩ := mem_map.1 hmem
    obtain ⟨z, hz, hzb, hzd⟩ := h.links.deferred.1 he
    have hzview := h.links.live hz (h.links.deferredBlocked hz hzd)
    rw [hzb] at hzview
    obtain rfl := h.links.view_unique hview hzview
    rw [hx] at hz
    cases hz
    exact hdef hzd
  refine ends_bind (ends_modify (ends_setV ⟨?_, h.cycles.of_eq rfl rfl rfl⟩))
  refine h.links.write hx rfl rfl (fun _ => hview) (fun _ => hblocked x hx)
    (fun t ht => absurd ht (halone t)) (nodup_put h.links.deferredKeys) fun b u => ?_
  rw [put_of_notMem hnot, mem_cons]
  by_cases huv : u = v
  · subst huv
    rw [if_pos rfl, h.links.mem_deferred hx, if_pos rfl]
    simp [hdef]
  · simp [huv]

theorem getView_sound {create : Bool} (h : Sound d) :
    Ends (getView a create) (fun _ d' => Sound d') (fun _ => True) d := by
  refine ends_bind (ends_get ?_)
  cases hl : d.views.lookup a with
  | some u => exact ends_pure h
  | none =>
    refine ends_ite (fun _ => ends_bind (ends_set (ends_pure ?_))) fun _ => ends_pure h
    have hnot := lookup_none_iff.1 hl
    have hold : ∀ {u z}, cell d.heap u = some z →
        cell (Cells.alloc d.heap (newView a)) u = some z := fun {u z} hz => by
      have hlt := lt_length_of_cell hz
      rw [cell_alloc, if_neg (by omega), hz]
    have hfresh : ∀ t, ¬ members d.perceived t d.heap.length := by
      rintro t ⟨per, hper, hmem⟩
      obtain ⟨⟨b, u⟩, he, rfl⟩ := mem_map.1 hmem
      obtain ⟨z, hz, -⟩ := h.links.valid (h.cycles.views hper he)
      exact absurd (lt_length_of_cell hz) (Nat.lt_irrefl _)
    rw [put_of_notMem hnot]
    refine ⟨⟨nodup_cons.2 ⟨hnot, h.links.keys⟩, fun {b u} hmem => ?_, fun {u z} hz hb => ?_,
      h.links.deferredKeys, fun {b u} => ?_, fun {u z} hz hd => ?_, fun {u z t} hz => ?_,
      fun {u z t} hz ht => ?_⟩, ⟨h.cycles.tokens, h.cycles.bound,
      fun hc he => .tail _ (h.cycles.views hc he)⟩⟩
    · rcases mem_cons.1 hmem with heq | hmem
      · obtain ⟨rfl, rfl⟩ := mk.inj heq
        exact ⟨newView b, by rw [cell_alloc, if_pos rfl], rfl⟩
      · obtain ⟨z, hz, hzb⟩ := h.links.valid hmem
        exact ⟨z, hold hz, hzb⟩
    · rcases cell_alloc_cases hz with ⟨-, rfl⟩ | ⟨-, hz⟩
      · cases hb
      · exact .tail _ (h.links.live hz hb)
    · rw [h.links.deferred]
      constructor
      · rintro ⟨z, hz, hzb, hzd⟩
        exact ⟨z, hold hz, hzb, hzd⟩
      rintro ⟨z, hz, hzb, hzd⟩
      rcases cell_alloc_cases hz with ⟨-, rfl⟩ | ⟨-, hz⟩
      · cases hzd
      · exact ⟨z, hz, hzb, hzd⟩
    · rcases cell_alloc_cases hz with ⟨-, rfl⟩ | ⟨-, hz⟩
      · cases hd
      · exact h.links.deferredBlocked hz hd
    · rcases cell_alloc_cases hz with ⟨rfl, rfl⟩ | ⟨-, hz⟩
      · constructor
        · intro hp
          cases hp
        · intro ht
          exact absurd ht (hfresh t)
      · exact h.links.perceived hz
    · rcases cell_alloc_cases hz with ⟨-, rfl⟩ | ⟨-, hz⟩
      · rfl
      · exact h.links.apart hz ht

theorem addRef_sound {find : ViewId} : Keeps Sound (addRef view find rc) := by
  refine Keeps.getV fun x d hd hx => ends_ite (fun _ => ends_setV (hd.write_flags hx rfl))
    fun _ => ends_bind (ends_setV ?_)
  exact Keeps.getV (fun y d' hd' hy => ends_setV (hd'.write_flags hy rfl)) _ (hd.write_flags hx rfl)

/-- `view_free`, for a view that has other references. -/
theorem viewFree_sound (h : Sound d) (htwo : ∀ x, cell d.heap v = some x → 2 ≤ x.viewRc) :
    Ends (viewFree v) (fun _ d' => Sound d') (fun _ => True) d := by
  refine ends_bind (ends_getV (fun x hx => ends_ite (fun hone => ?_) fun _ => ?_) fun _ => trivial)
  · have := htwo x hx
    omega
  · exact ends_setV (h.write_flags hx rfl)

/-- The invariant of the counts and of the pointers, while `block` applies a delta. -/
def Applying (R : Int → Prop) (e : ActorId × ViewId) (d : Detector) : Prop :=
  Tracks R e d ∧ Sound d

theorem applyOne_sound {R : Int → Prop} {e : ActorId × ViewId} (hR : Bound R) (h : Applying R e d) :
    Ends (applyOne view a rc) (fun _ d' => Applying R e d') (fun _ => True) d := by
  refine ends_bind (((getView_acc hR h.1.1).and (getView_sound h.2)).mono (fun r d' hd' => ?_)
    fun _ h => h.1)
  obtain ⟨⟨hcounts, hfound, hkeep⟩, hsound⟩ := hd'
  have htracks : Tracks R e d' := ⟨hcounts, hkeep e h.1.2⟩
  cases r with
  | none => exact ends_pure ⟨htracks, hsound⟩
  | some find =>
    have hfind := hfound find rfl
    refine ends_ite (fun _ => ?_) fun _ => ?_
    · exact ((addRef_acc hfind htracks).and (addRef_sound d' hsound)).mono (fun _ _ h => h)
        fun _ h => h.1
    refine ((dropRef_acc hR hfind htracks).and (F := fun _ => True)
      (R := fun _ d' => Sound d') ?_).mono (fun _ _ h => h) fun _ h => h.1
    refine ends_bind (ends_getV (fun x hx => ends_ite (fun hany => ?_)
      fun _ => ends_pure hsound) fun _ => trivial)
    refine ends_bind (ends_setV (viewFree_sound (hsound.write_flags hx rfl) fun y hy => ?_))
    exact (hcounts.drop hx hany).two_le hR hfind hy

theorem applyDelta_sound {R : Int → Prop} {e : ActorId × ViewId} (hR : Bound R)
    (delta : List (ActorId × UInt64)) : Keeps (Applying R e) (applyDelta view delta) := by
  induction delta with
  | nil => exact Keeps.pure
  | cons p delta ih => exact Keeps.bind (fun d hd => applyOne_sound hR hd) fun _ => ih

theorem unblock_sound : Keeps Sound (unblock a) := by
  intro d hd
  refine ends_bind (ends_get ?_)
  cases d.views.lookup a with
  | none => exact ends_throw trivial
  | some v =>
    refine ends_bind (ends_getV (fun x hx => ends_bind ?_) fun _ => trivial)
    refine ends_ite (fun hdef => ends_bind (ends_modify (ends_pure (ends_bind (ends_setV ?_)))))
      fun hdef => ends_pure (ends_bind (ends_setV ?_))
    · have hsound := hd.undefer (y := { x with blocked := false, deferred := false }) hx hdef
        rfl rfl (fun hb => by cases hb) rfl
      exact (expire_sound hsound).mono (fun _ _ h => h.1) fun _ h => h
    refine (expire_sound (hd.set_blocked hx ?_ fun h => absurd h hdef)).mono (fun _ _ h => h.1)
      fun _ h => h
    intro hb
    cases hb

/-! ### Views that are given up -/

/-- A view is taken out of `d->views` and freed, when it is in no other map any more. -/
theorem Links.free {m : ViewMap} (h : Links M d) (hav : (a, v) ∈ d.views)
    (hkeys : (m.map fst).Nodup) (hm : ∀ b u, (b, u) ∈ m ↔ u ≠ v ∧ (b, u) ∈ d.deferred) :
    Links (fun t u => M t u ∧ u ≠ v)
      { d with views := remove d.views a, deferred := m, heap := free d.heap v } := by
  have hcell : ∀ {u z}, cell (Cells.free d.heap v) u = some z ↔ u ≠ v ∧ cell d.heap u = some z :=
    fun {u z} => by
      rw [cell_free]
      by_cases huv : u = v
      · simp [huv]
      · simp [huv]
  refine ⟨nodup_remove h.keys, fun {b u} hmem => ?_, fun {u z} hz hb => ?_, hkeys, fun {b u} => ?_,
    fun {u z} hz hd => ?_, fun {u z t} hz => ?_, fun {u z t} hz ht => ?_⟩
  · obtain ⟨hmem, hne⟩ := mem_remove.1 hmem
    obtain ⟨z, hz, hzb⟩ := h.valid hmem
    refine ⟨z, hcell.2 ⟨?_, hz⟩, hzb⟩
    rintro rfl
    obtain ⟨z', hz', rfl⟩ := h.valid hav
    rw [hz] at hz'
    cases hz'
    exact hne hzb.symm
  · obtain ⟨hne, hz'⟩ := hcell.1 hz
    have hlive := h.live hz' hb
    refine mem_remove.2 ⟨hlive, ?_⟩
    rintro rfl
    exact hne (h.view_unique hlive hav)
  · rw [hm, h.deferred]
    simp only [hcell]
    constructor
    · rintro ⟨hne, z, hz, hzb, hzd⟩
      exact ⟨z, ⟨hne, hz⟩, hzb, hzd⟩
    · rintro ⟨z, ⟨hne, hz⟩, hzb, hzd⟩
      exact ⟨hne, z, hz, hzb, hzd⟩
  · exact h.deferredBlocked (hcell.1 hz).2 hd
  · obtain ⟨hne, hz⟩ := hcell.1 hz
    rw [h.perceived hz]
    exact ⟨fun ht => ⟨ht, hne⟩, fun ht => ht.1⟩
  · exact h.apart (hcell.1 hz).2 ht.1

/-- A view that is not blocked is taken out of `d->views`. -/
theorem Links.remove (h : Links M d) (hav : (a, v) ∈ d.views) (hx : cell d.heap v = some x)
    (hb : x.blocked = false) : Links M { d with views := remove d.views a } := by
  refine ⟨nodup_remove h.keys, fun hmem => h.valid (mem_remove.1 hmem).1, fun {u z} hz hzb => ?_,
    h.deferredKeys, h.deferred, h.deferredBlocked, h.perceived, h.apart⟩
  refine mem_remove.2 ⟨h.live hz hzb, ?_⟩
  rintro rfl
  obtain rfl := h.view_unique (h.live hz hzb) hav
  rw [hx] at hz
  cases hz
  rw [hb] at hzb
  cases hzb

/-- Dropping a view that no perceived cycle holds. -/
theorem Cycles.remove (h : Cycles d) (hlinks : Links M d) (hav : (a, v) ∈ d.views)
    (halone : ∀ c ∈ d.perceived, v ∉ c.2.map.map snd) :
    Cycles { d with views := remove d.views a } := by
  refine ⟨h.tokens, h.bound, fun {c e} hc he => ?_⟩
  refine mem_remove.2 ⟨h.views hc he, ?_⟩
  rintro rfl
  obtain rfl := hlinks.view_unique (h.views hc he) hav
  exact halone c hc (mem_map.2 ⟨_, he, rfl⟩)

/-- A view that is only in `d->views` is given up. -/
theorem giveUp_sound {m : ViewMap} (h : Sound d) (hav : (a, v) ∈ d.views)
    (hx : cell d.heap v = some x) (halone : ∀ t, ¬ members d.perceived t v)
    (hkeys : (m.map fst).Nodup) (hm : ∀ b u, (b, u) ∈ m ↔ u ≠ v ∧ (b, u) ∈ d.deferred)
    (hleft : x.blocked = true → x.viewRc = 1) :
    Ends (viewFree v) (fun _ d' => Sound d') (fun _ => True)
      { d with views := Cycle.remove d.views a, deferred := m } := by
  have hcycles : Cycles { d with views := Cycle.remove d.views a } :=
    h.cycles.remove h.links hav fun c hc hv => halone c.1 ⟨c.2, hc, hv⟩
  refine ends_bind (ends_getV (fun z hz => ?_) fun _ => trivial)
  cases hx.symm.trans hz
  refine ends_ite (fun hone => ends_modify ⟨?_, hcycles.of_eq rfl rfl rfl⟩) fun hmany => ?_
  · refine ((h.links.free hav hkeys hm).congr fun t u => ?_).of_eq rfl rfl rfl
    refine ⟨fun ht => ht.1, fun ht => ⟨ht, ?_⟩⟩
    rintro rfl
    exact halone t ht
  have hb : x.blocked = false := by
    by_contra hb
    have := hleft (by simpa using hb)
    omega
  have hdef : ¬ x.deferred = true := fun hd => by
    rw [h.links.deferredBlocked hx hd] at hb
    cases hb
  have hlinks : Links (members d.perceived)
      { d with views := Cycle.remove d.views a, deferred := m } := by
    have hremove := h.links.remove hav hx hb
    have hwrite := hremove.write (y := x) (m := m) hx rfl rfl (fun hb' => by
      rw [hb] at hb'
      cases hb') (fun hd => absurd hd hdef) (fun t ht => absurd ht (halone t)) hkeys fun b u => by
        rw [hm]
        by_cases huv : u = v
        · simp [huv, hdef]
        · simp [huv]
    refine hwrite.of_eq ?_ rfl rfl
    exact (write_self hx).symm
  exact ends_setV ⟨hlinks.write_flags hx rfl, hcycles.of_eq rfl rfl rfl⟩

theorem reapView_sound (h : Sound d) (hav : (a, v) ∈ d.views)
    (hleft : ∀ x, cell d.heap v = some x → x.blocked = true → x.viewRc = 1) :
    Ends (reapView v) (fun _ d' => Sound d') (fun _ => True) d := by
  refine ends_bind (ends_getV (fun x hx => ?_) fun _ => trivial)
  obtain ⟨z, hz, rfl⟩ := h.links.valid hav
  cases hx.symm.trans hz
  refine ends_bind (ends_ite (fun hdef => ends_modify ?_) fun hdef => ends_pure ?_)
  · have halone : ∀ t, ¬ members d.perceived t v := fun t ht => by
      rw [h.links.apart hx ht] at hdef
      cases hdef
    -- a deferred view is in no cycle, so `expire` does nothing
    refine ends_bind (ends_bind (ends_getV (fun z hz => ?_) fun _ => trivial))
    cases hx.symm.trans hz
    have hper : x.perceived = none := by
      cases hp : x.perceived with
      | none => rfl
      | some t => exact absurd ((h.links.perceived hx).1 hp) (halone t)
    rw [hper]
    refine ends_pure (ends_bind (ends_modify ?_))
    exact giveUp_sound (d := d) h hav hx halone (nodup_remove h.links.deferredKeys)
      (fun b u => h.links.mem_remove_deferred hx hdef) (hleft x hx)
  refine ends_bind ((expire_sound h).mono (fun _ d' hd' => ends_bind (ends_modify ?_)) fun _ h => h)
  obtain ⟨hsound, hkept, halone⟩ := hd'
  have hav' : (x.actor, v) ∈ d'.views := hkept.views ▸ hav
  obtain ⟨y, hy, -⟩ := hsound.links.valid hav'
  obtain ⟨x', hx', hout⟩ := hkept.cell_eq hy
  cases hx.symm.trans hx'
  have hblocked : (outside x).blocked = (outside y).blocked := congrArg View.blocked hout
  have hrc : (outside x).viewRc = (outside y).viewRc := congrArg View.viewRc hout
  have hdeferred : (outside x).deferred = (outside y).deferred := congrArg View.deferred hout
  refine giveUp_sound hsound hav' hy halone hsound.links.deferredKeys (fun b u => ?_) ?_
  · rw [hsound.links.mem_deferred hy, show y.deferred = x.deferred from hdeferred.symm]
    by_cases huv : u = v
    · simp [huv, hdef]
    · simp [huv]
  · intro hb
    exact hrc.symm.trans (hleft x hx (hblocked.trans hb))

/-- No view of a destroyed actor stays behind blocked or in a cycle: a zombie's view that is still
blocked is freed, and so are all views of a collected cycle. -/
def LeavesNone (d : Detector) : Op → Prop
  | .block actor rc _ => rc = 0 → ∀ v x, d.views.lookup actor = some v → cell d.heap v = some x →
      x.blocked = true → x.viewRc = 1
  | .ack token => ∀ per, d.perceived.lookup token = some per → per.ack + 1 = per.map.length →
      ∀ e ∈ per.map, ∀ x, cell d.heap e.2 = some x → x.viewRc = 1
  | _ => True

theorem bound_nonneg : Bound (0 ≤ ·) := ⟨Int.le_refl 0, id⟩

theorem spare_nonneg : Spare (0 ≤ ·) x := by
  intro _ u k hk
  have hnonneg : 0 ≤ weight x.map u := Int.natCast_nonneg _
  show 0 ≤ k + weight x.map u
  omega

theorem Sound.effects {eff : List Effect} (h : Sound d) : Sound { d with effects := eff } :=
  ⟨h.links.of_eq rfl rfl rfl, h.cycles.of_eq rfl rfl rfl⟩

theorem block_sound {delta : List (ActorId × UInt64)} (hcounts : Counts (0 ≤ ·) d) (h : Sound d)
    (hc : LeavesNone d (.block a rc delta)) :
    Ends (block a rc delta) (fun _ d' => Sound d') (fun _ => True) d := by
  refine ends_ite (fun hrc => ?_) fun _ => ?_
  · refine ends_bind (ends_bind (ends_get ?_))
    cases hl : d.views.lookup a with
    | none => exact ends_pure (ends_modify h.effects)
    | some v =>
      refine ends_pure (ends_bind ?_)
      exact (reapView_sound h (mem_of_lookup hl) fun x hx => hc hrc v x hl hx).mono
        (fun _ d' h' => ends_modify h'.effects) fun _ h => h
  refine ends_bind (((getView_acc bound_nonneg hcounts).and (getView_sound h)).mono
    (fun r d' hd' => ?_) fun _ h => h.1)
  obtain ⟨⟨hcounts', hfound, -⟩, hsound⟩ := hd'
  cases r with
  | none => exact ends_throw trivial
  | some v =>
    have htracks : Tracks (0 ≤ ·) (a, v) d' := ⟨hcounts', hfound v rfl⟩
    refine ends_bind (ends_getV (fun x hx => ends_bind (ends_setV (ends_bind ?_))) fun _ => trivial)
    have happly : Applying (0 ≤ ·) (a, v)
        { d' with heap := Cells.write d'.heap v { x with rc := rc } } :=
      ⟨htracks.write_core hx rfl, hsound.write_flags hx rfl⟩
    refine (applyDelta_sound bound_nonneg delta _ happly).mono (fun _ d₁ hd₁ => ?_)
      fun _ h => h
    obtain ⟨⟨-, hav⟩, hsound₁⟩ := hd₁
    refine ends_bind (ends_getV (fun y hy => ends_bind (ends_setV (ends_bind ?_))) fun _ => trivial)
    obtain ⟨z, hz, hza⟩ := hsound₁.links.valid hav
    cases hy.symm.trans hz
    have hblocked := hsound₁.set_blocked (b := true) hy (fun _ => hza ▸ hav) fun _ => rfl
    refine (expire_sound hblocked).mono (fun _ d₂ hd₂ => ?_) fun _ h => h
    obtain ⟨hsound₂, hkept, halone⟩ := hd₂
    refine defer_sound hsound₂ halone fun w hw => ?_
    obtain ⟨w', hw', hout⟩ := hkept.cell_eq hw
    have hself : cell (Cells.write d₁.heap v { y with blocked := true }) v =
        some { y with blocked := true } := by rw [cell_write hy, if_pos rfl]
    cases hself.symm.trans hw'
    have hb : (outside { y with blocked := true }).blocked = (outside w).blocked :=
      congrArg View.blocked hout
    exact hb.symm

/-- No member of a cycle is deferred. -/
theorem collectMark_same (hms : ∀ e ∈ ms, ∀ x, cell d.heap e.2 = some x → x.deferred = false) :
    Ends (collectMark token ms) (fun _ d' => d' = d) (fun _ => True) d := by
  induction ms with
  | nil => exact ends_pure rfl
  | cons e ms ih =>
    refine ends_bind (ends_getV (fun x hx => ?_) fun _ => trivial)
    refine ends_bind (ends_assert (fun _ => ends_bind ?_) fun _ => trivial)
    have hdef := hms e (.head _) x hx
    refine ends_ite (fun h => ?_) fun _ => ends_pure (ih fun e he => hms e (.tail _ he))
    rw [hdef] at h
    cases h

/-- The members of a cycle are freed one by one. -/
theorem collectFree_links (h : Links M d) (hcycles : Cycles d) (hkeys : (ms.map fst).Nodup)
    (hviews : ∀ e ∈ ms, e ∈ d.views)
    (hfreed : ∀ e ∈ ms, ∀ x, cell d.heap e.2 = some x → x.viewRc = 1 ∧ x.deferred = false)
    (halone : ∀ e ∈ ms, ∀ c ∈ d.perceived, e.2 ∉ c.2.map.map snd) :
    Ends (collectFree ms) (fun _ d' => Links (fun t u => M t u ∧ u ∉ ms.map snd) d' ∧
      Cycles d' ∧ d'.perceived = d.perceived) (fun _ => True) d := by
  induction ms generalizing d M with
  | nil => exact ends_pure ⟨h.congr fun t u => by simp, hcycles, rfl⟩
  | cons e ms ih =>
    obtain ⟨a, v⟩ := e
    obtain ⟨hnot, hkeys'⟩ := nodup_cons.1 hkeys
    have hav := hviews (a, v) (.head _)
    refine ends_bind (ends_getV (fun x hx => ?_) fun _ => trivial)
    obtain ⟨z, hz, rfl⟩ := h.valid hav
    cases hx.symm.trans hz
    obtain ⟨hone, hdef⟩ := hfreed _ (.head _) x hx
    have hne : ∀ e ∈ ms, e.2 ≠ v := by
      rintro ⟨b, u⟩ he rfl
      obtain ⟨w, hw, rfl⟩ := h.valid (hviews _ (.tail _ he))
      cases hx.symm.trans hw
      exact hnot (mem_map.2 ⟨_, he, rfl⟩)
    have hremoved := hcycles.remove h hav (halone _ (.head _))
    have hlinks := h.free hav h.deferredKeys fun b u => by
      rw [h.mem_deferred hx]
      by_cases huv : u = v
      · simp [huv, hdef]
      · simp [huv]
    refine ends_bind (ends_modify (ends_bind (ends_bind (ends_getV (fun w hw => ?_)
      fun _ => trivial))))
    cases hx.symm.trans hw
    refine ends_ite (fun _ => ends_modify ?_) fun hmany => absurd (by omega) hmany
    refine Ends.mono (ih (M := fun t u => M t u ∧ u ≠ v) (hlinks.of_eq rfl rfl rfl)
      (hremoved.of_eq rfl rfl rfl) hkeys' (fun e he => ?_) (fun e he w hw => ?_)
      fun e he => halone e (.tail _ he)) (fun _ d' hd' => ?_) fun _ h => h
    · refine mem_remove.2 ⟨hviews e (.tail _ he), fun heq => ?_⟩
      exact hnot (mem_map.2 ⟨e, he, heq⟩)
    · rw [cell_free, if_neg (hne e he)] at hw
      exact hfreed e (.tail _ he) w hw
    · obtain ⟨hlinks', hcycles', hsame⟩ := hd'
      refine ⟨hlinks'.congr fun t u => ?_, hcycles', hsame⟩
      rw [map_cons, mem_cons, not_or, and_assoc]

theorem collect_sound {per : Perceived} (h : Sound d) (hper : (token, per) ∈ d.perceived)
    (hkeys : (per.map.map fst).Nodup)
    (hone : ∀ e ∈ per.map, ∀ x, cell d.heap e.2 = some x → x.viewRc = 1) :
    Ends (collect token per) (fun _ d' => Sound d') (fun _ => True) d := by
  have hmember : ∀ e ∈ per.map, members d.perceived token e.2 := fun e he =>
    ⟨per, hper, mem_map.2 ⟨e, he, rfl⟩⟩
  have hdef : ∀ e ∈ per.map, ∀ x, cell d.heap e.2 = some x → x.deferred = false :=
    fun e he x hx => h.links.apart hx (hmember e he)
  have hgone : Links (members d.perceived)
      { d with perceived := d.perceived.filter (·.1 ≠ token) } := h.links.of_eq rfl rfl rfl
  refine ends_bind (ends_modify (ends_bind ?_))
  refine Ends.mono (collectMark_same (fun e he x hx => hdef e he x hx)) (fun _ d' hd' => ?_)
    fun _ h => h
  subst hd'
  refine (collectFree_links hgone h.cycles.filter hkeys (fun e he => h.cycles.views hper he)
    (fun e he x hx => ⟨hone e he x hx, hdef e he x hx⟩) fun e he c hc hmem => ?_).mono
    (fun _ d' hd' => ?_) fun _ h => h
  · have hother : members (d.perceived.filter (·.1 ≠ token)) c.1 e.2 := ⟨c.2, hc, hmem⟩
    exact ((members_filter h hper).2 hother).2 (mem_map.2 ⟨e, he, rfl⟩)
  obtain ⟨hlinks, hcycles, hsame⟩ := hd'
  refine ⟨hlinks.congr fun t u => ?_, hcycles⟩
  rw [hsame]
  exact members_filter h hper

/-- The record of a cycle changes, its members stay. -/
theorem Sound.map_perceived {f : Token × Perceived → Token × Perceived} (h : Sound d)
    (hfst : ∀ c, (f c).1 = c.1) (hmap : ∀ c e, e ∈ (f c).2.map ↔ e ∈ c.2.map) :
    Sound { d with perceived := d.perceived.map f } := by
  have hmembers : ∀ t u, members d.perceived t u ↔ members (d.perceived.map f) t u := by
    intro t u
    constructor
    · rintro ⟨per, hper, hu⟩
      obtain ⟨e, he, rfl⟩ := mem_map.1 hu
      refine ⟨(f (t, per)).2, mem_map.2 ⟨_, hper, ?_⟩, mem_map.2 ⟨e, ?_, rfl⟩⟩
      · exact ext (hfst (t, per)) rfl
      · exact (hmap (t, per) e).2 he
    rintro ⟨per, hper, hu⟩
    obtain ⟨c, hc, hfc⟩ := mem_map.1 hper
    obtain ⟨e, he, rfl⟩ := mem_map.1 hu
    have hct : c.1 = t := (hfst c).symm.trans (congrArg fst hfc)
    have hper' : e ∈ (f c).2.map := by rw [hfc]; exact he
    exact ⟨c.2, hct ▸ hc, mem_map.2 ⟨e, (hmap c e).1 hper', rfl⟩⟩
  have hkeys : (d.perceived.map f).map fst = d.perceived.map fst := by
    rw [map_map]
    exact map_congr_left fun c _ => hfst c
  refine ⟨(h.links.congr hmembers).of_eq rfl rfl rfl, ?_, fun {c} hc => ?_, fun {c e} hc he => ?_⟩
  · show ((d.perceived.map f).map fst).Nodup
    rw [hkeys]
    exact h.cycles.tokens
  · obtain ⟨c', hc', rfl⟩ := mem_map.1 hc
    rw [hfst]
    exact h.cycles.bound hc'
  · obtain ⟨c', hc', rfl⟩ := mem_map.1 hc
    exact h.cycles.views hc' ((hmap c' e).1 he)

theorem ack_sound (hcounts : Counts (0 ≤ ·) d) (h : Sound d) (hc : LeavesNone d (.ack token)) :
    Ends (ack token) (fun _ d' => Sound d') (fun _ => True) d := by
  refine ends_bind (ends_get ?_)
  cases hl : d.perceived.lookup token with
  | none => exact ends_pure h
  | some per =>
    have hper := mem_perceived_of_lookup hl
    refine ends_ite (fun hlast => ?_) fun _ => ?_
    · exact collect_sound h hper (hcounts.cycles _ hper) (hc per hl hlast)
    refine ends_modify (h.map_perceived (fun c => ?_) fun c e => ?_)
    · split
      · rfl
      · rfl
    split
    · rfl
    · rfl

theorem reorder_sound {map : List ViewRef} : Keeps Sound (reorder v map) := by
  refine Keeps.getV fun x d h hx => ends_bind (ends_assert (fun _ => ?_) fun _ => trivial)
  exact ends_setV (h.write_flags hx rfl)

theorem reorderCycle_sound {map : ViewMap} : Keeps Sound (reorderCycle token map) := by
  intro d h
  refine ends_modify (h.map_perceived (fun c => ?_) fun c e => ?_)
  · split
    · rfl
    · rfl
  split
  · rename_i hp
    exact (isPerm_iff.1 hp.2).mem_iff
  · rfl

/-- One operation keeps the pointers right, if it leaves no view of a destroyed actor behind. -/
theorem step_sound {op : Op} (hcounts : Counts (0 ≤ ·) d) (h : Sound d) (hc : LeavesNone d op) :
    Ends (step op) (fun _ d' => Sound d') (fun _ => True) d := by
  cases op with
  | block a rc delta => exact block_sound hcounts h hc
  | unblock a => exact unblock_sound d h
  | deferred a => exact deferredRound_sound d h
  | ack token => exact ack_sound hcounts h hc
  | reorder v map => exact reorder_sound d h
  | reorderCycle token map => exact reorderCycle_sound d h

/-- No count is too low after one operation. -/
theorem step_nonneg (op : Op) (hcounts : Counts (0 ≤ ·) d) (h : Sound d) :
    Ends (step op) (fun _ d' => Counts (0 ≤ ·) d') (fun _ => True) d := by
  refine step_acc bound_nonneg hcounts ?_
  cases op with
  | block a rc delta => exact fun _ v x _ _ => spare_nonneg
  | ack token =>
    intro per hl _ e he
    exact ⟨h.cycles.views (mem_perceived_of_lookup hl) he, fun _ _ => spare_nonneg⟩
  | _ => exact trivial

theorem sound_empty : Sound Detector.empty := by
  have hcell : ∀ v, cell Detector.empty.heap v = none := fun v => rfl
  refine ⟨⟨nodup_nil, fun hmem => ?_, fun hx _ => ?_, nodup_nil, fun {a v} => ?_,
    fun hx _ => ?_, fun hx => ?_, fun hx _ => ?_⟩, ⟨nodup_nil, fun hc => ?_, fun hc _ => ?_⟩⟩
  · cases hmem
  · cases (hcell _).symm.trans hx
  · constructor
    · intro hmem
      cases hmem
    · rintro ⟨x, hx, -⟩
      cases (hcell _).symm.trans hx
  · cases (hcell _).symm.trans hx
  · cases (hcell _).symm.trans hx
  · cases (hcell _).symm.trans hx
  · cases hc
  · cases hc

theorem Run.sound (h : Run LeavesNone d) : Counts (0 ≤ ·) d ∧ Sound d := by
  induction h with
  | start => exact ⟨counts_empty, sound_empty⟩
  | step op _ hc hs ih =>
    have hcounts := step_nonneg op ih.1 ih.2
    have hsound := step_sound ih.1 ih.2 hc
    rw [Ends, hs] at hcounts hsound
    exact ⟨hcounts, hsound⟩

theorem Sound.linked (hcounts : Counts (0 ≤ ·) d) (h : Sound d) : Linked d := by
  have halive : ∀ e ∈ d.views, cell d.heap e.2 ≠ none := by
    rintro ⟨a, v⟩ he
    obtain ⟨x, hx, -⟩ := h.links.valid he
    exact Option.ne_none_iff_exists'.2 ⟨x, hx⟩
  refine ⟨halive, ?_, fun c hc e he => halive e (h.cycles.views hc he),
    fun v x hx => hcounts.ref_alive hx, fun v => ?_, fun v x t hx => h.links.perceived hx⟩
  · rintro ⟨a, v⟩ he
    obtain ⟨x, hx, -, -⟩ := h.links.deferred.1 he
    exact Option.ne_none_iff_exists'.2 ⟨x, hx⟩
  constructor
  · intro hmem
    obtain ⟨⟨a, v⟩, he, rfl⟩ := mem_map.1 hmem
    obtain ⟨x, hx, -, hdef⟩ := h.links.deferred.1 he
    have hview := h.links.live hx (h.links.deferredBlocked hx hdef)
    exact ⟨mem_map.2 ⟨_, hview, rfl⟩, x, hx, hdef⟩
  · rintro ⟨-, x, hx, hdef⟩
    exact mem_map.2 ⟨_, h.links.deferred.2 ⟨x, hx, rfl, hdef⟩, rfl⟩

end

/-- **No view pointer dangles, and the maps agree with the flags**, in every run that leaves no view
of a destroyed actor behind blocked or in a cycle. -/
theorem linked_of_leaves_none {d : Detector} (h : Run LeavesNone d) : Linked d :=
  h.sound.2.linked h.sound.1

/-- A perceived cycle of two actors, while a third is reaped. -/
theorem linked_reaped : Run LeavesNone pairOnly ∧ Linked pairOnly := by
  have hreap : Run LeavesNone pairOnly := by
    refine run_pairOnly (fun _ _ _ _ hrc h => absurd h hrc) (fun _ _ => trivial)
      (fun _ _ => trivial) fun _ v x hv hx _ => ?_
    obtain rfl : 2 = v := Option.some.inj hv
    cases hx
    rfl
  exact ⟨hreap, linked_of_leaves_none hreap⟩

/-- **The views of a collected cycle stay behind**: two actors that refer to each other are
collected; each view is still counted by the other's reference, and still names the cycle. -/
theorem not_linked_collected : ¬ ∀ d, Run (fun _ _ => True) d → Linked d := by
  intro h
  have hrun : Run (fun _ _ => True)
      ⟨[some { newView 0 with rc := 1, blocked := true, map := [⟨1, 1⟩], perceived := some 0 },
        some { newView 1 with rc := 1, blocked := true, map := [⟨0, 1⟩], perceived := some 0 }],
        [], [], [], 1, [.conf 1 0, .conf 0 0, .destroy 1, .destroy 0]⟩ :=
    Run.start.steps [.block 0 1 [(1, 1)], .block 1 1 [(0, 1)], .deferred 0, .ack 0, .ack 0]
      (fun _ _ _ => trivial) (by decide +kernel)
  obtain ⟨per, hper, -⟩ := ((h _ hrun).perceived_iff 0 _ 0 rfl).1 rfl
  cases hper

end SpacePony.Cycle
