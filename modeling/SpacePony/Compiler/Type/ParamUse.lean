import SpacePony.Compiler.Type.Inline

/-!
# Compiler — the use of a parameter in an alias

What `typeparam_use_in_body` says of a parameter, against the complete unfolding of the body.  The
walk enters no alias inside of itself and does not look at the left of an arrow; the use is the
right one exactly where that makes no difference (`typeparamUse_exact_iff`).
-/

namespace SpacePony.Alias

open List

section
variable (prog : Program)

/-! ### Occurrences -/

/-- The parameter occurs in the complete unfolding of the type; the flag says whether it does so
below an argument of a nominal type. -/
inductive Occurs : Ty → Nat → Bool → Prop
  | param (i : Nat) : Occurs (.param i) i false
  | nominal (id : Nat) {args : List Ty} {t : Ty} {i : Nat} {below : Bool} (hmem : t ∈ args)
      (h : Occurs t i below) : Occurs (.nominal id args) i true
  | compound (kind : Compound) {ts : List Ty} {t : Ty} {i : Nat} {below : Bool} (hmem : t ∈ ts)
      (h : Occurs t i below) : Occurs (.compound kind ts) i below
  | left {left : Ty} (right : Ty) {i : Nat} {below : Bool} (h : Occurs left i below) :
      Occurs (.arrow left right) i below
  | right (left : Ty) {right : Ty} {i : Nat} {below : Bool} (h : Occurs right i below) :
      Occurs (.arrow left right) i below
  | unfold {name : Nat} {args : List Ty} {i : Nat} {below : Bool}
      (h : Occurs (unfoldOne prog name args) i below) : Occurs (.aliasref name args) i below

/-- The use is what the occurrences make it. -/
structure Exact (use : Use) (t : Ty) (i : Nat) : Prop where
  unused : use = .unused ↔ ∀ below, ¬ Occurs prog t i below
  nonConstructive : use = .nonConstructive ↔ Occurs prog t i false
  constructiveOnly : use = .constructiveOnly ↔ Occurs prog t i true ∧ ¬ Occurs prog t i false

/-! ### What the walk comes upon -/

/-- The walk comes upon the parameter.  No alias is entered inside of itself, and what is on the
left of an arrow is not looked at. -/
inductive Met : List Nat → Ty → Nat → Bool → Prop
  | param (visited : List Nat) (i : Nat) : Met visited (.param i) i false
  | nominal (id : Nat) {visited : List Nat} {args : List Ty} {t : Ty} {i : Nat} {below : Bool}
      (hmem : t ∈ args) (h : Met visited t i below) : Met visited (.nominal id args) i true
  | compound (kind : Compound) {visited : List Nat} {ts : List Ty} {t : Ty} {i : Nat} {below : Bool}
      (hmem : t ∈ ts) (h : Met visited t i below) : Met visited (.compound kind ts) i below
  | right (left : Ty) {visited : List Nat} {right : Ty} {i : Nat} {below : Bool}
      (h : Met visited right i below) : Met visited (.arrow left right) i below
  | arg {visited : List Nat} {name j i : Nat} {args : List Ty} {t : Ty} {below below' : Bool}
      (hnew : name ∉ visited) (harg : args[j]? = some t)
      (hbody : Met (name :: visited) (prog.body name) j below)
      (h : Met (name :: visited) t i below') : Met visited (.aliasref name args) i (below || below')

/-- The walk comes upon the parameter in an argument of an alias whose own parameter is bare, or
comes upon that one in such an argument. -/
inductive Handed : List Nat → Ty → Nat → Prop
  | nominal (id : Nat) {visited : List Nat} {args : List Ty} {t : Ty} {i : Nat}
      (hmem : t ∈ args) (h : Handed visited t i) : Handed visited (.nominal id args) i
  | compound (kind : Compound) {visited : List Nat} {ts : List Ty} {t : Ty} {i : Nat}
      (hmem : t ∈ ts) (h : Handed visited t i) : Handed visited (.compound kind ts) i
  | right (left : Ty) {visited : List Nat} {right : Ty} {i : Nat} (h : Handed visited right i) :
      Handed visited (.arrow left right) i
  | bare {visited : List Nat} {name j i : Nat} {args : List Ty} {t : Ty} {below : Bool}
      (hnew : name ∉ visited) (harg : args[j]? = some t)
      (hbody : Met prog (name :: visited) (prog.body name) j false)
      (h : Met prog (name :: visited) t i below) : Handed visited (.aliasref name args) i
  | handed {visited : List Nat} {name j i : Nat} {args : List Ty} {t : Ty} {below : Bool}
      (hnew : name ∉ visited) (harg : args[j]? = some t)
      (hbody : Handed (name :: visited) (prog.body name) j)
      (h : Met prog (name :: visited) t i below) : Handed visited (.aliasref name args) i
  | arg {visited : List Nat} {name j i : Nat} {args : List Ty} {t : Ty} {below : Bool}
      (hnew : name ∉ visited) (harg : args[j]? = some t)
      (hbody : Met prog (name :: visited) (prog.body name) j below)
      (h : Handed (name :: visited) t i) : Handed visited (.aliasref name args) i

/-- The walk misses nothing that matters, and what it takes to be bare is so. -/
structure Readable (t : Ty) (i : Nat) : Prop where
  /-- Where the parameter occurs, it does so where the walk comes. -/
  met : ∀ below, Occurs prog t i below → ∃ below, Met prog [] t i below
  bare : Occurs prog t i false → Met prog [] t i false ∨ Handed prog [] t i
  handed : Handed prog [] t i → Occurs prog t i false

variable {prog}

/-! ### The walk meets only what occurs -/

theorem Ty.reify_reify (ts args : List Ty) (t : Ty) :
    (t.reify ts).reify args = t.reify (ts.map (Ty.reify args)) := by
  induction t using Ty.ind with
  | nominal id us ih =>
    simp only [Ty.reify, Ty.reifyAll_eq_map, map_map]
    exact congrArg _ (map_congr_left ih)
  | aliasref name us ih =>
    simp only [Ty.reify_aliasref, map_map]
    exact congrArg _ (map_congr_left ih)
  | param i =>
    simp only [Ty.reify, getElem?_map]
    cases ts[i]? <;> rfl
  | compound kind us ih =>
    simp only [Ty.reify_compound, map_map]
    exact congrArg _ (map_congr_left ih)
  | arrow left right ihl ihr => simp only [Ty.reify, ihl, ihr]
  | leaf => rfl

variable {t : Ty} {i name : Nat} {below : Bool} {args ts : List Ty}

/-- What occurs in an argument occurs where the parameter did. -/
theorem Occurs.reify {a : Ty} {j : Nat} {below' : Bool} (h : Occurs prog t j below)
    (harg : args[j]? = some a) (ha : Occurs prog a i below') :
    Occurs prog (t.reify args) i (below || below') := by
  induction h with
  | param =>
    rw [Ty.reify, harg]
    exact ha
  | nominal id hmem _ ih =>
    rw [Ty.reify, Ty.reifyAll_eq_map]
    exact .nominal id (mem_map_of_mem hmem) (ih harg)
  | compound kind hmem _ ih =>
    rw [Ty.reify_compound]
    exact .compound kind (mem_map_of_mem hmem) (ih harg)
  | left right _ ih => exact .left _ (ih harg)
  | right left _ ih => exact .right _ (ih harg)
  | unfold _ ih =>
    rw [Ty.reify_aliasref]
    refine .unfold ?_
    have h := ih harg
    rwa [unfoldOne, Ty.reify_reify] at h

theorem Met.occurs {visited : List Nat} (h : Met prog visited t i below) :
    Occurs prog t i below := by
  induction h with
  | param _ i => exact .param i
  | nominal id hmem _ ih => exact .nominal id hmem ih
  | compound kind hmem _ ih => exact .compound kind hmem ih
  | right left _ ih => exact .right left ih
  | arg _ harg _ _ ihbody ih => exact .unfold (ihbody.reify harg ih)

/-! ### What the walk tells -/

variable {enter : List Nat → Nat → Nat → Use} {index : Nat} {visited : List Nat} {c : Bool}

/-- The use that an argument contributes, by the use of its parameter. -/
def useInArg (enter : List Nat → Nat → Nat → Use) (index : Nat) (visited : List Nat) (c : Bool)
    (name i : Nat) (t : Ty) : Use :=
  match enter visited name i with
  | .unused => .unused
  | .constructiveOnly => useIn enter index visited true t
  | .nonConstructive =>
    if useIn enter index visited c t = .unused then .unused else .nonConstructive

theorem useInArgs_cons (name i : Nat) (t : Ty) (ts : List Ty) :
    useInArgs enter index visited c name i (t :: ts) =
      (useInArg enter index visited c name i t).join
        (useInArgs enter index visited c name (i + 1) ts) := by
  have hunused : ∀ u : Use, Use.join .unused u = u := fun u => by cases u <;> rfl
  have hbare : ∀ u : Use, Use.join .nonConstructive u = .nonConstructive := fun u => by
    cases u <;> rfl
  rw [useInArgs, useInArg]
  cases enter visited name i with
  | unused => exact (hunused _).symm
  | constructiveOnly => rfl
  | nonConstructive =>
    dsimp only
    split
    · exact (hunused _).symm
    · exact (hbare _).symm

theorem useInArgs_eq_unused : useInArgs enter index visited c name i ts = .unused ↔
      ∀ k t, ts[k]? = some t → useInArg enter index visited c name (i + k) t = .unused := by
  induction ts generalizing i with
  | nil => simp [useInArgs]
  | cons t ts ih =>
    rw [useInArgs_cons, Use.join_eq_unused, ih]
    constructor
    · rintro ⟨ht, hts⟩ k u hk
      cases k with
      | zero =>
        cases hk
        exact ht
      | succ k =>
        have hu := hts k u hk
        rwa [Nat.add_right_comm] at hu
    · intro h
      exact ⟨h 0 t rfl, fun k u hk => Nat.add_right_comm i k 1 ▸ h (k + 1) u hk⟩

theorem useInArgs_eq_nonConstructive :
    useInArgs enter index visited c name i ts = .nonConstructive ↔
      ∃ k t, ts[k]? = some t ∧
        useInArg enter index visited c name (i + k) t = .nonConstructive := by
  induction ts generalizing i with
  | nil => simp [useInArgs]
  | cons t ts ih =>
    rw [useInArgs_cons, Use.join_eq_nonConstructive, ih]
    constructor
    · rintro (ht | ⟨k, u, hk, hu⟩)
      · exact ⟨0, t, rfl, ht⟩
      · exact ⟨k + 1, u, hk, Nat.add_right_comm i k 1 ▸ hu⟩
    rintro ⟨k, u, hk, hu⟩
    cases k with
    | zero =>
      cases hk
      exact .inl hu
    | succ k => exact .inr ⟨k, u, hk, Nat.add_right_comm i k 1 ▸ hu⟩

/-- What a use tells of the parameter, where the walk is. -/
structure Tells (prog : Program) (use : Use) (visited : List Nat) (c : Bool) (t : Ty) (i : Nat) :
    Prop where
  unused : use = .unused ↔ ∀ below, ¬ Met prog visited t i below
  bare : use = .nonConstructive ↔
    c = false ∧ Met prog visited t i false ∨ Handed prog visited t i

theorem tells_param (j : Nat) :
    Tells prog (useIn enter index visited c (.param j)) visited c (.param j) index := by
  by_cases hj : j = index
  · subst hj
    have hmet : Met prog visited (.param j) j false := .param visited j
    have hhanded : ¬ Handed prog visited (.param j) j := nofun
    cases c with
    | false =>
      refine ⟨?_, ?_⟩
      · simp only [useIn, if_true]
        exact ⟨nofun, fun h => absurd hmet (h false)⟩
      · simp [useIn, hmet]
    | true =>
      refine ⟨?_, ?_⟩
      · simp only [useIn, if_true]
        exact ⟨nofun, fun h => absurd hmet (h false)⟩
      · simp [useIn, hhanded]
  have hmet : ∀ below, ¬ Met prog visited (.param j) index below := by
    intro below h
    cases h
    exact hj rfl
  have hhanded : ¬ Handed prog visited (.param j) index := nofun
  refine ⟨?_, ?_⟩
  · simp [useIn, hj, hmet]
  · simp [useIn, hj, hmet, hhanded]

theorem tells_leaf : Tells prog .unused visited c .leaf i := by
  refine ⟨⟨fun _ _ => nofun, fun _ => rfl⟩, ⟨nofun, ?_⟩⟩
  rintro (⟨-, h⟩ | h)
  · cases h
  · cases h

theorem tells_nominal (id : Nat)
    (h : ∀ t ∈ args, Tells prog (useIn enter index visited true t) visited true t index) :
    Tells prog (useIn enter index visited c (.nominal id args)) visited c (.nominal id args)
      index := by
  rw [useIn]
  refine ⟨?_, ?_⟩
  · rw [useInAll_eq_unused]
    constructor
    · intro hall below hmet
      cases hmet with
      | nominal _ hmem hmet => exact ((h _ hmem).unused.1 (hall _ hmem)) _ hmet
    · exact fun hnone t ht => (h t ht).unused.2 fun below hmet => hnone true (.nominal id ht hmet)
  rw [useInAll_eq_nonConstructive]
  constructor
  · rintro ⟨t, ht, hbare⟩
    rcases (h t ht).bare.1 hbare with ⟨hc, -⟩ | hhanded
    · cases hc
    · exact .inr (.nominal id ht hhanded)
  rintro (⟨-, hmet⟩ | hhanded)
  · cases hmet
  · cases hhanded with
    | nominal _ hmem hhanded => exact ⟨_, hmem, (h _ hmem).bare.2 (.inr hhanded)⟩

theorem tells_compound (kind : Compound)
    (h : ∀ t ∈ ts, Tells prog (useIn enter index visited c t) visited c t index) :
    Tells prog (useIn enter index visited c (.compound kind ts)) visited c (.compound kind ts)
      index := by
  rw [useIn]
  refine ⟨?_, ?_⟩
  · rw [useInAll_eq_unused]
    constructor
    · intro hall below hmet
      cases hmet with
      | compound _ hmem hmet => exact ((h _ hmem).unused.1 (hall _ hmem)) _ hmet
    · exact fun hnone t ht => (h t ht).unused.2 fun below hmet =>
        hnone below (.compound kind ht hmet)
  rw [useInAll_eq_nonConstructive]
  constructor
  · rintro ⟨t, ht, hbare⟩
    rcases (h t ht).bare.1 hbare with ⟨hc, hmet⟩ | hhanded
    · exact .inl ⟨hc, .compound kind ht hmet⟩
    · exact .inr (.compound kind ht hhanded)
  rintro (⟨hc, hmet⟩ | hhanded)
  · cases hmet with
    | compound _ hmem hmet => exact ⟨_, hmem, (h _ hmem).bare.2 (.inl ⟨hc, hmet⟩)⟩
  · cases hhanded with
    | compound _ hmem hhanded => exact ⟨_, hmem, (h _ hmem).bare.2 (.inr hhanded)⟩

theorem tells_arrow (left : Ty) {right : Ty}
    (h : Tells prog (useIn enter index visited c right) visited c right index) :
    Tells prog (useIn enter index visited c (.arrow left right)) visited c (.arrow left right)
      index := by
  rw [useIn]
  refine ⟨h.unused.trans ?_, h.bare.trans ?_⟩
  · constructor
    · intro hnone below hmet
      cases hmet with
      | right _ hmet => exact hnone below hmet
    · exact fun hnone below hmet => hnone below (.right left hmet)
  constructor
  · exact Or.imp (And.imp_right (.right left)) (.right left)
  rintro (⟨hc, hmet⟩ | hhanded)
  · cases hmet with
    | right _ hmet => exact .inl ⟨hc, hmet⟩
  · cases hhanded with
    | right _ hhanded => exact .inr hhanded

/-- The parameter is met where it is used. -/
theorem Tells.met {use : Use} (h : Tells prog use visited c t i) (huse : use ≠ .unused) :
    ∃ below, Met prog visited t i below := by
  by_contra hnone
  exact huse (h.unused.2 (not_exists.1 hnone))

theorem Tells.ne_unused {use : Use} (h : Tells prog use visited c t i)
    (hmet : Met prog visited t i below) : use ≠ .unused :=
  fun huse => h.unused.1 huse below hmet

section
variable {j : Nat} (hbody : Tells prog (enter visited name j) visited false (prog.body name) j)
  (ht : ∀ c, Tells prog (useIn enter index visited c t) visited c t index)
include hbody ht

/-- An argument contributes what is met in it, where the alias uses the parameter. -/
theorem useInArg_ne_unused :
    useInArg enter index visited c name j t ≠ .unused ↔
      (∃ below, Met prog visited (prog.body name) j below) ∧
        ∃ below, Met prog visited t index below := by
  have hused : useInArg enter index visited c name j t ≠ .unused ↔
      enter visited name j ≠ .unused ∧ ∃ below, Met prog visited t index below := by
    rw [useInArg]
    cases huse : enter visited name j with
    | unused => exact ⟨fun h => absurd rfl h, fun h => absurd rfl h.1⟩
    | constructiveOnly =>
      exact ⟨fun h => ⟨nofun, (ht true).met h⟩, fun h => h.2.elim fun _ => (ht true).ne_unused⟩
    | nonConstructive =>
      dsimp only
      split
      · rename_i hunused
        exact ⟨fun h => absurd rfl h, fun h => absurd hunused (h.2.elim fun _ => (ht c).ne_unused)⟩
      · rename_i hne
        exact ⟨fun _ => ⟨nofun, (ht c).met hne⟩, fun _ => nofun⟩
  rw [hused]
  exact and_congr_left' ⟨hbody.met, fun h => h.elim fun _ => hbody.ne_unused⟩

/-- It contributes it as bare where the alias uses the parameter so. -/
theorem useInArg_eq_nonConstructive :
    useInArg enter index visited c name j t = .nonConstructive ↔
      (Met prog visited (prog.body name) j false ∨ Handed prog visited (prog.body name) j) ∧
          (∃ below, Met prog visited t index below) ∨
        (∃ below, Met prog visited (prog.body name) j below) ∧ Handed prog visited t index := by
  have hbare : enter visited name j = .nonConstructive ↔
      Met prog visited (prog.body name) j false ∨ Handed prog visited (prog.body name) j := by
    simpa using hbody.bare
  rw [← hbare]
  rw [useInArg]
  cases huse : enter visited name j with
  | unused =>
    refine ⟨nofun, ?_⟩
    rintro (⟨h, -⟩ | ⟨⟨below, h⟩, -⟩)
    · cases h
    · exact absurd h (hbody.unused.1 huse below)
  | constructiveOnly =>
    have hmet := hbody.met (by rw [huse]; nofun)
    dsimp only
    rw [(ht true).bare]
    simp [hmet]
  | nonConstructive =>
    have hmet := hbody.met (by rw [huse]; nofun)
    dsimp only
    split
    · rename_i hunused
      refine ⟨nofun, ?_⟩
      rintro (⟨-, below, h⟩ | ⟨-, h⟩)
      · exact absurd h ((ht c).unused.1 hunused below)
      · rw [(ht c).bare.2 (.inr h)] at hunused
        cases hunused
    · rename_i hne
      exact ⟨fun _ => .inl ⟨rfl, (ht c).met hne⟩, fun _ => rfl⟩

end

theorem tells_aliasref (hbody : ∀ j, name ∉ visited →
      Tells prog (enter (name :: visited) name j) (name :: visited) false (prog.body name) j)
    (hargs : ∀ t ∈ args, name ∉ visited → ∀ c,
      Tells prog (useIn enter index (name :: visited) c t) (name :: visited) c t index) :
    Tells prog (useIn enter index visited c (.aliasref name args)) visited c (.aliasref name args)
      index := by
  rw [useIn]
  by_cases hnew : name ∈ visited
  · have hmet : ∀ below, ¬ Met prog visited (.aliasref name args) index below := by
      intro below h
      cases h
      contradiction
    have hhanded : ¬ Handed prog visited (.aliasref name args) index := by
      intro h
      cases h <;> contradiction
    rw [if_pos hnew]
    exact ⟨⟨fun _ => hmet, fun _ => rfl⟩, ⟨nofun, fun h => h.elim (fun h => absurd h.2 (hmet false))
      fun h => absurd h hhanded⟩⟩
  rw [if_neg hnew]
  have htells := fun (k : Nat) (t : Ty) (hk : args[k]? = some t) =>
    hargs t (mem_of_getElem? hk) hnew
  refine ⟨?_, ?_⟩
  · rw [useInArgs_eq_unused]
    constructor
    · intro hall below hmet
      cases hmet with
      | @arg _ _ k _ _ _ _ _ _ hk hbody' hmet =>
        have hunused := hall k _ hk
        rw [Nat.zero_add] at hunused
        exact (useInArg_ne_unused (hbody k hnew) (htells k _ hk)).2 ⟨⟨_, hbody'⟩, _, hmet⟩
          hunused
    intro hnone k t hk
    by_contra h
    rw [Nat.zero_add] at h
    obtain ⟨⟨b, hb⟩, b', hb'⟩ := (useInArg_ne_unused (hbody k hnew) (htells k t hk)).1 h
    exact hnone _ (.arg hnew hk hb hb')
  rw [useInArgs_eq_nonConstructive]
  constructor
  · rintro ⟨k, t, hk, h⟩
    rw [Nat.zero_add] at h
    rcases (useInArg_eq_nonConstructive (hbody k hnew) (htells k t hk)).1 h with
      ⟨hb | hb, b', hb'⟩ | ⟨⟨b, hb⟩, hh⟩
    · exact .inr (.bare hnew hk hb hb')
    · exact .inr (.handed hnew hk hb hb')
    · exact .inr (.arg hnew hk hb hh)
  have hstep : ∀ (k : Nat) (t : Ty), args[k]? = some t →
      ((Met prog (name :: visited) (prog.body name) k false ∨
          Handed prog (name :: visited) (prog.body name) k) ∧
          (∃ below, Met prog (name :: visited) t index below) ∨
        (∃ below, Met prog (name :: visited) (prog.body name) k below) ∧
          Handed prog (name :: visited) t index) →
      ∃ k t, args[k]? = some t ∧
        useInArg enter index (name :: visited) c name (0 + k) t = .nonConstructive := by
    intro k t hk h
    refine ⟨k, t, hk, ?_⟩
    rw [Nat.zero_add]
    exact (useInArg_eq_nonConstructive (hbody k hnew) (htells k t hk)).2 h
  rintro (⟨-, hmet⟩ | hhanded)
  · generalize hb : false = b at hmet
    cases hmet with
    | @arg _ _ _ _ _ _ b b' _ hk hbody' hmet =>
      rw [eq_comm, Bool.or_eq_false_iff] at hb
      obtain ⟨rfl, rfl⟩ := hb
      exact hstep _ _ hk (.inl ⟨.inl hbody', _, hmet⟩)
  cases hhanded with
  | bare _ hk hbody' hmet => exact hstep _ _ hk (.inl ⟨.inl hbody', _, hmet⟩)
  | handed _ hk hbody' hmet => exact hstep _ _ hk (.inl ⟨.inr hbody', _, hmet⟩)
  | arg _ hk hbody' hhanded => exact hstep _ _ hk (.inr ⟨⟨_, hbody'⟩, hhanded⟩)

/-! ### All types -/

/-- The walk enters fewer and fewer definitions. -/
theorem tells_useIn {n : Nat} (henter : ∀ visited name j,
      (Finset.range prog.length \ visited.toFinset).card < n ∨ prog.length ≤ name →
        Tells prog (enter visited name j) visited false (prog.body name) j)
    (t : Ty) (hn : (Finset.range prog.length \ visited.toFinset).card ≤ n) :
    Tells prog (useIn enter index visited c t) visited c t index := by
  induction t using Ty.ind generalizing visited c with
  | param j => exact tells_param j
  | nominal id args ih => exact tells_nominal id fun t ht => ih t ht hn
  | compound kind ts ih => exact tells_compound kind fun t ht => ih t ht hn
  | arrow left right _ ih => exact tells_arrow left (ih hn)
  | leaf => exact tells_leaf
  | aliasref name args ih =>
    have hless : name ∉ visited → name < prog.length →
        (Finset.range prog.length \ (name :: visited).toFinset).card < n :=
      fun hnew hname => (unvisited_lt prog hname hnew).trans_le hn
    have hle : name ∉ visited →
        (Finset.range prog.length \ (name :: visited).toFinset).card ≤ n := by
      intro _
      refine (Finset.card_le_card (Finset.sdiff_subset_sdiff subset_rfl ?_)).trans hn
      intro x hx
      simp only [toFinset_cons, Finset.mem_insert]
      exact .inr hx
    refine tells_aliasref (fun j hnew => henter _ name j ?_) fun t ht hnew c => ih t ht (hle hnew)
    rcases Nat.lt_or_ge name prog.length with hname | hname
    · exact .inl (hless hnew hname)
    · exact .inr hname

theorem tells_typeparamUse (n : Nat) (visited : List Nat) (name j : Nat)
    (hn : (Finset.range prog.length \ visited.toFinset).card < n ∨ prog.length ≤ name) :
    Tells prog (typeparamUse prog n visited name j) visited false (prog.body name) j := by
  have hleaf : prog.length ≤ name → prog.body name = .leaf := by
    intro hname
    rw [Program.body, getElem?_eq_none hname]
    rfl
  induction n generalizing visited name j with
  | zero =>
    rw [hleaf (hn.resolve_left (Nat.not_lt_zero _))]
    exact tells_leaf
  | succ n ih =>
    rw [typeparamUse]
    rcases hn with hn | hname
    · exact tells_useIn (fun w name j hw => ih w name j hw fun hname => by
        rw [Program.body, getElem?_eq_none hname]
        rfl) _ (Nat.le_of_lt_succ hn)
    · rw [hleaf hname]
      exact tells_leaf

/-- What the walk through a body tells is what it meets there. -/
theorem tells_useOf (name i : Nat) :
    Tells prog (useOf prog name i) [] false (prog.body name) i := by
  refine tells_typeparamUse _ [] name i (.inl ?_)
  simp

end

/-! ### The use is exact -/

/-- **The use of a parameter is exact where what the walk meets makes no difference.** -/
theorem typeparamUse_exact_iff (prog : Program) (name i : Nat) :
    Exact prog (useOf prog name i) (prog.body name) i ↔ Readable prog (prog.body name) i := by
  have T : Tells prog _ _ _ _ _ := tells_useOf name i
  have hbare : useOf prog name i = .nonConstructive ↔
      Met prog [] (prog.body name) i false ∨ Handed prog [] (prog.body name) i := by
    simpa using T.bare
  constructor
  · intro E
    refine ⟨fun below h => ?_, fun h => hbare.1 (E.nonConstructive.2 h),
      fun h => E.nonConstructive.1 (hbare.2 (.inr h))⟩
    exact T.met fun hunused => E.unused.1 hunused below h
  intro R
  have hunused : useOf prog name i = .unused ↔
      ∀ below, ¬ Occurs prog (prog.body name) i below := by
    constructor
    · intro h below hocc
      obtain ⟨b, hb⟩ := R.met below hocc
      exact T.unused.1 h b hb
    · exact fun h => T.unused.2 fun below hmet => h below hmet.occurs
  have hnon : useOf prog name i = .nonConstructive ↔ Occurs prog (prog.body name) i false := by
    rw [hbare]
    exact ⟨fun h => h.elim Met.occurs R.handed, R.bare⟩
  refine ⟨hunused, hnon, ?_⟩
  constructor
  · intro h
    have hnot : ¬ Occurs prog (prog.body name) i false := fun hocc => by
      rw [hnon.2 hocc] at h
      cases h
    obtain ⟨b, hb⟩ := T.met (by rw [h]; nofun)
    cases b with
    | false => exact absurd hb.occurs hnot
    | true => exact ⟨hb.occurs, hnot⟩
  rintro ⟨hocc, hnot⟩
  cases huse : useOf prog name i with
  | unused => exact absurd hocc (hunused.1 huse true)
  | constructiveOnly => rfl
  | nonConstructive => exact absurd (hnon.1 huse) hnot

/-- `type Opt[T] is (T | None)`, `type Twice[T] is Opt[Opt[T]]`, `type Many[T] is Array[Opt[T]]` and
`type Seen[T] is T->None`. -/
def nestedAliases : Program :=
  [.compound .union [.param 0, .nominal 0 []], .aliasref 0 [.aliasref 0 [.param 0]],
    .nominal 1 [.aliasref 0 [.param 0]], .arrow (.param 0) (.nominal 0 [])]

/-- **The use is not exact for aliases that the pass accepts**: an alias inside of itself hides its
argument, a bare parameter makes bare what is below a nominal type, and the left side of an arrow is
not looked at. -/
theorem nestedAliases_not_exact : passTypealiasRecursion nestedAliases = true ∧
    (useOf nestedAliases 1 0 = .unused ∧ Occurs nestedAliases (nestedAliases.body 1) 0 false) ∧
    (useOf nestedAliases 2 0 = .nonConstructive ∧
      ¬ Occurs nestedAliases (nestedAliases.body 2) 0 false) ∧
    (useOf nestedAliases 3 0 = .unused ∧ Occurs nestedAliases (nestedAliases.body 3) 0 false) ∧
    ∀ name ∈ [1, 2, 3],
      ¬ Exact nestedAliases (useOf nestedAliases name 0) (nestedAliases.body name) 0 := by
  have hone : Occurs nestedAliases (nestedAliases.body 1) 0 false :=
    .unfold (.compound .union mem_cons_self (.unfold (.compound .union mem_cons_self (.param 0))))
  have htwo : ¬ Occurs nestedAliases (nestedAliases.body 2) 0 false := nofun
  have hthree : Occurs nestedAliases (nestedAliases.body 3) 0 false := .left _ (.param 0)
  have hunused : useOf nestedAliases 1 0 = .unused := by decide
  have hbare : useOf nestedAliases 2 0 = .nonConstructive := by decide
  have harrow : useOf nestedAliases 3 0 = .unused := by decide
  refine ⟨by decide, ⟨hunused, hone⟩, ⟨hbare, htwo⟩, ⟨harrow, hthree⟩, fun name hname E => ?_⟩
  simp only [mem_cons, not_mem_nil, or_false] at hname
  rcases hname with rfl | rfl | rfl
  · exact E.unused.1 hunused _ hone
  · exact htwo (E.nonConstructive.1 hbare)
  · exact E.unused.1 harrow _ hthree

end SpacePony.Alias
