import SpacePony.Packages.Iregex.Exec

/-!
# Packages — iregex — the builder

The automaton that is built for an expression accepts its language.  A fragment is described by what
it will be once its outputs lead to a state `t`: in every automaton that has the states of the
fragment, with the outputs patched, it is a part from its start to `t` that matches the language
(`Built`).  So neither the states that come later nor those before matter.

* `binarySearch_iff`: the search finds the code points of ranges that are sorted.
* `Built`, `Built.seq`, `Built.opt`, `Built.plus`, `Built.star`: fragments, and how they compose.
* `buildNode_spec`: what `build_node` builds.
* `build_accepts`: the automaton accepts the language of the expression.
-/

namespace SpacePony.Iregex

open Option List Automata NFABuildCtx

/-! ### Ranges -/

variable {ranges : List (Nat × Nat)}

theorem sortedRanges_lt (hs : SortedRanges ranges) {i j : Nat} {a b : Nat × Nat}
    (hi : ranges[i]? = some a) (hj : ranges[j]? = some b) (hij : i < j) : a.2 < b.1 := by
  obtain ⟨hi', rfl⟩ := List.getElem?_eq_some_iff.1 hi
  obtain ⟨hj', rfl⟩ := List.getElem?_eq_some_iff.1 hj
  exact List.pairwise_iff_getElem.1 hs.1 i j hi' hj' hij

/-- The loop finds a range of the interval that the code point is in. -/
theorem searchLoop_iff (hs : SortedRanges ranges) {cp : Nat} {rounds lo hi : Nat}
    (hr : hi - lo ≤ rounds) (hhi : hi ≤ ranges.length) : searchLoop cp ranges rounds lo hi = true ↔
      ∃ j r, lo ≤ j ∧ j < hi ∧ ranges[j]? = some r ∧ r.1 ≤ cp ∧ cp ≤ r.2 := by
  induction rounds generalizing lo hi with
  | zero =>
    refine ⟨Bool.noConfusion, fun ⟨j, r, h₁, h₂, _⟩ => ?_⟩
    omega
  | succ rounds ih =>
    rw [searchLoop]
    by_cases hlt : lo < hi
    · have hmid : (lo + hi) / 2 < ranges.length := by omega
      have hm := getElem?_eq_getElem hmid
      have hle := hs.2 _ (getElem_mem hmid)
      generalize ranges[(lo + hi) / 2] = r at hm hle
      obtain ⟨start, endCp⟩ := r
      rw [if_pos hlt]
      simp only [hm] at hle ⊢
      by_cases hleft : cp < start
      · rw [if_pos hleft, ih (by omega) (by omega)]
        refine ⟨fun ⟨j, r, h₁, h₂, h⟩ => ⟨j, r, h₁, by omega, h⟩, fun ⟨j, r, h₁, h₂, hj, h⟩ => ?_⟩
        refine ⟨j, r, h₁, ?_, hj, h⟩
        -- a range that is not to the left begins after the code point
        by_contra hge
        obtain heq | hgt := Nat.eq_or_lt_of_not_lt hge
        · rw [heq, hm] at hj
          cases hj
          omega
        have := sortedRanges_lt hs hm hj hgt
        omega
      rw [if_neg hleft]
      by_cases hright : cp > endCp
      · rw [if_pos hright, ih (by omega) hhi]
        refine ⟨fun ⟨j, r, h₁, h₂, h⟩ => ⟨j, r, by omega, h₂, h⟩, fun ⟨j, r, h₁, h₂, hj, h⟩ => ?_⟩
        refine ⟨j, r, ?_, h₂, hj, h⟩
        by_contra hge
        obtain heq | hgt := Nat.eq_or_lt_of_not_lt hge
        · have : j = (lo + hi) / 2 := by omega
          rw [this, hm] at hj
          cases hj
          omega
        · have := sortedRanges_lt hs hj hm (by omega)
          omega
      · rw [if_neg hright]
        exact ⟨fun _ => ⟨_, _, by omega, by omega, hm, by simp only; omega, by simp only; omega⟩,
          fun _ => rfl⟩
    · rw [if_neg hlt]
      refine ⟨Bool.noConfusion, fun ⟨j, r, h₁, h₂, _⟩ => ?_⟩
      omega

/-- Over sorted ranges the binary search answers membership. -/
theorem binarySearch_iff (hs : SortedRanges ranges) (cp : Nat) :
    binarySearch cp ranges = true ↔ InRanges ranges cp := by
  rw [binarySearch, searchLoop_iff hs (by omega) (le_refl _)]
  constructor
  · rintro ⟨j, r, -, -, hj, h⟩
    exact ⟨r, mem_of_getElem? hj, h⟩
  rintro ⟨r, hr, h⟩
  obtain ⟨j, hj⟩ := getElem?_of_mem hr
  obtain ⟨hlt, -⟩ := List.getElem?_eq_some_iff.1 hj
  exact ⟨j, r, Nat.zero_le j, hlt, hj, h⟩

theorem rangeMatches_iff (hs : SortedRanges ranges) (cp : Nat) (negated : Bool) :
    rangeMatches cp ranges negated = true ↔ (InRanges ranges cp ↔ negated = false) := by
  have h := binarySearch_iff hs cp
  cases negated with
  | false => simpa [rangeMatches] using h
  | true => simp [rangeMatches, ← h]

/-! ### Patching -/

/-- The state number `i` with its outputs among `outs` leading to `t`. -/
def State.patched (s : State) (outs : List (Nat × Bool)) (i t : Nat) : State :=
  { s with
    out1 := if (i, false) ∈ outs then t else s.out1
    out2 := if (i, true) ∈ outs then t else s.out2 }

section
variable {c : NFABuildCtx} {outs : List (Nat × Bool)} {i t : Nat} {s : State}

theorem getElem?_patchOne (o : Nat × Bool) :
    (patchOne t c o)[i]? = (c)[i]?.map fun s => s.patched [o] i t := by
  obtain ⟨j, b⟩ := o
  rw [patchOne, getElem?_modify]
  simp only [State.patched, mem_singleton, Prod.mk.injEq]
  by_cases hj : j = i
  · subst hj
    cases b <;> simp
  · have hj' : ¬ i = j := fun h => hj h.symm
    cases (c)[i]? <;> simp [hj, hj']

theorem getElem?_patch : (c.patch outs t)[i]? = (c)[i]?.map fun s => s.patched outs i t := by
  induction outs generalizing c with
  | nil =>
    rw [patch, foldl_nil]
    cases (c)[i]? <;> simp [State.patched]
  | cons o outs ih =>
    rw [patch, foldl_cons, ← patch, ih, getElem?_patchOne, Option.map_map]
    congr 1
    funext s
    simp only [Function.comp_apply, State.patched, mem_cons, not_mem_nil, or_false]
    grind

theorem length_patch : (c.patch outs t).length = c.length := by
  induction outs generalizing c with
  | nil => rfl
  | cons o outs ih => rw [patch, foldl_cons, ← patch, ih, patchOne, length_modify]

/-- A state none of whose outputs are patched. -/
theorem patched_of_notMem (h : ∀ o ∈ outs, o.1 ≠ i) : s.patched outs i t = s := by
  have h₁ : (i, false) ∉ outs := fun hm => h _ hm rfl
  have h₂ : (i, true) ∉ outs := fun hm => h _ hm rfl
  rw [State.patched, if_neg h₁, if_neg h₂]

theorem getElem?_patch_of_notMem (h : ∀ o ∈ outs, o.1 ≠ i) : (c.patch outs t)[i]? = (c)[i]? := by
  rw [getElem?_patch]
  cases (c)[i]? with
  | none => rfl
  | some s => rw [map_some, patched_of_notMem h]

end

/-! ### The automaton of a list of states -/

/-- The steps of the states. -/
def machine (N : List State) : Machine Nat Nat where
  eps s s' := ∃ st, N[s]? = some st ∧ st.kind = .split ∧ (s' = st.out1 ∨ s' = st.out2)
  read s a s' := ∃ st, N[s]? = some st ∧ st.matchesChar a = true ∧ s' = st.out1
  final s := ∃ st, N[s]? = some st ∧ st.kind = .accept

section
variable {N : List State} {s : Nat} {st : State}

theorem isSplit_of_getElem? (h : N[s]? = some st) (hk : st.kind = .split) :
    IsSplit (machine N) s st.out1 st.out2 where
  eps s' := by
    refine ⟨fun ⟨st', h', _, ho⟩ => ?_, fun ho => ⟨st, h, hk, ho⟩⟩
    rw [h] at h'
    cases h'
    exact ho
  read a s' := by
    rintro ⟨st', h', hm, -⟩
    rw [h] at h'
    cases h'
    simp [State.matchesChar, hk] at hm
  final := by
    rintro ⟨st', h', hk'⟩
    rw [h] at h'
    cases h'
    rw [hk] at hk'
    cases hk'

theorem isReader_of_getElem? (h : N[s]? = some st) (hk : st.kind = .charRange ∨ st.kind = .dot) :
    IsReader (machine N) s (fun a => st.matchesChar a = true) st.out1 where
  eps s' := by
    rintro ⟨st', h', hk', -⟩
    rw [h] at h'
    cases h'
    rw [hk'] at hk
    simp at hk
  read a s' := by
    refine ⟨fun ⟨st', h', hm, ho⟩ => ?_, fun ⟨hm, ho⟩ => ⟨st, h, hm, ho⟩⟩
    rw [h] at h'
    cases h'
    exact ⟨hm, ho⟩
  final := by
    rintro ⟨st', h', hk'⟩
    rw [h] at h'
    cases h'
    rw [hk'] at hk
    simp at hk

end

/-! ### Fragments -/

/-- The states of `c'` after those of `c` are a fragment for the language: in every automaton that
has them, with the outputs leading to `t`, they are a part from the start to `t`. -/
structure Built (c c' : NFABuildCtx) (f : NFAFragment) (L : Language Nat) : Prop where
  keep : ∀ i, i < c.length → c'[i]? = (c)[i]?
  grow : c.length < c'.length
  outs : ∀ o ∈ f.outs, c.length ≤ o.1 ∧ o.1 < c'.length
  part : ∀ (N : List State) (t : Nat),
    (∀ i, c.length ≤ i → i < c'.length → N[i]? = (c'.patch f.outs t)[i]?) →
      Part (machine N) L f.start t

/-- The builder builds fragments for the language, and only while there are not too many states. -/
def Builds (b : Builder) (L : Language Nat) : Prop :=
  ∀ c f c', b c = some (f, c') → c.length ≤ maxStates ∧ Built c c' f L

section
variable {c c₁ c₂ : NFABuildCtx} {f f₁ f₂ : NFAFragment} {L L₁ L₂ : Language Nat}

theorem getElem?_addSplit_lt {o1 o2 i : Nat} (hi : i < c.length) : (c.addSplit o1 o2)[i]? = (c)[i]? :=
  getElem?_append_left hi

theorem getElem?_addSplit_eq {o1 o2 : Nat} :
    (c.addSplit o1 o2)[c.length]? = some { kind := .split, out1 := o1, out2 := o2 } :=
  getElem?_concat_length

theorem length_addSplit {o1 o2 : Nat} : (c.addSplit o1 o2).length = c.length + 1 := by
  rw [addSplit, length_append, length_singleton]

theorem Built.outs_ne (h : Built c c₁ f L) {i : Nat} (hi : i < c.length ∨ c₁.length ≤ i) :
    ∀ o ∈ f.outs, o.1 ≠ i := by
  intro o ho
  have := h.outs o ho
  omega

/-- A state that reads one code point. -/
theorem built_reader {st : State} (hk : st.kind = .charRange ∨ st.kind = .dot) :
    Built c (c ++ [st]) { start := c.length, outs := [(c.length, false)] }
      (symbols fun a => st.matchesChar a = true) where
  keep i hi := getElem?_append_left hi
  grow := by
    rw [length_append, length_singleton]
    exact Nat.lt_succ_self _
  outs o ho := by
    rw [mem_singleton] at ho
    subst ho
    rw [length_append, length_singleton]
    exact ⟨le_refl _, Nat.lt_succ_self _⟩
  part N t hN := by
    have h := hN c.length (le_refl _) (by rw [length_append, length_singleton]; omega)
    rw [getElem?_patch, getElem?_concat_length, map_some] at h
    have hr := isReader_of_getElem? h hk
    have ht : (st.patched [(c.length, false)] c.length t).out1 = t := by simp [State.patched]
    rw [ht] at hr
    exact hr.part

/-- A split whose outputs both are outputs of the fragment. -/
theorem built_empty : Built c (c.addSplit noState noState)
      { start := c.length, outs := [(c.length, false), (c.length, true)] } 1 where
  keep i hi := getElem?_addSplit_lt hi
  grow := by
    rw [length_addSplit]
    exact Nat.lt_succ_self _
  outs o ho := by
    rw [length_addSplit]
    have : o.1 = c.length := by
      simp only [mem_cons, not_mem_nil, or_false] at ho
      obtain rfl | rfl := ho <;> rfl
    omega
  part N t hN := by
    have h := hN c.length (le_refl _) (by rw [length_addSplit]; omega)
    rw [getElem?_patch, getElem?_addSplit_eq, map_some] at h
    have hs := isSplit_of_getElem? h rfl
    simp only [State.patched, mem_cons, true_or, or_true, if_true] at hs
    exact hs.part

/-- **One after the other**. -/
theorem Built.seq (h₁ : Built c c₁ f₁ L₁) (h₂ : Built c₁ c₂ f₂ L₂) :
    Built c (c₂.patch f₁.outs f₂.start) { start := f₁.start, outs := f₂.outs } (L₁ * L₂) where
  keep i hi := by
    rw [getElem?_patch_of_notMem (h₁.outs_ne (.inl hi)), h₂.keep i (hi.trans h₁.grow), h₁.keep i hi]
  grow := by
    rw [length_patch]
    exact h₁.grow.trans h₂.grow
  outs o ho := by
    rw [length_patch]
    have := h₂.outs o ho
    have := h₁.grow
    omega
  part N t hN := by
    rw [length_patch] at hN
    have hgrow₁ := h₁.grow
    have hgrow₂ := h₂.grow
    refine Part.mul (h₁.part N f₂.start fun i hc hc₁ => ?_) (h₂.part N t fun i hc₁ hc₂ => ?_)
    · rw [hN i hc (by omega), getElem?_patch_of_notMem (h₂.outs_ne (.inl hc₁)), getElem?_patch,
        h₂.keep i hc₁, getElem?_patch]
    · rw [hN i (by omega) hc₂, getElem?_patch, getElem?_patch_of_notMem (h₁.outs_ne (.inr hc₁)),
        getElem?_patch]

/-- Of the patched outputs only those of the state itself matter. -/
theorem patched_append_left {s : State} {outs outs' : List (Nat × Bool)} {i t : Nat}
    (h : ∀ o ∈ outs', o.1 ≠ i) : s.patched (outs ++ outs') i t = s.patched outs i t := by
  have h₁ : (i, false) ∉ outs' := fun hm => h _ hm rfl
  have h₂ : (i, true) ∉ outs' := fun hm => h _ hm rfl
  simp only [State.patched, mem_append, h₁, h₂, or_false]

theorem patched_append_right {s : State} {outs outs' : List (Nat × Bool)} {i t : Nat}
    (h : ∀ o ∈ outs, o.1 ≠ i) : s.patched (outs ++ outs') i t = s.patched outs' i t := by
  have h₁ : (i, false) ∉ outs := fun hm => h _ hm rfl
  have h₂ : (i, true) ∉ outs := fun hm => h _ hm rfl
  simp only [State.patched, mem_append, h₁, h₂, false_or]

/-- **One or the other**. -/
theorem Built.alt (h₁ : Built c c₁ f₁ L₁) (h₂ : Built c₁ c₂ f₂ L₂) :
    Built c (c₂.addSplit f₁.start f₂.start)
      { start := c₂.length, outs := f₁.outs ++ f₂.outs } (L₁ + L₂) where
  keep i hi := by
    have hgrow₁ := h₁.grow
    have hgrow₂ := h₂.grow
    rw [getElem?_addSplit_lt (by omega), h₂.keep i (by omega), h₁.keep i hi]
  grow := by
    rw [length_addSplit]
    have := h₁.grow
    have := h₂.grow
    omega
  outs o ho := by
    rw [length_addSplit]
    have hgrow₁ := h₁.grow
    have hgrow₂ := h₂.grow
    obtain ho | ho := mem_append.1 ho
    · have := h₁.outs o ho
      omega
    · have := h₂.outs o ho
      omega
  part N t hN := by
    rw [length_addSplit] at hN
    have hgrow₁ := h₁.grow
    have hgrow₂ := h₂.grow
    have hs := hN c₂.length (by omega) (by omega)
    rw [getElem?_patch, getElem?_addSplit_eq, map_some,
      patched_append_right (h₁.outs_ne (.inr (by omega))),
      patched_of_notMem (h₂.outs_ne (.inr (le_refl _)))] at hs
    refine Part.alt (isSplit_of_getElem? hs rfl) (h₁.part N t fun i hc hc₁ => ?_)
      (h₂.part N t fun i hc₁ hc₂ => ?_)
    · rw [hN i hc (by omega), getElem?_patch, getElem?_addSplit_lt (by omega), h₂.keep i hc₁,
        getElem?_patch]
      simp only [patched_append_left (h₂.outs_ne (.inl hc₁))]
    · rw [hN i (by omega) (by omega), getElem?_patch, getElem?_addSplit_lt hc₂, getElem?_patch]
      simp only [patched_append_right (h₁.outs_ne (.inr hc₁))]

/-- **Once or not**. -/
theorem Built.opt (h : Built c c₁ f L) : Built c (c₁.addSplit f.start noState)
      { start := c₁.length, outs := f.outs ++ [(c₁.length, true)] } (1 + L) where
  keep i hi := by
    rw [getElem?_addSplit_lt (hi.trans h.grow), h.keep i hi]
  grow := by
    rw [length_addSplit]
    have := h.grow
    omega
  outs o ho := by
    rw [length_addSplit]
    have hgrow := h.grow
    obtain ho | ho := mem_append.1 ho
    · have := h.outs o ho
      omega
    · rw [mem_singleton.1 ho]
      omega
  part N t hN := by
    rw [length_addSplit] at hN
    have hgrow := h.grow
    have hs := hN c₁.length (by omega) (by omega)
    rw [getElem?_patch, getElem?_addSplit_eq, map_some,
      patched_append_right (h.outs_ne (.inr (le_refl _)))] at hs
    have hsplit := isSplit_of_getElem? hs rfl
    simp [State.patched] at hsplit
    refine Part.opt hsplit (h.part N t fun i hc hc₁ => ?_)
    rw [hN i hc (by omega), getElem?_patch, getElem?_addSplit_lt hc₁, getElem?_patch]
    have hne : ∀ o ∈ [(c₁.length, true)], o.1 ≠ i := by
      intro o ho
      rw [mem_singleton.1 ho]
      simp only
      omega
    simp only [patched_append_left hne]

/-- A fragment that leads back to a split, from which another output leaves. -/
theorem Built.loop (h : Built c c₁ f L) : ∀ (N : List State) (t : Nat),
      (∀ i, c.length ≤ i → i < c₁.length + 1 → N[i]? =
        (((c₁.addSplit f.start noState).patch f.outs c₁.length).patch [(c₁.length, true)] t)[i]?) →
      IsSplit (machine N) c₁.length f.start t ∧ Part (machine N) L f.start c₁.length := by
  intro N t hN
  have hgrow := h.grow
  have hs := hN c₁.length (by omega) (by omega)
  rw [getElem?_patch, getElem?_patch_of_notMem (h.outs_ne (.inr (le_refl _))),
    getElem?_addSplit_eq, map_some] at hs
  have hsplit := isSplit_of_getElem? hs rfl
  simp [State.patched] at hsplit
  refine ⟨hsplit, h.part N c₁.length fun i hc hc₁ => ?_⟩
  have hne : ∀ o ∈ [(c₁.length, true)], o.1 ≠ i := by
    intro o ho
    rw [mem_singleton.1 ho]
    omega
  rw [hN i hc (by omega), getElem?_patch_of_notMem hne, getElem?_patch,
    getElem?_addSplit_lt hc₁, getElem?_patch]

/-- What `Built` says of the states of a loop. -/
theorem Built.of_loop (h : Built c c₁ f L) {start : Nat} {L' : Language Nat}
    (hpart : ∀ N t, IsSplit (machine N) c₁.length f.start t →
      Part (machine N) L f.start c₁.length → Part (machine N) L' start t) :
    Built c ((c₁.addSplit f.start noState).patch f.outs c₁.length)
      { start, outs := [(c₁.length, true)] } L' where
  keep i hi := by
    rw [getElem?_patch_of_notMem (h.outs_ne (.inl hi)), getElem?_addSplit_lt (hi.trans h.grow),
      h.keep i hi]
  grow := by
    rw [length_patch, length_addSplit]
    have := h.grow
    omega
  outs o ho := by
    rw [length_patch, length_addSplit, mem_singleton.1 ho]
    have := h.grow
    omega
  part N t hN := by
    rw [length_patch, length_addSplit] at hN
    obtain ⟨hsplit, hp⟩ := h.loop N t hN
    exact hpart N t hsplit hp

/-- **Any number of times**. -/
theorem Built.star (h : Built c c₁ f L) :
    Built c ((c₁.addSplit f.start noState).patch f.outs c₁.length)
      { start := c₁.length, outs := [(c₁.length, true)] } (KStar.kstar L) :=
  h.of_loop fun _ _ hs hp => hp.star hs

/-- **At least once**. -/
theorem Built.plus (h : Built c c₁ f L) :
    Built c ((c₁.addSplit f.start noState).patch f.outs c₁.length)
      { start := f.start, outs := [(c₁.length, true)] } (L * KStar.kstar L) :=
  h.of_loop fun _ _ hs hp => hp.plus hs

end

/-! ### Copies -/

section
variable {b : Builder} {c₀ c c' : NFABuildCtx} {L M : Language Nat}

theorem moreCopies_spec (hb : Builds b L) {k : Nat} {f f' : NFAFragment} (h : Built c₀ c f M)
    (hrun : moreCopies b k f c = some (f', c')) : Built c₀ c' f' (M * L ^ k) := by
  induction k generalizing f c M with
  | zero =>
    cases hrun
    rwa [pow_zero, mul_one]
  | succ k ih =>
    rw [moreCopies, bind_eq_bind, bind_eq_some_iff] at hrun
    obtain ⟨⟨next, c₁⟩, he, hrun⟩ := hrun
    have h' := ih (h.seq (hb c next c₁ he).2) hrun
    rwa [mul_assoc, ← pow_succ'] at h'

/-- A fragment that may not be there yet. -/
def BuiltSoFar (c₀ c : NFABuildCtx) (result : Option NFAFragment) (M : Language Nat) : Prop :=
  match result with
  | some f => Built c₀ c f M
  | none => c = c₀ ∧ M = 1

theorem requiredCopies_spec (hb : Builds b L) {k : Nat} {r r' : Option NFAFragment}
    (h : BuiltSoFar c₀ c r M) (hrun : requiredCopies b k r c = some (r', c')) :
    BuiltSoFar c₀ c' r' (M * L ^ k) ∧ (k = 0 ∨ c.length + k ≤ maxStates + 1) := by
  induction k generalizing r c M with
  | zero =>
    cases hrun
    rw [pow_zero, mul_one]
    exact ⟨h, .inl rfl⟩
  | succ k ih =>
    rw [requiredCopies, bind_eq_bind, bind_eq_some_iff] at hrun
    obtain ⟨⟨e, c₁⟩, he, hrun⟩ := hrun
    obtain ⟨hmax, hbuilt⟩ := hb c e c₁ he
    have hgrow := hbuilt.grow
    cases r with
    | some prev =>
      obtain ⟨h', hk⟩ := ih (r := some _) (M := M * L) (Built.seq h hbuilt) hrun
      rw [mul_assoc, ← pow_succ'] at h'
      rw [length_patch] at hk
      exact ⟨h', .inr (by omega)⟩
    | none =>
      obtain ⟨rfl, rfl⟩ := h
      obtain ⟨h', hk⟩ := ih (r := some e) hbuilt hrun
      rw [← pow_succ'] at h'
      rw [one_mul]
      exact ⟨h', .inr (by omega)⟩

/-- A copy that may be left out. -/
def optional (b : Builder) : Builder := fun c => (b c).map fun p =>
  ({ start := p.2.length, outs := p.1.outs ++ [(p.2.length, true)] }, p.2.addSplit p.1.start noState)

theorem Builds.optional (hb : Builds b L) : Builds (optional b) (1 + L) := by
  intro c f c' hrun
  obtain ⟨⟨e, c₁⟩, he, ⟨⟩⟩ := Option.map_eq_some_iff.1 hrun
  exact ⟨(hb c e c₁ he).1, (hb c e c₁ he).2.opt⟩

theorem optionalCopies_eq {k : Nat} {r : Option NFAFragment} :
    optionalCopies b k r c = requiredCopies (optional b) k r c := by
  induction k generalizing r c with
  | zero => rfl
  | succ k ih =>
    rw [optionalCopies, requiredCopies, optional]
    cases b c with
    | none => rfl
    | some p => cases r <;> exact ih

/-- The outputs of an earlier fragment may be patched before the loop is made. -/
theorem patch_loop_comm {f f₁ : NFAFragment} {L₁ : Language Nat} (h₁ : Built c₀ c f₁ L₁)
    (h : Built c c' f L) :
    ((c'.patch f₁.outs f.start).addSplit f.start noState).patch f.outs c'.length =
      ((c'.addSplit f.start noState).patch f.outs c'.length).patch f₁.outs f.start := by
  have hgrow := h.grow
  refine ext_getElem? fun i => ?_
  obtain hi | rfl | hi := Nat.lt_trichotomy i c'.length
  · rw [getElem?_patch, getElem?_addSplit_lt (by rwa [length_patch]), getElem?_patch, getElem?_patch,
      getElem?_patch, getElem?_addSplit_lt hi, Option.map_map, Option.map_map]
    congr 1
    funext s
    -- no state has outputs of both fragments
    by_cases hc : i < c.length
    · simp only [Function.comp_apply, patched_of_notMem (h.outs_ne (.inl hc))]
    · simp only [Function.comp_apply, patched_of_notMem (h₁.outs_ne (.inr (Nat.le_of_not_lt hc)))]
  · have hlen : (c'.patch f₁.outs f.start).length = c'.length := length_patch
    have hs : ((c'.patch f₁.outs f.start).addSplit f.start noState)[c'.length]? =
        some { kind := .split, out1 := f.start, out2 := noState } := by
      rw [← hlen]
      exact getElem?_addSplit_eq
    rw [getElem?_patch_of_notMem (h.outs_ne (.inr (le_refl _))), hs,
      getElem?_patch_of_notMem (h₁.outs_ne (.inr hgrow.le)),
      getElem?_patch_of_notMem (h.outs_ne (.inr (le_refl _))), getElem?_addSplit_eq]
  · rw [getElem?_eq_none, getElem?_eq_none]
    · rw [length_patch, length_patch, length_addSplit]
      omega
    · rw [length_patch, length_addSplit, length_patch]
      omega

end

/-! ### Expressions -/

section
variable {b : Builder} {L : Language Nat} {c c' : NFABuildCtx} {f : NFAFragment}

theorem checked_eq_some (h : checked b c = some (f, c')) :
    c.length ≤ maxStates ∧ b c = some (f, c') := by
  rw [checked] at h
  split at h
  · cases h
  · exact ⟨by omega, h⟩

theorem repeated_none (minCount : UInt64) :
    repeated L minCount none = L ^ minCount.toNat * KStar.kstar L := by
  refine Language.ext fun w => ?_
  rw [mem_pow_mul_kstar]
  constructor
  · rintro ⟨n, hn, -, h⟩
    exact ⟨n, hn, h⟩
  · rintro ⟨n, hn, h⟩
    exact ⟨n, hn, nofun, h⟩

theorem repeated_some {minCount maxCount : UInt64} (h : minCount.toNat ≤ maxCount.toNat) :
    repeated L minCount (some maxCount) =
      L ^ minCount.toNat * (1 + L) ^ (maxCount.toNat - minCount.toNat) := by
  refine Language.ext fun w => ?_
  rw [mem_pow_mul_one_add_pow, Nat.add_sub_cancel' h]
  constructor
  · rintro ⟨n, hn, hm, h⟩
    exact ⟨n, hn, hm _ rfl, h⟩
  rintro ⟨n, hn, hm, h⟩
  refine ⟨n, hn, fun m hmem => ?_, h⟩
  cases hmem
  exact hm

/-- `{n,}`. -/
theorem buildUnbounded_spec (hb : Builds b L) (minCount : UInt64)
    (hrun : buildUnbounded b minCount c = some (f, c')) :
    Built c c' f (repeated L minCount none) := by
  rw [repeated_none]
  rw [buildUnbounded] at hrun
  by_cases h0 : minCount = 0
  · rw [if_pos h0, bind_eq_bind, bind_eq_some_iff] at hrun
    obtain ⟨⟨e, c₁⟩, he, ⟨⟩⟩ := hrun
    have h := (hb c e c₁ he).2.star
    rw [h0]
    simpa using h
  rw [if_neg h0] at hrun
  by_cases h1 : minCount = 1
  · rw [if_pos h1, bind_eq_bind, bind_eq_some_iff] at hrun
    obtain ⟨⟨e, c₁⟩, he, ⟨⟩⟩ := hrun
    have h := (hb c e c₁ he).2.plus
    rw [h1]
    simpa using h
  rw [if_neg h1, bind_eq_bind, bind_eq_some_iff] at hrun
  obtain ⟨⟨first, c₁⟩, hfirst, hrun⟩ := hrun
  obtain ⟨⟨result, c₂⟩, hmore, hrun⟩ := bind_eq_some_iff.1 hrun
  obtain ⟨⟨last, c₃⟩, hlast, hrun⟩ := bind_eq_some_iff.1 hrun
  have hresult := moreCopies_spec hb (hb c first c₁ hfirst).2 hmore
  have hlastBuilt := (hb c₂ last c₃ hlast).2
  have h := hresult.seq hlastBuilt.plus
  simp only [length_patch] at hrun
  rw [patch_loop_comm hresult hlastBuilt] at hrun
  cases hrun
  have hmin : minCount.toNat - 2 + 2 = minCount.toNat := by
    have h0' : minCount.toNat ≠ 0 := fun e => h0 (UInt64.toNat_inj.1 e)
    have h1' : minCount.toNat ≠ 1 := fun e => h1 (UInt64.toNat_inj.1 e)
    omega
  have hpow : L * L ^ (minCount.toNat - 2) * (L * KStar.kstar L) =
      L ^ minCount.toNat * KStar.kstar L := by
    rw [← mul_assoc, ← pow_succ', ← pow_succ, hmin]
  rwa [hpow] at h

/-- `{n,m}`. -/
theorem buildBounded_spec (hb : Builds b L) (minCount maxCount : UInt64)
    (hrun : buildBounded b minCount maxCount c = some (f, c')) :
    Built c c' f (repeated L minCount (some maxCount)) := by
  rw [buildBounded] at hrun
  by_cases h0 : minCount = 0 ∧ maxCount = 0
  · rw [if_pos h0] at hrun
    cases hrun
    rw [h0.1, h0.2, repeated_some (le_refl _), Nat.sub_self, pow_zero, mul_one]
    exact built_empty
  rw [if_neg h0] at hrun
  by_cases h1 : minCount = 0 ∧ maxCount = 1
  · rw [if_pos h1, bind_eq_bind, bind_eq_some_iff] at hrun
    obtain ⟨⟨e, c₁⟩, he, ⟨⟩⟩ := hrun
    have h := (hb c e c₁ he).2.opt
    rw [h1.1, h1.2, repeated_some (by decide)]
    simpa using h
  rw [if_neg h1, bind_eq_bind, bind_eq_some_iff] at hrun
  obtain ⟨⟨r, c₁⟩, hreq, hrun⟩ := hrun
  obtain ⟨⟨r', c₂⟩, hopt, hrun⟩ := bind_eq_some_iff.1 hrun
  obtain ⟨f', hr', ⟨⟩⟩ := bind_eq_some_iff.1 hrun
  subst hr'
  have hstart : BuiltSoFar c c none 1 := ⟨rfl, rfl⟩
  obtain ⟨hR, hk⟩ := requiredCopies_spec hb hstart hreq
  rw [optionalCopies_eq] at hopt
  obtain ⟨hO, hj⟩ := requiredCopies_spec hb.optional hR hopt
  rw [one_mul] at hO
  -- where the counts are the wrong way round there would be more copies than states
  have hle : minCount ≤ maxCount := by
    by_contra hgt
    have hgt' : maxCount.toNat < minCount.toNat := by
      rw [UInt64.le_iff_toNat_le] at hgt
      omega
    have hsub := UInt64.toNat_sub maxCount minCount
    have hmin := minCount.toNat_lt
    have hm : maxStates = 10000 := rfl
    omega
  have hsub := UInt64.toNat_sub_of_le maxCount minCount hle
  rw [UInt64.le_iff_toNat_le] at hle
  rw [hsub] at hO
  rw [repeated_some hle]
  exact hO

end

/-- A literal is a class of one code point. -/
theorem literal_matches (cp a : Nat) : rangeMatches a [(cp, cp)] false = true ↔ a = cp := by
  have hs : SortedRanges [(cp, cp)] :=
    ⟨pairwise_singleton _ _, fun r hr => by rw [mem_singleton.1 hr]⟩
  rw [rangeMatches_iff hs]
  simp only [InRanges, mem_singleton, exists_eq_left, iff_true]
  omega

/-- **Building an expression** gives a fragment for its language. -/
theorem buildNode_spec {node : RegexNode} (hs : node.Sorted) :
    Builds node.buildNode node.language := by
  intro c f c' hrun
  induction node generalizing c f c' with
  | literal cp =>
    obtain ⟨hmax, ⟨⟩⟩ := checked_eq_some hrun
    refine ⟨hmax, ?_⟩
    rw [RegexNode.language, symbols_congr fun a => (literal_matches cp a).symm]
    exact built_reader (.inl rfl)
  | dot =>
    obtain ⟨hmax, ⟨⟩⟩ := checked_eq_some hrun
    refine ⟨hmax, ?_⟩
    rw [RegexNode.language, symbols_congr fun a => decide_eq_true_iff.symm]
    exact built_reader (.inr rfl)
  | charClass ranges negated =>
    obtain ⟨hmax, ⟨⟩⟩ := checked_eq_some hrun
    refine ⟨hmax, ?_⟩
    rw [RegexNode.language, symbols_congr fun a => (rangeMatches_iff hs a negated).symm]
    exact built_reader (.inl rfl)
  | alternation left right ihl ihr | concatenation left right ihl ihr =>
    obtain ⟨hmax, hrun⟩ := checked_eq_some hrun
    obtain ⟨⟨fl, c₁⟩, hl, hrun⟩ := bind_eq_some_iff.1 hrun
    obtain ⟨⟨fr, c₂⟩, hr, ⟨⟩⟩ := bind_eq_some_iff.1 hrun
    have hl := (ihl hs.1 _ _ _ hl).2
    have hr := (ihr hs.2 _ _ _ hr).2
    first | exact ⟨hmax, hl.alt hr⟩ | exact ⟨hmax, hl.seq hr⟩
  | quantified expr minCount maxCount ih =>
    cases maxCount with
    | none =>
      obtain ⟨hmax, hrun⟩ := checked_eq_some hrun
      exact ⟨hmax, buildUnbounded_spec (ih hs) minCount hrun⟩
    | some maxCount =>
      obtain ⟨hmax, hrun⟩ := checked_eq_some hrun
      exact ⟨hmax, buildBounded_spec (ih hs) minCount maxCount hrun⟩
  | group expr ih =>
    obtain ⟨hmax, hrun⟩ := checked_eq_some hrun
    exact ih hs _ _ _ hrun
  | emptyMatch =>
    obtain ⟨hmax, ⟨⟩⟩ := checked_eq_some hrun
    exact ⟨hmax, built_empty⟩

/-- **The automaton** accepts the language of the expression. -/
theorem build_accepts {ast : RegexNode} (hs : ast.Sorted) {nfa : NFA} (hrun : build ast = some nfa)
    (w : List Nat) : (∃ n, Accepts (machine nfa.states) n nfa.startState w) ↔ w ∈ ast.language := by
  rw [build, bind_eq_bind, bind_eq_some_iff] at hrun
  obtain ⟨⟨f, c⟩, hf, ⟨⟩⟩ := hrun
  have hbuilt := (buildNode_spec hs _ _ _ hf).2
  have hlast : (c.addMatch.patch f.outs c.length)[c.length]? =
      some { kind := .accept, out1 := noState, out2 := noState } := by
    rw [getElem?_patch_of_notMem (hbuilt.outs_ne (.inr (le_refl _))), addMatch,
      getElem?_concat_length]
  have hpart := hbuilt.part (c.addMatch.patch f.outs c.length) c.length fun i _ hi => by
    rw [getElem?_patch, getElem?_patch, addMatch, getElem?_append_left hi]
  constructor
  · rintro ⟨n, ha⟩
    obtain ⟨u, v, m, rfl, hu, -, hv⟩ := hpart.sound ha
    -- the state that accepts has no steps
    have hnil : v = [] := by
      cases hv with
      | final _ => rfl
      | eps he _ =>
        obtain ⟨st, hst, hk, -⟩ := he
        rw [hlast] at hst
        cases hst
        cases hk
      | read hr _ =>
        obtain ⟨st, hst, hm, -⟩ := hr
        rw [hlast] at hst
        cases hst
        cases hm
    rwa [hnil, append_nil]
  · intro hw
    obtain ⟨m, hm⟩ := hpart.complete hw (.final ⟨_, hlast, rfl⟩)
    exact ⟨m, by rwa [append_nil] at hm⟩

end SpacePony.Iregex
