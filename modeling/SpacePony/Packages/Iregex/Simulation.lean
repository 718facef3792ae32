import SpacePony.Packages.Iregex.Thompson

/-!
# Packages — iregex — the simulation is exact

Adding a state adds the states that silent steps lead to (`addState_spec`), and `is_match` and
`search` decide the language of the expression (`compile_and_simulate_exact`).
-/

namespace SpacePony.Iregex

open List Automata Builtin Relation

/-! ### Sets of states -/

/-- The flags of the set agree with its list. -/
structure StateSet.WF (n : Nat) (set : StateSet) : Prop where
  length : set.member.length = n
  mem : ∀ i, set.member[i]? = some true ↔ i ∈ set.active
  nodup : set.active.Nodup

variable {l : List Nat} {current next : StateSet}

namespace StateSet

variable {n i : Nat} {set : StateSet}

theorem WF.lt (h : set.WF n) (hi : i ∈ set.active) : i < n := by
  obtain ⟨hlt, -⟩ := List.getElem?_eq_some_iff.1 ((h.mem i).2 hi)
  rwa [h.length] at hlt

theorem WF.length_le (h : set.WF n) : set.active.length ≤ n := by
  have hsub : set.active ⊆ range n := fun i hi => mem_range.2 (h.lt hi)
  have hle := (h.nodup.subperm hsub).length_le
  rwa [length_range] at hle

theorem wf_create (n : Nat) : (create n).WF n := by
  refine ⟨length_replicate, fun i => ⟨fun h => ?_, fun h => by cases h⟩, nodup_nil⟩
  rw [create, getElem?_replicate] at h
  split at h <;> cases h

theorem WF.contains_iff (h : set.WF n) : set.contains i = true ↔ i ∈ set.active := by
  rw [← h.mem, contains]
  cases set.member[i]? <;> simp

theorem WF.add (h : set.WF n) (hi : i < n) :
    (set.add i).WF n ∧ ∀ s, s ∈ (set.add i).active ↔ s ∈ set.active ∨ s = i := by
  have hlen := h.length
  have hget : set.member[i]? = some set.member[i] := getElem?_eq_getElem (by omega)
  cases hb : set.member[i] with
  | true =>
    rw [hb] at hget
    have hmem := (h.mem i).1 hget
    have hadd : set.add i = set := by rw [StateSet.add, hget]
    rw [hadd]
    refine ⟨h, fun s => ⟨.inl, ?_⟩⟩
    rintro (hs | rfl)
    · exact hs
    · exact hmem
  | false =>
    rw [hb] at hget
    have hnot : i ∉ set.active := by
      rw [← h.mem, hget]
      simp
    have hadd : set.add i =
        { member := set.member.set i true, active := set.active ++ [i] } := by
      rw [StateSet.add, hget]
    rw [hadd]
    refine ⟨⟨by rw [length_set, hlen], fun j => ?_, ?_⟩, fun s => ?_⟩
    · rw [mem_append, mem_singleton, ← h.mem]
      by_cases hj : i = j
      · subst hj
        rw [getElem?_set_self (by omega)]
        simp
      · rw [getElem?_set_ne hj]
        simp [Ne.symm hj]
    · rw [nodup_append]
      refine ⟨h.nodup, nodup_singleton i, fun a ha b hb' => ?_⟩
      rw [mem_singleton.1 hb']
      rintro rfl
      exact hnot ha
    · rw [mem_append, mem_singleton]

theorem WF.length_add (h : set.WF n) (hi : i < n) (hnot : ¬ set.contains i = true) :
    (set.add i).active.length = set.active.length + 1 := by
  have hb : i < set.member.length := by rwa [h.length]
  have hf : set.member[i]? = some false := by
    rw [contains, getElem?_eq_getElem hb, Option.getD_some, Bool.not_eq_true] at hnot
    rw [getElem?_eq_getElem hb, hnot]
  rw [StateSet.add, hf, length_append, length_singleton]

theorem getElem?_foldl_set {m : List Bool} : (l.foldl (fun m i => m.set i false) m)[i]? =
      if i ∈ l then m[i]?.map fun _ => false else m[i]? := by
  induction l generalizing m with
  | nil => rfl
  | cons j l ih =>
    rw [foldl_cons, ih]
    by_cases hj : j = i
    · subst hj
      rw [getElem?_set_self']
      cases m[j]? <;> simp
    · rw [getElem?_set_ne hj]
      simp [Ne.symm hj]

theorem WF.clear (h : set.WF n) : set.clear.WF n := by
  refine ⟨?_, fun i => ⟨fun hi => ?_, fun hi => by cases hi⟩, nodup_nil⟩
  · have hfold : ∀ (l : List Nat) (m : List Bool),
        (l.foldl (fun m i => m.set i false) m).length = m.length := by
      intro l
      induction l with
      | nil => exact fun _ => rfl
      | cons j l ih => exact fun m => by rw [foldl_cons, ih, length_set]
    rw [StateSet.clear, hfold, h.length]
  rw [StateSet.clear, getElem?_foldl_set] at hi
  split at hi
  · cases hm : set.member[i]? <;> simp [hm] at hi
  · next hnot => exact absurd ((h.mem i).1 hi) hnot

theorem WF.foldl_add (h : set.WF n) (hl : ∀ s ∈ l, s < n) : (l.foldl StateSet.add set).WF n ∧
      ∀ s, s ∈ (l.foldl StateSet.add set).active ↔ s ∈ set.active ∨ s ∈ l := by
  induction l generalizing set with
  | nil => exact ⟨h, fun s => by simp⟩
  | cons i l ih =>
    obtain ⟨h', hmem⟩ := h.add (hl i (.head _))
    obtain ⟨h'', hmem'⟩ := ih h' fun s hs => hl s (.tail _ hs)
    refine ⟨h'', fun s => ?_⟩
    rw [foldl_cons, hmem', hmem, mem_cons, or_assoc]

end StateSet

/-! ### Silent steps -/

section
variable {nfa : NFA}

theorem eps_lt {s s' : Nat} (h : (machine nfa.states).eps s s') : s < nfa.numStates := by
  obtain ⟨st, hst, -⟩ := h
  exact (List.getElem?_eq_some_iff.1 hst).1

theorem read_lt {s a s' : Nat} (h : (machine nfa.states).read s a s') : s < nfa.numStates := by
  obtain ⟨st, hst, -⟩ := h
  exact (List.getElem?_eq_some_iff.1 hst).1

/-- The states that silent steps lead to from the set are in it, or on the stack. -/
def Closed (nfa : NFA) (set : StateSet) (stack : List Nat) : Prop :=
  ∀ s ∈ set.active, ∀ s', (machine nfa.states).eps s s' → s' < nfa.numStates →
    s' ∈ set.active ∨ s' ∈ stack

/-- The set `R` is the set with what silent steps lead to from the stack. -/
structure Reached (nfa : NFA) (set : StateSet) (stack : List Nat) (R : StateSet) : Prop where
  wf : R.WF nfa.numStates
  closed : Closed nfa R []
  set_sub : ∀ s ∈ set.active, s ∈ R.active
  stack_sub : ∀ s ∈ stack, s < nfa.numStates → s ∈ R.active
  reach : ∀ s ∈ R.active,
    s ∈ set.active ∨ ∃ x ∈ stack, ReflTransGen (machine nfa.states).eps x s

variable {set R : StateSet} {stack new : List Nat} {s : Nat}

theorem reached_nil (h : set.WF nfa.numStates) (hc : Closed nfa set []) : Reached nfa set [] set :=
  ⟨h, hc, fun _ hs => hs, nofun, fun _ hs => .inl hs⟩

/-- A state that is there already may be on the stack. -/
theorem Reached.skip (h : Reached nfa set stack R) (hs : s ≥ nfa.numStates ∨ s ∈ set.active) :
    Reached nfa set (s :: stack) R where
  __ := h
  stack_sub x hx hlt := by
    obtain rfl | hx := mem_cons.1 hx
    · exact h.set_sub x (hs.resolve_left (by omega))
    · exact h.stack_sub x hx hlt
  reach x hx := by
    obtain hx | ⟨y, hy, hyx⟩ := h.reach x hx
    · exact .inl hx
    · exact .inr ⟨y, .tail _ hy, hyx⟩

theorem Closed.skip (hc : Closed nfa set (s :: stack))
    (hs : s ≥ nfa.numStates ∨ s ∈ set.active) : Closed nfa set stack := by
  intro x hx x' he hlt
  obtain hin | hin := hc x hx x' he hlt
  · exact .inl hin
  obtain rfl | hin := mem_cons.1 hin
  · exact .inl (hs.resolve_left (by omega))
  · exact .inr hin

section
variable (hadd : ∀ x, x ∈ (set.add s).active ↔ x ∈ set.active ∨ x = s)
  (hnew : ∀ x, x ∈ new ↔ (machine nfa.states).eps s x ∧ x < nfa.numStates)
include hadd hnew

/-- A state is added, and those that silent steps lead to from it are pushed. -/
theorem Reached.push
    (h : Reached nfa (set.add s) (new ++ stack) R) : Reached nfa set (s :: stack) R where
  __ := h
  set_sub x hx := h.set_sub x ((hadd x).2 (.inl hx))
  stack_sub x hx hlt := by
    obtain rfl | hx := mem_cons.1 hx
    · exact h.set_sub x ((hadd x).2 (.inr rfl))
    · exact h.stack_sub x (mem_append_right _ hx) hlt
  reach x hx := by
    obtain hin | ⟨y, hy, hyx⟩ := h.reach x hx
    · obtain hin | rfl := (hadd x).1 hin
      · exact .inl hin
      · exact .inr ⟨x, .head _, .refl⟩
    obtain hy | hy := mem_append.1 hy
    · exact .inr ⟨s, .head _, .head ((hnew y).1 hy).1 hyx⟩
    · exact .inr ⟨y, .tail _ hy, hyx⟩

theorem Closed.push (hc : Closed nfa set (s :: stack)) : Closed nfa (set.add s) (new ++ stack) := by
  intro x hx x' he hlt
  obtain hin | rfl := (hadd x).1 hx
  · obtain hin' | hin' := hc x hin x' he hlt
    · exact .inl ((hadd x').2 (.inl hin'))
    obtain rfl | hin' := mem_cons.1 hin'
    · exact .inl ((hadd x').2 (.inr rfl))
    · exact .inr (mem_append_right _ hin')
  · exact .inr (mem_append_left _ ((hnew x').2 ⟨he, hlt⟩))

end

/-- One round of the loop pushes the states that silent steps lead to. -/
theorem addLoop_push (rounds : Nat) (stack : List Nat) (hs : s < nfa.numStates) (hnot : ¬ set.contains s = true) :
    ∃ new : List Nat, new.length ≤ 2 ∧
      (∀ x, x ∈ new ↔ (machine nfa.states).eps s x ∧ x < nfa.numStates) ∧
      addLoop nfa (rounds + 1) (s :: stack) set =
        addLoop nfa rounds (new ++ stack) (set.add s) := by
  have hst : nfa.states[s]? = some nfa.states[s] := getElem?_eq_getElem hs
  have heps : ∀ x, (machine nfa.states).eps s x ↔ nfa.states[s].kind = .split ∧
      (x = nfa.states[s].out1 ∨ x = nfa.states[s].out2) := by
    intro x
    refine ⟨fun ⟨st, h₁, h₂⟩ => ?_, fun h₂ => ⟨_, hst, h₂⟩⟩
    rw [hst] at h₁
    cases h₁
    exact h₂
  have hskip : ¬ (s ≥ nfa.numStates ∨ set.contains s = true) :=
    not_or.2 ⟨by omega, hnot⟩
  rw [addLoop, if_neg hskip, hst]
  simp only [heps]
  generalize nfa.states[s] = st
  obtain ⟨kind, o1, o2, ranges, negated⟩ := st
  cases kind with
  | split =>
    by_cases h₁ : o1 < nfa.numStates <;> by_cases h₂ : o2 < nfa.numStates
    · exact ⟨[o2, o1], by simp, fun x => by simp; grind, by simp [h₁, h₂]⟩
    · exact ⟨[o1], by simp, fun x => by simp; grind, by simp [h₁, h₂]⟩
    · exact ⟨[o2], by simp, fun x => by simp; grind, by simp [h₁, h₂]⟩
    · exact ⟨[], by simp, fun x => by simp; grind, by simp [h₁, h₂]⟩
  | charRange | dot | accept => exact ⟨[], by simp, fun x => by simp, rfl⟩

/-- The loop reaches what silent steps lead to from the stack. -/
theorem addLoop_spec (rounds : Nat) (h : set.WF nfa.numStates) (hc : Closed nfa set stack)
    (hr : 2 * (nfa.numStates - set.active.length) + stack.length ≤ rounds) :
    ∃ R, addLoop nfa rounds stack set = some R ∧ Reached nfa set stack R := by
  induction rounds generalizing stack set with
  | zero =>
    cases stack with
    | nil => exact ⟨set, by rw [addLoop], reached_nil h hc⟩
    | cons s stack =>
      rw [length_cons] at hr
      omega
  | succ rounds ih =>
    cases stack with
    | nil => exact ⟨set, by rw [addLoop], reached_nil h hc⟩
    | cons s stack =>
      rw [length_cons] at hr
      by_cases hskip : s ≥ nfa.numStates ∨ set.contains s = true
      · have hskip' : s ≥ nfa.numStates ∨ s ∈ set.active := by rwa [h.contains_iff] at hskip
        obtain ⟨R, hR, hreach⟩ := ih h (hc.skip hskip') (by omega)
        exact ⟨R, by rw [addLoop, if_pos hskip, hR], hreach.skip hskip'⟩
      obtain ⟨hlt, hnot⟩ := not_or.1 hskip
      have hlt' : s < nfa.numStates := by omega
      obtain ⟨h', hadd⟩ := h.add hlt'
      obtain ⟨new, hlen, hnew, hloop⟩ :=
        addLoop_push rounds stack hlt' hnot
      -- a state is added, so two may be pushed
      have hcount := h.length_add hlt' hnot
      have hle := h'.length_le
      obtain ⟨R, hR, hreach⟩ := ih h' (Closed.push hadd hnew hc)
        (by rw [length_append]; omega)
      exact ⟨R, hloop.trans hR, Reached.push hadd hnew hreach⟩

/-- **Adding a state** adds the states that silent steps lead to. -/
theorem addState_spec (h : set.WF nfa.numStates) (hc : Closed nfa set []) (idx : Nat) :
    ∃ R, addState nfa set idx = some R ∧ R.WF nfa.numStates ∧ Closed nfa R [] ∧
      ∀ s, s ∈ R.active ↔
        s ∈ set.active ∨ (s < nfa.numStates ∧ ReflTransGen (machine nfa.states).eps idx s) := by
  -- a state that there is not has no steps
  have hvalid : ∀ {s}, ReflTransGen (machine nfa.states).eps idx s → s < nfa.numStates →
      idx < nfa.numStates := by
    intro s hs hlt
    cases hs.cases_head with
    | inl e => rwa [e]
    | inr e =>
      obtain ⟨_, he, -⟩ := e
      exact eps_lt he
  by_cases hidx : idx ≥ nfa.numStates
  · refine ⟨set, by rw [addState, if_pos hidx], h, hc, fun s => ⟨.inl, ?_⟩⟩
    rintro (hs | ⟨hlt, hs⟩)
    · exact hs
    · have := hvalid hs hlt
      omega
  have hc' : Closed nfa set [idx] := fun s hs s' he hlt =>
    .inl ((hc s hs s' he hlt).resolve_right not_mem_nil)
  obtain ⟨R, hR, hreach⟩ := addLoop_spec (2 * nfa.numStates + 1) h hc'
    (by rw [length_singleton]; omega)
  refine ⟨R, by rw [addState, if_neg hidx, hR], hreach.wf, hreach.closed, fun s => ⟨fun hs => ?_, ?_⟩⟩
  · obtain hin | ⟨x, hx, hxs⟩ := hreach.reach s hs
    · exact .inl hin
    rw [mem_singleton] at hx
    subst hx
    exact .inr ⟨hreach.wf.lt hs, hxs⟩
  rintro (hs | ⟨hlt, hs⟩)
  · exact hreach.set_sub s hs
  induction hs with
  | refl => exact hreach.stack_sub idx (.head _) hlt
  | tail _ he ih =>
    exact (hreach.closed _ (ih (eps_lt he)) _ he hlt).resolve_right not_mem_nil

end

/-! ### Reading -/

/-- The set has the states of the automaton that the predicate holds of, and silent steps do not
lead out of them. -/
structure Has (nfa : NFA) (set : StateSet) (P : Nat → Prop) : Prop where
  wf : set.WF nfa.numStates
  mem : ∀ s, s ∈ set.active ↔ s < nfa.numStates ∧ P s
  eps : ∀ s s', P s → (machine nfa.states).eps s s' → P s'

/-- The states that a code point leads to. -/
def After (nfa : NFA) (P : Nat → Prop) (cp s : Nat) : Prop :=
  ∃ x y, P x ∧ (machine nfa.states).read x cp y ∧ ReflTransGen (machine nfa.states).eps y s

section
variable {nfa : NFA} {set set' : StateSet} {P Q : Nat → Prop}

theorem Has.closed (h : Has nfa set P) : Closed nfa set [] := by
  intro s hs s' he hlt
  exact .inl ((h.mem s').2 ⟨hlt, h.eps s s' ((h.mem s).1 hs).2 he⟩)

theorem Has.congr (h : Has nfa set P) (hPQ : ∀ s, P s ↔ Q s) : Has nfa set Q := by
  have e : P = Q := funext fun s => propext (hPQ s)
  rwa [← e]

theorem has_empty (h : set.WF nfa.numStates) (hnil : set.active = []) :
    Has nfa set fun _ => False :=
  ⟨h, fun s => by rw [hnil]; simp, fun _ _ h => h.elim⟩

/-- Adding a state. -/
theorem Has.addState (h : Has nfa set P) (idx : Nat) : ∃ R, addState nfa set idx = some R ∧
      Has nfa R fun s => P s ∨ ReflTransGen (machine nfa.states).eps idx s := by
  obtain ⟨R, hR, hwf, hclosed, hmem⟩ := addState_spec h.wf h.closed idx
  refine ⟨R, hR, hwf, fun s => ?_, ?_⟩
  · rw [hmem, h.mem, and_or_left]
  rintro s s' (hs | hs) he
  · exact .inl (h.eps s s' hs he)
  · exact .inr (hs.tail he)

theorem matchesChar_iff {idx cp : Nat} : nfa.matchesChar idx cp = true ↔
    ∃ st, nfa.states[idx]? = some st ∧ st.matchesChar cp = true := by
  rw [NFA.matchesChar]
  cases nfa.states[idx]? <;> simp

/-- The loop over the states that read the code point. -/
theorem readLoop_spec (cp : Nat) (h : Has nfa set P) : ∃ R, readLoop nfa cp l set = some R ∧
      Has nfa R fun s => P s ∨ After nfa (· ∈ l) cp s := by
  induction l generalizing set P with
  | nil =>
    refine ⟨set, rfl, h.congr fun s => ⟨.inl, ?_⟩⟩
    rintro (hs | ⟨x, _, hx, -⟩)
    · exact hs
    · cases hx
  | cons idx l ih =>
    by_cases hm : nfa.matchesChar idx cp = true
    · obtain ⟨st, hst, hcp⟩ := matchesChar_iff.1 hm
      obtain ⟨R₁, hR₁, h₁⟩ := h.addState st.out1
      obtain ⟨R, hR, h'⟩ := ih h₁
      refine ⟨R, ?_, h'.congr fun s => ?_⟩
      · rw [readLoop, if_pos hm, hst]
        simp only [Option.bind_eq_bind, hR₁, Option.bind_some, hR]
      rw [or_assoc]
      refine or_congr_right ⟨?_, ?_⟩
      · rintro (hs | ⟨x, y, hx, hxy, hys⟩)
        · exact ⟨idx, st.out1, .head _, ⟨st, hst, hcp, rfl⟩, hs⟩
        · exact ⟨x, y, .tail _ hx, hxy, hys⟩
      rintro ⟨x, y, hx, hxy, hys⟩
      obtain rfl | hx := mem_cons.1 hx
      · obtain ⟨st', hst', -, rfl⟩ := hxy
        rw [hst] at hst'
        cases hst'
        exact .inl hys
      · exact .inr ⟨x, y, hx, hxy, hys⟩
    obtain ⟨R, hR, h'⟩ := ih h
    refine ⟨R, by rw [readLoop, if_neg hm, hR], h'.congr fun s => or_congr_right ⟨?_, ?_⟩⟩
    · rintro ⟨x, y, hx, hxy, hys⟩
      exact ⟨x, y, .tail _ hx, hxy, hys⟩
    rintro ⟨x, y, hx, hxy, hys⟩
    obtain rfl | hx := mem_cons.1 hx
    · obtain ⟨st, hst, hcp, -⟩ := hxy
      exact absurd (matchesChar_iff.2 ⟨st, hst, hcp⟩) hm
    · exact ⟨x, y, hx, hxy, hys⟩

/-- **Reading a code point**. -/
theorem Has.read (h : Has nfa set P) (hempty : Has nfa set' fun _ => False) (cp : Nat) :
    ∃ R, readLoop nfa cp set.active set' = some R ∧ Has nfa R (After nfa P cp) := by
  obtain ⟨R, hR, h'⟩ := readLoop_spec (l := set.active) cp hempty
  refine ⟨R, hR, h'.congr fun s => ?_⟩
  rw [false_or]
  constructor
  · rintro ⟨x, y, hx, hxy, hys⟩
    exact ⟨x, y, ((h.mem x).1 hx).2, hxy, hys⟩
  · rintro ⟨x, y, hx, hxy, hys⟩
    exact ⟨x, y, (h.mem x).2 ⟨read_lt hxy, hx⟩, hxy, hys⟩

theorem Has.swap (h : Has nfa current P) (h' : Has nfa next Q) :
    Has nfa (swap current next).1 Q ∧ Has nfa (swap current next).2 fun _ => False := by
  obtain ⟨hwf, hmem⟩ := h.wf.clear.foldl_add (l := next.active) fun s hs => h'.wf.lt hs
  refine ⟨⟨hwf, fun s => ?_, h'.eps⟩, has_empty h'.wf.clear rfl⟩
  rw [← h'.mem]
  refine (hmem s).trans ⟨?_, .inr⟩
  rintro (hs | hs)
  · cases hs
  · exact hs

theorem Has.hasMatch_iff (h : Has nfa set P) :
    hasMatch nfa set = true ↔ ∃ s, P s ∧ (machine nfa.states).final s := by
  rw [hasMatch, any_eq_true]
  constructor
  · rintro ⟨s, hs, hm⟩
    refine ⟨s, ((h.mem s).1 hs).2, ?_⟩
    cases hst : nfa.states[s]? with
    | none => simp [hst] at hm
    | some st =>
      obtain ⟨kind, o1, o2, ranges, negated⟩ := st
      cases kind <;> simp [hst] at hm
      exact ⟨_, hst, rfl⟩
  rintro ⟨s, hs, st, hst, hk⟩
  refine ⟨s, (h.mem s).2 ⟨(List.getElem?_eq_some_iff.1 hst).1, hs⟩, ?_⟩
  obtain ⟨kind, o1, o2, ranges, negated⟩ := st
  simp only at hk
  simp [hst, hk]

end

/-! ### Inputs -/

/-- The code points of a text. -/
def codepoints (cs : List Char) : List Nat := cs.map Char.toNat

theorem codepoints_snoc (cs : List Char) (c : Char) :
    codepoints (cs ++ [c]) = codepoints cs ++ [c.toNat] := map_append

section
variable {nfa : NFA} {done rest : List Char} {c : Char}

/-- At the end of what was read there is the next character. -/
theorem utf32_next (done rest : List Char) (c : Char) :
    utf32 (encode (done ++ c :: rest)) (encode done).length =
      some (c.toNat, (String.utf8EncodeChar c).length) := by
  have e : encode (done ++ c :: rest) = encode done ++ (String.utf8EncodeChar c ++ encode rest) := by
    rw [encode, flatMap_append, flatMap_cons]
    rfl
  rw [e]
  exact utf32_encode _ _ c

theorem length_encode_snoc (done : List Char) (c : Char) : (encode (done ++ [c])).length =
      (encode done).length + (String.utf8EncodeChar c).length := by
  rw [encode, flatMap_append, length_append, flatMap_singleton]
  rfl

theorem length_encode_lt (done rest : List Char) (c : Char) :
    (encode done).length < (encode (done ++ c :: rest)).length := by
  have hpos : 0 < (String.utf8EncodeChar c).length :=
    length_pos_of_ne_nil String.utf8EncodeChar_ne_nil
  have e : encode (done ++ c :: rest) = encode done ++ (String.utf8EncodeChar c ++ encode rest) := by
    rw [encode, flatMap_append, flatMap_cons]
    rfl
  rw [e, length_append, length_append]
  omega

variable (w : List Nat)

/-- The states that a word leads to, and those that one more code point leads to. -/
theorem after_run_iff (cp s : Nat) : After nfa (Run (machine nfa.states) nfa.startState w) cp s ↔
      Run (machine nfa.states) nfa.startState (w ++ [cp]) s := by
  constructor
  · rintro ⟨x, y, hx, hxy, hys⟩
    exact (hx.read hxy).trans_eps hys
  intro h
  obtain ⟨x, y, hx, hxy, hys⟩ := h.snoc_inv
  exact ⟨x, y, hx, hxy, hys⟩

/-- The states at the start. -/
theorem start_spec (nfa : NFA) :
    ∃ R, addState nfa (StateSet.create nfa.numStates) nfa.startState = some R ∧
      Has nfa R (Run (machine nfa.states) nfa.startState []) := by
  obtain ⟨R, hR, h⟩ := (has_empty (StateSet.wf_create nfa.numStates) rfl).addState nfa.startState
  refine ⟨R, hR, h.congr fun s => ?_⟩
  rw [false_or]
  exact ⟨fun hs => Run.start.trans_eps hs, fun hs => hs.nil_inv⟩

theorem isMatchLoop_spec (done rest : List Char) {rounds : Nat}
    (h : Has nfa current (Run (machine nfa.states) nfa.startState (codepoints done)))
    (hempty : Has nfa next fun _ => False) (hr : rest.length ≤ rounds) :
    ∃ b, isMatchLoop nfa (encode (done ++ rest)) rounds (encode done).length current next = some b ∧
      (b = true ↔ ∃ s, Run (machine nfa.states) nfa.startState (codepoints (done ++ rest)) s ∧
        (machine nfa.states).final s) := by
  induction rest generalizing rounds done current next with
  | nil =>
    refine ⟨hasMatch nfa current, ?_, ?_⟩
    · rw [append_nil]
      cases rounds <;> rw [isMatchLoop, if_neg (lt_irrefl _)]
    · rw [h.hasMatch_iff, append_nil]
  | cons c rest ih =>
    cases rounds with
    | zero => cases hr
    | succ rounds =>
      obtain ⟨R, hR, h'⟩ := h.read hempty c.toNat
      obtain ⟨hcur, hnext⟩ := h.swap h'
      have hcur' := hcur.congr fun s => after_run_iff (codepoints done) c.toNat s
      rw [← codepoints_snoc] at hcur'
      obtain ⟨b, hb, hiff⟩ := ih (done ++ [c]) hcur' hnext (Nat.le_of_succ_le_succ hr)
      rw [append_assoc, singleton_append] at hb hiff
      refine ⟨b, ?_, hiff⟩
      rw [isMatchLoop, if_pos (length_encode_lt done rest c), utf32_next]
      simp only [Option.bind_eq_bind, hR, Option.bind_some]
      rw [← length_encode_snoc]
      exact hb

/-! ### Searching -/

/-- The states that a suffix of the word leads to. -/
def Suffixes (nfa : NFA) (w : List Nat) (s : Nat) : Prop :=
  ∃ p u, w = p ++ u ∧ Run (machine nfa.states) nfa.startState u s

/-- The word has a part that leads to a state that accepts. -/
def Found (nfa : NFA) (w : List Nat) : Prop :=
  ∃ p u q, w = p ++ u ++ q ∧
    ∃ s, Run (machine nfa.states) nfa.startState u s ∧ (machine nfa.states).final s

/-- A code point leads to the states of the suffixes that end with it. -/
theorem after_suffixes_iff (cp s : Nat) : After nfa (Suffixes nfa w) cp s ↔
      ∃ p u, w = p ++ u ∧ Run (machine nfa.states) nfa.startState (u ++ [cp]) s := by
  constructor
  · rintro ⟨x, y, ⟨p, u, hw, hx⟩, hxy, hys⟩
    exact ⟨p, u, hw, (hx.read hxy).trans_eps hys⟩
  rintro ⟨p, u, hw, h⟩
  obtain ⟨x, y, hx, hxy, hys⟩ := h.snoc_inv
  exact ⟨x, y, ⟨p, u, hw, hx⟩, hxy, hys⟩

/-- The suffixes of a longer word are those that end with its last code point, and the empty one. -/
theorem suffixes_snoc (cp s : Nat) : Suffixes nfa (w ++ [cp]) s ↔
      After nfa (Suffixes nfa w) cp s ∨ Run (machine nfa.states) nfa.startState [] s := by
  rw [after_suffixes_iff]
  constructor
  · rintro ⟨p, u, hw, h⟩
    obtain rfl | ⟨u, a, rfl⟩ := eq_nil_or_concat' u
    · exact .inr h
    rw [← append_assoc] at hw
    obtain ⟨hpu, ⟨⟩⟩ := append_inj' hw rfl
    exact .inl ⟨p, u, hpu, h⟩
  · rintro (⟨p, u, rfl, h⟩ | h)
    · exact ⟨p, u ++ [cp], append_assoc _ _ _, h⟩
    · exact ⟨w ++ [cp], [], (append_nil _).symm, h⟩

/-- A part of a longer word that accepts is one that ends with its last code point, or was found
before. -/
theorem found_snoc (nfa : NFA) (w : List Nat) (cp : Nat) : Found nfa (w ++ [cp]) ↔
      Found nfa w ∨ ∃ s, After nfa (Suffixes nfa w) cp s ∧ (machine nfa.states).final s := by
  constructor
  · rintro ⟨p, u, q, hw, s, hs, hf⟩
    obtain rfl | ⟨q, a, rfl⟩ := eq_nil_or_concat' q
    · rw [append_nil] at hw
      obtain hafter | hnil := (suffixes_snoc w cp s).1 ⟨p, u, hw, hs⟩
      · exact .inr ⟨s, hafter, hf⟩
      · exact .inl ⟨[], [], w, rfl, s, hnil, hf⟩
    · rw [← append_assoc] at hw
      obtain ⟨hpq, -⟩ := append_inj' hw rfl
      exact .inl ⟨p, u, q, hpq, s, hs, hf⟩
  rintro (⟨p, u, q, rfl, h⟩ | ⟨s, hs, hf⟩)
  · exact ⟨p, u, q ++ [cp], (append_assoc _ _ _), h⟩
  · obtain ⟨p, u, rfl, h⟩ := (after_suffixes_iff w cp s).1 hs
    exact ⟨p, u ++ [cp], [], by simp, s, h, hf⟩

theorem found_append {w : List Nat} (h : Found nfa w) (v : List Nat) : Found nfa (w ++ v) := by
  obtain ⟨p, u, q, rfl, h⟩ := h
  exact ⟨p, u, q ++ v, append_assoc _ _ _, h⟩

theorem matchSearchLoop_spec (done rest : List Char) {rounds : Nat} {Q : Nat → Prop}
    (h : Has nfa current Q) (hQ : ∀ s, Suffixes nfa (codepoints done) s ↔
      Q s ∨ Run (machine nfa.states) nfa.startState [] s)
    (hempty : Has nfa next fun _ => False) (hnot : ¬ Found nfa (codepoints done))
    (hr : rest.length ≤ rounds) :
    ∃ b, matchSearchLoop nfa (encode (done ++ rest)) rounds (encode done).length current next =
        some b ∧ (b = true ↔ Found nfa (codepoints (done ++ rest))) := by
  induction rest generalizing rounds done current next Q with
  | nil =>
    refine ⟨false, ?_, ?_⟩
    · rw [append_nil]
      cases rounds <;> rw [matchSearchLoop, if_neg (lt_irrefl _)]
    · rw [append_nil]
      exact ⟨Bool.noConfusion, fun hf => absurd hf hnot⟩
  | cons c rest ih =>
    cases rounds with
    | zero => cases hr
    | succ rounds =>
      obtain ⟨S, hS, hs⟩ := h.addState nfa.startState
      have hs' : Has nfa S (Suffixes nfa (codepoints done)) := hs.congr fun s => by
        rw [hQ]
        exact or_congr_right ⟨fun e => Run.start.trans_eps e, fun r => r.nil_inv⟩
      obtain ⟨R, hR, h'⟩ := hs'.read hempty c.toNat
      have hfound := found_snoc nfa (codepoints done) c.toNat
      rw [← codepoints_snoc, ← h'.hasMatch_iff, or_iff_right hnot] at hfound
      by_cases hm : hasMatch nfa R = true
      · refine ⟨true, ?_, iff_of_true rfl ?_⟩
        · rw [matchSearchLoop, if_pos (length_encode_lt done rest c), utf32_next]
          simp only [Option.bind_eq_bind, hS, hR, Option.bind_some, if_pos hm]
        have e : codepoints (done ++ c :: rest) =
            codepoints (done ++ [c]) ++ codepoints rest := by
          rw [codepoints, codepoints, codepoints, ← map_append, append_assoc]
          rfl
        rw [e]
        exact found_append (hfound.2 hm) _
      obtain ⟨hcur, hnext⟩ := hs'.swap h'
      obtain ⟨b, hb, hiff⟩ := ih (done ++ [c]) hcur
        (fun s => by rw [codepoints_snoc]; exact suffixes_snoc _ _ s) hnext
        (fun hf => hm (hfound.1 hf)) (Nat.le_of_succ_le_succ hr)
      rw [append_assoc, singleton_append] at hb hiff
      refine ⟨b, ?_, hiff⟩
      rw [matchSearchLoop, if_pos (length_encode_lt done rest c), utf32_next]
      simp only [Option.bind_eq_bind, hS, hR, Option.bind_some, if_neg hm]
      rw [← length_encode_snoc]
      exact hb

end

/-- There is at least one byte for each character. -/
theorem length_le_encode (cs : List Char) : cs.length ≤ (encode cs).length := by
  induction cs with
  | nil => exact Nat.zero_le _
  | cons c cs ih =>
    have hpos : 0 < (String.utf8EncodeChar c).length :=
      length_pos_of_ne_nil String.utf8EncodeChar_ne_nil
    rw [encode, flatMap_cons, length_append, ← encode, length_cons]
    omega

/-- **Compiling and simulating is exact**: where the automaton is built, `is_match` says whether the
code points of the input are a word of the language, and `search` says whether some of them in a row
are. -/
theorem compile_and_simulate_exact {ast : RegexNode} (hs : ast.Sorted) {nfa : NFA}
    (hb : build ast = some nfa) (input : List Char) :
    (∃ b, isMatch nfa (encode input) = some b ∧ (b = true ↔ codepoints input ∈ ast.language)) ∧
      ∃ b, search nfa (encode input) = some b ∧
        (b = true ↔ ∃ p u q, codepoints input = p ++ u ++ q ∧ u ∈ ast.language) := by
  have haccept : ∀ w, (∃ s, Run (machine nfa.states) nfa.startState w s ∧
      (machine nfa.states).final s) ↔ w ∈ ast.language := fun w =>
    accepts_iff_run.symm.trans (build_accepts hs hb w)
  have hfound : ∀ w, Found nfa w ↔ ∃ p u q, w = p ++ u ++ q ∧ u ∈ ast.language := fun w => by
    simp only [Found, haccept]
  have hempty : Has nfa (StateSet.create nfa.numStates) fun _ => False :=
    has_empty (StateSet.wf_create nfa.numStates) rfl
  obtain ⟨R, hR, h⟩ := start_spec nfa
  constructor
  · obtain ⟨b, hrun, hiff⟩ := isMatchLoop_spec [] input h hempty
      (length_le_encode input)
    refine ⟨b, ?_, ?_⟩
    · rw [isMatch, hR]
      exact hrun
    · rwa [haccept] at hiff
  by_cases hm : hasMatch nfa R = true
  · refine ⟨true, ?_, iff_of_true rfl ?_⟩
    · rw [search, hR]
      exact if_pos hm
    · exact ⟨[], [], codepoints input, rfl, (haccept []).1 (h.hasMatch_iff.1 hm)⟩
  have hnil : ∀ s, Suffixes nfa (codepoints []) s ↔
      Run (machine nfa.states) nfa.startState [] s ∨
        Run (machine nfa.states) nfa.startState [] s := by
    intro s
    rw [or_self]
    constructor
    · rintro ⟨p, u, hw, hu⟩
      obtain ⟨-, rfl⟩ := append_eq_nil_iff.1 hw.symm
      exact hu
    · exact fun hu => ⟨[], [], rfl, hu⟩
  have hnot : ¬ Found nfa (codepoints []) := by
    rintro ⟨p, u, q, hw, hu⟩
    obtain ⟨hpu, -⟩ := append_eq_nil_iff.1 hw.symm
    obtain ⟨-, rfl⟩ := append_eq_nil_iff.1 hpu
    exact hm (h.hasMatch_iff.2 hu)
  obtain ⟨b, hrun, hiff⟩ := matchSearchLoop_spec [] input h hnil hempty hnot
    (length_le_encode input)
  refine ⟨b, ?_, ?_⟩
  · rw [search, hR]
    exact (if_neg hm).trans hrun
  · exact hiff.trans (hfound _)

/-- `(a?)*` on a text with a character that is not `a`. -/
theorem nested_quantifiers_exact :
    ∃ b, isMatch (((build (.quantified (.quantified (.literal 97) 0 (some 1)) 0 none)).getD
        { states := [], startState := 0 })) (encode ['a', 'b']) = some b ∧
      (b = true ↔ codepoints ['a', 'b'] ∈
        (RegexNode.quantified (.quantified (.literal 97) 0 (some 1)) 0 none).language) :=
  (@compile_and_simulate_exact (.quantified (.quantified (.literal 97) 0 (some 1)) 0 none)
    trivial _ rfl ['a', 'b']).1

end SpacePony.Iregex
