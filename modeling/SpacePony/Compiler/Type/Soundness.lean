import SpacePony.Compiler.Type.Declarative

/-!
# Type — what `is_x_sub_x` accepts

A comparison that is answered with `true` belongs to the greatest relation closed under the rules
(`subtype_sound`), provided that what happens on the way is exact: a comparison is answered by an
assumption or by an entry only if that is about the very same types and mode, and no entry that
counts as depending on the lowest assumption depended on another one.

The assumption stack ignores capabilities and the mode, so this is not always so:
`recursive_result_ignores_cap`.
-/

namespace SpacePony.Subtype

open List
open Coinduction (under)

variable (P : Program)

/-- The event is about one comparison only. -/
def Event.Exact : Event → Prop
  | .compare _ q => q.sub.IsType
  | .cycle assumed asked => assumed = asked ∨ Declarative P asked
  | .reuse entry asked _ => entry.result = true → entry.query = asked ∨ Declarative P asked
  | .record entry hits => entry.result = true → entry.kind = .dependsOnTopLevel →
      ∀ i ∈ hits, i = 0 ∨ entry.stack.length ≤ i

def State.Exact (s : State) : Prop := ∀ ev ∈ s.log, ev.Exact P

/-- What holds once the assumptions at some indices are granted, and these assumptions. -/
def known (stack : List Query) (hits : List Nat) : Set Query :=
  under (rules P) (assumed stack hits) ∪ assumed stack hits

/-- A positive entry holds, in the one case once the lowest assumption is granted. -/
def Entry.Sound (entry : Entry) (stack : List Query) : Prop :=
  entry.result = true →
    match entry.kind with
    | .unconditional => entry.query ∈ under (rules P) ∅
    | .dependsOnTopLevel => ∀ b, stack[0]? = some b → entry.query ∈ under (rules P) {b}

/-- The entries that can be looked up hold, and no cycle went below the recorded index. -/
structure State.Sound (s : State) : Prop where
  cache : s.stack ≠ [] → ∀ k entry, s.cache k = some entry → entry.Sound P s.stack
  minMatchIdx : ∀ i ∈ s.hits, ∃ j ≤ i, s.minMatchIdx = some j

variable {P}

variable {stack : List Query} {hits : List Nat}

theorem known_mono {hits' : List Nat} (h : assumed stack hits ⊆ assumed stack hits') :
    known P stack hits ⊆ known P stack hits' :=
  Set.union_subset_union (Coinduction.under_mono h) h

theorem State.Extends.exact {s s' : State} (h : s.Extends s') (hs : s'.Exact P) : s.Exact P :=
  fun ev hev => hs ev (h.log hev)

theorem State.Extends.known {s s' : State} (h : s.Extends s') :
    known P s.stack s.hits ⊆ known P s'.stack s'.hits := by
  have hhits := h.hits
  rw [h.stack] at hhits ⊢
  exact known_mono hhits

namespace State

variable {s t : State} {errorf : Bool} {q : Query} {r : Outcome}

/-! ### The steps -/

theorem Sound.clear (h : s.Sound P) : s.clear.Sound P := by
  by_cases hs : s.stack = []
  · refine ⟨fun hne => absurd (s.clear_stack.trans hs) hne, ?_⟩
    simp [State.clear, hs]
  · rw [clear_eq_self hs]
    exact h

theorem minIdx_le {a b : Option Nat} {i : Nat} (h : ∃ j ≤ i, a = some j ∨ b = some j) :
    ∃ j ≤ i, minIdx a b = some j := by
  obtain ⟨j, hj, h⟩ := h
  cases a with
  | none => simpa [minIdx] using ⟨j, hj, by simpa using h⟩
  | some a =>
    cases b with
    | none => exact ⟨j, hj, by simpa [minIdx] using h⟩
    | some b =>
      refine ⟨min a b, ?_, rfl⟩
      rcases h with h | h
      · cases h
        exact (min_le_left ..).trans hj
      · cases h
        exact (min_le_right ..).trans hj

theorem Sound.cycle (h : s.Sound P) (index : Nat) : (s.cycle index q).Sound P where
  cache := h.cache
  minMatchIdx := by
    intro i hi
    refine minIdx_le ?_
    rcases mem_append.1 hi with hi | hi
    · obtain ⟨j, hj, hmin⟩ := h.minMatchIdx i hi
      exact ⟨j, hj, .inl hmin⟩
    · obtain rfl := mem_singleton.1 hi
      exact ⟨i, le_rfl, .inr rfl⟩

theorem Sound.reuse (h : s.Sound P) (entry : Entry) : (s.reuse entry q).Sound P := by
  unfold State.reuse
  split
  · refine ⟨h.cache, fun i _ => ⟨0, Nat.zero_le i, rfl⟩⟩
  · exact ⟨h.cache, h.minMatchIdx⟩

/-- Descending into a question keeps what the cache holds sound. -/
theorem Sound.descend (h : s.Sound P) (hstack : s.stack ≠ [] → stack[0]? = s.stack[0]?)
    (hempty : s.stack = [] → ∀ k, s.cache k = none) : (s.descend stack errorf q).Sound P where
  cache := by
    intro _ k entry hentry
    by_cases hs : s.stack = []
    · exact absurd (hentry.symm.trans (hempty hs k)) (by simp)
    have hsound := h.cache hs k entry hentry
    rw [Entry.Sound, ← hstack hs] at hsound
    exact hsound
  minMatchIdx := by simp [State.descend]

/-- What is assumed inside a comparison that is assumed itself. -/
theorem assumed_append_subset : assumed (stack ++ [q]) hits ⊆ insert q (assumed stack hits) := by
  rintro x ⟨i, hi, hx⟩
  rcases Nat.lt_trichotomy i stack.length with hlt | heq | hgt
  · rw [getElem?_append_left hlt] at hx
    exact .inr ⟨i, hi, hx⟩
  · subst heq
    simp only [getElem?_concat_length, Option.some.injEq] at hx
    exact .inl hx.symm
  · rw [getElem?_append_right hgt.le, getElem?_singleton, if_neg (Nat.sub_ne_zero_of_lt hgt)] at hx
    cases hx

/-- What holds inside a comparison once it is granted holds outside. -/
theorem mem_under_of_push {v : Verdict} (h : q ∈ under (rules P) (assumed (v.push stack q) hits)) :
    q ∈ under (rules P) (assumed stack hits) := by
  cases v with
  | enter =>
    exact Coinduction.mem_under_of_insert (Coinduction.under_mono assumed_append_subset h)
  | plain | bail | cycle index => exact h

/-- No cycle of a comparison went below its own depth. -/
theorem assumed_eq_empty (hmin : ∀ i ∈ t.hits, ∃ j ≤ i, t.minMatchIdx = some j)
    (hall : t.minMatchIdx.all fun i => decide (s.stack.length ≤ i)) :
    assumed s.stack t.hits = ∅ := by
  refine Set.eq_empty_of_forall_notMem ?_
  rintro x ⟨i, hi, hx⟩
  obtain ⟨j, hj, hmin⟩ := hmin i hi
  simp only [hmin, Option.all_some, decide_eq_true_eq] at hall
  rw [getElem?_eq_none (hall.trans hj)] at hx
  cases hx

theorem newEntry_sound {entry : Entry} (hmin : ∀ i ∈ t.hits, ∃ j ≤ i, t.minMatchIdx = some j)
    (hq : r = .answer true → q ∈ under (rules P) (assumed s.stack t.hits))
    (hnew : newEntry s errorf q r t = some entry)
    (hexact : (Event.record entry t.hits).Exact P) : entry.Sound P s.stack := by
  unfold newEntry at hnew
  split at hnew
  · split at hnew
    · cases hnew
    split at hnew
    · -- it depends on no assumption outside
      rename_i result _ hall
      cases hnew
      rintro rfl
      rw [assumed_eq_empty hmin hall] at hq
      exact hq rfl
    split at hnew
    · -- it depends on the lowest one only, for its cycles went nowhere else
      cases hnew
      rintro rfl b hb
      refine Coinduction.under_mono ?_ (hq rfl)
      rintro x ⟨i, hi, hx⟩
      rcases hexact rfl rfl i hi with rfl | hle
      · exact Option.some.inj (hx.symm.trans hb)
      · rw [getElem?_eq_none hle] at hx
        cases hx
    · cases hnew
  · cases hnew

theorem Sound.leave (hs : s.Sound P) (ht : t.Sound P) {v : Verdict}
    (hbottom : s.stack ≠ [] → (v.push s.stack q)[0]? = s.stack[0]?)
    (hstack : t.stack = v.push s.stack q)
    (hq : r = .answer true → q ∈ under (rules P) (assumed s.stack t.hits))
    (hexact : (s.leave errorf q r t).Exact P) : (s.leave errorf q r t).Sound P where
  cache := by
    intro hne k entry hentry
    have hne' : s.stack ≠ [] := hne
    have hbottom' : t.stack[0]? = s.stack[0]? := hstack ▸ hbottom hne'
    rcases leave_cache hentry with hentry | ⟨-, hnew⟩
    · have hsound := ht.cache (fun h0 => hne' (by simpa [h0] using hbottom'.symm)) k entry hentry
      rwa [Entry.Sound, hbottom'] at hsound
    · refine newEntry_sound ht.minMatchIdx hq hnew (hexact _ ?_)
      simp [State.leave, hnew]
  minMatchIdx := by
    intro i hi
    refine minIdx_le ?_
    rcases mem_append.1 hi with hi | hi
    · obtain ⟨j, hj, hmin⟩ := hs.minMatchIdx i hi
      exact ⟨j, hj, .inl hmin⟩
    · obtain ⟨j, hj, hmin⟩ := ht.minMatchIdx i hi
      exact ⟨j, hj, .inr hmin⟩

end State

/-! ### The comparison -/

/-- An answer from the cache. -/
theorem reuse_known {s : State} {errorf : Bool} {q : Query} {entry : Entry} (hs : s.Sound P)
    (hempty : s.stack = [] → ∀ k, s.cache k = none) (hlookup : s.lookup errorf q = some entry)
    (hexact : (s.reuse entry q).Exact P) (hresult : Outcome.answer entry.result = .answer true) :
    q ∈ known P (s.reuse entry q).stack (s.reuse entry q).hits := by
  simp only [Outcome.answer.injEq] at hresult
  obtain ⟨-, hentry⟩ := State.lookup_some hlookup
  have hne : s.stack ≠ [] := by
    intro h
    rw [hempty h] at hentry
    cases hentry
  have hsound := hs.cache hne _ entry hentry hresult
  rcases hexact _ (s.mem_reuse_log entry q) hresult with rfl | hdecl
  · cases hkind : entry.kind with
    | unconditional =>
      simp only [hkind] at hsound
      exact .inl (Coinduction.under_mono (Set.empty_subset _) hsound)
    | dependsOnTopLevel =>
      simp only [hkind] at hsound
      obtain ⟨b, rest, hb⟩ := exists_cons_of_ne_nil hne
      have hzero : s.stack[0]? = some b := by rw [hb]; rfl
      refine .inl (Coinduction.under_mono ?_ (hsound b hzero))
      rintro x rfl
      simp only [State.reuse, hkind, if_true]
      exact ⟨0, by simp, hzero⟩
  · exact .inl (Coinduction.gfp_le_under hdecl)

/-- An answer from an assumption. -/
theorem cycle_known {s : State} {q : Query} {index : Nat} (hv : verdict s.stack q = .cycle index)
    (hexact : (s.cycle index q).Exact P) :
    q ∈ known P (s.cycle index q).stack (s.cycle index q).hits := by
  unfold verdict at hv
  split at hv
  · cases hv
  split at hv
  · cases hv
  split at hv
  · rename_i i hfind
    cases hv
    obtain ⟨hlt, -⟩ := findIdx?_eq_some_iff_getElem.1 hfind
    obtain ⟨assumed, hassumed⟩ : ∃ a, s.stack[index]? = some a :=
      ⟨_, getElem?_eq_getElem hlt⟩
    have hev : (Event.cycle assumed q).Exact P := hexact _ (by simp [State.cycle, hassumed])
    rcases hev with rfl | hdecl
    · exact .inr ⟨index, by simp [State.cycle], hassumed⟩
    · exact .inl (Coinduction.gfp_le_under hdecl)
  · cases hv

section
variable {n : Nat} {s : State} (ih : ∀ (eq : Bool × Query) (s : State), s.Sound P →
    (isXSubXCached P n eq s).2.Exact P → (isXSubXCached P n eq s).2.Sound P ∧
      ((isXSubXCached P n eq s).1 = .answer true →
        eq.2 ∈ known P (isXSubXCached P n eq s).2.stack (isXSubXCached P n eq s).2.hits))
include ih

/-- A comparison that goes on: what it relied on was answered soundly, so it follows by rules from
what is known inside. -/
theorem descend_sound {errorf : Bool} {q : Query} (hs : (s.descend stack errorf q).Sound P) {t : State}
    {r : Outcome} (hrun : (isXSubXImpl P errorf q).run (isXSubXCached P n) (expandTupleUnions P n)
      (s.descend stack errorf q) = (r, t)) (hexact : t.Exact P) : t.Sound P ∧ t.stack = stack ∧
      (r = .answer true → q ∈ under (rules P) (assumed stack t.hits)) := by
  have hext : (s.descend stack errorf q).Extends t := by
    have h := (isXSubXImpl P errorf q).run_rel (f := expandTupleUnions P n) State.Extends.refl
      (fun hab hbc => hab.trans hbc) (isXSubXCached_extends (P := P) n) (s.descend stack errorf q)
    rwa [hrun] at h
  have hI : ∀ (eq : Bool × Query) (s : State), s.Sound P → (isXSubXCached P n eq s).2.Exact P →
      (isXSubXCached P n eq s).2.Sound P := fun eq s hs hex => (ih eq s hs hex).1
  have hG : ∀ (eq : Bool × Query) (s : State), (isXSubXCached P n eq s).2.Exact P → s.Exact P :=
    fun eq s hex => (isXSubXCached_extends n eq s).exact hex
  have hend : ((isXSubXImpl P errorf q).run (isXSubXCached P n) (expandTupleUnions P n)
      (s.descend stack errorf q)).2.Exact P := by rwa [hrun]
  have ht := Ask.run_invariant (I := State.Sound P) (G := State.Exact P) hI hG _ _ hs hend
  have hholds := Ask.run_holds (I := State.Sound P) (G := State.Exact P)
    (W := fun s => { p : Bool × Query | p.2 ∈ known P s.stack s.hits }) hI hG
    (fun eq s p hp => (isXSubXCached_extends n eq s).known hp)
    (fun eq s hs hex => (ih eq s hs hex).2) _ _ hs hend
  rw [hrun] at ht hholds
  refine ⟨ht, hext.stack, fun hr => ?_⟩
  have htype : q.sub.IsType :=
    hexact (.compare errorf q) (hext.log (mem_append_right _ (.head _)))
  have hfetch : HoldsIn P (known P t.stack t.hits) (isXSubXImpl P errorf q) :=
    (hholds hr).fetch_mono fun x y hy => ⟨n, hy⟩
  have hrule := impl_sound htype hfetch
  have hstack : t.stack = stack := hext.stack
  rw [hstack] at hrule
  rw [← Coinduction.under_eq]
  exact hrule

/-- A comparison that goes on, once it is left again. -/
theorem leave_known {errorf : Bool} {q : Query} (hs : s.Sound P)
    (hempty : s.stack = [] → ∀ k, s.cache k = none) {v : Verdict} {t : State} {r : Outcome}
    (hrun : (isXSubXImpl P errorf q).run (isXSubXCached P n) (expandTupleUnions P n)
      (s.descend (v.push s.stack q) errorf q) = (r, t))
    (hexact : (s.leave errorf q r t).Exact P) : (s.leave errorf q r t).Sound P ∧
      (r = .answer true →
        q ∈ known P (s.leave errorf q r t).stack (s.leave errorf q r t).hits) := by
  have hbottom : s.stack ≠ [] → (v.push s.stack q)[0]? = s.stack[0]? := by
    intro hne
    cases v with
    | enter => exact getElem?_append_left (length_pos_iff.2 hne)
    | plain | bail | cycle index => rfl
  have hexact' : t.Exact P := fun ev hev => hexact ev (mem_append_left _ hev)
  obtain ⟨ht, hstack, hq⟩ := descend_sound ih (hs.descend hbottom hempty) hrun hexact'
  have hq' : r = .answer true → q ∈ under (rules P) (assumed s.stack t.hits) :=
    fun hr => State.mem_under_of_push (hq hr)
  refine ⟨hs.leave ht hbottom hstack hq' hexact, fun hr => .inl ?_⟩
  exact Coinduction.under_mono (assumed_mono (subset_append_right ..)) (hq' hr)

end

/-- One call of `is_x_sub_x` keeps the state sound, and what it answers with `true` is known. -/
theorem isXSubXCached_sound (n : Nat) (eq : Bool × Query) (s : State) (hs : s.Sound P)
    (hexact : (isXSubXCached P n eq s).2.Exact P) : (isXSubXCached P n eq s).2.Sound P ∧
      ((isXSubXCached P n eq s).1 = .answer true →
        eq.2 ∈ known P (isXSubXCached P n eq s).2.stack (isXSubXCached P n eq s).2.hits) := by
  induction n generalizing eq s with
  | zero => exact ⟨hs, fun h => by simp [isXSubXCached] at h⟩
  | succ n ih =>
    obtain ⟨errorf, q⟩ := eq
    have hclear := hs.clear
    have hempty : s.clear.stack = [] → ∀ k, s.clear.cache k = none := by
      intro h k
      rw [s.clear_stack] at h
      simp [State.clear, h]
    simp only [isXSubXCached] at hexact ⊢
    cases hlookup : s.clear.lookup errorf q with
    | some entry =>
      simp only [hlookup] at hexact ⊢
      exact ⟨hclear.reuse entry, reuse_known hclear hempty hlookup hexact⟩
    | none =>
      simp only [hlookup] at hexact ⊢
      cases hv : verdict s.clear.stack q with
      | bail =>
        simp only [hv] at hexact ⊢
        exact ⟨⟨hclear.cache, hclear.minMatchIdx⟩, fun h => by simp at h⟩
      | cycle index =>
        simp only [hv] at hexact ⊢
        exact ⟨hclear.cycle index, fun _ => cycle_known hv hexact⟩
      | plain | enter =>
        simp only [hv] at hexact ⊢
        exact leave_known ih hclear hempty rfl hexact

/-! ### The result -/

/-- **What is accepted is a subtype**: a comparison from outside that is answered with `true` belongs
to the greatest relation closed under the rules, if all that happens on the way is exact. -/
theorem subtype_sound {n : Nat} {errorf : Bool} {q : Query} {cache : List Word → Option Entry}
    {minMatchIdx : Option Nat} {subtreePoisoned : Bool}
    (hexact : ∀ ev ∈ (isXSubXCached P n (errorf, q)
      (.idle cache minMatchIdx subtreePoisoned)).2.log, ev.Exact P)
    (h : (isXSubXCached P n (errorf, q) (.idle cache minMatchIdx subtreePoisoned)).1 =
      .answer true) : Declarative P q := by
  have hidle : (State.idle cache minMatchIdx subtreePoisoned).Sound P :=
    ⟨fun hne => absurd rfl hne, by simp [State.idle]⟩
  have hknown := (isXSubXCached_sound n (errorf, q) _ hidle hexact).2 h
  have hstack := (isXSubXCached_extends (P := P) n (errorf, q)
    (.idle cache minMatchIdx subtreePoisoned)).stack
  rw [hstack] at hknown
  have hnone : ∀ hits, assumed (State.idle cache minMatchIdx subtreePoisoned).stack hits = ∅ := by
    intro hits
    simp [assumed, State.idle]
  rw [known, hnone, Set.union_empty] at hknown
  exact Coinduction.under_empty_le hknown

/-- `interface I`, `fun f(): I ref` and `interface J`, `fun f(): J k`. -/
def twoInterfaces (k : Cap) : Program :=
  blankWith (fun _ => .interface) fun
    | 0 => some (getter (plainType 0 .ref))
    | 1 => some (getter (plainType 1 k))
    | _ => none

/-- `I ref <: J ref`. -/
def refBelowRef : Query := ⟨plainType 0 .ref, plainType 1 .ref, .sub⟩

/-- With `fun f(): J ref` the comparison of the results is the one that is assumed. -/
theorem recursive_interfaces_sound : Declarative (twoInterfaces .ref) refBelowRef := by
  have hlog : (isXSubXCached (twoInterfaces .ref) 3 (false, refBelowRef)
      (.idle (fun _ => none) none false)).2.log = [.compare false refBelowRef,
        .cycle refBelowRef refBelowRef, .record ⟨true, .unconditional, refBelowRef, []⟩ [0]] := rfl
  refine @subtype_sound _ 3 false refBelowRef (fun _ => none) none false ?_ (by decide)
  intro ev hev
  rw [hlog] at hev
  rcases mem_cons.1 hev with rfl | hev
  · trivial
  rcases mem_cons.1 hev with rfl | hev
  · exact .inl rfl
  rcases mem_cons.1 hev with rfl | hev
  · exact fun _ hkind => by cases hkind
  · cases hev

/-- **An assumption stands in for another capability**: with `fun f(): J val` the result `I ref` is
compared with `J val`, matches the assumption and is taken for a subtype of it. -/
theorem recursive_result_ignores_cap : (isXSubXCached (twoInterfaces .val) 3 (false, refBelowRef)
      (.idle (fun _ => none) none false)).1 = .answer true ∧
      ¬Declarative (twoInterfaces .val) refBelowRef := by
  refine ⟨by decide, fun h => ?_⟩
  have hinterface := fun (k : Cap) (h : Declarative (twoInterfaces .val)
      ⟨plainType 0 .ref, plainType 1 k, .sub⟩) =>
    @Rule.of_interface _ _ ⟨0, [], .ref, .none⟩ ⟨1, [], k, .none⟩ .sub rfl h.rule
  obtain ⟨f, hf, hmethod⟩ := (hinterface .ref h).2.members (getter (plainType 1 .val))
    mem_cons_self
  obtain rfl : getter (plainType 0 .ref) = f := Option.some.inj hf
  -- the results are compared as `I ref` and `J val`
  have hresult : Declarative (twoInterfaces .val) ⟨plainType 0 .ref, plainType 1 .val, .sub⟩ :=
    hmethod.2.result
  exact absurd (hinterface .val hresult).1 (by decide)

end SpacePony.Subtype
