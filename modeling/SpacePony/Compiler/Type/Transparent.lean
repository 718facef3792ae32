import SpacePony.Compiler.Type.Assume

/-!
# Type — when the cache is transparent

`is_x_sub_x` with its cache answers as the same recursion without it (`cache_transparent`), provided
that every entry that is used was recorded for the very same types, and that the stack it was
recorded under and the stack it is used under treat the comparison alike, all the way down.

Neither is always so.  A fingerprint does not tell value arguments apart
(`value_arguments_share_an_entry`), and an entry is used under other stacks than its own.
-/

namespace SpacePony.Subtype

/-! ### Fuel -/

variable {stack : List Query} {errorf : Bool} {q : Query}

section Fuel

variable {P : Program} {n n' : Nat} {y : Lookup (List Ty)}

theorem unionAlternatives_more {expand expand' : Ty → Option (Lookup (List Ty))}
    (h : ∀ t y, expand t = some y → expand' t = some y) {ts result : List Ty}
    (hy : unionAlternatives expand ts result = some y) :
    unionAlternatives expand' ts result = some y := by
  induction ts generalizing result with
  | nil => exact hy
  | cons t ts ih =>
    simp only [unionAlternatives] at hy ⊢
    cases ht : expand t with
    | none => simp [ht] at hy
    | some r =>
      simp only [ht] at hy
      simp only [h t r ht]
      cases r with
      | null | failed => exact hy
      | found alts =>
        simp only at hy ⊢
        split
        · rename_i hlen
          rwa [if_pos hlen] at hy
        rename_i hlen
        rw [if_neg hlen] at hy
        exact ih hy

theorem tupleAlternatives_more {expand expand' : Ty → Option (Lookup (List Ty))}
    (h : ∀ t y, expand t = some y → expand' t = some y) {ts : List Ty} {result : List (List Ty)}
    (hy : tupleAlternatives expand ts result = some y) :
    tupleAlternatives expand' ts result = some y := by
  induction ts generalizing result with
  | nil => exact hy
  | cons t ts ih =>
    simp only [tupleAlternatives] at hy ⊢
    cases ht : expand t with
    | none => simp [ht] at hy
    | some r =>
      simp only [ht] at hy
      simp only [h t r ht]
      cases r with
      | null | failed => exact hy
      | found alts =>
        simp only at hy ⊢
        split
        · rename_i hlen
          rwa [if_pos hlen] at hy
        rename_i hlen
        rw [if_neg hlen] at hy
        exact ih hy

theorem expandTypeAlternatives_more (hn : n ≤ n') {t : Ty}
    (h : expandTypeAlternatives P n t = some y) : expandTypeAlternatives P n' t = some y := by
  induction n generalizing n' t y with
  | zero => cases h
  | succ n ih =>
    obtain ⟨n', rfl⟩ := Nat.exists_eq_add_of_le' hn
    have hn : n ≤ n' + n := Nat.le_add_left n n'
    cases t with
    | uniontype ts => exact unionAlternatives_more (fun t y => ih hn) h
    | tupletype ts => exact tupleAlternatives_more (fun t y => ih hn) h
    | typealiasref d args cap eph =>
      simp only [expandTypeAlternatives] at h ⊢
      split
      · rename_i hd
        simpa only [hd] using h
      · rename_i hd
        simpa only [hd] using h
      · rename_i t hd
        exact ih hn (by simpa only [hd] using h)
    | _ => exact h

theorem expandTupleUnions_more (hn : n ≤ n') {t : Ty} (h : expandTupleUnions P n t = some y) :
    expandTupleUnions P n' t = some y := by
  unfold expandTupleUnions at h ⊢
  cases hexp : expandTypeAlternatives P n t with
  | none => simp [hexp] at h
  | some r =>
    rw [hexp] at h
    rw [expandTypeAlternatives_more hn hexp]
    exact h

theorem isXSubXUncached_le (hn : n ≤ n') (stack : List Query) (eq : Bool × Query) :
    (isXSubXUncached P n stack eq).Le (isXSubXUncached P n' stack eq) := by
  induction n generalizing n' stack eq with
  | zero => exact fun h => absurd rfl h
  | succ n ih =>
    obtain ⟨n', rfl⟩ := Nat.exists_eq_add_of_le' hn
    have hn : n ≤ n' + n := Nat.le_add_left n n'
    obtain ⟨errorf, q⟩ := eq
    simp only [isXSubXUncached]
    cases verdict stack q with
    | bail | cycle index => exact .refl _
    | plain
    | enter => exact Ask.eval_le (fun eq => ih hn _ eq) (fun x y => expandTupleUnions_more hn) _

/-- Two bounds under which the comparison ends give one outcome. -/
theorem isXSubXUncached_unique {eq : Bool × Query} (h : isXSubXUncached P n stack eq ≠ .timeout)
    (h' : isXSubXUncached P n' stack eq ≠ .timeout) :
    isXSubXUncached P n stack eq = isXSubXUncached P n' stack eq := by
  rcases Nat.le_total n n' with hn | hn
  · exact (isXSubXUncached_le hn stack eq h).symm
  · exact isXSubXUncached_le hn stack eq h'

end Fuel

/-! ### Two stacks at once -/

section Joint

variable (P : Program)

/-- The comparison under two stacks at once.  It has an outcome only as far as the two stacks give
the same verdict on everything that is asked. -/
def isXSubXJoint : Nat → List Query → List Query → Bool × Query → Outcome
  | 0, _, _, _ => .timeout
  | n + 1, stack, stack', (errorf, q) =>
    match verdict stack q, verdict stack' q with
    | .bail, .bail => .answer false
    | .cycle _, .cycle _ => .answer true
    | .plain, .plain =>
      (isXSubXImpl P errorf q).eval (isXSubXJoint n stack stack') (expandTupleUnions P n)
    | .enter, .enter =>
      (isXSubXImpl P errorf q).eval (isXSubXJoint n (stack ++ [q]) (stack' ++ [q]))
        (expandTupleUnions P n)
    | _, _ => .timeout

variable {P} {n : Nat}

theorem isXSubXJoint_le_left (stack stack' : List Query) (eq : Bool × Query) :
    (isXSubXJoint P n stack stack' eq).Le (isXSubXUncached P n stack eq) := by
  induction n generalizing stack stack' eq with
  | zero => exact fun h => absurd rfl h
  | succ n ih =>
    obtain ⟨errorf, q⟩ := eq
    simp only [isXSubXJoint, isXSubXUncached]
    cases verdict stack q with
    | bail
    | cycle i => cases verdict stack' q <;> first | exact .refl _ | exact fun h => absurd rfl h
    | plain =>
      cases verdict stack' q with
      | plain => exact Ask.eval_le (fun eq => ih _ _ eq) (fun _ _ h => h) _
      | _ => exact fun h => absurd rfl h
    | enter =>
      cases verdict stack' q with
      | enter => exact Ask.eval_le (fun eq => ih _ _ eq) (fun _ _ h => h) _
      | _ => exact fun h => absurd rfl h

theorem isXSubXJoint_comm (stack stack' : List Query) (eq : Bool × Query) :
    isXSubXJoint P n stack stack' eq = isXSubXJoint P n stack' stack eq := by
  induction n generalizing stack stack' eq with
  | zero => rfl
  | succ n ih =>
    obtain ⟨errorf, q⟩ := eq
    simp only [isXSubXJoint]
    cases verdict stack q <;> cases verdict stack' q <;> first
      | rfl
      | exact Ask.eval_congr _ fun eq => ih _ _ eq

/-- What two stacks agree on has one answer under both of them. -/
theorem isXSubXJoint_spec {stack' : List Query} {eq : Bool × Query}
    (h : isXSubXJoint P n stack stack' eq ≠ .timeout) :
    isXSubXUncached P n stack eq = isXSubXUncached P n stack' eq ∧
      isXSubXUncached P n stack eq ≠ .timeout := by
  have hleft := isXSubXJoint_le_left stack stack' eq h
  have hcomm := isXSubXJoint_comm (P := P) (n := n) stack stack' eq
  have hright := isXSubXJoint_le_left stack' stack eq (hcomm ▸ h)
  exact ⟨by rw [hleft, hright, hcomm], by rwa [hleft]⟩

end Joint

/-! ### The condition -/

variable (P : Program)

/-- An answer from the cache is about the same types, under a stack that treats them like the one at
the time of the entry. -/
def Event.Faithful : Event → Prop
  | .reuse entry asked stack => entry.query = asked ∧
      ∃ n, isXSubXJoint P n entry.stack stack (false, asked) ≠ .timeout
  | _ => True

def State.Faithful (s : State) : Prop := ∀ ev ∈ s.log, ev.Faithful P

/-- Every entry has the answer of the recursion without the cache, under the stack it was recorded
under. -/
def State.Right (s : State) : Prop :=
  ∀ k entry, s.cache k = some entry →
    ∃ n, isXSubXUncached P n entry.stack (false, entry.query) = .answer entry.result

variable {P}

theorem State.Extends.faithful {s s' : State} (h : s.Extends s') (hs : s'.Faithful P) :
    s.Faithful P :=
  fun ev hev => hs ev (h.log hev)

theorem State.Right.clear {s : State} (h : s.Right P) : s.clear.Right P := by
  unfold State.clear
  split
  · exact fun k entry hentry => by simp at hentry
  · exact h

theorem State.Right.reuse {s : State} (h : s.Right P) (entry : Entry) (q : Query) :
    (s.reuse entry q).Right P := by
  unfold State.reuse
  split
  · exact h
  · exact h

theorem State.Right.leave {s t : State} {r : Outcome} (ht : t.Right P)
    (hr : errorf = false → r ≠ .timeout → ∃ n, isXSubXUncached P n s.stack (false, q) = r) :
    (s.leave errorf q r t).Right P := by
  intro k entry hentry
  rcases State.leave_cache hentry with hentry | ⟨-, hnew⟩
  · exact ht k entry hentry
  obtain ⟨herrorf, rfl, rfl, hstack⟩ := State.newEntry_some hnew
  rw [hstack]
  exact hr herrorf nofun

/-! ### The two recursions -/

/-- An answer from the cache is that of the recursion without it. -/
theorem reuse_eq_uncached {s : State} {entry : Entry} (hs : s.Right P)
    (hlookup : s.lookup errorf q = some entry) (hfaithful : (s.reuse entry q).Faithful P) :
    ∃ n, isXSubXUncached P n s.stack (errorf, q) = .answer entry.result := by
  obtain ⟨rfl, hentry⟩ := State.lookup_some hlookup
  obtain ⟨m, hm⟩ := hs _ entry hentry
  obtain ⟨rfl, n, hn⟩ := hfaithful _ (s.mem_reuse_log entry q)
  obtain ⟨heq, hne⟩ := isXSubXJoint_spec hn
  refine ⟨n, ?_⟩
  rw [← heq, isXSubXUncached_unique hne (by rw [hm]; simp), hm]

/-- The states inside a comparison: the entries are right, the stack is the comparison's. -/
def State.RightUnder (P : Program) (stack : List Query) (s : State) : Prop :=
  s.Right P ∧ s.stack = stack

section Inner

variable {n : Nat} (ih : ∀ (eq : Bool × Query) (s : State), s.Right P →
  (isXSubXCached P n eq s).2.Faithful P → (isXSubXCached P n eq s).2.Right P)

include ih

theorem rightUnder_step (stack : List Query) (eq : Bool × Query) (s : State)
    (hs : s.RightUnder P stack) (hfaithful : (isXSubXCached P n eq s).2.Faithful P) :
    (isXSubXCached P n eq s).2.RightUnder P stack :=
  ⟨ih eq s hs.1 hfaithful, (isXSubXCached_extends n eq s).stack.trans hs.2⟩

end Inner

theorem faithful_back {n : Nat} (eq : Bool × Query) (s : State)
    (h : (isXSubXCached P n eq s).2.Faithful P) : s.Faithful P :=
  (isXSubXCached_extends n eq s).faithful h

/-- A comparison that goes on, by what is asked inside. -/
theorem isXSubXUncached_succ {n : Nat} {v : Verdict} (hv : verdict stack q = v)
    (hgo : v = .plain ∨ v = .enter) :
    isXSubXUncached P (n + 1) stack (errorf, q) = (isXSubXImpl P errorf q).eval
      (isXSubXUncached P n (v.push stack q)) (expandTupleUnions P n) := by
  rcases hgo with rfl | rfl
  · simp only [isXSubXUncached, hv]
  · simp only [isXSubXUncached, hv]

theorem leave_right {n : Nat} (ih : ∀ (eq : Bool × Query) (s : State), s.Right P →
      (isXSubXCached P n eq s).2.Faithful P → (isXSubXCached P n eq s).2.Right P ∧
        ((isXSubXCached P n eq s).1 ≠ .timeout →
          ∃ m, isXSubXUncached P m s.stack eq = (isXSubXCached P n eq s).1))
    {s t : State} {v : Verdict} {r : Outcome} (hs : s.Right P) (hv : verdict s.stack q = v)
    (hgo : v = .plain ∨ v = .enter)
    (hrun : (isXSubXImpl P errorf q).run (isXSubXCached P n) (expandTupleUnions P n)
      (s.descend (v.push s.stack q) errorf q) = (r, t))
    (hfaithful : (s.leave errorf q r t).Faithful P) : (s.leave errorf q r t).Right P ∧
      (r ≠ .timeout → ∃ m, isXSubXUncached P m s.stack (errorf, q) = r) := by
  have hI := rightUnder_step (fun eq s hs hf => (ih eq s hs hf).1) (v.push s.stack q)
  have hinner : (s.descend (v.push s.stack q) errorf q).RightUnder P (v.push s.stack q) := ⟨hs, rfl⟩
  have hend : ((isXSubXImpl P errorf q).run (isXSubXCached P n) (expandTupleUnions P n)
      (s.descend (v.push s.stack q) errorf q)).2.Faithful P := by
    rw [hrun]
    exact fun ev hev => hfaithful ev (List.mem_append_left _ hev)
  have ht := Ask.run_invariant (I := State.RightUnder P (v.push s.stack q))
    (G := State.Faithful P) hI faithful_back _ _ hinner hend
  have heval := Ask.run_eval (I := State.RightUnder P (v.push s.stack q)) (G := State.Faithful P)
    (u := fun m => isXSubXUncached P m (v.push s.stack q)) (g := expandTupleUnions P)
    (fun eq m m' hm => isXSubXUncached_le hm (v.push s.stack q) eq)
    (fun x y m m' hm => expandTupleUnions_more hm) (fun x y hy => ⟨n, hy⟩) hI faithful_back
    (fun eq s hs hf hne => by rw [← hs.2]; exact (ih eq s hs.1 hf).2 hne) _ _ hinner hend
  rw [hrun] at ht heval
  have hr : r ≠ .timeout → ∃ m, isXSubXUncached P m s.stack (errorf, q) = r := by
    intro hne
    obtain ⟨m, hm⟩ := heval hne
    exact ⟨m + 1, (isXSubXUncached_succ hv hgo).trans hm⟩
  refine ⟨ht.1.leave fun herrorf hne => ?_, hr⟩
  subst herrorf
  exact hr hne

/-- Every call with the cache keeps its entries right, and answers as the recursion without it. -/
theorem isXSubXCached_right (n : Nat) (eq : Bool × Query) (s : State) (hs : s.Right P)
    (hfaithful : (isXSubXCached P n eq s).2.Faithful P) : (isXSubXCached P n eq s).2.Right P ∧
      ((isXSubXCached P n eq s).1 ≠ .timeout →
        ∃ m, isXSubXUncached P m s.stack eq = (isXSubXCached P n eq s).1) := by
  induction n generalizing eq s with
  | zero => exact ⟨hs, fun h => absurd rfl h⟩
  | succ n ih =>
    obtain ⟨errorf, q⟩ := eq
    have hclear := hs.clear
    rw [← s.clear_stack]
    simp only [isXSubXCached] at hfaithful ⊢
    cases hlookup : s.clear.lookup errorf q with
    | some entry =>
      simp only [hlookup] at hfaithful ⊢
      exact ⟨hclear.reuse entry q, fun _ => reuse_eq_uncached hclear hlookup hfaithful⟩
    | none =>
      simp only [hlookup] at hfaithful ⊢
      cases hv : verdict s.clear.stack q with
      | bail | cycle index => exact ⟨hclear, fun _ => ⟨1, by simp only [isXSubXUncached, hv]⟩⟩
      | plain =>
        simp only [hv] at hfaithful ⊢
        exact leave_right ih hclear hv (.inl rfl) rfl hfaithful
      | enter =>
        simp only [hv] at hfaithful ⊢
        exact leave_right ih hclear hv (.inr rfl) rfl hfaithful

/-- Where the recursion without the cache ends, the one with it ends under the same bound, with the
same outcome. -/
theorem isXSubXCached_eq (n : Nat) (eq : Bool × Query) (s : State) (hs : s.Right P)
    (hfaithful : (isXSubXCached P n eq s).2.Faithful P)
    (hne : isXSubXUncached P n s.stack eq ≠ .timeout) :
    (isXSubXCached P n eq s).1 = isXSubXUncached P n s.stack eq := by
  induction n generalizing eq s with
  | zero => exact absurd rfl hne
  | succ n ih =>
    obtain ⟨errorf, q⟩ := eq
    have hclear := hs.clear
    have hinner : ∀ {v : Verdict}, verdict s.clear.stack q = v → v = .plain ∨ v = .enter →
        ((isXSubXImpl P errorf q).run (isXSubXCached P n) (expandTupleUnions P n)
          (s.clear.descend (v.push s.clear.stack q) errorf q)).2.Faithful P →
        ((isXSubXImpl P errorf q).run (isXSubXCached P n) (expandTupleUnions P n)
          (s.clear.descend (v.push s.clear.stack q) errorf q)).1 =
        isXSubXUncached P (n + 1) s.clear.stack (errorf, q) := by
      intro v hv hgo hend
      rw [← s.clear_stack, isXSubXUncached_succ hv hgo] at hne
      rw [isXSubXUncached_succ hv hgo]
      refine Ask.run_eq_eval (I := State.RightUnder P (v.push s.clear.stack q))
        (G := State.Faithful P)
        (rightUnder_step (fun eq s hs hf => (isXSubXCached_right n eq s hs hf).1) _)
        faithful_back ?_ _ _ ⟨hclear, rfl⟩ hend hne
      intro eq t ht hf hne'
      rw [← ht.2] at hne' ⊢
      exact ih eq t ht.1 hf hne'
    rw [← s.clear_stack] at hne ⊢
    simp only [isXSubXCached] at hfaithful ⊢
    cases hlookup : s.clear.lookup errorf q with
    | some entry =>
      simp only [hlookup] at hfaithful ⊢
      obtain ⟨m, hm⟩ := reuse_eq_uncached hclear hlookup hfaithful
      rw [← hm]
      exact isXSubXUncached_unique (by rw [hm]; simp) hne
    | none =>
      simp only [hlookup] at hfaithful ⊢
      cases hv : verdict s.clear.stack q with
      | bail | cycle index => simp only [isXSubXUncached, hv]
      | plain =>
        simp only [hv] at hfaithful ⊢
        exact hinner hv (.inl rfl) fun ev hev => hfaithful ev (List.mem_append_left _ hev)
      | enter =>
        simp only [hv] at hfaithful ⊢
        exact hinner hv (.inr rfl) fun ev hev => hfaithful ev (List.mem_append_left _ hev)

/-! ### The result -/

/-- The first comparison from outside clears the cache, so what it held does not matter. -/
theorem isXSubXCached_idle (n : Nat) (eq : Bool × Query) (cache : List Word → Option Entry)
    (minMatchIdx : Option Nat) (subtreePoisoned : Bool) :
    (isXSubXCached P n eq (.idle cache minMatchIdx subtreePoisoned)).1 =
      (isXSubXCached P n eq (.idle (fun _ => none) none false)).1 ∧
    (isXSubXCached P n eq (.idle cache minMatchIdx subtreePoisoned)).2.log =
      (isXSubXCached P n eq (.idle (fun _ => none) none false)).2.log := by
  cases n with
  | zero => exact ⟨rfl, rfl⟩
  | succ n =>
    have hclear : (State.idle cache minMatchIdx subtreePoisoned).clear =
        (State.idle (fun _ => none) none false).clear := rfl
    obtain ⟨errorf, q⟩ := eq
    simp only [isXSubXCached, hclear, and_self]

theorem State.right_idle : (State.idle (fun _ => none) none false).Right P := by
  intro k entry hentry
  simp [State.idle] at hentry

theorem faithful_idle {n : Nat} {eq : Bool × Query} {cache : List Word → Option Entry}
    {minMatchIdx : Option Nat} {subtreePoisoned : Bool}
    (h : ∀ ev ∈ (isXSubXCached P n eq (.idle cache minMatchIdx subtreePoisoned)).2.log,
      ev.Faithful P) : (isXSubXCached P n eq (.idle (fun _ => none) none false)).2.Faithful P := by
  intro ev hev
  rw [← (isXSubXCached_idle n eq cache minMatchIdx subtreePoisoned).2] at hev
  exact h ev hev

/-- **The cache is transparent** on a comparison from outside, if every entry that is used was
recorded for the same types and under a stack that treats the comparison alike: what it comes to with
the cache it comes to without, and the other way round under no greater bound. -/
theorem cache_transparent {n : Nat} {errorf : Bool} {q : Query} {cache : List Word → Option Entry}
    {minMatchIdx : Option Nat} {subtreePoisoned : Bool}
    (hfaithful : ∀ ev ∈ (isXSubXCached P n (errorf, q)
      (.idle cache minMatchIdx subtreePoisoned)).2.log, ev.Faithful P) {r : Outcome}
    (hr : r ≠ .timeout) :
    ((isXSubXCached P n (errorf, q) (.idle cache minMatchIdx subtreePoisoned)).1 = r →
      ∃ m, isXSubXUncached P m [] (errorf, q) = r) ∧
    (isXSubXUncached P n [] (errorf, q) = r →
      (isXSubXCached P n (errorf, q) (.idle cache minMatchIdx subtreePoisoned)).1 = r) := by
  have hlog := faithful_idle hfaithful
  rw [(isXSubXCached_idle ..).1]
  constructor
  · intro hn
    obtain ⟨m, hm⟩ := (isXSubXCached_right n (errorf, q) _ State.right_idle hlog).2 (hn ▸ hr)
    exact ⟨m, hm.trans hn⟩
  · intro hn
    exact (isXSubXCached_eq n (errorf, q) _ State.right_idle hlog (hn ▸ hr)).trans hn

/-- `class C`, `fun f(): T` and `interface I`, `fun f(): (T₁ | T₂ | …)`. -/
def resultInUnion (result : Ty) (union : List Ty) : Program :=
  blankWith (fun d => if d = 1 then .interface else .class) fun
    | 0 => some (getter result)
    | 1 => some (getter (.uniontype union))
    | _ => none

/-- `C ref <: I ref`. -/
def classBelowInterface : Query := ⟨plainType 0 .ref, plainType 1 .ref, .sub⟩

/-- A result `A` and a union `(B | B | A)`. -/
def repeatedMember : Program :=
  resultInUnion (plainType 2 .ref) [plainType 3 .ref, plainType 3 .ref, plainType 2 .ref]

/-- What is recorded of `A` and `B`. -/
def notB : Entry :=
  ⟨false, .unconditional, ⟨plainType 2 .ref, plainType 3 .ref, .sub⟩, [classBelowInterface]⟩

/-- The answers from the cache that a log has. -/
def reuses (log : List Event) : List (Entry × Query × List Query) :=
  log.filterMap fun
    | .reuse entry asked stack => some (entry, asked, stack)
    | _ => none

theorem mem_reuses {log : List Event} {entry : Entry} {asked : Query} {stack : List Query}
    (h : .reuse entry asked stack ∈ log) : (entry, asked, stack) ∈ reuses log :=
  List.mem_filterMap.2 ⟨_, h, rfl⟩

/-- In `(B | B | A)`, that `A` is not a `B` is found in the cache. -/
theorem repeated_member_transparent :
    isXSubXUncached repeatedMember 4 [] (false, classBelowInterface) = .answer true ∧
    (isXSubXCached repeatedMember 4 (false, classBelowInterface)
      (.idle (fun _ => none) none false)).1 = .answer true := by
  refine ⟨by decide, (@cache_transparent _ 4 false classBelowInterface (fun _ => none) none false
    ?_ (.answer true) (by decide)).2 (by decide)⟩
  have hreuse : reuses (isXSubXCached repeatedMember 4 (false, classBelowInterface)
      (.idle (fun _ => none) none false)).2.log = [(notB, notB.query, notB.stack)] := rfl
  intro ev hev
  cases ev with
  | reuse entry asked stack =>
    have hmem := mem_reuses hev
    rw [hreuse] at hmem
    cases List.mem_singleton.1 hmem
    exact ⟨rfl, 4, by decide⟩
  | _ => trivial

/-- The type `Foo[n]`. -/
def fooType (n : Nat) : Ty := .nominal 2 [.valueformalarg (.int n)] .ref .none

/-- **Value arguments share an entry**: a result `Foo[1]` in `(Foo[2] | Foo[1])`.  That `Foo[1]` is
not a `Foo[2]` is recorded under the fingerprint that `Foo[1]` and `Foo[1]` have too. -/
theorem value_arguments_share_an_entry :
    (isXSubXCached (resultInUnion (fooType 1) [fooType 2, fooType 1]) 5
      (false, classBelowInterface) (.idle (fun _ => none) none false)).1 = .answer false ∧
    isXSubXUncached (resultInUnion (fooType 1) [fooType 2, fooType 1]) 5 []
      (false, classBelowInterface) = .answer true := by
  decide

end SpacePony.Subtype
