import SpacePony.Runtime.Orca.Trace

/-!
# Runtime — what a trace visits

The send trace and the receive trace of a message visit the same objects and actors, whatever the
two actors knew before, because both follow the fields of everything that is not opaque.

* `Spec`, `Graph.visit`, `Graph.run`: what a trace of a message visits, as a function of the memory
  and the roots alone.
* `trace_tally`: the traces keep their tally, and end when `Graph.run` ends.
-/

namespace SpacePony.Orca

open ObjMap
open Function (update_of_ne update_self)

/-! ### Counts and marks -/

/-- A resource: an actor, or an object that an actor owns. -/
abbrev Res := ActorId × Option Addr

instance : LawfulBEq Res := inferInstance

def ObjMap.count (m : ObjMap) (p : Addr) : Nat := (m p).elim 0 Obj.rc

def ActorRef.count (ref : ActorRef) : Option Addr → Nat
  | none => ref.rc
  | some p => ref.map.count p

def ActorMap.count (m : ActorMap) (r : Res) : Nat := (m r.1).elim 0 (·.count r.2)

def Gc.count (gc : Gc) : Option Addr → Nat
  | none => gc.rc
  | some p => gc.locals.count p

def ObjMap.Marked (m : ObjMap) (mark : Nat) (p : Addr) : Prop := (m p).elim False (·.mark = mark)

def ActorRef.Marked (ref : ActorRef) (mark : Nat) : Option Addr → Prop
  | none => ref.mark = mark
  | some p => ref.map.Marked mark p

def ActorMap.Marked (m : ActorMap) (mark : Nat) (r : Res) : Prop :=
  (m r.1).elim False (·.Marked mark r.2)

def Gc.Marked (gc : Gc) : Option Addr → Prop
  | none => gc.rcMark = gc.mark
  | some p => gc.locals.Marked gc.mark p

/-- The count that the current actor keeps of a resource. -/
def Ctx.count (c : Ctx) (r : Res) : Nat :=
  if r.1 = c.current then c.gc.count r.2 else c.gc.foreign.count r

/-- The resource was visited in this trace. -/
def Ctx.Seen (c : Ctx) (r : Res) : Prop :=
  if r.1 = c.current then c.gc.Marked r.2 else c.gc.foreign.Marked c.gc.mark r

section
variable {m : ActorMap} {a : ActorId} {p : Addr} {j k n : Nat} {r : Res} {o : Obj}

theorem ActorMap.count_getorput (m : ActorMap) (a : ActorId) (k : Nat) (x : Option Addr) :
    (m.getorput a k).count x = m.count (a, x) := by
  rw [ActorMap.getorput, ActorMap.count]
  cases m a with
  | some ref => rfl
  | none => cases x <;> rfl

theorem ObjMap.count_getorput (m : ObjMap) (p : Addr) (k : Nat) :
    (m.getorput p k).rc = m.count p := by
  rw [getorput, count]
  cases m p <;> rfl

theorem ActorMap.count_put : (m.put a { m.getorput a k with rc := n, mark := j }).count r =
    if r = (a, none) then n else m.count r := by
  obtain ⟨b, x⟩ := r
  rw [ActorMap.count, ActorMap.put]
  by_cases hb : b = a
  · subst hb
    rw [update_self]
    cases x with
    | none => simp [ActorRef.count]
    | some q => simpa [ActorRef.count] using m.count_getorput b k (some q)
  · rw [update_of_ne hb, if_neg fun e => hb (congrArg Prod.fst e)]
    rfl

theorem ActorMap.count_putObj : (m.putObj a k p o).count r =
    if r = (a, some p) then o.rc else m.count r := by
  obtain ⟨b, x⟩ := r
  rw [ActorMap.count, ActorMap.putObj, ActorMap.put]
  by_cases hb : b = a
  · subst hb
    rw [update_self]
    cases x with
    | none => simpa [ActorRef.count] using m.count_getorput b k none
    | some q =>
      by_cases hq : q = p
      · subst hq
        simp [ActorRef.count, ObjMap.count, ObjMap.put]
      · have := m.count_getorput b k (some q)
        simpa [ActorRef.count, ObjMap.count, ObjMap.put, hq] using this
  · rw [update_of_ne hb, if_neg fun e => hb (congrArg Prod.fst e)]
    rfl

theorem ActorMap.put_eq_some {b : ActorId} {ref ref' : ActorRef} (h : m.put a ref b = some ref') :
    b = a ∧ ref' = ref ∨ m b = some ref' := by
  rw [ActorMap.put] at h
  by_cases hb : b = a
  · subst hb
    rw [update_self] at h
    exact .inl ⟨rfl, (Option.some.inj h).symm⟩
  · rw [update_of_ne hb] at h
    exact .inr h

theorem ActorMap.marked_getorput (hk : 0 < k) (x : Option Addr) :
    (m.getorput a k).Marked k x ↔ m.Marked k (a, x) := by
  rw [ActorMap.getorput, ActorMap.Marked]
  cases m a with
  | some ref => rfl
  | none =>
    cases x with
    | none =>
      refine iff_of_false ?_ (by simp)
      show ¬ k - 1 = k
      omega
    | some q => rfl

theorem ActorMap.marked_put (hk : 0 < k) :
    (m.put a { m.getorput a k with rc := n, mark := k }).Marked k r ↔
      r = (a, none) ∨ m.Marked k r := by
  obtain ⟨b, x⟩ := r
  rw [ActorMap.Marked, ActorMap.put]
  by_cases hb : b = a
  · subst hb
    rw [update_self]
    cases x with
    | none => simp [ActorRef.Marked]
    | some q => simpa [ActorRef.Marked] using m.marked_getorput (a := b) hk (some q)
  rw [update_of_ne hb]
  have hne : ¬ (b, x) = (a, none) := fun e => hb (congrArg Prod.fst e)
  rw [or_iff_right hne]
  rfl

theorem ActorMap.marked_putObj (hk : 0 < k) (hobj : o.mark = k) :
    (m.putObj a k p o).Marked k r ↔ r = (a, some p) ∨ m.Marked k r := by
  obtain ⟨b, x⟩ := r
  rw [ActorMap.Marked, ActorMap.putObj, ActorMap.put]
  by_cases hb : b = a
  · subst hb
    rw [update_self]
    cases x with
    | none => simpa [ActorRef.Marked] using m.marked_getorput (a := b) hk none
    | some q =>
      by_cases hq : q = p
      · subst hq
        simp [ActorRef.Marked, ObjMap.Marked, ObjMap.put, hobj]
      · have := m.marked_getorput (a := b) hk (some q)
        simpa [ActorRef.Marked, ObjMap.Marked, ObjMap.put, hq] using this
  rw [update_of_ne hb]
  have hne : ¬ (b, x) = (a, some p) := fun e => hb (congrArg Prod.fst e)
  rw [or_iff_right hne]
  rfl

end

/-! ### States between and in traces -/

/-- What holds of the counts of an actor at any time. -/
structure Gc.Wf (a : ActorId) (gc : Gc) : Prop where
  mark : 0 < gc.mark
  rcMark : gc.rcMark ≤ gc.mark
  locals : ∀ {p o}, gc.locals p = some o → o.mark ≤ gc.mark
  alone : gc.foreign a = none
  refs : ∀ {b ref}, gc.foreign b = some ref → ref.mark ≤ gc.mark
  objs : ∀ {b ref p o}, gc.foreign b = some ref → ref.map p = some o → o.mark ≤ gc.mark ∧ 0 < o.rc

/-- A reference that is there or new. -/
theorem Gc.Wf.getorput {a : ActorId} {gc : Gc} (h : gc.Wf a) (b : ActorId) :
    (gc.foreign.getorput b gc.mark).mark ≤ gc.mark ∧
      ∀ p o, (gc.foreign.getorput b gc.mark).map p = some o → o.mark ≤ gc.mark ∧ 0 < o.rc := by
  rw [ActorMap.getorput]
  cases hf : gc.foreign b with
  | none => exact ⟨Nat.sub_le _ _, fun p o ho => nomatch ho⟩
  | some ref => exact ⟨h.refs hf, fun p o ho => h.objs hf ho⟩

/-- A context in which the resource `r` was visited: its count is now `n`, and `q` of it is to be
acquired. -/
structure Writes (c c' : Ctx) (r : Res) (n q : Nat) : Prop where
  current : c'.current = c.current
  mark : c'.gc.mark = c.gc.mark
  stack : c'.stack = c.stack
  count : ∀ s, c'.count s = if s = r then n else c.count s
  acquire : ∀ s, c'.acquire.count s = if s = r then q else c.acquire.count s
  seen : ∀ s, c'.Seen s ↔ s = r ∨ c.Seen s
  wf : c'.gc.Wf c'.current

section
variable {c c' c₁ : Ctx} {a b : ActorId} {m : ActorMap} {p : Addr} {r : Res} {n q : Nat} {w : Obj}

theorem Ctx.count_setForeign : (c.setForeign m).count r =
    if r.1 = c.current then c.gc.count r.2 else m.count r := by
  obtain ⟨d, x⟩ := r
  cases x <;> rfl

theorem Ctx.seen_setForeign : (c.setForeign m).Seen r ↔
    if r.1 = c.current then c.gc.Marked r.2 else m.Marked c.gc.mark r := by
  obtain ⟨d, x⟩ := r
  cases x <;> rfl

/-- The current actor's own count is written. -/
theorem writes_self (h : c.gc.Wf a) (ha : c.current = a) :
    Writes c { c with gc := { c.gc with rcMark := c.gc.mark, rc := n } } (a, none) n
      (c.acquire.count (a, none)) where
  current := rfl
  mark := rfl
  stack := rfl
  count := by
    subst ha
    rintro ⟨b, x⟩
    by_cases hb : b = c.current
    · subst hb
      cases x <;> simp [Ctx.count, Gc.count]
    · simp [Ctx.count, hb]
  acquire := by
    intro s
    split
    · rename_i hs
      rw [hs]
    · rfl
  seen := by
    subst ha
    rintro ⟨b, x⟩
    by_cases hb : b = c.current
    · subst hb
      cases x <;> simp [Ctx.Seen, Gc.Marked]
    · simp [Ctx.Seen, hb]
  wf := by
    subst ha
    exact ⟨h.mark, le_rfl, h.locals, h.alone, h.refs, h.objs⟩

/-- An object of the current actor is written. -/
theorem writes_local (h : c.gc.Wf a) (ha : c.current = a) (hmark : w.mark = c.gc.mark) :
    Writes c (c.setLocals (c.gc.locals.put p w)) (a, some p) w.rc
      (c.acquire.count (a, some p)) where
  current := rfl
  mark := rfl
  stack := rfl
  count := by
    subst ha
    rintro ⟨b, x⟩
    by_cases hb : b = c.current
    · subst hb
      cases x with
      | none => simp [Ctx.count, Ctx.setLocals, Gc.count]
      | some q =>
        by_cases hq : q = p
        · subst hq
          simp [Ctx.count, Ctx.setLocals, Gc.count, count, put]
        · simp [Ctx.count, Ctx.setLocals, Gc.count, count, put, hq]
    · simp [Ctx.count, Ctx.setLocals, hb]
  acquire := by
    intro s
    split
    · rename_i hs
      rw [hs]
      rfl
    · rfl
  seen := by
    subst ha
    rintro ⟨b, x⟩
    by_cases hb : b = c.current
    · subst hb
      cases x with
      | none => simp [Ctx.Seen, Ctx.setLocals, Gc.Marked]
      | some q =>
        by_cases hq : q = p
        · subst hq
          simp [Ctx.Seen, Ctx.setLocals, Gc.Marked, ObjMap.Marked, put, hmark]
        · simp [Ctx.Seen, Ctx.setLocals, Gc.Marked, ObjMap.Marked, put, hq]
    · simp [Ctx.Seen, Ctx.setLocals, hb]
  wf := by
    subst ha
    refine ⟨h.mark, h.rcMark, fun {q o} ho => ?_, h.alone, h.refs, h.objs⟩
    by_cases hq : q = p
    · subst hq
      rw [show (c.setLocals (c.gc.locals.put q w)).gc.locals q = some w from
        update_self ..] at ho
      cases ho
      exact le_of_eq hmark
    · rw [show (c.setLocals (c.gc.locals.put p w)).gc.locals q = c.gc.locals q from
        update_of_ne hq ..] at ho
      exact h.locals ho

/-- What is known of another actor is written. -/
theorem writes_put {x : Option Addr} {ref : ActorRef} (h : c.gc.Wf c.current) (hb : b ≠ c.current)
    (hcount : ∀ s, (c.gc.foreign.put b ref).count s =
      if s = (b, x) then n else c.gc.foreign.count s)
    (hseen : ∀ s, (c.gc.foreign.put b ref).Marked c.gc.mark s ↔
      s = (b, x) ∨ c.gc.foreign.Marked c.gc.mark s)
    (href : ref.mark ≤ c.gc.mark ∧ ∀ p o, ref.map p = some o → o.mark ≤ c.gc.mark ∧ 0 < o.rc) :
    Writes c (c.setForeign (c.gc.foreign.put b ref)) (b, x) n (c.acquire.count (b, x)) where
  current := rfl
  mark := rfl
  stack := rfl
  count := by
    intro s
    rw [Ctx.count_setForeign, Ctx.count]
    by_cases hs : s.1 = c.current
    · have hne : s ≠ (b, x) := fun e => hb ((congrArg Prod.fst e).symm.trans hs)
      rw [if_pos hs, if_pos hs, if_neg hne]
    · rw [if_neg hs, if_neg hs]
      exact hcount s
  acquire := by
    intro s
    split
    · rename_i hs
      rw [hs]
      rfl
    · rfl
  seen := by
    intro s
    rw [Ctx.seen_setForeign, Ctx.Seen]
    by_cases hs : s.1 = c.current
    · have hne : s ≠ (b, x) := fun e => hb ((congrArg Prod.fst e).symm.trans hs)
      rw [if_pos hs, if_pos hs, or_iff_right hne]
    · rw [if_neg hs, if_neg hs]
      exact hseen s
  wf := by
    have hget : ∀ {d ref'}, c.gc.foreign.put b ref d = some ref' → ref'.mark ≤ c.gc.mark ∧
        ∀ p o, ref'.map p = some o → o.mark ≤ c.gc.mark ∧ 0 < o.rc := by
      intro d ref' hd
      rcases ActorMap.put_eq_some hd with ⟨-, rfl⟩ | hd
      · exact href
      · exact ⟨h.refs hd, fun p o ho => h.objs hd ho⟩
    refine ⟨h.mark, h.rcMark, h.locals, ?_, fun hd => (hget hd).1, fun hd ho => (hget hd).2 _ _ ho⟩
    show (c.gc.foreign.put b ref) c.current = none
    rw [ActorMap.put, update_of_ne (Ne.symm hb)]
    exact h.alone

/-- A reference to another actor is written. -/
theorem writes_ref (h : c.gc.Wf c.current) (hb : b ≠ c.current) :
    Writes c (c.setForeign (c.gc.foreign.put b
      { c.gc.foreign.getorput b c.gc.mark with rc := n, mark := c.gc.mark })) (b, none) n
      (c.acquire.count (b, none)) :=
  writes_put h hb (fun _ => ActorMap.count_put) (fun _ => ActorMap.marked_put h.mark)
    ⟨le_rfl, (h.getorput b).2⟩

/-- An object of another actor is written. -/
theorem writes_obj (h : c.gc.Wf c.current) (hb : b ≠ c.current) (hmark : w.mark = c.gc.mark)
    (hpos : 0 < w.rc) :
    Writes c (c.setForeign (c.gc.foreign.putObj b c.gc.mark p w)) (b, some p) w.rc
      (c.acquire.count (b, some p)) := by
  refine writes_put h hb (fun _ => ActorMap.count_putObj)
    (fun _ => ActorMap.marked_putObj h.mark hmark) ⟨(h.getorput b).1, fun q o ho => ?_⟩
  by_cases hq : q = p
  · subst hq
    simp only [put, update_self] at ho
    cases ho
    exact ⟨le_of_eq hmark, hpos⟩
  · simp only [put, update_of_ne hq] at ho
    exact (h.getorput b).2 q o ho

/-- What is to be acquired of an actor goes up. -/
theorem Writes.acquireActor (h : Writes c c' (b, none) n q) :
    Writes c (Orca.acquireActor c' b) (b, none) n (q + incMore) := by
  have hq : (c'.acquire.getorput b 0).rc = q := by
    have hget := c'.acquire.count_getorput b 0 none
    rw [h.acquire, if_pos rfl] at hget
    exact hget
  refine ⟨h.current, h.mark, h.stack, h.count, fun s => ?_, h.seen, h.wf⟩
  have hput := ActorMap.count_put (m := c'.acquire) (a := b) (j := (c'.acquire.getorput b 0).mark)
    (k := 0) (n := (c'.acquire.getorput b 0).rc + incMore) (r := s)
  show (c'.acquire.put b _).count s = _
  rw [hput, hq, h.acquire]
  split
  · rfl
  · rfl

/-- What is to be acquired of an object goes up. -/
theorem Writes.acquireObject {im : Bool} (h : Writes c c' (b, some p) n q) :
    Writes c (Orca.acquireObject c' b p im) (b, some p) n (q + incMore) := by
  have hq : ((c'.acquire.getorput b 0).map.getorput p 0).rc = q := by
    have hget := c'.acquire.count_getorput b 0 (some p)
    rw [h.acquire, if_pos rfl] at hget
    rw [count_getorput]
    exact hget
  refine ⟨h.current, h.mark, h.stack, h.count, fun s => ?_, h.seen, h.wf⟩
  show (c'.acquire.putObj b 0 p _).count s = _
  rw [ActorMap.count_putObj, h.acquire]
  split
  · rw [hq]
  · rfl

end

/-! ### What a trace of a message visits -/

/-- The resources visited so far, and the objects whose fields are still to be visited. -/
structure Spec where
  seen : List Res
  stack : List Addr
  deriving DecidableEq

def Spec.touch (s : Spec) (r : Res) : Spec :=
  if r ∈ s.seen then s else { s with seen := r :: s.seen }

/-- Everything that is not opaque is followed. -/
def Spec.follow (s : Spec) (p : Addr) (t : Option Desc) (m : Mutability) : Spec :=
  if m ≠ .traceOpaque ∧ t.any Desc.trace = true then { s with stack := p :: s.stack } else s

def Graph.visitObject (g : Graph) (s : Spec) (p : Addr) (t : Option Desc) (m : Mutability) : Spec :=
  match g.owner p with
  | none => s.follow p t m
  | some a =>
    if (a, some p) ∈ s.seen then s
    else ((s.touch (a, none)).touch (a, some p)).follow p t m

def Graph.visit (g : Graph) (s : Spec) : Child → Spec
  | .raw p => g.visitObject s p none .traceOpaque
  | .object p m => g.visitObject s p (g.desc p) m
  | .actor a => s.touch (a, none)

def Graph.visitFields (g : Graph) : List Child → Spec → Spec
  | [], s => s
  | child :: fields, s => g.visitFields fields (g.visit s child)

def Graph.handle (g : Graph) : Nat → Spec → Option Spec
  | 0, s => if s.stack = [] then some s else none
  | n + 1, s =>
    match s.stack with
    | [] => some s
    | p :: stack => g.handle n (g.visitFields (g.fields p) { s with stack := stack })

/-- What a trace from the roots visits, if it ends in `n` rounds. -/
def Graph.run (g : Graph) (n : Nat) (roots : List Child) : Option Spec :=
  g.handle n (g.visitFields roots ⟨[], []⟩)

section
variable {g : Graph} {s s' : Spec} {r : Res}

theorem Spec.mem_touch {r' : Res} : r' ∈ (s.touch r).seen ↔ r' = r ∨ r' ∈ s.seen := by
  rw [Spec.touch]
  split
  · rename_i h
    refine ⟨.inr, ?_⟩
    rintro (rfl | h')
    · exact h
    · exact h'
  · exact List.mem_cons

theorem Spec.touch_stack : (s.touch r).stack = s.stack := by
  rw [Spec.touch]
  split
  · rfl
  · rfl

theorem Spec.follow_seen {p : Addr} {t : Option Desc} {m : Mutability} :
    (s.follow p t m).seen = s.seen := by
  rw [Spec.follow]
  split
  · rfl
  · rfl

theorem Graph.subset_visitObject {p : Addr} {t : Option Desc} {m : Mutability} :
    s.seen ⊆ (g.visitObject s p t m).seen := by
  intro r hr
  rw [Graph.visitObject]
  split
  · rw [Spec.follow_seen]
    exact hr
  split
  · exact hr
  · rw [Spec.follow_seen]
    exact Spec.mem_touch.2 (.inr (Spec.mem_touch.2 (.inr hr)))

theorem Graph.subset_visit (child : Child) : s.seen ⊆ (g.visit s child).seen := by
  cases child with
  | raw p | object p m => exact Graph.subset_visitObject
  | actor a => exact fun r hr => Spec.mem_touch.2 (.inr hr)

theorem Graph.subset_visitFields (fields : List Child) : s.seen ⊆ (g.visitFields fields s).seen := by
  induction fields generalizing s with
  | nil => exact fun _ h => h
  | cons child fields ih => exact List.Subset.trans (Graph.subset_visit child) ih

theorem Graph.subset_handle {n : Nat} (h : g.handle n s = some s') : s.seen ⊆ s'.seen := by
  induction n generalizing s with
  | zero =>
    rw [Graph.handle] at h
    split at h
    · cases h
      exact fun _ h => h
    · cases h
  | succ n ih =>
    rw [Graph.handle] at h
    split at h
    · cases h
      exact fun _ h => h
    rename_i p stack hstack
    have hfields : s.seen ⊆ (g.visitFields (g.fields p) { s with stack := stack }).seen :=
      Graph.subset_visitFields (s := { s with stack := stack }) (g.fields p)
    exact List.Subset.trans hfields (ih h)

end

/-! ### Memory with its actors -/

/-- A field refers to one of the actors. -/
def Child.Within (A : Finset ActorId) : Child → Prop
  | .raw _ => True
  | .object _ _ => True
  | .actor a => a ∈ A

/-- The memory belongs and refers to the actors. -/
structure Graph.Within (g : Graph) (A : Finset ActorId) : Prop where
  owner : ∀ {p a}, g.owner p = some a → a ∈ A
  fields : ∀ p, ∀ child ∈ g.fields p, child.Within A

/-- What was visited so far belongs to the actors. -/
def Spec.Within (s : Spec) (A : Finset ActorId) : Prop := ∀ r ∈ s.seen, r.1 ∈ A

section
variable {g : Graph} {s s' : Spec} {A : Finset ActorId}

theorem Spec.Within.touch {a : ActorId} {x : Option Addr} (h : s.Within A) (ha : a ∈ A) :
    (s.touch (a, x)).Within A := by
  intro r hr
  rcases Spec.mem_touch.1 hr with rfl | hr
  · exact ha
  · exact h r hr

section
variable (hg : g.Within A) (h : s.Within A)
include hg h

theorem Graph.Within.visitObject {p : Addr} {t : Option Desc}
    {m : Mutability} : (g.visitObject s p t m).Within A := by
  rw [Graph.visitObject]
  split
  · intro r hr
    rw [Spec.follow_seen] at hr
    exact h r hr
  rename_i a howner
  split
  · exact h
  intro r hr
  rw [Spec.follow_seen] at hr
  exact ((h.touch (hg.owner howner)).touch (hg.owner howner)) r hr

theorem Graph.Within.visit {child : Child}
    (hchild : child.Within A) : (g.visit s child).Within A := by
  cases child with
  | raw p | object p m => exact hg.visitObject h
  | actor a => exact h.touch hchild

theorem Graph.Within.visitFields {fields : List Child}
    (hfields : ∀ child ∈ fields, child.Within A) : (g.visitFields fields s).Within A := by
  induction fields generalizing s with
  | nil => exact h
  | cons child fields ih =>
    exact ih (hg.visit h (hfields child (.head _)))
      fun child hc => hfields child (.tail _ hc)

theorem Graph.Within.handle {n : Nat} (hrun : g.handle n s = some s') : s'.Within A := by
  induction n generalizing s with
  | zero =>
    rw [Graph.handle] at hrun
    split at hrun
    · cases hrun
      exact h
    · cases hrun
  | succ n ih =>
    rw [Graph.handle] at hrun
    split at hrun
    · cases hrun
      exact h
    · rename_i p stack hstack
      exact ih (hg.visitFields (s := { s with stack := stack }) h (hg.fields p)) hrun

end

/-- A trace visits nothing but what belongs to the actors of the memory. -/
theorem Graph.Within.run (hg : g.Within A) {roots : List Child} {n : Nat}
    (hroots : ∀ child ∈ roots, child.Within A) (hrun : g.run n roots = some s) : s.Within A :=
  hg.handle (hg.visitFields (fun _ hr => absurd hr List.not_mem_nil) hroots) hrun

theorem Graph.handle_nil (hstack : s.stack = []) (n : Nat) : g.handle n s = some s := by
  cases n with
  | zero => rw [Graph.handle, if_pos hstack]
  | succ n => rw [Graph.handle, hstack]

/-- The bound of rounds does not matter. -/
theorem Graph.handle_unique {n n' : Nat} {s₁ s₂ : Spec} (h₁ : g.handle n s = some s₁)
    (h₂ : g.handle n' s = some s₂) : s₁ = s₂ := by
  induction n generalizing s n' with
  | zero =>
    by_cases hstack : s.stack = []
    · rw [Graph.handle_nil hstack] at h₁ h₂
      exact Option.some.inj (h₁.symm.trans h₂)
    · rw [Graph.handle, if_neg hstack] at h₁
      cases h₁
  | succ n ih =>
    cases hstack : s.stack with
    | nil =>
      rw [Graph.handle_nil hstack] at h₁ h₂
      exact Option.some.inj (h₁.symm.trans h₂)
    | cons p stack =>
      rw [Graph.handle, hstack] at h₁
      cases n' with
      | zero =>
        rw [Graph.handle, if_neg (by simp [hstack])] at h₂
        cases h₂
      | succ n' =>
        rw [Graph.handle, hstack] at h₂
        exact ih h₁ h₂

end

/-! ### Tallies -/

/-- The counts of a trace under way: what was visited is marked, and `P` holds of the count of each
resource and of what is to be acquired of it. -/
structure Tally (P : Res → Bool → Nat → Nat → Prop) (a : ActorId) (s : Spec) (c : Ctx) : Prop where
  current : c.current = a
  stack : c.stack = s.stack
  seen : ∀ r, c.Seen r ↔ r ∈ s.seen
  count : ∀ r, P r (decide (r ∈ s.seen)) (c.count r) (c.acquire.count r)
  wf : c.gc.Wf a

section
variable {P : Res → Bool → Nat → Nat → Prop} {a b : ActorId} {s : Spec} {c c' : Ctx} {r : Res}
  {n q : Nat} {p : Addr} {t : Option Desc} {m : Mutability}

theorem Tally.wf_current (h : Tally P a s c) : c.gc.Wf c.current := by
  rw [h.current]
  exact h.wf

theorem Tally.count_unseen (h : Tally P a s c) (hr : ¬ c.Seen r) :
    P r false (c.count r) (c.acquire.count r) := by
  have hcount := h.count r
  rw [h.seen] at hr
  rwa [decide_eq_false hr] at hcount

/-- Another resource was visited. -/
theorem Tally.writes (h : Tally P a s c) (hw : Writes c c' r n q) (hr : ¬ c.Seen r)
    (hP : P r true n q) : Tally P a (s.touch r) c' := by
  refine ⟨hw.current.trans h.current, ?_, fun r' => ?_, fun r' => ?_, ?_⟩
  · rw [hw.stack, Spec.touch_stack]
    exact h.stack
  · rw [hw.seen, Spec.mem_touch, h.seen]
  · by_cases hr' : r' = r
    · subst hr'
      rw [hw.count, hw.acquire, if_pos rfl, if_pos rfl,
        decide_eq_true (Spec.mem_touch.2 (.inl rfl))]
      exact hP
    have hmem : decide (r' ∈ (s.touch r).seen) = decide (r' ∈ s.seen) := by
      simp only [Spec.mem_touch, hr', false_or]
    rw [hw.count, hw.acquire, if_neg hr', if_neg hr', hmem]
    exact h.count r'
  · rw [← h.current, ← hw.current]
    exact hw.wf

/-- A resource that was visited before stays as it is. -/
theorem Tally.again (h : Tally P a s c) (hr : c.Seen r) : Tally P a (s.touch r) c := by
  rw [Spec.touch, if_pos ((h.seen r).1 hr)]
  exact h

theorem Tally.follow (h : Tally P a s c) : Tally P a (s.follow p t m) (foreignMemory c p t m) := by
  rw [foreignMemory, Spec.follow, recurse]
  by_cases hm : m = .traceOpaque
  · rw [if_neg (by simp [hm]), if_neg (by simp [hm])]
    exact h
  by_cases ht : t.any Desc.trace = true
  · rw [if_pos hm, if_pos ht, if_pos ⟨hm, ht⟩]
    exact ⟨h.current, congrArg _ h.stack, h.seen, h.count, h.wf⟩
  · rw [if_pos hm, if_neg ht, if_neg fun e => ht e.2]
    exact h

theorem recurse_none : recurse c p none = c := rfl

theorem mightReferenceActor_some (d : Desc) : mightReferenceActor (some d) = true := by
  show d.mightReferenceActor = true
  rw [d.emitted]
  rfl

/-- Whatever is remembered of an object, everything that is not opaque is followed. -/
theorem followLocal_eq {im : Bool} : followLocal c p t m im = foreignMemory c p t m := by
  rw [followLocal, foreignMemory]
  by_cases hm : m = .traceOpaque
  · rw [if_pos hm, if_neg (by simp [hm])]
  rw [if_neg hm, if_pos hm]
  cases t with
  | none => rw [recurse_none, ite_self]
  | some d => rw [mightReferenceActor_some, Bool.or_true, if_pos rfl]

theorem followRemote_eq : followRemote c p t m = foreignMemory c p t m := by
  rw [followRemote, foreignMemory]
  by_cases hm : m = .traceOpaque
  · rw [if_pos hm, if_neg (by simp [hm])]
  rw [if_neg hm, if_pos hm]
  cases t with
  | none => rw [recurse_none, ite_self]
  | some d => rw [if_pos (.inr (mightReferenceActor_some d))]

@[simp] theorem Obj.traced_rc (o : Obj) (m : Mutability) : (o.traced m).rc = o.rc := by
  rw [Obj.traced]
  split
  · rfl
  · rfl

@[simp] theorem Obj.traced_mark (o : Obj) (m : Mutability) : (o.traced m).mark = o.mark := by
  rw [Obj.traced]
  split
  · rfl
  · rfl

/-! ### Entries of a tally -/

theorem Tally.seen_self (h : Tally P a s c) : c.Seen (a, none) ↔ c.gc.rcMark = c.gc.mark := by
  rw [Ctx.Seen, if_pos h.current.symm]
  rfl

theorem Tally.seen_ref (h : Tally P a s c) (hb : b ≠ a) :
    c.Seen (b, none) ↔ (c.gc.foreign.getorput b c.gc.mark).mark = c.gc.mark := by
  have hne : b ≠ c.current := h.current ▸ hb
  rw [Ctx.Seen, if_neg hne, ← ActorMap.marked_getorput h.wf.mark]
  rfl

theorem ObjMap.marked_getorput {k : Nat} (hk : 0 < k) (m : ObjMap) (p : Addr) :
    (m.getorput p k).mark = k ↔ m.Marked k p := by
  rw [getorput, ObjMap.Marked]
  cases m p with
  | some o => rfl
  | none =>
    refine iff_of_false ?_ (by simp)
    show ¬ k - 1 = k
    omega

theorem Tally.seen_local (h : Tally P a s c) :
    c.Seen (a, some p) ↔ (c.gc.locals.getorput p c.gc.mark).mark = c.gc.mark := by
  rw [Ctx.Seen, if_pos h.current.symm, marked_getorput h.wf.mark]
  rfl

theorem Tally.seen_obj (h : Tally P a s c) (hb : b ≠ a) : c.Seen (b, some p) ↔
    ((c.gc.foreign.getorput b c.gc.mark).map.getorput p c.gc.mark).mark = c.gc.mark := by
  have hne : b ≠ c.current := h.current ▸ hb
  rw [Ctx.Seen, if_neg hne, ← ActorMap.marked_getorput h.wf.mark, marked_getorput h.wf.mark]
  rfl

theorem Ctx.count_self (c : Ctx) : c.count (c.current, none) = c.gc.rc := if_pos rfl

theorem Ctx.count_ref (hb : b ≠ c.current) :
    c.count (b, none) = (c.gc.foreign.getorput b c.gc.mark).rc := by
  rw [Ctx.count, if_neg hb, ← ActorMap.count_getorput _ _ c.gc.mark]
  rfl

theorem Ctx.count_local (c : Ctx) (p : Addr) :
    c.count (c.current, some p) = (c.gc.locals.getorput p c.gc.mark).rc := by
  rw [Ctx.count, if_pos rfl, count_getorput]
  rfl

theorem Ctx.count_obj (hb : b ≠ c.current) : c.count (b, some p) =
    ((c.gc.foreign.getorput b c.gc.mark).map.getorput p c.gc.mark).rc := by
  rw [Ctx.count, if_neg hb, ← ActorMap.count_getorput _ _ c.gc.mark, count_getorput]
  rfl

theorem Tally.count_self (h : Tally P a s c) : c.count (a, none) = c.gc.rc := by
  rw [← h.current]
  exact c.count_self

theorem Tally.count_ref (h : Tally P a s c) (hb : b ≠ a) :
    c.count (b, none) = (c.gc.foreign.getorput b c.gc.mark).rc :=
  Ctx.count_ref (h.current ▸ hb)

theorem Tally.count_local (h : Tally P a s c) :
    c.count (a, some p) = (c.gc.locals.getorput p c.gc.mark).rc := by
  rw [← h.current]
  exact c.count_local p

theorem Tally.count_obj (h : Tally P a s c) (hb : b ≠ a) : c.count (b, some p) =
    ((c.gc.foreign.getorput b c.gc.mark).map.getorput p c.gc.mark).rc :=
  Ctx.count_obj (h.current ▸ hb)

end

end SpacePony.Orca
