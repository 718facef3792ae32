import SpacePony.Runtime.Orca.Agree

/-!
# Runtime — collecting

`try_gc` of `actor/actor.c` as far as it counts, `ponyint_gc_sweep`, `ponyint_actormap_sweep`, and
the two functions that handle what other actors acquire and release.
-/

namespace SpacePony.Orca

open ActorMap Option List

/-! ### Marking -/

/-- `ponyint_gc_markimmutable`, where the objects are iterated over in the order `ps`. -/
def markImmutable (g : Graph) : List Addr → Ctx → Ctx
  | [], c => c
  | p :: ps, c =>
    match c.gc.locals p with
    | none => markImmutable g ps c
    | some obj =>
      if obj.immutable = true ∧ 0 < obj.rc ∧ mightReferenceActor (g.desc p) = false then
        markImmutable g ps (markLocalObject c p (g.desc p) .traceImmutable)
      else markImmutable g ps c

/-- `try_gc` and `ponyint_mark_done`, up to the messages that are sent. -/
def mark (g : Graph) (n : Nat) (roots : List Child) (ps : List Addr) (c : Ctx) : Except Fault Ctx :=
  match traceFields markOps g roots c with
  | .error e => .error e
  | .ok c => handlestack markOps g n (markImmutable g ps c)

/-! ### Sweeping -/

/-- The entries of a map that are not cleared. -/
def ObjMap.filter (m : ObjMap) (f : Obj → Bool) : ObjMap := fun p => (m p).filter f

/-- `ponyint_objectmap_sweep`. -/
def ObjMap.sweep (m : ObjMap) : ObjMap := m.filter fun obj => 0 < obj.rc

/-- `move_unmarked_objects`, what stays. -/
def ObjMap.marked (m : ObjMap) (mark : Nat) : ObjMap := m.filter fun obj => obj.mark = mark

/-- `move_unmarked_objects`, what is moved. -/
def ObjMap.unmarked (m : ObjMap) (mark : Nat) : ObjMap := m.filter fun obj => obj.mark ≠ mark

/-- `ponyint_actormap_sweep`, what stays. -/
def ActorMap.sweep (m : ActorMap) (mark : Nat) : ActorMap := fun b =>
  match m b with
  | none => none
  | some ref => if ref.mark = mark then some { ref with map := ref.map.marked mark } else none

/-- `ponyint_actormap_sweep`, what is released to an actor. -/
def ActorMap.released (m : ActorMap) (mark : Nat) (b : ActorId) : ActorRef :=
  match m b with
  | none => newRef mark
  | some ref =>
    if ref.mark = mark then { newRef mark with map := ref.map.unmarked mark } else ref

/-- `send_release` sends nothing if there is nothing to release. -/
def ActorRef.Released (ref : ActorRef) : Prop := ref.rc ≠ 0 ∨ ∃ p, ref.map p ≠ none

/-- `ponyint_gc_sweep`. -/
def Gc.sweep (gc : Gc) : Gc :=
  { gc with locals := gc.locals.sweep, foreign := gc.foreign.sweep gc.mark }

/-! ### What other actors acquire and release -/

/-- `ponyint_gc_acquire` for the objects, which are iterated over in the order `ps`. -/
def acquireObjects (ref : ActorRef) : List Addr → Gc → Gc
  | [], gc => gc
  | p :: ps, gc =>
    match ref.map p with
    | none => acquireObjects ref ps gc
    | some obj =>
      let own := gc.locals.getorput p gc.mark
      let own := ⟨own.rc + obj.rc, own.mark, obj.immutable || own.immutable⟩
      acquireObjects ref ps { gc with locals := gc.locals.put p own }

/-- `ponyint_gc_acquire`. -/
def acquire (gc : Gc) (ref : ActorRef) (ps : List Addr) : Gc :=
  acquireObjects ref ps { gc with rc := gc.rc + ref.rc }

/-- `ponyint_gc_release` for the objects, which are iterated over in the order `ps`. -/
def releaseObjects (ref : ActorRef) : List Addr → Gc → Except Fault Gc
  | [], gc => .ok gc
  | p :: ps, gc =>
    match ref.map p with
    | none => releaseObjects ref ps gc
    | some obj =>
      match gc.locals p with
      | none => .error .assertion
      | some own =>
        if obj.rc ≤ own.rc then
          let own := { own with rc := own.rc - obj.rc }
          releaseObjects ref ps { gc with locals := gc.locals.put p own }
        else .error .assertion

/-- `ponyint_gc_release`. -/
def release (gc : Gc) (ref : ActorRef) (ps : List Addr) : Except Fault Gc :=
  if ref.rc ≤ gc.rc then releaseObjects ref ps { gc with rc := gc.rc - ref.rc }
  else .error .assertion

/-! ### Counts while marking -/

/-- What marking makes of the counts `n₀` of the actor `a`: what it needs of the other actors in
`A` is acquired. -/
def markedCount (A : Finset ActorId) (a : ActorId) (n₀ : Res → Nat) (r : Res) (n q : Nat) : Prop :=
  n = n₀ r + q ∧ (r.1 = a ∨ r.1 ∉ A → q = 0)

/-- The counts while an actor marks. -/
structure Marks (A : Finset ActorId) (a : ActorId) (n₀ : Res → Nat) (c : Ctx) : Prop where
  current : c.current = a
  count : ∀ r, markedCount A a n₀ r (c.count r) (c.acquire.count r)
  wf : c.gc.Wf a

section
variable {A : Finset ActorId} {a b : ActorId} {n₀ : Res → Nat} {c c' : Ctx} {r : Res} {k q : Nat} {g : Graph}
  {p : Addr} {t : Option Desc} {m : Mutability}

section
variable (h : Marks A a n₀ c)
include h

theorem Marks.writes (hw : Writes c c' r k q) (hr : markedCount A a n₀ r k q) :
    Marks A a n₀ c' := by
  refine ⟨hw.current.trans h.current, fun s => ?_, ?_⟩
  · rw [hw.count, hw.acquire]
    by_cases hs : s = r
    · subst hs
      rw [if_pos rfl, if_pos rfl]
      exact hr
    · rw [if_neg hs, if_neg hs]
      exact h.count s
  · rw [← h.current, ← hw.current]
    exact hw.wf

theorem Marks.recurse : Marks A a n₀ (recurse c p t) := by
  rw [Orca.recurse]
  split
  · exact ⟨h.current, h.count, h.wf⟩
  · exact h

theorem Marks.follow : Marks A a n₀ (foreignMemory c p t m) := by
  rw [foreignMemory]
  split
  · exact h.recurse
  · exact h

theorem Marks.localObject : Marks A a n₀ (markLocalObject c p t m) := by
  rw [markLocalObject]
  split
  · split
    · exact h
    · exact Marks.recurse ⟨h.current, h.count, h.wf⟩
  · exact h

/-- What is written when an actor is marked. -/
theorem markRemoteActor_writes (hb : b ≠ a) (hA : b ∈ A) :
    markRemoteActor c b = c ∨ ∃ k q, Writes c (markRemoteActor c b) (b, none) k q ∧
      markedCount A a n₀ (b, none) k q := by
  have hne : b ≠ c.current := h.current ▸ hb
  have hwf : c.gc.Wf c.current := h.current.symm ▸ h.wf
  have hold := h.count (b, none)
  rw [Ctx.count_ref hne] at hold
  rw [markRemoteActor]
  split
  · exact .inl rfl
  refine .inr ?_
  split
  · refine ⟨_, _, (writes_ref hwf hne).acquireActor, ?_, fun e => e.elim (absurd · hb) (absurd hA)⟩
    rw [hold.1]
    exact Nat.add_assoc _ _ _
  · exact ⟨_, _, writes_ref hwf hne, hold.1, fun e => e.elim (absurd · hb) (absurd hA)⟩

theorem Marks.remoteActor (hb : b ≠ a) (hA : b ∈ A) : Marks A a n₀ (markRemoteActor c b) := by
  rcases markRemoteActor_writes h hb hA with heq | ⟨k, q, hw, hr⟩
  · rw [heq]
    exact h
  · exact h.writes hw hr

/-- The count of an object is not changed when its owner is marked. -/
theorem Marks.remoteActor_count (hb : b ≠ a) (hA : b ∈ A) :
    (markRemoteActor c b).count (b, some p) = c.count (b, some p) := by
  rcases markRemoteActor_writes h hb hA with heq | ⟨k, q, hw, -⟩
  · rw [heq]
  · rw [hw.count, if_neg (by simp)]

theorem Marks.remoteObject (hb : b ≠ a) (hA : b ∈ A) :
    Marks A a n₀ (markRemoteObject c b p t m) := by
  have hactor := h.remoteActor hb hA
  have hne : b ≠ c.current := h.current ▸ hb
  have hne' : b ≠ (markRemoteActor c b).current := hactor.current ▸ hb
  have hwf : (markRemoteActor c b).gc.Wf (markRemoteActor c b).current :=
    hactor.current.symm ▸ hactor.wf
  have hold := hactor.count (b, some p)
  rw [h.remoteActor_count hb hA, Ctx.count_obj hne] at hold
  rw [markRemoteObject]
  split
  · exact h
  generalize (c.gc.foreign.getorput b c.gc.mark).map.getorput p c.gc.mark = obj at hold ⊢
  have hacquire : ∀ im : Bool, Marks A a n₀ (acquireObject ((markRemoteActor c b).setForeign
      ((markRemoteActor c b).gc.foreign.putObj b (markRemoteActor c b).gc.mark p
        ⟨obj.rc + incMore, (markRemoteActor c b).gc.mark, im⟩)) b p im) := by
    intro im
    have hw := writes_obj (p := p) (w := ⟨obj.rc + incMore, (markRemoteActor c b).gc.mark, im⟩)
      hwf hne' rfl (by simp [incMore])
    refine hactor.writes hw.acquireObject ⟨?_, fun e => e.elim (absurd · hb) (absurd hA)⟩
    show obj.rc + incMore = _
    rw [hold.1]
    exact Nat.add_assoc _ _ _
  split
  · rw [followRemote_eq]
    exact (hacquire true).follow
  split
  · rw [followRemote_eq, Obj.traced_rc]
    exact (hacquire _).follow
  rename_i hzero
  rw [followRemote_eq]
  have hw := writes_obj (p := p) (w := { obj with mark := (markRemoteActor c b).gc.mark })
    hwf hne' rfl (Nat.pos_of_ne_zero hzero)
  exact (hactor.writes hw ⟨hold.1, fun e => e.elim (absurd · hb) (absurd hA)⟩).follow

theorem Marks.child (hg : g.Within A) {child : Child}
    (hchild : child.Within A) : ∃ c', traceChild markOps g c child = .ok c' ∧ Marks A a n₀ c' := by
  have hobject : ∀ p t m, ∃ c', markObject g c p t m = .ok c' ∧ Marks A a n₀ c' := by
    intro p t m
    rw [markObject]
    cases howner : g.owner p with
    | none => exact ⟨_, rfl, h.follow⟩
    | some b =>
      refine ⟨_, rfl, ?_⟩
      by_cases hb : b = a
      · rw [if_pos (hb.trans h.current.symm)]
        exact h.localObject
      · rw [if_neg fun e => hb (e.trans h.current)]
        exact h.remoteObject hb (hg.owner howner)
  cases child with
  | raw p => exact hobject p none .traceOpaque
  | object p m => exact hobject p (g.desc p) m
  | actor b =>
    refine ⟨_, rfl, ?_⟩
    by_cases hb : b = a
    · rw [if_pos (hb.trans h.current.symm)]
      exact h
    · rw [if_neg fun e => hb (e.trans h.current)]
      exact h.remoteActor hb hchild

/-- Marking the fields of an object keeps to the actors in sight. -/
theorem Marks.fields (hg : g.Within A) {fields : List Child}
    (hfields : ∀ child ∈ fields, child.Within A) :
    ∃ c', traceFields markOps g fields c = .ok c' ∧ Marks A a n₀ c' := by
  induction fields generalizing c with
  | nil => exact ⟨c, rfl, h⟩
  | cons child fields ih =>
    obtain ⟨c₁, hc₁, h₁⟩ := h.child hg (hfields child (.head _))
    rw [traceFields, hc₁]
    exact ih h₁ fun child hc => hfields child (.tail _ hc)

theorem Marks.immutable (ps : List Addr) : Marks A a n₀ (markImmutable g ps c) := by
  induction ps generalizing c with
  | nil => exact h
  | cons p ps ih =>
    rw [markImmutable]
    split
    · exact ih h
    split
    · exact ih h.localObject
    · exact ih h

/-- Marking the stack keeps to the actors in sight, unless it does not end. -/
theorem Marks.handlestack (hg : g.Within A) (n : Nat) :
    (∃ c', handlestack markOps g n c = .ok c' ∧ Marks A a n₀ c') ∨
      handlestack markOps g n c = .error .endless := by
  induction n generalizing c with
  | zero =>
    rw [Orca.handlestack]
    split
    · exact .inl ⟨c, rfl, h⟩
    · exact .inr rfl
  | succ n ih =>
    rw [Orca.handlestack]
    split
    · exact .inl ⟨c, rfl, h⟩
    rename_i p stack hstack
    have hpop : Marks A a n₀ { c with stack := stack } := ⟨h.current, h.count, h.wf⟩
    obtain ⟨c₁, hc₁, h₁⟩ := hpop.fields hg (hg.fields p)
    rw [hc₁]
    exact ih h₁

/-- Marking acquires what it needs of other actors, and stops for no other reason than its bound of
rounds. -/
theorem Marks.mark (hg : g.Within A) (n : Nat) {roots : List Child}
    (hroots : ∀ child ∈ roots, child.Within A) (ps : List Addr) :
    (∃ c', mark g n roots ps c = .ok c' ∧ Marks A a n₀ c') ∨
      mark g n roots ps c = .error .endless := by
  obtain ⟨c₁, hc₁, h₁⟩ := h.fields hg hroots
  rw [Orca.mark, hc₁]
  exact (h₁.immutable ps).handlestack hg n

end

theorem Gc.Rest.mark_start {gc : Gc} (h : gc.Rest a) : Marks A a (gc.counts a) (Ctx.start a gc) :=
  ⟨rfl, fun _ => ⟨rfl, fun _ => rfl⟩, h.wf⟩

end

/-! ### Counts of a sweep -/

section
variable {a b : ActorId} {gc : Gc} {m : ActorMap} {r : Res} {k : Nat}

theorem ObjMap.count_filter (m : ObjMap) (f : Obj → Bool) (p : Addr) :
    (m.filter f).count p = (m p).elim 0 fun o => if f o then o.rc else 0 := by
  rw [ObjMap.count, ObjMap.filter]
  cases m p with
  | none => rfl
  | some o =>
    rw [filter_some, elim_some]
    split
    · rfl
    · rfl

theorem ObjMap.count_sweep (m : ObjMap) (p : Addr) : m.sweep.count p = m.count p := by
  rw [ObjMap.sweep, ObjMap.count_filter, ObjMap.count]
  cases m p with
  | none => rfl
  | some o =>
    simp only [elim_some, decide_eq_true_eq]
    split
    · rfl
    · rename_i hzero
      exact (Nat.eq_zero_of_not_pos hzero).symm

theorem ObjMap.count_marked (m : ObjMap) (k : Nat) (p : Addr) :
    (m.marked k).count p + (m.unmarked k).count p = m.count p := by
  rw [ObjMap.marked, ObjMap.unmarked, ObjMap.count_filter, ObjMap.count_filter, ObjMap.count]
  cases m p with
  | none => rfl
  | some o =>
    by_cases ho : o.mark = k
    · simp [ho]
    · simp [ho]

theorem Gc.count_sweep (gc : Gc) (x : Option Addr) : gc.sweep.count x = gc.count x := by
  cases x with
  | none => rfl
  | some p => exact gc.locals.count_sweep p

/-- What stays and what is released are what was there. -/
theorem ActorMap.count_sweep (m : ActorMap) (k : Nat) (r : Res) :
    (m.sweep k).count r + (m.released k r.1).count r.2 = m.count r := by
  obtain ⟨b, x⟩ := r
  rw [count, count, sweep, released]
  cases m b with
  | none => cases x <;> rfl
  | some ref =>
    by_cases hk : ref.mark = k
    · simp only [hk, if_true, elim_some]
      cases x with
      | none => rfl
      | some p => exact ref.map.count_marked k p
    · simp only [hk, if_false, elim_none, elim_some, Nat.zero_add]

theorem ObjMap.mem_filter {m : ObjMap} {f : Obj → Bool} {p : Addr} {o : Obj}
    (h : m.filter f p = some o) : m p = some o := by
  rw [ObjMap.filter] at h
  cases hp : m p with
  | none =>
    rw [hp] at h
    cases h
  | some o' =>
    rw [hp, filter_some] at h
    split at h
    · exact h
    · cases h

/-- What stays was there. -/
theorem ActorMap.sweep_some {ref : ActorRef} (h : m.sweep k b = some ref) :
    ∃ ref', m b = some ref' ∧ ref'.mark = ref.mark ∧
      ∀ p o, ref.map p = some o → ref'.map p = some o := by
  rw [sweep] at h
  split at h
  · cases h
  rename_i ref' hb
  split at h
  · cases h
    exact ⟨ref', hb, rfl, fun p o ho => ObjMap.mem_filter ho⟩
  · cases h

theorem Gc.Wf.sweep (h : gc.Wf a) : gc.sweep.Wf a where
  mark := h.mark
  rcMark := h.rcMark
  locals := fun ho => h.locals (ObjMap.mem_filter ho)
  alone := by
    show gc.foreign.sweep gc.mark a = none
    rw [ActorMap.sweep, h.alone]
  refs := by
    intro b ref hb
    obtain ⟨ref', hb', hmark, -⟩ := sweep_some hb
    rw [← hmark]
    exact h.refs hb'
  objs := by
    intro b ref p o hb ho
    obtain ⟨ref', hb', -, hmap⟩ := sweep_some hb
    exact h.objs hb' (hmap p o ho)

/-- What is released is counted. -/
theorem Gc.Wf.released (h : gc.Wf a) {p : Addr} {o : Obj}
    (ho : (gc.foreign.released k b).map p = some o) : 0 < o.rc := by
  rw [ActorMap.released] at ho
  split at ho
  · cases ho
  rename_i ref hb
  split at ho
  · exact (h.objs hb (ObjMap.mem_filter ho)).2
  · exact (h.objs hb ho).2

end

/-! ### Counts of an owner -/

/-- An order to iterate over a map in. -/
structure Lists {α β : Type} (m : α → Option β) (l : List α) : Prop where
  nodup : l.Nodup
  mem : ∀ x, x ∈ l ↔ m x ≠ none

/-- The counts of an owner were changed, and nothing else. -/
structure Gc.Recounted (gc gc' : Gc) : Prop where
  mark : gc'.mark = gc.mark
  rcMark : gc'.rcMark = gc.rcMark
  foreign : gc'.foreign = gc.foreign
  locals : ∀ {p o}, gc'.locals p = some o → o.mark < gc.mark

section
variable {a : ActorId} {gc gc' : Gc} {ref : ActorRef} {ps : List Addr}

theorem Gc.Rest.recounted (h : gc.Rest a) (hc : gc.Recounted gc') : gc'.Rest a := by
  obtain ⟨hmark, hrcMark, hforeign, hlocals⟩ := hc
  refine ⟨⟨?_, ?_, fun ho => ?_, ?_, fun hr => ?_, fun hr ho => ?_⟩, ?_, fun ho => ?_, fun hr => ?_,
    fun hr ho => ?_⟩
  · exact hmark ▸ h.wf.mark
  · exact hmark ▸ hrcMark ▸ h.wf.rcMark
  · exact hmark ▸ Nat.le_of_lt (hlocals ho)
  · exact hforeign ▸ h.wf.alone
  · exact hmark ▸ h.wf.refs (hforeign ▸ hr)
  · exact hmark ▸ h.wf.objs (hforeign ▸ hr) ho
  · exact hmark ▸ hrcMark ▸ h.rcMark
  · exact hmark ▸ hlocals ho
  · exact hmark ▸ h.refs (hforeign ▸ hr)
  · exact hmark ▸ h.objs (hforeign ▸ hr) ho

theorem ObjMap.count_put (m : ObjMap) (p : Addr) (o : Obj) (q : Addr) :
    (m.put p o).count q = if q = p then o.rc else m.count q := by
  rw [ObjMap.count, ObjMap.put]
  by_cases hq : q = p
  · subst hq
    rw [Function.update_self, if_pos rfl]
    rfl
  · rw [Function.update_of_ne hq, if_neg hq]
    rfl

/-- One object of an owner is written. -/
theorem Gc.Recounted.put {p : Addr} {o : Obj} (h : gc.Recounted gc') (ho : o.mark < gc.mark) :
    gc.Recounted { gc' with locals := gc'.locals.put p o } := by
  refine ⟨h.mark, h.rcMark, h.foreign, fun {q o'} hq => ?_⟩
  by_cases hp : q = p
  · subst hp
    simp only [ObjMap.put, Function.update_self] at hq
    cases hq
    exact ho
  · simp only [ObjMap.put, Function.update_of_ne hp] at hq
    exact h.locals hq

theorem getorput_mark {p : Addr} (h : gc.Recounted gc') (hpos : 0 < gc.mark) :
    (gc'.locals.getorput p gc'.mark).mark < gc.mark := by
  rw [ObjMap.getorput]
  cases hp : gc'.locals p with
  | none =>
    show gc'.mark - 1 < gc.mark
    rw [h.mark]
    omega
  | some o => exact h.locals hp

/-- The count of an object that is on the list goes up. -/
theorem acquireObjects_spec (ref : ActorRef) (hnodup : ps.Nodup) (h : gc.Recounted gc')
    (hpos : 0 < gc.mark) :
    gc.Recounted (acquireObjects ref ps gc') ∧ (acquireObjects ref ps gc').rc = gc'.rc ∧
      ∀ q, (acquireObjects ref ps gc').locals.count q =
        gc'.locals.count q + if q ∈ ps then ref.map.count q else 0 := by
  induction ps generalizing gc' with
  | nil => exact ⟨h, rfl, fun q => rfl⟩
  | cons p ps ih =>
    obtain ⟨hp, hnodup⟩ := nodup_cons.1 hnodup
    rw [acquireObjects]
    cases hobj : ref.map p with
    | none =>
      obtain ⟨hrec, hrc, hcount⟩ := ih hnodup h
      refine ⟨hrec, hrc, fun q => ?_⟩
      rw [hcount q]
      by_cases hq : q = p
      · subst hq
        simp [hp, ObjMap.count, hobj]
      · simp [hq]
    | some obj =>
      dsimp only
      obtain ⟨hrec, hrc, hcount⟩ := ih hnodup (h.put (p := p) (o :=
        ⟨(gc'.locals.getorput p gc'.mark).rc + obj.rc, (gc'.locals.getorput p gc'.mark).mark,
          obj.immutable || (gc'.locals.getorput p gc'.mark).immutable⟩) (getorput_mark h hpos))
      refine ⟨hrec, hrc, fun q => ?_⟩
      rw [hcount q, ObjMap.count_put]
      by_cases hq : q = p
      · subst hq
        have hself : ref.map.count q = obj.rc := by rw [ObjMap.count, hobj]; rfl
        simp [hp, hself, ObjMap.count_getorput]
      · simp [hq]

theorem Lists.count (h : Lists ref.map ps) {p : Addr} (hp : p ∉ ps) : ref.count (some p) = 0 := by
  have hnone : ref.map p = none := not_not.1 fun e => hp ((h.mem p).2 e)
  rw [ActorRef.count, ObjMap.count, hnone]
  rfl

/-- What is acquired of an owner is added to its counts. -/
theorem Gc.Rest.acquire (h : gc.Rest a) (hps : Lists ref.map ps) :
    gc.Recounted (acquire gc ref ps) ∧
      ∀ x, (Orca.acquire gc ref ps).count x = gc.count x + ref.count x := by
  have hstart : gc.Recounted { gc with rc := gc.rc + ref.rc } := ⟨rfl, rfl, rfl, h.locals⟩
  obtain ⟨hrec, hrc, hcount⟩ := acquireObjects_spec ref hps.nodup hstart h.wf.mark
  refine ⟨hrec, fun x => ?_⟩
  cases x with
  | none => exact hrc
  | some p =>
    refine (hcount p).trans ?_
    by_cases hp : p ∈ ps
    · rw [if_pos hp]
      rfl
    have hzero : ref.count (some p) = 0 := hps.count hp
    rw [if_neg hp, hzero]
    rfl

/-- The count of an object that is on the list goes down, if there is enough of it. -/
theorem releaseObjects_spec (ref : ActorRef) (hnodup : ps.Nodup) (h : gc.Recounted gc')
    (hobjs : ∀ p o, ref.map p = some o → 0 < o.rc)
    (henough : ∀ p ∈ ps, ref.map.count p ≤ gc'.locals.count p) :
    ∃ gc'', releaseObjects ref ps gc' = .ok gc'' ∧ gc.Recounted gc'' ∧ gc''.rc = gc'.rc ∧
      ∀ q, gc''.locals.count q + (if q ∈ ps then ref.map.count q else 0) =
        gc'.locals.count q := by
  induction ps generalizing gc' with
  | nil => exact ⟨gc', rfl, h, rfl, fun q => rfl⟩
  | cons p ps ih =>
    obtain ⟨hp, hnodup⟩ := nodup_cons.1 hnodup
    rw [releaseObjects]
    have hhead := henough p (.head _)
    cases hobj : ref.map p with
    | none =>
      obtain ⟨gc'', hok, hrec, hrc, hcount⟩ := ih hnodup h
        fun q hq => henough q (.tail _ hq)
      refine ⟨gc'', hok, hrec, hrc, fun q => ?_⟩
      rw [← hcount q]
      by_cases hq : q = p
      · subst hq
        simp [hp, ObjMap.count, hobj]
      · simp [hq]
    | some obj =>
      have hself : ref.map.count p = obj.rc := by rw [ObjMap.count, hobj]; rfl
      have hpos := hobjs p obj hobj
      rw [hself] at hhead
      cases hown : gc'.locals p with
      | none =>
        -- an object that is not counted has the count 0
        rw [ObjMap.count, hown, elim_none] at hhead
        omega
      | some own =>
        have hrcown : gc'.locals.count p = own.rc := by rw [ObjMap.count, hown]; rfl
        rw [hrcown] at hhead
        dsimp only
        rw [if_pos hhead]
        have hmark : own.mark < gc.mark := h.locals hown
        obtain ⟨gc'', hok, hrec, hrc, hcount⟩ := ih hnodup
          (h.put (p := p) (o := { own with rc := own.rc - obj.rc }) hmark)
          (fun q hq => by
            have hne : q ≠ p := fun e => hp (e ▸ hq)
            simp only [ObjMap.count_put, if_neg hne]
            exact henough q (.tail _ hq))
        refine ⟨gc'', hok, hrec, hrc, fun q => ?_⟩
        have hq' := hcount q
        rw [ObjMap.count_put] at hq'
        by_cases hq : q = p
        · subst hq
          simp only [hp, if_false, Nat.add_zero, if_true] at hq'
          simp only [mem_cons, true_or, if_true, hself, hrcown]
          omega
        · simpa [hq] using hq'

/-- What is released to an owner is taken from its counts, if there is enough. -/
theorem Gc.Rest.release (h : gc.Rest a) (hps : Lists ref.map ps)
    (hobjs : ∀ p o, ref.map p = some o → 0 < o.rc) (henough : ∀ x, ref.count x ≤ gc.count x) :
    ∃ gc', release gc ref ps = .ok gc' ∧ gc.Recounted gc' ∧
      ∀ x, gc'.count x + ref.count x = gc.count x := by
  have hstart : gc.Recounted { gc with rc := gc.rc - ref.rc } := ⟨rfl, rfl, rfl, h.locals⟩
  have hrc₀ : ref.rc ≤ gc.rc := henough none
  obtain ⟨gc', hok, hrec, hrc, hcount⟩ := releaseObjects_spec ref hps.nodup hstart hobjs
    fun p _ => henough (some p)
  refine ⟨gc', ?_, hrec, fun x => ?_⟩
  · rw [Orca.release, if_pos hrc₀]
    exact hok
  cases x with
  | none =>
    show gc'.rc + ref.rc = gc.rc
    rw [hrc]
    exact Nat.sub_add_cancel hrc₀
  | some p =>
    have hp' := hcount p
    by_cases hp : p ∈ ps
    · rw [if_pos hp] at hp'
      exact hp'
    have hzero : ref.count (some p) = 0 := hps.count hp
    rw [if_neg hp] at hp'
    rw [hzero]
    exact hp'

end

end SpacePony.Orca
