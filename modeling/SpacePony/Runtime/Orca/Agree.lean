import SpacePony.Runtime.Orca.Visit

/-!
# Runtime — send and receive traces agree

* `send_tally`, `recv_tally`: each function of the two traces visits what `Graph.visit` says, with
  these counts.
* `send_run`, `recv_run`: so do whole traces, and they end when `Graph.run` does.
* `adjusts_iff_send`, `adjusts_iff_recv`: the counts that change are those of what was visited.
-/

namespace SpacePony.Orca

open Nat

/-- What a send trace makes of the counts `n₀` of the actor `a`: one more of what it owns, one less
of the rest, where `incMore` were acquired if there was not enough. -/
def sentCount (a : ActorId) (n₀ : Res → Nat) (r : Res) (seen : Bool) (n q : Nat) : Prop :=
  if r.1 = a then n = n₀ r + seen.toNat ∧ q = 0
  else n + seen.toNat = n₀ r + q ∧ (q = 0 ∨ seen = true ∧ q = incMore)

/-- What a receive trace makes of the counts `n₀` of the actor `a`: one less of what it owns, one
more of the rest. -/
def receivedCount (a : ActorId) (n₀ : Res → Nat) (r : Res) (seen : Bool) (n q : Nat) : Prop :=
  if r.1 = a then n + seen.toNat = n₀ r ∧ q = 0 else n = n₀ r + seen.toNat ∧ q = 0

/-- A part of a trace has visited what `s` says, with the counts `P`, or it stopped because `need`
does not hold of something that it visits. -/
def Outcome (P : Res → Bool → Nat → Nat → Prop) (a : ActorId) (need : Res → Prop) (s : Spec)
    (x : Except Fault Ctx) : Prop :=
  (∃ c, x = .ok c ∧ Tally P a s c) ∨ ∃ e, x = .error e ∧ ∃ r ∈ s.seen, ¬ need r

/-- A receiver has counted what it owns. -/
def Counted (a : ActorId) (n₀ : Res → Nat) (r : Res) : Prop := r.1 = a → 0 < n₀ r

section
variable {a b : ActorId} {n₀ : Res → Nat} {g : Graph} {s : Spec} {c : Ctx} {p : Addr}
  {t : Option Desc} {m : Mutability}

/-! ### Sending -/

theorem sendLocalActor_tally (h : Tally (sentCount a n₀) a s c) :
    Tally (sentCount a n₀) a (s.touch (a, none)) (sendLocalActor c) := by
  rw [sendLocalActor]
  split
  · rename_i hne
    have hnot : ¬ c.Seen (a, none) := fun hs => hne (h.seen_self.1 hs)
    have hold := h.count_unseen hnot
    rw [sentCount, if_pos rfl, h.count_self] at hold
    refine h.writes (writes_self h.wf h.current) hnot ?_
    rw [sentCount, if_pos rfl]
    exact ⟨by rw [hold.1]; rfl, hold.2⟩
  · rename_i heq
    exact h.again (h.seen_self.2 (not_not.1 heq))

theorem sendRemoteActor_tally (h : Tally (sentCount a n₀) a s c) (hb : b ≠ a) :
    Tally (sentCount a n₀) a (s.touch (b, none)) (sendRemoteActor c b) := by
  rw [sendRemoteActor]
  have hne : b ≠ c.current := h.current ▸ hb
  split
  · rename_i heq
    exact h.again ((h.seen_ref hb).2 heq)
  rename_i hmark
  have hnot : ¬ c.Seen (b, none) := fun hs => hmark ((h.seen_ref hb).1 hs)
  have hold := h.count_unseen hnot
  rw [sentCount, if_neg hb, h.count_ref hb] at hold
  obtain ⟨hn, hq⟩ := hold
  have hzero : c.acquire.count (b, none) = 0 := hq.resolve_right (by simp)
  rw [hzero] at hn
  split
  · refine h.writes (writes_ref h.wf_current hne).acquireActor hnot ?_
    rw [sentCount, if_neg hb, hzero]
    refine ⟨?_, .inr ⟨rfl, Nat.zero_add _⟩⟩
    simp only [incMore, Bool.toNat_true, Bool.toNat_false] at hn ⊢
    omega
  refine h.writes (writes_ref h.wf_current hne) hnot ?_
  rw [sentCount, if_neg hb, hzero]
  refine ⟨?_, .inl rfl⟩
  simp only [Bool.toNat_true, Bool.toNat_false] at hn ⊢
  omega

/-- The owner of an object is visited before it, the object not yet. -/
theorem Tally.unseen_touch {P : Res → Bool → Nat → Nat → Prop} {c' : Ctx}
    (h : Tally P a s c) (h' : Tally P a (s.touch (b, none)) c') (hnot : ¬ c.Seen (b, some p)) :
    ¬ c'.Seen (b, some p) := by
  rw [h'.seen, Spec.mem_touch, ← h.seen]
  simp [hnot]

theorem sendLocalObject_tally (h : Tally (sentCount a n₀) a s c) : Tally (sentCount a n₀) a
      (if (a, some p) ∈ s.seen then s
        else ((s.touch (a, none)).touch (a, some p)).follow p t m) (sendLocalObject c p t m) := by
  rw [sendLocalObject]
  by_cases hs : c.Seen (a, some p)
  · rw [if_pos (h.seen_local.1 hs), if_pos ((h.seen _).1 hs)]
    exact h
  rw [if_neg fun e => hs (h.seen_local.2 e), if_neg fun e => hs ((h.seen _).2 e), followLocal_eq]
  have hactor := sendLocalActor_tally h
  have hnot := h.unseen_touch hactor hs
  have hold := h.count_unseen hs
  have hnew := hactor.count_unseen hnot
  rw [sentCount, if_pos rfl, h.count_local] at hold
  rw [sentCount, if_pos rfl] at hnew
  refine (hactor.writes (writes_local hactor.wf hactor.current (by simp)) hnot ?_).follow
  rw [sentCount, if_pos rfl]
  refine ⟨?_, hnew.2⟩
  rw [Obj.traced_rc, hold.1]
  rfl

theorem sendRemoteObject_tally (h : Tally (sentCount a n₀) a s c) (hb : b ≠ a) :
    Tally (sentCount a n₀) a (if (b, some p) ∈ s.seen then s
        else ((s.touch (b, none)).touch (b, some p)).follow p t m) (sendRemoteObject c b p t m) := by
  rw [sendRemoteObject]
  by_cases hs : c.Seen (b, some p)
  · rw [if_pos ((h.seen_obj hb).1 hs), if_pos ((h.seen _).1 hs)]
    exact h
  rw [if_neg fun e => hs ((h.seen_obj hb).2 e), if_neg fun e => hs ((h.seen _).2 e)]
  have hactor := sendRemoteActor_tally h hb
  have hne : b ≠ (sendRemoteActor c b).current := hactor.current ▸ hb
  have hnot := h.unseen_touch hactor hs
  have hold := h.count_unseen hs
  have hnew := hactor.count_unseen hnot
  rw [sentCount, if_neg hb, h.count_obj hb] at hold
  rw [sentCount, if_neg hb] at hnew
  have hzero : c.acquire.count (b, some p) = 0 := hold.2.resolve_right (by simp)
  have hzero' : (sendRemoteActor c b).acquire.count (b, some p) = 0 :=
    hnew.2.resolve_right (by simp)
  have hn := hold.1
  rw [hzero] at hn
  simp only [Bool.toNat_false, Nat.add_zero] at hn
  generalize (c.gc.foreign.getorput b c.gc.mark).map.getorput p c.gc.mark = obj at hn ⊢
  -- what is written, with or without an acquire message
  have hacquire : ∀ im : Bool, Tally (sentCount a n₀) a ((s.touch (b, none)).touch (b, some p))
      (acquireObject ((sendRemoteActor c b).setForeign ((sendRemoteActor c b).gc.foreign.putObj b
        (sendRemoteActor c b).gc.mark p ⟨obj.rc + (incMore - 1), (sendRemoteActor c b).gc.mark,
          im⟩)) b p im) := by
    intro im
    refine hactor.writes (writes_obj hactor.wf_current hne rfl ?_).acquireObject hnot ?_
    · simp [incMore]
    · rw [sentCount, if_neg hb, hzero', hn]
      exact ⟨rfl, .inr ⟨rfl, Nat.zero_add _⟩⟩
  split
  · -- received as mutable: the trace goes on, as it does for any object that is not opaque
    rename_i him
    have hsame : ∀ c : Ctx, followRemote c p t .traceMutable = foreignMemory c p t m := by
      intro c
      rw [followRemote_eq, foreignMemory, foreignMemory, him.1]
      rfl
    rw [hsame]
    exact (hacquire true).follow
  split
  · rw [followRemote_eq, Obj.traced_rc]
    exact (hacquire _).follow
  rw [followRemote_eq]
  have hw := writes_obj (p := p) (w := ⟨obj.rc - 1, (sendRemoteActor c b).gc.mark,
    obj.immutable⟩) hactor.wf_current hne rfl (by show 0 < obj.rc - 1; omega)
  refine (hactor.writes hw hnot ?_).follow
  rw [sentCount, if_neg hb, hzero']
  refine ⟨?_, .inl rfl⟩
  show obj.rc - 1 + 1 = n₀ (b, some p) + 0
  omega

/-! ### Receiving -/

theorem not_counted {x : Option Addr} (h : n₀ (a, x) = 0) : ¬ Counted a n₀ (a, x) :=
  fun hc => lt_irrefl 0 (h ▸ hc rfl)

section
variable (h : Tally (receivedCount a n₀) a s c)
include h

theorem recvLocalActor_tally :
    Outcome (receivedCount a n₀) a (Counted a n₀) (s.touch (a, none)) (recvLocalActor c) := by
  rw [recvLocalActor]
  by_cases heq : c.gc.rcMark = c.gc.mark
  · rw [if_neg (not_not.2 heq)]
    exact .inl ⟨c, rfl, h.again (h.seen_self.2 heq)⟩
  have hnot : ¬ c.Seen (a, none) := fun hs => heq (h.seen_self.1 hs)
  have hold := h.count_unseen hnot
  rw [receivedCount, if_pos rfl, h.count_self] at hold
  obtain ⟨hn, hq⟩ := hold
  simp only [Bool.toNat_false, Nat.add_zero] at hn
  rw [if_pos heq]
  by_cases hpos : 0 < c.gc.rc
  · rw [if_pos hpos]
    refine .inl ⟨_, rfl, h.writes (writes_self h.wf h.current) hnot ?_⟩
    rw [receivedCount, if_pos rfl]
    refine ⟨?_, hq⟩
    show c.gc.rc - 1 + 1 = n₀ (a, none)
    omega
  · rw [if_neg hpos]
    exact .inr ⟨_, rfl, _, Spec.mem_touch.2 (.inl rfl), not_counted (by omega)⟩

theorem recvRemoteActor_tally (hb : b ≠ a) :
    Tally (receivedCount a n₀) a (s.touch (b, none)) (recvRemoteActor c b) := by
  rw [recvRemoteActor]
  have hne : b ≠ c.current := h.current ▸ hb
  split
  · rename_i heq
    exact h.again ((h.seen_ref hb).2 heq)
  rename_i hmark
  have hnot : ¬ c.Seen (b, none) := fun hs => hmark ((h.seen_ref hb).1 hs)
  have hold := h.count_unseen hnot
  rw [receivedCount, if_neg hb, h.count_ref hb] at hold
  refine h.writes (writes_ref h.wf_current hne) hnot ?_
  rw [receivedCount, if_neg hb]
  refine ⟨?_, hold.2⟩
  rw [hold.1]
  rfl

theorem recvLocalObject_tally :
    Outcome (receivedCount a n₀) a (Counted a n₀) (if (a, some p) ∈ s.seen then s
        else ((s.touch (a, none)).touch (a, some p)).follow p t m) (recvLocalObject c p t m) := by
  rw [recvLocalObject]
  by_cases hs : c.Seen (a, some p)
  · rw [if_pos ((h.seen _).1 hs)]
    rw [Ctx.Seen, if_pos h.current.symm, Gc.Marked, ObjMap.Marked] at hs
    cases hobj : c.gc.locals p with
    | none =>
      rw [hobj] at hs
      exact absurd hs not_false
    | some obj =>
      rw [hobj, Option.elim_some] at hs
      dsimp only
      rw [if_pos hs]
      exact .inl ⟨c, rfl, h⟩
  rw [if_neg fun e => hs ((h.seen _).2 e)]
  have hself : (a, some p) ∈ (((s.touch (a, none)).touch (a, some p)).follow p t m).seen := by
    rw [Spec.follow_seen]
    exact Spec.mem_touch.2 (.inl rfl)
  have hold := h.count_unseen hs
  rw [receivedCount, if_pos rfl, h.count_local, ObjMap.getorput] at hold
  obtain ⟨hn, -⟩ := hold
  have hmark := hs
  rw [h.seen_local, ObjMap.getorput] at hmark
  cases hobj : c.gc.locals p with
  | none =>
    -- an object that is not counted has the count 0
    rw [hobj] at hn
    exact .inr ⟨_, rfl, _, hself, not_counted hn.symm⟩
  | some obj =>
    rw [hobj] at hn hmark
    simp only [Option.getD_some, Bool.toNat_false, Nat.add_zero] at hn hmark
    dsimp only
    rw [if_neg hmark]
    rcases recvLocalActor_tally h with ⟨c', hc', hactor⟩ | ⟨e, he, r, hr, hbad⟩
    · rw [hc']
      dsimp only
      by_cases hzero : obj.rc = 0
      · rw [if_pos hzero]
        exact .inr ⟨_, rfl, _, hself, not_counted (hn.symm.trans hzero)⟩
      have hnot := h.unseen_touch hactor hs
      have hnew := hactor.count_unseen hnot
      rw [receivedCount, if_pos rfl] at hnew
      rw [if_neg hzero, followLocal_eq]
      refine .inl ⟨_, rfl, ?_⟩
      refine (hactor.writes (writes_local hactor.wf hactor.current (by simp)) hnot ?_).follow
      rw [receivedCount, if_pos rfl, Obj.traced_rc]
      refine ⟨?_, hnew.2⟩
      show obj.rc - 1 + 1 = n₀ (a, some p)
      omega
    rw [he]
    refine .inr ⟨e, rfl, r, ?_, hbad⟩
    rw [Spec.follow_seen]
    exact Spec.mem_touch.2 (.inr hr)

theorem recvRemoteObject_tally (hb : b ≠ a) :
    Tally (receivedCount a n₀) a (if (b, some p) ∈ s.seen then s
        else ((s.touch (b, none)).touch (b, some p)).follow p t m) (recvRemoteObject c b p t m) := by
  rw [recvRemoteObject]
  by_cases hs : c.Seen (b, some p)
  · rw [if_pos ((h.seen_obj hb).1 hs), if_pos ((h.seen _).1 hs)]
    exact h
  rw [if_neg fun e => hs ((h.seen_obj hb).2 e), if_neg fun e => hs ((h.seen _).2 e), followLocal_eq]
  have hactor := recvRemoteActor_tally h hb
  have hne : b ≠ (recvRemoteActor c b).current := hactor.current ▸ hb
  have hnot := h.unseen_touch hactor hs
  have hold := h.count_unseen hs
  have hnew := hactor.count_unseen hnot
  rw [receivedCount, if_neg hb, h.count_obj hb] at hold
  rw [receivedCount, if_neg hb] at hnew
  refine (hactor.writes (writes_obj hactor.wf_current hne (by simp) (by simp)) hnot ?_).follow
  rw [receivedCount, if_neg hb, Obj.traced_rc]
  refine ⟨?_, hnew.2⟩
  rw [hold.1]
  rfl

end

end

/-! ### Whole traces -/

/-- The functions of a trace visit what `Graph.visit` says. -/
def Ops.Tallies (ops : Ops) (g : Graph) (P : Res → Bool → Nat → Nat → Prop) (a : ActorId)
    (need : Res → Prop) : Prop :=
  ∀ s c child, Tally P a s c → Outcome P a need (g.visit s child) (traceChild ops g c child)

section
variable {ops : Ops} {g : Graph} {P : Res → Bool → Nat → Nat → Prop} {a : ActorId}
  {need : Res → Prop} {s s' : Spec} {c : Ctx} {n : Nat}

section
variable (hops : ops.Tallies g P a need)
include hops

theorem traceFields_tally (fields : List Child)
    (h : Tally P a s c) : Outcome P a need (g.visitFields fields s) (traceFields ops g fields c) := by
  induction fields generalizing s c with
  | nil => exact .inl ⟨c, rfl, h⟩
  | cons child fields ih =>
    rw [traceFields]
    rcases hops s c child h with ⟨c₁, hc₁, h₁⟩ | ⟨e, he, r, hr, hbad⟩
    · rw [hc₁]
      exact ih h₁
    · rw [he]
      exact .inr ⟨e, rfl, r, Graph.subset_visitFields fields hr, hbad⟩

/-- One round: the fields of the object on top of the stack. -/
theorem round_tally (h : Tally P a s c) (p : Addr)
    (stack : List Addr) : Outcome P a need (g.visitFields (g.fields p) { s with stack := stack })
      (traceFields ops g (g.fields p) { c with stack := stack }) :=
  traceFields_tally hops (g.fields p)
    (s := { s with stack := stack }) ⟨h.current, rfl, h.seen, h.count, h.wf⟩

theorem handlestack_tally (h : Tally P a s c)
    (hrun : g.handle n s = some s') : Outcome P a need s' (handlestack ops g n c) := by
  induction n generalizing s c with
  | zero =>
    rw [Graph.handle] at hrun
    split at hrun
    · rename_i hstack
      cases hrun
      rw [handlestack, if_pos (h.stack.trans hstack)]
      exact .inl ⟨c, rfl, h⟩
    · cases hrun
  | succ n ih =>
    rw [Graph.handle] at hrun
    rw [handlestack, h.stack]
    cases hstack : s.stack with
    | nil =>
      rw [hstack] at hrun
      cases hrun
      exact .inl ⟨c, rfl, h⟩
    | cons p stack =>
      rw [hstack] at hrun
      dsimp only at hrun ⊢
      rcases round_tally hops h p stack with ⟨c₁, hc₁, h₁⟩ | ⟨e, he, r, hr, hbad⟩
      · rw [hc₁]
        exact ih h₁ hrun
      · rw [he]
        exact .inr ⟨e, rfl, r, Graph.subset_handle hrun hr, hbad⟩

/-- A trace visits what `Graph.run` says. -/
theorem trace_tally {roots : List Child} (h : Tally P a ⟨[], []⟩ c)
    (hrun : g.run n roots = some s') : Outcome P a need s' (trace ops g n roots c) := by
  rw [trace]
  rcases traceFields_tally hops roots h with ⟨c₁, hc₁, h₁⟩ | ⟨e, he, r, hr, hbad⟩
  · rw [hc₁]
    exact handlestack_tally hops h₁ hrun
  · rw [he]
    exact .inr ⟨e, rfl, r, Graph.subset_handle hrun hr, hbad⟩

/-- What stops a trace that does not end in its bound of rounds. -/
def Stops (need : Res → Prop) (x : Except Fault Ctx) : Prop :=
  ∃ e, x = .error e ∧ ((∀ r, need r) → e = .endless)

theorem handlestack_endless (h : Tally P a s c)
    (hrun : g.handle n s = none) : Stops need (handlestack ops g n c) := by
  induction n generalizing s c with
  | zero =>
    rw [Graph.handle] at hrun
    split at hrun
    · cases hrun
    rename_i hstack
    rw [handlestack, if_neg fun e => hstack (h.stack.symm.trans e)]
    exact ⟨_, rfl, fun _ => rfl⟩
  | succ n ih =>
    rw [Graph.handle] at hrun
    rw [handlestack, h.stack]
    cases hstack : s.stack with
    | nil =>
      rw [hstack] at hrun
      cases hrun
    | cons p stack =>
      rw [hstack] at hrun
      dsimp only at hrun ⊢
      rcases round_tally hops h p stack with ⟨c₁, hc₁, h₁⟩ | ⟨e, he, r, -, hbad⟩
      · rw [hc₁]
        exact ih h₁ hrun
      · rw [he]
        exact ⟨e, rfl, fun hneed => absurd (hneed r) hbad⟩

/-- A trace does not end in a bound of rounds that is too small for `Graph.run`. -/
theorem trace_endless {roots : List Child}
    (h : Tally P a ⟨[], []⟩ c) (hrun : g.run n roots = none) :
    Stops need (trace ops g n roots c) := by
  rw [trace]
  rcases traceFields_tally hops roots h with ⟨c₁, hc₁, h₁⟩ | ⟨e, he, r, -, hbad⟩
  · rw [hc₁]
    exact handlestack_endless hops h₁ hrun
  · rw [he]
    exact ⟨e, rfl, fun hneed => absurd (hneed r) hbad⟩

/-- A trace that ends visits what `Graph.run` says. -/
theorem trace_run {roots : List Child} {c₁ : Ctx} (h : Tally P a ⟨[], []⟩ c)
    (hc : trace ops g n roots c = .ok c₁) :
    ∃ s, g.run n roots = some s ∧ Tally P a s c₁ := by
  cases hrun : g.run n roots with
  | none =>
    obtain ⟨e, he, -⟩ := trace_endless hops h hrun
    rw [he] at hc
    cases hc
  | some s =>
    refine ⟨s, rfl, ?_⟩
    rcases trace_tally hops h hrun with ⟨c₂, hc₂, h₂⟩ | ⟨e, he, -⟩
    · rw [hc₂] at hc
      cases hc
      exact h₂
    · rw [he] at hc
      cases hc

end

end

section
variable {a : ActorId} {n₀ : Res → Nat} {g : Graph}

theorem sendOps_tallies : sendOps.Tallies g (sentCount a n₀) a fun _ => True := by
  intro s c child h
  have hobject : ∀ p t m, Outcome (sentCount a n₀) a (fun _ => True) (g.visitObject s p t m)
      (sendObject g c p t m) := by
    intro p t m
    rw [sendObject, Graph.visitObject]
    cases g.owner p with
    | none => exact .inl ⟨_, rfl, h.follow⟩
    | some b =>
      refine .inl ⟨_, rfl, ?_⟩
      by_cases hb : b = a
      · subst hb
        rw [if_pos h.current.symm]
        exact sendLocalObject_tally h
      have hne : b ≠ c.current := h.current ▸ hb
      rw [if_neg hne]
      exact sendRemoteObject_tally h hb
  cases child with
  | raw p => exact hobject p none .traceOpaque
  | object p m => exact hobject p (g.desc p) m
  | actor b =>
    refine .inl ⟨_, rfl, ?_⟩
    by_cases hb : b = a
    · subst hb
      rw [if_pos h.current.symm]
      exact sendLocalActor_tally h
    · rw [if_neg fun e => hb (e.trans h.current)]
      exact sendRemoteActor_tally h hb

theorem recvOps_tallies : recvOps.Tallies g (receivedCount a n₀) a (Counted a n₀) := by
  intro s c child h
  have hobject : ∀ p t m, Outcome (receivedCount a n₀) a (Counted a n₀) (g.visitObject s p t m)
      (recvObject g c p t m) := by
    intro p t m
    rw [recvObject, Graph.visitObject]
    cases g.owner p with
    | none => exact .inl ⟨_, rfl, h.follow⟩
    | some b =>
      dsimp only
      by_cases hb : b = a
      · subst hb
        rw [if_pos h.current.symm]
        exact recvLocalObject_tally h
      have hne : b ≠ c.current := h.current ▸ hb
      rw [if_neg hne]
      exact .inl ⟨_, rfl, recvRemoteObject_tally h hb⟩
  cases child with
  | raw p => exact hobject p none .traceOpaque
  | object p m => exact hobject p (g.desc p) m
  | actor b =>
    show Outcome _ _ _ _ (recvActor c b)
    rw [recvActor]
    by_cases hb : b = a
    · subst hb
      rw [if_pos h.current.symm]
      exact recvLocalActor_tally h
    · rw [if_neg fun e => hb (e.trans h.current)]
      exact .inl ⟨_, rfl, recvRemoteActor_tally h hb⟩

end

/-! ### Traces of an actor at rest -/

/-- Between traces nothing has the mark of the next trace. -/
structure Gc.Rest (a : ActorId) (gc : Gc) : Prop where
  wf : gc.Wf a
  rcMark : gc.rcMark < gc.mark
  locals : ∀ {p o}, gc.locals p = some o → o.mark < gc.mark
  refs : ∀ {b ref}, gc.foreign b = some ref → ref.mark < gc.mark
  objs : ∀ {b ref p o}, gc.foreign b = some ref → ref.map p = some o → o.mark < gc.mark

theorem Gc.Wf.done {a : ActorId} {gc : Gc} (h : gc.Wf a) : gc.done.Rest a where
  wf :=
    { mark := succ_pos _
      rcMark := le_succ_of_le h.rcMark
      locals := fun ho => le_succ_of_le (h.locals ho)
      alone := h.alone
      refs := fun hr => le_succ_of_le (h.refs hr)
      objs := fun hr ho => ⟨le_succ_of_le (h.objs hr ho).1, (h.objs hr ho).2⟩ }
  rcMark := lt_succ_of_le h.rcMark
  locals := fun ho => lt_succ_of_le (h.locals ho)
  refs := fun hr => lt_succ_of_le (h.refs hr)
  objs := fun hr ho => lt_succ_of_le (h.objs hr ho).1

/-- The counts of an actor: its own, and of what it holds. -/
def Gc.counts (a : ActorId) (gc : Gc) (r : Res) : Nat := (Ctx.start a gc).count r

section
variable {a : ActorId} {gc : Gc} {g : Graph} {n : Nat} {roots : List Child} {s : Spec} {c : Ctx}

section
variable (h : gc.Rest a)
include h

theorem Gc.Rest.unseen (r : Res) : ¬ (Ctx.start a gc).Seen r := by
  obtain ⟨b, x⟩ := r
  rw [Ctx.Seen]
  split
  · cases x with
    | none => exact Nat.ne_of_lt h.rcMark
    | some p =>
      show ¬ (gc.locals p).elim False _
      cases hp : gc.locals p with
      | none => exact not_false
      | some o => exact Nat.ne_of_lt (h.locals hp)
  show ¬ (gc.foreign b).elim False _
  cases hb : gc.foreign b with
  | none => exact not_false
  | some ref =>
    cases x with
    | none => exact Nat.ne_of_lt (h.refs hb)
    | some p =>
      show ¬ (ref.map p).elim False _
      cases hp : ref.map p with
      | none => exact not_false
      | some o => exact Nat.ne_of_lt (h.objs hb hp)

/-- A trace starts with the counts there are. -/
theorem Gc.Rest.start {P : Res → Bool → Nat → Nat → Prop}
    (hP : ∀ r, P r false (gc.counts a r) 0) : Tally P a ⟨[], []⟩ (Ctx.start a gc) where
  current := rfl
  stack := rfl
  seen := fun r => iff_of_false (h.unseen r) List.not_mem_nil
  count := hP
  wf := h.wf

theorem Gc.Rest.send_start : Tally (sentCount a (gc.counts a)) a ⟨[], []⟩ (Ctx.start a gc) := by
  refine h.start fun r => ?_
  rw [sentCount]
  split
  · exact ⟨rfl, rfl⟩
  · exact ⟨rfl, .inl rfl⟩

theorem Gc.Rest.recv_start : Tally (receivedCount a (gc.counts a)) a ⟨[], []⟩ (Ctx.start a gc) := by
  refine h.start fun r => ?_
  rw [receivedCount]
  split
  · exact ⟨rfl, rfl⟩
  · exact ⟨rfl, rfl⟩

/-- A send trace that ends visits what `Graph.run` says. -/
theorem Gc.Rest.send_run (hc : trace sendOps g n roots (Ctx.start a gc) = .ok c) :
    ∃ s, g.run n roots = some s ∧ Tally (sentCount a (gc.counts a)) a s c :=
  trace_run sendOps_tallies h.send_start hc

/-- A send trace stops for no other reason than its bound of rounds. -/
theorem Gc.Rest.send_fault {e : Fault} (he : trace sendOps g n roots (Ctx.start a gc) = .error e) :
    e = .endless ∧ g.run n roots = none := by
  cases hrun : g.run n roots with
  | none =>
    obtain ⟨e', he', hend⟩ := trace_endless sendOps_tallies h.send_start hrun
    rw [he'] at he
    cases he
    exact ⟨hend fun _ => trivial, rfl⟩
  | some s =>
    rcases trace_tally sendOps_tallies h.send_start hrun with ⟨c₁, hc₁, -⟩ | ⟨_, -, r, -, hbad⟩
    · rw [hc₁] at he
      cases he
    · exact absurd trivial hbad

/-- A receive trace that ends visits what `Graph.run` says. -/
theorem Gc.Rest.recv_run (hc : trace recvOps g n roots (Ctx.start a gc) = .ok c) :
    ∃ s, g.run n roots = some s ∧ Tally (receivedCount a (gc.counts a)) a s c :=
  trace_run recvOps_tallies h.recv_start hc

/-- A receive trace ends if the receiver has counted what it owns. -/
theorem Gc.Rest.recv_ok (hrun : g.run n roots = some s)
    (hneed : ∀ r ∈ s.seen, Counted a (gc.counts a) r) :
    ∃ c, trace recvOps g n roots (Ctx.start a gc) = .ok c := by
  rcases trace_tally recvOps_tallies h.recv_start hrun with ⟨c, hc, -⟩ | ⟨_, -, r, hr, hbad⟩
  · exact ⟨c, hc⟩
  · exact absurd (hneed r hr) hbad

end

/-! ### What a trace adjusts -/

/-- A trace changes the count of exactly what it has visited. -/
theorem Tally.sent_ne_iff (h : Tally (sentCount a (gc.counts a)) a s c) (r : Res) :
    c.count r ≠ gc.counts a r ↔ r ∈ s.seen := by
  have hcount := h.count r
  rw [sentCount] at hcount
  by_cases hr : r ∈ s.seen
  · rw [decide_eq_true hr] at hcount
    refine iff_of_true ?_ hr
    split at hcount
    · rw [hcount.1]
      exact Nat.succ_ne_self _
    obtain ⟨hn, hq | ⟨-, hq⟩⟩ := hcount
    · rw [hq, Nat.add_zero] at hn
      exact fun e => Nat.succ_ne_self _ (hn.trans e.symm)
    intro e
    rw [e, hq] at hn
    exact absurd (Nat.add_left_cancel hn) (by decide)
  rw [decide_eq_false hr] at hcount
  refine iff_of_false ?_ hr
  rw [not_not]
  split at hcount
  · exact hcount.1
  obtain ⟨hn, hq | ⟨hfalse, -⟩⟩ := hcount
  · rw [hq] at hn
    exact hn
  · cases hfalse

theorem Tally.received_ne_iff (h : Tally (receivedCount a (gc.counts a)) a s c) (r : Res) :
    c.count r ≠ gc.counts a r ↔ r ∈ s.seen := by
  have hcount := h.count r
  rw [receivedCount] at hcount
  by_cases hr : r ∈ s.seen
  · rw [decide_eq_true hr] at hcount
    refine iff_of_true ?_ hr
    split at hcount
    · rw [← hcount.1]
      exact Nat.ne_of_lt (Nat.lt_succ_self _)
    · rw [hcount.1]
      exact Nat.succ_ne_self _
  rw [decide_eq_false hr] at hcount
  refine iff_of_false ?_ hr
  rw [not_not]
  split at hcount
  · exact hcount.1
  · exact hcount.1

end

end SpacePony.Orca
