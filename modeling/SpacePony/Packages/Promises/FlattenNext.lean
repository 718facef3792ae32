import SpacePony.Packages.Promises.History

/-!
# Packages — promises — flatten_next

`Promise.flatten_next` of `promise.pony`: a promise for what the promise that a function returns
will hold.  Calls of `flatten_next` attach their steps to promises that the rest of the program uses
as it likes.

The invariant says where every message comes from, and that none is lost (`Inv`).  So the promise of
a call gets the outcome that the call forwards to it and no other (`Call.forwards`), and that is not
always the one of the inner promise (`flatten_next_iff`).
-/

namespace SpacePony.Promises.FlattenNext

open List Mailbox

variable {α : Type}

/-- A call of `flatten_next` on a promise. -/
structure Call (α : Type) where
  promise : Addr
  fulfill : Val α → Option Addr
  rejected : Option Addr

/-- The step that the `k`-th call attaches. -/
def Call.step (k : Nat) (c : Call α) : Then α :=
  { fulfill := .flatten k c.fulfill, rejected := .flatten k c.rejected, promise := .input k 0 }

/-- The step that it attaches to the inner promise. -/
def innerStep (k : Nat) : Then α := step k 1 (.inner k) (.inner k)

/-- The promise is neither the one that a call of `flatten_next` returns nor one of the `next`s inside
it. -/
def Others (g : List (Option (Call α))) : Addr → Prop
  | .result k => ∀ c, g[k]? ≠ some (some c)
  | .input k _ => ∀ c, g[k]? ≠ some (some c)

/-- The messages of the rest of the program: it uses every promise, but leaves it to `flatten_next` to
settle the promises that this returns.  What the actors behind `join`, `add` and `select` send to
promises is among them. -/
def Outside (g : List (Option (Call α))) : Msg α → Prop
  | .apply p _ | .reject p => Others g p
  | .attach _ s =>
    (∃ f, s.fulfill = .user f) ∧ (∃ r, s.rejected = .user r) ∧ Others g s.promise
  | .joinApply _ _ | .fulfillA _ _ | .fulfillB _ _ | .selectApply _ _ _ => False

/-- The `k`-th call sends its step, if it is one of `flatten_next`. -/
def sends (k : Nat) : Option (Call α) → List (Msg α)
  | some c => [.attach c.promise (c.step k)]
  | none => []

/-- The promises, for a program that makes the calls `g` one after the other and sends other messages
at any time. -/
def flattening (g : List (Option (Call α))) : System (World α) (Msg α) where
  init :=
    { promise := fun _ => { }
      helper := fun _ => .absent
      made := 0
      runs := []
      helperSent := [] }
  handle := handle
  inject w w' ms :=
    (∃ c, g[w.made]? = some c ∧ w' = { w with made := w.made + 1 } ∧ ms = sends w.made c) ∨
    (w' = w ∧ ∀ m ∈ ms, Outside g m)

/-! ### What is forwarded -/

/-- The promise that the function of the call returned; `none` is an error. -/
def Call.returned (c : Call α) : Outcome α → Option Addr
  | .fulfilled v => c.fulfill v
  | .rejected => c.rejected

/-- The outcome that a call forwards to the promise that it returns, when the promises have the
outcomes `f`. -/
def Call.forwards (c : Call α) (f : Addr → Option (Outcome α)) : Option (Outcome α) :=
  match f c.promise with
  | none => none
  | some o =>
    match c.returned o, o with
    | none, _ => some .rejected
    | some q, .fulfilled _ => f q
    | some _, .rejected => none

/-! ### Where messages come from -/

/-- A step of the rest of the program, of a call, or on an inner promise. -/
def Known (g : List (Option (Call α))) (p : Addr) (s : Then α) : Prop :=
  Outside g (.attach p s) ∨
  (∃ k, ∃ c : Call α, g[k]? = some (some c) ∧ p = c.promise ∧ s = c.step k) ∨
  ∃ k, ∃ c : Call α, g[k]? = some (some c) ∧ s = innerStep k

/-- A message goes to a promise, and a step that it attaches is known. -/
def Good (g : List (Option (Call α))) : Msg α → Prop
  | .apply _ _ | .reject _ => True
  | .attach p s => Known g p s
  | .joinApply _ _ | .fulfillA _ _ | .fulfillB _ _ | .selectApply _ _ _ => False

/-- A message is of the rest of the program, of a call, or of a step that was run. -/
def Origin (g : List (Option (Call α))) (w : World α) (m : Msg α) : Prop :=
  Outside g m ∨
  (∃ k, ∃ c : Call α, g[k]? = some (some c) ∧ m = .attach c.promise (c.step k)) ∨
  ∃ r ∈ w.runs, m ∈ r.2.1.run r.2.2

/-- What holds in every state. -/
structure Inv (g : List (Option (Call α))) (n : Net (World α) (Msg α)) : Prop where
  history : History (fun _ _ => true) [] n.state n.delivered
  good : ∀ m ∈ n.inFlight ++ n.delivered, Good g m
  origin : ∀ m ∈ n.inFlight ++ n.delivered, Origin g n.state m
  called : ∀ k c, k < n.state.made → g[k]? = some (some c) →
    .attach c.promise (c.step k) ∈ n.inFlight ++ n.delivered
  ran : ∀ r ∈ n.state.runs, ∀ m ∈ r.2.1.run r.2.2, m ∈ n.inFlight ++ n.delivered

section
variable {m : Msg α} {w : World α} {p q : Addr} {s : Then α} {o : Outcome α}
  {f : Addr → Option (Outcome α)} {g : List (Option (Call α))} {c : Call α} {k : Nat}

theorem forwards_raised (hp : f c.promise = some o) (h : c.returned o = none) :
    c.forwards f = some .rejected := by
  simp only [Call.forwards, hp, h]

theorem forwards_fulfilled {v : Val α} (hp : f c.promise = some (.fulfilled v))
    (h : c.fulfill v = some q) : c.forwards f = f q := by
  simp only [Call.forwards, hp, Call.returned, h]

theorem forwards_rejected (hp : f c.promise = some .rejected) (h : c.rejected = some q) :
    c.forwards f = none := by
  simp only [Call.forwards, hp, Call.returned, h]

theorem run_raised (h : c.returned o = none) :
    (c.step k).run o = [.reject (.result k), .apply (.input k 0) .unit] := by
  cases o with
  | fulfilled v =>
    have happly : (c.step k).fulfill.apply v = ([.reject (.result k)], some .unit) := by
      show (Fulfill.flatten k c.fulfill).apply v = _
      rw [Fulfill.apply, show c.fulfill v = none from h]
    simp only [Then.run, happly]
    rfl
  | rejected =>
    have happly : ((c.step k).rejected.apply : List (Msg α) × _) =
        ([.reject (.result k)], some .unit) := by
      show ((Reject.flatten k c.rejected).apply : List (Msg α) × _) = _
      simp only [Reject.apply, show c.rejected = none from h]
    simp only [Then.run, happly]
    rfl

theorem run_fulfilled {v : Val α} (h : c.fulfill v = some q) : (c.step k).run (.fulfilled v) =
    [.attach q (innerStep k), .apply (.input k 0) .unit] := by
  have happly : (c.step k).fulfill.apply v = ([.attach q (innerStep k)], some .unit) := by
    show (Fulfill.flatten k c.fulfill).apply v = _
    rw [Fulfill.apply, h]
    rfl
  simp only [Then.run, happly]
  rfl

theorem run_rejected (h : c.rejected = some q) :
    (c.step k).run .rejected = [.apply (.input k 0) .unit] := by
  have happly : ((c.step k).rejected.apply : List (Msg α) × _) = ([], some .unit) := by
    show ((Reject.flatten k c.rejected).apply : List (Msg α) × _) = _
    simp only [Reject.apply, h]
  simp only [Then.run, happly]
  rfl

/-- What a known step sends when it is run at `p` with the outcome `o`. -/
inductive Sent (g : List (Option (Call α))) (p : Addr) (o : Outcome α) (s : Then α) (m : Msg α) :
    Prop where
  | outside (h : Outside g m)
  | raised {k : Nat} {c : Call α} (hc : g[k]? = some (some c)) (hp : p = c.promise)
      (h : c.returned o = none) (hm : m = .reject (.result k))
  | attached {k : Nat} {c : Call α} {v : Val α} {q : Addr} (hc : g[k]? = some (some c))
      (hp : p = c.promise) (ho : o = .fulfilled v) (h : c.fulfill v = some q)
      (hm : m = .attach q (innerStep k))
  | forwarded {k : Nat} (hs : s = innerStep k) (hm : m = settleMsg (.result k, o))
  | input {k i : Nat} {r : Option (Val α)} (hs : s.promise = .input k i) (hm : m = s.pass r)

theorem Known.sent (h : Known g p s) (hm : m ∈ s.run o) : Sent g p o s m := by
  rcases h with ⟨⟨F, hF⟩, ⟨R, hR⟩, hs⟩ | ⟨k, c, hc, hp, rfl⟩ | ⟨k, c, hc, rfl⟩
  · have hpass : ∀ r, Outside g (s.pass r) := by
      intro r
      cases r
      · exact hs
      · exact hs
    unfold Then.run at hm
    split at hm
    · cases o with
      | fulfilled v =>
        rw [hF] at hm
        rw [mem_singleton.1 hm]
        exact .outside (hpass _)
      | rejected =>
        rw [hR] at hm
        rw [mem_singleton.1 hm]
        exact .outside (hpass _)
    · cases hm
  · have hinput : Sent g p o (c.step k) (.apply (.input k 0) .unit) :=
      .input (r := some .unit) rfl rfl
    cases hr : c.returned o with
    | none =>
      rw [run_raised hr] at hm
      rcases mem_cons.1 hm with hm | hm
      · exact .raised hc hp hr hm
      · exact mem_singleton.1 hm ▸ hinput
    | some q =>
      cases o with
      | fulfilled v =>
        rw [run_fulfilled hr] at hm
        rcases mem_cons.1 hm with hm | hm
        · exact .attached hc hp rfl hr hm
        · exact mem_singleton.1 hm ▸ hinput
      | rejected =>
        rw [run_rejected hr] at hm
        exact mem_singleton.1 hm ▸ hinput
  · cases o with
    | fulfilled v | rejected =>
      rcases mem_cons.1 hm with hm | hm
      · exact .forwarded rfl hm
      · exact .input rfl (mem_singleton.1 hm)

theorem Outside.good (h : Outside g m) : Good g m := by
  cases m with
  | apply | reject => trivial
  | attach p s => exact .inl h
  | joinApply | fulfillA | fulfillB | selectApply => exact h

theorem Sent.good {t : Then α} (h : Sent g p o t m) : Good g m := by
  cases h with
  | outside h => exact Outside.good h
  | raised hc hp h hm =>
    rw [hm]
    trivial
  | attached hc hp ho h hm =>
    rw [hm]
    exact .inr (.inr ⟨_, _, hc, rfl⟩)
  | forwarded hs hm =>
    rw [hm]
    cases o
    · trivial
    · trivial
  | @input k i r hs hm =>
    rw [hm]
    cases r
    · trivial
    · trivial

/-! ### The invariant -/

/-- A good message is handled by a promise: the steps that it runs are recorded, and send what comes
out. -/
theorem Good.handle (h : Good g m) (w : World α) : ∃ ran, (handle m w).1.made = w.made ∧
    (handle m w).1.runs = w.runs ++ ran ∧
    (handle m w).2 = ran.flatMap fun r => r.2.1.run r.2.2 := by
  have hpromise : ∀ p (F : Promise α → Promise α × List (Then α × Outcome α)), ∃ ran,
      (w.withPromise p F).1.made = w.made ∧ (w.withPromise p F).1.runs = w.runs ++ ran ∧
      (w.withPromise p F).2 = ran.flatMap fun r => r.2.1.run r.2.2 := by
    intro p F
    refine ⟨(F (w.promise p)).2.map (p, ·), rfl, rfl, ?_⟩
    rw [flatMap_map]
    rfl
  cases m with
  | apply p v | reject p | attach p s => exact hpromise p _
  | joinApply | fulfillA | fulfillB | selectApply => exact h.elim

variable {n : Net (World α) (Msg α)} {before after d : List (Msg α)}

/-- **A delivery keeps the invariant.** -/
theorem Inv.deliver (h : Inv g ⟨w, before ++ m :: after, d⟩) :
    Inv g ⟨(Promises.handle m w).1, before ++ after ++ (Promises.handle m w).2, d ++ [m]⟩ := by
  have hmem : ∀ m', m' ∈ before ++ after ++ (Promises.handle m w).2 ++ (d ++ [m]) ↔
      m' ∈ before ++ m :: after ++ d ∨ m' ∈ (Promises.handle m w).2 := by
    intro m'
    simp only [mem_append, mem_cons, not_mem_nil, false_or, or_assoc, or_comm, or_left_comm]
  have hm : m ∈ before ++ m :: after ++ d := mem_append_left _ (mem_append_right _ mem_cons_self)
  obtain ⟨ran, hmade, hruns, houts⟩ := (h.good m hm).handle w
  have hhist := h.history.handle m
  -- what was run is attached
  have hknown : ∀ p s o, (p, s, o) ∈ (Promises.handle m w).1.runs → Known g p s := by
    intro p s o hr
    have hs := (hhist.mem_runs.1 hr).1
    rcases mem_append.1 hs with hs | hs
    · exact h.good _ (mem_append_right _ hs)
    · have hgood := h.good m hm
      rwa [← mem_singleton.1 hs] at hgood
  have hnew : ∀ m' ∈ (Promises.handle m w).2, ∃ r ∈ (Promises.handle m w).1.runs,
      m' ∈ r.2.1.run r.2.2 := by
    intro m' hm'
    rw [houts] at hm'
    obtain ⟨r, hr, hm'⟩ := mem_flatMap.1 hm'
    exact ⟨r, hruns ▸ mem_append_right _ hr, hm'⟩
  refine ⟨hhist, fun m' hm' => ?_, fun m' hm' => ?_, fun k c hk hc => ?_, fun r hr m' hm' => ?_⟩
  · rcases (hmem m').1 hm' with hm' | hm'
    · exact h.good m' hm'
    obtain ⟨⟨p, s, o⟩, hr, hm'⟩ := hnew m' hm'
    exact ((hknown p s o hr).sent hm').good
  · rcases (hmem m').1 hm' with hm' | hm'
    · refine (h.origin m' hm').imp id (.imp id ?_)
      rintro ⟨r, hr, hm'⟩
      exact ⟨r, hruns ▸ mem_append_left _ hr, hm'⟩
    · exact .inr (.inr (hnew m' hm'))
  · exact (hmem _).2 (.inl (h.called k c (hmade ▸ hk) hc))
  · refine (hmem m').2 ?_
    rw [show (Promises.handle m w).1.runs = w.runs ++ ran from hruns] at hr
    rcases mem_append.1 hr with hr | hr
    · exact .inl (h.ran r hr m' hm')
    · exact .inr (houts ▸ mem_flatMap.2 ⟨r, hr, hm'⟩)

variable {ms : List (Msg α)}

/-- Messages that are sent from outside keep the invariant. -/
theorem Inv.send {j : ℕ} (h : Inv g n) (hgood : ∀ m ∈ ms, Good g m)
    (horigin : ∀ m ∈ ms, Origin g n.state m)
    (hnew : ∀ k c, k < j → g[k]? = some (some c) →
      k < n.state.made ∨ .attach c.promise (c.step k) ∈ ms) :
    Inv g ⟨{ n.state with made := j }, n.inFlight ++ ms, n.delivered⟩ := by
  have hmem : ∀ m, m ∈ n.inFlight ++ ms ++ n.delivered ↔ m ∈ n.inFlight ++ n.delivered ∨ m ∈ ms := by
    intro m
    simp only [mem_append, or_assoc, or_comm]
  have hI := h.history
  refine ⟨⟨hI.value, hI.list, hI.runs, hI.helper, hI.sent⟩, fun m hm => ?_, fun m hm => ?_,
    fun k c hk hc => ?_, fun r hr m hm => (hmem m).2 (.inl (h.ran r hr m hm))⟩
  · exact ((hmem m).1 hm).elim (h.good m) (hgood m)
  · exact ((hmem m).1 hm).elim (h.origin m) (horigin m)
  · exact (hmem _).2 ((hnew k c hk hc).imp (fun hk => h.called k c hk hc) id)

/-- **The invariant holds in every state.** -/
theorem reach_inv (h : Reach (flattening g) n) : Inv g n := by
  induction h with
  | refl =>
    exact ⟨history_init, fun m hm => absurd hm not_mem_nil, fun m hm => absurd hm not_mem_nil,
      fun k c hk => absurd hk (Nat.not_lt_zero k), fun r hr => absurd hr not_mem_nil⟩
  | tail _ hstep ih =>
    cases hstep with
    | inject w w' ms fl d hin =>
      rcases hin with ⟨c, hc, rfl, rfl⟩ | ⟨rfl, hms⟩
      · have hsends : ∀ m ∈ sends w.made c, ∃ c' : Call α, c = some c' ∧
            m = .attach c'.promise (c'.step w.made) := by
          intro m hm
          cases c with
          | none => cases hm
          | some c => exact ⟨c, rfl, mem_singleton.1 hm⟩
        refine ih.send (fun m hm => ?_) (fun m hm => ?_) (fun k c' hk hc' => ?_)
        · obtain ⟨c', rfl, rfl⟩ := hsends m hm
          exact .inr (.inl ⟨w.made, c', hc, rfl, rfl⟩)
        · obtain ⟨c', rfl, rfl⟩ := hsends m hm
          exact .inr (.inl ⟨w.made, c', hc, rfl⟩)
        rcases Nat.lt_succ_iff_lt_or_eq.1 hk with hk | rfl
        · exact .inl hk
        rw [hc] at hc'
        cases hc'
        exact .inr (.head _)
      · exact ih.send (fun m hm => Outside.good (hms m hm)) (fun m hm => .inl (hms m hm))
          (fun k c hk _ => .inl hk)
    | deliver w before after d m => exact ih.deliver

/-- A message that is not of the rest of the program or a call's step was sent by a known step. -/
theorem Inv.sent (h : Inv g n) (hm : m ∈ n.inFlight ++ n.delivered) : Outside g m ∨
    (∃ k, ∃ c : Call α, g[k]? = some (some c) ∧ m = .attach c.promise (c.step k)) ∨
    ∃ p s o, .attach p s ∈ n.delivered ∧ n.state.outcome p = some o ∧ Sent g p o s m := by
  refine (h.origin m hm).imp id (.imp id ?_)
  rintro ⟨⟨p, s, o⟩, hr, hrun⟩
  obtain ⟨hs, ho⟩ := h.history.mem_runs.1 hr
  exact ⟨p, s, o, hs, ho, Known.sent (h.good _ (mem_append_right _ hs)) hrun⟩

/-- The step on the inner promise was attached because the first one was fulfilled. -/
theorem Inv.inner (h : Inv g n) (hc : g[k]? = some (some c))
    (hm : .attach q (innerStep k) ∈ n.inFlight ++ n.delivered) :
    ∃ v, n.state.outcome c.promise = some (.fulfilled v) ∧ c.fulfill v = some q := by
  rcases h.sent hm with ⟨⟨F, hF⟩, -⟩ | ⟨j, c', -, hj⟩ | ⟨p, s, o, -, ho, hsent⟩
  · cases hF
  · cases congrArg Then.fulfill (Msg.attach.inj hj).2
  cases hsent with
  | outside h =>
    obtain ⟨⟨F, hF⟩, -⟩ := h
    cases hF
  | raised hc' hp hr hm => cases hm
  | @attached j c' v q' hc' hp ho' hv hm =>
    obtain ⟨rfl, hs⟩ := Msg.attach.inj hm
    cases congrArg Then.promise hs
    rw [hc] at hc'
    cases hc'
    exact ⟨v, hp ▸ ho' ▸ ho, hv⟩
  | forwarded hs hm => cases o <;> cases hm
  | @input j i r hs hm => cases r <;> cases hm

/-- **No other outcome comes to the promise of a call.** -/
theorem Inv.forwarded (h : Inv g n) (hc : g[k]? = some (some c))
    (ho : n.state.outcome (.result k) = some o) : c.forwards n.state.outcome = some o := by
  rw [World.outcome, h.history.value] at ho
  obtain ⟨m, hm, hmo⟩ := exists_of_findSome?_eq_some ho
  have hothers : Outside g m → c.forwards n.state.outcome = some o := by
    intro hout
    cases m with
    | apply p v | reject p =>
      have hp : p = .result k := by
        by_contra hne
        rw [Msg.settles, if_neg hne] at hmo
        cases hmo
      subst hp
      exact absurd hc (hout c)
    | attach | joinApply | fulfillA | fulfillB | selectApply => cases hmo
  rcases h.sent (mem_append_right _ hm) with hout | ⟨j, c', -, rfl⟩ | ⟨p, s, o', hs, ho', hsent⟩
  · exact hothers hout
  · cases hmo
  have hsame : ∀ {j : Nat} {e : Outcome α}, m = settleMsg (.result j, e) → j = k ∧ e = o := by
    intro j e hm
    have hset : m.settles (.result k) = if Addr.result j = .result k then some e else none := by
      rw [hm]
      cases e <;> rfl
    rw [hmo] at hset
    split at hset
    · rename_i hj
      cases hj
      cases hset
      exact ⟨rfl, rfl⟩
    · cases hset
  cases hsent with
  | outside hout => exact hothers hout
  | @raised j c' hc' hp hr hm =>
    obtain ⟨rfl, rfl⟩ := hsame (e := .rejected) hm
    rw [hc] at hc'
    cases hc'
    exact forwards_raised (hp ▸ ho') hr
  | attached hc' hp hv hq hm =>
    rw [hm] at hmo
    cases hmo
  | @forwarded j hsj hm =>
    obtain ⟨rfl, rfl⟩ := hsame hm
    obtain ⟨v, hv, hq⟩ := h.inner hc (mem_append_right _ (hsj ▸ hs))
    exact (forwards_fulfilled hv hq).trans ho'
  | @input j i r hsp hm =>
    rw [hm] at hmo
    cases r <;> simp [Then.pass, Msg.settles, hsp] at hmo

end

/-! ### What comes through -/

/-- What is due: the outcome of the promise that was returned, or a rejection after an error. -/
def Call.due (c : Call α) (f : Addr → Option (Outcome α)) : Option (Outcome α) :=
  match f c.promise with
  | none => none
  | some o =>
    match c.returned o with
    | some inner => f inner
    | none => some .rejected

section
variable {g : List (Option (Call α))} {n : Net (World α) (Msg α)} {k : ℕ} {c : Call α}
  {e : Outcome α}

/-- What is due is forwarded, apart from the outcome of a promise that `rejected` returned. -/
theorem forwards_of_due {f : Addr → Option (Outcome α)} (hdue : c.due f = some e) :
    c.forwards f = some e ↔ (∃ v, f c.promise = some (.fulfilled v)) ∨ c.rejected = none := by
  cases hp : f c.promise with
  | none =>
    simp only [Call.due, hp] at hdue
    cases hdue
  | some o =>
    cases hr : c.returned o with
    | none =>
      simp only [Call.due, hp, hr] at hdue
      rw [forwards_raised hp hr, hdue]
      cases o with
      | fulfilled v => exact iff_of_true rfl (.inl ⟨v, rfl⟩)
      | rejected => exact iff_of_true rfl (.inr hr)
    | some q =>
      simp only [Call.due, hp, hr] at hdue
      cases o with
      | fulfilled v =>
        rw [forwards_fulfilled hp hr, hdue]
        exact iff_of_true rfl (.inl ⟨v, rfl⟩)
      | rejected =>
        rw [forwards_rejected hp hr]
        refine iff_of_false (nomatch ·) ?_
        rintro (⟨v, hv⟩ | hnone)
        · cases hv
        · exact Option.some_ne_none q (hr.symm.trans hnone)

/-- **When no message is in flight, the promise of a call has the outcome that is forwarded.** -/
theorem outcome_eq_forwards (h : Reach (flattening g) n) (hquiet : n.inFlight = [])
    (hk : k < n.state.made) (hc : g[k]? = some (some c)) :
    n.state.outcome (.result k) = c.forwards n.state.outcome := by
  have hinv := reach_inv h
  have hflat : n.inFlight ++ n.delivered = n.delivered := by rw [hquiet, nil_append]
  -- a step that was attached is run when its promise is settled
  have hrun : ∀ {q s o m}, .attach q s ∈ n.delivered → n.state.outcome q = some o → m ∈ s.run o →
      m ∈ n.delivered := by
    intro q s o m hs ho hm
    rw [← hflat]
    exact hinv.ran (q, s, o) (hinv.history.mem_runs.2 ⟨hs, ho⟩) m hm
  have hsettled : ∀ {m : Msg α} {o}, m ∈ n.delivered → m.settles (.result k) = some o →
      n.state.outcome (.result k) ≠ none := by
    intro m o hm ho hnone
    rw [World.outcome, hinv.history.value] at hnone
    rw [findSome?_eq_none_iff.1 hnone m hm] at ho
    cases ho
  have hcalled : .attach c.promise (c.step k) ∈ n.delivered := hflat ▸ hinv.called k c hk hc
  cases hout : n.state.outcome (.result k) with
  | some o => exact (hinv.forwarded hc hout).symm
  | none =>
    symm
    cases hp : n.state.outcome c.promise with
    | none => simp only [Call.forwards, hp]
    | some o =>
      cases hr : c.returned o with
      | none =>
        have hreject : .reject (.result k) ∈ n.delivered :=
          hrun hcalled hp (run_raised hr ▸ mem_cons_self)
        exact absurd hout (hsettled hreject (if_pos rfl))
      | some q =>
        cases o with
        | rejected => exact forwards_rejected hp hr
        | fulfilled v =>
          rw [forwards_fulfilled hp hr]
          have hinner : .attach q (innerStep k) ∈ n.delivered :=
            hrun hcalled hp (run_fulfilled hr ▸ mem_cons_self)
          cases hq : n.state.outcome q with
          | none => rfl
          | some e =>
            cases e with
            | fulfilled x | rejected =>
              exact absurd hout (hsettled (hrun hinner hq mem_cons_self) (if_pos rfl))

end

/-- **Which outcomes come through**: when no message is in flight, the promise of the call is settled
as is due exactly if the first promise was fulfilled or the reject function raised an error. -/
theorem flatten_next_iff {g : List (Option (Call α))} {n : Net (World α) (Msg α)} {k : ℕ}
    {c : Call α} {e : Outcome α} (h : Reach (flattening g) n) (hquiet : n.inFlight = [])
    (hk : k < n.state.made) (hc : g[k]? = some (some c)) (hdue : c.due n.state.outcome = some e) :
    n.state.outcome (.result k) = some e ↔
      (∃ v, n.state.outcome c.promise = some (.fulfilled v)) ∨ c.rejected = none := by
  rw [outcome_eq_forwards h hquiet hk hc]
  exact forwards_of_due hdue

/-- A promise, an inner promise, and `flatten_next` with functions that return the inner one. -/
abbrev program : List (Option (Call Nat)) :=
  [none, none, some ⟨.result 0, fun _ => some (.result 1), some (.result 1)⟩]

/-- All calls are made, and messages are sent. -/
theorem reach_sent (ms : List (Msg Nat)) (hms : ∀ m ∈ ms, Outside program m) :
    Reach (flattening program)
      ⟨{ (flattening program).init with made := 3 }, sends 2 (program[2]) ++ ms, []⟩ := by
  have hcall := ((Reach.send (S := flattening program) .refl (.inl ⟨none, rfl, rfl, rfl⟩)).send
    (.inl ⟨none, rfl, rfl, rfl⟩)).send (.inl ⟨_, rfl, rfl, rfl⟩)
  exact hcall.send (.inr ⟨rfl, hms⟩)

/-- The first promise and the inner one are fulfilled; the messages come in their order. -/
theorem flatten_next_fulfilled : ∃ n : Net (World Nat) (Msg Nat),
    Reach (flattening program) n ∧ n.inFlight = [] ∧
    n.state.outcome (.result 2) = some (.fulfilled (.atom 7)) := by
  have hsent := reach_sent [.apply (.result 0) (.atom 5), .apply (.result 1) (.atom 7)] (by
    intro m hm
    simp only [mem_cons, not_mem_nil, or_false] at hm
    rcases hm with rfl | rfl <;> simp [Outside, Others])
  have hreach := ((((((hsent.deliver (i := 0) rfl).deliver (i := 0) rfl).deliver (i := 0)
    rfl).deliver (i := 0) rfl).deliver (i := 0) rfl).deliver (i := 0) rfl).deliver (i := 0) rfl
  exact ⟨_, hreach, rfl, (flatten_next_iff (k := 2) hreach rfl (Nat.lt_succ_self 2) rfl rfl).2
    (.inl ⟨.atom 5, rfl⟩)⟩

/-- The first promise is rejected and the inner one is fulfilled: its outcome is lost. -/
theorem flatten_next_rejected : ∃ n : Net (World Nat) (Msg Nat),
    Reach (flattening program) n ∧ n.inFlight = [] ∧
    n.state.outcome (.result 0) = some .rejected ∧
    n.state.outcome (.result 1) = some (.fulfilled (.atom 7)) ∧
    n.state.outcome (.result 2) = none := by
  have hsent := reach_sent [.reject (.result 0), .apply (.result 1) (.atom 7)] (by
    intro m hm
    simp only [mem_cons, not_mem_nil, or_false] at hm
    rcases hm with rfl | rfl <;> simp [Outside, Others])
  have hreach := (((hsent.deliver (i := 0) rfl).deliver (i := 0) rfl).deliver (i := 0)
    rfl).deliver (i := 0) rfl
  exact ⟨_, hreach, rfl, rfl, rfl, rfl⟩

end SpacePony.Promises.FlattenNext
