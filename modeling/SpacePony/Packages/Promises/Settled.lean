import Mathlib.Data.List.Nodup
import Mathlib.Tactic
import SpacePony.Packages.Promises.History

/-!
# Packages — promises — what holds when no message is in flight

* `runs_nodup`, `runs_settled`: a step is run once at most, and once when its promise is settled.
* `project`: what was delivered, from the calls, the steps and the helpers.
* `join_settled`, `add_settled`: what `join` and `add` are settled to.
* **`promises_settle_once`**: all of it together.
* `joined_promise_applied`: a promise of `join` is applied by others.
-/

namespace SpacePony.Promises

open Nat Option List Mailbox

variable {α : Type} {β : Type}

/-! ### Over the calls -/

/-- What the first `n` calls make. -/
def overCalls (F : Nat → Call α → List β) (g : List (Call α)) (n : Nat) : List β :=
  ((g.take n).mapIdx F).flatten

/-- The steps that the first `n` calls attach. -/
def attachesOf (g : List (Call α)) (n : Nat) : List (Addr × Then α) :=
  overCalls (fun k c => c.attaches k) g n

variable {γ : Type}

section
variable {F : Nat → Call α → List β} {g : List (Call α)} {n k : Nat} {c : Call α}

theorem overCalls_succ (hc : g[n]? = some c) :
    overCalls F g (n + 1) = overCalls F g n ++ F n c := by
  obtain ⟨hlt, hget⟩ := List.getElem?_eq_some_iff.1 hc
  rw [overCalls, take_add_one, hc, toList_some, mapIdx_append, flatten_append, overCalls]
  congr 1
  rw [mapIdx_singleton, flatten_singleton, length_take, zero_add, min_eq_left (le_of_lt hlt)]

theorem overCalls_succ_none (hc : g[n]? = none) : overCalls F g (n + 1) = overCalls F g n := by
  rw [overCalls, take_add_one, hc, toList_none, append_nil, overCalls]

theorem overCalls_nil (h : ∀ j c, g[j]? = some c → j < n → F j c = []) : overCalls F g n = [] := by
  induction n with
  | zero => rfl
  | succ n ih =>
    have hrest : overCalls F g n = [] := ih fun j c hc hj => h j c hc (by omega)
    cases hc : g[n]? with
    | none => rw [overCalls_succ_none hc, hrest]
    | some c => rw [overCalls_succ hc, hrest, h n c hc (lt_succ_self n), append_nil]

/-- Only the `k`-th call makes anything. -/
theorem overCalls_single (hk : k < n) (hc : g[k]? = some c)
    (h : ∀ j c, g[j]? = some c → j ≠ k → F j c = []) : overCalls F g n = F k c := by
  induction n with
  | zero => exact absurd hk (Nat.not_lt_zero k)
  | succ n ih =>
    rcases Nat.lt_succ_iff_lt_or_eq.1 hk with hlt | rfl
    · cases hn : g[n]? with
      | none => rw [overCalls_succ_none hn, ih hlt]
      | some c' =>
        rw [overCalls_succ hn, ih hlt, h n c' hn (Nat.ne_of_gt hlt), append_nil]
    · rw [overCalls_succ hc, overCalls_nil fun j c hj hlt => h j c hj (Nat.ne_of_lt hlt),
        nil_append]

theorem overCalls_flatMap (G : β → List γ) :
    (overCalls F g n).flatMap G = overCalls (fun k c => (F k c).flatMap G) g n := by
  induction n with
  | zero => rfl
  | succ n ih =>
    cases hc : g[n]? with
    | none => rw [overCalls_succ_none hc, overCalls_succ_none hc, ih]
    | some c => rw [overCalls_succ hc, overCalls_succ hc, flatMap_append, ih]

theorem overCalls_filterMap (G : β → Option γ) :
    (overCalls F g n).filterMap G = overCalls (fun k c => (F k c).filterMap G) g n := by
  induction n with
  | zero => rfl
  | succ n ih =>
    cases hc : g[n]? with
    | none => rw [overCalls_succ_none hc, overCalls_succ_none hc, ih]
    | some c => rw [overCalls_succ hc, overCalls_succ hc, filterMap_append, ih]

theorem mem_overCalls {x : β} (h : x ∈ overCalls F g n) :
    ∃ k c, k < n ∧ g[k]? = some c ∧ x ∈ F k c := by
  induction n with
  | zero => cases h
  | succ n ih =>
    cases hc : g[n]? with
    | none =>
      rw [overCalls_succ_none hc] at h
      obtain ⟨k, c, hk, hkc, hx⟩ := ih h
      exact ⟨k, c, by omega, hkc, hx⟩
    | some c =>
      rw [overCalls_succ hc] at h
      rcases mem_append.1 h with h | h
      · obtain ⟨k, c', hk, hkc, hx⟩ := ih h
        exact ⟨k, c', by omega, hkc, hx⟩
      · exact ⟨n, c, lt_succ_self n, hc, h⟩

end

/-! ### The steps of the calls -/

/-- The call that a promise comes from. -/
def Addr.call : Addr → Nat
  | .result k | .input k _ => k

section
variable {g : List (Call α)} {n k : Nat} {c : Call α} {x : Addr × Then α}

theorem step_of_mem_attaches (h : x ∈ c.attaches k) :
    x.2.promise.call = k ∧ x.2.active = true := by
  cases c with
  | create | apply | reject => cases h
  | next p f r =>
    rw [mem_singleton.1 h]
    exact ⟨rfl, rfl⟩
  | join ps =>
    obtain ⟨i, hi, rfl⟩ := mem_mapIdx.1 h
    exact ⟨rfl, rfl⟩
  | add p q | select p q =>
    rcases mem_cons.1 h with rfl | h
    · exact ⟨rfl, rfl⟩
    · rw [mem_singleton.1 h]
      exact ⟨rfl, rfl⟩

theorem nodup_attaches (c : Call α) (k : Nat) : ((c.attaches k).map (·.2.promise)).Nodup := by
  cases c with
  | create | apply | reject => exact nodup_nil
  | next p f r => exact nodup_singleton _
  | join ps =>
    have hmap : ((Call.join ps : Call α).attaches k).map (·.2.promise) =
        (range ps.length).map (Addr.input k) := by
      refine ext_getElem (by simp [Call.attaches]) fun i h₁ h₂ => ?_
      simp [Call.attaches, step]
    rw [hmap]
    exact List.Nodup.map (fun i j h => (Addr.input.inj h).2) nodup_range
  | add p q | select p q =>
    refine nodup_cons.2 ⟨fun h => ?_, nodup_singleton _⟩
    exact absurd (Addr.input.inj (mem_singleton.1 h)).2 zero_ne_one

/-- A step is known by its promise. -/
theorem nodup_attachesOf (g : List (Call α)) (n : Nat) :
    ((attachesOf g n).map (·.2.promise)).Nodup := by
  induction n with
  | zero => exact nodup_nil
  | succ n ih =>
    cases hc : g[n]? with
    | none =>
      rw [attachesOf, overCalls_succ_none hc]
      exact ih
    | some c =>
      rw [attachesOf, overCalls_succ hc, map_append]
      refine nodup_append'.2 ⟨ih, nodup_attaches c n, ?_⟩
      intro p hp hp'
      obtain ⟨x, hx, rfl⟩ := mem_map.1 hp
      obtain ⟨y, hy, hxy⟩ := mem_map.1 hp'
      obtain ⟨j, c', hj, -, hx⟩ := mem_overCalls hx
      have hcall := congrArg Addr.call hxy
      rw [(step_of_mem_attaches hy).1, (step_of_mem_attaches hx).1] at hcall
      omega

theorem attachesIn_sends : attachesIn (c.sends k) = c.attaches k := by
  have hsettle : ∀ x : Addr × Outcome α, (settleMsg x).attaching = none := by
    rintro ⟨p, o⟩
    cases o <;> rfl
  have hnone : ((c.settles k).map settleMsg).filterMap Msg.attaching = [] := by
    rw [filterMap_map, filterMap_eq_nil_iff]
    exact fun x _ => hsettle x
  rw [attachesIn, Call.sends, filterMap_append, hnone, nil_append, filterMap_map]
  exact filterMap_some

theorem attachesIn_issued : attachesIn (issued g n) = attachesOf g n := by
  rw [attachesIn, show issued g n = overCalls (fun k c => c.sends k) g n from rfl,
    overCalls_filterMap, attachesOf]
  congr 1
  funext k c
  exact attachesIn_sends

end

/-! ### What helpers send -/

/-- The promise that a helper settles. -/
def Helper.target : Helper α → Option Addr
  | .absent => none
  | .join _ _ p | .add _ _ _ _ p | .select _ p => some p

theorem Helper.receive_target (m : Msg α) (h : Helper α) : (h.receive m).1.target = h.target ∧
      ∀ m' ∈ (h.receive m).2, ∃ p v, h.target = some p ∧ m' = .apply p v := by
  have hnil : ∀ m' ∈ ([] : List (Msg α)), ∃ p v, h.target = some p ∧ m' = .apply p v :=
    fun _ hm => absurd hm not_mem_nil
  cases m with
  | apply | reject | attach => exact ⟨rfl, hnil⟩
  | joinApply k v =>
    cases h with
    | absent | add | select => exact ⟨rfl, hnil⟩
    | join xs space p =>
      refine ⟨rfl, fun m' hm => ?_⟩
      rw [Helper.receive] at hm
      split at hm
      · exact ⟨p, _, rfl, mem_singleton.1 hm⟩
      · exact hnil m' hm
  | fulfillA k v | fulfillB k v =>
    cases h with
    | absent | join | select => exact ⟨rfl, hnil⟩
    | add a b isA isB p =>
      rw [Helper.receive]
      split
      · exact ⟨rfl, fun m' hm => ⟨p, _, rfl, mem_singleton.1 hm⟩⟩
      · exact ⟨rfl, hnil⟩
  | selectApply k v other =>
    cases h with
    | absent | join | add => exact ⟨rfl, hnil⟩
    | select complete p =>
      rw [Helper.receive]
      split
      · exact ⟨rfl, hnil⟩
      · exact ⟨rfl, fun m' hm => ⟨p, _, rfl, mem_singleton.1 hm⟩⟩

theorem helperAfter_target (h : Helper α) (ms : List (Msg α)) :
    (helperAfter h ms).1.target = h.target ∧
      ∀ m' ∈ (helperAfter h ms).2, ∃ p v, h.target = some p ∧ m' = .apply p v := by
  induction ms using reverseRecOn with
  | nil => exact ⟨rfl, fun _ hm => absurd hm not_mem_nil⟩
  | append_singleton ms m ih =>
    obtain ⟨htarget, hsent⟩ := ih
    obtain ⟨htarget', hsent'⟩ := Helper.receive_target m (helperAfter h ms).1
    rw [helperAfter_snoc]
    refine ⟨htarget'.trans htarget, fun m' hm => ?_⟩
    rcases mem_append.1 hm with hm | hm
    · exact hsent m' hm
    · rw [← htarget]
      exact hsent' m' hm

section
variable {ty : Addr → Val α → Bool} {g : List (Call α)} {w : World α} {d : List (Msg α)}
  {n : Net (World α) (Msg α)} {k : Nat} {m : Msg α}

variable {p : Addr} {s : Then α} {f : Addr → Option (Outcome α)} {c : Call α} {π : Msg α → Option β}
  {F : Fulfill α} {u : Val α → Msg α}

theorem helperOf_target (h : (helperOf ty g k).target = some p) : p = .result k := by
  rw [helperOf] at h
  cases hg : g[k]? with
  | none =>
    rw [hg] at h
    cases h
  | some c =>
    rw [hg] at h
    cases c with
    | create | apply | reject | next => cases h
    | join | add | select => exact (some.inj h).symm

/-- A helper settles the promise of its call. -/
theorem History.mem_helperSent (h : History ty g w d) (hm : (k, m) ∈ w.helperSent) :
    ∃ v, m = .apply (.result k) v := by
  have hmem : m ∈ (w.helperSent.filter (·.1 = k)).map (·.2) :=
    mem_map.2 ⟨(k, m), mem_filter.2 ⟨hm, decide_eq_true rfl⟩, rfl⟩
  rw [h.sent k] at hmem
  obtain ⟨p, v, hp, rfl⟩ := (helperAfter_target _ _).2 m hmem
  exact ⟨v, by rw [helperOf_target hp]⟩

/-! ### Steps are run once -/

/-- The call that a message is about. -/
def Msg.call : Msg α → Nat
  | .apply p _ | .reject p | .attach p _ => p.call
  | .joinApply k _ | .fulfillA k _ | .fulfillB k _ | .selectApply k _ _ => k

/-- The steps of a call send messages about the call, and attach no step. -/
theorem sent_of_mem_attaches {x : Addr × Then α} {o : Outcome α} (hx : x ∈ c.attaches k)
    (hm : m ∈ x.2.run o) : m.call = k ∧ m.attaching = none := by
  have hpass : ∀ r, (x.2.pass r).call = k ∧ (x.2.pass r).attaching = none := by
    intro r
    rw [← (step_of_mem_attaches hx).1]
    cases r
    · exact ⟨rfl, rfl⟩
    · exact ⟨rfl, rfl⟩
  -- what the functions of the step send
  have hsent : (∀ v, ∀ m ∈ (x.2.fulfill.apply v).1, m.call = k ∧ m.attaching = none) ∧
      ∀ m ∈ (x.2.rejected.apply : List (Msg α) × _).1, m.call = k ∧ m.attaching = none := by
    have hnil : ∀ m ∈ ([] : List (Msg α)), m.call = k ∧ m.attaching = none :=
      fun _ hm => absurd hm not_mem_nil
    have hone : ∀ {m' : Msg α}, m'.call = k ∧ m'.attaching = none →
        ∀ m ∈ [m'], m.call = k ∧ m.attaching = none := by
      intro m' h m hm
      rwa [mem_singleton.1 hm]
    cases c with
    | create | apply | reject => cases hx
    | next p f r =>
      rw [mem_singleton.1 hx]
      exact ⟨fun _ => hnil, hnil⟩
    | join ps =>
      obtain ⟨i, hi, rfl⟩ := mem_mapIdx.1 hx
      exact ⟨fun _ => hone ⟨rfl, rfl⟩, hone ⟨rfl, rfl⟩⟩
    | add p q =>
      rcases mem_cons.1 hx with rfl | hx
      · exact ⟨fun _ => hone ⟨rfl, rfl⟩, hone ⟨rfl, rfl⟩⟩
      · rw [mem_singleton.1 hx]
        exact ⟨fun _ => hone ⟨rfl, rfl⟩, hone ⟨rfl, rfl⟩⟩
    | select p q =>
      rcases mem_cons.1 hx with rfl | hx
      · exact ⟨fun _ => hone ⟨rfl, rfl⟩, hnil⟩
      · rw [mem_singleton.1 hx]
        exact ⟨fun _ => hone ⟨rfl, rfl⟩, hnil⟩
  unfold Then.run at hm
  rw [if_pos (step_of_mem_attaches hx).2] at hm
  rcases mem_append.1 hm with hm | hm
  · cases o with
    | fulfilled v => exact hsent.1 v m hm
    | rejected => exact hsent.2 m hm
  · rw [mem_singleton.1 hm]
    exact hpass _

/-- A step that the message attaches is one of a call. -/
def Msg.OfCall (g : List (Call α)) (m : Msg α) : Prop :=
  ∀ x, m.attaching = some x → ∃ k, ∃ c : Call α, g[k]? = some c ∧ x ∈ c.attaches k

/-- **Only calls attach steps.** -/
theorem reach_ofCall (h : Reach (promises ty g) n) : ∀ m ∈ n.delivered, m.OfCall g := by
  -- what a step of a call sends attaches nothing
  have hstep : ∀ {q s o} {m : Msg α}, (Msg.attach q s).OfCall g → m ∈ s.run o →
      m.attaching = none := by
    intro q s o m hs hm
    obtain ⟨k, c, -, hx⟩ := hs _ rfl
    exact (sent_of_mem_attaches hx hm).2
  have hhelper : ∀ {w : World α} {j m'} {m : Msg α}, m ∈ (w.withHelper j m').2 →
      m.attaching = none := by
    intro w j m' m hm
    obtain ⟨p, v, -, rfl⟩ := (Helper.receive_target m' (w.helper j)).2 m hm
    rfl
  refine (Reach.induct (P := Msg.OfCall g) (I := History ty g) history_init ?_ ?_ h).2.2
  · rintro w w' ms d ⟨c, hc, rfl, rfl⟩ hI
    refine ⟨⟨hI.value, hI.list, hI.runs, hI.helper, hI.sent⟩, fun m hm x hx => ⟨w.made, c, hc, ?_⟩⟩
    rw [← attachesIn_sends]
    exact mem_filterMap.2 ⟨m, hm, hx⟩
  intro w d m hI hd hm
  refine ⟨hI.handle m, fun m' hm' x hx => ?_⟩
  have hnone : m'.attaching = none := by
    cases m with
    | apply p v | reject p =>
      obtain ⟨s, hs, hrun⟩ := hI.mem_settle hm'
      exact hstep (hd _ hs) hrun
    | attach p s =>
      obtain ⟨o, -, hrun⟩ := hI.mem_attach hm'
      exact hstep hm hrun
    | joinApply | fulfillA | fulfillB | selectApply => exact hhelper hm'
  rw [hnone] at hx
  cases hx

/-- The steps in flight and those that were attached are the calls'. -/
theorem attaches_perm (h : Reach (promises ty g) n) :
    (attachesIn (n.inFlight ++ n.delivered)).Perm (attachesOf g n.state.made) := by
  have hruns : (n.state.runs.flatMap fun r => r.2.1.run r.2.2).filterMap Msg.attaching = [] := by
    rw [filterMap_eq_nil_iff]
    intro m hm
    obtain ⟨⟨p, s, o⟩, hr, hm⟩ := mem_flatMap.1 hm
    obtain ⟨k, c, -, hx⟩ := reach_ofCall h _ ((reach_history h).mem_runs.1 hr).1 _ rfl
    exact (sent_of_mem_attaches hx hm).2
  have hhelper : (n.state.helperSent.map (·.2)).filterMap Msg.attaching = [] := by
    rw [filterMap_eq_nil_iff]
    intro m hmem
    obtain ⟨⟨k, m'⟩, hm, rfl⟩ := mem_map.1 hmem
    obtain ⟨v, rfl⟩ := (reach_history h).mem_helperSent hm
    rfl
  have hperm := (sent_perm h).filterMap Msg.attaching
  simp only [World.sent, filterMap_append, hruns, hhelper, append_nil] at hperm
  rw [← attachesIn_issued, attachesIn, filterMap_append]
  exact hperm

theorem map_settledRuns_sublist (f : Addr → Option (Outcome α)) (xs : List (Addr × Then α)) :
    ((settledRuns f xs).map (·.2.1.promise)).Sublist (xs.map (·.2.promise)) := by
  induction xs with
  | nil => exact .refl _
  | cons x xs ih =>
    rw [settledRuns, flatMap_cons, map_append, map_cons]
    cases f x.1 with
    | none => exact ih.cons _
    | some o => exact ih.cons_cons _

/-- **A step is run once at most**; it is known by its promise. -/
theorem runs_nodup (h : Reach (promises ty g) n) : (n.state.runs.map (·.2.1.promise)).Nodup := by
  have hperm := (attaches_perm h).map (·.2.promise)
  have hall : ((attachesIn (n.inFlight ++ n.delivered)).map (·.2.promise)).Nodup :=
    hperm.nodup_iff.2 (nodup_attachesOf g _)
  rw [attachesIn, filterMap_append, map_append] at hall
  have hdelivered := hall.of_append_right
  have hruns := (reach_history h).runs.map (·.2.1.promise)
  exact hruns.nodup_iff.2 (hdelivered.sublist (map_settledRuns_sublist _ _))

/-- When no message is in flight the steps that were run are the attached steps of the promises that
are settled, each with the outcome of its promise. -/
theorem runs_perm (h : Reach (promises ty g) n) (hquiet : n.inFlight = []) :
    n.state.runs.Perm (settledRuns n.state.outcome (attachesOf g n.state.made)) := by
  have hhist := reach_history h
  have hattach := attaches_perm h
  rw [hquiet, nil_append] at hattach
  refine hhist.runs.trans ?_
  rw [ranIn, ← funext hhist.value]
  exact hattach.flatMap_right _

theorem filter_settledRuns {xs : List (Addr × Then α)} (hnodup : (xs.map (·.2.promise)).Nodup)
    (hs : (p, s) ∈ xs) : (settledRuns f xs).filter (·.2.1.promise = s.promise) =
      ((f p).map fun o => (p, s, o)).toList := by
  induction xs with
  | nil => cases hs
  | cons x xs ih =>
    rw [map_cons, nodup_cons] at hnodup
    rw [settledRuns, flatMap_cons, filter_append]
    rcases mem_cons.1 hs with rfl | hs
    · have hrest : (settledRuns f xs).filter (·.2.1.promise = s.promise) = [] := by
        refine filter_eq_nil_iff.2 fun r hr hp => hnodup.1 ?_
        rw [← of_decide_eq_true hp]
        exact (map_settledRuns_sublist f xs).subset (mem_map_of_mem hr)
      rw [settledRuns] at hrest
      rw [hrest, append_nil]
      cases f p with
      | none => rfl
      | some o =>
        exact filter_cons_of_pos (decide_eq_true rfl)
    have hne : x.2.promise ≠ s.promise := by
      intro heq
      refine hnodup.1 ?_
      rw [heq]
      exact mem_map.2 ⟨(p, s), hs, rfl⟩
    have hnil : (((f x.1).map fun o => (x.1, x.2, o)).toList).filter
        (·.2.1.promise = s.promise) = [] := by
      cases f x.1 with
      | none => rfl
      | some o => exact filter_cons_of_neg fun hp => hne (of_decide_eq_true hp)
    rw [hnil, nil_append]
    exact ih hnodup.2 hs

/-- **A step is run once when its promise is settled**, and not before. -/
theorem runs_settled (h : Reach (promises ty g) n) (hquiet : n.inFlight = [])
    (hs : (p, s) ∈ attachesOf g n.state.made) : n.state.runs.filter (·.2.1.promise = s.promise) =
      ((n.state.outcome p).map fun o => (p, s, o)).toList := by
  have hperm := (runs_perm h hquiet).filter (·.2.1.promise = s.promise)
  rw [filter_settledRuns (nodup_attachesOf g _) hs] at hperm
  cases ho : n.state.outcome p with
  | none =>
    rw [ho] at hperm
    exact perm_nil.1 hperm
  | some o =>
    rw [ho] at hperm
    exact perm_singleton.1 hperm

/-! ### Messages by the call that they are about -/

/-- What an attached step sends, if its promise is settled. -/
def stepSends (f : Addr → Option (Outcome α)) (x : Addr × Then α) : List (Msg α) :=
  match f x.1 with
  | some o => x.2.run o
  | none => []

/-- The steps of a call send messages about the call. -/
theorem call_of_mem_stepSends {x : Addr × Then α} (hx : x ∈ c.attaches k) (hm : m ∈ stepSends f x) :
    m.call = k := by
  unfold stepSends at hm
  split at hm
  next o _ => exact (sent_of_mem_attaches hx hm).1
  next => cases hm

theorem flatMap_settledRuns (f : Addr → Option (Outcome α)) (xs : List (Addr × Then α)) :
    ((settledRuns f xs).flatMap fun r => r.2.1.run r.2.2) = xs.flatMap (stepSends f) := by
  rw [settledRuns, flatMap_assoc]
  congr 1
  funext x
  rw [stepSends]
  cases f x.1 with
  | none => rfl
  | some o => exact flatMap_singleton _ _

/-- **What was delivered, seen through `π`.**  When no message is in flight and `π` looks only at
messages about the `k`-th call, it sees what the calls send at once, what the steps of that call send
and what its helper sends. -/
theorem project (h : Reach (promises ty g) n) (hquiet : n.inFlight = [])
    (hπ : ∀ m, m.call ≠ k → π m = none) (hk : k < n.state.made) (hc : g[k]? = some c) :
    (n.delivered.filterMap π).Perm ((issued g n.state.made).filterMap π ++
        (((c.attaches k).flatMap (stepSends n.state.outcome)).filterMap π ++
          (helperAfter (helperOf ty g k) (n.delivered.filter (·.toHelper k))).2.filterMap π)) := by
  have hhist := reach_history h
  have hsent := sent_perm h
  rw [hquiet, nil_append] at hsent
  refine (hsent.filterMap π).trans ?_
  simp only [World.sent, filterMap_append]
  refine List.Perm.append_left _ (List.Perm.append ?_ ?_)
  · refine (((runs_perm h hquiet).flatMap_right _).filterMap π).trans ?_
    rw [flatMap_settledRuns, filterMap_flatMap, attachesOf, overCalls_flatMap,
      filterMap_flatMap, overCalls_single hk hc]
    intro j c' hj hne
    rw [flatMap_eq_nil_iff]
    intro x hx
    rw [filterMap_eq_nil_iff]
    intro m hm
    exact hπ m (by rw [call_of_mem_stepSends hx hm]; exact hne)
  rw [← hhist.sent k, filterMap_map, filterMap_map, filterMap_filter]
  refine List.Perm.of_eq (filterMap_congr ?_)
  rintro ⟨j, m⟩ hm
  by_cases hj : j = k
  · rw [if_pos (decide_eq_true hj)]
  obtain ⟨v, rfl⟩ := hhist.mem_helperSent hm
  rw [if_neg (by simpa using hj)]
  exact hπ _ hj

/-! ### Promises of combinators -/

/-- The value of a fulfilled promise. -/
def fulfilledOf (f : Addr → Option (Outcome α)) (p : Addr) : List (Val α) :=
  match f p with
  | some (.fulfilled v) => [v]
  | _ => []

/-- The rejection of a rejected promise. -/
def rejectionOf (f : Addr → Option (Outcome α)) (p : Addr) : List (Outcome α) :=
  match f p with
  | some .rejected => [.rejected]
  | _ => []

/-- No call applies or rejects the promise itself. -/
def Alone (g : List (Call α)) (p : Addr) : Prop :=
  (∀ v, Call.apply p v ∉ g) ∧ Call.reject p ∉ g

theorem settles_settleMsg (p q : Addr) (o : Outcome α) :
    (settleMsg (q, o)).settles p = if q = p then some o else none := by
  cases o
  · rfl
  · rfl

theorem settles_of_call_ne (hm : m.call ≠ k) : m.settles (.result k) = none := by
  cases m with
  | apply p v | reject p =>
    refine if_neg fun hp => hm ?_
    rw [hp]
    rfl
  | attach | joinApply | fulfillA | fulfillB | selectApply => rfl

/-- What the calls send at once to a promise that they do not apply or reject. -/
theorem issued_settles (halone : Alone g (.result k)) (hk : k < n.state.made) (hc : g[k]? = some c)
    (hself : ∀ x ∈ c.settles k, x.1 = .result k) :
    (issued g n.state.made).filterMap (Msg.settles (.result k)) = (c.settles k).map (·.2) := by
  have hsends : ∀ j (c' : Call α), (c'.sends j).filterMap (Msg.settles (.result k)) =
      (c'.settles j).filterMap fun x => if x.1 = .result k then some x.2 else none := by
    intro j c'
    rw [Call.sends, filterMap_append, filterMap_map, filterMap_map]
    refine (congrArg _ (filterMap_eq_nil_iff.2 fun x _ => rfl)).trans ((append_nil _).trans ?_)
    exact filterMap_congr fun x _ => settles_settleMsg _ x.1 x.2
  rw [show issued g n.state.made = overCalls (fun k c => c.sends k) g n.state.made from rfl,
    overCalls_filterMap, overCalls_single hk hc]
  · rw [hsends, ← filterMap_eq_map]
    exact filterMap_congr fun x hx => if_pos (hself x hx)
  intro j c' hj hne
  have hmem : c' ∈ g := mem_of_getElem? hj
  rw [hsends, filterMap_eq_nil_iff]
  intro x hx
  refine if_neg fun hp => ?_
  cases c' with
  | create | next | add | select => cases hx
  | apply p v =>
    rw [mem_singleton.1 hx] at hp
    exact halone.1 v (hp ▸ hmem)
  | reject p =>
    rw [mem_singleton.1 hx] at hp
    exact halone.2 (hp ▸ hmem)
  | join ps =>
    cases ps with
    | nil =>
      rw [mem_singleton.1 hx] at hp
      exact hne (Addr.result.inj hp)
    | cons p ps => cases hx

/-- A call sends messages to promises only. -/
theorem issued_filterMap (happly : ∀ p v, π (.apply p v) = none)
    (hreject : ∀ p, π (.reject p) = none) (hattach : ∀ p s, π (.attach p s) = none) {j : Nat} :
    (issued g j).filterMap π = [] := by
  rw [filterMap_eq_nil_iff]
  intro m hm
  obtain ⟨k, c, -, -, hm⟩ := mem_overCalls hm
  rcases mem_append.1 hm with hm | hm
  · obtain ⟨⟨p, o⟩, -, rfl⟩ := mem_map.1 hm
    cases o with
    | fulfilled v => exact happly p v
    | rejected => exact hreject p
  · obtain ⟨⟨p, s⟩, -, rfl⟩ := mem_map.1 hm
    exact hattach p s

/-- The steps of `join` and `add` send the value to the helper of their call, or reject the promise
of their call. -/
theorem stepSends_step (f : Addr → Option (Outcome α)) (p : Addr) (i : Nat)
    (hF : ∀ v, F.apply v = ([u v], some .unit)) :
    stepSends f (p, step k i F (.reject (.result k))) =
      ((fulfilledOf f p).flatMap fun v => [u v, .apply (.input k i) .unit]) ++
        (rejectionOf f p).flatMap fun _ => [.reject (.result k), .apply (.input k i) .unit] := by
  rw [stepSends, fulfilledOf, rejectionOf]
  cases f p with
  | none => rfl
  | some o =>
    cases o with
    | fulfilled v =>
      show (step k i F (.reject (.result k))).run (.fulfilled v) = _
      show (F.apply v).1 ++ [(step k i F (.reject (.result k))).pass (F.apply v).2] = _
      rw [hF]
      rfl
    | rejected => rfl

theorem flatMap_const_nil {δ : Type} (xs : List γ) : xs.flatMap (fun _ => ([] : List δ)) = [] :=
  flatMap_eq_nil_iff.2 fun _ _ => rfl

/-- The promise of the call is rejected by the step when the promise of the step is. -/
theorem step_settles (f : Addr → Option (Outcome α)) (p : Addr) (i : Nat)
    (hF : ∀ v, F.apply v = ([u v], some .unit)) (hmsg : ∀ v, (u v).settles (.result k) = none) :
    (stepSends f (p, step k i F (.reject (.result k)))).filterMap (Msg.settles (.result k)) =
      rejectionOf f p := by
  have hinput : ∀ v : Val α, (Msg.apply (.input k i) v).settles (.result k) = none :=
    fun v => by simp [Msg.settles]
  have hrej : (Msg.reject (.result k) : Msg α).settles (.result k) = some .rejected := if_pos rfl
  rw [stepSends_step f p i hF, filterMap_append, filterMap_flatMap, filterMap_flatMap]
  simp only [filterMap_cons, filterMap_nil, hmsg, hinput, hrej, flatMap_const_nil, nil_append]
  rw [rejectionOf]
  split
  · rfl
  · rfl

/-- The helper of the call gets the value of the step's promise. -/
theorem step_sends (f : Addr → Option (Outcome α)) (p : Addr) (i : Nat)
    (hF : ∀ v, F.apply v = ([u v], some .unit)) (happly : ∀ p v, π (.apply p v) = none)
    (hreject : ∀ p, π (.reject p) = none) :
    (stepSends f (p, step k i F (.reject (.result k)))).filterMap π =
      (fulfilledOf f p).filterMap fun v => π (u v) := by
  rw [stepSends_step f p i hF, filterMap_append, filterMap_flatMap, filterMap_flatMap]
  simp only [filterMap_cons, filterMap_nil, happly, hreject, flatMap_const_nil, append_nil]
  rw [filterMap_eq_flatMap_toList]
  congr 1

theorem head?_settles (p : Addr) (d : List (Msg α)) :
    (d.filterMap (Msg.settles p)).head? = settleOf p d := head?_filterMap

/-! ### join -/

/-- The value that a message brings to the helper of a `join`. -/
def Msg.joined : Msg α → Option (Val α)
  | .joinApply _ v => some v
  | _ => none

theorem helperAfter_join (space : Nat) (p : Addr) (ms : List (Msg α)) :
    helperAfter (.join [] space p) ms =
      (.join (ms.filterMap Msg.joined) space p,
        if 0 < space ∧ space ≤ (ms.filterMap Msg.joined).length then
          [.apply p (.array ((ms.filterMap Msg.joined).take space))] else []) := by
  induction ms using reverseRecOn with
  | nil =>
    rw [if_neg (by rintro ⟨hpos, hle⟩; exact absurd hpos (Nat.not_lt_of_le hle))]
    rfl
  | append_singleton ms m ih =>
    rw [helperAfter_snoc, ih, filterMap_append]
    generalize ms.filterMap Msg.joined = vs
    cases m with
    | apply | reject | attach | fulfillA | fulfillB | selectApply =>
      simp only [filterMap_cons, filterMap_nil, Msg.joined, Helper.receive, append_nil]
    | joinApply k v =>
      simp only [filterMap_cons, filterMap_nil, Msg.joined, Helper.receive,
        length_append, length_singleton]
      congr 1
      by_cases hlt : 0 < space ∧ space ≤ vs.length
      · rw [if_pos hlt, if_neg (by omega), if_pos (by omega),
          take_append_of_le_length hlt.2, append_nil]
      rw [if_neg hlt, nil_append]
      by_cases heq : vs.length + 1 = space
      · rw [if_pos heq, if_pos (by omega), take_of_length_le]
        rw [length_append, length_singleton, heq]
      · rw [if_neg heq, if_neg (by omega)]

theorem flatMap_mapIdx {δ ε : Type} {F : Nat → γ → δ} {G : δ → List ε} {H : γ → List ε}
    (h : ∀ i x, G (F i x) = H x) (xs : List γ) : (xs.mapIdx F).flatMap G = xs.flatMap H := by
  have hmap : (xs.mapIdx F).map G = xs.map H := by
    refine ext_getElem (by simp) fun i h₁ h₂ => ?_
    simp [h]
  rw [flatMap_def, flatMap_def, hmap]

/-- What the helper of a call got is what the steps of the call sent to it. -/
theorem helper_got (h : Reach (promises ty g) n) (hquiet : n.inFlight = [])
    (hπ : ∀ m : Msg α, (∀ j, m.toHelper j = false) → π m = none) (hk : k < n.state.made)
    (hc : g[k]? = some c) : ((n.delivered.filter (·.toHelper k)).filterMap π).Perm
      (((c.attaches k).flatMap (stepSends n.state.outcome)).filterMap
        fun m => if m.toHelper k then π m else none) := by
  have hother : ∀ m : Msg α, (∀ j, m.toHelper j = false) →
      (if m.toHelper k then π m else none) = none := by
    intro m hm
    rw [hπ m hm, ite_self]
  have hcall : ∀ m : Msg α, m.call ≠ k → (if m.toHelper k then π m else none) = none := by
    intro m hm
    cases m with
    | apply | reject | attach => exact hother _ fun _ => rfl
    | joinApply | fulfillA | fulfillB | selectApply =>
      exact if_neg fun hj => hm (of_decide_eq_true hj)
  have hproj := project h hquiet hcall hk hc
  have hissued : (issued g n.state.made).filterMap
      (fun m => if m.toHelper k then π m else none) = [] :=
    issued_filterMap (fun _ _ => hother _ fun _ => rfl) (fun _ => hother _ fun _ => rfl)
      fun _ _ => hother _ fun _ => rfl
  have hhelper : (helperAfter (helperOf ty g k) (n.delivered.filter (·.toHelper k))).2.filterMap
      (fun m => if m.toHelper k then π m else none) = [] := by
    rw [filterMap_eq_nil_iff]
    intro m hm
    obtain ⟨p, v, -, rfl⟩ := (helperAfter_target _ _).2 m hm
    exact hother _ fun _ => rfl
  rw [hissued, hhelper, nil_append, append_nil] at hproj
  rwa [filterMap_filter]

/-- The values that the helper of a `join` got are those of the inputs that are fulfilled. -/
theorem join_values {ps : List Addr} (h : Reach (promises ty g) n) (hquiet : n.inFlight = [])
    (hk : k < n.state.made) (hc : g[k]? = some (.join ps)) :
    ((n.delivered.filter (·.toHelper k)).filterMap Msg.joined).Perm
      (ps.flatMap (fulfilledOf n.state.outcome)) := by
  have hjoined : ∀ m : Msg α, (∀ j, m.toHelper j = false) → m.joined = none := by
    intro m hm
    cases m with
    | apply | reject | attach | fulfillA | fulfillB | selectApply => rfl
    | joinApply j v => exact absurd (hm j) (by simp [Msg.toHelper])
  refine (helper_got h hquiet hjoined hk hc).trans (List.Perm.of_eq ?_)
  rw [filterMap_flatMap, Call.attaches]
  refine flatMap_mapIdx (fun i p => ?_) ps
  rw [step_sends (u := .joinApply k) _ p i (fun v => rfl) (fun p v => rfl) fun p => rfl]
  have hself : ∀ v : Val α, (if (Msg.joinApply k v).toHelper k then (Msg.joinApply k v).joined
      else none) = some v := fun v => if_pos (decide_eq_true rfl)
  simp only [hself]
  exact filterMap_some

theorem length_fulfilledOf_le (f : Addr → Option (Outcome α)) (p : Addr) :
    (fulfilledOf f p).length ≤ 1 := by
  rw [fulfilledOf]
  split
  · exact le_refl 1
  · exact zero_le 1

theorem length_fulfilledOf : (fulfilledOf f p).length = 1 ↔ ∃ v, f p = some (.fulfilled v) := by
  rw [fulfilledOf]
  split
  next v hv => exact ⟨fun _ => ⟨v, hv⟩, fun _ => rfl⟩
  next hne => exact ⟨fun h => absurd h zero_ne_one, fun ⟨v, hv⟩ => absurd hv (hne v)⟩

/-- There are as many values as inputs exactly when every input is fulfilled. -/
theorem all_fulfilled_iff (f : Addr → Option (Outcome α)) (ps : List Addr) :
    ps.length ≤ (ps.flatMap (fulfilledOf f)).length ↔
      ∀ p ∈ ps, ∃ v, f p = some (.fulfilled v) := by
  have hle : ∀ ps : List Addr, (ps.flatMap (fulfilledOf f)).length ≤ ps.length := by
    intro ps
    induction ps with
    | nil => exact le_refl 0
    | cons p ps ih =>
      have hp := length_fulfilledOf_le f p
      rw [flatMap_cons, length_append, length_cons]
      omega
  induction ps with
  | nil => exact ⟨fun _ p hp => absurd hp not_mem_nil, fun _ => le_refl 0⟩
  | cons p ps ih =>
    have hp := length_fulfilledOf_le f p
    have hps := hle ps
    rw [flatMap_cons, length_append, length_cons, forall_mem_cons, ← length_fulfilledOf]
    constructor
    · intro hle
      exact ⟨by omega, ih.1 (by omega)⟩
    rintro ⟨hone, hall⟩
    have hrest := ih.2 hall
    omega

theorem fulfilledOf_of_fulfilled {v : Val α} (h : f p = some (.fulfilled v)) :
    fulfilledOf f p = [v] := by
  rw [fulfilledOf, h]

theorem rejectionOf_of_fulfilled (h : ∃ v, f p = some (.fulfilled v)) : rejectionOf f p = [] := by
  obtain ⟨v, hv⟩ := h
  rw [rejectionOf, hv]

theorem not_mem_rejectionOf (f : Addr → Option (Outcome α)) (p : Addr) (v : Val α) :
    Outcome.fulfilled v ∉ rejectionOf f p := by
  rw [rejectionOf]
  split
  · simp
  · exact not_mem_nil

/-- **The promise of a `join`**, when no message is in flight and nobody else settles it: it is
fulfilled exactly when all inputs are, with their values in some order. -/
theorem join_settled {ps : List Addr} (h : Reach (promises ty g) n) (hquiet : n.inFlight = [])
    (hk : k < n.state.made) (hc : g[k]? = some (.join ps)) (halone : Alone g (.result k)) :
    ((∃ v, n.state.outcome (.result k) = some (.fulfilled v)) ↔
      ∀ p ∈ ps, ∃ v, n.state.outcome p = some (.fulfilled v)) ∧
    ∀ v, n.state.outcome (.result k) = some (.fulfilled v) →
      ∃ xs, v = .array xs ∧ xs.Perm (ps.flatMap (fulfilledOf n.state.outcome)) := by
  have hself : ∀ x ∈ (Call.join ps : Call α).settles k, x.1 = .result k := by
    intro x hx
    cases ps with
    | nil => rw [mem_singleton.1 hx]
    | cons p ps => cases hx
  have hproj := project h hquiet (fun m hm => settles_of_call_ne hm) hk hc
  have hvalues := join_values h hquiet hk hc
  have hhelper : helperOf ty g k = .join [] ps.length (.result k) := by
    rw [helperOf, hc]
    rfl
  have hrejected : (((Call.join ps).attaches k).flatMap (stepSends n.state.outcome)).filterMap
      (Msg.settles (.result k)) = ps.flatMap (rejectionOf n.state.outcome) := by
    rw [filterMap_flatMap, Call.attaches]
    exact flatMap_mapIdx (fun i p =>
      step_settles (u := .joinApply k) _ p i (fun v => rfl) fun v => rfl) ps
  rw [issued_settles halone hk hc hself, hrejected, hhelper, helperAfter_join] at hproj
  generalize (n.delivered.filter (·.toHelper k)).filterMap Msg.joined = vs at hproj hvalues
  have houtcome : n.state.outcome (.result k) =
      (n.delivered.filterMap (Msg.settles (.result k))).head? := by
    rw [head?_settles]
    exact (reach_history h).value _
  rw [houtcome]
  have hsome : (Msg.apply (.result k) (.array (vs.take ps.length))).settles (.result k) =
      some (.fulfilled (.array (vs.take ps.length))) := if_pos rfl
  have hall := all_fulfilled_iff n.state.outcome ps
  rw [← hvalues.length_eq] at hall
  cases ps with
  | nil =>
    -- no inputs: the promise is fulfilled at once
    have hone : n.delivered.filterMap (Msg.settles (.result k)) = [.fulfilled (.array [])] := by
      rw [length_nil, if_neg fun hpos => absurd hpos.1 (lt_irrefl 0)] at hproj
      exact perm_singleton.1 hproj
    rw [hone]
    refine ⟨⟨fun _ p hp => absurd hp not_mem_nil, fun _ => ⟨_, rfl⟩⟩, ?_⟩
    rintro v ⟨⟩
    exact ⟨[], rfl, .refl _⟩
  | cons p ps =>
    generalize hps : p :: ps = inputs at *
    have hpos : 0 < inputs.length := by rw [← hps]; exact succ_pos _
    have hsettles : (Call.join inputs : Call α).settles k = [] := by rw [← hps, Call.settles]
    rw [hsettles, map_nil, nil_append] at hproj
    by_cases hle : inputs.length ≤ vs.length
    · -- all inputs are fulfilled, and none is rejected
      have hful := hall.1 hle
      have hnone : inputs.flatMap (rejectionOf n.state.outcome) = [] :=
        flatMap_eq_nil_iff.2 fun p hp => rejectionOf_of_fulfilled (hful p hp)
      have htake : vs.take inputs.length = vs := by
        refine take_of_length_le ?_
        rw [hvalues.length_eq, length_flatMap]
        refine (sum_le_card_nsmul _ 1 fun x hx => ?_).trans (by simp)
        obtain ⟨p, -, rfl⟩ := mem_map.1 hx
        exact length_fulfilledOf_le _ p
      rw [hnone, if_pos ⟨hpos, hle⟩, nil_append, filterMap_cons, hsome, filterMap_nil] at hproj
      rw [perm_singleton.1 hproj, htake]
      refine ⟨⟨fun _ => hful, fun _ => ⟨_, rfl⟩⟩, ?_⟩
      rintro v ⟨⟩
      exact ⟨vs, rfl, hvalues⟩
    rw [if_neg fun hc => hle hc.2, filterMap_nil, append_nil] at hproj
    have hnot : ∀ v, (n.delivered.filterMap (Msg.settles (.result k))).head? ≠
        some (.fulfilled v) := by
      intro v hv
      have hmem := hproj.mem_iff.1 (mem_of_head? hv)
      obtain ⟨p, -, hp⟩ := mem_flatMap.1 hmem
      exact not_mem_rejectionOf _ p v hp
    exact ⟨⟨fun hv => hv.elim fun v hv => absurd hv (hnot v), fun hful => absurd (hall.2 hful) hle⟩,
      fun v hv => absurd hv (hnot v)⟩

/-! ### add -/

/-- The value that a message brings to the helper of an `add`, on the left or on the right. -/
def Msg.added : Msg α → Option (Val α ⊕ Val α)
  | .fulfillA _ v => some (.inl v)
  | .fulfillB _ v => some (.inr v)
  | _ => none

/-- The helper of an `add`, by the values that it got. -/
def addAfter (a b : Val α) (isA isB : Val α → Bool) :
    List (Val α ⊕ Val α) → List (Val α × Val α)
  | [] => []
  | .inl v :: rest =>
    if isB b then (v, b) :: addAfter a b isA isB rest else addAfter v b isA isB rest
  | .inr v :: rest =>
    if isA a then (a, v) :: addAfter a b isA isB rest else addAfter a v isA isB rest

theorem foldl_receive (ms : List (Msg α)) (h : Helper α) (out : List (Msg α)) :
    ms.foldl (fun (h, out) m => ((h.receive m).1, out ++ (h.receive m).2)) (h, out) =
      ((helperAfter h ms).1, out ++ (helperAfter h ms).2) := by
  induction ms generalizing h out with
  | nil => simp [helperAfter]
  | cons m ms ih =>
    rw [helperAfter, foldl_cons, foldl_cons, ih, ih, nil_append, append_assoc]

theorem helperAfter_cons (h : Helper α) (ms : List (Msg α)) :
    (helperAfter h (m :: ms)).2 = (h.receive m).2 ++ (helperAfter (h.receive m).1 ms).2 := by
  rw [helperAfter, foldl_cons, foldl_receive, nil_append]

theorem helperAfter_add (isA isB : Val α → Bool) (p : Addr) (ms : List (Msg α)) (a b : Val α) :
    (helperAfter (.add a b isA isB p) ms).2 =
      (addAfter a b isA isB (ms.filterMap Msg.added)).map fun x => .apply p (.pair x.1 x.2) := by
  induction ms generalizing a b with
  | nil => rfl
  | cons m ms ih =>
    rw [helperAfter_cons]
    cases m with
    | apply | reject | attach | joinApply | selectApply => exact ih a b
    | fulfillA k v =>
      rw [filterMap_cons, Msg.added, Helper.receive, addAfter]
      split
      · rw [map_cons, ← ih]
        rfl
      · exact ih v b
    | fulfillB k v =>
      rw [filterMap_cons, Msg.added, Helper.receive, addAfter]
      split
      · rw [map_cons, ← ih]
        rfl
      · exact ih a v

theorem length_sums (xs : List (Val α ⊕ Val α)) :
    xs.length = (xs.filterMap Sum.getLeft?).length + (xs.filterMap Sum.getRight?).length := by
  induction xs with
  | nil => rfl
  | cons x xs ih =>
    cases x with
    | inl v | inr v =>
      simp only [length_cons, filterMap_cons, Sum.getLeft?, Sum.getRight?, ih]
      omega

/-- One value from each side at most, and the mark is of neither type: a pair is sent when both have
come, and only then. -/
theorem addAfter_once {isA isB : Val α → Bool} {xs : List (Val α ⊕ Val α)}
    {as bs : List (Val α)} (hmarkA : isA .noneMark = false) (hmarkB : isB .noneMark = false)
    (hl : (xs.filterMap Sum.getLeft?).Perm as) (hr : (xs.filterMap Sum.getRight?).Perm bs)
    (ha : as.length ≤ 1) (hb : bs.length ≤ 1) (hA : ∀ v ∈ as, isA v = true)
    (hB : ∀ v ∈ bs, isB v = true) :
    addAfter .noneMark .noneMark isA isB xs = as.flatMap fun v => bs.map fun w => (v, w) := by
  have hlen := length_sums xs
  rw [hl.length_eq, hr.length_eq] at hlen
  match xs, hlen with
  | [], _ =>
    obtain rfl : as = [] := nil_perm.1 hl
    rfl
  | [.inl v], _ =>
    obtain rfl : [v] = as := singleton_perm.1 hl
    obtain rfl : bs = [] := nil_perm.1 hr
    simp [addAfter, hmarkB]
  | [.inr w], _ =>
    obtain rfl : as = [] := nil_perm.1 hl
    simp [addAfter, hmarkA]
  | [.inl v, .inr w], _ =>
    obtain rfl : [v] = as := singleton_perm.1 hl
    obtain rfl : [w] = bs := singleton_perm.1 hr
    simp [addAfter, hmarkB, hA v (.head _)]
  | [.inr w, .inl v], _ =>
    obtain rfl : [v] = as := singleton_perm.1 hl
    obtain rfl : [w] = bs := singleton_perm.1 hr
    simp [addAfter, hmarkA, hB w (.head _)]
  | [.inl v, .inl v'], _ =>
    have htwo := hl.length_eq
    simp at htwo
    omega
  | [.inr w, .inr w'], _ =>
    have htwo := hr.length_eq
    simp at htwo
    omega
  | _ :: _ :: _ :: _, hlen =>
    simp only [length_cons] at hlen
    omega

theorem mem_fulfilledOf {v : Val α} : v ∈ fulfilledOf f p ↔ f p = some (.fulfilled v) := by
  rw [fulfilledOf]
  split
  next w hw =>
    rw [mem_singleton, hw]
    exact ⟨fun h => by rw [h], fun h => by injection h with h; injection h with h; exact h.symm⟩
  next hne => exact ⟨fun h => absurd h not_mem_nil, fun h => absurd h (hne v)⟩

/-- The values that the helper of an `add` got on one side are those of the input on that side. -/
theorem add_values {q : Addr} (side : Val α ⊕ Val α → Option (Val α)) (h : Reach (promises ty g) n)
    (hquiet : n.inFlight = []) (hk : k < n.state.made) (hc : g[k]? = some (.add p q)) :
    (((n.delivered.filter (·.toHelper k)).filterMap Msg.added).filterMap side).Perm
      ((fulfilledOf n.state.outcome p).filterMap (fun v => side (.inl v)) ++
        (fulfilledOf n.state.outcome q).filterMap fun v => side (.inr v)) := by
  have hadded : ∀ m : Msg α, (∀ j, m.toHelper j = false) → (m.added.bind side) = none := by
    intro m hm
    cases m with
    | apply | reject | attach | joinApply | selectApply => rfl
    | fulfillA j v | fulfillB j v => exact absurd (hm j) (by simp [Msg.toHelper])
  rw [filterMap_filterMap]
  refine (helper_got h hquiet hadded hk hc).trans (List.Perm.of_eq ?_)
  rw [filterMap_flatMap, Call.attaches, flatMap_cons, flatMap_singleton,
    step_sends (u := .fulfillA k) _ p 0 (fun v => rfl) (fun p v => rfl) fun p => rfl,
    step_sends (u := .fulfillB k) _ q 1 (fun v => rfl) (fun p v => rfl) fun p => rfl]
  have hA : ∀ v : Val α, (if (Msg.fulfillA k v).toHelper k then (Msg.fulfillA k v).added.bind side
      else none) = side (.inl v) := fun v => if_pos (decide_eq_true rfl)
  have hB : ∀ v : Val α, (if (Msg.fulfillB k v).toHelper k then (Msg.fulfillB k v).added.bind side
      else none) = side (.inr v) := fun v => if_pos (decide_eq_true rfl)
  simp only [hA, hB]

/-- **The promise of an `add`**, when no message is in flight, nobody else settles it and `_None` is
a value of neither type: it is fulfilled exactly when both inputs are, with the pair of their
values. -/
theorem add_settled {q : Addr} (ht : ProgramTyped ty g) (h : Reach (promises ty g) n)
    (hquiet : n.inFlight = []) (hk : k < n.state.made) (hc : g[k]? = some (.add p q))
    (halone : Alone g (.result k)) (hmarkA : ty p .noneMark = false)
    (hmarkB : ty q .noneMark = false) : ((∃ v, n.state.outcome (.result k) = some (.fulfilled v)) ↔
      (∃ v, n.state.outcome p = some (.fulfilled v)) ∧
        ∃ w, n.state.outcome q = some (.fulfilled w)) ∧
    ∀ v, n.state.outcome (.result k) = some (.fulfilled v) →
      ∃ a b, v = .pair a b ∧ n.state.outcome p = some (.fulfilled a) ∧
        n.state.outcome q = some (.fulfilled b) := by
  have hproj := project h hquiet (fun m hm => settles_of_call_ne hm) hk hc
  have hhelper : helperOf ty g k = .add .noneMark .noneMark (ty p) (ty q) (.result k) := by
    rw [helperOf, hc]
    rfl
  have htyped : ∀ r v, v ∈ fulfilledOf n.state.outcome r → ty r v = true := by
    intro r v hv
    have hval := (reach_history h).value r
    rw [show (n.state.promise r).value = n.state.outcome r from rfl, mem_fulfilledOf.1 hv] at hval
    exact settleOf_typed (reach_typed ht h) hval.symm
  have hleft := add_values Sum.getLeft? h hquiet hk hc
  have hright := add_values Sum.getRight? h hquiet hk hc
  simp only [Sum.getLeft?_inl, Sum.getLeft?_inr, filterMap_some, filterMap_none,
    append_nil] at hleft
  simp only [Sum.getRight?_inl, Sum.getRight?_inr, filterMap_some, filterMap_none,
    nil_append] at hright
  have hsent := addAfter_once hmarkA hmarkB hleft hright (length_fulfilledOf_le _ p)
    (length_fulfilledOf_le _ q) (htyped p) (htyped q)
  have hrejected : (((Call.add p q : Call α).attaches k).flatMap
      (stepSends n.state.outcome)).filterMap (Msg.settles (.result k)) =
        rejectionOf n.state.outcome p ++ rejectionOf n.state.outcome q := by
    rw [filterMap_flatMap, Call.attaches, flatMap_cons, flatMap_singleton,
      step_settles (u := .fulfillA k) _ p 0 (fun v => rfl) fun v => rfl,
      step_settles (u := .fulfillB k) _ q 1 (fun v => rfl) fun v => rfl]
  have hself : ∀ x ∈ (Call.add p q : Call α).settles k, x.1 = .result k :=
    fun x hx => absurd hx not_mem_nil
  have hpairs : ∀ xs : List (Val α × Val α),
      (xs.map fun x => Msg.apply (.result k) (.pair x.1 x.2)).filterMap (Msg.settles (.result k)) =
        xs.map fun x => Outcome.fulfilled (.pair x.1 x.2) := by
    intro xs
    rw [filterMap_map, ← filterMap_eq_map]
    exact filterMap_congr fun x _ => if_pos rfl
  rw [issued_settles halone hk hc hself, hrejected, hhelper, helperAfter_add, hsent, hpairs,
    Call.settles, map_nil, nil_append] at hproj
  have houtcome : n.state.outcome (.result k) =
      (n.delivered.filterMap (Msg.settles (.result k))).head? := by
    rw [head?_settles]
    exact (reach_history h).value _
  rw [houtcome]
  by_cases hboth : (∃ v, n.state.outcome p = some (.fulfilled v)) ∧
      ∃ w, n.state.outcome q = some (.fulfilled w)
  · obtain ⟨⟨v, hv⟩, w, hw⟩ := hboth
    have hone : n.delivered.filterMap (Msg.settles (.result k)) = [.fulfilled (.pair v w)] := by
      rw [rejectionOf_of_fulfilled ⟨v, hv⟩, rejectionOf_of_fulfilled ⟨w, hw⟩,
        fulfilledOf_of_fulfilled hv, fulfilledOf_of_fulfilled hw] at hproj
      exact perm_singleton.1 hproj
    rw [hone]
    refine ⟨⟨fun _ => ⟨⟨v, hv⟩, w, hw⟩, fun _ => ⟨_, rfl⟩⟩, ?_⟩
    rintro x ⟨⟩
    exact ⟨v, w, rfl, hv, hw⟩
  have hnot : ∀ v, (n.delivered.filterMap (Msg.settles (.result k))).head? ≠
      some (.fulfilled v) := by
    intro v hv
    rcases mem_append.1 (hproj.mem_iff.1 (mem_of_head? hv)) with hmem | hmem
    · rcases mem_append.1 hmem with hmem | hmem
      · exact not_mem_rejectionOf _ p v hmem
      · exact not_mem_rejectionOf _ q v hmem
    obtain ⟨x, hx, -⟩ := mem_map.1 hmem
    obtain ⟨a, ha, hx⟩ := mem_flatMap.1 hx
    obtain ⟨b, hb, -⟩ := mem_map.1 hx
    exact hboth ⟨⟨a, mem_fulfilledOf.1 ha⟩, b, mem_fulfilledOf.1 hb⟩
  exact ⟨⟨fun hv => hv.elim fun v hv => absurd hv (hnot v), fun hb => absurd hb hboth⟩,
    fun v hv => absurd hv (hnot v)⟩

end

/-- **Promises settle once and lose no step.**  In every state that a typed program reaches, with the
messages delivered in any order: a promise has the first outcome that came to it, and a step was run
once at most.  When no message is in flight: an attached step was run once if its promise is settled,
with the outcome of the promise, and else not at all; the promise of a `join` or an `add` that nobody
else settles is fulfilled exactly when all inputs are, with their values. -/
theorem promises_settle_once {ty : Addr → Val α → Bool} {g : List (Call α)}
    {n : Net (World α) (Msg α)} (ht : ProgramTyped ty g) (h : Reach (promises ty g) n) :
    (∀ p, n.state.outcome p = settleOf p n.delivered) ∧
    (n.state.runs.map (·.2.1.promise)).Nodup ∧
    (n.inFlight = [] → (∀ p s, (p, s) ∈ attachesOf g n.state.made →
        n.state.runs.filter (·.2.1.promise = s.promise) =
          ((n.state.outcome p).map fun o => (p, s, o)).toList) ∧
      (∀ k ps, k < n.state.made → g[k]? = some (.join ps) → Alone g (.result k) →
        ((∃ v, n.state.outcome (.result k) = some (.fulfilled v)) ↔
          ∀ p ∈ ps, ∃ v, n.state.outcome p = some (.fulfilled v)) ∧
        ∀ v, n.state.outcome (.result k) = some (.fulfilled v) →
          ∃ xs, v = .array xs ∧ xs.Perm (ps.flatMap (fulfilledOf n.state.outcome))) ∧
      (∀ k p q, k < n.state.made → g[k]? = some (.add p q) → Alone g (.result k) →
        ty p .noneMark = false → ty q .noneMark = false →
        ((∃ v, n.state.outcome (.result k) = some (.fulfilled v)) ↔
          (∃ v, n.state.outcome p = some (.fulfilled v)) ∧
            ∃ w, n.state.outcome q = some (.fulfilled w)) ∧
        ∀ v, n.state.outcome (.result k) = some (.fulfilled v) →
          ∃ a b, v = .pair a b ∧ n.state.outcome p = some (.fulfilled a) ∧
            n.state.outcome q = some (.fulfilled b))) := by
  refine ⟨(reach_history h).value, runs_nodup h, fun hquiet => ⟨?_, ?_, ?_⟩⟩
  · intro p s hs
    exact runs_settled h hquiet hs
  · intro k ps hk hc halone
    exact join_settled h hquiet hk hc halone
  · intro k p q hk hc halone hmarkA hmarkB
    exact add_settled ht h hquiet hk hc halone hmarkA hmarkB

/-- Two promises and their `join`; the second promise is fulfilled first. -/
abbrev joinOfTwo : List (Call Nat) :=
  [.create, .create, .join [.result 0, .result 1], .apply (.result 0) (.atom 5),
    .apply (.result 1) (.atom 7)]

/-- All calls, then the last message, then the messages in their order. -/
abbrev joinOfTwoSchedule : List Event :=
  replicate 5 .call ++ .deliver 3 :: replicate 8 (.deliver 0)

/-- Two promises joined and both fulfilled: the array holds each value once. -/
theorem promises_settle_once_join_of_two : ∃ n : Net (World Nat) (Msg Nat),
    Reach (promises (fun _ _ => true) joinOfTwo) n ∧ n.inFlight = [] ∧
    ∃ xs, n.state.outcome (.result 2) = some (.fulfilled (.array xs)) ∧
      xs.Perm [.atom 5, .atom 7] := by
  have hreach := reach_performAll (fun _ _ => true) joinOfTwo joinOfTwoSchedule
  have htyped : ProgramTyped (fun _ _ => true) joinOfTwo := by
    intro k c _
    cases c <;> simp [Call.Typed]
  have hquiet : (performAll (fun _ _ => true) joinOfTwo joinOfTwoSchedule).inFlight = [] := rfl
  have halone : Alone joinOfTwo (.result 2) := by simp [Alone]
  obtain ⟨-, -, hall⟩ := promises_settle_once htyped hreach
  obtain ⟨-, hjoin, -⟩ := hall hquiet
  obtain ⟨hiff, hvalues⟩ := hjoin 2 [.result 0, .result 1] (by decide) rfl halone
  obtain ⟨v, hv⟩ := hiff.2 (by
    intro p hp
    simp only [mem_cons, not_mem_nil, or_false] at hp
    rcases hp with rfl | rfl
    · exact ⟨.atom 5, rfl⟩
    · exact ⟨.atom 7, rfl⟩)
  obtain ⟨xs, rfl, hperm⟩ := hvalues v hv
  exact ⟨_, hreach, hquiet, xs, hv, hperm⟩

/-- The promise of a `join` is open to all: here it is fulfilled by a call of its own, while the input
is not settled. -/
theorem joined_promise_applied : ∃ (g : List (Call Nat)) (n : Net (World Nat) (Msg Nat)),
    ProgramTyped (fun _ _ => true) g ∧ Reach (promises (fun _ _ => true) g) n ∧
    n.inFlight = [] ∧ g[1]? = some (.join [.result 0]) ∧
    n.state.outcome (.result 1) = some (.fulfilled (.array [])) ∧
    n.state.outcome (.result 0) = none := by
  refine ⟨[.create, .join [.result 0], .apply (.result 1) (.array [])], _, ?_,
    reach_performAll _ _ [.call, .call, .call, .deliver 0, .deliver 0], rfl, rfl, rfl, rfl⟩
  intro k c _
  cases c <;> simp [Call.Typed]

end SpacePony.Promises
