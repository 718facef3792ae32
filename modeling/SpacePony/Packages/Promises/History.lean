import SpacePony.Packages.Promises.Promise

/-!
# Packages — promises — what the history says

The state of every actor is a function of the messages that were delivered, in their order
(`History`, `reach_history`).  Every message has the types of its promises (`reach_typed`), and the
messages in flight and those delivered are the calls', the steps' and the helpers' (`sent_perm`).
-/

namespace SpacePony.Promises

open List Mailbox
open Function (update_self update_of_ne comp_def)

variable {α : Type}

/-! ### The history -/

/-- The outcome that a message brings to the promise `p`. -/
def Msg.settles (p : Addr) : Msg α → Option (Outcome α)
  | .apply q v => if q = p then some (.fulfilled v) else none
  | .reject q => if q = p then some .rejected else none
  | _ => none

/-- The step that a message attaches, and the promise it attaches it to. -/
def Msg.attaching : Msg α → Option (Addr × Then α)
  | .attach p s => some (p, s)
  | _ => none

/-- The messages that go to the helper of the `k`-th call. -/
def Msg.toHelper (k : Nat) : Msg α → Bool
  | .joinApply j _ | .fulfillA j _ | .fulfillB j _ | .selectApply j _ _ => j = k
  | _ => false

/-- The first outcome that came to a promise. -/
def settleOf (p : Addr) (d : List (Msg α)) : Option (Outcome α) := d.findSome? (Msg.settles p)

/-- The steps that were attached, each with its promise. -/
def attachesIn (d : List (Msg α)) : List (Addr × Then α) := d.filterMap Msg.attaching

/-- The steps that were attached to `p`. -/
def attachedTo (p : Addr) (xs : List (Addr × Then α)) : List (Then α) :=
  xs.flatMap fun x => if x.1 = p then [x.2] else []

/-- Attached steps whose promise is settled, each with the outcome. -/
def settledRuns (f : Addr → Option (Outcome α)) (xs : List (Addr × Then α)) :
    List (Addr × Then α × Outcome α) :=
  xs.flatMap fun x => ((f x.1).map fun o => (x.1, x.2, o)).toList

/-- The steps that were run, as the history says. -/
def ranIn (d : List (Msg α)) : List (Addr × Then α × Outcome α) :=
  settledRuns (settleOf · d) (attachesIn d)

/-- The steps that wait at `p`. -/
def waitingAt (p : Addr) (d : List (Msg α)) : List (Then α) :=
  match settleOf p d with
  | none => attachedTo p (attachesIn d)
  | some _ => []

/-- A helper after messages, and what it sent. -/
def helperAfter (h : Helper α) (ms : List (Msg α)) : Helper α × List (Msg α) :=
  ms.foldl (fun (h, out) m => ((h.receive m).1, out ++ (h.receive m).2)) (h, [])

section
variable {p q : Addr} {d : List (Msg α)} {m : Msg α} {o : Outcome α}

theorem settleOf_snoc : settleOf p (d ++ [m]) = (settleOf p d).or (m.settles p) := by
  rw [settleOf, findSome?_append, settleOf, findSome?_singleton]

theorem attachesIn_snoc : attachesIn (d ++ [m]) = attachesIn d ++ m.attaching.toList := by
  rw [attachesIn, filterMap_append, attachesIn]
  cases h : m.attaching <;> simp [h]

theorem attachedTo_append (xs ys : List (Addr × Then α)) :
    attachedTo p (xs ++ ys) = attachedTo p xs ++ attachedTo p ys := flatMap_append

theorem settledRuns_append (f : Addr → Option (Outcome α)) (xs ys : List (Addr × Then α)) :
    settledRuns f (xs ++ ys) = settledRuns f xs ++ settledRuns f ys := flatMap_append

/-- A promise that is settled adds the steps that were attached to it. -/
theorem settledRuns_settle {f f' : Addr → Option (Outcome α)} (hp : f p = none)
    (hp' : f' p = some o) (hother : ∀ q, q ≠ p → f' q = f q) (xs : List (Addr × Then α)) :
    (settledRuns f' xs).Perm (settledRuns f xs ++ (attachedTo p xs).map fun s => (p, s, o)) := by
  induction xs with
  | nil => exact .refl _
  | cons x xs ih =>
    obtain ⟨q, s⟩ := x
    rw [settledRuns, settledRuns, attachedTo, flatMap_cons, flatMap_cons, flatMap_cons, map_append]
    by_cases hq : q = p
    · subst hq
      rw [hp, hp', if_pos rfl]
      exact (ih.cons _).trans perm_middle.symm
    · rw [hother q hq, if_neg hq, append_assoc]
      exact ih.append_left _

/-- One more message to a helper. -/
theorem helperAfter_snoc (h : Helper α) (ms : List (Msg α)) : helperAfter h (ms ++ [m]) =
      (((helperAfter h ms).1.receive m).1,
        (helperAfter h ms).2 ++ ((helperAfter h ms).1.receive m).2) := by
  rw [helperAfter, foldl_append]
  rfl

end

/-! ### The state is what the history says -/

/-- The state of every actor, and the record of what was run and sent, from the messages that were
delivered. -/
structure History (ty : Addr → Val α → Bool) (g : List (Call α)) (w : World α) (d : List (Msg α)) :
    Prop where
  value : ∀ p, (w.promise p).value = settleOf p d
  list : ∀ p, (w.promise p).list = waitingAt p d
  runs : w.runs.Perm (ranIn d)
  helper : ∀ k, w.helper k = (helperAfter (helperOf ty g k) (d.filter (·.toHelper k))).1
  sent : ∀ k, (w.helperSent.filter (·.1 = k)).map (·.2) =
    (helperAfter (helperOf ty g k) (d.filter (·.toHelper k))).2

variable {ty : Addr → Val α → Bool} {g : List (Call α)} {w : World α} {d : List (Msg α)}
  {m : Msg α} {p : Addr}

theorem history_init : History ty g (promises ty g).init [] := by
  exact ⟨fun p => rfl, fun p => rfl, .refl _, fun k => rfl, fun k => rfl⟩

/-- A promise gets a message, and nothing else changes. -/
theorem History.withPromise {f : Promise α → Promise α × List (Then α × Outcome α)}
    {st : Promise α} {ran : List (Then α × Outcome α)} (h : History ty g w d)
    (hf : f (w.promise p) = (st, ran)) (hk : ∀ k, m.toHelper k = false)
    (hvalue : st.value = settleOf p (d ++ [m])) (hlist : st.list = waitingAt p (d ++ [m]))
    (hother : ∀ q, q ≠ p → settleOf q (d ++ [m]) = settleOf q d ∧
      waitingAt q (d ++ [m]) = waitingAt q d)
    (hruns : (ranIn (d ++ [m])).Perm (ranIn d ++ ran.map (p, ·))) :
    History ty g (w.withPromise p f).1 (d ++ [m]) := by
  have hfilter : ∀ k, (d ++ [m]).filter (·.toHelper k) = d.filter (·.toHelper k) := by
    intro k
    rw [filter_append, filter_cons_of_neg (by rw [hk k]; exact Bool.false_ne_true),
      filter_nil, append_nil]
  rw [World.withPromise, hf]
  refine ⟨fun q => ?_, fun q => ?_, ?_, fun k => ?_, fun k => ?_⟩
  · by_cases hne : q = p
    · subst hne
      simp only [update_self, hvalue]
    · simp only [update_of_ne hne, h.value, (hother q hne).1]
  · by_cases hne : q = p
    · subst hne
      simp only [update_self, hlist]
    · simp only [update_of_ne hne, h.list, (hother q hne).2]
  · exact (h.runs.append_right _).trans hruns.symm
  · rw [hfilter]
    exact h.helper k
  · rw [hfilter]
    exact h.sent k

/-- A message that settles `p` is delivered. -/
theorem History.settle {o : Outcome α} (h : History ty g w d) (hp : m.settles p = some o)
    (hq : ∀ q, q ≠ p → m.settles q = none) (hattach : m.attaching = none)
    (hk : ∀ k, m.toHelper k = false) :
    History ty g (w.withPromise p (Promise.settle o)).1 (d ++ [m]) := by
  have hd : attachesIn (d ++ [m]) = attachesIn d := by
    rw [attachesIn_snoc, hattach, Option.toList_none, append_nil]
  have hother : ∀ q, q ≠ p → settleOf q (d ++ [m]) = settleOf q d := by
    intro q hne
    rw [settleOf_snoc, hq q hne, Option.or_none]
  have hwait : ∀ q, q ≠ p → waitingAt q (d ++ [m]) = waitingAt q d := by
    intro q hne
    rw [waitingAt, hother q hne, hd, waitingAt]
  have hps : settleOf p (d ++ [m]) = (settleOf p d).or (some o) := by rw [settleOf_snoc, hp]
  cases hset : settleOf p d with
  | some o' =>
    -- the promise is settled already, and nothing changes
    rw [hset, Option.some_or] at hps
    refine h.withPromise (f := Promise.settle o) (by rw [Promise.settle, h.value, hset]) hk ?_ ?_
      (fun q hne => ⟨hother q hne, hwait q hne⟩) ?_
    · rw [h.value, hset, hps]
    · rw [h.list, waitingAt, waitingAt, hset, hps]
    have hsame : ∀ q, settleOf q (d ++ [m]) = settleOf q d := by
      intro q
      by_cases hne : q = p
      · rw [hne, hps, hset]
      · exact hother q hne
    rw [ranIn, hd, funext hsame, map_nil, append_nil]
    exact .refl _
  | none =>
    rw [hset, Option.none_or] at hps
    refine h.withPromise (f := Promise.settle o) (by rw [Promise.settle, h.value, hset]) hk ?_ ?_
      (fun q hne => ⟨hother q hne, hwait q hne⟩) ?_
    · rw [hps]
    · rw [waitingAt, hps]
    · rw [h.list, waitingAt, hset, ranIn, hd, map_map]
      exact settledRuns_settle hset hps hother (attachesIn d)

variable {s : Then α} {k : Nat}

/-- A step is attached to `p`. -/
theorem History.attach (h : History ty g w d) :
    History ty g (w.withPromise p (Promise.attach s)).1 (d ++ [Msg.attach p s]) := by
  have hd : attachesIn (d ++ [Msg.attach p s]) = attachesIn d ++ [(p, s)] := attachesIn_snoc
  have hsame : ∀ q, settleOf q (d ++ [Msg.attach p s]) = settleOf q d := by
    intro q
    rw [settleOf_snoc]
    exact Option.or_none
  have hwait : ∀ q, q ≠ p → waitingAt q (d ++ [Msg.attach p s]) = waitingAt q d := by
    intro q hne
    have hnil : attachedTo q [(p, s)] = [] := by
      rw [attachedTo, flatMap_singleton, if_neg (Ne.symm hne)]
    rw [waitingAt, hsame, hd, attachedTo_append, hnil, append_nil, waitingAt]
  have hruns : ranIn (d ++ [Msg.attach p s]) =
      ranIn d ++ ((settleOf p d).map fun o => (p, s, o)).toList := by
    rw [ranIn, hd, funext hsame, settledRuns_append, ranIn]
    congr 1
    rw [settledRuns, flatMap_singleton]
  cases hset : settleOf p d with
  | some o =>
    refine h.withPromise (f := Promise.attach s) (by rw [Promise.attach, h.value, hset])
      (fun _ => rfl) ?_ ?_ (fun q hne => ⟨hsame q, hwait q hne⟩) ?_
    · rw [h.value, hsame]
    · rw [h.list, waitingAt, waitingAt, hsame, hset]
    · rw [hruns, hset]
      exact .refl _
  | none =>
    refine h.withPromise (f := Promise.attach s) (by rw [Promise.attach, h.value, hset])
      (fun _ => rfl) ?_ ?_ (fun q hne => ⟨hsame q, hwait q hne⟩) ?_
    · rw [hsame, hset, ← hset, ← h.value]
    · have hone : attachedTo p [(p, s)] = [s] := by rw [attachedTo, flatMap_singleton, if_pos rfl]
      rw [h.list, waitingAt, waitingAt, hsame, hset, hd, attachedTo_append, hone]
    · rw [hruns, hset]
      exact .refl _

/-- A helper gets a message. -/
theorem History.toHelper (h : History ty g w d) (hm : ∀ j, m.toHelper j = decide (k = j))
    (hsettle : ∀ q, m.settles q = none) (hattach : m.attaching = none) :
    History ty g (w.withHelper k m).1 (d ++ [m]) := by
  have hd : attachesIn (d ++ [m]) = attachesIn d := by
    rw [attachesIn_snoc, hattach, Option.toList_none, append_nil]
  have hsame : ∀ q, settleOf q (d ++ [m]) = settleOf q d := by
    intro q
    rw [settleOf_snoc, hsettle q, Option.or_none]
  have hother : ∀ j, j ≠ k → (d ++ [m]).filter (·.toHelper j) = d.filter (·.toHelper j) := by
    intro j hne
    have hf : m.toHelper j = false := by
      rw [hm j]
      exact decide_eq_false (Ne.symm hne)
    rw [filter_append, filter_cons_of_neg (by rw [hf]; exact Bool.false_ne_true),
      filter_nil, append_nil]
  have hself : (d ++ [m]).filter (·.toHelper k) = d.filter (·.toHelper k) ++ [m] := by
    rw [filter_append, filter_cons_of_pos (by rw [hm k]; exact decide_eq_true rfl), filter_nil]
  refine ⟨fun q => ?_, fun q => ?_, ?_, fun j => ?_, fun j => ?_⟩
  · rw [hsame]
    exact h.value q
  · rw [waitingAt, hsame, hd]
    exact h.list q
  · rw [ranIn, hd, funext hsame]
    exact h.runs
  · by_cases hne : j = k
    · subst hne
      rw [hself, helperAfter_snoc, ← h.helper j]
      simp only [World.withHelper, update_self]
    · rw [hother j hne, ← h.helper j]
      simp only [World.withHelper, update_of_ne hne]
  have hnew : ((w.withHelper k m).1.helperSent.filter (·.1 = j)).map (·.2) =
      (w.helperSent.filter (·.1 = j)).map (·.2) ++
        if j = k then ((w.helper k).receive m).2 else [] := by
    rw [World.withHelper, filter_append, map_append]
    congr 1
    by_cases hne : j = k
    · subst hne
      simp [filter_map, comp_def]
    · simp [filter_map, comp_def, hne, Ne.symm hne]
  rw [hnew, h.sent j]
  by_cases hne : j = k
  · subst hne
    rw [hself, helperAfter_snoc, ← h.helper j, if_pos rfl]
  · rw [hother j hne, if_neg hne, append_nil]

theorem History.handle (h : History ty g w d) (m : Msg α) :
    History ty g (handle m w).1 (d ++ [m]) := by
  cases m with
  | apply p v | reject p =>
    exact h.settle (if_pos rfl) (fun q hne => if_neg (Ne.symm hne)) rfl fun _ => rfl
  | attach p s => exact h.attach
  | joinApply k v | fulfillA k v | fulfillB k v
  | selectApply k v other => exact h.toHelper (fun _ => rfl) (fun _ => rfl) rfl

variable {n : Net (World α) (Msg α)}

/-- **The state of every actor is what the history says.** -/
theorem reach_history (h : Reach (promises ty g) n) : History ty g n.state n.delivered := by
  refine (Reach.induct (I := History ty g) (P := fun _ => True) history_init ?_ ?_ h).1
  · rintro w w' ms d ⟨c, -, rfl, -⟩ hI
    exact ⟨⟨hI.value, hI.list, hI.runs, hI.helper, hI.sent⟩, fun _ _ => trivial⟩
  · intro w d m hI _ _
    exact ⟨hI.handle m, fun _ _ => trivial⟩

/-! ### What was sent -/

/-- The messages of the calls that were made. -/
def issued (g : List (Call α)) (n : Nat) : List (Msg α) :=
  ((g.take n).mapIdx fun k c => c.sends k).flatten

/-- The messages that were sent: by the calls, by the steps that were run, and by the helpers. -/
def World.sent (g : List (Call α)) (w : World α) : List (Msg α) :=
  issued g w.made ++ (w.runs.flatMap (fun r => r.2.1.run r.2.2) ++ w.helperSent.map (·.2))

theorem issued_succ {n : Nat} {c : Call α} (hc : g[n]? = some c) :
    issued g (n + 1) = issued g n ++ c.sends n := by
  obtain ⟨hlt, hget⟩ := List.getElem?_eq_some_iff.1 hc
  rw [issued, take_add_one, hc, Option.toList_some, mapIdx_append, flatten_append, issued]
  congr 1
  rw [mapIdx_singleton, flatten_singleton, length_take, Nat.zero_add,
    Nat.min_eq_left (Nat.le_of_lt hlt)]

theorem sent_withPromise (p : Addr) (f : Promise α → Promise α × List (Then α × Outcome α)) :
    ((w.withPromise p f).1.sent g).Perm (w.sent g ++ (w.withPromise p f).2) := by
  rw [World.withPromise, World.sent, World.sent]
  simp only [flatMap_append, flatMap_map, append_assoc]
  refine List.Perm.append_left _ (List.Perm.append_left _ ?_)
  exact perm_append_comm

theorem sent_withHelper (k : Nat) (m : Msg α) :
    ((w.withHelper k m).1.sent g).Perm (w.sent g ++ (w.withHelper k m).2) := by
  rw [World.withHelper, World.sent, World.sent]
  simp only [map_append, map_map, append_assoc]
  have hid : ((w.helper k).receive m).2.map ((·.2) ∘ (k, ·)) = ((w.helper k).receive m).2 :=
    map_id _
  rw [hid]

/-- **What is in flight or delivered was sent** by a call, a step or a helper, and is there once for
each time it was sent. -/
theorem sent_perm (h : Reach (promises ty g) n) :
    (n.inFlight ++ n.delivered).Perm (n.state.sent g) := by
  refine h.conserved rfl ?_ ?_
  · rintro w w' ms ⟨c, hc, rfl, rfl⟩
    rw [World.sent, World.sent]
    simp only [issued_succ hc, append_assoc]
    refine List.Perm.append_left _ (perm_append_comm.trans ?_)
    rw [append_assoc]
  intro m w
  cases m with
  | apply p v | reject p | attach p s => exact sent_withPromise p _
  | joinApply k v | fulfillA k v | fulfillB k v | selectApply k v other => exact sent_withHelper k _

/-! ### Types -/

/-- A call has the types of the promises that it names: the type checker's part. -/
def Call.Typed (ty : Addr → Val α → Bool) (k : Nat) : Call α → Prop
  | .create | .reject _ => True
  | .apply p v => ty p v
  | .next p f r => (∀ v w, ty p v → f v = some w → ty (.result k) w) ∧
      ∀ w, r = some w → ty (.result k) w
  | .join ps => (∀ xs, (∀ x ∈ xs, ∃ p ∈ ps, ty p x) → ty (.result k) (.array xs)) ∧
      ∀ i, ty (.input k i) .unit
  | .add p q => (∀ v w, ty p v → ty q w → ty (.result k) (.pair v w)) ∧ ∀ i, ty (.input k i) .unit
  | .select p q => (∀ v, ty p v → ty (.result k) (.pair v (.promise q))) ∧
      (∀ v, ty q v → ty (.result k) (.pair v (.promise p))) ∧ ∀ i, ty (.input k i) .unit

/-- Every call of the program is typed. -/
def ProgramTyped (ty : Addr → Val α → Bool) (g : List (Call α)) : Prop :=
  ∀ k c, g[k]? = some c → Call.Typed ty k c

/-- An outcome of `p` has the type of `p`. -/
def OutcomeTyped (ty : Addr → Val α → Bool) (p : Addr) : Outcome α → Prop
  | .fulfilled v => ty p v
  | .rejected => True

/-- A message that is not `_attach` has the types of the promises that it is about. -/
def Msg.Plain (ty : Addr → Val α → Bool) (g : List (Call α)) : Msg α → Prop
  | .apply p v => ty p v
  | .reject _ => True
  | .attach _ _ => False
  | .joinApply k v => ∃ ps, g[k]? = some (.join ps) ∧ ∃ p ∈ ps, ty p v
  | .fulfillA k v => ∃ p q, g[k]? = some (.add p q) ∧ ty p v
  | .fulfillB k v => ∃ p q, g[k]? = some (.add p q) ∧ ty q v
  | .selectApply k v other =>
    ∃ p q, g[k]? = some (.select p q) ∧ ((ty p v ∧ other = q) ∨ (ty q v ∧ other = p))

/-- A message has the types of the promises that it is about; a step sends such messages. -/
def Msg.Typed (ty : Addr → Val α → Bool) (g : List (Call α)) : Msg α → Prop
  | .attach p s => ∀ o, OutcomeTyped ty p o → ∀ m ∈ s.run o, m.Plain ty g
  | m => m.Plain ty g

/-- A helper that was made by the `k`-th call. -/
def Helper.Typed (ty : Addr → Val α → Bool) (g : List (Call α)) (k : Nat) : Helper α → Prop
  | .absent => True
  | .join xs _ p => p = .result k ∧
      ∃ ps, g[k]? = some (.join ps) ∧ ∀ x ∈ xs, ∃ q ∈ ps, ty q x
  | .add _ _ isA isB p => p = .result k ∧ ∃ q q', g[k]? = some (.add q q') ∧ isA = ty q ∧ isB = ty q'
  | .select _ p => p = .result k ∧ ∃ q q', g[k]? = some (.select q q')

theorem Msg.Plain.typed (h : m.Plain ty g) : m.Typed ty g := by
  cases m with
  | attach p s => exact h.elim
  | apply | reject | joinApply | fulfillA | fulfillB | selectApply => exact h

theorem helperOf_typed (k : Nat) : (helperOf ty g k).Typed ty g k := by
  rw [helperOf]
  cases hg : g[k]? with
  | none => trivial
  | some c =>
    cases c with
    | join ps => exact ⟨rfl, ps, hg, fun _ hx => absurd hx not_mem_nil⟩
    | add p q => exact ⟨rfl, p, q, hg, rfl, rfl⟩
    | select p q => exact ⟨rfl, p, q, hg⟩
    | create | apply | reject | next => trivial

/-- Nothing is sent. -/
theorem plain_nil : ∀ m' ∈ ([] : List (Msg α)), m'.Plain ty g :=
  fun _ hm => absurd hm not_mem_nil

theorem plain_single (h : m.Plain ty g) : ∀ m' ∈ [m], m'.Plain ty g := by
  intro m' hm
  rwa [mem_singleton.1 hm]

/-- A helper stays typed, and what it sends is typed. -/
theorem Helper.Typed.receive {h : Helper α} (ht : ProgramTyped ty g) (hh : h.Typed ty g k)
    (hm : m.Plain ty g) (hk : m.toHelper k = true) :
    (h.receive m).1.Typed ty g k ∧ ∀ m' ∈ (h.receive m).2, m'.Plain ty g := by
  cases m with
  | apply | reject | attach => cases hk
  | joinApply j v =>
    obtain rfl : j = k := of_decide_eq_true hk
    cases h with
    | absent | add | select => exact ⟨hh, plain_nil⟩
    | join xs space p =>
      obtain ⟨rfl, ps, hg, hxs⟩ := hh
      obtain ⟨ps', hg', q, hq, hv⟩ := hm
      obtain rfl : ps = ps' := by simpa [hg] using hg'
      have hxs' : ∀ x ∈ xs ++ [v], ∃ q ∈ ps, ty q x := by
        intro x hx
        rcases mem_append.1 hx with hx | hx
        · exact hxs x hx
        · rw [mem_singleton.1 hx]
          exact ⟨q, hq, hv⟩
      refine ⟨⟨rfl, ps, hg, hxs'⟩, ?_⟩
      rw [Helper.receive]
      split
      · exact plain_single ((ht j _ hg).1 _ hxs')
      · exact plain_nil
  | fulfillA j v | fulfillB j v =>
    obtain rfl : j = k := of_decide_eq_true hk
    cases h with
    | absent | join | select => exact ⟨hh, plain_nil⟩
    | add a b isA isB p =>
      obtain ⟨rfl, q, q', hg, rfl, rfl⟩ := hh
      obtain ⟨p, p', hg', hv⟩ := hm
      obtain ⟨rfl, rfl⟩ : q = p ∧ q' = p' := by simpa [hg] using hg'
      rw [Helper.receive]
      split
      next h =>
        refine ⟨⟨rfl, q, q', hg, rfl, rfl⟩, plain_single ?_⟩
        first | exact (ht j _ hg).1 v b hv h | exact (ht j _ hg).1 a v h hv
      next => exact ⟨⟨rfl, q, q', hg, rfl, rfl⟩, plain_nil⟩
  | selectApply j v other =>
    obtain rfl : j = k := of_decide_eq_true hk
    cases h with
    | absent | join | add => exact ⟨hh, plain_nil⟩
    | select complete p =>
      obtain ⟨rfl, q, q', hg⟩ := hh
      obtain ⟨p, p', hg', hv⟩ := hm
      obtain ⟨rfl, rfl⟩ : q = p ∧ q' = p' := by simpa [hg] using hg'
      have hpair : ty (.result j) (.pair v (.promise other)) := by
        rcases hv with ⟨hv, rfl⟩ | ⟨hv, rfl⟩
        · exact (ht j _ hg).1 v hv
        · exact (ht j _ hg).2.1 v hv
      rw [Helper.receive]
      split
      next => exact ⟨⟨rfl, q, q', hg⟩, plain_nil⟩
      next => exact ⟨⟨rfl, q, q', hg⟩, plain_single hpair⟩

/-- A step of a typed call: what its functions send is typed, and so is what they return. -/
theorem typed_attach {p : Addr}
    (hfulfill : ∀ v, ty p v → (∀ m ∈ (s.fulfill.apply v).1, m.Plain ty g) ∧
      ∀ w, (s.fulfill.apply v).2 = some w → ty s.promise w)
    (hreject : (∀ m ∈ (s.rejected.apply : List (Msg α) × _).1, m.Plain ty g) ∧
      ∀ w, (s.rejected.apply : List (Msg α) × _).2 = some w → ty s.promise w) :
    (Msg.attach p s).Typed ty g := by
  have hpass : ∀ r : Option (Val α), (∀ w, r = some w → ty s.promise w) →
      (s.pass r).Plain ty g := by
    intro r hr
    cases r with
    | none => trivial
    | some w => exact hr w rfl
  intro o ho m hm
  unfold Then.run at hm
  split at hm
  next =>
    rcases mem_append.1 hm with hm | hm
    · cases o with
      | fulfilled v => exact (hfulfill v ho).1 m hm
      | rejected => exact hreject.1 m hm
    rw [mem_singleton.1 hm]
    cases o with
    | fulfilled v => exact hpass _ (hfulfill v ho).2
    | rejected => exact hpass _ hreject.2
  next => cases hm

/-- A step that `join`, `add` or `select` makes. -/
theorem typed_step {p : Addr} {i : Nat} {f : Fulfill α} {r : Reject α} {msg : Val α → Msg α}
    (hf : ∀ v, f.apply v = ([msg v], some .unit)) (hmsg : ∀ v, ty p v → (msg v).Plain ty g)
    (hr : r = .reject (.result k) ∨ r = .always) (hunit : ty (.input k i) .unit) :
    (Msg.attach p (step k i f r)).Typed ty g := by
  have hret : ∀ w, some (Val.unit : Val α) = some w → ty (.input k i) w := by
    rintro w ⟨⟩
    exact hunit
  refine typed_attach (fun v hv => ?_) ?_
  · rw [show (step k i f r).fulfill = f from rfl, hf]
    exact ⟨plain_single (hmsg v hv), hret⟩
  rcases hr with rfl | rfl
  · exact ⟨plain_single trivial, hret⟩
  · exact ⟨plain_nil, fun w hw => absurd hw.symm (Option.some_ne_none w)⟩

/-- What a typed call sends is typed. -/
theorem Call.Typed.sends {c : Call α} (hc : g[k]? = some c) (ht : Call.Typed ty k c) :
    ∀ m ∈ c.sends k, m.Typed ty g := by
  intro m hm
  rcases mem_append.1 hm with hm | hm
  · obtain ⟨x, hx, rfl⟩ := mem_map.1 hm
    cases c with
    | create | next | add | select => cases hx
    | apply p v =>
      rw [mem_singleton.1 hx]
      exact ht
    | reject p =>
      rw [mem_singleton.1 hx]
      trivial
    | join ps =>
      cases ps with
      | nil =>
        rw [mem_singleton.1 hx]
        exact ht.1 [] fun _ hx => absurd hx not_mem_nil
      | cons p ps => cases hx
  obtain ⟨⟨p, s⟩, hx, rfl⟩ := mem_map.1 hm
  cases c with
  | create | apply | reject => cases hx
  | next q f r =>
    obtain ⟨rfl, rfl⟩ : p = q ∧ s = _ := by simpa [Call.attaches] using hx
    exact typed_attach (fun v hv => ⟨plain_nil, fun w hw => ht.1 v w hv hw⟩)
      ⟨plain_nil, ht.2⟩
  | join ps =>
    obtain ⟨i, hi, ⟨⟩⟩ := mem_mapIdx.1 hx
    exact typed_step (fun v => rfl) (fun v hv => ⟨ps, hc, _, getElem_mem hi, hv⟩)
      (.inl rfl) (ht.2 i)
  | add q q' =>
    rcases mem_cons.1 hx with hx | hx
    · cases hx
      exact typed_step (fun v => rfl) (fun v hv => ⟨p, q', hc, hv⟩) (.inl rfl) (ht.2 0)
    · cases mem_singleton.1 hx
      exact typed_step (fun v => rfl) (fun v hv => ⟨q, p, hc, hv⟩) (.inl rfl) (ht.2 1)
  | select q q' =>
    rcases mem_cons.1 hx with hx | hx
    · cases hx
      exact typed_step (fun v => rfl) (fun v hv => ⟨p, q', hc, .inl ⟨hv, rfl⟩⟩) (.inr rfl)
        (ht.2.2 0)
    cases mem_singleton.1 hx
    exact typed_step (fun v => rfl) (fun v hv => ⟨q, p, hc, .inr ⟨hv, rfl⟩⟩) (.inr rfl)
      (ht.2.2 1)

/-- A promise that is settled in a history of typed messages has a value of its type. -/
theorem settleOf_typed {o : Outcome α} (hd : ∀ m ∈ d, m.Typed ty g)
    (h : settleOf p d = some o) : OutcomeTyped ty p o := by
  obtain ⟨m, hm, hs⟩ := exists_of_findSome?_eq_some h
  have hmt := hd m hm
  cases m with
  | apply q v =>
    rw [Msg.settles] at hs
    split at hs
    next hq =>
      obtain rfl := hq
      cases hs
      exact hmt
    next => cases hs
  | reject q =>
    rw [Msg.settles] at hs
    split at hs
    next =>
      cases hs
      trivial
    next => cases hs
  | attach | joinApply | fulfillA | fulfillB | selectApply =>
    cases hs

theorem mem_attachesIn : (p, s) ∈ attachesIn d ↔ Msg.attach p s ∈ d := by
  rw [attachesIn, mem_filterMap]
  refine ⟨?_, fun h => ⟨_, h, rfl⟩⟩
  rintro ⟨m, hm, hx⟩
  cases m with
  | attach q s' =>
    cases hx
    exact hm
  | apply | reject | joinApply | fulfillA | fulfillB | selectApply => cases hx

theorem mem_waitingAt (h : s ∈ waitingAt p d) : Msg.attach p s ∈ d := by
  rw [waitingAt] at h
  split at h
  next =>
    obtain ⟨x, hx, hs⟩ := mem_flatMap.1 h
    split at hs
    next hp =>
      obtain rfl := mem_singleton.1 hs
      subst hp
      exact mem_attachesIn.1 hx
    next => cases hs
  next => cases h

/-- A step was run when it is attached to a settled promise. -/
theorem History.mem_runs {o : Outcome α} (h : History ty g w d) :
    (p, s, o) ∈ w.runs ↔ Msg.attach p s ∈ d ∧ w.outcome p = some o := by
  rw [h.runs.mem_iff, ranIn, settledRuns, mem_flatMap, ← mem_attachesIn, World.outcome, h.value]
  constructor
  · rintro ⟨⟨q, t⟩, hx, hr⟩
    obtain ⟨o', ho, ⟨⟩⟩ := Option.map_eq_some_iff.1 (Option.mem_toList.1 hr)
    exact ⟨hx, ho⟩
  · rintro ⟨hx, ho⟩
    exact ⟨(p, s), hx, Option.mem_toList.2 (Option.map_eq_some_iff.2 ⟨o, ho, rfl⟩)⟩

/-- What a settled promise sends comes from the steps that were attached to it. -/
theorem History.mem_settle {o : Outcome α} (h : History ty g w d)
    (hm : m ∈ (w.withPromise p (Promise.settle o)).2) : ∃ s, Msg.attach p s ∈ d ∧ m ∈ s.run o := by
  obtain ⟨⟨s, o'⟩, hx, hm⟩ := mem_flatMap.1 hm
  split at hx
  next => cases hx
  next =>
    obtain ⟨s', hs', ⟨⟩⟩ := mem_map.1 hx
    rw [h.list] at hs'
    exact ⟨s, mem_waitingAt hs', hm⟩

/-- A step that is attached to a settled promise is run at once. -/
theorem History.mem_attach (h : History ty g w d)
    (hm : m ∈ (w.withPromise p (Promise.attach s)).2) : ∃ o, settleOf p d = some o ∧ m ∈ s.run o := by
  obtain ⟨⟨s', o⟩, hx, hm⟩ := mem_flatMap.1 hm
  split at hx
  next => cases hx
  next o' heq =>
    cases mem_singleton.1 hx
    rw [h.value] at heq
    exact ⟨o, heq, hm⟩

/-- What a settled promise runs is typed. -/
theorem History.settle_typed {o : Outcome α} (h : History ty g w d) (hd : ∀ m ∈ d, m.Typed ty g)
    (ho : OutcomeTyped ty p o) : ∀ m ∈ (w.withPromise p (Promise.settle o)).2, m.Typed ty g := by
  intro m hmem
  obtain ⟨s, hs, hm⟩ := h.mem_settle hmem
  exact (hd _ hs _ ho m hm).typed

theorem History.attach_typed (h : History ty g w d) (hd : ∀ m ∈ d, m.Typed ty g)
    (hs : (Msg.attach p s).Typed ty g) :
    ∀ m ∈ (w.withPromise p (Promise.attach s)).2, m.Typed ty g := by
  intro m hmem
  obtain ⟨o, ho, hm⟩ := h.mem_attach hmem
  exact (hs _ (settleOf_typed hd ho) m hm).typed

/-- What a helper does with a typed message. -/
theorem withHelper_typed (ht : ProgramTyped ty g) (hh : ∀ k, (w.helper k).Typed ty g k)
    (hm : m.Plain ty g) (hk : m.toHelper k = true) :
    (∀ j, ((w.withHelper k m).1.helper j).Typed ty g j) ∧
      ∀ m' ∈ (w.withHelper k m).2, m'.Typed ty g := by
  obtain ⟨hself, hout⟩ := (hh k).receive ht hm hk
  refine ⟨fun j => ?_, fun m' hm' => (hout m' hm').typed⟩
  rw [World.withHelper]
  by_cases hne : j = k
  · subst hne
    simpa only [update_self] using hself
  · simpa only [update_of_ne hne] using hh j

/-- **Every message is typed**, in every run of a typed program. -/
theorem reach_typed (ht : ProgramTyped ty g) (h : Reach (promises ty g) n) :
    ∀ m ∈ n.delivered, m.Typed ty g := by
  refine (Reach.induct (P := Msg.Typed ty g)
    (I := fun w d => History ty g w d ∧ ∀ k, (w.helper k).Typed ty g k)
    ⟨history_init, helperOf_typed⟩ ?_ ?_ h).2.2
  · rintro w w' ms d ⟨c, hc, rfl, rfl⟩ ⟨hI, hh⟩
    exact ⟨⟨⟨hI.value, hI.list, hI.runs, hI.helper, hI.sent⟩, hh⟩, Call.Typed.sends hc (ht _ c hc)⟩
  rintro w d m ⟨hI, hh⟩ hd hm
  cases m with
  | apply p v => exact ⟨⟨hI.handle _, hh⟩, hI.settle_typed hd hm⟩
  | reject p => exact ⟨⟨hI.handle _, hh⟩, hI.settle_typed hd trivial⟩
  | attach p s => exact ⟨⟨hI.handle _, hh⟩, hI.attach_typed hd hm⟩
  | joinApply k v =>
    obtain ⟨hh', hout⟩ :=
      withHelper_typed (m := .joinApply k v) ht hh hm (decide_eq_true rfl)
    exact ⟨⟨hI.handle _, hh'⟩, hout⟩
  | fulfillA k v =>
    obtain ⟨hh', hout⟩ :=
      withHelper_typed (m := .fulfillA k v) ht hh hm (decide_eq_true rfl)
    exact ⟨⟨hI.handle _, hh'⟩, hout⟩
  | fulfillB k v =>
    obtain ⟨hh', hout⟩ :=
      withHelper_typed (m := .fulfillB k v) ht hh hm (decide_eq_true rfl)
    exact ⟨⟨hI.handle _, hh'⟩, hout⟩
  | selectApply k v other =>
    obtain ⟨hh', hout⟩ :=
      withHelper_typed (m := .selectApply k v other) ht hh hm (decide_eq_true rfl)
    exact ⟨⟨hI.handle _, hh'⟩, hout⟩

end SpacePony.Promises
