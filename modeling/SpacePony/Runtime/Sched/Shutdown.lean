import SpacePony.Runtime.Sched.Quiescence

/-!
# Runtime — the order to terminate

The invariants of `Quiescence` for whole runs, and from them that the agreement to shut down is
sound (`shutdown_sound`).
-/

namespace SpacePony.Sched

open List QState
open Function (update update_self update_of_ne)

variable {S : Type} [Fintype S] [DecidableEq S]

/-! ### Blocking and unblocking -/

def Msg.toggle : Msg → Option Bool
  | .block => some true
  | .unblock => some false
  | _ => none

/-- What a queue says about its sender. -/
def toggles (l : List Msg) : List Bool := l.filterMap Msg.toggle

/-- From `x`, the list alternates, and ends at `y`. -/
def Alternates : Bool → List Bool → Bool → Prop
  | x, [], y => x = y
  | x, b :: l, y => b = !x ∧ Alternates b l y

def Event.isBlock : Event S → Bool
  | .block _ => true
  | _ => false

def Event.isUnblock : Event S → Bool
  | .unblock _ => true
  | _ => false

/-- The block count is the number of schedulers that were last seen to be blocked, and the number
of `BLOCK`s less that of `UNBLOCK`s; what is in flight goes on from there. -/
structure Blocks (z : S) (st : QState S) : Prop where
  seen : ∃ seen : S → Bool,
    (∀ i, Alternates (seen i) (toggles (st.chan (some i) (some z))) (st.blockSent i)) ∧
      st.zero.blockCount = ∑ i, ((seen i).toNat : Int)
  handled : st.zero.blockCount =
    (st.log.countP Event.isBlock : Int) - st.log.countP Event.isUnblock

variable {r : Coordinator × Sends}

section
variable {z : S} {st st' : QState S} {a b p q : Party S} {m : Msg} {rest : List Msg} {x y : Bool}
  {l : List Bool}

theorem Alternates.snoc (h : Alternates x l y) : Alternates x (l ++ [!y]) (!y) := by
  induction l generalizing x with
  | nil =>
    cases h
    exact ⟨rfl, rfl⟩
  | cons b l ih => exact ⟨h.1, ih h.2⟩

theorem toggles_append (l l' : List Msg) : toggles (l ++ l') = toggles l ++ toggles l' :=
  filterMap_append

theorem toggles_snoc {l : List Msg} (hm : m.toggle = none) : toggles (l ++ [m]) = toggles l := by
  have hone : toggles [m] = [] := by rw [toggles, filterMap_cons, hm, filterMap_nil]
  rw [toggles_append, hone, append_nil]

theorem toggles_cons {l : List Msg} (hm : m.toggle = none) : toggles (m :: l) = toggles l := by
  rw [toggles, filterMap_cons, hm, toggles]

section
omit [Fintype S]

theorem toggles_send (hm : m.toggle = none) :
    toggles ((st.send a b m).chan p q) = toggles (st.chan p q) := by
  simp only [send, setChan]
  split_ifs with h
  · rw [toggles_snoc hm, h.1, h.2]
  · rfl

theorem toggles_sendAll (hm : m.toggle = none) :
    toggles ((st.sendAll z m).chan p q) = toggles (st.chan p q) := by
  simp only [sendAll]
  split_ifs
  · rw [toggles_snoc hm]
  · rfl

theorem toggles_dequeue (head : st.chan a b = m :: rest) (hm : m.toggle = none) :
    toggles ((st.dequeue a b rest).chan p q) = toggles (st.chan p q) := by
  simp only [dequeue, setChan]
  split_ifs with h
  · rw [h.1, h.2, head, toggles_cons hm]
  · rfl

theorem toggles_become : toggles ((st.become z r).chan p q) = toggles (st.chan p q) := by
  obtain ⟨c, sends⟩ := r
  cases sends with
  | nothing => rfl
  | cnf | terminate => exact toggles_sendAll rfl

end

omit [DecidableEq S] in
/-- What is counted of blocks depends on these five readings of the state only. -/
theorem Blocks.congr (h : Blocks z st) (hsent : st'.blockSent = st.blockSent)
    (hchan : ∀ i, toggles (st'.chan (some i) (some z)) = toggles (st.chan (some i) (some z)))
    (hcount : st'.zero.blockCount = st.zero.blockCount)
    (hblock : st'.log.countP Event.isBlock = st.log.countP Event.isBlock)
    (hunblock : st'.log.countP Event.isUnblock = st.log.countP Event.isUnblock) : Blocks z st' := by
  obtain ⟨⟨seen, halt, hsum⟩, hhandled⟩ := h
  refine ⟨⟨seen, fun i => ?_, hcount.trans hsum⟩, ?_⟩
  · rw [hchan, hsent]
    exact halt i
  · rw [hcount, hblock, hunblock, hhandled]

omit [DecidableEq S] in
theorem Blocks.bounds (h : Blocks z st) :
    0 ≤ st.zero.blockCount ∧ st.zero.blockCount ≤ Fintype.card S := by
  obtain ⟨⟨seen, -, hsum⟩, -⟩ := h
  have hle : ∑ i, (seen i).toNat ≤ ∑ _i : S, 1 := Finset.sum_le_sum fun i _ => Bool.toNat_le _
  rw [Finset.sum_const, Finset.card_univ, smul_eq_mul, Nat.mul_one] at hle
  rw [hsum, ← Nat.cast_sum]
  omega

/-- A scheduler sends that it blocks or unblocks. -/
theorem Blocks.send (h : Blocks z st) {i : S} (hm : m.toggle = some !st.blockSent i) :
    Blocks z { st.send (some i) (some z) m with
      blockSent := update st.blockSent i !st.blockSent i } := by
  obtain ⟨⟨seen, halt, hsum⟩, hhandled⟩ := h
  refine ⟨⟨seen, fun j => ?_, hsum⟩, hhandled⟩
  simp only [QState.send, setChan]
  by_cases hj : j = i
  · subst hj
    have hone : toggles [m] = [!st.blockSent j] := by
      rw [toggles, filterMap_cons, hm, filterMap_nil]
    rw [if_pos (by simp), update_self, toggles_append, hone]
    exact (halt j).snoc
  · rw [if_neg fun h => hj (Option.some.inj h.1), update_of_ne hj]
    exact halt j

/-- Scheduler 0 handles that a scheduler blocks or unblocks. -/
theorem Blocks.handle (h : Blocks z st) {i : S} (head : st.chan (some i) (some z) = m :: rest)
    (hm : m.toggle = some x) (hsent : st'.blockSent = st.blockSent)
    (hchan : ∀ j, toggles (st'.chan (some j) (some z)) =
      toggles ((st.dequeue (some i) (some z) rest).chan (some j) (some z)))
    (hcount : st'.zero.blockCount = st.zero.blockCount + if x then 1 else -1)
    (hblock : st'.log.countP Event.isBlock = st.log.countP Event.isBlock + if x then 1 else 0)
    (hunblock : st'.log.countP Event.isUnblock =
      st.log.countP Event.isUnblock + if x then 0 else 1) : Blocks z st' := by
  obtain ⟨⟨seen, halt, hsum⟩, hhandled⟩ := h
  have hi := halt i
  rw [head, toggles, filterMap_cons, hm] at hi
  obtain ⟨hx, hi⟩ := hi
  refine ⟨⟨update seen i x, fun j => ?_, ?_⟩, ?_⟩
  · rw [hchan, hsent]
    simp only [dequeue, setChan]
    by_cases hj : j = i
    · subst hj
      rw [if_pos (by simp), update_self]
      exact hi
    · rw [if_neg fun h => hj (Option.some.inj h.1), update_of_ne hj]
      exact halt j
  · have hsum' : ∑ j, ((update seen i x j).toNat : Int) + (seen i).toNat =
        ∑ j, ((seen j).toNat : Int) + x.toNat := by
      have hrest : ∀ j ∈ Finset.univ.erase i,
          ((update seen i x j).toNat : Int) = (seen j).toNat := fun j hj => by
        rw [update_of_ne (Finset.ne_of_mem_erase hj)]
      rw [← Finset.add_sum_erase _ _ (Finset.mem_univ i),
        ← Finset.add_sum_erase _ (fun j => ((seen j).toNat : Int)) (Finset.mem_univ i),
        Finset.sum_congr rfl hrest, update_self]
      omega
    rw [hcount, hsum]
    cases hs : seen i <;> rw [hs] at hx hsum' <;> subst hx <;> simp at hsum' ⊢ <;> omega
  · rw [hcount, hblock, hunblock, hhandled]
    cases x <;> simp <;> omega

end

/-! ### Two rounds -/

/-- No `BLOCK` or `UNBLOCK` is handled, and no round starts. -/
def Quiet (l : List (Event S)) : Prop :=
  ∀ e ∈ l, Event.isBlock e = false ∧ Event.isUnblock e = false ∧ ∀ t, e ≠ .cnf t

/-- Every party answers once, and every answer is counted. -/
def Complete (t : Nat) (l : List (Event S)) : Prop :=
  ∀ p, l.count (.ack p t) = 1 ∧ l.count (.counted p t) = 1

/-- Nothing has the token. -/
def Clear (t : Nat) (l : List (Event S)) : Prop := ∀ e, e.token = some t → l.count e = 0

/-- Two complete rounds in a row. -/
def Twice (l : List (Event S)) : Prop :=
  ∃ a b c t, l = a ++ .cnf t :: b ++ .cnf (t + 1) :: c ∧ Quiet b ∧ Quiet c ∧ Complete t b ∧
    Complete (t + 1) c

/-- Since the last `CNF` the history is quiet; when ASIO was found stoppable, this is the second
round; and an order to terminate came after two. -/
structure Confirmed (st : QState S) : Prop where
  one : 0 < st.log.count (.cnf st.zero.ackToken) →
    ∃ a b, st.log = a ++ .cnf st.zero.ackToken :: b ∧ Clear st.zero.ackToken a ∧ Quiet b
  two : st.zero.asioStoppable = true → 0 < st.log.count (.cnf st.zero.ackToken) →
    ∃ a b c t, st.log = a ++ .cnf t :: b ++ .cnf st.zero.ackToken :: c ∧
      t + 1 = st.zero.ackToken ∧ Quiet b ∧ Quiet c ∧ Complete t b ∧
      Clear st.zero.ackToken (a ++ .cnf t :: b)
  done : ∀ pre post, st.log = pre ++ .terminate :: post → Twice pre

section
variable {z : S} {st st' : QState S} {e : Event S} {l : List (Event S)} {t : Nat}

section
omit [Fintype S]

omit [DecidableEq S] in
theorem Quiet.snoc (h : Quiet l) (hb : e.isBlock = false) (hu : e.isUnblock = false)
    (hc : ∀ t, e ≠ .cnf t) : Quiet (l ++ [e]) := by
  intro e' he'
  rcases mem_append.1 he' with he' | he'
  · exact h e' he'
  rw [mem_singleton] at he'
  subst he'
  exact ⟨hb, hu, hc⟩

omit [DecidableEq S] in
theorem quiet_nil : Quiet ([] : List (Event S)) := nofun

/-- An event that is no order to terminate. -/
theorem done_snoc (h : ∀ pre post, l = pre ++ .terminate :: post → Twice pre)
    (he : e ≠ .terminate) : ∀ pre post, l ++ [e] = pre ++ .terminate :: post → Twice pre := by
  intro pre post heq
  rcases eq_nil_or_concat' post with rfl | ⟨post, e', rfl⟩
  · obtain ⟨-, h'⟩ := append_inj' heq rfl
    exact absurd (head_eq_of_cons_eq h') he
  · rw [← cons_append, ← append_assoc] at heq
    exact h pre post (append_inj' heq rfl).1

/-- An event in a round. -/
theorem Confirmed.record (h : Confirmed st) (hb : e.isBlock = false) (hu : e.isUnblock = false)
    (hc : ∀ t, e ≠ .cnf t) (ht : e ≠ .terminate) (hlog : st'.log = st.log ++ [e])
    (htoken : st'.zero.ackToken = st.zero.ackToken)
    (hstop : st'.zero.asioStoppable = st.zero.asioStoppable) : Confirmed st' := by
  have hcount : st'.log.count (.cnf st.zero.ackToken) = st.log.count (.cnf st.zero.ackToken) := by
    rw [hlog, count_append, count_singleton, if_neg (by simpa using hc _), Nat.add_zero]
  refine ⟨fun hpos => ?_, fun hs hpos => ?_, ?_⟩
  · rw [htoken, hcount] at hpos
    obtain ⟨a, b, hl, hclear, hq⟩ := h.one hpos
    rw [htoken]
    exact ⟨a, b ++ [e], by rw [hlog, hl, append_assoc, cons_append], hclear, hq.snoc hb hu hc⟩
  · rw [htoken, hcount] at hpos
    obtain ⟨a, b, c, t, hl, hsucc, hqb, hqc, hcomp, hclear⟩ := h.two (hstop ▸ hs) hpos
    rw [htoken]
    exact ⟨a, b, c ++ [e], t, by rw [hlog, hl, append_assoc _ _ [e], cons_append], hsucc,
      hqb, hqc.snoc hb hu hc, hcomp, hclear⟩
  · rw [hlog]
    exact done_snoc h.done ht

theorem Confirmed.congr (h : Confirmed st) (hlog : st'.log = st.log)
    (hzero : st'.zero = st.zero) : Confirmed st' := by
  constructor
  · rw [hlog, hzero]
    exact h.one
  · rw [hlog, hzero]
    exact h.two
  · rw [hlog]
    exact h.done

end

/-- The next token, with no round. -/
theorem Confirmed.next (h : Rounds z st) (htoken : st'.zero.ackToken = st.zero.ackToken + 1)
    (hlog : st'.log.count (.cnf st'.zero.ackToken) = st.log.count (.cnf st'.zero.ackToken))
    (hdone : ∀ pre post, st'.log = pre ++ .terminate :: post → Twice pre) : Confirmed st' := by
  have h0 : st'.log.count (.cnf st'.zero.ackToken) = 0 := by
    rw [hlog]
    exact h.events _ _ rfl (by omega)
  refine ⟨fun hpos => ?_, fun _ hpos => ?_, hdone⟩
  · omega
  · omega

/-- The next token, with a round that follows a change of the block count. -/
theorem Confirmed.ask (h : Rounds z st) (htoken : st'.zero.ackToken = st.zero.ackToken + 1)
    (hlog : st'.log = st.log ++ [.cnf st'.zero.ackToken]) (hstop : st'.zero.asioStoppable = false)
    (hdone : ∀ pre post, st.log = pre ++ .terminate :: post → Twice pre) : Confirmed st' := by
  refine ⟨fun _ => ?_, fun hs => ?_, ?_⟩
  · exact ⟨st.log, [], hlog, fun e he => h.events e _ he (by omega), quiet_nil⟩
  · rw [hstop] at hs
    cases hs
  · rw [hlog]
    exact done_snoc hdone nofun

/-- What a complete round has counted is in the history after its `CNF`. -/
theorem Rounds.complete_after (h : Rounds z st) (h0 : st.zero.ackCount = 0) {a b : List (Event S)}
    (hlog : st.log = a ++ .cnf st.zero.ackToken :: b) (hclear : Clear st.zero.ackToken a) :
    Complete st.zero.ackToken b := by
  intro p
  have hafter : ∀ e, e.token = some st.zero.ackToken → e ≠ .cnf st.zero.ackToken →
      st.log.count e = b.count e := by
    intro e he hne
    rw [hlog, count_append, hclear e he, Nat.zero_add, count_cons_of_ne hne.symm]
  obtain ⟨hack, hcounted⟩ := (h.complete h0).2 p
  rw [hafter _ rfl (by simp)] at hack hcounted
  exact ⟨hack, hcounted⟩

end

/-! ### Whole runs -/

/-- All the invariants. -/
structure QInv (z : S) (st : QState S) : Prop where
  placed : AllPlaced z st
  rounds : Rounds z st
  blocks : Blocks z st
  confirmed : Confirmed st

section
variable {z : S} {st st' : QState S} {a b : Party S} {m : Msg} {rest : List Msg} {t : Nat}

theorem handleSchedBlock_spec (n : Nat) (env : Env) (c : Coordinator) :
    (handleSchedBlock n env c).1.blockCount = c.blockCount + 1 ∧
      (handleSchedBlock n env c).1.asioStoppable = false ∧
      (handleSchedBlock n env c).2 ≠ .terminate := by
  rw [handleSchedBlock]
  split_ifs
  · exact ⟨rfl, rfl, (by rintro ⟨⟩)⟩
  · exact ⟨rfl, rfl, (by rintro ⟨⟩)⟩

section
omit [Fintype S]

/-- Only orders of scheduler 0 are recorded when it moves on. -/
theorem countP_become (f : Event S → Bool) (hc : ∀ t, f (.cnf t) = false)
    (ht : f .terminate = false) : (st.become z r).log.countP f = st.log.countP f := by
  obtain ⟨c, sends⟩ := r
  cases sends with
  | nothing => rfl
  | cnf => simp [become, record, sendAll, countP_append, hc]
  | terminate => simp [become, record, sendAll, countP_append, ht]

theorem AllPlaced.dequeue (h : AllPlaced z st) (head : st.chan a b = m :: rest) :
    AllPlaced z (st.dequeue a b rest) := by
  intro p q x hx
  simp only [QState.dequeue, setChan] at hx
  split_ifs at hx with hp
  · obtain ⟨rfl, rfl⟩ := hp
    exact h p q x (head ▸ .tail _ hx)
  · exact h p q x hx

theorem AllPlaced.send (h : AllPlaced z st) (hm : m.Placed z a b) : AllPlaced z (st.send a b m) := by
  intro p q x hx
  simp only [QState.send, setChan] at hx
  split_ifs at hx with hp
  · obtain ⟨rfl, rfl⟩ := hp
    rcases mem_append.1 hx with hx | hx
    · exact h p q x hx
    · rw [mem_singleton] at hx
      rwa [hx]
  · exact h p q x hx

omit [DecidableEq S] in
theorem AllPlaced.record (h : AllPlaced z st) (e : Event S) : AllPlaced z (st.record e) := h

theorem AllPlaced.sendAll (h : AllPlaced z st) (hm : ∀ q, m.Placed z (some z) q) :
    AllPlaced z (st.sendAll z m) := by
  intro p q x hx
  simp only [QState.sendAll] at hx
  split_ifs at hx with hp
  · rcases mem_append.1 hx with hx | hx
    · exact h p q x hx
    rw [mem_singleton] at hx
    rw [hx, hp]
    exact hm q
  · exact h p q x hx

theorem AllPlaced.become (h : AllPlaced z st) : AllPlaced z (st.become z r) := by
  obtain ⟨c, sends⟩ := r
  cases sends with
  | nothing => exact h
  | cnf | terminate =>
    have h' : AllPlaced z { st with zero := c } := h
    exact h'.sendAll fun _ => rfl

end

theorem qInv_init : QInv z (QState.init S) := by
  refine ⟨nofun, ⟨fun _ _ _ _ _ _ => rfl, fun _ _ _ _ => rfl, fun _ => rfl, fun _ => le_refl _,
    Nat.zero_le _, ?_⟩, ⟨⟨fun _ => false, fun _ => rfl, ?_⟩, rfl⟩, ⟨nofun, nofun, ?_⟩⟩
  · simp [QState.init]
  · simp [QState.init]
  · intro pre post h
    cases pre <;> cases h

section
variable (h : QInv z st)
include h

/-- Scheduler 0 handles a `BLOCK`. -/
theorem QInv.handleBlock {env : Env} {i : S} (head : st.chan (some i) (some z) = .block :: rest) :
    QInv z (((st.dequeue (some i) (some z) rest).record (.block (some i))).become z
      (handleSchedBlock (Fintype.card S) env st.zero)) := by
  obtain ⟨hcount, hstop, hnot⟩ := handleSchedBlock_spec (Fintype.card S) env st.zero
  have hadv := handleSchedBlock_advances (Fintype.card S) env st.zero
  have hrounds : Rounds z ((st.dequeue (some i) (some z) rest).record (.block (some i))) :=
    (h.rounds.drop head nofun).congr (sameRounds_record rfl)
  have hdone := done_snoc (e := .block (some i)) h.confirmed.done nofun
  refine ⟨((h.placed.dequeue head).record _).become, hrounds.become hadv,
    h.blocks.handle head rfl become_blockSent (fun j => toggles_become) ?_ ?_ ?_, ?_⟩
  · rw [become_zero, hcount]
    rfl
  · rw [countP_become _ (fun _ => rfl) rfl]
    simp [QState.record, QState.dequeue, countP_append, Event.isBlock]
  · rw [countP_become _ (fun _ => rfl) rfl]
    simp [QState.record, QState.dequeue, countP_append, Event.isUnblock]
  generalize handleSchedBlock (Fintype.card S) env st.zero = r at hstop hnot hadv
  obtain ⟨c, sends⟩ := r
  cases sends with
  | nothing => exact .next hrounds hadv.token rfl hdone
  | cnf => exact .ask hrounds hadv.token rfl hstop hdone
  | terminate => exact absurd rfl hnot

/-- Scheduler 0 handles an `UNBLOCK`. -/
theorem QInv.handleUnblock {i : S} (head : st.chan (some i) (some z) = .unblock :: rest) :
    QInv z { (st.dequeue (some i) (some z) rest).record (.unblock (some i)) with
      zero := handleSchedUnblock (Fintype.card S) st.zero } := by
  have hrounds : Rounds z ((st.dequeue (some i) (some z) rest).record (.unblock (some i))) :=
    (h.rounds.drop head nofun).congr (sameRounds_record rfl)
  have hdone := done_snoc (e := .unblock (some i)) h.confirmed.done nofun
  refine ⟨h.placed.dequeue head, hrounds.next rfl rfl rfl rfl,
    h.blocks.handle head rfl rfl (fun j => rfl) rfl ?_ ?_, .next hrounds rfl rfl hdone⟩
  · simp [QState.record, QState.dequeue, countP_append, Event.isBlock]
  · simp [QState.record, QState.dequeue, countP_append, Event.isUnblock]

/-- A message that says nothing about blocking leaves its queue. -/
theorem QInv.drop (head : st.chan a b = m :: rest) (hm : m.toggle = none)
    (hack : m ≠ .ack st.zero.ackToken) : QInv z (st.dequeue a b rest) :=
  ⟨h.placed.dequeue head, h.rounds.drop head hack,
    h.blocks.congr rfl (fun _ => toggles_dequeue head hm) rfl rfl rfl, h.confirmed.congr rfl rfl⟩

/-- A party answers a `CNF`. -/
theorem QInv.answer (head : st.chan a b = .cnf t :: rest) :
    QInv z (((st.dequeue a b rest).send b (some z) (.ack t)).record (.ack b t)) := by
  obtain rfl : a = some z := h.placed a b (.cnf t) (by rw [head]; exact .head _)
  have ht : t ≤ st.zero.ackToken := by
    by_contra hlt
    have h0 := h.rounds.msgs (some z) b (.cnf t) t rfl (by omega)
    rw [head, count_cons_self] at h0
    omega
  have hack : (Msg.ack t).Placed z b (some z) := rfl
  refine ⟨((h.placed.dequeue head).send hack).record _,
    h.rounds.answer (b := b) rfl ht (fun p q x => ?_) fun e => ?_, ?_, ?_⟩
  · have hd := count_dequeue head (p := p) (q := q) (x := x)
    have hs : (((st.dequeue (some z) b rest).send b (some z) (.ack t)).chan p q).count x =
        ((st.dequeue (some z) b rest).chan p q).count x +
          if p = b ∧ q = some z ∧ .ack t = x then 1 else 0 := count_send
    simp only [eq_comm (a := x)]
    exact (congrArg (· + _) hs).trans (by omega)
  · refine count_record.trans ?_
    simp only [eq_comm (a := e)]
    rfl
  · refine h.blocks.congr rfl (fun i => ?_) rfl ?_ ?_
    · exact (toggles_send rfl).trans (toggles_dequeue head rfl)
    · simp [QState.record, QState.send, QState.dequeue, countP_append, Event.isBlock]
    · simp [QState.record, QState.send, QState.dequeue, countP_append, Event.isUnblock]
  · exact h.confirmed.record (e := .ack b t) rfl rfl (by simp) (by simp) rfl rfl rfl

/-- Scheduler 0 counts an `ACK`. -/
theorem QInv.count (head : st.chan a (some z) = .ack st.zero.ackToken :: rest) :
    QInv z { (st.dequeue a (some z) rest).record (.counted a st.zero.ackToken) with
      zero := { st.zero with ackCount := st.zero.ackCount - 1 } } := by
  refine ⟨h.placed.dequeue head, h.rounds.count (a := a) rfl rfl (fun p q x => ?_)
    (fun e => ?_), ?_, ?_⟩
  · have hd := count_dequeue head (p := p) (q := q) (x := x)
    simp only [eq_comm (a := x)]
    exact hd
  · refine count_record.trans ?_
    simp only [eq_comm (a := e)]
    rfl
  · refine h.blocks.congr rfl (fun i => toggles_dequeue head rfl) rfl ?_ ?_
    · simp [QState.record, QState.dequeue, countP_append, Event.isBlock]
    · simp [QState.record, QState.dequeue, countP_append, Event.isUnblock]
  · exact h.confirmed.record (e := .counted a _) rfl rfl (by simp) (by simp) rfl rfl rfl

/-- Scheduler 0 looks whether it can shut down. -/
theorem QInv.quiescent (env : Env) :
    QInv z (st.become z (quiescent (Fintype.card S) env st.zero)) := by
  rcases quiescent_cases (Fintype.card S) env st.zero with he | ⟨h0, hadv, hblock, hcases⟩
  · rw [he]
    exact h
  refine ⟨h.placed.become, h.rounds.become hadv,
    h.blocks.congr become_blockSent (fun _ => toggles_become) (by rw [become_zero, hblock])
      (countP_become _ (fun _ => rfl) rfl) (countP_become _ (fun _ => rfl) rfl), ?_⟩
  have hpos : 0 < st.log.count (.cnf st.zero.ackToken) := by
    rw [(h.rounds.complete h0).1]
    exact Nat.one_pos
  generalize Sched.quiescent (Fintype.card S) env st.zero = r at hadv hcases
  obtain ⟨c, sends⟩ := r
  rcases hcases with ⟨rfl, hs⟩ | rfl | ⟨rfl, -⟩
  · -- the end of a second round
    obtain ⟨a, b, c', t, hl, hsucc, hqb, hqc, hcomp, hclear⟩ := h.confirmed.two hs hpos
    have htwice : Twice st.log := by
      have hcomp' := h.rounds.complete_after h0 hl hclear
      rw [← hsucc] at hl hcomp'
      exact ⟨a, b, c', t, hl, hqb, hqc, hcomp, hcomp'⟩
    refine .next h.rounds hadv.token ?_ fun pre post heq => ?_
    · simp [become, QState.record, QState.sendAll, count_append]
    rcases eq_nil_or_concat' post with rfl | ⟨post, e, rfl⟩
    · have hpre : st.log = pre := (append_inj' heq rfl).1
      exact hpre ▸ htwice
    · rw [← cons_append, ← append_assoc] at heq
      exact h.confirmed.done pre post (append_inj' heq rfl).1
  · -- another round, which follows a complete one
    obtain ⟨a, b, hl, hclear, hq⟩ := h.confirmed.one hpos
    have hfresh : Clear c.ackToken st.log := fun e he =>
      h.rounds.events e _ he (by rw [hadv.token]; omega)
    refine ⟨fun _ => ⟨st.log, [], rfl, hfresh, quiet_nil⟩, fun _ _ => ?_, done_snoc
      h.confirmed.done (by rintro ⟨⟩)⟩
    refine ⟨a, b, [], st.zero.ackToken, ?_, hadv.token.symm, hq, quiet_nil,
      h.rounds.complete_after h0 hl hclear, hl ▸ hfresh⟩
    rw [← hl]
    rfl
  · exact .next h.rounds hadv.token rfl h.confirmed.done

theorem QInv.step (hs : QStep z st st') : QInv z st' := by
  cases hs with
  | @block i hi =>
    have hb := h.blocks.send (i := i) (m := .block) (by rw [hi]; rfl)
    rw [hi] at hb
    exact ⟨h.placed.send ⟨⟨i, rfl⟩, rfl⟩, h.rounds.congr ⟨rfl, rfl, (sameRounds_send rfl).chan,
      fun _ _ _ => rfl⟩, hb, h.confirmed.congr rfl rfl⟩
  | @unblock i hi =>
    have hb := h.blocks.send (i := i) (m := .unblock) (by rw [hi]; rfl)
    rw [hi] at hb
    exact ⟨h.placed.send ⟨⟨i, rfl⟩, rfl⟩, h.rounds.congr ⟨rfl, rfl, (sameRounds_send rfl).chan,
      fun _ _ _ => rfl⟩, hb, h.confirmed.congr rfl rfl⟩
  | quiescent _ => exact h.quiescent _
  | @read _ env a b hasActor m rest head e =>
    have hplaced := h.placed a b m (by rw [head]; exact .head _)
    cases m with
    | block =>
      obtain ⟨⟨i, rfl⟩, rfl⟩ := hplaced
      rw [readMsg, if_pos rfl] at e
      cases e
      exact h.handleBlock head
    | unblock =>
      obtain ⟨⟨i, rfl⟩, rfl⟩ := hplaced
      rw [readMsg, if_pos rfl] at e
      cases e
      exact h.handleUnblock head
    | cnf t =>
      rw [readMsg] at e
      cases e
      cases hasActor with
      | true => exact h.drop head rfl nofun
      | false => exact h.answer head
    | ack t =>
      obtain rfl := hplaced
      rw [readMsg, if_pos rfl] at e
      cases e
      split_ifs with ht
      · obtain rfl := ht
        exact h.count head
      · exact h.drop head rfl fun heq => ht (Msg.ack.inj heq)
    | terminate =>
      cases e
      have hd := h.drop head rfl nofun
      exact ⟨hd.placed, hd.rounds.congr ⟨rfl, rfl, fun _ _ _ _ _ => rfl, fun _ _ _ => rfl⟩,
        hd.blocks.congr rfl (fun _ => rfl) rfl rfl rfl, hd.confirmed.congr rfl rfl⟩

end

theorem QReach.inv (r : QReach z st) : QInv z st := by
  induction r with
  | start => exact qInv_init
  | step _ hs ih => exact ih.step hs

/-- **The agreement to shut down is sound.**  In every run: the block count is the number of
`BLOCK`s less that of `UNBLOCK`s that were handled, and between 0 and the number of schedulers;
`ack_count` is 0 only when every party has answered the current token once; an `ACK` for another
token does not count, and one that counts finds `ack_count` above 0; and the order to terminate is
given only after two complete rounds in a row. -/
theorem shutdown_sound (r : QReach z st) :
    (st.zero.blockCount = (st.log.countP Event.isBlock : Int) - st.log.countP Event.isUnblock ∧
      0 ≤ st.zero.blockCount ∧ st.zero.blockCount ≤ Fintype.card S) ∧
    (st.zero.ackCount = 0 → ∀ p, st.log.count (.ack p st.zero.ackToken) = 1) ∧
    0 ≤ st.zero.ackCount ∧
    (∀ p t rest, st.chan p (some z) = .ack t :: rest →
      t ≤ st.zero.ackToken ∧ (t = st.zero.ackToken → 0 < st.zero.ackCount) ∧
      ∀ env hasActor st', readMsg z (st.dequeue p (some z) rest) env p (some z) hasActor (.ack t) =
        some st' → t < st.zero.ackToken → st'.zero.ackCount = st.zero.ackCount) ∧
    ∀ pre post, st.log = pre ++ .terminate :: post → Twice pre := by
  have I := r.inv
  refine ⟨⟨I.blocks.handled, I.blocks.bounds⟩, fun h0 p => ((I.rounds.complete h0).2 p).1,
    (I.rounds.ackCount_nonneg (p := none)).1, fun p t rest head => ⟨?_, ?_, ?_⟩, I.confirmed.done⟩
  · by_contra hlt
    have h0 := I.rounds.msgs p (some z) (.ack t) t rfl (by omega)
    rw [head, count_cons_self] at h0
    omega
  · rintro rfl
    refine (I.rounds.ackCount_nonneg (p := p)).2 ?_
    rw [head, count_cons_self]
    exact Nat.succ_pos _
  intro env hasActor st' e hlt
  have hne : t ≠ (st.dequeue p (some z) rest).zero.ackToken := Nat.ne_of_lt hlt
  rw [readMsg, if_pos rfl, if_neg hne] at e
  cases e
  rfl

end

/-- One scheduler, which is scheduler 0, blocks; it and the pinned actor thread confirm twice, and the
order to terminate is given. -/
theorem shutdown_sound_two_rounds :
    ∃ st : QState Unit, QReach () st ∧ st.zero.blockCount = 1 ∧ st.zero.ackToken = 3 ∧
      st.zero.blockCount = (st.log.countP Event.isBlock : Int) - st.log.countP Event.isUnblock ∧
      ∃ pre, st.log = pre ++ [.terminate] ∧ Twice pre := by
  let env : Env := ⟨false, true, true, true, true⟩
  have hcnf : ∀ {st} (t : Nat) {rest} (a b : Party Unit), QReach () st →
      st.chan a b = .cnf t :: rest →
      QReach () (((st.dequeue a b rest).send b (some ()) (.ack t)).record (.ack b t)) :=
    fun t _ a b r h => r.step (@QStep.read Unit _ _ () _ _ env a b false (.cnf t) _ h rfl)
  have hack : ∀ {st} (t : Nat) {rest} (a : Party Unit), QReach () st →
      st.chan a (some ()) = .ack t :: rest → t = st.zero.ackToken →
      QReach () { (st.dequeue a (some ()) rest).record (.counted a t) with
        zero := { st.zero with ackCount := st.zero.ackCount - 1 } } :=
    fun t _ a r h ht => r.step
      (@QStep.read Unit _ _ () _ _ env a (some ()) false (.ack t) _ h (congrArg some (if_pos ht)))
  have r₁ := QReach.start.step (@QStep.block Unit _ _ () _ () rfl)
  have r₂ := r₁.step (@QStep.read Unit _ _ () _ _ env (some ()) (some ()) false .block [] rfl rfl)
  have r₃ := hcnf 1 (some ()) (some ()) r₂ rfl
  have r₄ := hcnf 1 (some ()) none r₃ rfl
  have r₅ := hack 1 (some ()) r₄ rfl rfl
  have r₆ := hack 1 none r₅ rfl rfl
  have r₇ := r₆.step (@QStep.quiescent Unit _ _ () _ env rfl)
  have r₈ := hcnf 2 (some ()) (some ()) r₇ rfl
  have r₉ := hcnf 2 (some ()) none r₈ rfl
  have r₁₀ := hack 2 (some ()) r₉ rfl rfl
  have r₁₁ := hack 2 none r₁₀ rfl rfl
  have r := r₁₁.step (@QStep.quiescent Unit _ _ () _ env rfl)
  exact ⟨_, r, rfl, rfl, (shutdown_sound r).1.1, _, rfl, (shutdown_sound r).2.2.2.2 _ [] rfl⟩

end SpacePony.Sched
