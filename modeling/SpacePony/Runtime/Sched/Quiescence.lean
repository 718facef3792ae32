import Mathlib.Algebra.BigOperators.Ring.Finset
import Mathlib.Algebra.Group.Action.Defs
import Mathlib.Algebra.BigOperators.Group.Finset.Piecewise
import Mathlib.Algebra.Order.BigOperators.Group.Finset
import Mathlib.Data.Fintype.Card
import Mathlib.Data.Fintype.Option

/-!
# Runtime — the agreement of the schedulers to shut down

Every scheduler tells scheduler 0 when it blocks and unblocks.  When all are blocked, scheduler 0
sends `CNF(token)` to every scheduler and to the pinned actor thread, and waits for an
`ACK(token)` from each; a change of the block count, or the end of a round, moves to the next
token.  After two rounds it tells everyone to terminate.

* `QReach.rounds`, `QReach.blocks`, `QReach.confirmed`: the invariants, which `QStep` keeps.
-/

namespace SpacePony.Sched

open Nat Finset List

/-- The messages of the agreement. -/
inductive Msg where
  | block | unblock | cnf (token : Nat) | ack (token : Nat) | terminate
  deriving DecidableEq

/-- The schedulers, and the pinned actor thread. -/
abbrev Party (S : Type) := Option S

/-- What a history records: messages that scheduler 0 handles, rounds that it starts, the answers
of the parties, and the order to terminate. -/
inductive Event (S : Type) where
  | block (i : Party S) | unblock (i : Party S)
  | cnf (token : Nat)
  /-- A party handles `CNF(token)` with no actor to run. -/
  | ack (p : Party S) (token : Nat)
  /-- Scheduler 0 handles an `ACK(token)` for its current token. -/
  | counted (p : Party S) (token : Nat)
  | terminate
  deriving DecidableEq

/-- The fields of scheduler 0 that the agreement uses. -/
structure Coordinator where
  blockCount : Int
  ackToken : Nat
  ackCount : Int
  asioStoppable : Bool

/-- What else scheduler 0 looks at. -/
structure Env where
  asioNoisy : Bool
  detectQuiescence : Bool
  muteMapEmpty : Bool
  /-- The result of `ponyint_asio_stop`. -/
  asioStop : Bool
  /-- The result of `ponyint_asio_stoppable`. -/
  asioStoppable : Bool

/-- What scheduler 0 sends to everyone. -/
inductive Sends where
  | nothing | cnf | terminate
  deriving DecidableEq

/-- `handle_sched_block`. -/
def handleSchedBlock (schedulerCount : Nat) (env : Env) (c : Coordinator) : Coordinator × Sends :=
  let c := { blockCount := c.blockCount + 1, ackToken := c.ackToken + 1, asioStoppable := false,
             ackCount := schedulerCount : Coordinator }
  if !env.asioNoisy ∧ env.detectQuiescence ∧ env.muteMapEmpty ∧ c.blockCount = schedulerCount then
    ({ c with ackCount := schedulerCount + 1 }, .cnf)
  else (c, .nothing)

/-- `handle_sched_unblock`. -/
def handleSchedUnblock (schedulerCount : Nat) (c : Coordinator) : Coordinator :=
  { blockCount := c.blockCount - 1, ackToken := c.ackToken + 1, asioStoppable := false,
    ackCount := schedulerCount }

/-- `quiescent`, on scheduler 0 before it terminates. -/
def quiescent (schedulerCount : Nat) (env : Env) (c : Coordinator) : Coordinator × Sends :=
  if !env.asioNoisy ∧ env.muteMapEmpty ∧ c.ackCount = 0 then
    if c.asioStoppable ∧ env.asioStop then
      ({ c with ackToken := c.ackToken + 1, ackCount := schedulerCount }, .terminate)
    else if env.asioStoppable then
      ({ c with asioStoppable := true, ackToken := c.ackToken + 1,
                ackCount := schedulerCount + 1 }, .cnf)
    else
      ({ c with ackToken := c.ackToken + 1, asioStoppable := false, ackCount := schedulerCount },
        .nothing)
  else (c, .nothing)

variable {S : Type} [Fintype S] [DecidableEq S]

/-- Scheduler 0, the messages in flight from each sender to each receiver, and the history. -/
structure QState (S : Type) where
  zero : Coordinator
  chan : Party S → Party S → List Msg := fun _ _ => []
  /-- `block_sent`, of each scheduler. -/
  blockSent : S → Bool := fun _ => false
  /-- `sched->terminate`. -/
  terminate : Party S → Bool := fun _ => false
  log : List (Event S) := []

/-- `ponyint_sched_init`. -/
def QState.init (S : Type) [Fintype S] : QState S :=
  { zero := { blockCount := 0, ackToken := 0, ackCount := Fintype.card S, asioStoppable := false } }

namespace QState

variable (z : S)

/-- The queue from `a` to `b` becomes `l`. -/
def setChan (c : Party S → Party S → List Msg) (a b : Party S) (l : List Msg) :
    Party S → Party S → List Msg :=
  fun x y => if x = a ∧ y = b then l else c x y

/-- The first message from `a` to `b` leaves its queue. -/
def dequeue (st : QState S) (a b : Party S) (rest : List Msg) : QState S :=
  { st with chan := setChan st.chan a b rest }

/-- `send_msg`. -/
def send (st : QState S) (a b : Party S) (m : Msg) : QState S :=
  { st with chan := setChan st.chan a b (st.chan a b ++ [m]) }

/-- `send_msg_all` and `send_msg_pinned_actor_thread`, from scheduler 0. -/
def sendAll (st : QState S) (m : Msg) : QState S :=
  { st with chan := fun x y => if x = some z then st.chan x y ++ [m] else st.chan x y }

def record (st : QState S) (e : Event S) : QState S := { st with log := st.log ++ [e] }

/-- Scheduler 0 moves on to `r.1`, and sends what `r.2` says. -/
def become (st : QState S) (r : Coordinator × Sends) : QState S :=
  let st := { st with zero := r.1 }
  match r.2 with
  | .nothing => st
  | .cnf => (st.sendAll z (.cnf r.1.ackToken)).record (.cnf r.1.ackToken)
  | .terminate => (st.sendAll z .terminate).record .terminate

/-- One round of `read_msg`, by `b` for a message from `a`.  There is no result when an assertion
fails. -/
def readMsg (st : QState S) (env : Env) (a b : Party S) (hasActor : Bool) : Msg → Option (QState S)
  | .block =>
    if b = some z then
      some ((st.record (.block a)).become z (handleSchedBlock (Fintype.card S) env st.zero))
    else none
  | .unblock =>
    if b = some z then
      some { st.record (.unblock a) with zero := handleSchedUnblock (Fintype.card S) st.zero }
    else none
  | .cnf token =>
    some (if hasActor then st else (st.send b (some z) (.ack token)).record (.ack b token))
  | .ack token =>
    if b = some z then
      some (if token = st.zero.ackToken then
        { st.record (.counted a token) with
          zero := { st.zero with ackCount := st.zero.ackCount - 1 } }
      else st)
    else none
  | .terminate => some { st with terminate := fun p => if p = b then true else st.terminate p }

end QState

open QState

/-- What can happen next.  `z` is scheduler 0. -/
inductive QStep (z : S) : QState S → QState S → Prop
  /-- A scheduler blocks. -/
  | block {st : QState S} {i : S} (h : st.blockSent i = false) :
      QStep z st { st.send (some i) (some z) .block with
        blockSent := Function.update st.blockSent i true }
  /-- A scheduler unblocks. -/
  | unblock {st : QState S} {i : S} (h : st.blockSent i = true) :
      QStep z st { st.send (some i) (some z) .unblock with
        blockSent := Function.update st.blockSent i false }
  /-- A party takes a message from its queue, and handles it. -/
  | read {st st' : QState S} {env : Env} {a b : Party S} {hasActor : Bool} {m : Msg}
      {rest : List Msg} (head : st.chan a b = m :: rest)
      (e : readMsg z (st.dequeue a b rest) env a b hasActor m = some st') :
      QStep z st st'
  /-- Scheduler 0 looks whether it can shut down. -/
  | quiescent {st : QState S} {env : Env} (h : st.terminate (some z) = false) :
      QStep z st (st.become z (quiescent (Fintype.card S) env st.zero))

/-- The states of all runs. -/
inductive QReach (z : S) : QState S → Prop
  | start : QReach z (.init S)
  | step {st st' : QState S} (r : QReach z st) (h : QStep z st st') : QReach z st'

/-! ### Counting what has a token -/

def Msg.token : Msg → Option Nat
  | .cnf t | .ack t => some t
  | _ => none

def Event.token : Event S → Option Nat
  | .cnf t | .ack _ t | .counted _ t => some t
  | _ => none

/-- Who sends a message, and to whom. -/
def Msg.Placed (z : S) (a b : Party S) : Msg → Prop
  | .block | .unblock => (∃ i, a = some i) ∧ b = some z
  | .cnf _ | .terminate => a = some z
  | .ack _ => b = some z

/-- Every message is where it should be. -/
def AllPlaced (z : S) (st : QState S) : Prop := ∀ a b, ∀ m ∈ st.chan a b, m.Placed z a b

/-- The invariant of the rounds, for the current token: what a party has answered is in flight or
counted, a party answers a `CNF` at most once, and `ack_count` is what is left to count. -/
structure Rounds (z : S) (st : QState S) : Prop where
  msgs : ∀ a b m t, m.token = some t → st.zero.ackToken < t → (st.chan a b).count m = 0
  events : ∀ e t, e.token = some t → st.zero.ackToken < t → st.log.count e = 0
  flow : ∀ p, st.log.count (.ack p st.zero.ackToken) =
    (st.chan p (some z)).count (.ack st.zero.ackToken) +
      st.log.count (.counted p st.zero.ackToken)
  once : ∀ p, (st.chan (some z) p).count (.cnf st.zero.ackToken) +
    st.log.count (.ack p st.zero.ackToken) ≤ st.log.count (.cnf st.zero.ackToken)
  started : st.log.count (.cnf st.zero.ackToken) ≤ 1
  left : st.zero.ackCount = Fintype.card S + st.log.count (.cnf st.zero.ackToken) -
    ∑ p, (st.log.count (.counted p st.zero.ackToken) : Int)

/-- What the rounds depend on is the same. -/
structure SameRounds (st st' : QState S) : Prop where
  token : st'.zero.ackToken = st.zero.ackToken
  count : st'.zero.ackCount = st.zero.ackCount
  chan : ∀ a b m t, m.token = some t → (st'.chan a b).count m = (st.chan a b).count m
  log : ∀ e t, e.token = some t → st'.log.count e = st.log.count e

section
variable {z : S} {st st' : QState S} {a b p q : Party S} {m x : Msg} {e : Event S} {rest : List Msg}
  {t : Nat}

theorem Rounds.congr (h : Rounds z st) (hs : SameRounds st st') : Rounds z st' := by
  obtain ⟨htoken, hcount, hchan, hlog⟩ := hs
  refine ⟨fun a b m t hm ht => ?_, fun e t he ht => ?_, fun p => ?_, fun p => ?_, ?_, ?_⟩
  · rw [hchan a b m t hm]
    exact h.msgs a b m t hm (htoken ▸ ht)
  · rw [hlog e t he]
    exact h.events e t he (htoken ▸ ht)
  · rw [htoken, hlog _ _ rfl, hlog _ _ rfl, hchan _ _ _ _ rfl]
    exact h.flow p
  · rw [htoken, hlog _ _ rfl, hlog _ _ rfl, hchan _ _ _ _ rfl]
    exact h.once p
  · rw [htoken, hlog _ _ rfl]
    exact h.started
  · have hcounted := fun p => hlog (.counted p st.zero.ackToken) _ rfl
    rw [htoken, hcount, hlog _ _ rfl, h.left]
    simp only [hcounted]

section
omit [Fintype S]

theorem SameRounds.trans {st'' : QState S} (h : SameRounds st st') (h' : SameRounds st' st'') :
    SameRounds st st'' :=
  ⟨h'.token.trans h.token, h'.count.trans h.count,
    fun a b m t hm => (h'.chan a b m t hm).trans (h.chan a b m t hm),
    fun e t he => (h'.log e t he).trans (h.log e t he)⟩

/-- Taking a message from a queue. -/
theorem count_dequeue (head : st.chan a b = m :: rest) :
    ((st.dequeue a b rest).chan p q).count x + (if p = a ∧ q = b ∧ m = x then 1 else 0) =
      (st.chan p q).count x := by
  simp only [dequeue, setChan]
  by_cases hp : p = a ∧ q = b
  · obtain ⟨rfl, rfl⟩ := hp
    rw [head, count_cons]
    by_cases hx : m = x <;> simp [hx]
  · rw [if_neg hp, if_neg fun h => hp ⟨h.1, h.2.1⟩, add_zero]

/-- Adding a message to a queue. -/
theorem count_send : ((st.send a b m).chan p q).count x =
      (st.chan p q).count x + if p = a ∧ q = b ∧ m = x then 1 else 0 := by
  simp only [send, setChan]
  by_cases hp : p = a ∧ q = b
  · obtain ⟨rfl, rfl⟩ := hp
    by_cases hx : m = x <;> simp [hx, count_append]
  · rw [if_neg hp, if_neg fun h => hp ⟨h.1, h.2.1⟩, add_zero]

theorem count_sendAll : ((st.sendAll z m).chan p q).count x =
      (st.chan p q).count x + if p = some z ∧ m = x then 1 else 0 := by
  simp only [sendAll]
  by_cases hp : p = some z
  · by_cases hx : m = x <;> simp [hp, hx, count_append]
  · simp [hp]

theorem count_record {e' : Event S} :
    (st.record e).log.count e' = st.log.count e' + if e = e' then 1 else 0 := by
  rw [record, count_append, count_singleton]
  by_cases he : e = e' <;> simp [he]

theorem sameRounds_record (he : e.token = none) : SameRounds st (st.record e) := by
  refine ⟨rfl, rfl, fun _ _ _ _ _ => rfl, fun e' t he' => ?_⟩
  have hne : e ≠ e' := by
    rintro rfl
    simp [he] at he'
  rw [count_record, if_neg hne, add_zero]

theorem Msg.ne_of_token (hm : m.token = none) (hx : x.token = some t) : m ≠ x := by
  rintro rfl
  simp [hm] at hx

theorem sameRounds_send (hm : m.token = none) : SameRounds st (st.send a b m) := by
  refine ⟨rfl, rfl, fun p q x t hx => ?_, fun _ _ _ => rfl⟩
  simp [count_send, Msg.ne_of_token hm hx]

theorem sameRounds_sendAll (hm : m.token = none) : SameRounds st (st.sendAll z m) := by
  refine ⟨rfl, rfl, fun p q x t hx => ?_, fun _ _ _ => rfl⟩
  simp [count_sendAll, Msg.ne_of_token hm hx]

end

/-- The next token: nothing has it yet. -/
theorem Rounds.next (h : Rounds z st) (hc : st'.chan = st.chan) (hl : st'.log = st.log)
    (ht : st'.zero.ackToken = st.zero.ackToken + 1) (hk : st'.zero.ackCount = Fintype.card S) :
    Rounds z st' := by
  have hlt : st.zero.ackToken < st'.zero.ackToken := by omega
  have hcnf := h.events (.cnf st'.zero.ackToken) _ rfl hlt
  have hack := fun p => h.events (.ack p st'.zero.ackToken) _ rfl hlt
  have hcounted := fun p => h.events (.counted p st'.zero.ackToken) _ rfl hlt
  refine ⟨fun a b m t hm h' => ?_, fun e t he h' => ?_, fun p => ?_, fun p => ?_, ?_, ?_⟩
  · rw [hc]
    exact h.msgs a b m t hm (by omega)
  · rw [hl]
    exact h.events e t he (by omega)
  · rw [hl, hc, hack, hcounted, h.msgs _ _ (.ack st'.zero.ackToken) _ rfl hlt]
  · rw [hl, hc, hack, h.msgs _ _ (.cnf st'.zero.ackToken) _ rfl hlt]
    omega
  · rw [hl, hcnf]
    omega
  · rw [hl, hcnf, hk]
    simp [hcounted]

/-- A round starts: the token is new, and everyone is asked. -/
theorem Rounds.ask (h : Rounds z st) (hc : st'.chan = (st.sendAll z (.cnf st'.zero.ackToken)).chan)
    (hl : st'.log = (st.record (.cnf st'.zero.ackToken)).log)
    (ht : st'.zero.ackToken = st.zero.ackToken + 1) (hk : st'.zero.ackCount = Fintype.card S + 1) :
    Rounds z st' := by
  have hlt : st.zero.ackToken < st'.zero.ackToken := by omega
  have hcnf := h.events (.cnf st'.zero.ackToken) _ rfl hlt
  have hack := fun p => h.events (.ack p st'.zero.ackToken) _ rfl hlt
  have hcounted := fun p => h.events (.counted p st'.zero.ackToken) _ rfl hlt
  refine ⟨fun a b m t hm h' => ?_, fun e t he h' => ?_, fun p => ?_, fun p => ?_, ?_, ?_⟩
  · rw [hc, count_sendAll, h.msgs a b m t hm (by omega), if_neg]
    rintro ⟨-, rfl⟩
    cases hm
    omega
  · rw [hl, count_record, h.events e t he (by omega), if_neg]
    rintro rfl
    cases he
    omega
  · rw [hl, hc, count_record, count_record, count_sendAll, hack, hcounted,
      h.msgs _ _ (.ack st'.zero.ackToken) _ rfl hlt]
    simp
  · rw [hl, hc, count_record, count_record, count_sendAll, hack, hcnf,
      h.msgs _ _ (.cnf st'.zero.ackToken) _ rfl hlt]
    simp
  · rw [hl, count_record, hcnf]
    simp
  · rw [hl, hk, count_record, hcnf]
    simp [count_record, hcounted]

/-- Moving on to the next token, with or without a round. -/
structure Advances (schedulerCount : Nat) (c : Coordinator) (r : Coordinator × Sends) : Prop where
  token : r.1.ackToken = c.ackToken + 1
  count : r.1.ackCount = schedulerCount + if r.2 = .cnf then 1 else 0

theorem handleSchedBlock_advances (n : Nat) (env : Env) (c : Coordinator) :
    Advances n c (handleSchedBlock n env c) := by
  rw [handleSchedBlock]
  split_ifs
  · exact ⟨rfl, rfl⟩
  · exact ⟨rfl, (Int.add_zero _).symm⟩

/-- `quiescent` does nothing, or a round is complete and it moves on: it ends the agreement after
a second round, it starts a round, or it gives up. -/
theorem quiescent_cases (n : Nat) (env : Env) (c : Coordinator) :
    quiescent n env c = (c, .nothing) ∨
      c.ackCount = 0 ∧ Advances n c (quiescent n env c) ∧
        (quiescent n env c).1.blockCount = c.blockCount ∧
        ((quiescent n env c).2 = .terminate ∧ c.asioStoppable = true ∨
          (quiescent n env c).2 = .cnf ∨
          (quiescent n env c).2 = .nothing ∧ (quiescent n env c).1.asioStoppable = false) := by
  rw [quiescent]
  split_ifs with hidle hstop hagain
  · exact .inr ⟨hidle.2.2, ⟨rfl, (Int.add_zero _).symm⟩, rfl, .inl ⟨rfl, hstop.1⟩⟩
  · exact .inr ⟨hidle.2.2, ⟨rfl, rfl⟩, rfl, .inr (.inl rfl)⟩
  · exact .inr ⟨hidle.2.2, ⟨rfl, (Int.add_zero _).symm⟩, rfl, .inr (.inr ⟨rfl, rfl⟩)⟩
  · exact .inl rfl

variable {r : Coordinator × Sends}

omit [Fintype S] in
@[simp]
theorem become_zero : (st.become z r).zero = r.1 := by
  obtain ⟨c, sends⟩ := r
  cases sends <;> rfl

omit [Fintype S] in
@[simp]
theorem become_blockSent : (st.become z r).blockSent = st.blockSent := by
  obtain ⟨c, sends⟩ := r
  cases sends <;> rfl

theorem Rounds.become (h : Rounds z st) (hr : Advances (Fintype.card S) st.zero r) :
    Rounds z (st.become z r) := by
  obtain ⟨c, sends⟩ := r
  obtain ⟨htoken, hcount⟩ := hr
  cases sends with
  | nothing =>
    rw [if_neg nofun, Int.add_zero] at hcount
    exact h.next rfl rfl htoken hcount
  | cnf =>
    rw [if_pos rfl] at hcount
    exact h.ask rfl rfl htoken hcount
  | terminate =>
    rw [if_neg nofun, Int.add_zero] at hcount
    have hnext : Rounds z { st with zero := c } := h.next rfl rfl htoken hcount
    exact hnext.congr ((sameRounds_sendAll rfl).trans (sameRounds_record rfl))

/-- Dropping a message that does not count. -/
theorem Rounds.drop (h : Rounds z st) (head : st.chan a b = m :: rest)
    (hm : m ≠ .ack st.zero.ackToken) : Rounds z (st.dequeue a b rest) := by
  have hle : ∀ p q x, ((st.dequeue a b rest).chan p q).count x ≤ (st.chan p q).count x := by
    intro p q x
    have := count_dequeue head (p := p) (q := q) (x := x)
    omega
  refine ⟨fun a' b' x t' hx ht' => ?_, h.events, fun p => ?_, fun p => ?_, h.started, h.left⟩
  · exact Nat.le_zero.1 ((hle a' b' x).trans (h.msgs a' b' x t' hx ht').le)
  · have hc := count_dequeue head (p := p) (q := some z) (x := .ack st.zero.ackToken)
    rw [if_neg fun h => hm h.2.2, Nat.add_zero] at hc
    exact (h.flow p).trans (congrArg (· + _) hc.symm)
  · exact (Nat.add_le_add_right (hle _ _ _) _).trans (h.once p)

/-- A `CNF` is answered: it leaves the queue to `b`, and an `ACK` enters the queue from `b`. -/
theorem Rounds.answer (h : Rounds z st) (hzero : st'.zero = st.zero) (ht : t ≤ st.zero.ackToken)
    (hchan : ∀ p q x, (st'.chan p q).count x + (if p = some z ∧ q = b ∧ x = .cnf t then 1 else 0) =
      (st.chan p q).count x + if p = b ∧ q = some z ∧ x = .ack t then 1 else 0)
    (hlog : ∀ e, st'.log.count e = st.log.count e + if e = .ack b t then 1 else 0) :
    Rounds z st' := by
  have hsum : ∀ p, st'.log.count (.counted p st.zero.ackToken) =
      st.log.count (.counted p st.zero.ackToken) := fun p => by simpa using hlog (.counted p _)
  have hcnf : st'.log.count (.cnf st.zero.ackToken) = st.log.count (.cnf st.zero.ackToken) := by
    simpa using hlog (.cnf _)
  refine ⟨fun p q m t' hm ht' => ?_, fun e t' he ht' => ?_, fun p => ?_, fun p => ?_, ?_, ?_⟩
  · rw [hzero] at ht'
    have hc := hchan p q m
    rw [if_neg, if_neg, h.msgs p q m t' hm ht'] at hc
    · exact hc
    · rintro ⟨-, -, rfl⟩
      cases hm
      exact absurd ht (not_le.2 ht')
    · rintro ⟨-, -, rfl⟩
      cases hm
      exact absurd ht (not_le.2 ht')
  · rw [hzero] at ht'
    rw [hlog, if_neg, h.events e t' he ht']
    rintro rfl
    cases he
    exact absurd ht (not_le.2 ht')
  · have hc := hchan p (some z) (.ack st.zero.ackToken)
    have hl := hlog (.ack p st.zero.ackToken)
    have hflow := h.flow p
    rw [hzero, hsum]
    simp only [reduceCtorEq, and_false, if_false, Msg.ack.injEq, true_and] at hc
    simp only [Event.ack.injEq] at hl
    split_ifs at hc hl <;> omega
  · have hc := hchan (some z) p (.cnf st.zero.ackToken)
    have hl := hlog (.ack p st.zero.ackToken)
    have honce := h.once p
    rw [hzero, hcnf]
    simp only [reduceCtorEq, and_false, if_false, Msg.cnf.injEq, true_and] at hc
    simp only [Event.ack.injEq] at hl
    split_ifs at hc hl <;> omega
  · rw [hzero, hcnf]
    exact h.started
  · rw [hzero, hcnf, h.left]
    simp only [hsum]

/-- An `ACK` for the current token is counted. -/
theorem Rounds.count (h : Rounds z st) (htoken : st'.zero.ackToken = st.zero.ackToken)
    (hcount : st'.zero.ackCount = st.zero.ackCount - 1) (hchan : ∀ p q x, (st'.chan p q).count x +
      (if p = a ∧ q = some z ∧ x = .ack st.zero.ackToken then 1 else 0) = (st.chan p q).count x)
    (hlog : ∀ e, st'.log.count e =
      st.log.count e + if e = .counted a st.zero.ackToken then 1 else 0) : Rounds z st' := by
  have hcnf : st'.log.count (.cnf st.zero.ackToken) = st.log.count (.cnf st.zero.ackToken) := by
    simpa using hlog (.cnf _)
  have hack : ∀ p, st'.log.count (.ack p st.zero.ackToken) =
      st.log.count (.ack p st.zero.ackToken) := fun p => by simpa using hlog (.ack p _)
  have hle : ∀ p q x, (st'.chan p q).count x ≤ (st.chan p q).count x := by
    intro p q x
    have := hchan p q x
    omega
  refine ⟨fun p q m t' hm ht' => ?_, fun e t' he ht' => ?_, fun p => ?_, fun p => ?_, ?_, ?_⟩
  · rw [htoken] at ht'
    exact Nat.le_zero.1 ((hle p q m).trans (h.msgs p q m t' hm ht').le)
  · rw [htoken] at ht'
    rw [hlog, if_neg, h.events e t' he ht']
    rintro rfl
    cases he
    exact absurd ht' (lt_irrefl _)
  · have hc := hchan p (some z) (.ack st.zero.ackToken)
    have hl := hlog (.counted p st.zero.ackToken)
    have hflow := h.flow p
    rw [htoken, hack]
    simp only [and_true] at hc
    simp only [Event.counted.injEq, and_true] at hl
    split_ifs at hc hl <;> omega
  · rw [htoken, hack, hcnf]
    exact (Nat.add_le_add_right (hle _ _ _) _).trans (h.once p)
  · rw [htoken, hcnf]
    exact h.started
  rw [htoken, hcnf, hcount, h.left]
  have hsum : ∀ p, (st'.log.count (.counted p st.zero.ackToken) : Int) =
      st.log.count (.counted p st.zero.ackToken) + if p = a then 1 else 0 := by
    intro p
    rw [hlog]
    by_cases hp : p = a <;> simp [hp]
  simp only [hsum, sum_add_distrib, sum_ite_eq', mem_univ, if_true]
  omega

/-- A round is complete only when every party has answered, and each answer was counted. -/
theorem Rounds.complete (h : Rounds z st) (h0 : st.zero.ackCount = 0) :
    st.log.count (.cnf st.zero.ackToken) = 1 ∧ ∀ p, st.log.count (.ack p st.zero.ackToken) = 1 ∧
      st.log.count (.counted p st.zero.ackToken) = 1 := by
  have hle : ∀ p, st.log.count (.counted p st.zero.ackToken) ≤
      st.log.count (.cnf st.zero.ackToken) := fun p => by
    have := h.flow p
    have := h.once p
    omega
  have hcard : Fintype.card (Party S) = Fintype.card S + 1 := Fintype.card_option
  have hpos : 0 < Fintype.card S := Fintype.card_pos_iff.2 ⟨z⟩
  have hleft : ∑ p, st.log.count (.counted p st.zero.ackToken) =
      Fintype.card S + st.log.count (.cnf st.zero.ackToken) := by
    have := h.left
    rw [h0, ← cast_sum] at this
    omega
  have hsum : ∑ p, st.log.count (.counted p st.zero.ackToken) ≤
      ∑ _p : Party S, st.log.count (.cnf st.zero.ackToken) := sum_le_sum fun p _ => hle p
  rw [sum_const, Finset.card_univ, smul_eq_mul, hcard] at hsum
  have hone : st.log.count (.cnf st.zero.ackToken) = 1 := by
    have := h.started
    rcases lt_or_ge 0 (st.log.count (.cnf st.zero.ackToken)) with hp | hp
    · omega
    · rw [le_zero.1 hp] at hsum hleft
      omega
  -- the counts are at most one each, and add up to the number of parties
  have hall : ∀ p ∈ univ, st.log.count (.counted p st.zero.ackToken) = 1 := by
    refine (sum_eq_sum_iff_of_le fun p _ => (hle p).trans hone.le).1 ?_
    rw [sum_const, Finset.card_univ, smul_eq_mul, hcard, hleft, hone]
    omega
  refine ⟨hone, fun p => ?_⟩
  have h1 := hall p (mem_univ p)
  have := h.flow p
  have := h.once p
  omega

/-- `ack_count` does not get below 0. -/
theorem Rounds.ackCount_nonneg (h : Rounds z st) : 0 ≤ st.zero.ackCount ∧
      (0 < (st.chan p (some z)).count (.ack st.zero.ackToken) → 0 < st.zero.ackCount) := by
  have hle : ∀ p, st.log.count (.counted p st.zero.ackToken) +
      (st.chan p (some z)).count (.ack st.zero.ackToken) ≤
      st.log.count (.cnf st.zero.ackToken) := fun p => by
    have := h.flow p
    have := h.once p
    omega
  have hcard : Fintype.card (Party S) = Fintype.card S + 1 := Fintype.card_option
  have hsum : ∑ p, (st.log.count (.counted p st.zero.ackToken) +
      (st.chan p (some z)).count (.ack st.zero.ackToken)) ≤
      ∑ _p : Party S, st.log.count (.cnf st.zero.ackToken) := sum_le_sum fun p _ => hle p
  have hp : (st.chan p (some z)).count (.ack st.zero.ackToken) ≤
      ∑ q, (st.chan q (some z)).count (.ack st.zero.ackToken) :=
    single_le_sum (f := fun q => (st.chan q (some z)).count (.ack st.zero.ackToken))
      (fun _ _ => zero_le _) (mem_univ p)
  rw [sum_const, Finset.card_univ, smul_eq_mul, hcard, sum_add_distrib] at hsum
  have hleft := h.left
  rw [← cast_sum] at hleft
  have hstart := h.started
  rcases le_one_iff_eq_zero_or_eq_one.1 hstart with h1 | h1 <;> rw [h1] at hsum hleft <;>
    constructor <;> omega

end

end SpacePony.Sched
