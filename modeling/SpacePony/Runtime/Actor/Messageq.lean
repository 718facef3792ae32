import Mathlib.Logic.Relation
import SpacePony.Support.Trail

/-!
# Runtime — actors — message queues

`actor/messageq.c`, one atomic access after the other, for any number of senders, and who schedules
the actor that has the queue (`pony_sendv`, `ponyint_actor_run`).

* **`Reach.fifo`**: messages come out once, in the order in which they were put in.
* **`Reach.one_in_charge`**: the actor is in one place of the schedulers, unless it is known to have
  no messages.
-/

namespace SpacePony.Actor

open List Function

/-- The address of a `pony_msg_t`. -/
abbrev Addr := Nat

/-- `messageq_t`, and the `next` of the messages in memory.  The low bit of `head` is apart. -/
structure Messageq where
  next : Addr → Option Addr
  head : Addr × Bool
  tail : Addr

namespace Messageq

/-- `ponyint_messageq_init`. -/
def init (next : Addr → Option Addr) (stub : Addr) : Messageq :=
  ⟨update next stub none, (stub, true), stub⟩

/-- `messageq_push` up to the exchange: the old `head` is what it is told. -/
def exchange (q : Messageq) (last : Addr) : Messageq :=
  { q with next := update q.next last none, head := (last, false) }

/-- The store of `messageq_push`. -/
def link (q : Messageq) (prev first : Addr) : Messageq :=
  { q with next := update q.next prev (some first) }

/-- `ponyint_actor_messageq_pop`. -/
def pop (q : Messageq) : Option Addr × Messageq :=
  match q.next q.tail with
  | some next => (some next, { q with tail := next })
  | none => (none, q)

/-- `ponyint_messageq_markempty` up to the exchange, with its result if there is none. -/
def markemptyLoad (q : Messageq) : Option Bool :=
  if q.head.2 then some true
  else if q.head.1 ≠ q.tail then some false
  else none

/-- The exchange of `ponyint_messageq_markempty`. -/
def markemptyExchange (q : Messageq) (tail : Addr) : Bool × Messageq :=
  if q.head = (tail, false) then (true, { q with head := (tail, true) }) else (false, q)

theorem pop_fst (q : Messageq) : q.pop.1 = q.next q.tail := by
  unfold pop
  split <;> simp [*]

/-- `ponyint_messageq_isempty`. -/
def isempty (q : Messageq) : Bool := q.head.2 || q.head.1 == q.tail

end Messageq

/-- A `messageq_push` between its exchange and its store. -/
structure Push where
  prev : Addr
  first : Addr
  wasEmpty : Bool

/-- An actor in the queue of a scheduler or running (`ready`), in `ponyint_messageq_markempty`,
muted, or left to the cycle detector (`zombie`). -/
inductive Place where
  | ready
  | marking (tail : Addr)
  | muted
  | zombie
deriving DecidableEq

/-- A queue with the calls that are under way.  `waking`: calls of `pony_sendv` that are going to
schedule the actor.  `sent` and `received` are histories. -/
structure Mailbox where
  q : Messageq
  pushes : List Push
  waking : Nat
  places : List Place
  sent : List Addr
  received : List Addr

namespace Mailbox

def init (next : Addr → Option Addr) (stub : Addr) : Mailbox := ⟨.init next stub, [], 0, [], [], []⟩

/-- What has been sent and not received. -/
def pending (s : Mailbox) : List Addr := s.sent.drop s.received.length

/-- The messages that are not to be freed or changed: the stub and what is pending. -/
def nodes (s : Mailbox) : List Addr := s.q.tail :: s.pending

/-- The exchange of a push of the messages `first :: ms`. -/
def exchange (s : Mailbox) (first : Addr) (ms : List Addr) : Mailbox := { s with
  q := s.q.exchange ((first :: ms).getLast (cons_ne_nil _ _))
  pushes := s.pushes ++ [⟨s.q.head.1, first, s.q.head.2⟩]
  sent := s.sent ++ first :: ms }

/-- The store of a push, after which only `pushes` are under way. -/
def link (s : Mailbox) (p : Push) (pushes : List Push) : Mailbox := { s with
  q := s.q.link p.prev p.first
  pushes
  waking := s.waking + p.wasEmpty.toNat }

/-- The end of `pony_sendv`: the actor is scheduled unless it is muted. -/
def wake (s : Mailbox) : Mailbox := { s with
  waking := s.waking - 1
  places := if .muted ∈ s.places then s.places else .ready :: s.places }

def pop (s : Mailbox) : Mailbox :=
  { s with q := s.q.pop.2, received := s.received ++ s.q.pop.1.toList }

/-- The end of a run that got `empty` from `ponyint_messageq_markempty`. -/
def rescheduled (empty : Bool) : List Place := if empty then [] else [.ready]

/-- `ponyint_messageq_markempty` looks at `head`. -/
def markemptyLoad (s : Mailbox) : List Place :=
  match s.q.markemptyLoad with
  | some empty => rescheduled empty
  | none => [.marking s.q.tail]

/-- One atomic access. -/
inductive Step : Mailbox → Mailbox → Prop
  /-- Something else happens in memory; messages are allocated and put in chains. -/
  | write {s : Mailbox} {next : Addr → Option Addr} (h : ∀ x ∈ s.nodes, next x = s.q.next x) :
      Step s { s with q := { s.q with next } }
  | exchange {s : Mailbox} {first : Addr} {ms : List Addr} (hnew : (s.nodes ++ first :: ms).Nodup)
      (hchain : Trail (update s.q.next ((first :: ms).getLast (cons_ne_nil _ _)) none) [] first ms) :
      Step s (s.exchange first ms)
  | link {s : Mailbox} {before after : List Push} {p : Push} (h : s.pushes = before ++ p :: after) :
      Step s (s.link p (before ++ after))
  | wake {s : Mailbox} (h : 0 < s.waking) : Step s s.wake
  | pop {s : Mailbox} (h : .ready ∈ s.places) : Step s s.pop
  /-- `mute_actor` at the end of a run. -/
  | mute {s : Mailbox} {rest : List Place} (h : s.places.Perm (.ready :: rest)) :
      Step s { s with places := .muted :: rest }
  /-- `ponyint_unmute_actor` and `ponyint_sched_add`. -/
  | unmute {s : Mailbox} {rest : List Place} (h : s.places.Perm (.muted :: rest)) :
      Step s { s with places := .ready :: rest }
  /-- The end of a run with `rc` 0, of which the cycle detector is told. -/
  | zombie {s : Mailbox} {rest : List Place} (h : s.places.Perm (.ready :: rest)) :
      Step s { s with places := .zombie :: rest }
  /-- The end of a run. -/
  | markemptyLoad {s : Mailbox} {rest : List Place} (h : s.places.Perm (.ready :: rest)) :
      Step s { s with places := s.markemptyLoad ++ rest }
  | markemptyExchange {s : Mailbox} {rest : List Place} {tail : Addr}
      (h : s.places.Perm (.marking tail :: rest)) : Step s { s with
        q := (s.q.markemptyExchange tail).2
        places := rescheduled (s.q.markemptyExchange tail).1 ++ rest }

/-- What is reached from an empty queue. -/
def Reach (s : Mailbox) : Prop := ∃ next stub, Relation.ReflTransGen Step (init next stub) s

/-- What holds after every access. -/
structure Inv (s : Mailbox) : Prop where
  history : s.sent = s.received ++ s.pending
  trail : Trail s.q.next (s.pushes.map fun p => (p.prev, p.first)) s.q.tail s.pending
  nodup : s.nodes.Nodup
  head : s.q.head.1 = s.nodes.getLast (cons_ne_nil _ _)
  empty : s.q.head.2 = true → s.pending = []
  charge : s.q.head.2.toNat + s.pushes.countP (·.wasEmpty) + s.waking + s.places.length = 1
  marking : ∀ t, .marking t ∈ s.places → t = s.q.tail

variable {s s' : Mailbox} {rest : List Place}

theorem inv_init (next : Addr → Option Addr) (stub : Addr) : Inv (init next stub) where
  history := rfl
  trail := .nil (update_self _ _ _)
  nodup := nodup_singleton stub
  head := rfl
  empty := fun _ => rfl
  charge := rfl
  marking := nofun

/-- When nothing is pending, the stub is the last message. -/
theorem Inv.pending_eq_nil (h : Inv s) (hhead : s.q.head.1 = s.q.tail) : s.pending = [] := by
  by_contra hne
  have hlast := h.head
  simp only [nodes, getLast_cons hne, hhead] at hlast
  exact (nodup_cons.1 h.nodup).1 (hlast ▸ getLast_mem hne)

/-- Whoever has the actor has it alone, and the queue is not marked. -/
theorem Inv.alone (h : Inv s) {place : Place} (hs : s.places.Perm (place :: rest)) :
    s.q.head.2 = false ∧ rest = [] := by
  have hcharge := h.charge
  rw [hs.length_eq, length_cons] at hcharge
  refine ⟨?_, length_eq_zero_iff.1 (by omega)⟩
  cases hmark : s.q.head.2 with
  | false => rfl
  | true => rw [hmark] at hcharge; simp at hcharge; omega

/-- Only the place changes. -/
theorem Inv.move (h : Inv s) {place : Place} (hs : s.places.Perm (place :: rest)) (place' : Place)
    (hplace : ∀ t, place' = .marking t → t = s.q.tail) :
    Inv { s with places := place' :: rest } where
  __ := h
  charge := hs.length_eq ▸ h.charge
  marking := by
    intro t ht
    rw [(h.alone hs).2] at ht
    exact hplace t (mem_singleton.1 ht).symm

/-- The exchange of the head leaves a gap between the old head and the new messages. -/
theorem Inv.exchange {first : Addr} {ms : List Addr} (h : Inv s)
    (hnew : (s.nodes ++ first :: ms).Nodup)
    (hchain : Trail (update s.q.next ((first :: ms).getLast (cons_ne_nil _ _)) none) [] first ms) :
    Inv (s.exchange first ms) := by
  have hle : s.received.length ≤ s.sent.length := by
    rw [h.history, length_append]
    exact Nat.le_add_right _ _
  have hpending : (s.exchange first ms).pending = s.pending ++ first :: ms :=
    drop_append_of_le_length hle
  have hnodes : (s.exchange first ms).nodes = s.nodes ++ first :: ms := congrArg (_ :: ·) hpending
  have hother : ∀ x ∈ s.nodes, x ≠ (first :: ms).getLast (cons_ne_nil _ _) := by
    rintro x hx rfl
    exact (nodup_append.1 hnew).2.2 _ hx _ (getLast_mem _) rfl
  refine ⟨?_, ?_, hnodes ▸ hnew, ?_, nofun, ?_, h.marking⟩
  · rw [hpending]
    exact (congrArg (· ++ _) h.history).trans (append_assoc _ _ _)
  · rw [hpending]
    simp only [Mailbox.exchange, Messageq.exchange, map_append, map_singleton, h.head]
    exact (h.trail.congr fun x hx => update_of_ne (hother x hx) _ _).append hchain
  · simp only [hnodes]
    exact (getLast_append_of_ne_nil _ (cons_ne_nil _ _)).symm
  · have hcharge := h.charge
    cases hmark : s.q.head.2 <;>
      simp [hmark, Mailbox.exchange, Messageq.exchange] at hcharge ⊢ <;> omega

/-- The write of `next` closes the gap of its push. -/
theorem Inv.link {before after : List Push} {p : Push} (h : Inv s)
    (hs : s.pushes = before ++ p :: after) : Inv (s.link p (before ++ after)) where
  __ := h
  trail := by
    have htrail := h.trail
    rw [hs, map_append, map_cons] at htrail
    simp only [Mailbox.link, map_append]
    exact htrail.store h.nodup
  charge := by
    have hcharge := h.charge
    rw [hs] at hcharge
    cases hempty : p.wasEmpty <;> simp [hempty, Mailbox.link, Messageq.link] at hcharge ⊢ <;> omega

theorem Inv.wake (h : Inv s) (hs : 0 < s.waking) : Inv s.wake := by
  have hcharge := h.charge
  have hnil : s.places = [] := length_eq_zero_iff.1 (by omega)
  rw [hnil, length_nil] at hcharge
  unfold Mailbox.wake
  rw [hnil, if_neg not_mem_nil]
  refine { h with charge := ?_, marking := by simp }
  show s.q.head.2.toNat + s.pushes.countP (·.wasEmpty) + (s.waking - 1) + 1 = 1
  omega

theorem Inv.pop (h : Inv s) (hs : .ready ∈ s.places) : Inv s.pop := by
  unfold Mailbox.pop Messageq.pop
  split
  next b hn =>
    obtain ⟨ys, hpending, htrail⟩ := h.trail.next_eq hn
    have hsent : s.sent = (s.received ++ [b]) ++ ys := by
      rw [h.history, hpending, append_cons]
    have hdrop : s.sent.drop (s.received ++ [b]).length = ys := by rw [hsent, drop_left]
    have hnodup := h.nodup
    have hlast := h.head
    have hplaces := perm_cons_erase hs
    obtain ⟨hmark, hrest⟩ := h.alone hplaces
    rw [hrest] at hplaces
    simp only [nodes, hpending, getLast_cons_cons] at hnodup hlast
    refine ⟨?_, ?_, ?_, ?_, fun hm => ?_, h.charge, fun t ht => ?_⟩
    · exact hsent.trans (congrArg (_ ++ ·) hdrop.symm)
    · rw [pending]
      exact hdrop.symm ▸ htrail
    · rw [nodes, pending]
      exact hdrop.symm ▸ hnodup.of_cons
    · rw [hlast]
      simp only [nodes, pending, Option.toList_some, hdrop]
    · rw [hmark] at hm
      cases hm
    · simpa using hplaces.mem_iff.1 ht
  next => rwa [Option.toList_none, append_nil]

theorem Inv.markemptyLoad (h : Inv s) (hs : s.places.Perm (.ready :: rest)) :
    Inv { s with places := s.markemptyLoad ++ rest } := by
  unfold Mailbox.markemptyLoad Messageq.markemptyLoad
  rw [if_neg (by simp [(h.alone hs).1])]
  split_ifs
  · exact h.move hs .ready nofun
  · exact h.move hs (.marking s.q.tail) fun t ht => (Place.marking.inj ht).symm

theorem Inv.markemptyExchange {tail : Addr} (h : Inv s)
    (hs : s.places.Perm (.marking tail :: rest)) : Inv { s with
      q := (s.q.markemptyExchange tail).2
      places := rescheduled (s.q.markemptyExchange tail).1 ++ rest } := by
  obtain rfl : tail = s.q.tail := h.marking tail (hs.mem_iff.2 (.head _))
  unfold Messageq.markemptyExchange
  split_ifs with hhead
  · obtain ⟨-, rfl⟩ := h.alone hs
    have hfirst : s.q.head.1 = s.q.tail := congrArg Prod.fst hhead
    have hcharge : 0 + s.pushes.countP (·.wasEmpty) + s.waking + 1 = 1 := by
      have hcharge := h.charge
      rwa [hhead, hs.length_eq] at hcharge
    refine ⟨h.history, h.trail, h.nodup, hfirst.symm.trans h.head,
      fun _ => h.pending_eq_nil hfirst, ?_, nofun⟩
    show 1 + s.pushes.countP (·.wasEmpty) + s.waking + 0 = 1
    omega
  · exact h.move hs .ready nofun

/-- **Every atomic access keeps the invariant.** -/
theorem Inv.step (h : Inv s) (hs : Step s s') : Inv s' := by
  cases hs with
  | write hw => exact { h with trail := h.trail.congr hw }
  | exchange hnew hchain => exact h.exchange hnew hchain
  | link hs => exact h.link hs
  | wake hs => exact h.wake hs
  | pop hs => exact h.pop hs
  | mute hs | unmute hs | zombie hs => exact h.move hs _ nofun
  | markemptyLoad hs => exact h.markemptyLoad hs
  | markemptyExchange hs => exact h.markemptyExchange hs

theorem Reach.next (h : Reach s) (hs : Step s s') : Reach s' := by
  obtain ⟨next, stub, h⟩ := h
  exact ⟨next, stub, h.tail hs⟩

theorem Reach.inv (h : Reach s) : Inv s := by
  obtain ⟨next, stub, h⟩ := h
  induction h with
  | refl => exact inv_init next stub
  | tail _ hs ih => exact ih.step hs

/-- **Messages come out once, in the order in which they were put in**, under any interleaving of the
accesses.  What is freed is out of reach of the pushes that are under way, and once these have stored
their link the next message is there. -/
theorem Reach.fifo (h : Reach s) : ∃ pending, s.sent = s.received ++ pending ∧
    (s.q.tail :: pending).Nodup ∧
    (∀ p ∈ s.pushes, p.prev ∈ s.q.tail :: pending ∧ s.q.next p.prev = none) ∧
    (s.q.isempty = true ↔ pending = []) ∧
    (∀ b, s.q.pop.1 = some b → ∃ rest, pending = b :: rest) ∧
    (s.pushes = [] → s.q.pop.1 = pending.head?) := by
  have hinv := h.inv
  refine ⟨s.pending, hinv.history, hinv.nodup, fun p hp => ?_, ⟨fun hempty => ?_, fun hnil => ?_⟩,
    fun b hb => ?_, fun hp => ?_⟩
  · exact hinv.trail.of_mem (mem_map_of_mem hp)
  · rcases Bool.or_eq_true_iff.1 hempty with hmark | hhead
    · exact hinv.empty hmark
    · exact hinv.pending_eq_nil (beq_iff_eq.1 hhead)
  · have hlast := hinv.head
    simp only [nodes, hnil, getLast_singleton] at hlast
    exact Bool.or_eq_true_iff.2 (.inr (beq_iff_eq.2 hlast))
  · rw [Messageq.pop_fst] at hb
    obtain ⟨rest, hrest, -⟩ := hinv.trail.next_eq hb
    exact ⟨rest, hrest⟩
  · have htrail := hinv.trail
    rw [hp] at htrail
    exact s.q.pop_fst.trans htrail.next_eq_head?

/-- **The actor is in one place.**  It is in the queue of one scheduler or run by one, muted, a
zombie, or about to be scheduled by one sender; or its queue is marked, and then nothing is
pending. -/
theorem Reach.one_in_charge (h : Reach s) :
    s.q.head.2.toNat + s.pushes.countP (·.wasEmpty) + s.waking + s.places.length = 1 ∧
    (s.q.head.2 = true → s.received = s.sent ∧ s.pushes = []) := by
  refine ⟨h.inv.charge, fun hmark => ?_⟩
  have hnil := h.inv.empty hmark
  have htrail := h.inv.trail
  have hsent := h.inv.history
  rw [hnil] at htrail hsent
  refine ⟨(hsent.trans (append_nil _)).symm, ?_⟩
  generalize hgaps : s.pushes.map _ = gaps at htrail
  cases htrail
  exact map_eq_nil_iff.1 hgaps

/-- Two senders push, the second one stores its link first, and the first message is received. -/
theorem reach_two : ∃ s, Reach s ∧ s.sent = [1, 2] ∧ s.received = [1] ∧ s.waking = 0 := by
  have h : Reach (init (fun _ => none) 0) := ⟨_, _, .refl⟩
  have h₁ := h.next (@Step.exchange _ 1 [] (by decide) (.nil rfl))
  have h₂ := h₁.next (@Step.exchange _ 2 [] (by decide) (.nil rfl))
  have h₃ := h₂.next (@Step.link _ [⟨0, 1, true⟩] [] ⟨1, 2, false⟩ rfl)
  have h₄ := h₃.next (@Step.link _ [] [] ⟨0, 1, true⟩ rfl)
  have h₅ := h₄.next (.wake Nat.one_pos)
  exact ⟨_, h₅.next (.pop (.head _)), rfl, rfl, rfl⟩

/-- Two messages pushed, the first of them popped. -/
theorem fifo_two : ∃ (s : Mailbox) (pending : List Addr), s.sent = [1, 2] ∧ s.received = [1] ∧
    s.sent = s.received ++ pending ∧ (s.pushes = [] → s.q.pop.1 = pending.head?) := by
  obtain ⟨s, h, hsent, hreceived, -⟩ := reach_two
  obtain ⟨pending, hpending, -, -, -, -, hpop⟩ := h.fifo
  exact ⟨s, pending, hsent, hreceived, hpending, hpop⟩

/-- Two pushes, with one party in charge between them. -/
theorem one_in_charge_two : ∃ s : Mailbox, s.sent = [1, 2] ∧ s.q.head.2 = false ∧
    s.pushes.countP (·.wasEmpty) + s.places.length = 1 := by
  obtain ⟨s, h, hsent, hreceived, hwaking⟩ := reach_two
  obtain ⟨hcharge, hmark⟩ := h.one_in_charge
  have hhead : s.q.head.2 = false := by
    refine Bool.eq_false_iff.2 fun heq => ?_
    have hall := (hmark heq).1
    rw [hsent, hreceived] at hall
    cases hall
  refine ⟨s, hsent, hhead, ?_⟩
  rw [hhead, hwaking] at hcharge
  simpa using hcharge

end Mailbox
end SpacePony.Actor
