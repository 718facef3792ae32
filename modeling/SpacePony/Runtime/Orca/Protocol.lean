import Mathlib.Data.Finset.Lattice.Basic
import SpacePony.Runtime.Orca.Collect

/-!
# Runtime — the protocol of the reference counts

Any number of actors that create actors, send and receive messages and collect, with the messages
they send each other about their counts.

* `Sys`: the counts of every actor and the messages in flight.  A message has the messages that
  happened before it as its `past`, and is handled after those of them that are to the same actor.
* `Action`, `Sys.act`: the steps of the actors, in any order.  The order in which a map is iterated
  over is part of an action.
-/

namespace SpacePony.Orca

/-! ### Systems -/

/-- What is in a message: what is sent, as the trace of the sender found it, or an `actorref_t`.
`counted` is what the sender counted. -/
inductive Body where
  | app (g : Graph) (rounds : Nat) (roots : List Child) (counted : Res → Bool)
  | acquire (ref : ActorRef)
  | release (ref : ActorRef)

structure Message where
  id : Nat
  dest : ActorId
  past : Finset Nat
  body : Body

structure Sys where
  actors : Finset ActorId
  gc : ActorId → Gc
  know : ActorId → Finset Nat
  flight : List Message
  next : Nat

/-- A `gc_t` of zeros, after `ponyint_gc_done`. -/
def Gc.new : Gc := ⟨1, 0, 0, fun _ => none, fun _ => none⟩

/-- Before the first actor is created. -/
def Sys.init : Sys := ⟨∅, fun _ => Gc.new, fun _ => ∅, [], 0⟩

/-- `pony_sendp`, `pony_sendv`. -/
def Sys.post (s : Sys) (a dest : ActorId) (body : Body) : Sys :=
  { s with
    know := Function.update s.know a (insert s.next (s.know a))
    flight := s.flight ++ [⟨s.next, dest, s.know a, body⟩]
    next := s.next + 1 }

/-- A message to each of the actors. -/
def Sys.postAll (a : ActorId) (body : ActorId → Body) : List ActorId → Sys → Sys
  | [], s => s
  | b :: bs, s => Sys.postAll a body bs (s.post a b (body b))

def Sys.setGc (s : Sys) (a : ActorId) (gc : Gc) : Sys :=
  { s with gc := Function.update s.gc a gc }

/-! ### Steps -/

/-- What an actor does next. -/
inductive Action where
  /-- `pony_create`. -/
  | create (creator : Option ActorId) (orphaned : Bool) (a : ActorId)
  /-- A send trace and `pony_send_done`, and the message. -/
  | send (a dest : ActorId) (g : Graph) (rounds : Nat) (roots : List Child) (order : List ActorId)
  /-- A mark and sweep. -/
  | collect (a : ActorId) (g : Graph) (rounds : Nat) (roots : List Child) (ps : List Addr)
      (order releases : List ActorId)
  /-- A message is handled, with a receive trace and `pony_recv_done` if it is not about counts. -/
  | handle (m : Message) (rest : List Message) (ps : List Addr)

/-- `ponyint_gc_createactor`. -/
def createActor (gc : Gc) (a : ActorId) : Gc :=
  { gc with foreign := gc.foreign.put a { gc.foreign.getorput a gc.mark with rc := incMore } }

/-- `pony_create`. -/
def Sys.create (s : Sys) (creator : Option ActorId) (orphaned : Bool) (a : ActorId) : Sys :=
  match creator, orphaned with
  | some b, false =>
    ({ s with actors := insert a s.actors }.setGc a { Gc.new with rc := incMore }).setGc b
      (createActor (s.gc b) a)
  | _, _ => { s with actors := insert a s.actors }.setGc a Gc.new

/-- `ponyint_gc_sendacquire`. -/
def Sys.sendAcquire (s : Sys) (a : ActorId) (m : ActorMap) (order : List ActorId) : Sys :=
  s.postAll a (fun b => .acquire (m.getorput b 0)) order

/-- `send_release` for each reference that was swept. -/
def Sys.sendRelease (s : Sys) (a : ActorId) (gc : Gc) (releases : List ActorId) : Sys :=
  s.postAll a (fun b => .release (gc.foreign.released gc.mark b)) releases

/-- A message is out of flight, and its receiver knows what happened before it. -/
def Sys.receive (s : Sys) (m : Message) (rest : List Message) : Sys :=
  { s with
    know := Function.update s.know m.dest (insert m.id (s.know m.dest ∪ m.past))
    flight := rest }

/-- What the receiver of a message does with its counts. -/
def handleMessage (a : ActorId) (gc : Gc) (ps : List Addr) : Body → Except Fault Gc
  | .app g rounds roots _ =>
    match trace recvOps g rounds roots (Ctx.start a gc) with
    | .error e => .error e
    | .ok c => .ok c.gc.done
  | .acquire ref => .ok (acquire gc ref ps)
  | .release ref => release gc ref ps

def Sys.act (s : Sys) : Action → Except Fault Sys
  | .create creator orphaned a => .ok (s.create creator orphaned a)
  | .send a dest g rounds roots order =>
    match trace sendOps g rounds roots (Ctx.start a (s.gc a)) with
    | .error e => .error e
    | .ok c =>
      .ok (((s.sendAcquire a c.acquire order).post a dest (.app g rounds roots fun r =>
        c.count r != (s.gc a).counts a r)).setGc a c.gc.done)
  | .collect a g rounds roots ps order releases =>
    match mark g rounds roots ps (Ctx.start a (s.gc a)) with
    | .error e => .error e
    | .ok c =>
      .ok (((s.sendAcquire a c.acquire order).sendRelease a c.gc releases).setGc a
        c.gc.sweep.done)
  | .handle m rest ps =>
    match handleMessage m.dest (s.gc m.dest) ps m.body with
    | .error e => .error e
    | .ok gc => .ok ((s.receive m rest).setGc m.dest gc)

/-- The order of the objects of a message about counts. -/
def Body.Ordered (ps : List Addr) : Body → Prop
  | .app _ _ _ _ => True
  | .acquire ref => Lists ref.map ps
  | .release ref => Lists ref.map ps

/-- When an action can be taken: by an actor that exists, on memory that refers to actors that
exist, and on a message before which nothing to the same actor has happened.  Every map is iterated
over completely. -/
def Enabled (s : Sys) : Action → Prop
  | .create creator _ a => a ∉ s.actors ∧ ∀ b ∈ creator, b ∈ s.actors
  | .send a _ g rounds roots order =>
    a ∈ s.actors ∧ g.Within s.actors ∧ (∀ child ∈ roots, child.Within s.actors) ∧
      ∀ c, trace sendOps g rounds roots (Ctx.start a (s.gc a)) = .ok c → Lists c.acquire order
  | .collect a g rounds roots ps order releases =>
    a ∈ s.actors ∧ g.Within s.actors ∧ (∀ child ∈ roots, child.Within s.actors) ∧
      Lists (s.gc a).locals ps ∧
      ∀ c, mark g rounds roots ps (Ctx.start a (s.gc a)) = .ok c → Lists c.acquire order ∧
        releases.Nodup ∧ ∀ b, b ∈ releases ↔ (c.gc.foreign.released c.gc.mark b).Released
  | .handle m rest ps =>
    m.dest ∈ s.actors ∧ s.flight.Perm (m :: rest) ∧
      (∀ k ∈ rest, k.dest = m.dest → k.id ∉ m.past) ∧ m.body.Ordered ps

/-- What can be reached from the start. -/
inductive Reachable : Sys → Prop where
  | init : Reachable Sys.init
  | step {s s' : Sys} {action : Action} (h : Reachable s) (henabled : Enabled s action)
      (hact : s.act action = .ok s') : Reachable s'

end SpacePony.Orca
