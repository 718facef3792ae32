import Mathlib.Data.Finset.Insert
import Mathlib.Logic.Function.Basic

/-!
# Runtime — tracing

`gc/gc.c`, `gc/trace.c`: the functions that trace the objects and actors of a message when it is
sent and received, and those of an actor when it is collected.
-/

namespace SpacePony.Orca

/-! ### State -/

abbrev ActorId := Nat
abbrev Addr := Nat

/-- `GC_INC_MORE`. -/
def incMore : Nat := 256

/-- `make_might_reference_actor` of the compiler. -/
def makeMightReferenceActor : Bool := true

/-- `pony_type_t`: what is read of it, and that the compiler emitted it. -/
structure Desc where
  mightReferenceActor : Bool
  trace : Bool
  emitted : mightReferenceActor = makeMightReferenceActor
  deriving DecidableEq

inductive Mutability where
  | traceMutable | traceImmutable | traceOpaque
  deriving DecidableEq

/-- `object_t`. -/
structure Obj where
  rc : Nat
  mark : Nat
  immutable : Bool
  deriving DecidableEq

/-- `objectmap_t`. -/
abbrev ObjMap := Addr → Option Obj

/-- `actorref_t`. -/
structure ActorRef where
  rc : Nat
  mark : Nat
  map : ObjMap

/-- `actormap_t`. -/
abbrev ActorMap := ActorId → Option ActorRef

/-- `gc_t`. -/
structure Gc where
  mark : Nat
  rcMark : Nat
  rc : Nat
  locals : ObjMap
  foreign : ActorMap

/-- `pony_ctx_t`, with the counts of the current actor and the marks in its heap. -/
structure Ctx where
  current : ActorId
  gc : Gc
  acquire : ActorMap
  stack : List Addr
  marked : List Addr

/-- What ends a trace. -/
inductive Fault where
  /-- `pony_assert` fails. -/
  | assertion
  /-- A count goes below zero. -/
  | underflow
  /-- The bound on the rounds is used up. -/
  | endless
  deriving DecidableEq

/-- What a trace function calls for a field: `pony_trace`, `pony_traceknown` or
`pony_traceunknown`. -/
inductive Child where
  | raw (p : Addr)
  | object (p : Addr) (m : Mutability)
  | actor (a : ActorId)
  deriving DecidableEq

/-- The memory as it is traced: `ponyint_pagemap_get` for the owner of an address, the type of the
object there and the fields it has. -/
structure Graph where
  owner : Addr → Option ActorId
  desc : Addr → Option Desc
  fields : Addr → List Child

/-! ### Entries -/

/-- `object_alloc`: a new object is unmarked. -/
def newObj (mark : Nat) : Obj := ⟨0, mark - 1, false⟩

/-- `actorref_alloc`: a new reference is unmarked. -/
def newRef (mark : Nat) : ActorRef := ⟨0, mark - 1, fun _ => none⟩

/-- `ponyint_objectmap_getorput`, what it returns. -/
def ObjMap.getorput (m : ObjMap) (p : Addr) (mark : Nat) : Obj := (m p).getD (newObj mark)

/-- `ponyint_actormap_getorput`, what it returns. -/
def ActorMap.getorput (m : ActorMap) (a : ActorId) (mark : Nat) : ActorRef :=
  (m a).getD (newRef mark)

def ObjMap.put (m : ObjMap) (p : Addr) (obj : Obj) : ObjMap := Function.update m p (some obj)

def ActorMap.put (m : ActorMap) (a : ActorId) (ref : ActorRef) : ActorMap :=
  Function.update m a (some ref)

/-- An object of a reference is written. -/
def ActorMap.putObj (m : ActorMap) (a : ActorId) (mark : Nat) (p : Addr) (obj : Obj) : ActorMap :=
  m.put a { m.getorput a mark with map := (m.getorput a mark).map.put p obj }

def Ctx.setForeign (c : Ctx) (m : ActorMap) : Ctx := { c with gc := { c.gc with foreign := m } }

def Ctx.setLocals (c : Ctx) (m : ObjMap) : Ctx := { c with gc := { c.gc with locals := m } }

/-- `might_reference_actor`. -/
def mightReferenceActor (t : Option Desc) : Bool := t.any Desc.mightReferenceActor

/-- `recurse`: memory without a type has no trace function. -/
def recurse (c : Ctx) (p : Addr) (t : Option Desc) : Ctx :=
  if t.any Desc.trace then { c with stack := p :: c.stack } else c

/-- `acquire_actor`. -/
def acquireActor (c : Ctx) (a : ActorId) : Ctx :=
  let aref := c.acquire.getorput a 0
  { c with acquire := c.acquire.put a { aref with rc := aref.rc + incMore } }

/-- `acquire_object`. -/
def acquireObject (c : Ctx) (a : ActorId) (p : Addr) (immutable : Bool) : Ctx :=
  let obj := (c.acquire.getorput a 0).map.getorput p 0
  { c with acquire := c.acquire.putObj a 0 p ⟨obj.rc + incMore, obj.mark, immutable⟩ }

/-! ### Actors -/

/-- `send_local_actor`. -/
def sendLocalActor (c : Ctx) : Ctx :=
  if c.gc.rcMark ≠ c.gc.mark then
    { c with gc := { c.gc with rcMark := c.gc.mark, rc := c.gc.rc + 1 } }
  else c

/-- `recv_local_actor`. -/
def recvLocalActor (c : Ctx) : Except Fault Ctx :=
  if c.gc.rcMark ≠ c.gc.mark then
    if 0 < c.gc.rc then .ok { c with gc := { c.gc with rcMark := c.gc.mark, rc := c.gc.rc - 1 } }
    else .error .assertion
  else .ok c

/-- `send_remote_actor`. -/
def sendRemoteActor (c : Ctx) (a : ActorId) : Ctx :=
  let aref := c.gc.foreign.getorput a c.gc.mark
  if aref.mark = c.gc.mark then c
  else if aref.rc ≤ 1 then
    acquireActor (c.setForeign (c.gc.foreign.put a
      { aref with mark := c.gc.mark, rc := aref.rc + (incMore - 1) })) a
  else c.setForeign (c.gc.foreign.put a { aref with mark := c.gc.mark, rc := aref.rc - 1 })

/-- `recv_remote_actor`. -/
def recvRemoteActor (c : Ctx) (a : ActorId) : Ctx :=
  let aref := c.gc.foreign.getorput a c.gc.mark
  if aref.mark = c.gc.mark then c
  else c.setForeign (c.gc.foreign.put a { aref with mark := c.gc.mark, rc := aref.rc + 1 })

/-- `mark_remote_actor`. -/
def markRemoteActor (c : Ctx) (a : ActorId) : Ctx :=
  let aref := c.gc.foreign.getorput a c.gc.mark
  if aref.mark = c.gc.mark then c
  else if aref.rc = 0 then
    acquireActor (c.setForeign (c.gc.foreign.put a
      { aref with mark := c.gc.mark, rc := aref.rc + incMore })) a
  else c.setForeign (c.gc.foreign.put a { aref with mark := c.gc.mark })

/-- `ponyint_gc_sendactor`. -/
def sendActor (c : Ctx) (a : ActorId) : Except Fault Ctx :=
  .ok (if a = c.current then sendLocalActor c else sendRemoteActor c a)

/-- `ponyint_gc_recvactor`. -/
def recvActor (c : Ctx) (a : ActorId) : Except Fault Ctx :=
  if a = c.current then recvLocalActor c else .ok (recvRemoteActor c a)

/-- `ponyint_gc_markactor`. -/
def markActor (c : Ctx) (a : ActorId) : Except Fault Ctx :=
  .ok (if a = c.current then c else markRemoteActor c a)

/-! ### Objects -/

/-- An object that is traced as immutable is immutable from then on. -/
def Obj.traced (obj : Obj) (m : Mutability) : Obj :=
  if m = .traceImmutable then { obj with immutable := true } else obj

/-- The end of the functions that remember immutability: an object that can change, or that might
refer to an actor, is traced further. -/
def followLocal (c : Ctx) (p : Addr) (t : Option Desc) (m : Mutability) (immutable : Bool) : Ctx :=
  if m = .traceOpaque then c
  else if !immutable || mightReferenceActor t then recurse c p t
  else c

/-- The end of `send_remote_object` and `mark_remote_object`. -/
def followRemote (c : Ctx) (p : Addr) (t : Option Desc) (m : Mutability) : Ctx :=
  if m = .traceOpaque then c
  else if m = .traceMutable ∨ mightReferenceActor t = true then recurse c p t
  else c

/-- `send_local_object`. -/
def sendLocalObject (c : Ctx) (p : Addr) (t : Option Desc) (m : Mutability) : Ctx :=
  let obj := c.gc.locals.getorput p c.gc.mark
  if obj.mark = c.gc.mark then c
  else
    let c := sendLocalActor c
    let obj := ({ obj with rc := obj.rc + 1, mark := c.gc.mark } : Obj).traced m
    followLocal (c.setLocals (c.gc.locals.put p obj)) p t m obj.immutable

/-- `recv_local_object`. -/
def recvLocalObject (c : Ctx) (p : Addr) (t : Option Desc) (m : Mutability) : Except Fault Ctx :=
  match c.gc.locals p with
  | none => .error .assertion
  | some obj =>
    if obj.mark = c.gc.mark then .ok c
    else
      match recvLocalActor c with
      | .error e => .error e
      | .ok c =>
        if obj.rc = 0 then .error .underflow
        else
          let obj := ({ obj with rc := obj.rc - 1, mark := c.gc.mark } : Obj).traced m
          .ok (followLocal (c.setLocals (c.gc.locals.put p obj)) p t m obj.immutable)

/-- `mark_local_object`; shallow marks play no part in a trace. -/
def markLocalObject (c : Ctx) (p : Addr) (t : Option Desc) (m : Mutability) : Ctx :=
  if m ≠ .traceOpaque then
    if p ∈ c.marked then c else recurse { c with marked := p :: c.marked } p t
  else c

/-- `send_remote_object`. -/
def sendRemoteObject (c : Ctx) (a : ActorId) (p : Addr) (t : Option Desc) (m : Mutability) : Ctx :=
  let obj := (c.gc.foreign.getorput a c.gc.mark).map.getorput p c.gc.mark
  if obj.mark = c.gc.mark then c
  else
    let c := sendRemoteActor c a
    let put := fun obj : Obj => c.setForeign (c.gc.foreign.putObj a c.gc.mark p obj)
    if m = .traceImmutable ∧ obj.immutable = false ∧ 0 < obj.rc then
      -- received as mutable, sent as immutable: the owner is told, and the trace goes on
      followRemote (acquireObject (put ⟨obj.rc + (incMore - 1), c.gc.mark, true⟩) a p true) p t
        .traceMutable
    else if obj.rc ≤ 1 then
      let obj := obj.traced m
      followRemote (acquireObject (put ⟨obj.rc + (incMore - 1), c.gc.mark, obj.immutable⟩) a p
        obj.immutable) p t m
    else followRemote (put ⟨obj.rc - 1, c.gc.mark, obj.immutable⟩) p t m

/-- `recv_remote_object`. -/
def recvRemoteObject (c : Ctx) (a : ActorId) (p : Addr) (t : Option Desc) (m : Mutability) : Ctx :=
  let obj := (c.gc.foreign.getorput a c.gc.mark).map.getorput p c.gc.mark
  if obj.mark = c.gc.mark then c
  else
    let c := recvRemoteActor c a
    let obj := ({ obj with rc := obj.rc + 1, mark := c.gc.mark } : Obj).traced m
    followLocal (c.setForeign (c.gc.foreign.putObj a c.gc.mark p obj)) p t m obj.immutable

/-- `mark_remote_object`. -/
def markRemoteObject (c : Ctx) (a : ActorId) (p : Addr) (t : Option Desc) (m : Mutability) : Ctx :=
  let obj := (c.gc.foreign.getorput a c.gc.mark).map.getorput p c.gc.mark
  if obj.mark = c.gc.mark then c
  else
    let c := markRemoteActor c a
    let put := fun obj : Obj => c.setForeign (c.gc.foreign.putObj a c.gc.mark p obj)
    if m = .traceImmutable ∧ obj.immutable = false ∧ 0 < obj.rc then
      followRemote (acquireObject (put ⟨obj.rc + incMore, c.gc.mark, true⟩) a p true) p t
        .traceMutable
    else if obj.rc = 0 then
      let obj := obj.traced m
      followRemote (acquireObject (put ⟨obj.rc + incMore, c.gc.mark, obj.immutable⟩) a p
        obj.immutable) p t m
    else followRemote (put { obj with mark := c.gc.mark }) p t m

/-- Memory that no actor owns is not counted, but traced. -/
def foreignMemory (c : Ctx) (p : Addr) (t : Option Desc) (m : Mutability) : Ctx :=
  if m ≠ .traceOpaque then recurse c p t else c

/-- `ponyint_gc_sendobject`. -/
def sendObject (g : Graph) (c : Ctx) (p : Addr) (t : Option Desc) (m : Mutability) :
    Except Fault Ctx :=
  match g.owner p with
  | none => .ok (foreignMemory c p t m)
  | some a => .ok (if a = c.current then sendLocalObject c p t m else sendRemoteObject c a p t m)

/-- `ponyint_gc_recvobject`. -/
def recvObject (g : Graph) (c : Ctx) (p : Addr) (t : Option Desc) (m : Mutability) :
    Except Fault Ctx :=
  match g.owner p with
  | none => .ok (foreignMemory c p t m)
  | some a => if a = c.current then recvLocalObject c p t m else .ok (recvRemoteObject c a p t m)

/-- `ponyint_gc_markobject`. -/
def markObject (g : Graph) (c : Ctx) (p : Addr) (t : Option Desc) (m : Mutability) :
    Except Fault Ctx :=
  match g.owner p with
  | none => .ok (foreignMemory c p t m)
  | some a => .ok (if a = c.current then markLocalObject c p t m else markRemoteObject c a p t m)

/-! ### Traces -/

/-- `ctx->trace_object` and `ctx->trace_actor`. -/
structure Ops where
  object : Graph → Ctx → Addr → Option Desc → Mutability → Except Fault Ctx
  actor : Ctx → ActorId → Except Fault Ctx

def sendOps : Ops := ⟨sendObject, sendActor⟩

def recvOps : Ops := ⟨recvObject, recvActor⟩

def markOps : Ops := ⟨markObject, markActor⟩

/-- `pony_trace`, `pony_traceknown`, `pony_traceunknown`. -/
def traceChild (ops : Ops) (g : Graph) (c : Ctx) : Child → Except Fault Ctx
  | .raw p => ops.object g c p none .traceOpaque
  | .object p m => ops.object g c p (g.desc p) m
  | .actor a => ops.actor c a

/-- The fields of an object one after another. -/
def traceFields (ops : Ops) (g : Graph) : List Child → Ctx → Except Fault Ctx
  | [], c => .ok c
  | child :: fields, c =>
    match traceChild ops g c child with
    | .error e => .error e
    | .ok c => traceFields ops g fields c

/-- `ponyint_gc_handlestack`. -/
def handlestack (ops : Ops) (g : Graph) : Nat → Ctx → Except Fault Ctx
  | 0, c => if c.stack = [] then .ok c else .error .endless
  | n + 1, c =>
    match c.stack with
    | [] => .ok c
    | p :: stack =>
      match traceFields ops g (g.fields p) { c with stack := stack } with
      | .error e => .error e
      | .ok c => handlestack ops g n c

/-- A trace from the roots. -/
def trace (ops : Ops) (g : Graph) (n : Nat) (roots : List Child) (c : Ctx) : Except Fault Ctx :=
  match traceFields ops g roots c with
  | .error e => .error e
  | .ok c => handlestack ops g n c

/-- The context of an actor before a trace. -/
def Ctx.start (a : ActorId) (gc : Gc) : Ctx := ⟨a, gc, fun _ => none, [], []⟩

/-- `ponyint_gc_done`. -/
def Gc.done (gc : Gc) : Gc := { gc with mark := gc.mark + 1 }

end SpacePony.Orca
