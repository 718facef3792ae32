import SpacePony.Support.Cells
import SpacePony.Support.Hoare

/-!
# Runtime — the cycle detector

`gc/cycle.c`: the detector's views of the actors and the operations on them.
-/

namespace SpacePony.Cycle

open Cells Hoare

/-! ### State -/

abbrev ActorId := Nat
abbrev ViewId := Nat
abbrev Token := Nat

/-- `viewref_t`. -/
structure ViewRef where
  view : ViewId
  rc : UInt64
  deriving DecidableEq

inductive Color where
  | black | grey | white
  deriving DecidableEq

/-- `view_t`.  `view_rc` is the number of places that hold the view (`Accounted`), so that its 32 bits
wrap only when there are `2 ^ 32` of them. -/
structure View where
  actor : ActorId
  rc : UInt64
  viewRc : Nat
  blocked : Bool
  deferred : Bool
  color : Color
  map : List ViewRef
  perceived : Option Token
  deriving DecidableEq

/-- `viewmap_t`: views under their actors. -/
abbrev ViewMap := List (ActorId × ViewId)

/-- `perceived_t`; it is known by its token, which is never used again. -/
structure Perceived where
  ack : Nat
  map : ViewMap
  deriving DecidableEq

/-- What an operation does to actors. -/
inductive Effect where
  | conf (actor : ActorId) (token : Token)
  | destroy (actor : ActorId)
  deriving DecidableEq

/-- `detector_t`, with the memory of its views. -/
structure Detector where
  heap : List (Option View)
  views : ViewMap
  deferred : ViewMap
  perceived : List (Token × Perceived)
  nextToken : Token
  effects : List Effect
  deriving DecidableEq

/-- The detector at the start. -/
def Detector.empty : Detector := ⟨[], [], [], [], 0, []⟩

/-- What ends a run of the detector. -/
inductive Fault where
  /-- `pony_assert` fails. -/
  | assertion
  /-- Memory is used after it was freed. -/
  | useAfterFree
  /-- A scan takes more rounds than there are references. -/
  | endless
  deriving DecidableEq

/-- A function of the detector. -/
abbrev DetM := StateT Detector (Except Fault)

/-! ### Memory and maps -/

/-- `pony_assert`. -/
def assert (p : Prop) [Decidable p] : DetM Unit :=
  if p then pure () else throw .assertion

/-- Read a view. -/
def getV (v : ViewId) : DetM View := do
  let d ← get
  match cell d.heap v with
  | some x => pure x
  | none => throw .useAfterFree

/-- Write a view. -/
def setV (v : ViewId) (x : View) : DetM Unit :=
  modify fun d => { d with heap := write d.heap v x }

/-- `ponyint_viewmap_put`. -/
def put (m : ViewMap) (a : ActorId) (v : ViewId) : ViewMap := (a, v) :: m.filter (·.1 ≠ a)

/-- `ponyint_viewmap_remove`. -/
def remove (m : ViewMap) (a : ActorId) : ViewMap := m.filter (·.1 ≠ a)

/-- `view_free`: the map of a freed view goes with it. -/
def viewFree (v : ViewId) : DetM Unit := do
  let x ← getV v
  if x.viewRc - 1 = 0 then modify fun d => { d with heap := free d.heap v }
  else setV v { x with viewRc := x.viewRc - 1 }

/-- A view of an actor, before anything is known of it. -/
def newView (actor : ActorId) : View where
  actor := actor
  rc := 0
  viewRc := 1
  blocked := false
  deferred := false
  color := .black
  map := []
  perceived := none

/-- `get_view`. -/
def getView (actor : ActorId) (create : Bool) : DetM (Option ViewId) := do
  let d ← get
  match d.views.lookup actor with
  | some v => pure (some v)
  | none =>
    if create then do
      set { d with
        heap := alloc d.heap (newView actor)
        views := put d.views actor d.heap.length }
      pure (some d.heap.length)
    else pure none

/-! ### Deltas -/

/-- The reference to `find` in a map of references. -/
def setRef (map : List ViewRef) (find : ViewId) (rc : UInt64) : List ViewRef :=
  map.map fun ref => if ref.view = find then { ref with rc := rc } else ref

/-- The part of `apply_delta` for a positive count: a new reference is counted in the view it
points to. -/
def addRef (view find : ViewId) (rc : UInt64) : DetM Unit := do
  let x ← getV view
  if x.map.any (·.view = find) then setV view { x with map := setRef x.map find rc }
  else do
    setV view { x with map := ⟨find, rc⟩ :: x.map }
    let y ← getV find
    setV find { y with viewRc := y.viewRc + 1 }

/-- The part of `apply_delta` for a count of zero. -/
def dropRef (view find : ViewId) : DetM Unit := do
  let x ← getV view
  if x.map.any (·.view = find) then do
    setV view { x with map := x.map.filter (·.view ≠ find) }
    viewFree find
  else pure ()

/-- One round of `apply_delta`. -/
def applyOne (view : ViewId) (actor : ActorId) (rc : UInt64) : DetM Unit := do
  let find ← getView actor (0 < rc)
  match find with
  | none => pure ()
  | some find => if 0 < rc then addRef view find rc else dropRef view find

/-- `apply_delta`. -/
def applyDelta (view : ViewId) : List (ActorId × UInt64) → DetM Unit
  | [] => pure ()
  | (actor, rc) :: delta => do
      applyOne view actor rc
      applyDelta view delta

/-! ### Scans -/

/-- Take a view out of the deferred set if its flag is set, and clear the flag. -/
def undefer (x : View) : DetM View :=
  if x.deferred then do
    modify fun d => { d with deferred := remove d.deferred x.actor }
    pure { x with deferred := false }
  else pure x

/-- The end of `mark_grey`, for a view that holds `x`. -/
def greyView (v : ViewId) (rc : UInt64) (x : View) : DetM (Bool × Int) :=
  if x.color = .grey then do
    setV v { x with rc := x.rc - rc }
    pure (false, 0)
  else do
    assert (x.color = .black)
    setV v { x with rc := x.rc - rc, color := .grey }
    pure (true, 0)

/-- `mark_grey`. -/
def markGrey (v : ViewId) (rc : UInt64) : DetM (Bool × Int) := do
  let x ← getV v
  if x.blocked then do
    let x ← undefer x
    greyView v rc x
  else pure (false, 0)

/-- `mark_black`; the second result counts a white view. -/
def markBlack (v : ViewId) (rc : UInt64) : DetM (Bool × Int) := do
  let x ← getV v
  if x.blocked then
    if x.color = .black then do
      setV v { x with rc := x.rc + rc }
      pure (false, 0)
    else do
      setV v { x with rc := x.rc + rc, color := .black }
      pure (true, if x.color = .white then 1 else 0)
  else do
    assert (x.color = .black)
    pure (false, 0)

/-- The loop that the four scans share: take a reference from the stack, and push the
references of its view if it is to be followed.  The counts of the rounds add up; they count views,
and an `int` holds them while there are fewer than `2 ^ 31`. -/
def scanLoop (visit : ViewId → UInt64 → DetM (Bool × Int)) :
    Nat → List ViewRef → Int → DetM Int
  | _, [], count => pure count
  | 0, _ :: _, _ => throw .endless
  | n + 1, ref :: stack, count => do
      let r ← visit ref.view ref.rc
      if r.1 then do
        let x ← getV ref.view
        scanLoop visit n (x.map.reverse ++ stack) (count + r.2)
      else scanLoop visit n stack (count + r.2)

/-- A bound on the rounds of a scan: each view is followed at most once. -/
def scanBound (d : Detector) : Nat := 1 + total (fun x : View => x.map.length) d.heap

/-- A scan from a view. -/
def scan (visit : ViewId → UInt64 → DetM (Bool × Int)) (v : ViewId) (rc : UInt64) : DetM Int := do
  let d ← get
  scanLoop visit (scanBound d) [⟨v, rc⟩] 0

/-- `scan_grey`. -/
def scanGrey (v : ViewId) (rc : UInt64) : DetM Int := scan markGrey v rc

/-- `scan_black`. -/
def scanBlack (v : ViewId) (rc : UInt64) : DetM Int := scan markBlack v rc

/-- `mark_white`. -/
def markWhite (v : ViewId) (_ : UInt64) : DetM (Bool × Int) := do
  let x ← getV v
  if x.color = .grey then do
    assert (x.blocked = true)
    if 0 < x.rc then do
      let count ← scanBlack v 0
      pure (false, -count)
    else do
      assert (x.perceived = none)
      setV v { x with color := .white }
      pure (true, 1)
  else pure (false, 0)

/-- `scan_white`. -/
def scanWhite (v : ViewId) : DetM Int := scan markWhite v 0

/-- The part of `collect_view` for a white view: it joins the perceived cycle. -/
def joinCycle (token : Token) (v : ViewId) (x : View) : DetM Unit := do
  assert (x.deferred = false)
  assert (x.perceived = none)
  setV v { x with perceived := some token }
  modify fun d => { d with perceived := d.perceived.map fun e =>
    if e.1 = token then (e.1, { e.2 with map := put e.2.map x.actor v }) else e }

/-- `collect_view`. -/
def collectView (token : Token) (v : ViewId) (rc : UInt64) : DetM (Bool × Int) := do
  let x ← getV v
  if x.color = .white then do
    joinCycle token v x
    markBlack v rc
  else markBlack v rc

/-- `collect_white`. -/
def collectWhite (token : Token) (v : ViewId) (rc : UInt64) : DetM Int :=
  scan (collectView token) v rc

/-- The part of `detect` for a cycle: it is recorded, and its members are asked to confirm. -/
def perceive (v : ViewId) (count : Int) : DetM Unit := do
  let d ← get
  let token := d.nextToken
  set { d with perceived := (token, ⟨0, []⟩) :: d.perceived, nextToken := token + 1 }
  let count' ← collectWhite token v 0
  assert (count' = count)
  let d ← get
  match d.perceived.lookup token with
  | some per => do
      assert ((per.map.length : Int) = count)
      modify fun d => { d with effects := d.effects ++ per.map.map fun e => .conf e.1 token }
  | none => throw .useAfterFree

/-- `detect`. -/
def detect (v : ViewId) : DetM Bool := do
  let x ← getV v
  assert (x.perceived = none)
  let _ ← scanGrey v 0
  let count ← scanWhite v
  assert (0 ≤ count)
  if count = 0 then pure false
  else do
    perceive v count
    pure true

/-- One round of `deferred`, for the view of an actor in the deferred set. -/
def deferredRound (actor : ActorId) : DetM Unit := do
  let d ← get
  match d.deferred.lookup actor with
  | none => pure ()
  | some v => do
      let x ← getV v
      assert (x.deferred = true)
      modify fun d => { d with deferred := remove d.deferred actor }
      setV v { x with deferred := false }
      let _ ← detect v
      pure ()

/-! ### Cycles -/

/-- The loop of `expire` over the members of a cycle. -/
def clearPerceived : ViewMap → DetM Unit
  | [] => pure ()
  | (_, v) :: members => do
      let x ← getV v
      setV v { x with perceived := none }
      clearPerceived members

/-- `expire`. -/
def expire (v : ViewId) : DetM Unit := do
  let x ← getV v
  match x.perceived with
  | none => pure ()
  | some token => do
      let d ← get
      match d.perceived.lookup token with
      | none => throw .useAfterFree
      | some per => do
          clearPerceived per.map
          modify fun d => { d with perceived := d.perceived.filter (·.1 ≠ token) }
          let x ← getV v
          setV v { x with perceived := none }

/-- Take a view out of the deferred set if its flag is set; the flag stays. -/
def dropDeferred (x : View) : DetM Unit :=
  if x.deferred then modify fun d => { d with deferred := remove d.deferred x.actor }
  else pure ()

/-- The first loop of `collect`: the members are taken out of the deferred set. -/
def collectMark (token : Token) : ViewMap → DetM Unit
  | [] => pure ()
  | (_, v) :: members => do
      let x ← getV v
      assert (x.perceived = some token)
      dropDeferred x
      collectMark token members

/-- The last loop of `collect`: the members are destroyed. -/
def collectFree : ViewMap → DetM Unit
  | [] => pure ()
  | (_, v) :: members => do
      let x ← getV v
      modify fun d => { d with
        views := remove d.views x.actor
        effects := d.effects ++ [.destroy x.actor] }
      viewFree v
      collectFree members

/-- `collect`. -/
def collect (token : Token) (per : Perceived) : DetM Unit := do
  modify fun d => { d with perceived := d.perceived.filter (·.1 ≠ token) }
  collectMark token per.map
  collectFree per.map

/-! ### Messages -/

/-- The view of an actor without references, in `block`. -/
def reapView (v : ViewId) : DetM Unit := do
  let x ← getV v
  dropDeferred x
  expire v
  modify fun d => { d with views := remove d.views x.actor }
  viewFree v

/-- The branch of `block` for a zombie. -/
def reap (actor : ActorId) : DetM Unit := do
  let view ← getView actor false
  match view with
  | some v => do
      reapView v
      modify fun d => { d with effects := d.effects ++ [.destroy actor] }
  | none => modify fun d => { d with effects := d.effects ++ [.destroy actor] }

/-- The end of `block`: the view goes to the deferred set. -/
def defer (v : ViewId) : DetM Unit := do
  let x ← getV v
  if x.deferred then pure ()
  else do
    modify fun d => { d with deferred := put d.deferred x.actor v }
    setV v { x with deferred := true }

/-- `block`. -/
def block (actor : ActorId) (rc : UInt64) (delta : List (ActorId × UInt64)) : DetM Unit :=
  if rc = 0 then reap actor
  else do
    let view ← getView actor true
    match view with
    | none => throw .assertion
    | some v => do
        let x ← getV v
        setV v { x with rc := rc }
        applyDelta v delta
        let x ← getV v
        setV v { x with blocked := true }
        expire v
        defer v

/-- `unblock`. -/
def unblock (actor : ActorId) : DetM Unit := do
  let d ← get
  match d.views.lookup actor with
  | none => throw .assertion
  | some v => do
      let x ← getV v
      let x ← undefer { x with blocked := false }
      setV v x
      expire v

/-- `ack`. -/
def ack (token : Token) : DetM Unit := do
  let d ← get
  match d.perceived.lookup token with
  | none => pure ()
  | some per =>
    if per.ack + 1 = per.map.length then collect token per
    else modify fun d => { d with perceived := d.perceived.map fun e =>
      if e.1 = token then (e.1, { e.2 with ack := e.2.ack + 1 }) else e }

/-! ### Runs -/

/-- An operation of the detector, or a new order in a hash map. -/
inductive Op where
  | block (actor : ActorId) (rc : UInt64) (delta : List (ActorId × UInt64))
  | unblock (actor : ActorId)
  | deferred (actor : ActorId)
  | ack (token : Token)
  | reorder (v : ViewId) (map : List ViewRef)
  | reorderCycle (token : Token) (map : ViewMap)

/-- The references of a view in another order. -/
def reorder (v : ViewId) (map : List ViewRef) : DetM Unit := do
  let x ← getV v
  assert (map.isPerm x.map = true)
  setV v { x with map := map }

/-- The members of a cycle in another order. -/
def reorderCycle (token : Token) (map : ViewMap) : DetM Unit :=
  modify fun d => { d with perceived := d.perceived.map fun e =>
    if e.1 = token ∧ map.isPerm e.2.map = true then (e.1, { e.2 with map := map }) else e }

/-- One operation. -/
def step : Op → DetM Unit
  | .block actor rc delta => block actor rc delta
  | .unblock actor => unblock actor
  | .deferred actor => deferredRound actor
  | .ack token => ack token
  | .reorder v map => reorder v map
  | .reorderCycle token map => reorderCycle token map

/-- A run from the start, each operation with a condition on the state before it. -/
inductive Run (C : Detector → Op → Prop) : Detector → Prop where
  | start : Run C .empty
  | step {d d' : Detector} (op : Op) (h : Run C d) (hc : C d op)
      (hs : step op d = .ok ((), d')) : Run C d'

/-- Operations one after another. -/
def steps : List Op → DetM Unit
  | [] => pure ()
  | op :: ops => do
      step op
      steps ops

theorem Run.steps {C : Detector → Op → Prop} {d d' : Detector} (h : Run C d) (ops : List Op)
    (hC : ∀ op ∈ ops, ∀ d, C d op) (hs : steps ops d = .ok ((), d')) : Run C d' := by
  induction ops generalizing d with
  | nil =>
    obtain rfl : d = d' := congrArg Prod.snd (Except.ok.inj hs)
    exact h
  | cons op ops ih =>
    obtain ⟨_, d₁, hop, hrest⟩ := bind_ok hs
    obtain ⟨hop', hC⟩ := List.forall_mem_cons.1 hC
    exact ih (h.step op (hop' d) hop) hC hrest

/-! ### An example

Two actors that refer to each other are perceived as a cycle, while a third comes and goes. -/

def pairAndThird : Detector where
  heap := [
    some { newView 0 with rc := 1, viewRc := 2, blocked := true, map := [⟨1, 1⟩], perceived := some 0 },
    some { newView 1 with rc := 1, viewRc := 2, blocked := true, map := [⟨0, 1⟩], perceived := some 0 },
    some { newView 2 with rc := 1 }]
  views := [(2, 2), (1, 1), (0, 0)]
  deferred := []
  perceived := [(0, ⟨0, [(1, 1), (0, 0)]⟩)]
  nextToken := 1
  effects := [.conf 1 0, .conf 0 0]

/-- The third actor has been reaped. -/
def pairOnly : Detector :=
  { pairAndThird with
    heap := pairAndThird.heap.set 2 none
    views := [(1, 1), (0, 0)]
    effects := [.conf 1 0, .conf 0 0, .destroy 2] }

/-- The run of the pair and the third actor, for a condition that its messages meet. -/
theorem run_pairAndThird {C : Detector → Op → Prop}
    (hblock : ∀ d a rc delta, rc ≠ 0 → C d (.block a rc delta)) (hunblock : ∀ d a, C d (.unblock a))
    (hdeferred : ∀ d a, C d (.deferred a)) : Run C pairAndThird := by
  refine Run.start.steps [.block 0 1 [(1, 1)], .block 1 1 [(0, 1)], .deferred 0, .block 2 1 [],
    .unblock 2] ?_ (by decide +kernel)
  simp only [List.forall_mem_cons]
  exact ⟨fun d => hblock d _ _ _ (by decide), fun d => hblock d _ _ _ (by decide),
    fun d => hdeferred d _, fun d => hblock d _ _ _ (by decide), fun d => hunblock d _, nofun⟩

theorem step_pairAndThird : step (.block 2 0 []) pairAndThird = .ok ((), pairOnly) := by
  decide +kernel

/-- The run that goes on to reap the third actor. -/
theorem run_pairOnly {C : Detector → Op → Prop}
    (hblock : ∀ d a rc delta, rc ≠ 0 → C d (.block a rc delta)) (hunblock : ∀ d a, C d (.unblock a))
    (hdeferred : ∀ d a, C d (.deferred a)) (hreap : C pairAndThird (.block 2 0 [])) :
    Run C pairOnly :=
  (run_pairAndThird hblock hunblock hdeferred).step (.block 2 0 []) hreap step_pairAndThird

end SpacePony.Cycle
