import Mathlib.Data.List.Induction
import SpacePony.Support.Mailbox

/-!
# Packages — promises

`promise.pony` and `_then.pony`: promises, the steps that are attached to them, and the actors that
`join`, `add` and `select` make.  A program makes calls one after the other, and messages are
delivered in any order.
-/

namespace SpacePony.Promises

open Mailbox

/-- A promise: the one that the `k`-th call returns, or the one of the `i`-th `next` inside it. -/
inductive Addr where
  | result (k : Nat)
  | input (k i : Nat)
deriving DecidableEq

/-- A value: `None`, the primitive `_None` of the package, one of the program's own, a tuple, an
array, or a promise. -/
inductive Val (α : Type) where
  | unit
  | noneMark
  | atom (x : α)
  | pair (a b : Val α)
  | array (xs : List (Val α))
  | promise (p : Addr)

variable {α : Type}

/-- How a promise is settled. -/
inductive Outcome (α : Type) where
  | fulfilled (v : Val α)
  | rejected

/-- The functions that are given to `next` as `fulfill`: of the program, or for the `k`-th call, of
`join`, `add`, `select`, or `flatten_next` on the promise and on the inner one. -/
inductive Fulfill (α : Type) where
  | user (f : Val α → Option (Val α))
  | join (k : Nat)
  | addA (k : Nat)
  | addB (k : Nat)
  | select (k : Nat) (other : Addr)
  | flatten (k : Nat) (f : Val α → Option Addr)
  | inner (k : Nat)

/-- The functions that are given to `next` as `rejected`. -/
inductive Reject (α : Type) where
  | user (r : Option (Val α))
  | reject (p : Addr)
  | always
  | flatten (k : Nat) (r : Option Addr)
  | inner (k : Nat)

/-- `class _Then`. -/
structure Then (α : Type) where
  fulfill : Fulfill α
  rejected : Reject α
  promise : Addr
  active : Bool := true

/-- The messages: the behaviours of a promise, and those of the actors behind `join`, `add` and
`select`. -/
inductive Msg (α : Type) where
  | apply (p : Addr) (v : Val α)
  | reject (p : Addr)
  | attach (p : Addr) (s : Then α)
  | joinApply (k : Nat) (v : Val α)
  | fulfillA (k : Nat) (v : Val α)
  | fulfillB (k : Nat) (v : Val α)
  | selectApply (k : Nat) (v : Val α) (other : Addr)

/-! ### Steps -/

/-- The step of `next` inside the `k`-th call, on its `i`-th input. -/
def step (k i : Nat) (fulfill : Fulfill α) (rejected : Reject α) : Then α :=
  { fulfill := fulfill, rejected := rejected, promise := .input k i }

/-- What a `fulfill` sends and returns; `none` is an error.  That of `flatten_next` attaches a step to
the promise that `f` returns, or rejects the outer promise after an error. -/
def Fulfill.apply : Fulfill α → Val α → List (Msg α) × Option (Val α)
  | .user f, v => ([], f v)
  | .join k, v => ([.joinApply k v], some .unit)
  | .addA k, v => ([.fulfillA k v], some .unit)
  | .addB k, v => ([.fulfillB k v], some .unit)
  | .select k other, v => ([.selectApply k v other], some .unit)
  | .flatten k f, v =>
    match f v with
    | some q => ([.attach q (step k 1 (.inner k) (.inner k))], some .unit)
    | none => ([.reject (.result k)], some .unit)
  | .inner k, fulfilled => ([.apply (.result k) fulfilled], some .unit)

/-- What a `rejected` sends and returns.  That of `flatten_next` drops the promise that `r` returns. -/
def Reject.apply : Reject α → List (Msg α) × Option (Val α)
  | .user r => ([], r)
  | .reject p => ([.reject p], some .unit)
  | .always => ([], none)
  | .flatten k r =>
    match r with
    | some _ => ([], some .unit)
    | none => ([.reject (.result k)], some .unit)
  | .inner k => ([.reject (.result k)], none)

/-- `_promise(...)`, or `_promise.reject()` after an error. -/
def Then.pass (s : Then α) : Option (Val α) → Msg α
  | some v => .apply s.promise v
  | none => .reject s.promise

/-- `_Then.apply` and `_Then.reject`: what the step sends.  The step is gone after it. -/
def Then.run (s : Then α) (o : Outcome α) : List (Msg α) :=
  if s.active then
    let (ms, res) := match o with
      | .fulfilled v => s.fulfill.apply v
      | .rejected => s.rejected.apply
    ms ++ [s.pass res]
  else []

/-! ### Promises -/

/-- `actor Promise`; no value is `_Pending`. -/
structure Promise (α : Type) where
  value : Option (Outcome α) := none
  list : List (Then α) := []

/-- The first outcome settles the promise and runs the steps in the list. -/
def Promise.settle (o : Outcome α) (p : Promise α) : Promise α × List (Then α × Outcome α) :=
  match p.value with
  | some _ => (p, [])
  | none => ({ value := some o, list := [] }, p.list.map (·, o))

/-- `Promise.apply`, and the steps that it runs. -/
def Promise.apply (v : Val α) : Promise α → Promise α × List (Then α × Outcome α) :=
  Promise.settle (.fulfilled v)

/-- `Promise.reject`. -/
def Promise.reject : Promise α → Promise α × List (Then α × Outcome α) := Promise.settle .rejected

/-- `Promise._attach`. -/
def Promise.attach (s : Then α) (p : Promise α) : Promise α × List (Then α × Outcome α) :=
  match p.value with
  | none => ({ p with list := p.list ++ [s] }, [])
  | some o => (p, [(s, o)])

/-! ### The actors behind `join`, `add` and `select` -/

/-- `actor _Join`, and the objects of `add` and `select`.  `isA` and `isB` are the tests that the
`match`es of `add` make. -/
inductive Helper (α : Type) where
  | absent
  | join (xs : List (Val α)) (space : Nat) (p : Addr)
  | add (a b : Val α) (isA isB : Val α → Bool) (p : Addr)
  | select (complete : Bool) (p : Addr)

/-- What a helper does with a message, and what it sends. -/
def Helper.receive : Msg α → Helper α → Helper α × List (Msg α)
  | .joinApply _ v, .join xs space p =>
    let xs := xs ++ [v]
    (.join xs space p, if xs.length = space then [.apply p (.array xs)] else [])
  | .fulfillA _ v, .add a b isA isB p =>
    if isB b then (.add a b isA isB p, [.apply p (.pair v b)]) else (.add v b isA isB p, [])
  | .fulfillB _ v, .add a b isA isB p =>
    if isA a then (.add a b isA isB p, [.apply p (.pair a v)]) else (.add a v isA isB p, [])
  | .selectApply _ v other, .select complete p =>
    if complete then (.select complete p, [])
    else (.select true p, [.apply p (.pair v (.promise other))])
  | _, h => (h, [])

/-! ### Calls -/

/-- A call of the program. -/
inductive Call (α : Type) where
  | create
  | apply (p : Addr) (v : Val α)
  | reject (p : Addr)
  | next (p : Addr) (f : Val α → Option (Val α)) (r : Option (Val α))
  | join (ps : List Addr)
  | add (p q : Addr)
  | select (p q : Addr)

/-- The steps that the `k`-th call attaches, each with the promise it goes to. -/
def Call.attaches (k : Nat) : Call α → List (Addr × Then α)
  | .next p f r => [(p, { fulfill := .user f, rejected := .user r, promise := .result k })]
  | .join ps => ps.mapIdx fun i p => (p, step k i (.join k) (.reject (.result k)))
  | .add p q =>
    [(p, step k 0 (.addA k) (.reject (.result k))), (q, step k 1 (.addB k) (.reject (.result k)))]
  | .select p q => [(p, step k 0 (.select k q) .always), (q, step k 1 (.select k p) .always)]
  | .create | .apply _ _ | .reject _ => []

/-- What settles a promise at once: a call of `apply` or `reject`, or a `join` of no promises. -/
def Call.settles (k : Nat) : Call α → List (Addr × Outcome α)
  | .apply p v => [(p, .fulfilled v)]
  | .reject p => [(p, .rejected)]
  | .join [] => [(.result k, .fulfilled (.array []))]
  | .create | .next _ _ _ | .join (_ :: _) | .add _ _ | .select _ _ => []

/-- The message that settles a promise. -/
def settleMsg : Addr × Outcome α → Msg α
  | (p, .fulfilled v) => .apply p v
  | (p, .rejected) => .reject p

/-- The messages that the `k`-th call sends. -/
def Call.sends (k : Nat) (c : Call α) : List (Msg α) :=
  (c.settles k).map settleMsg ++ (c.attaches k).map fun (p, s) => .attach p s

/-- The actor that the `k`-th call makes beside the promises.  `ty p` are the values that the type of
the promise `p` has. -/
def Call.helper (ty : Addr → Val α → Bool) (k : Nat) : Call α → Helper α
  | .join ps => .join [] ps.length (.result k)
  | .add p q => .add .noneMark .noneMark (ty p) (ty q) (.result k)
  | .select _ _ => .select false (.result k)
  | .create | .apply _ _ | .reject _ | .next _ _ _ => .absent

/-! ### The system -/

/-- The state of all actors, the number of calls that were made, and histories of the steps that were
run and of what the helpers sent. -/
structure World (α : Type) where
  promise : Addr → Promise α
  helper : Nat → Helper α
  made : Nat
  runs : List (Addr × Then α × Outcome α)
  helperSent : List (Nat × Msg α)

/-- The outcome of a promise, as it is held. -/
def World.outcome (w : World α) (p : Addr) : Option (Outcome α) := (w.promise p).value

/-- A promise and the steps that it runs. -/
def World.withPromise (w : World α) (p : Addr)
    (f : Promise α → Promise α × List (Then α × Outcome α)) : World α × List (Msg α) :=
  let (st, ran) := f (w.promise p)
  ({ w with promise := Function.update w.promise p st, runs := w.runs ++ ran.map (p, ·) },
    ran.flatMap fun (s, o) => s.run o)

/-- A helper and what it sends. -/
def World.withHelper (w : World α) (k : Nat) (m : Msg α) : World α × List (Msg α) :=
  let (h, ms) := (w.helper k).receive m
  ({ w with helper := Function.update w.helper k h, helperSent := w.helperSent ++ ms.map (k, ·) },
    ms)

/-- A message is delivered. -/
def handle (m : Msg α) (w : World α) : World α × List (Msg α) :=
  match m with
  | .apply p v => w.withPromise p (Promise.apply v)
  | .reject p => w.withPromise p Promise.reject
  | .attach p s => w.withPromise p (Promise.attach s)
  | .joinApply k _ | .fulfillA k _ | .fulfillB k _ | .selectApply k _ _ => w.withHelper k m

/-- A helper before its first message. -/
def helperOf (ty : Addr → Val α → Bool) (g : List (Call α)) (k : Nat) : Helper α :=
  match g[k]? with
  | some c => c.helper ty k
  | none => .absent

/-- The promises and their helpers, for a program that makes the calls `g` one after the other. -/
def promises (ty : Addr → Val α → Bool) (g : List (Call α)) : System (World α) (Msg α) where
  init :=
    { promise := fun _ => { }
      helper := helperOf ty g
      made := 0
      runs := []
      helperSent := [] }
  handle := handle
  inject w w' ms :=
    ∃ c, g[w.made]? = some c ∧ w' = { w with made := w.made + 1 } ∧ ms = c.sends w.made

/-! ### Schedules -/

/-- What happens next: the next call is made, or the `i`-th message in flight is delivered. -/
inductive Event where
  | call
  | deliver (i : Nat)

/-- One event; nothing happens when there is no such call or message. -/
def perform (g : List (Call α)) (n : Net (World α) (Msg α)) : Event → Net (World α) (Msg α)
  | .call =>
    match g[n.state.made]? with
    | some c => ⟨{ n.state with made := n.state.made + 1 },
        n.inFlight ++ c.sends n.state.made, n.delivered⟩
    | none => n
  | .deliver i =>
    match n.inFlight[i]? with
    | some m => ⟨(handle m n.state).1, n.inFlight.eraseIdx i ++ (handle m n.state).2,
        n.delivered ++ [m]⟩
    | none => n

/-- The state after a schedule. -/
def performAll (ty : Addr → Val α → Bool) (g : List (Call α)) (es : List Event) :
    Net (World α) (Msg α) :=
  es.foldl (perform g) ⟨(promises ty g).init, [], []⟩

theorem reach_performAll (ty : Addr → Val α → Bool) (g : List (Call α)) (es : List Event) :
    Reach (promises ty g) (performAll ty g es) := by
  induction es using List.reverseRecOn with
  | nil => exact .refl
  | append_singleton es e ih =>
    rw [performAll, List.foldl_append, List.foldl_cons, List.foldl_nil]
    rw [performAll] at ih
    generalize es.foldl (perform g) ⟨(promises ty g).init, [], []⟩ = n at ih
    cases e with
    | call =>
      rw [perform]
      split
      next c hc => exact ih.send ⟨c, hc, rfl, rfl⟩
      next => exact ih
    | deliver i =>
      rw [perform]
      split
      next m hm => exact ih.deliver hm
      next => exact ih

end SpacePony.Promises
