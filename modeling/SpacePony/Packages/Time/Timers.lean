import Mathlib.Data.List.FinRange
import SpacePony.Packages.Time.TimingWheel

/-!
# Time — The hierarchy of wheels

`Timer._slop` and `Timer._fire`, and the actor `Timers`: four wheels, each covering six bits more
than the one below, that a call sets a timer on (`apply`) and the event of the operating system
advances (`eventNotify`).  Every call reads the clock once and ends by advancing the wheels.

A call comes with the reading of the clock and with the answers of the notifiers, which see the
timer they are called for and the count.  `fired` is a record of the notifications.  Cancelling and
disposing of timers are left out.
-/

namespace SpacePony.Time

/-- The answers of the notifiers: whether to go on, given the timer and the count. -/
abbrev Notify := Timer → Nat → Bool

/-! ### Timers one by one -/

namespace Timer

/-- `_slop`: drop the low bits of the expiration and the interval. -/
def slop (timer : Timer) (bits : Nat) : Timer :=
  { timer with
    expiration := ushr timer.expiration bits
    interval := if timer.interval > 0 then max (ushr timer.interval bits) 1 else timer.interval }

/-- `_fire`: the timer afterwards, the count it notified with, and whether to reschedule it.
Whether the expiration is in the past is read off the wrapped difference. -/
def fire (timer : Timer) (notify : Notify) (current : Nat) : Timer × Option Nat × Bool :=
  let elapsed := usub current timer.expiration
  let again (t : Timer) : Bool := t.interval > 0 || usub t.expiration current < 2 ^ 63
  if elapsed < 2 ^ 63 then
    let count := (elapsed / timer.interval + 1) % 2 ^ 64
    let timer' :=
      { timer with expiration := (timer.expiration + count * timer.interval) % 2 ^ 64 }
    if !notify timer' count then (timer', some count, false)
    else (timer', some count, again timer')
  else (timer, none, again timer)

end Timer

/-- One notification: the timer as it expired, the clock's reading and the count. -/
structure Firing where
  timer : Timer
  current : Nat
  count : Nat
deriving DecidableEq

/-- The state of the actor. -/
structure Timers where
  current : Nat
  slop : Nat
  map : List Nat
  wheel : Fin 4 → TimingWheel
  pending : List Timer
  event : Option Nat
  fired : List Firing

/-- The behaviours of the actor. -/
inductive Message where
  | apply (timer : Timer)
  | eventNotify

/-- A message as it is processed: what the clock reads and what the notifiers answer. -/
structure Call where
  message : Message
  nanos : Nat
  notify : Notify

/-- `_expiration_max`: the longest time the wheels cover. -/
def expirationMax : Nat := 1 <<< (4 * 6) - 1

/-- `_get_wheel`: the wheel for a time until expiration, an error for 0. -/
def getWheel (rem : Nat) : Option (Fin 4) :=
  let t := min rem expirationMax
  let i := usub (usub 64 (BitVec.ofNat 64 t).clz.toNat) 1 / 6
  if h : i < 4 then some ⟨i, h⟩ else none

/-- The loop over the wheels from the given ones on: a wheel is advanced as long as the one below
has passed its slot 0. -/
def advanceWheels (current elapsed : Nat) :
    List (Fin 4) → (Fin 4 → TimingWheel) → List Timer → (Fin 4 → TimingWheel) × List Timer
  | [], wheel, pending => (wheel, pending)
  | i :: is, wheel, pending =>
    let r := (wheel i).advance pending current elapsed
    if r.2.2 then advanceWheels current elapsed is (Function.update wheel i r.2.1) r.1
    else (Function.update wheel i r.2.1, r.1)

namespace Timers

/-- `create`: the wheels are empty, and the clock is read. -/
def create (slop nanos : Nat) : Timers :=
  { current := ushr nanos slop
    slop := slop
    map := []
    wheel := fun i => TimingWheel.create i
    pending := []
    event := none
    fired := [] }

/-- Put a timer on the wheel that `_get_wheel` found; an error is swallowed. -/
def schedule (s : Timers) (timer : Timer) : Option (Fin 4) → Timers
  | none => s
  | some i => { s with wheel := Function.update s.wheel i ((s.wheel i).schedule timer) }

/-- `_fire`: fire a timer if it is due, then put it on the wheel for the time it has left. -/
def fire (s : Timers) (notify : Notify) (timer : Timer) : Timers :=
  let r := timer.fire notify s.current
  let s := { s with fired := s.fired ++ r.2.1.toList.map fun n => Firing.mk timer s.current n }
  if !r.2.2 then { s with map := s.map.erase timer.id }
  else s.schedule r.1 (getWheel (usub r.1.expiration s.current))

/-- `_next`: the delay until the wheels are to be advanced, `-1` when nothing is pending. -/
def next (s : Timers) : Nat :=
  let next := (List.finRange 4).foldl (fun n i => min n ((s.wheel i).next s.current)) (2 ^ 64 - 1)
  if next ≠ 2 ^ 64 - 1 then ushl next s.slop else next

/-- Set the event for the next delay: created, updated or unsubscribed. -/
def arm (s : Timers) (nsec : Nat) : Timers :=
  match s.event with
  | none => if nsec ≠ 2 ^ 64 - 1 then { s with event := some nsec } else s
  | some _ => if nsec ≠ 2 ^ 64 - 1 then { s with event := some nsec } else { s with event := none }

/-- `_advance`: read the clock, take the due timers off the wheels, fire them and set the event. -/
def advance (s : Timers) (notify : Notify) (nanos : Nat) : Timers :=
  let current := ushr nanos s.slop
  let elapsed := usub current s.current
  let r := advanceWheels current elapsed (List.finRange 4) s.wheel s.pending
  let s := { s with current := current, wheel := r.1, pending := r.2 }
  let s := r.2.foldl (fun s timer => s.fire notify timer) s
  let s := { s with pending := [] }
  s.arm s.next

/-- What a behaviour does before it advances the wheels: `apply` enters the timer. -/
def enter (s : Timers) (c : Call) : Timers :=
  match c.message with
  | .apply timer => { s with map := timer.id :: s.map }.fire c.notify (timer.slop s.slop)
  | .eventNotify => s

/-- One behaviour. -/
def step (s : Timers) (c : Call) : Timers := (s.enter c).advance c.notify c.nanos

/-- A run from `create`. -/
def run (slop nanos : Nat) (calls : List Call) : Timers := calls.foldl step (create slop nanos)

end Timers

end SpacePony.Time
