import Mathlib.Data.Multiset.Filter
import SpacePony.Packages.Time.Timers

/-!
# Time — The wheels are never late

The wheels against what they are for: a bag of waiting timers, each of which is asked at every
reading of the clock whether it is due (`settle`).

* `fire_spec`: firing one timer settles it, as long as the wrapped differences are in range
  (`Near`).
* `advanceWheels_spec`: what the loop over the wheels takes out holds every timer that is due.
* `advance_spec`: one advance settles the whole bag.
* `never_late`: the wheels over whole runs.
-/

namespace SpacePony.Time

open Nat List SpacePony.Slots
open Function (update_of_ne update update_self)
open Multiset (coe_add singleton_add coe_nil mem_cons_of_mem mem_add mem_coe filterMap_add
  filterMap_coe notMem_zero zero_le map_add nodup_of_le mem_filterMap)

/-! ### What the wheels are for -/

namespace Timer

/-- How often a timer that is due has expired. -/
def expirations (timer : Timer) (current : Nat) : Nat :=
  (current - timer.expiration) / timer.interval + 1

/-- The timer with its next expiration. -/
def rearm (timer : Timer) (current : Nat) : Timer :=
  { timer with
    expiration := timer.expiration + timer.expirations current * timer.interval }

/-- What becomes of a waiting timer when the clock reads `current`: it waits on when it is not due,
and when it is, it waits for its next expiration if it has one and its notifier goes on. -/
def settle (notify : Notify) (current : Nat) (timer : Timer) : Option Timer :=
  if current < timer.expiration then some timer
  else if 0 < timer.interval ∧ notify (timer.rearm current) (timer.expirations current) then
    some (timer.rearm current)
  else none

/-- The notification of a timer that is due. -/
def firing (current : Nat) (timer : Timer) : Option Firing :=
  if current < timer.expiration then none
  else some ⟨timer, current, timer.expirations current⟩

/-- The clock and the expiration are less than `2 ^ 63` apart, and the next expiration is a `U64`
value. -/
structure Near (timer : Timer) (current : Nat) : Prop where
  past : current < timer.expiration + 2 ^ 63
  future : timer.expiration < current + 2 ^ 63
  next : timer.expiration ≤ current → 0 < timer.interval →
    (timer.rearm current).expiration < 2 ^ 64

section
variable {t : Timer} {notify : Notify} {current : Nat}

theorem settle_of_lt (h : current < t.expiration) : t.settle notify current = some t := if_pos h

theorem firing_of_lt (h : current < t.expiration) : t.firing current = none := if_pos h

theorem lt_rearm (h : 0 < t.interval) : current < (t.rearm current).expiration := by
  have := div_add_mod' (current - t.expiration) t.interval
  have hmod := mod_lt (current - t.expiration) h
  simp only [rearm, expirations, add_mul, one_mul]
  omega

/-- A timer that is not due is not fired, and goes back on a wheel. -/
theorem fire_of_lt (h : t.Near current) (hw : t.expiration < 2 ^ 64)
    (hlt : current < t.expiration) : t.fire notify current = (t, none, true) := by
  have hfuture := h.future
  have e : usub current t.expiration = 2 ^ 64 - (t.expiration - current) := usub_of_lt hw hlt
  have e' : usub t.expiration current = t.expiration - current := usub_of_le hw hlt.le
  have hin : t.expiration - current < 2 ^ 63 := by omega
  simp only [fire, e]
  rw [if_neg (by omega)]
  simp only [e', hin, decide_true, Bool.or_true]

/-- The next expiration is at most an interval away. -/
theorem rearm_le (h : t.expiration ≤ current) :
    (t.rearm current).expiration ≤ current + t.interval := by
  have := div_mul_le_self (current - t.expiration) t.interval
  simp only [rearm, expirations, add_mul, one_mul]
  omega

theorem rearm_of_interval_zero (h : t.interval = 0) : t.rearm current = t := by
  cases t
  simp_all [rearm]

/-- A timer that is due is fired, with the next expiration in it when it has an interval.  Without
one it is asked back only when it expires right now. -/
theorem fire_of_le (notify : Notify) (h : t.Near current) (hc : current < 2 ^ 64) (hle : t.expiration ≤ current) :
    ∃ again, t.fire notify current = (t.rearm current, some (t.expirations current), again) ∧
      (0 < t.interval → again = notify (t.rearm current) (t.expirations current)) ∧
      (t.interval = 0 → again = true → t.expiration = current) := by
  have hpast := h.past
  have e : usub current t.expiration = current - t.expiration := usub_of_le hc hle
  have hcount : (current - t.expiration) / t.interval + 1 < 2 ^ 64 := by
    have := Nat.div_le_self (current - t.expiration) t.interval
    omega
  have hword : (t.rearm current).expiration < 2 ^ 64 := by
    rcases Nat.eq_zero_or_pos t.interval with hz | hpos
    · rw [rearm_of_interval_zero hz]
      omega
    · exact h.next hle hpos
  have hmod : (t.expiration + ((current - t.expiration) / t.interval + 1) * t.interval) % 2 ^ 64
      = (t.rearm current).expiration := Nat.mod_eq_of_lt hword
  rw [fire, e]
  simp only [Nat.mod_eq_of_lt hcount, hmod]
  rw [if_pos (by omega)]
  change ∃ again, (if (!notify (t.rearm current) (t.expirations current)) = true then _ else _)
    = _ ∧ _
  split
  case isTrue hno =>
    refine ⟨false, rfl, fun _ => ?_, fun _ h => by cases h⟩
    simpa using hno.symm
  case isFalse hyes =>
    refine ⟨_, rfl, fun hpos => ?_, fun hz hagain => ?_⟩
    · have hyes : notify (t.rearm current) (t.expirations current) = true := by simpa using hyes
      rw [hyes]
      simp [hpos]
    have hsame : (t.rearm current).expiration = t.expiration := by rw [rearm_of_interval_zero hz]
    by_contra hne
    rw [usub_of_lt hc (by omega)] at hagain
    simp at hagain
    omega

end

end Timer

/-! ### Finding the wheel -/

/-- A time until expiration gets a wheel unless it is 0, and covers a slot of that wheel. -/
theorem getWheel_spec {rem : Nat} (hpos : 0 < rem) :
    ∃ i, getWheel rem = some i ∧ (0 < (i : Nat) → 2 ^ ((i : Nat) * 6) ≤ rem) := by
  obtain ⟨t, ht⟩ : ∃ t, t = min rem expirationMax := ⟨_, rfl⟩
  have hmax : expirationMax = 2 ^ 24 - 1 := by decide
  have hlt : t < 2 ^ 24 := by omega
  have hne : BitVec.ofNat 64 t ≠ 0#64 := by
    intro hz
    have := congrArg BitVec.toNat hz
    rw [BitVec.toNat_ofNat, mod_eq_of_lt (by omega)] at this
    simp at this
    omega
  have hval : (BitVec.ofNat 64 t).toNat = t := mod_eq_of_lt (by omega)
  have hlow := BitVec.two_pow_sub_clz_le_toNat_of_ne_zero (by decide) hne
  rw [hval] at hlow
  have hclz : (BitVec.ofNat 64 t).clz.toNat < 64 := BitVec.clz_lt_iff_ne_zero.2 hne
  have hbits : 64 - 1 - (BitVec.ofNat 64 t).clz.toNat < 24 :=
    (Nat.pow_lt_pow_iff_right (by decide)).1 (lt_of_le_of_lt hlow hlt)
  have hi : usub (usub 64 (BitVec.ofNat 64 t).clz.toNat) 1 / 6
      = (64 - 1 - (BitVec.ofNat 64 t).clz.toNat) / 6 := by
    rw [usub_of_le (by decide) hclz.le, usub_of_le (by omega) (by omega)]
    congr 1
    omega
  have hfour : (64 - 1 - (BitVec.ofNat 64 t).clz.toNat) / 6 < 4 := by omega
  refine ⟨⟨_, hfour⟩, ?_, fun _ => ?_⟩
  · simp only [getWheel, ← ht, hi]
    rw [dif_pos hfour]
  · refine le_trans (Nat.pow_le_pow_right (by decide) (div_mul_le_self _ _)) (hlow.trans ?_)
    omega

/-- A timer at least one slot ahead is ahead by the adjustment of its wheel. -/
theorem later_of_le {w : TimingWheel} {i current expiration : Nat} (h : w.At i)
    (hlt : current < expiration) (hi : 0 < i → 2 ^ (i * 6) ≤ expiration - current) :
    current >>> w.shift + w.adjust ≤ expiration >>> w.shift := by
  rw [h.shift_eq, h.adjust_eq]
  rcases Nat.eq_zero_or_pos i with rfl | hpos
  · simpa using hlt.le
  have hd : 0 < 2 ^ (i * 6) := Nat.two_pow_pos _
  rw [if_pos hpos, Nat.shiftRight_eq_div_pow, Nat.shiftRight_eq_div_pow, ← Nat.add_div_right _ hd]
  exact Nat.div_le_div_right (by omega)

/-! ### Firing -/

namespace Timers

/-- The timers on the wheels. -/
def waiting (s : Timers) : Multiset Timer := contents TimingWheel.timers s.wheel

/-- **Every wheel is as its level has it and holds its timers where an advance finds them.** -/
structure Inv (s : Timers) : Prop where
  level : ∀ i : Fin 4, (s.wheel i).At i
  held : ∀ i : Fin 4, (s.wheel i).Held s.current
  word : ∀ t ∈ s.waiting, t.expiration < 2 ^ 64
  clock : s.current < 2 ^ 64

/-- The timers `ts`, which were on no wheel, are settled and their notifications recorded; nothing
else changes on the wheels. -/
structure Settles (notify : Notify) (ts : List Timer) (s s' : Timers) : Prop where
  inv : s'.Inv
  current_eq : s'.current = s.current
  slop_eq : s'.slop = s.slop
  pending_eq : s'.pending = s.pending
  waiting_eq :
    s'.waiting = (ts.filterMap (Timer.settle notify s.current) : Multiset Timer) + s.waiting
  fired_eq : s'.fired = s.fired ++ ts.filterMap (Timer.firing s.current)

section
variable {s s' s'' : Timers} {t : Timer} {ts us : List Timer} {notify : Notify}

theorem Settles.trans (h : Settles notify ts s s') (h' : Settles notify us s' s'') :
    Settles notify (ts ++ us) s s'' := by
  refine ⟨h'.inv, h'.current_eq.trans h.current_eq, h'.slop_eq.trans h.slop_eq,
    h'.pending_eq.trans h.pending_eq, ?_, ?_⟩
  · rw [h'.waiting_eq, h.waiting_eq, h.current_eq, filterMap_append, ← coe_add,
      ← add_assoc, add_comm (Multiset.ofList (us.filterMap _))]
  · rw [h'.fired_eq, h.fired_eq, h.current_eq, filterMap_append, append_assoc]

theorem Inv.of_wheel_eq (h : s.Inv) (hw : s'.wheel = s.wheel) (hc : s'.current = s.current) :
    s'.Inv := by
  have hwait : s'.waiting = s.waiting := by rw [waiting, waiting, hw]
  refine ⟨?_, ?_, ?_, ?_⟩
  · rw [hw]
    exact h.level
  · rw [hw, hc]
    exact h.held
  · rw [hwait]
    exact h.word
  · rw [hc]
    exact h.clock

/-- A timer with time left is put on a wheel. -/
theorem schedule_spec (h : s.Inv) (hw : t.expiration < 2 ^ 64) (hlt : s.current < t.expiration) :
    (s.schedule t (getWheel (usub t.expiration s.current))).Inv ∧
      (s.schedule t (getWheel (usub t.expiration s.current))).waiting = t ::ₘ s.waiting := by
  obtain ⟨i, hi, hfar⟩ := getWheel_spec (Nat.sub_pos_of_lt hlt)
  rw [usub_of_le hw hlt.le, hi]
  have hadd : (s.schedule t (some i)).waiting = t ::ₘ s.waiting := by
    rw [← singleton_add]
    exact contents_add (by rw [TimingWheel.timers_schedule, singleton_add])
  refine ⟨⟨fun j => ?_, fun j => ?_, fun u hu => ?_, h.clock⟩, hadd⟩
  · by_cases e : j = i
    · subst e
      simpa [schedule] using (h.level j).schedule
    · simpa [schedule, update_of_ne e] using h.level j
  · by_cases e : j = i
    · subst e
      simpa [schedule] using (h.held j).schedule hw hlt (later_of_le (h.level j) hlt hfar)
    · simpa [schedule, update_of_ne e] using h.held j
  rw [hadd, Multiset.mem_cons] at hu
  rcases hu with rfl | hu
  · exact hw
  · exact h.word u hu

variable (i : Option (Fin 4))

@[simp] theorem schedule_current : (s.schedule t i).current = s.current := by
  cases i <;> rfl

@[simp] theorem schedule_slop : (s.schedule t i).slop = s.slop := by
  cases i <;> rfl

@[simp] theorem schedule_pending : (s.schedule t i).pending = s.pending := by
  cases i <;> rfl

@[simp] theorem schedule_fired : (s.schedule t i).fired = s.fired := by
  cases i <;> rfl

/-- The state after a notification is recorded. -/
def log (s : Timers) (timer : Timer) (count : Option Nat) : Timers :=
  { s with fired := s.fired ++ count.toList.map fun n => Firing.mk timer s.current n }

section
variable {t' : Timer} {count : Option Nat}

theorem filterMap_firing
    (h : (t.firing s.current).toList = count.toList.map fun n => Firing.mk t s.current n) :
    [t].filterMap (Timer.firing s.current)
      = count.toList.map fun n => Firing.mk t s.current n := by
  rw [← h]
  cases e : t.firing s.current <;> simp [e]

/-- A timer that is not put back is settled when nothing is to become of it. -/
theorem settles_of_none (h : s.Inv) (hs : t.settle notify s.current = none)
    (hf : (t.firing s.current).toList = count.toList.map fun n => Firing.mk t s.current n)
    (map : List Nat) : Settles notify [t] s { s.log t count with map := map } := by
  refine ⟨h.of_wheel_eq rfl rfl, rfl, rfl, rfl, ?_, ?_⟩
  · simp only [filterMap_cons, hs, filterMap_nil, coe_nil, zero_add]
    rfl
  · rw [filterMap_firing hf]
    rfl

/-- A timer that is put back is settled when that is what is to become of it. -/
theorem settles_of_some (h : s.Inv) (hs : t.settle notify s.current = some t')
    (hf : (t.firing s.current).toList = count.toList.map fun n => Firing.mk t s.current n)
    (hw : t'.expiration < 2 ^ 64) (hlt : s.current < t'.expiration) :
    Settles notify [t] s
      ((s.log t count).schedule t' (getWheel (usub t'.expiration s.current))) := by
  have hlog : (s.log t count).Inv := h.of_wheel_eq rfl rfl
  obtain ⟨hinv, hwait⟩ := schedule_spec hlog hw hlt
  refine ⟨hinv, schedule_current _, schedule_slop _, schedule_pending _, ?_, ?_⟩
  · simp only [filterMap_cons, hs, filterMap_nil]
    exact hwait
  · rw [schedule_fired, filterMap_firing hf]
    rfl

theorem fire_eq_done (h : t.fire notify s.current = (t', count, false)) :
    s.fire notify t = { s.log t count with map := s.map.erase t.id } := by
  simp only [fire, h, log]
  rfl

/-- A timer that goes on is scheduled again at its new expiration. -/
theorem fire_eq_again (h : t.fire notify s.current = (t', count, true)) :
    s.fire notify t
      = (s.log t count).schedule t' (getWheel (usub t'.expiration s.current)) := by
  simp only [fire, h, log, Bool.not_true, Bool.false_eq_true, if_false]

end

/-- **Firing a timer settles it.** -/
theorem fire_spec (notify : Notify) (h : s.Inv) (hn : t.Near s.current) (hw : t.expiration < 2 ^ 64) :
    Settles notify [t] s (s.fire notify t) := by
  rcases Nat.lt_or_ge s.current t.expiration with hlt | hle
  · -- not due: back on a wheel
    rw [fire_eq_again (Timer.fire_of_lt hn hw hlt)]
    exact settles_of_some h (Timer.settle_of_lt hlt) (by rw [Timer.firing_of_lt hlt]; rfl) hw hlt
  obtain ⟨again, hfire, hpos, hzero⟩ := Timer.fire_of_le notify hn h.clock hle
  have hnlt : ¬ s.current < t.expiration := Nat.not_lt_of_le hle
  have hf : (t.firing s.current).toList
      = (some (t.expirations s.current)).toList.map fun n => Firing.mk t s.current n := by
    rw [Timer.firing, if_neg hnlt]
    rfl
  rcases Nat.eq_zero_or_pos t.interval with hz | hi
  · -- no interval: it is not due again, and without time left no wheel takes it
    have hs : t.settle notify s.current = none := by
      rw [Timer.settle, if_neg hnlt, if_neg (by omega)]
    cases again with
    | false =>
      rw [fire_eq_done hfire]
      exact settles_of_none h hs hf _
    | true =>
      have hnow := hzero hz rfl
      rw [fire_eq_again hfire, Timer.rearm_of_interval_zero hz, hnow,
        usub_of_le h.clock le_rfl, Nat.sub_self, show getWheel 0 = none by decide]
      exact settles_of_none h hs hf s.map
  cases again with
  | false =>
    have hs : t.settle notify s.current = none := by
      rw [Timer.settle, if_neg hnlt, ← hpos hi]
      simp
    rw [fire_eq_done hfire]
    exact settles_of_none h hs hf _
  | true =>
    have hs : t.settle notify s.current = some (t.rearm s.current) := by
      rw [Timer.settle, if_neg hnlt, if_pos ⟨hi, (hpos hi).symm⟩]
    rw [fire_eq_again hfire]
    exact settles_of_some h hs hf (hn.next hle hi) (Timer.lt_rearm hi)

/-- Firing a list of timers one after the other settles them all. -/
theorem foldl_fire_spec (notify : Notify) (ts : List Timer) (h : s.Inv)
    (hts : ∀ t ∈ ts, t.Near s.current ∧ t.expiration < 2 ^ 64) :
    Settles notify ts s (ts.foldl (fun s timer => s.fire notify timer) s) := by
  induction ts generalizing s with
  | nil => exact ⟨h, rfl, rfl, rfl, (zero_add _).symm, (append_nil _).symm⟩
  | cons t ts ih =>
    have hfirst := fire_spec notify h (hts t (by simp)).1 (hts t (by simp)).2
    refine hfirst.trans (ih hfirst.inv fun u hu => ?_)
    rw [hfirst.current_eq]
    exact hts u (mem_cons_of_mem _ hu)

/-! ### Advancing -/

/-- What advancing takes off the wheels is no longer on them. -/
theorem advanceWheels_split (current elapsed : Nat) (is : List (Fin 4))
    (wheel : Fin 4 → TimingWheel) (pending : List Timer) :
    ∃ out, (advanceWheels current elapsed is wheel pending).2 = pending ++ out ∧
      (out : Multiset Timer) +
        contents TimingWheel.timers (advanceWheels current elapsed is wheel pending).1 =
          contents TimingWheel.timers wheel := by
  induction is generalizing wheel pending with
  | nil => exact ⟨[], (append_nil _).symm, zero_add _⟩
  | cons i is ih =>
    obtain ⟨out, w', more, e, hw'⟩ : ∃ out w' more,
        (wheel i).advance pending current elapsed = (pending ++ out, w', more) ∧
          (out : Multiset Timer) + w'.timers = (wheel i).timers := by
      obtain ⟨out, hout, hd⟩ := TimingWheel.drain_spec _ pending (wheel i)
      exact ⟨out, _, _, Prod.ext hout rfl, hd.split⟩
    have htake := contents_take (g := TimingWheel.timers) (f := wheel) (i := i) hw'
    simp only [advanceWheels, e]
    cases more with
    | true =>
      obtain ⟨out', hout', hsplit⟩ := ih (update wheel i w') (pending ++ out)
      refine ⟨out ++ out', hout'.trans (append_assoc _ _ _), ?_⟩
      rw [if_pos rfl, ← coe_add, add_assoc, hsplit, htake]
    | false => exact ⟨out, rfl, htake⟩

/-- **The loop over the wheels takes out every timer that is due**, also where it stops early: a
wheel that is not advanced has nothing due. -/
theorem advanceWheels_spec {old now : Nat} (hle : old ≤ now) (hw : now < 2 ^ 64)
    (is : List (Fin 4)) (hsort : is.Pairwise (· < ·)) (wheel : Fin 4 → TimingWheel)
    (pending : List Timer) (hat : ∀ i : Fin 4, (wheel i).At i)
    (hold : ∀ i ∈ is, (wheel i).Held old) (hnew : ∀ i, i ∉ is → (wheel i).Held now) :
    (∀ i : Fin 4, ((advanceWheels now (now - old) is wheel pending).1 i).At i) ∧
      ∀ i, ((advanceWheels now (now - old) is wheel pending).1 i).Held now := by
  induction is generalizing wheel pending with
  | nil =>
    exact ⟨hat, fun i => hnew i not_mem_nil⟩
  | cons i is ih =>
    obtain ⟨out, w', more, e, -, hat', hheld, hstop⟩ :=
      TimingWheel.advance_spec (hold i (by simp)) (hat i) hle hw pending
    obtain ⟨hfirst, hrest⟩ := pairwise_cons.1 hsort
    have hatu : ∀ j : Fin 4, (update wheel i w' j).At j := by
      intro j
      by_cases ej : j = i
      · subst ej
        rwa [update_self]
      · rw [update_of_ne ej]
        exact hat j
    simp only [advanceWheels, e]
    cases more with
    | true =>
      exact ih hrest (update wheel i w') (pending ++ out) hatu
        (fun j hj => by
          rw [update_of_ne (hfirst j hj).ne']
          exact hold j (mem_cons_of_mem _ hj))
        (fun j hj => by
          by_cases ej : j = i
          · subst ej
            rwa [update_self]
          · rw [update_of_ne ej]
            exact hnew j (by simp [ej, hj]))
    | false =>
      simp only [Bool.false_eq_true, if_false]
      refine ⟨hatu, fun j => ?_⟩
      by_cases ej : j = i
      · subst ej
        rwa [update_self]
      rw [update_of_ne ej]
      by_cases hj : j ∈ is
      · have hpos : (i : Nat) < j := hfirst j hj
        refine (hold j (mem_cons_of_mem _ hj)).of_turn_eq ?_ ?_
        · rw [(hat j).adjust_eq, if_pos (by omega)]
          exact one_pos
        · rw [(hat j).shift_eq]
          exact hstop rfl j hpos
      · exact hnew j (by simp [ej, hj])

theorem filterMap_eq_self {α : Type} {f : α → Option α} {m : Multiset α}
    (h : ∀ a ∈ m, f a = some a) : m.filterMap f = m := by
  induction m using Multiset.induction with
  | empty => rfl
  | cons a m ih =>
    rw [Multiset.filterMap_cons_some _ _ _ (h a (Multiset.mem_cons_self a m)),
      ih fun b hb => h b (mem_cons_of_mem hb)]

theorem filterMap_eq_zero {α β : Type} {f : α → Option β} {m : Multiset α}
    (h : ∀ a ∈ m, f a = none) : m.filterMap f = 0 := by
  induction m using Multiset.induction with
  | empty => rfl
  | cons a m ih =>
    rw [Multiset.filterMap_cons_none _ _ (h a (Multiset.mem_cons_self a m)),
      ih fun b hb => h b (mem_cons_of_mem hb)]

/-- The clock moves on to `now`: every waiting timer is settled, and the due ones are the ones that
are fired. -/
structure Advances (notify : Notify) (now : Nat) (s s' : Timers) : Prop where
  inv : s'.Inv
  pending_eq : s'.pending = []
  current_eq : s'.current = now
  slop_eq : s'.slop = s.slop
  waiting_eq : s'.waiting = s.waiting.filterMap (Timer.settle notify now)
  fired_eq : ∃ new, s'.fired = s.fired ++ new ∧
    (new : Multiset Firing) = s.waiting.filterMap (Timer.firing now)
  event_eq : s'.event = if s'.next ≠ 2 ^ 64 - 1 then some s'.next else none

theorem arm_eq (s : Timers) (nsec : Nat) :
    s.arm nsec = { s with event := if nsec ≠ 2 ^ 64 - 1 then some nsec else none } := by
  cases h : s.event <;> simp only [arm, h] <;> split <;> simp [← h]

theorem next_congr (hw : s'.wheel = s.wheel) (hc : s'.current = s.current)
    (hs : s'.slop = s.slop) : s'.next = s.next := by
  rw [next, next, hw, hc, hs]

theorem waiting_congr (hw : s'.wheel = s.wheel) : s'.waiting = s.waiting := by
  rw [waiting, waiting, hw]

/-- The wheels after an advance, and the timers that it takes off them. -/
def taken (s : Timers) (nanos : Nat) : (Fin 4 → TimingWheel) × List Timer :=
  advanceWheels (ushr nanos s.slop) (usub (ushr nanos s.slop) s.current) (finRange 4) s.wheel
    s.pending

/-- An advance fires the timers that it takes off the wheels, from the state `mid` in which they are
not yet fired. -/
theorem advance_eq (s : Timers) (notify : Notify) (nanos : Nat) (hp : s.pending = []) :
    ∃ r, r = s.taken nanos ∧ ∃ mid last : Timers,
      mid = { s with current := ushr nanos s.slop, wheel := r.1, pending := r.2 } ∧
      s.waiting = (r.2 : Multiset Timer) + mid.waiting ∧
      last = r.2.foldl (fun s timer => s.fire notify timer) mid ∧
      s.advance notify nanos = { last with pending := [] }.arm { last with pending := [] }.next := by
  obtain ⟨out, hout, hsplit⟩ := advanceWheels_split (ushr nanos s.slop)
    (usub (ushr nanos s.slop) s.current) (finRange 4) s.wheel s.pending
  obtain ⟨r, hr⟩ : ∃ r, r = s.taken nanos := ⟨_, rfl⟩
  refine ⟨r, hr, _, _, rfl, ?_, rfl, ?_⟩
  all_goals rw [taken] at hr
  · rw [← hr] at hout hsplit
    rw [hout, hp, nil_append]
    exact hsplit.symm
  · rw [advance]
    simp only [← hr]

/-- **One advance settles every waiting timer.** -/
theorem advance_spec {nanos : Nat} (h : s.Inv) (hp : s.pending = [])
    (hle : s.current ≤ ushr nanos s.slop) (hw : ushr nanos s.slop < 2 ^ 64)
    (hnear : ∀ t ∈ s.waiting, t.Near (ushr nanos s.slop)) :
    Advances notify (ushr nanos s.slop) s (s.advance notify nanos) := by
  obtain ⟨hat, hheld⟩ := advanceWheels_spec hle hw (finRange 4)
    (sortedLT_finRange 4).pairwise s.wheel s.pending h.level (fun i _ => h.held i)
    (fun i hi => absurd (mem_finRange i) hi)
  obtain ⟨r, hr, mid, last, hmid, hin, hlast, e⟩ := s.advance_eq notify nanos hp
  rw [taken, usub_of_le hw hle] at hr
  rw [← hr] at hat hheld
  have hwait : mid.waiting = contents TimingWheel.timers r.1 := by rw [hmid, waiting]
  have hcur : mid.current = ushr nanos s.slop := by rw [hmid]
  have hinv : mid.Inv := by
    refine ⟨?_, ?_, fun t ht => h.word t ?_, ?_⟩
    · rw [hmid]
      exact hat
    · rw [hmid]
      exact hheld
    · rw [hin]
      exact mem_add.2 (.inr ht)
    · rw [hcur]
      exact hw
  have hleft : ∀ t ∈ mid.waiting, ushr nanos s.slop < t.expiration := by
    intro t ht
    rw [hwait] at ht
    obtain ⟨i, hi⟩ := mem_contents.1 ht
    obtain ⟨k, hk⟩ := TimingWheel.mem_timers.1 hi
    exact (hheld i).ahead k t hk
  have hset := foldl_fire_spec notify r.2 hinv fun t ht => by
    have htw : t ∈ s.waiting := by
      rw [hin]
      exact mem_add.2 (.inl (mem_coe.2 ht))
    rw [hcur]
    exact ⟨hnear t htw, h.word t htw⟩
  rw [← hlast] at hset
  have hwaiting : last.waiting = s.waiting.filterMap (Timer.settle notify (ushr nanos s.slop)) := by
    rw [hset.waiting_eq, hin, filterMap_add, filterMap_coe, hcur,
      filterMap_eq_self (m := mid.waiting) fun t ht => Timer.settle_of_lt (hleft t ht)]
  have hfired : ((r.2.filterMap (Timer.firing (ushr nanos s.slop)) : List Firing) : Multiset Firing)
      = s.waiting.filterMap (Timer.firing (ushr nanos s.slop)) := by
    rw [hin, filterMap_add, filterMap_coe,
      filterMap_eq_zero (m := mid.waiting) fun t ht => Timer.firing_of_lt (hleft t ht), add_zero]
  obtain ⟨s', hs'⟩ : ∃ s', s' = s.advance notify nanos := ⟨_, rfl⟩
  rw [← hs']
  rw [e, arm_eq] at hs'
  have hwheel : s'.wheel = last.wheel := by rw [hs']
  have hcurrent : s'.current = last.current := by rw [hs']
  have hslop : s'.slop = last.slop := by rw [hs']
  refine ⟨hset.inv.of_wheel_eq hwheel hcurrent, by rw [hs'], hcurrent.trans (hset.current_eq.trans hcur),
    hslop.trans (hset.slop_eq.trans (by rw [hmid])), (waiting_congr hwheel).trans hwaiting,
    ⟨_, ?_, hfired⟩, ?_⟩
  · have hlog : s'.fired = last.fired := by rw [hs']
    rw [hlog, hset.fired_eq, hcur, hmid]
  · have hnext : s'.next = { last with pending := [] }.next := next_congr hwheel hcurrent hslop
    rw [hnext, hs']

end

/-! ### Whole runs -/

/-- The differences that a call reads are in range: for the timer that it sets, and for the waiting
timers at the new reading of the clock. -/
structure NearStep (s : Timers) (c : Call) : Prop where
  applied : ∀ t, c.message = .apply t → (t.slop s.slop).Near s.current
  waiting : ∀ t ∈ (s.enter c).waiting, t.Near (ushr c.nanos s.slop)

/-- The differences that a run reads are in range. -/
def NearRun : Timers → List Call → Prop
  | _, [] => True
  | s, c :: cs => s.NearStep c ∧ NearRun (s.step c) cs

end Timers

/-- The timer that a call sets. -/
def Call.applied (c : Call) : Option Timer :=
  match c.message with
  | .apply timer => some timer
  | .eventNotify => none

namespace Timers

/-- **What the wheels are to do between the start of an advance and its end.** -/
structure Punctual (notify : Notify) (s s' : Timers) : Prop where
  fires : ∀ t ∈ s.waiting, t.expiration ≤ s'.current →
    Firing.mk t s'.current (t.expirations s'.current) ∈ s'.fired.drop s.fired.length ∧
      t ∉ s'.waiting
  due : ∀ f ∈ s'.fired, f.timer.expiration ≤ f.current
  keeps : ∀ t ∈ s.waiting, s'.current < t.expiration → t ∈ s'.waiting
  again : ∀ t ∈ s.waiting, ∀ t', t.settle notify s'.current = some t' → t' ∈ s'.waiting
  slot : ∀ t ∈ s'.waiting, ∃! p : Fin 4 × Fin 64, t ∈ (s'.wheel p.1).list p.2 ∧
    (s'.wheel p.1).pending.getLsbD p.2 = true
  delay : ∀ t ∈ s'.waiting, s'.next ≤ (t.expiration - s'.current) * 2 ^ min s'.slop 63

/-- What holds after a run that read the clock as `n` last and set the timers `seen`. -/
structure Sound (s : Timers) (slop n : Nat) (seen : List Timer) : Prop where
  inv : s.Inv
  idle : s.pending = []
  slop_eq : s.slop = slop
  clock : s.current = ushr n slop
  due : ∀ f ∈ s.fired, f.timer.expiration ≤ f.current
  ids : s.waiting.map Timer.id ≤ (seen.map Timer.id : List Nat)

section
variable {s s' : Timers} {t : Timer} {c : Call} {notify : Notify} {slop n : Nat}
  {seen : List Timer}

theorem settle_id {current : Nat} {t' : Timer} (h : t.settle notify current = some t') :
    t'.id = t.id := by
  unfold Timer.settle at h
  split_ifs at h <;> cases h <;> rfl

theorem firing_due {current : Nat} {f : Firing} (h : t.firing current = some f) :
    f.timer.expiration ≤ f.current := by
  unfold Timer.firing at h
  split_ifs at h with hlt
  cases h
  exact Nat.le_of_not_lt hlt

/-- Settling keeps the identities, of those that wait on. -/
theorem map_id_settle_le (current : Nat) (m : Multiset Timer) :
    (m.filterMap (Timer.settle notify current)).map Timer.id ≤ m.map Timer.id := by
  induction m using Multiset.induction with
  | empty => simp
  | cons t m ih =>
    cases e : t.settle notify current with
    | none =>
      rw [Multiset.filterMap_cons_none _ _ e, Multiset.map_cons]
      exact ih.trans (Multiset.le_cons_self _ _)
    | some t' =>
      rw [Multiset.filterMap_cons_some _ _ _ e, Multiset.map_cons, Multiset.map_cons, settle_id e]
      exact Multiset.cons_le_cons _ ih

theorem sound_create (slop : Nat) (hn : n < 2 ^ 64) : (create slop n).Sound slop n [] := by
  have hwait : (create slop n).waiting = 0 := contents_eq_zero fun i => TimingWheel.timers_create
  refine ⟨⟨fun i => TimingWheel.at_create, fun i => TimingWheel.held_create, ?_, ?_⟩, rfl, rfl,
    rfl, ?_, ?_⟩
  · rw [hwait]
    exact fun t ht => absurd ht (notMem_zero t)
  · exact lt_of_le_of_lt (shiftRight_le _ _) hn
  · exact fun f hf => absurd hf not_mem_nil
  · rw [hwait]
    exact zero_le _

/-- Entering a timer keeps a sound state, and settles the timer at the old reading. -/
theorem Sound.enter (h : s.Sound slop n seen)
    (hn : ∀ t, c.message = .apply t → (t.slop s.slop).Near s.current)
    (hw : ∀ t ∈ c.applied, t.expiration < 2 ^ 64) :
    (s.enter c).Sound slop n (seen ++ c.applied.toList) ∧
      (s.enter c).waiting = (c.applied.toList.filterMap fun t =>
        (t.slop s.slop).settle c.notify s.current : List Timer) + s.waiting := by
  rcases c with ⟨message, nanos, notify⟩
  cases message with
  | eventNotify => exact ⟨by simpa [Timers.enter, Call.applied] using h, (zero_add _).symm⟩
  | apply t =>
    obtain ⟨s₀, hs₀⟩ : ∃ s₀ : Timers, s₀ = { s with map := t.id :: s.map } := ⟨_, rfl⟩
    have hcur : s₀.current = s.current := by rw [hs₀]
    have hwait : s₀.waiting = s.waiting := waiting_congr (by rw [hs₀])
    have hword : (t.slop s.slop).expiration < 2 ^ 64 :=
      lt_of_le_of_lt (shiftRight_le _ _) (hw t rfl)
    have hinv : s₀.Inv := h.inv.of_wheel_eq (by rw [hs₀]) hcur
    have hset := fire_spec notify hinv (by rw [hcur]; exact hn t rfl) hword
    have e : s.enter ⟨.apply t, nanos, notify⟩ = s₀.fire notify (t.slop s.slop) := by
      rw [Timers.enter, hs₀]
    rw [e]
    have hentered : (s₀.fire notify (t.slop s.slop)).waiting
        = ([t.slop s.slop].filterMap (Timer.settle notify s.current) : List Timer) + s.waiting := by
      rw [hset.waiting_eq, hwait, hcur]
    refine ⟨?_, hentered.trans rfl⟩
    refine ⟨hset.inv, hset.pending_eq.trans (by rw [hs₀]; exact h.idle),
      hset.slop_eq.trans (by rw [hs₀]; exact h.slop_eq),
      hset.current_eq.trans (hcur.trans h.clock), fun f hf => ?_, ?_⟩
    · rw [hset.fired_eq, mem_append] at hf
      rcases hf with hf | hf
      · rw [hs₀] at hf
        exact h.due f hf
      · obtain ⟨u, -, hu⟩ := mem_filterMap.1 hf
        exact firing_due hu
    · rw [hentered, map_add, add_comm, map_append, ← coe_add]
      exact add_le_add h.ids (map_id_settle_le s.current {t.slop s.slop})

theorem Inv.ahead (h : s.Inv) (ht : t ∈ s.waiting) : s.current < t.expiration := by
  obtain ⟨i, hi⟩ := mem_contents.1 ht
  obtain ⟨k, hk⟩ := TimingWheel.mem_timers.1 hi
  exact (h.held i).ahead k t hk

theorem foldl_min_le {α : Type} (f : α → Nat) (a : Nat) (l : List α) :
    l.foldl (fun n i => min n (f i)) a ≤ a ∧ ∀ i ∈ l, l.foldl (fun n i => min n (f i)) a ≤ f i := by
  induction l generalizing a with
  | nil => simp
  | cons i l ih =>
    obtain ⟨hle, hmem⟩ := ih (min a (f i))
    refine ⟨hle.trans (min_le_left _ _), fun j hj => ?_⟩
    rcases mem_cons.1 hj with rfl | hj
    · exact hle.trans (min_le_right _ _)
    · exact hmem j hj

/-- The delay is no longer than the time to any expiration, in the units of the clock. -/
theorem Inv.next_le (h : s.Inv) (ht : t ∈ s.waiting) :
    s.next ≤ (t.expiration - s.current) * 2 ^ min s.slop 63 := by
  obtain ⟨i, hi⟩ := mem_contents.1 ht
  have hwheel := TimingWheel.next_le (h.held i) (h.level i) i.isLt hi
  have hmin := (foldl_min_le (fun i => (s.wheel i).next s.current) (2 ^ 64 - 1)
    (finRange 4)).2 i (mem_finRange i)
  have hticks := hmin.trans hwheel
  rw [next]
  split
  · rw [ushl, shiftLeft_eq]
    exact (mod_le _ _).trans (mul_le_mul_right _ hticks)
  · exact hticks.trans (Nat.le_mul_of_pos_right _ (Nat.two_pow_pos _))

/-- An advance is punctual where no two timers are one. -/
theorem Advances.punctual {now : Nat} (ha : Advances notify now s s')
    (hdue : ∀ f ∈ s.fired, f.timer.expiration ≤ f.current)
    (hids : (s.waiting.map Timer.id).Nodup) : Punctual notify s s' := by
  have hids' : (s'.waiting.map Timer.id).Nodup := by
    rw [ha.waiting_eq]
    exact nodup_of_le (map_id_settle_le now s.waiting) hids
  obtain ⟨new, hfired, hnew⟩ := ha.fired_eq
  constructor
  · intro t ht hle
    rw [ha.current_eq] at hle ⊢
    refine ⟨?_, fun hin => ?_⟩
    · rw [hfired, drop_left, ← mem_coe, hnew]
      exact (mem_filterMap _ _).2 ⟨t, ht, if_neg (Nat.not_lt_of_le hle)⟩
    have := ha.inv.ahead hin
    rw [ha.current_eq] at this
    omega
  · intro f hf
    rw [hfired, mem_append] at hf
    rcases hf with hf | hf
    · exact hdue f hf
    rw [← mem_coe, hnew] at hf
    obtain ⟨u, -, hu⟩ := (mem_filterMap _ _).1 hf
    exact firing_due hu
  · intro t ht hlt
    rw [ha.current_eq] at hlt
    rw [ha.waiting_eq]
    exact (mem_filterMap _ _).2 ⟨t, ht, Timer.settle_of_lt hlt⟩
  · intro t ht t' e
    rw [ha.current_eq] at e
    rw [ha.waiting_eq]
    exact (mem_filterMap _ _).2 ⟨t, ht, e⟩
  · intro t ht
    obtain ⟨i, hi⟩ := mem_contents.1 ht
    obtain ⟨k, hk⟩ := TimingWheel.mem_timers.1 hi
    refine ⟨(i, k), ⟨hk, (ha.inv.held i).marked k (ne_nil_of_mem hk)⟩, ?_⟩
    rintro ⟨j, l⟩ ⟨hl, -⟩
    have hij : i = j := slot_unique hids' hi (TimingWheel.mem_timers.2 ⟨l, hl⟩) rfl
    subst hij
    have hwheel : ((s'.wheel i).timers.map Timer.id).Nodup :=
      nodup_of_le (Multiset.map_le_map (le_contents i)) hids'
    have hkl : k = l := slot_unique hwheel (mem_coe.2 hk) (mem_coe.2 hl) rfl
    rw [hkl]
  · exact fun t ht => ha.inv.next_le ht

theorem ushr_mono {a b : Nat} (slop : Nat) (h : a ≤ b) : ushr a slop ≤ ushr b slop :=
  TimingWheel.shiftRight_mono _ h

/-- **One behaviour from a sound state**: the advance that it ends with is punctual, and the state
is sound again. -/
theorem Sound.step (h : s.Sound slop n seen) (hn : s.NearStep c) (hle : n ≤ c.nanos)
    (hc : c.nanos < 2 ^ 64) (hw : ∀ t ∈ c.applied, t.expiration < 2 ^ 64)
    (hids : ((seen ++ c.applied.toList).map Timer.id).Nodup) :
    Advances c.notify (ushr c.nanos slop) (s.enter c) (s.step c) ∧
      Punctual c.notify (s.enter c) (s.step c) ∧
      (s.step c).Sound slop c.nanos (seen ++ c.applied.toList) := by
  have he := (h.enter hn.applied hw).1
  have hadv : Advances c.notify (ushr c.nanos slop) (s.enter c) (s.step c) := by
    rw [← he.slop_eq]
    refine advance_spec he.inv he.idle ?_ (lt_of_le_of_lt (shiftRight_le _ _) hc) ?_
    · rw [he.clock, he.slop_eq]
      exact ushr_mono slop hle
    · rw [he.slop_eq, ← h.slop_eq]
      exact hn.waiting
  have hp := hadv.punctual he.due
    (nodup_of_le he.ids (Multiset.coe_nodup.2 hids))
  refine ⟨hadv, hp, hadv.inv, hadv.pending_eq, hadv.slop_eq.trans he.slop_eq, hadv.current_eq,
    hp.due, ?_⟩
  rw [hadv.waiting_eq]
  exact (map_id_settle_le _ _).trans he.ids

end

end Timers

/-! ### What the callers and the clock promise -/

/-- The clock does not go back from `n` on, its readings and the times of the timers are `U64`
values, and no timer is set twice. -/
structure Served (n : Nat) (calls : List Call) : Prop where
  clock : (n :: calls.map Call.nanos).Pairwise (· ≤ ·)
  word : ∀ m ∈ n :: calls.map Call.nanos, m < 2 ^ 64
  timers : ∀ t ∈ calls.filterMap Call.applied, t.expiration < 2 ^ 64 ∧ t.interval < 2 ^ 64
  ids : ((calls.filterMap Call.applied).map Timer.id).Nodup

section
variable {n slop : Nat} {c : Call} {calls : List Call} {s : Timers} {seen : List Timer} {t : Timer}

theorem Served.tail (h : Served n (c :: calls)) : Served c.nanos calls := by
  obtain ⟨-, hclock⟩ := pairwise_cons.1 h.clock
  refine ⟨hclock, fun m hm => h.word m (mem_cons_of_mem _ hm), fun t ht => h.timers t ?_, ?_⟩
  · rw [filterMap_cons]
    split
    · exact ht
    · exact mem_cons_of_mem _ ht
  have hids := h.ids
  rw [filterMap_cons] at hids
  split at hids
  · exact hids
  · exact (nodup_cons.1 hids).2

theorem Served.le_nanos (h : Served n (c :: calls)) : n ≤ c.nanos :=
  (pairwise_cons.1 h.clock).1 c.nanos (.head _)

theorem Served.nanos_lt (h : Served n (c :: calls)) : c.nanos < 2 ^ 64 :=
  h.word c.nanos (mem_cons_of_mem _ (.head _))

theorem Served.applied_word (h : Served n (c :: calls)) (ht : t ∈ c.applied) :
    t.expiration < 2 ^ 64 ∧ t.interval < 2 ^ 64 :=
  h.timers t (mem_filterMap.2 ⟨c, .head _, ht⟩)

/-- The last call of a run from a sound state. -/
theorem Timers.foldl_punctual (calls : List Call) (h : s.Sound slop n seen)
    (hs : Served n (calls ++ [c])) (hn : s.NearRun (calls ++ [c]))
    (hids : ((seen ++ (calls ++ [c]).filterMap Call.applied).map Timer.id).Nodup) :
    ∃ m, (calls.foldl Timers.step s).Sound slop m (seen ++ calls.filterMap Call.applied) ∧
      (calls.foldl Timers.step s).NearStep c ∧ Served m [c] := by
  induction calls generalizing s n seen with
  | nil => exact ⟨n, by simpa using h, hn.1, hs⟩
  | cons c' calls ih =>
    have hsplit : (c' :: (calls ++ [c])).filterMap Call.applied
        = c'.applied.toList ++ (calls ++ [c]).filterMap Call.applied := by
      rw [filterMap_cons]
      cases c'.applied <;> rfl
    have hids' : (((seen ++ c'.applied.toList) ++ (calls ++ [c]).filterMap Call.applied).map
        Timer.id).Nodup := by
      rwa [append_assoc, ← hsplit]
    have hfirst := (List.Nodup.of_append_left (by rwa [map_append] at hids') :
      ((seen ++ c'.applied.toList).map Timer.id).Nodup)
    obtain ⟨-, -, hsound⟩ := h.step hn.1 hs.le_nanos hs.nanos_lt
      (fun t ht => (hs.applied_word ht).1) hfirst
    obtain ⟨m, hm, hnear, hserved⟩ := ih hsound hs.tail hn.2 hids'
    refine ⟨m, ?_, hnear, hserved⟩
    have e : (c' :: calls).filterMap Call.applied
        = c'.applied.toList ++ calls.filterMap Call.applied := by
      rw [filterMap_cons]
      cases c'.applied <;> rfl
    rw [e, ← append_assoc]
    exact hm

/-! ### At least one bit of slop -/

/-- The values of a timer that has lost a bit: `2 ^ 63` from the clock at most. -/
structure Timer.Coarse (t : Timer) (current : Nat) : Prop where
  expiration_lt : t.expiration < current + 2 ^ 63
  interval_lt : t.interval < 2 ^ 63

theorem ushr_lt {a b : Nat} (hb : 0 < b) (h : a < 2 ^ 64) : ushr a b < 2 ^ 63 := by
  have hone : 2 ^ 1 ≤ 2 ^ min b 63 := Nat.pow_le_pow_right (by decide) (by omega)
  rw [ushr, Nat.shiftRight_eq_div_pow]
  exact lt_of_le_of_lt (Nat.div_le_div_left hone (by decide)) (by omega)

theorem Timer.coarse_slop {b current : Nat} (hb : 0 < b) (he : t.expiration < 2 ^ 64)
    (hi : t.interval < 2 ^ 64) : (t.slop b).Coarse current := by
  have hexp := ushr_lt hb he
  have hint := ushr_lt hb hi
  refine ⟨lt_of_lt_of_le hexp (le_add_left _ _), ?_⟩
  rw [Timer.slop]
  simp only
  split <;> omega

theorem Timer.Coarse.near {current now : Nat} (h : t.Coarse current) (hle : current ≤ now)
    (hw : now < 2 ^ 63) : t.Near now := by
  have hexp := h.expiration_lt
  have hint := h.interval_lt
  refine ⟨by omega, by omega, fun hdue _ => ?_⟩
  have := Timer.rearm_le hdue
  omega

/-- Settling a timer at a later time keeps its bounds. -/
theorem Timer.Coarse.settle {current now : Nat} {notify : Notify} {t' : Timer}
    (h : t.Coarse current) (hle : current ≤ now) (e : t.settle notify now = some t') :
    t'.Coarse now := by
  have hexp := h.expiration_lt
  have hint := h.interval_lt
  unfold Timer.settle at e
  split_ifs at e with hlt
  · cases e
    exact ⟨by omega, hint⟩
  cases e
  have := Timer.rearm_le (Nat.le_of_not_lt hlt)
  exact ⟨by omega, hint⟩

/-- **With a bit of slop every run is near.** -/
theorem Timers.nearRun_of_slop (hb : 0 < slop) (calls : List Call) (h : s.Sound slop n seen)
    (hs : Served n calls) (hids : ((seen ++ calls.filterMap Call.applied).map Timer.id).Nodup)
    (hcoarse : ∀ t ∈ s.waiting, t.Coarse s.current) : s.NearRun calls := by
  induction calls generalizing s n seen with
  | nil => trivial
  | cons c calls ih =>
    have hle := ushr_mono slop hs.le_nanos
    have hclock : ushr n slop < 2 ^ 63 := ushr_lt hb (hs.word n (.head _))
    have happlied : ∀ t, c.message = .apply t → (t.slop s.slop).Near s.current := by
      intro t ht
      have hw := hs.applied_word (t := t) (by rw [Call.applied, ht]; rfl)
      rw [h.slop_eq, h.clock]
      exact (Timer.coarse_slop hb hw.1 hw.2).near le_rfl hclock
    have hwait := (h.enter happlied fun t ht => (hs.applied_word ht).1).2
    have hcoarse' : ∀ t ∈ (s.enter c).waiting, t.Coarse s.current := by
      intro t ht
      rw [hwait, mem_add] at ht
      rcases ht with ht | ht
      · obtain ⟨u, hu, e⟩ := mem_filterMap.1 (mem_coe.1 ht)
        have hw := hs.applied_word (Option.mem_toList.1 hu)
        rw [h.slop_eq] at e
        exact (Timer.coarse_slop hb hw.1 hw.2).settle le_rfl e
      · exact hcoarse t ht
    have hnear : s.NearStep c := by
      refine ⟨happlied, fun t ht => ?_⟩
      rw [h.slop_eq]
      refine (hcoarse' t ht).near ?_ (ushr_lt hb hs.nanos_lt)
      rw [h.clock]
      exact hle
    have hsplit : (c :: calls).filterMap Call.applied
        = c.applied.toList ++ calls.filterMap Call.applied := by
      rw [filterMap_cons]
      cases c.applied <;> rfl
    rw [hsplit, ← append_assoc] at hids
    have hfirst := (List.Nodup.of_append_left (by rwa [map_append] at hids) :
      ((seen ++ c.applied.toList).map Timer.id).Nodup)
    obtain ⟨hadv, -, hsound⟩ := h.step hnear hs.le_nanos hs.nanos_lt
      (fun t ht => (hs.applied_word ht).1) hfirst
    refine ⟨hnear, ih hsound hs.tail hids fun t ht => ?_⟩
    rw [hadv.waiting_eq] at ht
    obtain ⟨u, hu, e⟩ := (mem_filterMap _ _).1 ht
    rw [hadv.current_eq]
    refine (hcoarse' u hu).settle ?_ e
    rw [h.clock]
    exact hle

end

/-- **The wheels are never late.**  A run of calls whose differences of times are in range, which
they are when there is a bit of slop, ends in a punctual advance. -/
theorem never_late (slop n : Nat) (calls : List Call) (c : Call) (hs : Served n (calls ++ [c]))
    (hn : 0 < slop ∨ (Timers.create slop n).NearRun (calls ++ [c])) :
    let s := Timers.run slop n calls
    (s.enter c).waiting = (c.applied.toList.filterMap fun t =>
        (t.slop slop).settle c.notify s.current : List Timer) + s.waiting ∧
      (s.step c).current = ushr c.nanos slop ∧
      Timers.Punctual c.notify (s.enter c) (s.step c) := by
  intro s
  have hcreate := Timers.sound_create slop (hs.word n mem_cons_self)
  have hnear : (Timers.create slop n).NearRun (calls ++ [c]) := by
    refine hn.elim (fun hb => ?_) id
    refine Timers.nearRun_of_slop hb _ hcreate hs hs.ids fun t ht => ?_
    have hwait : (Timers.create slop n).waiting = 0 :=
      contents_eq_zero fun i => TimingWheel.timers_create
    rw [hwait] at ht
    exact absurd ht (notMem_zero t)
  obtain ⟨m, hlast, hstep, hserved⟩ := Timers.foldl_punctual calls hcreate hs hnear hs.ids
  have hsound : s.Sound slop m (calls.filterMap Call.applied) := hlast
  have hword : ∀ t ∈ c.applied, t.expiration < 2 ^ 64 :=
    fun t ht => (hserved.applied_word ht).1
  have hids : ((calls.filterMap Call.applied ++ c.applied.toList).map Timer.id).Nodup := by
    have := hs.ids
    rw [filterMap_append] at this
    convert this using 3
    cases e : c.applied <;> simp [e]
  obtain ⟨hadv, hpunctual, -⟩ := hsound.step hstep hserved.le_nanos hserved.nanos_lt hword hids
  refine ⟨?_, hadv.current_eq, hpunctual⟩
  rw [(hsound.enter hstep.applied hword).2, hsound.slop_eq]

/-- A timer of two seconds that goes on every second, and the clock five seconds later. -/
theorem never_late_five_seconds :
    let calls : List Call := [⟨.apply ⟨1, 2000000000, 1000000000⟩, 10, fun _ _ => true⟩]
    let c : Call := ⟨.eventNotify, 5000000000, fun _ _ => true⟩
    let s := Timers.run 20 0 calls
    (s.enter c).waiting = s.waiting ∧ (s.step c).current = 4768 ∧
      Timers.Punctual c.notify s (s.step c) := by
  have served : Served 0 ([⟨.apply ⟨1, 2000000000, 1000000000⟩, 10, fun _ _ => true⟩]
      ++ [⟨.eventNotify, 5000000000, fun _ _ => true⟩]) := by
    refine ⟨?_, ?_, ?_, nodup_singleton 1⟩ <;> simp [Call.applied]
  obtain ⟨hwait, hcurrent, hp⟩ := never_late 20 0 _ _ served (.inl (by decide))
  exact ⟨rfl, hcurrent, hp⟩

/-- Without slop a timer more than `2 ^ 63` ahead is taken for one in the past, and fires. -/
theorem far_timer_fires_early :
    let c : Call := ⟨.apply ⟨1, 2 ^ 63 + 1, 0⟩, 0, fun _ _ => true⟩
    Served 0 [c] ∧ (Timers.run 0 0 [c]).fired = [⟨⟨1, 2 ^ 63 + 1, 0⟩, 0, 1⟩] ∧
      ¬ Timers.Punctual c.notify ((Timers.create 0 0).enter c) (Timers.run 0 0 [c]) := by
  intro c
  have hfired : (Timers.run 0 0 [c]).fired = [⟨⟨1, 2 ^ 63 + 1, 0⟩, 0, 1⟩] := by decide +kernel
  refine ⟨?_, hfired, fun hp => ?_⟩
  · refine ⟨?_, ?_, ?_, ?_⟩ <;> simp [c, Call.applied]
  · have := hp.due _ (hfired ▸ mem_cons_self)
    simp at this

end SpacePony.Time
