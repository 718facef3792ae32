import SpacePony.Support.Slots
import SpacePony.Support.Window

/-!
# Time — One wheel

`_TimingWheel`: 64 slots of timers and a word with a bit for each slot that may hold one.  A wheel
of shift `s` keeps a timer in the slot of its expiration shifted right by `s`, less the wheel's
adjustment.  Times are `U64` values kept as natural numbers below `2 ^ 64`, with the wrapping
operations written out; the word of pending slots is a bit vector.

* `mem_visited`: advancing visits the slot of every turn between the two readings of the clock.
* `advance_spec`: advancing takes out every timer that is due and keeps `Held` at the new reading.
* `next_le`: the delay of a wheel is no longer than the time to any timer on it.
-/

namespace SpacePony.Time

open Nat List SpacePony.Slots SpacePony.Window

/-- Subtraction of `U64` values. -/
def usub (a b : Nat) : Nat := (a + 2 ^ 64 - b) % 2 ^ 64

/-- The shifts of a `U64` value; an amount of 64 or more counts as 63. -/
def ushl (a b : Nat) : Nat := (a <<< min b 63) % 2 ^ 64

def ushr (a b : Nat) : Nat := a >>> min b 63

theorem usub_of_le {a b : Nat} (ha : a < 2 ^ 64) (h : b ≤ a) : usub a b = a - b := by
  rw [usub]
  omega

theorem usub_of_lt {a b : Nat} (hb : b < 2 ^ 64) (h : a < b) : usub a b = 2 ^ 64 - (b - a) := by
  rw [usub]
  omega

/-- A timer: which object it is, when it expires and how often it does so again. -/
structure Timer where
  id : Nat
  expiration : Nat
  interval : Nat
deriving DecidableEq

/-- A wheel of the hierarchy. -/
structure TimingWheel where
  shift : Nat
  adjust : Nat
  pending : BitVec 64
  list : Fin 64 → List Timer

namespace TimingWheel

/-- The wheel at a level of the hierarchy, with no timers. -/
def create (index : Nat) : TimingWheel :=
  { shift := index * 6
    adjust := if index > 0 then 1 else 0
    pending := 0
    list := fun _ => [] }

/-- The slot of a time. -/
def slot (w : TimingWheel) (time : Nat) : Nat := (time >>> w.shift) % 64

/-- Put a timer at the end of its slot's list and mark the slot. -/
def schedule (w : TimingWheel) (timer : Timer) : TimingWheel :=
  let slot := usub (timer.expiration >>> w.shift) w.adjust % 64
  { w with
    list := Function.update w.list (Fin.ofNat 64 slot) (w.list (Fin.ofNat 64 slot) ++ [timer])
    pending := w.pending ||| Window.bit 64 slot }

/-- The slots that an advance of `elapsed` up to `current` visits. -/
def visited (w : TimingWheel) (current elapsed : Nat) : BitVec 64 :=
  let time := max (elapsed >>> w.shift) 1
  if time ≤ 63 then
    let slot := time % 64
    let slots := window 64 slot
    let oldSlot := w.slot (usub current elapsed)
    let newSlot := w.slot current
    slots.rotateLeft oldSlot ||| (slots.rotateLeft newSlot).rotateRight slot ||| Window.bit 64 newSlot
  else
    BitVec.allOnes 64

/-- Empty the marked slots among `mask` into `list`, the lowest slot first. -/
def drain (mask : BitVec 64) (list : List Timer) (w : TimingWheel) : List Timer × TimingWheel :=
  if mask &&& w.pending ≠ 0 then
    let slot := (mask &&& w.pending).ctz.toNat
    drain mask (list ++ w.list (Fin.ofNat 64 slot))
      { w with
        list := Function.update w.list (Fin.ofNat 64 slot) []
        pending := w.pending &&& ~~~ Window.bit 64 slot }
  else (list, w)
termination_by (mask &&& w.pending).toNat
decreasing_by exact clear_lt (BitVec.getLsbD_true_ctz_of_ne_zero ‹_›)

/-- Empty the slots between two readings of the clock into `list`; the flag says whether slot 0 was
passed, so that the next wheel is to be advanced. -/
def advance (w : TimingWheel) (list : List Timer) (current elapsed : Nat) :
    List Timer × TimingWheel × Bool :=
  let pending := w.visited current elapsed
  let r := drain pending list w
  (r.1, r.2, pending &&& 1 != 0)

/-- The delay until this wheel is to be advanced, `-1` when nothing is pending. -/
def next (w : TimingWheel) (current : Nat) : Nat :=
  if w.pending ≠ 0 then
    let slot := w.slot current
    let mask := 1 <<< w.shift - 1
    usub (ushl ((w.pending.rotateRight slot).ctz.toNat + w.adjust) w.shift) (current &&& mask)
  else 2 ^ 64 - 1

/-- The timers on a wheel. -/
def timers (w : TimingWheel) : Multiset Timer := contents (fun l : List Timer => (l : Multiset Timer)) w.list

/-- The turn in which a timer's slot comes up: its slot, not yet reduced to one of 64. -/
def turn (w : TimingWheel) (timer : Timer) : Nat := timer.expiration >>> w.shift - w.adjust

/-- The parameters of the wheel at a level. -/
structure At (w : TimingWheel) (index : Nat) : Prop where
  shift_eq : w.shift = index * 6
  adjust_eq : w.adjust = if index > 0 then 1 else 0

/-- **Every timer on the wheel is where an advance finds it**: in the slot of its turn, with the
slot marked, not yet expired, and at least the wheel's adjustment ahead of the clock's turn. -/
structure Held (w : TimingWheel) (current : Nat) : Prop where
  placed : ∀ k, ∀ t ∈ w.list k, (k : Nat) = w.turn t % 64
  marked : ∀ k, w.list k ≠ [] → w.pending.getLsbD k = true
  ahead : ∀ k, ∀ t ∈ w.list k, current < t.expiration
  later : ∀ k, ∀ t ∈ w.list k, current >>> w.shift + w.adjust ≤ t.expiration >>> w.shift

section
variable {w : TimingWheel} {t : Timer} {index current old now : Nat} {k : Fin 64}

theorem mem_timers : t ∈ w.timers ↔ ∃ k, t ∈ w.list k := by
  simp [timers, mem_contents]

@[simp] theorem timers_create : (create index).timers = 0 :=
  contents_eq_zero fun _ => rfl

theorem at_create : (create index).At index := ⟨rfl, rfl⟩

theorem held_create : (create index).Held current := by
  constructor <;> simp [create]

theorem Held.turn_ge (h : w.Held current) (ht : t ∈ w.list k) : current >>> w.shift ≤ w.turn t :=
  le_sub_of_add_le (h.later k t ht)

/-! ### Scheduling -/

@[simp] theorem timers_schedule : (w.schedule t).timers = t ::ₘ w.timers := by
  rw [← Multiset.singleton_add]
  refine contents_add (m := {t}) ?_
  rw [← Multiset.coe_add, add_comm, Multiset.coe_singleton]

theorem At.schedule (h : w.At index) : (w.schedule t).At index := ⟨h.shift_eq, h.adjust_eq⟩

/-- **A timer far enough ahead is scheduled where an advance finds it.** -/
theorem Held.schedule (h : w.Held current) (hw : t.expiration < 2 ^ 64)
    (hlt : current < t.expiration)
    (hlater : current >>> w.shift + w.adjust ≤ t.expiration >>> w.shift) :
    (w.schedule t).Held current := by
  have hword : t.expiration >>> w.shift < 2 ^ 64 := lt_of_le_of_lt (shiftRight_le _ _) hw
  have hslot : usub (t.expiration >>> w.shift) w.adjust = w.turn t :=
    usub_of_le hword (le_trans (le_add_left _ _) hlater)
  have hmem : ∀ k, ∀ u ∈ (w.schedule t).list k,
      u ∈ w.list k ∨ u = t ∧ k = Fin.ofNat 64 (w.turn t % 64) := by
    intro k u hu
    simp only [TimingWheel.schedule, hslot] at hu
    by_cases e : k = Fin.ofNat 64 (w.turn t % 64)
    · subst e
      rw [Function.update_self, mem_append, mem_singleton] at hu
      exact hu.imp_right fun hu => ⟨hu, rfl⟩
    · rw [Function.update_of_ne e] at hu
      exact .inl hu
  constructor
  · intro k u hu
    rcases hmem k u hu with hu | ⟨rfl, rfl⟩
    · exact h.placed k u hu
    · simp [TimingWheel.turn, TimingWheel.schedule]
  · intro k hk
    obtain ⟨u, hu⟩ := exists_mem_of_ne_nil _ hk
    simp only [TimingWheel.schedule, hslot, BitVec.getLsbD_or, Bool.or_eq_true]
    rcases hmem k u hu with hu | ⟨rfl, rfl⟩
    · exact .inl (h.marked k (ne_nil_of_mem hu))
    right
    rw [getLsbD_bit (Nat.mod_lt _ (by decide))]
    simp
  · intro k u hu
    rcases hmem k u hu with hu | ⟨rfl, rfl⟩
    · exact h.ahead k u hu
    · exact hlt
  · intro k u hu
    rcases hmem k u hu with hu | ⟨rfl, rfl⟩
    · exact h.later k u hu
    · exact hlater

/-! ### The slots that are visited -/

theorem shiftRight_mono (s : Nat) (h : old ≤ now) : old >>> s ≤ now >>> s := by
  rw [shiftRight_eq_div_pow, shiftRight_eq_div_pow]
  exact Nat.div_le_div_right h

theorem lt_of_shiftRight_lt {s : Nat} (h : old >>> s < now >>> s) : old < now := by
  by_contra hle
  exact absurd (shiftRight_mono s (Nat.le_of_not_lt hle)) (Nat.not_le_of_lt h)

/-- Two times in one turn of a wheel are in one turn of every coarser wheel. -/
theorem shiftRight_eq_of_le {s s' : Nat} (hs : s ≤ s') (h : old >>> s = now >>> s) :
    old >>> s' = now >>> s' := by
  obtain ⟨d, rfl⟩ := Nat.exists_eq_add_of_le hs
  rw [Nat.shiftRight_add, Nat.shiftRight_add, h]

theorem shiftRight_sub_le (s : Nat) (h : old ≤ now) :
    now >>> s ≤ old >>> s + (now - old) >>> s + 1 := by
  obtain ⟨d, rfl⟩ := Nat.exists_eq_add_of_le h
  rw [Nat.add_sub_cancel_left, Nat.shiftRight_eq_div_pow, Nat.shiftRight_eq_div_pow,
    Nat.shiftRight_eq_div_pow, Nat.add_div (Nat.two_pow_pos s)]
  split <;> omega

/-- **An advance visits the slot of every turn from the old reading's to the new one's.** -/
theorem mem_visited {n : Nat} (h : old ≤ now) (hw : now < 2 ^ 64) (hold : old >>> w.shift ≤ n)
    (hnew : n ≤ now >>> w.shift) : (w.visited now (now - old)).getLsbD (n % 64) = true := by
  have hback : usub now (now - old) = old := by
    rw [usub_of_le hw (sub_le _ _)]
    omega
  have hspan := shiftRight_sub_le w.shift h
  simp only [visited, hback, slot]
  split
  case isFalse =>
    rw [BitVec.getLsbD_allOnes]
    simp [mod_lt]
  case isTrue hle =>
    rw [mod_eq_of_lt (show max ((now - old) >>> w.shift) 1 < 64 by omega)]
    simp only [BitVec.getLsbD_or, Bool.or_eq_true]
    -- the first window covers the turns from the old one on, the second those up to the new one
    by_cases hfirst : n < old >>> w.shift + max ((now - old) >>> w.shift) 1
    · exact .inl (.inl (from_mem (by omega) hold hfirst))
    by_cases hlast : n = now >>> w.shift
    · right
      rw [hlast, getLsbD_bit (Nat.mod_lt _ (by decide))]
      simp
    · exact .inl (.inr (upto_mem (by omega) (by omega) (by omega)))

/-! ### Advancing -/

/-- What draining does: the timers of the marked slots among `mask` are taken `out`, and the marks
with them. -/
structure Drained (mask : BitVec 64) (w : TimingWheel) (out : List Timer) (w' : TimingWheel) :
    Prop where
  split : (out : Multiset Timer) + w'.timers = w.timers
  shift_eq : w'.shift = w.shift
  adjust_eq : w'.adjust = w.adjust
  list_eq : ∀ k : Fin 64,
    w'.list k = if mask.getLsbD k && w.pending.getLsbD k then [] else w.list k
  pending_eq : ∀ k : Fin 64,
    w'.pending.getLsbD k = (w.pending.getLsbD k && !mask.getLsbD k)

/-- One marked slot is emptied, and then the rest. -/
theorem Drained.cons {mask : BitVec 64} {out : List Timer} {w' : TimingWheel} {m : Fin 64}
    (hm : (mask &&& w.pending).getLsbD m = true) (h : Drained mask { w with
        list := Function.update w.list m []
        pending := w.pending &&& ~~~ Window.bit 64 m } out w') : Drained mask w (w.list m ++ out) w' := by
  rw [BitVec.getLsbD_and, Bool.and_eq_true] at hm
  have hbit : ∀ k : Fin 64, (w.pending &&& ~~~ Window.bit 64 m).getLsbD k
      = (w.pending.getLsbD k && !decide (k = m)) := by
    intro k
    rw [BitVec.getLsbD_and, BitVec.getLsbD_not, getLsbD_bit m.isLt]
    simp only [k.isLt, decide_true, Bool.true_and, Fin.ext_iff]
  refine ⟨?_, h.shift_eq, h.adjust_eq, fun k => ?_, fun k => ?_⟩
  · rw [← Multiset.coe_add, add_assoc, h.split]
    exact contents_take (add_zero _)
  · rw [h.list_eq, hbit]
    by_cases e : k = m
    · subst e
      simp only [Function.update_self, hm.1, hm.2, Bool.and_self, ite_self, if_true]
    · simp only [e, decide_false, Bool.not_false, Bool.and_true, Function.update_of_ne, ne_eq,
        not_false_eq_true]
  · rw [h.pending_eq, hbit]
    by_cases e : k = m
    · subst e
      simp only [hm.1, decide_true, Bool.not_true, Bool.and_false]
    · simp only [e, decide_false, Bool.not_false, Bool.and_true]

/-- Draining loops until no marked slot is left among `mask`. -/
theorem drain_spec (mask : BitVec 64) (list : List Timer) (w : TimingWheel) :
    ∃ out, (drain mask list w).1 = list ++ out ∧ Drained mask w out (drain mask list w).2 := by
  induction list, w using drain.induct mask with
  | case1 list w hne slot ih =>
    obtain ⟨out, hout, hd⟩ := ih
    have hset := BitVec.getLsbD_true_ctz_of_ne_zero hne
    rw [drain, if_pos hne]
    have hval : ((Fin.ofNat 64 slot : Fin 64) : Nat) = slot := mod_eq_of_lt (ctz_lt hne)
    refine ⟨w.list (Fin.ofNat 64 slot) ++ out, by rw [hout, append_assoc], ?_⟩
    exact Drained.cons (hval.symm ▸ hset) (hval.symm ▸ hd)
  | case2 list w hz =>
    have hzero : ∀ k : Nat, (mask.getLsbD k && w.pending.getLsbD k) = false := by
      intro k
      rw [← BitVec.getLsbD_and, not_not.1 hz]
      exact BitVec.getLsbD_zero
    rw [drain, if_neg hz]
    refine ⟨[], (append_nil _).symm, zero_add _, rfl, rfl, fun k => ?_, fun k => ?_⟩
    · rw [hzero]
      rfl
    cases hp : w.pending.getLsbD k with
    | false => rfl
    | true =>
      have := hzero k
      rw [hp, Bool.and_true] at this
      rw [this]
      rfl

/-- **Advancing a wheel takes out every timer that is due and keeps the rest where the next advance
finds it.**  When slot 0 is not passed, the clock's turn on every higher wheel stays the same. -/
theorem advance_spec (h : w.Held old) (hat : w.At index) (hle : old ≤ now) (hw : now < 2 ^ 64)
    (list : List Timer) : ∃ out w' more, w.advance list now (now - old) = (list ++ out, w', more) ∧
      (out : Multiset Timer) + w'.timers = w.timers ∧ w'.At index ∧ w'.Held now ∧
      (more = false → ∀ i, index < i → old >>> (i * 6) = now >>> (i * 6)) := by
  obtain ⟨out, hout, hd⟩ := drain_spec (w.visited now (now - old)) list w
  refine ⟨out, _, _, Prod.ext hout rfl, hd.split,
    ⟨hd.shift_eq.trans hat.shift_eq, hd.adjust_eq.trans hat.adjust_eq⟩, ?_, ?_⟩
  · -- a timer that is left is in a slot that was not visited, so its turn is past the new reading
    have kept : ∀ k, ∀ t ∈ (drain (w.visited now (now - old)) list w).2.list k,
        t ∈ w.list k ∧ (w.visited now (now - old)).getLsbD k = false ∧
          now >>> w.shift < w.turn t := by
      intro k t ht
      rw [hd.list_eq] at ht
      split at ht
      · cases ht
      rename_i hnot
      have hmark := h.marked k (ne_nil_of_mem ht)
      have hvis : (w.visited now (now - old)).getLsbD k = false := by
        rw [hmark, Bool.and_true] at hnot
        exact Bool.not_eq_true _ ▸ hnot
      refine ⟨ht, hvis, ?_⟩
      by_contra hnew
      have := mem_visited (w := w) hle hw (h.turn_ge ht) (Nat.le_of_not_lt hnew)
      rw [← h.placed k t ht, hvis] at this
      cases this
    constructor
    · intro k t ht
      have := h.placed k t (kept k t ht).1
      rwa [turn, hd.shift_eq, hd.adjust_eq]
    · intro k hk
      obtain ⟨t, ht⟩ := exists_mem_of_ne_nil _ hk
      obtain ⟨hin, hvis, -⟩ := kept k t ht
      rw [hd.pending_eq, h.marked k (ne_nil_of_mem hin), hvis]
      rfl
    · intro k t ht
      obtain ⟨-, -, hturn⟩ := kept k t ht
      exact lt_of_shiftRight_lt (lt_of_lt_of_le hturn (Nat.sub_le _ _))
    · intro k t ht
      obtain ⟨-, -, hturn⟩ := kept k t ht
      rw [hd.shift_eq, hd.adjust_eq]
      exact (Nat.add_lt_of_lt_sub hturn).le
  intro hmore i hi
  refine shiftRight_eq_of_le (by omega : (index + 1) * 6 ≤ i * 6) ?_
  by_contra hne
  have hlt : old >>> ((index + 1) * 6) < now >>> ((index + 1) * 6) :=
    lt_of_le_of_ne (shiftRight_mono _ hle) hne
  have hzero : (w.visited now (now - old)).getLsbD 0 = false :=
    (and_one_ne_zero (by decide)).symm.trans hmore
  -- the wheel's turn passed a multiple of 64 on the way
  have hsplit : ∀ c : Nat, c >>> ((index + 1) * 6) = (c >>> w.shift) / 64 := fun c => by
    rw [hat.shift_eq, Nat.add_mul, Nat.shiftRight_add, Nat.shiftRight_eq_div_pow _ (1 * 6)]
  rw [hsplit, hsplit] at hlt
  have hturn := mem_visited (w := w) (n := (now >>> w.shift) / 64 * 64) hle hw
    ((Nat.div_lt_iff_lt_mul (by decide)).1 hlt).le (Nat.div_mul_le_self _ _)
  rw [Nat.mul_mod_left, hzero] at hturn
  cases hturn

/-- As long as the clock's turn stays the same, nothing on a wheel with an adjustment comes due. -/
theorem Held.of_turn_eq (h : w.Held old) (ha : 0 < w.adjust)
    (e : old >>> w.shift = now >>> w.shift) : w.Held now := by
  have hlater : ∀ k, ∀ t ∈ w.list k, now >>> w.shift + w.adjust ≤ t.expiration >>> w.shift :=
    fun k t ht => e ▸ h.later k t ht
  refine ⟨h.placed, h.marked, fun k t ht => ?_, hlater⟩
  exact lt_of_shiftRight_lt (lt_of_lt_of_le (Nat.lt_add_of_pos_right ha) (hlater k t ht))

/-! ### The delay -/

/-- A delay of `n` turns, counted from the start of the current turn, is no longer than the time to
a later expiration. -/
theorem delay_le {s n e : Nat} (hs : s ≤ 18) (hn : n ≤ 64) (he : current >>> s + n ≤ e >>> s)
    (hpos : 0 < n ∨ s = 0) : usub (ushl n s) (current &&& (1 <<< s - 1)) ≤ e - current := by
  have hd : 0 < 2 ^ s := Nat.two_pow_pos s
  have hbig : n * 2 ^ s < 2 ^ 64 := calc
    n * 2 ^ s ≤ 64 * 2 ^ 18 := Nat.mul_le_mul hn (Nat.pow_le_pow_right (by decide) hs)
    _ < 2 ^ 64 := by decide
  rw [ushl, min_eq_left (by omega), Nat.shiftLeft_eq, Nat.mod_eq_of_lt hbig, Nat.shiftLeft_eq, one_mul,
    Nat.and_two_pow_sub_one_eq_mod]
  have hmod : current % 2 ^ s ≤ n * 2 ^ s := by
    rcases hpos with hpos | rfl
    · exact (Nat.mod_lt _ hd).le.trans (Nat.le_mul_of_pos_left _ hpos)
    · simp [Nat.mod_one]
  rw [usub_of_le hbig hmod]
  rw [Nat.shiftRight_eq_div_pow, Nat.shiftRight_eq_div_pow] at he
  have hturns : (current / 2 ^ s + n) * 2 ^ s ≤ e :=
    (Nat.mul_le_mul_right _ he).trans (Nat.div_mul_le_self _ _)
  rw [Nat.add_mul] at hturns
  have hcurrent := Nat.div_add_mod' current (2 ^ s)
  omega

/-- **The delay of a wheel never exceeds the time to an expiration of one of its timers.** -/
theorem next_le (h : w.Held current) (hat : w.At index) (hi : index < 4) (ht : t ∈ w.timers) :
    w.next current ≤ t.expiration - current := by
  obtain ⟨k, hk⟩ := mem_timers.1 ht
  have hset := h.marked k (ne_nil_of_mem hk)
  have hne : w.pending ≠ 0 := by
    intro hz
    rw [hz] at hset
    simp at hset
  rw [h.placed k t hk] at hset
  have hctz : ((w.pending.rotateRight (w.slot current)).ctz).toNat
      ≤ (w.turn t - current >>> w.shift) % 64 :=
    ctz_rotateRight_le (succ_pos 63) (h.turn_ge hk) hset
  have hway := hctz.trans (mod_le _ _)
  have hlater := h.later k t hk
  rw [next, if_pos hne]
  refine delay_le (by rw [hat.shift_eq]; omega) ?_ ?_ ?_
  · rw [hat.adjust_eq]
    split <;> omega
  · rw [turn] at hway
    omega
  · rw [hat.shift_eq, hat.adjust_eq]
    split <;> omega

end

end TimingWheel

end SpacePony.Time
