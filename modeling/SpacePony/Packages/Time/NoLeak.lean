import SpacePony.Packages.Time.NeverLate

/-!
# Time — No timer is leaked

Runs of `Timers` with calls and cancellations, for any readings of the clock.  Firing a timer that
is on no wheel puts it back on one or takes it out of the map (`fire_kept`), and the map holds the
timers on the wheels over whole runs in which no timer without an interval expires as the clock
reads and is asked back (`no_timer_leaked`).
-/

namespace SpacePony.Time

open List SpacePony.Slots
open Multiset (mem_coe coe_erase mem_cons_of_mem coe_nil coe_nodup mem_add map_add nodup_of_le
  map_le_map mem_map)

/-! ### Cancelling -/

/-- `remove` of a list node: the timer is taken off any slot it is in. -/
def TimingWheel.remove (w : TimingWheel) (id : Nat) : TimingWheel :=
  { w with list := fun k => (w.list k).filter fun t => decide (t.id ≠ id) }

/-- `cancel`: a timer that is not in the map is an error, which is swallowed. -/
def Timers.cancel (s : Timers) (id : Nat) : Timers :=
  if id ∈ s.map then
    let s := { s with map := s.map.erase id, wheel := fun i => (s.wheel i).remove id }
    if s.map.length = 0 ∧ s.event.isSome then { s with event := none } else s
  else s

/-- What `Timers` is asked for. -/
inductive Op where
  | call (c : Call)
  | cancel (id : Nat)

def Timers.op (s : Timers) : Op → Timers
  | .call c => s.step c
  | .cancel id => s.cancel id

/-- The timers that are set. -/
def Op.applied : Op → Option Timer
  | .call c => c.applied
  | .cancel _ => none

/-! ### What is to hold -/

/-- The count is the number of expirations that have passed. -/
def Firing.Exact (f : Firing) : Prop :=
  f.timer.expiration + (f.count - 1) * f.timer.interval ≤ f.current ∧ 0 < f.count ∧
    (0 < f.timer.interval → f.current < f.timer.expiration + f.count * f.timer.interval) ∧
    (f.timer.interval = 0 → f.count = 1)

/-- **No timer is leaked or forgotten.** -/
structure Timers.Whole (s : Timers) : Prop where
  mapped : ∀ id ∈ s.map, ∃! p : Fin 4 × Fin 64, ∃ t ∈ (s.wheel p.1).list p.2, t.id = id
  once : ∀ i k, (((s.wheel i).list k).map Timer.id).Nodup
  listed : ∀ i k, ∀ t ∈ (s.wheel i).list k, t.id ∈ s.map
  gone : ∀ f ∈ s.fired, f.timer.interval = 0 → f.timer.id ∉ s.map
  counts : ∀ f ∈ s.fired, f.Exact

/-- Firing the timer goes well: it is not so far ahead that it is taken for one in the past, and
if it has no interval and expires right now, its notifier does not go on. -/
structure Timer.Safe (t : Timer) (notify : Notify) (current : Nat) : Prop where
  ahead : t.expiration ≤ current + 2 ^ 63
  now : t.interval = 0 → t.expiration = current → notify t 1 = false

/-- Every timer that the step fires is safe. -/
def Timers.Safe (s : Timers) : Op → Prop
  | .cancel _ => True
  | .call c => (∀ t ∈ c.applied, (t.slop s.slop).Safe c.notify s.current) ∧
      ∀ t ∈ ((s.enter c).taken c.nanos).2, t.Safe c.notify (ushr c.nanos s.slop)

def Timers.SafeRun : Timers → List Op → Prop
  | _, [] => True
  | s, op :: ops => s.Safe op ∧ (s.op op).SafeRun ops

instance (t : Timer) (notify : Notify) (current : Nat) : Decidable (t.Safe notify current) :=
  decidable_of_iff (_ ∧ (_ → _ → _)) ⟨fun h => ⟨h.1, h.2⟩, fun h => ⟨h.1, h.2⟩⟩

instance (s : Timers) : (op : Op) → Decidable (s.Safe op)
  | .cancel _ => isTrue trivial
  | .call _ => instDecidableAnd

instance decSafeRun : (s : Timers) → (ops : List Op) → Decidable (s.SafeRun ops)
  | _, [] => isTrue trivial
  | s, op :: ops => @instDecidableAnd _ _ _ (decSafeRun (s.op op) ops)

/-- The readings and the timers are `U64` values, and a timer is set once: it is given away. -/
structure Given (n : Nat) (ops : List Op) : Prop where
  clock : n < 2 ^ 64
  nanos : ∀ c, Op.call c ∈ ops → c.nanos < 2 ^ 64
  word : ∀ t ∈ ops.filterMap Op.applied, t.expiration < 2 ^ 64 ∧ t.interval < 2 ^ 64
  ids : ((ops.filterMap Op.applied).map Timer.id).Nodup

/-! ### Firing -/

namespace Timers

/-- The map holds the timers on the wheels and those still to be fired, `ts`; `seen` are the
identities of all the timers set so far. -/
structure Kept (seen : List Nat) (ts : List Timer) (s : Timers) : Prop where
  balanced : (((ts : Multiset Timer) + s.waiting).map Timer.id) = (s.map : Multiset Nat)
  nodup : s.map.Nodup
  word : ∀ t ∈ (ts : Multiset Timer) + s.waiting, t.expiration < 2 ^ 64 ∧ t.interval < 2 ^ 64
  seen_map : ∀ id ∈ s.map, id ∈ seen
  seen_fired : ∀ f ∈ s.fired, f.timer.id ∈ seen
  gone : ∀ f ∈ s.fired, f.timer.interval = 0 → f.timer.id ∉ s.map
  counts : ∀ f ∈ s.fired, f.Exact

end Timers

/-- What firing gives, whatever the clock reads. -/
theorem Timer.fire_cases {t : Timer} {notify : Notify} {current : Nat} (hs : t.Safe notify current)
    (hw : t.expiration < 2 ^ 64) (hi : t.interval < 2 ^ 64) (hc : current < 2 ^ 64) :
    ∃ t' count again, t.fire notify current = (t', count, again) ∧ t'.id = t.id ∧
      t'.expiration < 2 ^ 64 ∧ t'.interval = t.interval ∧
      (∀ n, count = some n → (Firing.mk t current n).Exact) ∧
      (again = true → 0 < usub t'.expiration current ∧ (count = none ∨ 0 < t.interval)) := by
  have hahead := hs.ahead
  by_cases hdue : usub current t.expiration < 2 ^ 63
  · have hle : t.expiration ≤ current := by
      by_contra hgt
      rw [usub_of_lt hw (by omega)] at hdue
      omega
    rw [usub_of_le hc hle] at hdue
    have hdiv := Nat.div_add_mod' (current - t.expiration) t.interval
    have hcount : (current - t.expiration) / t.interval + 1 < 2 ^ 64 := by
      have := Nat.div_le_self (current - t.expiration) t.interval
      omega
    unfold fire
    simp only [usub_of_le hc hle, if_pos hdue, Nat.mod_eq_of_lt hcount]
    generalize hq : (current - t.expiration) / t.interval = q at hdiv hcount
    have hexact : (Firing.mk t current (q + 1)).Exact := by
      refine ⟨?_, Nat.succ_pos q, fun hpos => ?_, fun hz => ?_⟩
      · simp only [Nat.add_sub_cancel]
        omega
      · have hmod : (current - t.expiration) % t.interval < t.interval := Nat.mod_lt _ hpos
        simp only [Nat.add_mul, Nat.one_mul]
        omega
      · rw [← hq, hz, Nat.div_zero]
    split
    · exact ⟨_, _, _, rfl, rfl, Nat.mod_lt _ (by decide), rfl, fun n hn => Option.some.inj hn ▸ hexact,
        (by rintro ⟨⟩)⟩
    rename_i hyes
    refine ⟨_, _, _, rfl, rfl, Nat.mod_lt _ (by decide), rfl,
      fun n hn => Option.some.inj hn ▸ hexact, fun hagain => ?_⟩
    rcases Nat.eq_zero_or_pos t.interval with hz | hpos
    · -- asked back without an interval: it expires right now, and the notifier does not go on
      have hq0 : q = 0 := by rw [← hq, hz, Nat.div_zero]
      have hsame : (t.expiration + (q + 1) * t.interval) % 2 ^ 64 = t.expiration := by
        rw [hz, Nat.mul_zero, Nat.add_zero, Nat.mod_eq_of_lt hw]
      simp only [hz, gt_iff_lt, Nat.lt_irrefl, decide_false, Bool.false_or,
        decide_eq_true_eq] at hagain
      have hnow : t.expiration = current := by
        by_contra hne
        rw [usub_of_lt hc (by omega)] at hagain
        omega
      rw [hsame, hq0, hs.now hz hnow] at hyes
      cases hyes rfl
    refine ⟨?_, .inr hpos⟩
    have hmod := Nat.mod_lt (current - t.expiration) hpos
    simp only [usub, Nat.add_mul, Nat.one_mul]
    omega
  have hne : t.expiration ≠ current := by
    rintro rfl
    rw [usub_of_le hc (Nat.le_refl _)] at hdue
    omega
  unfold fire
  simp only [if_neg hdue]
  refine ⟨_, _, _, rfl, rfl, hw, rfl, by simp, fun _ => ⟨?_, .inl rfl⟩⟩
  rw [usub]
  omega

namespace Timers

section
variable {s : Timers} {t : Timer} {ts : List Timer} {notify : Notify} {seen : List Nat} {id : Nat}

/-- **Firing a timer** that is on no wheel puts it back on one, or takes it out of the map. -/
theorem Kept.fire (h : s.Kept seen (t :: ts)) (hc : s.current < 2 ^ 64)
    (hs : t.Safe notify s.current) : (s.fire notify t).Kept seen ts := by
  have ht := h.word t (by simp)
  obtain ⟨t', count, again, hf, hid, hw, hi, hexact, hagain⟩ := Timer.fire_cases hs ht.1 ht.2 hc
  have hbal : (s.map : Multiset Nat) = t.id ::ₘ ((ts : Multiset Timer) + s.waiting).map Timer.id := by
    rw [← h.balanced, ← Multiset.cons_coe, Multiset.cons_add, Multiset.map_cons]
  have hmem : t.id ∈ s.map := by
    rw [← mem_coe, hbal]
    exact Multiset.mem_cons_self _ _
  -- the notification, if there is one
  have hlog : ∀ f ∈ (s.log t count).fired, f ∈ s.fired ∨ f.timer = t ∧ f.Exact ∧ count ≠ none := by
    intro f hf
    rcases mem_append.1 hf with hf | hf
    · exact .inl hf
    cases count with
    | none => cases hf
    | some n =>
      obtain rfl := mem_singleton.1 hf
      exact .inr ⟨rfl, hexact n rfl, nofun⟩
  have hseen : ∀ f ∈ (s.log t count).fired, f.timer.id ∈ seen := fun f hf => by
    rcases hlog f hf with hf | ⟨rfl, -⟩
    · exact h.seen_fired f hf
    · exact h.seen_map _ hmem
  have hcounts : ∀ f ∈ (s.log t count).fired, f.Exact := fun f hf =>
    (hlog f hf).elim (h.counts f) fun he => he.2.1
  cases again with
  | false =>
    rw [fire_eq_done hf]
    refine ⟨?_, h.nodup.erase _, fun u hu => h.word u ?_, fun id hid => h.seen_map id
      (mem_of_mem_erase hid), hseen, fun f hf hz hin => ?_, hcounts⟩
    · rw [← coe_erase, hbal, Multiset.erase_cons_head]
      rfl
    · rw [← Multiset.cons_coe, Multiset.cons_add]
      exact mem_cons_of_mem hu
    · rcases hlog f hf with hf | ⟨rfl, -⟩
      · exact h.gone f hf hz (mem_of_mem_erase hin)
      · exact h.nodup.not_mem_erase hin
  | true =>
    obtain ⟨hrem, hpos⟩ := hagain rfl
    obtain ⟨i, hi', -⟩ := getWheel_spec hrem
    have hmap : ((s.log t count).schedule t' (some i)).map = s.map := rfl
    have hwait : ((s.log t count).schedule t' (some i)).waiting = t' ::ₘ s.waiting := by
      rw [← Multiset.singleton_add]
      exact contents_add (by rw [TimingWheel.timers_schedule, Multiset.singleton_add])
    rw [fire_eq_again hf, hi']
    refine ⟨?_, h.nodup, fun u hu => ?_, h.seen_map, hseen, fun f hf hz hin => ?_, hcounts⟩
    · rw [hwait, hmap, hbal, Multiset.add_cons, Multiset.map_cons, hid]
    · rw [hwait, Multiset.add_cons, Multiset.mem_cons] at hu
      rcases hu with rfl | hu
      · exact ⟨hw, hi ▸ ht.2⟩
      refine h.word u ?_
      rw [← Multiset.cons_coe, Multiset.cons_add]
      exact mem_cons_of_mem hu
    · rcases hlog f hf with hf | ⟨rfl, -, hne⟩
      · exact h.gone f hf hz hin
      · exact absurd hz (hpos.resolve_left hne).ne'

/-- What firing leaves alone. -/
theorem fire_frame (s : Timers) (notify : Notify) (t : Timer) :
    (s.fire notify t).current = s.current ∧ (s.fire notify t).pending = s.pending ∧
      (s.fire notify t).slop = s.slop := by
  rcases hf : t.fire notify s.current with ⟨t', count, again⟩
  cases again with
  | false =>
    rw [fire_eq_done hf]
    exact ⟨rfl, rfl, rfl⟩
  | true =>
    rw [fire_eq_again hf, schedule_current, schedule_pending, schedule_slop]
    exact ⟨rfl, rfl, rfl⟩

theorem Kept.foldl_fire (ts : List Timer) (h : s.Kept seen ts) (hc : s.current < 2 ^ 64)
    (hs : ∀ t ∈ ts, t.Safe notify s.current) :
    (ts.foldl (fun s timer => s.fire notify timer) s).Kept seen [] ∧
      (ts.foldl (fun s timer => s.fire notify timer) s).current = s.current := by
  induction ts generalizing s with
  | nil => exact ⟨h, rfl⟩
  | cons t ts ih =>
    have hcur := (fire_frame s notify t).1
    have hfire := h.fire hc (hs t (.head _))
    obtain ⟨hkept, hlast⟩ := ih hfire (hcur ▸ hc) fun u hu => by
      rw [hcur]
      exact hs u (mem_cons_of_mem _ hu)
    exact ⟨hkept, hlast.trans hcur⟩

theorem Kept.congr {s' : Timers} (h : s.Kept seen ts) (hw : s'.wheel = s.wheel)
    (hm : s'.map = s.map) (hf : s'.fired = s.fired) : s'.Kept seen ts := by
  have hwait := waiting_congr hw
  obtain ⟨hbal, hnodup, hword, hsm, hsf, hgone, hcounts⟩ := h
  rw [← hm, ← hwait] at hbal
  exact ⟨hbal, hm ▸ hnodup, hwait ▸ hword, hm ▸ hsm, hf ▸ hsf, by rwa [hf, hm], hf ▸ hcounts⟩

/-- An advance keeps the map and the wheels together. -/
theorem Kept.advance {nanos : Nat} (h : s.Kept seen []) (hn : nanos < 2 ^ 64)
    (hp : s.pending = []) (hs : ∀ t ∈ (s.taken nanos).2, t.Safe notify (ushr nanos s.slop)) :
    (s.advance notify nanos).Kept seen [] ∧ (s.advance notify nanos).current < 2 ^ 64 ∧
      (s.advance notify nanos).pending = [] := by
  obtain ⟨r, hr, mid, last, hmid, hin, hl, e⟩ := s.advance_eq notify nanos hp
  have hcur : mid.current = ushr nanos s.slop := by rw [hmid]
  rw [← hr, ← hcur] at hs
  have hkept : mid.Kept seen r.2 := by
    obtain ⟨hbal, hnodup, hword, hsm, hsf, hgone, hcounts⟩ := h
    rw [coe_nil, zero_add, hin] at hbal hword
    rw [hmid] at hbal hword ⊢
    exact ⟨hbal, hnodup, hword, hsm, hsf, hgone, hcounts⟩
  have hclock : mid.current < 2 ^ 64 := by
    rw [hcur]
    exact Nat.lt_of_le_of_lt (Nat.shiftRight_le nanos (min s.slop 63)) hn
  obtain ⟨hlast, hsame⟩ := hkept.foldl_fire r.2 hclock hs
  rw [← hl] at hlast hsame
  rw [e, arm_eq]
  exact ⟨hlast.congr rfl rfl rfl, hsame ▸ hclock, rfl⟩

/-- Taking a timer off its slot. -/
theorem waiting_remove (s : Timers) (id : Nat) :
    contents TimingWheel.timers (fun i => (s.wheel i).remove id) =
      s.waiting.filter fun t => t.id ≠ id := by
  let φ : Multiset Timer →+ Multiset Timer :=
    ⟨⟨Multiset.filter fun t => t.id ≠ id, Multiset.filter_zero _⟩, Multiset.filter_add _⟩
  have hwheel : ∀ w : TimingWheel, (w.remove id).timers = φ w.timers := fun w => by
    rw [TimingWheel.timers, TimingWheel.timers, contents_eq_sum, contents_eq_sum, map_sum]
    exact Finset.sum_congr rfl fun k _ => (Multiset.filter_coe _ _).symm
  show _ = φ (contents TimingWheel.timers s.wheel)
  rw [contents_eq_sum, contents_eq_sum, map_sum]
  exact Finset.sum_congr rfl fun i _ => hwheel _

theorem Kept.cancel (h : s.Kept seen []) (id : Nat) : (s.cancel id).Kept seen [] := by
  rw [Timers.cancel]
  split
  swap
  · exact h
  have hkept : Kept seen [] { s with
      map := s.map.erase id, wheel := fun i => (s.wheel i).remove id } := by
    have hsub : ∀ {x}, x ∈ s.map.erase id → x ∈ s.map := mem_of_mem_erase
    refine ⟨?_, h.nodup.erase _, fun t ht => h.word t ?_, fun x hx => h.seen_map x (hsub hx),
      h.seen_fired, fun f hf hz hin => h.gone f hf hz (hsub hin), h.counts⟩
    · have hbal := h.balanced
      rw [coe_nil, zero_add] at hbal ⊢
      have hnodup : (s.waiting.map Timer.id).Nodup := hbal ▸ coe_nodup.2 h.nodup
      rw [waiting, waiting_remove, ← coe_erase, ← hbal, hnodup.erase_eq_filter, Multiset.filter_map]
      rfl
    · rw [coe_nil, zero_add, waiting, waiting_remove] at ht
      exact mem_add.2 (.inr (Multiset.mem_of_mem_filter ht))
  dsimp only
  split
  · exact hkept.congr rfl rfl rfl
  · exact hkept

/-- A timer that is set for the first time. -/
theorem Kept.enter (h : s.Kept seen []) (hc : s.current < 2 ^ 64) (hid : t.id ∉ seen)
    (hw : t.expiration < 2 ^ 64 ∧ t.interval < 2 ^ 64)
    (hs : (t.slop s.slop).Safe notify s.current) :
    ({ s with map := t.id :: s.map }.fire notify (t.slop s.slop)).Kept (seen ++ [t.id]) [] := by
  have hbal := h.balanced
  have hword := h.word
  rw [coe_nil, zero_add] at hbal hword
  refine Kept.fire ⟨?_, nodup_cons.2 ⟨fun hin => hid (h.seen_map _ hin), h.nodup⟩, fun u hu => ?_,
    fun x hx => ?_, fun f hf => mem_append_left _ (h.seen_fired f hf), fun f hf hz => ?_, h.counts⟩
    hc hs
  · rw [Multiset.coe_singleton, map_add, Multiset.map_singleton, Multiset.singleton_add,
      ← Multiset.cons_coe]
    exact congrArg _ hbal
  · rw [Multiset.coe_singleton, Multiset.singleton_add, Multiset.mem_cons] at hu
    rcases hu with rfl | hu
    · refine ⟨(Nat.shiftRight_le _ _).trans_lt hw.1, ?_⟩
      have hle : ushr t.interval s.slop ≤ t.interval := Nat.shiftRight_le _ _
      unfold Timer.slop
      dsimp only
      split <;> omega
    · exact hword u hu
  · exact mem_append.2 ((mem_cons.1 hx).symm.imp (h.seen_map x) mem_singleton.2)
  · refine fun hin => (mem_cons.1 hin).elim (fun e => hid (e ▸ h.seen_fired f hf)) (h.gone f hf hz)

/-! ### Whole runs -/

/-- What holds between the behaviours. -/
structure Settled (seen : List Nat) (s : Timers) : Prop extends s.Kept seen [] where
  clock : s.current < 2 ^ 64
  idle : s.pending = []

theorem settled_create (slop : Nat) {n : Nat} (hn : n < 2 ^ 64) : (create slop n).Settled [] := by
  have hwait : (create slop n).waiting = 0 := contents_eq_zero fun i => TimingWheel.timers_create
  refine ⟨⟨?_, nodup_nil, fun t ht => ?_, nofun, nofun, nofun, nofun⟩,
    (Nat.shiftRight_le _ _).trans_lt hn, rfl⟩
  · rw [hwait]
    rfl
  · rw [hwait] at ht
    exact absurd ht (Multiset.notMem_zero t)

/-- **One behaviour keeps the map and the wheels together.** -/
theorem Settled.op {o : Op} (h : s.Settled seen) (hs : s.Safe o)
    (hn : ∀ c, o = .call c → c.nanos < 2 ^ 64)
    (hw : ∀ t ∈ o.applied, t.expiration < 2 ^ 64 ∧ t.interval < 2 ^ 64)
    (hid : ∀ t ∈ o.applied, t.id ∉ seen) :
    (s.op o).Settled (seen ++ o.applied.toList.map Timer.id) := by
  cases o with
  | cancel id =>
    have hframe : (s.cancel id).current = s.current ∧ (s.cancel id).pending = s.pending := by
      unfold Timers.cancel
      dsimp only
      split_ifs <;> exact ⟨rfl, rfl⟩
    rw [show Op.applied (.cancel id) = none from rfl, Option.toList_none, map_nil, append_nil]
    exact ⟨h.toKept.cancel id, hframe.1 ▸ h.clock, hframe.2.trans h.idle⟩
  | call c =>
    have hnanos := hn c rfl
    obtain ⟨happlied, hdue⟩ := hs
    rcases c with ⟨message, nanos, notify⟩
    cases message with
    | eventNotify =>
      obtain ⟨hk, hc, hp⟩ := h.toKept.advance hnanos h.idle hdue
      rw [show Op.applied (.call ⟨.eventNotify, nanos, notify⟩) = none from rfl,
        Option.toList_none, map_nil, append_nil]
      exact ⟨hk, hc, hp⟩
    | apply t =>
      have henter := h.toKept.enter h.clock (hid t rfl) (hw t rfl) (happlied t rfl)
      obtain ⟨-, hpending, hslop⟩ :=
        fire_frame { s with map := t.id :: s.map } notify (t.slop s.slop)
      obtain ⟨hk, hc, hp⟩ := henter.advance hnanos (hpending.trans h.idle) (hslop ▸ hdue)
      exact ⟨hk, hc, hp⟩

theorem Settled.run (ops : List Op) (h : s.Settled seen) (hs : s.SafeRun ops)
    (hn : ∀ c, Op.call c ∈ ops → c.nanos < 2 ^ 64)
    (hw : ∀ t ∈ ops.filterMap Op.applied, t.expiration < 2 ^ 64 ∧ t.interval < 2 ^ 64)
    (hids : (seen ++ (ops.filterMap Op.applied).map Timer.id).Nodup) :
    ∃ seen', (ops.foldl Timers.op s).Settled seen' := by
  induction ops generalizing s seen with
  | nil => exact ⟨seen, h⟩
  | cons o ops ih =>
    have hsplit : (o :: ops).filterMap Op.applied
        = o.applied.toList ++ ops.filterMap Op.applied := by
      rw [filterMap_cons]
      cases o.applied <;> rfl
    rw [hsplit, map_append, ← append_assoc] at hids
    have hnew := (Nodup.of_append_left hids).disjoint
    rw [hsplit] at hw
    have hop := h.op hs.1 (fun c e => hn c (e ▸ (.head _)))
      (fun t ht => hw t (mem_append_left _ (Option.mem_toList.2 ht)))
      (fun t ht hin => hnew hin (mem_map_of_mem (Option.mem_toList.2 ht)))
    exact ih hop hs.2 (fun c hc => hn c (mem_cons_of_mem _ hc))
      (fun t ht => hw t (mem_append_right _ ht)) hids

/-- Where every timer of the map is on the wheels once, it is in one slot. -/
theorem Kept.whole (h : s.Kept seen []) : s.Whole := by
  have hbal := h.balanced
  rw [coe_nil, zero_add] at hbal
  have hids : (s.waiting.map Timer.id).Nodup := hbal ▸ coe_nodup.2 h.nodup
  have hwheel : ∀ i, ((s.wheel i).timers.map Timer.id).Nodup := fun i =>
    nodup_of_le (map_le_map (le_contents i)) hids
  refine ⟨fun id hid => ?_, fun i k => ?_, fun i k t ht => ?_, h.gone, h.counts⟩
  · rw [← mem_coe, ← hbal] at hid
    obtain ⟨t, ht, rfl⟩ := mem_map.1 hid
    obtain ⟨i, hi⟩ := mem_contents.1 ht
    obtain ⟨k, hk⟩ := TimingWheel.mem_timers.1 hi
    refine ⟨(i, k), ⟨t, hk, rfl⟩, ?_⟩
    rintro ⟨j, l⟩ ⟨u, hl, e⟩
    obtain rfl : i = j := slot_unique hids hi (TimingWheel.mem_timers.2 ⟨l, hl⟩) e.symm
    obtain rfl : k = l :=
      slot_unique (hwheel i) (mem_coe.2 hk) (mem_coe.2 hl) e.symm
    rfl
  · exact coe_nodup.1 (nodup_of_le (map_le_map (le_contents k)) (hwheel i))
  · rw [← mem_coe, ← hbal]
    exact Multiset.mem_map_of_mem _ (mem_contents.2 ⟨i, TimingWheel.mem_timers.2 ⟨k, ht⟩⟩)

end

end Timers

/-- **No timer is leaked** in a run of calls and cancellations in which every timer that is fired is
safe, whatever the clock reads and the notifiers answer. -/
theorem no_timer_leaked (slop n : Nat) (ops : List Op) (hg : Given n ops)
    (hs : (Timers.create slop n).SafeRun ops) :
    (ops.foldl Timers.op (Timers.create slop n)).Whole := by
  obtain ⟨seen, h⟩ := (Timers.settled_create slop hg.clock).run ops hs hg.nanos hg.word hg.ids
  exact h.toKept.whole

/-- A timer without an interval, one that goes on every ten ticks until it is cancelled, and two that
are left. -/
theorem no_timer_leaked_cancel :
    let ops : List Op := [.call ⟨.apply ⟨1, 20, 0⟩, 10, fun _ _ => true⟩,
      .call ⟨.apply ⟨2, 30, 10⟩, 55, fun _ _ => true⟩, .call ⟨.apply ⟨3, 70, 25⟩, 62, fun _ _ => true⟩,
      .cancel 2, .call ⟨.apply ⟨4, 500, 0⟩, 80, fun _ _ => true⟩]
    (ops.foldl Timers.op (Timers.create 0 0)).Whole ∧
      (ops.foldl Timers.op (Timers.create 0 0)).map = [4, 3] :=
  ⟨no_timer_leaked 0 0 _
    ⟨by decide, by simp, by simp [Op.applied, Call.applied], by decide⟩ (by decide +kernel),
    by decide +kernel⟩

/-- **A timer is leaked**: without an interval, set for the very time the clock reads, and its
notifier answers that it is to go on. -/
theorem timer_leaked : let ops : List Op := [.call ⟨.apply ⟨1, 5, 0⟩, 5, fun _ _ => true⟩]
    Given 5 ops ∧ (ops.foldl Timers.op (Timers.create 0 5)).map = [1] ∧
      ¬ (ops.foldl Timers.op (Timers.create 0 5)).Whole := by
  intro ops
  have hmap : (ops.foldl Timers.op (Timers.create 0 5)).map = [1] := by decide +kernel
  have hempty : ∀ i k, ((ops.foldl Timers.op (Timers.create 0 5)).wheel i).list k = [] := by
    decide +kernel
  refine ⟨⟨by decide, by simp [ops], by simp [ops, Op.applied, Call.applied], by decide⟩, hmap,
    fun h => ?_⟩
  obtain ⟨p, ⟨t, ht, -⟩, -⟩ := h.mapped 1 (hmap ▸ mem_singleton_self 1)
  rw [hempty] at ht
  cases ht

end SpacePony.Time
