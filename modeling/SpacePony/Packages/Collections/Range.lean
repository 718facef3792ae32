import SpacePony.Support.FixedInt
import SpacePony.Support.Iteration
import SpacePony.Support.Progression

/-!
# Packages — collections — Range

`range.pony`, at an integer type.

* `Range`, `create`, `hasNext`, `next`, `rewind`: the class.
* `Op`, `run`: calls of `next` and `rewind`.
* `exact_iff`: **that is so where the first number past the progression is one of the type**, and no
  range that is empty has its bounds the wrong way around.
-/

namespace SpacePony.Collections

open Progression

/-- `class Range`. -/
structure Range (T : FixedInt) where
  min : T.Val
  max : T.Val
  inc : T.Val
  forward : Bool
  infinite : Bool
  empty : Bool
  idx : T.Val
deriving DecidableEq

namespace Range

variable {T : FixedInt}

/-- `new create`.  The numbers of an integer type are finite. -/
def create (min max inc : T.Val) : Range T :=
  let forward := min.val < max.val && 0 < inc.val
  let (minFinite, maxFinite, incFinite) := (true, true, true)
  let progress := forward || (max.val < min.val && inc.val < 0)
  if progress && minFinite && incFinite then
    { min, max, inc, forward, infinite := !maxFinite, empty := false, idx := min }
  else { min, max, inc, forward, infinite := false, empty := true, idx := max }

def hasNext (r : Range T) : Bool :=
  if r.infinite then true
  else if r.forward then r.idx.val < r.max.val
  else r.max.val < r.idx.val

def next (r : Range T) : Option T.Val × Range T :=
  if r.hasNext then (some r.idx, { r with idx := r.idx + r.inc }) else (none, r)

def rewind (r : Range T) : Range T := { r with idx := r.min }

/-- A call that moves the index. -/
inductive Op where
  | next
  | rewind

def Op.exec : Op → Range T → Range T
  | .next, r => r.next.2
  | .rewind, r => r.rewind

def run (r : Range T) (ops : List Op) : Range T := ops.foldl (fun r op => op.exec r) r

/-- The range as an iterator over numbers. -/
def iterator (T : FixedInt) : Iteration.Iterator (Range T) ℤ where
  hasNext := hasNext
  next r := (r.next.1.map FixedInt.Val.val, r.next.2)

/-- What a range from `min` to `max` gives. -/
def expected (min max inc : T.Val) : List ℤ := terms min.val inc.val max.val

/-- The range gives the progression, from the start and after a `rewind` anywhere in a run, and says
whether that is empty. -/
structure Exact (min max inc : T.Val) : Prop where
  yields : (iterator T).Yields (create min max inc) (expected min max inc)
  empty : (create min max inc).empty = true ↔ expected min max inc = []
  again : ∀ ops, (iterator T).Yields ((create min max inc).run ops).rewind (expected min max inc)

variable {min max inc : T.Val} {r r' : Range T}

/-- What all the states of a range have in common. -/
def Same (r r' : Range T) : Prop := { r with idx := r'.idx } = r'

theorem same_next (r : Range T) : r.Same r.next.2 := by
  rw [Same, next]
  split <;> rfl

theorem rewind_of_same (h : r.Same r') : r'.rewind = r.rewind := by
  rw [← h]
  rfl

/-- **A `rewind` forgets the run.** -/
theorem rewind_run (r : Range T) (ops : List Op) : (r.run ops).rewind = r.rewind := by
  induction ops generalizing r with
  | nil => rfl
  | cons op ops ih =>
    rw [run, List.foldl_cons]
    refine (ih (op.exec r)).trans ?_
    cases op with
    | next => exact rewind_of_same (same_next r)
    | rewind => rfl

/-! ### A range that makes progress -/

/-- The range from `min` to `max`, at some index. -/
def going (min max inc idx : T.Val) : Range T :=
  { min, max, inc, forward := 0 < inc.val, infinite := false, empty := false, idx }

theorem create_eq_going (h : Before inc.val max.val min.val) :
    create min max inc = going min max inc min := by
  rcases h with ⟨hs, h⟩ | ⟨hs, h⟩
  · simp [create, going, hs, h]
  · simp [create, going, hs, h, hs.le.not_gt, h.le.not_gt]

theorem hasNext_going (hinc : inc.val ≠ 0) (idx : T.Val) :
    (going min max inc idx).hasNext = true ↔ Before inc.val max.val idx.val := by
  rcases lt_or_gt_of_ne hinc with h | h
  · simp [going, hasNext, Before, h, h.le.not_gt]
  · simp [going, hasNext, Before, h, h.le.not_gt]

theorem next_going {idx : T.Val} (h : (going min max inc idx).hasNext = true) :
    (going min max inc idx).next = (some idx, going min max inc (idx + inc)) := by
  rw [next, if_pos h]
  rfl

theorem inc_ne_zero (h : Before inc.val max.val min.val) : inc.val ≠ 0 := by
  rcases h with ⟨hs, -⟩ | ⟨hs, -⟩
  · exact hs.ne'
  · exact hs.ne

/-- The first number past the progression. -/
def pastEnd (min max inc : T.Val) : ℤ := past min.val inc.val max.val

/-- Where the number past the end is one of the type, so are all numbers before it. -/
theorem fits_of_le_count (hpast : T.Fits (pastEnd min max inc)) {k : ℕ}
    (hk : k ≤ count min.val inc.val max.val) : T.Fits (min.val + k * inc.val) := by
  have hk' : (k : ℤ) ≤ count min.val inc.val max.val := by exact_mod_cast hk
  have hlast := min.fits
  rw [pastEnd, past] at hpast
  rcases le_total 0 inc.val with hs | hs
  · have hle := mul_le_mul_of_nonneg_right hk' hs
    have hnonneg : 0 ≤ (k : ℤ) * inc.val := mul_nonneg (Int.natCast_nonneg k) hs
    exact ⟨by linarith [hlast.1], by linarith [hpast.2]⟩
  have hle := mul_le_mul_of_nonpos_right hk' hs
  have hnonpos : (k : ℤ) * inc.val ≤ 0 :=
    mul_nonpos_of_nonneg_of_nonpos (Int.natCast_nonneg k) hs
  exact ⟨by linarith [hpast.1], by linarith [hlast.2]⟩

/-- The states of a range whose progression stays in the type. -/
def Ready (min max inc : T.Val) (r : Range T) : Prop :=
  ∃ k : ℕ, k ≤ count min.val inc.val max.val ∧
    r = going min max inc (T.wrap (min.val + k * inc.val))

/-- The iterator of a range has its terms pending. -/
theorem pending (h : Before inc.val max.val min.val) (hpast : T.Fits (pastEnd min max inc)) :
    (iterator T).Pending (Ready min max inc) fun r => terms r.idx.val r.inc.val r.max.val where
  done := by
    rintro r ⟨k, hk, rfl⟩ hn
    have hbefore := (not_congr (hasNext_going (inc_ne_zero h) _)).1 (Bool.eq_false_iff.1 hn)
    refine ⟨terms_nil hbefore, k, hk, ?_⟩
    have hn : ¬ (going min max inc (T.wrap (min.val + k * inc.val))).hasNext = true :=
      Bool.eq_false_iff.1 hn
    show (next _).2 = _
    rw [next, if_neg hn]
  next := by
    rintro r ⟨k, hk, rfl⟩ hn
    have hbefore := (hasNext_going (inc_ne_zero h) _).1 hn
    have hfits := fits_of_le_count hpast hk
    have hlt : k < count min.val inc.val max.val := by
      rw [FixedInt.wrap_of_fits hfits] at hbefore
      exact (before_iff_lt_count k).1 hbefore
    have hsucc : min.val + k * inc.val + inc.val = min.val + ((k + 1 : ℕ) : ℤ) * inc.val := by
      push_cast
      ring
    have hnext : T.wrap (min.val + k * inc.val) + inc =
        T.wrap (min.val + ((k + 1 : ℕ) : ℤ) * inc.val) := by
      rw [FixedInt.add_def, FixedInt.wrap_of_fits hfits, hsucc]
    refine ⟨_, _, congrArg (fun p => (p.1.map FixedInt.Val.val, p.2)) (next_going hn),
      ⟨k + 1, hlt, by rw [hnext]⟩, ?_⟩
    show terms (T.wrap (min.val + k * inc.val)).val inc.val max.val = _
    rw [terms_cons hbefore]
    show _ = _ :: terms (T.wrap (min.val + k * inc.val) + inc).val inc.val max.val
    rw [hnext, FixedInt.wrap_of_fits hfits, FixedInt.wrap_of_fits (fits_of_le_count hpast hlt),
      hsucc]

/-- Where a run of a range ends: the index has been moved once for each value. -/
theorem end_of_yields {as : List ℤ} {idx : T.Val}
    (h : (iterator T).Yields (going min max inc idx) as) :
    (going min max inc (T.wrap (idx.val + as.length * inc.val))).hasNext = false := by
  generalize hr : going min max inc idx = r at h
  induction h generalizing idx with
  | nil hn =>
    subst hr
    have hn : (going min max inc idx).hasNext = false := hn
    simpa [FixedInt.wrap_val] using hn
  | @cons s s' a as hn hs rest ih =>
    subst hr
    have hs' : going min max inc (idx + inc) = s' := by
      have hnext := congrArg Prod.snd hs
      exact (congrArg Prod.snd (next_going hn)).symm.trans hnext
    have hend := ih hs'
    rw [FixedInt.add_def, FixedInt.wrap_add_wrap] at hend
    have hsum : idx.val + inc.val + as.length * inc.val =
        idx.val + (as.length + 1 : ℕ) * inc.val := by
      push_cast
      ring
    rwa [hsum] at hend

/-- A number past the end that is not of the type wraps to one before the bound. -/
theorem before_wrap_pastEnd (h : Before inc.val max.val min.val)
    (hpast : ¬ T.Fits (pastEnd min max inc)) :
    Before inc.val max.val (T.wrap (pastEnd min max inc)).val := by
  have hlast := before_past_sub h
  have hend : ¬ Before inc.val max.val (past min.val inc.val max.val) := not_before_past
  have hcard := T.hi_eq
  have hmax := max.fits
  have hinc := inc.fits
  rw [FixedInt.Fits, not_and_or, not_le, not_lt] at hpast
  rw [pastEnd] at hpast ⊢
  rcases hlast with ⟨hs, hlt⟩ | ⟨hs, hlt⟩
  · have hge : max.val ≤ past min.val inc.val max.val := not_lt.1 fun hx => hend (.inl ⟨hs, hx⟩)
    have hhi : T.hi ≤ past min.val inc.val max.val :=
      hpast.resolve_left (not_lt.2 (le_trans hmax.1 hge))
    rw [FixedInt.wrap_of_ge hhi (by linarith [hmax.2, hinc.2, T.lo_nonpos])]
    exact .inl ⟨hs, by linarith [hinc.2, T.lo_nonpos]⟩
  have hle : past min.val inc.val max.val ≤ max.val := not_lt.1 fun hx => hend (.inr ⟨hs, hx⟩)
  have hlo : past min.val inc.val max.val < T.lo :=
    hpast.resolve_right (not_le.2 (lt_of_le_of_lt hle hmax.2))
  rw [FixedInt.wrap_of_lt (by linarith [hmax.1, hinc.1, T.hi_pos]) hlo]
  exact .inr ⟨hs, by linarith [hinc.1, T.hi_pos]⟩

/-! ### A range that makes none -/

/-- A range that makes no progress, at some index. -/
def resting (min max inc idx : T.Val) : Range T :=
  { min, max, inc, forward := false, infinite := false, empty := true, idx }

theorem create_eq_resting (h : ¬ Before inc.val max.val min.val) :
    create min max inc = resting min max inc max := by
  have hforward : (decide (min.val < max.val) && decide (0 < inc.val)) = false := by
    refine Bool.eq_false_iff.2 fun hboth => h (.inl ?_)
    rwa [Bool.and_eq_true, decide_eq_true_eq, decide_eq_true_eq, and_comm] at hboth
  have hbackward : (decide (max.val < min.val) && decide (inc.val < 0)) = false := by
    refine Bool.eq_false_iff.2 fun hboth => h (.inr ?_)
    rwa [Bool.and_eq_true, decide_eq_true_eq, decide_eq_true_eq, and_comm] at hboth
  simp only [create, hforward, hbackward]
  rfl

theorem hasNext_resting (idx : T.Val) :
    (resting min max inc idx).hasNext = true ↔ max.val < idx.val := by
  rw [hasNext, resting, if_neg Bool.false_ne_true, if_neg Bool.false_ne_true, decide_eq_true_eq]

theorem yields_resting_iff (idx : T.Val) :
    (iterator T).Yields (resting min max inc idx) [] ↔ idx.val ≤ max.val := by
  have hnext : (resting min max inc idx).hasNext = true ↔ max.val < idx.val := hasNext_resting idx
  rw [← not_lt, ← hnext, Bool.not_eq_true]
  refine ⟨fun h => ?_, fun h => .nil h⟩
  cases h with
  | nil hn => exact hn

/-! ### The result -/

theorem empty_iff : (create min max inc).empty = true ↔ expected min max inc = [] := by
  rw [expected, terms_eq_nil]
  by_cases h : Before inc.val max.val min.val
  · rw [create_eq_going h]
    exact iff_of_false Bool.false_ne_true (not_not.2 h)
  · rw [create_eq_resting h]
    exact iff_of_true rfl h

theorem fits_of_exact (hexact : Exact min max inc) (h : Before inc.val max.val min.val) :
    T.Fits (pastEnd min max inc) := by
  by_contra hpast
  have hyields := hexact.yields
  rw [create_eq_going h] at hyields
  have hend := end_of_yields hyields
  rw [expected, length_terms] at hend
  have hbefore := before_wrap_pastEnd h hpast
  have hnext : (going min max inc (T.wrap (pastEnd min max inc))).hasNext = true :=
    (hasNext_going (inc_ne_zero h) _).2 hbefore
  exact Bool.false_ne_true (hend.symm.trans hnext)

theorem exact_of_fits (h : Before inc.val max.val min.val) (hpast : T.Fits (pastEnd min max inc)) :
    Exact min max inc := by
  have hcreate := create_eq_going h
  have hstart : Ready min max inc (create min max inc) := by
    refine ⟨0, Nat.zero_le _, ?_⟩
    rw [hcreate, Nat.cast_zero, zero_mul, add_zero, FixedInt.wrap_val]
  have hyields : (iterator T).Yields (create min max inc) (expected min max inc) := by
    have hpending := (pending h hpast).yields hstart
    rw [hcreate] at hpending ⊢
    exact hpending
  refine ⟨hyields, empty_iff, fun ops => ?_⟩
  have hrewind : (create min max inc).rewind = create min max inc := by
    rw [hcreate]
    rfl
  rwa [rewind_run, hrewind]

theorem rewind_resting (h : ¬ Before inc.val max.val min.val) (ops : List Op) :
    ((create min max inc).run ops).rewind = resting min max inc min := by
  rw [rewind_run, create_eq_resting h]
  rfl

theorem le_of_exact (hexact : Exact min max inc) (h : ¬ Before inc.val max.val min.val) :
    min.val ≤ max.val := by
  have hyields := hexact.again []
  rw [rewind_resting h, expected, terms_nil h] at hyields
  exact (yields_resting_iff min).1 hyields

theorem exact_of_le (h : ¬ Before inc.val max.val min.val) (hle : min.val ≤ max.val) :
    Exact min max inc := by
  have hnil : expected min max inc = [] := terms_nil h
  refine ⟨?_, empty_iff, fun ops => ?_⟩
  · rw [create_eq_resting h, hnil]
    exact (yields_resting_iff max).2 (le_refl _)
  · rw [rewind_resting h, hnil]
    exact (yields_resting_iff min).2 hle

/-- **A range gives the progression, every time**, exactly where the first number past it is one of
the type, and where a range without progress does not have its bounds the wrong way around. -/
theorem exact_iff (min max inc : T.Val) : Exact min max inc ↔
      (Before inc.val max.val min.val → T.Fits (pastEnd min max inc)) ∧
        (¬ Before inc.val max.val min.val → min.val ≤ max.val) := by
  refine ⟨fun hexact => ⟨fits_of_exact hexact, le_of_exact hexact⟩, fun ⟨hfits, hle⟩ => ?_⟩
  by_cases h : Before inc.val max.val min.val
  · exact exact_of_fits h (hfits h)
  · exact exact_of_le h (hle h)

/-- `U8`. -/
def u8 : FixedInt := ⟨8, false, Nat.succ_pos 7⟩

/-- **`Range[U8](0, 255, 2)`** wraps after 254, and **`Range[U8](10, 0)`** is empty until it is
rewound. -/
theorem range_not_exact : ¬ Exact (u8.wrap 0) (u8.wrap 255) (u8.wrap 2) ∧
      ¬ Exact (u8.wrap 10) (u8.wrap 0) (u8.wrap 1) :=
  ⟨fun h => absurd (fits_of_exact h (by decide)) (by decide),
    fun h => absurd (le_of_exact h (by decide)) (by decide)⟩

end Range

end SpacePony.Collections
