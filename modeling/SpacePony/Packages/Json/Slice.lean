import SpacePony.Packages.Json.Value
import SpacePony.Support.FixedInt
import SpacePony.Support.Progression

/-!
# Packages — json — slices of a JSONPath

`_SliceSelector` of `_json_path_selector.pony`, on a target whose `USize` has 64 bits.  The selector
selects what it is to select unless the index wraps back into the array (`slice_exact_iff`).
-/

namespace SpacePony.Json

open Nat List Progression

/-- `I64`. -/
def i64 : FixedInt := ⟨64, true, succ_pos 63⟩

/-- `class val _SliceSelector`. -/
structure SliceSelector where
  (start' end' step' : Option i64.Val)

/-- `usize`. -/
def usize (i : i64.Val) : ℕ := (i.val % 2 ^ 64).toNat

/-- A size as an `I64`. -/
def size64 (n : ℕ) : i64.Val := i64.wrap n

def max64 (a b : i64.Val) : i64.Val := if a.val < b.val then b else a

def min64 (a b : i64.Val) : i64.Val := if a.val < b.val then a else b

/-- `_normalize`. -/
def normalize (idx len : i64.Val) : i64.Val := if idx.val ≥ 0 then idx else len + idx

section
variable {V : Type}

/-- The loop over the indices: an error of `apply` is dropped. -/
def sliceLoop (xs : List V) (goOn : i64.Val → Bool) (step : i64.Val) :
    ℕ → i64.Val → Option (List V)
  | 0, _ => none
  | n + 1, i =>
    if goOn i then (sliceLoop xs goOn step n (i + step)).map (xs[usize i]?.toList ++ ·)
    else some []

end

namespace SliceSelector

/-- `step`. -/
def step (s : SliceSelector) : i64.Val := s.step'.getD (i64.wrap 1)

/-- `n_start`. -/
def nStart (s : SliceSelector) (len : i64.Val) : i64.Val :=
  normalize
    (if s.step.val ≥ 0 then s.start'.getD (i64.wrap 0) else s.start'.getD (len - i64.wrap 1)) len

/-- `n_end`. -/
def nEnd (s : SliceSelector) (len : i64.Val) : i64.Val :=
  normalize (if s.step.val ≥ 0 then s.end'.getD len else s.end'.getD (-len - i64.wrap 1)) len

/-- `select`, on the elements of an array. -/
def selectArray {V : Type} (s : SliceSelector) (n : ℕ) (xs : List V) : Option (List V) :=
  let len := size64 xs.length
  if s.step.val = 0 then some []
  else if s.step.val > 0 then
    let lower := min64 (max64 (s.nStart len) (i64.wrap 0)) len
    let upper := min64 (max64 (s.nEnd len) (i64.wrap 0)) len
    sliceLoop xs (fun i => i.val < upper.val) s.step n lower
  else
    let upper := min64 (max64 (s.nStart len) (i64.wrap (-1))) (len - i64.wrap 1)
    let lower := min64 (max64 (s.nEnd len) (i64.wrap (-1))) (len - i64.wrap 1)
    sliceLoop xs (fun i => lower.val < i.val) s.step n upper

/-- `select`: what is pushed to `out`. -/
def select (s : SliceSelector) (n : ℕ) : JsonValue → Option (List JsonValue)
  | .array data => s.selectArray n data
  | _ => some []

/-! ### What the rules select -/

/-- The number that stands, or its default. -/
def numberOr (o : Option i64.Val) (n : ℤ) : ℤ := (o.map FixedInt.Val.val).getD n

/-- The step. -/
def stepNumber (s : SliceSelector) : ℤ := numberOr s.step' 1

/-- A number counts from the end where it is negative. -/
def normal (i len : ℤ) : ℤ := if i ≥ 0 then i else len + i

/-- The bound that is inclusive, normalised. -/
def first (s : SliceSelector) (len : ℤ) : ℤ :=
  if s.stepNumber ≥ 0 then min (max (normal (numberOr s.start' 0) len) 0) len
  else min (max (normal (numberOr s.start' (len - 1)) len) (-1)) (len - 1)

/-- The bound that is exclusive, normalised. -/
def bound (s : SliceSelector) (len : ℤ) : ℤ :=
  if s.stepNumber ≥ 0 then min (max (normal (numberOr s.end' len) len) 0) len
  else min (max (normal (numberOr s.end' (-len - 1)) len) (-1)) (len - 1)

/-- The indices, in the order in which they are selected. -/
def indices (s : SliceSelector) (len : ℤ) : List ℤ := terms (s.first len) s.stepNumber (s.bound len)

/-- The elements at these indices. -/
def selected {V : Type} (s : SliceSelector) (xs : List V) : List V :=
  (s.indices xs.length).filterMap fun i => xs[i.toNat]?

end SliceSelector

/-! ### The numbers of the selector -/

variable {goOn : i64.Val → Bool}

section
variable {V : Type} {xs : List V} {a b i step idx len : i64.Val} {n : ℕ}

theorem fits_i64 {n : ℤ} : i64.Fits n ↔ -2 ^ 63 ≤ n ∧ n < 2 ^ 63 := Iff.rfl

theorem card_i64 : i64.card = 2 ^ 64 := rfl

theorem val_max64 : (max64 a b).val = max a.val b.val := by
  rw [max64, max_def_lt]
  split <;> rfl

theorem val_min64 : (min64 a b).val = min a.val b.val := by
  rw [min64, min_def_lt]
  split <;> rfl

theorem val_normalize (hlen : 0 ≤ len.val) :
    (normalize idx len).val = SliceSelector.normal idx.val len.val := by
  rw [normalize, SliceSelector.normal]
  split
  · rfl
  have hidx := fits_i64.1 idx.fits
  have hlenFits := fits_i64.1 len.fits
  exact FixedInt.val_add (fits_i64.2 ⟨by linarith, by linarith⟩)

theorem usize_of_nonneg (h : 0 ≤ i.val) : usize i = i.val.toNat := by
  have hlt := (fits_i64.1 i.fits).2
  rw [usize, Int.emod_eq_of_lt h (by linarith)]

/-- A negative index is beyond the end of every array. -/
theorem le_usize_of_neg (h : i.val < 0) : 2 ^ 63 ≤ usize i := by
  have hge := (fits_i64.1 i.fits).1
  have hmod : i.val % 2 ^ 64 = i.val + 2 ^ 64 := by
    rw [← Int.add_emod_right, Int.emod_eq_of_lt (by linarith) (by linarith)]
  rw [usize, hmod]
  omega

/-! ### The loop -/

theorem sliceLoop_succ (goOn : i64.Val → Bool) (n : ℕ) (i : i64.Val) :
    sliceLoop xs goOn step (n + 1) i =
      if goOn i then (sliceLoop xs goOn step n (i + step)).map (xs[usize i]?.toList ++ ·)
      else some [] := rfl

/-- A round for each index that comes before the bound. -/
def upTo (step : i64.Val) (bound : ℤ) (i : i64.Val) : Bool := Before step.val bound i.val

/-- What the rounds for some numbers push. -/
def pushed (xs : List V) (ts : List ℤ) : List V :=
  ts.flatMap fun t => xs[usize (i64.wrap t)]?.toList

/-- **The rounds for a progression**, as long as the loop goes on and its numbers are represented.
-/
theorem sliceLoop_terms {stop : ℤ} {c : ℕ} {first : ℤ} (hc : count first step.val stop = c)
    (hgo : ∀ t ∈ terms first step.val stop, i64.Fits t ∧ goOn (i64.wrap t) = true) (n : ℕ) :
    sliceLoop xs goOn step (n + c) (i64.wrap first) =
      (sliceLoop xs goOn step n (i64.wrap (past first step.val stop))).map
        (pushed xs (terms first step.val stop) ++ ·) := by
  induction c generalizing first with
  | zero =>
    rw [past, hc, terms_nil (count_eq_zero.1 hc), cast_zero, zero_mul, add_zero, add_zero]
    exact Option.map_id'.symm
  | succ c ih =>
    have hbefore : Before step.val stop first := by
      by_contra hnot
      rw [count_of_not_before hnot] at hc
      cases hc
    have hcount : count (first + step.val) step.val stop = c := by
      rw [count_of_before hbefore] at hc
      exact succ_injective hc
    have hpast : past (first + step.val) step.val stop = past first step.val stop := by
      rw [past, past, hc, hcount]
      push_cast
      ring
    rw [terms_cons hbefore] at hgo ⊢
    obtain ⟨hfits, hfirst⟩ := hgo first (.head _)
    have hnext : i64.wrap first + step = i64.wrap (first + step.val) := by
      rw [FixedInt.add_def, FixedInt.wrap_of_fits hfits]
    have hrest := ih hcount fun t ht => hgo t (.tail _ ht)
    rw [← add_assoc, sliceLoop_succ, if_pos hfirst, hnext, hrest, hpast, Option.map_map]
    refine congrArg (Option.map · _) (funext fun out => ?_)
    exact (append_assoc _ _ _).symm

/-- What is pushed at indices that are not negative. -/
theorem pushed_of_nonneg {ts : List ℤ} (h : ∀ t ∈ ts, 0 ≤ t ∧ t < 2 ^ 63) :
    pushed xs ts = ts.filterMap fun i => xs[i.toNat]? := by
  induction ts with
  | nil => rfl
  | cons t ts ih =>
    obtain ⟨hpos, hlt⟩ := h t (.head _)
    have hval : (i64.wrap t).val = t := FixedInt.wrap_of_fits (fits_i64.2 ⟨by linarith, hlt⟩)
    have husize : usize (i64.wrap t) = t.toNat := by rw [usize_of_nonneg (hval.symm ▸ hpos), hval]
    rw [pushed, flatMap_cons, husize, filterMap_cons]
    have hrest := ih fun u hu => h u (.tail _ hu)
    rw [pushed] at hrest
    rw [hrest]
    cases xs[t.toNat]? <;> rfl

/-- Nothing is pushed at negative indices. -/
theorem pushed_of_neg (hxs : xs.length < 2 ^ 63) {ts : List ℤ}
    (h : ∀ t ∈ ts, -2 ^ 63 ≤ t ∧ t < 0) : pushed xs ts = [] := by
  rw [pushed, flatMap_eq_nil_iff]
  intro t ht
  obtain ⟨hge, hneg⟩ := h t ht
  have hval : (i64.wrap t).val = t := FixedInt.wrap_of_fits (fits_i64.2 ⟨hge, by linarith⟩)
  have hbeyond := le_usize_of_neg (i := i64.wrap t) (hval.symm ▸ hneg)
  rw [getElem?_eq_none (hxs.le.trans hbeyond)]
  rfl

/-- A loop that has come to an end has the same result with more rounds. -/
theorem sliceLoop_more {n m : ℕ} {out : List V} (hle : n ≤ m)
    (h : sliceLoop xs goOn step n i = some out) : sliceLoop xs goOn step m i = some out := by
  induction n generalizing m i out with
  | zero => cases h
  | succ n ih =>
    obtain ⟨m, rfl⟩ := exists_eq_succ_of_ne_zero (show m ≠ 0 by omega)
    rw [sliceLoop_succ] at h
    rw [succ_eq_add_one, sliceLoop_succ]
    split at h
    · rename_i hgo
      obtain ⟨rest, hrest, hout⟩ := Option.map_eq_some_iff.1 h
      rw [if_pos hgo, ih (by omega) hrest, Option.map_some, hout]
    · rename_i hgo
      rw [if_neg hgo, h]

end

/-! ### The selector -/

namespace SliceSelector

variable {V : Type} {s : SliceSelector} {len : i64.Val} {xs : List V}

theorem val_wrap {n : ℤ} (hlo : -2 ^ 63 ≤ n) (hhi : n < 2 ^ 63) : (i64.wrap n).val = n :=
  FixedInt.wrap_of_fits (fits_i64.2 ⟨hlo, hhi⟩)

theorem val_wrap_one : (i64.wrap 1).val = 1 := val_wrap (by norm_num) (by norm_num)

theorem val_wrap_zero : (i64.wrap 0).val = 0 := val_wrap (by norm_num) (by norm_num)

theorem val_wrap_neg_one : (i64.wrap (-1)).val = -1 := val_wrap (by norm_num) (by norm_num)

theorem val_getD (o : Option i64.Val) (v : i64.Val) : (o.getD v).val = numberOr o v.val := by
  cases o <;> rfl

theorem val_step (s : SliceSelector) : s.step.val = s.stepNumber := by
  rw [step, val_getD, val_wrap_one, stepNumber]

theorem val_len_sub_one (hlen : 0 ≤ len.val) : (len - i64.wrap 1).val = len.val - 1 := by
  have hlt := (fits_i64.1 len.fits).2
  rw [FixedInt.sub_def, val_wrap_one, val_wrap (by linarith) (by linarith)]

theorem val_neg_len_sub_one (hlen : 0 ≤ len.val) : (-len - i64.wrap 1).val = -len.val - 1 := by
  have hlt := (fits_i64.1 len.fits).2
  have hneg : (-len).val = -len.val := val_wrap (by linarith) (by linarith)
  rw [FixedInt.sub_def, hneg, val_wrap_one, val_wrap (by linarith) (by linarith)]

theorem val_nStart (hlen : 0 ≤ len.val) : (s.nStart len).val =
    normal (numberOr s.start' (if s.stepNumber ≥ 0 then 0 else len.val - 1)) len.val := by
  rw [nStart, val_normalize hlen, val_step]
  split
  · rw [val_getD, val_wrap_zero]
  · rw [val_getD, val_len_sub_one hlen]

theorem val_nEnd (hlen : 0 ≤ len.val) : (s.nEnd len).val =
    normal (numberOr s.end' (if s.stepNumber ≥ 0 then len.val else -len.val - 1)) len.val := by
  rw [nEnd, val_normalize hlen, val_step]
  split
  · rw [val_getD]
  · rw [val_getD, val_neg_len_sub_one hlen]

theorem val_size64 (h : xs.length < 2 ^ 63) : (size64 xs.length).val = xs.length := by
  have hlt : (xs.length : ℤ) < 2 ^ 63 := by exact_mod_cast h
  exact val_wrap (by linarith [Int.natCast_nonneg xs.length]) hlt

/-- **The loop that a selector runs.** -/
theorem selectArray_eq (h : xs.length < 2 ^ 63) (hstep : s.stepNumber ≠ 0) (n : ℕ) :
    s.selectArray n xs =
      sliceLoop xs (upTo s.step (s.bound xs.length)) s.step n (i64.wrap (s.first xs.length)) := by
  have hval := val_size64 h
  have hlen : 0 ≤ (size64 xs.length).val := by
    rw [hval]
    exact Int.natCast_nonneg _
  have hstart := val_nStart (s := s) hlen
  have hend := val_nEnd (s := s) hlen
  rw [hval] at hstart hend
  rw [selectArray, if_neg (by rw [val_step]; exact hstep), val_step]
  rcases lt_or_gt_of_ne hstep with hneg | hpos
  · rw [if_neg hneg.not_gt]
    rw [if_neg hneg.not_ge] at hstart hend
    have hfirst : (min64 (max64 (s.nStart (size64 xs.length)) (i64.wrap (-1)))
        (size64 xs.length - i64.wrap 1)).val = s.first xs.length := by
      rw [val_min64, val_max64, hstart, val_wrap_neg_one, val_len_sub_one hlen, hval, first,
        if_neg hneg.not_ge]
    have hbound : (min64 (max64 (s.nEnd (size64 xs.length)) (i64.wrap (-1)))
        (size64 xs.length - i64.wrap 1)).val = s.bound xs.length := by
      rw [val_min64, val_max64, hend, val_wrap_neg_one, val_len_sub_one hlen, hval, bound,
        if_neg hneg.not_ge]
    have hgo : upTo s.step (s.bound xs.length) = fun i => decide (s.bound xs.length < i.val) := by
      funext i
      simp [upTo, Before, val_step, hneg, hneg.not_gt]
    rw [← hfirst, FixedInt.wrap_val, hgo, ← hbound]
  rw [if_pos hpos]
  rw [if_pos hpos.le] at hstart hend
  have hfirst : (min64 (max64 (s.nStart (size64 xs.length)) (i64.wrap 0))
      (size64 xs.length)).val = s.first xs.length := by
    rw [val_min64, val_max64, hstart, val_wrap_zero, hval, first, if_pos hpos.le]
  have hbound : (min64 (max64 (s.nEnd (size64 xs.length)) (i64.wrap 0))
      (size64 xs.length)).val = s.bound xs.length := by
    rw [val_min64, val_max64, hend, val_wrap_zero, hval, bound, if_pos hpos.le]
  have hgo : upTo s.step (s.bound xs.length) = fun i => decide (i.val < s.bound xs.length) := by
    funext i
    simp [upTo, Before, val_step, hpos, hpos.not_gt]
  rw [← hfirst, FixedInt.wrap_val, hgo, ← hbound]

theorem first_of_pos (h : 0 < s.stepNumber) (n : ℕ) : 0 ≤ s.first n ∧ s.first n ≤ n := by
  rw [first, if_pos h.le]
  exact ⟨le_min (le_max_right _ _) (Int.natCast_nonneg n), min_le_right _ _⟩

theorem bound_of_pos (h : 0 < s.stepNumber) (n : ℕ) : 0 ≤ s.bound n ∧ s.bound n ≤ n := by
  rw [bound, if_pos h.le]
  exact ⟨le_min (le_max_right _ _) (Int.natCast_nonneg n), min_le_right _ _⟩

theorem first_of_neg (h : s.stepNumber < 0) (n : ℕ) : -1 ≤ s.first n ∧ s.first n ≤ n - 1 := by
  have hn : (-1 : ℤ) ≤ n - 1 := by linarith [Int.natCast_nonneg n]
  rw [first, if_neg h.not_ge]
  exact ⟨le_min (le_max_right _ _) hn, min_le_right _ _⟩

theorem bound_of_neg (h : s.stepNumber < 0) (n : ℕ) : -1 ≤ s.bound n ∧ s.bound n ≤ n - 1 := by
  have hn : (-1 : ℤ) ≤ n - 1 := by linarith [Int.natCast_nonneg n]
  rw [bound, if_neg h.not_ge]
  exact ⟨le_min (le_max_right _ _) hn, min_le_right _ _⟩

/-- **The indices are those of elements.** -/
theorem indices_mem {n : ℕ} {t : ℤ} (h : t ∈ s.indices n) : 0 ≤ t ∧ t < n := by
  obtain ⟨hbefore, k, rfl⟩ := mem_terms.1 h
  rcases hbefore with ⟨hstep, hlt⟩ | ⟨hstep, hlt⟩
  · have hmul : 0 ≤ (k : ℤ) * s.stepNumber := mul_nonneg (Int.natCast_nonneg k) hstep.le
    exact ⟨by linarith [(first_of_pos hstep n).1], by linarith [(bound_of_pos hstep n).2]⟩
  have hmul : (k : ℤ) * s.stepNumber ≤ 0 :=
    mul_nonpos_of_nonneg_of_nonpos (Int.natCast_nonneg k) hstep.le
  exact ⟨by linarith [(bound_of_neg hstep n).1], by linarith [(first_of_neg hstep n).2]⟩

/-- The first number past the indices. -/
def pastEnd (s : SliceSelector) (len : ℤ) : ℤ := past (s.first len) s.stepNumber (s.bound len)

theorem pushed_indices (h : xs.length < 2 ^ 63) :
    pushed xs (s.indices xs.length) = s.selected xs := by
  have hlen : (xs.length : ℤ) < 2 ^ 63 := by exact_mod_cast h
  exact pushed_of_nonneg fun t ht => ⟨(indices_mem ht).1, (indices_mem ht).2.trans hlen⟩

/-- **The rounds for the indices.** -/
theorem selectArray_indices (h : xs.length < 2 ^ 63) (hstep : s.stepNumber ≠ 0) (n : ℕ) :
    s.selectArray (n + count (s.first xs.length) s.stepNumber (s.bound xs.length)) xs =
      (sliceLoop xs (upTo s.step (s.bound xs.length)) s.step n
        (i64.wrap (s.pastEnd xs.length))).map (s.selected xs ++ ·) := by
  rw [selectArray_eq h hstep, ← val_step, sliceLoop_terms rfl, val_step, ← pushed_indices h]
  · rfl
  intro t ht
  rw [val_step] at ht
  have hmem := indices_mem ht
  have hval : (i64.wrap t).val = t := val_wrap (by linarith) (by linarith)
  refine ⟨fits_i64.2 ⟨by linarith, by linarith⟩, ?_⟩
  rw [upTo, hval, val_step]
  exact decide_eq_true (mem_terms.1 ht).1

/-- A loop that does not go on has pushed nothing. -/
theorem sliceLoop_of_not {step i : i64.Val} (h : goOn i = false) (n : ℕ) :
    sliceLoop xs goOn step (n + 1) i = some [] := by
  rw [sliceLoop_succ, h]
  rfl

theorem upTo_of_not_before {t : ℤ} {step : i64.Val} {stop : ℤ} (hfits : i64.Fits t)
    (h : ¬ Before step.val stop t) : upTo step stop (i64.wrap t) = false := by
  rw [upTo, FixedInt.wrap_of_fits hfits]
  exact decide_eq_false h

/-- **A number past the indices that is represented ends the loop.** -/
theorem exact_of_fits (h : xs.length < 2 ^ 63) (hstep : s.stepNumber ≠ 0)
    (hfits : i64.Fits (s.pastEnd xs.length)) : ∃ n, s.selectArray n xs = some (s.selected xs) := by
  have hnot : ¬ Before s.step.val (s.bound xs.length) (s.pastEnd xs.length) := by
    rw [val_step]
    exact not_before_past
  refine ⟨1 + count (s.first xs.length) s.stepNumber (s.bound xs.length), ?_⟩
  rw [selectArray_indices h hstep, sliceLoop_of_not (upTo_of_not_before hfits hnot)]
  exact congrArg some (append_nil _)

/-- With a negative step the number past the indices is represented. -/
theorem fits_pastEnd_of_neg (h : xs.length < 2 ^ 63) (hstep : s.stepNumber < 0) :
    i64.Fits (s.pastEnd xs.length) := by
  have hlo := (fits_i64.1 s.step.fits).1
  rw [val_step] at hlo
  obtain ⟨hfirst, hfirst'⟩ := first_of_neg hstep xs.length
  have hbound := (bound_of_neg hstep xs.length).1
  have hcount : (0 : ℤ) ≤ count (s.first xs.length) s.stepNumber (s.bound xs.length) :=
    Int.natCast_nonneg _
  have hle : s.pastEnd xs.length ≤ s.first xs.length := by
    rw [pastEnd, past]
    linarith [mul_nonpos_of_nonneg_of_nonpos hcount hstep.le]
  refine fits_i64.2 ⟨?_, by linarith⟩
  by_cases hbefore : Before s.stepNumber (s.bound xs.length) (s.first xs.length)
  · rcases before_past_sub hbefore with ⟨hpos, -⟩ | ⟨-, hlt⟩
    · exact absurd hpos hstep.not_gt
    · rw [pastEnd]
      linarith
  · rw [pastEnd, past, count_of_not_before hbefore, cast_zero, zero_mul, add_zero]
    linarith

/-- With a positive step the number past the indices wraps at most once. -/
theorem pastEnd_of_pos (h : xs.length < 2 ^ 63) (hstep : 0 < s.stepNumber) :
    0 ≤ s.pastEnd xs.length ∧ s.pastEnd xs.length < 2 ^ 64 := by
  have hhi := (fits_i64.1 s.step.fits).2
  rw [val_step] at hhi
  obtain ⟨hfirst, hfirst'⟩ := first_of_pos hstep xs.length
  have hbound := (bound_of_pos hstep xs.length).2
  have hcount : (0 : ℤ) ≤ count (s.first xs.length) s.stepNumber (s.bound xs.length) :=
    Int.natCast_nonneg _
  have hge : s.first xs.length ≤ s.pastEnd xs.length := by
    rw [pastEnd, past]
    linarith [mul_nonneg hcount hstep.le]
  refine ⟨by linarith, ?_⟩
  by_cases hbefore : Before s.stepNumber (s.bound xs.length) (s.first xs.length)
  · rcases before_past_sub hbefore with ⟨-, hlt⟩ | ⟨hneg, -⟩
    · rw [pastEnd]
      linarith
    · exact absurd hneg hstep.not_gt
  · rw [pastEnd, past, count_of_not_before hbefore, cast_zero, zero_mul, add_zero]
    linarith

/-- The first number of a progression upwards that is not negative. -/
theorem past_zero {j step : ℤ} (hj : j < 0) (hstep : 0 < step) : past j step 0 = j % step := by
  have hnot : 0 ≤ past j step 0 := by
    by_contra hneg
    exact not_before_past (.inl ⟨hstep, not_le.1 hneg⟩)
  have hlt : past j step 0 < step := by
    rcases before_past_sub (.inl ⟨hstep, hj⟩ : Before step 0 j) with ⟨-, h⟩ | ⟨h, -⟩
    · linarith
    · exact absurd h hstep.not_gt
  rw [← Int.emod_eq_of_lt hnot hlt, past, Int.add_mul_emod_self_right]

/-- **The rounds at negative indices**, after a wrap. -/
theorem sliceLoop_neg {j : ℤ} (h : xs.length < 2 ^ 63) (hstep : 0 < s.stepNumber)
    (hj : -2 ^ 63 ≤ j ∧ j < 0) (n : ℕ) :
    sliceLoop xs (upTo s.step (s.bound xs.length)) s.step (n + count j s.stepNumber 0)
        (i64.wrap j) =
      sliceLoop xs (upTo s.step (s.bound xs.length)) s.step n (i64.wrap (j % s.stepNumber)) := by
  have hbound := (bound_of_pos hstep xs.length).1
  have hterm : ∀ t ∈ terms j s.stepNumber 0, -2 ^ 63 ≤ t ∧ t < 0 := by
    intro t ht
    obtain ⟨hbefore, k, rfl⟩ := mem_terms.1 ht
    have hmul : 0 ≤ (k : ℤ) * s.stepNumber := mul_nonneg (Int.natCast_nonneg k) hstep.le
    rcases hbefore with ⟨-, hlt⟩ | ⟨hneg, -⟩
    · exact ⟨by linarith [hj.1], hlt⟩
    · exact absurd hneg hstep.not_gt
  rw [← val_step, sliceLoop_terms rfl, val_step, pushed_of_neg h hterm, past_zero hj.2 hstep]
  · exact Option.map_id'
  intro t ht
  rw [val_step] at ht
  obtain ⟨hge, hlt⟩ := hterm t ht
  have hval : (i64.wrap t).val = t := val_wrap hge (by linarith)
  refine ⟨fits_i64.2 ⟨hge, by linarith⟩, ?_⟩
  rw [upTo, hval, val_step]
  exact decide_eq_true (.inl ⟨hstep, by linarith⟩)

/-- With a positive step, the indices after a wrap start below the step. -/
theorem fits_emod (hstep : 0 < s.stepNumber) (j : ℤ) : i64.Fits (j % s.stepNumber) := by
  have hhi := (fits_i64.1 s.step.fits).2
  rw [val_step] at hhi
  have hnonneg := Int.emod_nonneg j hstep.ne'
  have hlt := Int.emod_lt_of_pos j hstep
  exact fits_i64.2 ⟨by linarith, by linarith⟩

section
variable (h : xs.length < 2 ^ 63) (hstep : 0 < s.stepNumber) (hpast : 2 ^ 63 ≤ s.pastEnd xs.length)
include h hstep hpast

/-- **What comes after a wrap**: the loop goes on from the first index that is not negative. -/
theorem selectArray_wrapped (n : ℕ) :
    s.selectArray (n + count (s.pastEnd xs.length - 2 ^ 64) s.stepNumber 0
        + count (s.first xs.length) s.stepNumber (s.bound xs.length)) xs =
      (sliceLoop xs (upTo s.step (s.bound xs.length)) s.step n
        (i64.wrap ((s.pastEnd xs.length - 2 ^ 64) % s.stepNumber))).map (s.selected xs ++ ·) := by
  have hlt := (pastEnd_of_pos h hstep).2
  have hwrap : i64.wrap (s.pastEnd xs.length) = i64.wrap (s.pastEnd xs.length - 2 ^ 64) := by
    have hcard := FixedInt.wrap_add_card (T := i64) (s.pastEnd xs.length - 2 ^ 64) 1
    rw [one_mul, card_i64, sub_add_cancel] at hcard
    exact hcard
  have hj : -2 ^ 63 ≤ s.pastEnd xs.length - 2 ^ 64 ∧ s.pastEnd xs.length - 2 ^ 64 < 0 :=
    ⟨by linarith, by linarith⟩
  rw [selectArray_indices h hstep.ne', hwrap, sliceLoop_neg h hstep hj]

/-- An index that wraps back into the array selects one element too many. -/
theorem not_exact_of_back
    (hback : (s.pastEnd xs.length - 2 ^ 64) % s.stepNumber < s.bound xs.length) (n : ℕ) :
    s.selectArray n xs ≠ some (s.selected xs) := by
  intro hexact
  obtain ⟨r, hr⟩ : ∃ r, (s.pastEnd xs.length - 2 ^ 64) % s.stepNumber = r := ⟨_, rfl⟩
  have hfits : i64.Fits r := hr ▸ fits_emod hstep _
  have hnonneg : 0 ≤ r := hr ▸ Int.emod_nonneg _ hstep.ne'
  have hlt : r < xs.length := (hr ▸ hback).trans_le (bound_of_pos hstep xs.length).2
  have hval : (i64.wrap r).val = r := FixedInt.wrap_of_fits hfits
  have hgo : upTo s.step (s.bound xs.length) (i64.wrap r) = true := by
    rw [upTo, hval, val_step]
    exact decide_eq_true (.inl ⟨hstep, hr ▸ hback⟩)
  have hindex : usize (i64.wrap r) < xs.length := by
    rw [usize_of_nonneg (hval.symm ▸ hnonneg), hval]
    omega
  -- enough rounds to come around and make one more
  have hmore := selectArray_wrapped h hstep hpast (n + 1)
  rw [hr, sliceLoop_succ, if_pos hgo, getElem?_eq_getElem hindex] at hmore
  rw [selectArray_eq h hstep.ne'] at hexact hmore
  rw [sliceLoop_more (by omega) hexact, Option.map_map] at hmore
  obtain ⟨rest, -, hout⟩ := Option.map_eq_some_iff.1 hmore.symm
  have hlength := congrArg length hout
  simp at hlength

/-- An index that wraps but passes over the array does no harm. -/
theorem exact_of_over (hover : s.bound xs.length ≤ (s.pastEnd xs.length - 2 ^ 64) % s.stepNumber) :
    ∃ n, s.selectArray n xs = some (s.selected xs) := by
  have hnot : ¬ Before s.step.val (s.bound xs.length)
      ((s.pastEnd xs.length - 2 ^ 64) % s.stepNumber) := by
    rw [val_step]
    rintro (⟨-, hlt⟩ | ⟨hneg, -⟩)
    · exact hover.not_gt hlt
    · exact hneg.not_gt hstep
  have hmore := selectArray_wrapped h hstep hpast 1
  rw [sliceLoop_of_not (upTo_of_not_before (fits_emod hstep _) hnot), Option.map_some,
    append_nil] at hmore
  exact ⟨_, hmore⟩

end

theorem exact_of_zero (hstep : s.stepNumber = 0) :
    ∃ n, s.selectArray n xs = some (s.selected xs) := by
  have hnone : ¬ Before s.stepNumber (s.bound xs.length) (s.first xs.length) := by
    rw [hstep]
    rintro (⟨h, -⟩ | ⟨h, -⟩) <;> exact lt_irrefl 0 h
  refine ⟨0, ?_⟩
  rw [selectArray, val_step, if_pos hstep, selected, indices, terms_nil hnone]
  rfl

/-- **The selector selects exactly the elements that the rules select**, unless with a positive step
the index past the last of them wraps and comes back into the bounds. -/
theorem slice_exact_iff (s : SliceSelector) (data : List JsonValue) (h : data.length < 2 ^ 63) :
    (∃ n, s.select n (.array data) = some (s.selected data)) ↔
      (0 < s.stepNumber → s.pastEnd data.length < 2 ^ 63 ∨
        s.bound data.length ≤ (s.pastEnd data.length - 2 ^ 64) % s.stepNumber) := by
  constructor
  · rintro ⟨n, hexact⟩ hstep
    by_contra hnot
    rw [not_or, not_lt, not_le] at hnot
    exact not_exact_of_back h hstep hnot.1 hnot.2 n hexact
  intro hcond
  rcases lt_trichotomy s.stepNumber 0 with hneg | hzero | hpos
  · exact exact_of_fits h hneg.ne (fits_pastEnd_of_neg h hneg)
  · exact exact_of_zero hzero
  rcases lt_or_ge (s.pastEnd data.length) (2 ^ 63) with hlt | hge
  · have hnonneg := (pastEnd_of_pos h hpos).1
    exact exact_of_fits h hpos.ne' (fits_i64.2 ⟨by linarith, hlt⟩)
  · exact exact_of_over h hpos hge ((hcond hpos).resolve_left hge.not_gt)

/-- `[5:2:-1]` of ten elements. -/
def downwards : SliceSelector := ⟨some (i64.wrap 5), some (i64.wrap 2), some (i64.wrap (-1))⟩

/-- `[0, 1, …, 9]`. -/
def digits : List JsonValue := (range 10).map fun n => .i64 (Int64.ofNat n)

/-- A negative step selects different elements from the end down. -/
theorem downwards_exact : ∃ n, downwards.select n (.array digits) =
    some [.i64 5, .i64 4, .i64 3] :=
  (slice_exact_iff downwards digits (by simp [digits])).2 fun hstep => absurd hstep (by decide)

/-- `[2::9223372036854775807]`. -/
def farStep : SliceSelector := ⟨some (i64.wrap 2), none, some (i64.wrap (2 ^ 63 - 1))⟩

/-- It selects the element at index zero as well. -/
theorem farStep_not_exact : ¬ ∃ n, farStep.select n (.array (replicate 10 .null)) =
    some (farStep.selected (replicate 10 .null)) := by
  rintro ⟨n, hexact⟩
  have hpast : 2 ^ 63 ≤ farStep.pastEnd 10 := by decide
  have hback : (farStep.pastEnd 10 - 2 ^ 64) % farStep.stepNumber < farStep.bound 10 := by decide
  have hlength : (replicate 10 JsonValue.null).length = 10 := length_replicate
  refine not_exact_of_back (s := farStep) ?_ (by decide) ?_ ?_ n hexact
  · rw [hlength]
    norm_num
  · rw [hlength]
    exact hpast
  · rw [hlength]
    exact hback

end SliceSelector

end SpacePony.Json
