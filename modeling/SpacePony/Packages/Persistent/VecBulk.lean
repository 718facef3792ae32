import SpacePony.Packages.Persistent.VecRuns

/-!
# Packages — persistent — bulk operations of the vector

`slice`, `remove` and `reverse` of `vec.pony`, with the iterators `Range` and `Reverse` that their
loops run over.  `slice_iff`, `remove_iff` and `reverse_iff` say when each operation gives the list
that it is to give, `bulk_exact` has the three together.
-/

namespace SpacePony.Persistent

open Nat Option List Collections

variable {A : Type}

/-! ### Iterators -/

/-- `class Range`, over `USize`. -/
structure Range where
  max : Nat
  inc : Nat
  forward : Bool
  idx : Nat

namespace Range

/-- `new create`.  No `USize` is less than 0, so that the progress of a range is forward. -/
def create (min max inc : Nat) : Range :=
  let forward := min < max && 0 < inc
  { max, inc, forward, idx := if forward then min else max }

/-- `has_next`. -/
def hasNext (r : Range) : Bool := if r.forward then r.idx < r.max else r.max < r.idx

/-- The range after `next`, which returns `idx`. -/
def advance (r : Range) : Range := { r with idx := (r.idx + r.inc) % usize }

end Range

/-- `class Reverse`, over `USize`. -/
structure Reverse where
  min : Nat
  max : Nat
  dec : Nat
  idx : Nat

namespace Reverse

/-- `new create`. -/
def create (max min : Nat) (dec : Nat := 1) : Reverse := { min, max, dec, idx := max }

/-- `has_next`. -/
def hasNext (r : Reverse) : Bool := r.min ≤ r.idx && r.idx ≤ r.max

/-- The iterator after `next`, which returns `idx`, when there is a next. -/
def advance (r : Reverse) : Reverse := { r with idx := usub r.idx r.dec }

end Reverse

namespace Vec

/-! ### The operations -/

/-- The loop of `slice`.  The vector that `push` returns is not kept. -/
def sliceLoop (self : Vec A) : Nat → Range → Vec A → Option (Vec A)
  | 0, _, _ => none
  | k + 1, r, vec =>
    if r.hasNext then
      let _ := (self.apply r.idx).map vec.push
      sliceLoop self k r.advance vec
    else some vec

/-- `slice`. -/
def slice (k : Nat) (v : Vec A) (_from to' step : Nat) : Option (Vec A) :=
  v.sliceLoop k (Range.create 0 (if v.size < to' then v.size else to') step) {}

/-- The loop of `remove` that pops. -/
def popLoop : Nat → Vec A → Option (Vec A)
  | 0, vec => some vec
  | n + 1, vec => do
      let vec ← vec.pop
      popLoop n vec

/-- The loop of `remove` that moves values, from `idx` on, `k` rounds. -/
def removeLoop (self : Vec A) (n : Nat) : Nat → Nat → Vec A → Option (Vec A)
  | 0, _, vec => some vec
  | k + 1, idx, vec => do
      let value ← self.apply ((idx + n) % usize)
      let vec ← vec.update idx value
      removeLoop self n k (idx + 1) vec

/-- `remove`. -/
def remove (v : Vec A) (i n : Nat) : Option (Vec A) :=
  if v.size ≤ i then none
  else do
    let vec ← popLoop n v
    v.removeLoop n (usub v.size n - i) i vec

/-- The loop of `reverse`. -/
def reverseLoop (self : Vec A) : Nat → Reverse → Vec A → Option (Vec A)
  | 0, _, _ => none
  | k + 1, r, vec =>
    if r.hasNext then
      match self.apply r.idx with
      | some value => reverseLoop self k r.advance (vec.push value)
      | none => reverseLoop self k r.advance vec
    else some vec

/-- `reverse`. -/
def reverse (k : Nat) (v : Vec A) : Option (Vec A) :=
  v.reverseLoop k (.create (usub v.size 1) 0) {}

/-! ### What they are to give -/

/-- The values at `start`, `start + step`, … before `to'`. -/
def sliced (xs : List A) (start to' step : Nat) : List A :=
  ((range (min to' xs.length)).filter fun i => start ≤ i ∧ (i - start) % step = 0).filterMap
    (xs[·]?)

variable {v vec : Vec A} {xs ws : List A}

/-- A vector is one list only. -/
theorem Rep.unique {ys : List A} (R : Rep v xs) (S : Rep v ys) : xs = ys := by
  have hlen : xs.length = ys.length := R.size_eq.symm.trans S.size_eq
  refine ext_getElem? fun i => ?_
  rcases lt_or_ge i xs.length with hi | hi
  · rw [← R.apply_eq (R.length_lt hi.le), S.apply_eq (R.length_lt hi.le)]
  · rw [getElem?_eq_none hi, getElem?_eq_none (hlen ▸ hi)]

/-! ### slice -/

/-- The loop of `slice` ends, with the vector it starts with. -/
theorem sliceLoop_eq {m step idx k : Nat} (hm : m ≤ maxLength) (hstep : 0 < step)
    (hs : step < usize) (hidx : idx = 0 ∨ step ≤ idx) (hk : m - idx < k) :
    v.sliceLoop k { max := m, inc := step, forward := true, idx } vec = some vec := by
  have hlt : 2 * maxLength < usize := by decide
  induction k generalizing idx with
  | zero => omega
  | succ k ih =>
    by_cases hnext : idx < m
    · have hmod : (idx + step) % usize = idx + step := mod_eq_of_lt (by omega)
      rw [sliceLoop, if_pos (by simpa [Range.hasNext] using hnext), Range.advance]
      simp only [hmod]
      exact ih (.inr (by omega)) (by omega)
    · rw [sliceLoop, if_neg (by simpa [Range.hasNext] using hnext)]

theorem slice_eq (R : Rep v xs) {start to' step k : Nat} (hstep : 0 < step) (hs : step < usize)
    (hk : xs.length < k) : v.slice k start to' step = some {} := by
  have hb := R.bound
  have hsize := R.size_eq
  obtain ⟨k, rfl⟩ : ∃ j, k = j + 1 := ⟨k - 1, by omega⟩
  have hmin : (if v.size < to' then v.size else to') = min to' xs.length := by split_ifs <;> omega
  rw [slice, hmin, Range.create]
  rcases Nat.eq_zero_or_pos (min to' xs.length) with hzero | hpos
  · simp [hzero, sliceLoop, Range.hasNext]
  have hforward : (decide (0 < min to' xs.length) && decide (0 < step)) = true := by
    simp only [hpos, hstep, decide_true, Bool.and_self]
  simp only [hforward, if_true]
  exact sliceLoop_eq (by omega) hstep hs (.inl rfl) (by omega)

theorem sliced_eq_nil_iff {start to' step : Nat} :
    sliced xs start to' step = [] ↔ min to' xs.length ≤ start := by
  rw [sliced, filterMap_eq_nil_iff]
  constructor
  · intro h
    by_contra hlt
    have hmem : start ∈ (range (min to' xs.length)).filter
        fun i => start ≤ i ∧ (i - start) % step = 0 := by
      simp only [mem_filter, mem_range, decide_eq_true_eq, le_refl, Nat.sub_self,
        Nat.zero_mod, and_self, and_true]
      omega
    have hnone := h start hmem
    rw [getElem?_eq_none_iff] at hnone
    omega
  · intro hle i hi
    simp only [mem_filter, mem_range, decide_eq_true_eq] at hi
    omega

/-- **`slice`** gives the slice when there is nothing in it. -/
theorem slice_iff (R : Rep v xs) {start to' step k : Nat} (hstep : 0 < step) (hs : step < usize)
    (hk : xs.length < k) :
    (∃ r, v.slice k start to' step = some r ∧ Rep r (sliced xs start to' step)) ↔
      min to' xs.length ≤ start := by
  rw [slice_eq R hstep hs hk, ← @sliced_eq_nil_iff _ xs start to' step]
  constructor
  · rintro ⟨r, hr, S⟩
    rw [some.injEq] at hr
    exact S.unique (hr ▸ rep_create)
  · intro hnil
    exact ⟨{}, rfl, by rw [hnil]; exact rep_create⟩

/-! ### remove -/

theorem popLoop_eq (R : Rep v xs) (n : Nat) :
    (n ≤ xs.length → ∃ vec, popLoop n v = some vec ∧ Rep vec (xs.take (xs.length - n))) ∧
      (xs.length < n → popLoop n v = none) := by
  induction n generalizing v xs with
  | zero => exact ⟨fun _ => ⟨v, rfl, by simpa using R⟩, by omega⟩
  | succ n ih =>
    rcases eq_nil_or_concat xs with rfl | ⟨ys, a, rfl⟩
    · exact ⟨by simp, fun _ => by rw [popLoop, R.pop.2 rfl]; rfl⟩
    rw [concat_eq_append] at R ⊢
    obtain ⟨vec, hpop, W⟩ := R.pop.1 (by simp)
    rw [dropLast_concat] at W
    have hlen : (ys ++ [a]).length = ys.length + 1 := by simp
    rw [hlen, popLoop, hpop, bind_eq_bind, bind_some]
    refine ⟨fun hle => ?_, fun hlt => (ih W).2 (by omega)⟩
    obtain ⟨vec', hrun, W'⟩ := (ih W).1 (by omega)
    refine ⟨vec', hrun, ?_⟩
    rwa [show ys.length + 1 - (n + 1) = ys.length - n by omega, take_append_of_le_length (by omega)]

/-- The loop of `remove` writes the values `n` places earlier, from `idx` on. -/
theorem removeLoop_spec (R : Rep v xs) {n k idx : Nat} (W : Rep vec ws)
    (hws : ws.length + n = xs.length) (hk : idx + k = ws.length) :
    ∃ vec', v.removeLoop n k idx vec = some vec' ∧
      Rep vec' (ws.take idx ++ xs.drop (idx + n)) := by
  induction k generalizing idx vec ws with
  | zero =>
    refine ⟨vec, rfl, ?_⟩
    rwa [drop_of_length_le (by omega), append_nil, take_of_length_le (by omega)]
  | succ k ih =>
    have hlt : idx + n < xs.length := by omega
    obtain ⟨vec₁, hrun, W₁⟩ :=
      (W.update (i := idx) (W.length_lt (by omega)) xs[idx + n]).1 (by omega)
    obtain ⟨vec', hrun', W'⟩ := ih W₁ (by rwa [length_set])
      (show idx + 1 + k = _ by rw [length_set]; omega)
    refine ⟨vec', ?_, ?_⟩
    · rw [removeLoop, mod_eq_of_lt (R.length_lt hlt.le), R.apply_eq (R.length_lt hlt.le),
        getElem?_eq_getElem hlt]
      simp only [bind_eq_bind, bind_some, hrun, hrun']
    have hset : (ws.set idx xs[idx + n]).take (idx + 1) = ws.take idx ++ [xs[idx + n]] := by
      rw [take_succ_eq_append_getElem (by rw [length_set]; omega),
        getElem_set_self, take_set_of_le (le_refl idx)]
    rwa [hset, append_assoc, singleton_append,
      show idx + 1 + n = idx + n + 1 by omega, ← drop_eq_getElem_cons hlt] at W'

/-- What `remove` is to give: the values before `i` and from `i + n` on, or, where there are not so
many, an error. -/
def RemoveSpec (v : Vec A) (xs : List A) (i n : Nat) : Prop :=
  match v.remove i n with
  | some r => Rep r (xs.take i ++ xs.drop (i + n))
  | none => xs.length < i + n

/-- **`remove`** does, but where the values to remove go beyond the end and there are that many. -/
theorem remove_iff (R : Rep v xs) {i n : Nat} (hi : i < xs.length) :
    RemoveSpec v xs i n ↔ i + n ≤ xs.length ∨ xs.length < n := by
  have hsize := R.size_eq
  have hlen := R.length_lt le_rfl
  unfold RemoveSpec remove
  rw [if_neg (by omega)]
  rcases lt_or_ge xs.length n with hn | hn
  · rw [(popLoop_eq R n).2 hn]
    simp only [bind_eq_bind, bind_none]
    omega
  obtain ⟨vec, hpop, W⟩ := (popLoop_eq R n).1 hn
  have hsub : usub v.size n - i = xs.length - n - i := by rw [usub_eq (by omega) (by omega), hsize]
  have hws : (xs.take (xs.length - n)).length = xs.length - n := by
    rw [length_take]
    omega
  simp only [hpop, bind_eq_bind, bind_some, hsub]
  rcases lt_or_ge xs.length (i + n) with hin | hin
  · -- nothing is moved, and what is popped may begin before `i`
    rw [show xs.length - n - i = 0 by omega]
    simp only [removeLoop, drop_eq_nil_of_le hin.le, append_nil]
    constructor
    · intro S
      have := congrArg length (S.unique W)
      rw [hws, length_take] at this
      omega
    · omega
  obtain ⟨vec', hrun, W'⟩ := removeLoop_spec R W (show _ + n = _ by rw [hws]; omega)
    (show i + (xs.length - n - i) = _ by rw [hws]; omega)
  rw [take_take, min_eq_left (by omega)] at W'
  simp only [hrun]
  exact ⟨fun _ => .inl hin, fun _ => W'⟩

/-! ### reverse -/

/-- One round of the loop of `reverse`, at a value. -/
theorem reverseLoop_step (R : Rep v xs) {j k : Nat} (hj : j < xs.length)
    (W : Rep vec (xs.drop (j + 1)).reverse) :
    v.reverseLoop (k + 1) { min := 0, max := xs.length - 1, dec := 1, idx := j } vec =
        v.reverseLoop k { min := 0, max := xs.length - 1, dec := 1, idx := usub j 1 }
          (vec.push xs[j]) ∧
      Rep (vec.push xs[j]) (xs.drop j).reverse := by
  have hnext : Reverse.hasNext { min := 0, max := xs.length - 1, dec := 1, idx := j } = true := by
    simp only [Reverse.hasNext, zero_le, decide_true, Bool.true_and, decide_eq_true_eq]
    omega
  constructor
  · rw [reverseLoop, if_pos hnext, R.apply_eq (R.length_lt hj.le), getElem?_eq_getElem hj]
    rfl
  have hpush := (W.push xs[j]).2
  rw [← reverse_cons, ← drop_eq_getElem_cons hj] at hpush
  refine hpush ?_
  rw [length_reverse, length_drop]
  exact (sub_le _ _).trans R.bound

/-- The loop of `reverse`, when the values after `j` are pushed.  Below 0 the index wraps to one
that is not in the range. -/
theorem reverseLoop_spec (R : Rep v xs) {j k : Nat} (hj : j < xs.length) (hk : j + 1 < k)
    (W : Rep vec (xs.drop (j + 1)).reverse) :
    ∃ r, v.reverseLoop k { min := 0, max := xs.length - 1, dec := 1, idx := j } vec = some r ∧
      Rep r xs.reverse := by
  induction j generalizing k vec with
  | zero =>
    obtain ⟨k, rfl⟩ : ∃ m, k = m + 2 := ⟨k - 2, by omega⟩
    obtain ⟨hstep, W'⟩ := reverseLoop_step (k := k + 1) R hj W
    have hb := R.bound
    have hlt := maxLength_lt
    have hwrap : usub 0 1 = usize - 1 := by decide
    have hend : Reverse.hasNext { min := 0, max := xs.length - 1, dec := 1, idx := usub 0 1 } =
        false := by
      simp only [Reverse.hasNext, Nat.zero_le, decide_true, Bool.true_and, decide_eq_false_iff_not]
      omega
    rw [drop_zero] at W'
    refine ⟨_, ?_, W'⟩
    rw [hstep, reverseLoop, hend]
    rfl
  | succ j ih =>
    obtain ⟨k, rfl⟩ : ∃ m, k = m + 1 := ⟨k - 1, by omega⟩
    obtain ⟨hstep, W'⟩ := reverseLoop_step (k := k) R hj W
    rw [hstep, usub_eq (by omega) (R.length_lt hj.le), Nat.add_sub_cancel]
    exact ih (by omega) (by omega) W'

/-- On the empty vector the range is all of the `USize`, and the loop never ends. -/
theorem reverseLoop_empty (k : Nat) {j : Nat} (hj : j < usize) :
    v.reverseLoop k { min := 0, max := usize - 1, dec := 1, idx := j } vec = none := by
  induction k generalizing j vec with
  | zero => rfl
  | succ k ih =>
    have hnext : Reverse.hasNext { min := 0, max := usize - 1, dec := 1, idx := j } = true := by
      simp only [Reverse.hasNext, zero_le, decide_true, Bool.true_and, decide_eq_true_eq]
      omega
    have hlt : usub j 1 < usize := mod_lt _ (by omega)
    rw [reverseLoop, if_pos hnext]
    cases v.apply j with
    | none | some value => exact ih hlt

/-- **`reverse`** gives the reverse of every vector but the empty one. -/
theorem reverse_iff (R : Rep v xs) :
    (∃ k r, v.reverse k = some r ∧ Rep r xs.reverse) ↔ xs ≠ [] := by
  have hsize := R.size_eq
  constructor
  · rintro ⟨k, r, hrun, -⟩ rfl
    have hwrap : usub 0 1 = usize - 1 := by decide
    rw [reverse, hsize, length_nil, hwrap, Reverse.create,
      reverseLoop_empty k (by decide)] at hrun
    exact nomatch hrun
  intro hne
  have hpos := length_pos_iff.2 hne
  have hlast : xs.drop (xs.length - 1 + 1) = [] := drop_eq_nil_of_le (by omega)
  obtain ⟨r, hrun, W⟩ := reverseLoop_spec R (show xs.length - 1 < _ by omega)
    (show _ < xs.length + 1 by omega) (show Rep {} _ by rw [hlast]; exact rep_create)
  refine ⟨xs.length + 1, r, ?_, W⟩
  rw [reverse, hsize, usub_eq hpos (R.length_lt le_rfl)]
  exact hrun

/-! ### Together -/

/-- **The bulk operations** agree with their lists exactly so: a slice when there is nothing in it,
a removal unless it goes beyond the end with no more values than there are, a reverse when there is
a value. -/
theorem bulk_exact (R : Rep v xs) : (∀ start to' step k, 0 < step → step < usize → xs.length < k →
      ((∃ r, v.slice k start to' step = some r ∧ Rep r (sliced xs start to' step)) ↔
        min to' xs.length ≤ start)) ∧
    (∀ i n, i < xs.length → (RemoveSpec v xs i n ↔ i + n ≤ xs.length ∨ xs.length < n)) ∧
    ((∃ k r, v.reverse k = some r ∧ Rep r xs.reverse) ↔ xs ≠ []) :=
  ⟨fun _ _ _ _ hstep hs hk => slice_iff R hstep hs hk, fun _ _ hi => remove_iff R hi, reverse_iff R⟩

theorem oneTwo_rep : Rep (({} : Vec Bool).concat [true, false]) [true, false] :=
  rep_create.concat [true, false] (by decide)

/-- A slice of two values, a removal of two values of which there is one, and the reverse of the
empty vector. -/
theorem not_bulk : (¬ ∃ r, (({} : Vec Bool).concat [true, false]).slice 3 0 2 1 = some r ∧
      Rep r (sliced [true, false] 0 2 1)) ∧
    ¬ RemoveSpec (({} : Vec Bool).concat [true, false]) [true, false] 1 2 ∧
    ¬ ∃ k r, ({} : Vec Bool).reverse k = some r ∧ Rep r [] := by
  refine ⟨fun h => ?_, fun h => ?_, fun h => ?_⟩
  · exact absurd ((slice_iff oneTwo_rep (by decide) (by decide) (by decide)).1 h) (by decide)
  · exact absurd ((remove_iff oneTwo_rep (by decide)).1 h) (by decide)
  · exact (reverse_iff rep_create).1 h rfl

/-- A slice behind the end, a removal within the vector, and a reverse. -/
theorem bulk_exact_oneTwo :
    (∃ r, (({} : Vec Bool).concat [true, false]).slice 3 2 5 1 = some r ∧
      Rep r (sliced [true, false] 2 5 1)) ∧
    RemoveSpec (({} : Vec Bool).concat [true, false]) [true, false] 0 1 ∧
    ∃ k r, (({} : Vec Bool).concat [true, false]).reverse k = some r ∧ Rep r [false, true] :=
  ⟨((bulk_exact oneTwo_rep).1 2 5 1 3 (by decide) (by decide) (by decide)).2 (by decide),
    ((bulk_exact oneTwo_rep).2.1 0 1 (by decide)).2 (.inl (by decide)),
    (bulk_exact oneTwo_rep).2.2.2 (by decide)⟩

end Vec

end SpacePony.Persistent
