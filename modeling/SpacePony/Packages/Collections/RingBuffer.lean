import Mathlib.Data.List.Induction
import SpacePony.Packages.Builtin.Array
import SpacePony.Support.LastWrites

/-!
# Packages — collections — RingBuffer

`ring_buffer.pony`, with the size of a `USize` as a parameter.

* `RingBuffer`, `create`, `head`, `size`, `space`, `apply`, `push`, `clear`: the class.
* `Op`, `run`, `since`: calls of `push` and `clear`, and what was pushed since the last `clear`.
* `remembers_iff`: **that is so as long as the counter of the writes has not come around.**
-/

namespace SpacePony.Collections

open Nat List Builtin

/-- `class RingBuffer`. -/
structure RingBuffer (T : Target) (A : Type) where
  array : List A
  mod : ℕ
  write : ℕ
deriving DecidableEq

namespace RingBuffer

variable {T : Target} {A : Type}

def create (T : Target) (A : Type) (len : ℕ) : RingBuffer T A :=
  { array := [], mod := (T.nextPow2 (max len 2) + (2 ^ T.w - 1)) % 2 ^ T.w, write := 0 }

def space (r : RingBuffer T A) : ℕ := (r.mod + 1) % 2 ^ T.w

def head (r : RingBuffer T A) : Option ℕ :=
  if r.write > 0 then
    if r.write > r.space then some (r.write - r.space) else some 0
  else none

def size (r : RingBuffer T A) : ℕ := r.write

def apply (r : RingBuffer T A) (i : ℕ) : Option A :=
  if i ≥ r.write ∨ r.write - i > r.space then none else r.array[i &&& r.mod]?

/-- The result says whether the ring was full. -/
def push (r : RingBuffer T A) (value : A) : Bool × RingBuffer T A :=
  let write := (r.write + 1) % 2 ^ T.w
  if r.write < r.space then (false, { r with array := r.array ++ [value], write })
  -- an error of `update` is dropped
  else (true, { r with array := r.array.set (r.write &&& r.mod) value, write })

def clear (r : RingBuffer T A) : RingBuffer T A := { r with array := [], write := 0 }

/-- A call that changes the buffer. -/
inductive Op (A : Type) where
  | push (value : A)
  | clear

def Op.exec : Op A → RingBuffer T A → RingBuffer T A
  | .push value, r => (r.push value).2
  | .clear, r => r.clear

def run (r : RingBuffer T A) (ops : List (Op A)) : RingBuffer T A :=
  ops.foldl (fun r op => op.exec r) r

/-- What was pushed, after one more call. -/
def Op.pushed (xs : List A) : Op A → List A
  | .push value => xs ++ [value]
  | .clear => []

/-- What was pushed since the last `clear`. -/
def since (ops : List (Op A)) : List A := ops.foldl Op.pushed []

/-- Pushing the value makes a number unreadable that was readable. -/
def Discards (r : RingBuffer T A) (value : A) : Prop :=
  ∃ i, (r.apply i).isSome ∧ (r.push value).2.apply i = none

/-- The buffer has the last `space` of the elements, each at its number. -/
structure Remembers (r : RingBuffer T A) (xs : List A) : Prop where
  head : r.head = none ↔ xs = []
  readable : ∀ i, (r.apply i).isSome ↔ ∃ h, r.head = some h ∧ h ≤ i ∧ i < r.size
  apply : ∀ i, r.apply i = if xs.length ≤ i + r.space then xs[i]? else none
  push : ∀ value, (r.push value).1 = true ↔ r.Discards value

/-! ### The sizes -/

/-- The space of a buffer is a power of two. -/
structure Sized (r : RingBuffer T A) (k : ℕ) : Prop where
  mod : r.mod = 2 ^ k - 1
  space : r.space = 2 ^ k

theorem create_sized (T : Target) (A : Type) (len : ℕ) : ∃ k, (create T A len).Sized k := by
  obtain ⟨k, hk, hnext⟩ : ∃ k < T.w, T.nextPow2 (max len 2) = 2 ^ k := by
    have hw := PonyArray.width_pos T
    simp only [Target.nextPow2, Nat.one_shiftLeft]
    split
    · exact ⟨0, hw, rfl⟩
    · exact ⟨_, by omega, rfl⟩
  have hlt : 2 ^ k < 2 ^ T.w := Nat.pow_lt_pow_right (by decide) hk
  have hpos := Nat.two_pow_pos k
  have hmod : (create T A len).mod = 2 ^ k - 1 := by
    have hsum : 2 ^ k + (2 ^ T.w - 1) = 2 ^ k - 1 + 2 ^ T.w := by omega
    rw [create, hnext, hsum, Nat.add_mod_right, Nat.mod_eq_of_lt (by omega)]
  refine ⟨k, hmod, ?_⟩
  rw [space, hmod, Nat.sub_add_cancel hpos, Nat.mod_eq_of_lt hlt]

theorem Sized.exec {r : RingBuffer T A} {k : ℕ} (h : r.Sized k) (op : Op A) :
    (op.exec r).Sized k := by
  have hmod : (op.exec r).mod = r.mod := by
    cases op with
    | push value =>
      show (r.push value).2.mod = r.mod
      rw [push]
      split <;> rfl
    | clear => rfl
  have hspace : (op.exec r).space = r.space := by rw [RingBuffer.space, RingBuffer.space, hmod]
  exact ⟨hmod.trans h.mod, hspace.trans h.space⟩

variable {r : RingBuffer T A} {k : ℕ} {xs : List A} {v : A} {i : ℕ}

theorem Sized.lt (h : r.Sized k) : 2 ^ k < 2 ^ T.w := by
  rw [← h.space]
  exact Nat.mod_lt _ (Nat.two_pow_pos _)

theorem Sized.index (h : r.Sized k) (i : ℕ) : i &&& r.mod = i % 2 ^ k := by
  rw [h.mod, and_two_pow_sub_one_eq_mod]

theorem exec_write (op : Op A) (h : r.write = xs.length % 2 ^ T.w) :
    (op.exec r).write = (op.pushed xs).length % 2 ^ T.w := by
  cases op with
  | push v =>
    have hwrite : (r.push v).2.write = (r.write + 1) % 2 ^ T.w := by
      rw [push]
      split <;> rfl
    show (r.push v).2.write = (xs ++ [v]).length % 2 ^ T.w
    rw [hwrite, h, mod_add_mod, length_append, length_singleton]
  | clear => exact (zero_mod _).symm

/-- **The counter of the writes**, which comes around. -/
theorem run_write (len : ℕ) (ops : List (Op A)) :
    ((create T A len).run ops).write = (since ops).length % 2 ^ T.w := by
  have hrun : ∀ (ops : List (Op A)) (r : RingBuffer T A) (xs : List A),
      r.write = xs.length % 2 ^ T.w →
        (r.run ops).write = (ops.foldl Op.pushed xs).length % 2 ^ T.w := by
    intro ops
    induction ops with
    | nil => exact fun r xs h => h
    | cons op ops ih => exact fun r xs h => ih _ _ (exec_write op h)
  exact hrun ops _ [] (zero_mod _).symm

/-! ### The invariant -/

/-- The elements are counted, and the last of them are in the array. -/
structure Inv (r : RingBuffer T A) (k : ℕ) (xs : List A) : Prop where
  sized : r.Sized k
  lt : xs.length < 2 ^ T.w
  write : r.write = xs.length
  cells : LastWrites.Holds (2 ^ k) xs r.array

theorem inv_create (T : Target) (A : Type) (len : ℕ) : ∃ k, (create T A len).Inv k [] := by
  obtain ⟨k, hk⟩ := create_sized T A len
  exact ⟨k, hk, Nat.two_pow_pos _, rfl, LastWrites.holds_nil _⟩

theorem push_of_lt (h : r.Inv k xs) (hroom : xs.length < 2 ^ k) :
    r.push v = (false, { r with array := r.array ++ [v], write := xs.length + 1 }) := by
  have hlt := h.sized.lt
  rw [push, if_pos (by rw [h.write, h.sized.space]; exact hroom), h.write, mod_eq_of_lt (by omega)]

theorem push_of_le (h : r.Inv k xs) (hfull : 2 ^ k ≤ xs.length) : r.push v = (true, { r with
      array := r.array.set (xs.length % 2 ^ k) v, write := (xs.length + 1) % 2 ^ T.w }) := by
  rw [push, if_neg (by rw [h.write, h.sized.space]; exact not_lt.2 hfull), h.sized.index, h.write]

theorem Inv.exec (h : r.Inv k xs) (op : Op A) (hlt : (op.pushed xs).length < 2 ^ T.w) :
    (op.exec r).Inv k (op.pushed xs) := by
  refine ⟨h.sized.exec op, hlt, ?_, ?_⟩
  · have hwrite : r.write = xs.length % 2 ^ T.w := h.write.trans (Nat.mod_eq_of_lt h.lt).symm
    rw [exec_write op hwrite, Nat.mod_eq_of_lt hlt]
  cases op with
  | push v =>
    show LastWrites.Holds _ (xs ++ [v]) (r.push v).2.array
    rcases Nat.lt_or_ge xs.length (2 ^ k) with hroom | hfull
    · rw [push_of_lt h hroom]
      exact h.cells.push hroom
    · rw [push_of_le h hfull]
      exact h.cells.set (Nat.two_pow_pos k) hfull
  | clear => exact LastWrites.holds_nil _

variable {ops : List (Op A)}

theorem Inv.run (h : r.Inv k xs)
    (hlt : ∀ pre, pre <+: ops → (pre.foldl Op.pushed xs).length < 2 ^ T.w) :
    (r.run ops).Inv k (ops.foldl Op.pushed xs) := by
  induction ops generalizing r xs with
  | nil => exact h
  | cons op ops ih =>
    have hop := hlt [op] (by simp)
    exact ih (h.exec op hop) fun pre hpre => hlt (op :: pre) (prefix_cons_inj op |>.2 hpre)

/-! ### What is remembered -/

theorem Inv.apply_eq (h : r.Inv k xs) (i : ℕ) :
    r.apply i = if xs.length ≤ i + r.space then xs[i]? else none := by
  rw [apply, h.write]
  by_cases hi : i < xs.length
  · by_cases hnear : xs.length ≤ i + r.space
    · rw [if_neg (by omega), if_pos hnear, h.sized.index]
      exact h.cells.cell i hi (h.sized.space ▸ hnear)
    · rw [if_pos (by omega), if_neg hnear]
  · rw [if_pos (by omega), getElem?_eq_none (by omega)]
    split <;> rfl

theorem Inv.isSome_apply (h : r.Inv k xs) (i : ℕ) :
    (r.apply i).isSome ↔ xs.length ≤ i + r.space ∧ i < xs.length := by
  rw [h.apply_eq]
  split
  · rename_i hnear
    simp [hnear]
  · rename_i hnear
    exact iff_of_false Bool.false_ne_true fun hi => hnear hi.1

theorem Inv.head_eq (h : r.Inv k xs) :
    r.head = if xs = [] then none else some (xs.length - r.space) := by
  rw [head, h.write]
  by_cases hxs : xs = []
  · rw [hxs]
    rfl
  rw [if_pos (length_pos_iff.2 hxs), if_neg hxs]
  split
  · rfl
  · rw [Nat.sub_eq_zero_of_le (by omega)]

theorem Inv.discards_iff (h : r.Inv k xs) (v : A) : r.Discards v ↔ 2 ^ k ≤ xs.length := by
  constructor
  · rintro ⟨i, hsome, hnone⟩
    by_contra hroom
    rw [not_le] at hroom
    have hafter := h.exec (.push v) (by
      have := h.sized.lt
      rw [Op.pushed, length_append, length_singleton]
      omega)
    have hspace : (Op.exec (.push v) r).space = r.space :=
      hafter.sized.space.trans h.sized.space.symm
    have hread := (hafter.isSome_apply i).2
    rw [hspace, h.sized.space, Op.pushed, length_append, length_singleton] at hread
    have hi := ((h.isSome_apply i).1 hsome).2
    have := hread ⟨by omega, by omega⟩
    rw [show (Op.exec (.push v) r).apply i = none from hnone] at this
    cases this
  intro hfull
  have hpos := Nat.two_pow_pos k
  refine ⟨xs.length - 2 ^ k, (h.isSome_apply _).2 ⟨?_, by omega⟩, ?_⟩
  · rw [h.sized.space]
    omega
  have hlt := h.lt
  have hspace : (r.push v).2.space = 2 ^ k := (h.sized.exec (.push v)).space
  rw [apply, hspace, push_of_le h hfull, if_pos]
  rcases Nat.lt_or_ge (xs.length + 1) (2 ^ T.w) with hnext | hnext
  · right
    show (xs.length + 1) % 2 ^ T.w - (xs.length - 2 ^ k) > 2 ^ k
    rw [Nat.mod_eq_of_lt hnext]
    omega
  -- the counter comes around
  left
  have hwrap : xs.length + 1 = 2 ^ T.w := by omega
  show xs.length - 2 ^ k ≥ (xs.length + 1) % 2 ^ T.w
  rw [hwrap, Nat.mod_self]
  exact Nat.zero_le _

/-- **What the buffer has while the counter has not come around.** -/
theorem Inv.remembers (h : r.Inv k xs) : r.Remembers xs where
  head := by
    rw [h.head_eq]
    split <;> simp_all
  readable i := by
    rw [h.isSome_apply, h.head_eq, size, h.write]
    split
    · simp_all
    · simp only [Option.some.injEq, exists_eq_left']
      omega
  apply := h.apply_eq
  push v := by
    rw [h.discards_iff]
    rcases lt_or_ge xs.length (2 ^ k) with hroom | hfull
    · rw [push_of_lt h hroom]
      exact iff_of_false Bool.false_ne_true (not_le.2 hroom)
    · rw [push_of_le h hfull]
      exact iff_of_true rfl hfull

/-- What is pushed grows by one at most. -/
theorem length_pushed_le (op : Op A) (xs : List A) : (op.pushed xs).length ≤ xs.length + 1 := by
  cases op with
  | push v => exact (length_append).le
  | clear => exact zero_le _

/-- A run in which more is pushed than can be counted has a moment at which the counter comes
around. -/
theorem exists_wrapped (h : 2 ^ T.w ≤ (since ops).length) :
    ∃ pre, pre <+: ops ∧ (since pre).length = 2 ^ T.w := by
  induction ops using reverseRecOn with
  | nil => exact absurd h (not_le.2 (Nat.two_pow_pos _))
  | append_singleton ops op ih =>
    rcases Nat.lt_or_ge (since ops).length (2 ^ T.w) with hlt | hge
    · refine ⟨ops ++ [op], prefix_refl _, le_antisymm ?_ h⟩
      have hle := length_pushed_le op (since ops)
      rw [since, foldl_append]
      exact hle.trans hlt
    · obtain ⟨pre, hpre, hlen⟩ := ih hge
      exact ⟨pre, hpre.trans (prefix_append _ _), hlen⟩

/-- When the counter has come around, the buffer says that it is empty. -/
theorem not_remembers {len : ℕ} (h : (since ops).length = 2 ^ T.w) :
    ¬ ((create T A len).run ops).Remembers (since ops) := by
  intro hr
  have hwrite := run_write (T := T) len ops
  rw [h, Nat.mod_self] at hwrite
  have hhead : ((create T A len).run ops).head = none := by
    rw [head, hwrite]
    rfl
  have hnil := hr.head.1 hhead
  rw [hnil] at h
  exact absurd h (Nat.two_pow_pos _).ne

/-- **The buffer remembers the last writes, all along a run,** exactly as long as fewer are made
since the last `clear` than a `USize` counts. -/
theorem remembers_iff (T : Target) (A : Type) (len : ℕ) (ops : List (Op A)) :
    (∀ pre, pre <+: ops → ((create T A len).run pre).Remembers (since pre)) ↔
      ∀ pre, pre <+: ops → (since pre).length < 2 ^ T.w := by
  constructor
  · intro h pre hpre
    by_contra hge
    obtain ⟨pre', hpre', hlen⟩ := exists_wrapped (not_lt.1 hge)
    exact not_remembers hlen (h pre' (hpre'.trans hpre))
  · intro h pre hpre
    obtain ⟨k, hk⟩ := inv_create T A len
    exact (hk.run fun pre' hpre' => h pre' (hpre'.trans hpre)).remembers

/-- On a 32-bit target, where a reference takes four bytes. -/
def ilp32 : Target := ⟨32, 4, by decide, by decide, by decide⟩

/-- **After `2 ^ 32` writes the buffer says that nothing was written.** -/
theorem counter_comes_around :
    ¬ ((create ilp32 Bool 4).run (replicate (2 ^ 32) (.push true))).Remembers
      (since (replicate (2 ^ 32) (.push true))) := by
  have hlen : ∀ n, (since (replicate n (Op.push true))).length = n := by
    intro n
    induction n with
    | zero => rfl
    | succ n ih =>
      rw [replicate_succ', since, foldl_append]
      show ((since _) ++ [true]).length = n + 1
      rw [length_append, ih, length_singleton]
  exact not_remembers (hlen _)

end RingBuffer

end SpacePony.Collections
