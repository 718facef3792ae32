import SpacePony.Packages.Persistent.VecRep

/-!
# Packages — persistent — the vector over whole runs

A run keeps every version of the vector that it has made, and each of its steps is an operation on
any of them.

* `Rep.push`, `Rep.pop`, `Rep.update`, `Rep.insert`, `Rep.delete`: what the operations do.
* `vec_is_sequence`: after any steps each version agrees with the list that the same operations
  make, and no push drops a full tail.
-/

namespace SpacePony.Persistent

open Nat Option List Collections

variable {A : Type}

namespace Vec

/-- The most values that are considered.  The address space of no target has room for them. -/
def maxLength : Nat := 2 ^ 60

/-- The tree of the vector holds the values `ys`. -/
structure Parts (v : Vec A) (ys : List A) : Prop where
  tail : v.tail.length < 32
  full : 32 ∣ ys.length
  size : v.size = ys.length + v.tail.length
  tree : (v.root = none ∧ v.depth = usize - 1 ∧ ys = []) ∨
    ∃ r, v.root = some r ∧ v.depth ≤ 11 ∧ Holds v.depth r ys

/-- The vector is the list. -/
structure Rep (v : Vec A) (xs : List A) : Prop where
  bound : xs.length ≤ maxLength
  parts : ∃ ys, xs = ys ++ v.tail ∧ Parts v ys

theorem maxLength_lt : maxLength + 1 < usize := by decide

theorem usub_eq {a b : Nat} (hb : b ≤ a) (ha : a < usize) : usub a b = a - b := by
  have e : a + (usize - b) = a - b + usize := by omega
  rw [usub, e, add_mod_right, mod_eq_of_lt (by omega)]

section
variable {v : Vec A} {xs ys : List A}

theorem rep_create : Rep ({} : Vec A) [] :=
  ⟨zero_le _, [], rfl, succ_pos 31, ⟨0, rfl⟩, rfl, .inl ⟨rfl, rfl, rfl⟩⟩

theorem Parts.length_eq (P : Parts v ys) : (ys ++ v.tail).length = v.size := by
  rw [length_append, P.size]

theorem Parts.tailOffset_eq (P : Parts v ys) (hb : v.size ≤ maxLength) :
    v.tailOffset = ys.length := by
  have hlt := maxLength_lt
  have hs := P.size
  rw [tailOffset, usub_eq (by omega) (by omega)]
  omega

theorem Rep.size_eq (R : Rep v xs) : v.size = xs.length := by
  obtain ⟨_, ys, rfl, P⟩ := R
  exact P.length_eq.symm

variable {i : Nat} {r : VecNode A} {a : A}

/-- The index of a value in the tree is not longer than the tree is deep. -/
theorem index_mod {d : Nat} {n : VecNode A} (h : Holds d n ys) (hi : i < ys.length) :
    i % 32 ^ (d + 1) = i :=
  mod_eq_of_lt (hi.trans_le h.length_le)

/-- **Reading**: there is an error exactly beyond the end. -/
theorem Rep.apply_eq (R : Rep v xs) (hi : i < usize) : v.apply i = xs[i]? := by
  obtain ⟨hb, ys, rfl, P⟩ := R
  rw [P.length_eq] at hb
  rw [apply, P.tailOffset_eq hb]
  by_cases hlt : i < ys.length
  · rw [if_pos hlt, getElem?_append_left hlt]
    obtain ⟨-, -, rfl⟩ | ⟨r, hr, hd, h⟩ := P.tree
    · exact absurd hlt (not_lt_zero i)
    · rw [hr, bind_eq_bind, bind_some, h.apply_eq (by omega), index_mod h hlt]
  · rw [if_neg hlt, usub_eq (by omega) hi, getElem?_append_right (by omega)]

/-- **Changing a value**. -/
theorem Rep.update (R : Rep v xs) (hi : i < usize) (a : A) :
    (i < xs.length → ∃ v', v.update i a = some v' ∧ Rep v' (xs.set i a)) ∧
      (xs.length ≤ i → v.update i a = none) := by
  obtain ⟨hb, ys, rfl, P⟩ := R
  have hsize := P.length_eq
  have hoff := P.tailOffset_eq (by rwa [hsize] at hb)
  rw [Vec.update, hoff]
  by_cases hlt : i < ys.length
  · obtain ⟨-, -, rfl⟩ | ⟨r, hr, hd, h⟩ := P.tree
    · exact absurd hlt (not_lt_zero i)
    have hmod := index_mod h hlt
    obtain ⟨r', hrun, h'⟩ := h.update (i := i) (by omega) a (by rwa [hmod])
    rw [hmod] at h'
    rw [if_pos hlt, hr]
    simp only [bind_eq_bind, bind_some, hrun]
    refine ⟨fun _ => ⟨_, rfl, by rwa [length_set], ys.set i a, ?_, P.tail, ?_, ?_, ?_⟩,
      fun hge => ?_⟩
    · exact set_append_left i a hlt
    · rw [length_set]
      exact P.full
    · rw [length_set]
      exact P.size
    · exact .inr ⟨r', rfl, hd, h'⟩
    · rw [length_append] at hge
      omega
  rw [if_neg hlt, usub_eq (by omega) hi, setAt, length_append]
  constructor
  · intro hin
    rw [if_pos (by omega)]
    refine ⟨_, rfl, by rwa [length_set], ys, ?_, ?_, P.full, ?_, P.tree⟩
    · exact set_append_right i a (by omega)
    · rw [length_set]
      exact P.tail
    · rw [length_set]
      exact P.size
  · intro hge
    rw [if_neg (by omega)]
    rfl

/-- A vector whose tail is empty. -/
theorem rep_tree {d : Nat} (hb : xs.length ≤ maxLength) (hfull : 32 ∣ xs.length) (hd : d ≤ 11)
    (h : Holds d r xs) : Rep { root := some r, tail := [], size := xs.length, depth := d } xs :=
  ⟨hb, xs, (append_nil xs).symm, succ_pos 31, hfull, rfl, .inr ⟨r, rfl, hd, h⟩⟩

/-- A full tail is the first leaf. -/
theorem push_create (hr : v.root = none) (hd : v.depth = usize - 1) (hoff : v.tailOffset = 0)
    (ht : (v.tail ++ [a]).length = 32) : PushKeepsTail v a ∧
      v.push a = { root := some (.leaves (v.tail ++ [a])), tail := [],
                   size := (v.size + 1) % usize, depth := 0 } := by
  have hroom : ¬ (v.tail ++ [a]).length < 32 := by omega
  have hd0 : (usize - 1 + 1) % usize = 0 := by decide
  have hfull : v.tailOffset = nextPow32 v.depth := by rw [hoff, hd, nextPow32_none]
  refine ⟨.inr ?_, ?_⟩
  · rw [if_pos hfull]
    intro r hr'
    rw [hr] at hr'
    cases hr'
  · rw [Vec.push, if_neg hroom, if_pos hfull, hr, hd, hd0]

/-- A full tail is pushed to a tree that is full, under a new root. -/
theorem push_grow {r' : VecNode A} (hr : v.root = some r) (hd : v.depth < 11)
    (hoff : v.tailOffset = 32 ^ (v.depth + 1)) (ht : (v.tail ++ [a]).length = 32)
    (hrun : r.growRoot.push (v.depth + 1) v.tailOffset (v.tail ++ [a]) = some r') :
    PushKeepsTail v a ∧
      v.push a = { root := some r', tail := [], size := (v.size + 1) % usize,
                   depth := v.depth + 1 } := by
  have hroom : ¬ (v.tail ++ [a]).length < 32 := by omega
  have hd1 : (v.depth + 1) % usize = v.depth + 1 := by
    refine mod_eq_of_lt (lt_of_lt_of_le (b := 12) (by omega) ?_)
    decide
  have hfull : v.tailOffset = nextPow32 v.depth := by rw [hoff, nextPow32_eq (by omega)]
  have hrun' : v.growAndPush r (v.tail ++ [a]) = some r' := by rw [growAndPush, hd1, hrun]
  refine ⟨.inr ?_, ?_⟩
  · rw [if_pos hfull]
    intro r₁ hr₁
    rw [hr] at hr₁
    cases hr₁
    rw [hrun']
    rfl
  · rw [Vec.push, if_neg hroom, if_pos hfull, hr, hd1]
    simp only [hrun', getD_some]

/-- A full tail is pushed to a tree that is not full. -/
theorem push_root {r' : VecNode A} (hr : v.root = some r) (hd : v.depth ≤ 11)
    (hoff : v.tailOffset ≠ 32 ^ (v.depth + 1)) (ht : (v.tail ++ [a]).length = 32)
    (hrun : r.push v.depth v.tailOffset (v.tail ++ [a]) = some r') : PushKeepsTail v a ∧
      v.push a = { root := some r', tail := [], size := (v.size + 1) % usize,
                   depth := v.depth } := by
  have hroom : ¬ (v.tail ++ [a]).length < 32 := by omega
  have hfull : v.tailOffset ≠ nextPow32 v.depth := by rwa [nextPow32_eq hd]
  have hrun' : v.pushTail (v.tail ++ [a]) = some r' := by
    rw [pushTail, hr, bind_eq_bind, bind_some, hrun]
  refine ⟨.inr ?_, ?_⟩
  · rw [if_neg hfull, hrun']
    rfl
  · rw [Vec.push, if_neg hroom, if_neg hfull, hrun', some_or]

/-- **Pushing**, which drops no full tail. -/
theorem Rep.push (R : Rep v xs) (a : A) :
    PushKeepsTail v a ∧ ((xs ++ [a]).length ≤ maxLength → Rep (v.push a) (xs ++ [a])) := by
  obtain ⟨hb, ys, rfl, P⟩ := R
  have hlt := maxLength_lt
  have hlen := P.length_eq
  have hoff := P.tailOffset_eq (by rwa [hlen] at hb)
  have ht := P.tail
  have hsize : (v.size + 1) % usize = v.size + 1 := Nat.mod_eq_of_lt (by omega)
  have hlen' : (ys ++ (v.tail ++ [a])).length = v.size + 1 := by
    rw [← append_assoc, length_append, hlen, length_singleton]
  rw [append_assoc]
  by_cases hroom : (v.tail ++ [a]).length < 32
  · refine ⟨.inl hroom, fun hb' => ?_⟩
    have hpush : v.push a = { v with tail := v.tail ++ [a], size := v.size + 1 } := by
      rw [Vec.push, if_pos hroom, hsize]
    rw [hpush]
    refine ⟨hb', ys, rfl, hroom, P.full, ?_, P.tree⟩
    show v.size + 1 = ys.length + (v.tail ++ [a]).length
    rw [← hlen', length_append]
  have ht' : (v.tail ++ [a]).length = 32 := by
    rw [length_append, length_singleton] at hroom ⊢
    omega
  have hfull' : 32 ∣ (ys ++ (v.tail ++ [a])).length := by
    rw [length_append, ht']
    exact (Nat.dvd_add_right P.full).2 ⟨1, rfl⟩
  obtain ⟨hr, hd, rfl⟩ | ⟨r, hr, hd, h⟩ := P.tree
  · obtain ⟨hkeep, hpush⟩ := push_create hr hd hoff ht'
    refine ⟨hkeep, fun hb' => ?_⟩
    rw [hpush, hsize, ← hlen']
    exact rep_tree hb' hfull' (Nat.zero_le _) ⟨rfl, ht'⟩
  by_cases hgrow : ys.length = 32 ^ (v.depth + 1)
  · -- a full tree of depth 11 has as many values as there may be
    have hd' : v.depth < 11 := by
      by_contra hge
      have h11 : v.depth = 11 := by omega
      have hm : maxLength = 32 ^ 12 := by decide
      rw [h11] at hgrow
      rw [length_append] at hb
      rw [length_append, length_singleton] at ht'
      omega
    have hi : v.tailOffset % 32 ^ (v.depth + 2) = ys.length := by
      rw [hoff, hgrow]
      exact Nat.mod_eq_of_lt (Nat.pow_lt_pow_right (by omega) (by omega))
    obtain ⟨r', hrun, h'⟩ := (h.growRoot hgrow.le).push (by omega) P.full hi ht'
    obtain ⟨hkeep, hpush⟩ := push_grow hr hd' (hoff.trans hgrow) ht' hrun
    refine ⟨hkeep, fun hb' => ?_⟩
    rw [hpush, hsize, ← hlen']
    exact rep_tree hb' hfull' hd' h'
  have hlt' : ys.length < 32 ^ (v.depth + 1) := lt_of_le_of_ne h.length_le hgrow
  have hi : v.tailOffset % 32 ^ (v.depth + 1) = ys.length := by
    rw [hoff]
    exact Nat.mod_eq_of_lt hlt'
  have hpushed : ∃ r', r.push v.depth v.tailOffset (v.tail ++ [a]) = some r' ∧
      Holds v.depth r' (ys ++ (v.tail ++ [a])) := by
    generalize v.depth = d at h hgrow hi hd
    cases d with
    | zero => exact absurd h.zero.2 hgrow
    | succ d => exact h.push (by omega) P.full hi ht'
  obtain ⟨r', hrun, h'⟩ := hpushed
  obtain ⟨hkeep, hpush⟩ := push_root hr hd (hoff ▸ hgrow) ht' hrun
  refine ⟨hkeep, fun hb' => ?_⟩
  rw [hpush, hsize, ← hlen']
  exact rep_tree hb' hfull' hd h'

/-- **Popping**: there is an error exactly on the empty vector. -/
theorem Rep.pop (R : Rep v xs) :
    (xs ≠ [] → ∃ v', v.pop = some v' ∧ Rep v' xs.dropLast) ∧ (xs = [] → v.pop = none) := by
  obtain ⟨hb, ys, rfl, P⟩ := R
  have hlt := maxLength_lt
  have hlen := P.length_eq
  have hbound : (ys ++ v.tail).dropLast.length ≤ maxLength := by
    rw [length_dropLast]
    omega
  by_cases htail : v.tail.length > 0
  · have hne : v.tail ≠ [] := ne_nil_of_length_pos htail
    have hsize := P.size
    constructor
    · intro _
      refine ⟨{ v with tail := v.tail.dropLast, size := v.size - 1 }, ?_, hbound, ys, ?_, ?_,
        P.full, ?_, P.tree⟩
      · rw [Vec.pop, if_pos htail, usub_eq (by omega) (by omega)]
      · exact dropLast_append_of_ne_nil hne
      · rw [length_dropLast]
        have := P.tail
        omega
      · show v.size - 1 = ys.length + v.tail.dropLast.length
        rw [length_dropLast]
        omega
    · intro hnil
      exact absurd (List.append_eq_nil_iff.1 hnil).2 hne
  have hnil : v.tail = [] := List.length_eq_zero_iff.1 (by omega)
  rw [hnil, append_nil] at hlen hb hbound ⊢
  rw [Vec.pop, if_neg htail]
  obtain ⟨hr, hd, rfl⟩ | ⟨r, hr, hd, h⟩ := P.tree
  · rw [hr]
    exact ⟨fun hne => absurd rfl hne, fun _ => rfl⟩
  rw [hr, bind_eq_bind, bind_some]
  constructor
  · intro hne
    have hpos : 0 < ys.length := length_pos_of_ne_nil hne
    -- the last thirty-two values are the new tail
    obtain ⟨zs, t, rfl, ht⟩ : ∃ zs t, ys = zs ++ t ∧ t.length = 32 := by
      refine ⟨ys.take (ys.length - 32), ys.drop (ys.length - 32), (take_append_drop _ _).symm, ?_⟩
      obtain ⟨k, hk⟩ := P.full
      rw [length_drop]
      omega
    have hzs : 32 ∣ zs.length := by
      have hfull := P.full
      rw [length_append, ht] at hfull
      exact (Nat.dvd_add_left ⟨1, rfl⟩).1 hfull
    rw [hlen] at hb
    rw [length_append, ht] at hlen
    have hsize : usub v.size 1 = zs.length + 31 := by
      rw [usub_eq (by omega) (by omega)]
      omega
    have hi : usub v.size 1 % 32 ^ (v.depth + 1) = zs.length + 31 := by
      have hle := h.length_le
      rw [length_append, ht] at hle
      rw [hsize, Nat.mod_eq_of_lt (by omega)]
    obtain ⟨r', hrun, h'⟩ := h.pop (by omega) hzs hi ht
    rw [hrun, bind_eq_bind, bind_some]
    have hlast : (zs ++ t).dropLast = zs ++ t.dropLast :=
      dropLast_append_of_ne_nil (ne_nil_of_length_pos (by omega))
    have ht31 : t.dropLast.length = 31 := by rw [length_dropLast, ht]
    by_cases hd0 : v.depth = 0
    · have hzs0 : zs = [] := by
        rw [hd0] at h
        have h32 := h.zero.2
        rw [length_append, ht] at h32
        exact List.length_eq_zero_iff.1 (by omega)
      simp only [if_pos hd0]
      refine ⟨_, rfl, hbound, zs, hlast, ?_, hzs, ?_, .inl ⟨rfl, rfl, hzs0⟩⟩
      · show t.dropLast.length < 32
        omega
      · show usub v.size 1 = zs.length + t.dropLast.length
        omega
    simp only [if_neg hd0]
    refine ⟨_, rfl, hbound, zs, hlast, ?_, hzs, ?_, .inr ⟨r', rfl, hd, h' hd0⟩⟩
    · show t.dropLast.length < 32
      omega
    · show usub v.size 1 = zs.length + t.dropLast.length
      omega
  · rintro rfl
    rw [h.pop_nil]
    rfl

theorem Rep.length_lt (R : Rep v xs) (hi : i ≤ xs.length) : i < usize := by
  have hlt := maxLength_lt
  have hb := R.bound
  omega

theorem take_append_cons_drop (hi : i ≤ xs.length) :
    xs.take i ++ a :: xs.drop i = xs.insertIdx i a := by
  induction i generalizing xs with
  | zero => rfl
  | succ i ih =>
    cases xs with
    | nil => cases hi
    | cons x xs =>
      rw [take_succ_cons, drop_succ_cons, cons_append,
        ih (le_of_succ_le_succ hi), insertIdx_succ_cons]

/-- The loop of `insert` writes the values one place later, from `i` on. -/
theorem insertLoop_spec (R : Rep v xs) {k : Nat} {vec : Vec A} {ws : List A} (W : Rep vec ws)
    (hws : ws.length = xs.length) (hk : i + k = xs.length) :
    ∃ vec', v.insertLoop k i vec a = some vec' ∧
      Rep vec' (ws.take i ++ (a :: xs.drop i).take k) := by
  induction k generalizing i vec ws a with
  | zero =>
    refine ⟨vec, rfl, ?_⟩
    rwa [take_zero, append_nil, take_of_length_le (by omega)]
  | succ k ih =>
    have hlt : i < xs.length := by omega
    obtain ⟨vec₁, hrun, W₁⟩ := (W.update (R.length_lt hlt.le) a).1 (by omega)
    obtain ⟨vec', hrun', W'⟩ :=
      ih (i := i + 1) (a := xs[i]) W₁ (by rwa [length_set]) (by omega)
    refine ⟨vec', ?_, ?_⟩
    · rw [insertLoop, R.apply_eq (R.length_lt hlt.le), getElem?_eq_getElem hlt]
      simp only [bind_eq_bind, bind_some, hrun, hrun']
    have hset : (ws.set i a).take (i + 1) = ws.take i ++ [a] := by
      rw [take_succ_eq_append_getElem (by rw [length_set]; omega),
        getElem_set_self, take_set_of_le (le_refl i)]
    rw [hset, ← drop_eq_getElem_cons hlt, append_assoc, singleton_append] at W'
    rwa [take_succ_cons]

/-- **Inserting**: there is an error exactly beyond the end. -/
theorem Rep.insert (R : Rep v xs) (i : Nat) (a : A) :
    (i < xs.length → ∃ v', v.insert i a = some v' ∧
        ((xs.insertIdx i a).length ≤ maxLength → Rep v' (xs.insertIdx i a))) ∧
      (xs.length ≤ i → v.insert i a = none) := by
  have hsize := R.size_eq
  constructor
  · intro hi
    obtain ⟨vec, hrun, W⟩ := insertLoop_spec (a := a) R R rfl
      (show i + (v.size - i) = xs.length by omega)
    have hlt : xs.length - 1 < xs.length := by omega
    refine ⟨vec.push xs[xs.length - 1], ?_, fun hb => ?_⟩
    · have hidx : usub v.size 1 = xs.length - 1 := by
        rw [hsize, usub_eq (by omega) (R.length_lt (le_refl _))]
      rw [Vec.insert, if_neg (by omega), hrun, hidx, R.apply_eq (R.length_lt hlt.le),
        getElem?_eq_getElem hlt]
      rfl
    have hlist : xs.take i ++ (a :: xs.drop i).take (v.size - i) ++ [xs[xs.length - 1]] =
        xs.insertIdx i a := by
      have hsome : (a :: xs.drop i).take (v.size - i) ++ [xs[xs.length - 1]] = a :: xs.drop i := by
        have hn : v.size - i < (a :: xs.drop i).length := by
          rw [length_cons, length_drop]
          omega
        have hlast : (a :: xs.drop i)[v.size - i] = xs[xs.length - 1] := by
          rw [getElem_cons, dif_neg (by omega), getElem_drop]
          congr 1
          omega
        rw [← hlast, ← take_succ_eq_append_getElem hn, take_of_length_le]
        rw [length_cons, length_drop]
        omega
      rw [append_assoc, hsome, take_append_cons_drop hi.le]
    have hpush := (W.push xs[xs.length - 1]).2
    rw [hlist] at hpush
    exact hpush hb
  · intro hge
    rw [Vec.insert, if_pos (by omega)]

/-- The loop of `delete` writes the values one place earlier, from `i` on. -/
theorem deleteLoop_spec (R : Rep v xs) {k : Nat} {vec : Vec A} {ws : List A} (W : Rep vec ws)
    (hws : ws.length + 1 = xs.length) (hk : i + 1 + k = xs.length) :
    ∃ vec', v.deleteLoop k (i + 1) vec = some vec' ∧
      Rep vec' (ws.take i ++ xs.drop (i + 1)) := by
  induction k generalizing i vec ws with
  | zero =>
    refine ⟨vec, rfl, ?_⟩
    rwa [drop_of_length_le (by omega), append_nil, take_of_length_le (by omega)]
  | succ k ih =>
    have hlt : i + 1 < xs.length := by omega
    obtain ⟨vec₁, hrun, W₁⟩ :=
      (W.update (i := i) (R.length_lt (by omega)) xs[i + 1]).1 (by omega)
    obtain ⟨vec', hrun', W'⟩ := ih (i := i + 1) W₁ (by rwa [length_set]) (by omega)
    refine ⟨vec', ?_, ?_⟩
    · rw [deleteLoop, R.apply_eq (R.length_lt hlt.le), getElem?_eq_getElem hlt, Nat.add_sub_cancel]
      simp only [bind_eq_bind, bind_some, hrun, hrun']
    have hset : (ws.set i xs[i + 1]).take (i + 1) = ws.take i ++ [xs[i + 1]] := by
      rw [take_succ_eq_append_getElem (by rw [length_set]; omega),
        getElem_set_self, take_set_of_le (le_refl i)]
    rwa [hset, append_assoc, singleton_append, ← drop_eq_getElem_cons hlt] at W'

/-- **Deleting**: there is an error exactly beyond the end. -/
theorem Rep.delete (R : Rep v xs) (i : Nat) :
    (i < xs.length → ∃ v', v.delete i = some v' ∧ Rep v' (xs.eraseIdx i)) ∧
      (xs.length ≤ i → v.delete i = none) := by
  have hsize := R.size_eq
  constructor
  · intro hi
    obtain ⟨vec, hpop, W⟩ := R.pop.1 (ne_nil_of_length_pos (by omega))
    obtain ⟨v', hrun, W'⟩ := deleteLoop_spec (k := v.size - (i + 1)) (i := i) R W
      (by rw [length_dropLast]; omega) (by omega)
    refine ⟨v', ?_, ?_⟩
    · rw [Vec.delete, if_neg (by omega), hpop, bind_eq_bind, bind_some, hrun]
    · rwa [dropLast_eq_take, take_take, Nat.min_eq_left (by omega),
        ← eraseIdx_eq_take_drop_succ] at W'
  · intro hge
    rw [Vec.delete, if_pos (by omega)]

/-- **Concatenating**. -/
theorem Rep.concat (R : Rep v xs) (iter : List A) (hb : (xs ++ iter).length ≤ maxLength) :
    Rep (v.concat iter) (xs ++ iter) := by
  induction iter generalizing v xs with
  | nil => rwa [append_nil]
  | cons a iter ih =>
    have e : xs ++ a :: iter = xs ++ [a] ++ iter := by rw [append_assoc]; rfl
    rw [e] at hb ⊢
    rw [length_append] at hb
    exact ih ((R.push a).2 (by omega)) (by rwa [length_append])

/-! ### Iterators -/

/-- A loop over the pairs reads what is left. -/
theorem collect_eq {p : VecPairs A} (fuel : Nat) (hne : ∀ l ∈ p.leafNodes, l ≠ [])
    (hidx : ∀ l, p.leafNodes.head? = some l → p.idx < l.length)
    (hfuel : (p.leafNodes.flatten.drop p.idx).length ≤ fuel) : p.collect fuel =
      some ((p.leafNodes.flatten.drop p.idx).mapIdx fun j x => (p.i + j, x)) := by
  induction fuel generalizing p with
  | zero =>
    obtain ⟨lns, idx, i⟩ := p
    cases lns with
    | nil => simp [VecPairs.collect, VecPairs.hasNext]
    | cons l lns =>
      have hlt := hidx l rfl
      simp only [flatten_cons, length_drop, length_append] at hfuel hlt
      omega
  | succ fuel ih =>
    obtain ⟨lns, idx, i⟩ := p
    cases lns with
    | nil => simp [VecPairs.collect, VecPairs.hasNext]
    | cons l lns =>
      have hlt : idx < l.length := hidx l rfl
      have hdrop : (l :: lns).flatten.drop idx = l[idx] :: (l.drop (idx + 1) ++ lns.flatten) := by
        rw [flatten_cons, drop_append_of_le_length hlt.le, drop_eq_getElem_cons hlt, cons_append]
      simp only [hdrop, length_cons] at hfuel ⊢
      rw [VecPairs.collect, if_pos (by simp [VecPairs.hasNext]), mapIdx_cons, add_zero]
      by_cases hend : idx + 1 = l.length
      · have hnext : VecPairs.next ⟨l :: lns, idx, i⟩ =
            some ((i, l[idx]), ⟨lns, 0, i + 1⟩) := by
          simp [VecPairs.next, getElem?_eq_getElem hlt, hend]
        rw [hend, drop_length, nil_append] at hfuel ⊢
        have hrest := ih (p := ⟨lns, 0, i + 1⟩)
          (fun m hm => hne m (.tail _ hm))
          (fun m hm => length_pos_of_ne_nil (hne m (.tail _ (mem_of_mem_head? hm))))
          (le_of_succ_le_succ hfuel)
        rw [hnext, bind_eq_bind, bind_some]
        simp only [hrest, drop_zero, add_assoc, add_comm 1]
        rfl
      have hnext : VecPairs.next ⟨l :: lns, idx, i⟩ =
          some ((i, l[idx]), ⟨l :: lns, idx + 1, i + 1⟩) := by
        simp [VecPairs.next, getElem?_eq_getElem hlt, hend]
      have hdrop' : (l :: lns).flatten.drop (idx + 1) = l.drop (idx + 1) ++ lns.flatten := by
        rw [flatten_cons, drop_append_of_le_length hlt]
      have hrest := ih (p := ⟨l :: lns, idx + 1, i + 1⟩) hne
        (fun m hm => by cases hm; show idx + 1 < l.length; omega)
        (by rw [hdrop']; omega)
      rw [hnext, bind_eq_bind, bind_some]
      simp only [hrest, hdrop', add_assoc, add_comm 1]
      rfl

/-- **Iterating** reads every index with its value, in order. -/
theorem Rep.pairs_eq (R : Rep v xs) {fuel : Nat} (hfuel : xs.length ≤ fuel) :
    v.pairs fuel = some (xs.mapIdx fun i x => (i, x)) := by
  obtain ⟨hb, ys, rfl, P⟩ := R
  have htree : ∃ lns : List (List A), v.leafNodes = lns ++ (if v.tail.length > 0 then [v.tail] else [])
      ∧ lns.flatten = ys ∧ ∀ l ∈ lns, l ≠ [] := by
    obtain ⟨hr, -, rfl⟩ | ⟨r, hr, -, h⟩ := P.tree
    · refine ⟨[], ?_, rfl, fun l hl => by cases hl⟩
      rw [Vec.leafNodes, hr]
      split <;> rfl
    refine ⟨r.leafNodes [], ?_, h.leafNodes⟩
    rw [Vec.leafNodes, hr]
    split
    · rfl
    · rw [append_nil]
  obtain ⟨lns, hlns, hflat, hne⟩ := htree
  have hflat' : v.leafNodes.flatten = ys ++ v.tail := by
    rw [hlns, flatten_append, hflat]
    split
    · rw [flatten_singleton]
    · next h => rw [length_eq_zero_iff.1 (by omega : v.tail.length = 0), flatten_nil]
  have hne' : ∀ l ∈ v.leafNodes, l ≠ [] := by
    intro l hl
    rw [hlns, mem_append] at hl
    obtain hl | hl := hl
    · exact hne l hl
    split at hl
    · next h =>
        rw [mem_singleton] at hl
        subst hl
        exact ne_nil_of_length_pos h
    · cases hl
  have hcollect := collect_eq (p := VecPairs.create v) fuel hne'
    (fun l hl => length_pos_of_ne_nil (hne' l (mem_of_mem_head? hl)))
    (by rw [VecPairs.create, drop_zero, hflat']; exact hfuel)
  rw [Vec.pairs, hcollect]
  simp only [VecPairs.create, drop_zero, hflat', zero_add]

theorem Rep.keys_eq (R : Rep v xs) {fuel : Nat} (hfuel : xs.length ≤ fuel) :
    v.keys fuel = some (range xs.length) := by
  rw [Vec.keys, R.pairs_eq hfuel, map_some]
  congr 1
  refine ext_getElem (by simp) fun i h₁ h₂ => ?_
  simp

theorem Rep.values_eq (R : Rep v xs) {fuel : Nat} (hfuel : xs.length ≤ fuel) :
    v.values fuel = some xs := by
  rw [Vec.values, R.pairs_eq hfuel, map_some]
  congr 1
  refine ext_getElem (by simp) fun i h₁ h₂ => ?_
  simp

end

/-! ### Runs -/

/-- An operation.  An index is a `USize`. -/
inductive Op (A : Type)
  | push (a : A)
  | pop
  | update (i : Fin usize) (a : A)
  | insert (i : Fin usize) (a : A)
  | delete (i : Fin usize)
  | concat (iter : List A)

/-- The operation on a vector.  `none` is an error. -/
def Op.exec : Op A → Vec A → Option (Vec A)
  | .push a, v => some (v.push a)
  | .pop, v => v.pop
  | .update i a, v => v.update i a
  | .insert i a, v => v.insert i a
  | .delete i, v => v.delete i
  | .concat iter, v => some (v.concat iter)

/-- The operation on a list. -/
def Op.onList : Op A → List A → Option (List A)
  | .push a, xs => some (xs ++ [a])
  | .pop, xs => if xs = [] then none else some xs.dropLast
  | .update i a, xs => if i < xs.length then some (xs.set i a) else none
  | .insert i a, xs => if i < xs.length then some (xs.insertIdx i a) else none
  | .delete i, xs => if i < xs.length then some (xs.eraseIdx i) else none
  | .concat iter, xs => some (xs ++ iter)

/-- No push that the operation makes drops a full tail. -/
def Op.KeepsTail : Op A → Vec A → Prop
  | .push a, v => PushKeepsTail v a
  | .insert i a, v =>
    ∀ vec last, v.insertLoop (v.size - i) i v a = some vec → PushKeepsTail vec last
  | .concat iter, v => ∀ as a bs, iter = as ++ a :: bs → PushKeepsTail (v.concat as) a
  | _, _ => True

/-- The versions after a step, which is an operation on the version number `k`. -/
def stepOn {S : Type} (exec : Op A → S → Option S) (versions : List S) (step : Nat × Op A) :
    List S :=
  match versions[step.1]?.bind (exec step.2) with
  | some s => versions ++ [s]
  | none => versions

/-- The versions after a run. -/
def versionsOf {S : Type} (exec : Op A → S → Option S) (create : S) (steps : List (Nat × Op A)) :
    List S :=
  steps.foldl (stepOn exec) [create]

/-- What is read of a vector is what is read of the list. -/
structure Agrees (v : Vec A) (xs : List A) : Prop where
  size : v.size = xs.length
  apply : ∀ i : Fin usize, v.apply i = xs[(i : Nat)]?
  pairs : ∀ fuel, xs.length ≤ fuel → v.pairs fuel = some (xs.mapIdx fun i x => (i, x))
  keys : ∀ fuel, xs.length ≤ fuel → v.keys fuel = some (range xs.length)
  values : ∀ fuel, xs.length ≤ fuel → v.values fuel = some xs

section
variable {v : Vec A} {xs : List A}

theorem Rep.agrees (R : Rep v xs) : Agrees v xs :=
  ⟨R.size_eq, fun i => R.apply_eq i.isLt, fun _ h => R.pairs_eq h, fun _ h => R.keys_eq h,
    fun _ h => R.values_eq h⟩

/-- The result is the list's, or there is an error where there is one on the list. -/
def Follows (r : Option (Vec A)) (s : Option (List A)) : Prop :=
  match s with
  | none => r = none
  | some xs => ∃ v, r = some v ∧ (xs.length ≤ maxLength → Rep v xs)

/-- A result under a guard. -/
theorem follows_ite {c : Prop} [Decidable c] {r : Option (Vec A)}
    (hyes : c → ∃ v, r = some v ∧ (xs.length ≤ maxLength → Rep v xs)) (hno : ¬ c → r = none) :
    Follows r (if c then some xs else none) := by
  split
  · next h => exact hyes h
  · next h => exact hno h

/-- **One operation** does what it does on the list. -/
theorem Rep.exec (R : Rep v xs) (op : Op A) : Follows (op.exec v) (op.onList xs) := by
  cases op with
  | push a => exact ⟨_, rfl, (R.push a).2⟩
  | pop =>
    rw [Op.onList, ← ite_not]
    refine follows_ite (fun hne => ?_) fun hnil => R.pop.2 (not_not.1 hnil)
    obtain ⟨v', hrun, R'⟩ := R.pop.1 hne
    exact ⟨v', hrun, fun _ => R'⟩
  | update i a =>
    refine follows_ite (fun hi => ?_) fun hi => (R.update i.isLt a).2 (by omega)
    obtain ⟨v', hrun, R'⟩ := (R.update i.isLt a).1 hi
    exact ⟨v', hrun, fun _ => R'⟩
  | insert i a =>
    exact follows_ite (R.insert i a).1 fun hi => (R.insert i a).2 (by omega)
  | delete i =>
    refine follows_ite (fun hi => ?_) fun hi => (R.delete i).2 (by omega)
    obtain ⟨v', hrun, R'⟩ := (R.delete i).1 hi
    exact ⟨v', hrun, fun _ => R'⟩
  | concat iter => exact ⟨_, rfl, R.concat iter⟩

/-- An operation whose result is not too long keeps every tail that is full. -/
theorem Rep.keepsTail (R : Rep v xs) {op : Op A} {xs' : List A} (h : op.onList xs = some xs')
    (hb : xs'.length ≤ maxLength) : op.KeepsTail v := by
  cases op with
  | push a => exact (R.push a).1
  | insert i a =>
    intro vec last hrun
    by_cases hi : (i : Nat) < xs.length
    · obtain ⟨vec₁, hrun₁, W⟩ := insertLoop_spec (a := a) R R rfl
        (show (i : Nat) + (v.size - i) = xs.length by rw [R.size_eq]; omega)
      rw [hrun] at hrun₁
      cases hrun₁
      exact (W.push last).1
    · rw [Op.onList, if_neg hi] at h
      cases h
  | concat iter =>
    rintro as a bs rfl
    cases h
    rw [length_append, length_append] at hb
    exact ((R.concat as (by rw [length_append]; omega)).push a).1
  | pop | update i a | delete i => trivial

end

/-- The lists that a run makes are there from then on. -/
theorem mem_versionsOf_of_start {S : Type} {exec : Op A → S → Option S} {create s : S}
    {steps : List (Nat × Op A)} (step : Nat × Op A) (hs : s ∈ versionsOf exec create steps) :
    s ∈ versionsOf exec create (steps ++ [step]) := by
  rw [versionsOf, foldl_append, foldl_cons, foldl_nil, stepOn]
  split
  · exact mem_append_left _ hs
  · exact hs

/-- Every version is the list that the same steps make. -/
theorem versions_rep {steps : List (Nat × Op A)}
    (hb : ∀ xs ∈ versionsOf Op.onList [] steps, xs.length ≤ maxLength) :
    List.Forall₂ Rep (versionsOf Op.exec {} steps) (versionsOf Op.onList [] steps) := by
  induction steps using reverseRecOn with
  | nil => exact .cons rep_create .nil
  | append_singleton steps step ih =>
    have F := ih fun xs hxs => hb xs (mem_versionsOf_of_start step hxs)
    have hb' := hb
    simp only [versionsOf, foldl_append, foldl_cons, foldl_nil] at F hb' ⊢
    generalize steps.foldl (stepOn Op.exec) [{}] = vs at F ⊢
    generalize steps.foldl (stepOn Op.onList) [[]] = ls at F hb' ⊢
    obtain ⟨k, op⟩ := step
    have hlen := F.length_eq
    rw [stepOn] at hb' ⊢
    rw [stepOn]
    by_cases hk : k < ls.length
    · have hkv : k < vs.length := by omega
      have R : Rep vs[k] ls[k] := forall₂_iff_get.1 F |>.2 k hkv hk
      have hexec := R.exec op
      rw [getElem?_eq_getElem hk, bind_some] at hb' ⊢
      rw [getElem?_eq_getElem hkv, bind_some]
      cases hop : op.onList ls[k] with
      | none =>
        rw [hop] at hexec
        rw [hexec]
        exact F
      | some xs' =>
        rw [hop] at hexec hb'
        obtain ⟨v', hv', hR⟩ := hexec
        rw [hv']
        have hmem : xs' ∈ ls ++ [xs'] := mem_append_right _ (.head _)
        exact rel_append F (.cons (hR (hb' xs' hmem)) .nil)
    · rw [getElem?_eq_none (by omega), getElem?_eq_none (by omega)]
      exact F

/-- **A persistent vector is a sequence**: after any steps every version, the earlier ones included,
agrees with the list that the same operations make, and no operation on it drops a full tail. -/
theorem vec_is_sequence (steps : List (Nat × Op A))
    (hb : ∀ xs ∈ versionsOf Op.onList [] steps, xs.length ≤ maxLength) :
    List.Forall₂ Agrees (versionsOf Op.exec {} steps) (versionsOf Op.onList [] steps) ∧
      ∀ (k : Nat) (v : Vec A) (xs : List A), (versionsOf Op.exec {} steps)[k]? = some v →
        (versionsOf Op.onList [] steps)[k]? = some xs →
          ∀ (op : Op A) (xs' : List A), op.onList xs = some xs' → xs'.length ≤ maxLength →
            op.KeepsTail v := by
  have F := versions_rep hb
  refine ⟨F.imp fun _ _ R => R.agrees, fun k v xs hv hxs op xs' hop hlen => ?_⟩
  obtain ⟨hkv, rfl⟩ := List.getElem?_eq_some_iff.1 hv
  obtain ⟨hk, rfl⟩ := List.getElem?_eq_some_iff.1 hxs
  exact (List.forall₂_iff_get.1 F |>.2 k hkv hk).keepsTail hop hlen

/-- A pop and an insertion, both of the version that has sixty-six values. -/
theorem four_versions_agree : List.Forall₂ Agrees
      (versionsOf Op.exec {} [(0, .concat (range 66)), (1, .pop), (1, .insert ⟨2, by decide⟩ 7)])
      [[], range 66, range 65, (range 66).insertIdx 2 7] :=
  (vec_is_sequence [(0, .concat (range 66)), (1, .pop), (1, .insert ⟨2, by decide⟩ 7)]
    (by decide)).1

end Vec

end SpacePony.Persistent
