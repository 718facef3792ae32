import SpacePony.Packages.Collections.HashMap

/-!
# Packages — collections — searching the hash map

When enough cells are free, `_search` finds the entry of the key, or the first free slot for it;
either way inside the array (`search_spec`).
-/

namespace SpacePony.Collections

open Nat Probing

variable {K V : Type}

namespace HashMap

/-- The slot of round `j` among `n`, for a key of hash `h`. -/
def probe (n h : Nat) : Nat → Nat
  | 0 => h % n
  | j + 1 => (h + triangle j) % n

theorem probe_lt {n : Nat} (hn : 0 < n) (h j : Nat) : probe n h j < n := by
  cases j with
  | zero | succ j => exact mod_lt _ hn

/-- The slot after round `i` is that of round `i + 1`. -/
theorem nextIdx_eq {k : Nat} (hk : k ≤ 63) (h i : Nat) :
    nextIdx h (2 ^ k - 1) i = probe (2 ^ k) h (i + 1) := by
  have hdvd : 2 ^ k ∣ usize := pow_dvd_pow 2 (by omega)
  have hdvd' : 2 ^ k ∣ 2 ^ 63 := pow_dvd_pow 2 hk
  have hhalf : (i + i * i % usize) % usize / 2 ≡ triangle i [MOD 2 ^ k] := by
    have e : (i + i * i % usize) % usize = (i + i * i) % (2 ^ 63 * 2) := by
      rw [add_mod_mod]
      rfl
    rw [e, mod_mul_left_div_self]
    exact (mod_modEq _ _).of_dvd hdvd'
  rw [nextIdx, and_two_pow_sub_one_eq_mod, mod_mod_of_dvd _ hdvd]
  exact hhalf.add_left h

/-- The array is a power of two, every entry is at one of its own slots, and keys are different. -/
structure Sound (H : HashFunction K) (array : List (Cell (K × V))) : Prop where
  pow : ∃ k, 3 ≤ k ∧ k ≤ 60 ∧ array.length = 2 ^ k
  placed : Placed (fun e => probe array.length (H.hash e.1).toNat) array
  keys : (elems array).Pairwise fun a b => H.eq a.1 b.1 = false

/-- The slot `i` is where the key goes: free, and at its turn among the slots of the key. -/
structure Vacant (H : HashFunction K) (array : List (Cell (K × V))) (key : K) (i : Nat) : Prop where
  free : array[i]? = some .empty ∨ array[i]? = some .deleted
  slot : ∃ j < array.length, probe array.length (H.hash key).toNat j = i ∧
    ∀ j' < j, array[probe array.length (H.hash key).toNat j']? ≠ some .empty
  absent : ∀ e ∈ elems array, H.eq e.1 key = false

section
variable {H : HashFunction K} {array : List (Cell (K × V))} {key : K}

/-- No slot before round `i` has ended the search. -/
def Passed (H : HashFunction K) (array : List (Cell (K × V))) (key : K) (i : Nat) : Prop :=
  ∀ j < i, array[probe array.length (H.hash key).toNat j]? = some .deleted ∨
    ∃ e, array[probe array.length (H.hash key).toNat j]? = some (.full e) ∧ H.eq e.1 key = false

theorem Passed.ne_empty {i : Nat} (h : Passed H array key i) {j : Nat} (hj : j < i) :
    array[probe array.length (H.hash key).toNat j]? ≠ some .empty := by
  obtain hd | ⟨e, he, -⟩ := h j hj
  · simp [hd]
  · simp [he]

/-- A search that has passed all slots, or comes to an empty one, has missed no entry. -/
theorem Passed.absent {i : Nat} (L : H.Lawful) (S : Sound H array) (h : Passed H array key i)
    (hend : i = array.length ∨ array[probe array.length (H.hash key).toNat i]? = some .empty) :
    ∀ e ∈ elems array, H.eq e.1 key = false := by
  intro e he
  by_contra heq
  rw [Bool.not_eq_false] at heq
  obtain ⟨s, hs⟩ := mem_elems.1 he
  obtain ⟨j, hj, hjs, hne⟩ := S.placed s e hs
  simp only [L.hash _ _ heq] at hjs hne
  have hji : j < i := by
    obtain rfl | hi := hend
    · exact hj
    by_contra hle
    obtain hlt | rfl := Nat.lt_or_eq_of_le (Nat.le_of_not_lt hle)
    · exact hne i hlt hi
    · rw [hjs, hs] at hi
      cases hi
  rw [← hjs] at hs
  obtain hd | ⟨e', he', hf⟩ := h j hji
  · rw [hs] at hd
    cases hd
  rw [hs] at he'
  cases he'
  rw [heq] at hf
  cases hf

/-- What `idx_del` holds at round `i`: nothing yet, or the first deleted slot. -/
def Marked (H : HashFunction K) (array : List (Cell (K × V))) (key : K) (i idxDel : Nat) : Prop :=
  (idxDel = array.length ∧
    ∀ j < i, ∃ e, array[probe array.length (H.hash key).toNat j]? = some (.full e)) ∨
  ∃ j < i, probe array.length (H.hash key).toNat j = idxDel ∧ array[idxDel]? = some .deleted

theorem Passed.vacant_marked {i idxDel : Nat} (h : Passed H array key i) (hi : i ≤ array.length)
    (hM : ∃ j < i, probe array.length (H.hash key).toNat j = idxDel ∧
      array[idxDel]? = some .deleted)
    (habs : ∀ e ∈ elems array, H.eq e.1 key = false) : Vacant H array key idxDel := by
  obtain ⟨j, hj, hjd, hd⟩ := hM
  exact ⟨.inr hd, ⟨j, by omega, hjd, fun j' hj' => h.ne_empty (hj'.trans hj)⟩, habs⟩

/-- The outcome of a search. -/
def Outcome (H : HashFunction K) (array : List (Cell (K × V))) (key : K) (r : Nat × Bool) : Prop :=
  (r.2 = true ∧ ∃ e, array[r.1]? = some (.full e) ∧ H.eq e.1 key = true) ∨
  (r.2 = false ∧ Vacant H array key r.1)

/-- The probe finds the key's slot, or one that is free for it. -/
theorem searchLoop_spec (L : H.Lawful) (S : Sound H array)
    (hfree : (elems array).length + 2 ≤ array.length) {rounds i idxDel : Nat}
    (hr : i + rounds = array.length) (hP : Passed H array key i)
    (hM : Marked H array key i idxDel) :
    Outcome H array key (searchLoop H array key (H.hash key).toNat (array.length - 1) rounds i
      (probe array.length (H.hash key).toNat i) idxDel) := by
  obtain ⟨k, hk3, hk, hn⟩ := S.pow
  have hpos : 0 < array.length := hn ▸ Nat.two_pow_pos k
  have hnext : ∀ i, nextIdx (H.hash key).toNat (array.length - 1) i =
      probe array.length (H.hash key).toNat (i + 1) := fun i => by
    rw [hn]
    exact nextIdx_eq (by omega) _ _
  induction rounds generalizing i idxDel with
  | zero =>
    have hi : i = array.length := by omega
    rw [searchLoop]
    obtain ⟨-, hfull⟩ | hdel := hM
    · -- quadratic probing has met a free cell
      obtain ⟨j, hj, hne⟩ := exists_free hn (H.hash key).toNat hfree
      obtain ⟨e, he⟩ := hfull (j + 1) (by omega)
      exact absurd he (hne e)
    · exact .inr ⟨rfl, hP.vacant_marked hi.le hdel (hP.absent L S (.inl hi))⟩
  | succ rounds ih =>
    rw [searchLoop]
    have hlt := probe_lt hpos (H.hash key).toNat i
    obtain ⟨c, hc⟩ : ∃ c, array[probe array.length (H.hash key).toNat i]? = some c :=
      ⟨_, List.getElem?_eq_getElem hlt⟩
    rw [hc]
    cases c with
    | empty =>
      have habs := hP.absent L S (.inr hc)
      obtain ⟨rfl, -⟩ | hdel := hM
      · rw [if_neg (by omega)]
        exact .inr ⟨rfl, .inl hc, ⟨i, by omega, rfl, fun j hj => hP.ne_empty hj⟩, habs⟩
      have hle : idxDel ≤ array.length - 1 := by
        obtain ⟨j, -, hj, -⟩ := hdel
        have := probe_lt hpos (H.hash key).toNat j
        omega
      rw [if_pos hle]
      exact .inr ⟨rfl, hP.vacant_marked (by omega) hdel habs⟩
    | deleted =>
      rw [hnext]
      refine ih (by omega) (fun j hj => ?_) ?_
      · obtain hj | rfl := lt_or_eq_of_le (le_of_lt_succ hj)
        · exact hP j hj
        · exact .inl hc
      obtain ⟨rfl, -⟩ | ⟨j, hj, hjd, hd⟩ := hM
      · rw [if_pos (by omega)]
        exact .inr ⟨i, lt_succ_self i, rfl, hc⟩
      have := probe_lt hpos (H.hash key).toNat j
      rw [if_neg (by omega)]
      exact .inr ⟨j, by omega, hjd, hd⟩
    | full e =>
      dsimp only
      split_ifs with heq
      · exact .inl ⟨rfl, e, hc, heq⟩
      rw [hnext]
      refine ih (by omega) (fun j hj => ?_) ?_
      · obtain hj | rfl := lt_or_eq_of_le (le_of_lt_succ hj)
        · exact hP j hj
        · exact .inr ⟨e, hc, Bool.eq_false_iff.2 heq⟩
      obtain ⟨rfl, hfull⟩ | ⟨j, hj, hjd, hd⟩ := hM
      · refine .inl ⟨rfl, fun j hj => ?_⟩
        obtain hj | rfl := lt_or_eq_of_le (le_of_lt_succ hj)
        · exact hfull j hj
        · exact ⟨e, hc⟩
      · exact .inr ⟨j, by omega, hjd, hd⟩

/-- **`_search` finds the entry of the key, or the slot to put it at.** -/
theorem search_spec {m : HashMap K V} (L : H.Lawful) (S : Sound H m.array)
    (hfree : (elems m.array).length + 2 ≤ m.array.length) (key : K) :
    Outcome H m.array key (search H m key) := by
  obtain ⟨k, -, -, hn⟩ := S.pow
  have hstart : (H.hash key).toNat &&& (m.array.length - 1) =
      probe m.array.length (H.hash key).toNat 0 := by
    rw [hn, and_two_pow_sub_one_eq_mod]
    rfl
  rw [search, hstart]
  exact searchLoop_spec L S hfree (zero_add _) (fun j hj => absurd hj (not_lt_zero j))
    (.inl ⟨rfl, fun j hj => absurd hj (not_lt_zero j)⟩)

end

end HashMap

end SpacePony.Collections
