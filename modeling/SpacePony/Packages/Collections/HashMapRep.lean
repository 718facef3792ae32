import Mathlib.Data.Nat.Size
import SpacePony.Packages.Collections.HashMapSearch

/-!
# Packages — collections — the hash map holds a finite map

Resizing moves every entry and nothing else, and never resizes again while it does; it has a result
when the new array fits into memory (`grow_inv`, `resize_inv`).  The iterators yield the entries,
each once (`pairs_eq`).
-/

namespace SpacePony.Collections

open Nat List Probing

variable {K V : Type}

namespace HashMap

/-! ### Writing to a sound array -/

section
variable {H : HashFunction K} {array : List (Cell (K × V))} {key : K} {i : Nat}

theorem Sound.replicate {n : Nat} (h : ∃ k, 3 ≤ k ∧ k ≤ 60 ∧ n = 2 ^ k) :
    Sound H (replicate n (.empty : Cell (K × V))) := by
  refine ⟨by rwa [length_replicate], placed_replicate n, ?_⟩
  rw [elems_replicate]
  exact List.Pairwise.nil

theorem Vacant.lt (hv : Vacant H array key i) : i < array.length := by
  obtain h | h := hv.free <;> exact (List.getElem?_eq_some_iff.1 h).1

/-- A new entry is added at the slot of its key. -/
theorem Vacant.elems_perm (hv : Vacant H array key i) (value : V) :
    (elems (array.set i (.full (key, value)))).Perm ((key, value) :: elems array) := by
  refine (elems_set_perm _ hv.lt).trans (List.Perm.cons _ ?_)
  obtain h | h := hv.free <;> exact (Probing.elems_perm h).symm

theorem Vacant.sound (L : H.Lawful) (S : Sound H array) (hv : Vacant H array key i) (value : V) :
    Sound H (array.set i (.full (key, value))) := by
  refine ⟨by rw [length_set]; exact S.pow, ?_, ?_⟩
  · rw [length_set]
    refine S.placed.set (by simp) fun a ha => ?_
    cases ha
    exact hv.slot
  refine Distinct.perm L (pairwise_cons.2 ⟨fun e he => ?_, S.keys⟩) (hv.elems_perm value).symm
  rw [Bool.eq_false_iff]
  intro h
  have := hv.absent e he
  rw [L.symm _ _ h] at this
  cases this

/-- The entry of a key is replaced by another of that key. -/
theorem Sound.replace (L : H.Lawful) (S : Sound H array) {e e' : K × V}
    (h : array[i]? = some (.full e)) (hk : H.eq e'.1 e.1 = true) :
    Sound H (array.set i (.full e')) := by
  have hlt : i < array.length := (List.getElem?_eq_some_iff.1 h).1
  refine ⟨by rw [length_set]; exact S.pow, ?_, ?_⟩
  · rw [length_set]
    refine S.placed.set (by simp) fun a ha => ?_
    cases ha
    rw [L.hash _ _ hk]
    exact S.placed i e h
  obtain ⟨he, hr⟩ := List.pairwise_cons.1 (Distinct.perm L S.keys (Probing.elems_perm h))
  refine Distinct.perm L (List.pairwise_cons.2 ⟨fun a ha => ?_, hr⟩)
    (elems_set_perm (.full e') hlt).symm
  rw [L.eq_left hk]
  exact he a ha

/-- An entry is deleted. -/
theorem Sound.delete (L : H.Lawful) (S : Sound H array) {e : K × V}
    (h : array[i]? = some (.full e)) : Sound H (array.set i .deleted) := by
  have hlt : i < array.length := (List.getElem?_eq_some_iff.1 h).1
  refine ⟨by rw [length_set]; exact S.pow, ?_, ?_⟩
  · rw [length_set]
    exact S.placed.set (by simp) fun a ha => by cases ha
  · obtain ⟨-, hr⟩ := List.pairwise_cons.1 (Distinct.perm L S.keys (Probing.elems_perm h))
    exact Distinct.perm L hr (elems_set_perm .deleted hlt).symm

end

/-! ### The invariant -/

/-- The array is sound, it has as many entries as the size says, and at most three quarters of it
are full. -/
structure Inv (H : HashFunction K) (m : HashMap K V) : Prop where
  sound : Sound H m.array
  size : m.size = (elems m.array).length
  load : m.size * 4 ≤ m.array.length * 3

/-- The finite map that a hash map holds. -/
def denote (H : HashFunction K) (m : HashMap K V) : K → Option V := lookup H (elems m.array)

section
variable {H : HashFunction K} {m : HashMap K V}

theorem Sound.eight_le {array : List (Cell (K × V))} (S : Sound H array) : 8 ≤ array.length := by
  obtain ⟨k, hk, -, hn⟩ := S.pow
  rw [hn]
  exact Nat.pow_le_pow_right (n := 2) (by omega) hk

theorem Inv.free (I : Inv H m) : (elems m.array).length + 2 ≤ m.array.length := by
  have h8 := I.sound.eight_le
  have hs := I.size
  have hl := I.load
  omega

theorem Inv.search (L : H.Lawful) (I : Inv H m) (key : K) :
    Outcome H m.array key (search H m key) := search_spec L I.sound I.free key

theorem Inv.distinct (I : Inv H m) : Distinct H (elems m.array) := I.sound.keys

theorem Inv.empty {n : Nat} (h : ∃ k, 3 ≤ k ∧ k ≤ 60 ∧ n = 2 ^ k) :
    Inv H ({ size := 0, array := replicate n .empty } : HashMap K V) :=
  ⟨Sound.replicate h, by rw [elems_replicate]; rfl, by simp⟩

theorem denote_empty (n : Nat) :
    denote H ({ size := 0, array := replicate n .empty } : HashMap K V) = fun _ => none := by
  rw [denote, elems_replicate]
  rfl

end

/-! ### Resizing -/

/-- The map `m'` has the entries of `m`. -/
def Moved (H : HashFunction K) (m m' : HashMap K V) : Prop :=
  Inv H m' ∧ (elems m'.array).Perm (elems m.array)

section
variable {H : HashFunction K} {m : HashMap K V} {len : Nat}

/-- An update that adds a key, and leaves enough free cells, does not resize. -/
theorem updateWith_absent (L : H.Lawful) (I : Inv H m) {e : K × V}
    (habs : ∀ a ∈ elems m.array, H.eq a.1 e.1 = false)
    (hload : (m.size + 1) * 4 ≤ m.array.length * 3) :
    ∃ m', (∀ R, updateWith H R m e.1 e.2 = some (none, m')) ∧ Inv H m' ∧
      m'.array.length = m.array.length ∧ (elems m'.array).Perm (e :: elems m.array) := by
  obtain ⟨-, a, ha, hk⟩ | ⟨-, hv⟩ := I.search L e.1
  · have := habs a (mem_elems.2 ⟨_, ha⟩)
    rw [hk] at this
    cases this
  have hperm := hv.elems_perm e.2
  refine ⟨{ size := m.size + 1, array := m.array.set (search H m e.1).1 (.full e) }, fun R => ?_,
    ⟨hv.sound L I.sound e.2, ?_, ?_⟩, length_set, hperm⟩
  · have hlt : ¬ m.array.length * 3 < (m.size + 1) * 4 := by omega
    rw [updateWith]
    obtain h | h := hv.free <;> simp [h, grow, write, hlt]
  · rw [hperm.length_eq, length_cons, ← I.size]
  · rwa [length_set]

/-- The loop of `_resize`, when there is room for all that is to come. -/
theorem foldlM_updateWith (L : H.Lawful) (I : Inv H m) {l : List (K × V)}
    (hd : Distinct H (elems m.array ++ l)) (hload : (m.size + l.length) * 4 ≤ m.array.length * 3) :
    ∃ m', (∀ R, l.foldlM (fun m e => (updateWith H R m e.1 e.2).map Prod.snd) m = some m') ∧
      Inv H m' ∧ (elems m'.array).Perm (elems m.array ++ l) ∧
      m'.array.length = m.array.length := by
  induction l generalizing m with
  | nil => exact ⟨m, fun _ => rfl, I, by simp, rfl⟩
  | cons e l ih =>
    rw [length_cons] at hload
    obtain ⟨-, -, hcross⟩ := pairwise_append.1 hd
    obtain ⟨m₁, e₁, I₁, hlen, hp₁⟩ := updateWith_absent L I
      (fun a ha => hcross a ha e (.head _)) (by omega)
    have hp : (elems m₁.array ++ l).Perm (elems m.array ++ e :: l) :=
      (hp₁.append_right l).trans perm_middle.symm
    have hsize : m₁.size = m.size + 1 := by rw [I₁.size, hp₁.length_eq, length_cons, I.size]
    obtain ⟨m', e', I', hp', hlen'⟩ := ih I₁ (hd.perm L hp.symm) (by rw [hsize, hlen]; omega)
    refine ⟨m', fun R => ?_, I', hp'.trans hp, hlen'.trans hlen⟩
    rw [foldlM_cons, e₁]
    exact e' R

section
variable (L : H.Lawful) (hd : Distinct H (elems m.array)) (hlen : ∃ k, 3 ≤ k ∧ len = 2 ^ k)
  (hload : (elems m.array).length * 4 ≤ len * 3)
include L hd hlen hload

theorem resizeWith_spec (hmem : 8 * len < usize) :
    ∃ m', (∀ R, resizeWith (updateWith H R) m len = some m') ∧ Moved H m m' ∧
      m'.array.length = len := by
  have hpow : ∃ k, 3 ≤ k ∧ k ≤ 60 ∧ len = 2 ^ k := by
    obtain ⟨k, h3, rfl⟩ := hlen
    refine ⟨k, h3, ?_, rfl⟩
    by_contra hk
    have : 2 ^ 61 ≤ 2 ^ k := Nat.pow_le_pow_right (by omega) (by omega)
    have hu : usize = 8 * 2 ^ 61 := rfl
    omega
  obtain ⟨m', e, I, hp, hl⟩ := foldlM_updateWith L (Inv.empty (V := V) hpow) (l := elems m.array)
    (by rwa [elems_replicate]) (by rw [length_replicate, Nat.zero_add]; exact hload)
  rw [elems_replicate] at hp
  refine ⟨m', fun R => ?_, ⟨I, hp⟩, hl.trans length_replicate⟩
  rw [resizeWith, init, if_pos hmem]
  exact e R

/-- **`_resize` moves every entry**, and its result does not depend on how deep it may go. -/
theorem resize_spec (hmem : 8 * len < usize) :
    ∃ m', (∀ depth, resize H (depth + 1) m len = some m') ∧ Moved H m m' ∧
      m'.array.length = len := by
  obtain ⟨m', e, h⟩ := resizeWith_spec L hd hlen hload hmem
  exact ⟨m', fun depth => e _, h⟩

/-- A `_resize` that ends has moved every binding into an array of the new length. -/
theorem resize_inv {depth : Nat} {m' : HashMap K V} (e : resize H depth m len = some m') :
    Moved H m m' ∧ m'.array.length = len := by
  cases depth with
  | zero => cases e
  | succ depth =>
    have hmem : 8 * len < usize := by
      by_contra h
      rw [resize, resizeWith, init, if_neg h] at e
      cases e
    obtain ⟨m'', e', h⟩ := resize_spec L hd hlen hload hmem
    rw [e'] at e
    cases e
    exact h

end

/-- An entry has just been written to the map, and is not counted yet. -/
structure Pending (H : HashFunction K) (m : HashMap K V) : Prop where
  sound : Sound H m.array
  size : m.size + 1 = (elems m.array).length
  load : m.size * 4 ≤ m.array.length * 3

theorem Vacant.pending (L : H.Lawful) (I : Inv H m) {key : K} {i : Nat}
    (hv : Vacant H m.array key i) (value : V) : Pending H (m.write i key value) := by
  refine ⟨hv.sound L I.sound value, ?_, ?_⟩
  · rw [write, (hv.elems_perm value).length_eq, length_cons, I.size]
  · rw [write, length_set]
    exact I.load

theorem Pending.double (P : Pending H m) : ∃ k, 3 ≤ k ∧ m.array.length * 2 = 2 ^ k := by
  obtain ⟨k, hk, -, hn⟩ := P.sound.pow
  exact ⟨k + 1, by omega, by rw [hn, pow_succ]⟩

theorem Pending.double_load (P : Pending H m) :
    (elems m.array).length * 4 ≤ m.array.length * 2 * 3 := by
  have := P.size
  have := P.load
  have := P.sound.eight_le
  omega

/-- What an insertion leaves: the entries, in an array that has grown no more than it must. -/
structure Grown (H : HashFunction K) (m m' : HashMap K V) : Prop where
  moved : Moved H m m'
  space : m'.array.length ≤ max m.array.length (3 * (m.size + 1))

/-- Growing settles a map that waits for it, and keeps its bindings. -/
theorem grow_inv (L : H.Lawful) (P : Pending H m) {depth : Nat} {m' : HashMap K V}
    (e : grow (resize H depth) m = some m') : Grown H m m' := by
  rw [grow] at e
  dsimp only at e
  split_ifs at e with h
  · obtain ⟨hm, hlen⟩ := resize_inv (m := { m with size := m.size + 1 }) L P.sound.keys P.double
      P.double_load e
    exact ⟨hm, by rw [hlen]; omega⟩
  · cases e
    exact ⟨⟨⟨P.sound, P.size, by dsimp only; omega⟩, .refl _⟩, le_max_left _ _⟩

/-- An insertion that does not resize changes the size only. -/
theorem grow_stay (R : HashMap K V → Nat → Option (HashMap K V))
    (h : (m.size + 1) * 4 ≤ m.array.length * 3) :
    grow R m = some { m with size := m.size + 1 } := by
  rw [grow]
  dsimp only
  rw [if_neg (by omega)]

/-- An insertion has a result when the array it may need fits into memory. -/
theorem grow_some (L : H.Lawful) (P : Pending H m)
    (hmem : 8 * max m.array.length (3 * (m.size + 1)) < usize) :
    ∃ m', ∀ depth, grow (resize H (depth + 1)) m = some m' := by
  by_cases h : m.array.length * 3 < (m.size + 1) * 4
  · obtain ⟨m', e, -⟩ := resize_spec (m := { m with size := m.size + 1 }) L P.sound.keys P.double
      P.double_load (by omega)
    refine ⟨m', fun depth => ?_⟩
    rw [grow]
    rw [if_pos h]
    exact e depth
  · exact ⟨_, fun depth => grow_stay _ (by omega)⟩

end

/-! ### Sizes -/

theorem nextPow2_spec (x : Nat) : ∃ k, nextPow2 x = 2 ^ k ∧ (x ≤ 2 ^ 63 → x ≤ 2 ^ k) := by
  rw [nextPow2]
  refine ⟨_, one_shiftLeft _, fun hx => ?_⟩
  cases x with
  | zero => exact zero_le _
  | succ y =>
    have hu : usize = 2 ^ 64 := rfl
    have hy : (y + 1 + (usize - 1)) % usize = y := by
      rw [show y + 1 + (usize - 1) = y + usize by omega, add_mod_right, mod_eq_of_lt (by omega)]
    have hsize : y.size ≤ 63 := size_le.2 (by omega)
    have hlt : y < 2 ^ y.size := lt_size_self y
    rw [hy, if_neg (by omega), show 64 - (64 - y.size) = y.size by omega]
    omega

/-- The space that `create` and `clone` ask for. -/
theorem create_pow (prealloc : Nat) :
    ∃ k, 3 ≤ k ∧ nextPow2 (max (prealloc * 4 % usize / 3) 8) = 2 ^ k := by
  have hu : usize = 2 ^ 64 := rfl
  have hlt : prealloc * 4 % usize < usize := mod_lt _ (by omega)
  obtain ⟨k, hk, hle⟩ := nextPow2_spec (max (prealloc * 4 % usize / 3) 8)
  refine ⟨k, ?_, hk⟩
  have h8 : 2 ^ 3 ≤ 2 ^ k := le_trans (le_max_right _ _) (hle (by omega))
  exact (Nat.pow_le_pow_iff_right (by omega)).1 h8

/-- The space that `compact` asks for is enough. -/
theorem compact_pow {size : Nat} (h : size ≤ 2 ^ 60) :
    ∃ k, 3 ≤ k ∧ max (nextPow2 (size * 4 / 3)) 8 = 2 ^ k ∧ size * 4 ≤ 2 ^ k * 3 := by
  obtain ⟨k, hk, hle⟩ := nextPow2_spec (size * 4 / 3)
  have hle := hle (by omega)
  have hmax : max (2 ^ k) (2 ^ 3) = 2 ^ max k 3 :=
    (Monotone.map_max (pow_right_mono₀ (one_le_two : (1 : Nat) ≤ 2))).symm
  refine ⟨max k 3, le_max_right _ _, by rw [hk]; exact hmax, ?_⟩
  -- both sides are multiples of four, and differ by less
  obtain ⟨q, hq⟩ : 4 ∣ 2 ^ max k 3 := pow_dvd_pow 2 (show 2 ≤ max k 3 by omega)
  omega

section
variable {H : HashFunction K} {m m' : HashMap K V}

theorem init_eq_some {len : Nat} {array : List (Cell (K × V))} (e : init len = some array) :
    8 * len < usize ∧ array = replicate len .empty := by
  rw [init] at e
  split_ifs at e with h
  exact ⟨h, (Option.some.inj e).symm⟩

/-- A new map is empty, the length of its array a power of two. -/
theorem create_inv {prealloc : Nat} (e : create prealloc = some m) :
    Inv H m ∧ denote H m = (fun _ => none) ∧ m.size = 0 ∧
      m.array.length = nextPow2 (max (prealloc * 4 % usize / 3) 8) := by
  rw [create] at e
  simp only [Option.bind_eq_bind, Option.bind_eq_some_iff] at e
  obtain ⟨array, ha, e⟩ := e
  obtain ⟨hmem, hr⟩ := init_eq_some ha
  obtain ⟨k, hk, hn⟩ := create_pow prealloc
  generalize nextPow2 (max (prealloc * 4 % usize / 3) 8) = n at *
  subst hr
  cases e
  refine ⟨Inv.empty ⟨k, hk, ?_, hn⟩, denote_empty _, rfl, length_replicate⟩
  by_contra h
  have : 2 ^ 61 ≤ 2 ^ k := Nat.pow_le_pow_right (by omega) (by omega)
  have hu : usize = 8 * 2 ^ 61 := rfl
  omega

theorem Inv.length_le (I : Inv H m) : m.array.length ≤ 2 ^ 60 := by
  obtain ⟨k, -, hk, hn⟩ := I.sound.pow
  rw [hn]
  exact Nat.pow_le_pow_right (by omega) hk

theorem Inv.size_le (I : Inv H m) : m.size ≤ 2 ^ 60 := by
  have := I.length_le
  have := I.load
  omega

/-! ### The iterators -/

/-- The next slot that is populated, from the slot `start` on. -/
theorem find_range' {rest : List (K × V)} {e : K × V} (n start : Nat)
    (hn : m.array.length - start = n) (h : elems (m.array.drop start) = e :: rest) :
    ∃ i, (range' start n).find? (fun i => (m.index i).isSome) = some i ∧
      m.index i = some e ∧ elems (m.array.drop (i + 1)) = rest ∧ i < m.array.length := by
  induction n generalizing start with
  | zero =>
    rw [drop_eq_nil_of_le (by omega)] at h
    cases h
  | succ n ih =>
    have hlt : start < m.array.length := by omega
    have hidx : m.index start = m.array[start].elem? := by
      rw [index, getElem?_eq_getElem hlt]
      rfl
    rw [range'_succ, find?_cons, hidx]
    rw [drop_eq_getElem_cons hlt, elems, filterMap_cons] at h
    cases hc : m.array[start].elem? with
    | none =>
      rw [hc] at h
      exact ih (start + 1) (by omega) h
    | some a =>
      rw [hc] at h
      obtain ⟨rfl, hrest⟩ := cons.inj h
      exact ⟨start, rfl, hidx.trans hc, hrest, hlt⟩

theorem run_eq (hlen : m.array.length < usize) (it : MapPairs) (rounds : Nat)
    (hr : it.count + rounds = m.size)
    (hrest : (elems (m.array.drop ((it.i + 1) % usize))).length = rounds) :
    MapPairs.run m rounds it = elems (m.array.drop ((it.i + 1) % usize)) := by
  induction rounds generalizing it with
  | zero => rw [eq_nil_of_length_eq_zero hrest]; rfl
  | succ rounds ih =>
    obtain ⟨e, rest, h⟩ := exists_cons_of_length_eq_add_one hrest
    obtain ⟨i, hfind, hidx, hdrop, hi⟩ := find_range' _ _ rfl h
    have hnext : it.next m = some (e, { i := i, count := it.count + 1 }) := by
      simp [MapPairs.next, nextIndex, hfind, hidx]
    have hmod : (i + 1) % usize = i + 1 := mod_eq_of_lt (by omega)
    have hhas : it.hasNext m = true := by
      rw [MapPairs.hasNext, decide_eq_true_iff]
      omega
    rw [MapPairs.run, if_pos hhas, hnext, h]
    dsimp only
    rw [ih { i := i, count := it.count + 1 } (by dsimp only; omega), hmod, hdrop]
    rw [hmod, hdrop]
    rw [h] at hrest
    exact succ.inj hrest

/-- **The iterators yield the entries**, each once and in the order of their slots. -/
theorem pairs_eq (I : Inv H m) : m.pairs = elems m.array := by
  have hu : usize = 2 ^ 64 := rfl
  have hlen : m.array.length < usize := by
    have := I.length_le
    omega
  have hstart : (usize - 1 + 1) % usize = 0 := by decide
  have h := run_eq hlen {} m.size (zero_add _) (by rw [hstart, I.size]; rfl)
  rwa [hstart] at h

end

end HashMap

end SpacePony.Collections
