import Mathlib.Algebra.BigOperators.Group.Finset.Basic
import Mathlib.Algebra.Order.BigOperators.Group.Finset
import Mathlib.Data.Nat.ModEq
import Mathlib.Logic.Function.Basic
import Mathlib.Tactic

/-!
# Support — Robin Hood tables

A table of `n` slots in a circle, each empty or holding an element, with linear probing: an
element belongs at its home slot `hash a % n`, and its probe length `dist a i` is how far slot
`i` is from there.  The Robin Hood order says that probe lengths grow by at most one from a slot
to the next (`Ordered`): an element away from home follows an element at least as far from its
own home, less one.

* `Ordered.run`: from an element back to its home every slot is taken, by elements at least as
  displaced as a probe for it would be.  So a probe that meets an empty slot, or an element less
  displaced than itself, will find nothing further on (`Ordered.not_mem_of_stop`).
* `Ordered.place`: an insertion that evicts the less displaced element, or takes an empty slot,
  keeps the order.
* `Settled`: every probe from an element's home to the element goes on.  A table with holes that is
  settled is ordered (`Settled.ordered`).
-/

namespace SpacePony.RobinHood

open Nat Finset Option List
open Function (update update_of_ne update_self)

variable {α : Type}

/-- The slot `j` steps after the home slot of hash `h`. -/
def slot (n h j : Nat) : Nat := (h % n + j) % n

section
variable (n : Nat) (hash : α → Nat)

/-- How far slot `i` is from the home of `a`. -/
def dist (a : α) (i : Nat) : Nat := (i + n - hash a % n) % n

/-- Probe lengths grow by at most one from a slot to the next. -/
def Ordered (T : Nat → Option α) : Prop :=
  ∀ i < n, ∀ a, T ((i + 1) % n) = some a → 0 < dist n hash a ((i + 1) % n) →
    ∃ b, T i = some b ∧ dist n hash a ((i + 1) % n) ≤ dist n hash b i + 1

/-- A probe of length `j` from home `h` goes no further: the slot is empty, or its element is
less displaced. -/
def Stop (T : Nat → Option α) (h j : Nat) : Prop :=
  ∀ b, T (slot n h j) = some b → dist n hash b (slot n h j) < j

end

variable {i : Nat} {a : α}

section
variable {n : Nat} {hash : α → Nat} {T : Nat → Option α}

theorem slot_lt (hn : 0 < n) (h j : Nat) : slot n h j < n := mod_lt _ hn

theorem dist_lt (hash : α → Nat) (hn : 0 < n) (a : α) (i : Nat) : dist n hash a i < n := mod_lt _ hn

theorem slot_succ (h j : Nat) : (slot n h j + 1) % n = slot n h (j + 1) := by
  rw [slot, slot, mod_add_mod, add_assoc]

theorem slot_add (h j k : Nat) : (slot n h j + k) % n = slot n h (j + k) := by
  rw [slot, slot, mod_add_mod, add_assoc]

theorem slot_dist (hash : α → Nat) (hn : 0 < n) (a : α) (hi : i < n) :
    slot n (hash a) (dist n hash a i) = i := by
  have hle : hash a % n ≤ i + n := ((Nat.mod_lt _ hn).le).trans (Nat.le_add_left _ _)
  rw [slot, dist, Nat.add_mod_mod, Nat.add_sub_cancel' hle, Nat.add_mod_right, Nat.mod_eq_of_lt hi]

variable {j : Nat}

theorem slot_inj {h k : Nat} (hj : j < n) (hk : k < n) (e : slot n h j = slot n h k) : j = k := by
  have : j ≡ k [MOD n] := Nat.ModEq.add_left_cancel' _ e
  rwa [Nat.ModEq, mod_eq_of_lt hj, mod_eq_of_lt hk] at this

theorem dist_slot (hash : α → Nat) (hn : 0 < n) (a : α) (hj : j < n) :
    dist n hash a (slot n (hash a) j) = j :=
  slot_inj (dist_lt hash hn a _) hj (slot_dist hash hn a (slot_lt hn _ _))

theorem dist_succ (hash : α → Nat) (hn : 0 < n) (a : α) (hi : i < n)
    (h : 0 < dist n hash a ((i + 1) % n)) : dist n hash a ((i + 1) % n) = dist n hash a i + 1 := by
  by_cases hd : dist n hash a i + 1 < n
  · refine slot_inj (h := hash a) (dist_lt hash hn a _) hd ?_
    rw [slot_dist hash hn a (mod_lt _ hn), ← slot_succ, slot_dist hash hn a hi]
  -- one step past the last probe length is home again
  have hlt : dist n hash a i < n := dist_lt hash hn a i
  have e : dist n hash a i + 1 = n := by omega
  have : (i + 1) % n = slot n (hash a) 0 := by
    rw [← slot_dist hash hn a hi, slot_succ, e, slot, slot, add_mod_right, add_zero]
  rw [this, dist_slot hash hn a hn] at h
  exact absurd h (lt_irrefl 0)

/-- Every slot is some number of steps after any other. -/
theorem exists_slot (hn : 0 < n) (h : Nat) (hi : i < n) : ∃ j < n, slot n h j = i :=
  ⟨_, dist_lt id hn h i, slot_dist id hn h hi⟩

/-! ### Searching -/

/-- **The run before an element.**  Every slot from an element's home to the element is taken,
by an element at least as displaced as the probe that reaches it. -/
theorem Ordered.run (hT : Ordered n hash T) (hn : 0 < n) (hi : i < n) (ha : T i = some a)
    (hj : j ≤ dist n hash a i) :
    ∃ b, T (slot n (hash a) j) = some b ∧ j ≤ dist n hash b (slot n (hash a) j) := by
  -- by induction on how far `j` is from the element, walking back
  obtain ⟨k, hk⟩ := Nat.exists_eq_add_of_le hj
  induction k generalizing j with
  | zero =>
    have e : slot n (hash a) j = i := by rw [← slot_dist hash hn a hi, hk, Nat.add_zero]
    exact ⟨a, by rw [e]; exact ha, by rw [e, hk, Nat.add_zero]⟩
  | succ k ih =>
    obtain ⟨b, hb, hd⟩ := ih (j := j + 1) (by omega) (by omega)
    rw [← slot_succ] at hb hd
    obtain ⟨c, hc, hle⟩ := hT _ (slot_lt hn _ _) b hb (by omega)
    exact ⟨c, hc, by omega⟩

/-- **A probe may stop.**  When the probe of length `p` for hash `h` stops, no element of that
hash lies at `p` steps or more from home. -/
theorem Ordered.not_mem_of_stop (hT : Ordered n hash T) (hn : 0 < n) {h p : Nat}
    (hp : Stop n hash T h p) (he : hash a = h) (hi : i < n) (ha : T i = some a) :
    dist n hash a i < p := by
  by_contra hlt
  subst he
  obtain ⟨b, hb, hd⟩ := hT.run hn hi ha (not_lt.1 hlt)
  exact absurd (hp b hb) (not_lt.2 hd)

/-! ### Inserting -/

/-- What an insertion at slot `i` of an element of probe length `p` needs of the slot before:
an element at most one less displaced. -/
def Follows (n : Nat) (hash : α → Nat) (T : Nat → Option α) (h p : Nat) : Prop :=
  ∀ q, p = q + 1 → ∃ b, T (slot n h q) = some b ∧ q ≤ dist n hash b (slot n h q)

/-- Placing `a` at the slot its probe of length `p` stopped at keeps the order. -/
theorem Ordered.place (hT : Ordered n hash T) (hn : 1 < n) {p : Nat} (hp : p < n)
    (hstop : Stop n hash T (hash a) p) (hf : Follows n hash T (hash a) p) :
    Ordered n hash (update T (slot n (hash a) p) (some a)) := by
  have hn0 : 0 < n := by omega
  intro i hi c hc hpos
  by_cases hi' : (i + 1) % n = slot n (hash a) p
  · -- the new element follows what the probe met one step before
    rw [hi', update_self, some.injEq] at hc
    subst hc
    rw [hi', dist_slot hash hn0 a hp] at hpos ⊢
    obtain ⟨q, rfl⟩ := exists_eq_succ_of_ne_zero hpos.ne'
    have hiq : i = slot n (hash a) q := by
      have hd := dist_succ hash hn0 a hi (by rw [hi', dist_slot hash hn0 a hp]; exact hpos)
      rw [hi', dist_slot hash hn0 a hp] at hd
      rw [← slot_dist hash hn0 a hi]
      congr 1
      omega
    obtain ⟨b, hb, hle⟩ := hf q rfl
    have hne : slot n (hash a) q ≠ slot n (hash a) (q + 1) := fun e => by
      have := slot_inj (by omega) hp e
      omega
    refine ⟨b, ?_, ?_⟩
    · rw [hiq, update_of_ne hne]; exact hb
    · rw [hiq]; omega
  rw [update_of_ne hi'] at hc
  obtain ⟨b, hb, hle⟩ := hT i hi c hc hpos
  by_cases hip : i = slot n (hash a) p
  · -- the element after it followed a less displaced one
    subst hip
    have := hstop b hb
    exact ⟨a, update_self .., by rw [dist_slot hash hn0 a hp]; omega⟩
  · exact ⟨b, by rw [update_of_ne hip]; exact hb, hle⟩

/-! ### Deleting -/

/-- A table with a hole at slot `i`, where an element of probe length `g` used to be: it is
ordered but for the slot after the hole, whose element is displaced by at most `g + 1`. -/
structure Hole (n : Nat) (hash : α → Nat) (T : Nat → Option α) (i g : Nat) : Prop where
  lt : i < n
  empty : T i = none
  ordered : ∀ j < n, j ≠ i → ∀ a, T ((j + 1) % n) = some a → 0 < dist n hash a ((j + 1) % n) →
    ∃ b, T j = some b ∧ dist n hash a ((j + 1) % n) ≤ dist n hash b j + 1
  next : ∀ a, T ((i + 1) % n) = some a → dist n hash a ((i + 1) % n) ≤ g + 1
  prev : ∀ j < n, (j + 1) % n = i → 0 < g → ∃ b, T j = some b ∧ g ≤ dist n hash b j + 1

theorem succ_ne (hn : 1 < n) (hi : i < n) : (i + 1) % n ≠ i := by
  by_cases h : i + 1 < n
  · rw [mod_eq_of_lt h]; omega
  · have e : i + 1 = n := by omega
    rw [e, mod_self]; omega

theorem succ_inj (hi : i < n) (hj : j < n) (e : (i + 1) % n = (j + 1) % n) : i = j := by
  have : i ≡ j [MOD n] := Nat.ModEq.add_right_cancel' 1 e
  rwa [Nat.ModEq, mod_eq_of_lt hi, mod_eq_of_lt hj] at this

/-- Taking an element out of an ordered table leaves a hole. -/
theorem Ordered.hole (hT : Ordered n hash T) (hn : 1 < n) (hi : i < n) (ha : T i = some a) :
    Hole n hash (update T i none) i (dist n hash a i) := by
  refine ⟨hi, update_self .., fun j hj hji c hc hpos => ?_, fun c hc => ?_, fun j hj hji hg => ?_⟩
  · by_cases hjs : (j + 1) % n = i
    · rw [hjs, update_self] at hc; cases hc
    rw [update_of_ne hjs] at hc
    rw [update_of_ne hji]
    exact hT j hj c hc hpos
  · rw [update_of_ne (succ_ne hn hi)] at hc
    by_cases hpos : 0 < dist n hash c ((i + 1) % n)
    · obtain ⟨b, hb, hle⟩ := hT i hi c hc hpos
      rw [ha, some.injEq] at hb
      exact hb ▸ hle
    · omega
  · have hne : j ≠ i := fun e => succ_ne hn hi (e ▸ hji)
    obtain ⟨b, hb, hle⟩ := hT j hj a (by rw [hji]; exact ha) (by rw [hji]; exact hg)
    exact ⟨b, by rw [update_of_ne hne]; exact hb, by rwa [hji] at hle⟩

/-- A displaced element after the hole moves into it, and leaves a hole. -/
theorem Hole.shift {g : Nat} (h : Hole n hash T i g) (hn : 1 < n) (ha : T ((i + 1) % n) = some a)
    (hpos : 0 < dist n hash a ((i + 1) % n)) :
    Hole n hash (update (update T i (some a)) ((i + 1) % n) none)
      ((i + 1) % n) (dist n hash a ((i + 1) % n)) := by
  have hn0 : 0 < n := by omega
  have hi := h.lt
  have hs : (i + 1) % n < n := mod_lt _ hn0
  have hne : i ≠ (i + 1) % n := (succ_ne hn hi).symm
  have hd := dist_succ hash hn0 a hi hpos
  have hg := h.next a ha
  refine ⟨hs, update_self .., fun j hj hji c hc hposc => ?_, fun c hc => ?_, fun j hj hji _ => ?_⟩
  · by_cases hjs : (j + 1) % n = (i + 1) % n
    · rw [hjs, update_self] at hc; cases hc
    rw [update_of_ne hjs] at hc
    rw [update_of_ne hji]
    by_cases hj' : (j + 1) % n = i
    · -- the element that filled the hole is displaced by at most the old one
      rw [hj', update_self, some.injEq] at hc
      subst hc
      have hji' : j ≠ i := fun e => succ_ne hn hi (e ▸ hj')
      rw [hj'] at hposc ⊢
      obtain ⟨b, hb, hle⟩ := h.prev j hj hj' (by omega)
      exact ⟨b, by rw [update_of_ne hji']; exact hb, by omega⟩
    rw [update_of_ne hj'] at hc
    have hji' : j ≠ i := fun e => hjs (by rw [e])
    rw [update_of_ne hji']
    exact h.ordered j hj hji' c hc hposc
  · have hss : ((i + 1) % n + 1) % n ≠ (i + 1) % n := succ_ne hn hs
    rw [update_of_ne hss] at hc
    by_cases hpc : 0 < dist n hash c (((i + 1) % n + 1) % n)
    · by_cases hsi : ((i + 1) % n + 1) % n = i
      · -- two slots: the element after is the one that moved
        rw [hsi, update_self, some.injEq] at hc
        subst hc
        rw [hsi]
        omega
      rw [update_of_ne hsi] at hc
      obtain ⟨b, hb, hle⟩ := h.ordered _ hs hne.symm c hc hpc
      rw [ha, some.injEq] at hb
      exact hb ▸ hle
    · omega
  · have hji' : j = i := succ_inj hj hi hji
    subst hji'
    exact ⟨a, by rw [update_of_ne hne, update_self], by omega⟩

/-- The hole may stay when nothing displaced follows it. -/
theorem Hole.close {g : Nat} (h : Hole n hash T i g)
    (hnext : ∀ a, T ((i + 1) % n) = some a → dist n hash a ((i + 1) % n) = 0) :
    Ordered n hash T := by
  intro j hj a ha hpos
  by_cases e : j = i
  · subst e
    exact absurd (hnext a ha) hpos.ne'
  · exact h.ordered j hj e a ha hpos

end

/-! ### The elements -/

/-- The elements of the first `n` slots. -/
def elems (n : Nat) (T : Nat → Option α) : List α := (List.range n).filterMap T

theorem elems_succ (n : Nat) (T : Nat → Option α) :
    elems (n + 1) T = elems n T ++ (T n).toList := by
  rw [elems, range_succ, filterMap_append, elems]
  cases h : T n <;> simp [h]

theorem mem_elems {n : Nat} {T : Nat → Option α} : a ∈ elems n T ↔ ∃ i < n, T i = some a := by
  simp [elems]

theorem elems_congr {n : Nat} {T U : Nat → Option α} (h : ∀ i < n, T i = U i) :
    elems n T = elems n U :=
  filterMap_congr fun i hi => h i (List.mem_range.1 hi)

/-- Empty slots at the end add nothing. -/
theorem elems_extend {n k : Nat} {T : Nat → Option α} (hk : k ≤ n)
    (h : ∀ i, k ≤ i → i < n → T i = none) : elems n T = elems k T := by
  induction n, hk using le_induction with
  | base => rfl
  | succ n hkn ih =>
    rw [elems_succ, h n hkn (lt_succ_self n), ih fun i h₁ h₂ => h i h₁ (by omega)]
    exact append_nil _

/-- Writing slot `i` trades what it held for what is written. -/
theorem elems_update {n : Nat} (T : Nat → Option α) (hi : i < n) (x : Option α) :
    ((T i).toList ++ elems n (update T i x)).Perm (x.toList ++ elems n T) := by
  induction n with
  | zero => cases hi
  | succ n ih =>
    rw [elems_succ, elems_succ]
    by_cases e : i = n
    · subst e
      have hc : elems i (update T i x) = elems i T :=
        elems_congr fun j hj => update_of_ne (by omega) _ _
      rw [hc, update_self, ← append_assoc, ← append_assoc]
      refine perm_append_comm.trans ?_
      rw [append_assoc]
      exact perm_append_comm.append_left _
    · rw [update_of_ne (Ne.symm e), ← append_assoc, ← append_assoc]
      exact (ih (by omega)).append_right _

theorem length_elems_le (n : Nat) (T : Nat → Option α) : (elems n T).length ≤ n := by
  simpa [elems] using length_filterMap_le T (range n)

/-- A table with fewer elements than slots has an empty slot. -/
theorem exists_empty {n : Nat} {T : Nat → Option α} (h : (elems n T).length < n) :
    ∃ i < n, T i = none := by
  induction n with
  | zero => cases h
  | succ n ih =>
    rw [elems_succ, length_append] at h
    cases hT : T n with
    | none => exact ⟨n, lt_succ_self n, hT⟩
    | some a =>
      simp only [hT, toList_some, length_singleton] at h
      obtain ⟨i, hi, hn⟩ := ih (by omega)
      exact ⟨i, by omega, hn⟩

/-! ### Tables with holes -/

/-- From the home of an element to the element, every slot is taken by an element at least as
displaced as the probe that reaches it. -/
def SettledAt (n : Nat) (hash : α → Nat) (T : Nat → Option α) (a : α) (i : Nat) : Prop :=
  ∀ j < dist n hash a i, ∃ b, T (slot n (hash a) j) = some b ∧
    j ≤ dist n hash b (slot n (hash a) j)

section
variable {n : Nat} {hash : α → Nat} {T : Nat → Option α}

/-- **A settled table is ordered.** -/
theorem ordered_of_settled (hn : 0 < n)
    (h : ∀ i < n, ∀ a, T i = some a → SettledAt n hash T a i) : Ordered n hash T := by
  intro i hi a ha hpos
  have hs : (i + 1) % n < n := mod_lt _ hn
  have hd := dist_succ hash hn a hi hpos
  obtain ⟨b, hb, hle⟩ := h _ hs a ha (dist n hash a i) (by omega)
  rw [slot_dist hash hn a hi] at hb hle
  exact ⟨b, hb, by omega⟩

/-- What an element adds to the spread. -/
def share (n : Nat) (hash : α → Nat) (i : Nat) (x : Option α) : Nat :=
  (x.map fun a => dist n hash a i ^ 2).getD 0

/-- The squares of the probe lengths, summed. -/
def spread (n : Nat) (hash : α → Nat) (T : Nat → Option α) : Nat :=
  (Finset.range n).sum fun i => share n hash i (T i)

theorem share_some (a : α) (i : Nat) : share n hash i (some a) = dist n hash a i ^ 2 := rfl

theorem share_none (i : Nat) : share n hash i none = 0 := rfl

/-- Writing slot `i` trades the share of what it held for that of what is written. -/
theorem spread_update (hash : α → Nat) (T : Nat → Option α) (hi : i < n) (x : Option α) :
    spread n hash (update T i x) + share n hash i (T i) =
      spread n hash T + share n hash i x := by
  have hmem : i ∈ Finset.range n := Finset.mem_range.2 hi
  have hrest : (((Finset.range n).erase i).sum fun j => share n hash j (update T i x j)) =
      ((Finset.range n).erase i).sum fun j => share n hash j (T j) :=
    sum_congr rfl fun j hj => by rw [update_of_ne (ne_of_mem_erase hj)]
  rw [spread, spread, ← add_sum_erase _ _ hmem, hrest, update_self,
    ← add_sum_erase _ (fun j => share n hash j (T j)) hmem]
  omega

theorem spread_le (hn : 0 < n) : spread n hash T ≤ n * n ^ 2 := by
  have hle : spread n hash T ≤ (Finset.range n).card • n ^ 2 := by
    refine sum_le_card_nsmul _ _ _ fun i _ => ?_
    cases T i with
    | none => exact zero_le _
    | some a => exact Nat.pow_le_pow_left (dist_lt hash hn a i).le 2
  rwa [card_range, smul_eq_mul] at hle

end

/-- **An element gives way.**  A displacement of `e` costs an element less the nearer it is to its
home. -/
theorem spread_swap {b p e : Nat} (h : b < p) (he : 0 < e) :
    (b + e) ^ 2 + p ^ 2 < (p + e) ^ 2 + b ^ 2 := by
  have hlt : b * e < p * e := mul_lt_mul_of_pos_right h he
  calc (b + e) ^ 2 + p ^ 2 = b ^ 2 + e ^ 2 + p ^ 2 + 2 * (b * e) := by ring
    _ < b ^ 2 + e ^ 2 + p ^ 2 + 2 * (p * e) := by omega
    _ = (p + e) ^ 2 + b ^ 2 := by ring

end SpacePony.RobinHood
