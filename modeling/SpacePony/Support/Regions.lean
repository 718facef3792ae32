import Mathlib.Algebra.GroupWithZero.Nat
import Mathlib.Algebra.BigOperators.Group.List.Basic
import Mathlib.Data.Finset.Card
import Mathlib.Data.List.Perm.Basic
import Mathlib.Data.List.Pairwise
import Mathlib.Order.Interval.Finset.Nat

/-!
# Support — regions of memory

Runs of addresses, as an allocator hands them out and takes them back.  What is apart from a region
is apart from both parts of it (`Region.split`), and regions that are apart have no more bytes than
the memory around them (`Separate.bytes_le`).
-/

namespace SpacePony.Regions

open List

/-- The addresses from `start` on, `size` many. -/
structure Region where
  start : Nat
  size : Nat
deriving DecidableEq

namespace Region

/-- No address in common. -/
def Apart (r s : Region) : Prop :=
  r.size = 0 ∨ s.size = 0 ∨ r.start + r.size ≤ s.start ∨ s.start + s.size ≤ r.start

/-- Every address of the first is one of the second. -/
def Inside (r s : Region) : Prop := s.start ≤ r.start ∧ r.start + r.size ≤ s.start + s.size

variable {r s u : Region}

theorem Apart.symm (h : r.Apart s) : s.Apart r := by
  rw [Apart] at h ⊢
  omega

theorem Apart.inside (h : r.Apart s) (hu : u.Inside r) : u.Apart s := by
  rw [Apart] at h ⊢
  rw [Inside] at hu
  omega

/-- The addresses of the region. -/
def addresses (r : Region) : Finset Nat := Finset.Ico r.start (r.start + r.size)

theorem card_addresses (r : Region) : r.addresses.card = r.size := by
  rw [addresses, Nat.card_Ico, Nat.add_sub_cancel_left]

theorem Apart.disjoint (h : r.Apart s) : Disjoint r.addresses s.addresses := by
  rw [Finset.disjoint_left]
  intro a ha hs
  rw [addresses, Finset.mem_Ico] at ha hs
  rw [Apart] at h
  omega

end Region

open Region

/-- The regions are pairwise apart. -/
def Separate (rs : List Region) : Prop := rs.Pairwise Apart

/-- The bytes of the regions. -/
def bytes (rs : List Region) : Nat := (rs.map Region.size).sum

variable {r s u : Region} {rs rs' : List Region}

@[simp] theorem bytes_nil : bytes [] = 0 := rfl

@[simp] theorem bytes_cons : bytes (r :: rs) = r.size + bytes rs := by
  rw [bytes, map_cons, sum_cons]
  rfl

@[simp] theorem bytes_append : bytes (rs ++ rs') = bytes rs + bytes rs' := by
  rw [bytes, map_append, sum_append]
  rfl

theorem bytes_perm (h : rs.Perm rs') : bytes rs = bytes rs' := (h.map _).sum_eq

theorem length_mul_le_bytes {n : Nat} (h : ∀ r ∈ rs, n ≤ r.size) : rs.length * n ≤ bytes rs := by
  induction rs with
  | nil => rw [length_nil, Nat.zero_mul, bytes_nil]
  | cons r rs ih =>
    obtain ⟨hr, hrs⟩ := forall_mem_cons.1 h
    rw [length_cons, Nat.succ_mul, bytes_cons, Nat.add_comm]
    exact Nat.add_le_add hr (ih hrs)

theorem separate_cons : Separate (r :: rs) ↔ (∀ s ∈ rs, r.Apart s) ∧ Separate rs :=
  pairwise_cons

theorem Separate.perm (h : Separate rs) (hp : rs.Perm rs') : Separate rs' :=
  (hp.pairwise_iff fun h => Apart.symm h).1 h

theorem Separate.sublist (h : Separate rs) (hs : rs'.Sublist rs) : Separate rs' :=
  List.Pairwise.sublist hs h

/-- A region gives way to one inside it. -/
theorem Separate.shrink (h : Separate (r :: rs)) (hs : s.Inside r) : Separate (s :: rs) := by
  obtain ⟨hr, hrs⟩ := separate_cons.1 h
  exact separate_cons.2 ⟨fun u hu => (hr u hu).inside hs, hrs⟩

/-- **A region gives way to two that are apart inside it.** -/
theorem Separate.split (h : Separate (r :: rs)) (hs : s.Inside r) (hu : u.Inside r)
    (hsu : s.Apart u) : Separate (s :: u :: rs) := by
  obtain ⟨hr, hrs⟩ := separate_cons.1 h
  refine separate_cons.2 ⟨fun v hv => ?_, h.shrink hu⟩
  rcases mem_cons.1 hv with rfl | hv
  · exact hsu
  · exact (hr v hv).inside hs

/-- The addresses of all the regions. -/
def cover (rs : List Region) : Finset Nat := rs.foldr (fun r a => r.addresses ∪ a) ∅

theorem mem_cover {a : Nat} : a ∈ cover rs ↔ ∃ r ∈ rs, a ∈ r.addresses := by
  induction rs with
  | nil => simp [cover]
  | cons r rs ih =>
    have e : cover (r :: rs) = r.addresses ∪ cover rs := rfl
    rw [e, Finset.mem_union, ih, exists_mem_cons_iff]

theorem Separate.card_cover (h : Separate rs) : (cover rs).card = bytes rs := by
  induction rs with
  | nil => rfl
  | cons r rs ih =>
    obtain ⟨hr, hrs⟩ := separate_cons.1 h
    have e : cover (r :: rs) = r.addresses ∪ cover rs := rfl
    have hdisjoint : Disjoint r.addresses (cover rs) := by
      rw [Finset.disjoint_left]
      intro a ha hc
      obtain ⟨s, hs, has⟩ := mem_cover.1 hc
      exact Finset.disjoint_left.1 (hr s hs).disjoint ha has
    rw [e, Finset.card_union_of_disjoint hdisjoint, card_addresses, ih hrs, bytes_cons]

/-- **Regions that are apart have no more bytes than the memory around them.** -/
theorem Separate.bytes_le {N : Nat} (h : Separate rs) (hN : ∀ r ∈ rs, r.start + r.size ≤ N) :
    bytes rs ≤ N := by
  rw [← h.card_cover]
  have hsub : cover rs ⊆ Finset.range N := by
    intro a ha
    obtain ⟨r, hr, ha⟩ := mem_cover.1 ha
    rw [addresses, Finset.mem_Ico] at ha
    have := hN r hr
    rw [Finset.mem_range]
    omega
  exact (Finset.card_le_card hsub).trans_eq (Finset.card_range N)

end SpacePony.Regions
