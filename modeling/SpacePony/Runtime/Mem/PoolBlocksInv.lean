import SpacePony.Runtime.Mem.PoolBlocksList

/-!
# Runtime — memory — the invariant of the free blocks

What holds of a thread's list of free blocks between two calls, and what each call does to it.  A
block enters, loses its end, or leaves (`Holds.add`, `Holds.shrink`, `Holds.take`), and a request
that the largest block can serve is carved from the smallest that can (`findBlock_spec`).
-/

namespace SpacePony.Mem

open Nat List Linked Regions

/-- A block as the pool deals with it: not empty, within the address space. -/
structure Fine (r : Region) : Prop where
  pos : 0 < r.size
  nonnull : r.start ≠ NULL
  bound : r.start + r.size ≤ 2 ^ 64

/-- A block of whole pages. -/
structure Good (r : Region) : Prop extends Fine r where
  aligned : r.size % poolAlign = 0

/-- A block of whole pages cut in two. -/
theorem Good.carve {x n size : Nat} (h : Good ⟨x, n⟩) (hlt : size < n) (hpos : 0 < size)
    (haligned : size % poolAlign = 0) : Good ⟨x, n - size⟩ ∧ Good ⟨x + (n - size), size⟩ ∧
      ∀ {rs}, Separate (⟨x, n⟩ :: rs) →
        Separate (⟨x, n - size⟩ :: ⟨x + (n - size), size⟩ :: rs) := by
  obtain ⟨⟨-, hnonnull, hbound⟩, hal⟩ := h
  rw [NULL] at hnonnull
  rw [show poolAlign = 1024 from rfl] at hal haligned
  dsimp only at hal hbound hnonnull
  refine ⟨⟨⟨?_, ?_, ?_⟩, ?_⟩, ⟨⟨?_, ?_, ?_⟩, ?_⟩, fun hsep => hsep.split ?_ ?_ ?_⟩
  all_goals
    simp only [NULL, Region.Inside, Region.Apart, show poolAlign = 1024 from rfl]
    omega

namespace PoolBlocks

/-- The free blocks as regions. -/
def regions (s : PoolBlocks) (xs : List Ptr) : List Region := xs.map fun x => ⟨x, s.size x⟩

/-- The size of the last block. -/
def lastSize (s : PoolBlocks) (xs : List Ptr) : Nat := (xs.getLast?.map s.size).getD 0

/-- The list of free blocks next to the blocks handed out. -/
structure Holds (s : PoolBlocks) (xs : List Ptr) (live : List Region) : Prop where
  listed : Listed s xs
  sorted : xs.Pairwise fun x y => s.size x ≤ s.size y
  largest : s.largestSize = s.lastSize xs
  total : s.totalSize = bytes (s.regions xs)
  separate : Separate (s.regions xs ++ live)
  good : ∀ r ∈ s.regions xs, Good r
  fine : ∀ r ∈ live, Fine r

variable {s s' : PoolBlocks} {xs as bs : List Ptr} {x y : Ptr} {live : List Region} {size : Nat}

theorem regions_congr (h : ∀ y ∈ xs, s'.size y = s.size y) : s'.regions xs = s.regions xs :=
  map_congr_left fun y hy => by rw [h y hy]

theorem lastSize_congr (h : ∀ y ∈ xs, s'.size y = s.size y) : s'.lastSize xs = s.lastSize xs := by
  rw [lastSize, lastSize]
  cases hlast : xs.getLast? with
  | none => rfl
  | some y => exact h y (mem_of_mem_getLast? hlast)

theorem mem_regions (hx : x ∈ xs) : ⟨x, s.size x⟩ ∈ s.regions xs := mem_map_of_mem hx

theorem lastSize_concat : s.lastSize (xs ++ [x]) = s.size x := by
  rw [lastSize, getLast?_concat]
  rfl

/-- In a sorted list the last block is the largest. -/
theorem le_lastSize (h : xs.Pairwise fun x y => s.size x ≤ s.size y) (hx : x ∈ xs) :
    s.size x ≤ s.lastSize xs := by
  induction xs using reverseRecOn with
  | nil => cases hx
  | append_singleton xs y _ =>
    rw [lastSize_concat]
    rcases mem_append.1 hx with hx | hx
    · exact (pairwise_append.1 h).2.2 x hx y (.head _)
    · rw [mem_singleton.1 hx]

/-- A block in its place in a sorted list. -/
theorem sorted_insert (h : (as ++ bs).Pairwise fun x y => s.size x ≤ s.size y)
    (hsmall : ∀ y ∈ as, s.size y < s.size x) (hlarge : ∀ y ∈ bs.head?, s.size x ≤ s.size y) :
    ((as ++ x :: bs).Pairwise fun x y => s.size x ≤ s.size y) ∧
      s.lastSize (as ++ x :: bs) = max (s.lastSize (as ++ bs)) (s.size x) := by
  obtain ⟨ha, hb, hab⟩ := pairwise_append.1 h
  cases bs with
  | nil =>
    refine ⟨pairwise_append.2 ⟨ha, pairwise_singleton .., fun y hy z hz => ?_⟩, ?_⟩
    · rw [mem_singleton.1 hz]
      exact (hsmall y hy).le
    rw [lastSize_concat, append_nil, max_eq_right]
    rw [lastSize]
    cases hlast : as.getLast? with
    | none => exact zero_le _
    | some y => exact (hsmall y (mem_of_mem_getLast? hlast)).le
  | cons b bs =>
    have hle : ∀ y ∈ b :: bs, s.size x ≤ s.size y := by
      have hfirst : s.size x ≤ s.size b := hlarge b rfl
      intro y hy
      rcases mem_cons.1 hy with rfl | hy
      · exact hfirst
      · exact hfirst.trans ((pairwise_cons.1 hb).1 y hy)
    have hlast : s.lastSize (as ++ x :: b :: bs) = s.lastSize (as ++ b :: bs) := by
      rw [lastSize, lastSize, getLast?_append, getLast?_append, getLast?_cons_cons]
    refine ⟨pairwise_append.2 ⟨ha, pairwise_cons.2 ⟨hle, hb⟩, fun y hy z hz => ?_⟩, ?_⟩
    · rcases mem_cons.1 hz with rfl | hz
      · exact (hsmall y hy).le
      · exact hab y hy z hz
    rw [hlast, max_eq_left]
    exact (hle b (.head _)).trans
      (le_lastSize h (mem_append_right as (.head _)))

/-- Blocks that are apart fit between `NULL` and the end of the memory. -/
theorem bytes_lt {rs : List Region} (h : Separate rs) (hfine : ∀ r ∈ rs, Fine r) :
    bytes rs < 2 ^ 64 := by
  have hsep : Separate (⟨NULL, 1⟩ :: rs) := by
    refine separate_cons.2 ⟨fun r hr => ?_, h⟩
    have hnonnull : r.start ≠ 0 := (hfine r hr).nonnull
    rw [Region.Apart, NULL]
    dsimp only
    omega
  have hle := hsep.bytes_le (N := 2 ^ 64) fun r hr => by
    rcases mem_cons.1 hr with rfl | hr
    · decide
    · exact (hfine r hr).bound
  rw [bytes_cons] at hle
  dsimp only at hle
  omega

namespace Holds

theorem all_fine (h : Holds s xs live) : ∀ r ∈ s.regions xs ++ live, Fine r :=
  forall_mem_append.2 ⟨fun r hr => (h.good r hr).toFine, h.fine⟩

theorem length_le (h : Holds s xs live) : xs.length ≤ maxBlocks := by
  have hlt := bytes_lt h.separate h.all_fine
  have hpage : ∀ r ∈ s.regions xs, poolAlign ≤ r.size := fun r hr => by
    have hgood := h.good r hr
    exact le_of_dvd hgood.pos (dvd_of_mod_eq_zero hgood.aligned)
  have hle := length_mul_le_bytes hpage
  rw [regions, length_map] at hle
  rw [bytes_append] at hlt
  rw [maxBlocks, le_div_iff_mul_le (by decide)]
  exact hle.trans (le_of_lt (lt_of_le_of_lt (le_add_right _ _) hlt))

theorem total_lt (h : Holds s xs live) : s.totalSize < 2 ^ 64 := by
  have hlt := bytes_lt h.separate h.all_fine
  rw [bytes_append] at hlt
  rw [h.total]
  omega

end Holds

/-! ### A block enters -/

/-- The regions of the list, one of them first. -/
theorem regions_perm (hp : xs.Perm (as ++ x :: bs)) :
    (s.regions xs).Perm (⟨x, s.size x⟩ :: s.regions (as ++ bs)) := by
  have hfirst : xs.Perm (x :: (as ++ bs)) := hp.trans perm_middle
  exact hfirst.map _

/-- A block that is apart from the free blocks is none of them. -/
theorem not_mem_of_apart (hgood : 0 < s.size x)
    (h : ∀ r ∈ s.regions xs, Region.Apart ⟨x, s.size x⟩ r) : x ∉ xs := by
  intro hx
  have hself := h _ (mem_regions hx)
  rw [Region.Apart] at hself
  dsimp only at hself
  omega

/-- A block put into a sorted list. -/
theorem Listed.insertSorted (h : Listed s xs) (hsorted : xs.Pairwise fun x y => s.size x ≤ s.size y)
    (hx : x ∉ xs) (hx0 : x ≠ NULL) (hlen : xs.length ≤ maxBlocks) :
    ∃ s' as bs, poolBlockInsert x s = .ok s' ∧ xs = as ++ bs ∧ Listed s' (as ++ x :: bs) ∧
      SameSizes s s' ∧ ((as ++ x :: bs).Pairwise fun x y => s'.size x ≤ s'.size y) ∧
      s'.lastSize (as ++ x :: bs) = max (s.lastSize xs) (s.size x) := by
  obtain ⟨s', as, bs, hrun, rfl, hlisted, hsame, hsmall, hlarge⟩ := h.insert hx hx0 hlen
  obtain ⟨hsorted', hlast⟩ := sorted_insert hsorted hsmall hlarge
  refine ⟨s', as, bs, hrun, rfl, hlisted, hsame, ?_, ?_⟩
  · exact hsorted'.imp fun hle => by rwa [hsame.size, hsame.size]
  · rw [lastSize_congr fun y _ => hsame.size y, hlast]

/-- **A block enters the list.** -/
theorem Holds.add (h : Holds s xs live) (hgood : Good ⟨x, s.size x⟩)
    (hsep : Separate (⟨x, s.size x⟩ :: (s.regions xs ++ live))) :
    ∃ s' as bs, addBlock x (s.size x) s = .ok s' ∧ xs = as ++ bs ∧
      Holds s' (as ++ x :: bs) live ∧ s'.totalSize = s.totalSize + s.size x := by
  obtain ⟨hapart, -⟩ := separate_cons.1 hsep
  have hx : x ∉ xs := not_mem_of_apart hgood.pos fun r hr => hapart r (mem_append_left _ hr)
  obtain ⟨s₁, as, bs, hrun, rfl, hlisted, hsame, hsorted, hlast⟩ :=
    h.listed.insertSorted h.sorted hx hgood.nonnull h.length_le
  have hperm : (s.regions (as ++ x :: bs) ++ live).Perm
      (⟨x, s.size x⟩ :: (s.regions (as ++ bs) ++ live)) :=
    (regions_perm (List.Perm.refl _)).append_right live
  have hfine : ∀ r ∈ ⟨x, s.size x⟩ :: (s.regions (as ++ bs) ++ live), Fine r :=
    forall_mem_cons.2 ⟨hgood.toFine, h.all_fine⟩
  have htotal : (s.totalSize + s.size x) % 2 ^ 64 = bytes (s.regions (as ++ x :: bs)) := by
    have hlt := bytes_lt hsep hfine
    rw [bytes_cons, bytes_append] at hlt
    dsimp only at hlt
    rw [bytes_perm (regions_perm (List.Perm.refl _)), bytes_cons, h.total, mod_eq_of_lt (by omega)]
    exact add_comm ..
  obtain ⟨s', hs'⟩ : ∃ s', s' = { s₁ with
      totalSize := (s.totalSize + s.size x) % 2 ^ 64
      largestSize := max s.largestSize (s.size x) } := ⟨_, rfl⟩
  have hsize : ∀ y, s'.size y = s.size y := fun y => by
    rw [← hsame.size y, hs']
    rfl
  refine ⟨s', as, bs, ?_, rfl, ⟨?_, ?_, ?_, ?_, ?_, ?_, h.fine⟩, ?_⟩
  · rw [addBlock, hrun, hs']
    show Except.ok (if s₁.largestSize < s.size x then _ else _) = _
    rw [hsame.largest, hsame.total]
    by_cases hlt : s.largestSize < s.size x
    · rw [if_pos hlt, max_eq_right hlt.le]
    · rw [if_neg hlt, max_eq_left (Nat.le_of_not_lt hlt), ← hsame.largest]
  · rw [hs']
    exact hlisted.congr rfl fun _ _ => ⟨rfl, rfl⟩
  · rw [hs']
    exact hsorted
  · rw [lastSize_congr fun y _ => (hsize y).trans (hsame.size y).symm, hlast, ← h.largest, hs']
  · rw [regions_congr fun y _ => hsize y, ← htotal, hs']
  · rw [regions_congr fun y _ => hsize y]
    exact hsep.perm hperm.symm
  · rw [regions_congr fun y _ => hsize y]
    intro r hr
    rcases mem_cons.1 ((regions_perm (List.Perm.refl _)).mem_iff.1 hr) with rfl | hr
    · exact hgood
    · exact h.good r hr
  · rw [hs']
    show (s.totalSize + s.size x) % 2 ^ 64 = _
    rw [htotal, bytes_perm (regions_perm (List.Perm.refl _)), bytes_cons, h.total]
    exact add_comm ..

/-! ### A block loses its end -/

/-- The regions once the end of a block has been handed out. -/
theorem Holds.carve (h : Holds s (as ++ x :: bs) live) (hlt : size < s.size x) (hpos : 0 < size)
    (haligned : size % poolAlign = 0) (hperm : xs.Perm (as ++ x :: bs))
    (hx : s'.size x = s.size x - size) (hy : ∀ y, y ≠ x → s'.size y = s.size y) :
    Separate (s'.regions xs ++ ⟨x + (s.size x - size), size⟩ :: live) ∧
      (∀ r ∈ s'.regions xs, Good r) ∧ (∀ r ∈ ⟨x + (s.size x - size), size⟩ :: live, Fine r) ∧
      bytes (s'.regions xs) = bytes (s.regions (as ++ x :: bs)) - size := by
  have hold : (s.regions (as ++ x :: bs) ++ live).Perm
      (⟨x, s.size x⟩ :: (s.regions (as ++ bs) ++ live)) :=
    (regions_perm (List.Perm.refl _)).append_right live
  have hnot : x ∉ as ++ bs := by
    have hnodup := perm_middle.nodup_iff.1 h.listed.nodup
    exact (nodup_cons.1 hnodup).1
  have hrest : s'.regions (as ++ bs) = s.regions (as ++ bs) :=
    regions_congr fun y hmem => hy y (ne_of_mem_of_not_mem hmem hnot)
  have hfirst : (s'.regions xs).Perm (⟨x, s.size x - size⟩ :: s.regions (as ++ bs)) := by
    have hp := regions_perm (s := s') hperm
    rwa [hrest, hx] at hp
  have hnew : (s'.regions xs ++ ⟨x + (s.size x - size), size⟩ :: live).Perm
      (⟨x, s.size x - size⟩ :: ⟨x + (s.size x - size), size⟩ :: (s.regions (as ++ bs) ++ live)) :=
    perm_middle.trans (((hfirst.append_right live).cons _).trans (List.Perm.swap ..))
  obtain ⟨hgx, hgrest⟩ := forall_mem_cons.1 fun r hr =>
    h.good r ((regions_perm (List.Perm.refl _)).mem_iff.2 hr)
  obtain ⟨hgood₁, hgood₂, hsplit⟩ := hgx.carve hlt hpos haligned
  refine ⟨(hsplit (h.separate.perm hold)).perm hnew.symm, fun r hr => ?_,
    forall_mem_cons.2 ⟨hgood₂.toFine, h.fine⟩, ?_⟩
  · rcases mem_cons.1 (hfirst.mem_iff.1 hr) with rfl | hr
    · exact hgood₁
    · exact hgrest r hr
  rw [bytes_perm hfirst, bytes_perm (regions_perm (List.Perm.refl _)), bytes_cons, bytes_cons]
  dsimp only
  omega

theorem lastSize_append_cons (y : Ptr) : s.lastSize (as ++ y :: bs) = s.lastSize (y :: bs) := by
  rw [lastSize, lastSize, getLast?_append, getLast?_cons]
  rfl

/-- The last block of a list is the last of what follows a block in it. -/
theorem lastSize_remove (h : bs ≠ []) : s.lastSize (as ++ x :: bs) = s.lastSize (as ++ bs) := by
  obtain ⟨b, bs, rfl⟩ := exists_cons_of_ne_nil h
  rw [lastSize_append_cons, lastSize_append_cons, lastSize, lastSize, getLast?_cons_cons]

/-- Whether a block is the last of the list. -/
theorem Listed.next_eq_null (h : Listed s (as ++ x :: bs)) : (s.mem x).next = NULL ↔ bs = [] := by
  rw [← ptr?_eq_none, h.at_mem.2, head?_eq_none_iff]

theorem Listed.prev_eq_null (h : Listed s (as ++ x :: bs)) : (s.mem x).prev = NULL ↔ as = [] := by
  rw [← ptr?_eq_none, h.at_mem.1, getLast?_eq_none_iff]

/-- The block before, which is the last of those before. -/
theorem Listed.size_prev (h : Listed s (as ++ x :: bs)) (hprev : (s.mem x).prev ≠ NULL) :
    (s.mem x).prev ∈ as ∧ s.size (s.mem x).prev = s.lastSize as := by
  have hlast := h.at_mem.1
  rw [ptr?_of_ne hprev] at hlast
  refine ⟨mem_of_mem_getLast? hlast.symm, ?_⟩
  rw [lastSize, ← hlast]
  rfl

/-- The state of `shrinkBlock` once the size of the block and the total are written. -/
def shrunk (s : PoolBlocks) (x : Ptr) (size : Nat) : PoolBlocks :=
  { s.setSize x (s.size x - size) with totalSize := (s.totalSize + 2 ^ 64 - size) % 2 ^ 64 }

theorem shrunk_size (n : Ptr) :
    (s.shrunk x size).size n = if n = x then s.size x - size else s.size n := by
  show (Function.update s.mem x { s.mem x with size := s.size x - size } n).size = _
  rw [Function.update_apply]
  split <;> rfl

theorem shrunk_links (n : Ptr) : ((s.shrunk x size).mem n).prev = (s.mem n).prev ∧
      ((s.shrunk x size).mem n).next = (s.mem n).next := by
  show (Function.update s.mem x { s.mem x with size := s.size x - size } n).prev = _ ∧
    (Function.update s.mem x { s.mem x with size := s.size x - size } n).next = _
  rw [Function.update_apply]
  split
  · next h => exact h ▸ ⟨rfl, rfl⟩
  · exact ⟨rfl, rfl⟩

theorem shrinkBlock_eq : shrinkBlock x size s
    = (let s₁ := s.shrunk x size
      if (s₁.mem x).prev ≠ NULL ∧ s₁.size (s₁.mem x).prev > s₁.size x then
        poolBlockInsert x (poolBlockRemove x
          (if (s₁.mem x).next = NULL then { s₁ with largestSize := s₁.size (s₁.mem x).prev } else s₁))
      else if (s₁.mem x).next = NULL then .ok { s₁ with largestSize := s.size x - size }
      else .ok s₁) := rfl

/-- **A block loses its end**, and moves forward where it is now smaller than the block before. -/
theorem Holds.shrink (h : Holds s (as ++ x :: bs) live) (hlt : size < s.size x) (hpos : 0 < size)
    (haligned : size % poolAlign = 0) :
    ∃ s' xs, shrinkBlock x size s = .ok s' ∧ xs.Perm (as ++ x :: bs) ∧
      Holds s' xs (⟨x + (s.size x - size), size⟩ :: live) ∧
      s'.size x = s.size x - size ∧ ∀ y, y ≠ x → s'.size y = s.size y := by
  have hx : (s.shrunk x size).size x = s.size x - size := by rw [shrunk_size, if_pos rfl]
  have hy : ∀ y, y ≠ x → (s.shrunk x size).size y = s.size y := fun y hne => by
    rw [shrunk_size, if_neg hne]
  have hlisted : Listed (s.shrunk x size) (as ++ x :: bs) :=
    h.listed.congr rfl fun y _ => shrunk_links y
  have hnot : x ∉ as ++ bs := (nodup_cons.1 (perm_middle.nodup_iff.1 h.listed.nodup)).1
  have hsorted : (as ++ bs).Pairwise fun a b => (s.shrunk x size).size a ≤ (s.shrunk x size).size b := by
    refine List.Pairwise.imp_of_mem (fun ha hb hle => ?_)
      (h.sorted.sublist ((List.Sublist.refl as).append (sublist_cons_self x bs)))
    rwa [hy _ (ne_of_mem_of_not_mem ha hnot), hy _ (ne_of_mem_of_not_mem hb hnot)]
  have htotal : (s.shrunk x size).totalSize = bytes (s.regions (as ++ x :: bs)) - size := by
    have hlt' := h.total_lt
    have hle : size ≤ s.totalSize := by
      rw [h.total, bytes_perm (regions_perm (List.Perm.refl _)), bytes_cons]
      dsimp only
      omega
    rw [← h.total]
    show (s.totalSize + 2 ^ 64 - size) % 2 ^ 64 = _
    omega
  rw [shrinkBlock_eq]
  obtain ⟨s₁, hs₁⟩ : ∃ s₁, s₁ = s.shrunk x size := ⟨_, rfl⟩
  rw [← hs₁] at hx hy hlisted hsorted htotal ⊢
  have hlargest : s₁.largestSize = s.lastSize (as ++ x :: bs) := by
    rw [← h.largest, hs₁]
    rfl
  have hlast : bs ≠ [] → s₁.largestSize = s₁.lastSize (as ++ bs) := fun hbs => by
    rw [hlargest, lastSize_remove hbs]
    exact (lastSize_congr fun y hmem => hy y (ne_of_mem_of_not_mem hmem hnot)).symm
  by_cases hmove : (s₁.mem x).prev ≠ NULL ∧ s₁.size (s₁.mem x).prev > s₁.size x
  · rw [if_pos hmove]
    obtain ⟨hprev, hprevsize⟩ := hlisted.size_prev hmove.1
    obtain ⟨s₂, hs₂⟩ : ∃ s₂, s₂ = if (s₁.mem x).next = NULL then
        { s₁ with largestSize := s₁.size (s₁.mem x).prev } else s₁ := ⟨_, rfl⟩
    rw [← hs₂]
    have hmem₂ : s₂.mem = s₁.mem ∧ s₂.head = s₁.head ∧ s₂.totalSize = s₁.totalSize := by
      rw [hs₂]
      split <;> exact ⟨rfl, rfl, rfl⟩
    have hlargest₂ : s₂.largestSize = s₁.lastSize (as ++ bs) := by
      rw [hs₂]
      by_cases hbs : bs = []
      · rw [if_pos (hlisted.next_eq_null.2 hbs), hbs, append_nil]
        exact hprevsize
      · rw [if_neg fun hc => hbs (hlisted.next_eq_null.1 hc)]
        exact hlast hbs
    have hlisted₂ : Listed s₂ (as ++ x :: bs) :=
      hlisted.congr hmem₂.2.1 fun y _ => by rw [hmem₂.1]; exact ⟨rfl, rfl⟩
    have hsame₂ := SameSizes.remove x s₂
    have hsize₂ : ∀ y, (poolBlockRemove x s₂).size y = s₁.size y := fun y => by
      rw [hsame₂.size, PoolBlocks.size, hmem₂.1]
      rfl
    obtain ⟨s', as', bs', hrun, e, hlisted', hsame', hsorted', hlast'⟩ :=
      hlisted₂.remove.insertSorted
        (hsorted.imp fun hle => by rwa [hsize₂, hsize₂]) hnot
        (h.listed.nonnull x (mem_append_right as (.head _)))
        (Nat.le_trans (by simp) h.length_le)
    have hsize' : ∀ y, s'.size y = s₁.size y := fun y => (hsame'.size y).trans (hsize₂ y)
    have hperm : (as' ++ x :: bs').Perm (as ++ x :: bs) :=
      perm_middle.trans ((e ▸ List.Perm.refl _ : (x :: (as' ++ bs')).Perm
        (x :: (as ++ bs))).trans perm_middle.symm)
    have hx' : s'.size x = s.size x - size := (hsize' x).trans hx
    have hy' : ∀ y, y ≠ x → s'.size y = s.size y := fun y hne => (hsize' y).trans (hy y hne)
    obtain ⟨hsep, hgood, hfine, hbytes⟩ := h.carve hlt hpos haligned hperm hx' hy'
    refine ⟨s', as' ++ x :: bs', hrun, hperm, ⟨hlisted', hsorted', ?_, ?_, hsep, hgood, hfine⟩, hx', hy'⟩
    · have hbig : s₁.size x ≤ s₁.lastSize (as ++ bs) :=
        (Nat.le_of_lt hmove.2).trans (le_lastSize hsorted (mem_append_left bs hprev))
      rw [hlast', hsame'.largest, hsame₂.largest, hlargest₂, hsize₂,
        lastSize_congr fun y _ => hsize₂ y, max_eq_left hbig]
    · rw [hbytes, hsame'.total, hsame₂.total, hmem₂.2.2, htotal]
  rw [if_neg hmove]
  obtain ⟨s', hs'⟩ : ∃ s', s' = if (s₁.mem x).next = NULL then
      { s₁ with largestSize := s.size x - size } else s₁ := ⟨_, rfl⟩
  have hmem' : s'.mem = s₁.mem ∧ s'.head = s₁.head ∧ s'.totalSize = s₁.totalSize := by
    rw [hs']
    split <;> exact ⟨rfl, rfl, rfl⟩
  have hsize' : ∀ y, s'.size y = s₁.size y := fun y => by
    rw [PoolBlocks.size, hmem'.1]
    rfl
  have hx' : s'.size x = s.size x - size := (hsize' x).trans hx
  have hy' : ∀ y, y ≠ x → s'.size y = s.size y := fun y hne => (hsize' y).trans (hy y hne)
  obtain ⟨hsep, hgood, hfine, hbytes⟩ := h.carve hlt hpos haligned (List.Perm.refl _) hx' hy'
  refine ⟨s', as ++ x :: bs, ?_, List.Perm.refl _, ⟨?_, ?_, ?_, ?_, hsep, hgood, hfine⟩, hx', hy'⟩
  · rw [hs']
    split <;> rfl
  · exact hlisted.congr hmem'.2.1 fun y _ => by rw [hmem'.1]; exact ⟨rfl, rfl⟩
  · refine List.Pairwise.imp (fun hle => by rwa [hsize', hsize']) ?_
    obtain ⟨ha, hb, hab⟩ := pairwise_append.1 hsorted
    obtain ⟨-, hold, -⟩ := pairwise_append.1 h.sorted
    have hbefore : ∀ y ∈ as, s₁.size y ≤ s₁.size x := by
      intro y hmem
      have hprev : (s₁.mem x).prev ≠ NULL := fun hc =>
        ne_nil_of_mem hmem (hlisted.prev_eq_null.1 hc)
      have hle : s₁.size (s₁.mem x).prev ≤ s₁.size x :=
        Nat.le_of_not_lt fun hc => hmove ⟨hprev, hc⟩
      exact (le_lastSize ha hmem).trans ((hlisted.size_prev hprev).2 ▸ hle)
    have hafter : ∀ z ∈ bs, s₁.size x ≤ s₁.size z := by
      intro z hmem
      have hle := (pairwise_cons.1 hold).1 z hmem
      rw [hx, hy z (ne_of_mem_of_not_mem (mem_append_right as hmem) hnot)]
      omega
    refine pairwise_append.2 ⟨ha, pairwise_cons.2 ⟨hafter, hb⟩, fun y hmem z hz => ?_⟩
    rcases mem_cons.1 hz with rfl | hz
    · exact hbefore y hmem
    · exact hab y hmem z hz
  · have hlast' : s'.lastSize (as ++ x :: bs) = s₁.lastSize (as ++ x :: bs) :=
      lastSize_congr fun y _ => hsize' y
    rw [hlast', hs']
    by_cases hbs : bs = []
    · rw [if_pos (hlisted.next_eq_null.2 hbs), hbs, lastSize_concat, hx]
    · rw [if_neg fun hc => hbs (hlisted.next_eq_null.1 hc), hlast hbs, lastSize_remove hbs]
  · rw [hbytes, hmem'.2.2, htotal]

/-! ### A block leaves -/

theorem takeBlock_eq (x : Ptr) (size : Nat) (s : PoolBlocks) : ∃ s₁ : PoolBlocks,
    (takeBlock x size s = { poolBlockRemove x s₁ with
      totalSize := ((poolBlockRemove x s₁).totalSize + 2 ^ 64 - size) % 2 ^ 64 }) ∧
    (s₁.mem = s.mem ∧ s₁.head = s.head ∧ s₁.totalSize = s.totalSize) ∧
    s₁.largestSize = if (s.mem x).next = NULL then
      if (s.mem x).prev = NULL then 0 else s.size (s.mem x).prev else s.largestSize := by
  refine ⟨_, rfl, ?_⟩
  split_ifs <;> exact ⟨⟨rfl, rfl, rfl⟩, rfl⟩

theorem takeBlock_size (x y : Ptr) (s : PoolBlocks) : (takeBlock x size s).size y = s.size y := by
  obtain ⟨s₁, htake, hmem₁, -⟩ := takeBlock_eq x size s
  have hy := (SameSizes.remove x s₁).size y
  rw [PoolBlocks.size, PoolBlocks.size, hmem₁.1] at hy
  rw [htake]
  exact hy

/-- **A block leaves the list whole.** -/
theorem Holds.take (h : Holds s (as ++ x :: bs) live) :
    Holds (takeBlock x (s.size x) s) (as ++ bs) (⟨x, s.size x⟩ :: live) := by
  obtain ⟨s₁, htake, hmem₁, hs₁⟩ := takeBlock_eq x (s.size x) s
  have hlargest₁ : s₁.largestSize = s.lastSize (as ++ bs) := by
    rw [hs₁]
    by_cases hbs : bs = []
    · rw [if_pos (h.listed.next_eq_null.2 hbs), hbs, append_nil]
      by_cases hprev : (s.mem x).prev = NULL
      · rw [h.listed.prev_eq_null.1 hprev]
        exact if_pos hprev
      · rw [← (h.listed.size_prev hprev).2]
        exact if_neg hprev
    · rw [if_neg fun hc => hbs (h.listed.next_eq_null.1 hc), h.largest, lastSize_remove hbs]
  have hlisted₁ : Listed s₁ (as ++ x :: bs) :=
    h.listed.congr hmem₁.2.1 fun y _ => by rw [hmem₁.1]; exact ⟨rfl, rfl⟩
  have hsame := SameSizes.remove x s₁
  have hsize : ∀ y, (takeBlock x (s.size x) s).size y = s.size y := fun y => takeBlock_size x y s
  have hperm : (s.regions (as ++ x :: bs) ++ live).Perm
      (s.regions (as ++ bs) ++ ⟨x, s.size x⟩ :: live) :=
    ((regions_perm (List.Perm.refl _)).append_right live).trans perm_middle.symm
  have hregions : (takeBlock x (s.size x) s).regions (as ++ bs) = s.regions (as ++ bs) :=
    regions_congr fun y _ => hsize y
  have hsub : (as ++ bs).Sublist (as ++ x :: bs) :=
    (List.Sublist.refl as).append (sublist_cons_self x bs)
  obtain ⟨hgood, hrest⟩ := forall_mem_cons.1 fun r hr =>
    h.good r ((regions_perm (List.Perm.refl _)).mem_iff.2 hr)
  refine ⟨?_, (h.sorted.sublist hsub).imp fun hle => by rwa [hsize, hsize], ?_, ?_, ?_,
    hregions.symm ▸ hrest, forall_mem_cons.2 ⟨hgood.toFine, h.fine⟩⟩
  · rw [htake]
    exact hlisted₁.remove.congr rfl fun _ _ => ⟨rfl, rfl⟩
  · rw [lastSize_congr fun y _ => hsize y, ← hlargest₁, ← hsame.largest, htake]
  · have hlt := h.total_lt
    have htotal : s.totalSize = s.size x + bytes (s.regions (as ++ bs)) := by
      rw [h.total, bytes_perm (regions_perm (List.Perm.refl _)), bytes_cons]
    rw [hregions, htake]
    show ((poolBlockRemove x s₁).totalSize + 2 ^ 64 - s.size x) % 2 ^ 64 = _
    rw [hsame.total, hmem₁.2.2]
    omega
  · rw [hregions]
    exact h.separate.perm hperm

/-! ### The search -/

/-- What a request of `size` bytes does when the list serves it: it gets the end of the smallest
block that is large enough, or that block whole. -/
structure Served (s : PoolBlocks) (xs : List Ptr) (live : List Region) (size : Nat) (p : Ptr)
    (s' : PoolBlocks) (xs' : List Ptr) : Prop where
  holds : Holds s' xs' (⟨p, size⟩ :: live)
  carved : ∃ x ∈ xs, size ≤ s.size x ∧ p + size = x + s.size x ∧
    (∀ y ∈ xs, size ≤ s.size y → s.size x ≤ s.size y) ∧
    (s'.regions xs').Perm (if size = s.size x then s.regions (xs.erase x)
      else ⟨x, s.size x - size⟩ :: s.regions (xs.erase x))

/-- The list has lost the bytes handed out. -/
theorem Served.bytes {p : Ptr} {xs' : List Ptr} (h : Served s xs live size p s' xs') :
    Regions.bytes (s'.regions xs') + size = Regions.bytes (s.regions xs) := by
  obtain ⟨x, hx, hle, -, -, hperm⟩ := h.carved
  have hold : (s.regions xs).Perm (⟨x, s.size x⟩ :: s.regions (xs.erase x)) :=
    (perm_cons_erase hx).map _
  rw [bytes_perm hperm, bytes_perm hold, bytes_cons]
  split
  · next heq =>
      rw [← heq]
      exact add_comm ..
  rw [bytes_cons]
  dsimp only
  omega

/-- **The search finds the smallest block that is large enough.** -/
theorem findBlock_spec (as bs : List Ptr) {fuel : Nat} (h : Holds s (as ++ bs) live) (hpos : 0 < size)
    (haligned : size % poolAlign = 0) (hfuel : bs.length < fuel) (has : ∀ y ∈ as, s.size y < size)
    (hfit : ∃ y ∈ bs, size ≤ s.size y) :
    ∃ p s' xs', findBlock size s fuel (ptrOf bs.head?) = .ok (p, s') ∧
      Served s (as ++ bs) live size p s' xs' := by
  induction fuel generalizing as bs with
  | zero => exact absurd hfuel (Nat.not_lt_zero _)
  | succ fuel ih =>
    cases bs with
    | nil => exact absurd hfit.choose_spec.1 not_mem_nil
    | cons x bs =>
      have hx0 : x ≠ NULL := h.listed.nonnull x (mem_append_right as (.head _))
      have hnot := (List.nodup_cons.1 (List.perm_middle.nodup_iff.1 h.listed.nodup)).1
      have herase : (as ++ x :: bs).erase x = as ++ bs := by
        rw [erase_append_right _ fun hm => hnot (mem_append_left bs hm), erase_cons_head]
      have hmem : x ∈ as ++ x :: bs := mem_append_right as (.head _)
      have hleast : size ≤ s.size x → ∀ y ∈ as ++ x :: bs, size ≤ s.size y →
          s.size x ≤ s.size y := by
        intro hle y hy hsize
        rcases List.mem_append.1 hy with hy | hy
        · exact absurd hsize (Nat.not_le_of_lt (has y hy))
        rcases List.mem_cons.1 hy with rfl | hy
        · exact Nat.le_refl _
        · exact (List.pairwise_cons.1 (List.pairwise_append.1 h.sorted).2.1).1 y hy
      rw [show ptrOf (x :: bs).head? = x from rfl, findBlock, if_neg hx0]
      by_cases hlt : s.size x > size
      · obtain ⟨s', xs', hrun, hperm, hholds, hx, hy⟩ := h.shrink hlt hpos haligned
        rw [if_pos hlt, hrun]
        have hregions := regions_perm (s := s') hperm
        rw [hx, regions_congr fun y hy' => hy y (ne_of_mem_of_not_mem hy' hnot)] at hregions
        have hend : x + (s.size x - size) + size = x + s.size x := by
          rw [Nat.add_assoc, Nat.sub_add_cancel (Nat.le_of_lt hlt)]
        refine ⟨_, s', xs', rfl, hholds, x, hmem, Nat.le_of_lt hlt, hend,
          hleast (Nat.le_of_lt hlt), ?_⟩
        rwa [if_neg (Nat.ne_of_lt hlt), herase]
      rw [if_neg hlt]
      by_cases heq : s.size x = size
      · rw [if_pos heq, ← heq]
        rw [← heq] at hleast
        refine ⟨x, _, as ++ bs, rfl, h.take, x, hmem, Nat.le_refl _, rfl,
          hleast (Nat.le_refl _), ?_⟩
        rw [if_pos rfl, herase, regions_congr fun y _ => takeBlock_size x y s]
      rw [if_neg heq]
      have hnext : (s.mem x).next = ptrOf bs.head? := by rw [← h.listed.at_mem.2, ptrOf_ptr?]
      rw [hnext, append_cons as x bs]
      rw [append_cons as x bs] at h
      refine ih _ _ h (Nat.lt_of_succ_lt_succ hfuel) (fun y hy => ?_) ?_
      · rcases List.mem_append.1 hy with hy | hy
        · exact has y hy
        · rw [List.mem_singleton.1 hy]
          omega
      obtain ⟨y, hy, hle⟩ := hfit
      rcases List.mem_cons.1 hy with rfl | hy
      · omega
      · exact ⟨y, hy, hle⟩

end PoolBlocks

end SpacePony.Mem
