import SpacePony.Runtime.Mem.PoolBlocksInv

/-!
# Runtime — memory — runs of page requests

Sequences of `pool_alloc_pages` and `pool_free_pages` of one thread, from one call (`alloc_spec`,
`free_spec`) to the invariant after every run and what the next request gets (`pool_blocks_hold`).
-/

namespace SpacePony.Mem

open List Regions PoolBlocks

/-- The region is apart from every free block of the list and from every block handed out. -/
def Elsewhere (s : PoolBlocks) (live : List Region) (r : Region) : Prop :=
  ∀ xs, Listed s xs → Separate (r :: (s.regions xs ++ live))

/-- The bytes a mapping of memory for a request of `size` bytes has. -/
def mapped (size : Nat) : Nat := if size ≥ poolMmap then size else poolMmap

/-- What a request that the list cannot serve may meet: a block of the global list that is large
enough, and memory from the system. -/
structure Offer (s : PoolBlocks) (live : List Region) (size : Nat) (pulled : Option Region)
    (fresh : Ptr) : Prop where
  block : ∀ r ∈ pulled, size ≤ r.size ∧ Good r ∧ Elsewhere s live r
  memory : pulled = none → Good ⟨fresh, mapped size⟩ ∧ Elsewhere s live ⟨fresh, mapped size⟩

/-- A run of calls of one thread. -/
inductive Run : PoolBlocks → List Region → Prop where
  | init : Run .init []
  | alloc {s s' : PoolBlocks} {live : List Region} {size : Nat} {pulled : Option Region}
      {fresh p : Ptr} (h : Run s live) (hpos : 0 < size) (haligned : size % poolAlign = 0)
      (hoffer : s.largestSize < size → Offer s live size pulled fresh)
      (hrun : poolAllocPages size pulled fresh s = .ok (p, s')) : Run s' (⟨p, size⟩ :: live)
  | free {s s' : PoolBlocks} {live : List Region} {r : Region} (h : Run s live) (hr : r ∈ live)
      (hrun : poolFreePages r.start r.size s = .ok s') : Run s' (live.erase r)

variable {s s₁ : PoolBlocks} {xs : List Ptr} {live live' : List Region} {size n : Nat} {b : Ptr}
  {pulled : Option Region} {fresh : Ptr}

/-- Only the headers of the blocks in the list matter. -/
theorem PoolBlocks.Holds.congr (h : Holds s xs live) (hhead : s₁.head = s.head)
    (htotal : s₁.totalSize = s.totalSize) (hlargest : s₁.largestSize = s.largestSize)
    (hmem : ∀ x ∈ xs, s₁.mem x = s.mem x) : Holds s₁ xs live := by
  have hsize : ∀ x ∈ xs, s₁.size x = s.size x := fun x hx => by
    rw [PoolBlocks.size, hmem x hx]
    rfl
  have hregions := regions_congr hsize
  refine ⟨h.listed.congr hhead fun x hx => by rw [hmem x hx]; exact ⟨rfl, rfl⟩,
    h.sorted.imp_of_mem fun ha hb hle => by rwa [hsize _ ha, hsize _ hb], ?_, ?_, ?_, ?_, h.fine⟩
  · rw [hlargest, h.largest, lastSize_congr hsize]
  · rw [htotal, h.total, hregions]
  · rw [hregions]
    exact h.separate
  · rw [hregions]
    exact h.good

/-- Other blocks handed out. -/
theorem PoolBlocks.Holds.hand (h : Holds s xs live) (hsep : Separate (s.regions xs ++ live'))
    (hfine : ∀ r ∈ live', Fine r) : Holds s xs live' :=
  ⟨h.listed, h.sorted, h.largest, h.total, hsep, h.good, hfine⟩

theorem PoolBlocks.Holds.perm (h : Holds s xs live) (hperm : live.Perm live') :
    Holds s xs live' :=
  h.hand (h.separate.perm (hperm.append_left _)) fun r hr => h.fine r (hperm.mem_iff.2 hr)

/-- **A block from elsewhere**: its end is handed out, the rest enters the list. -/
theorem PoolBlocks.Holds.carveNew (h : Holds s xs live) (s₁ : PoolBlocks) (hgood : Good ⟨b, n⟩)
    (hsep : Separate (⟨b, n⟩ :: (s.regions xs ++ live))) (hlt : size < n) (hpos : 0 < size)
    (haligned : size % poolAlign = 0) (hhead : s₁.head = s.head)
    (htotal : s₁.totalSize = s.totalSize) (hlargest : s₁.largestSize = s.largestSize)
    (hheader : ∃ prev next, s₁.mem b = ⟨prev, next, n - size⟩) (hmem : ∀ x, x ≠ b → s₁.mem x = s.mem x) :
    ∃ s' xs', addBlock b (n - size) s₁ = .ok s' ∧
      Holds s' xs' (⟨b + (n - size), size⟩ :: live) ∧
      s'.totalSize + size = s.totalSize + n := by
  have hsize : s₁.size b = n - size := by
    obtain ⟨prev, next, e⟩ := hheader
    rw [PoolBlocks.size, e]
  have hb : b ∉ xs := by
    intro hx
    have hself := (separate_cons.1 hsep).1 _ (mem_append_left live (mem_regions hx))
    have hp := (h.good _ (mem_regions hx)).pos
    have hn := hgood.pos
    rw [Region.Apart] at hself
    dsimp only at hself hp hn
    omega
  obtain ⟨hrest, hend, hsplit⟩ := hgood.carve hlt hpos haligned
  have hperm : (⟨b, n - size⟩ :: ⟨b + (n - size), size⟩ :: (s.regions xs ++ live)).Perm
      (⟨b, n - size⟩ :: (s.regions xs ++ ⟨b + (n - size), size⟩ :: live)) :=
    perm_middle.symm.cons _
  have hsep' := (hsplit hsep).perm hperm
  have h₁ : Holds s₁ xs (⟨b + (n - size), size⟩ :: live) :=
    (h.hand (separate_cons.1 hsep').2 (forall_mem_cons.2 ⟨hend.toFine, h.fine⟩)).congr
      hhead htotal hlargest fun x hx => hmem x (ne_of_mem_of_not_mem hx hb)
  have hregions : s₁.regions xs = s.regions xs := regions_congr fun x hx => by
    rw [PoolBlocks.size, hmem x (ne_of_mem_of_not_mem hx hb)]
    rfl
  obtain ⟨s', as, bs, hrun, -, hholds, hsum⟩ := h₁.add (by rwa [hsize]) (by rwa [hsize, hregions])
  rw [hsize] at hrun hsum
  exact ⟨s', as ++ b :: bs, hrun, hholds, by omega⟩

/-- **A request of pages.** -/
theorem alloc_spec (pulled : Option Region) (fresh : Ptr) (h : Holds s xs live)
    (hpos : 0 < size) (haligned : size % poolAlign = 0)
    (hoffer : s.largestSize < size → Offer s live size pulled fresh) :
    ∃ p s' xs', poolAllocPages size pulled fresh s = .ok (p, s') ∧
      Holds s' xs' (⟨p, size⟩ :: live) ∧
      (size ≤ s.largestSize → Served s xs live size p s' xs') ∧
      s'.totalSize + size = s.totalSize +
        (if size ≤ s.largestSize then 0 else (pulled.map Region.size).getD (mapped size)) := by
  by_cases hle : s.largestSize ≥ size
  · have hhead : s.head = ptrOf xs.head? := by rw [← h.listed.head, ptrOf_ptr?]
    have hfit : ∃ y ∈ xs, size ≤ s.size y := by
      rw [h.largest, lastSize] at hle
      cases hlast : xs.getLast? with
      | none =>
        rw [hlast] at hle
        exact absurd hpos (Nat.not_lt.2 hle)
      | some y =>
        rw [hlast] at hle
        exact ⟨y, mem_of_mem_getLast? hlast, hle⟩
    obtain ⟨p, s', xs', hrun, hserved⟩ := findBlock_spec [] xs h hpos haligned
      (Nat.lt_succ_of_le h.length_le) (fun y hy => absurd hy not_mem_nil) hfit
    rw [← hhead] at hrun
    refine ⟨p, s', xs', ?_, hserved.holds, fun _ => hserved, ?_⟩
    · rw [poolAllocPages, poolBlockGet.eq_def, if_pos hle, hrun]
      rfl
    · rw [if_pos hle, Nat.add_zero, hserved.holds.total, h.total]
      exact hserved.bytes
  have hlt : s.largestSize < size := Nat.lt_of_not_le hle
  obtain ⟨hpulled, hfresh⟩ := hoffer hlt
  have hnot : ∀ {P : Prop}, size ≤ s.largestSize → P := fun hc => absurd hc (Nat.not_le.2 hlt)
  rw [poolAllocPages, poolBlockGet.eq_def, if_neg hle, if_neg (Nat.not_le.2 hlt)]
  cases pulled with
  | some r =>
    obtain ⟨b, n⟩ := r
    obtain ⟨hsize, hgoodb, helseb⟩ := hpulled ⟨b, n⟩ rfl
    have hsepb := helseb xs h.listed
    dsimp only at hsize
    by_cases heq : size = n
    · subst heq
      refine ⟨b, s, xs, ?_, h.hand (hsepb.perm perm_middle.symm)
        (forall_mem_cons.2 ⟨hgoodb.toFine, h.fine⟩), hnot, rfl⟩
      dsimp only
      rw [if_pos rfl]
      rfl
    obtain ⟨s', xs', hrun, hholds, hsum⟩ := h.carveNew (s.setSize b (n - size)) hgoodb hsepb
      (by omega) hpos haligned rfl rfl rfl
      ⟨_, _, Function.update_self ..⟩
      (fun x hx => Function.update_of_ne hx _ _)
    refine ⟨_, s', xs', ?_, hholds, hnot, hsum⟩
    dsimp only
    rw [if_neg heq, hrun]
    rfl
  | none =>
    obtain ⟨hgood, helse⟩ := hfresh rfl
    have hsep := helse xs h.listed
    rw [Option.map_none, Option.getD_none]
    by_cases hbig : size ≥ poolMmap
    · rw [mapped, if_pos hbig] at hgood hsep ⊢
      refine ⟨fresh, s, xs, ?_, h.hand (hsep.perm perm_middle.symm)
        (forall_mem_cons.2 ⟨hgood.toFine, h.fine⟩), hnot, rfl⟩
      show (if size ≥ poolMmap then _ else _) = _
      rw [if_pos hbig]
      rfl
    rw [mapped, if_neg hbig] at hgood hsep ⊢
    obtain ⟨s', xs', hrun, hholds, hsum⟩ := h.carveNew
      { s with mem := Function.update s.mem fresh ⟨NULL, NULL, poolMmap - size⟩ }
      hgood hsep (Nat.lt_of_not_le hbig) hpos haligned rfl rfl rfl
      ⟨_, _, Function.update_self ..⟩
      (fun x hx => Function.update_of_ne hx _ _)
    refine ⟨_, s', xs', ?_, hholds, hnot, hsum⟩
    show (if size ≥ poolMmap then _ else _) = _
    rw [if_neg hbig, hrun]
    rfl

/-- **A block given back.** -/
theorem free_spec {r : Region} (h : Holds s xs live) (hr : r ∈ live)
    (haligned : r.size % poolAlign = 0) :
    ∃ s' xs', poolFreePages r.start r.size s = .ok s' ∧ Holds s' xs' (live.erase r) ∧
      s'.totalSize = s.totalSize + r.size := by
  obtain ⟨s₁, hs₁⟩ : ∃ s₁, s₁ = { s with
      mem := Function.update s.mem r.start ⟨NULL, NULL, r.size⟩ } := ⟨_, rfl⟩
  have hperm : (s.regions xs ++ live).Perm (r :: (s.regions xs ++ live.erase r)) :=
    ((perm_cons_erase hr).append_left _).trans perm_middle
  have hsep := h.separate.perm hperm
  have hgood : Good r := ⟨h.fine r hr, haligned⟩
  have hx : r.start ∉ xs := by
    intro hx
    have hself := (separate_cons.1 hsep).1 _ (mem_append_left _ (mem_regions hx))
    have hp := (h.good _ (mem_regions hx)).pos
    have hn := hgood.pos
    rw [Region.Apart] at hself
    dsimp only at hself hp
    omega
  have hheader : s₁.mem r.start = ⟨NULL, NULL, r.size⟩ := by
    rw [hs₁]
    exact Function.update_self ..
  have hsize : s₁.size r.start = r.size := by rw [PoolBlocks.size, hheader]
  have hmem : ∀ x ∈ xs, s₁.mem x = s.mem x := fun x hm => by
    rw [hs₁]
    exact Function.update_of_ne (ne_of_mem_of_not_mem hm hx) _ _
  have hregions : s₁.regions xs = s.regions xs := regions_congr fun x hm => by
    rw [PoolBlocks.size, hmem x hm]
    rfl
  have h₁ : Holds s₁ xs (live.erase r) :=
    (h.hand (separate_cons.1 hsep).2 fun u hu => h.fine u (mem_of_mem_erase hu)).congr
      (by rw [hs₁]) (by rw [hs₁]) (by rw [hs₁]) hmem
  obtain ⟨s', as, bs, hrun, -, hholds, hsum⟩ := h₁.add (by rwa [hsize])
    (by rwa [hsize, hregions])
  rw [hsize] at hrun hsum
  rw [hs₁] at hrun hsum
  exact ⟨s', as ++ r.start :: bs, hrun, hholds, hsum⟩

theorem holds_init : Holds .init [] [] :=
  ⟨⟨rfl, trivial, nodup_nil, fun _ h => absurd h not_mem_nil⟩, List.Pairwise.nil, rfl, rfl,
    List.Pairwise.nil, fun _ h => absurd h not_mem_nil, fun _ h => absurd h not_mem_nil⟩

/-- The invariant along a run. -/
theorem Run.holds (h : Run s live) :
    (∃ xs, Holds s xs live) ∧ ∀ r ∈ live, r.size % poolAlign = 0 := by
  induction h with
  | init => exact ⟨⟨[], holds_init⟩, fun _ h => absurd h not_mem_nil⟩
  | alloc _ hpos haligned hoffer hrun ih =>
    obtain ⟨⟨xs, hxs⟩, hal⟩ := ih
    obtain ⟨p, s', xs', hrun', hholds, -, -⟩ := alloc_spec _ _ hxs hpos haligned hoffer
    rw [hrun] at hrun'
    cases hrun'
    exact ⟨⟨xs', hholds⟩, forall_mem_cons.2 ⟨haligned, hal⟩⟩
  | free _ hr hrun ih =>
    obtain ⟨⟨xs, hxs⟩, hal⟩ := ih
    obtain ⟨s', xs', hrun', hholds, -⟩ := free_spec hxs hr (hal _ hr)
    rw [hrun] at hrun'
    cases hrun'
    exact ⟨⟨xs', hholds⟩, fun u hu => hal u (mem_of_mem_erase hu)⟩

/-- **The free blocks of a thread.**  After any run the list is linked both ways and sorted by
size, `largest_size` is the size of its last block, `total_size` the sum, and no free block has an
address in common with another or with a block handed out.  The next call ends without a failed
assertion, and a request of at most `largest_size` bytes is carved from the smallest free block that
is large enough, whatever the other threads and the system would offer. -/
theorem pool_blocks_hold (h : Run s live) :
    ∃ xs, Listed s xs ∧ (xs.Pairwise fun x y => s.size x ≤ s.size y) ∧
      s.largestSize = s.lastSize xs ∧ s.totalSize = (xs.map s.size).sum ∧
      Separate (s.regions xs ++ live) ∧
      (∀ r ∈ live, ∃ s', poolFreePages r.start r.size s = .ok s') ∧
      ∀ size pulled fresh, 0 < size → size % poolAlign = 0 →
        (s.largestSize < size → Offer s live size pulled fresh) →
        ∃ p s', poolAllocPages size pulled fresh s = .ok (p, s') ∧
          (size ≤ s.largestSize → ∃ xs', Served s xs live size p s' xs') := by
  obtain ⟨⟨xs, hxs⟩, hal⟩ := h.holds
  have htotal : (xs.map s.size).sum = bytes (s.regions xs) := by
    rw [bytes, regions, map_map]
    rfl
  refine ⟨xs, hxs.listed, hxs.sorted, hxs.largest, hxs.total.trans htotal.symm, hxs.separate,
    fun r hr => ?_, fun size pulled fresh hpos haligned hoffer => ?_⟩
  · obtain ⟨s', -, hrun, -, -⟩ := free_spec hxs hr (hal r hr)
    exact ⟨s', hrun⟩
  · obtain ⟨p, s', xs', hrun, -, hserved, -⟩ := alloc_spec _ _ hxs hpos haligned hoffer
    exact ⟨p, s', hrun, fun hle => ⟨xs', hserved hle⟩⟩

/-! ### Two free blocks -/

/-- The state after a call that does not fail. -/
def PoolBlocks.after {α : Type} (s : PoolBlocks) : Except PoolFault (α × PoolBlocks) → PoolBlocks
  | .ok (_, s') => s'
  | .error _ => s

/-- Memory is mapped for 2048 bytes. -/
def mappedOnce : PoolBlocks := init.after (poolAllocPages 2048 none 4096 init)

/-- They are given back. -/
def freedOnce : PoolBlocks :=
  init.after ((poolFreePages (4096 + (poolMmap - 2048)) 2048 mappedOnce).map fun s => ((), s))

/-- Half of them are handed out again. -/
def carvedOnce : PoolBlocks := init.after (poolAllocPages 1024 none NULL freedOnce)

theorem run_carvedOnce : Run carvedOnce [⟨4096 + (poolMmap - 1024), 1024⟩] := by
  have hmapped : Run mappedOnce [⟨4096 + (poolMmap - 2048), 2048⟩] := by
    have hempty : Elsewhere init [] ⟨4096, mapped 2048⟩ := by
      intro xs hxs
      obtain rfl : xs = [] := head?_eq_none_iff.1 hxs.head.symm
      exact pairwise_singleton ..
    exact .alloc .init (by decide) (by decide)
      (fun _ => ⟨fun r hr => absurd hr (Option.not_mem_none r),
        fun _ => ⟨⟨⟨by decide, by decide, by decide⟩, by decide⟩, hempty⟩⟩) rfl
  have hfreed : Run freedOnce [] := by
    have hrun : poolFreePages (4096 + (poolMmap - 2048)) 2048 mappedOnce = .ok freedOnce :=
      rfl
    have h := hmapped.free (mem_singleton_self _) hrun
    rwa [erase_cons_head] at h
  exact @Run.alloc _ _ _ 1024 none NULL _ hfreed (by decide) (by decide)
    (fun hc => absurd hc (by decide)) rfl

/-- The block that was carved is in front of the mapped one, and both have 1024 bytes less than
before. -/
theorem pool_blocks_hold_carved :
    ∃ xs, Listed carvedOnce xs ∧ 2 ≤ xs.length ∧ carvedOnce.totalSize = (xs.map carvedOnce.size).sum ∧
      ∃ p s', poolAllocPages 1024 none NULL carvedOnce = .ok (p, s') := by
  obtain ⟨xs, hlisted, -, -, htotal, -, -, hnext⟩ := pool_blocks_hold run_carvedOnce
  obtain ⟨p, s', hp, -⟩ := hnext 1024 none NULL (by decide) (by decide) fun hc =>
    absurd hc (by decide)
  refine ⟨xs, hlisted, ?_, htotal, p, s', hp⟩
  obtain ⟨hhead, hlinks, -, -⟩ := hlisted
  match xs with
  | [] => cases hhead
  | [x] =>
    obtain rfl : 4096 + (poolMmap - 2048) = x := Option.some.inj hhead
    exact absurd hlinks.2.1 (by decide)
  | x :: y :: xs => simp

end SpacePony.Mem
