import SpacePony.Runtime.Mem.PoolSound

/-!
# Runtime — memory — reallocation

`ponyint_pool_realloc_size` between two sizes of any kind.  The call is an allocation, a copy and a
release (`realloc_eq`); from whole pages to a size class, what is released has no bytes
(`realloc_shrink_eq`), and that is the only case where memory is lost
(`pool_realloc_conserves_iff`).
-/

namespace SpacePony.Mem

open List Regions PoolBlocks

namespace Pool

variable {st st' : Pool} {live : List Region} {oldSize newSize size : Nat} {p q : Ptr} {env : Env}

/-! ### Sizes -/

/-- The size class or the pages of the two sizes are the same. -/
def SameSize (oldSize newSize : Nat) : Prop :=
  (ponyintPoolIndex oldSize < poolCount ∧ ponyintPoolIndex oldSize = ponyintPoolIndex newSize) ∨
    (poolCount ≤ ponyintPoolIndex oldSize ∧ poolCount ≤ ponyintPoolIndex newSize ∧
      ponyintPoolAdjustSize oldSize = ponyintPoolAdjustSize newSize)

/-- From whole pages to a size class. -/
def Shrinks (oldSize newSize : Nat) : Prop := poolMax < oldSize ∧ newSize ≤ poolMax

theorem shrinks_iff (ho : oldSize < 2 ^ 64) (hn : newSize < 2 ^ 64) : Shrinks oldSize newSize ↔
      poolCount ≤ ponyintPoolIndex oldSize ∧ ponyintPoolIndex newSize < poolCount := by
  rw [Shrinks, poolIndex_lt_iff hn, ← Nat.not_lt (a := ponyintPoolIndex oldSize),
    poolIndex_lt_iff ho, Nat.not_le]

theorem not_sameSize_of_shrinks (ho : oldSize < 2 ^ 64) (hn : newSize < 2 ^ 64)
    (h : Shrinks oldSize newSize) : ¬ SameSize oldSize newSize := by
  obtain ⟨hold, hnew⟩ := (shrinks_iff ho hn).1 h
  rintro (⟨hlt, -⟩ | ⟨-, hge, -⟩)
  · exact absurd hold (Nat.not_le.2 hlt)
  · exact absurd hge (Nat.not_le.2 hnew)

theorem usedSize_overflow (h : 2 ^ 64 - 1024 < size) (h' : size < 2 ^ 64) :
    ¬ ponyintPoolIndex size < poolCount ∧ ponyintPoolAdjustSize size = 2 ^ 64 - 1 := by
  refine ⟨fun hc => ?_, adjustSize_overflow h h'⟩
  have hle : size ≤ 2 ^ 20 := (poolIndex_lt_iff h').1 hc
  omega

/-- No block has the size that stands for an overflow. -/
theorem not_blockSize : ¬ BlockSize (2 ^ 64 - 1) := by
  rintro (⟨i, hi, e⟩ | h)
  · have hle : poolSize i ≤ 2 ^ 20 := by
      have hcount : poolCount = 16 := rfl
      rw [poolSize_eq]
      exact Nat.pow_le_pow_right (by decide) (by omega)
    omega
  · exact absurd h (by decide)

/-- A block handed out is of a size below the last page. -/
theorem Sound.old_le (h : Sound st live) (ho : oldSize < 2 ^ 64)
    (hp : ⟨p, ponyintPoolUsedSize oldSize⟩ ∈ live) : oldSize ≤ 2 ^ 64 - 1024 := by
  refine Nat.le_of_not_lt fun hc => ?_
  obtain ⟨hindex, hadjust⟩ := usedSize_overflow hc ho
  have hsize := h.sizes _ hp
  rw [usedSize_of_ge hindex, hadjust] at hsize
  exact not_blockSize hsize

/-- The system grants no size on the last page. -/
theorem Sound.new_le (h : Sound st live) (hn : newSize < 2 ^ 64)
    (hgrants : Grants st live (pageNeedSize newSize) env) : newSize ≤ 2 ^ 64 - 1024 := by
  refine Nat.le_of_not_lt fun hc => ?_
  obtain ⟨hindex, hadjust⟩ := usedSize_overflow hc hn
  obtain ⟨⟨xs, hxs⟩, hglobal, -, -, -⟩ := h
  have hgood : ∀ r, Good r → r.size < 2 ^ 64 - 1 := by
    rintro r ⟨⟨-, hnonnull, hbound⟩, haligned⟩
    rw [NULL] at hnonnull
    rw [show poolAlign = 1024 from rfl] at haligned
    omega
  have hlargest : st.blocks.largestSize < 2 ^ 64 - 1 := by
    rw [hxs.largest, lastSize]
    cases hlast : xs.getLast? with
    | none => exact (by decide : 0 < 2 ^ 64 - 1)
    | some x => exact hgood _ (hxs.good _ (mem_regions (mem_of_getLast? hlast)))
  have hpulled : ∀ r ∈ st.blockGlobal, r.size < 2 ^ 64 - 1 := fun r hr =>
    hgood r ⟨hxs.fine r (mem_append_left _ (mem_append_right _ hr)), hglobal r hr⟩
  rw [pageNeedSize, if_neg hindex, hadjust] at hgrants
  have hmapped : mapped (2 ^ 64 - 1) = 2 ^ 64 - 1 := if_pos (by decide)
  have hlt := hgood _ (hgrants hlargest hpulled).1
  rw [hmapped] at hlt
  exact absurd hlt (Nat.lt_irrefl _)

/-! ### Two blocks -/

/-- A block that has just been handed out shares no address with the others. -/
theorem Sound.apart {q p n m : Nat} (h : Sound st (⟨q, n⟩ :: live)) (hp : ⟨p, m⟩ ∈ live) :
    q + n ≤ p ∨ p + m ≤ q := by
  obtain ⟨⟨xs, hxs⟩, -, -, -, -⟩ := h
  have hlive : Separate (⟨q, n⟩ :: live) := by
    have hall := hxs.separate
    rw [← append_assoc] at hall
    exact hall.sublist (sublist_append_right ..)
  have hapart := (separate_cons.1 hlive).1 _ hp
  have hq := (hxs.fine ⟨q, n⟩ (mem_append_right _ (.head _))).pos
  have hm := (hxs.fine ⟨p, m⟩ (mem_append_right _ (.tail _ hp))).pos
  rw [Region.Apart] at hapart
  dsimp only at hapart hq hm
  omega

theorem Sound.pos {n : Nat} (h : Sound st live) (hp : ⟨p, n⟩ ∈ live) : 0 < n ∧ p ≠ NULL := by
  obtain ⟨⟨xs, hxs⟩, -, -, -, -⟩ := h
  have hfine := hxs.fine _ (mem_append_right _ hp)
  exact ⟨hfine.pos, hfine.nonnull⟩

/-- The block given back is not the one just handed out. -/
theorem Sound.erase_cons {q p n m : Nat} (h : Sound st (⟨q, n⟩ :: live)) (hp : ⟨p, m⟩ ∈ live) :
    (⟨q, n⟩ :: live).erase ⟨p, m⟩ = ⟨q, n⟩ :: live.erase ⟨p, m⟩ := by
  have hapart := h.apart hp
  obtain ⟨hn, -⟩ := h.pos (.head _)
  obtain ⟨hm, -⟩ := h.pos (.tail _ hp)
  refine erase_cons_tail fun hc => ?_
  have e : (⟨q, n⟩ : Region) = ⟨p, m⟩ := eq_of_beq hc
  cases e
  omega

/-- **Giving back a block of any size.** -/
theorem freeSize_spec (env : Env) (h : Sound st live) (hsize : size ≤ 2 ^ 64 - 1024)
    (hp : ⟨p, ponyintPoolUsedSize size⟩ ∈ live) :
    ∃ st', ponyintPoolFreeSize size p env st = .ok st' ∧
      Sound st' (live.erase ⟨p, ponyintPoolUsedSize size⟩) ∧
      st'.mem = (st.forget ⟨p, ponyintPoolUsedSize size⟩ env.junk).mem := by
  rw [ponyintPoolFreeSize]
  by_cases hc : ponyintPoolIndex size < poolCount
  · rw [usedSize_of_lt hc] at hp ⊢
    rw [if_pos hc]
    exact free_spec h hc hp
  rw [usedSize_of_ge hc] at hp ⊢
  rw [if_neg hc]
  have hlarge := (poolIndex_spec (by omega : size < 2 ^ 64)).2 (Nat.le_of_not_lt hc)
  exact freePages_spec h hp (adjustSize_spec (by omega) hsize).2.1

/-! ### The call -/

/-- A reallocation that cannot keep the block: an allocation, a copy and a release. -/
theorem realloc_eq (hp : p ≠ NULL) (hsame : ¬ SameSize oldSize newSize)
    (hshrink : ¬ (poolCount ≤ ponyintPoolIndex oldSize ∧ ponyintPoolIndex newSize < poolCount)) :
    ponyintPoolReallocSize oldSize newSize p env st = (do
      let (q, st) ← ponyintPoolAllocSize newSize env st
      let st ← ponyintPoolFreeSize oldSize p env
        (st.copy q p (if oldSize < newSize then oldSize else newSize))
      pure (q, st)) := by
  rw [SameSize, not_or] at hsame
  obtain ⟨hclass, hpages⟩ := hsame
  rw [ponyintPoolReallocSize, if_neg hp, ponyintPoolAllocSize]
  by_cases hnew : ponyintPoolIndex newSize < poolCount
  · have hold : ponyintPoolIndex oldSize < poolCount :=
      Nat.lt_of_not_le fun hc => hshrink ⟨hc, hnew⟩
    have hne : ponyintPoolIndex oldSize ≠ ponyintPoolIndex newSize := fun e => hclass ⟨hold, e⟩
    simp only [ponyintPoolFreeSize, if_pos hnew, if_pos hold, if_neg hne]
  have hne : poolCount ≤ ponyintPoolIndex oldSize →
      ponyintPoolAdjustSize oldSize ≠ ponyintPoolAdjustSize newSize :=
    fun hc e => hpages ⟨hc, Nat.le_of_not_lt hnew, e⟩
  by_cases hold : ponyintPoolIndex oldSize < poolCount
  · simp only [ponyintPoolFreeSize, if_neg hnew, if_pos hold, if_neg (Nat.not_le.2 hold)]
  · have hge := Nat.le_of_not_lt hold
    simp only [ponyintPoolFreeSize, if_neg hnew, if_neg hold, if_pos hge, if_neg (hne hge)]

/-- A block that serves the new size as it is. -/
theorem realloc_same (hp : p ≠ NULL) (hsame : SameSize oldSize newSize) :
    ponyintPoolReallocSize oldSize newSize p env st = .ok (p, st) := by
  rw [ponyintPoolReallocSize, if_neg hp]
  rcases hsame with ⟨hold, e⟩ | ⟨hold, hnew, e⟩
  · simp only [if_pos (e ▸ hold), if_pos e]
    rfl
  · simp only [if_neg (Nat.not_lt.2 hnew), if_pos hold, if_pos e]
    rfl

/-- From whole pages to a size class, the block given back has no bytes. -/
theorem realloc_shrink_eq (hp : p ≠ NULL) (hold : poolCount ≤ ponyintPoolIndex oldSize)
    (hnew : ponyintPoolIndex newSize < poolCount) :
    ponyintPoolReallocSize oldSize newSize p env st = (do
      let (q, st) ← ponyintPoolAllocSize newSize env st
      let st ← poolFreeSize 0 p env (st.copy q p (if oldSize < newSize then oldSize else newSize))
      pure (q, st)) := by
  have hne : ponyintPoolIndex oldSize ≠ ponyintPoolIndex newSize := fun e =>
    absurd (e ▸ hold) (Nat.not_le.2 hnew)
  rw [ponyintPoolReallocSize, if_neg hp, ponyintPoolAllocSize]
  simp only [if_pos hnew, if_neg (Nat.not_lt.2 hold), if_neg hne]

/-! ### What the caller gets -/

/-- The free bytes and those of the blocks handed out are the bytes obtained from the system. -/
def Conserved (st : Pool) (live : List Region) : Prop :=
  ∃ xs, Listed st.blocks xs ∧
    bytes (st.blocks.regions xs) + bytes st.others + bytes live = st.obtained

theorem Sound.balance (h : Sound st live) : Conserved st live := by
  obtain ⟨⟨xs, hxs⟩, -, -, -, hconserved⟩ := h
  exact ⟨xs, hxs.listed, by rw [← hxs.total, hconserved]⟩

/-- The block is now at `q`, and the one at `p` is free. -/
structure Moved (st st' : Pool) (live : List Region) (oldSize newSize : Nat) (p q : Ptr) :
    Prop where
  other : q ≠ p
  fits : newSize ≤ ponyintPoolUsedSize newSize
  bytes : p ≠ NULL → ∀ i, i < oldSize → i < newSize → st'.mem (q + i) = st.mem (p + i)
  sound : Sound st'
    (⟨q, ponyintPoolUsedSize newSize⟩ :: live.erase ⟨p, ponyintPoolUsedSize oldSize⟩)
  conserved : Conserved st'
    (⟨q, ponyintPoolUsedSize newSize⟩ :: live.erase ⟨p, ponyintPoolUsedSize oldSize⟩)

/-- The block has stayed, or has moved. -/
def Kept (st st' : Pool) (live : List Region) (oldSize newSize : Nat) (p q : Ptr) : Prop :=
  (q = p ∧ st' = st ∧ SameSize oldSize newSize) ∨ Moved st st' live oldSize newSize p q

/-- The bytes that a reallocation has copied. -/
theorem mem_copied {st₁ st₂ st₃ : Pool} {q p n m : Nat} (hapart : q + n ≤ p ∨ p + m ≤ q)
    (hold : oldSize ≤ m) (hnew : newSize ≤ n) {junk : Nat → UInt8}
    (h₁ : st₁.mem = (st.forget ⟨q, n⟩ junk).mem)
    (h₂ : st₂ = st₁.copy q p (if oldSize < newSize then oldSize else newSize))
    (h₃ : st₃.mem = (st₂.forget ⟨p, m⟩ junk).mem) {i : Nat} (ho : i < oldSize) (hn : i < newSize) :
    st₃.mem (q + i) = st.mem (p + i) := by
  have hcount : i < if oldSize < newSize then oldSize else newSize := by split <;> assumption
  have hcopied : q ≤ q + i ∧ q + i < q + if oldSize < newSize then oldSize else newSize :=
    ⟨Nat.le_add_right .., Nat.add_lt_add_left hcount q⟩
  rw [h₃, Pool.forget]
  dsimp only
  rw [if_neg (by omega), h₂, Pool.copy]
  dsimp only
  rw [if_pos hcopied, Nat.add_sub_cancel_left, h₁, Pool.forget]
  dsimp only
  rw [if_neg (by omega)]

/-- **A reallocation that does not shrink** from whole pages to a size class. -/
theorem realloc_spec (h : Sound st live) (ho : oldSize < 2 ^ 64) (hn : newSize < 2 ^ 64)
    (hp : p ≠ NULL → ⟨p, ponyintPoolUsedSize oldSize⟩ ∈ live)
    (hgrants : Grants st live (pageNeedSize newSize) env)
    (hshrinks : ¬ (p ≠ NULL ∧ Shrinks oldSize newSize)) :
    ∃ q st', ponyintPoolReallocSize oldSize newSize p env st = .ok (q, st') ∧
      Kept st st' live oldSize newSize p q := by
  have hle := h.new_le hn hgrants
  obtain ⟨q, st₁, hrun, hsound, hmem⟩ := allocSize_spec h hle hgrants
  by_cases hnull : p = NULL
  · have hnot : ⟨p, ponyintPoolUsedSize oldSize⟩ ∉ live := fun hc => (h.pos hc).2 hnull
    have hq : q ≠ p := hnull ▸ (hsound.pos (.head _)).2
    refine ⟨q, st₁, ?_, .inr ⟨hq, usedSize_le hle, fun hc => absurd hnull hc, ?_, ?_⟩⟩
    · rw [ponyintPoolReallocSize, if_pos hnull, hrun]
    · rwa [erase_of_not_mem hnot]
    · rw [erase_of_not_mem hnot]
      exact hsound.balance
  by_cases hsame : SameSize oldSize newSize
  · exact ⟨p, st, realloc_same hnull hsame, .inl ⟨rfl, rfl, hsame⟩⟩
  have hlive := hp hnull
  have hold := h.old_le ho hlive
  have hpages : ¬ (poolCount ≤ ponyintPoolIndex oldSize ∧ ponyintPoolIndex newSize < poolCount) :=
    fun hc => hshrinks ⟨hnull, (shrinks_iff ho hn).2 hc⟩
  obtain ⟨st₂, hst₂⟩ : ∃ st₂, st₂ = st₁.copy q p
    (if oldSize < newSize then oldSize else newSize) := ⟨_, rfl⟩
  have hsound₂ : Sound st₂ (⟨q, ponyintPoolUsedSize newSize⟩ :: live) := hst₂ ▸ hsound.withMem _
  obtain ⟨st₃, hfree, hsound₃, hmem₃⟩ :=
    freeSize_spec env hsound₂ hold (.tail _ hlive)
  rw [hsound.erase_cons hlive] at hsound₃
  have hapart := hsound.apart hlive
  have hpos := (hsound.pos (.head _)).1
  refine ⟨q, st₃, ?_, .inr ⟨fun e => ?_, usedSize_le hle, fun _ i hio hin => ?_, hsound₃,
    hsound₃.balance⟩⟩
  · rw [realloc_eq hnull hsame hpages, hrun]
    show (ponyintPoolFreeSize oldSize p env (st₁.copy q p _) >>= fun st => pure (q, st)) = _
    rw [← hst₂, hfree]
    rfl
  · have hpos' := (h.pos hlive).1
    rw [e] at hapart
    rcases hapart with hc | hc
    · exact absurd hc (Nat.not_le.2 (Nat.lt_add_of_pos_right hpos))
    · exact absurd hc (Nat.not_le.2 (Nat.lt_add_of_pos_right hpos'))
  · exact mem_copied hapart (usedSize_le hold) (usedSize_le hle) hmem hst₂ hmem₃ hio hin

/-- A block without bytes enters the list. -/
theorem freeEmpty_list {s : PoolBlocks} {xs : List Ptr} (h : Holds s xs live)
    (hp : ⟨p, size⟩ ∈ live) : ∃ s' xs', poolFreePages p 0 s = .ok s' ∧ Listed s' xs' ∧
      bytes (s'.regions xs') = bytes (s.regions xs) := by
  obtain ⟨s₁, hs₁⟩ : ∃ s₁, s₁ = { s with mem := Function.update s.mem p ⟨NULL, NULL, 0⟩ } :=
    ⟨_, rfl⟩
  have hfine := h.fine _ hp
  have hx : p ∉ xs := fun hx => by
    have hapart := (pairwise_append.1 h.separate).2.2 _ (mem_regions hx) _ hp
    have hpos := (h.good _ (mem_regions hx)).pos
    have hpos' := hfine.pos
    rw [Region.Apart] at hapart
    dsimp only at hapart hpos hpos'
    omega
  have hmem : ∀ x ∈ xs, s₁.mem x = s.mem x := fun x hm => by
    rw [hs₁]
    exact Function.update_of_ne (ne_of_mem_of_not_mem hm hx) _ _
  have hregions : s₁.regions xs = s.regions xs := regions_congr fun x hm => by
    rw [PoolBlocks.size, hmem x hm]
    rfl
  have hzero : s₁.size p = 0 := by
    rw [PoolBlocks.size, hs₁]
    dsimp only
    rw [Function.update_self]
  have h₁ : Holds s₁ xs live :=
    h.congr (by rw [hs₁]) (by rw [hs₁]) (by rw [hs₁]) hmem
  obtain ⟨s₂, as, bs, hrun, rfl, hlisted, hsame, -, -⟩ :=
    h₁.listed.insertSorted h₁.sorted hx hfine.nonnull h₁.length_le
  refine ⟨{ s₂ with totalSize := (s₂.totalSize + 0) % 2 ^ 64 }, as ++ p :: bs, ?_,
    hlisted.congr rfl fun _ _ => ⟨rfl, rfl⟩, ?_⟩
  · rw [poolFreePages, addBlock, ← hs₁, hrun]
    rfl
  have hsizes : PoolBlocks.regions { s₂ with totalSize := (s₂.totalSize + 0) % 2 ^ 64 }
      (as ++ p :: bs) = s₁.regions (as ++ p :: bs) := regions_congr fun x _ => hsame.size x
  rw [hsizes, bytes_perm (regions_perm (List.Perm.refl _)), bytes_cons, hregions, hzero,
    Nat.zero_add]

/-- Giving back no bytes leaves the free bytes what they were. -/
theorem freeEmpty_spec (env : Env) (h : Sound st live) (hp : ⟨p, size⟩ ∈ live) :
    ∃ st', poolFreeSize 0 p env st = .ok st' ∧
      ∀ live', Conserved st' live' → bytes live' = bytes live := by
  obtain ⟨⟨xs, hxs⟩, -, -, -, hconserved⟩ := h
  obtain ⟨blocks, xs', hrun, hlisted, hbytes⟩ := freeEmpty_list hxs (mem_append_right _ hp)
  refine ⟨{ st with blocks := blocks }.forget ⟨p, 0⟩ env.junk, ?_, ?_⟩
  · rw [poolFreeSize, hrun]
    rfl
  rintro live' ⟨ys, hys, hsum⟩
  have hsum' : bytes (blocks.regions ys) + bytes st.others + bytes live' = st.obtained := hsum
  rw [hys.unique hlisted, hbytes, ← hxs.total] at hsum'
  omega

/-- **From whole pages to a size class, the block is lost.** -/
theorem realloc_shrink_spec (h : Sound st live) (ho : oldSize < 2 ^ 64) (hn : newSize < 2 ^ 64)
    (hp : ⟨p, ponyintPoolUsedSize oldSize⟩ ∈ live)
    (hgrants : Grants st live (pageNeedSize newSize) env) (hshrinks : Shrinks oldSize newSize) :
    ∃ q st', ponyintPoolReallocSize oldSize newSize p env st = .ok (q, st') ∧
      ¬ Kept st st' live oldSize newSize p q := by
  obtain ⟨hold, hnew⟩ := (shrinks_iff ho hn).1 hshrinks
  have hle := h.new_le hn hgrants
  obtain ⟨hpos, hnonnull⟩ := h.pos hp
  obtain ⟨q, st₁, hrun, hsound, hmem⟩ := allocSize_spec h hle hgrants
  have hsound₂ : Sound (st₁.copy q p (if oldSize < newSize then oldSize else newSize))
      (⟨q, ponyintPoolUsedSize newSize⟩ :: live) := hsound.withMem _
  obtain ⟨st₃, hfree, hconserved⟩ := freeEmpty_spec env hsound₂ (.tail _ hp)
  refine ⟨q, st₃, ?_, ?_⟩
  · rw [realloc_shrink_eq hnonnull hold hnew, hrun]
    show (poolFreeSize 0 p env (st₁.copy q p _) >>= fun st => pure (q, st)) = _
    rw [hfree]
    rfl
  rintro (⟨-, -, hsame⟩ | hmoved)
  · exact not_sameSize_of_shrinks ho hn hshrinks hsame
  have hbytes := hconserved _ hmoved.conserved
  have herase := bytes_perm (perm_cons_erase hp)
  rw [bytes_cons] at herase
  rw [bytes_cons, bytes_cons] at hbytes
  dsimp only at hbytes herase
  omega

/-- **A reallocation keeps the memory it is given, unless it shrinks whole pages to a size
class.** -/
theorem pool_realloc_conserves_iff (h : Sound st live) (ho : oldSize < 2 ^ 64)
    (hn : newSize < 2 ^ 64) (hp : p ≠ NULL → ⟨p, ponyintPoolUsedSize oldSize⟩ ∈ live)
    (hgrants : Grants st live (pageNeedSize newSize) env) :
    (∃ q st', ponyintPoolReallocSize oldSize newSize p env st = .ok (q, st') ∧
      Kept st st' live oldSize newSize p q) ↔ ¬ (p ≠ NULL ∧ Shrinks oldSize newSize) := by
  refine ⟨?_, realloc_spec h ho hn hp hgrants⟩
  rintro ⟨q, st', hrun, hkept⟩ ⟨hnonnull, hshrinks⟩
  obtain ⟨q', st'', hrun', hlost⟩ :=
    realloc_shrink_spec h ho hn (hp hnonnull) hgrants hshrinks
  rw [hrun] at hrun'
  cases hrun'
  exact hlost hkept

/-! ### Runs -/

/-- A run of calls of one thread, with the blocks handed out; the program may write to memory
between two calls. -/
inductive Run : Pool → List Region → Prop where
  | init : Run .init []
  | write {st : Pool} {live : List Region} (h : Run st live) (mem : Nat → UInt8) :
      Run { st with mem := mem } live
  | alloc {st st' : Pool} {live : List Region} {size : Nat} {env : Env} {p : Ptr}
      (h : Run st live) (hsize : size < 2 ^ 64) (hgrants : Grants st live (pageNeedSize size) env)
      (hrun : ponyintPoolAllocSize size env st = .ok (p, st')) :
      Run st' (⟨p, ponyintPoolUsedSize size⟩ :: live)
  | free {st st' : Pool} {live : List Region} {size : Nat} {env : Env} {p : Ptr}
      (h : Run st live) (hsize : size < 2 ^ 64) (hp : ⟨p, ponyintPoolUsedSize size⟩ ∈ live)
      (hrun : ponyintPoolFreeSize size p env st = .ok st') :
      Run st' (live.erase ⟨p, ponyintPoolUsedSize size⟩)
  | realloc {st st' : Pool} {live : List Region} {oldSize newSize : Nat} {env : Env} {p q : Ptr}
      (h : Run st live) (ho : oldSize < 2 ^ 64) (hn : newSize < 2 ^ 64)
      (hp : p ≠ NULL → ⟨p, ponyintPoolUsedSize oldSize⟩ ∈ live)
      (hgrants : Grants st live (pageNeedSize newSize) env)
      (hshrinks : ¬ (p ≠ NULL ∧ Shrinks oldSize newSize))
      (hrun : ponyintPoolReallocSize oldSize newSize p env st = .ok (q, st')) :
      Run st' (if q = p then live
        else ⟨q, ponyintPoolUsedSize newSize⟩ :: live.erase ⟨p, ponyintPoolUsedSize oldSize⟩)

theorem Run.sound (h : Run st live) : Sound st live := by
  induction h with
  | init => exact sound_init
  | write h mem ih => exact ih.withMem mem
  | alloc h hsize hgrants hrun ih =>
    obtain ⟨p, st', hrun', hsound, -⟩ := allocSize_spec ih (ih.new_le hsize hgrants) hgrants
    rw [hrun] at hrun'
    cases hrun'
    exact hsound
  | free h hsize hp hrun ih =>
    obtain ⟨st', hrun', hsound, -⟩ := freeSize_spec _ ih (ih.old_le hsize hp) hp
    rw [hrun] at hrun'
    cases hrun'
    exact hsound
  | realloc h ho hn hp hgrants hshrinks hrun ih =>
    obtain ⟨q, st', hrun', hkept⟩ := realloc_spec ih ho hn hp hgrants hshrinks
    rw [hrun] at hrun'
    cases hrun'
    rcases hkept with ⟨rfl, rfl, -⟩ | hmoved
    · rwa [if_pos rfl]
    · rw [if_neg hmoved.other]
      exact hmoved.sound

/-- A system whose memory starts at one gigabyte. -/
def gigabyte : Env := ⟨1073741824, fun _ => 0⟩

/-- The first request of a process. -/
theorem grants_init (hle : size < poolMmap) : Grants .init [] size gigabyte := by
  intro _ _
  rw [mapped, if_neg (Nat.not_le.2 hle)]
  refine ⟨⟨⟨by decide, by decide, by decide⟩, by decide⟩, fun xs hxs => ?_⟩
  obtain rfl := hxs.unique holds_init.listed
  exact pairwise_singleton ..

/-- What a call may need is there where the largest free block is large enough. -/
theorem grants_of_le (h : size ≤ st.blocks.largestSize) : Grants st live size env :=
  fun hc => absurd hc (Nat.not_lt.2 h)

/-- **The pool serves every run**: all memory obtained is free or handed out, once, and the next
call returns. -/
theorem Run.serves (h : Run st live) (hsize : size < 2 ^ 64) : Sound st live ∧
    (Grants st live (pageNeedSize size) env → ∃ r, ponyintPoolAllocSize size env st = .ok r) ∧
    ∀ p, ⟨p, ponyintPoolUsedSize size⟩ ∈ live →
      ∃ st', ponyintPoolFreeSize size p env st = .ok st' := by
  refine ⟨h.sound, fun hgrants => ?_, fun p hp => ?_⟩
  · obtain ⟨p, st', hrun, -⟩ := allocSize_spec h.sound (h.sound.new_le hsize hgrants) hgrants
    exact ⟨_, hrun⟩
  · obtain ⟨st', hrun, -⟩ := freeSize_spec env h.sound (h.sound.old_le hsize hp) hp
    exact ⟨st', hrun⟩

/-- A kilobyte is served from a fresh pool and taken back. -/
theorem serves_kilobyte : ∃ p st, ponyintPoolAllocSize 1024 gigabyte .init = .ok (p, st) ∧
    ∃ st', ponyintPoolFreeSize 1024 p gigabyte st = .ok st' := by
  have hgrants : Grants .init [] (pageNeedSize 1024) gigabyte := grants_init (by decide)
  obtain ⟨⟨p, st⟩, hrun⟩ := (Run.serves .init (by decide)).2.1 hgrants
  have hnext : Run st _ := .alloc .init (by decide) hgrants hrun
  exact ⟨p, st, hrun, (hnext.serves (by decide)).2.2 p (.head _)⟩

/-- A block of two megabytes becomes one of a kilobyte. -/
theorem pages_to_class_lost : ∃ p st q st',
    ponyintPoolAllocSize 2097152 gigabyte .init = .ok (p, st) ∧
      ponyintPoolReallocSize 2097152 1024 p gigabyte st = .ok (q, st') ∧
      ¬ Kept st st' [⟨p, ponyintPoolUsedSize 2097152⟩] 2097152 1024 p q := by
  obtain ⟨p, st, hrun, hlargest⟩ : ∃ p st,
      ponyintPoolAllocSize 2097152 gigabyte .init = .ok (p, st) ∧
        st.blocks.largestSize = 132120576 := ⟨_, _, rfl, rfl⟩
  obtain ⟨p', st', hrun', hsound, -⟩ :=
    allocSize_spec sound_init (by decide : 2097152 ≤ 2 ^ 64 - 1024) (grants_init (by decide))
  rw [hrun] at hrun'
  cases hrun'
  have hgrants : Grants st [⟨p, ponyintPoolUsedSize 2097152⟩] (pageNeedSize 1024) gigabyte :=
    grants_of_le (by rw [hlargest]; decide)
  obtain ⟨q, st₁, hrealloc, hlost⟩ := realloc_shrink_spec hsound (by decide : 2097152 < 2 ^ 64)
    (by decide : 1024 < 2 ^ 64) mem_cons_self hgrants ⟨by decide, by decide⟩
  exact ⟨p, st, q, st₁, hrun, hrealloc, hlost⟩

/-- A block of one kilobyte becomes one of two. -/
theorem class_to_class_kept : ∃ p st q st',
    ponyintPoolAllocSize 1024 gigabyte .init = .ok (p, st) ∧
      ponyintPoolReallocSize 1024 2048 p gigabyte st = .ok (q, st') ∧
      Kept st st' [⟨p, ponyintPoolUsedSize 1024⟩] 1024 2048 p q := by
  obtain ⟨p, st, hrun, hlargest⟩ : ∃ p st,
      ponyintPoolAllocSize 1024 gigabyte .init = .ok (p, st) ∧
        st.blocks.largestSize = 134216704 := ⟨_, _, rfl, rfl⟩
  obtain ⟨p', st', hrun', hsound, -⟩ :=
    allocSize_spec sound_init (by decide : 1024 ≤ 2 ^ 64 - 1024) (grants_init (by decide))
  rw [hrun] at hrun'
  cases hrun'
  have hgrants : Grants st [⟨p, ponyintPoolUsedSize 1024⟩] (pageNeedSize 2048) gigabyte :=
    grants_of_le (by rw [hlargest]; decide)
  obtain ⟨q, st₁, hrealloc, hkept⟩ := (pool_realloc_conserves_iff hsound
    (by decide : 1024 < 2 ^ 64) (by decide : 2048 < 2 ^ 64) (fun _ => mem_cons_self)
    hgrants).2 fun hc => absurd hc.2.1 (by decide)
  exact ⟨p, st, q, st₁, hrun, hrealloc, hkept⟩

end Pool

end SpacePony.Mem
