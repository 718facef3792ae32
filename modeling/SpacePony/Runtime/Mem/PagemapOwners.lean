import SpacePony.Runtime.Mem.PagemapWalk

/-!
# Runtime — memory — the pagemap is a map from pages to owners

What a sequence of calls leaves in the pagemap.

* `get_spec`, `set_spec`: reading gives the owner; writing changes the owner of one page.
* `setBulk_eq`: filling a range is setting its pages one after the other.
* **`pagemap_gives_last_owner`**: a reader sees the last call whose range contains the page.
-/

namespace SpacePony.Mem

open Nat List PrefixTree PrefixTree.Tree Hoare

/-- The levels above the lowest. -/
def upper : List Level :=
  [⟨l3Shift, (1 <<< l3Mask) - 1, (1 <<< l3Mask) * ptrSize⟩,
    ⟨l2Shift, (1 <<< l2Mask) - 1, (1 <<< l2Mask) * ptrSize⟩]

/-- The words of a node, the same at every level. -/
def nodeWords : Nat := 8192

/-- The path of an address to its lowest node. -/
def pathOf (addr : Nat) : List Nat := upper.map (ixOf addr)

/-- The page of an address. -/
def pageOf (addr : Nat) : Nat := addr / poolAlign

/-- The tree of the pagemap: every node is found at its place. -/
def Ok (t : Tree) : Prop := ∃ path, t.Wf 3 nodeWords path

/-- What the pagemap holds for the page of the address: the chunk and the actor. -/
def owner (t : Tree) (addr : Nat) : Ptr × Ptr :=
  (t.value (pathOf addr) (ixOf addr lowest * 2), t.value (pathOf addr) (ixOf addr lowest * 2 + 1))

/-! ### Calls -/

/-- A call that writes the pagemap. -/
inductive Call where
  | set (addr : Nat) (chunk actor : Ptr)
  | setBulk (addr : Nat) (chunk actor : Ptr) (size : Nat)
deriving DecidableEq

namespace Call

def addr : Call → Nat
  | .set addr _ _ | .setBulk addr _ _ _ => addr

def chunk : Call → Ptr
  | .set _ chunk _ | .setBulk _ chunk _ _ => chunk

def actor : Call → Ptr
  | .set _ _ actor | .setBulk _ _ actor _ => actor

/-- The bytes of the range: a page for `ponyint_pagemap_set`. -/
def size : Call → Nat
  | .set _ _ _ => poolAlign
  | .setBulk _ _ _ size => size

def run : Call → PagemapM Unit
  | .set addr chunk actor => ponyintPagemapSet addr chunk actor
  | .setBulk addr chunk actor size => ponyintPagemapSetBulk addr chunk actor size

/-- An aligned range of whole pages below 2^48. -/
def Valid (c : Call) : Prop :=
  c.addr % poolAlign = 0 ∧ c.size % poolAlign = 0 ∧ c.addr + c.size ≤ 2 ^ 48

/-- The range contains the page of the address. -/
def Covers (c : Call) (addr : Nat) : Prop :=
  c.addr ≤ pageOf addr * poolAlign ∧ (pageOf addr + 1) * poolAlign ≤ c.addr + c.size

instance (c : Call) (addr : Nat) : Decidable (c.Covers addr) :=
  inferInstanceAs (Decidable (_ ∧ _))

end Call

/-- The last of the calls whose range contains the page of the address. -/
def lastCall (calls : List Call) (addr : Nat) : Option Call :=
  calls.reverse.find? fun c => decide (c.Covers addr)

variable {t t' : Tree} {addr addr' size : Nat} {chunk actor : Ptr}

theorem poolAlign_eq : poolAlign = 1024 := rfl

theorem upper_fits : ∀ l ∈ upper, l.Fits nodeWords := by
  simp only [upper, forall_mem_cons, Level.Fits]
  decide

theorem lowest_fits : lowest.Fits nodeWords := by
  rw [Level.Fits]
  decide

theorem lowest_mask : lowest.mask = 4095 := rfl

theorem ok_empty : Ok ⟨0, []⟩ := by
  refine ⟨fun _ => [], fun p hp => ?_, fun p hp => ?_, fun p hp => ?_, fun h => absurd rfl h,
    fun p hp => ?_⟩
  all_goals exact absurd (le_zero.1 hp.2) hp.1

/-! ### Indices -/

theorem ixOf_eq (addr s k size : Nat) : ixOf addr ⟨s, 2 ^ k - 1, size⟩ = addr / 2 ^ s % 2 ^ k := by
  rw [ixOf, and_two_pow_sub_one_eq_mod, shiftRight_eq_div_pow]

theorem ixOf_lowest (addr : Nat) : ixOf addr lowest = addr / 1024 % 4096 :=
  ixOf_eq addr 10 12 _

theorem pathOf_eq (addr : Nat) :
    pathOf addr = [addr / 34359738368 % 8192, addr / 4194304 % 8192] := by
  have htop := ixOf_eq addr 35 13 (8192 * 8)
  have hmid := ixOf_eq addr 22 13 (8192 * 8)
  exact congrArg₂ (fun a b => [a, b]) htop hmid

theorem length_pathOf (addr : Nat) : (pathOf addr).length = 2 := rfl

/-- Below 2^48 the indices of an address are those of its page alone. -/
theorem pageOf_eq_iff (h : addr < 2 ^ 48) (h' : addr' < 2 ^ 48) : pageOf addr = pageOf addr' ↔
      pathOf addr = pathOf addr' ∧ ixOf addr lowest = ixOf addr' lowest := by
  rw [pathOf_eq, pathOf_eq, ixOf_lowest, ixOf_lowest, pageOf, pageOf,
    poolAlign_eq, cons.injEq, cons.injEq]
  simp only [and_true]
  constructor
  · intro e
    have htop : ∀ a : Nat, a / 34359738368 = a / 1024 / 33554432 := fun a => by
      rw [Nat.div_div_eq_div_mul]
    have hmid : ∀ a : Nat, a / 4194304 = a / 1024 / 4096 := fun a => by rw [Nat.div_div_eq_div_mul]
    rw [htop, htop addr', hmid, hmid addr', e]
    exact ⟨⟨rfl, rfl⟩, rfl⟩
  · rintro ⟨⟨h₁, h₂⟩, h₃⟩
    omega

/-- The page after, where it is in the same lowest node. -/
theorem next_page (addr : Nat) (h : ixOf addr lowest + 1 ≤ 4095) :
    pathOf (addr + poolAlign) = pathOf addr ∧
      ixOf (addr + poolAlign) lowest = ixOf addr lowest + 1 := by
  rw [ixOf_lowest] at h ⊢
  rw [pathOf_eq, pathOf_eq, ixOf_lowest, poolAlign_eq]
  have htop : (addr + 1024) / 34359738368 = addr / 34359738368 := by omega
  have hmid : (addr + 1024) / 4194304 = addr / 4194304 := by omega
  rw [htop, hmid]
  exact ⟨rfl, by omega⟩

/-! ### Reading -/

theorem lowest_ix (addr : Nat) : ixOf addr lowest ≤ 4095 := ixOf_le addr lowest

/-- The words of an address can be read where its lowest node is there. -/
theorem read_lowest {path : Nat → List Nat} (h : t.Wf 3 nodeWords path)
    (hn : t.node (pathOf addr) ≠ 0) {ix : Nat} (hix : ix ≤ ixOf addr lowest * 2 + 1) :
    t.read (.entry (t.node (pathOf addr)) ix) = some (t.value (pathOf addr) ix) := by
  have := lowest_ix addr
  refine h.read (h.node (length_pathOf addr ▸ lt_succ_self 2) hn).1 ?_
  rw [nodeWords]
  omega

theorem getWalk_level (h : Ok t) (i₀ : Nat) (slot : Slot) : getWalk addr level (slot, t.root, i₀) t
      = .ok (if t.node (pathOf addr) = 0 then none
          else some (.entry (t.node (pathOf addr)) (ixOf addr lowest * 2),
            t.node (pathOf addr), ixOf addr lowest * 2), t) := by
  obtain ⟨path, h⟩ := h
  exact getWalk_spec addr slot i₀ [] h upper_fits lowest_fits (by decide) (by decide)

/-- **Looking up the chunk.** -/
theorem getChunk_spec (h : Ok t) (addr : Nat) :
    ponyintPagemapGetChunk addr t = .ok ((owner t addr).1, t) := by
  have hroot : atomicLoad .root t = .ok (t.root, t) := atomicLoad_eq rfl
  rw [ponyintPagemapGetChunk, bind_eq_ok hroot, bind_eq_ok (getWalk_level h ..)]
  by_cases hn : t.node (pathOf addr) = 0
  · rw [if_pos hn, owner, value, hn, word_zero]
    rfl
  rw [if_neg hn]
  obtain ⟨path, h⟩ := h
  exact atomicLoad_eq (read_lowest h hn (by omega))

/-- **Looking up both**: `*actor` is written where the page has a lowest node. -/
theorem get_spec (h : Ok t) (addr : Nat) (actor : Ptr) :
    ponyintPagemapGet addr actor t = .ok (((owner t addr).1,
      if t.node (pathOf addr) = 0 then actor else (owner t addr).2), t) := by
  have hroot : atomicLoad .root t = .ok (t.root, t) := atomicLoad_eq rfl
  rw [ponyintPagemapGet, bind_eq_ok hroot, bind_eq_ok (getWalk_level h ..)]
  by_cases hn : t.node (pathOf addr) = 0
  · rw [if_pos hn, if_pos hn, owner, value, hn, word_zero]
    rfl
  rw [if_neg hn, if_neg hn]
  obtain ⟨path, h⟩ := h
  have hix := lowest_ix addr
  have hsize : lowest.size = 65536 := rfl
  have hmask := lowest_mask
  show (do
    let chunk ← atomicLoad (.entry (t.node (pathOf addr)) (ixOf addr lowest * 2))
    ponyAssert (ixOf addr lowest * 2 + 1 ≤ lowest.size)
    ponyAssert ((ixOf addr lowest * 2 + 1) / 2 ≤ lowest.mask)
    let pagemapActor ← atomicLoad (.entry (t.node (pathOf addr)) (ixOf addr lowest * 2 + 1))
    pure (chunk, pagemapActor) : PagemapM _) t = _
  rw [bind_eq_ok (atomicLoad_eq (read_lowest h hn (le_succ _))),
    bind_eq_ok (ponyAssert_eq (decide_eq_true (by omega))),
    bind_eq_ok (ponyAssert_eq (decide_eq_true (by omega))),
    bind_eq_ok (atomicLoad_eq (read_lowest h hn (le_refl _)))]
  rfl

/-! ### Writing a page -/

/-- Both words of a page. -/
def storePair (t : Tree) (node ix : Nat) (chunk actor : Ptr) : Tree :=
  (t.write (.entry node ix) chunk).write (.entry node (ix + 1)) actor

section
variable (h : Ok t) (hn : t.node (pathOf addr) ≠ 0)
include h hn

/-- One word of a page is written: no node moves, and no other word changes. -/
theorem write_spec (v : Ptr) {ix : Nat}
    (hix : ix ≤ ixOf addr lowest * 2 + 1) : Ok (t.write (.entry (t.node (pathOf addr)) ix) v) ∧
      (∀ b, (t.write (.entry (t.node (pathOf addr)) ix) v).node (pathOf b) = t.node (pathOf b)) ∧
      ∀ b ix', (t.write (.entry (t.node (pathOf addr)) ix) v).value (pathOf b) ix'
        = if pathOf b = pathOf addr ∧ ix' = ix then v else t.value (pathOf b) ix' := by
  obtain ⟨path, h⟩ := h
  have hlow := lowest_ix addr
  have hlen : ∀ b, (pathOf b).length + 1 = 3 := fun b => by rw [length_pathOf]
  refine ⟨⟨path, h.write (hlen addr) hn ix v⟩, fun b => ?_, fun b ix' => ?_⟩
  · exact node_write h (hlen addr) hn ix v (lt_of_succ_le (le_of_eq (hlen b)))
  · exact h.value_write (hlen addr) hn ix v (by rw [nodeWords]; omega) (hlen b) ix'

/-- Both words of a page are written: no node moves, and only this page changes its owner. -/
theorem storePair_spec (chunk actor : Ptr) :
    Ok (storePair t (t.node (pathOf addr)) (ixOf addr lowest * 2) chunk actor) ∧
      (∀ b, (storePair t (t.node (pathOf addr)) (ixOf addr lowest * 2) chunk actor).node (pathOf b)
        = t.node (pathOf b)) ∧
      ∀ b, owner (storePair t (t.node (pathOf addr)) (ixOf addr lowest * 2) chunk actor) b
        = if pathOf b = pathOf addr ∧ ixOf b lowest = ixOf addr lowest then (chunk, actor)
          else owner t b := by
  obtain ⟨h₁, hnode₁, hvalue₁⟩ := write_spec h hn chunk (le_succ (ixOf addr lowest * 2))
  obtain ⟨h₂, hnode₂, hvalue₂⟩ := write_spec h₁ (by rwa [hnode₁]) actor
    (le_refl (ixOf addr lowest * 2 + 1))
  rw [hnode₁ addr] at h₂ hnode₂ hvalue₂
  refine ⟨h₂, fun b => (hnode₂ b).trans (hnode₁ b), fun b => ?_⟩
  have hvalue : ∀ ix, (storePair t (t.node (pathOf addr)) (ixOf addr lowest * 2) chunk
      actor).value (pathOf b) ix
      = if pathOf b = pathOf addr ∧ ix = ixOf addr lowest * 2 + 1 then actor
        else if pathOf b = pathOf addr ∧ ix = ixOf addr lowest * 2 then chunk
        else t.value (pathOf b) ix := fun ix => (hvalue₂ b ix).trans (by rw [hvalue₁])
  rw [owner, hvalue, hvalue]
  by_cases hpath : pathOf b = pathOf addr
  · by_cases hsame : ixOf b lowest = ixOf addr lowest
    · simp [hpath, hsame]
    have h₁ : ixOf b lowest * 2 ≠ ixOf addr lowest * 2 + 1 := by omega
    have h₂ : ixOf b lowest * 2 ≠ ixOf addr lowest * 2 := by omega
    have h₃ : ixOf b lowest * 2 + 1 ≠ ixOf addr lowest * 2 := by omega
    simp [hsame, h₁, h₂, h₃, owner]
  · simp [hpath, owner]

theorem store_chunk (chunk : Ptr) :
    atomicStore (.entry (t.node (pathOf addr)) (ixOf addr lowest * 2)) chunk t
      = .ok ((), t.write (.entry (t.node (pathOf addr)) (ixOf addr lowest * 2)) chunk) := by
  obtain ⟨path, h⟩ := h
  exact atomicStore_eq (read_lowest h hn (le_succ _))

theorem store_actor (chunk actor : Ptr) :
    atomicStore (.entry (t.node (pathOf addr)) (ixOf addr lowest * 2 + 1)) actor
        (t.write (.entry (t.node (pathOf addr)) (ixOf addr lowest * 2)) chunk)
      = .ok ((), storePair t (t.node (pathOf addr)) (ixOf addr lowest * 2) chunk actor) := by
  obtain ⟨⟨path, h₁⟩, hnode₁, -⟩ := write_spec h hn chunk (le_succ (ixOf addr lowest * 2))
  have hread := read_lowest h₁ (by rwa [hnode₁ addr]) (le_refl (ixOf addr lowest * 2 + 1))
  rw [hnode₁ addr] at hread
  exact atomicStore_eq hread

end

/-- The walk of a writer gives the lowest node of the address, and changes no owner. -/
theorem setWalk_level (h : Ok t) (addr : Nat) : ∃ t₁, setWalk addr level (.root, NULL, 0) t
        = .ok ((.entry (t₁.node (pathOf addr)) (ixOf addr lowest * 2), t₁.node (pathOf addr),
            ixOf addr lowest * 2), t₁) ∧
      t₁.node (pathOf addr) ≠ 0 ∧ Ok t₁ ∧
      (∀ b, owner t₁ b = owner t b ∧ (t.node (pathOf b) ≠ 0 → t₁.node (pathOf b) ≠ 0)) ∧
      (t.node (pathOf addr) ≠ 0 → t₁ = t) := by
  obtain ⟨path, h⟩ := h
  obtain ⟨t₁, hrun, hn, hgrown, hsame⟩ := setWalk_spec addr NULL 0 h .root upper_fits lowest_fits
    (by decide) (fun _ hm => absurd hm not_mem_nil) (by decide)
  have hlen : ∀ b, (pathOf b).length + 1 = 3 := fun b => by rw [length_pathOf]
  refine ⟨t₁, hrun, hn, hgrown.wf, fun b => ⟨?_, fun hb => ?_⟩, hsame⟩
  · rw [owner, owner, hgrown.value _ _ (hlen b), hgrown.value _ _ (hlen b)]
  · exact hgrown.node _ (lt_of_succ_le (le_of_eq (hlen b))) hb

/-- Setting a page whose lowest node is there writes its two words. -/
theorem set_of_node (h : Ok t) (hn : t.node (pathOf addr) ≠ 0) (chunk actor : Ptr) :
    ponyintPagemapSet addr chunk actor t
      = .ok ((), storePair t (t.node (pathOf addr)) (ixOf addr lowest * 2) chunk actor) := by
  obtain ⟨t₁, hrun, -, -, -, hsame⟩ := setWalk_level h addr
  rw [hsame hn] at hrun
  have hix := lowest_ix addr
  have hsize : lowest.size = 65536 := rfl
  have hmask := lowest_mask
  rw [ponyintPagemapSet, bind_eq_ok hrun]
  show (do
    ponyAssert (ixOf addr lowest * 2 ≤ lowest.size)
    ponyAssert (ixOf addr lowest * 2 / 2 ≤ lowest.mask)
    atomicStore (.entry (t.node (pathOf addr)) (ixOf addr lowest * 2)) chunk
    ponyAssert (ixOf addr lowest * 2 + 1 ≤ lowest.size)
    ponyAssert ((ixOf addr lowest * 2 + 1) / 2 ≤ lowest.mask)
    atomicStore (.entry (t.node (pathOf addr)) (ixOf addr lowest * 2 + 1)) actor : PagemapM _) t = _
  rw [bind_eq_ok (ponyAssert_eq (decide_eq_true (by omega))),
    bind_eq_ok (ponyAssert_eq (decide_eq_true (by omega))), bind_eq_ok (store_chunk h hn chunk),
    bind_eq_ok (ponyAssert_eq (decide_eq_true (by omega))),
    bind_eq_ok (ponyAssert_eq (decide_eq_true (by omega)))]
  exact store_actor h hn chunk actor

/-- Setting a page is walking to it and then setting it. -/
theorem set_of_walk {t₁ : Tree} {r : Slot × Ptr × Nat} (h : Ok t)
    (hrun : setWalk addr level (.root, NULL, 0) t = .ok (r, t₁)) (chunk actor : Ptr) :
    ponyintPagemapSet addr chunk actor t = ponyintPagemapSet addr chunk actor t₁ := by
  obtain ⟨t₁', hrun', hn, hok, -, -⟩ := setWalk_level h addr
  rw [hrun] at hrun'
  cases hrun'
  obtain ⟨t₂, hrun₂, -, -, -, hsame⟩ := setWalk_level hok addr
  rw [hsame hn] at hrun₂
  rw [ponyintPagemapSet, bind_eq_ok hrun, bind_eq_ok hrun₂]

/-- **Setting a page** changes the owner of this page alone. -/
theorem set_spec (h : Ok t) (addr : Nat) (chunk actor : Ptr) :
    ∃ t', ponyintPagemapSet addr chunk actor t = .ok ((), t') ∧ Ok t' ∧
      t'.node (pathOf addr) ≠ 0 ∧ (∀ b, t.node (pathOf b) ≠ 0 → t'.node (pathOf b) ≠ 0) ∧
      ∀ b, owner t' b = if pathOf b = pathOf addr ∧ ixOf b lowest = ixOf addr lowest
        then (chunk, actor) else owner t b := by
  obtain ⟨t₁, hrun, hn, hok, howner, -⟩ := setWalk_level h addr
  obtain ⟨hok', hnode, howner'⟩ := storePair_spec hok hn chunk actor
  refine ⟨_, (set_of_walk h hrun chunk actor).trans (set_of_node hok hn chunk actor), hok', ?_,
    fun b hb => ?_, fun b => ?_⟩
  · rwa [hnode]
  · rw [hnode]
    exact (howner b).2 hb
  · rw [howner' b, (howner b).1]

/-! ### Writing a range -/

/-- The pages of a range, by the addresses at which they begin. -/
def pages (addr size : Nat) : List Nat :=
  (range (size / poolAlign)).map fun i => addr + i * poolAlign

/-- Setting `n` pages one after the other. -/
def setPages (chunk actor : Ptr) : Nat → Nat → PagemapM Unit
  | _, 0 => pure ()
  | addr, n + 1 => do
      ponyintPagemapSet addr chunk actor
      setPages chunk actor (addr + poolAlign) n

theorem setPages_eq (chunk actor : Ptr) (addr n : Nat) : setPages chunk actor addr n
      = ((range n).map fun i => addr + i * poolAlign).forM fun a =>
          ponyintPagemapSet a chunk actor := by
  induction n generalizing addr with
  | zero => rfl
  | succ n ih =>
    rw [setPages, ih, range_succ_eq_map, map_cons, map_map, zero_mul]
    have e : (fun i => addr + i * poolAlign) ∘ succ
        = fun i => addr + poolAlign + i * poolAlign := by
      funext i
      show addr + (i + 1) * poolAlign = _
      rw [succ_mul]
      omega
    rw [e]
    rfl

theorem setPages_add {t₁ : Tree} {m n : Nat} (h : setPages chunk actor addr m t = .ok ((), t₁)) :
    setPages chunk actor addr (m + n) t
      = setPages chunk actor (addr + m * poolAlign) n t₁ := by
  induction m generalizing addr t with
  | zero =>
    cases h
    rw [zero_add, zero_mul, add_zero]
  | succ m ih =>
    obtain ⟨⟨⟩, t₂, hset, hrest⟩ := bind_ok h
    rw [succ_add, setPages, bind_eq_ok hset, ih hrest, succ_mul]
    congr 1
    omega

/-- **The `do` loop** sets pages one after the other, one at least, up to the end of the range or of
the lowest node. -/
theorem fillSegment_spec {fuel addrEnd : Nat} (chunk actor : Ptr) (h : Ok t)
    (hn : t.node (pathOf addr) ≠ 0) (haligned : addr % poolAlign = 0)
    (hend : addrEnd % poolAlign = 0) (hlt : addr < addrEnd)
    (hbound : addrEnd ≤ 2 ^ 48) (hfuel : 4096 ≤ fuel + ixOf addr lowest) :
    ∃ m t', fillSegment chunk actor addrEnd (t.node (pathOf addr)) fuel
        (.entry (t.node (pathOf addr)) (ixOf addr lowest * 2)) addr (ixOf addr lowest * 2) t
        = .ok (addr + (m + 1) * poolAlign, t') ∧
      addr + (m + 1) * poolAlign ≤ addrEnd ∧
      setPages chunk actor addr (m + 1) t = .ok ((), t') ∧ Ok t' := by
  induction fuel generalizing addr t with
  | zero =>
    have := lowest_ix addr
    omega
  | succ fuel ih =>
    have hix := lowest_ix addr
    have hsize : lowest.size = 65536 := rfl
    have hmask := lowest_mask
    simp only [poolAlign_eq] at haligned hend ih ⊢
    have hnext : (addr + 1024) % 2 ^ 64 = addr + 1024 := mod_eq_of_lt (by omega)
    obtain ⟨hok, hnode, -⟩ := storePair_spec h hn chunk actor
    obtain ⟨t₁, ht₁⟩ : ∃ t₁, t₁ = storePair t (t.node (pathOf addr)) (ixOf addr lowest * 2)
      chunk actor := ⟨_, rfl⟩
    have hset : setPages chunk actor addr 1 t = .ok ((), t₁) := by
      rw [setPages, bind_eq_ok (set_of_node h hn chunk actor), ht₁]
      rfl
    rw [← ht₁] at hok hnode
    rw [fillSegment, bind_eq_ok (store_chunk h hn chunk),
      bind_eq_ok (ponyAssert_eq (decide_eq_true (by omega))),
      bind_eq_ok (ponyAssert_eq (decide_eq_true (by omega))),
      bind_eq_ok (store_actor h hn chunk actor), ← ht₁, poolAlign_eq, hnext]
    by_cases hgo : addr + 1024 < addrEnd ∧ (ixOf addr lowest * 2 + 1 + 1) / 2 ≤ lowest.mask
    · rw [if_pos hgo]
      obtain ⟨hpath, hlow⟩ := next_page addr (by omega)
      rw [poolAlign_eq] at hpath hlow
      have hn' : t₁.node (pathOf (addr + 1024)) ≠ 0 := by rwa [hpath, hnode]
      obtain ⟨m, t', hrun, hle, hpages, hok'⟩ := ih hok
        hn' (by omega) hgo.1 (by omega)
      rw [hpath, hnode, hlow, succ_mul] at hrun
      have e : addr + 1024 + (m + 1) * 1024 = addr + (m + 1 + 1) * 1024 := by omega
      rw [e] at hrun hle
      refine ⟨m + 1, t', hrun, hle, ?_, hok'⟩
      rw [add_comm (m + 1) 1, setPages_add hset, one_mul]
      exact hpages
    · rw [if_neg hgo]
      exact ⟨0, t₁, by rw [zero_add, one_mul]; rfl, by omega, hset, hok⟩

/-- **Filling a range is setting its pages** one after the other. -/
theorem setBulkLoop_spec {fuel n : Nat} (chunk actor : Ptr) (h : Ok t)
    (haligned : addr % poolAlign = 0) (hbound : addr + n * poolAlign ≤ 2 ^ 48) (hfuel : n ≤ fuel) :
    ∃ t', setBulkLoop chunk actor (addr + n * poolAlign) fuel addr t = .ok ((), t') ∧
      setPages chunk actor addr n t = .ok ((), t') ∧ Ok t' := by
  induction fuel generalizing addr n t with
  | zero =>
    obtain rfl : n = 0 := by omega
    rw [Nat.zero_mul, Nat.add_zero, setBulkLoop, if_neg (Nat.lt_irrefl _)]
    exact ⟨t, rfl, rfl, h⟩
  | succ fuel ih =>
    simp only [poolAlign_eq] at haligned hbound ih ⊢
    rw [setBulkLoop]
    by_cases hn : n = 0
    · subst hn
      rw [Nat.zero_mul, Nat.add_zero, if_neg (Nat.lt_irrefl _)]
      exact ⟨t, rfl, rfl, h⟩
    have hpos : addr < addr + n * 1024 := by omega
    obtain ⟨t₁, hrun, hleaf, hok, -, -⟩ := setWalk_level h addr
    have hfuel' : 4096 ≤ lowest.mask + 1 + ixOf addr lowest := by
      rw [lowest_mask]
      omega
    obtain ⟨m, t₂, hfill, hle, hpages, hok₂⟩ := fillSegment_spec chunk actor hok
      hleaf (by rwa [poolAlign_eq]) (by rw [poolAlign_eq]; omega) hpos hbound hfuel'
    rw [poolAlign_eq] at hfill hle
    have hmn : m + 1 ≤ n := by omega
    obtain ⟨k, rfl⟩ := Nat.exists_eq_add_of_le hmn
    have hend : addr + (m + 1 + k) * 1024 = addr + (m + 1) * 1024 + k * 1024 := by
      rw [Nat.add_mul, Nat.add_assoc]
    have haligned' : (addr + (m + 1) * 1024) % 1024 = 0 := by omega
    obtain ⟨t₃, hloop, hrest, hok₃⟩ := ih hok₂ haligned' (hend ▸ hbound) (by omega)
    have hfirst : setPages chunk actor addr (m + 1) t = .ok ((), t₂) := by
      rw [← hpages]
      show (ponyintPagemapSet addr chunk actor t >>= _)
        = (ponyintPagemapSet addr chunk actor t₁ >>= _)
      rw [set_of_walk h hrun]
    refine ⟨t₃, ?_, ?_, hok₃⟩
    · rw [if_pos hpos, bind_eq_ok hrun]
      show (fillSegment chunk actor _ _ _ _ _ _ >>= _) t₁ = _
      rw [bind_eq_ok hfill, hend, hloop]
    · rw [setPages_add hfirst, poolAlign_eq, hrest]

/-- `ponyint_pagemap_set_bulk` sets the pages of its range. -/
theorem setBulk_eq (h : Ok t) (chunk actor : Ptr) (haligned : addr % poolAlign = 0)
    (hsize : size % poolAlign = 0) (hbound : addr + size ≤ 2 ^ 48) :
    ∃ t', ponyintPagemapSetBulk addr chunk actor size t = .ok ((), t') ∧
      setPages chunk actor addr (size / poolAlign) t = .ok ((), t') ∧ Ok t' := by
  have e : size = size / poolAlign * poolAlign :=
    (Nat.div_mul_cancel (Nat.dvd_of_mod_eq_zero hsize)).symm
  have hloop := setBulkLoop_spec chunk actor h haligned (e ▸ hbound)
    (Nat.le_refl (size / poolAlign))
  rw [← e] at hloop
  rwa [ponyintPagemapSetBulk, Nat.mod_eq_of_lt (by omega)]

/-! ### Runs -/

theorem setPages_spec {n : Nat} (h : Ok t) (chunk actor : Ptr) (haligned : addr % poolAlign = 0)
    (hbound : addr + n * poolAlign ≤ 2 ^ 48) :
    ∃ t', setPages chunk actor addr n t = .ok ((), t') ∧ Ok t' ∧
      (∀ b, t.node (pathOf b) ≠ 0 → t'.node (pathOf b) ≠ 0) ∧
      ∀ b < 2 ^ 48, if pageOf addr ≤ pageOf b ∧ pageOf b < pageOf addr + n
        then owner t' b = (chunk, actor) ∧ t'.node (pathOf b) ≠ 0
        else owner t' b = owner t b := by
  induction n generalizing addr t with
  | zero =>
    refine ⟨t, rfl, h, fun _ hb => hb, fun b _ => ?_⟩
    rw [if_neg (by omega)]
  | succ n ih =>
    obtain ⟨t₁, hset, hok, hn, hkeep, howner⟩ := set_spec h addr chunk actor
    rw [succ_mul] at hbound
    have haddr : addr < 2 ^ 48 := by
      have := poolAlign_eq
      omega
    have haligned' : (addr + poolAlign) % poolAlign = 0 := by rw [add_mod_right, haligned]
    obtain ⟨t₂, hrest, hok₂, hkeep₂, howner₂⟩ := ih hok haligned' (by omega)
    have hnext : pageOf (addr + poolAlign) = pageOf addr + 1 := add_div_right _ (by decide)
    refine ⟨t₂, ?_, hok₂, fun b hb => hkeep₂ b (hkeep b hb), fun b hb => ?_⟩
    · rw [setPages, bind_eq_ok hset, hrest]
    have hrec := howner₂ b hb
    have hthis := howner b
    rw [hnext] at hrec
    by_cases hpage : pageOf b = pageOf addr
    · have hix := (pageOf_eq_iff hb haddr).1 hpage
      rw [if_neg (by omega)] at hrec
      rw [if_pos hix] at hthis
      rw [if_pos (by omega), hrec, hthis]
      exact ⟨rfl, hkeep₂ b (hix.1 ▸ hn)⟩
    have hix := fun hc => hpage ((pageOf_eq_iff hb haddr).2 hc)
    rw [if_neg hix] at hthis
    by_cases hin : pageOf addr + 1 ≤ pageOf b ∧ pageOf b < pageOf addr + 1 + n
    · rw [if_pos hin] at hrec
      rw [if_pos (by omega)]
      exact hrec
    · rw [if_neg hin] at hrec
      rw [if_neg (by omega), hrec, hthis]

/-- One call: the pages it covers change their owner, the others keep it. -/
theorem Call.run_spec {c : Call} (h : Ok t) (hc : c.Valid) :
    ∃ t', c.run t = .ok ((), t') ∧ Ok t' ∧ (∀ b, t.node (pathOf b) ≠ 0 → t'.node (pathOf b) ≠ 0) ∧
      ∀ b < 2 ^ 48, if c.Covers b then owner t' b = (c.chunk, c.actor) ∧ t'.node (pathOf b) ≠ 0
        else owner t' b = owner t b := by
  obtain ⟨haligned, hsize, hbound⟩ := hc
  have e : c.size = c.size / poolAlign * poolAlign :=
    (Nat.div_mul_cancel (Nat.dvd_of_mod_eq_zero hsize)).symm
  have hcovers : ∀ b, c.Covers b ↔
      pageOf c.addr ≤ pageOf b ∧ pageOf b < pageOf c.addr + c.size / poolAlign := by
    intro b
    rw [Covers]
    simp only [pageOf, poolAlign_eq] at *
    omega
  obtain ⟨t', hrun, hok, hkeep, howner⟩ := setPages_spec h c.chunk c.actor haligned (e ▸ hbound)
  refine ⟨t', ?_, hok, hkeep, fun b hb => ?_⟩
  · cases c with
    | set addr chunk actor =>
      have hdiv : (Call.set addr chunk actor).size / poolAlign = 1 :=
        Nat.div_self (show 0 < poolAlign by decide)
      rw [hdiv] at hrun
      obtain ⟨⟨⟩, t₁, hset, ⟨⟩⟩ := bind_ok hrun
      exact hset
    | setBulk addr chunk actor size =>
      obtain ⟨t₁, hbulk, hpages, -⟩ := setBulk_eq h chunk actor haligned hsize hbound
      have hsame : (.ok ((), t₁) : Except Fault (Unit × Tree)) = .ok ((), t') :=
        hpages.symm.trans hrun
      cases hsame
      exact hbulk
  have hthis := howner b hb
  by_cases hcov : c.Covers b
  · rw [if_pos ((hcovers b).1 hcov)] at hthis
    rwa [if_pos hcov]
  · rw [if_neg fun hin => hcov ((hcovers b).2 hin)] at hthis
    rwa [if_neg hcov]

theorem lastCall_append (calls : List Call) (c : Call) (b : Nat) :
    lastCall (calls ++ [c]) b = if c.Covers b then some c else lastCall calls b := by
  rw [lastCall, reverse_append, reverse_singleton, singleton_append, find?_cons]
  by_cases h : c.Covers b
  · rw [if_pos h, decide_eq_true h]
  · rw [if_neg h, decide_eq_false h]
    rfl

/-- What a run leaves for every page. -/
theorem run_spec (calls : List Call) (h : ∀ c ∈ calls, c.Valid) :
    ∃ t, calls.forM Call.run ⟨0, []⟩ = .ok ((), t) ∧ Ok t ∧ ∀ b < 2 ^ 48,
      owner t b
          = ((lastCall calls b).elim NULL Call.chunk, (lastCall calls b).elim NULL Call.actor) ∧
        (lastCall calls b ≠ none → t.node (pathOf b) ≠ 0) := by
  induction calls using reverseRec with
  | nil => exact ⟨⟨0, []⟩, rfl, ok_empty, fun b _ => ⟨rfl, fun hc => absurd rfl hc⟩⟩
  | append_singleton calls c ih =>
    obtain ⟨hcalls, hc⟩ := forall_mem_append.1 h
    obtain ⟨t, hrun, hok, howner⟩ := ih hcalls
    obtain ⟨t', hcall, hok', hkeep, howner'⟩ := Call.run_spec hok (hc c (.head _))
    refine ⟨t', ?_, hok', fun b hb => ?_⟩
    · rw [forM_eq_forM, forM_append]
      rw [forM_eq_forM] at hrun
      rw [bind_eq_ok hrun]
      exact bind_eq_ok hcall
    have hthis := howner' b hb
    obtain ⟨hold, hnode⟩ := howner b hb
    rw [lastCall_append]
    by_cases hcov : c.Covers b
    · rw [if_pos hcov] at hthis ⊢
      exact ⟨hthis.1, fun _ => hthis.2⟩
    · rw [if_neg hcov] at hthis ⊢
      exact ⟨hthis.trans hold, fun hne => hkeep b (hnode hne)⟩

/-- **The pagemap is a map from pages to owners.**  After any calls, one at a time, a reader of an
address below 2^48 gets the chunk and the actor of the last call whose range contains the page of
the address, and `NULL` where there is none; and filling a range is setting its pages. -/
theorem pagemap_gives_last_owner (calls : List Call) (h : ∀ c ∈ calls, c.Valid) :
    ∃ t, calls.forM Call.run ⟨0, []⟩ = .ok ((), t) ∧
      (∀ addr < 2 ^ 48, ponyintPagemapGetChunk addr t
            = .ok ((lastCall calls addr).elim NULL Call.chunk, t) ∧
          ∀ actor, ∃ actor', ponyintPagemapGet addr actor t
              = .ok (((lastCall calls addr).elim NULL Call.chunk, actor'), t) ∧
            (∀ c, lastCall calls addr = some c → actor' = c.actor) ∧
            (lastCall calls addr = none → actor' = NULL ∨ actor' = actor)) ∧
      ∀ addr chunk actor size, (Call.setBulk addr chunk actor size).Valid →
        ponyintPagemapSetBulk addr chunk actor size t
          = (pages addr size).forM (fun page => ponyintPagemapSet page chunk actor) t := by
  obtain ⟨t, hrun, hok, howner⟩ := run_spec calls h
  refine ⟨t, hrun, fun addr haddr => ?_, fun addr chunk actor size hv => ?_⟩
  · obtain ⟨hown, hnode⟩ := howner addr haddr
    have hchunk := getChunk_spec hok addr
    rw [hown] at hchunk
    refine ⟨hchunk, fun actor => ?_⟩
    have hget := get_spec hok addr actor
    rw [hown] at hget
    refine ⟨_, hget, fun c hc => ?_, fun hnone => ?_⟩
    · rw [if_neg (hnode (by rw [hc]; exact Option.some_ne_none c)), hc]
      rfl
    rw [hnone]
    split
    · exact .inr rfl
    · exact .inl rfl
  obtain ⟨haligned, hsize, hbound⟩ := hv
  obtain ⟨t', hbulk, hpages, -⟩ := setBulk_eq hok chunk actor haligned hsize hbound
  rw [setPages_eq] at hpages
  exact hbulk.trans hpages.symm

/-- Two ranges, the second across the end of a lowest node and of the node above it. -/
theorem pagemap_gives_last_owner_two :
    ∃ t, [Call.set (2 ^ 35) 7 8, Call.setBulk (2 ^ 35 - 2048) 9 10 4096].forM Call.run ⟨0, []⟩
        = .ok ((), t) ∧ ponyintPagemapGetChunk (2 ^ 35 + 5) t = .ok (9, t) ∧
      ponyintPagemapGetChunk (2 ^ 35 + 2048) t = .ok (NULL, t) := by
  obtain ⟨t, hrun, hget, -⟩ := pagemap_gives_last_owner
    [Call.set (2 ^ 35) 7 8, Call.setBulk (2 ^ 35 - 2048) 9 10 4096] (by simp [Call.Valid]; decide)
  exact ⟨t, hrun, (hget _ (by decide)).1, (hget _ (by decide)).1⟩

end SpacePony.Mem
