import SpacePony.Runtime.Mem.Pagemap

/-!
# Runtime — memory — walks through the pagemap

What the walks of the pagemap do to the tree, level by level: a node that is missing is hung in, and
no value changes (`nodeAt_spec`), until the walks end at the lowest node of the address
(`getWalk_spec`, `setWalk_spec`).
-/

namespace SpacePony.Mem

open List PrefixTree PrefixTree.Tree Hoare

/-- The nodes of the level have `width` words, and its indices are among them. -/
def Level.Fits (width : Nat) (l : Level) : Prop := l.size / ptrSize = width ∧ l.mask < width

variable {t : Tree} {addr depth width p ix v : Nat} {ks : List Nat} {slot slot₀ : Slot}
  {path : Nat → List Nat} {l : Level} {ls : List Level}

theorem ixOf_le (addr : Nat) (l : Level) : ixOf addr l ≤ l.mask := Nat.and_le_right

theorem Level.Fits.ixOf_lt (h : l.Fits width) (addr : Nat) : ixOf addr l < width :=
  Nat.lt_of_le_of_lt (ixOf_le addr l) h.2

theorem Level.Fits.width_le (h : l.Fits width) : width ≤ l.size := by
  rw [← h.1]
  exact Nat.div_le_self ..

/-! ### Accesses -/

theorem atomicLoad_eq (h : t.read slot = some v) : atomicLoad slot t = .ok (v, t) := by
  have hget : (get : PagemapM Tree) t = .ok (t, t) := rfl
  rw [atomicLoad, bind_eq_ok hget, h]
  rfl

theorem atomicStore_eq {u : Nat} (h : t.read slot = some u) :
    atomicStore slot v t = .ok ((), t.write slot v) := by
  rw [atomicStore, bind_eq_ok (atomicLoad_eq h)]
  rfl

theorem ponyAssert_eq {b : Bool} (h : b = true) : ponyAssert b t = .ok ((), t) := by
  rw [ponyAssert, if_pos h]
  rfl

/-- A path that has left the tree stays outside. -/
theorem node_append_eq_zero (h : t.node ks = 0) (l : List Nat) : t.node (ks ++ l) = 0 := by
  induction l using reverseRec with
  | nil => rwa [append_nil]
  | append_singleton l ix ih => rw [← append_assoc, node_concat, ih, word_zero]

/-! ### Reading -/

/-- **The walk of a reader** ends at the lowest node of the address, or where the path leaves the
tree. -/
theorem getWalk_spec (addr : Nat) (slot₀ : Slot) (i₀ : Nat) (ks : List Nat)
    (h : t.Wf depth width path) (hls : ∀ m ∈ ls, m.Fits width)
    (hl : l.Fits width) (hlast : 2 * l.mask < width) (hlen : ks.length + ls.length < depth) :
    getWalk addr (ls ++ [l]) (slot₀, t.node ks, i₀) t
      = .ok (if t.node (ks ++ ls.map (ixOf addr)) = 0 then none
          else some (.entry (t.node (ks ++ ls.map (ixOf addr))) (ixOf addr l * 2),
            t.node (ks ++ ls.map (ixOf addr)), ixOf addr l * 2), t) := by
  induction ls generalizing ks slot₀ i₀ with
  | nil =>
    rw [nil_append, map_nil, append_nil, getWalk]
    by_cases hn : t.node ks = 0
    · rw [if_pos (show _ = NULL from hn), if_pos hn]
      rfl
    have hle := ixOf_le addr l
    have hwidth := hl.width_le
    rw [if_neg (show _ ≠ NULL from hn), if_neg hn, isEmpty_nil, if_pos rfl]
    rw [bind_eq_ok (ponyAssert_eq (decide_eq_true (show ixOf addr l * 2 ≤ l.size by omega))),
      bind_eq_ok (ponyAssert_eq (decide_eq_true (show ixOf addr l * 2 / 2 ≤ l.mask by omega)))]
    rfl
  | cons m ls ih =>
    obtain ⟨hm, hls⟩ := forall_mem_cons.1 hls
    rw [length_cons] at hlen
    rw [cons_append, map_cons, append_cons ks, getWalk]
    by_cases hn : t.node ks = 0
    · rw [if_pos (show _ = NULL from hn),
        if_pos (node_append_eq_zero (by rw [node_concat, hn, word_zero]) _)]
      rfl
    have hempty : (ls ++ [l]).isEmpty = false := by simp
    have hle := ixOf_le addr m
    have hwidth := hm.width_le
    have hlt := hm.2
    have hread := h.read (h.node (by omega) hn).1 (hm.ixOf_lt addr)
    rw [if_neg (show _ ≠ NULL from hn), hempty, if_neg Bool.false_ne_true]
    rw [bind_eq_ok (atomicLoad_eq hread),
      bind_eq_ok (ponyAssert_eq (decide_eq_true (show ixOf addr m ≤ m.size by omega))),
      bind_eq_ok (ponyAssert_eq (decide_eq_true hle)), ← node_concat]
    exact ih _ _ _ hls (by rw [length_append, length_singleton]; omega)

/-! ### Writing -/

/-- A tree that holds the same values, with the nodes that were there and perhaps others. -/
structure Grown (depth width : Nat) (t t' : Tree) : Prop where
  wf : ∃ path, t'.Wf depth width path
  node : ∀ ks, ks.length < depth → t.node ks ≠ 0 → t'.node ks ≠ 0
  value : ∀ ks ix, ks.length + 1 = depth → t'.value ks ix = t.value ks ix

/-- The walk to a slot returns the node there, one it has allocated where there was none. -/
theorem nodeAt_spec (h : t.Wf depth width path) (hs : t.SlotAt ks slot) (hl : l.Fits width)
    (hks : ∀ ix ∈ ks, ix < width) (hlen : ks.length < depth) :
    ∃ t', nodeAt slot l t = .ok (t'.node ks, t') ∧ t'.node ks ≠ 0 ∧ Grown depth width t t' ∧
      (t.node ks ≠ 0 → t' = t) := by
  have hread := hs.read h (Nat.le_of_lt hlen) hks
  by_cases hn : t.node ks = 0
  · have hnull : t.read slot = some 0 := hread.trans (by rw [hn])
    refine ⟨t.link width slot, ?_, ?_, ⟨⟨_, h.link hnull hs hlen⟩, fun ks' hks' hn' => ?_,
      fun ks' ix hks' => h.value_link hnull hs hlen hks'⟩, fun hc => absurd hn hc⟩
    · rw [node_link_fresh h hnull hs hlen, nodeAt, bind_eq_ok (atomicLoad_eq hread),
        if_pos (show _ = NULL from hn)]
      have hsize : l.size / ptrSize = width := hl.1
      have hread' : (t.alloc width).read slot = some 0 := read_alloc hnull
      have halloc : allocNode l.size t = .ok (t.nodes.length + 1, t.alloc width) := by
        have hlen : (t.alloc width).nodes.length = t.nodes.length + 1 := by simp [alloc]
        rw [← hlen, ← hsize]
        rfl
      have hexchange : atomicCompareExchange slot (t.node ks) (t.nodes.length + 1) (t.alloc width)
          = .ok ((true, 0), t.link width slot) := by
        rw [atomicCompareExchange, bind_eq_ok (atomicLoad_eq hread'), if_pos hn.symm]
        rfl
      rw [bind_eq_ok halloc, bind_eq_ok hexchange]
      rfl
    · rw [node_link_fresh h hnull hs hlen]
      exact Nat.succ_ne_zero _
    · rwa [node_link h hnull hks' hn']
  · refine ⟨t, ?_, hn, ⟨⟨path, h⟩, fun _ _ hn' => hn', fun _ _ _ => rfl⟩, fun _ => rfl⟩
    rw [nodeAt, bind_eq_ok (atomicLoad_eq hread), if_neg (show _ ≠ NULL from hn)]
    rfl

/-- **The walk of a writer** ends at the lowest node of the address, and hangs in the nodes that
are missing on the way. -/
theorem setWalk_spec (addr : Nat) (p₀ : Ptr) (i₀ : Nat) (h : t.Wf depth width path)
    (hs : t.SlotAt ks slot)
    (hls : ∀ m ∈ ls, m.Fits width) (hl : l.Fits width) (hlast : 2 * l.mask + 1 < width)
    (hks : ∀ ix ∈ ks, ix < width) (hlen : ks.length + ls.length < depth) :
    ∃ t', setWalk addr (ls ++ [l]) (slot, p₀, i₀) t
        = .ok ((.entry (t'.node (ks ++ ls.map (ixOf addr))) (ixOf addr l * 2),
            t'.node (ks ++ ls.map (ixOf addr)), ixOf addr l * 2), t') ∧
      t'.node (ks ++ ls.map (ixOf addr)) ≠ 0 ∧ Grown depth width t t' ∧
      (t.node (ks ++ ls.map (ixOf addr)) ≠ 0 → t' = t) := by
  induction ls generalizing p₀ i₀ ks slot t path with
  | nil =>
    obtain ⟨t', hrun, hn, hgrown, hsame⟩ := nodeAt_spec h hs hl hks (by omega)
    have hle := ixOf_le addr l
    have hwidth := hl.width_le
    rw [map_nil, append_nil]
    refine ⟨t', ?_, hn, hgrown, hsame⟩
    rw [nil_append, setWalk, bind_eq_ok hrun,
      bind_eq_ok (ponyAssert_eq (decide_eq_true (show ixOf addr l ≤ l.size by omega))),
      bind_eq_ok (ponyAssert_eq (decide_eq_true hle))]
    rfl
  | cons m ls ih =>
    obtain ⟨hm, hls⟩ := forall_mem_cons.1 hls
    rw [length_cons] at hlen
    obtain ⟨t₁, hrun, hn, hgrown, hsame⟩ := nodeAt_spec h hs hm hks (by omega)
    obtain ⟨path₁, h₁⟩ := hgrown.wf
    have hle := ixOf_le addr m
    have hwidth := hm.width_le
    have hlt := hm.2
    have hempty : (ls ++ [l]).isEmpty = false := by simp
    obtain ⟨t₂, hrun₂, hn₂, hgrown₂, hsame₂⟩ := ih (t₁.node ks) (ixOf addr m) h₁
      (.entry hn) hls
      (forall_mem_append.2 ⟨hks, forall_mem_singleton.2 (hm.ixOf_lt addr)⟩)
      (by rw [length_append, length_singleton]; omega)
    rw [map_cons, append_cons ks]
    refine ⟨t₂, ?_, hn₂, ⟨hgrown₂.wf, fun ks' hks' hn' => hgrown₂.node ks' hks'
      (hgrown.node ks' hks' hn'), fun ks' ix hks' => ?_⟩, fun hn' => ?_⟩
    · rw [cons_append, setWalk, bind_eq_ok hrun,
        bind_eq_ok (ponyAssert_eq (decide_eq_true (show ixOf addr m ≤ m.size by omega))),
        bind_eq_ok (ponyAssert_eq (decide_eq_true hle)), hempty, if_neg Bool.false_ne_true]
      exact hrun₂
    · rw [hgrown₂.value ks' ix hks', hgrown.value ks' ix hks']
    have hks₀ : t.node ks ≠ 0 := fun e =>
      hn' (node_append_eq_zero (by rw [node_concat, e, word_zero]) _)
    have e := hsame hks₀
    rw [e] at hsame₂
    exact hsame₂ hn'

end SpacePony.Mem
