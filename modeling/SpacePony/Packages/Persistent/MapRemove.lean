import SpacePony.Packages.Persistent.MapUpdate

/-!
# Packages — persistent — removing from the trie

* `landing`: the entry that the hash of a key leads to, whatever its own key is.
* `remove_spec`: `remove` takes out that entry, without comparing its key; where the
  hash leads to no entry it takes out the entry of the key, or raises an error when there is none.
  Either way it keeps the invariant.
-/

namespace SpacePony.Persistent

open MapSubNodes Option List Collections Compressed

variable {K V : Type} {H : HashFunction K}

/-- The entry at the end of the path of a hash, when that is not a collision node. -/
def MapSubNodes.landing : (levels depth : Nat) → BitVec 32 → MapSubNodes K V → Option (K × V)
  | 0, _, _, _ => none
  | levels + 1, depth, hash, ns => do
      let cIdx ← ns.compressedIdx (mask32 hash depth)
      match ← ns.nodes[cIdx]? with
      | .entry e => some e
      | .subNodes nodes nodeMap dataMap =>
        landing levels (depth + 1) hash { nodes, nodeMap, dataMap }
      | .collisions _ => none

/-- The path of a hash ends at one entry: that is all a lookup can find. -/
theorem MapSubNodes.apply_of_landing {levels d : Nat} {hash : BitVec 32} {ns : MapSubNodes K V}
    {e : K × V} (h : ns.landing levels d hash = some e) (k : K) :
    ns.apply H levels d hash k = if H.eq k e.1 then some e.2 else none := by
  induction levels generalizing d ns with
  | zero => cases h
  | succ levels ih =>
    rw [landing] at h
    simp only [bind_eq_bind, bind_eq_some_iff] at h
    obtain ⟨c, hc, n, hn, h⟩ := h
    rw [apply]
    simp only [hc, hn, bind_eq_bind, bind_some]
    cases n with
    | entry a =>
      cases h
      rfl
    | subNodes nodes nodeMap dataMap => exact ih h
    | collisions bins => cases h

/-! ### Nodes of few entries -/

variable {A B : List (MapNode K V)} {n : MapNode K V}

section
variable {child : MapNode K V → Prop} {d i : Nat} {ns : MapSubNodes K V}

theorem popcount_pos {w : Nat} {b : BitVec w} (h : popcount b ≠ 0) : b ≠ 0 := by
  rintro rfl
  rw [popcount_eq] at h
  refine h (length_eq_zero_iff.2 ?_)
  rw [bits, filter_eq_nil_iff]
  intro j _
  simp

theorem popcount_ne_zero {w : Nat} {b : BitVec w} (h : b ≠ 0) : popcount b ≠ 0 := by
  intro h0
  rw [popcount_eq, length_eq_zero_iff] at h0
  refine h (BitVec.eq_of_getLsbD_eq fun i _ => ?_)
  have hnot : i ∉ bits b := by
    rw [h0]
    exact not_mem_nil
  rw [mem_bits, Bool.not_eq_true] at hnot
  rw [hnot]
  simp

/-- A node whose array has one element, and that an entry. -/
theorem Level.single (h : Level H child d ns) (hlen : ns.nodes.length = 1) (hdm : ns.dataMap ≠ 0) :
    ∃ a, ns.nodes = [.entry a] := by
  obtain ⟨-, ds, cs, hns, hds, -⟩ := h
  have hpos := popcount_ne_zero hdm
  rw [← hds.length] at hpos
  rw [hns, length_append, length_map] at hlen
  have hcs : cs = [] := eq_nil_of_length_eq_zero (by omega)
  obtain ⟨a, rfl⟩ := length_eq_one_iff.1 (show ds.length = 1 by omega)
  exact ⟨a, by rw [hns, hcs]; rfl⟩

/-- A node with one entry below it is of that kind. -/
theorem Level.single_of_entries (h : Level H child d ns) (hlen : ns.entries.length = 1) :
    ns.nodes.length = 1 ∧ ns.dataMap ≠ 0 := by
  obtain ⟨-, ds, cs, hns, hds, hcs⟩ := h
  rw [entries, hns, entriesOf_append, entriesOf_map_entry, length_append] at hlen
  cases cs with
  | cons c cs =>
    -- a node has two entries below it
    obtain ⟨_, -, -, htwo, -⟩ := hcs.mem (.head _)
    rw [entriesOf_cons, length_append] at hlen
    omega
  | nil =>
    rw [entriesOf_nil, length_nil] at hlen
    refine ⟨by rw [hns, length_append, length_map]; exact hlen, ?_⟩
    exact popcount_pos (by rw [← hds.length]; omega)

/-- An entry takes the place of the node of its bit. -/
theorem Level.compact (h : Level H child d ns) (hn : ns.nodeMap.getLsbD i = true)
    (hAB : ns.nodes = A ++ n :: B)
    (hlev : Level H child d ⟨A ++ B, clearBit ns.nodeMap i, ns.dataMap⟩) {a : K × V}
    (ha : slotOf H d a.1 = i) :
    ∃ ns', ns.compact i A.length (.entry a) = some ns' ∧ Level H child d ns' ∧
      ns'.entries.Perm (a :: (entriesOf A ++ entriesOf B)) := by
  have hi := BitVec.lt_of_getLsbD hn
  have hd : ns.dataMap.getLsbD i = false := by
    rw [Bool.eq_false_iff]
    intro hd
    rw [h.1 i hd] at hn
    cases hn
  obtain ⟨A', B', hAB', hlen', hput⟩ := hlev.gap_data hi hd (by simp [getLsbD_clearBit hi hi])
  have hc : (⟨A ++ B, clearBit ns.nodeMap i, setBit ns.dataMap i⟩ :
      MapSubNodes K V).compressedIdx i = some A'.length := by
    rw [hlen', ← rank_setBit hi]
    exact compressedIdx_data hi (by simp [getLsbD_setBit hi])
  refine ⟨_, ?_, hput a ha, ?_⟩
  · rw [MapSubNodes.compact]
    simp only [hAB, deleteAt_at rfl, hc, bind_eq_bind, bind_some]
    simp only [show A ++ B = A' ++ B' from hAB', insertAt_at rfl, bind_some]
  have hrest : entriesOf A ++ entriesOf B = entriesOf A' ++ entriesOf B' := by
    rw [← entriesOf_append, ← entriesOf_append, show A ++ B = A' ++ B' from hAB']
  rw [hrest, MapSubNodes.entries, entriesOf_append, entriesOf_cons]
  exact perm_middle

end

/-! ### Collisions -/

/-- `remove` takes one entry of the key out of the bins, or there is none. -/
theorem Collisions.remove_spec (L : H.Lawful) {bins : List (List (K × V))} (h : Bins H bins)
    (k : K) : (∃ e bins', Collisions.remove H bins (hash32 H k) k = some bins' ∧ Bins H bins' ∧
      bins.flatten.Perm (e :: bins'.flatten) ∧ H.eq e.1 k = true) ∨
    (Collisions.remove H bins (hash32 H k) k = none ∧ ∀ e ∈ bins.flatten, H.eq e.1 k = false) := by
  obtain ⟨lo, bin, hi, rfl, hlen, hlo, hhi, hput⟩ := h.split L k
  have hget : (lo ++ bin :: hi)[slotOf H collisionDepth k]? = some bin := getElem?_at hlen.symm
  have hset : ∀ bin', setAt (lo ++ bin :: hi) (slotOf H collisionDepth k) bin' =
      some (lo ++ bin' :: hi) := fun bin' => setAt_at hlen.symm
  rw [Collisions.remove]
  simp only [mask32_hash32, bind_eq_bind, hget, bind_some]
  cases hf : bin.findIdx? fun e => H.eq k e.1 with
  | some i =>
    obtain ⟨blo, a, bhi, rfl, rfl, hk⟩ := findIdx?_split hf
    refine .inl ⟨a, lo ++ (blo ++ bhi) :: hi, ?_, hput _ fun x hx => ?_, ?_, L.symm _ _ hk⟩
    · simp only [deleteAt_at rfl, bind_some, hset]
    · refine h.2 _ _ hget x ?_
      rcases mem_append.1 hx with hx | hx
      · exact mem_append_left _ hx
      · exact mem_append_right _ (.tail _ hx)
    · simp only [flatten_append, flatten_cons]
      exact ((perm_middle.append_right _).append_left _).trans perm_middle
  | none =>
    refine .inr ⟨rfl, fun a ha => ?_⟩
    rw [flatten_append, flatten_cons] at ha
    rcases mem_append.1 ha with ha | ha
    · exact hlo a ha
    rcases mem_append.1 ha with ha | ha
    · rw [Lawful.eq_comm L]
      exact findIdx?_eq_none_iff.1 hf a ha
    · exact hhi a ha

/-- The only entry of the bins is the last that is pulled. -/
theorem Collisions.pullLast_eq {bins : List (List (K × V))} {a : K × V} {r : List (K × V)}
    (h : bins.flatten = a :: r) : Collisions.pullLast bins = some a := by
  rw [Collisions.pullLast]
  induction bins with
  | nil => cases h
  | cons bin bins ih =>
    cases bin with
    | nil => exact ih h
    | cons x bin =>
      cases h
      rfl

/-! ### Nodes -/

/-- What removing does: the entry that the hash leads to is taken out, or the entry of the key, or
there is none. -/
def Removal (H : HashFunction K) (k : K) (trie : MapSubNodes K V → Prop) (land : Option (K × V))
    (entries : List (K × V)) (res : Option (MapSubNodes K V)) : Prop :=
  (∃ e ns', res = some ns' ∧ trie ns' ∧ entries.Perm (e :: ns'.entries) ∧
    (land = some e ∨ (land = none ∧ H.eq e.1 k = true))) ∨
  (res = none ∧ land = none ∧ ∀ e ∈ entries, H.eq e.1 k = false)

section
variable {levels r d : Nat} {ns : MapSubNodes K V} {k : K}

/-- The key's bit has an entry: it is taken out. -/
theorem remove_data (L : H.Lawful) (h : Trie H r d ns)
    (hd : ns.dataMap.getLsbD (slotOf H d k) = true) :
    Removal H k (Trie H r d) (ns.landing (levels + 1) d (hash32 H k)) ns.entries
      (ns.remove H (levels + 1) d (hash32 H k) k) := by
  have hlt := slotOf_lt (H := H) d k
  obtain ⟨A, e, B, hAB, hlen, -, -, hdel, -⟩ := h.at_data L hd
  have hc : ns.compressedIdx (slotOf H d k) = some A.length := by
    rw [hlen]
    exact compressedIdx_data hlt hd
  refine .inl ⟨e, _, ?_, hdel, ?_, .inl ?_⟩
  · rw [remove]
    simp only [mask32_hash32, hc, bind_eq_bind, bind_some, checkBit_eq hlt, hd,
      if_true, hAB, deleteAt_at rfl]
  · rw [entries, entries, hAB]
    simp only [entriesOf_append, entriesOf_cons, MapNode.entries_entry]
    exact perm_middle
  · rw [landing]
    simp only [mask32_hash32, hc, bind_eq_bind, bind_some, hAB, getElem?_at rfl]

/-- The entries of a level, with those of one node apart. -/
theorem entries_at (hAB : ns.nodes = A ++ n :: B) :
    ns.entries = entriesOf A ++ (n.entries ++ entriesOf B) := by
  rw [entries, hAB, entriesOf_append, entriesOf_cons]

/-- One entry less in a node, among other nodes. -/
theorem perm_at {A B l l' : List (K × V)} {e : K × V} (h : l.Perm (e :: l')) :
    (A ++ (l ++ B)).Perm (e :: (A ++ (l' ++ B))) :=
  ((h.append_right B).append_left A).trans perm_middle

/-- The key's bit has a node, and an entry was taken out of it; what is left replaces the node,
or, when it is one entry, takes its place. -/
theorem remove_node {n' : MapNode K V} {e : K × V} (h : Trie H r d ns)
    (hn : ns.nodeMap.getLsbD (slotOf H d k) = true) (hAB : ns.nodes = A ++ n :: B)
    (hbel : Below H (Good H r (d + 1)) d (slotOf H d k) n)
    (hput : ∀ n', Below H (Good H r (d + 1)) d (slotOf H d k) n' →
      Trie H r d ⟨A ++ n' :: B, ns.nodeMap, ns.dataMap⟩)
    (hdel : Trie H r d ⟨A ++ B, clearBit ns.nodeMap (slotOf H d k), ns.dataMap⟩)
    (hgood : Good H r (d + 1) n') (hperm : n.entries.Perm (e :: n'.entries)) :
    (∀ a, n'.entries = [a] → ∃ ns', ns.compact (slotOf H d k) A.length (.entry a) = some ns' ∧
      Trie H r d ns' ∧ ns.entries.Perm (e :: ns'.entries)) ∧
    (n'.entries.length ≠ 1 → ∃ ns', ns' = ⟨A ++ n' :: B, ns.nodeMap, ns.dataMap⟩ ∧
      Trie H r d ns' ∧ ns.entries.Perm (e :: ns'.entries)) := by
  obtain ⟨-, htwo, hslot⟩ := hbel
  have hslot' : ∀ a ∈ n'.entries, slotOf H d a.1 = slotOf H d k := fun a ha =>
    hslot a (hperm.mem_iff.2 (.tail _ ha))
  have hlen := hperm.length_eq
  rw [length_cons] at hlen
  rw [entries_at hAB]
  constructor
  · intro a ha
    obtain ⟨ns', hrun, htrie, hp⟩ := Level.compact h hn hAB hdel (hslot' a (by simp [ha]))
    refine ⟨ns', hrun, htrie, (perm_at hperm).trans ?_⟩
    rw [ha]
    have hmid : (entriesOf A ++ a :: entriesOf B).Perm (a :: (entriesOf A ++ entriesOf B)) :=
      perm_middle
    exact (hmid.trans hp.symm).cons e
  intro hne
  refine ⟨_, rfl, hput n' ⟨hgood, by omega, hslot'⟩, ?_⟩
  rw [entries_at (A := A) (n := n') (B := B) rfl]
  exact perm_at hperm

/-- **`remove`** takes out the entry that the hash leads to, whatever its key; below a collision
node, the entry of the key; and otherwise it raises an error. -/
theorem MapSubNodes.remove_spec (L : H.Lawful) (h : Trie H r d ns) (hl : r < levels) :
    Removal H k (Trie H r d) (ns.landing levels d (hash32 H k)) ns.entries
      (ns.remove H levels d (hash32 H k) k) := by
  induction levels generalizing r d ns with
  | zero => omega
  | succ levels ih =>
    have hlt := slotOf_lt (H := H) d k
    cases hd : ns.dataMap.getLsbD (slotOf H d k) with
    | true => exact remove_data L h hd
    | false =>
      cases hn : ns.nodeMap.getLsbD (slotOf H d k) with
      | false =>
        refine .inr ⟨?_, ?_, h.elsewhere L hd hn k rfl⟩
        · rw [remove]
          simp only [mask32_hash32, compressedIdx_gap hlt hd hn]
          rfl
        rw [landing]
        simp only [mask32_hash32, compressedIdx_gap hlt hd hn]
        rfl
      | true =>
        obtain ⟨A, n, B, hAB, hlen, hbel, hput, hdel, helse⟩ := h.at_node L hn
        obtain ⟨helA, helB⟩ := helse.of_append
        have hc : ns.compressedIdx (slotOf H d k) = some A.length := by
          rw [hlen]
          exact compressedIdx_node hlt hd hn
        have habsent : (∀ e ∈ n.entries, H.eq e.1 k = false) →
            ∀ e ∈ ns.entries, H.eq e.1 k = false := by
          intro hnone e he
          rw [entries_at hAB] at he
          rcases mem_append.1 he with he | he
          · exact helA k rfl e he
          rcases mem_append.1 he with he | he
          · exact hnone e he
          · exact helB k rfl e he
        rw [remove, landing]
        simp only [mask32_hash32, hc, bind_eq_bind, bind_some, checkBit_eq hlt,
          hd, Bool.false_eq_true, if_false, hAB, getElem?_at rfl]
        cases r with
        | zero =>
          obtain ⟨bins, rfl, hb⟩ := good_zero hbel.1
          rw [MapNode.entries_collisions] at habsent
          obtain ⟨e, bins', hrun, hb', hperm, hk⟩ | ⟨hrun, hnone⟩ :=
            Collisions.remove_spec L hb k
          · simp only [hrun, bind_some]
            have hperm' : (MapNode.collisions bins).entries.Perm
                (e :: (MapNode.collisions bins').entries) := by simpa using hperm
            obtain ⟨hone, hmany⟩ := remove_node h hn hAB hbel hput hdel
              (show Good H 0 (d + 1) (.collisions bins') from hb') hperm'
            rw [MapNode.entries_collisions] at hone hmany
            rw [← length_flatten]
            split_ifs with hsum
            · obtain ⟨a, ha⟩ := length_eq_one_iff.1 hsum
              obtain ⟨ns', hcomp, htrie, hp⟩ := hone a ha
              refine .inl ⟨e, ns', ?_, htrie, hp, .inr ⟨rfl, hk⟩⟩
              rw [Collisions.pullLast_eq ha]
              exact hcomp
            obtain ⟨ns', rfl, htrie, hp⟩ := hmany hsum
            refine .inl ⟨e, _, ?_, htrie, hp, .inr ⟨rfl, hk⟩⟩
            rw [setAt_at rfl]
            rfl
          · simp only [hrun]
            exact .inr ⟨rfl, rfl, habsent hnone⟩
        | succ r =>
          obtain ⟨sn, rfl, hsn⟩ := good_succ hbel.1
          rw [entries_node] at habsent
          simp only [node]
          obtain ⟨e, sn', hrun, htrie', hperm, hland⟩ | ⟨hrun, hland, hnone⟩ :=
            ih hsn (by omega)
          · have hperm' : sn.node.entries.Perm (e :: sn'.node.entries) := by simpa using hperm
            obtain ⟨hone, hmany⟩ := remove_node h hn hAB hbel hput hdel
              (show Good H (r + 1) (d + 1) sn'.node from htrie') hperm'
            rw [entries_node] at hone hmany
            simp only [hrun, bind_some]
            split_ifs with hsingle
            · obtain ⟨a, ha⟩ := Level.single htrie' hsingle.1 hsingle.2
              obtain ⟨ns', hcomp, htrie, hp⟩ := hone a (by simp [entries, ha])
              refine .inl ⟨e, ns', ?_, htrie, hp, hland⟩
              rw [ha]
              exact hcomp
            obtain ⟨ns', rfl, htrie, hp⟩ := hmany fun hlen =>
              hsingle (Level.single_of_entries htrie' hlen)
            refine .inl ⟨e, _, ?_, htrie, hp, hland⟩
            rw [setAt_at rfl]
            rfl
          · simp only [hrun]
            exact .inr ⟨rfl, hland, habsent hnone⟩

end

end SpacePony.Persistent
