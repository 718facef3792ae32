import SpacePony.Packages.Persistent.Map

/-!
# Packages — persistent — the trie of the map

Looking a key up in a trie finds what its entries say (`apply_eq`).
-/

namespace SpacePony.Persistent

open MapSubNodes Nat Option Collections Compressed

variable {K V : Type}

mutual

/-- The entries below a node. -/
def MapNode.entries : MapNode K V → List (K × V)
  | .entry e => [e]
  | .collisions bins => bins.flatten
  | .subNodes nodes _ _ => entriesOf nodes

/-- The entries below nodes. -/
def entriesOf : List (MapNode K V) → List (K × V)
  | [] => []
  | n :: ns => n.entries ++ entriesOf ns

end

/-- The entries below a node. -/
def MapSubNodes.entries (ns : MapSubNodes K V) : List (K × V) := entriesOf ns.nodes

@[simp] theorem MapNode.entries_entry (e : K × V) : (MapNode.entry e).entries = [e] := by
  rw [MapNode.entries]

@[simp] theorem MapNode.entries_collisions (bins : List (List (K × V))) :
    (MapNode.collisions bins).entries = bins.flatten := by
  rw [MapNode.entries]

@[simp] theorem MapSubNodes.entries_node (ns : MapSubNodes K V) : ns.node.entries = ns.entries := by
  rw [node, MapNode.entries, entries]

@[simp] theorem entriesOf_nil : entriesOf ([] : List (MapNode K V)) = [] := by rw [entriesOf]

@[simp] theorem entriesOf_cons (n : MapNode K V) (ns : List (MapNode K V)) :
    entriesOf (n :: ns) = n.entries ++ entriesOf ns := by
  rw [entriesOf]

@[simp] theorem entriesOf_append (ns ns' : List (MapNode K V)) :
    entriesOf (ns ++ ns') = entriesOf ns ++ entriesOf ns' := by
  induction ns with
  | nil => simp
  | cons n ns ih => simp [ih]

@[simp] theorem entriesOf_map_entry (ds : List (K × V)) :
    entriesOf (ds.map MapNode.entry) = ds := by
  induction ds with
  | nil => simp
  | cons d ds ih => simp [ih]

theorem mem_entriesOf {ns : List (MapNode K V)} {e : K × V} :
    e ∈ entriesOf ns ↔ ∃ n ∈ ns, e ∈ n.entries := by
  induction ns with
  | nil => simp
  | cons n ns ih => simp [ih]

/-! ### Arrays at a place -/

section
variable {α : Type} {xs ys : List α} {x y : α} {i : Nat}

theorem getElem?_at (hi : i = xs.length) : (xs ++ y :: ys)[i]? = some y := by
  subst hi
  simp

theorem insertAt_at (hi : i = xs.length) : insertAt (xs ++ ys) i x = some (xs ++ x :: ys) := by
  subst hi
  rw [insertAt, if_pos (by simp)]
  congr 1
  induction xs with
  | nil => rfl
  | cons a xs ih => simp [ih]

theorem deleteAt_at (hi : i = xs.length) : deleteAt (xs ++ y :: ys) i = some (xs ++ ys) := by
  subst hi
  rw [deleteAt, if_pos (by simp), List.eraseIdx_append_of_length_le le_rfl]
  simp

theorem setAt_at (hi : i = xs.length) : setAt (xs ++ y :: ys) i x = some (xs ++ x :: ys) := by
  subst hi
  rw [setAt, if_pos (by simp), List.set_append_right _ _ le_rfl]
  simp

end

/-! ### The invariant -/

section
variable (H : HashFunction K)

/-- The bits that the hash of a key has at a depth. -/
def slotOf (d : Nat) (k : K) : Nat := mask32 (hash32 H k) d

/-- A node at depth `d`, where a node below it must be a `child`. -/
def Level (child : MapNode K V → Prop) (d : Nat) (ns : MapSubNodes K V) : Prop :=
  (∀ i, ns.dataMap.getLsbD i = true → ns.nodeMap.getLsbD i = false) ∧
  ∃ ds cs, ns.nodes = ds.map .entry ++ cs ∧
    Sparse (fun i e => slotOf H d e.1 = i) ns.dataMap ds ∧
    Sparse (fun i n => child n ∧ 2 ≤ n.entries.length ∧ ∀ e ∈ n.entries, slotOf H d e.1 = i)
      ns.nodeMap cs

/-- The bins of a collision node. -/
def Bins (bins : List (List (K × V))) : Prop :=
  bins.length = 4 ∧
    ∀ i bin, bins[i]? = some bin → ∀ e ∈ bin, slotOf H collisionDepth e.1 = i

/-- A node that is below a node, at depth `d` and with `r` levels below it. -/
def Good : (r d : Nat) → MapNode K V → Prop
  | 0, _, .collisions bins => Bins H bins
  | r + 1, d, .subNodes nodes nodeMap dataMap =>
    Level H (Good r (d + 1)) d { nodes, nodeMap, dataMap }
  | _, _, _ => False

/-- A trie at depth `d` with `r` levels below it. -/
def Trie (r d : Nat) (ns : MapSubNodes K V) : Prop := Level H (Good H r (d + 1)) d ns

variable {H}

theorem mask32_hash32 (d : Nat) (k : K) : mask32 (hash32 H k) d = slotOf H d k := rfl

theorem slotOf_lt (d : Nat) (k : K) : slotOf H d k < 32 := by
  rw [slotOf, mask32, BitVec.toNat_and]
  exact lt_of_le_of_lt and_le_right (by decide)

theorem slotOf_collision_lt (k : K) : slotOf H collisionDepth k < 4 := by
  rw [slotOf, mask32, BitVec.toNat_and]
  refine lt_of_le_of_lt and_le_left ?_
  rw [BitVec.toNat_ushiftRight, shiftRight_eq_div_pow]
  exact Nat.div_lt_of_lt_mul (hash32 H k).isLt

theorem slotOf_eq (L : H.Lawful) (d : Nat) {a b : K} (h : H.eq a b = true) :
    slotOf H d a = slotOf H d b := by
  rw [slotOf, slotOf, hash32, hash32, L.hash a b h]

theorem Lawful.eq_comm (L : H.Lawful) (a b : K) : H.eq a b = H.eq b a :=
  Bool.eq_iff_iff.2 ⟨L.symm a b, L.symm b a⟩

theorem good_succ {r d : Nat} {n : MapNode K V} (h : Good H (r + 1) d n) :
    ∃ ns : MapSubNodes K V, n = ns.node ∧ Trie H r d ns := by
  cases n with
  | entry e | collisions bins => exact h.elim
  | subNodes nodes nodeMap dataMap => exact ⟨⟨nodes, nodeMap, dataMap⟩, rfl, h⟩

theorem good_zero {d : Nat} {n : MapNode K V} (h : Good H 0 d n) :
    ∃ bins, n = .collisions bins ∧ Bins H bins := by
  cases n with
  | entry e => exact h.elim
  | collisions bins => exact ⟨bins, rfl, h⟩
  | subNodes nodes nodeMap dataMap => exact h.elim

theorem trie_empty (r d : Nat) : Trie H r d ({} : MapSubNodes K V) :=
  ⟨fun i h => by simp at h, [], [], rfl, sparse_zero, sparse_zero⟩

/-! ### Places in a node -/

section
variable {ns : MapSubNodes K V} {i : Nat}

theorem compressedIdx_gap (hi : i < 32) (hd : ns.dataMap.getLsbD i = false)
    (hn : ns.nodeMap.getLsbD i = false) : ns.compressedIdx i = none := by
  rw [compressedIdx, if_pos (by rw [checkBit_eq hi]; simp [hd, hn])]

theorem compressedIdx_data (hi : i < 32) (hd : ns.dataMap.getLsbD i = true) :
    ns.compressedIdx i = some (rank ns.dataMap i) := by
  rw [compressedIdx, if_neg (by rw [checkBit_eq hi]; simp [hd])]
  rw [if_pos (by rw [checkBit_eq hi]; exact hd)]
  rfl

/-- A subnode stands after all entries, by its rank. -/
theorem compressedIdx_node (hi : i < 32) (hd : ns.dataMap.getLsbD i = false)
    (hn : ns.nodeMap.getLsbD i = true) :
    ns.compressedIdx i = some (popcount ns.dataMap + rank ns.nodeMap i) := by
  rw [compressedIdx, if_neg (by rw [checkBit_eq hi]; simp [hn])]
  rw [if_neg (by rw [checkBit_eq hi]; simp [hd])]
  rfl

end

/-! ### Keys that are elsewhere -/

section
variable {b : BitVec 32} {d : Nat} {k : K}

/-- No entry of another bit has the key. -/
theorem absent_entries (L : H.Lawful) {ds : List (K × V)}
    (h : Sparse (fun i e => slotOf H d e.1 = i) b ds) (hb : b.getLsbD (slotOf H d k) = false) :
    ∀ e ∈ ds, H.eq e.1 k = false := by
  intro e he
  obtain ⟨i, hi, hs⟩ := h.mem he
  rw [Bool.eq_false_iff]
  intro hk
  rw [← hs, slotOf_eq L d hk, hb] at hi
  cases hi

/-- No entry below the node of another bit has the key. -/
theorem absent_nodes (L : H.Lawful) {child : MapNode K V → Prop} {cs : List (MapNode K V)}
    (h : Sparse (fun i n => child n ∧ 2 ≤ n.entries.length ∧
      ∀ e ∈ n.entries, slotOf H d e.1 = i) b cs)
    (hb : b.getLsbD (slotOf H d k) = false) : ∀ e ∈ entriesOf cs, H.eq e.1 k = false := by
  intro e he
  obtain ⟨n, hn, he⟩ := mem_entriesOf.1 he
  obtain ⟨i, hi, -, -, hs⟩ := h.mem hn
  rw [Bool.eq_false_iff]
  intro hk
  rw [← hs e he, slotOf_eq L d hk, hb] at hi
  cases hi

end

/-! ### Looking up -/

theorem lookup_append (l l' : List (K × V)) (k : K) :
    lookup H (l ++ l') k = (lookup H l k).or (lookup H l' k) := by
  rw [lookup, lookup, lookup, List.find?_append]
  cases l.find? fun e => H.eq e.1 k <;> rfl

variable {bins : List (List (K × V))}

/-- An entry can only be in the bin of its own hash. -/
theorem Bins.absent (L : H.Lawful) (h : Bins H bins) {k : K} {i : Nat} {bin : List (K × V)}
    (hi : i ≠ slotOf H collisionDepth k) (hb : bins[i]? = some bin) :
    ∀ e ∈ bin, H.eq e.1 k = false := by
  intro e he
  rw [Bool.eq_false_iff]
  intro hk
  exact hi ((h.2 i bin hb e he).symm.trans (slotOf_eq L _ hk))

/-- The bin of a key, and the others. -/
theorem Bins.split (L : H.Lawful) (h : Bins H bins) (k : K) :
    ∃ lo bin hi, bins = lo ++ bin :: hi ∧ lo.length = slotOf H collisionDepth k ∧
      (∀ e ∈ lo.flatten, H.eq e.1 k = false) ∧ (∀ e ∈ hi.flatten, H.eq e.1 k = false) ∧
      ∀ bin', (∀ e ∈ bin', slotOf H collisionDepth e.1 = slotOf H collisionDepth k) →
        Bins H (lo ++ bin' :: hi) := by
  have hlt : slotOf H collisionDepth k < bins.length := by
    rw [h.1]
    exact slotOf_collision_lt k
  have e : bins = bins.take (slotOf H collisionDepth k) ++ bins[slotOf H collisionDepth k] ::
      bins.drop (slotOf H collisionDepth k + 1) := by
    rw [← List.drop_eq_getElem_cons hlt, List.take_append_drop]
  have hlen : (bins.take (slotOf H collisionDepth k)).length = slotOf H collisionDepth k := by
    rw [List.length_take]
    omega
  refine ⟨_, _, _, e, hlen, ?_, ?_, fun bin' hbin => ⟨?_, ?_⟩⟩
  · intro a ha
    obtain ⟨bin, hbin, ha⟩ := List.mem_flatten.1 ha
    obtain ⟨i, hi, rfl⟩ := List.getElem_of_mem hbin
    rw [hlen] at hi
    refine h.absent L (i := i) (by omega) ?_ a ha
    rw [List.getElem_take, List.getElem?_eq_getElem]
  · intro a ha
    obtain ⟨bin, hbin, ha⟩ := List.mem_flatten.1 ha
    obtain ⟨i, hi, rfl⟩ := List.getElem_of_mem hbin
    refine h.absent L (i := slotOf H collisionDepth k + 1 + i) (by omega) ?_ a ha
    rw [List.getElem_drop, List.getElem?_eq_getElem]
  · have := congrArg List.length e
    rw [List.length_append, List.length_cons] at this ⊢
    rw [← this]
    exact h.1
  intro i bin hi a ha
  rcases lt_trichotomy i (slotOf H collisionDepth k) with hlt' | rfl | hgt
  · rw [List.getElem?_append_left (by omega)] at hi
    refine h.2 i bin ?_ a ha
    rw [e, List.getElem?_append_left (by omega)]
    exact hi
  · rw [getElem?_at hlen.symm] at hi
    cases hi
    exact hbin a ha
  have hpos : i - slotOf H collisionDepth k = i - slotOf H collisionDepth k - 1 + 1 := by omega
  rw [List.getElem?_append_right (by omega), hlen, hpos, List.getElem?_cons_succ] at hi
  refine h.2 i bin ?_ a ha
  rw [e, List.getElem?_append_right (by omega), hlen, hpos, List.getElem?_cons_succ]
  exact hi

theorem Collisions.apply_eq (L : H.Lawful) (h : Bins H bins) (k : K) :
    Collisions.apply H bins (hash32 H k) k = lookup H bins.flatten k := by
  obtain ⟨lo, bin, hi, rfl, hlen, hlo, hhi, -⟩ := h.split L k
  have hget : (lo ++ bin :: hi)[mask32 (hash32 H k) collisionDepth]? = some bin :=
    getElem?_at hlen.symm
  have hfind : (fun e : K × V => H.eq k e.1) = fun e => H.eq e.1 k :=
    funext fun e => Lawful.eq_comm L k e.1
  rw [Collisions.apply, hget, List.flatten_append, List.flatten_cons, lookup_append, lookup_append,
    lookup_eq_none hlo, lookup_eq_none hhi, none_or, or_none]
  simp only [bind_eq_bind, bind_some, hfind]
  rfl

/-- **Looking a key up** finds what the entries of the trie say. -/
theorem MapSubNodes.apply_eq (L : H.Lawful) (k : K) {levels r d : Nat} {ns : MapSubNodes K V}
    (h : Trie H r d ns) (hl : r < levels) :
    ns.apply H levels d (hash32 H k) k = lookup H ns.entries k := by
  induction levels generalizing r d ns with
  | zero => omega
  | succ levels ih =>
    obtain ⟨hdisj, ds, cs, hns, hds, hcs⟩ := h
    have hlt := slotOf_lt (H := H) d k
    rw [apply, entries, hns, entriesOf_append, entriesOf_map_entry, lookup_append]
    cases hd : ns.dataMap.getLsbD (slotOf H d k) with
    | true =>
      obtain ⟨lo, e, hi, rfl, hlen, -, -, hrest⟩ := hds.at_bit hd
      have habs := absent_entries L hrest (by rw [getLsbD_clearBit hlt hlt]; simp)
      have hlo := lookup_eq_none fun a ha => habs a (List.mem_append_left _ ha)
      have hhi := lookup_eq_none fun a ha => habs a (List.mem_append_right _ ha)
      have hc : ns.compressedIdx (mask32 (hash32 H k) d) = some (rank ns.dataMap (slotOf H d k)) :=
        compressedIdx_data hlt hd
      have hget : ((lo ++ e :: hi).map MapNode.entry ++ cs)[rank ns.dataMap (slotOf H d k)]? =
          some (.entry e) := by
        rw [List.map_append, List.map_cons, List.append_assoc, List.cons_append]
        exact getElem?_at (by rw [List.length_map, hlen])
      rw [hc, lookup_append, lookup_cons, hlo, hhi, none_or,
        lookup_eq_none (absent_nodes L hcs (hdisj _ hd)), or_none, Lawful.eq_comm L e.1 k]
      simp only [bind_eq_bind, bind_some, hget]
    | false =>
      rw [lookup_eq_none (absent_entries L hds hd), none_or]
      cases hn : ns.nodeMap.getLsbD (slotOf H d k) with
      | false =>
        have hc : ns.compressedIdx (mask32 (hash32 H k) d) = none :=
          compressedIdx_gap hlt hd hn
        rw [hc, lookup_eq_none (absent_nodes L hcs hn)]
        rfl
      | true =>
        obtain ⟨lo, n, hi, rfl, hlen, ⟨hgood, -, -⟩, -, hrest⟩ := hcs.at_bit hn
        have habs := absent_nodes L hrest (by rw [getLsbD_clearBit hlt hlt]; simp)
        rw [entriesOf_append] at habs
        have hlo := lookup_eq_none fun a ha => habs a (List.mem_append_left _ ha)
        have hhi := lookup_eq_none fun a ha => habs a (List.mem_append_right _ ha)
        have hc : ns.compressedIdx (mask32 (hash32 H k) d) =
            some (popcount ns.dataMap + rank ns.nodeMap (slotOf H d k)) :=
          compressedIdx_node hlt hd hn
        have hget : (ds.map MapNode.entry ++ (lo ++ n :: hi))[popcount ns.dataMap +
            rank ns.nodeMap (slotOf H d k)]? = some n := by
          rw [← List.append_assoc]
          refine getElem?_at ?_
          rw [List.length_append, List.length_map, hds.length, hlen]
        rw [hc, entriesOf_append, entriesOf_cons, lookup_append, lookup_append, hlo, hhi,
          none_or, or_none]
        simp only [bind_eq_bind, bind_some, hget]
        cases r with
        | zero =>
          obtain ⟨bins, rfl, hb⟩ := good_zero hgood
          rw [MapNode.entries_collisions]
          exact Collisions.apply_eq L hb k
        | succ r =>
          obtain ⟨sn, rfl, hsn⟩ := good_succ hgood
          rw [entries_node]
          exact ih hsn (by omega)

end

end SpacePony.Persistent
