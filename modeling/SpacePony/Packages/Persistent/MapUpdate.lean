import SpacePony.Packages.Persistent.MapRep

/-!
# Packages — persistent — updating the trie

* `Level.at_data`, `Level.at_node`: the entry or the node of a bit may be replaced, or taken out
  with its bit.  `Level.gap_data`, `Level.gap_node`: a bit that is in neither bitmap may get an
  entry or a node.  The other changes of a node are made of these.
* `MapSubNodes.updateMut_spec`: `update_mut` keeps the invariant, does this to the entries, and
  raises no error.
-/

namespace SpacePony.Persistent

open Collisions Bool Option List Collections Compressed

variable {K V : Type} {H : HashFunction K}

/-! ### Places in a level -/

section
variable {child : MapNode K V → Prop} {d i : Nat} {ns : MapSubNodes K V}

/-- What a node below bit `i` must be. -/
def Below (H : HashFunction K) (child : MapNode K V → Prop) (d i : Nat) (n : MapNode K V) : Prop :=
  child n ∧ 2 ≤ n.entries.length ∧ ∀ e ∈ n.entries, slotOf H d e.1 = i

/-- No entry below these nodes has a key of bit `i`. -/
def Elsewhere (H : HashFunction K) (d i : Nat) (ns : List (MapNode K V)) : Prop :=
  ∀ k, slotOf H d k = i → ∀ e ∈ entriesOf ns, H.eq e.1 k = false

theorem Elsewhere.of_append {A B : List (MapNode K V)} (h : Elsewhere H d i (A ++ B)) :
    Elsewhere H d i A ∧ Elsewhere H d i B := by
  rw [Elsewhere, entriesOf_append] at h
  exact ⟨fun k hk e he => h k hk e (mem_append_left _ he),
    fun k hk e he => h k hk e (mem_append_right _ he)⟩

/-- A level without bit `i` has no key of that bit. -/
theorem Level.elsewhere (L : H.Lawful) (h : Level H child d ns)
    (hd : ns.dataMap.getLsbD i = false) (hn : ns.nodeMap.getLsbD i = false) :
    Elsewhere H d i ns.nodes := by
  obtain ⟨-, ds, cs, hns, hds, hcs⟩ := h
  rintro k rfl e he
  rw [hns, entriesOf_append, entriesOf_map_entry] at he
  rcases mem_append.1 he with he | he
  · exact absent_entries L hds hd e he
  · exact absent_nodes L hcs hn e he

section
variable (h : Level H child d ns) (hi : i < 32) (hd : ns.dataMap.getLsbD i = false)
  (hn : ns.nodeMap.getLsbD i = false)
include h hi hd hn

/-- An entry goes to a bit that is in neither bitmap. -/
theorem Level.gap_data :
    ∃ A B, ns.nodes = A ++ B ∧ A.length = rank ns.dataMap i ∧
      ∀ e, slotOf H d e.1 = i →
        Level H child d ⟨A ++ .entry e :: B, ns.nodeMap, setBit ns.dataMap i⟩ := by
  obtain ⟨hdisj, ds, cs, hns, hds, hcs⟩ := h
  obtain ⟨lo, hi', rfl, hlen, hput⟩ := hds.at_gap hi hd
  refine ⟨lo.map .entry, hi'.map .entry ++ cs, ?_, by rw [length_map, hlen], fun e he => ?_⟩
  · rw [hns, map_append, append_assoc]
  refine ⟨fun j hj => ?_, lo ++ e :: hi', cs, ?_, hput e he, hcs⟩
  · rw [getLsbD_setBit hi, or_eq_true, decide_eq_true_iff] at hj
    rcases hj with hj | rfl
    · exact hdisj j hj
    · exact hn
  · rw [map_append, map_cons, append_assoc, cons_append]

/-- A node goes to a bit that is in neither bitmap. -/
theorem Level.gap_node :
    ∃ A B, ns.nodes = A ++ B ∧ A.length = popcount ns.dataMap + rank ns.nodeMap i ∧
      ∀ n, Below H child d i n →
        Level H child d ⟨A ++ n :: B, setBit ns.nodeMap i, ns.dataMap⟩ := by
  obtain ⟨hdisj, ds, cs, hns, hds, hcs⟩ := h
  obtain ⟨lo, hi', rfl, hlen, hput⟩ := hcs.at_gap hi hn
  refine ⟨ds.map .entry ++ lo, hi', ?_, ?_, fun n hn' => ?_⟩
  · rw [hns, append_assoc]
  · rw [length_append, length_map, hds.length, hlen]
  refine ⟨fun j hj => ?_, ds, lo ++ n :: hi', ?_, hds, hput n hn'⟩
  · have hji : ¬ j = i := by
      rintro rfl
      rw [hd] at hj
      cases hj
    rw [getLsbD_setBit hi, hdisj j hj]
    simp [hji]
  · rw [append_assoc]

end

/-- The entry of a bit may be replaced, or taken out. -/
theorem Level.at_data (L : H.Lawful) (h : Level H child d ns) (hd : ns.dataMap.getLsbD i = true) :
    ∃ A e B, ns.nodes = A ++ .entry e :: B ∧ A.length = rank ns.dataMap i ∧ slotOf H d e.1 = i ∧
      (∀ e', slotOf H d e'.1 = i → Level H child d ⟨A ++ .entry e' :: B, ns.nodeMap, ns.dataMap⟩) ∧
      Level H child d ⟨A ++ B, ns.nodeMap, clearBit ns.dataMap i⟩ ∧ Elsewhere H d i (A ++ B) := by
  have hi := BitVec.lt_of_getLsbD hd
  obtain ⟨hdisj, ds, cs, hns, hds, hcs⟩ := h
  obtain ⟨lo, e, hi', rfl, hlen, he, hput, hdel⟩ := hds.at_bit hd
  have hlev : Level H child d
      ⟨lo.map .entry ++ (hi'.map .entry ++ cs), ns.nodeMap, clearBit ns.dataMap i⟩ := by
    refine ⟨fun j hj => ?_, lo ++ hi', cs, ?_, hdel, hcs⟩
    · have hj32 := BitVec.lt_of_getLsbD hj
      rw [getLsbD_clearBit hi hj32, and_eq_true] at hj
      exact hdisj j hj.1
    · rw [map_append, append_assoc]
  refine ⟨lo.map .entry, e, hi'.map .entry ++ cs, ?_, by rw [length_map, hlen], he,
    fun e' he' => ?_, hlev, ?_⟩
  · rw [hns, map_append, map_cons, append_assoc, cons_append]
  · refine ⟨hdisj, lo ++ e' :: hi', cs, ?_, hput e' he', hcs⟩
    rw [map_append, map_cons, append_assoc, cons_append]
  refine hlev.elsewhere L ?_ (hdisj i hd)
  rw [getLsbD_clearBit hi hi]
  simp

/-- The node of a bit may be replaced, or taken out. -/
theorem Level.at_node (L : H.Lawful) (h : Level H child d ns) (hn : ns.nodeMap.getLsbD i = true) :
    ∃ A n B, ns.nodes = A ++ n :: B ∧ A.length = popcount ns.dataMap + rank ns.nodeMap i ∧
      Below H child d i n ∧
      (∀ n', Below H child d i n' → Level H child d ⟨A ++ n' :: B, ns.nodeMap, ns.dataMap⟩) ∧
      Level H child d ⟨A ++ B, clearBit ns.nodeMap i, ns.dataMap⟩ ∧ Elsewhere H d i (A ++ B) := by
  have hi := BitVec.lt_of_getLsbD hn
  obtain ⟨hdisj, ds, cs, hns, hds, hcs⟩ := h
  obtain ⟨lo, n, hi', rfl, hlen, hbel, hput, hdel⟩ := hcs.at_bit hn
  have hd : ns.dataMap.getLsbD i = false := by
    rw [eq_false_iff]
    intro hd
    rw [hdisj i hd] at hn
    cases hn
  have hlev : Level H child d
      ⟨ds.map .entry ++ lo ++ hi', clearBit ns.nodeMap i, ns.dataMap⟩ := by
    refine ⟨fun j hj => ?_, ds, lo ++ hi', append_assoc .., hds, hdel⟩
    rw [getLsbD_clearBit hi (BitVec.lt_of_getLsbD hj), hdisj j hj]
    rfl
  refine ⟨ds.map .entry ++ lo, n, hi', ?_, ?_, hbel, fun n' hn' => ?_, hlev, ?_⟩
  · rw [hns, append_assoc]
  · rw [length_append, length_map, hds.length, hlen]
  · exact ⟨hdisj, ds, lo ++ n' :: hi', append_assoc .., hds, hput n' hn'⟩
  refine hlev.elsewhere L hd ?_
  rw [getLsbD_clearBit hi hi]
  simp

end

/-! ### What an update does to the entries -/

/-- The entry `e` is added, or takes the place of an entry of the same key. -/
inductive Upd (H : HashFunction K) (e : K × V) : Bool → List (K × V) → List (K × V) → Prop
  | new {l l' : List (K × V)} (absent : ∀ a ∈ l, H.eq a.1 e.1 = false) (perm : l'.Perm (e :: l)) :
      Upd H e true l l'
  | old {l l' r : List (K × V)} {a : K × V} (key : H.eq a.1 e.1 = true) (perm : l.Perm (a :: r))
      (perm' : l'.Perm (e :: r)) : Upd H e false l l'

section
variable {e : K × V} {b : Bool} {l l' : List (K × V)}

/-- An update among other entries. -/
theorem Upd.frame (h : Upd H e b l l') {lo hi : List (K × V)}
    (hlo : ∀ a ∈ lo, H.eq a.1 e.1 = false) (hhi : ∀ a ∈ hi, H.eq a.1 e.1 = false) :
    Upd H e b (lo ++ (l ++ hi)) (lo ++ (l' ++ hi)) := by
  have hmove : ∀ {x : K × V} {s t : List (K × V)}, s.Perm (x :: t) →
      (lo ++ (s ++ hi)).Perm (x :: (lo ++ (t ++ hi))) := fun h =>
    ((h.append_right hi).append_left lo).trans perm_middle
  cases h with
  | new habs hp =>
    refine .new (fun a ha => ?_) (hmove hp)
    rcases mem_append.1 ha with ha | ha
    · exact hlo a ha
    rcases mem_append.1 ha with ha | ha
    · exact habs a ha
    · exact hhi a ha
  | old hk hp hp' => exact .old hk (hmove hp) (hmove hp')

theorem Upd.mem (h : Upd H e b l l') {a : K × V} (ha : a ∈ l') : a = e ∨ a ∈ l := by
  cases h with
  | new _ hp => exact mem_cons.1 (hp.mem_iff.1 ha)
  | old _ hp hp' =>
    rcases mem_cons.1 (hp'.mem_iff.1 ha) with rfl | ha
    · exact .inl rfl
    · exact .inr (hp.mem_iff.2 (.tail _ ha))

theorem Upd.length_eq (h : Upd H e b l l') : l'.length = l.length + b.toNat := by
  cases h with
  | new _ hp => exact hp.length_eq
  | old _ hp hp' => exact hp'.length_eq.trans hp.length_eq.symm

/-- An update of an entry of another key adds. -/
theorem Upd.of_ne {a : K × V} (h : Upd H e b [a] l') (hk : H.eq a.1 e.1 = false) :
    b = true ∧ l'.Perm (e :: [a]) := by
  cases h with
  | new _ hp => exact ⟨rfl, hp⟩
  | old hk' hp _ =>
    rw [mem_singleton.1 (hp.mem_iff.2 (.head _)), hk] at hk'
    cases hk'

end

/-! ### Collisions -/

/-- An entry that is in a list, and the rest. -/
theorem findIdx?_split {p : K × V → Bool} {l : List (K × V)} {i : Nat} (h : l.findIdx? p = some i) :
    ∃ lo a hi, l = lo ++ a :: hi ∧ i = lo.length ∧ p a = true := by
  obtain ⟨hlt, hp, -⟩ := findIdx?_eq_some_iff_getElem.1 h
  refine ⟨l.take i, l[i], l.drop (i + 1), ?_, ?_, hp⟩
  · rw [← drop_eq_getElem_cons hlt, take_append_drop]
  · rw [length_take]
    omega

/-- `update_mut` replaces the entry of the key, or adds one. -/
theorem Collisions.updateMut_spec (L : H.Lawful) {bins : List (List (K × V))} (h : Bins H bins)
    (e : K × V) : ∃ b bins', updateMut H bins (hash32 H e.1) e = some (b, bins') ∧ Bins H bins' ∧
      Upd H e b bins.flatten bins'.flatten := by
  obtain ⟨lo, bin, hi, rfl, hlen, hlo, hhi, hput⟩ := h.split L e.1
  have hget : (lo ++ bin :: hi)[mask32 (hash32 H e.1) collisionDepth]? = some bin :=
    getElem?_at hlen.symm
  have hslot : ∀ a ∈ bin, slotOf H collisionDepth a.1 = slotOf H collisionDepth e.1 :=
    h.2 _ bin hget
  have hset : ∀ bin', setAt (lo ++ bin :: hi) (mask32 (hash32 H e.1) collisionDepth) bin' =
      some (lo ++ bin' :: hi) := fun bin' => setAt_at hlen.symm
  rw [updateMut]
  simp only [bind_eq_bind, hget, bind_some]
  cases hf : bin.findIdx? fun e' => H.eq e.1 e'.1 with
  | some i =>
    obtain ⟨blo, a, bhi, rfl, rfl, hk⟩ := findIdx?_split hf
    have hset' : (blo ++ a :: bhi).set blo.length e = blo ++ e :: bhi := by simp
    refine ⟨false, lo ++ (blo ++ e :: bhi) :: hi, ?_, hput _ fun x hx => ?_, ?_⟩
    · simp only [hset, hset', bind_some]
    · simp only [mem_append, mem_cons] at hx hslot
      rcases hx with hx | rfl | hx
      · exact hslot x (.inl hx)
      · rfl
      · exact hslot x (.inr (.inr hx))
    · rw [flatten_append, flatten_cons, flatten_append, flatten_cons]
      refine Upd.frame ?_ hlo hhi
      exact .old (L.symm _ _ hk) perm_middle perm_middle
  | none =>
    have habs : ∀ a ∈ bin, H.eq a.1 e.1 = false := fun a ha => by
      rw [Lawful.eq_comm L]
      exact findIdx?_eq_none_iff.1 hf a ha
    refine ⟨true, lo ++ (bin ++ [e]) :: hi, ?_, hput _ fun x hx => ?_, ?_⟩
    · simp only [push, bind_eq_bind, hget, hset, bind_some]
    · rcases mem_append.1 hx with hx | hx
      · exact hslot x hx
      · rw [mem_singleton.1 hx]
    · rw [flatten_append, flatten_cons, flatten_append, flatten_cons]
      exact Upd.frame (.new habs (perm_append_singleton e bin)) hlo hhi

/-- An entry is pushed to the bin of its own hash. -/
theorem Collisions.push_spec (L : H.Lawful) {bins : List (List (K × V))} (h : Bins H bins)
    (e : K × V) : ∃ bins', push bins (slotOf H collisionDepth e.1) e = some bins' ∧ Bins H bins' ∧
      bins'.flatten.Perm (e :: bins.flatten) := by
  obtain ⟨lo, bin, hi, rfl, hlen, -, -, hput⟩ := h.split L e.1
  have hget : (lo ++ bin :: hi)[slotOf H collisionDepth e.1]? = some bin := getElem?_at hlen.symm
  refine ⟨lo ++ (bin ++ [e]) :: hi, ?_, hput _ fun x hx => ?_, ?_⟩
  · rw [push, hget]
    exact setAt_at hlen.symm
  · rcases mem_append.1 hx with hx | hx
    · exact h.2 _ bin hget x hx
    · rw [mem_singleton.1 hx]
  · rw [flatten_append, flatten_cons, flatten_append, flatten_cons]
    exact (((perm_append_singleton e bin).append_right _).append_left _).trans
      perm_middle

theorem bins_create : Bins H (create : List (List (K × V))) := by
  refine ⟨rfl, fun i bin hi e he => ?_⟩
  have : bin ∈ (create : List (List (K × V))) := mem_of_getElem? hi
  simp [create] at this
  rw [this] at he
  cases he

/-- The collision node of two entries. -/
theorem collide_spec (L : H.Lawful) (e₀ e : K × V) (d : Nat) :
    ∃ n, MapSubNodes.collide H e₀ (hash32 H e.1) e = some n ∧ Good H 0 d n ∧
      n.entries.Perm (e :: [e₀]) := by
  obtain ⟨b₁, h₁, hB₁, hp₁⟩ := push_spec L (bins_create (H := H) (V := V)) e₀
  obtain ⟨b₂, h₂, hB₂, hp₂⟩ := push_spec L hB₁ e
  refine ⟨.collisions b₂, ?_, hB₂, ?_⟩
  · rw [MapSubNodes.collide]
    rw [slotOf] at h₁ h₂
    simp only [bind_eq_bind, h₁, h₂, bind_some]
  · rw [MapNode.entries_collisions]
    exact hp₂.trans (hp₁.cons e)

/-! ### Nodes -/

/-- A node of one entry. -/
theorem trie_single (r d : Nat) (e : K × V) :
    Trie H r d ⟨[.entry e], 0, setBit 0 (slotOf H d e.1)⟩ := by
  obtain ⟨A, B, hAB, -, hput⟩ := (trie_empty (H := H) (V := V) r d).gap_data
    (slotOf_lt d e.1) (by simp) (by simp)
  obtain ⟨rfl, rfl⟩ := append_eq_nil_iff.1 hAB.symm
  exact hput e rfl

/-- The node of two entries that have the same bits at depth `d`. -/
theorem two_entries {r d : Nat} {n : MapNode K V} {e₀ e : K × V} (hg : Good H r (d + 1) n)
    (hp : n.entries.Perm (e :: [e₀])) (he : slotOf H d e₀.1 = slotOf H d e.1) :
    Below H (Good H r (d + 1)) d (slotOf H d e.1) n := by
  refine ⟨hg, by rw [hp.length_eq]; rfl, fun a ha => ?_⟩
  rcases mem_cons.1 (hp.mem_iff.1 ha) with rfl | ha
  · rfl
  · rw [mem_singleton.1 ha, he]

section
variable {levels r d : Nat} {ns : MapSubNodes K V} {k : K} {v : V}

/-- The key has no bit in the node: an entry is inserted. -/
theorem updateMut_gap (levels : Nat) (L : H.Lawful) (h : Trie H r d ns)
    (hd : ns.dataMap.getLsbD (slotOf H d k) = false)
    (hn : ns.nodeMap.getLsbD (slotOf H d k) = false) :
    ∃ ns', ns.updateMut H (levels + 1) d (hash32 H k) k v = some (true, ns') ∧ Trie H r d ns' ∧
      Upd H (k, v) true ns.entries ns'.entries := by
  have hlt := slotOf_lt (H := H) d k
  obtain ⟨A, B, hAB, hlen, hput⟩ := h.gap_data hlt hd hn
  refine ⟨_, ?_, hput (k, v) rfl, ?_⟩
  · have hc' : (⟨A ++ B, ns.nodeMap, setBit ns.dataMap (slotOf H d k)⟩ :
        MapSubNodes K V).compressedIdx (slotOf H d k) = some A.length := by
      rw [hlen, ← rank_setBit hlt]
      exact compressedIdx_data hlt (by simp [getLsbD_setBit hlt])
    rw [MapSubNodes.updateMut]
    simp only [mask32_hash32, compressedIdx_gap hlt hd hn, bind_eq_bind, hAB, hc',
      bind_some, insertAt_at rfl]
  have habs := h.elsewhere L hd hn k rfl
  rw [MapSubNodes.entries, MapSubNodes.entries]
  refine .new habs ?_
  rw [hAB, entriesOf_append, entriesOf_append, entriesOf_cons]
  exact perm_middle

/-- The key's bit has an entry of that key, which is replaced, or one of another key, and the two
become a node. -/
theorem updateMut_data (L : H.Lawful) (h : Trie H r d ns)
    (hd : ns.dataMap.getLsbD (slotOf H d k) = true)
    (hsub : ∀ e₀ : K × V, slotOf H d e₀.1 = slotOf H d k → H.eq e₀.1 k = false →
      ∃ n, (if d < collisionDepth - 1 then do
          let idx0 := mask32 (hash32 H e₀.1) (d + 1)
          let sn : MapSubNodes K V :=
            { nodes := [.entry e₀], nodeMap := 0, dataMap := setBit 0 idx0 }
          let (_, sn) ← MapSubNodes.updateMut H levels (d + 1) (hash32 H k) k v sn
          some sn.node
        else MapSubNodes.collide H e₀ (hash32 H k) (k, v)) = some n ∧
      Good H r (d + 1) n ∧ n.entries.Perm ((k, v) :: [e₀])) :
    ∃ b ns', ns.updateMut H (levels + 1) d (hash32 H k) k v = some (b, ns') ∧ Trie H r d ns' ∧
      Upd H (k, v) b ns.entries ns'.entries := by
  have hlt := slotOf_lt (H := H) d k
  obtain ⟨A, e₀, B, hAB, hlen, hslot, hput, hdel, helse⟩ := h.at_data L hd
  obtain ⟨helA, helB⟩ := helse.of_append
  have hn : ns.nodeMap.getLsbD (slotOf H d k) = false := h.1 _ hd
  have hc : ns.compressedIdx (slotOf H d k) = some A.length := by
    rw [hlen]
    exact compressedIdx_data hlt hd
  have hcheck : checkBit ns.nodeMap (slotOf H d k) = false := (checkBit_eq hlt).trans hn
  have hentries : ns.entries = entriesOf A ++ ([e₀] ++ entriesOf B) := by
    rw [MapSubNodes.entries, hAB, entriesOf_append, entriesOf_cons, MapNode.entries_entry]
  rw [MapSubNodes.updateMut]
  simp only [mask32_hash32, hc, hcheck, false_eq_true, if_false, hAB, getElem?_at rfl,
    bind_eq_bind, bind_some]
  cases hk : H.eq k e₀.1 with
  | true =>
    refine ⟨false, ⟨A ++ .entry (k, v) :: B, ns.nodeMap, ns.dataMap⟩, ?_, hput (k, v) rfl, ?_⟩
    · simp only [if_true, setAt_at rfl, bind_some]
    rw [hentries]
    simp only [MapSubNodes.entries, entriesOf_append, entriesOf_cons, MapNode.entries_entry]
    exact Upd.frame (.old (L.symm _ _ hk) (.refl _) (.refl _)) (helA k rfl) (helB k rfl)
  | false =>
    have hk' : H.eq e₀.1 k = false := by rwa [Lawful.eq_comm L]
    obtain ⟨n, hmake, hgood, hperm⟩ := hsub e₀ hslot hk'
    obtain ⟨A', B', hAB', hlen', hput'⟩ := hdel.gap_node hlt
      (by simp [getLsbD_clearBit hlt hlt]) hn
    have hc' : (⟨A ++ B, setBit ns.nodeMap (slotOf H d k),
        clearBit ns.dataMap (slotOf H d k)⟩ : MapSubNodes K V).compressedIdx (slotOf H d k) =
        some A'.length := by
      rw [hlen', compressedIdx_node hlt (by simp [getLsbD_clearBit hlt hlt])
        (by simp [getLsbD_setBit hlt]), rank_setBit hlt]
    refine ⟨true, ⟨A' ++ n :: B', setBit ns.nodeMap (slotOf H d k),
      clearBit ns.dataMap (slotOf H d k)⟩, ?_, hput' n (two_entries (e := (k, v)) hgood hperm hslot), ?_⟩
    · simp only [mask32_hash32, bind_eq_bind] at hmake
      simp only [false_eq_true, if_false, bind_some, deleteAt_at rfl, hc']
      simp only [show A ++ B = A' ++ B' from hAB', insertAt_at rfl, bind_some]
      by_cases hdepth : d < collisionDepth - 1
      · rw [if_pos hdepth, bind_eq_some_iff] at hmake
        obtain ⟨p, hp, hpn⟩ := hmake
        rw [if_pos hdepth, hp, bind_some, some.inj hpn]
      · rw [if_neg hdepth] at hmake
        rw [if_neg hdepth, hmake, bind_some]
    rw [hentries]
    have hrest : entriesOf A' ++ entriesOf B' = entriesOf A ++ entriesOf B := by
      rw [← entriesOf_append, ← entriesOf_append, show A ++ B = A' ++ B' from hAB']
    simp only [MapSubNodes.entries, entriesOf_append, entriesOf_cons]
    refine .new (fun a ha => ?_) ?_
    · rcases mem_append.1 ha with ha | ha
      · exact helA k rfl a ha
      rcases mem_cons.1 ha with rfl | ha
      · exact hk'
      · exact helB k rfl a ha
    calc (entriesOf A' ++ (n.entries ++ entriesOf B')).Perm
          (n.entries ++ (entriesOf A' ++ entriesOf B')) := perm_append_comm_assoc _ _ _
      _ = n.entries ++ (entriesOf A ++ entriesOf B) := by rw [hrest]
      _ |>.Perm (((k, v) :: [e₀]) ++ (entriesOf A ++ entriesOf B)) := hperm.append_right _
      _ |>.Perm ((k, v) :: (entriesOf A ++ ([e₀] ++ entriesOf B))) :=
          (show (entriesOf A ++ e₀ :: entriesOf B).Perm _ from perm_middle).symm.cons _

/-- The key's bit has a node, which is updated. -/
theorem updateMut_node (L : H.Lawful) (h : Trie H r d ns)
    (hn : ns.nodeMap.getLsbD (slotOf H d k) = true)
    (hsub : ∀ n, Good H r (d + 1) n → ∃ b n', Good H r (d + 1) n' ∧
      Upd H (k, v) b n.entries n'.entries ∧ ∀ A B : List (MapNode K V),
        ns.nodes = A ++ n :: B → ns.compressedIdx (slotOf H d k) = some A.length →
        checkBit ns.nodeMap (slotOf H d k) = true → ns.updateMut H (levels + 1) d (hash32 H k) k v =
          some (b, ⟨A ++ n' :: B, ns.nodeMap, ns.dataMap⟩)) :
    ∃ b ns', ns.updateMut H (levels + 1) d (hash32 H k) k v = some (b, ns') ∧ Trie H r d ns' ∧
      Upd H (k, v) b ns.entries ns'.entries := by
  have hlt := slotOf_lt (H := H) d k
  obtain ⟨A, n, B, hAB, hlen, ⟨hgood, htwo, hslot⟩, hput, -, helse⟩ := h.at_node L hn
  obtain ⟨helA, helB⟩ := helse.of_append
  have hd : ns.dataMap.getLsbD (slotOf H d k) = false := by
    rw [eq_false_iff]
    intro hd
    rw [h.1 _ hd] at hn
    cases hn
  have hc : ns.compressedIdx (slotOf H d k) = some A.length := by
    rw [hlen]
    exact compressedIdx_node hlt hd hn
  obtain ⟨b, n', hgood', hupd, hrun⟩ := hsub n hgood
  refine ⟨b, _, hrun A B hAB hc ((checkBit_eq hlt).trans hn), hput n' ⟨hgood', ?_, ?_⟩, ?_⟩
  · rw [hupd.length_eq]
    omega
  · intro a ha
    rcases hupd.mem ha with rfl | ha
    · rfl
    · exact hslot a ha
  · rw [MapSubNodes.entries, MapSubNodes.entries, hAB]
    simp only [entriesOf_append, entriesOf_cons]
    exact hupd.frame (helA k rfl) (helB k rfl)

/-- **`update_mut`** keeps the invariant, adds or replaces the entry of the key, and raises no
error. -/
theorem MapSubNodes.updateMut_spec (L : H.Lawful) (h : Trie H r d ns) (hl : r < levels)
    (hdr : d + r + 1 = collisionDepth) :
    ∃ b ns', ns.updateMut H levels d (hash32 H k) k v = some (b, ns') ∧ Trie H r d ns' ∧
      Upd H (k, v) b ns.entries ns'.entries := by
  induction levels generalizing r d ns with
  | zero => omega
  | succ levels ih =>
    cases hd : ns.dataMap.getLsbD (slotOf H d k) with
    | true =>
      refine updateMut_data L h hd fun e₀ hslot hk => ?_
      cases r with
      | zero =>
        rw [if_neg (by omega)]
        exact collide_spec L e₀ (k, v) (d + 1)
      | succ r =>
        rw [if_pos (by omega)]
        obtain ⟨b, sn, hrun, htrie, hupd⟩ :=
          ih (trie_single r (d + 1) e₀) (by omega) (by omega)
        have hsingle : (⟨[.entry e₀], 0, setBit 0 (slotOf H (d + 1) e₀.1)⟩ :
            MapSubNodes K V).entries = [e₀] := by
          rw [MapSubNodes.entries, entriesOf_cons, entriesOf_nil]
          simp
        rw [hsingle] at hupd
        refine ⟨sn.node, ?_, htrie, ?_⟩
        · simp only [mask32_hash32, bind_eq_bind, hrun, bind_some]
        · rw [MapSubNodes.entries_node]
          exact (hupd.of_ne hk).2
    | false =>
      cases hn : ns.nodeMap.getLsbD (slotOf H d k) with
      | false =>
        obtain ⟨ns', hrun, htrie, hupd⟩ := updateMut_gap levels L h hd hn
        exact ⟨true, ns', hrun, htrie, hupd⟩
      | true =>
        refine updateMut_node L h hn fun n hgood => ?_
        cases r with
        | zero =>
          obtain ⟨bins, rfl, hb⟩ := good_zero hgood
          obtain ⟨b, bins', hrun, hb', hupd⟩ := updateMut_spec L hb (k, v)
          refine ⟨b, .collisions bins', hb', by simpa using hupd, fun A B hAB hc hck => ?_⟩
          rw [MapSubNodes.updateMut]
          simp only [mask32_hash32, hc, hck, if_true, hAB, getElem?_at rfl, bind_eq_bind, bind_some]
          rw [if_neg (by omega)]
          simp only [hrun, bind_some, setAt_at rfl]
        | succ r =>
          obtain ⟨sn, rfl, hsn⟩ := good_succ hgood
          obtain ⟨b, sn', hrun, htrie, hupd⟩ := ih hsn (by omega) (by omega)
          refine ⟨b, sn'.node, htrie, by simpa using hupd, fun A B hAB hc hck => ?_⟩
          rw [MapSubNodes.updateMut]
          simp only [mask32_hash32, hc, hck, if_true, hAB, getElem?_at rfl, bind_eq_bind, bind_some]
          rw [if_pos (by omega)]
          simp only [MapSubNodes.node, hrun, bind_some, setAt_at rfl]

end

end SpacePony.Persistent
