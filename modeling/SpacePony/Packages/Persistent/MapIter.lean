import SpacePony.Packages.Persistent.MapRuns
import SpacePony.Support.Iteration

/-!
# Packages — persistent — iterating over the map

Iterating is exact if and only if the map is not empty (`iterates_iff`), since the iterator over the
root is pushed whether or not it has something to give (`not_iterates`).
-/

namespace SpacePony.Persistent

open List Collections Compressed Iteration

variable {K V : Type} {H : HashFunction K}

/-- `_MapIter`: the object of `_MapSubNodes.iter`, with its `_idx`, or that of
`_MapCollisions.iter`, with what is left of the bins. -/
inductive MapIter (K V : Type)
  | subNodes (nodes : List (MapNode K V)) (idx : Nat)
  | collisions (stack : List (List (K × V)))

/-- `_MapSubNodes.iter`. -/
def MapSubNodes.iter (ns : MapSubNodes K V) : MapIter K V := .subNodes ns.nodes 0

/-- `_MapCollisions.iter`. -/
def Collisions.iter (bins : List (List (K × V))) : MapIter K V :=
  .collisions (bins.filter fun bin => bin.length > 0)

namespace MapIter

/-- `has_next`. -/
def hasNext : MapIter K V → Bool
  | .subNodes nodes idx => idx < nodes.length
  | .collisions stack => stack.length > 0

/-- `next`: an entry, an iterator over a node, or an error. -/
def next : MapIter K V → Option ((K × V) ⊕ MapIter K V) × MapIter K V
  | .subNodes nodes idx =>
    let this := .subNodes nodes (idx + 1)
    match nodes[idx]? with
    | none => (none, this)
    | some (.entry e) => (some (.inl e), this)
    | some (.subNodes ns nodeMap dataMap) =>
      (some (.inr (MapSubNodes.iter { nodes := ns, nodeMap, dataMap })), this)
    | some (.collisions bins) => (some (.inr (Collisions.iter bins)), this)
  | .collisions stack =>
    match stack with
    | [] => (none, .collisions stack)
    | [] :: _ => (none, .collisions stack)
    | [e] :: rest => (some (.inl e), .collisions rest)
    | (e :: iter) :: rest => (some (.inl e), .collisions (iter :: rest))

/-- How deep an iterator leads. -/
noncomputable def rank : MapIter K V → Nat
  | .subNodes nodes _ => sizeOf nodes + 1
  | .collisions _ => 0

theorem rank_lt {it it' i : MapIter K V} (h : it.next = (some (.inr i), it')) :
    i.rank < it.rank := by
  cases it with
  | subNodes nodes idx =>
    rw [next] at h
    split at h
    · cases h
    · cases h
    · rename_i ns nodeMap dataMap hget
      cases h
      have := sizeOf_lt_of_mem (mem_of_getElem? hget)
      simp only [MapNode.subNodes.sizeOf_spec] at this
      simp only [MapSubNodes.iter, rank]
      omega
    · cases h
      exact Nat.succ_pos _
  | collisions stack =>
    rw [next.eq_def] at h
    dsimp only at h
    split at h <;> cases h

end MapIter

/-! ### The iterators over a map -/

/-- `class MapPairs`: the top of the stack is first. -/
structure MapPairs (K V : Type) where
  stack : List (MapIter K V)

/-- `MapPairs.create`. -/
def MapPairs.create (m : HashMap K V) : MapPairs K V := ⟨[m.root.iter]⟩

namespace MapPairs

/-- `has_next`. -/
def hasNext (p : MapPairs K V) : Bool := p.stack.length > 0

/-- `next`, with `iter` at the top of the stack. -/
def nextOf (iter : MapIter K V) (stack : List (MapIter K V)) : Option (K × V) × MapPairs K V :=
  match _h : iter.next with
  | (none, iter') => (none, ⟨iter' :: stack⟩)
  | (some x, iter') =>
    let stack' := if iter'.hasNext then iter' :: stack else stack
    match x with
    | .inl e => (some e, ⟨stack'⟩)
    | .inr i => nextOf i stack'
termination_by iter.rank
decreasing_by exact MapIter.rank_lt ‹_›

/-- `next`. -/
def next (p : MapPairs K V) : Option (K × V) × MapPairs K V :=
  match p.stack with
  | [] => (none, p)
  | iter :: stack => nextOf iter stack

section
variable {iter iter' i : MapIter K V} {stack : List (MapIter K V)} {e : K × V}

theorem nextOf_error (h : iter.next = (none, iter')) :
    nextOf iter stack = (none, ⟨iter' :: stack⟩) := by
  rw [nextOf]
  split
  · rename_i h'
    cases h.symm.trans h'
    rfl
  · rename_i h'
    cases h.symm.trans h'

theorem nextOf_entry (h : iter.next = (some (.inl e), iter')) :
    nextOf iter stack = (some e, ⟨if iter'.hasNext then iter' :: stack else stack⟩) := by
  rw [nextOf]
  split
  · rename_i h'
    cases h.symm.trans h'
  rename_i h'
  cases h.symm.trans h'
  rfl

theorem nextOf_iter (h : iter.next = (some (.inr i), iter')) :
    nextOf iter stack = nextOf i (if iter'.hasNext then iter' :: stack else stack) := by
  rw [nextOf]
  split
  · rename_i h'
    cases h.symm.trans h'
  rename_i h'
  cases h.symm.trans h'
  rfl

end

/-- `MapPairs` as an iterator. -/
def iterator : Iterator (MapPairs K V) (K × V) := ⟨hasNext, next⟩

end MapPairs

/-- `class MapKeys`. -/
structure MapKeys (K V : Type) where
  pairs : MapPairs K V

namespace MapKeys

/-- `MapKeys.create`. -/
def create (m : HashMap K V) : MapKeys K V := ⟨.create m⟩

/-- `MapKeys` as an iterator. -/
def iterator : Iterator (MapKeys K V) K where
  hasNext p := p.pairs.hasNext
  next p := let (e, pairs) := p.pairs.next; (e.map Prod.fst, ⟨pairs⟩)

end MapKeys

/-- `class MapValues`. -/
structure MapValues (K V : Type) where
  pairs : MapPairs K V

namespace MapValues

/-- `MapValues.create`. -/
def create (m : HashMap K V) : MapValues K V := ⟨.create m⟩

/-- `MapValues` as an iterator. -/
def iterator : Iterator (MapValues K V) V where
  hasNext p := p.pairs.hasNext
  next p := let (e, pairs) := p.pairs.next; (e.map Prod.snd, ⟨pairs⟩)

end MapValues

/-! ### Nodes with something to give -/

/-- No node is without an entry. -/
inductive Full : MapNode K V → Prop
  | entry (e : K × V) : Full (.entry e)
  | collisions {bins : List (List (K × V))} (h : bins.flatten ≠ []) : Full (.collisions bins)
  | subNodes {nodes : List (MapNode K V)} {nodeMap dataMap : BitVec 32} (h : nodes ≠ [])
      (hf : ∀ n ∈ nodes, Full n) : Full (.subNodes nodes nodeMap dataMap)

section
variable {ns : MapSubNodes K V} {child : MapNode K V → Prop} {d r : Nat} {n : MapNode K V}

theorem Full.entries_ne_nil (h : Full n) : n.entries ≠ [] := by
  induction h with
  | entry e => simp
  | collisions h => simpa using h
  | @subNodes nodes _ _ h _ ih =>
    obtain ⟨n, nodes, rfl⟩ := exists_cons_of_ne_nil h
    rw [MapNode.entries, entriesOf_cons]
    exact append_ne_nil_of_left_ne_nil (ih n (.head _)) _

theorem Level.full (h : Level H child d ns)
    (hc : ∀ n, child n → n.entries ≠ [] → Full n) : ∀ n ∈ ns.nodes, Full n := by
  obtain ⟨-, ds, cs, hns, -, hcs⟩ := h
  intro n hn
  rw [hns, mem_append] at hn
  rcases hn with hn | hn
  · obtain ⟨e, -, rfl⟩ := mem_map.1 hn
    exact .entry e
  · obtain ⟨i, -, hchild, hlen, -⟩ := hcs.mem hn
    exact hc n hchild (ne_nil_of_length_pos (by omega))

/-- A node below a node is full when it has an entry. -/
theorem Good.full (h : Good H r d n) (hne : n.entries ≠ []) : Full n := by
  induction r generalizing d n with
  | zero =>
    obtain ⟨bins, rfl, -⟩ := good_zero h
    exact .collisions (by simpa using hne)
  | succ r ih =>
    obtain ⟨ns, rfl, ht⟩ := good_succ h
    refine .subNodes (fun hnil => hne ?_) (ht.full fun n hn => ih hn)
    rw [MapSubNodes.entries_node, MapSubNodes.entries, hnil, entriesOf_nil]

theorem Trie.full (h : Trie H r d ns) : ∀ n ∈ ns.nodes, Full n := Level.full h fun _ => Good.full

end

/-! ### Iterators with something to give -/

namespace MapIter

/-- The entries that an iterator still leads to. -/
def rest : MapIter K V → List (K × V)
  | .subNodes nodes idx => entriesOf (nodes.drop idx)
  | .collisions stack => stack.flatten

/-- An iterator has something to give, and so has every node below it. -/
def Live : MapIter K V → Prop
  | .subNodes nodes idx => idx < nodes.length ∧ ∀ n ∈ nodes, Full n
  | .collisions stack => stack ≠ [] ∧ ∀ bin ∈ stack, bin ≠ []

/-- The entries that a result of `next` leads to. -/
def given : (K × V) ⊕ MapIter K V → List (K × V)
  | .inl e => [e]
  | .inr i => i.rest

variable {it : MapIter K V}

theorem live_iter_subNodes {ns : MapSubNodes K V} (h : ns.nodes ≠ [])
    (hf : ∀ n ∈ ns.nodes, Full n) : ns.iter.Live ∧ ns.iter.rest = ns.entries :=
  ⟨⟨length_pos_iff.2 h, hf⟩, rfl⟩

theorem live_iter_collisions {bins : List (List (K × V))} (h : bins.flatten ≠ []) :
    (Collisions.iter bins).Live ∧ (Collisions.iter bins).rest = bins.flatten := by
  have hrest : (Collisions.iter bins).rest = bins.flatten := by
    simp only [Collisions.iter, rest, length_pos_iff]
    exact flatten_filter_ne_nil
  refine ⟨⟨fun hnil => h ?_, fun bin hbin => ?_⟩, hrest⟩
  · rw [← hrest, Collisions.iter, rest, hnil]
    rfl
  · exact length_pos_iff.1 (by simpa using (mem_filter.1 hbin).2)

/-- What `next` does. -/
theorem next_spec (h : it.Live) : ∃ x it', it.next = (some x, it') ∧
    (∀ i, x = .inr i → i.Live) ∧ it.rest = given x ++ it'.rest ∧
    (it'.hasNext = true → it'.Live) ∧ (it'.hasNext = false → it'.rest = []) := by
  cases it with
  | subNodes nodes idx =>
    obtain ⟨hlt, hf⟩ := h
    have hrest : (subNodes nodes idx).rest
        = nodes[idx].entries ++ (subNodes nodes (idx + 1)).rest := by
      rw [rest, drop_eq_getElem_cons hlt, entriesOf_cons, rest]
    have hlive : (subNodes nodes (idx + 1)).hasNext = true → (subNodes nodes (idx + 1)).Live :=
      fun hn => ⟨of_decide_eq_true hn, hf⟩
    have hend : (subNodes nodes (idx + 1)).hasNext = false →
        (subNodes nodes (idx + 1)).rest = [] := fun hn => by
      rw [rest, drop_eq_nil_of_le (by simpa [MapIter.hasNext] using hn), entriesOf_nil]
    have hfull := hf _ (getElem_mem hlt)
    rw [next, getElem?_eq_getElem hlt, hrest]
    generalize nodes[idx] = n at hfull
    cases hfull with
    | entry e => exact ⟨.inl e, _, rfl, nofun, by simp [given], hlive, hend⟩
    | @collisions bins h =>
      obtain ⟨hl, hr⟩ := live_iter_collisions h
      exact ⟨.inr (Collisions.iter bins), _, rfl, fun i hi => by cases hi; exact hl,
        by simp [given, hr], hlive, hend⟩
    | @subNodes ns nodeMap dataMap h hf =>
      obtain ⟨hl, hr⟩ :=
        live_iter_subNodes (show (MapSubNodes.mk ns nodeMap dataMap).nodes ≠ [] from h) hf
      exact ⟨.inr (MapSubNodes.iter ⟨ns, nodeMap, dataMap⟩), _, rfl,
        fun i hi => by cases hi; exact hl, by rw [given, hr]; rfl, hlive, hend⟩
  | collisions stack =>
    obtain ⟨hne, hb⟩ := h
    obtain ⟨bin, stack, rfl⟩ := exists_cons_of_ne_nil hne
    obtain ⟨e, bin, rfl⟩ := exists_cons_of_ne_nil (hb _ (.head _))
    have hb' : ∀ bin ∈ stack, bin ≠ [] := fun b h => hb b (.tail _ h)
    cases bin with
    | nil =>
      refine ⟨.inl e, .collisions stack, rfl, nofun, rfl, fun hn => ⟨?_, hb'⟩, fun hn => ?_⟩
      · exact length_pos_iff.1 (of_decide_eq_true hn)
      have hnil : stack = [] := by simpa [MapIter.hasNext] using hn
      rw [hnil]
      rfl
    | cons e' bin =>
      refine ⟨.inl e, .collisions ((e' :: bin) :: stack), rfl, nofun, rfl,
        fun _ => ⟨by simp, ?_⟩, fun hn => by simp [MapIter.hasNext] at hn⟩
      intro b h
      rcases mem_cons.1 h with rfl | h
      · simp
      · exact hb' b h

end MapIter

namespace MapPairs

/-- Every iterator on the stack has something to give. -/
def Ready (p : MapPairs K V) : Prop := ∀ it ∈ p.stack, it.Live

/-- The entries that are still to be given. -/
def rest (p : MapPairs K V) : List (K × V) := p.stack.flatMap MapIter.rest

theorem nextOf_spec {iter : MapIter K V} {stack : List (MapIter K V)} (h : iter.Live)
    (hs : ∀ it ∈ stack, it.Live) : ∃ e p, nextOf iter stack = (some e, p) ∧ p.Ready ∧
      iter.rest ++ stack.flatMap MapIter.rest = e :: p.rest := by
  induction hr : iter.rank using Nat.strong_induction_on generalizing iter stack with
  | _ r ih =>
    obtain ⟨x, iter', he, hx, hrest, hlive, hend⟩ := MapIter.next_spec h
    -- the iterator is popped when it has nothing left, before the node below it is pushed
    have hs' : ∀ it ∈ (if iter'.hasNext then iter' :: stack else stack), it.Live := by
      intro it hit
      split at hit
      · rcases mem_cons.1 hit with rfl | hit
        · exact hlive ‹_›
        · exact hs it hit
      · exact hs it hit
    have hflat : (if iter'.hasNext then iter' :: stack else stack).flatMap MapIter.rest
        = iter'.rest ++ stack.flatMap MapIter.rest := by
      cases hn : iter'.hasNext with
      | true => rfl
      | false =>
        rw [hend hn]
        rfl
    rw [hrest, append_assoc, ← hflat]
    cases x with
    | inl e => exact ⟨e, _, nextOf_entry he, hs', rfl⟩
    | inr i =>
      rw [nextOf_iter he]
      exact ih i.rank (hr ▸ MapIter.rank_lt he) (hx i rfl) hs' rfl

/-- What a ready stack still has to give. -/
theorem pending : (iterator (K := K) (V := V)).Pending Ready rest where
  done p _ hn := by
    obtain ⟨stack⟩ := p
    have hnil : stack = [] := eq_nil_of_length_eq_zero (by simpa [iterator, hasNext] using hn)
    subst hnil
    exact ⟨rfl, by simp [iterator, next, Ready]⟩
  next p hs hn := by
    obtain ⟨stack⟩ := p
    cases stack with
    | nil => exact nomatch hn
    | cons iter stack =>
      exact nextOf_spec (hs iter (.head _)) fun it h => hs it (.tail _ h)

end MapPairs

/-! ### Over every map -/

namespace HashMap

/-- The pairs are the entries of the map, each once. -/
structure Entries (H : HashFunction K) (m : HashMap K V) (es : List (K × V)) : Prop where
  stored : es.Perm m.root.entries
  distinct : Distinct H es
  apply : ∀ k, m.apply H k = lookup H es k
  size : es.length = m.size

/-- Iterating over a map is exact: a value that is promised is given, and what is given until no
more is promised are the entries, each once. -/
structure Iterates (H : HashFunction K) (m : HashMap K V) : Prop where
  pairs : MapPairs.iterator.Honest (.create m)
  keys : MapKeys.iterator.Honest (.create m)
  values : MapValues.iterator.Honest (.create m)
  complete : ∃ es, Entries H m es ∧ MapPairs.iterator.Yields (.create m) es ∧
    MapKeys.iterator.Yields (.create m) (es.map Prod.fst) ∧
    MapValues.iterator.Yields (.create m) (es.map Prod.snd)

theorem shows_keys : (MapPairs.iterator (K := K) (V := V)).Shows MapKeys.iterator MapKeys.pairs
    Prod.fst :=
  ⟨fun _ => rfl, fun _ => rfl, fun _ => rfl⟩

theorem shows_values : (MapPairs.iterator (K := K) (V := V)).Shows MapValues.iterator
    MapValues.pairs Prod.snd :=
  ⟨fun _ => rfl, fun _ => rfl, fun _ => rfl⟩

variable {m : HashMap K V}

/-- The iterator over a root with a node has something to give. -/
theorem Inv.ready (I : Inv H m) (hne : m.root.nodes ≠ []) : (MapPairs.create m).Ready := by
  intro it hit
  obtain rfl := mem_singleton.1 hit
  exact (MapIter.live_iter_subNodes hne I.trie.full).1

theorem rest_create : (MapPairs.create m).rest = m.root.entries :=
  append_nil _

/-- A root without a node has no entry. -/
theorem Inv.nodes_eq_nil (I : Inv H m) : m.root.nodes = [] ↔ m.size = 0 := by
  constructor
  · intro hnil
    rw [I.size, MapSubNodes.entries, hnil, entriesOf_nil]
    rfl
  intro hsize
  by_contra hne
  obtain ⟨n, nodes, hns⟩ := exists_cons_of_ne_nil hne
  have hfull := I.trie.full n (by rw [hns]; exact .head _)
  have hnil := eq_nil_of_length_eq_zero (I.size.symm.trans hsize)
  rw [MapSubNodes.entries, hns, entriesOf_cons, append_eq_nil_iff] at hnil
  exact hfull.entries_ne_nil hnil.1

/-- **Iterating over a map is exact if and only if the map is not empty**: over an empty map a value
is promised, and `next` is an error. -/
theorem iterates_iff (L : H.Lawful) (r : Reach H m) : Iterates H m ↔ m.size ≠ 0 := by
  have I := r.inv L
  rw [Ne, ← I.nodes_eq_nil]
  constructor
  · intro h hnil
    have hsome := h.pairs _ .refl rfl
    have he : m.root.iter.next = (none, .subNodes [] 1) := by rw [MapSubNodes.iter, hnil]; rfl
    have hnone : (MapPairs.iterator.next (.create m)).1 = none := by
      show (MapPairs.nextOf m.root.iter []).1 = none
      rw [MapPairs.nextOf_error he]
    rw [hnone] at hsome
    exact nomatch hsome
  intro hne
  have hready := I.ready hne
  have hkeys := MapPairs.pending.shows (shows_keys (K := K) (V := V))
  have hvalues := MapPairs.pending.shows (shows_values (K := K) (V := V))
  refine ⟨MapPairs.pending.honest hready, hkeys.honest hready, hvalues.honest hready,
    m.root.entries, ⟨.refl _, I.distinct, I.apply_eq L, I.size.symm⟩, ?_, ?_, ?_⟩
  · rw [← rest_create]
    exact MapPairs.pending.yields hready
  · rw [← rest_create]
    exact hkeys.yields hready
  · rw [← rest_create]
    exact hvalues.yields hready

/-- A map with two keys whose hashes agree in the first five bits. -/
theorem iterates_two :
    Iterates natHash ((({} : HashMap Nat Nat).update natHash 1 10).update natHash 33 330) :=
  (iterates_iff natHash_lawful ((Reach.empty.update 1 10).update 33 330)).2 (by decide)

/-- The empty map. -/
theorem not_iterates : ¬ ∀ {K V : Type} {H : HashFunction K} {m : HashMap K V}, H.Lawful →
    Reach H m → Iterates H m := by
  intro h
  have hsome := (h (V := Nat) natHash_lawful .empty).pairs _ .refl rfl
  have he : ({} : HashMap Nat Nat).root.iter.next = (none, .subNodes [] 1) := rfl
  have hnone : (MapPairs.iterator.next (.create ({} : HashMap Nat Nat))).1 = none := by
    show (MapPairs.nextOf ({} : HashMap Nat Nat).root.iter []).1 = none
    rw [MapPairs.nextOf_error he]
  rw [hnone] at hsome
  exact nomatch hsome

end HashMap

end SpacePony.Persistent
