import Mathlib.Data.List.Induction
import Mathlib.Logic.Function.Basic
import Mathlib.Order.Basic

/-!
# Support — prefix trees in a memory of nodes

A prefix tree whose nodes lie in a memory and hold the pointers of their children, word by word.  A
`write` at a lowest node changes one value (`Wf.value_write`).
-/

namespace SpacePony.PrefixTree

open Option List

/-- The pointer `p + 1` is that of the node `nodes[p]`; `0` is no pointer. -/
structure Tree where
  root : Nat
  nodes : List (List Nat)
deriving DecidableEq

/-- A place that holds a pointer: the root, or a word of a node. -/
inductive Slot where
  | root
  | entry (node ix : Nat)
deriving DecidableEq

namespace Tree

/-- The pointer is that of a node. -/
def Valid (t : Tree) (p : Nat) : Prop := p ≠ 0 ∧ p ≤ t.nodes.length

/-- The words of the node at `p`. -/
def words (t : Tree) (p : Nat) : Option (List Nat) :=
  if p = 0 then none else t.nodes[p - 1]?

def read (t : Tree) : Slot → Option Nat
  | .root => some t.root
  | .entry p ix => (t.words p).bind (·[ix]?)

def write (t : Tree) (slot : Slot) (v : Nat) : Tree :=
  match slot with
  | .root => { t with root := v }
  | .entry p ix => { t with nodes := t.nodes.modify (p - 1) (·.set ix v) }

/-- A fresh node of `width` empty words. -/
def alloc (t : Tree) (width : Nat) : Tree :=
  { t with nodes := t.nodes ++ [replicate width 0] }

/-- A fresh node, and its pointer in the slot. -/
def link (t : Tree) (width : Nat) (slot : Slot) : Tree :=
  (t.alloc width).write slot (t.nodes.length + 1)

/-- A word of a node, `0` where there is none. -/
def word (t : Tree) (p ix : Nat) : Nat := (t.read (.entry p ix)).getD 0

/-- The node at the end of the path, `0` where the path leaves the tree. -/
def node (t : Tree) (ks : List Nat) : Nat := ks.foldl t.word t.root

/-- What the node at the end of the path holds. -/
def value (t : Tree) (ks : List Nat) (ix : Nat) : Nat := t.word (t.node ks) ix

/-- The slot at the end of the path. -/
inductive SlotAt (t : Tree) : List Nat → Slot → Prop where
  | root : SlotAt t [] .root
  | entry {ks : List Nat} {ix : Nat} (h : t.node ks ≠ 0) :
      SlotAt t (ks ++ [ix]) (.entry (t.node ks) ix)

variable {t t' : Tree} {p q ix ix' v width depth : Nat} {ks ks' : List Nat} {slot : Slot}
  {path path' : Nat → List Nat}

@[simp] theorem word_zero : t.word 0 ix = 0 := rfl

@[simp] theorem node_concat : t.node (ks ++ [ix]) = t.word (t.node ks) ix := by
  rw [node, foldl_append]
  rfl

theorem words_alloc_of_valid (h : t.Valid p) : (t.alloc width).words p = t.words p := by
  have hlt : p - 1 < t.nodes.length := by
    have := h.1
    have := h.2
    omega
  rw [words, words, if_neg h.1, if_neg h.1, alloc, getElem?_append_left hlt]

theorem words_alloc_fresh :
    (t.alloc width).words (t.nodes.length + 1) = some (replicate width 0) := by
  simp [words, alloc]

theorem words_write_of_ne (hp : p ≠ 0) (h : q ≠ p) :
    (t.write (.entry p ix) v).words q = t.words q := by
  by_cases hq : q = 0
  · rw [words, words, if_pos hq, if_pos hq]
  have hne : p - 1 ≠ q - 1 := by omega
  rw [words, words, if_neg hq, if_neg hq]
  exact getElem?_modify_ne _ _ hne

theorem words_write : (t.write (.entry p ix) v).words p = (t.words p).map (·.set ix v) := by
  by_cases hp : p = 0
  · rw [words, words, if_pos hp, if_pos hp]
    rfl
  · rw [words, words, if_neg hp, if_neg hp]
    exact getElem?_modify_eq ..

/-- The words that are not written keep what they hold. -/
theorem word_write_of_ne (hp : p ≠ 0) (h : q ≠ p ∨ ix' ≠ ix) :
    (t.write (.entry p ix) v).word q ix' = t.word q ix' := by
  by_cases hq : q = p
  · have hix : ix ≠ ix' := (h.resolve_left fun hne => hne hq).symm
    subst hq
    rw [word, word, read, read, words_write]
    cases t.words q with
    | none => rfl
    | some ws => simp [getElem?_set_ne hix]
  · rw [word, word, read, read, words_write_of_ne hp hq]

/-- A word that is there is written. -/
theorem word_write (h : (t.read (.entry p ix)).isSome) :
    (t.write (.entry p ix) v).word p ix = v := by
  rw [read] at h
  rw [word, read, words_write]
  cases hw : t.words p with
  | none => rw [hw] at h; cases h
  | some ws =>
    rw [hw] at h
    have hlt : ix < ws.length := by
      by_contra hge
      rw [bind_some, getElem?_eq_none (Nat.le_of_not_lt hge)] at h
      cases h
    simp [hlt]

/-- Every node stands at a path of its own, shorter than `depth`, and is found there; a word of a
node that is not of the lowest ones is empty or holds the pointer of the node one index further. -/
structure Wf (t : Tree) (depth width : Nat) (path : Nat → List Nat) : Prop where
  words : ∀ p, t.Valid p → ∃ ws, t.words p = some ws ∧ ws.length = width
  reach : ∀ p, t.Valid p → t.node (path p) = p
  short : ∀ p, t.Valid p → (path p).length < depth
  root : t.root ≠ 0 → t.Valid t.root ∧ path t.root = []
  child : ∀ p, t.Valid p → (path p).length + 1 < depth → ∀ ix, t.word p ix ≠ 0 →
    t.Valid (t.word p ix) ∧ path (t.word p ix) = path p ++ [ix]

/-- Where nothing but empty words changes, a path that stays in the tree ends where it did. -/
theorem node_mono (hroot : t.root ≠ 0 → t'.root = t.root)
    (hword : ∀ l ix, l.length < ks.length → t.word (t.node l) ix ≠ 0 →
      t'.word (t.node l) ix = t.word (t.node l) ix)
    (hn : t.node ks ≠ 0) : t'.node ks = t.node ks := by
  induction ks using reverseRec with
  | nil => exact hroot hn
  | append_singleton ks ix ih =>
    rw [node_concat] at hn
    have hparent : t.node ks ≠ 0 := fun e => hn (by rw [e, word_zero])
    have hlen : ks.length < (ks ++ [ix]).length := by simp
    have hsame : t'.node ks = t.node ks :=
      ih (fun l ix hl => hword l ix (Nat.lt_trans hl hlen)) hparent
    rw [node_concat, node_concat, hsame]
    exact hword ks ix hlen hn

namespace Wf

/-- A path that stays in the tree ends at the node that stands at it. -/
theorem node (h : t.Wf depth width path) (hks : ks.length < depth) (hn : t.node ks ≠ 0) :
    t.Valid (t.node ks) ∧ path (t.node ks) = ks := by
  induction ks using reverseRec with
  | nil => exact h.root hn
  | append_singleton ks ix ih =>
    rw [length_append, length_singleton] at hks
    rw [node_concat] at hn ⊢
    have hparent : t.node ks ≠ 0 := fun e => hn (by rw [e, word_zero])
    obtain ⟨hv, hp⟩ := ih (by omega) hparent
    have hchild := h.child _ hv (by rw [hp]; exact hks) ix hn
    rwa [hp] at hchild

theorem node_inj (h : t.Wf depth width path) (hks : ks.length < depth) (hks' : ks'.length < depth)
    (hn : t.node ks ≠ 0) (e : t.node ks = t.node ks') : ks = ks' := by
  rw [← (h.node hks hn).2, e]
  exact (h.node hks' (e ▸ hn)).2

/-- The words of a node can be read. -/
theorem read (h : t.Wf depth width path) (hv : t.Valid p) (hix : ix < width) :
    t.read (.entry p ix) = some (t.word p ix) := by
  obtain ⟨ws, hw, hlen⟩ := h.words p hv
  rw [word, Tree.read, hw, bind_some, getElem?_eq_getElem (hlen ▸ hix)]
  rfl

end Wf

theorem valid_link : (t.link width slot).Valid p ↔ t.Valid p ∨ p = t.nodes.length + 1 := by
  have hlen : (t.link width slot).nodes.length = t.nodes.length + 1 := by
    cases slot <;> simp [link, write, alloc]
  rw [Valid, Valid, hlen]
  omega

theorem Valid.ne_fresh (h : t.Valid p) : p ≠ t.nodes.length + 1 := by
  have := h.2
  omega

theorem valid_of_read {u : Nat} (h : t.read (.entry p ix) = some u) : t.Valid p := by
  rw [read, words] at h
  split at h
  · cases h
  next hp =>
    obtain ⟨ws, hws, -⟩ := Option.bind_eq_some_iff.1 h
    have hlt : p - 1 < t.nodes.length := (List.getElem?_eq_some_iff.1 hws).1
    exact ⟨hp, by omega⟩

/-- A slot that is there stays as it is when a node is added. -/
theorem read_alloc {u : Nat} (h : t.read slot = some u) : (t.alloc width).read slot = some u := by
  cases slot with
  | root => exact h
  | entry p ix =>
    have hv := valid_of_read h
    rw [read, words_alloc_of_valid hv]
    exact h

/-- The words of the nodes that were there, the slot apart, stay as they are. -/
theorem word_link (hread : t.read slot = some 0) (hv : t.Valid q) (hslot : slot ≠ .entry q ix) :
    (t.link width slot).word q ix = t.word q ix := by
  have halloc : (t.alloc width).word q ix = t.word q ix := by
    rw [word, word, read, read, words_alloc_of_valid hv]
  cases slot with
  | root => exact halloc
  | entry p ix' =>
    have hne : q ≠ p ∨ ix ≠ ix' := by
      by_contra hc
      rw [not_or, not_not, not_not] at hc
      exact hslot (by rw [hc.1, hc.2])
    exact (word_write_of_ne (valid_of_read hread).1 hne).trans halloc

/-- The fresh node is empty. -/
theorem words_link_fresh (hread : t.read slot = some 0) :
    (t.link width slot).words (t.nodes.length + 1) = some (replicate width 0) := by
  cases slot with
  | root => exact words_alloc_fresh
  | entry p ix =>
    have hp := valid_of_read hread
    exact (words_write_of_ne hp.1 hp.ne_fresh.symm).trans words_alloc_fresh

theorem word_link_fresh (hread : t.read slot = some 0) :
    (t.link width slot).word (t.nodes.length + 1) ix = 0 := by
  rw [word, read, words_link_fresh hread, bind_some, getElem?_replicate]
  split <;> rfl

theorem read_link (hread : t.read slot = some 0) :
    (t.link width slot).read slot = some (t.nodes.length + 1) := by
  cases slot with
  | root => rfl
  | entry p ix =>
    have hv := valid_of_read hread
    rw [read] at hread
    obtain ⟨ws, hws, hget⟩ := Option.bind_eq_some_iff.1 hread
    have hlt := (List.getElem?_eq_some_iff.1 hget).1
    rw [read, link, words_write, words_alloc_of_valid hv, hws]
    simp [hlt]

/-- The words of the slot's node are as many as they were. -/
theorem length_words_link (width : Nat) (hread : t.read slot = some 0) (hv : t.Valid q) :
    ((t.link width slot).words q).map length = (t.words q).map length := by
  cases slot with
  | root => exact congrArg _ (words_alloc_of_valid hv)
  | entry p ix =>
    by_cases hq : q = p
    · subst hq
      rw [link, words_write, words_alloc_of_valid hv, Option.map_map]
      exact congrArg (Option.map · _) (funext fun ws => length_set ..)
    · rw [link, words_write_of_ne (valid_of_read hread).1 hq, words_alloc_of_valid hv]

namespace SlotAt

theorem of_entry (hs : t.SlotAt ks (.entry p ix)) : ∃ l, ks = l ++ [ix] ∧ t.node l = p := by
  generalize hslot : Slot.entry p ix = slot at hs
  cases hs with
  | root => cases hslot
  | @entry l i hn =>
    cases hslot
    exact ⟨l, rfl, rfl⟩

/-- The pointer in the slot at the end of a path is that of the node at its end. -/
theorem read (h : t.Wf depth width path) (hs : t.SlotAt ks slot) (hks : ks.length ≤ depth)
    (hix : ∀ ix ∈ ks, ix < width) : t.read slot = some (t.node ks) := by
  cases hs with
  | root => rfl
  | entry hn =>
    rw [length_append, length_singleton] at hks
    rw [node_concat]
    exact h.read (h.node (by omega) hn).1 (hix _ (by simp))

end SlotAt

/-! ### A fresh node -/

section Link

variable (h : t.Wf depth width path) (hread : t.read slot = some 0)
include h hread

omit h in
theorem slot_ne_of_word (hn : t.word q ix ≠ 0) : slot ≠ .entry q ix := by
  rintro rfl
  exact hn (by rw [word, hread]; rfl)

omit h in
theorem root_link (hroot : t.root ≠ 0) : (t.link width slot).root = t.root := by
  cases slot with
  | root => exact absurd (some.inj hread) hroot
  | entry p ix => rfl

theorem node_link (hks : ks.length < depth) (hn : t.node ks ≠ 0) :
    (t.link width slot).node ks = t.node ks := by
  refine node_mono (root_link hread) (fun l ix hl hw => ?_) hn
  have hl0 : t.node l ≠ 0 := fun e => hw (by rw [e, word_zero])
  exact word_link hread (h.node (by omega) hl0).1 (slot_ne_of_word hread hw)

section
variable (hs : t.SlotAt ks slot) (hks : ks.length < depth)
include hs hks

theorem node_link_fresh : (t.link width slot).node ks = t.nodes.length + 1 := by
  cases hs with
  | root => rfl
  | @entry ks ix hn =>
    rw [length_append, length_singleton] at hks
    rw [node_concat, node_link h hread (by omega) hn, word, read_link hread]
    rfl

/-- The fresh node stands at the path of its slot. -/
theorem Wf.link :
    (t.link width slot).Wf depth width (Function.update path (t.nodes.length + 1) ks) := by
  have hold : ∀ {p}, t.Valid p → Function.update path (t.nodes.length + 1) ks p = path p :=
    fun hv => Function.update_of_ne hv.ne_fresh ..
  have hnew : Function.update path (t.nodes.length + 1) ks (t.nodes.length + 1) = ks :=
    Function.update_self ..
  refine ⟨fun p hp => ?_, fun p hp => ?_, fun p hp => ?_, fun hroot => ?_,
    fun p hp hlen ix hw => ?_⟩
  · rcases valid_link.1 hp with hv | rfl
    · obtain ⟨ws, hws, hlen⟩ := h.words p hv
      have hmap := length_words_link width hread hv
      rw [hws, map_some, hlen] at hmap
      obtain ⟨ws', hws', hlen'⟩ := map_eq_some_iff.1 hmap
      exact ⟨ws', hws', hlen'⟩
    · exact ⟨_, words_link_fresh hread, length_replicate⟩
  · rcases valid_link.1 hp with hv | rfl
    · have hreach := h.reach p hv
      rw [hold hv, node_link h hread (h.short p hv) (hreach.symm ▸ hv.1), hreach]
    · rw [hnew]
      exact node_link_fresh h hread hs hks
  · rcases valid_link.1 hp with hv | rfl
    · rw [hold hv]
      exact h.short p hv
    · rwa [hnew]
  · cases hs with
    | root => exact ⟨valid_link.2 (.inr rfl), hnew⟩
    | entry hn =>
      obtain ⟨hv, hp⟩ := h.root hroot
      exact ⟨valid_link.2 (.inl hv), (hold hv).trans hp⟩
  rcases valid_link.1 hp with hv | rfl
  · by_cases hslot : slot = .entry p ix
    · cases hs with
      | root => cases hslot
      | @entry ks ix' hn =>
        cases hslot
        have hfresh : (t.link width (.entry (t.node ks) ix)).word (t.node ks) ix
            = t.nodes.length + 1 := by
          rw [word, read_link hread]
          rfl
        rw [length_append, length_singleton] at hks
        rw [hfresh, hnew, hold hv, (h.node (by omega) hn).2]
        exact ⟨valid_link.2 (.inr rfl), rfl⟩
    rw [word_link hread hv hslot] at hw ⊢
    rw [hold hv] at hlen ⊢
    obtain ⟨hv', hp'⟩ := h.child p hv hlen ix hw
    exact ⟨valid_link.2 (.inl hv'), (hold hv').trans hp'⟩
  · exact absurd (word_link_fresh hread) hw

/-- **A fresh node changes no value.** -/
theorem Wf.value_link
    (hks' : ks'.length + 1 = depth) : (t.link width slot).value ks' ix = t.value ks' ix := by
  have h' := h.link hread hs hks
  by_cases hn : t.node ks' = 0
  · rw [value, value, hn, word_zero]
    by_cases hn' : (t.link width slot).node ks' = 0
    · rw [hn', word_zero]
    obtain ⟨hv, hp⟩ := h'.node (by omega) hn'
    rcases valid_link.1 hv with hv | hfresh
    · rw [Function.update_of_ne hv.ne_fresh] at hp
      have hreach := h.reach _ hv
      rw [hp, hn] at hreach
      exact absurd hreach.symm hn'
    · rw [hfresh]
      exact word_link_fresh hread
  rw [value, value, node_link h hread (by omega) hn]
  refine word_link hread (h.node (by omega) hn).1 ?_
  rintro rfl
  obtain ⟨ks₀, rfl, e⟩ := hs.of_entry
  rw [length_append, length_singleton] at hks
  have := h.node_inj (by omega) (by omega) (e ▸ hn) e
  subst this
  omega

end

end Link

/-! ### A word of a lowest node -/

section Write

variable (h : t.Wf depth width path) (hks : ks.length + 1 = depth) (hn : t.node ks ≠ 0)
  (ix v : Nat)
include h hks hn

theorem node_write (hks' : ks'.length < depth) :
    (t.write (.entry (t.node ks) ix) v).node ks' = t.node ks' := by
  induction ks' using reverseRec with
  | nil => rfl
  | append_singleton l ix' ih =>
    rw [length_append, length_singleton] at hks'
    rw [node_concat, node_concat, ih (by omega)]
    by_cases hl : t.node l = 0
    · rw [hl, word_zero, word_zero]
    refine word_write_of_ne hn (.inl fun e => ?_)
    have := h.node_inj (by omega) (by omega) hl e
    subst this
    omega

theorem Wf.write : (t.write (.entry (t.node ks) ix) v).Wf depth width path := by
  have hlen : (t.write (.entry (t.node ks) ix) v).nodes.length = t.nodes.length :=
    length_modify ..
  have hvalid : ∀ {p}, (t.write (.entry (t.node ks) ix) v).Valid p ↔ t.Valid p := by
    intro p
    rw [Valid, Valid, hlen]
  refine ⟨fun p hp => ?_, fun p hp => ?_, fun p hp => h.short p (hvalid.1 hp), fun hroot => ?_,
    fun p hp hshort ix' hw => ?_⟩
  · obtain ⟨ws, hws, hlen⟩ := h.words p (hvalid.1 hp)
    by_cases hp : p = t.node ks
    · subst hp
      exact ⟨ws.set ix v, by rw [words_write, hws]; rfl, by rw [length_set, hlen]⟩
    · exact ⟨ws, (words_write_of_ne hn hp).trans hws, hlen⟩
  · rw [node_write h hks hn ix v (h.short p (hvalid.1 hp))]
    exact h.reach p (hvalid.1 hp)
  · rw [hvalid]
    exact h.root hroot
  have hne : p ≠ t.node ks := by
    rintro rfl
    rw [(h.node (by omega) hn).2] at hshort
    omega
  rw [word_write_of_ne hn (.inl hne)] at hw ⊢
  rw [hvalid]
  exact h.child p (hvalid.1 hp) hshort ix' hw

/-- **A write changes one value.** -/
theorem Wf.value_write (hix : ix < width) (hks' : ks'.length + 1 = depth) (ix' : Nat) :
    (t.write (.entry (t.node ks) ix) v).value ks' ix'
      = if ks' = ks ∧ ix' = ix then v else t.value ks' ix' := by
  rw [value, value, node_write h hks hn ix v (by omega)]
  by_cases hsame : ks' = ks ∧ ix' = ix
  · obtain ⟨rfl, rfl⟩ := hsame
    rw [if_pos ⟨rfl, rfl⟩]
    exact word_write (by rw [h.read (h.node (by omega) hn).1 hix]; rfl)
  rw [if_neg hsame]
  by_cases hn' : t.node ks' = 0
  · rw [hn', word_zero, word_zero]
  refine word_write_of_ne hn ?_
  by_contra hc
  rw [not_or, not_not, not_not] at hc
  exact hsame ⟨h.node_inj (by omega) (by omega) hn' hc.1, hc.2⟩

end Write

end Tree

end SpacePony.PrefixTree
