import SpacePony.Packages.Persistent.MapRemove

/-!
# Packages — persistent — the map over whole runs

* `persistent_map_is_finite_map`: after any sequence of updates the map agrees with the finite map
  that they build, no update takes the branch that should not occur, and the trie is well formed.
* `remove_exact_iff`: removing a key is exact if and only if its hash does not lead to an entry of
  another key, which is removed instead (`remove_takes_other_key`).
-/

namespace SpacePony.Persistent

open MapSubNodes Collections Compressed

variable {K V : Type} {H : HashFunction K}

namespace HashMap

/-- The root is a trie, its keys are different, and the size counts them. -/
structure Inv (H : HashFunction K) (m : HashMap K V) : Prop where
  trie : Trie H (collisionDepth - 1) 0 m.root
  distinct : Distinct H m.root.entries
  size : m.size = m.root.entries.length

section
variable {m m' : HashMap K V}

theorem inv_empty : Inv H ({} : HashMap K V) := by
  have he : ({} : MapSubNodes K V).entries = [] := by rw [entries, entriesOf_nil]
  exact ⟨trie_empty _ _, by rw [he]; exact List.Pairwise.nil, by rw [he]; rfl⟩

theorem Inv.apply_eq (L : H.Lawful) (I : Inv H m) (k : K) :
    m.apply H k = lookup H m.root.entries k :=
  MapSubNodes.apply_eq L k I.trie (by decide)

/-- An update of a list of entries sets the key. -/
theorem Upd.lookup_eq (L : H.Lawful) {e : K × V} {b : Bool} {l l' : List (K × V)}
    (h : Upd H e b l l') (hd : Distinct H l) :
    Distinct H l' ∧ lookup H l' = put H (lookup H l) e.1 e.2 := by
  cases h with
  | new habs hp =>
    have hd' : Distinct H (e :: l) := by
      refine List.pairwise_cons.2 ⟨fun a ha => ?_, hd⟩
      rw [Lawful.eq_comm L]
      exact habs a ha
    refine ⟨hd'.perm L hp.symm, ?_⟩
    rw [lookup_perm L (hd'.perm L hp.symm) hp]
    funext k
    rw [lookup_cons]
    rfl
  | @old _ _ r a hk hp hp' =>
    have hda := hd.perm L hp
    obtain ⟨ha, hr⟩ := List.pairwise_cons.1 hda
    have hd' : Distinct H (e :: r) := by
      refine List.pairwise_cons.2 ⟨fun x hx => ?_, hr⟩
      rw [← L.eq_left hk]
      exact ha x hx
    refine ⟨hd'.perm L hp'.symm, ?_⟩
    rw [lookup_perm L (hd'.perm L hp'.symm) hp', lookup_perm L hd hp]
    exact lookup_replace L hk (L.refl e.1)

/-- **Updating** sets the key, and does not take the branch that should not occur. -/
theorem Inv.update (L : H.Lawful) (I : Inv H m) (k : K) (v : V) :
    (m.updateRoot H k v).isSome ∧ Inv H (m.update H k v) ∧
      (m.update H k v).apply H = put H (m.apply H) k v := by
  obtain ⟨b, ns, hrun, htrie, hupd⟩ :=
    updateMut_spec (k := k) (v := v) L I.trie (show collisionDepth - 1 < levels by decide)
      (by decide)
  obtain ⟨hd, hlook⟩ := Upd.lookup_eq L hupd I.distinct
  have hroot : m.updateRoot H k v = some (b, ns) := hrun
  have hm : m.update H k v = { root := ns, size := if b then m.size + 1 else m.size } := by
    rw [HashMap.update, hroot]
  have I' : Inv H (m.update H k v) := by
    rw [hm]
    refine ⟨htrie, hd, ?_⟩
    rw [hupd.length_eq, ← I.size]
    cases b <;> rfl
  refine ⟨by rw [hroot]; rfl, I', ?_⟩
  funext k'
  rw [I'.apply_eq L, hm, hlook, put, put, I.apply_eq L]

theorem Inv.concat (L : H.Lawful) (I : Inv H m) (iter : List (K × V)) : Inv H (m.concat H iter) ∧
      (m.concat H iter).apply H = iter.foldl (fun f e => put H f e.1 e.2) (m.apply H) := by
  induction iter generalizing m with
  | nil => exact ⟨I, rfl⟩
  | cons e iter ih =>
    obtain ⟨-, I₁, h₁⟩ := I.update L e.1 e.2
    obtain ⟨I', h'⟩ := ih I₁
    exact ⟨I', h'.trans (by rw [h₁]; rfl)⟩

end

/-! ### Updates -/

/-- A map that is built by updates, and the finite map that the same updates build. -/
inductive Built (H : HashFunction K) : HashMap K V → (K → Option V) → Prop
  | empty : Built H {} fun _ => none
  | update {m : HashMap K V} {f : K → Option V} (b : Built H m f) (k : K) (v : V) :
      Built H (m.update H k v) (put H f k v)
  | add {m : HashMap K V} {f : K → Option V} (b : Built H m f) (k : K) (v : V) :
      Built H (m.add H k v) (put H f k v)
  | concat {m : HashMap K V} {f : K → Option V} (b : Built H m f) (iter : List (K × V)) :
      Built H (m.concat H iter) (iter.foldl (fun f e => put H f e.1 e.2) f)

/-- The finite map `f` has `n` keys. -/
def Counts (H : HashFunction K) (f : K → Option V) (n : Nat) : Prop :=
  ∃ l : List (K × V), Distinct H l ∧ l.length = n ∧ ∀ k, f k = lookup H l k

/-- What is read of a map agrees with the finite map `f`. -/
structure Agrees (H : HashFunction K) (m : HashMap K V) (f : K → Option V) : Prop where
  apply : ∀ k, m.apply H k = f k
  contains : ∀ k, m.contains H k = (f k).isSome
  getOrElse : ∀ k alt, m.getOrElse H k alt = (f k).getD alt
  size : Counts H f m.size

theorem Inv.agrees (L : H.Lawful) {m : HashMap K V} (I : Inv H m) : Agrees H m (m.apply H) :=
  ⟨fun _ => rfl, fun _ => rfl, fun _ _ => rfl,
    ⟨m.root.entries, I.distinct, I.size.symm, I.apply_eq L⟩⟩

theorem Built.inv (L : H.Lawful) {m : HashMap K V} {f : K → Option V} (b : Built H m f) :
    Inv H m ∧ m.apply H = f := by
  induction b with
  | empty =>
    refine ⟨inv_empty, ?_⟩
    funext k
    rw [inv_empty.apply_eq L, entries, entriesOf_nil]
    rfl
  | update _ k v ih | add _ k v ih =>
    obtain ⟨I, rfl⟩ := ih
    exact (I.update L k v).2
  | concat _ iter ih =>
    obtain ⟨I, rfl⟩ := ih
    exact I.concat L iter

/-- **A persistent map is a finite map**: after any sequence of updates what is read agrees with the
finite map that they build, the next update does not take the branch that should not occur, and the
trie is well formed. -/
theorem persistent_map_is_finite_map (L : H.Lawful) {m : HashMap K V} {f : K → Option V}
    (b : Built H m f) : Agrees H m f ∧ (∀ k v, (m.updateRoot H k v).isSome) ∧
      Trie H (collisionDepth - 1) 0 m.root := by
  obtain ⟨I, rfl⟩ := b.inv L
  exact ⟨I.agrees L, fun k v => (I.update L k v).1, I.trie⟩

/-- Two keys whose hashes agree in the first five bits. -/
theorem two_updates_agree :
    Agrees natHash ((({} : HashMap Nat Nat).update natHash 1 10).update natHash 33 330)
      (put natHash (put natHash (fun _ => none) 1 10) 33 330) :=
  (persistent_map_is_finite_map natHash_lawful ((Built.empty.update 1 10).update 33 330)).1

/-! ### Removals -/

/-- A map that is built by updates and removals. -/
inductive Reach (H : HashFunction K) : HashMap K V → Prop
  | empty : Reach H {}
  | update {m : HashMap K V} (r : Reach H m) (k : K) (v : V) : Reach H (m.update H k v)
  | add {m : HashMap K V} (r : Reach H m) (k : K) (v : V) : Reach H (m.add H k v)
  | concat {m : HashMap K V} (r : Reach H m) (iter : List (K × V)) : Reach H (m.concat H iter)
  | remove {m m' : HashMap K V} (r : Reach H m) (k : K) (e : m.remove H k = some m') : Reach H m'
  | sub {m : HashMap K V} (r : Reach H m) (k : K) : Reach H (m.sub H k)

/-- The entry that the hash of a key leads to. -/
def landing (H : HashFunction K) (m : HashMap K V) (k : K) : Option (K × V) :=
  m.root.landing levels 0 (hash32 H k)

/-- Removing the key `k` is exact: there is an error if and only if the map does not contain it, and
otherwise it is gone, the other keys are as they were, and the size is one less. -/
structure ExactRemoval (H : HashFunction K) (m : HashMap K V) (k : K) : Prop where
  error : m.remove H k = none ↔ m.contains H k = false
  others : ∀ m', m.remove H k = some m' → ∀ k', H.eq k k' = false → m'.apply H k' = m.apply H k'
  gone : ∀ m', m.remove H k = some m' → m'.contains H k = false
  size : ∀ m', m.remove H k = some m' → m'.size + 1 = m.size
  sub : m.contains H k = false → m.sub H k = m

section
variable {m m' : HashMap K V} {k : K}

/-- What `remove` does, from `remove_spec`. -/
theorem Inv.remove (L : H.Lawful) (I : Inv H m) (k : K) :
    (∃ e m', m.remove H k = some m' ∧ Inv H m' ∧ m.root.entries.Perm (e :: m'.root.entries) ∧
      (m.landing H k = some e ∨ (m.landing H k = none ∧ H.eq e.1 k = true))) ∨
    (m.remove H k = none ∧ m.landing H k = none ∧ ∀ e ∈ m.root.entries, H.eq e.1 k = false) := by
  obtain ⟨e, ns, hrun, htrie, hp, hland⟩ | ⟨hrun, hland, habs⟩ :=
    remove_spec (k := k) L I.trie (show collisionDepth - 1 < levels by decide)
  · refine .inl ⟨e, { root := ns, size := m.size - 1 }, by rw [HashMap.remove, hrun]; rfl,
      ⟨htrie, (List.pairwise_cons.1 (I.distinct.perm L hp)).2, ?_⟩, hp, hland⟩
    rw [I.size, hp.length_eq]
    rfl
  · exact .inr ⟨by rw [HashMap.remove, hrun]; rfl, hland, habs⟩

theorem Reach.inv (L : H.Lawful) (r : Reach H m) : Inv H m := by
  have hremove : ∀ {m m' : HashMap K V} {k : K}, Inv H m → m.remove H k = some m' → Inv H m' := by
    intro m m' k I e
    obtain ⟨_, m'', he, I', -⟩ | ⟨he, -⟩ := I.remove L k
    · rw [he] at e
      cases e
      exact I'
    · rw [he] at e
      cases e
  induction r with
  | empty => exact inv_empty
  | update _ k v ih | add _ k v ih => exact (ih.update L k v).2.1
  | concat _ iter ih => exact (ih.concat L iter).1
  | remove _ k e ih => exact hremove ih e
  | @sub m r k ih =>
    rw [HashMap.sub]
    cases e : m.remove H k with
    | none => exact ih
    | some m' => exact hremove ih e

/-- A removal of the entry of the key is exact. -/
theorem exactRemoval_of_perm (L : H.Lawful) (I : Inv H m) (I' : Inv H m')
    (e : m.remove H k = some m') {a : K × V} (hp : m.root.entries.Perm (a :: m'.root.entries))
    (ha : H.eq a.1 k = true) : ExactRemoval H m k := by
  have hlook := lookup_perm L I.distinct hp
  have hdel := lookup_remove L (I.distinct.perm L hp) ha
  have hin : m.contains H k = true := by
    rw [contains, I.apply_eq L, hlook, lookup_cons, if_pos ha]
    rfl
  refine ⟨?_, fun m'' e' k' hk' => ?_, fun m'' e' => ?_, fun m'' e' => ?_, fun hnot => ?_⟩
  · rw [e, hin]
    simp
  · rw [e] at e'
    cases e'
    rw [I'.apply_eq L, hdel, del, hk', I.apply_eq L, hlook]
    rfl
  · rw [e] at e'
    cases e'
    rw [contains, I'.apply_eq L, hdel, del, L.refl]
    rfl
  · rw [e] at e'
    cases e'
    rw [I.size, I'.size, hp.length_eq]
    rfl
  · rw [hin] at hnot
    cases hnot

/-- **Removing a key is exact if and only if its hash does not lead to an entry of another key.** -/
theorem remove_exact_iff (L : H.Lawful) (r : Reach H m) (k : K) :
    ExactRemoval H m k ↔ ∀ e, m.landing H k = some e → H.eq k e.1 = true := by
  have I := r.inv L
  constructor
  · intro X e he
    by_contra hk
    have hnot : m.contains H k = false := by
      rw [contains, HashMap.apply, apply_of_landing he, if_neg hk]
      rfl
    obtain ⟨_, m', hrun, -⟩ | ⟨-, hland, -⟩ := I.remove L k
    · rw [X.error.2 hnot] at hrun
      cases hrun
    · rw [hland] at he
      cases he
  intro hcond
  obtain ⟨e, m', hrun, I', hp, hland⟩ | ⟨hrun, -, habs⟩ := I.remove L k
  · refine exactRemoval_of_perm L I I' hrun hp ?_
    obtain hland | ⟨-, hk⟩ := hland
    · exact L.symm _ _ (hcond e hland)
    · exact hk
  have hnot : m.contains H k = false := by
    rw [contains, I.apply_eq L, lookup_eq_none habs]
    rfl
  have hsome : ∀ m', m.remove H k ≠ some m' := fun m' e => by
    rw [hrun] at e
    cases e
  refine ⟨by rw [hrun, hnot]; simp, fun m' e => absurd e (hsome m'),
    fun m' e => absurd e (hsome m'), fun m' e => absurd e (hsome m'), fun _ => ?_⟩
  rw [HashMap.sub, hrun]
  rfl

end

/-- A key that is there is removed from a map where another key has the same first five bits. -/
theorem remove_exact_present :
    ExactRemoval natHash (((({} : HashMap Nat Nat).update natHash 1 10).update natHash 33 20).update
      natHash 2 30) 33 :=
  (remove_exact_iff natHash_lawful (((Reach.empty.update 1 10).update 33 20).update 2 30) 33).2
    (by decide)

/-- Key 33 is removed from a map that has the key 1 only: their hashes agree in the first five bits.
There is no error, and key 1 is gone. -/
theorem remove_takes_other_key :
    ¬ ∀ (m : HashMap Nat Nat) (k : Nat), Reach natHash m → ExactRemoval natHash m k := by
  intro hall
  have X := hall _ 33 (Reach.empty.update 1 10)
  have hnot : (({} : HashMap Nat Nat).update natHash 1 10).contains natHash 33 = false := by
    decide
  have hsome : ((({} : HashMap Nat Nat).update natHash 1 10).remove natHash 33).isSome = true := by
    decide
  rw [X.error.2 hnot] at hsome
  cases hsome

end HashMap

end SpacePony.Persistent
