import SpacePony.Packages.Collections.HashMapRep

/-!
# Packages — collections — the hash map over whole runs

* `Op.exec_inv`: every operation keeps the invariant and does that to the map that is held.
* `Op.exec_some`: it has a result, however deep `_resize` may go, when its arrays fit into memory.
* `hashMap_is_finite_map`: over whole runs.  The value that `insert_if_absent` returns is excepted
  where it has to resize: it reads the slot of the old array from the new one
  (`insertIfAbsent_stale`).
-/

namespace SpacePony.Collections

open Option List Probing

variable {K V : Type}

namespace HashMap

section
variable {H : HashFunction K} {m m' : HashMap K V} {key : K} {value : V} {i depth : Nat}

/-- What a step does: the invariant is kept, the map held becomes `f`, at most `n` entries are
added, and the array grows no more than it must. -/
structure Steps (H : HashFunction K) (m m' : HashMap K V) (n : Nat) (f : K → Option V) : Prop where
  inv : Inv H m'
  holds : denote H m' = f
  size : m'.size ≤ m.size + n
  space : m'.array.length ≤ max m.array.length (3 * (m.size + n))

theorem Steps.refl (I : Inv H m) : Steps H m m 0 (denote H m) :=
  ⟨I, rfl, le_rfl, le_max_left _ _⟩

theorem Steps.trans {m'' : HashMap K V} {n n' : Nat} {f g : K → Option V}
    (h : Steps H m m' n f) (h' : Steps H m' m'' n' g) : Steps H m m'' (n + n') g := by
  have h1 := h.size
  have h2 := h.space
  have h3 := h'.size
  have h4 := h'.space
  exact ⟨h'.inv, h'.holds, by omega, by omega⟩

/-! ### Entries written, replaced and deleted -/

theorem grow_vacant (L : H.Lawful) (I : Inv H m) (hv : Vacant H m.array key i)
    (e : grow (resize H depth) (m.write i key value) = some m') :
    Steps H m m' 1 (put H (denote H m) key value) := by
  have G := grow_inv L (hv.pending L I value) e
  have hp : (elems m'.array).Perm ((key, value) :: elems m.array) :=
    G.moved.2.trans (hv.elems_perm value)
  refine ⟨G.moved.1, ?_, ?_, ?_⟩
  · rw [denote, lookup_perm L G.moved.1.distinct hp]
    funext k
    rw [lookup_cons]
    rfl
  · rw [G.moved.1.size, hp.length_eq, length_cons, I.size]
  · have h := G.space
    rwa [write, length_set] at h

theorem denote_found (L : H.Lawful) (I : Inv H m) {a : K × V} (h : m.array[i]? = some (.full a))
    (hk : H.eq a.1 key = true) : denote H m key = some a.2 :=
  (lookup_eq_some L I.distinct).2 ⟨a, mem_elems.2 ⟨i, h⟩, hk, rfl⟩

theorem denote_vacant (hv : Vacant H m.array key i) : denote H m key = none :=
  lookup_eq_none hv.absent

section
variable (L : H.Lawful)
include L

theorem write_found (I : Inv H m) {a b : K × V} (h : m.array[i]? = some (.full a))
    (ha : H.eq a.1 key = true) (hb : H.eq b.1 key = true) :
    Steps H m (m.write i b.1 b.2) 0 (put H (denote H m) key b.2) := by
  have hlt : i < m.array.length := (List.getElem?_eq_some_iff.1 h).1
  have hp := Probing.elems_perm h
  have hp' := elems_set_perm (.full b) hlt
  have S := I.sound.replace L h (L.trans _ _ _ hb (L.symm _ _ ha))
  refine ⟨⟨S, ?_, ?_⟩, ?_, le_rfl, ?_⟩
  · rw [write, I.size, hp.length_eq, hp'.length_eq]
    rfl
  · rw [write, length_set]
    exact I.load
  · rw [denote, write, lookup_perm L S.keys hp', denote, lookup_perm L I.distinct hp]
    exact lookup_replace L ha hb
  · rw [write, length_set]
    exact le_max_left _ _

theorem delete_found (I : Inv H m) {a : K × V} (h : m.array[i]? = some (.full a))
    (ha : H.eq a.1 key = true) : Steps H m { size := m.size - 1, array := m.array.set i .deleted } 0
      (del H (denote H m) key) := by
  have hlt : i < m.array.length := (List.getElem?_eq_some_iff.1 h).1
  have hp := Probing.elems_perm h
  have hp' := elems_set_perm .deleted hlt
  have S := I.sound.delete L h
  have hsize : m.size = (elems (m.array.eraseIdx i)).length + 1 := I.size.trans hp.length_eq
  refine ⟨⟨S, ?_, ?_⟩, ?_, Nat.sub_le _ _, ?_⟩
  · rw [hp'.length_eq, hsize]
    rfl
  · have := I.load
    dsimp only
    rw [length_set]
    omega
  · rw [denote, lookup_perm L S.keys hp', denote, lookup_perm L I.distinct hp]
    exact lookup_remove L (Distinct.perm L I.distinct hp) ha
  · rw [length_set]
    exact le_max_left _ _

/-! ### The methods -/

/-- Setting a key to the value that it has changes nothing. -/
theorem put_self (I : Inv H m) (h : denote H m key = some value) :
    put H (denote H m) key value = denote H m := by
  obtain ⟨a, ha, hk, hv⟩ := (lookup_eq_some L I.distinct).1 h
  funext k
  rw [put]
  split_ifs with hkk
  · exact ((lookup_eq_some L I.distinct).2 ⟨a, ha, L.trans _ _ _ hk hkk, hv⟩).symm
  · rfl

theorem del_self (h : ∀ e ∈ elems m.array, H.eq e.1 key = false) :
    del H (denote H m) key = denote H m := by
  funext k
  rw [del]
  split_ifs with hk
  · refine (lookup_eq_none fun e he => ?_).symm
    rw [Bool.eq_false_iff]
    intro hek
    have := h e he
    rw [L.trans _ _ _ hek (L.symm _ _ hk)] at this
    cases this
  · rfl

section
variable (I : Inv H m)
include I

theorem update_inv {old : Option V} (e : m.update H depth key value = some (old, m')) :
    old = denote H m key ∧ Steps H m m' 1 (put H (denote H m) key value) := by
  rw [update, updateWith] at e
  obtain ⟨-, a, ha, hk⟩ | ⟨-, hv⟩ := I.search L key
  · dsimp only at e
    rw [ha] at e
    cases e
    have W := write_found (b := (key, value)) L I ha hk (L.refl key)
    exact ⟨(denote_found L I ha hk).symm, W.inv, W.holds, W.size.trans (by omega),
      W.space.trans (by omega)⟩
  rw [denote_vacant hv]
  have hgrow : (grow (resize H depth) (m.write (search H m key).1 key value)).map
      (fun m => (none, m)) = some (old, m') := by
    obtain h | h := hv.free <;> simpa only [h] using e
  obtain ⟨m₁, hm₁, ⟨⟩⟩ := map_eq_some_iff.1 hgrow
  exact ⟨rfl, grow_vacant L I hv hm₁⟩

theorem upsert_inv {f : V → V → V} {v : V} (e : m.upsert H depth key value f = some (v, m')) :
    v = ((denote H m key).map fun w => f w value).getD value ∧
      Steps H m m' 1 (put H (denote H m) key v) := by
  rw [upsert] at e
  obtain ⟨hf, a, ha, hk⟩ | ⟨hf, hv⟩ := I.search L key
  · dsimp only at e
    rw [ha, hf] at e
    cases e
    have W := write_found (b := (a.1, f a.2 value)) L I ha hk hk
    rw [denote_found L I ha hk]
    exact ⟨rfl, W.inv, W.holds, W.size.trans (by omega), W.space.trans (by omega)⟩
  rw [denote_vacant hv]
  have hgrow : (grow (resize H depth) (m.write (search H m key).1 key value)).map
      (fun m => (value, m)) = some (v, m') := by
    obtain h | h := hv.free <;> simpa only [h, hf] using e
  obtain ⟨m₁, hm₁, ⟨⟩⟩ := map_eq_some_iff.1 hgrow
  exact ⟨rfl, grow_vacant L I hv hm₁⟩

theorem insert_inv {v : V} (e : m.insert H depth key value = some (v, m')) :
    v = value ∧ Steps H m m' 1 (put H (denote H m) key value) := by
  rw [insert] at e
  obtain ⟨hf, a, ha, hk⟩ | ⟨hf, hv⟩ := I.search L key
  · dsimp only at e
    rw [ha, hf] at e
    cases e
    have W := write_found (b := (key, value)) L I ha hk (L.refl key)
    exact ⟨rfl, W.inv, W.holds, W.size.trans (by omega), W.space.trans (by omega)⟩
  have hgrow : (grow (resize H depth) (m.write (search H m key).1 key value)).map
      (fun m => (value, m)) = some (v, m') := by
    obtain h | h := hv.free <;>
      simpa only [h, hf, Bool.false_eq_true, if_false] using e
  obtain ⟨m₁, hm₁, ⟨⟩⟩ := map_eq_some_iff.1 hgrow
  exact ⟨rfl, grow_vacant L I hv hm₁⟩

/-- The value that `insert_if_absent` returns is right unless the map was resized. -/
theorem insertIfAbsent_inv {v : V} (e : m.insertIfAbsent H depth key value = some (v, m')) :
    ((denote H m key = none → (m.size + 1) * 4 ≤ m.array.length * 3) →
      v = (denote H m key).getD value) ∧
    Steps H m m' 1 (put H (denote H m) key ((denote H m key).getD value)) := by
  rw [insertIfAbsent] at e
  obtain ⟨hf, a, ha, hk⟩ | ⟨hf, hv⟩ := I.search L key
  · have hd := denote_found L I ha hk
    dsimp only at e
    rw [ha, hf] at e
    cases e
    rw [hd, getD_some, put_self L I hd, index, ha]
    exact ⟨fun _ => rfl, I, rfl, by omega, le_max_left _ _⟩
  rw [denote_vacant hv, getD_none]
  have hgrow : (grow (resize H depth) (m.write (search H m key).1 key value)).map
      (fun m₁ => (((m₁.index (search H m key).1).map Prod.snd).getD value, m₁)) =
      some (v, m') := by
    obtain h | h := hv.free <;> simpa only [h, hf] using e
  obtain ⟨m₁, hm₁, ⟨⟩⟩ := map_eq_some_iff.1 hgrow
  refine ⟨fun hstay => ?_, grow_vacant L I hv hm₁⟩
  rw [grow_stay _ (by rw [write, length_set]; exact hstay rfl)] at hm₁
  cases hm₁
  simp [index, write, hv.lt, Cell.elem?]

theorem remove_inv (key : K) :
    (∀ a, (m.remove H key).1 = some a → H.eq a.1 key = true ∧ denote H m key = some a.2) ∧
    ((m.remove H key).1 = none → denote H m key = none) ∧
    Steps H m (m.remove H key).2 0 (del H (denote H m) key) := by
  rw [remove]
  obtain ⟨hf, a, ha, hk⟩ | ⟨hf, hv⟩ := I.search L key
  · have hidx : (index { size := m.size - 1, array := m.array } (search H m key).1) = some a := by
      rw [index, ha]
      rfl
    dsimp only
    rw [if_pos hf, hidx]
    refine ⟨fun b hb => ?_, fun h => (by cases h), delete_found L I ha hk⟩
    cases hb
    exact ⟨hk, denote_found L I ha hk⟩
  · dsimp only
    rw [if_neg (by rw [hf]; simp), del_self L hv.absent]
    exact ⟨fun a h => (by cases h), fun _ => denote_vacant hv, Steps.refl I⟩

/-- The loop of `concat` and `clone`. -/
theorem foldlM_update {l : List (K × V)}
    (e : l.foldlM (fun m e => (m.update H depth e.1 e.2).map Prod.snd) m = some m') :
    Steps H m m' l.length (l.foldl (fun f e => put H f e.1 e.2) (denote H m)) := by
  induction l generalizing m with
  | nil =>
    cases e
    exact Steps.refl I
  | cons a l ih =>
    rw [foldlM_cons, bind_eq_bind, bind_eq_some_iff] at e
    obtain ⟨m₁, hm₁, e⟩ := e
    obtain ⟨⟨old, m₂⟩, hu, rfl⟩ := map_eq_some_iff.1 hm₁
    obtain ⟨-, T⟩ := update_inv L I hu
    have := T.trans (ih T.inv e)
    rw [T.holds, Nat.add_comm] at this
    exact this

theorem compact_inv (e : m.compact H depth = some m') : Inv H m' ∧ denote H m' = denote H m := by
  obtain ⟨k, hk, hn, hload⟩ := compact_pow I.size_le
  rw [compact, hn] at e
  obtain ⟨⟨I', hp⟩, -⟩ := resize_inv L I.distinct ⟨k, hk, rfl⟩ (by rwa [← I.size]) e
  exact ⟨I', (lookup_perm L I'.distinct hp).trans rfl⟩

theorem clone_inv (e : m.clone H depth = some m') :
    Inv H m' ∧ denote H m' = denote H m ∧ m'.size ≤ m.size ∧
      m'.array.length ≤ max (nextPow2 (max (m.size * 4 % usize / 3) 8)) (3 * m.size) := by
  rw [clone, bind_eq_bind, bind_eq_some_iff] at e
  obtain ⟨r, hr, e⟩ := e
  obtain ⟨I₀, h₀, hs₀, hl₀⟩ := create_inv (H := H) hr
  rw [pairs_eq I] at e
  have T := foldlM_update L I₀ e
  have hsize := T.size
  have hspace := T.space
  rw [hs₀, Nat.zero_add, ← I.size] at hsize hspace
  refine ⟨T.inv, ?_, hsize, hl₀ ▸ hspace⟩
  rw [T.holds, h₀, foldl_put L I.distinct]
  funext k
  rw [or_none]
  rfl

end

end

theorem clear_inv (e : clear = some m) : Inv H m ∧ denote H m = fun _ => none := by
  rw [clear, init, if_pos (by decide)] at e
  cases e
  exact ⟨Inv.empty ⟨3, by omega, by omega, rfl⟩, denote_empty 8⟩

end

/-! ### Operations -/

/-- What an operation does to a finite map. -/
def Op.effect (H : HashFunction K) (f : K → Option V) : Op K V → K → Option V
  | .create _ | .clear => fun _ => none
  | .update key value | .insert key value | .add key value => put H f key value
  | .upsert key value g => put H f key (((f key).map fun w => g w value).getD value)
  | .insertIfAbsent key value => put H f key ((f key).getD value)
  | .remove key | .sub key => del H f key
  | .concat iter => iter.foldl (fun f e => put H f e.1 e.2) f
  | .compact | .clone => f

/-- What an operation on a finite map should return: the old value for `update`, the value that the
key has now for `insert`, `insert_if_absent` and `upsert`, and the entry, or an error when there is
none, for `remove`. -/
def Returns (H : HashFunction K) (f : K → Option V) : Op K V → Ret K V → Prop
  | .update key _, .old v => v = f key
  | .insert _ value, .value v => v = value
  | .insertIfAbsent key value, .value v => v = (f key).getD value
  | .upsert key value g, .value v => v = ((f key).map fun w => g w value).getD value
  | .remove key, .entry none => f key = none
  | .remove key, .entry (some e) => H.eq e.1 key = true ∧ f key = some e.2
  | .create _, .none | .concat _, .none | .compact, .none | .clone, .none | .add _ _, .none
  | .sub _, .none | .clear, .none => True
  | _, _ => False

/-- The operation is not an `insert_if_absent` that has to resize. -/
def NoStaleSlot (H : HashFunction K) (m : HashMap K V) (op : Op K V) : Prop :=
  ∀ key value, op = .insertIfAbsent key value → m.contains H key = false →
    (m.size + 1) * 4 ≤ m.array.length * 3

section
variable {H : HashFunction K} {m m' : HashMap K V}

section
variable (L : H.Lawful) (I : Inv H m)
include L I

theorem contains_eq (k : K) : m.contains H k = (denote H m k).isSome := by
  obtain ⟨hf, a, ha, hk⟩ | ⟨hf, hv⟩ := I.search L k
  · rw [contains, hf, denote_found L I ha hk]
    rfl
  · rw [contains, hf, denote_vacant hv]
    rfl

/-- **Step.**  An operation keeps the invariant, does what it should to the map that is held, and
returns what it should. -/
theorem Op.exec_inv {op : Op K V} {depth : Nat} {r : Ret K V}
    (e : op.exec H depth m = some (r, m')) : Inv H m' ∧ denote H m' = op.effect H (denote H m) ∧
      (NoStaleSlot H m op → Returns H (denote H m) op r) := by
  cases op with
  | create prealloc =>
    rw [exec, map_eq_some_iff] at e
    obtain ⟨m₁, h, ⟨⟩⟩ := e
    obtain ⟨I', hd, -⟩ := create_inv (H := H) h
    exact ⟨I', hd, fun _ => trivial⟩
  | update key value =>
    rw [exec, map_eq_some_iff] at e
    obtain ⟨⟨old, m₁⟩, h, ⟨⟩⟩ := e
    obtain ⟨hold, T⟩ := update_inv L I h
    exact ⟨T.inv, T.holds, fun _ => hold⟩
  | upsert key value f =>
    rw [exec, map_eq_some_iff] at e
    obtain ⟨⟨v, m₁⟩, h, ⟨⟩⟩ := e
    obtain ⟨hv, T⟩ := upsert_inv L I h
    exact ⟨T.inv, hv ▸ T.holds, fun _ => hv⟩
  | insert key value =>
    rw [exec, map_eq_some_iff] at e
    obtain ⟨⟨v, m₁⟩, h, ⟨⟩⟩ := e
    obtain ⟨hv, T⟩ := insert_inv L I h
    exact ⟨T.inv, T.holds, fun _ => hv⟩
  | insertIfAbsent key value =>
    rw [exec, map_eq_some_iff] at e
    obtain ⟨⟨v, m₁⟩, h, ⟨⟩⟩ := e
    obtain ⟨hv, T⟩ := insertIfAbsent_inv L I h
    refine ⟨T.inv, T.holds, fun hns => hv fun hnone => hns key value rfl ?_⟩
    rw [contains_eq L I, hnone]
    rfl
  | remove key =>
    cases e
    obtain ⟨hsome, hnone, T⟩ := remove_inv L I key
    refine ⟨T.inv, T.holds, fun _ => ?_⟩
    cases hr : (m.remove H key).1 with
    | none => exact hnone hr
    | some a => exact hsome a hr
  | concat iter =>
    rw [exec, map_eq_some_iff] at e
    obtain ⟨m₁, h, ⟨⟩⟩ := e
    have T := foldlM_update L I h
    exact ⟨T.inv, T.holds, fun _ => trivial⟩
  | compact =>
    rw [exec, map_eq_some_iff] at e
    obtain ⟨m₁, h, ⟨⟩⟩ := e
    obtain ⟨I', hd⟩ := compact_inv L I h
    exact ⟨I', hd, fun _ => trivial⟩
  | clone =>
    rw [exec, map_eq_some_iff] at e
    obtain ⟨m₁, h, ⟨⟩⟩ := e
    obtain ⟨I', hd, -⟩ := clone_inv L I h
    exact ⟨I', hd, fun _ => trivial⟩
  | add key value =>
    rw [exec, map_eq_some_iff] at e
    obtain ⟨m₁, h, ⟨⟩⟩ := e
    rw [HashMap.add, bind_eq_bind, bind_eq_some_iff] at h
    obtain ⟨c, hc, h⟩ := h
    obtain ⟨⟨old, m₂⟩, hu, rfl⟩ := map_eq_some_iff.1 h
    obtain ⟨I', hd, -⟩ := clone_inv L I hc
    obtain ⟨-, T⟩ := update_inv L I' hu
    exact ⟨T.inv, hd ▸ T.holds, fun _ => trivial⟩
  | sub key =>
    rw [exec, map_eq_some_iff] at e
    obtain ⟨m₁, h, ⟨⟩⟩ := e
    obtain ⟨c, hc, rfl⟩ := map_eq_some_iff.1 h
    obtain ⟨I', hd, -⟩ := clone_inv L I hc
    obtain ⟨-, -, T⟩ := remove_inv L I' key
    exact ⟨T.inv, hd ▸ T.holds, fun _ => trivial⟩
  | clear =>
    rw [exec, map_eq_some_iff] at e
    obtain ⟨m₁, h, ⟨⟩⟩ := e
    obtain ⟨I', hd⟩ := clear_inv (H := H) h
    exact ⟨I', hd, fun _ => trivial⟩

/-! ### Results that do not depend on depth -/

section
variable (hmem : 8 * max m.array.length (3 * (m.size + 1)) < usize)
include hmem

theorem update_some (key : K) (value : V) :
    ∃ r, ∀ depth, m.update H (depth + 1) key value = some r := by
  obtain ⟨-, a, ha, -⟩ | ⟨-, hv⟩ := I.search L key
  · refine ⟨(some a.2, m.write (HashMap.search H m key).1 key value), fun depth => ?_⟩
    rw [update, updateWith]
    dsimp only
    rw [ha]
  obtain ⟨m', e⟩ := grow_some L (hv.pending L I value) (by rwa [write, length_set])
  refine ⟨(none, m'), fun depth => ?_⟩
  rw [update, updateWith]
  obtain h | h := hv.free <;> simp only [h, e, map_some]

theorem upsert_some (key : K) (value : V) (f : V → V → V) :
    ∃ r, ∀ depth, m.upsert H (depth + 1) key value f = some r := by
  obtain ⟨hf, a, ha, -⟩ | ⟨hf, hv⟩ := I.search L key
  · refine ⟨(f a.2 value, m.write (HashMap.search H m key).1 a.1 (f a.2 value)), fun depth => ?_⟩
    rw [upsert]
    simp only [ha, hf]
  obtain ⟨m', e⟩ := grow_some L (hv.pending L I value) (by rwa [write, length_set])
  refine ⟨(value, m'), fun depth => ?_⟩
  rw [upsert]
  obtain h | h := hv.free <;> simp only [h, hf, e, map_some]

theorem insert_some (key : K) (value : V) :
    ∃ r, ∀ depth, m.insert H (depth + 1) key value = some r := by
  obtain ⟨hf, a, ha, -⟩ | ⟨hf, hv⟩ := I.search L key
  · refine ⟨(value, m.write (HashMap.search H m key).1 key value), fun depth => ?_⟩
    rw [insert]
    simp only [ha, hf, if_true]
  obtain ⟨m', e⟩ := grow_some L (hv.pending L I value) (by rwa [write, length_set])
  refine ⟨(value, m'), fun depth => ?_⟩
  rw [insert]
  obtain h | h := hv.free <;>
    simp only [h, hf, e, map_some, Bool.false_eq_true, if_false]

theorem insertIfAbsent_some (key : K) (value : V) :
    ∃ r, ∀ depth, m.insertIfAbsent H (depth + 1) key value = some r := by
  obtain ⟨hf, a, ha, -⟩ | ⟨hf, hv⟩ := I.search L key
  · refine ⟨(((m.index (HashMap.search H m key).1).map Prod.snd).getD value, m), fun depth => ?_⟩
    rw [insertIfAbsent]
    simp only [ha, hf]
  obtain ⟨m', e⟩ := grow_some L (hv.pending L I value) (by rwa [write, length_set])
  refine ⟨(((m'.index (HashMap.search H m key).1).map Prod.snd).getD value, m'), fun depth => ?_⟩
  rw [insertIfAbsent]
  obtain h | h := hv.free <;> simp only [h, hf, e, map_some]

end

theorem foldlM_some (l : List (K × V))
    (hmem : 8 * max m.array.length (3 * (m.size + l.length)) < usize) : ∃ m', ∀ depth,
      l.foldlM (fun m e => (m.update H (depth + 1) e.1 e.2).map Prod.snd) m = some m' := by
  induction l generalizing m with
  | nil => exact ⟨m, fun _ => rfl⟩
  | cons a l ih =>
    rw [length_cons] at hmem
    obtain ⟨⟨old, m₁⟩, e₁⟩ := update_some L I (by omega) a.1 a.2
    obtain ⟨-, T⟩ := update_inv L I (e₁ 0)
    have h1 := T.size
    have h2 := T.space
    obtain ⟨m', e'⟩ := ih T.inv (by omega)
    refine ⟨m', fun depth => ?_⟩
    rw [foldlM_cons, e₁]
    exact e' depth

end

theorem create_some (prealloc : Nat)
    (hmem : 8 * nextPow2 (max (prealloc * 4 % usize / 3) 8) < usize) :
    ∃ m : HashMap K V, create prealloc = some m := by
  rw [create, init, if_pos hmem]
  exact ⟨_, rfl⟩

theorem clone_some (L : H.Lawful) (I : Inv H m)
    (hmem : 8 * max (nextPow2 (max (m.size * 4 % usize / 3) 8)) (3 * m.size) < usize) :
    ∃ m', ∀ depth, m.clone H (depth + 1) = some m' := by
  obtain ⟨r, hr⟩ := create_some (K := K) (V := V) m.size (by omega)
  obtain ⟨I₀, -, hs₀, hl₀⟩ := create_inv (H := H) hr
  obtain ⟨m', e⟩ := foldlM_some L I₀ (elems m.array)
    (by rwa [hl₀, hs₀, Nat.zero_add, ← I.size])
  refine ⟨m', fun depth => ?_⟩
  rw [clone, hr, pairs_eq I]
  exact e depth

/-- The slots of the largest array that an operation may need. -/
def Op.space (m : HashMap K V) : Op K V → Nat
  | .create prealloc => nextPow2 (max (prealloc * 4 % usize / 3) 8)
  | .update _ _ | .upsert _ _ _ | .insert _ _ | .insertIfAbsent _ _ =>
    max m.array.length (3 * (m.size + 1))
  | .concat iter => max m.array.length (3 * (m.size + iter.length))
  | .compact => max (nextPow2 (m.size * 4 / 3)) 8
  | .clone | .sub _ => max (nextPow2 (max (m.size * 4 % usize / 3) 8)) (3 * m.size)
  | .add _ _ => max (nextPow2 (max (m.size * 4 % usize / 3) 8)) (3 * (m.size + 1))
  | .remove _ | .clear => 8

/-- Every operation has a result, which does not depend on how deep `_resize` may go, when the
arrays that it may need fit into memory. -/
theorem Op.exec_some (L : H.Lawful) (I : Inv H m) (op : Op K V) (hmem : 8 * op.space m < usize) :
    ∃ r m', ∀ depth, op.exec H (depth + 1) m = some (r, m') := by
  cases op with
  | create prealloc =>
    obtain ⟨m', e⟩ := create_some (K := K) (V := V) _ hmem
    exact ⟨.none, m', fun _ => by rw [exec, e]; rfl⟩
  | update key value =>
    obtain ⟨⟨old, m'⟩, e⟩ := update_some L I hmem key value
    exact ⟨.old old, m', fun _ => by rw [exec, e]; rfl⟩
  | upsert key value f =>
    obtain ⟨⟨v, m'⟩, e⟩ := upsert_some L I hmem key value f
    exact ⟨.value v, m', fun _ => by rw [exec, e]; rfl⟩
  | insert key value =>
    obtain ⟨⟨v, m'⟩, e⟩ := insert_some L I hmem key value
    exact ⟨.value v, m', fun _ => by rw [exec, e]; rfl⟩
  | insertIfAbsent key value =>
    obtain ⟨⟨v, m'⟩, e⟩ := insertIfAbsent_some L I hmem key value
    exact ⟨.value v, m', fun _ => by rw [exec, e]; rfl⟩
  | remove key => exact ⟨_, _, fun _ => rfl⟩
  | concat iter =>
    obtain ⟨m', e⟩ := foldlM_some L I iter hmem
    exact ⟨.none, m', fun _ => by rw [exec, HashMap.concat, e]; rfl⟩
  | compact =>
    obtain ⟨k, hk, hn, hload⟩ := compact_pow I.size_le
    rw [space, hn] at hmem
    obtain ⟨m', e, -⟩ := resize_spec L I.distinct ⟨k, hk, rfl⟩ (by rwa [← I.size]) hmem
    exact ⟨.none, m', fun _ => by rw [exec, HashMap.compact, hn, e]; rfl⟩
  | clone =>
    obtain ⟨m', e⟩ := clone_some L I hmem
    exact ⟨.none, m', fun _ => by rw [exec, e]; rfl⟩
  | add key value =>
    rw [space] at hmem
    obtain ⟨c, e⟩ := clone_some L I (by omega)
    obtain ⟨I', -, hs, hl⟩ := clone_inv L I (e 0)
    obtain ⟨⟨old, m'⟩, e'⟩ := update_some L I' (by omega) key value
    refine ⟨.none, m', fun depth => ?_⟩
    rw [exec, HashMap.add, e, bind_eq_bind, bind_some, e']
    rfl
  | sub key =>
    obtain ⟨c, e⟩ := clone_some L I hmem
    exact ⟨.none, _, fun _ => by rw [exec, HashMap.sub, e]; rfl⟩
  | clear =>
    refine ⟨.none, { size := 0, array := replicate 8 .empty }, fun _ => ?_⟩
    rw [exec, HashMap.clear, init, if_pos (by decide)]
    rfl

/-! ### Runs -/

/-- What the methods that read see of the finite map `f`: the slot of a key is inside the array,
and there is one entry for each key that has a value. -/
structure Agrees (H : HashFunction K) (m : HashMap K V) (f : K → Option V) : Prop where
  apply : ∀ k, m.apply H k = f k
  contains : ∀ k, m.contains H k = (f k).isSome
  getOrElse : ∀ k alt, m.getOrElse H k alt = (f k).getD alt
  slot : ∀ k, (search H m k).1 < m.array.length
  distinct : Distinct H m.pairs
  pairs : ∀ k v, f k = some v ↔ ∃ e ∈ m.pairs, H.eq e.1 k = true ∧ e.2 = v
  size : m.size = m.pairs.length

theorem Inv.agrees (L : H.Lawful) (I : Inv H m) : Agrees H m (denote H m) := by
  refine ⟨fun k => ?_, contains_eq L I, fun k alt => ?_, fun k => ?_, ?_, fun k v => ?_, ?_⟩
  · obtain ⟨hf, a, ha, hk⟩ | ⟨hf, hv⟩ := I.search L k
    · rw [HashMap.apply, denote_found L I ha hk]
      simp [hf, index, ha, Cell.elem?]
    · rw [HashMap.apply, denote_vacant hv]
      simp [hf]
  · obtain ⟨hf, a, ha, hk⟩ | ⟨hf, hv⟩ := I.search L k
    · rw [HashMap.getOrElse, denote_found L I ha hk]
      simp [hf, index, ha, Cell.elem?]
    · rw [HashMap.getOrElse, denote_vacant hv]
      simp [hf]
  · obtain ⟨-, a, ha, -⟩ | ⟨-, hv⟩ := I.search L k
    · exact (List.getElem?_eq_some_iff.1 ha).1
    · exact hv.lt
  · rw [pairs_eq I]
    exact I.distinct
  · rw [pairs_eq I]
    exact lookup_eq_some L I.distinct
  · rw [pairs_eq I, I.size]

/-- A map and the finite map that the same sequence of operations builds. -/
inductive Run (H : HashFunction K) : HashMap K V → (K → Option V) → Prop
  | create {prealloc : Nat} {m : HashMap K V} (e : create prealloc = some m) :
      Run H m fun _ => none
  | step {m m' : HashMap K V} {f : K → Option V} {op : Op K V} {depth : Nat} {r : Ret K V}
      (run : Run H m f) (e : op.exec H depth m = some (r, m')) : Run H m' (op.effect H f)

theorem Run.inv {f : K → Option V} (L : H.Lawful) (run : Run H m f) : Inv H m ∧ denote H m = f := by
  induction run with
  | create e =>
    obtain ⟨I, hd, -⟩ := create_inv (H := H) e
    exact ⟨I, hd⟩
  | step _ e ih =>
    obtain ⟨I, rfl⟩ := ih
    obtain ⟨I', hd, -⟩ := Op.exec_inv L I e
    exact ⟨I', hd⟩

/-- **A hash map is a finite map**, over every run: what is read agrees with the finite map that the
same operations build, every operation that fits into memory has a result, and it returns what it
should, an `insert_if_absent` that has to resize apart. -/
theorem hashMap_is_finite_map {f : K → Option V} (L : H.Lawful) (run : Run H m f) : Agrees H m f ∧
    (∀ op : Op K V, 8 * op.space m < usize →
      ∃ r m', ∀ depth, op.exec H (depth + 1) m = some (r, m')) ∧
    ∀ (op : Op K V) (depth : Nat) (r : Ret K V) (m' : HashMap K V),
      op.exec H depth m = some (r, m') → NoStaleSlot H m op → Returns H f op r := by
  obtain ⟨I, rfl⟩ := run.inv L
  exact ⟨I.agrees L, Op.exec_some L I, fun op depth r m' e => (Op.exec_inv L I e).2.2⟩

end

/-! ### Where a slot is read too late -/

section

/-- The operations one after the other, and the map they leave. -/
def execAll (H : HashFunction K) (depth : Nat) : List (Op K V) → HashMap K V → Option (HashMap K V)
  | [], m => some m
  | op :: ops, m => (op.exec H depth m).bind fun r => execAll H depth ops r.2

/-- A run extended by calls stands for what the calls do to a finite map. -/
theorem Run.execAll {H : HashFunction K} {m m' : HashMap K V} {f : K → Option V} {depth : Nat}
    (ops : List (Op K V)) (run : Run H m f) (e : execAll H depth ops m = some m') :
    Run H m' (ops.foldl (fun f op => op.effect H f) f) := by
  induction ops generalizing m f with
  | nil =>
    cases e
    exact run
  | cons op ops ih =>
    rw [HashMap.execAll, bind_eq_some_iff] at e
    obtain ⟨⟨r, m₁⟩, h, e⟩ := e
    exact ih (.step run h) e

/-- Key 17 is put past key 9, which is removed; then the map has six entries in eight slots. -/
def sixEntries : List (Op Nat Nat) :=
  [.update 9 90, .update 17 170, .remove 9, .update 3 30, .update 4 40, .update 5 50, .update 6 60,
    .update 7 70]

/-- Six entries are held and found. -/
theorem sixEntries_agree : ∃ (m : HashMap Nat Nat) (f : Nat → Option Nat),
    Run natHash m f ∧ f 17 = some 170 ∧ Agrees natHash m f := by
  have h : ((create 6).bind (execAll natHash 1 sixEntries)).isSome := by decide +kernel
  obtain ⟨m, e⟩ := isSome_iff_exists.1 h
  obtain ⟨m₀, e₀, e⟩ := bind_eq_some_iff.1 e
  have run := (Run.create (H := natHash) e₀).execAll sixEntries e
  exact ⟨m, _, run, by decide +kernel, (hashMap_is_finite_map natHash_lawful run).1⟩

/-- Key 9 is inserted with the value 99 into the six entries: the map is resized, and the value 170
of key 17, which is now in the slot that key 9 had, is returned. -/
theorem insertIfAbsent_stale : ¬ ∀ (m : HashMap Nat Nat) (f : Nat → Option Nat), Run natHash m f →
      ∀ (op : Op Nat Nat) (depth : Nat) (r : Ret Nat Nat) (m' : HashMap Nat Nat),
        op.exec natHash depth m = some (r, m') → Returns natHash f op r := by
  intro hall
  have h : (((create 6).bind (execAll natHash 1 sixEntries)).bind fun m =>
      (m.insertIfAbsent natHash 1 9 99).map Prod.fst) = some 170 := by decide +kernel
  obtain ⟨m, e, h⟩ := bind_eq_some_iff.1 h
  obtain ⟨m₀, e₀, e⟩ := bind_eq_some_iff.1 e
  obtain ⟨⟨v, m'⟩, hi, rfl⟩ := map_eq_some_iff.1 h
  have run := (Run.create (H := natHash) e₀).execAll sixEntries e
  have hret := hall m _ run (.insertIfAbsent 9 99) 1 (.value 170) m' (by rw [Op.exec, hi]; rfl)
  revert hret
  rw [Returns]
  decide +kernel

end

end HashMap

end SpacePony.Collections
