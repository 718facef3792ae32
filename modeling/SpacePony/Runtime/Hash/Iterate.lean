import SpacePony.Runtime.Hash.Map

/-!
# Runtime — iterating over the hash map

The loops of the runtime over a map: `while((elem = ponyint_hashmap_next(&i, ..)) != NULL)`, with
a body that leaves the map alone, clears the bucket, or removes the item and scans the same bucket
again, as `deferred` and `final` of the cycle detector do.

* `forEach_ascending`: a body that looks at nothing further on sees every entry once.
* `forEach_removing`: a removal moves entries back, never to a bucket that has been passed.
* **`iteration_visits_each_once`**: the three loops.
-/

namespace SpacePony.Hash
open Nat Option List RobinHood

variable {α : Type} {hash : α → Nat} {cmp : α → α → Bool} {m m' : Hashmap α}

/-! ### The loops -/

/-- The loop over a map, with the buckets and items that `next` returns.  The body may change the
map, and says at which bucket the scan goes on. -/
def forEach (body : Hashmap α → Nat → Option (Hashmap α × Nat)) :
    Nat → Nat → Hashmap α → Option (Hashmap α × List (Nat × α))
  | 0, _, _ => none
  | rounds + 1, start, m =>
    match next m start with
    | none => some (m, [])
    | some i =>
      match (m.bucket i).ptr with
      | none => none
      | some elem => do
        let (m, start) ← body m i
        let (m, rest) ← forEach body rounds start m
        pure (m, (i, elem) :: rest)

def leave (m : Hashmap α) (i : Nat) : Option (Hashmap α × Nat) := some (m, i + 1)

def clear (m : Hashmap α) (i : Nat) : Option (Hashmap α × Nat) := some (clearindex m i, i + 1)

/-- `removeindex(map, i); i--`: always scan again from the same index, because the map shifts
items back. -/
def removeBack (m : Hashmap α) (i : Nat) : Option (Hashmap α × Nat) := (removeindex m i).map (·, i)

/-- The entries from bucket `start` on, with their buckets. -/
def Hashmap.positionsFrom (m : Hashmap α) (start : Nat) : List (Nat × α) :=
  (range' start (m.size - start)).filterMap fun i => (m.cell i).map fun a => (i, a)

/-- The entries with their buckets, in increasing order. -/
def Hashmap.positions (m : Hashmap α) : List (Nat × α) := m.positionsFrom 0

theorem positions_entries (m : Hashmap α) : m.positions.map Prod.snd = m.entries := by
  rw [Hashmap.positions, Hashmap.positionsFrom, map_filterMap, Hashmap.entries, elems,
    Nat.sub_zero, range_eq_range']
  refine filterMap_congr fun i _ => ?_
  cases m.cell i <;> rfl

/-! ### One call -/

/-- The count is right. -/
structure Counted (hash : α → Nat) (m : Hashmap α) : Prop where
  shape : Shape hash m
  count : m.count = m.entries.length

theorem Valid.counted (h : Valid hash cmp m) : Counted hash m := ⟨h.shape, h.count⟩

/-- The buckets from `start` to `i` are free. -/
def FreeFrom (m : Hashmap α) (start i : Nat) : Prop := ∀ k, start ≤ k → k < i → m.cell k = none

/-- **`next`** finds the first item at `start` or after. -/
theorem Counted.next_spec (h : Counted hash m) (start : Nat) :
    (∀ i, next m start = some i → start ≤ i ∧ i < m.size ∧ FreeFrom m start i ∧
      ∃ a, m.cell i = some a ∧ m.bucket i = ⟨some a, hash a⟩) ∧
    (next m start = none → ∀ k, start ≤ k → m.cell k = none) := by
  rw [next]
  by_cases h0 : m.count = 0
  · rw [if_pos h0]
    refine ⟨fun i hi => (by cases hi), fun _ k _ => ?_⟩
    have hnil := eq_nil_of_length_eq_zero (h.count.symm.trans h0)
    by_contra hk
    obtain ⟨a, ha⟩ := Option.ne_none_iff_exists'.1 hk
    have hmem : a ∈ m.entries :=
      mem_elems.2 ⟨k, h.shape.lt k (h.shape.bucket_of_cell ha).1, ha⟩
    rw [hnil] at hmem
    cases hmem
  rw [if_neg h0]
  obtain ⟨hsome, hnone⟩ := nextLoop_spec m.itemBitmap m.size h.shape.lt (m.size + 1) start
    (Nat.lt_of_lt_of_le (Nat.lt_succ_self _) (Nat.le_add_left ..))
  refine ⟨fun i hi => ?_, fun hn k hk => cell_eq_none_of_not_inUse (hnone hn k hk)⟩
  obtain ⟨hle, hu, hno⟩ := hsome i hi
  exact ⟨hle, h.shape.lt i hu, fun k h₁ h₂ => cell_eq_none_of_not_inUse (hno k h₁ h₂),
    h.shape.cell_eq hu⟩

theorem positionsFrom_free {start : Nat} (h : ∀ k, start ≤ k → m.cell k = none) :
    m.positionsFrom start = [] := by
  rw [Hashmap.positionsFrom, filterMap_eq_nil_iff]
  intro k hk
  rw [h k (mem_range'_1.1 hk).1]
  rfl

theorem positionsFrom_cons {start i : Nat} {a : α} (hle : start ≤ i) (hi : i < m.size)
    (hfree : FreeFrom m start i) (ha : m.cell i = some a) :
    m.positionsFrom start = (i, a) :: m.positionsFrom (i + 1) := by
  have hsplit : range' start (m.size - start) =
      range' start (i - start) ++ i :: range' (i + 1) (m.size - (i + 1)) := by
    have happend := range'_append_1 (s := start) (m := i - start) (n := m.size - i)
    rw [Nat.add_sub_cancel' hle, show i - start + (m.size - i) = m.size - start by omega] at happend
    rw [← happend, show m.size - i = m.size - (i + 1) + 1 by omega, range'_succ]
  have hbefore : (range' start (i - start)).filterMap
      (fun i => (m.cell i).map fun a => (i, a)) = [] := by
    rw [filterMap_eq_nil_iff]
    intro k hk
    obtain ⟨h₁, h₂⟩ := mem_range'_1.1 hk
    rw [hfree k h₁ (by omega)]
    rfl
  rw [Hashmap.positionsFrom, hsplit, filterMap_append, hbefore, nil_append, filterMap_cons, ha]
  rfl

/-! ### Going on -/

/-- **A scan that goes on** after each item, and changes nothing further on, sees each once. -/
theorem forEach_ascending (Inv : Nat → Hashmap α → Prop)
    (body : Hashmap α → Nat → Option (Hashmap α × Nat))
    (hcounted : ∀ start m, Inv start m → Counted hash m)
    (hbody : ∀ start i m a, Inv start m → start ≤ i → i < m.size → FreeFrom m start i →
      m.cell i = some a → ∃ m', body m i = some (m', i + 1) ∧ Inv (i + 1) m' ∧ m'.size = m.size ∧
        ∀ j, i < j → m'.cell j = m.cell j) :
    ∀ (rounds start : Nat) (m : Hashmap α), Inv start m → start ≤ m.size →
      m.size < start + rounds → ∃ m' stop, forEach body rounds start m =
        some (m', m.positionsFrom start) ∧ Inv stop m' ∧ m'.size = m.size ∧
          ∀ k, stop ≤ k → m'.cell k = none := by
  intro rounds
  induction rounds with
  | zero =>
    intro start m _ hle hlt
    exact absurd hle (not_le.2 hlt)
  | succ rounds ih =>
    intro start m hinv hle hlt
    obtain ⟨hsome, hnone⟩ := (hcounted start m hinv).next_spec start
    rw [forEach]
    cases hnext : next m start with
    | none =>
      have hfree := hnone hnext
      exact ⟨m, start, by rw [positionsFrom_free hfree], hinv, rfl, hfree⟩
    | some i =>
      obtain ⟨hsi, hi, hfree, a, ha, hbk⟩ := hsome i hnext
      obtain ⟨m₁, hrun, hinv₁, hsize₁, hcell₁⟩ := hbody start i m a hinv hsi hi hfree ha
      obtain ⟨m₂, stop, hrest, hinv₂, hsize₂, hfree₂⟩ :=
        ih (i + 1) m₁ hinv₁ (hsize₁ ▸ hi) (by omega)
      have hsame : m₁.positionsFrom (i + 1) = m.positionsFrom (i + 1) := by
        rw [Hashmap.positionsFrom, Hashmap.positionsFrom, hsize₁]
        refine filterMap_congr fun k hk => ?_
        rw [hcell₁ k (mem_range'_1.1 hk).1]
      refine ⟨m₂, stop, ?_, hinv₂, hsize₂.trans hsize₁, hfree₂⟩
      rw [positionsFrom_cons hsi hi hfree ha]
      simp only [hbk, hrun, bind_eq_bind, bind_some, hrest, hsame]
      rfl

/-! ### Clearing -/

theorem clearindex_eq (h : Shape hash m) {i : Nat} {a : α} (ha : m.cell i = some a) :
    clearindex m i = m.vacate i := by
  obtain ⟨hu, -⟩ := h.bucket_of_cell ha
  rw [clearindex, if_neg (not_le.2 (h.lt i hu)), if_neg (by rw [hu]; exact Bool.noConfusion)]
  rfl

theorem Counted.vacate (h : Counted hash m) {i : Nat} {a : α} (ha : m.cell i = some a) :
    Counted hash (m.vacate i) := by
  have hi := h.shape.lt i (h.shape.bucket_of_cell ha).1
  refine ⟨h.shape.vacate hi, ?_⟩
  have hlen := (h.shape.entries_vacate hi ha).length_eq
  show m.count - 1 = _
  rw [h.count, hlen, length_cons, Nat.add_sub_cancel]

/-- What holds between two rounds of a scan that clears: the buckets passed are free. -/
structure Cleared (hash : α → Nat) (start : Nat) (m : Hashmap α) : Prop where
  counted : Counted hash m
  free : ∀ k < start, m.cell k = none

theorem Cleared.step {start i : Nat} {a : α} (h : Cleared hash start m) (hi : i < m.size)
    (hfree : FreeFrom m start i) (ha : m.cell i = some a) :
    Cleared hash (i + 1) (clearindex m i) ∧ (clearindex m i).size = m.size ∧
      ∀ j, i < j → (clearindex m i).cell j = m.cell j := by
  rw [clearindex_eq h.counted.shape ha]
  have hcell := h.counted.shape.cell_vacate hi
  refine ⟨⟨h.counted.vacate ha, fun k hk => ?_⟩, rfl, fun j hj => ?_⟩
  · rw [hcell, Hashmap.without]
    rcases Nat.lt_succ_iff_lt_or_eq.1 hk with hlt | rfl
    · rw [Function.update_of_ne hlt.ne]
      rcases lt_or_ge k start with hs | hs
      · exact h.free k hs
      · exact hfree k hs hlt
    · exact Function.update_self ..
  · rw [hcell, Hashmap.without, Function.update_of_ne hj.ne']

/-! ### Removing -/

theorem shiftDeleteLoop_bitmap {rounds pos pos' : Nat}
    (h : shiftDeleteLoop rounds m pos = some (m', pos')) : m'.itemBitmap = m.itemBitmap := by
  induction rounds generalizing m pos with
  | zero => cases h
  | succ rounds ih =>
    rw [shiftDeleteLoop] at h
    split at h
    · have hsame := ih h
      exact hsame
    · cases h
      rfl

/-- A removal takes no bucket into use. -/
theorem removeindex_inUse {i j : Nat} (h : removeindex m i = some m') (hj : m'.inUse j = true) :
    m.inUse j = true := by
  rw [removeindex] at h
  split at h
  · rwa [some.inj h]
  split at h
  · rw [shiftDelete] at h
    split at h
    · cases h
    obtain ⟨⟨m₁, pos⟩, hloop, ⟨⟩⟩ := bind_eq_some_iff.1 h
    have hmem : Bitmap.mem m₁.itemBitmap j = true := Bitmap.mem_of_mem_erase hj
    rwa [shiftDeleteLoop_bitmap hloop] at hmem
  · rwa [some.inj h]

/-- **A scan that removes** each item, and looks at the same bucket again, sees each once: what
moves back does not move before that bucket. -/
theorem forEach_removing (hc : LawfulCmp hash cmp) :
    ∀ (rounds start : Nat) (m : Hashmap α), Valid hash cmp m →
      (∀ k < start, m.inUse k = false) → m.entries.length < rounds →
      ∃ m' visited, forEach removeBack rounds start m = some (m', visited) ∧ Valid hash cmp m' ∧
        m'.entries = [] ∧ (visited.map Prod.snd).Perm m.entries := by
  intro rounds
  induction rounds with
  | zero => intro start m _ _ hlt; cases hlt
  | succ rounds ih =>
    intro start m hv hpassed hlt
    obtain ⟨hsome, hnone⟩ := hv.counted.next_spec start
    rw [forEach]
    cases hnext : next m start with
    | none =>
      have hnil : m.entries = [] := by
        rw [eq_nil_iff_forall_not_mem]
        intro a ha
        obtain ⟨k, -, hk⟩ := mem_elems.mp ha
        rcases lt_or_ge k start with hs | hs
        · rw [cell_eq_none_of_not_inUse (hpassed k hs)] at hk
          cases hk
        · rw [hnone hnext k hs] at hk
          cases hk
      exact ⟨m, [], rfl, hv, hnil, by rw [hnil]; exact List.Perm.refl _⟩
    | some i =>
      obtain ⟨hsi, hi, hfree, a, ha, hbk⟩ := hsome i hnext
      obtain ⟨hu, -⟩ := hv.shape.bucket_of_cell ha
      obtain ⟨m₁, hrun, hv₁, hperm₁⟩ := hv.shiftDelete_spec hc hi ha
      have hremove : removeindex m i = some m₁ := by
        rw [removeindex, if_neg (not_le.mpr hi), if_pos hu, hrun]
      have hpassed₁ : ∀ k < i, m₁.inUse k = false := by
        intro k hk
        by_contra hcontra
        have hin := removeindex_inUse hremove ((Bool.not_eq_false _).mp hcontra)
        rcases lt_or_ge k start with hs | hs
        · rw [hpassed k hs] at hin
          cases hin
        · rw [hv.shape.not_inUse_of_cell (hfree k hs hk)] at hin
          cases hin
      have hlen := hperm₁.length_eq
      rw [length_cons] at hlen
      obtain ⟨m₂, rest, hrest, hv₂, hnil, hperm₂⟩ := ih i m₁ hv₁ hpassed₁ (by omega)
      refine ⟨m₂, (i, a) :: rest, ?_, hv₂, hnil, (hperm₂.cons a).trans hperm₁.symm⟩
      simp only [hbk, removeBack, hremove, map_some, bind_eq_bind, bind_some, hrest]
      rfl

/-! ### The three loops -/

/-- A map between operations, or one that nothing has ever been put into. -/
def Usable (hash : α → Nat) (cmp : α → α → Bool) (m : Hashmap α) : Prop :=
  (m.size = 0 ∧ m.count = 0) ∨ Valid hash cmp m

theorem forEach_unused {body : Hashmap α → Nat → Option (Hashmap α × Nat)} {rounds : Nat}
    (hcount : m.count = 0) (h : 0 < rounds) : forEach body rounds 0 m = some (m, []) := by
  obtain ⟨rounds, rfl⟩ := exists_eq_succ_of_ne_zero h.ne'
  rw [forEach, next, if_pos hcount]

/-- **Iteration visits every entry exactly once**, in increasing order of the buckets, and then
ends: where nothing is changed, where every item returned is cleared, and where every item is
removed and the same bucket looked at again. -/
theorem iteration_visits_each_once (hc : LawfulCmp hash cmp) (h : Usable hash cmp m) {rounds : Nat}
    (hr : m.size < rounds) : forEach leave rounds 0 m = some (m, m.positions) ∧
    (∃ m', forEach clear rounds 0 m = some (m', m.positions) ∧ m'.entries = [] ∧ m'.count = 0) ∧
    ∃ m' visited, forEach removeBack rounds 0 m = some (m', visited) ∧
      (visited.map Prod.snd).Perm (m.positions.map Prod.snd) ∧ m'.entries = [] ∧ m'.count = 0 := by
  rcases h with ⟨hsize, hcount⟩ | hv
  · have hnil : m.entries = [] := by
      rw [Hashmap.entries, hsize]
      rfl
    have hpos : m.positions = [] := by
      rw [Hashmap.positions, Hashmap.positionsFrom, hsize]
      rfl
    have hrun : ∀ body, forEach body rounds 0 m = some (m, []) := fun body =>
      forEach_unused hcount (zero_lt_of_lt hr)
    rw [hpos, hrun, hrun, hrun]
    exact ⟨rfl, ⟨m, rfl, hnil, hcount⟩, m, [], rfl, List.Perm.refl _, hnil, hcount⟩
  refine ⟨?_, ?_, ?_⟩
  · obtain ⟨m', stop, hrun, rfl, -⟩ := forEach_ascending (fun _ m' => m' = m) leave
      (fun _ _ e => e ▸ hv.counted)
      (fun _ i _ _ e _ _ _ _ => ⟨_, rfl, e, rfl, fun _ _ => rfl⟩) rounds 0 m rfl (zero_le _)
      (by rwa [zero_add])
    exact hrun
  · obtain ⟨m', stop, hrun, hinv, -, hfree⟩ := forEach_ascending (Cleared hash) clear
      (fun _ _ h => h.counted)
      (fun _ i m a h _ hi hfree ha => ⟨_, rfl, h.step hi hfree ha⟩) rounds 0 m
      ⟨hv.counted, fun k hk => absurd hk (not_lt_zero k)⟩ (zero_le _)
      (by rwa [zero_add])
    have hnil : m'.entries = [] := by
      rw [eq_nil_iff_forall_not_mem]
      intro a ha
      obtain ⟨k, -, hk⟩ := mem_elems.1 ha
      rcases lt_or_ge k stop with hs | hs
      · rw [hinv.free k hs] at hk
        cases hk
      · rw [hfree k hs] at hk
        cases hk
    exact ⟨m', hrun, hnil, by rw [hinv.counted.count, hnil]; rfl⟩
  · obtain ⟨m', visited, hrun, hv', hnil, hperm⟩ := forEach_removing hc rounds 0 m hv
      (fun k hk => absurd hk (not_lt_zero k))
      (lt_of_le_of_lt (length_elems_le _ _) hr)
    refine ⟨m', visited, hrun, ?_, hnil, by rw [hv'.count, hnil]; rfl⟩
    rwa [positions_entries]

/-- The three loops over three numbers that belong in the last bucket: two of them have wrapped
around the end of the table. -/
theorem iteration_visits_each_once_wrapped :
    ∃ m : Hashmap Nat, execAll id (· == ·) (init 0) [.put 7, .put 15, .put 23] =
        some (m, [none, none, none]) ∧
      forEach leave 9 0 m = some (m, [(0, 15), (1, 23), (7, 7)]) ∧
      (∃ m', forEach clear 9 0 m = some (m', [(0, 15), (1, 23), (7, 7)]) ∧ m'.count = 0) ∧
      ∃ m' visited, forEach removeBack 9 0 m = some (m', visited) ∧
        (visited.map Prod.snd).Perm [15, 23, 7] ∧ m'.count = 0 := by
  have hc : LawfulCmp id ((· == ·) : Nat → Nat → Bool) :=
    ⟨by simp, fun a b h => by rw [beq_iff_eq] at h ⊢; exact h.symm, by simp, by simp⟩
  obtain ⟨m, hrun, hrefines⟩ := execAll_refines hc [.put 7, .put 15, .put 23] (init_refines 0)
    (by simp [Op.Ok])
  obtain ⟨m', hrun', hsize, hpos⟩ : ∃ m' : Hashmap Nat,
      execAll id (· == ·) (init 0) [.put 7, .put 15, .put 23] = some (m', [none, none, none]) ∧
        m'.size = 8 ∧ m'.positions = [(0, 15), (1, 23), (7, 7)] := ⟨_, rfl, rfl, rfl⟩
  rw [hrun] at hrun'
  cases hrun'
  obtain ⟨hleave, ⟨m₁, hclear, -, hzero⟩, m₂, visited, hremove, hperm, -, hzero'⟩ :=
    iteration_visits_each_once hc (.inr hrefines.valid) (by omega : m.size < 9)
  rw [hpos] at hleave hclear hperm
  exact ⟨m, hrun, hleave, ⟨m₁, hclear, hzero⟩, m₂, visited, hremove, hperm, hzero'⟩

end SpacePony.Hash
