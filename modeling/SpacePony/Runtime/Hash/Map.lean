import SpacePony.Runtime.Hash.Put

/-!
# Runtime — the hash map is a finite map

The specification is a list of entries with distinct keys (`specStep`): a get finds the entry
with an equal key, a put replaces it or adds it, a remove takes it out.  The operations of
`ds/hash.c` refine it: `exec_refines` for one operation from any map between operations, and
`hashmap_is_finite_map` for every sequence of operations from `init`.
-/

namespace SpacePony.Hash
open Nat Option List RobinHood

variable {α : Type} {hash : α → Nat} {cmp : α → α → Bool} {m : Hashmap α}

/-! ### Deleting -/

/-- **The loop of `shift_delete`.**  With a free bucket `e` further on, the loop ends at a hole
that may stay, and no element but the first has been lost. -/
theorem shiftDeleteLoop_spec :
    ∀ (rounds : Nat) (m : Hashmap α) (pos g e : Nat), Shape hash m → m.inUse pos = true →
      Hole m.size hash (m.without pos) pos g → m.cell ((pos + e) % m.size) = none →
      1 ≤ e → e ≤ rounds →
      ∃ m' pos', shiftDeleteLoop rounds m pos = some (m', pos') ∧ Shape hash m' ∧
        m'.inUse pos' = true ∧ m'.size = m.size ∧ m'.count = m.count ∧
        Ordered m.size hash (m'.without pos') ∧
        (elems m.size (m'.without pos')).Perm (elems m.size (m.without pos)) := by
  intro rounds
  induction rounds with
  | zero => intro m pos g e _ _ _ _ h₁ h₂; omega
  | succ rounds ih =>
    intro m pos g e hm hu hh hemp he1 he2
    have hn := hm.pos
    have hpos := hh.lt
    have hne : (pos + 1) % m.size ≠ pos := succ_ne hn hpos
    have hnlt : (pos + 1) % m.size < m.size := mod_lt _ (by omega)
    have hwo : m.without pos ((pos + 1) % m.size) = m.cell ((pos + 1) % m.size) :=
      Function.update_of_ne hne _ _
    rw [shiftDeleteLoop]
    simp only [hm.and_mask]
    by_cases hcond : m.inUse ((pos + 1) % m.size) = true ∧
        getProbeLength m (m.bucket ((pos + 1) % m.size)).hash ((pos + 1) % m.size)
          (m.size - 1) ≠ 0
    · rw [if_pos hcond]
      obtain ⟨hun, hpl⟩ := hcond
      obtain ⟨c, hc, hbk⟩ := hm.cell_eq hun
      rw [hbk] at hpl ⊢
      rw [hm.getProbeLength_eq] at hpl
      have hshift := hh.shift hn (hwo.trans hc) (by omega)
      -- writing the bucket is filling the hole
      have hcell := cell_setBucket (hm.buckets ▸ hpos) hu (⟨some c, hash c⟩ : Entry α)
      have hfill : (m.setBucket pos ⟨some c, hash c⟩).without ((pos + 1) % m.size) =
          Function.update (Function.update (m.without pos) pos (some c))
            ((pos + 1) % m.size) none := by
        rw [Hashmap.without, hcell, Hashmap.without, Function.update_idem]
      have he : e ≠ 1 := fun e1 => by rw [e1, hc] at hemp; cases hemp
      have hz : ((pos + 1) % m.size + (e - 1)) % m.size = (pos + e) % m.size := by
        rw [mod_add_mod, show pos + 1 + (e - 1) = pos + e by omega]
      have hzne : (pos + e) % m.size ≠ pos := fun h => by
        rw [h] at hemp
        obtain ⟨a, ha, -⟩ := hm.cell_eq hu
        rw [ha] at hemp; cases hemp
      obtain ⟨m', pos', hrun, hm', hu', hsz, hcnt, hord, hperm⟩ :=
        ih (m.setBucket pos ⟨some c, hash c⟩) ((pos + 1) % m.size) _ (e - 1)
          (hm.setBucket hpos c) hun (by rw [hfill]; exact hshift)
          (by
            show (m.setBucket pos ⟨some c, hash c⟩).cell _ = none
            rw [hcell, show (m.setBucket pos (⟨some c, hash c⟩ : Entry α)).size = m.size from rfl,
              hz, Function.update_of_ne hzne]
            exact hemp)
          (by omega) (by omega)
      refine ⟨m', pos', hrun, hm', hu', hsz, hcnt, hord, hperm.trans ?_⟩
      show (elems m.size ((m.setBucket pos ⟨some c, hash c⟩).without ((pos + 1) % m.size))).Perm _
      rw [hfill]
      have h₁ := elems_update (m.without pos) hpos (some c)
      have h₂ := elems_update (Function.update (m.without pos) pos (some c)) hnlt none
      rw [Function.update_of_ne hne, hwo, hc] at h₂
      rw [hh.empty] at h₁
      exact (h₂.trans h₁).cons_inv
    rw [if_neg hcond]
    refine ⟨m, pos, rfl, hm, hu, rfl, rfl, hh.close fun a ha => ?_, List.Perm.refl _⟩
    rw [hwo] at ha
    obtain ⟨hua, hbka⟩ := hm.bucket_of_cell ha
    by_contra hd
    refine hcond ⟨hua, ?_⟩
    rw [hbka, hm.getProbeLength_eq]
    exact hd

/-- **`shift_delete`** takes out the element of its bucket and keeps every other. -/
theorem Valid.shiftDelete_spec (hc : LawfulCmp hash cmp) (hv : Valid hash cmp m) {i : Nat} {a : α}
    (hi : i < m.size) (ha : m.cell i = some a) :
    ∃ m', shiftDelete m i = some m' ∧ Valid hash cmp m' ∧ m.entries.Perm (a :: m'.entries) := by
  have hn := hv.shape.pos
  obtain ⟨hu, -⟩ := hv.shape.bucket_of_cell ha
  obtain ⟨z, hz, hfree⟩ := hv.exists_free
  obtain ⟨e, he, hez⟩ := exists_slot (by omega) i hz
  rw [slot, mod_eq_of_lt hi] at hez
  have he0 : e ≠ 0 := fun e0 => by
    rw [e0, add_zero, mod_eq_of_lt hi] at hez
    rw [← hez, ha] at hfree; cases hfree
  obtain ⟨m', pos', hrun, hm', hu', hsz, hcnt, hord, hperm⟩ :=
    shiftDeleteLoop_spec m.size m i _ e hv.shape hu (hv.ordered.hole hn hi ha)
      (by rw [hez]; exact hfree) (by omega) he.le
  have hp' : pos' < m'.size := hm'.lt pos' hu'
  have hcell : (m'.vacate pos').cell = m'.without pos' := hm'.cell_vacate hp'
  have hent : m.entries.Perm (a :: (m'.vacate pos').entries) := by
    have h₁ := elems_update m.cell hi none
    rw [ha] at h₁
    refine h₁.symm.trans (List.Perm.cons a ?_)
    rw [Hashmap.entries, hcell, show (m'.vacate pos').size = m.size from hsz]
    exact hperm.symm
  refine ⟨m'.vacate pos', ?_, ⟨hm'.vacate hp', ?_, ?_, ?_, ?_⟩, hent⟩
  · rw [shiftDelete, if_neg (not_not.2 hi), hrun]; rfl
  · rw [hcell, show (m'.vacate pos').size = m.size from hsz]; exact hord
  · exact (pairwise_cons.1 ((hc.distinct_perm hent).1 hv.distinct)).2
  · have hlen := hent.length_eq
    have hcm := hv.count
    rw [length_cons] at hlen
    show m'.count - 1 = _
    omega
  · have hl := hv.load
    show 2 * (m'.count - 1) ≤ m'.size
    omega

/-! ### The operations and their specification -/

/-- The operations.  `putindex key entry` is a get for `key`, and if that fails a putindex of
`entry` at the index the get left. -/
inductive Op (α : Type) where
  | get (key : α)
  | put (entry : α)
  | putindex (key entry : α)
  | remove (key : α)
  | removeindex (index : Nat)

/-- A putindex is of an entry with the key that was looked up. -/
def Op.Ok (cmp : α → α → Bool) : Op α → Prop
  | .putindex key entry => cmp key entry = true
  | _ => True

/-- An operation on the map, with what it returns; `none` when an assertion fails, a loop does
not end, or a resize happens inside a resize. -/
def exec (hash : α → Nat) (cmp : α → α → Bool) (m : Hashmap α) :
    Op α → Option (Hashmap α × Option α)
  | .get key => some (m, (get cmp m key (hash key) none).1)
  | .put entry => put cmp m entry (hash entry)
  | .putindex key entry =>
    match get cmp m key (hash key) none with
    | (some e, _) => some (m, some e)
    | (none, pos) => (putindex cmp m entry (hash entry) pos).map (·, none)
  | .remove key => remove cmp m key (hash key)
  | .removeindex index => (removeindex m index).map (·, none)

/-- The operations of a finite map, kept as the list of its entries.  Which entry has an index
is the table's affair: `at_` says it. -/
def specStep (cmp : α → α → Bool) (at_ : Nat → Option α) (entries : List α) :
    Op α → List α × Option α
  | .get key => (entries, entries.find? (cmp key))
  | .put entry => (entry :: entries.filter (!cmp entry ·), entries.find? (cmp entry))
  | .putindex key entry =>
    match entries.find? (cmp key) with
    | some e => (entries, some e)
    | none => (entry :: entries, none)
  | .remove key => (entries.filter (!cmp key ·), entries.find? (cmp key))
  | .removeindex index =>
    match at_ index with
    | some e => (entries.filter (!cmp e ·), none)
    | none => (entries, none)

/-- A map between operations holds the entries of the finite map, each once. -/
structure Refines (hash : α → Nat) (cmp : α → α → Bool) (m : Hashmap α) (entries : List α) :
    Prop where
  valid : Valid hash cmp m
  perm : m.entries.Perm entries

variable {entries : List α}

theorem Refines.distinct (hc : LawfulCmp hash cmp) (h : Refines hash cmp m entries) :
    Distinct cmp entries :=
  (hc.distinct_perm h.perm).1 h.valid.distinct

variable {l : List α} {key : α}

/-- An entry with an equal key is the one that is found. -/
theorem LawfulCmp.find?_eq_some (hc : LawfulCmp hash cmp) (hd : Distinct cmp l) {a : α} (ha : a ∈ l)
    (hcmp : cmp key a = true) : l.find? (cmp key) = some a := by
  induction l with
  | nil => cases ha
  | cons b l ih =>
    obtain ⟨hb, hl⟩ := pairwise_cons.1 hd
    rcases mem_cons.1 ha with rfl | ha
    · exact find?_cons_of_pos hcmp
    have hkb : ¬ cmp key b = true := fun hkb => by
      have := hc.trans b key a (hc.symm key b hkb) hcmp
      rw [hb a ha] at this; cases this
    rw [find?_cons_of_neg hkb]
    exact ih hl ha

theorem find?_eq_none_of_forall (h : ∀ a ∈ l, cmp key a = false) : l.find? (cmp key) = none :=
  find?_eq_none.2 fun a ha => by rw [h a ha]; exact Bool.false_ne_true

/-- Filtering out a key takes out its one entry. -/
theorem LawfulCmp.filter_cons (hc : LawfulCmp hash cmp) {b : α} (hd : Distinct cmp (b :: l))
    (hcmp : cmp key b = true) : (b :: l).filter (!cmp key ·) = l := by
  rw [filter_cons_of_neg (by simp [hcmp]), filter_eq_self]
  intro a ha
  have hba := (pairwise_cons.1 hd).1 a ha
  have : ¬ cmp key a = true := fun h => by
    have := hc.trans b key a (hc.symm key b hcmp) h
    rw [hba] at this; cases this
  simpa using this

theorem filter_eq_self_of_forall (h : ∀ a ∈ l, cmp key a = false) : l.filter (!cmp key ·) = l :=
  filter_eq_self.2 fun a ha => by rw [h a ha]; rfl

/-- The entries with a key taken out, when the map holds it. -/
theorem Refines.perm_filter (hc : LawfulCmp hash cmp) (h : Refines hash cmp m entries) {b : α}
    {rest : List α} (hr : m.entries.Perm (b :: rest)) (hcmp : cmp key b = true) :
    rest.Perm (entries.filter (!cmp key ·)) := by
  have hd := (hc.distinct_perm hr).1 h.valid.distinct
  have := ((h.perm.symm.trans hr).filter (!cmp key ·)).symm
  rwa [hc.filter_cons hd hcmp] at this

/-- An entry of the table that matches the key is the one the list finds. -/
theorem Refines.find?_of_perm (hc : LawfulCmp hash cmp) (h : Refines hash cmp m entries) {b : α}
    {rest : List α} (hr : m.entries.Perm (b :: rest)) (hcmp : cmp key b = true) :
    entries.find? (cmp key) = some b :=
  hc.find?_eq_some (h.distinct hc) ((h.perm.symm.trans hr).mem_iff.2 (.head _)) hcmp

theorem Refines.absent (h : Refines hash cmp m entries) (hno : ∀ a ∈ m.entries, cmp key a = false) :
    ∀ a ∈ entries, cmp key a = false :=
  fun a ha => hno a (h.perm.mem_iff.2 ha)

section
variable (hc : LawfulCmp hash cmp) (h : Refines hash cmp m entries)
include hc h

/-- **Get.** -/
theorem Refines.get_spec (key : α) :
    (get cmp m key (hash key) none).1 = entries.find? (cmp key) := by
  rw [get]
  by_cases h0 : m.count = 0
  · have hnil : entries = [] := by
      rw [← length_eq_zero_iff, ← h.perm.length_eq, ← h.valid.count]; exact h0
    rw [if_pos h0, hnil]; rfl
  rw [if_neg h0]
  obtain ⟨p, hp, -, -, -, ⟨b, hel, hb, hcmp, -⟩ | ⟨hel, hs, hq, -⟩⟩ := h.valid.search_spec key
  · have hn := h.valid.shape.pos
    have hmem : b ∈ m.entries := mem_elems.2 ⟨_, slot_lt (by omega) _ _, hb⟩
    exact hel.trans (hc.find?_eq_some (h.distinct hc) (h.perm.mem_iff.1 hmem) hcmp).symm
  · have hno := h.valid.not_mem_of_search hc hs hq
    exact hel.trans (find?_eq_none_of_forall (h.absent hno)).symm

/-- **Put.** -/
theorem Refines.put_spec (a : α) :
    ∃ m', put cmp m a (hash a) = some (m', entries.find? (cmp a)) ∧
      Refines hash cmp m' (a :: entries.filter (!cmp a ·)) := by
  rcases h.valid.putWith_spec hc (resize cmp) a with
    ⟨b, rest, hr, hcmp, m', hput, hv, hp⟩ | ⟨hno, m', hput, hadd⟩
  · refine ⟨m', ?_, hv, hp.trans ((h.perm_filter hc hr hcmp).cons a)⟩
    rw [h.find?_of_perm hc hr hcmp]
    exact hput
  obtain ⟨r, hgrow, hv, hp⟩ := hadd.grow_spec hc h.valid hno
  refine ⟨r, ?_, hv, ?_⟩
  · rw [find?_eq_none_of_forall (h.absent hno), put, hput, hgrow]; rfl
  · rw [filter_eq_self_of_forall (h.absent hno)]
    exact hp.trans (h.perm.cons a)

/-- **Putindex**, at the index that a get for an equal key left when it found nothing. -/
theorem Refines.putindex_spec {a : α}
    (hka : cmp key a = true) (hno : entries.find? (cmp key) = none) :
    ∃ m', putindex cmp m a (hash a) (get cmp m key (hash key) none).2 = some m' ∧
      Refines hash cmp m' (a :: entries) := by
  have hn := h.valid.shape.pos
  have habs : ∀ b ∈ entries, cmp a b = false := fun b hb => by
    by_contra hab
    exact find?_eq_none.1 hno b hb (hc.trans key a b hka (by simpa using hab))
  -- a put finds nothing to replace
  have hplain : ∃ m', (put cmp m a (hash a)).map Prod.fst = some m' ∧
      Refines hash cmp m' (a :: entries) := by
    obtain ⟨m', hput, hr⟩ := h.put_spec hc a
    rw [filter_eq_self_of_forall habs] at hr
    exact ⟨m', by rw [hput]; rfl, hr⟩
  rw [get]
  by_cases h0 : m.count = 0
  · rw [if_pos h0]
    exact hplain
  rw [if_neg h0]
  have hfresh : ∀ b ∈ m.entries, cmp a b = false := fun b hb => habs b (h.perm.mem_iff.1 hb)
  have hsize : ¬ m.size = 0 := by omega
  obtain ⟨p, hp, hpos, -, hf, ⟨b, -, hb, hcmp, -⟩ | ⟨-, hs, hq, -, e, he, hfree⟩⟩ :=
    h.valid.search_spec key
  · have hmem : b ∈ m.entries := mem_elems.2 ⟨_, slot_lt (by omega) _ _, hb⟩
    exact absurd hcmp (find?_eq_none.1 hno b (h.perm.mem_iff.1 hmem))
  rw [hc.hash key a hka] at hpos hf hs hfree
  have hi : slot m.size (hash a) p < m.size := slot_lt (by omega) _ _
  simp only [putindex, hc.hash key a hka, hpos, if_neg hsize, if_neg (not_not.2 hi)]
  have hfin : ∀ m', Added hash a m m' → ∃ r, grow (resize cmp) m' = some r ∧
      Refines hash cmp r (a :: entries) := fun m' hadd => by
    obtain ⟨r, hgrow, hv, hpr⟩ := hadd.grow_spec hc h.valid hfresh
    exact ⟨r, hgrow, hv, hpr.trans (h.perm.cons a)⟩
  cases hcell : m.cell (slot m.size (hash a) p) with
  | none =>
    rw [if_pos (h.valid.shape.not_inUse_of_cell hcell), countUp_setBucket]
    exact hfin _ (h.valid.shape.added_occupy h.valid.ordered hp hcell hf)
  | some b =>
    obtain ⟨hu, hbk⟩ := h.valid.shape.bucket_of_cell hcell
    have hlt := hs b hcell
    have hda : getProbeLength m (hash a) (slot m.size (hash a) p) (m.size - 1) = p := by
      rw [h.valid.shape.getProbeLength_eq, dist_slot hash (by omega) a hp]
    rw [if_neg (by simp [hu]), hbk]
    simp only [hda, h.valid.shape.getProbeLength_eq b, if_pos hlt, shiftPut]
    rw [if_pos (.inl hlt)]
    obtain ⟨m', hrun, hadd⟩ := shiftPutLoop_spec hc (resize cmp) (m.size + 1) m a p
      (dist m.size hash b (slot m.size (hash a) p)) e h.valid.shape h.valid.ordered
      (pairwise_cons.2 ⟨hfresh, h.valid.distinct⟩) hs hf
      (fun c hcc => by rw [hcell, some.injEq] at hcc; rw [hcc]) hfree he (by omega)
    obtain ⟨r, hgrow, hr⟩ := hfin m' hadd
    exact ⟨r, hrun.trans hgrow, hr⟩

/-- **Remove.** -/
theorem Refines.remove_spec (key : α) :
    ∃ m', remove cmp m key (hash key) = some (m', entries.find? (cmp key)) ∧
      Refines hash cmp m' (entries.filter (!cmp key ·)) := by
  rw [remove]
  by_cases h0 : m.count = 0
  · have hnil : entries = [] := by
      rw [← length_eq_zero_iff, ← h.perm.length_eq, ← h.valid.count]; exact h0
    rw [if_pos h0]
    subst hnil
    exact ⟨m, rfl, h⟩
  rw [if_neg h0]
  have hn := h.valid.shape.pos
  obtain ⟨p, hp, hpos, -, -, ⟨b, hel, hb, hcmp, -⟩ | ⟨hel, hs, hq, -⟩⟩ := h.valid.search_spec key
  · have hi : slot m.size (hash key) p < m.size := slot_lt (by omega) _ _
    obtain ⟨m', hdel, hv, hpm⟩ := h.valid.shiftDelete_spec hc hi hb
    refine ⟨m', ?_, hv, h.perm_filter hc hpm hcmp⟩
    rw [h.find?_of_perm hc hpm hcmp]
    simp only [hel, hpos, hdel, isSome_some, if_true, map_some]
  have hno := h.absent (h.valid.not_mem_of_search hc hs hq)
  refine ⟨m, ?_, ?_⟩
  · rw [find?_eq_none_of_forall hno]
    simp only [hel, isSome_none, Bool.false_eq_true, if_false]
  · rw [filter_eq_self_of_forall hno]; exact h

/-- **Removeindex** takes out the entry of its bucket. -/
theorem Refines.removeindex_spec (i : Nat) : ∃ m', removeindex m i = some m' ∧
      Refines hash cmp m' (specStep cmp m.cell entries (.removeindex i)).1 := by
  rw [removeindex, specStep]
  cases hcell : m.cell i with
  | none =>
    refine ⟨m, ?_, h⟩
    have hu := h.valid.shape.not_inUse_of_cell hcell
    split
    · rfl
    · rw [if_neg (by simp [hu])]
  | some a =>
    obtain ⟨hu, -⟩ := h.valid.shape.bucket_of_cell hcell
    have hi := h.valid.shape.lt i hu
    obtain ⟨m', hdel, hv, hpm⟩ := h.valid.shiftDelete_spec hc hi hcell
    refine ⟨m', ?_, hv, h.perm_filter hc hpm (hc.refl a)⟩
    rw [if_neg (by omega), if_pos hu]
    exact hdel

/-- **One operation.**  From any map between operations, every operation succeeds, returns what
the finite map returns, and leaves a map that holds what the finite map holds. -/
theorem exec_refines (op : Op α)
    (hok : op.Ok cmp) : ∃ m', exec hash cmp m op = some (m', (specStep cmp m.cell entries op).2) ∧
      Refines hash cmp m' (specStep cmp m.cell entries op).1 := by
  cases op with
  | get key => exact ⟨m, by rw [exec, h.get_spec hc key]; rfl, h⟩
  | put entry => exact h.put_spec hc entry
  | putindex key entry =>
    have hget := h.get_spec hc key
    rw [exec, specStep]
    cases hf : entries.find? (cmp key) with
    | some e =>
      rw [hf] at hget
      rw [show get cmp m key (hash key) none = (some e, _) from Prod.ext hget rfl]
      exact ⟨m, rfl, h⟩
    | none =>
      obtain ⟨m', hput, hr⟩ := h.putindex_spec hc hok hf
      rw [hf] at hget
      rw [show get cmp m key (hash key) none = (none, _) from Prod.ext hget rfl]
      refine ⟨m', ?_, hr⟩
      show (putindex cmp m entry (hash entry) _).map _ = _
      rw [hput]
      rfl
  | remove key => exact h.remove_spec hc key
  | removeindex index =>
    obtain ⟨m', hrem, hr⟩ := h.removeindex_spec hc index
    refine ⟨m', ?_, hr⟩
    rw [exec, hrem, specStep]
    split <;> rfl

end

/-! ### Runs -/

/-- A sequence of operations, with what each returns. -/
def execAll (hash : α → Nat) (cmp : α → α → Bool) (m : Hashmap α) :
    List (Op α) → Option (Hashmap α × List (Option α))
  | [] => some (m, [])
  | op :: ops => do
    let (m', out) ← exec hash cmp m op
    let (m'', outs) ← execAll hash cmp m' ops
    pure (m'', out :: outs)

/-- The same sequence on the finite map, beside the table it is compared with. -/
def specAll (hash : α → Nat) (cmp : α → α → Bool) (m : Hashmap α) (entries : List α) :
    List (Op α) → List α × List (Option α)
  | [] => (entries, [])
  | op :: ops =>
    let s := specStep cmp m.cell entries op
    match exec hash cmp m op with
    | none => (s.1, [s.2])
    | some (m', _) =>
      let t := specAll hash cmp m' s.1 ops
      (t.1, s.2 :: t.2)

/-- Every sequence of operations runs through and answers as the list does. -/
theorem execAll_refines (hc : LawfulCmp hash cmp) (ops : List (Op α)) :
    ∀ {m : Hashmap α} {entries : List α}, Refines hash cmp m entries → (∀ op ∈ ops, op.Ok cmp) →
      ∃ m', execAll hash cmp m ops = some (m', (specAll hash cmp m entries ops).2) ∧
        Refines hash cmp m' (specAll hash cmp m entries ops).1 := by
  induction ops with
  | nil => intro m entries h _; exact ⟨m, rfl, h⟩
  | cons op ops ih =>
    intro m entries h hok
    obtain ⟨m₁, hex, h₁⟩ := exec_refines hc h op (hok op (.head _))
    obtain ⟨m₂, hrun, h₂⟩ := ih h₁ fun op' h' => hok op' (.tail _ h')
    refine ⟨m₂, ?_, ?_⟩
    · simp only [execAll, specAll, hex, hrun, bind_eq_bind, bind_some]
      rfl
    · simpa only [specAll, hex] using h₂

theorem init_refines (n : Nat) : Refines hash cmp (init n) [] := by
  rw [init]
  have hv : Valid hash cmp (allocTable (if n <<< 1 < minHashmapSize then minHashmapSize
      else nextPow2 (n <<< 1))) := by
    split
    · exact valid_allocTable ⟨3, rfl⟩ (le_refl _)
    · rename_i hge
      exact valid_allocTable ⟨_, rfl⟩ ((not_lt.1 hge).trans (le_pow_clog (by decide) _))
  exact ⟨hv, by rw [entries_allocTable]⟩

/-- **The hash map is a finite map.**  For any hash and any comparison that is an equivalence
agreeing with it, every sequence of operations from `init` runs through: no assertion fails,
every loop ends, and no resize happens inside a resize.  Every operation returns what the finite
map returns; the table holds the finite map's entries, each once, no two with equal keys; `count`
is their number; and a bucket is free. -/
theorem hashmap_is_finite_map (hc : LawfulCmp hash cmp) (n : Nat) (ops : List (Op α))
    (hok : ∀ op ∈ ops, op.Ok cmp) :
    ∃ m, execAll hash cmp (init n) ops = some (m, (specAll hash cmp (init n) [] ops).2) ∧
      m.entries.Perm (specAll hash cmp (init n) [] ops).1 ∧
      (specAll hash cmp (init n) [] ops).1.Pairwise (fun a b => cmp a b = false) ∧
      m.count = (specAll hash cmp (init n) [] ops).1.length ∧
      ∃ i < m.size, m.inUse i = false := by
  obtain ⟨m, hrun, h⟩ := execAll_refines hc ops (init_refines n) hok
  obtain ⟨i, hi, hfree⟩ := h.valid.exists_free
  exact ⟨m, hrun, h.perm, h.distinct hc, h.valid.count.trans h.perm.length_eq, i, hi,
    h.valid.shape.not_inUse_of_cell hfree⟩

/-- The theorem at a map from numbers to themselves, hashed by their last digit: a collision, a
replacement, a removal and a lookup that fails. -/
theorem hashmap_is_finite_map_digits : ∃ m, execAll (· % 10) (· == ·) (init 0)
        [.put 3, .put 13, .put 3, .remove 3, .get 13, .putindex 23 23, .get (3 : Nat)] =
      some (m, [none, none, some 3, some 3, some 13, none, none]) ∧ m.count = 2 := by
  have hc : LawfulCmp (· % 10) ((· == ·) : Nat → Nat → Bool) :=
    ⟨by simp, fun a b h => by rw [beq_iff_eq] at h ⊢; exact h.symm, by simp, by simp⟩
  obtain ⟨m, hrun, -, -, hcount, -⟩ := hashmap_is_finite_map hc 0
    [.put 3, .put 13, .put 3, .remove 3, .get 13, .putindex 23 23, .get 3]
    (by simp [Op.Ok])
  exact ⟨m, hrun, hcount⟩

end SpacePony.Hash
