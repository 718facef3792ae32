import SpacePony.Runtime.Hash.Iterate

/-!
# Runtime — optimising the hash map

`ponyint_hashmap_clearindex` frees a bucket and moves nothing, so that a search may stop too early;
`ponyint_hashmap_optimize` goes over the map until no item moves.

* `optimizeItem_spec`: an item that moves lowers the spread of the table; one that does not is where
  a search finds it.
* `optimize_ends`: so the rounds end, and the last one leaves an ordered table.
* `same_answers`: what a map answers depends on its entries only.
* **`optimize_repairs`**: what `optimize` leaves, after any buckets have been cleared.
-/

namespace SpacePony.Hash
open Nat Option List RobinHood

variable {α : Type} {hash : α → Nat} {cmp : α → α → Bool} {m m' : Hashmap α} {a : α} {i : Nat}

/-- A map whose items may be out of order. -/
structure Holey (hash : α → Nat) (cmp : α → α → Bool) (m : Hashmap α) : Prop where
  shape : Shape hash m
  distinct : Distinct cmp m.entries
  count : m.count = m.entries.length
  load : 2 * m.count ≤ m.size

theorem Valid.holey (h : Valid hash cmp m) : Holey hash cmp m :=
  ⟨h.shape, h.distinct, h.count, h.load⟩

theorem Holey.counted (h : Holey hash cmp m) : Counted hash m := ⟨h.shape, h.count⟩

/-! ### One item -/

/-- The map `m'` has the entries of `m`. -/
structure Rearranged (hash : α → Nat) (cmp : α → α → Bool) (m m' : Hashmap α) : Prop where
  holey : Holey hash cmp m'
  entries : m'.entries.Perm m.entries
  size : m'.size = m.size
  count : m'.count = m.count

theorem Rearranged.refl (h : Holey hash cmp m) : Rearranged hash cmp m m :=
  ⟨h, List.Perm.refl _, rfl, rfl⟩

theorem Rearranged.trans {m'' : Hashmap α} (h : Rearranged hash cmp m m')
    (h' : Rearranged hash cmp m' m'') : Rearranged hash cmp m m'' :=
  ⟨h'.holey, h'.entries.trans h.entries, h'.size.trans h.size, h'.count.trans h.count⟩

/-- The table without the item of bucket `i`, that is put again nearer to its home. -/
structure Lifted (hash : α → Nat) (cmp : α → α → Bool) (m : Hashmap α) (i : Nat) (a : α) : Prop where
  clear : clearindex m i = m.vacate i
  shape : Shape hash (m.vacate i)
  distinct : Distinct cmp (a :: (m.vacate i).entries)
  entries : m.entries.Perm (a :: (m.vacate i).entries)
  cell : (m.vacate i).cell = Function.update m.cell i none
  remains : spread m.size hash (m.vacate i).cell + dist m.size hash a i ^ 2 =
    spread m.size hash m.cell
  count : (m.vacate i).count + 1 = m.count

theorem Holey.lift (hc : LawfulCmp hash cmp) (h : Holey hash cmp m) (ha : m.cell i = some a) :
    Lifted hash cmp m i a := by
  have hi := h.shape.lt i (h.shape.bucket_of_cell ha).1
  have hent := h.shape.entries_vacate hi ha
  have hcell := h.shape.cell_vacate hi
  refine ⟨clearindex_eq h.shape ha, h.shape.vacate hi, (hc.distinct_perm hent).1 h.distinct, hent,
    hcell, ?_, ?_⟩
  · have hup := spread_update hash m.cell hi none
    rw [ha, share_some, share_none, add_zero] at hup
    rw [hcell]
    exact hup
  have hlen := hent.length_eq
  have hcount := h.count
  rw [length_cons] at hlen
  show m.count - 1 + 1 = m.count
  omega

/-- The item put again makes the map full again, and no fuller. -/
theorem Lifted.rearranged (hc : LawfulCmp hash cmp) (h : Lifted hash cmp m i a)
    (hm : Holey hash cmp m) {p e : Nat} (hins : Inserted hash a p e (m.vacate i) m') :
    grow (resize cmp) m' = some m' ∧ Rearranged hash cmp m m' := by
  have hcount : m'.count = m.count := hins.count.trans h.count
  have hsize : m'.size = m.size := hins.size
  have hent : m'.entries.Perm m.entries := hins.entries.trans h.entries.symm
  have hload := hm.load
  refine ⟨?_, ⟨hins.shape, (hc.distinct_perm hent).2 hm.distinct, ?_, ?_⟩, hent, hsize, hcount⟩
  · rw [grow, if_neg]
    rw [shiftLeft_eq]
    omega
  · rw [hcount, hm.count, hent.length_eq]
  · omega

/-- A put at a bucket of a table that has buckets. -/
theorem putindex_eq {h pos : Nat} (hpos : pos < m.size) : putindex cmp m a h (some pos) =
      if m.inUse pos = false then grow (resize cmp) (m.occupy pos ⟨some a, h⟩)
      else if getProbeLength m h pos (m.size - 1) >
          getProbeLength m (m.bucket pos).hash pos (m.size - 1) then
        shiftPut cmp (resize cmp) m a h pos (getProbeLength m h pos (m.size - 1))
          (getProbeLength m (m.bucket pos).hash pos (m.size - 1)) none
      else (put cmp m a h).map Prod.fst := by
  have hsize : ¬ m.size = 0 := ne_zero_of_lt hpos
  simp only [putindex, if_neg hsize, if_neg (not_not.2 hpos), countUp_setBucket]

section
variable (hc : LawfulCmp hash cmp)
include hc

/-- **The item goes to a free bucket** nearer to its home. -/
theorem Lifted.putindex_free (h : Lifted hash cmp m i a)
    (hm : Holey hash cmp m) {j : Nat} (hj : j < dist m.size hash a i)
    (hu : m.inUse (slot m.size (hash a) j) = false) :
    ∃ m', putindex cmp (clearindex m i) a (hash a) (some (slot m.size (hash a) j)) = some m' ∧
      Rearranged hash cmp m m' ∧ spread m'.size hash m'.cell < spread m.size hash m.cell := by
  have hn := hm.shape.pos
  have hd : dist m.size hash a i < m.size := dist_lt hash (by omega) a i
  have hslot : slot m.size (hash a) j < m.size := slot_lt (by omega) _ _
  have hfree : (m.vacate i).cell (slot m.size (hash a) j) = none := by
    rw [h.cell, Function.update_apply, cell_eq_none_of_not_inUse hu, ite_self]
  have hins := h.shape.inserted_occupy (a := a) (p := j) 0 (hj.trans hd) hfree
  obtain ⟨hgrow, hre⟩ := h.rearranged hc hm hins
  refine ⟨_, ?_, hre, ?_⟩
  · rw [h.clear, putindex_eq (m := m.vacate i) hslot, if_pos (h.shape.not_inUse_of_cell hfree)]
    exact hgrow
  have hbound := hins.bound
  have hremains := h.remains
  have hlt : j ^ 2 < dist m.size hash a i ^ 2 := Nat.pow_lt_pow_left hj (by decide)
  rw [add_zero] at hbound
  refine lt_of_le_of_lt hbound ?_
  show spread m.size hash (m.vacate i).cell + j ^ 2 < _
  omega

/-- **The item takes the bucket of one nearer to its home**, that moves on. -/
theorem Lifted.putindex_taken (h : Lifted hash cmp m i a)
    (hm : Holey hash cmp m) (hi : i < m.size) {j : Nat} (hj : j < dist m.size hash a i) {b : α}
    (hb : m.cell (slot m.size (hash a) j) = some b)
    (hlt : dist m.size hash b (slot m.size (hash a) j) < j) :
    ∃ m', putindex cmp (clearindex m i) a (hash a) (some (slot m.size (hash a) j)) = some m' ∧
      Rearranged hash cmp m m' ∧ spread m'.size hash m'.cell < spread m.size hash m.cell := by
  have hd : dist m.size hash a i < m.size := dist_lt hash (by omega) a i
  have hslot : slot m.size (hash a) j < m.size := slot_lt (by omega) _ _
  have hsum : j + (dist m.size hash a i - j) = dist m.size hash a i := Nat.add_sub_cancel' hj.le
  have hne : slot m.size (hash a) j ≠ i := fun e => by
    rw [← slot_dist hash (by omega) a hi] at e
    exact absurd (slot_inj (hj.trans hd) hd e) hj.ne
  have hcell : (m.vacate i).cell (slot m.size (hash a) j) = some b := by
    rw [h.cell, Function.update_of_ne hne, hb]
  have hemp : (m.vacate i).cell (slot m.size (hash a) (j + (dist m.size hash a i - j))) = none := by
    rw [hsum, slot_dist hash (by omega) a hi, h.cell, Function.update_self]
  obtain ⟨hu, hbk⟩ := h.shape.bucket_of_cell hcell
  have hstop : Stop m.size hash (m.vacate i).cell (hash a) j := fun c hcc => by
    rw [hcell, some.injEq] at hcc
    exact hcc ▸ hlt
  have hoi : ∀ c, (m.vacate i).cell (slot m.size (hash a) j) = some c →
      dist m.size hash b (slot m.size (hash a) j) = dist m.size hash c (slot m.size (hash a) j) :=
    fun c hcc => by rw [hcell, some.injEq] at hcc; rw [hcc]
  obtain ⟨m', hrun, hins⟩ := shiftPutLoop_inserts hc (resize cmp) (m.size + 1) (m.vacate i) a j
    (dist m.size hash b (slot m.size (hash a) j)) (dist m.size hash a i - j) h.shape h.distinct
    hstop hoi hemp (by rw [hsum]; exact hd) (by omega)
  obtain ⟨hgrow, hre⟩ := h.rearranged hc hm hins
  refine ⟨m', ?_, hre, ?_⟩
  · have hdist : dist m.size hash a (slot m.size (hash a) j) = j :=
      dist_slot hash (by omega) a (hj.trans hd)
    have hda : getProbeLength (m.vacate i) (hash a) (slot m.size (hash a) j) (m.size - 1) = j :=
      (h.shape.getProbeLength_eq a _).trans hdist
    have hdb : getProbeLength (m.vacate i) (hash b) (slot m.size (hash a) j) (m.size - 1) =
        dist m.size hash b (slot m.size (hash a) j) := h.shape.getProbeLength_eq b _
    rw [h.clear, putindex_eq (m := m.vacate i) hslot, if_neg (by rw [hu]; exact Bool.noConfusion), hbk]
    show (if getProbeLength (m.vacate i) (hash a) (slot m.size (hash a) j) (m.size - 1) >
      getProbeLength (m.vacate i) (hash b) (slot m.size (hash a) j) (m.size - 1) then
        shiftPut cmp (resize cmp) (m.vacate i) a (hash a) (slot m.size (hash a) j)
          (getProbeLength (m.vacate i) (hash a) (slot m.size (hash a) j) (m.size - 1))
          (getProbeLength (m.vacate i) (hash b) (slot m.size (hash a) j) (m.size - 1)) none
      else _) = _
    rw [hda, hdb, if_pos hlt, shiftPut, if_pos (.inl hlt)]
    exact hrun.trans hgrow
  have hevicts := hins.evicts (by rw [show (m.vacate i).size = m.size from rfl, hcell]; simp)
  have hremains := h.remains
  rw [hsum] at hevicts
  refine lt_of_lt_of_le hevicts ?_
  show spread m.size hash (m.vacate i).cell + _ ≤ _
  omega

/-- What `optimize_item` does: the item is moved nearer to its home, or is where a search finds
it. -/
def Improves (hash : α → Nat) (cmp : α → α → Bool) (m : Hashmap α) (i : Nat) (a : α)
    (r : Option (Hashmap α × Nat)) : Prop :=
  (r = some (m, 0) ∧ SettledAt m.size hash m.cell a i) ∨
    ∃ m', r = some (m', 1) ∧ Rearranged hash cmp m m' ∧
      spread m'.size hash m'.cell < spread m.size hash m.cell

/-- The loop of `optimize_item`, past `j` buckets that the item's probe goes past. -/
theorem optimizeItemLoop_spec (hm : Holey hash cmp m) (ha : m.cell i = some a) :
    ∀ (rounds j : Nat), j ≤ dist m.size hash a i → dist m.size hash a i < j + rounds →
      (∀ q < j, ∃ b, m.cell (slot m.size (hash a) q) = some b ∧
        q ≤ dist m.size hash b (slot m.size (hash a) q)) →
      Improves hash cmp m i a
        (optimizeItemLoop cmp m i (hash a) a rounds (slot m.size (hash a) j)) := by
  have hi := hm.shape.lt i (hm.shape.bucket_of_cell ha).1
  have hd : dist m.size hash a i < m.size := dist_lt hash (by omega) a i
  have hlift := hm.lift hc ha
  intro rounds
  induction rounds with
  | zero => intro j h₁ h₂; exact absurd h₁ (Nat.not_le.mpr h₂)
  | succ rounds ih =>
    intro j hj hr hpast
    rw [optimizeItemLoop]
    by_cases hhome : slot m.size (hash a) j = i
    · -- the item is as near to its home as it can be
      have hjd : j = dist m.size hash a i := by
        rw [← hhome, dist_slot hash (by omega) a (lt_of_le_of_lt hj hd)]
      rw [if_pos hhome]
      exact .inl ⟨rfl, fun q hq => hpast q (by rwa [hjd])⟩
    rw [if_neg hhome]
    have hlt : j < dist m.size hash a i := by
      refine lt_of_le_of_ne hj fun e => hhome ?_
      rw [e, slot_dist hash (by omega) a hi]
    by_cases hu : m.inUse (slot m.size (hash a) j) = false
    · rw [if_pos hu]
      obtain ⟨m', hput, hre, hless⟩ := hlift.putindex_free hc hm hlt hu
      exact .inr ⟨m', by rw [hput]; rfl, hre, hless⟩
    rw [if_neg hu]
    obtain ⟨b, hb, hbk⟩ := hm.shape.cell_eq ((Bool.not_eq_false _).mp hu)
    rw [hbk, hm.shape.getProbeLength_eq a, hm.shape.getProbeLength_eq b,
      dist_slot hash (by omega) a (hlt.trans hd)]
    by_cases hgt : j > dist m.size hash b (slot m.size (hash a) j)
    · rw [if_pos hgt]
      obtain ⟨m', hput, hre, hless⟩ := hlift.putindex_taken hc hm hi hlt hb hgt
      exact .inr ⟨m', by rw [hput]; rfl, hre, hless⟩
    rw [if_neg hgt, hm.shape.and_mask, slot_succ]
    refine ih (j + 1) hlt (by omega) fun q hq => ?_
    rcases Nat.lt_succ_iff_lt_or_eq.mp hq with hq | rfl
    · exact hpast q hq
    · exact ⟨b, hb, Nat.not_lt.mp hgt⟩

/-- **`optimize_item`.** -/
theorem optimizeItem_spec (hm : Holey hash cmp m)
    (ha : m.cell i = some a) : Improves hash cmp m i a (optimizeItem cmp m i) := by
  obtain ⟨-, hbk⟩ := hm.shape.bucket_of_cell ha
  have hn := hm.shape.pos
  have hhome : hash a &&& (m.size - 1) = slot m.size (hash a) 0 := by
    rw [hm.shape.and_mask, slot, add_zero, mod_mod]
  rw [optimizeItem, hbk]
  simp only [hhome]
  refine optimizeItemLoop_spec hc hm ha m.size 0 (zero_le _) ?_ fun q hq =>
    absurd hq (not_lt_zero q)
  rw [zero_add]
  exact dist_lt hash (by omega) a i

/-! ### The rounds -/

/-- One round: something has moved, or every item from `start` on is where a search finds it. -/
theorem optimizePass_spec :
    ∀ (rounds start : Nat) (m : Hashmap α) (count : Nat), Holey hash cmp m → start ≤ m.size →
      m.size < start + rounds → ∃ m' moved, optimizePass cmp rounds start m count =
        some (m', count + moved) ∧ Rearranged hash cmp m m' ∧
        (0 < moved → spread m'.size hash m'.cell < spread m.size hash m.cell) ∧
        (moved = 0 → m' = m ∧
          ∀ i, start ≤ i → ∀ a, m.cell i = some a → SettledAt m.size hash m.cell a i) := by
  intro rounds
  induction rounds with
  | zero => intro start m count _ h₁ h₂; exact absurd h₁ (Nat.not_le.2 h₂)
  | succ rounds ih =>
    intro start m count hm hstart hr
    obtain ⟨hsome, hnone⟩ := hm.counted.next_spec start
    rw [optimizePass]
    cases hnext : next m start with
    | none =>
      refine ⟨m, 0, rfl, .refl hm, fun h => absurd h (lt_irrefl 0), fun _ => ⟨rfl, ?_⟩⟩
      intro i hi a ha
      rw [hnone hnext i hi] at ha
      cases ha
    | some i =>
      obtain ⟨hsi, hi, hfree, a, ha, -⟩ := hsome i hnext
      rcases optimizeItem_spec hc hm ha with ⟨hrun, hsettled⟩ | ⟨m₁, hrun, hre₁, hless₁⟩
      · obtain ⟨m₂, moved, hrest, hre, hless, hdone⟩ := ih (i + 1) m count hm hi (by omega)
        refine ⟨m₂, moved, ?_, hre, hless, fun h0 => ⟨(hdone h0).1, fun k hk b hb => ?_⟩⟩
        · simp only [hrun, bind_eq_bind, bind_some, Nat.add_zero]
          exact hrest
        rcases Nat.lt_trichotomy k i with hki | rfl | hki
        · rw [hfree k hk hki] at hb
          cases hb
        · rw [ha, some.injEq] at hb
          exact hb ▸ hsettled
        · exact (hdone h0).2 k hki b hb
      obtain ⟨m₂, moved, hrest, hre, hless, hdone⟩ :=
        ih (i + 1) m₁ (count + 1) hre₁.holey (hre₁.size ▸ hi) (by rw [hre₁.size]; omega)
      refine ⟨m₂, 1 + moved, ?_, hre₁.trans hre, fun _ => ?_, fun h0 => absurd h0 (by omega)⟩
      · simp only [hrun, bind_eq_bind, bind_some]
        rw [hrest, Nat.add_assoc]
      rcases Nat.eq_zero_or_pos moved with h0 | hpos
      · rw [(hdone h0).1]
        exact hless₁
      · exact (hless hpos).trans hless₁

/-- **The rounds end**, as many as the spread of the table allows, and the last one leaves it in
order. -/
theorem optimize_ends (hm : Holey hash cmp m) :
    ∃ m', (∀ rounds, spread m.size hash m.cell < rounds → optimize cmp rounds m = some m') ∧
      Valid hash cmp m' ∧ Rearranged hash cmp m m' := by
  induction hs : spread m.size hash m.cell using Nat.strong_induction_on generalizing m with
  | _ s ih =>
    obtain ⟨m₁, moved, hpass, hre, hless, hdone⟩ :=
      optimizePass_spec hc (m.size + 1) 0 m 0 hm (Nat.zero_le _) (by omega)
    rcases Nat.eq_zero_or_pos moved with h0 | hpos
    · obtain ⟨rfl, hsettled⟩ := hdone h0
      have hn := hm.shape.pos
      refine ⟨m₁, fun rounds hr => ?_, ⟨hm.shape, ?_, hm.distinct, hm.count, hm.load⟩, hre⟩
      · obtain ⟨rounds, rfl⟩ := Nat.exists_eq_succ_of_ne_zero (Nat.ne_zero_of_lt hr)
        rw [optimize, hpass, h0]
        rfl
      · exact ordered_of_settled (by omega) fun i _ a ha => hsettled i (Nat.zero_le i) a ha
    obtain ⟨m₂, hrun, hv, hre₂⟩ := ih _ (hs ▸ hless hpos) hre.holey rfl
    refine ⟨m₂, fun rounds hr => ?_, hv, hre.trans hre₂⟩
    obtain ⟨rounds, rfl⟩ := Nat.exists_eq_succ_of_ne_zero (Nat.ne_zero_of_lt hr)
    rw [optimize, hpass, Nat.zero_add]
    show (if moved > 0 then optimize cmp rounds m₁ else some m₁) = _
    rw [if_pos hpos]
    exact hrun rounds (by omega)

end

/-! ### Cleared buckets -/

/-- Buckets cleared one after another. -/
def clearAll (m : Hashmap α) (is : List Nat) : Hashmap α := is.foldl clearindex m

theorem clearindex_free (h : m.cell i = none) (hm : Shape hash m) : clearindex m i = m := by
  rw [clearindex, if_pos (hm.not_inUse_of_cell h), ite_self]

/-- Clearing a bucket leaves the other items where they are. -/
theorem Holey.clearindex (hc : LawfulCmp hash cmp) (h : Holey hash cmp m) (i : Nat) :
    Holey hash cmp (clearindex m i) ∧ (Hash.clearindex m i).size = m.size ∧
      (Hash.clearindex m i).cell = Function.update m.cell i none := by
  cases ha : m.cell i with
  | none =>
    rw [clearindex_free ha h.shape]
    refine ⟨h, rfl, ?_⟩
    rw [← ha, Function.update_eq_self]
  | some a =>
    have hi := h.shape.lt i (h.shape.bucket_of_cell ha).1
    have hcounted := h.counted.vacate ha
    have hload := h.load
    rw [clearindex_eq h.shape ha]
    refine ⟨⟨hcounted.shape, ?_, hcounted.count, ?_⟩, rfl, h.shape.cell_vacate hi⟩
    · exact (pairwise_cons.1 (h.lift hc ha).distinct).2
    · show 2 * (m.count - 1) ≤ m.size
      omega

/-- The items whose bucket is not one of those cleared. -/
def Hashmap.keep (m : Hashmap α) (is : List Nat) (j : Nat) : Option α :=
  if j ∈ is then none else m.cell j

theorem Holey.clearAll (hc : LawfulCmp hash cmp) (is : List Nat) (h : Holey hash cmp m) :
    Holey hash cmp (clearAll m is) ∧ (Hash.clearAll m is).size = m.size ∧
      (Hash.clearAll m is).cell = m.keep is := by
  induction is generalizing m with
  | nil => exact ⟨h, rfl, funext fun j => (if_neg not_mem_nil).symm⟩
  | cons i is ih =>
    obtain ⟨hm, hsize, hcell⟩ := h.clearindex hc i
    obtain ⟨hm', hsize', hcell'⟩ := ih hm
    refine ⟨hm', hsize'.trans hsize, hcell'.trans (funext fun j => ?_)⟩
    rw [Hashmap.keep, Hashmap.keep, hcell]
    by_cases hj : j = i
    · rw [hj, Function.update_self, ite_self, if_pos (.head _)]
    rw [Function.update_of_ne hj]
    by_cases hmem : j ∈ is
    · rw [if_pos hmem, if_pos (.tail _ hmem)]
    · rw [if_neg hmem, if_neg fun h => (mem_cons.1 h).elim hj hmem]

/-! ### What a map answers -/

/-- The operations that name an entry by its key. -/
def Op.Keyed : Op α → Prop
  | .removeindex _ => False
  | _ => True

section
variable (hc : LawfulCmp hash cmp)
include hc

/-- An entry is found in a list whatever the order of the list. -/
theorem LawfulCmp.find?_perm {l l' : List α} (hd : Distinct cmp l)
    (hp : l.Perm l') (key : α) : l'.find? (cmp key) = l.find? (cmp key) := by
  cases hf : l.find? (cmp key) with
  | some a =>
    have ha := hp.mem_iff.1 (mem_of_find?_eq_some hf)
    exact hc.find?_eq_some ((hc.distinct_perm hp).1 hd) ha (find?_some hf)
  | none =>
    rw [find?_eq_none] at hf ⊢
    exact fun a ha => hf a (hp.mem_iff.2 ha)

/-- The finite map does not look at the order of its entries. -/
theorem specStep_perm {l l' : List α} (hd : Distinct cmp l)
    (hp : l.Perm l') (at₁ at₂ : Nat → Option α) (op : Op α) (hkeyed : op.Keyed) :
    (specStep cmp at₁ l op).2 = (specStep cmp at₂ l' op).2 ∧
      (specStep cmp at₁ l op).1.Perm (specStep cmp at₂ l' op).1 := by
  have hfind := hc.find?_perm hd hp
  cases op with
  | get key => exact ⟨(hfind key).symm, hp⟩
  | put entry => exact ⟨(hfind entry).symm, (hp.filter _).cons entry⟩
  | putindex key entry =>
    simp only [specStep, hfind key]
    cases l.find? (cmp key) with
    | some e => exact ⟨rfl, hp⟩
    | none => exact ⟨rfl, hp.cons entry⟩
  | remove key => exact ⟨(hfind key).symm, hp.filter _⟩
  | removeindex index => exact absurd hkeyed id

/-- **What a map answers depends on its entries only**, over every sequence of operations. -/
theorem same_answers (ops : List (Op α)) :
    ∀ {m b : Hashmap α}, Valid hash cmp m → Valid hash cmp b → b.entries.Perm m.entries →
      (∀ op ∈ ops, op.Ok cmp ∧ op.Keyed) →
      ∃ m' b' outs, execAll hash cmp m ops = some (m', outs) ∧
        execAll hash cmp b ops = some (b', outs) ∧ Valid hash cmp m' ∧ Valid hash cmp b' ∧
        b'.entries.Perm m'.entries := by
  induction ops with
  | nil => exact fun hm hb hp _ => ⟨_, _, [], rfl, rfl, hm, hb, hp⟩
  | cons op ops ih =>
    intro m b hm hb hp hops
    obtain ⟨hok, hkeyed⟩ := hops op (.head _)
    obtain ⟨m₁, hrun, hm₁⟩ := exec_refines hc ⟨hm, List.Perm.refl _⟩ op hok
    obtain ⟨b₁, hrun', hb₁⟩ := exec_refines hc ⟨hb, List.Perm.refl _⟩ op hok
    obtain ⟨hout, hstep⟩ := specStep_perm hc hb.distinct hp b.cell m.cell op hkeyed
    obtain ⟨m₂, b₂, outs, hrest, hrest', hm₂, hb₂, hp₂⟩ :=
      ih hm₁.valid hb₁.valid (hb₁.perm.trans (hstep.trans hm₁.perm.symm))
        fun op' hop' => hops op' (.tail _ hop')
    refine ⟨m₂, b₂, (specStep cmp m.cell m.entries op).2 :: outs, ?_, ?_, hm₂, hb₂, hp₂⟩
    · simp only [execAll, hrun, hrest, bind_eq_bind, bind_some]
      rfl
    · simp only [execAll, hrun', hrest', bind_eq_bind, bind_some, hout]
      rfl

/-- Putting entries with new keys adds them. -/
theorem putAll_spec (l : List α) :
    ∀ {m : Hashmap α} {entries : List α}, Refines hash cmp m entries → Distinct cmp (l ++ entries) →
      ∃ b outs, execAll hash cmp m (l.map .put) = some (b, outs) ∧ Valid hash cmp b ∧
        b.entries.Perm (l ++ entries) := by
  induction l with
  | nil => exact fun h _ => ⟨_, [], rfl, h.valid, h.perm⟩
  | cons a l ih =>
    intro m entries h hd
    obtain ⟨hnew, hrest⟩ := pairwise_cons.1 hd
    have hfresh : ∀ b ∈ entries, cmp a b = false := fun b hb =>
      hnew b (mem_append_right l hb)
    obtain ⟨m₁, hput, h₁⟩ := h.put_spec hc a
    rw [filter_eq_self_of_forall hfresh] at h₁
    have hperm : (l ++ a :: entries).Perm (a :: l ++ entries) := perm_middle
    obtain ⟨b, outs, hrun, hv, hp⟩ := ih h₁ ((hc.distinct_perm hperm).2 hd)
    refine ⟨b, entries.find? (cmp a) :: outs, ?_, hv, hp.trans hperm⟩
    simp only [map_cons, execAll, exec, hput, hrun, bind_eq_bind, bind_some]
    rfl

/-- A map built by putting entries into an empty one. -/
theorem built_spec (n : Nat) (l : List α) (hd : Distinct cmp l) :
    ∃ b outs, execAll hash cmp (init n) (l.map .put) = some (b, outs) ∧ Valid hash cmp b ∧
      b.entries.Perm l := by
  have hspec := putAll_spec hc l (init_refines n) (by rwa [append_nil])
  rwa [append_nil] at hspec

end

/-- **`ponyint_hashmap_optimize` repairs any holes.**  After any buckets of a map have been cleared
its rounds end, with the entries that were not cleared, of the same count and in a table of the same
size, where every one is found and every later operation answers as on a map built from them
alone. -/
theorem optimize_repairs (hc : LawfulCmp hash cmp) (hv : Valid hash cmp m) (is : List Nat) :
    ∃ m', (∀ rounds, m.size * m.size ^ 2 < rounds → optimize cmp rounds (clearAll m is) = some m') ∧
      Valid hash cmp m' ∧ m'.entries.Perm (elems m.size (m.keep is)) ∧
      m'.count = (clearAll m is).count ∧ m'.size = m.size ∧
      (∀ a ∈ m'.entries, (get cmp m' a (hash a) none).1 = some a) ∧
      ∀ n, ∃ b outs₀, execAll hash cmp (init n) ((elems m.size (m.keep is)).map .put) =
          some (b, outs₀) ∧
        ∀ ops : List (Op α), (∀ op ∈ ops, op.Ok cmp ∧ op.Keyed) →
          ∃ m'' b' outs, execAll hash cmp m' ops = some (m'', outs) ∧
            execAll hash cmp b ops = some (b', outs) ∧ Valid hash cmp m'' ∧
            b'.entries.Perm m''.entries := by
  obtain ⟨hholey, hsize, hcell⟩ := hv.holey.clearAll hc is
  obtain ⟨m', hrun, hv', hre⟩ := optimize_ends hc hholey
  have hkept : (clearAll m is).entries = elems m.size (m.keep is) := by
    rw [Hashmap.entries, hsize, hcell]
  have hent : m'.entries.Perm (elems m.size (m.keep is)) := hkept ▸ hre.entries
  have hpos := hv.shape.pos
  refine ⟨m', fun rounds hr => hrun rounds ?_, hv', hent, hre.count, hre.size.trans hsize,
    fun a ha => ?_, fun n => ?_⟩
  · rw [hsize]
    exact lt_of_le_of_lt (spread_le (by omega)) hr
  · have hget := Refines.get_spec hc ⟨hv', List.Perm.refl _⟩ a
    rw [hget]
    exact hc.find?_eq_some hv'.distinct ha (hc.refl a)
  obtain ⟨b, outs₀, hbuilt, hvb, hpb⟩ := built_spec hc n (elems m.size (m.keep is))
    (hkept ▸ hholey.distinct)
  refine ⟨b, outs₀, hbuilt, fun ops hops => ?_⟩
  obtain ⟨m'', b', outs, h₁, h₂, hm'', -, hp⟩ :=
    same_answers hc ops hv' hvb (hpb.trans hent.symm) hops
  exact ⟨m'', b', outs, h₁, h₂, hm'', hp⟩

/-- The theorem at three numbers of one home, the first of them cleared: the other two move back to
where a search finds them. -/
theorem optimize_repairs_digits :
    ∃ m m' : Hashmap Nat, execAll id (· == ·) (init 0) [.put 7, .put 15, .put 23] =
        some (m, [none, none, none]) ∧
      optimize (· == ·) 513 (clearAll m [7]) = some m' ∧ m'.entries.Perm [15, 23] ∧
      ∀ a ∈ m'.entries, (get (· == ·) m' a a none).1 = some a := by
  have hc : LawfulCmp id ((· == ·) : Nat → Nat → Bool) :=
    ⟨by simp, fun a b h => by rw [beq_iff_eq] at h ⊢; exact h.symm, by simp, by simp⟩
  obtain ⟨m, hrun, hrefines⟩ := execAll_refines hc [.put 7, .put 15, .put 23] (init_refines 0)
    (by simp [Op.Ok])
  obtain ⟨m₁, hrun', hsize, hkeep⟩ : ∃ m₁ : Hashmap Nat,
      execAll id (· == ·) (init 0) [.put 7, .put 15, .put 23] = some (m₁, [none, none, none]) ∧
        m₁.size = 8 ∧ elems m₁.size (m₁.keep [7]) = [15, 23] := ⟨_, rfl, rfl, rfl⟩
  rw [hrun] at hrun'
  cases hrun'
  obtain ⟨m', hopt, -, hperm, -, -, hfound, -⟩ := optimize_repairs hc hrefines.valid [7]
  rw [hkeep] at hperm
  exact ⟨m, m', hrun, hopt 513 (by rw [hsize]; decide), hperm, hfound⟩

end SpacePony.Hash
