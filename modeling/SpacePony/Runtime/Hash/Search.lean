import SpacePony.Runtime.Hash.Table

/-!
# Runtime — searching the hash map

A table in use is a Robin Hood table (`cell`): bucket `i` holds what the bitmap and the bucket
say.  `Shape` is what every operation keeps of the representation, resizing included, and
`search_spec` says where a search ends: at a matching element, or at the first probe that may
stop.
-/

namespace SpacePony.Hash
open RobinHood
open Function (update update_self update_of_ne)

variable {α : Type} {hash : α → Nat} {cmp : α → α → Bool} {m : Hashmap α}

/-- The element of bucket `i`. -/
def Hashmap.cell (m : Hashmap α) (i : Nat) : Option α :=
  if m.inUse i = true then (m.bucket i).ptr else none

/-- The elements of the map, in the order of the buckets. -/
def Hashmap.entries (m : Hashmap α) : List α := elems m.size m.cell

/-- What every operation keeps of the representation. -/
structure Shape (hash : α → Nat) (m : Hashmap α) : Prop where
  pow : ∃ k, m.size = 2 ^ k
  ge : minHashmapSize ≤ m.size
  buckets : m.buckets.length = m.size
  bitmap : m.size ≤ 64 * m.itemBitmap.length
  lt : ∀ i, m.inUse i = true → i < m.size
  filled : ∀ i, m.inUse i = true → ∃ a, m.bucket i = ⟨some a, hash a⟩

theorem Shape.pos (h : Shape hash m) : 1 < m.size := by
  have := h.ge
  simp only [minHashmapSize] at this
  omega

theorem Shape.and_mask (h : Shape hash m) (x : Nat) : x &&& (m.size - 1) = x % m.size := by
  obtain ⟨k, hk⟩ := h.pow
  rw [hk, Nat.and_two_pow_sub_one_eq_mod]

variable {i : Nat}

theorem Shape.cell_eq (h : Shape hash m) (hi : m.inUse i = true) :
    ∃ a, m.cell i = some a ∧ m.bucket i = ⟨some a, hash a⟩ := by
  obtain ⟨a, ha⟩ := h.filled i hi
  exact ⟨a, by rw [Hashmap.cell, if_pos hi, ha], ha⟩

theorem Shape.bucket_of_cell (h : Shape hash m) {a : α} (ha : m.cell i = some a) :
    m.inUse i = true ∧ m.bucket i = ⟨some a, hash a⟩ := by
  by_cases hi : m.inUse i = true
  · obtain ⟨b, hb, hbk⟩ := h.cell_eq hi
    rw [ha, Option.some.injEq] at hb
    exact ⟨hi, hb ▸ hbk⟩
  · rw [Hashmap.cell, if_neg hi] at ha; cases ha

theorem cell_eq_none_of_not_inUse (hi : m.inUse i = false) : m.cell i = none := by
  rw [Hashmap.cell, if_neg (by simp [hi])]

theorem Shape.not_inUse_of_cell (h : Shape hash m) (hi : m.cell i = none) : m.inUse i = false := by
  by_contra hu
  obtain ⟨a, ha, -⟩ := h.cell_eq (by simpa using hu)
  rw [hi] at ha; cases ha

/-- The probe length the C computes from the hash stored in a bucket. -/
theorem Shape.getProbeLength_eq (h : Shape hash m) (a : α) (i : Nat) :
    getProbeLength m (hash a) i (m.size - 1) = dist m.size hash a i := by
  rw [getProbeLength, h.and_mask, h.and_mask, RobinHood.dist]

/-! ### Writing buckets -/

theorem bucket_setBucket (hi : i < m.buckets.length) (e : Entry α) (j : Nat) :
    (m.setBucket i e).bucket j = if j = i then e else m.bucket j := by
  simp only [Hashmap.bucket, Hashmap.setBucket, List.getD_eq_getElem?_getD, List.getElem?_set]
  by_cases hj : i = j
  · subst hj; simp [hi]
  · simp [hj, Ne.symm hj]

/-- Writing a bucket in use. -/
theorem cell_setBucket (hi : i < m.buckets.length) (hu : m.inUse i = true) (e : Entry α) :
    (m.setBucket i e).cell = update m.cell i e.ptr := by
  funext j
  have hin : (m.setBucket i e).inUse j = m.inUse j := rfl
  rw [Hashmap.cell, hin, bucket_setBucket hi]
  by_cases hj : j = i
  · subst hj; rw [if_pos hu, if_pos rfl, update_self]
  · rw [if_neg hj, update_of_ne hj, Hashmap.cell]

theorem Shape.setBucket (h : Shape hash m) (hi : i < m.size) (a : α) :
    Shape hash (m.setBucket i ⟨some a, hash a⟩) := by
  refine ⟨h.pow, h.ge, by simp [Hashmap.setBucket, h.buckets], h.bitmap, h.lt, fun j hj => ?_⟩
  rw [bucket_setBucket (h.buckets ▸ hi)]
  by_cases e : j = i
  · exact ⟨a, if_pos e⟩
  · rw [if_neg e]; exact h.filled j hj

/-- A free bucket, taken. -/
def Hashmap.occupy (m : Hashmap α) (i : Nat) (e : Entry α) : Hashmap α :=
  { m.setBucket i e with count := m.count + 1, itemBitmap := Bitmap.insert m.itemBitmap i }

section
variable (h : Shape hash m) (hi : i < m.size)
include h hi

theorem Shape.word_lt : i / 64 < m.itemBitmap.length := by
  have := h.bitmap
  omega

theorem Shape.inUse_occupy (e : Entry α) (j : Nat) :
    (m.occupy i e).inUse j = true ↔ j = i ∨ m.inUse j = true :=
  Bitmap.mem_insert (h.word_lt hi) j

theorem Shape.cell_occupy (e : Entry α) : (m.occupy i e).cell = update m.cell i e.ptr := by
  funext j
  have hb : (m.occupy i e).bucket j = (m.setBucket i e).bucket j := rfl
  by_cases hj : j = i
  · subst hj
    rw [Hashmap.cell, if_pos ((h.inUse_occupy hi e j).2 (.inl rfl)), hb,
      bucket_setBucket (h.buckets ▸ hi), if_pos rfl, update_self]
  rw [update_of_ne hj, Hashmap.cell, Hashmap.cell, hb, bucket_setBucket (h.buckets ▸ hi), if_neg hj]
  by_cases hu : m.inUse j = true
  · rw [if_pos hu, if_pos ((h.inUse_occupy hi e j).2 (.inr hu))]
  · rw [if_neg hu, if_neg fun hu' => ((h.inUse_occupy hi e j).1 hu').elim hj hu]

theorem Shape.occupy (a : α) : Shape hash (m.occupy i ⟨some a, hash a⟩) := by
  refine ⟨h.pow, h.ge, by simp [Hashmap.occupy, Hashmap.setBucket, h.buckets],
    by simpa [Hashmap.occupy, Hashmap.setBucket] using h.bitmap, fun j hj => ?_, fun j hj => ?_⟩
  · rcases (h.inUse_occupy hi _ j).1 hj with rfl | hj
    · exact hi
    · exact h.lt j hj
  have hb : (m.occupy i ⟨some a, hash a⟩).bucket j = (m.setBucket i ⟨some a, hash a⟩).bucket j :=
    rfl
  rw [hb, bucket_setBucket (h.buckets ▸ hi)]
  by_cases e : j = i
  · exact ⟨a, if_pos e⟩
  · rw [if_neg e]
    exact h.filled j (((h.inUse_occupy hi _ j).1 hj).resolve_left e)

end

/-! ### Freeing buckets -/

/-- The table without what bucket `i` holds. -/
def Hashmap.without (m : Hashmap α) (i : Nat) : Nat → Option α := update m.cell i none

/-- A bucket in use, freed. -/
def Hashmap.vacate (m : Hashmap α) (i : Nat) : Hashmap α :=
  { m.setBucket i { m.bucket i with ptr := none } with
    count := m.count - 1, itemBitmap := Bitmap.erase m.itemBitmap i }

section
variable (h : Shape hash m) (hi : i < m.size)
include h hi

theorem Shape.inUse_vacate (j : Nat) : (m.vacate i).inUse j = true ↔ j ≠ i ∧ m.inUse j = true :=
  Bitmap.mem_erase (h.word_lt hi) j

theorem Shape.bucket_vacate {j : Nat} (hj : j ≠ i) : (m.vacate i).bucket j = m.bucket j := by
  have hb := bucket_setBucket (h.buckets ▸ hi) { m.bucket i with ptr := none } j
  rwa [if_neg hj] at hb

theorem Shape.cell_vacate : (m.vacate i).cell = m.without i := by
  funext j
  by_cases hj : j = i
  · subst hj
    rw [Hashmap.without, update_self, Hashmap.cell, if_neg]
    exact fun hu => ((h.inUse_vacate hi j).1 hu).1 rfl
  rw [Hashmap.without, update_of_ne hj, Hashmap.cell, Hashmap.cell, h.bucket_vacate hi hj]
  by_cases hu : m.inUse j = true
  · rw [if_pos hu, if_pos ((h.inUse_vacate hi j).2 ⟨hj, hu⟩)]
  · rw [if_neg hu, if_neg fun hu' => hu ((h.inUse_vacate hi j).1 hu').2]

theorem Shape.vacate : Shape hash (m.vacate i) := by
  refine ⟨h.pow, h.ge, ?_, ?_, fun j hj => ?_, fun j hj => ?_⟩
  · simp [Hashmap.vacate, Hashmap.setBucket, h.buckets]
  · simpa [Hashmap.vacate, Hashmap.setBucket] using h.bitmap
  · exact h.lt j ((h.inUse_vacate hi j).1 hj).2
  · obtain ⟨hne, hu⟩ := (h.inUse_vacate hi j).1 hj
    rw [h.bucket_vacate hi hne]
    exact h.filled j hu

/-- The entries once a bucket is free. -/
theorem Shape.entries_vacate {a : α} (ha : m.cell i = some a) :
    m.entries.Perm (a :: (m.vacate i).entries) := by
  have hup := elems_update m.cell hi none
  rw [ha] at hup
  rw [Hashmap.entries, Hashmap.entries, h.cell_vacate hi]
  exact hup.symm

end

/-! ### The search -/

/-- The element at the probe of length `q` for `key` is neither less displaced than the probe
nor what is searched for. -/
def Passed (hash : α → Nat) (cmp : α → α → Bool) (m : Hashmap α) (key : α) (h q : Nat) : Prop :=
  ∃ b, m.cell (slot m.size h q) = some b ∧ q ≤ dist m.size hash b (slot m.size h q) ∧
    ¬ (hash b = h ∧ cmp key b = true)

/-- Where a search for `key` with hash `h` ends, having started at probe length `p₀` with the
out parameter at `oi`. -/
def SearchEnds (hash : α → Nat) (cmp : α → α → Bool) (m : Hashmap α) (key : α) (h p₀ oi : Nat)
    (r : Search α) : Prop :=
  ∃ p, p₀ ≤ p ∧ r.pos = slot m.size h p ∧ r.probeLength = p ∧
    (∀ q, p₀ ≤ q → q < p → Passed hash cmp m key h q) ∧
    ((∃ a, r.elem = some a ∧ m.cell r.pos = some a ∧ hash a = h ∧ cmp key a = true ∧
        r.oiProbeLength = oi) ∨
      (r.elem = none ∧ Stop m.size hash m.cell h p ∧
        r.oiProbeLength = ((m.cell r.pos).map (dist m.size hash · r.pos)).getD oi))

/-- The loop of `search` ends at the latest at an empty bucket, `e` probes on. -/
theorem Shape.searchLoop_spec (hm : Shape hash m) (cmp : α → α → Bool) (key : α) (h oi : Nat) :
    ∀ (rounds p e : Nat), e < rounds → m.cell (slot m.size h (p + e)) = none →
      SearchEnds hash cmp m key h p oi
        (searchLoop cmp m key h (m.size - 1) rounds (slot m.size h p) p oi) ∧
      (searchLoop cmp m key h (m.size - 1) rounds (slot m.size h p) p oi).probeLength ≤ p + e := by
  intro rounds
  induction rounds with
  | zero => intro p e he; cases he
  | succ rounds ih =>
    intro p e he hemp
    rw [searchLoop]
    by_cases hu : m.inUse (slot m.size h p) = false
    · rw [if_pos hu]
      have hc := cell_eq_none_of_not_inUse hu
      refine ⟨⟨p, le_refl p, rfl, rfl, fun q h₁ h₂ => by omega, .inr ⟨rfl, ?_, ?_⟩⟩,
        Nat.le_add_right p e⟩
      · intro b hb; rw [hc] at hb; cases hb
      · simp [hc]
    rw [if_neg hu]
    obtain ⟨b, hb, hbk⟩ := hm.cell_eq (by simpa using hu)
    simp only [hbk, hm.getProbeLength_eq]
    by_cases hlt : p > dist m.size hash b (slot m.size h p)
    · rw [if_pos hlt]
      refine ⟨⟨p, le_refl p, rfl, rfl, fun q h₁ h₂ => by omega, .inr ⟨rfl, ?_, ?_⟩⟩,
        Nat.le_add_right p e⟩
      · intro c hc
        rw [hb, Option.some.injEq] at hc
        exact hc ▸ hlt
      · simp [hb]
    rw [if_neg hlt]
    by_cases hmatch : h = hash b ∧ cmpPtr cmp key (some b) = true
    · rw [if_pos hmatch]
      exact ⟨⟨p, le_refl p, rfl, rfl, fun q h₁ h₂ => by omega,
        .inl ⟨b, rfl, hb, hmatch.1.symm, hmatch.2, rfl⟩⟩, Nat.le_add_right p e⟩
    rw [if_neg hmatch]
    -- the bucket is taken, so that the empty one is further on
    have he0 : e ≠ 0 := fun e0 => by rw [e0, Nat.add_zero, hb] at hemp; cases hemp
    have hpass : Passed hash cmp m key h p :=
      ⟨b, hb, Nat.not_lt.1 hlt, fun hc => hmatch ⟨hc.1.symm, hc.2⟩⟩
    rw [hm.and_mask, slot_succ]
    obtain ⟨⟨p', hle, hpos, hpl, hq, hend⟩, hbound⟩ := ih (p + 1) (e - 1) (by omega)
      (by rw [show p + 1 + (e - 1) = p + e by omega]; exact hemp)
    refine ⟨⟨p', by omega, hpos, hpl, fun q h₁ h₂ => ?_, hend⟩, by omega⟩
    by_cases hqp : q = p
    · exact hqp ▸ hpass
    · exact hq q (by omega) h₂

/-- **Where a search ends**, when some bucket is free: at a match or at the first probe that may
stop, no further than the free bucket. -/
theorem Shape.search_spec (hm : Shape hash m) (cmp : α → α → Bool) (key : α) (h p oi e : Nat) (he : e < m.size)
    (hemp : m.cell (slot m.size h (p + e)) = none) :
    SearchEnds hash cmp m key h p oi (search cmp m key h p oi) ∧
      (search cmp m key h p oi).probeLength ≤ p + e := by
  have hidx : ((h &&& (m.size - 1)) + p) &&& (m.size - 1) = slot m.size h p := by
    rw [hm.and_mask, hm.and_mask, slot]
  have hr : e < m.size - 1 + 1 := by omega
  have := hm.searchLoop_spec cmp key h oi (m.size - 1 + 1) p e hr hemp
  simpa only [search, hidx] using this

end SpacePony.Hash
