import SpacePony.Runtime.Hash.Search

/-!
# Runtime — putting into the hash map

`shift_put` evicts less displaced elements one after another until a bucket is free
(`shiftPutLoop_spec`: by the number of buckets left before the free one).  The put then grows
the table past half full (`grow`), and `resize_spec` shows that a resize, which puts every entry
again, keeps the entries and does not need another resize.
-/

namespace SpacePony.Hash
open Nat Bool Option List RobinHood

variable {α : Type} {hash : α → Nat} {cmp : α → α → Bool} {m : Hashmap α}

/-- A comparison that is an equivalence and agrees with the hash. -/
structure LawfulCmp (hash : α → Nat) (cmp : α → α → Bool) : Prop where
  refl : ∀ a, cmp a a = true
  symm : ∀ a b, cmp a b = true → cmp b a = true
  trans : ∀ a b c, cmp a b = true → cmp b c = true → cmp a c = true
  hash : ∀ a b, cmp a b = true → hash a = hash b

/-- No two elements of the list have equal keys. -/
def Distinct (cmp : α → α → Bool) (l : List α) : Prop := l.Pairwise fun a b => cmp a b = false

variable {a b : α}

theorem LawfulCmp.symm_false (hc : LawfulCmp hash cmp) (h : cmp a b = false) : cmp b a = false := by
  by_contra hn
  rw [hc.symm b a (by simpa using hn)] at h
  cases h

theorem LawfulCmp.distinct_perm (hc : LawfulCmp hash cmp) {l l' : List α} (hp : l.Perm l') :
    Distinct cmp l ↔ Distinct cmp l' :=
  hp.pairwise_iff fun h => hc.symm_false h

/-- A resize when the table is past half full. -/
def grow (resize : Hashmap α → Option (Hashmap α)) (m : Hashmap α) : Option (Hashmap α) :=
  if m.count <<< 1 > m.size then resize m else some m

theorem countUp_setBucket (resize : Hashmap α → Option (Hashmap α)) (m : Hashmap α) (i : Nat)
    (e : Entry α) : countUp resize (m.setBucket i e) i = grow resize (m.occupy i e) := rfl

/-- The table `m'` is `m` with `a` added. -/
structure Added (hash : α → Nat) (a : α) (m m' : Hashmap α) : Prop where
  shape : Shape hash m'
  ordered : Ordered m'.size hash m'.cell
  entries : m'.entries.Perm (a :: m.entries)
  size : m'.size = m.size
  count : m'.count = m.count + 1

theorem Shape.entries_setBucket (hm : Shape hash m) {i : Nat} (hi : i < m.size)
    (hb : m.cell i = some b) (a : α) :
    (b :: (m.setBucket i ⟨some a, hash a⟩).entries).Perm (a :: m.entries) := by
  have hu := (hm.bucket_of_cell hb).1
  have := elems_update m.cell hi (some a)
  rw [hb] at this
  rwa [Hashmap.entries, cell_setBucket (hm.buckets ▸ hi) hu]

/-- Taking a free bucket where the probe of `a` stopped. -/
theorem Shape.added_occupy (hm : Shape hash m) (ho : Ordered m.size hash m.cell) {p : Nat}
    (hp : p < m.size) (hfree : m.cell (slot m.size (hash a) p) = none)
    (hf : Follows m.size hash m.cell (hash a) p) :
    Added hash a m (m.occupy (slot m.size (hash a) p) ⟨some a, hash a⟩) := by
  have hi : slot m.size (hash a) p < m.size := slot_lt (by omega) _ _
  have hstop : Stop m.size hash m.cell (hash a) p := fun b hb => by rw [hfree] at hb; cases hb
  refine ⟨hm.occupy hi a, ?_, ?_, rfl, rfl⟩
  · show Ordered m.size hash _
    rw [hm.cell_occupy hi]
    exact ho.place hm.pos hp hstop hf
  have := elems_update m.cell hi (some a)
  rw [hfree] at this
  show (elems m.size _).Perm _
  rw [hm.cell_occupy hi]
  exact this

/-- What the search for an element with no equal in the table leaves for `shift_put`. -/
theorem SearchEnds.of_distinct (hn : 0 < m.size) {key : α} {p₀ oi : Nat} {r : Search α}
    (h : SearchEnds hash cmp m key (hash key) p₀ oi r) (hd : ∀ a ∈ m.entries, cmp key a = false) :
    ∃ p, p₀ ≤ p ∧ r.pos = slot m.size (hash key) p ∧ r.probeLength = p ∧ r.elem = none ∧
      (∀ q, p₀ ≤ q → q < p → Passed hash cmp m key (hash key) q) ∧
      Stop m.size hash m.cell (hash key) p ∧
      r.oiProbeLength = ((m.cell r.pos).map (dist m.size hash · r.pos)).getD oi := by
  obtain ⟨p, hp, hpos, hpl, hq, ⟨a, -, ha, -, hcmp, -⟩ | ⟨he, hs, hoi⟩⟩ := h
  · have hmem : a ∈ m.entries := mem_elems.2 ⟨r.pos, by rw [hpos]; exact slot_lt hn _ _, ha⟩
    rw [hd a hmem] at hcmp
    cases hcmp
  · exact ⟨p, hp, hpos, hpl, he, hq, hs, hoi⟩

/-- What putting `a` into a table leaves, when the probe of `a` of length `p` has stopped and a
bucket `e` further on is free.  The table need not be ordered. -/
structure Inserted (hash : α → Nat) (a : α) (p e : Nat) (m m' : Hashmap α) : Prop where
  shape : Shape hash m'
  entries : m'.entries.Perm (a :: m.entries)
  size : m'.size = m.size
  count : m'.count = m.count + 1
  ordered : Ordered m.size hash m.cell → Follows m.size hash m.cell (hash a) p →
    Ordered m'.size hash m'.cell
  bound : spread m'.size hash m'.cell ≤ spread m.size hash m.cell + (p + e) ^ 2
  evicts : m.cell (slot m.size (hash a) p) ≠ none →
    spread m'.size hash m'.cell < spread m.size hash m.cell + (p + e) ^ 2

/-- Occupying the first free slot of a probe inserts the entry there. -/
theorem Shape.inserted_occupy (hm : Shape hash m) {p : Nat} (e : Nat) (hp : p < m.size)
    (hfree : m.cell (slot m.size (hash a) p) = none) :
    Inserted hash a p e m (m.occupy (slot m.size (hash a) p) ⟨some a, hash a⟩) := by
  have hi : slot m.size (hash a) p < m.size := slot_lt (by omega) _ _
  refine ⟨hm.occupy hi a, ?_, rfl, rfl, fun ho hf => (hm.added_occupy ho hp hfree hf).ordered, ?_,
    fun hne => absurd hfree hne⟩
  · have hup := elems_update m.cell hi (some a)
    rw [hfree] at hup
    show (elems m.size _).Perm _
    rwa [hm.cell_occupy hi]
  have hup := spread_update hash m.cell hi (some a)
  rw [hfree, share_none, share_some, dist_slot hash (by omega) a hp, Nat.add_zero] at hup
  show spread m.size hash _ ≤ _
  rw [hm.cell_occupy hi, hup]
  exact Nat.add_le_add_left (Nat.pow_le_pow_left (Nat.le_add_right p e) 2) _

/-- **The loop of `shift_put`.**  From the place where the probe of `ci` stopped, with a free
bucket `e` further on, the loop ends with `ci` in the table and every element kept. -/
theorem shiftPutLoop_inserts (hc : LawfulCmp hash cmp) (resize : Hashmap α → Option (Hashmap α)) :
    ∀ (rounds : Nat) (m : Hashmap α) (ci : α) (p oi e : Nat), Shape hash m →
      Distinct cmp (ci :: m.entries) → Stop m.size hash m.cell (hash ci) p →
      (∀ b, m.cell (slot m.size (hash ci) p) = some b →
        oi = dist m.size hash b (slot m.size (hash ci) p)) →
      m.cell (slot m.size (hash ci) (p + e)) = none → p + e < m.size → e < rounds →
      ∃ m', shiftPutLoop cmp resize rounds m ci (hash ci) (slot m.size (hash ci) p) oi none =
        grow resize m' ∧ Inserted hash ci p e m m' := by
  intro rounds
  induction rounds with
  | zero => intro m ci p oi e _ _ _ _ _ _ he; cases he
  | succ rounds ih =>
    intro m ci p oi e hm hd hstop hoi hemp hpe he
    have hn := hm.pos
    have hi : slot m.size (hash ci) p < m.size := slot_lt (by omega) _ _
    rw [shiftPutLoop, if_neg (not_not.2 hi)]
    cases hcell : m.cell (slot m.size (hash ci) p) with
    | none =>
      have hu := hm.not_inUse_of_cell hcell
      refine ⟨_, ?_, hm.inserted_occupy e (by omega) hcell⟩
      rw [if_neg (by simp [hu])]
      exact countUp_setBucket resize m _ _
    | some b =>
      obtain ⟨hu, hbk⟩ := hm.bucket_of_cell hcell
      have hlt := hstop b hcell
      obtain rfl := hoi b hcell
      have he0 : e ≠ 0 := fun e0 => by rw [e0, add_zero, hcell] at hemp; cases hemp
      rw [if_pos ⟨rfl, hu⟩, hbk]
      simp only
      -- the table with `ci` in the place of `b`
      have hm₁ := hm.setBucket hi ci
      have hcell₁ := cell_setBucket (hm.buckets ▸ hi) hu (⟨some ci, hash ci⟩ : Entry α)
      have ho₁ : Ordered m.size hash m.cell → Follows m.size hash m.cell (hash ci) p →
          Ordered (m.setBucket (slot m.size (hash ci) p) ⟨some ci, hash ci⟩).size hash
            (m.setBucket (slot m.size (hash ci) p) ⟨some ci, hash ci⟩).cell := by
        intro ho hf
        show Ordered m.size hash _
        rw [hcell₁]
        exact ho.place hn (by omega) hstop hf
      have hspread := spread_update hash m.cell hi (some ci)
      rw [hcell, share_some, share_some, dist_slot hash (by omega) ci (by omega),
        ← hcell₁] at hspread
      have hperm := hm.entries_setBucket hi hcell ci
      have hd₁ := (hc.distinct_perm hperm).2 hd
      generalize hm₁e : m.setBucket (slot m.size (hash ci) p) ⟨some ci, hash ci⟩ = m₁ at *
      have hsz : m₁.size = m.size := by rw [← hm₁e]; rfl
      have hcnt : m₁.count = m.count := by rw [← hm₁e]; rfl
      generalize hoie : dist m.size hash b (slot m.size (hash ci) p) = oi at *
      -- the free bucket, as `b` counts from its own home
      have hslotb : slot m.size (hash b) oi = slot m.size (hash ci) p := by
        rw [← hoie, slot_dist hash (by omega) b hi]
      have hz : slot m.size (hash b) (oi + e) = slot m.size (hash ci) (p + e) := by
        rw [← slot_add, hslotb, slot_add]
      have hne : slot m.size (hash ci) (p + e) ≠ slot m.size (hash ci) p := fun h => by
        have := slot_inj hpe (by omega) h
        omega
      have hemp₁ : m₁.cell (slot m₁.size (hash b) (oi + e)) = none := by
        rw [hsz, hz, hcell₁, Function.update_of_ne hne]
        exact hemp
      obtain ⟨hends, hbound⟩ := hm₁.search_spec cmp b (hash b) oi oi e
        (by omega) hemp₁
      have hdb : ∀ a ∈ m₁.entries, cmp b a = false := (pairwise_cons.1 hd₁).1
      obtain ⟨p', hp', hpos', hpl', hel', hq', hs', hoi'⟩ :=
        hends.of_distinct (by omega) hdb
      rw [hpl'] at hbound
      -- `b` is less displaced than `ci`, so that its search leaves their bucket
      have hp'ne : p' ≠ oi := fun e' => by
        subst e'
        have hat : m₁.cell (slot m₁.size (hash b) p') = some ci := by
          rw [hsz, hslotb, hcell₁, Function.update_self]
        have := hs' ci hat
        rw [hsz, hslotb, dist_slot hash (by omega) ci (by omega)] at this
        omega
      have hf' : Follows m₁.size hash m₁.cell (hash b) p' := fun q hq => by
        obtain ⟨c, hcq, hcd, -⟩ := hq' q (by omega) (by omega)
        exact ⟨c, hcq, hcd⟩
      have hrest : p' + (oi + e - p') = oi + e := Nat.add_sub_cancel' hbound
      obtain ⟨m', hrun, hins⟩ := ih m₁ b p' (search cmp m₁ b (hash b) oi oi).oiProbeLength
        (oi + e - p') hm₁ hd₁ hs' (fun c hcq => by rw [hoi', hpos', hcq]; rfl)
        (by rw [hrest]; exact hemp₁) (by omega) (by omega)
      have hless : spread m'.size hash m'.cell < spread m.size hash m.cell + (p + e) ^ 2 := by
        have hle := hins.bound
        have hswap := spread_swap hlt (pos_of_ne_zero he0)
        rw [hrest, hsz] at hle
        omega
      refine ⟨m', ?_, hins.shape, hins.entries.trans hperm, hins.size.trans hsz,
        by rw [hins.count, hcnt], fun ho hf => hins.ordered (ho₁ ho hf) hf', hless.le,
        fun _ => hless⟩
      rw [← hrun, hpos', hel']

/-- The loop in an ordered table. -/
theorem shiftPutLoop_spec (hc : LawfulCmp hash cmp) (resize : Hashmap α → Option (Hashmap α))
    (rounds : Nat) (m : Hashmap α) (ci : α) (p oi e : Nat) (hm : Shape hash m)
    (ho : Ordered m.size hash m.cell) (hd : Distinct cmp (ci :: m.entries))
    (hstop : Stop m.size hash m.cell (hash ci) p) (hf : Follows m.size hash m.cell (hash ci) p)
    (hoi : ∀ b, m.cell (slot m.size (hash ci) p) = some b →
      oi = dist m.size hash b (slot m.size (hash ci) p))
    (hemp : m.cell (slot m.size (hash ci) (p + e)) = none) (hpe : p + e < m.size)
    (he : e < rounds) :
    ∃ m', shiftPutLoop cmp resize rounds m ci (hash ci) (slot m.size (hash ci) p) oi none =
      grow resize m' ∧ Added hash ci m m' := by
  obtain ⟨m', hrun, hins⟩ :=
    shiftPutLoop_inserts hc resize rounds m ci p oi e hm hd hstop hoi hemp hpe he
  exact ⟨m', hrun, hins.shape, hins.ordered ho hf, hins.entries, hins.size, hins.count⟩

/-! ### The put -/

/-- What holds of a map between operations: it is a Robin Hood table of elements with distinct
keys, counted, and at most half full. -/
structure Valid (hash : α → Nat) (cmp : α → α → Bool) (m : Hashmap α) : Prop where
  shape : Shape hash m
  ordered : Ordered m.size hash m.cell
  distinct : Distinct cmp m.entries
  count : m.count = m.entries.length
  load : 2 * m.count ≤ m.size

/-- A map at most half full has a free bucket. -/
theorem Valid.exists_free (hv : Valid hash cmp m) : ∃ i < m.size, m.cell i = none := by
  have := hv.shape.pos
  have := hv.load
  refine exists_empty ?_
  have hc := hv.count
  rw [Hashmap.entries] at hc
  omega

/-- A search from home, in a map between operations. -/
theorem Valid.search_spec (hv : Valid hash cmp m) (key : α) :
    ∃ p < m.size, (search cmp m key (hash key) 0 0).pos = slot m.size (hash key) p ∧
      (search cmp m key (hash key) 0 0).probeLength = p ∧
      Follows m.size hash m.cell (hash key) p ∧
      ((∃ a, (search cmp m key (hash key) 0 0).elem = some a ∧
          m.cell (slot m.size (hash key) p) = some a ∧ cmp key a = true ∧
          (search cmp m key (hash key) 0 0).oiProbeLength = 0) ∨
        ((search cmp m key (hash key) 0 0).elem = none ∧ Stop m.size hash m.cell (hash key) p ∧
          (∀ q < p, Passed hash cmp m key (hash key) q) ∧
          (search cmp m key (hash key) 0 0).oiProbeLength = ((m.cell (slot m.size (hash key) p)).map
              (dist m.size hash · (slot m.size (hash key) p))).getD 0 ∧
          ∃ e, p + e < m.size ∧ m.cell (slot m.size (hash key) (p + e)) = none)) := by
  obtain ⟨z, hz, hfree⟩ := hv.exists_free
  obtain ⟨e, he, rfl⟩ := exists_slot (by omega) (hash key) hz
  obtain ⟨⟨p, -, hpos, hpl, hq, hend⟩, hle⟩ := hv.shape.search_spec cmp key (hash key)
    0 0 e he (by rwa [Nat.zero_add])
  rw [hpl, Nat.zero_add] at hle
  have hf : Follows m.size hash m.cell (hash key) p := fun q hqp => by
    obtain ⟨b, hb, hd, -⟩ := hq q (Nat.zero_le q) (by omega)
    exact ⟨b, hb, hd⟩
  refine ⟨p, by omega, hpos, hpl, hf, ?_⟩
  rcases hend with ⟨a, hel, ha, -, hcmp, hoi⟩ | ⟨hel, hs, hoi⟩
  · exact .inl ⟨a, hel, hpos ▸ ha, hcmp, hoi⟩
  refine .inr ⟨hel, hs, fun q hqp => hq q (Nat.zero_le q) hqp, by rw [hoi, hpos], e - p, ?_⟩
  rw [Nat.add_sub_cancel' hle]
  exact ⟨he, hfree⟩

/-- A search that finds nothing has nothing to find. -/
theorem Valid.not_mem_of_search (hc : LawfulCmp hash cmp) (hv : Valid hash cmp m) {key : α}
    {p : Nat} (hs : Stop m.size hash m.cell (hash key) p)
    (hq : ∀ q < p, Passed hash cmp m key (hash key) q) : ∀ a ∈ m.entries, cmp key a = false := by
  intro a ha
  by_contra hcmp
  have hcmp : cmp key a = true := by simpa using hcmp
  obtain ⟨i, hi, hai⟩ := mem_elems.1 ha
  have he := (hc.hash key a hcmp).symm
  have hlt := hv.ordered.not_mem_of_stop (by omega) hs he hi hai
  -- the search passed the element's own bucket
  obtain ⟨b, hb, -, hno⟩ := hq _ hlt
  rw [← he, slot_dist hash (by omega) a hi, hai, some.injEq] at hb
  exact hno (hb ▸ ⟨he, hcmp⟩)

/-- Replacing an element by one with the same hash. -/
theorem Ordered.replace {n : Nat} {T : Nat → Option α} (hT : Ordered n hash T) {i : Nat}
    (hb : T i = some b) (he : hash a = hash b) : Ordered n hash (Function.update T i (some a)) := by
  have hd : ∀ j, dist n hash a j = dist n hash b j := fun j => by
    rw [RobinHood.dist, RobinHood.dist, he]
  -- every slot holds an element displaced as before
  have hup : ∀ j c, Function.update T i (some a) j = some c →
      ∃ c', T j = some c' ∧ dist n hash c j = dist n hash c' j := fun j c hj => by
    by_cases e : j = i
    · subst e
      rw [Function.update_self, some.injEq] at hj
      exact ⟨b, hb, hj ▸ hd j⟩
    · rw [Function.update_of_ne e] at hj
      exact ⟨c, hj, rfl⟩
  intro j hj c hcj hpos
  obtain ⟨c', hc', hcd⟩ := hup _ c hcj
  rw [hcd] at hpos ⊢
  obtain ⟨d, hdj, hle⟩ := hT j hj c' hc' hpos
  by_cases e : j = i
  · subst e
    rw [hb, some.injEq] at hdj
    exact ⟨a, Function.update_self .., by rw [hd, hdj]; exact hle⟩
  · exact ⟨d, by rw [Function.update_of_ne e]; exact hdj, hle⟩

/-- An element of a list, taken to its front. -/
theorem exists_perm_cons {l : List α} (hb : b ∈ l) : ∃ rest, l.Perm (b :: rest) := by
  obtain ⟨s, t, rfl⟩ := append_of_mem hb
  exact ⟨s ++ t, perm_middle⟩

/-- `a` may stand for an element with an equal key. -/
theorem LawfulCmp.distinct_replace (hc : LawfulCmp hash cmp) (h : cmp a b = true) {l : List α}
    (hd : Distinct cmp (b :: l)) : Distinct cmp (a :: l) := by
  obtain ⟨h₁, h₂⟩ := pairwise_cons.1 hd
  refine pairwise_cons.2 ⟨fun c hcl => ?_, h₂⟩
  by_contra hac
  have := hc.trans b a c (hc.symm a b h) (by simpa using hac)
  rw [h₁ c hcl] at this
  cases this

/-- **A put**, with whatever resize it is given: an equal element is replaced and returned;
otherwise the entry is added, and the table grown. -/
theorem Valid.putWith_spec (hc : LawfulCmp hash cmp) (hv : Valid hash cmp m)
    (resize : Hashmap α → Option (Hashmap α)) (a : α) :
    (∃ b rest, m.entries.Perm (b :: rest) ∧ cmp a b = true ∧
      ∃ m', putWith cmp resize m a (hash a) = some (m', some b) ∧ Valid hash cmp m' ∧
        m'.entries.Perm (a :: rest)) ∨
    ((∀ b ∈ m.entries, cmp a b = false) ∧ ∃ m',
      putWith cmp resize m a (hash a) = (grow resize m').map (·, none) ∧ Added hash a m m') := by
  have hn := hv.shape.pos
  have hsize : ¬ m.size = 0 := by omega
  obtain ⟨p, hp, hpos, hpl, hf, ⟨b, hel, hb, hcmp, hoi⟩ | ⟨hel, hs, hq, hoi, e, he, hfree⟩⟩ :=
    hv.search_spec a
  · have hi : slot m.size (hash a) p < m.size := slot_lt (by omega) _ _
    have hu := (hv.shape.bucket_of_cell hb).1
    have hmem : b ∈ m.entries := mem_elems.2 ⟨_, hi, hb⟩
    obtain ⟨rest, hrest⟩ := exists_perm_cons hmem
    have hperm : (m.setBucket (slot m.size (hash a) p) ⟨some a, hash a⟩).entries.Perm
        (a :: rest) := by
      refine List.Perm.cons_inv (a := b) ?_
      exact (hv.shape.entries_setBucket hi hb a).trans ((hrest.cons a).trans (.swap ..))
    refine .inl ⟨b, rest, hrest, hcmp, m.setBucket (slot m.size (hash a) p) ⟨some a, hash a⟩,
      ?_, ⟨hv.shape.setBucket hi a, ?_, ?_, ?_, hv.load⟩, hperm⟩
    · rw [putWith, if_neg hsize]
      simp only [shiftPut, hpl, hoi, hel, hpos]
      rw [if_pos (by omega), shiftPutLoop, if_neg (not_not.2 hi), if_neg (by simp)]
      rfl
    · show Ordered m.size hash _
      rw [cell_setBucket (hv.shape.buckets ▸ hi) hu]
      exact Ordered.replace hv.ordered hb (hc.hash a b hcmp)
    · rw [hc.distinct_perm hperm]
      exact hc.distinct_replace hcmp ((hc.distinct_perm hrest).1 hv.distinct)
    · show m.count = _
      rw [hv.count, hrest.length_eq, hperm.length_eq, length_cons, length_cons]
  have hd := hv.not_mem_of_search hc hs hq
  have hoi' : ∀ b, m.cell (slot m.size (hash a) p) = some b →
      (search cmp m a (hash a) 0 0).oiProbeLength =
        dist m.size hash b (slot m.size (hash a) p) := fun b hb => by rw [hoi, hb]; rfl
  obtain ⟨m', hrun, hadd⟩ := shiftPutLoop_spec hc resize (m.size + 1) m a p _ e hv.shape
    hv.ordered (pairwise_cons.2 ⟨hd, hv.distinct⟩) hs hf hoi' hfree he (by omega)
  have hassert : p > (search cmp m a (hash a) 0 0).oiProbeLength ∨
      (p = (search cmp m a (hash a) 0 0).oiProbeLength ∧ p = 0) := by
    cases hcell : m.cell (slot m.size (hash a) p) with
    | none => rw [hoi, hcell, map_none, getD_none]; omega
    | some b => rw [hoi' b hcell]; exact .inl (hs b hcell)
  refine .inr ⟨hd, m', ?_, hadd⟩
  rw [putWith, if_neg hsize, ← hrun]
  simp only [shiftPut, hpl, hel, hpos, if_pos hassert]

/-! ### Scanning -/

theorem ffs_eq_zero {x : BitVec 64} (h : ffs x = 0) (j : Nat) : x.getLsbD j = false := by
  rw [ffs] at h
  split at h
  · cases h
  rename_i hf
  by_cases hj : j < 64
  · simpa using find?_eq_none.1 hf j (mem_range.2 hj)
  · exact BitVec.getLsbD_of_ge x j (not_lt.1 hj)

theorem ffs_ne_zero {x : BitVec 64} (h : ffs x ≠ 0) :
    ffs x - 1 < 64 ∧ x.getLsbD (ffs x - 1) = true ∧ ∀ j < ffs x - 1, x.getLsbD j = false := by
  rw [ffs] at h ⊢
  split
  · rename_i i hf
    rw [Nat.add_sub_cancel]
    have hmem := mem_range.1 (mem_of_find?_eq_some hf)
    refine ⟨hmem, by simpa using find?_some hf, fun j hj => ?_⟩
    obtain ⟨_, as, bs, hsplit, has⟩ := find?_eq_some_iff_append.1 hf
    have hlen : as.length = i := by
      have hget := congrArg (fun l => l[as.length]?) hsplit
      simp only [getElem?_append_right (le_refl _), Nat.sub_self, getElem?_cons_zero]
        at hget
      rw [getElem?_eq_some_iff] at hget
      obtain ⟨hl, hv⟩ := hget
      rwa [getElem_range] at hv
    have hj' : j ∈ as := by
      have hget := congrArg (fun l => l[j]?) hsplit
      simp only [getElem?_append_left (show j < as.length by omega)] at hget
      rw [getElem?_range (by omega)] at hget
      exact mem_of_getElem? hget.symm
    simpa using has j hj'
  · rename_i hf
    rw [hf] at h
    exact absurd rfl h

/-- **The scan** from bucket `start` returns the first bucket in use there or after. -/
theorem nextLoop_spec (w : Bitmap.Words) (size : Nat) (hlt : ∀ k, Bitmap.mem w k = true → k < size) :
    ∀ (rounds start : Nat), size < start + rounds →
      (∀ i, nextLoop w size rounds start = some i →
        start ≤ i ∧ Bitmap.mem w i = true ∧ ∀ k, start ≤ k → k < i → Bitmap.mem w k = false) ∧
      (nextLoop w size rounds start = none → ∀ k, start ≤ k → Bitmap.mem w k = false) := by
  intro rounds
  induction rounds with
  | zero =>
    intro start h
    refine ⟨fun i hi => (by cases hi), fun _ k hk => ?_⟩
    by_contra hm
    have := hlt k (by simpa using hm)
    omega
  | succ rounds ih =>
    intro start h
    rw [nextLoop]
    by_cases hs : start < size
    · rw [if_pos hs]
      -- the bits of the word from `start` on are those of the shifted word
      have hbit : ∀ k, start ≤ k → k < start + (64 - start % 64) → (Bitmap.mem w k = true ↔
          (Bitmap.word w (start / 64) >>> (start % 64)).getLsbD (k - start) = true) :=
        fun k h₁ h₂ => by
          have hd : k / 64 = start / 64 := by omega
          have hm : start % 64 + (k - start) = k % 64 := by omega
          rw [Bitmap.mem_iff, BitVec.getLsbD_ushiftRight, hd, hm]
      by_cases hf : ffs (Bitmap.word w (start / 64) >>> (start % 64)) = 0
      · rw [if_pos hf]
        have hskip : ∀ k, start ≤ k → k < start + (64 - start % 64) → Bitmap.mem w k = false :=
          fun k h₁ h₂ => by
            rw [← not_eq_true, hbit k h₁ h₂, ffs_eq_zero hf]
            exact false_ne_true
        obtain ⟨h₁, h₂⟩ := ih (start + (64 - start % 64)) (by omega)
        refine ⟨fun i hi => ?_, fun hnone k hk => ?_⟩
        · obtain ⟨hle, hmem, hno⟩ := h₁ i hi
          refine ⟨by omega, hmem, fun k hk hki => ?_⟩
          by_cases hk' : k < start + (64 - start % 64)
          · exact hskip k hk hk'
          · exact hno k (by omega) hki
        · by_cases hk' : k < start + (64 - start % 64)
          · exact hskip k hk hk'
          · exact h₂ hnone k (by omega)
      rw [if_neg hf]
      obtain ⟨hlt64, hset, hfirst⟩ := ffs_ne_zero hf
      -- a set bit of the shifted word lies in the word
      have hin : ffs (Bitmap.word w (start / 64) >>> (start % 64)) - 1 < 64 - start % 64 := by
        by_contra hge
        rw [BitVec.getLsbD_ushiftRight, BitVec.getLsbD_of_ge _ _ (by omega)] at hset
        cases hset
      refine ⟨fun i hi => ?_, fun hnone => by cases hnone⟩
      cases hi
      refine ⟨by omega, ?_, fun k hk hki => ?_⟩
      · rw [hbit _ (by omega) (by omega), Nat.add_sub_cancel_left]
        exact hset
      · rw [← not_eq_true, hbit k hk (by omega), hfirst _ (by omega)]
        exact false_ne_true
    rw [if_neg hs]
    refine ⟨fun i hi => (by cases hi), fun _ k hk => ?_⟩
    by_contra hm
    have := hlt k (by simpa using hm)
    omega

/-! ### The resize -/

theorem bitmapSize_le (n : Nat) : n ≤ 64 * bitmapSize n := by
  have h₁ : n >>> 6 = n / 64 := shiftRight_eq_div_pow n 6
  have h₂ : n &&& 63 = n % 64 := and_two_pow_sub_one_eq_mod n 6
  rw [bitmapSize, h₁, h₂]
  split <;> omega

theorem inUse_allocTable (n i : Nat) : (allocTable n : Hashmap α).inUse i = false :=
  Bitmap.mem_replicate _ _

theorem entries_allocTable (n : Nat) : (allocTable n : Hashmap α).entries = [] := by
  rw [eq_nil_iff_forall_not_mem]
  intro a ha
  obtain ⟨i, -, hi⟩ := mem_elems.1 ha
  rw [cell_eq_none_of_not_inUse (inUse_allocTable n i)] at hi
  cases hi

/-- A new table is a valid map. -/
theorem valid_allocTable {n : Nat} (hp : ∃ k, n = 2 ^ k) (hn : minHashmapSize ≤ n) :
    Valid hash cmp (allocTable n) := by
  have hu : ∀ i, ¬ (allocTable n : Hashmap α).inUse i = true := fun i => by
    rw [inUse_allocTable]; exact false_ne_true
  refine ⟨⟨hp, hn, by simp [allocTable], by simpa [allocTable] using bitmapSize_le n,
    fun i hi => absurd hi (hu i), fun i hi => absurd hi (hu i)⟩, ?_, ?_, ?_, zero_le _⟩
  · intro i _ a ha
    rw [cell_eq_none_of_not_inUse (inUse_allocTable n _)] at ha
    cases ha
  · rw [entries_allocTable]; exact List.Pairwise.nil
  · rw [entries_allocTable]; rfl

/-- A map that `Added` gives, not past half full, is valid. -/
theorem Added.valid (hc : LawfulCmp hash cmp) {m' : Hashmap α} (hv : Valid hash cmp m)
    (hd : ∀ b ∈ m.entries, cmp a b = false) (h : Added hash a m m') (hl : 2 * m'.count ≤ m'.size) :
    Valid hash cmp m' := by
  refine ⟨h.shape, h.ordered, ?_, ?_, hl⟩
  · rw [hc.distinct_perm h.entries]
    exact pairwise_cons.2 ⟨hd, hv.distinct⟩
  · rw [h.count, hv.count, h.entries.length_eq, length_cons]

/-- **The loop of `resize`.**  The buckets before `start` are in the new table, which has room
for all of them and is never itself resized. -/
theorem resizeLoop_spec (hc : LawfulCmp hash cmp) {old : Hashmap α} (hold : Shape hash old)
    (hdist : Distinct cmp old.entries) (hcount : old.count = old.entries.length) :
    ∀ (rounds start : Nat) (m : Hashmap α), old.size < start + rounds → start ≤ old.size →
      Valid hash cmp m → m.entries.Perm (elems start old.cell) → 2 * old.count ≤ m.size →
      ∃ r, resizeLoop (putWith cmp noResize) old rounds start m = some r ∧ Valid hash cmp r ∧
        r.entries.Perm old.entries := by
  intro rounds
  induction rounds with
  | zero => intro start m h₁ h₂; omega
  | succ rounds ih =>
    intro start m hr hstart hv hperm hroom
    -- every bucket from `start` on that is not in use adds nothing
    have hskip : ∀ k, start ≤ k → k ≤ old.size →
        (∀ i, start ≤ i → i < k → old.inUse i = false) → elems k old.cell = elems start old.cell :=
      fun k h₁ _ hno => elems_extend h₁ fun i hi hik => cell_eq_none_of_not_inUse (hno i hi hik)
    have hdone : (∀ i, start ≤ i → old.inUse i = false) → m.entries.Perm old.entries :=
      fun hno => by
        have : old.entries = elems start old.cell :=
          hskip old.size hstart (le_refl _) fun i hi _ => hno i hi
        exact this ▸ hperm
    rw [resizeLoop, next]
    by_cases h0 : old.count = 0
    · rw [if_pos h0]
      refine ⟨m, rfl, hv, hdone fun i _ => ?_⟩
      by_contra hu
      obtain ⟨a, ha, -⟩ := hold.cell_eq (by simpa using hu)
      have hmem : a ∈ old.entries :=
        mem_elems.2 ⟨i, hold.lt i (by simpa using hu), ha⟩
      rw [eq_nil_of_length_eq_zero (hcount.symm.trans h0)] at hmem
      cases hmem
    rw [if_neg h0]
    obtain ⟨hsome, hnone⟩ := nextLoop_spec old.itemBitmap old.size hold.lt (old.size + 1) start
      (by omega)
    cases hnext : nextLoop old.itemBitmap old.size (old.size + 1) start with
    | none => exact ⟨m, rfl, hv, hdone (hnone hnext)⟩
    | some i =>
      obtain ⟨hle, hu, hno⟩ := hsome i hnext
      have hi := hold.lt i hu
      obtain ⟨a, ha, hbk⟩ := hold.cell_eq hu
      simp only [hbk]
      have hpre : elems (i + 1) old.cell = elems start old.cell ++ [a] := by
        rw [elems_succ, hskip i hle hi.le hno, ha]; rfl
      have hsub : (elems (i + 1) old.cell).Sublist old.entries :=
        (range_sublist.2 hi).filterMap _
      have hd : Distinct cmp (elems start old.cell ++ [a]) := hpre ▸ hdist.sublist hsub
      have hfresh : ∀ b ∈ m.entries, cmp a b = false := fun b hb =>
        hc.symm_false ((pairwise_append.1 hd).2.2 b (hperm.mem_iff.1 hb) a (mem_singleton_self a))
      rcases hv.putWith_spec hc noResize a with
        ⟨b, rest, hrest, hcmp, -⟩ | ⟨-, m', hput, hadd⟩
      · rw [hfresh b (hrest.mem_iff.2 (.head _))] at hcmp; cases hcmp
      -- the new table has room, so that this put does not resize
      have hcnt : m'.count ≤ old.count := by
        rw [hadd.count, hv.count, hperm.length_eq, hcount]
        have := hsub.length_le
        rw [hpre, length_append] at this
        exact this
      have hl : 2 * m'.count ≤ m'.size := by rw [hadd.size]; omega
      have hgrow : grow noResize m' = some m' := by
        rw [grow, if_neg]
        rw [shiftLeft_eq]
        omega
      rw [hgrow, map_some] at hput
      obtain ⟨r, hrun, hvr, hpr⟩ := ih (i + 1) m' (by omega) hi (hadd.valid hc hv hfresh hl)
        (by
          rw [hpre]
          exact hadd.entries.trans ((hperm.cons a).trans (perm_append_singleton ..).symm))
        (by rw [hadd.size]; exact hroom)
      exact ⟨r, by rw [hput]; exact hrun, hvr, hpr⟩

/-- **A resize** succeeds without another one inside it, and keeps the entries. -/
theorem resize_spec (hc : LawfulCmp hash cmp) (hm : Shape hash m)
    (hdist : Distinct cmp m.entries) (hcount : m.count = m.entries.length) :
    ∃ r, resize cmp m = some r ∧ Valid hash cmp r ∧ r.entries.Perm m.entries := by
  have hge := hm.ge
  have hlen : m.entries.length ≤ m.size := length_elems_le _ _
  obtain ⟨k, hk⟩ := hm.pow
  have hs : (if m.size < minHashmapSize then minHashmapSize else m.size <<< 3) = 8 * m.size := by
    rw [if_neg (by omega), shiftLeft_eq]; omega
  have hnew : Valid hash cmp (allocTable (8 * m.size)) :=
    valid_allocTable ⟨k + 3, by rw [hk, pow_add]; omega⟩ (by omega)
  obtain ⟨r, hr, hv, hp⟩ := resizeLoop_spec hc hm hdist hcount (m.size + 1) 0
    (allocTable (8 * m.size)) (by omega) (zero_le _) hnew
    (by rw [entries_allocTable]; exact List.Perm.refl _)
    (by show 2 * m.count ≤ 8 * m.size; omega)
  refine ⟨r, ?_, hv, hp⟩
  rw [resize, hs, hr]
  have hcnt : r.count = m.count := by rw [hv.count, hcount, hp.length_eq]
  simp [hcnt]

/-- Growing after an addition. -/
theorem Added.grow_spec (hc : LawfulCmp hash cmp) {m' : Hashmap α} (hv : Valid hash cmp m)
    (hd : ∀ b ∈ m.entries, cmp a b = false) (h : Added hash a m m') :
    ∃ r, grow (resize cmp) m' = some r ∧ Valid hash cmp r ∧ r.entries.Perm (a :: m.entries) := by
  rw [grow]
  by_cases hl : m'.count <<< 1 > m'.size
  · rw [if_pos hl]
    have hd' : Distinct cmp m'.entries := by
      rw [hc.distinct_perm h.entries]
      exact pairwise_cons.2 ⟨hd, hv.distinct⟩
    have hcnt : m'.count = m'.entries.length := by
      rw [h.count, hv.count, h.entries.length_eq, length_cons]
    obtain ⟨r, hr, hvr, hp⟩ := resize_spec hc h.shape hd' hcnt
    exact ⟨r, hr, hvr, hp.trans h.entries⟩
  · rw [if_neg hl]
    rw [shiftLeft_eq] at hl
    exact ⟨m', rfl, h.valid hc hv hd (by omega), h.entries⟩

end SpacePony.Hash
