import SpacePony.Packages.Collections.Sort

/-!
# Packages — collections — Sort sorts

`sort_ends` is about one run of `_sort`; from it, `Sort` is correct (`PonySort.sorts`).
-/

namespace SpacePony.Collections

open BitVec Option Raise Rearrange

variable {w : ℕ} {B : Type} {c : Comparable B}

/-! ### Signed positions -/

section
variable {x y : BitVec w} {n : ℤ}

theorem toNat_of_nonneg (h : 0 ≤ x.toInt) : x.toNat = x.toInt.toNat := by
  rw [toInt_eq_toNat_cond] at h ⊢
  split_ifs at h ⊢ <;> omega

theorem two_pow_eq (hw : 0 < w) : (2 : ℤ) ^ w = 2 * 2 ^ (w - 1) := by
  rw [← pow_succ', Nat.sub_add_cancel hw]

theorem toInt_add_one (h : x.toInt < y.toInt) : (x + 1).toInt = x.toInt + 1 := by
  have hle := x.le_toInt
  have hlt := y.toInt_lt
  have hw : 0 < w := by
    rcases Nat.eq_zero_or_pos w with rfl | hw
    · rw [eq_nil x, eq_nil y] at h
      exact absurd h (lt_irrefl _)
    · exact hw
  have hpow := two_pow_eq hw
  rw [toInt_add, toInt_ofNat, Int.add_bmod_bmod]
  refine Int.bmod_eq_of_le_mul_two ?_ ?_ <;> push_cast <;> omega

theorem toInt_sub_one (hw : 0 < w) (h : 0 ≤ x.toInt) : (x - 1).toInt = x.toInt - 1 := by
  have hlt := x.toInt_lt
  have hpos : (0 : ℤ) < 2 ^ (w - 1) := by exact_mod_cast Nat.two_pow_pos (w - 1)
  have hpow := two_pow_eq hw
  rw [toInt_sub, toInt_ofNat, Int.sub_bmod_bmod]
  refine Int.bmod_eq_of_le_mul_two ?_ ?_ <;> push_cast <;> omega

theorem width_pos (h : 0 < x.toInt) : 0 < w := by
  rcases Nat.eq_zero_or_pos w with rfl | hw
  · rw [eq_nil x] at h
    simp at h
  · exact hw

theorem toInt_size (s : Sequence w B) : s.size.toInt = s.items.length := by
  have hfits : (s.items.length : ℤ) < 2 ^ (w - 1) := by exact_mod_cast s.fits
  rw [Sequence.size, toInt_ofNat']
  rcases Nat.eq_zero_or_pos w with rfl | hw
  · have : s.items.length = 0 := by simpa using s.fits
    simp [this]
  · have hpow := two_pow_eq hw
    refine Int.bmod_eq_of_le_mul_two ?_ ?_ <;> push_cast <;> omega

end

/-! ### What a method may touch -/

/-- From `s` to `s'` only positions of `S` are asked for, and only their elements change places. -/
structure Within (S : Set ℕ) (s s' : Sequence w B) : Prop where
  moved : Rearranged S s.items s'.items
  asked : ∃ new, s'.indexed = s.indexed ++ new ∧ ∀ i ∈ new, i ∈ S

namespace Within

variable {S T : Set ℕ} {s s' s'' : Sequence w B}

theorem refl (S : Set ℕ) (s : Sequence w B) : Within S s s :=
  ⟨.refl S s.items, [], by simp, by simp⟩

theorem trans (h : Within S s s') (h' : Within S s' s'') : Within S s s'' := by
  obtain ⟨new, he, hnew⟩ := h.asked
  obtain ⟨new', he', hnew'⟩ := h'.asked
  refine ⟨h.moved.trans h'.moved, new ++ new', by rw [he', he, List.append_assoc], ?_⟩
  intro i hi
  exact (List.mem_append.1 hi).elim (hnew i) (hnew' i)

theorem mono (h : Within S s s') (hST : S ⊆ T) : Within T s s' := by
  obtain ⟨new, he, hnew⟩ := h.asked
  exact ⟨h.moved.mono hST, new, he, fun i hi => hST (hnew i hi)⟩

theorem length (h : Within S s s') : s'.items.length = s.items.length := h.moved.length

theorem index {i : ℕ} (hi : i ∈ S) : Within S s (s.index i) :=
  ⟨.refl S s.items, [i], rfl, by simpa using hi⟩

end Within

variable {Q : B → Sequence w B → Prop}

section
variable {S : Set ℕ} {s : Sequence w B} {i j : BitVec w} {E : Stop → Sequence w B → Prop}

theorem ends_apply {x : B} (hx : s.items[i.toNat]? = some x) (hi : i.toNat ∈ S)
    (hQ : ∀ s', s'.items = s.items → Within S s s' → Q x s') : Ends (Sequence.apply i) Q E s := by
  refine ends_bind (ends_modify (ends_bind (ends_get ?_)))
  rw [show (s.index i.toNat).items[i.toNat]? = some x from hx]
  exact ends_pure (hQ _ rfl (.index hi))

theorem ends_update {x v : B} (hx : s.items[i.toNat]? = some x)
    (hQ : Q x ((s.index i.toNat).put i.toNat v)) : Ends (Sequence.update i v) Q E s := by
  refine ends_bind (ends_modify (ends_bind (ends_get ?_)))
  rw [show (s.index i.toNat).items[i.toNat]? = some x from hx]
  exact ends_bind (ends_modify (ends_pure hQ))

theorem ends_swap {Q : Unit → Sequence w B → Prop} (hi : i.toNat < s.items.length)
    (hj : j.toNat < s.items.length) (hiS : i.toNat ∈ S) (hjS : j.toNat ∈ S)
    (hQ : ∀ s', s'.items = exchange s.items i.toNat j.toNat → Within S s s' → Q () s') :
    Ends (PonySort.swap i j) Q E s := by
  obtain ⟨x, hx⟩ : ∃ x, s.items[i.toNat]? = some x := ⟨_, List.getElem?_eq_getElem hi⟩
  obtain ⟨y, hy⟩ : ∃ y, s.items[j.toNat]? = some y := ⟨_, List.getElem?_eq_getElem hj⟩
  have hxy : exchange s.items i.toNat j.toNat = (s.items.set i.toNat y).set j.toNat x := by
    simp only [exchange, hx, hy]
  refine ends_bind (ends_apply hy hjS fun s₁ he₁ hw₁ => ?_)
  refine ends_bind (ends_update (by rw [he₁]; exact hx) ?_)
  obtain ⟨new, hnew, hin⟩ := hw₁.asked
  have hset : ((s₁.index i.toNat).put i.toNat y).items = s.items.set i.toNat y := by
    rw [← he₁]
    rfl
  have hz : (s.items.set i.toNat y)[j.toNat]? = some y := by
    rw [List.getElem?_set]
    split_ifs with h
    · rfl
    · exact hy
  have hend : ((((s₁.index i.toNat).put i.toNat y).index j.toNat).put j.toNat x).items =
      exchange s.items i.toNat j.toNat := by
    rw [hxy, ← hset]
    rfl
  refine ends_bind (ends_update (by rw [hset]; exact hz) (ends_pure (hQ _ hend ⟨?_, ?_⟩)))
  · rw [hend]
    exact .exchange hiS hjS hi hj
  refine ⟨new ++ [i.toNat] ++ [j.toNat], ?_, ?_⟩
  · simp only [Sequence.index, Sequence.put, hnew, List.append_assoc]
  simp only [List.mem_append, List.mem_singleton]
  rintro k ((hk | rfl) | rfl)
  exacts [hin k hk, hiS, hjS]

end

/-! ### The partition -/

/-- The elements before `l` are less than `p`, those from `l` to `k` are between the pivots, those
after `g` are not less than `q`, and the pivots are at the ends. -/
structure Parts (c : Comparable B) (p q : B) (lo hi l g k : ℤ) (xs : List B) : Prop where
  lo_nonneg : 0 ≤ lo
  lo_lt : lo < l
  l_le_k : l ≤ k
  l_le_g : l ≤ g + 1
  k_le : k ≤ g + 2
  g_lt : g < hi
  hi_lt : hi < xs.length
  atLo : xs[lo.toNat]? = some p
  atHi : xs[hi.toNat]? = some q
  left : On (span (lo + 1) (l - 1)) (fun x => c.lt x p) xs
  mid : On (span l (min (k - 1) g)) (fun x => c.le p x ∧ c.le x q) xs
  right : On (span (g + 1) (hi - 1)) (fun x => c.le q x) xs

namespace Parts

variable {p q x : B} {lo hi l g k : ℤ} {xs : List B}

section
variable (h : Parts c p q lo hi l g k xs)
include h

/-- The element at `k` is between the pivots. -/
theorem stay (hk : k ≤ g) (hx : xs[k.toNat]? = some x)
    (hpx : c.le p x) (hxq : c.le x q) : Parts c p q lo hi l g (k + 1) xs where
  __ := h
  l_le_k := by have := h.l_le_k; omega
  k_le := by omega
  mid := by
    rintro i ⟨hli, hig⟩ y hy
    rcases eq_or_ne (i : ℤ) k with he | hne
    · obtain rfl : i = k.toNat := by omega
      rw [hx, some.injEq] at hy
      exact hy ▸ ⟨hpx, hxq⟩
    · exact h.mid i ⟨hli, by omega⟩ y hy

/-- The element at `k` is less than `p`, and goes to the end of the left part. -/
theorem toLeft (hk : k ≤ g) (hx : xs[k.toNat]? = some x)
    (hxp : c.lt x p) : Parts c p q lo hi (l + 1) g (k + 1) (exchange xs k.toNat l.toNat) := by
  obtain ⟨h0, hlo, hlk, -, -, hg, hhi, hatLo, hatHi, hleft, hmid, hright⟩ := h
  have hkn : k.toNat < xs.length := by omega
  have hln : l.toNat < xs.length := by omega
  have hx' : ∀ y, xs[k.toNat]? = some y → c.lt y p := by
    intro y hy
    rw [hx, some.injEq] at hy
    exact hy ▸ hxp
  refine ⟨h0, by omega, by omega, by omega, by omega, hg, by simpa using hhi, ?_, ?_, ?_, ?_, ?_⟩
  · rwa [getElem?_exchange_of_ne hkn hln (by omega) (by omega)]
  · rwa [getElem?_exchange_of_ne hkn hln (by omega) (by omega)]
  · refine on_exchange hkn hln ?_ ?_ fun _ => hx'
    · rintro i ⟨h₁, h₂⟩ - hil
      exact hleft i ⟨h₁, by omega⟩
    rintro ⟨-, h₂⟩
    rw [show l.toNat = k.toNat by omega]
    exact hx'
  · refine on_exchange hkn hln ?_ ?_ ?_
    · rintro i ⟨h₁, h₂⟩ hik -
      exact hmid i ⟨by omega, by omega⟩
    · rintro ⟨h₁, -⟩
      exact hmid l.toNat ⟨by omega, by omega⟩
    · rintro ⟨h₁, -⟩
      omega
  · refine on_exchange hkn hln (fun i hi _ _ => hright i hi) ?_ ?_ <;>
    · rintro ⟨h₁, -⟩
      omega

/-- The element at `k` is not less than `q`, and goes to the right part. -/
theorem toRight (hk : k < g) (hx : xs[k.toNat]? = some x)
    (hqx : c.le q x) : Parts c p q lo hi l (g - 1) k (exchange xs k.toNat g.toNat) := by
  obtain ⟨h0, hlo, hlk, -, -, hg, hhi, hatLo, hatHi, hleft, hmid, hright⟩ := h
  have hkn : k.toNat < xs.length := by omega
  have hgn : g.toNat < xs.length := by omega
  refine ⟨h0, hlo, hlk, by omega, by omega, by omega, by simpa using hhi, ?_, ?_, ?_, ?_, ?_⟩
  · rwa [getElem?_exchange_of_ne hkn hgn (by omega) (by omega)]
  · rwa [getElem?_exchange_of_ne hkn hgn (by omega) (by omega)]
  · refine on_exchange hkn hgn (fun i hi _ _ => hleft i hi) ?_ ?_ <;>
    · rintro ⟨-, h₂⟩
      omega
  · refine on_exchange hkn hgn (fun i hi _ _ => hmid i ⟨hi.1, ?_⟩) ?_ ?_
    · have := hi.2
      omega
    all_goals
      rintro ⟨-, h₂⟩
      omega
  refine on_exchange hkn hgn ?_ ?_ ?_
  · rintro i ⟨h₁, h₂⟩ - hig
    exact hright i ⟨by omega, h₂⟩
  · rintro ⟨h₁, -⟩
    omega
  · intro _ y hy
    rw [hx, some.injEq] at hy
    exact hy ▸ hqx

/-- The element at `g` is not less than `q`, and is in the right part; if it is the one at `k`, no
other is left. -/
theorem skip {k' : ℤ} (hk : k < g ∧ k' = k ∨ k = g ∧ k' = k + 1) (hx : xs[g.toNat]? = some x)
    (hqx : c.le q x) : Parts c p q lo hi l (g - 1) k' xs where
  __ := h
  l_le_k := by have := h.l_le_k; omega
  l_le_g := by have := h.l_le_k; omega
  k_le := by omega
  g_lt := by have := h.g_lt; omega
  mid := by
    rintro i ⟨h₁, h₂⟩
    exact h.mid i ⟨h₁, by omega⟩
  right := by
    rintro i ⟨h₁, h₂⟩ y hy
    rcases eq_or_ne (i : ℤ) g with he | hne
    · obtain rfl : i = g.toNat := by omega
      rw [hx, some.injEq] at hy
      exact hy ▸ hqx
    · exact h.right i ⟨by omega, h₂⟩ y hy

end

end Parts

/-- The pivots are in their places, `l` and `g`, and what is before, between and after them too. -/
structure Cut (c : Comparable B) (p q : B) (lo hi l g : ℤ) (xs : List B) : Prop where
  lo_nonneg : 0 ≤ lo
  lo_le : lo ≤ l
  l_lt : l < g
  g_le : g ≤ hi
  hi_lt : hi < xs.length
  atL : xs[l.toNat]? = some p
  atG : xs[g.toNat]? = some q
  left : On (span lo (l - 1)) (fun x => c.le x p) xs
  mid : On (span (l + 1) (g - 1)) (fun x => c.le p x ∧ c.le x q) xs
  right : On (span (g + 1) hi) (fun x => c.le q x) xs

/-- **The loop is over**: the pivots change places with the ends of their parts. -/
theorem Parts.cut {p q : B} {lo hi l g k : ℤ} {xs : List B} (hc : c.Preordered)
    (h : Parts c p q lo hi l g k xs) (hk : g < k) : Cut c p q lo hi (l - 1) (g + 1)
      (exchange (exchange xs lo.toNat (l - 1).toNat) hi.toNat (g + 1).toNat) := by
  obtain ⟨h0, hlo, hlk, hlg, -, hg, hhi, hatLo, hatHi, hleft, hmid, hright⟩ := h
  have hlon : lo.toNat < xs.length := by omega
  have hln : (l - 1).toNat < xs.length := by omega
  have hlen : (exchange xs lo.toNat (l - 1).toNat).length = xs.length := length_exchange
  have hhin : hi.toNat < (exchange xs lo.toNat (l - 1).toNat).length := by omega
  have hgn : (g + 1).toNat < (exchange xs lo.toNat (l - 1).toNat).length := by omega
  have hatHi' : (exchange xs lo.toNat (l - 1).toNat)[hi.toNat]? = some q := by
    rwa [getElem?_exchange_of_ne hlon hln (by omega) (by omega)]
  refine ⟨h0, by omega, by omega, by omega, by simpa using hhi, ?_, ?_, ?_, ?_, ?_⟩
  · rwa [getElem?_exchange_of_ne hhin hgn (by omega) (by omega), getElem?_exchange_right hlon hln]
  · rwa [getElem?_exchange_right hhin hgn]
  · refine on_exchange hhin hgn (fun i hi _ _ => ?_) ?_ ?_
    · refine on_exchange (S := span lo (l - 1 - 1)) hlon hln ?_ ?_ ?_ i hi
      · rintro j ⟨h₁, h₂⟩ hj - x hx
        exact hc.le_of_lt (hleft j ⟨by omega, by omega⟩ x hx)
      · rintro ⟨-, h₂⟩ x hx
        exact hc.le_of_lt (hleft _ ⟨by omega, by omega⟩ x hx)
      · rintro ⟨-, h₂⟩
        omega
    all_goals
      rintro ⟨-, h₂⟩
      omega
  · refine on_exchange hhin hgn (fun i hi _ _ => ?_) ?_ ?_
    · refine on_exchange (S := span (l - 1 + 1) (g + 1 - 1)) hlon hln ?_ ?_ ?_ i hi
      · rintro j ⟨h₁, h₂⟩ - -
        exact hmid j ⟨by omega, by omega⟩
      all_goals
        rintro ⟨h₁, -⟩
        omega
    all_goals
      rintro ⟨-, h₂⟩
      omega
  · refine on_exchange hhin hgn (fun i hi hne _ => ?_) ?_ ?_
    · obtain ⟨h₁, h₂⟩ := hi
      rw [getElem?_exchange_of_ne hlon hln (by omega) (by omega)]
      exact hright i ⟨by omega, by omega⟩
    · rintro ⟨h₁, -⟩
      rw [getElem?_exchange_of_ne hlon hln (by omega) (by omega)]
      exact hright _ ⟨by omega, by omega⟩
    · rintro ⟨h₁, -⟩
      omega

namespace Cut

variable {p q : B} {lo hi l g : ℤ} {xs ys : List B}

/-- A rearrangement of one of the three parts keeps the cut. -/
theorem moved {S : Set ℕ} (h : Cut c p q lo hi l g xs) (hm : Rearranged S xs ys)
    (hS : S = span lo (l - 1) ∨ S = span (l + 1) (g - 1) ∨ S = span (g + 1) hi) :
    Cut c p q lo hi l g ys := by
  obtain ⟨h0, hlo, hlg, hghi, hhi, hatL, hatG, hleft, hmid, hright⟩ := h
  have hkeep : ∀ i : ℕ, ((i : ℤ) = l ∨ (i : ℤ) = g) → ys[i]? = xs[i]? := by
    intro i hi
    refine hm.outside ?_
    rcases hS with rfl | rfl | rfl <;> rw [mem_span] <;> omega
  refine ⟨h0, hlo, hlg, hghi, by rwa [hm.length], ?_, ?_, ?_, ?_, ?_⟩
  · rwa [hkeep _ (by omega)]
  · rwa [hkeep _ (by omega)]
  · rcases hS with rfl | rfl | rfl
    · exact hm.on hleft
    all_goals exact hm.on_of_disjoint (span_disjoint (by omega)) hleft
  · rcases hS with rfl | rfl | rfl
    · exact hm.on_of_disjoint (span_disjoint (by omega)) hmid
    · exact hm.on hmid
    · exact hm.on_of_disjoint (span_disjoint (by omega)) hmid
  rcases hS with rfl | rfl | rfl
  · exact hm.on_of_disjoint (span_disjoint (by omega)) hright
  · exact hm.on_of_disjoint (span_disjoint (by omega)) hright
  · exact hm.on hright

/-- The three parts are sorted, and so is the whole. -/
theorem sorted (hc : c.Preordered) (hpq : c.le p q) (h : Cut c p q lo hi l g xs)
    (hl : SortedOn (c.le · ·) (span lo (l - 1)) xs)
    (hm : SortedOn (c.le · ·) (span (l + 1) (g - 1)) xs)
    (hg : SortedOn (c.le · ·) (span (g + 1) hi) xs) : SortedOn (c.le · ·) (span lo hi) xs := by
  obtain ⟨h0, hlo, hlg, hghi, hhi, hatL, hatG, hleft, hmid, hright⟩ := h
  have htrans : ∀ x y z, c.le x y → c.le y z → c.le x z := hc.le_trans
  have single : ∀ i : ℕ, SortedOn (c.le · ·) {i} xs := fun i =>
    .of_subsingleton Set.subsingleton_singleton
  have hL : SortedOn (c.le · ·) (span lo (l - 1) ∪ {l.toNat}) xs := by
    refine .glue htrans hl (single _) ?_ hleft (.singleton hatL (hc.le_refl p))
    rintro i ⟨-, h₂⟩ _ rfl
    omega
  have hLp : On (span lo (l - 1) ∪ {l.toNat}) (fun x => c.le x p) xs :=
    hleft.union (.singleton hatL (hc.le_refl p))
  have hM : SortedOn (c.le · ·) (span lo (l - 1) ∪ {l.toNat} ∪ span (l + 1) (g - 1)) xs := by
    refine .glue htrans hL hm ?_ hLp (hmid.imp fun _ h => h.1)
    rintro i (⟨-, h₂⟩ | rfl) j ⟨h₃, -⟩ <;> omega
  have hMq : On (span lo (l - 1) ∪ {l.toNat} ∪ span (l + 1) (g - 1)) (fun x => c.le x q) xs :=
    (hLp.imp fun x hx => htrans x p q hx hpq).union (hmid.imp fun _ h => h.2)
  have hG : SortedOn (c.le · ·)
      (span lo (l - 1) ∪ {l.toNat} ∪ span (l + 1) (g - 1) ∪ {g.toNat}) xs := by
    refine .glue htrans hM (single _) ?_ hMq (.singleton hatG (hc.le_refl q))
    rintro i ((⟨-, h₂⟩ | rfl) | ⟨-, h₂⟩) _ rfl <;> omega
  have hGq : On (span lo (l - 1) ∪ {l.toNat} ∪ span (l + 1) (g - 1) ∪ {g.toNat})
      (fun x => c.le x q) xs := hMq.union (.singleton hatG (hc.le_refl q))
  refine SortedOn.mono (.glue htrans hG hg ?_ hGq hright) ?_
  · rintro i (((⟨-, h₂⟩ | rfl) | ⟨-, h₂⟩) | rfl) j ⟨h₃, -⟩ <;> omega
  rintro i ⟨h₁, h₂⟩
  simp only [Set.mem_union, mem_span, Set.mem_singleton_iff]
  omega

end Cut

/-! ### The loops -/

section
variable {p q : B} {s : Sequence w B} {i j lo hi l g k : BitVec w}
  {E : Stop → Sequence w B → Prop}

theorem ends_apply_span {lo hi : ℤ} (hlo : 0 ≤ lo) (hlen : hi < s.items.length) (hli : lo ≤ i.toInt)
    (hih : i.toInt ≤ hi) (hQ : ∀ x s', s.items[i.toInt.toNat]? = some x → s'.items = s.items →
      Within (span lo hi) s s' → Q x s') : Ends (Sequence.apply i) Q E s := by
  have hi : i.toNat = i.toInt.toNat := toNat_of_nonneg (by omega)
  have hx := List.getElem?_eq_getElem (show i.toInt.toNat < s.items.length by omega)
  refine ends_apply (by rw [hi]; exact hx) ?_ (fun s' => hQ _ s' hx)
  rw [mem_span]
  omega

theorem ends_swap_span {lo hi : ℤ} {Q : Unit → Sequence w B → Prop} (hlo : 0 ≤ lo)
    (hlen : hi < s.items.length) (hli : lo ≤ i.toInt) (hih : i.toInt ≤ hi) (hlj : lo ≤ j.toInt)
    (hjh : j.toInt ≤ hi) (hQ : ∀ s', s'.items = exchange s.items i.toInt.toNat j.toInt.toNat →
      Within (span lo hi) s s' → Q () s') : Ends (PonySort.swap i j) Q E s := by
  have hi : i.toNat = i.toInt.toNat := toNat_of_nonneg (by omega)
  have hj : j.toNat = j.toInt.toNat := toNat_of_nonneg (by omega)
  refine ends_swap (by omega) (by omega) ?_ ?_ (fun s' => hi ▸ hj ▸ hQ s') <;>
  · rw [mem_span]
    omega

/-- What the scan from the right does: it passes over elements that are greater than `q`. -/
theorem ends_scan (hc : c.Preordered) {l : ℤ} (n : ℕ)
    (h : Parts c p q lo.toInt hi.toInt l g.toInt k.toInt s.items) (hkg : k.toInt ≤ g.toInt)
    (hn : (g.toInt - k.toInt).toNat < n) :
    Ends (loop .rounds (PonySort.scan c q k) n g) (fun g' s' =>
      s'.items = s.items ∧ Within (span lo.toInt hi.toInt) s s' ∧
      Parts c p q lo.toInt hi.toInt l g'.toInt k.toInt s.items ∧
      (k.toInt ≤ g'.toInt ∧ g'.toInt ≤ g.toInt) ∧
      (g'.toInt = k.toInt ∨ ∃ y, s.items[g'.toInt.toNat]? = some y ∧ c.le y q)) E s := by
  let I := fun (g' : BitVec w) (s' : Sequence w B) =>
    s'.items = s.items ∧ Within (span lo.toInt hi.toInt) s s' ∧
      Parts c p q lo.toInt hi.toInt l g'.toInt k.toInt s.items ∧
      (k.toInt ≤ g'.toInt ∧ g'.toInt ≤ g.toInt)
  refine (ends_loop (I := I) (m := fun g' => (g'.toInt - k.toInt).toNat) ?_ n g s
    ⟨rfl, .refl _ s, h, hkg, le_rfl⟩ hn)
  rintro g' s' ⟨he, hw, hp, hk, hgg⟩
  have h0 := hp.lo_nonneg
  have hlk := hp.l_le_k
  have hlo := hp.lo_lt
  have hg := hp.g_lt
  refine ends_bind (ends_apply_span h0 (he ▸ hp.hi_lt) (by omega) hg.le ?_)
  intro y s'' hy he' hw'
  rw [he] at hy
  refine ends_ite ?_ ?_
  · intro hcond
    rw [Bool.and_eq_true, slt_iff_toInt_lt] at hcond
    have hsub : (g' - 1).toInt = g'.toInt - 1 :=
      toInt_sub_one (width_pos (x := g') (by omega)) (by omega)
    refine ends_pure ⟨⟨he'.trans he, hw.trans hw', ?_, by omega, by omega⟩, ?_⟩
    · rw [hsub]
      exact hp.skip (.inl ⟨hcond.2, rfl⟩) hy (hc.le_of_gt hcond.1)
    · show ((g' - 1).toInt - k.toInt).toNat < (g'.toInt - k.toInt).toNat
      omega
  intro hcond
  rw [Bool.and_eq_true, slt_iff_toInt_lt, not_and_or, c.not_gt_iff] at hcond
  refine ends_pure ⟨he'.trans he, hw.trans hw', hp, ⟨hk, hgg⟩, ?_⟩
  rcases hcond with hyq | hkg'
  · exact .inr ⟨y, hy, hyq⟩
  · exact .inl (by omega)

/-- What `toLeft` does when `k` is still to be placed. -/
theorem ends_toLeft (hc : c.Preordered) {x : B}
    (h : Parts c p q lo.toInt hi.toInt l.toInt g.toInt k.toInt s.items) (hkg : k.toInt ≤ g.toInt)
    (hx : s.items[k.toInt.toNat]? = some x) (hxq : c.le x q) :
    Ends (PonySort.toLeft c p k l) (fun l' s' => Within (span lo.toInt hi.toInt) s s' ∧
      Parts c p q lo.toInt hi.toInt l'.toInt g.toInt (k.toInt + 1) s'.items) E s := by
  have h0 := h.lo_nonneg
  have hlk := h.l_le_k
  have hlo := h.lo_lt
  have hg := h.g_lt
  refine ends_bind (ends_apply_span h0 h.hi_lt (by omega) (by omega) ?_)
  intro y s' hy he hw
  obtain rfl : x = y := by rwa [hx, some.injEq] at hy
  refine ends_ite (fun hlt => ?_) (fun hge => ?_)
  · refine ends_bind (ends_swap_span h0 (he ▸ h.hi_lt) (by omega) (by omega) (by omega)
      (by omega) ?_)
    intro s'' he' hw'
    refine ends_pure ⟨hw.trans hw', ?_⟩
    rw [toInt_add_one (x := l) (y := hi) (by omega), he', he]
    exact h.toLeft hkg hx hlt
  · refine ends_pure ⟨hw, ?_⟩
    rw [he]
    exact h.stay hkg hx (hc.not_lt_iff.1 hge) hxq

/-- What `toLeft` does when `k` is in the right part. -/
theorem ends_toLeft_of_le (hc : c.Preordered) {x : B} {lo hi : ℤ} (hlo : 0 ≤ lo)
    (hlen : hi < s.items.length) (hlk : lo ≤ k.toInt) (hkh : k.toInt ≤ hi)
    (hx : s.items[k.toInt.toNat]? = some x) (hpx : c.le p x) :
    Ends (PonySort.toLeft c p k l) (fun l' s' => Within (span lo hi) s s' ∧ l' = l ∧
      s'.items = s.items) E s := by
  refine ends_bind (ends_apply_span hlo hlen hlk hkh ?_)
  intro y s' hy he hw
  obtain rfl : x = y := by rwa [hx, some.injEq] at hy
  refine ends_ite (fun hlt => ?_) (fun _ => ends_pure ⟨hw, rfl, he⟩)
  exact absurd hpx ((hc.lt_iff x p).1 hlt)

/-- **One round of the partition loop.** -/
theorem ends_partition (hc : c.Preordered) (hpq : c.le p q) (n : ℕ)
    (h : Parts c p q lo.toInt hi.toInt l.toInt g.toInt k.toInt s.items)
    (hn : (hi.toInt - lo.toInt).toNat ≤ n) : Ends (PonySort.partition c n p q (l, g, k)) (Round
      (fun b s' => Within (span lo.toInt hi.toInt) s s' ∧
        Parts c p q lo.toInt hi.toInt b.1.toInt b.2.1.toInt b.2.2.toInt s'.items)
      (fun b s' => Within (span lo.toInt hi.toInt) s s' ∧ b.2.1.toInt < b.2.2.toInt ∧
        Parts c p q lo.toInt hi.toInt b.1.toInt b.2.1.toInt b.2.2.toInt s'.items)
      (fun b => (b.2.1.toInt + 2 - b.2.2.toInt).toNat) (l, g, k)) E s := by
  have h0 := h.lo_nonneg
  have hlk := h.l_le_k
  have hlo := h.lo_lt
  have hg := h.g_lt
  refine ends_ite (fun hkg => ?_) (fun hkg => ?_)
  swap
  · rw [sle_iff_toInt_le, not_le] at hkg
    exact ends_pure ⟨.refl _ s, hkg, h⟩
  rw [sle_iff_toInt_le] at hkg
  have hk1 : (k + 1).toInt = k.toInt + 1 := toInt_add_one (y := hi) (by omega)
  have hl1 : (l + 1).toInt = l.toInt + 1 := toInt_add_one (y := hi) (by omega)
  refine ends_bind (ends_apply_span h0 h.hi_lt (by omega) (by omega) ?_)
  intro x s₁ hx he₁ hw₁
  refine ends_ite (fun hlt => ?_) (fun hge => ?_)
  · refine ends_bind (ends_swap_span h0 (he₁ ▸ h.hi_lt) (by omega) (by omega) (by omega)
      (by omega) ?_)
    intro s₂ he₂ hw₂
    refine ends_pure ⟨⟨hw₁.trans hw₂, ?_⟩, ?_⟩
    · rw [hl1, hk1, he₂, he₁]
      exact h.toLeft hkg hx hlt
    · show (g.toInt + 2 - (k + 1).toInt).toNat < (g.toInt + 2 - k.toInt).toNat
      omega
  refine ends_bind (ends_apply_span h0 (he₁ ▸ h.hi_lt) (by omega) (by omega) ?_)
  intro y s₂ hy he₂ hw₂
  obtain rfl : x = y := by rwa [he₁, hx, some.injEq] at hy
  have he₂ : s₂.items = s.items := he₂.trans he₁
  have hw₂ : Within (span lo.toInt hi.toInt) s s₂ := hw₁.trans hw₂
  refine ends_ite (fun hqx => ?_) (fun hxq => ?_)
  swap
  · -- the element is between the pivots
    refine ends_pure ⟨⟨hw₂, ?_⟩, ?_⟩
    · have hlt : c.lt x q := by simpa [Comparable.ge] using hxq
      rw [hk1, he₂]
      exact h.stay hkg hx (hc.not_lt_iff.1 hge) (hc.le_of_lt hlt)
    · show (g.toInt + 2 - (k + 1).toInt).toNat < (g.toInt + 2 - k.toInt).toNat
      omega
  have hqx : c.le q x := hc.ge_iff.1 hqx
  refine ends_bind ((ends_scan hc n (he₂ ▸ h) hkg (by omega)).mono ?_ fun _ _ he => he)
  rintro g' s₃ ⟨he₃, hw₃, hp, ⟨hkg', hgg⟩, hlast⟩
  rw [he₂] at he₃ hp hlast
  have hw₃ : Within (span lo.toInt hi.toInt) s s₃ := hw₂.trans hw₃
  have hsub : (g' - 1).toInt = g'.toInt - 1 := toInt_sub_one (width_pos (x := g') (by omega))
    (by omega)
  refine ends_bind (ends_swap_span h0 (he₃ ▸ h.hi_lt) (by omega) (by omega) (by omega)
    (by omega) ?_)
  intro s₄ he₄ hw₄
  rw [he₃] at he₄
  have hw₄ : Within (span lo.toInt hi.toInt) s s₄ := hw₃.trans hw₄
  have hmeasure : ((g' - 1).toInt + 2 - (k + 1).toInt).toNat < (g.toInt + 2 - k.toInt).toNat := by
    omega
  rcases eq_or_lt_of_le hkg' with heq | hlt
  · -- nothing is left between `k` and `g`
    rw [← heq, exchange_self] at he₄
    refine ends_bind ((ends_toLeft_of_le hc h0 (he₄ ▸ h.hi_lt) (by omega) (by omega) (he₄ ▸ hx)
      (hc.le_trans p q x hpq hqx)).mono ?_ fun _ _ he => he)
    rintro l' s₅ ⟨hw₅, rfl, he₅⟩
    refine ends_pure ⟨⟨hw₄.trans hw₅, ?_⟩, hmeasure⟩
    rw [hsub, hk1, he₅, he₄]
    exact hp.skip (.inr ⟨heq, rfl⟩) (heq ▸ hx) hqx
  -- the element that comes from `g` is not greater than `q`
  obtain ⟨y, hy, hyq⟩ := hlast.resolve_left (by omega)
  have hlen := h.hi_lt
  have hp₄ := hp.toRight hlt hx hqx
  rw [← he₄, ← hsub] at hp₄
  have hy₄ : s₄.items[k.toInt.toNat]? = some y := by
    rw [he₄, getElem?_exchange (by omega) (by omega), Equiv.swap_apply_left, hy]
  refine ends_bind ((ends_toLeft hc hp₄ (by omega) hy₄ hyq).mono ?_ fun _ _ he => he)
  rintro l' s₅ ⟨hw₅, hp₅⟩
  refine ends_pure ⟨⟨hw₄.trans hw₅, ?_⟩, hmeasure⟩
  rw [hk1]
  exact hp₅

/-- The pivots are put in order. -/
theorem ends_order (hc : c.Preordered) (h0 : 0 ≤ lo.toInt) (hlt : lo.toInt < hi.toInt)
    (hlen : hi.toInt < s.items.length) :
    Ends (PonySort.order c lo hi) (fun _ s' => Within (span lo.toInt hi.toInt) s s' ∧
      ∃ p q, s'.items[lo.toInt.toNat]? = some p ∧ s'.items[hi.toInt.toNat]? = some q ∧
        c.le p q) E s := by
  refine ends_bind (ends_apply_span h0 hlen le_rfl hlt.le ?_)
  intro x s₁ hx he₁ hw₁
  refine ends_bind (ends_apply_span h0 (he₁ ▸ hlen) hlt.le le_rfl ?_)
  intro y s₂ hy he₂ hw₂
  have hw₂ : Within (span lo.toInt hi.toInt) s s₂ := hw₁.trans hw₂
  rw [he₁] at hy he₂
  refine ends_ite (fun hgt => ?_) (fun hle => ?_)
  · refine ends_swap_span h0 (he₂ ▸ hlen) le_rfl hlt.le hlt.le le_rfl ?_
    intro s₃ he₃ hw₃
    rw [he₂] at he₃
    refine ⟨hw₂.trans hw₃, y, x, ?_, ?_, hc.le_of_gt hgt⟩
    · rw [he₃, getElem?_exchange (by omega) (by omega), Equiv.swap_apply_left, hy]
    · rw [he₃, getElem?_exchange_right (by omega) (by omega), hx]
  · exact ends_pure ⟨hw₂, x, y, he₂ ▸ hx, he₂ ▸ hy, c.not_gt_iff x y |>.mp hle⟩

/-- What holds before the first round of the partition loop. -/
theorem Parts.start {p q : B} {lo hi : ℤ} {xs : List B} (h0 : 0 ≤ lo) (hlt : lo < hi)
    (hhi : hi < xs.length) (hp : xs[lo.toNat]? = some p) (hq : xs[hi.toNat]? = some q) :
    Parts c p q lo hi (lo + 1) (hi - 1) (lo + 1) xs := by
  refine ⟨h0, by omega, le_rfl, by omega, by omega, by omega, hhi, hp, hq, ?_, ?_, ?_⟩ <;>
  · rintro i ⟨h₁, h₂⟩
    omega

/-- The partition loop. -/
theorem ends_partitionLoop (hc : c.Preordered) (hpq : c.le p q) (n : ℕ)
    (h0 : 0 ≤ lo.toInt) (hlt : lo.toInt < hi.toInt) (hlen : hi.toInt < s.items.length)
    (hp : s.items[lo.toInt.toNat]? = some p) (hq : s.items[hi.toInt.toNat]? = some q)
    (hn : (hi.toInt - lo.toInt).toNat < n) :
    Ends (loop .rounds (PonySort.partition c n p q) n (lo + 1, hi - 1, lo + 1)) (fun b s' =>
      Within (span lo.toInt hi.toInt) s s' ∧ b.2.1.toInt < b.2.2.toInt ∧
        Parts c p q lo.toInt hi.toInt b.1.toInt b.2.1.toInt b.2.2.toInt s'.items) E s := by
  have hlo1 : (lo + 1).toInt = lo.toInt + 1 := toInt_add_one hlt
  have hhi1 : (hi - 1).toInt = hi.toInt - 1 :=
    toInt_sub_one (width_pos (x := hi) (by omega)) (by omega)
  have hstart : Parts c p q lo.toInt hi.toInt (lo + 1).toInt (hi - 1).toInt (lo + 1).toInt
      s.items := by
    rw [hlo1, hhi1]
    exact .start h0 hlt hlen hp hq
  refine ends_loop
    (I := fun b s' => Within (span lo.toInt hi.toInt) s s' ∧
      Parts c p q lo.toInt hi.toInt b.1.toInt b.2.1.toInt b.2.2.toInt s'.items)
    (m := fun b => (b.2.1.toInt + 2 - b.2.2.toInt).toNat) ?_ n _ s ⟨.refl _ s, hstart⟩ ?_
  · rintro ⟨l, g, k⟩ s' ⟨hw, hparts⟩
    refine (ends_partition hc hpq n hparts hn.le).mono ?_ fun _ _ he => he
    rintro (b | b) s'' hb
    · exact ⟨hw.trans hb.1, hb.2⟩
    · exact ⟨⟨hw.trans hb.1.1, hb.1.2⟩, hb.2⟩
  · show ((hi - 1).toInt + 2 - (lo + 1).toInt).toNat < n
    omega

/-- What a run of `_sort` does. -/
def Sorts (c : Comparable B) (n : ℕ) (E : Stop → Sequence w B → Prop) : Prop :=
  ∀ (s : Sequence w B) (lo hi : BitVec w), 0 ≤ lo.toInt → hi.toInt < s.items.length →
    (hi.toInt + 1 - lo.toInt).toNat < n →
    Ends (PonySort.sort c n lo hi) (fun _ s' => Within (span lo.toInt hi.toInt) s s' ∧
      SortedOn (c.le · ·) (span lo.toInt hi.toInt) s'.items) E s

/-- The three parts are sorted one after another. -/
theorem ends_sort_parts (hc : c.Preordered) (hpq : c.le p q) {n : ℕ} (hsorts : Sorts c n E)
    (hcut : Cut c p q lo.toInt hi.toInt l.toInt g.toInt s.items)
    (hn : (hi.toInt - lo.toInt).toNat < n) : Ends (do
        PonySort.sort c n lo (l - 1)
        PonySort.sort c n (l + 1) (g - 1)
        PonySort.sort c n (g + 1) hi) (fun _ s' => Within (span lo.toInt hi.toInt) s s' ∧
        SortedOn (c.le · ·) (span lo.toInt hi.toInt) s'.items) E s := by
  have h0 := hcut.lo_nonneg
  have hlo := hcut.lo_le
  have hlg := hcut.l_lt
  have hg := hcut.g_le
  have hhi := hcut.hi_lt
  have hw : 0 < w := width_pos (x := g) (by omega)
  have hl1 : (l - 1).toInt = l.toInt - 1 := toInt_sub_one hw (by omega)
  have hg1 : (g - 1).toInt = g.toInt - 1 := toInt_sub_one hw (by omega)
  have hl2 : (l + 1).toInt = l.toInt + 1 := toInt_add_one hlg
  have hg2 : (g + 1).toInt = g.toInt + 1 :=
    toInt_add_one (y := s.size) (by rw [toInt_size]; omega)
  refine ends_bind ((hsorts s lo (l - 1) h0 (by omega) (by omega)).mono ?_ fun _ _ he => he)
  rintro - s₁ ⟨hw₁, hsorted₁⟩
  rw [hl1] at hw₁ hsorted₁
  have hcut₁ := hcut.moved hw₁.moved (.inl rfl)
  have hlen₁ := hcut₁.hi_lt
  refine ends_bind ((hsorts s₁ (l + 1) (g - 1) (by omega) (by omega) (by omega)).mono ?_
    fun _ _ he => he)
  rintro - s₂ ⟨hw₂, hsorted₂⟩
  rw [hl2, hg1] at hw₂ hsorted₂
  have hcut₂ := hcut₁.moved hw₂.moved (.inr (.inl rfl))
  refine (hsorts s₂ (g + 1) hi (by omega) hcut₂.hi_lt (by omega)).mono ?_ fun _ _ he => he
  rintro - s₃ ⟨hw₃, hsorted₃⟩
  rw [hg2] at hw₃ hsorted₃
  have hcut₃ := hcut₂.moved hw₃.moved (.inr (.inr rfl))
  refine ⟨?_, hcut₃.sorted hc hpq ?_ ?_ hsorted₃⟩
  · exact ((hw₁.mono (span_subset le_rfl (by omega))).trans
      (hw₂.mono (span_subset (by omega) (by omega)))).trans
      (hw₃.mono (span_subset (by omega) le_rfl))
  · exact (hsorted₁.moved hw₂.moved (span_disjoint (by omega))).moved hw₃.moved
      (span_disjoint (by omega))
  · exact hsorted₂.moved hw₃.moved (span_disjoint (by omega))

/-- **A run of `_sort`** ends, with no error; it sorts the positions from `lo` to `hi`, and touches
no other. -/
theorem sorts (hc : c.Preordered) (n : ℕ) : Sorts (w := w) c n E := by
  induction n with
  | zero =>
    intro s lo hi _ _ hn
    omega
  | succ n ih =>
    intro s lo hi h0 hlen hn
    refine ends_ite (fun hle => ?_) (fun hgt => ?_)
    · rw [sle_iff_toInt_le] at hle
      refine ends_pure ⟨.refl _ s, .of_subsingleton ?_⟩
      rintro i ⟨h₁, h₂⟩ j ⟨h₃, h₄⟩
      omega
    rw [sle_iff_toInt_le, not_le] at hgt
    refine ends_bind ((ends_order hc h0 hgt hlen).mono ?_ fun _ _ he => he)
    rintro - s₁ ⟨hw₁, p, q, hp, hq, hpq⟩
    have hlen₁ : hi.toInt < s₁.items.length := by rwa [hw₁.length]
    refine ends_bind (ends_apply_span h0 hlen₁ le_rfl hgt.le ?_)
    intro p' s₂ hp' he₂ hw₂
    obtain rfl : p = p' := by rwa [hp, some.injEq] at hp'
    refine ends_bind (ends_apply_span h0 (he₂ ▸ hlen₁) hgt.le le_rfl ?_)
    intro q' s₃ hq' he₃ hw₃
    obtain rfl : q = q' := by rwa [he₂, hq, some.injEq] at hq'
    rw [he₂] at he₃
    have hw₃ : Within (span lo.toInt hi.toInt) s s₃ := (hw₁.trans hw₂).trans hw₃
    refine ends_bind ((ends_partitionLoop hc hpq n h0 hgt (he₃ ▸ hlen₁) (he₃ ▸ hp) (he₃ ▸ hq)
      (by omega)).mono ?_ fun _ _ he => he)
    rintro ⟨l, g, k⟩ s₄ ⟨hw₄, hkg, hparts⟩
    simp only at hkg hparts
    have hw₄ : Within (span lo.toInt hi.toInt) s s₄ := hw₃.trans hw₄
    have hlo := hparts.lo_lt
    have hlg := hparts.l_le_g
    have hg := hparts.g_lt
    have hlen₄ := hparts.hi_lt
    have hl1 : (l - 1).toInt = l.toInt - 1 :=
      toInt_sub_one (width_pos (x := hi) (by omega)) (by omega)
    have hg1 : (g + 1).toInt = g.toInt + 1 := toInt_add_one hg
    refine ends_bind (ends_swap_span h0 hlen₄ le_rfl hgt.le (by omega) (by omega) ?_)
    intro s₅ he₅ hw₅
    refine ends_bind (ends_swap_span h0 (by rwa [hw₅.length]) hgt.le le_rfl (by omega)
      (by omega) ?_)
    intro s₆ he₆ hw₆
    have hw₆ : Within (span lo.toInt hi.toInt) s s₆ := (hw₄.trans hw₅).trans hw₆
    have hcut := hparts.cut hc hkg
    rw [← hl1, ← hg1, ← he₅, ← he₆] at hcut
    refine (ends_sort_parts hc hpq ih hcut (by omega)).mono ?_ fun _ _ he => he
    rintro - s₇ ⟨hw₇, hsorted⟩
    exact ⟨hw₆.trans hw₇, hsorted⟩

end

/-! ### Sort -/

/-- What `_sort(a, lo, hi)` is to do. -/
structure SortsRange (c : Comparable B) (lo hi : ℤ) (s s' : Sequence w B) : Prop where
  perm : s'.items.Perm s.items
  sorted : ∀ (i j : ℕ) (x y : B), lo ≤ i → i < j → (j : ℤ) ≤ hi → s'.items[i]? = some x →
    s'.items[j]? = some y → c.le x y
  outside : ∀ k : ℕ, ((k : ℤ) < lo ∨ hi < k) → s'.items[k]? = s.items[k]?
  asked : ∃ new, s'.indexed = s.indexed ++ new ∧ ∀ k ∈ new, lo ≤ (k : ℤ) ∧ (k : ℤ) ≤ hi

theorem SortsRange.of_within {lo hi : ℤ} {s s' : Sequence w B} (hw : Within (span lo hi) s s')
    (hs : SortedOn (c.le · ·) (span lo hi) s'.items) : SortsRange c lo hi s s' where
  perm := hw.moved.perm
  sorted i j x y hi hij hj hx hy :=
    hs i ⟨hi, by omega⟩ j ⟨by omega, hj⟩ hij x y hx hy
  outside k hk := hw.moved.outside (by rw [mem_span]; omega)
  asked := hw.asked

/-- The whole of a sequence is sorted when its range is. -/
theorem SortsRange.pairwise {s s' : Sequence w B}
    (h : SortsRange c 0 ((s.items.length : ℤ) - 1) s s') : s'.items.Pairwise (c.le · ·) := by
  rw [List.pairwise_iff_getElem]
  intro i j hi hj hij
  have hlen := h.perm.length_eq
  exact h.sorted i j _ _ (by omega) hij (by omega) (List.getElem?_eq_getElem hi)
    (List.getElem?_eq_getElem hj)

/-- The run that `Sort.apply` starts. -/
theorem sort_whole (hc : c.Preordered) (s : Sequence w B) (rounds : ℕ)
    (hr : s.items.length < rounds) : ∃ s', PonySort.sort c rounds 0 (s.size - 1) s = (.ok (), s') ∧
      SortsRange c 0 ((s.items.length : ℤ) - 1) s s' := by
  obtain ⟨n, rfl⟩ : ∃ n, rounds = n + 1 := ⟨rounds - 1, by omega⟩
  rcases Nat.eq_zero_or_pos w with rfl | hw
  · have hnil : s.items.length = 0 := by simpa using s.fits
    refine ⟨s, ?_, .of_within (.refl _ s) (.of_subsingleton ?_)⟩
    · rw [PonySort.sort, if_pos (by rw [sle_iff_toInt_le, eq_nil 0, eq_nil (s.size - 1)])]
      rfl
    · rintro i ⟨h₁, h₂⟩ j ⟨h₃, h₄⟩
      omega
  have hhi : (s.size - 1).toInt = s.items.length - 1 := by
    rw [toInt_sub_one hw (by rw [toInt_size]; omega), toInt_size]
  have hzero : (0 : BitVec w).toInt = 0 := toInt_zero
  obtain ⟨⟨⟩, s', hrun, hwithin, hsorted⟩ := (sorts (E := fun _ _ => False) hc (n + 1) s 0
    (s.size - 1) hzero.ge (by omega) (by omega)).exists_ok
  rw [hhi, hzero] at hwithin hsorted
  exact ⟨s', hrun, .of_within hwithin hsorted⟩

end SpacePony.Collections
