import Mathlib.Algebra.GroupWithZero.Nat
import Mathlib.Algebra.BigOperators.Group.Finset.Piecewise
import Mathlib.Algebra.Order.BigOperators.Group.Finset
import Mathlib.Algebra.Order.BigOperators.Group.List

/-!
# Support — counts that travel in messages

Weighted reference counts over a network with causal delivery.  Every resource has an owner, who
keeps a count of it; other actors hold credits on it; letters in flight add to the owner's count
(`plus`), take from it (`minus`) or carry credits from their sender to their receiver (`carry`).
`Net.post`, `Net.deliver`, `Net.grant` and `Net.join` keep both (`Good.post`, …), and a letter that
can be delivered takes no more than there is (`Good.enough`).
-/

namespace SpacePony.Credit

open Nat List
open Finset (sum_congr mem_erase add_sum_erase sum_le_sum subset_insert sum_ite_eq')
open Function (update update_of_ne update_self)

variable {Actor Res : Type*}

/-- A letter: what it does to the counts of its receiver, and the credits it carries. -/
structure Letter (Actor Res : Type*) where
  id : Nat
  dest : Actor
  past : Finset Nat
  plus : Res → Nat
  minus : Res → Nat
  carry : Res → Nat

/-- Counts, credits and letters. -/
structure Net (Actor Res : Type*) where
  actors : Finset Actor
  own : Res → Nat
  held : Actor → Res → Nat
  know : Actor → Finset Nat
  flight : List (Letter Actor Res)
  next : Nat

/-- Of the letters to `A` in flight, those in `P` are in `D`. -/
def Sees (fl : List (Letter Actor Res)) (A : Actor) (P : Finset Nat) (D : Set Nat) : Prop :=
  ∀ l ∈ fl, l.dest = A → l.id ∈ P → l.id ∈ D

/-- With each letter to `A`, the letters to `A` that happened before it are in `D`. -/
def Closed (fl : List (Letter Actor Res)) (A : Actor) (D : Set Nat) : Prop :=
  ∀ l ∈ fl, l.dest = A → l.id ∈ D → Sees fl A l.past D

open Classical in
/-- `k` if `p` holds, else nothing. -/
noncomputable def gate (p : Prop) (k : Nat) : Nat := if p then k else 0

/-- What the letters to `A` in `D` weigh. -/
noncomputable def inbox (fl : List (Letter Actor Res)) (A : Actor) (D : Set Nat)
    (w : Letter Actor Res → Nat) : Nat :=
  (fl.map fun l => gate (l.dest = A ∧ l.id ∈ D) (w l)).sum

/-- The credits on `r` in the letters `fl` that have seen no letter of `gl` to `A` outside of
`D`. -/
noncomputable def carried (fl gl : List (Letter Actor Res)) (A : Actor) (D : Set Nat) (r : Res) :
    Nat :=
  (fl.map fun l => gate (Sees gl A l.past D) (l.carry r)).sum

/-! ### Sums -/

section
variable {fl gl hl f₁ f₂ : List (Letter Actor Res)} {l : Letter Actor Res} {A : Actor}
  {P Q : Finset Nat} {D E : Set Nat} {r : Res} {w : Letter Actor Res → Nat} {p q : Prop} {k : Nat}

theorem gate_pos (h : p) : gate p k = k := if_pos h

theorem gate_neg (h : ¬ p) : gate p k = 0 := if_neg h

theorem gate_le : gate p k ≤ k := by
  by_cases h : p
  · rw [gate_pos h]
  · rw [gate_neg h]
    exact zero_le _

theorem gate_mono (h : p → q) : gate p k ≤ gate q k := by
  by_cases hp : p
  · rw [gate_pos hp, gate_pos (h hp)]
  · rw [gate_neg hp]
    exact zero_le _

theorem Sees.mono (h : Sees gl A P D) (hsub : fl ⊆ gl) (hP : Q ⊆ P) : Sees fl A Q D :=
  fun l hl hd hi => h l (hsub hl) hd (hP hi)

theorem inbox_append : inbox (f₁ ++ f₂) A D w = inbox f₁ A D w + inbox f₂ A D w := by
  simp [inbox]

theorem inbox_single : inbox [l] A D w = gate (l.dest = A ∧ l.id ∈ D) (w l) := by
  simp [inbox]

/-- The letters of a part that are in flight are all that matters of it. -/
theorem inbox_congr (h : ∀ l ∈ fl, l.dest = A → (l.id ∈ D ↔ l.id ∈ E)) :
    inbox fl A D w = inbox fl A E w := by
  unfold inbox
  congr 1
  refine map_congr_left fun l hl => ?_
  congr 1
  exact propext ⟨fun ⟨hd, hi⟩ => ⟨hd, (h l hl hd).1 hi⟩, fun ⟨hd, hi⟩ => ⟨hd, (h l hl hd).2 hi⟩⟩

theorem carried_append : carried (f₁ ++ f₂) gl A D r = carried f₁ gl A D r + carried f₂ gl A D r := by
  simp [carried]

theorem carried_single : carried [l] gl A D r = gate (Sees gl A l.past D) (l.carry r) := by
  simp [carried]

theorem inbox_perm (h : fl.Perm gl) : inbox fl A D w = inbox gl A D w := (h.map _).sum_eq

theorem carried_perm (h : fl.Perm gl) : carried fl hl A D r = carried gl hl A D r :=
  (h.map _).sum_eq

theorem carried_le (h : ∀ l ∈ fl, Sees gl A l.past D → Sees hl A l.past E) :
    carried fl gl A D r ≤ carried fl hl A E r :=
  sum_le_sum fun l hl => gate_mono (h l hl)

end

/-! ### The invariant -/

variable [DecidableEq Actor]

/-- The credits on `r` of the actors that have seen no letter to `A` outside of `D`. -/
noncomputable def holdings (n : Net Actor Res) (A : Actor) (D : Set Nat) (r : Res) : Nat :=
  ∑ B ∈ n.actors.erase A, gate (Sees n.flight A (n.know B) D) (n.held B r)

variable (owner : Res → Actor)

/-- The count of each resource and its letters add up to the credits on it. -/
def Balanced (n : Net Actor Res) : Prop :=
  ∀ r, (n.flight.map (·.minus r)).sum + ∑ B ∈ n.actors.erase (owner r), n.held B r +
    (n.flight.map (·.carry r)).sum = n.own r + (n.flight.map (·.plus r)).sum

/-- In every causally closed part of the letters to the owner, the count covers the credits. -/
def Covered (n : Net Actor Res) : Prop :=
  ∀ r D, Closed n.flight (owner r) D →
    inbox n.flight (owner r) D (·.minus r) + holdings n (owner r) D r +
      carried n.flight n.flight (owner r) D r ≤ n.own r + inbox n.flight (owner r) D (·.plus r)

/-- The invariant of the counts. -/
structure Good (n : Net Actor Res) : Prop where
  ids : (n.flight.map Letter.id).Nodup
  fresh : ∀ l ∈ n.flight, l.id < n.next
  addressed : ∀ l ∈ n.flight, ∀ r, l.dest ≠ owner r → l.plus r = 0 ∧ l.minus r = 0
  balanced : Balanced owner n
  covered : Covered owner n

/-! ### Posting a letter -/

/-- An actor posts a letter and changes its own counts and credits. -/
def Net.post (n : Net Actor Res) (B : Actor) (own held : Res → Nat) (l : Letter Actor Res) :
    Net Actor Res where
  actors := n.actors
  own := own
  held := update n.held B held
  know := update n.know B (insert l.id (n.know B))
  flight := n.flight ++ [l]
  next := n.next + 1

/-- What a posted letter takes or carries comes from the counts and credits of its sender. -/
structure Posts (n : Net Actor Res) (B : Actor) (own held : Res → Nat) (l : Letter Actor Res) :
    Prop where
  member : B ∈ n.actors
  id : l.id = n.next
  past : n.know B ⊆ l.past
  addressed : ∀ r, l.dest ≠ owner r → l.plus r = 0 ∧ l.minus r = 0
  owned : ∀ r, owner r = B → l.plus r = 0 ∧ l.minus r = 0 ∧ own r = n.own r + l.carry r
  other : ∀ r, owner r ≠ B → own r = n.own r ∧
    held r + l.carry r + l.minus r = n.held B r + l.plus r ∧ (l.carry r = 0 ∨ l.plus r = 0)

variable {owner} {n : Net Actor Res} {B : Actor} {own held : Res → Nat} {l : Letter Actor Res}

section
variable (h : Good owner n) (hp : Posts owner n B own held l)
include h hp

theorem Good.post_balanced : Balanced owner (n.post B own held l) := by
  intro r
  have hbal := h.balanced r
  simp only [Net.post, map_append, map_cons, map_nil, sum_append_nat, sum_cons, sum_nil, add_zero]
  by_cases hr : owner r = B
  · obtain ⟨hplus, hminus, hown⟩ := hp.owned r hr
    have hsame : ∑ C ∈ n.actors.erase (owner r), update n.held B held C r =
        ∑ C ∈ n.actors.erase (owner r), n.held C r := by
      refine sum_congr rfl fun C hC => ?_
      have hne : C ≠ B := hr ▸ (mem_erase.1 hC).1
      rw [update_of_ne hne]
    rw [hsame, hown, hplus, hminus]
    omega
  obtain ⟨hown, hheld, -⟩ := hp.other r hr
  have hmem : B ∈ n.actors.erase (owner r) := mem_erase.2 ⟨Ne.symm hr, hp.member⟩
  rw [← add_sum_erase _ _ hmem] at hbal ⊢
  have hsame : ∑ C ∈ (n.actors.erase (owner r)).erase B, update n.held B held C r =
      ∑ C ∈ (n.actors.erase (owner r)).erase B, n.held C r := by
    refine sum_congr rfl fun C hC => ?_
    rw [update_of_ne (mem_erase.1 hC).1]
  rw [hsame, hown, update_self]
  omega

theorem Good.post_covered : Covered owner (n.post B own held l) := by
  intro r D hclosed
  have hsub : n.flight ⊆ n.flight ++ [l] := subset_append_left _ _
  have hself : l ∈ n.flight ++ [l] := by simp
  have hclosed' : Closed n.flight (owner r) D := fun k hk hd hi =>
    (hclosed k (hsub hk) hd hi).mono hsub (Finset.Subset.refl _)
  have hcov := h.covered r D hclosed'
  have hcarried : carried n.flight (n.flight ++ [l]) (owner r) D r ≤
      carried n.flight n.flight (owner r) D r :=
    carried_le fun k _ hs => hs.mono hsub (Finset.Subset.refl _)
  simp only [Net.post, inbox_append, carried_append, inbox_single, carried_single]
  have hothers : ∀ S ⊆ n.actors.erase (owner r), B ∉ S →
      ∑ C ∈ S, gate (Sees (n.flight ++ [l]) (owner r)
          (update n.know B (insert l.id (n.know B)) C) D)
          (update n.held B held C r) ≤
        ∑ C ∈ S, gate (Sees n.flight (owner r) (n.know C) D) (n.held C r) := by
    intro S _ hS
    refine sum_le_sum fun C hC => ?_
    have hne : C ≠ B := fun e => hS (e ▸ hC)
    rw [update_of_ne hne, update_of_ne hne]
    exact gate_mono fun hs => hs.mono hsub (Finset.Subset.refl _)
  rw [holdings] at hcov ⊢
  by_cases hr : owner r = B
  · obtain ⟨hplus, hminus, hown⟩ := hp.owned r hr
    have hsum := hothers _ (Finset.Subset.refl _) (by simp [hr])
    have hgate : gate (Sees (n.flight ++ [l]) (owner r) l.past D) (l.carry r) ≤ l.carry r := gate_le
    have hm : gate (l.dest = owner r ∧ l.id ∈ D) (l.minus r) = 0 :=
      le_zero.1 (hminus ▸ gate_le)
    simp only [hown] at hsum ⊢
    omega
  obtain ⟨hown, hheld, hzero⟩ := hp.other r hr
  have hmem : B ∈ n.actors.erase (owner r) := mem_erase.2 ⟨Ne.symm hr, hp.member⟩
  have hsum := hothers _ (Finset.erase_subset B _) (Finset.notMem_erase B _)
  rw [← add_sum_erase _ _ hmem] at hcov ⊢
  simp only [update_self, hown] at hsum ⊢
  -- what the sender and the letter have seen, the sender had seen before
  have hsees : ∀ Q : Finset Nat, n.know B ⊆ Q → Sees (n.flight ++ [l]) (owner r) Q D →
      Sees n.flight (owner r) (n.know B) D := fun Q hQ hs => hs.mono hsub hQ
  by_cases hin : l.dest = owner r ∧ l.id ∉ D
  · -- the owner does not get the letter in this part: its sender leaves it
    have hB : gate (Sees (n.flight ++ [l]) (owner r) (insert l.id (n.know B)) D) (held r) = 0 :=
      gate_neg fun hs => hin.2 (hs l hself hin.1 (Finset.mem_insert_self _ _))
    have hm : gate (l.dest = owner r ∧ l.id ∈ D) (l.minus r) = 0 := gate_neg fun e => hin.2 e.2
    have hc : gate (Sees (n.flight ++ [l]) (owner r) l.past D) (l.carry r) ≤
        gate (Sees n.flight (owner r) (n.know B) D) (n.held B r) := by
      refine (gate_mono (hsees _ hp.past)).trans ?_
      by_cases hs : Sees n.flight (owner r) (n.know B) D
      · rw [gate_pos hs, gate_pos hs]
        omega
      · rw [gate_neg hs]
        exact zero_le _
    omega
  have hD : l.dest = owner r → l.id ∈ D := fun hd => by
    by_contra hi
    exact hin ⟨hd, hi⟩
  by_cases hs : Sees n.flight (owner r) (n.know B) D
  · have hplus : gate (l.dest = owner r ∧ l.id ∈ D) (l.plus r) = l.plus r := by
      by_cases hd : l.dest = owner r
      · exact gate_pos ⟨hd, hD hd⟩
      · rw [(hp.addressed r hd).1]
        exact le_zero.1 gate_le
    have h₁ : gate (Sees (n.flight ++ [l]) (owner r) (insert l.id (n.know B)) D) (held r) ≤
        held r := gate_le
    have h₂ : gate (l.dest = owner r ∧ l.id ∈ D) (l.minus r) ≤ l.minus r := gate_le
    have h₃ : gate (Sees (n.flight ++ [l]) (owner r) l.past D) (l.carry r) ≤ l.carry r := gate_le
    rw [gate_pos hs] at hcov
    omega
  -- a letter of the part has its past in it, so this one is to another actor
  have hdest : l.dest ≠ owner r := fun hd =>
    hs (hsees _ hp.past (hclosed l hself hd (hD hd)))
  have h₁ : gate (Sees (n.flight ++ [l]) (owner r) (insert l.id (n.know B)) D) (held r) = 0 :=
    gate_neg fun e => hs (hsees _ (subset_insert _ _) e)
  have h₂ : gate (l.dest = owner r ∧ l.id ∈ D) (l.minus r) = 0 := gate_neg fun e => hdest e.1
  have h₃ : gate (Sees (n.flight ++ [l]) (owner r) l.past D) (l.carry r) = 0 :=
    gate_neg fun e => hs (hsees _ hp.past e)
  omega

/-- **Posting a letter keeps the invariant.** -/
theorem Good.post :
    Good owner (n.post B own held l) where
  ids := by
    simp only [Net.post, map_append, map_cons, map_nil]
    refine nodup_append.2 ⟨h.ids, nodup_singleton _, ?_⟩
    rintro i hi j hj rfl
    obtain ⟨k, hk, hki⟩ := mem_map.1 hi
    have hlt := h.fresh k hk
    rw [mem_singleton, hp.id] at hj
    omega
  fresh := by
    intro k hk
    show k.id < n.next + 1
    rcases mem_append.1 hk with hk | hk
    · have := h.fresh k hk
      omega
    · rw [mem_singleton.1 hk, hp.id]
      omega
  addressed := by
    intro k hk
    rcases mem_append.1 hk with hk | hk
    · exact h.addressed k hk
    · rw [mem_singleton.1 hk]
      exact hp.addressed
  balanced := h.post_balanced hp
  covered := h.post_covered hp

end

/-! ### Delivering a letter -/

/-- A letter is delivered, and the rest stays in flight. -/
def Net.deliver (owner : Res → Actor) (n : Net Actor Res) (l : Letter Actor Res)
    (rest : List (Letter Actor Res)) : Net Actor Res where
  actors := n.actors
  own := fun r => if owner r = l.dest then n.own r + l.plus r - l.minus r - l.carry r else n.own r
  held := update n.held l.dest fun r =>
    if owner r = l.dest then n.held l.dest r else n.held l.dest r + l.carry r
  know := update n.know l.dest (insert l.id (n.know l.dest ∪ l.past))
  flight := rest
  next := n.next

/-- The letter is in flight to a member, and nothing to the same actor happened before it. -/
structure Ready (n : Net Actor Res) (l : Letter Actor Res) (rest : List (Letter Actor Res)) :
    Prop where
  member : l.dest ∈ n.actors
  flight : n.flight.Perm (l :: rest)
  first : ∀ k ∈ rest, k.dest = l.dest → k.id ∉ l.past

section
variable {rest : List (Letter Actor Res)}

section
variable (h : Good owner n) (hr : Ready n l rest)
include h hr

theorem Good.ids_rest : (∀ k ∈ rest, k.id ≠ l.id) ∧ (rest.map Letter.id).Nodup := by
  have hids := (hr.flight.map Letter.id).nodup_iff.1 h.ids
  obtain ⟨hnot, hnodup⟩ := nodup_cons.1 hids
  exact ⟨fun k hk e => hnot (mem_map.2 ⟨k, hk, e⟩), hnodup⟩

/-- The part of the letters with the delivered one is closed if the part without it was. -/
theorem Ready.closed {D : Set Nat}
    (hD : Closed rest l.dest D) : Closed n.flight l.dest (insert l.id D) := by
  intro k hk hd hi j hj hjd hjp
  rcases mem_cons.1 (hr.flight.mem_iff.1 hj) with rfl | hj
  · exact Set.mem_insert _ _
  refine Set.mem_insert_of_mem _ ?_
  rcases mem_cons.1 (hr.flight.mem_iff.1 hk) with rfl | hk
  · exact absurd hjp (hr.first j hj hjd)
  · have hkD : k.id ∈ D := hi.resolve_left ((h.ids_rest hr).1 k hk)
    exact hD k hk hd hkD j hj hjd hjp

/-- The cover of the owner's count, with the delivered letter taken apart. -/
theorem Good.covered_ready {r : Res}
    (hown : owner r = l.dest) {D : Set Nat} (hD : Closed rest l.dest D) :
    l.minus r + inbox rest l.dest D (·.minus r) +
      (∑ C ∈ n.actors.erase l.dest, gate (Sees rest l.dest (n.know C) D) (n.held C r)) +
      (l.carry r + carried rest rest l.dest D r) ≤
    n.own r + (l.plus r + inbox rest l.dest D (·.plus r)) := by
  have hcov := h.covered r (insert l.id D) (hown ▸ hr.closed h hD)
  have hids := (h.ids_rest hr).1
  have hinbox : ∀ w : Letter Actor Res → Nat,
      inbox n.flight l.dest (insert l.id D) w = w l + inbox rest l.dest D w := by
    intro w
    rw [inbox_perm hr.flight, ← singleton_append, inbox_append, inbox_single,
      gate_pos ⟨rfl, Set.mem_insert _ _⟩]
    congr 1
    refine inbox_congr fun k hk _ => ?_
    simp [Set.mem_insert_iff, hids k hk]
  have hsees : ∀ P : Finset Nat, Sees rest l.dest P D → Sees n.flight l.dest P (insert l.id D) := by
    intro P hs k hk hd hp
    rcases mem_cons.1 (hr.flight.mem_iff.1 hk) with rfl | hk
    · exact Set.mem_insert _ _
    · exact Set.mem_insert_of_mem _ (hs k hk hd hp)
  have hself : Sees n.flight l.dest l.past (insert l.id D) := by
    intro k hk hd hp
    rcases mem_cons.1 (hr.flight.mem_iff.1 hk) with rfl | hk
    · exact Set.mem_insert _ _
    · exact absurd hp (hr.first k hk hd)
  have hcarried : l.carry r + carried rest rest l.dest D r ≤
      carried n.flight n.flight l.dest (insert l.id D) r := by
    rw [carried_perm hr.flight, ← singleton_append, carried_append, carried_single, gate_pos hself]
    exact Nat.add_le_add_left (carried_le fun k _ hs => hsees _ hs) _
  have hheld : ∑ C ∈ n.actors.erase l.dest, gate (Sees rest l.dest (n.know C) D) (n.held C r) ≤
      holdings n l.dest (insert l.id D) r :=
    sum_le_sum fun C _ => gate_mono (hsees _)
  rw [hown, hinbox, hinbox] at hcov
  omega

/-- **A letter that can be delivered takes no more than there is.** -/
theorem Good.enough {r : Res} (hown : owner r = l.dest) :
    l.minus r + l.carry r ≤ n.own r + l.plus r := by
  have hempty : Closed rest l.dest (∅ : Set Nat) := fun k _ _ hi => absurd hi (Set.notMem_empty _)
  have hcov := h.covered_ready hr hown hempty
  have hzero : inbox rest l.dest (∅ : Set Nat) (·.plus r) = 0 := by
    rw [inbox, sum_eq_zero]
    intro k hk
    obtain ⟨j, -, rfl⟩ := mem_map.1 hk
    exact gate_neg fun e => Set.notMem_empty _ e.2
  omega

theorem Good.deliver_covered : Covered owner (n.deliver owner l rest) := by
  intro r D hclosed
  have hD : Closed rest (owner r) D := hclosed
  show inbox rest (owner r) D (·.minus r) + holdings (n.deliver owner l rest) (owner r) D r +
    carried rest rest (owner r) D r ≤ (n.deliver owner l rest).own r +
      inbox rest (owner r) D (·.plus r)
  rw [holdings]
  by_cases hown : owner r = l.dest
  · rw [hown] at hD ⊢
    have hcov := h.covered_ready hr hown hD
    have hsame : ∑ C ∈ n.actors.erase l.dest, gate (Sees rest l.dest
        ((n.deliver owner l rest).know C) D) ((n.deliver owner l rest).held C r) =
        ∑ C ∈ n.actors.erase l.dest, gate (Sees rest l.dest (n.know C) D) (n.held C r) := by
      refine sum_congr rfl fun C hC => ?_
      have hne := (mem_erase.1 hC).1
      simp only [Net.deliver, update_of_ne hne]
    have hval : (n.deliver owner l rest).own r = n.own r + l.plus r - l.minus r - l.carry r :=
      if_pos hown
    show _ + (∑ C ∈ n.actors.erase l.dest, gate (Sees rest l.dest
      ((n.deliver owner l rest).know C) D) ((n.deliver owner l rest).held C r)) + _ ≤ _
    rw [hsame, hval]
    omega
  -- the letter is to another actor: it only moves credits
  have hne : l.dest ≠ owner r := fun e => hown e.symm
  have hsees : ∀ P : Finset Nat, Sees rest (owner r) P D ↔ Sees n.flight (owner r) P D := by
    intro P
    constructor
    · intro hs k hk hd hp
      rcases mem_cons.1 (hr.flight.mem_iff.1 hk) with rfl | hk
      · exact absurd hd hne
      · exact hs k hk hd hp
    · intro hs k hk
      exact hs k (hr.flight.mem_iff.2 (.tail _ hk))
  have hclosed' : Closed n.flight (owner r) D := by
    intro k hk hd hi
    rcases mem_cons.1 (hr.flight.mem_iff.1 hk) with rfl | hk
    · exact absurd hd hne
    · exact (hsees _).1 (hD k hk hd hi)
  have hcov := h.covered r D hclosed'
  have hinbox : ∀ w : Letter Actor Res → Nat,
      inbox n.flight (owner r) D w = inbox rest (owner r) D w := by
    intro w
    rw [inbox_perm hr.flight, ← singleton_append, inbox_append, inbox_single,
      gate_neg fun e => hne e.1, zero_add]
  have hcarried : carried n.flight n.flight (owner r) D r =
      gate (Sees n.flight (owner r) l.past D) (l.carry r) + carried rest n.flight (owner r) D r := by
    rw [carried_perm hr.flight, ← singleton_append, carried_append, carried_single]
  have hrest : carried rest rest (owner r) D r ≤ carried rest n.flight (owner r) D r :=
    carried_le fun k _ hs => (hsees _).1 hs
  have hmem : l.dest ∈ n.actors.erase (owner r) := mem_erase.2 ⟨hne, hr.member⟩
  have hothers : ∑ C ∈ (n.actors.erase (owner r)).erase l.dest, gate (Sees rest (owner r)
      ((n.deliver owner l rest).know C) D) ((n.deliver owner l rest).held C r) ≤
      ∑ C ∈ (n.actors.erase (owner r)).erase l.dest,
        gate (Sees n.flight (owner r) (n.know C) D) (n.held C r) := by
    refine sum_le_sum fun C hC => ?_
    have hC := (mem_erase.1 hC).1
    simp only [Net.deliver, update_of_ne hC]
    exact gate_mono (hsees _).1
  have hdest : gate (Sees rest (owner r) ((n.deliver owner l rest).know l.dest) D)
      ((n.deliver owner l rest).held l.dest r) ≤
      gate (Sees n.flight (owner r) (n.know l.dest) D) (n.held l.dest r) +
        gate (Sees n.flight (owner r) l.past D) (l.carry r) := by
    simp only [Net.deliver, update_self, if_neg hown]
    by_cases hs : Sees rest (owner r) (insert l.id (n.know l.dest ∪ l.past)) D
    · have hall := (hsees _).1 hs
      have hknow : n.know l.dest ⊆ insert l.id (n.know l.dest ∪ l.past) :=
        Finset.subset_union_left.trans (subset_insert _ _)
      have hpast : l.past ⊆ insert l.id (n.know l.dest ∪ l.past) :=
        Finset.subset_union_right.trans (subset_insert _ _)
      rw [gate_pos hs, gate_pos (hall.mono (List.Subset.refl _) hknow),
        gate_pos (hall.mono (List.Subset.refl _) hpast)]
    · rw [gate_neg hs]
      exact zero_le _
  have hval : (n.deliver owner l rest).own r = n.own r := if_neg hown
  rw [hinbox, hinbox, hcarried, holdings, ← add_sum_erase _ _ hmem] at hcov
  show _ + (∑ C ∈ n.actors.erase (owner r), gate (Sees rest (owner r)
    ((n.deliver owner l rest).know C) D) ((n.deliver owner l rest).held C r)) + _ ≤ _
  rw [← add_sum_erase _ _ hmem, hval]
  omega

theorem Good.deliver_balanced : Balanced owner (n.deliver owner l rest) := by
  intro r
  have hbal := h.balanced r
  have hsum : ∀ w : Letter Actor Res → Nat,
      (n.flight.map w).sum = w l + (rest.map w).sum := fun w => by
    rw [(hr.flight.map w).sum_eq, map_cons, sum_cons]
  rw [hsum, hsum, hsum] at hbal
  show (rest.map (·.minus r)).sum + (∑ C ∈ n.actors.erase (owner r),
    (n.deliver owner l rest).held C r) + (rest.map (·.carry r)).sum = _
  by_cases hown : owner r = l.dest
  · have henough := h.enough hr hown
    have hsame : ∑ C ∈ n.actors.erase (owner r), (n.deliver owner l rest).held C r =
        ∑ C ∈ n.actors.erase (owner r), n.held C r := by
      refine sum_congr rfl fun C hC => ?_
      have hne : C ≠ l.dest := hown ▸ (mem_erase.1 hC).1
      simp only [Net.deliver, update_of_ne hne]
    have hval : (n.deliver owner l rest).own r = n.own r + l.plus r - l.minus r - l.carry r :=
      if_pos hown
    rw [hsame, hval]
    show _ = _ + (rest.map (·.plus r)).sum
    omega
  have hne : l.dest ≠ owner r := fun e => hown e.symm
  obtain ⟨hplus, hminus⟩ := h.addressed l (hr.flight.mem_iff.2 (.head _)) r hne
  have hmem : l.dest ∈ n.actors.erase (owner r) := mem_erase.2 ⟨hne, hr.member⟩
  rw [← add_sum_erase _ _ hmem] at hbal ⊢
  have hsame : ∑ C ∈ (n.actors.erase (owner r)).erase l.dest, (n.deliver owner l rest).held C r =
      ∑ C ∈ (n.actors.erase (owner r)).erase l.dest, n.held C r := by
    refine sum_congr rfl fun C hC => ?_
    simp only [Net.deliver, update_of_ne (mem_erase.1 hC).1]
  have hval : (n.deliver owner l rest).own r = n.own r := if_neg hown
  have hheld : (n.deliver owner l rest).held l.dest r = n.held l.dest r + l.carry r := by
    simp only [Net.deliver, update_self, if_neg hown]
  rw [hsame, hval, hheld]
  show _ = _ + (rest.map (·.plus r)).sum
  omega

/-- **Delivering a letter in causal order keeps the invariant.** -/
theorem Good.deliver :
    Good owner (n.deliver owner l rest) where
  ids := (h.ids_rest hr).2
  fresh := fun k hk => h.fresh k (hr.flight.mem_iff.2 (.tail _ hk))
  addressed := fun k hk => h.addressed k (hr.flight.mem_iff.2 (.tail _ hk))
  balanced := h.deliver_balanced hr
  covered := h.deliver_covered hr

end

end

/-! ### New credits and new actors -/

/-- An actor gets credits on a resource that its owner counts at once. -/
def Net.grant [DecidableEq Res] (n : Net Actor Res) (B : Actor) (r : Res) (k : Nat) :
    Net Actor Res :=
  { n with
    own := update n.own r (n.own r + k)
    held := update n.held B (update (n.held B) r (n.held B r + k)) }

theorem Good.grant [DecidableEq Res] (h : Good owner n) {r : Res} {k : Nat} (hB : B ∈ n.actors)
    (hr : owner r ≠ B) : Good owner (n.grant B r k) := by
  have hheld : ∀ C q, (n.grant B r k).held C q =
      n.held C q + if C = B ∧ q = r then k else 0 := by
    intro C q
    simp only [Net.grant]
    by_cases hC : C = B
    · subst hC
      rw [update_self]
      by_cases hq : q = r
      · subst hq
        simp
      · simp [hq]
    · simp [hC]
  have hown : ∀ q, (n.grant B r k).own q = n.own q + if q = r then k else 0 := by
    intro q
    simp only [Net.grant]
    by_cases hq : q = r
    · subst hq
      simp
    · simp [hq]
  refine ⟨h.ids, h.fresh, h.addressed, fun q => ?_, fun q D hD => ?_⟩
  · have hbal := h.balanced q
    by_cases hq : q = r
    · subst hq
      have hmem : B ∈ n.actors.erase (owner q) := mem_erase.2 ⟨Ne.symm hr, hB⟩
      have hsum : ∑ C ∈ n.actors.erase (owner q), (n.grant B q k).held C q =
          ∑ C ∈ n.actors.erase (owner q), n.held C q + k := by
        simp only [hheld, and_true, Finset.sum_add_distrib, sum_ite_eq', hmem, if_true]
      show _ + (∑ C ∈ n.actors.erase (owner q), (n.grant B q k).held C q) + _ = _
      rw [hsum, hown, if_pos rfl]
      show _ = n.own q + k + (n.flight.map (·.plus q)).sum
      show (n.flight.map (·.minus q)).sum + _ + (n.flight.map (·.carry q)).sum = _
      omega
    have hsum : ∑ C ∈ n.actors.erase (owner q), (n.grant B r k).held C q =
        ∑ C ∈ n.actors.erase (owner q), n.held C q := by
      simp only [hheld, hq, and_false, if_false, add_zero]
    show _ + (∑ C ∈ n.actors.erase (owner q), (n.grant B r k).held C q) + _ = _
    rw [hsum, hown, if_neg hq]
    exact hbal
  have hcov := h.covered q D hD
  have hsum : holdings (n.grant B r k) (owner q) D q ≤
      holdings n (owner q) D q + if q = r then k else 0 := by
    by_cases hq : q = r
    · subst hq
      have hmem : B ∈ n.actors.erase (owner q) := mem_erase.2 ⟨Ne.symm hr, hB⟩
      rw [holdings, holdings, if_pos rfl]
      calc ∑ C ∈ n.actors.erase (owner q),
            gate (Sees n.flight (owner q) (n.know C) D) ((n.grant B q k).held C q)
          ≤ ∑ C ∈ n.actors.erase (owner q),
            (gate (Sees n.flight (owner q) (n.know C) D) (n.held C q) + if C = B then k else 0) := by
            refine sum_le_sum fun C _ => ?_
            rw [hheld]
            by_cases hs : Sees n.flight (owner q) (n.know C) D
            · rw [gate_pos hs, gate_pos hs]
              simp
            · rw [gate_neg hs]
              exact zero_le _
        _ = _ := by rw [Finset.sum_add_distrib, sum_ite_eq' _ _ fun _ => k, if_pos hmem]
    rw [if_neg hq, add_zero, holdings, holdings]
    refine sum_le_sum fun C _ => ?_
    rw [hheld, if_neg (fun e => hq e.2), add_zero]
    exact le_rfl
  show inbox n.flight (owner q) D (·.minus q) + _ + carried n.flight n.flight (owner q) D q ≤
    (n.grant B r k).own q + inbox n.flight (owner q) D (·.plus q)
  rw [hown]
  omega

/-- An actor joins. -/
def Net.join (n : Net Actor Res) (C : Actor) : Net Actor Res :=
  { n with actors := insert C n.actors }

theorem Good.join (h : Good owner n) {C : Actor} (hC : C ∉ n.actors) (hheld : ∀ r, n.held C r = 0) :
    Good owner (n.join C) := by
  have hsum : ∀ (A : Actor) (f : Actor → Nat), f C = 0 →
      ∑ B ∈ (insert C n.actors).erase A, f B = ∑ B ∈ n.actors.erase A, f B := by
    intro A f hf
    by_cases hA : C = A
    · subst hA
      rw [Finset.erase_insert hC, Finset.erase_eq_of_notMem hC]
    · rw [Finset.erase_insert_of_ne hA, Finset.sum_insert fun e => hC (Finset.mem_of_mem_erase e),
        hf, zero_add]
  refine ⟨h.ids, h.fresh, h.addressed, fun q => ?_, fun q D hD => ?_⟩
  · have hbal := h.balanced q
    show _ + (∑ B ∈ (insert C n.actors).erase (owner q), n.held B q) + _ = _
    rw [hsum _ (fun B => n.held B q) (hheld q)]
    exact hbal
  have hcov := h.covered q D hD
  have hsame : holdings (n.join C) (owner q) D q = holdings n (owner q) D q := by
    refine hsum _ (fun B => gate (Sees n.flight (owner q) (n.know B) D) (n.held B q)) ?_
    rw [hheld]
    exact le_zero.1 gate_le
  rw [hsame]
  exact hcov

end SpacePony.Credit
