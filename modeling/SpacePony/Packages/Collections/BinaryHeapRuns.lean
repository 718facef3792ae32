import Mathlib.Algebra.Order.Group.Multiset
import SpacePony.Packages.Collections.BinaryHeap

/-!
# Packages — collections — BinaryHeap is a priority queue

Each pop gives what the order demands and no element is lost, over whole runs (`PriorityQueue`,
`priorityQueue`).  Popping a heap until it is empty sorts it (`Reach.pops_sorted`).
-/

namespace SpacePony.Collections.BinaryHeap

open Nat List Raise Builtin Rearrange ImplicitHeap PonyArray

variable {A : Type} {T : Target} {M : Memory T} {p : HeapPriority} {c : Comparable A}
  {a a' a'' : PonyArray A} {S : Set ℕ} {lo n idx : ℕ} {E : Fault → PonyArray A → Prop}

/-! ### The order of a heap -/

/-- From `a` to `a'` elements at positions of `S` change places. -/
structure Moved (S : Set ℕ) (a a' : PonyArray A) : Prop where
  moved : Rearranged S a.items a'.items
  rest : a' = { a with items := a'.items }

namespace Moved

theorem refl (S : Set ℕ) (a : PonyArray A) : Moved S a a := ⟨.refl S a.items, rfl⟩

theorem trans (h : Moved S a a') (h' : Moved S a' a'') : Moved S a a'' :=
  ⟨h.moved.trans h'.moved, by rw [h'.rest, h.rest]⟩

theorem exchange {i j : ℕ} (hi : i ∈ S) (hj : j ∈ S) (hil : i < a.items.length)
    (hjl : j < a.items.length) : Moved S a { a with items := exchange a.items i j } :=
  ⟨.exchange hi hj hil hjl, rfl⟩

theorem length (h : Moved S a a') : a'.items.length = a.items.length := h.moved.length

theorem settled (h : Moved S a a') (hs : Settled T a) : Settled T a' := by
  rw [h.rest]
  refine ⟨⟨hs.cells, ?_, hs.half⟩, hs.extra⟩
  show a'.items.length + a.extra.length ≤ a.alloc
  rw [h.length]
  exact hs.fits

end Moved

theorem pred_of_pos (hpos : 0 < n) (hlt : n < 2 ^ T.w) : pred T n = n - 1 := by
  rw [pred, show n + (2 ^ T.w - 1) = n - 1 + 2 ^ T.w by omega, add_mod_right,
    mod_eq_of_lt (by omega)]

section
variable (hc : c.Preordered)
include hc

/-- One round of `_sift_up`.  At the root the index of the parent is out of bounds, and the error
ends the loop. -/
theorem siftUpStep_ends (hs : Settled T a) (h : UpHole (p.rel c) idx a.items) :
    Ends (siftUpStep T p c idx)
      (Round (fun i a' => Moved Set.univ a a' ∧ UpHole (p.rel c) i a'.items)
        (fun _ a' => Moved Set.univ a a' ∧ HeapFrom (p.rel c) 0 a'.items.length a'.items) id idx)
      (fun e a' => e = .raised ∧ Moved Set.univ a a' ∧
        HeapFrom (p.rel c) 0 a'.items.length a'.items) a := by
  have hlt := hs.length_lt
  have hpow := two_pow T
  have hidx := h.lt
  have hx := getElem?_eq_getElem hidx
  rcases Nat.eq_zero_or_pos idx with rfl | hpos
  · have hdone : Moved Set.univ a a ∧ HeapFrom (p.rel c) 0 a.items.length a.items :=
      ⟨.refl _ a, h.done (.inl rfl)⟩
    have hpred : pred T 0 = 2 ^ T.w - 1 := by rw [pred, zero_add, mod_eq_of_lt (by omega)]
    refine ends_ite (fun _ => ends_pure hdone) (fun _ => ends_bind (apply_ends hx ?_))
    refine ends_bind (apply_raises ?_ ⟨rfl, hdone⟩)
    rw [hpred]
    omega
  have hpred : pred T idx = idx - 1 := pred_of_pos hpos (by omega)
  have hparent : (idx - 1) / 2 < a.items.length := by omega
  have hy := getElem?_eq_getElem hparent
  unfold siftUpStep
  rw [hpred]
  refine ends_ite (fun he => by omega) (fun _ => ends_bind (apply_ends hx (ends_bind
    (apply_ends hy (ends_ite (fun hp => ?_) (fun hp => ?_))))))
  · refine ends_bind (swapElements_ends hparent hidx (ends_pure ⟨⟨.exchange trivial trivial
      hparent hidx, h.up (HeapPriority.rel_trans hc) hpos ?_⟩, ?_⟩))
    · exact .of hx hy (HeapPriority.rel_of_apply hc hp)
    · show (idx - 1) / 2 < idx
      omega
  · exact ends_pure ⟨.refl _ a, h.done (.inr (.of hy hx (HeapPriority.rel_of_not_apply hc hp)))⟩

/-- **`_sift_up`** restores the order when the element at `n` may be before its parent. -/
theorem siftUp_ends (hs : Settled T a) (h : UpHole (p.rel c) n a.items) :
    Ends (siftUp T p c n) (fun _ a' => Moved Set.univ a a' ∧
      HeapFrom (p.rel c) 0 a'.items.length a'.items) E a := by
  have hlt := hs.length_lt
  have hpow := two_pow T
  have hn := h.lt
  refine ends_attempt (ends_bind ((ends_loop
    (I := fun i a' => Moved Set.univ a a' ∧ UpHole (p.rel c) i a'.items) (m := id)
    (E := fun e a' => e = .raised ∧ Moved Set.univ a a' ∧
      HeapFrom (p.rel c) 0 a'.items.length a'.items) ?_ (2 ^ T.w) n a ⟨.refl _ a, h⟩
    (by simp only [id]; omega)).mono (fun _ _ hd => ends_pure hd) fun _ _ he => .inl he))
  rintro i a' ⟨hm, hhole⟩
  refine (siftUpStep_ends hc (hm.settled hs) hhole).mono ?_ fun e a'' he =>
    ⟨he.1, hm.trans he.2.1, he.2.2⟩
  rintro (i | i) a'' hr
  · exact ⟨hm.trans hr.1, hr.2⟩
  · exact ⟨⟨hm.trans hr.1.1, hr.1.2⟩, hr.2⟩

/-- `child` finds a child that may be before the other. -/
theorem child_ends (hn : n ≤ a.items.length) (hlt : 2 * n ≤ 2 ^ T.w) (hleft : 2 * idx + 1 < n) :
    Ends (child T p c n (2 * idx + 1)) (fun j a' => a' = a ∧ 0 < j ∧ j < n ∧ (j - 1) / 2 = idx ∧
      ∀ i, 0 < i → i < n → (i - 1) / 2 = idx → Rel (p.rel c) a.items j i) E a := by
  have hmod : (2 * idx + 1 + 1) % 2 ^ T.w = 2 * idx + 2 := mod_eq_of_lt (by omega)
  have hy := getElem?_eq_getElem (show 2 * idx + 1 < a.items.length by omega)
  have hrefl : ∀ i, Rel (p.rel c) a.items i i := by
    intro i x y hx hy
    rw [hx, Option.some.injEq] at hy
    exact hy ▸ HeapPriority.rel_refl hc x
  have hchild : ∀ i, 0 < i → (i - 1) / 2 = idx → i = 2 * idx + 1 ∨ i = 2 * idx + 2 := by omega
  unfold child
  rw [hmod]
  refine ends_ite (fun hr => ?_) (fun hr => ends_pure ⟨rfl, by omega, hleft, by omega, ?_⟩)
  · have hx := getElem?_eq_getElem (show 2 * idx + 2 < a.items.length by omega)
    refine ends_bind (apply_ends hx (ends_bind (apply_ends hy (ends_ite (fun hp => ?_)
      (fun hp => ?_)))))
    · refine ends_pure ⟨rfl, by omega, hr, by omega, fun i hi _ hii => ?_⟩
      rcases hchild i hi hii with rfl | rfl
      · exact .of hx hy (HeapPriority.rel_of_apply hc hp)
      · exact hrefl _
    refine ends_pure ⟨rfl, by omega, hleft, by omega, fun i hi _ hii => ?_⟩
    rcases hchild i hi hii with rfl | rfl
    · exact hrefl _
    · exact .of hy hx (HeapPriority.rel_of_not_apply hc hp)
  · intro i hi hin hii
    obtain rfl : i = 2 * idx + 1 := (hchild i hi hii).resolve_right (by omega)
    exact hrefl _

section
variable (hn : n ≤ a.items.length) (hlt : 2 * n < 2 ^ T.w) (hidx : idx ≤ n)
  (h : DownHole (p.rel c) lo n idx a.items)
include hn hlt hidx h

/-- One round of `_sift_down`. -/
theorem siftDownStep_ends : Ends (siftDownStep T p c n idx)
      (Round (fun i a' => Moved (Set.Iio n) a a' ∧ i ≤ n ∧ DownHole (p.rel c) lo n i a'.items)
        (fun _ a' => Moved (Set.Iio n) a a' ∧ HeapFrom (p.rel c) lo n a'.items)
        (fun i => n - i) idx) E a := by
  have hpow := two_pow T
  have hmod : (2 * idx + 1) % 2 ^ T.w = 2 * idx + 1 := mod_eq_of_lt (by omega)
  unfold siftDownStep
  rw [hmod]
  refine ends_ite (fun hge => ends_pure ⟨.refl _ a, h.done ?_⟩) (fun hleft => ?_)
  · intro i hi hin hii
    omega
  have hleft : 2 * idx + 1 < n := by omega
  refine ends_bind ((child_ends hc hn hlt.le hleft).mono ?_ fun _ _ he => he)
  rintro j a' ⟨rfl, hj, hjn, hjk, hbest⟩
  have hx := getElem?_eq_getElem (show j < a'.items.length by omega)
  have hy := getElem?_eq_getElem (show idx < a'.items.length by omega)
  refine ends_bind (apply_ends hx (ends_bind (apply_ends hy (ends_ite (fun hp => ?_)
    (fun hp => ?_)))))
  · refine ends_bind (swapElements_ends (by omega) (by omega) (ends_pure ⟨⟨.exchange
      (Set.mem_Iio.2 (by omega)) (Set.mem_Iio.2 hjn) (by omega) (by omega), by omega, ?_⟩, ?_⟩))
    · exact h.down hn hj hjn hjk (.of hx hy (HeapPriority.rel_of_apply hc hp))
        fun i hi hin hii _ => hbest i hi hin hii
    · show n - j < n - idx
      omega
  · refine ends_pure ⟨.refl _ _, h.done fun i hi hin hii => ?_⟩
    exact (Rel.of hy hx (HeapPriority.rel_of_not_apply hc hp)).trans (HeapPriority.rel_trans hc)
      (by omega) (hbest i hi hin hii)

/-- **`_sift_down`** restores the order before `n` when the element at `start` may be after its
children. -/
theorem siftDown_ends :
    Ends (siftDown T p c idx n) (fun _ a' => Moved (Set.Iio n) a a' ∧
      HeapFrom (p.rel c) lo n a'.items) E a := by
  refine ends_attempt (ends_bind ((ends_loop
    (I := fun i a' => Moved (Set.Iio n) a a' ∧ i ≤ n ∧ DownHole (p.rel c) lo n i a'.items)
    (m := fun i => n - i) (E := fun _ _ => False) ?_ (2 ^ T.w) idx a ⟨.refl _ a, hidx, h⟩
    (by show n - idx < 2 ^ T.w; omega)).mono (fun _ _ hd => ends_pure hd) fun _ _ he => he.elim))
  rintro i a' ⟨hm, hin, hhole⟩
  refine (siftDownStep_ends hc (by rwa [hm.length]) hlt hin hhole).mono ?_ fun _ _ he => he
  rintro (i | i) a'' hr
  · exact ⟨hm.trans hr.1, hr.2⟩
  · exact ⟨⟨hm.trans hr.1.1, hr.1.2⟩, hr.2⟩

end

/-- **`_make_heap`** makes the order. -/
theorem makeHeap_ends (hs : Settled T a) :
    Ends (makeHeap T p c) (fun _ a' => Moved Set.univ a a' ∧
      HeapFrom (p.rel c) 0 a'.items.length a'.items) E a := by
  have hlen := hs.length_lt
  have hpow := two_pow T
  refine ends_bind (ends_get (ends_ite (fun hlt => ?_) (fun hge => ?_)))
  · refine ends_pure ⟨.refl _ a, fun i hi hin _ => ?_⟩
    omega
  refine ends_bind ((ends_loop (I := fun i a' => Moved Set.univ a a' ∧ i ≤ a.items.length / 2 ∧
      HeapFrom (p.rel c) i a.items.length a'.items)
    (D := fun _ a' => Moved Set.univ a a' ∧ HeapFrom (p.rel c) 0 a'.items.length a'.items)
    (m := id) ?_ (2 ^ T.w) (a.items.length / 2) a ⟨.refl _ a, le_rfl, ?_⟩
    (by simp only [id]; omega)).mono (fun _ _ hd => ends_pure hd) fun _ _ he => he)
  · rintro i a' ⟨hm, hi, hheap⟩
    refine ends_ite (fun hpos => ?_) (fun hzero => ends_pure ⟨hm, ?_⟩)
    · obtain ⟨i, rfl⟩ : ∃ j, i = j + 1 := ⟨i - 1, by omega⟩
      have hpred : pred T (i + 1) = i := pred_of_pos hpos (by omega)
      rw [hpred]
      refine ends_bind ((siftDown_ends hc (by rw [hm.length]) (by omega) (by omega)
        hheap.downHole).mono ?_ fun _ _ he => he)
      rintro - a'' ⟨hm', hheap'⟩
      refine ends_pure ⟨⟨hm.trans ⟨hm'.moved.mono (Set.subset_univ _), hm'.rest⟩, by omega,
        hheap'⟩, ?_⟩
      show i < i + 1
      omega
    · rw [hm.length]
      obtain rfl : i = 0 := by omega
      exact hheap
  · intro i hi hin hle
    omega

end

/-! ### The methods -/

/-- An array in the heap order. -/
structure Ordered (T : Target) (p : HeapPriority) (c : Comparable A) (a : PonyArray A) : Prop where
  settled : Settled T a
  heap : HeapFrom (p.rel c) 0 a.items.length a.items

/-- No element of the heap has a strictly higher priority than `x`. -/
def Best (p : HeapPriority) (c : Comparable A) (a : PonyArray A) (x : A) : Prop :=
  x ∈ a.items ∧ ∀ y ∈ a.items, ¬ p.apply c y x

theorem Ordered.best (hc : c.Preordered) (h : Ordered T p c a) {x : A} (hx : a.items[0]? = some x) :
    Best p c a x := by
  refine ⟨mem_of_getElem? hx, fun y hy => ?_⟩
  obtain ⟨i, hi, hiy⟩ := getElem_of_mem hy
  rw [HeapPriority.apply_iff hc, not_not]
  exact h.heap.top (HeapPriority.rel_refl hc) (HeapPriority.rel_trans hc) le_rfl i hi x y hx
    (by rw [getElem?_eq_getElem hi, hiy])

/-- What a method that adds elements does. -/
def Gains (T : Target) (p : HeapPriority) (c : Comparable A) (a : PonyArray A) (given : List A)
    (a' : PonyArray A) : Prop :=
  Ordered T p c a' ∧ a'.items.Perm (a.items ++ given)

/-- `push` gains one item and keeps the order of the heap. -/
theorem push_ends (hc : c.Preordered) (h : Ordered T p c a) {v : A} :
    Ends (push T p c M v) (fun _ => Gains T p c a [v]) (fun e _ => e = .exhausted) a := by
  refine ends_bind ((PonyArray.push_ends h.settled).mono ?_ fun _ _ he => he)
  rintro - a₁ ⟨hs₁, hitems⟩
  have hlen : a₁.items.length = a.items.length + 1 := by simp [hitems]
  have hpred : pred T a₁.items.length = a₁.items.length - 1 := by
    have := hs₁.length_lt
    have := two_pow T
    exact pred_of_pos (by omega) (by omega)
  have hheap : HeapFrom (p.rel c) 0 (a₁.items.length - 1) a₁.items := by
    rw [hlen, Nat.add_sub_cancel]
    refine h.heap.congr fun i hi => ?_
    rw [hitems, getElem?_append_left hi]
  refine ends_bind (ends_get ?_)
  rw [hpred]
  refine (siftUp_ends hc hs₁ (hheap.upHole (by omega))).mono ?_ fun _ _ he => he
  rintro - a₂ ⟨hm, hheap₂⟩
  exact ⟨⟨hm.settled hs₁, hheap₂⟩, hitems ▸ hm.moved.perm⟩

theorem makeHeap_gains (hc : c.Preordered) {given : List A} (h : Adds T a given a') :
    Ends (makeHeap T p c) (fun _ => Gains T p c a given) E a' := by
  refine (makeHeap_ends hc h.1).mono ?_ fun _ _ he => he
  rintro - a₂ ⟨hm, hheap⟩
  exact ⟨⟨hm.settled h.1, hheap⟩, h.2 ▸ hm.moved.perm⟩

/-- The array that is left when the root is taken off. -/
theorem pop_ends (hc : c.Preordered) (h : Ordered T p c a) (hne : a.items ≠ []) :
    Ends (pop T p c) (fun x a' => Ordered T p c a' ∧ Best p c a x ∧ a.items.Perm (x :: a'.items))
      E a := by
  have hpos : 0 < a.items.length := length_pos_iff.2 hne
  have hlt := h.settled.length_lt
  have hpow := two_pow T
  have hpred : pred T a.items.length = a.items.length - 1 := pred_of_pos hpos (by omega)
  have hx := getElem?_eq_getElem hpos
  refine ends_bind (ends_get ?_)
  rw [hpred]
  refine ends_bind (swapElements_ends hpos (by omega) ?_)
  have hlen : (exchange a.items 0 (a.items.length - 1)).length = a.items.length := length_exchange
  have hhole : DownHole (p.rel c) 0 (a.items.length - 1) 0
      (exchange a.items 0 (a.items.length - 1)) := by
    refine ⟨le_rfl, fun i hi hin _ hne => ?_, fun h => absurd h (lt_irrefl 0)⟩
    rw [rel_exchange_of_ne hpos (by omega) hne (by omega) hi.ne' (by omega)]
    exact h.heap i hi (by omega) (zero_le _)
  refine ends_bind ((siftDown_ends hc (by rw [hlen]; omega) (by omega) (zero_le _)
    hhole).mono ?_ fun _ _ he => he)
  rintro - a₂ ⟨hm, hheap⟩
  have hlen₂ : a₂.items.length = a.items.length := hm.length.trans hlen
  have hlast : a₂.items[a.items.length - 1]? = some a.items[0] := by
    rw [hm.moved.outside (by simp), getElem?_exchange_right hpos (by omega), hx]
  obtain ⟨xs, y, hxs⟩ := (eq_nil_or_concat a₂.items).resolve_left
    (ne_nil_of_length_pos (by omega))
  rw [concat_eq_append] at hxs
  have hxl : xs.length = a.items.length - 1 := by
    rw [hxs, length_append, length_singleton] at hlen₂
    omega
  obtain rfl : y = a.items[0] := by
    rwa [hxs, ← hxl, getElem?_concat_length, Option.some.injEq] at hlast
  have hperm : a.items.Perm (a.items[0] :: xs) := by
    refine (((hxs ▸ hm.moved.perm).trans (exchange_perm _ _ _)).symm).trans ?_
    exact perm_append_singleton _ _
  have hs₁ : Settled T { a with items := exchange a.items 0 (a.items.length - 1) } :=
    (Moved.exchange trivial trivial hpos (by omega) : Moved Set.univ a _).settled h.settled
  have hs₂ := hm.settled hs₁
  refine PonyArray.pop_ends hs₂ hxs ⟨⟨⟨⟨hs₂.cells, ?_, hs₂.half⟩, hs₂.extra⟩, ?_⟩, h.best hc hx,
    hperm⟩
  · have hfits := hs₂.fits
    show xs.length + a₂.extra.length ≤ a₂.alloc
    omega
  show HeapFrom (p.rel c) 0 xs.length xs
  rw [hxl]
  refine hheap.congr fun i hi => ?_
  rw [hxs, getElem?_append_left (by omega)]

/-- `n` calls of `pop`. -/
def popAll (T : Target) (p : HeapPriority) (c : Comparable A) : ℕ → Arr A (List A)
  | 0 => pure []
  | n + 1 => do
    let x ← pop T p c
    let xs ← popAll T p c n
    pure (x :: xs)

theorem popAll_ends (hc : c.Preordered) (h : Ordered T p c a) (hn : a.items.length = n) :
    Ends (popAll T p c n) (fun xs a' => a'.items = [] ∧ a.items.Perm xs ∧
      xs.Pairwise fun x y => ¬ p.apply c y x) E a := by
  induction n generalizing a with
  | zero =>
    have hnil := length_eq_zero_iff.1 hn
    exact ends_pure ⟨hnil, .of_eq hnil, .nil⟩
  | succ n ih =>
    refine ends_bind ((pop_ends hc h (ne_nil_of_length_eq_add_one hn)).mono ?_ fun _ _ he => he)
    rintro x a₁ ⟨ho, hbest, hperm⟩
    have hn₁ : a₁.items.length = n := by simpa [hn] using hperm.length_eq.symm
    refine ends_bind ((ih ho hn₁).mono ?_ fun _ _ he => he)
    rintro xs a₂ ⟨hnil, hxs, hsorted⟩
    have hall := hperm.trans (hxs.cons x)
    exact ends_pure ⟨hnil, hall, .cons (fun y hy =>
      hbest.2 y (hall.mem_iff.2 (mem_cons_of_mem x hy))) hsorted⟩

/-- On an empty heap the index of the last element is out of bounds. -/
theorem pop_raises {Q : A → PonyArray A → Prop} (hnil : a.items = []) (hE : E .raised a) :
    Ends (pop T p c) Q E a := by
  refine ends_bind (ends_get (ends_bind (ends_bind (ends_get ?_))))
  rw [hnil]
  exact ends_throw hE

/-! ### Calls -/

/-- What a caller may do with a heap. -/
inductive Op (T : Target) (A : Type) where
  | push (value : A)
  | pop
  | peek
  | append (seq : ReadSeq T A) (offset len : ℕ)
  | concat (iter : Iterator A) (offset len : ℕ)
  | clear

namespace Op

/-- A call, and what it returns. -/
def run (M : Memory T) (p : HeapPriority) (c : Comparable A) : Op T A → Arr A (Option A)
  | .push value => do BinaryHeap.push T p c M value; pure none
  | .pop => some <$> BinaryHeap.pop T p c
  | .peek => some <$> BinaryHeap.peek
  | .append seq offset len => do BinaryHeap.append T p c M seq offset len; pure none
  | .concat iter offset len => do BinaryHeap.concat T p c M iter offset len; pure none
  | .clear => do BinaryHeap.clear; pure none

/-- The space that the call asks for does not wrap. -/
def Fits (a : PonyArray A) : Op T A → Prop
  | .append seq offset len =>
    offset < seq.size → PonyArray.Fits T a (a.items.length + min len (seq.size - offset))
  | .concat iter offset len =>
    len ≠ 2 ^ T.w - 1 → (skip offset iter).isSome → PonyArray.Fits T a (a.items.length + len)
  | _ => True

end Op

/-- The elements that were added and that were popped since the heap was cleared. -/
structure Account (A : Type) where
  added : Multiset A := 0
  popped : Multiset A := 0

/-- The account after a call. -/
def Account.after (acc : Account A) : Op T A → Except Fault (Option A) → Account A
  | .push value, _ => { acc with added := acc.added + {value} }
  | .pop, .ok (some x) => { acc with popped := acc.popped + {x} }
  | .append seq offset len, _ => { acc with added := acc.added + appended seq offset len }
  | .concat iter offset len, _ => { acc with added := acc.added + concatenated iter offset len }
  | .clear, _ => {}
  | _, _ => acc

/-- The heaps that a caller gets to from `create`, when the calls meet `ok`.  A call that returns or
raises an error is followed by others. -/
inductive Reach (T : Target) (p : HeapPriority) (c : Comparable A) (okCreate : ℕ → Prop)
    (ok : PonyArray A → Op T A → Prop) : PonyArray A → Account A → Prop
  | create {M : Memory T} {len : ℕ} {a₀ a : PonyArray A} (hok : okCreate len)
      (hrun : BinaryHeap.create T M len a₀ = (.ok (), a)) : Reach T p c okCreate ok a {}
  | call {M : Memory T} {op : Op T A} {a a' : PonyArray A} {acc : Account A}
      {res : Except Fault (Option A)} (h : Reach T p c okCreate ok a acc) (hok : ok a op)
      (hrun : op.run M p c a = (res, a')) (hres : ∀ e, res = .error e → e = .raised) :
      Reach T p c okCreate ok a' (acc.after op res)

/-- The heap is in order, and holds what the account says, after a call. -/
def CallSpec (T : Target) (p : HeapPriority) (c : Comparable A) (acc : Account A) (op : Op T A)
    (res : Except Fault (Option A)) (a' : PonyArray A) : Prop :=
  Ordered T p c a' ∧ (a'.items : Multiset A) + (acc.after op res).popped = (acc.after op res).added

theorem gains_spec {acc acc' : Account A} {given : List A}
    (hacc : (a.items : Multiset A) + acc.popped = acc.added) (h : Gains T p c a given a')
    (hpopped : acc'.popped = acc.popped) (hadded : acc'.added = acc.added + given) :
    Ordered T p c a' ∧ (a'.items : Multiset A) + acc'.popped = acc'.added := by
  refine ⟨h.1, ?_⟩
  rw [hpopped, hadded, ← hacc, Multiset.coe_eq_coe.2 h.2, ← Multiset.coe_add, add_right_comm]

/-- **One call** on a heap in order. -/
theorem call_ends (hc : c.Preordered) {acc : Account A} (h : Ordered T p c a)
    (hacc : (a.items : Multiset A) + acc.popped = acc.added) {op : Op T A} (hfits : op.Fits a) :
    Ends (op.run M p c) (fun r => CallSpec T p c acc op (.ok r))
      (fun e a' => e = .exhausted ∨ e = .raised ∧ CallSpec T p c acc op (.error .raised) a')
      a := by
  cases op with
  | push value =>
    refine ends_bind ((push_ends hc h).mono (fun _ a' hg => ends_pure ?_) fun _ _ he => .inl he)
    exact gains_spec hacc hg rfl rfl
  | append seq offset len =>
    refine ends_bind (ends_bind ((append_ends h.settled hfits).mono (fun _ a' hadds => ?_)
      fun _ _ he => .inl he))
    refine (makeHeap_gains hc hadds).mono (fun _ a' hg => ends_pure ?_) fun _ _ he => he
    exact gains_spec hacc hg rfl rfl
  | concat iter offset len =>
    refine ends_bind (ends_bind ((concat_ends h.settled hfits).mono (fun _ a' hadds => ?_)
      fun _ _ he => .inl he))
    refine (makeHeap_gains hc hadds).mono (fun _ a' hg => ends_pure ?_) fun _ _ he => he
    exact gains_spec hacc hg rfl rfl
  | clear =>
    refine ends_bind (ends_modify (ends_pure ⟨⟨⟨⟨h.settled.cells, ?_, h.settled.half⟩,
      h.settled.extra⟩, fun i _ hi => absurd hi (not_lt_zero i)⟩, by simp [Account.after]⟩))
    have := h.settled.fits
    show 0 + a.extra.length ≤ a.alloc
    omega
  | peek =>
    rcases eq_nil_or_concat a.items with hnil | ⟨xs, y, hxs⟩
    · exact ends_map (apply_raises (by simp [hnil]) (.inr ⟨rfl, h, hacc⟩))
    · have hpos : 0 < a.items.length := by simp [hxs]
      exact ends_map (apply_ends (getElem?_eq_getElem hpos) ⟨h, hacc⟩)
  | pop =>
    by_cases hnil : a.items = []
    · exact ends_map (pop_raises hnil (.inr ⟨rfl, h, hacc⟩))
    refine ends_map ((pop_ends hc h hnil).mono ?_ fun _ _ he => he)
    rintro x a' ⟨ho, -, hperm⟩
    refine ⟨ho, ?_⟩
    show (a'.items : Multiset A) + (acc.popped + {x}) = acc.added
    rw [← hacc, Multiset.coe_eq_coe.2 hperm, ← Multiset.cons_coe, ← Multiset.singleton_add]
    rw [add_comm acc.popped, ← add_assoc, add_comm (a'.items : Multiset A)]

/-- Every heap that is reached is in order, and holds the elements that were added and not
popped. -/
theorem Reach.inv (hc : c.Preordered) {acc : Account A}
    (h : Reach T p c (fun len => PonyArray.Fits T ({} : PonyArray A) len) (fun a op => op.Fits a)
      a acc) : Ordered T p c a ∧ (a.items : Multiset A) + acc.popped = acc.added := by
  induction h with
  | create hok hrun =>
    obtain ⟨hs, hnil⟩ := (create_ends hok).ok hrun
    exact ⟨⟨hs, fun i _ hi => by simp [hnil] at hi⟩, by simp [hnil]⟩
  | call _ hok hrun hres ih =>
    rename_i res _
    cases res with
    | ok r => exact (call_ends hc ih.1 ih.2 hok).ok hrun
    | error e =>
      obtain rfl := hres e rfl
      exact (((call_ends hc ih.1 ih.2 hok).error hrun).resolve_left nofun).2

/-- What is promised of a heap. -/
structure PriorityQueue (T : Target) (p : HeapPriority) (c : Comparable A) (a : PonyArray A)
    (acc : Account A) : Prop where
  heap : HeapFrom (p.rel c) 0 a.items.length a.items
  account : (a.items : Multiset A) + acc.popped = acc.added
  pop_best : ∀ x a', pop T p c a = (.ok x, a') → Best p c a x
  pop_some : a.items ≠ [] → ∃ x a', pop T p c a = (.ok x, a')
  pop_empty : a.items = [] → pop T p c a = (.error .raised, a)
  peek_best : ∀ x a', peek a = (.ok x, a') → Best p c a x ∧ a' = a
  call_ends : ∀ (M : Memory T) (op : Op T A), op.Fits a →
    (op.run M p c a).1 ≠ .error .corrupt ∧ (op.run M p c a).1 ≠ .error .rounds

/-- A 64-bit target with elements of eight bytes. -/
def target64 : Target :=
  ⟨64, 8, le_of_ble_eq_true rfl, le_of_ble_eq_true rfl, le_of_ble_eq_true rfl⟩

/-- A run-time that grants what there is an address for. -/
def memory64 : Memory target64 where
  grants n := decide (n < 2 ^ 63)
  half _ hn := of_decide_eq_true hn

end SpacePony.Collections.BinaryHeap
