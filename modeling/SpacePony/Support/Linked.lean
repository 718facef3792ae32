import Mathlib.Data.List.Nodup
import Mathlib.Tactic

/-!
# Support — doubly linked chains

Elements that point to a next and a previous element, as the nodes of a doubly linked list do.
`Links.insert` and `Links.erase` say what the pointers must become when an element is put between
two neighbours, or is taken out from between them.
-/

namespace SpacePony.Linked

open Option List

variable {ι : Type*}

/-- Following `f` from `a` runs through `xs` and ends. -/
inductive Chain (f : ι → Option ι) : Option ι → List ι → Prop
  | nil : Chain f none []
  | cons {n : ι} {xs : List ι} (h : Chain f (f n) xs) : Chain f (some n) (n :: xs)

variable {f : ι → Option ι} {a : Option ι}

/-- Following the same pointers from the same place gives the same elements. -/
theorem Chain.unique {xs ys : List ι} (h : Chain f a xs) (h' : Chain f a ys) : xs = ys := by
  induction h generalizing ys with
  | nil =>
    cases h' with
    | nil => rfl
  | cons _ ih =>
    cases h' with
    | cons h' => rw [ih h']

/-- Following `f` from the element at `i` runs through the rest. -/
theorem Chain.drop {xs : List ι} (h : Chain f a xs) (i : ℕ) : Chain f xs[i]? (xs.drop i) := by
  induction h generalizing i with
  | nil => simpa using Chain.nil
  | cons h ih =>
    cases i with
    | zero => exact .cons h
    | succ i => simpa using ih i

/-- Nothing follows the last element. -/
theorem Chain.last {xs : List ι} {x : ι} (h : Chain f a (xs ++ [x])) : f x = none := by
  have hx := h.drop xs.length
  rw [getElem?_concat_length, drop_left] at hx
  cases hx with
  | cons hx =>
    generalize f x = o at hx
    cases hx
    rfl

/-- The elements of `xs` are linked in this order, between `p` and `q`. -/
def Links (next prev : ι → Option ι) : Option ι → List ι → Option ι → Prop
  | _, [], _ => True
  | p, n :: xs, q => prev n = p ∧ next n = xs.head?.or q ∧ Links next prev (some n) xs q

section
variable {next prev next' prev' : ι → Option ι} {p q p' q' : Option ι} {xs ys : List ι} {x : ι}

@[simp] theorem links_nil : Links next prev p [] q := trivial

theorem links_cons : Links next prev p (x :: xs) q ↔
    prev x = p ∧ next x = xs.head?.or q ∧ Links next prev (some x) xs q := Iff.rfl

theorem links_append : Links next prev p (xs ++ ys) q ↔
    Links next prev p xs (ys.head?.or q) ∧ Links next prev (xs.getLast?.or p) ys q := by
  induction xs generalizing p with
  | nil => simp
  | cons x xs ih =>
    have hlast : (x :: xs).getLast?.or p = xs.getLast?.or (some x) := by
      rw [getLast?_cons]
      cases xs.getLast? <;> rfl
    rw [cons_append, links_cons, links_cons, ih, hlast, head?_append, Option.or_assoc]
    tauto

/-- Only the pointers of the elements themselves matter. -/
theorem Links.congr (h : Links next prev p xs q)
    (e : ∀ n ∈ xs, next' n = next n ∧ prev' n = prev n) : Links next' prev' p xs q := by
  induction xs generalizing p with
  | nil => trivial
  | cons x xs ih =>
    obtain ⟨hp, hn, hl⟩ := h
    obtain ⟨e₁, e₂⟩ := e x (.head _)
    exact ⟨e₂.trans hp, e₁.trans hn, ih hl fun n hn => e n (.tail _ hn)⟩

/-- The same elements, with another element before the first. -/
theorem Links.before [DecidableEq ι] (h : Links next prev p xs q) (nd : xs.Nodup)
    (hn : ∀ n ∈ xs, next' n = next n)
    (hp : ∀ n ∈ xs, prev' n = if xs.head? = some n then p' else prev n) :
    Links next' prev' p' xs q := by
  cases xs with
  | nil => trivial
  | cons x xs =>
    obtain ⟨-, hx, hl⟩ := h
    refine ⟨by simpa using hp x (.head _),
      (hn x (.head _)).trans hx, hl.congr fun n hm => ?_⟩
    have hne : ¬ x = n := fun e => (nodup_cons.1 nd).1 (e ▸ hm)
    refine ⟨hn n (.tail _ hm), ?_⟩
    simpa [hne] using hp n (.tail _ hm)

/-- The same elements, with another element after the last. -/
theorem Links.after [DecidableEq ι] (h : Links next prev p xs q) (nd : xs.Nodup)
    (hp : ∀ n ∈ xs, prev' n = prev n)
    (hn : ∀ n ∈ xs, next' n = if xs.getLast? = some n then q' else next n) :
    Links next' prev' p xs q' := by
  induction xs using reverseRecOn with
  | nil => trivial
  | append_singleton xs x _ =>
    rw [links_append] at h ⊢
    obtain ⟨hl, hx, -, -⟩ := h
    refine ⟨hl.congr fun n hm => ?_, (hp x (by simp)).trans hx, by simpa using hn x (by simp),
      trivial⟩
    have hne : ¬ x = n := by
      rintro rfl
      exact (disjoint_of_nodup_append nd) hm (by simp)
    refine ⟨by simpa [hne] using hn n (by simp [hm]), hp n (by simp [hm])⟩

theorem Links.chain_next (h : Links next prev p xs none) : Chain next xs.head? xs := by
  induction xs generalizing p with
  | nil => exact .nil
  | cons x xs ih =>
    obtain ⟨-, hx, hl⟩ := h
    rw [or_none] at hx
    exact .cons (hx ▸ ih hl)

theorem Links.chain_prev (h : Links next prev none xs q) : Chain prev xs.getLast? xs.reverse := by
  induction xs using reverseRecOn generalizing q with
  | nil => exact .nil
  | append_singleton xs x ih =>
    obtain ⟨hl, hx, -⟩ := links_append.1 h
    rw [or_none] at hx
    rw [getLast?_concat, reverse_append]
    exact .cons (hx ▸ ih hl)

end

section
variable {next prev next' prev' : ι → Option ι} {as bs : List ι} {x : ι}

/-- The pointers of an element in its place. -/
theorem Links.at_mem (h : Links next prev none (as ++ x :: bs) none) :
    prev x = as.getLast? ∧ next x = bs.head? := by
  obtain ⟨-, hp, hn, -⟩ := links_append.1 h
  exact ⟨by simpa using hp, by simpa using hn⟩

/-- **Putting an element between two neighbours.** -/
theorem Links.insert [DecidableEq ι] (h : Links next prev none (as ++ bs) none)
    (nd : (as ++ x :: bs).Nodup) (hn : ∀ n, next' n =
      if n = x then bs.head? else if as.getLast? = some n then some x else next n)
    (hp : ∀ n, prev' n =
      if n = x then as.getLast? else if bs.head? = some n then some x else prev n) :
    Links next' prev' none (as ++ x :: bs) none := by
  obtain ⟨ha, hb⟩ := links_append.1 h
  obtain ⟨nda, ndxb, disj⟩ := nodup_append'.1 nd
  obtain ⟨hxb, ndb⟩ := nodup_cons.1 ndxb
  have hxa : x ∉ as := fun hm => disj hm (.head _)
  rw [links_append, links_cons]
  refine ⟨ha.after nda (fun n hm => ?_) (fun n hm => ?_), ?_, ?_,
    hb.before ndb (fun n hm => ?_) (fun n hm => ?_)⟩
  · have hb : bs.head? ≠ some n := fun e =>
      disj hm (.tail _ (mem_of_mem_head? e))
    rw [hp, if_neg (ne_of_mem_of_not_mem hm hxa), if_neg hb]
  · rw [hn, if_neg (ne_of_mem_of_not_mem hm hxa), head?_cons, some_or]
  · rw [hp, if_pos rfl, or_none]
  · rw [hn, if_pos rfl, or_none]
  · have ha : as.getLast? ≠ some n := fun e =>
      disj (mem_of_mem_getLast? e) (.tail _ hm)
    rw [hn, if_neg (ne_of_mem_of_not_mem hm hxb), if_neg ha]
  · rw [hp, if_neg (ne_of_mem_of_not_mem hm hxb)]

/-- **Taking an element out from between its neighbours.** -/
theorem Links.erase [DecidableEq ι] (h : Links next prev none (as ++ x :: bs) none)
    (nd : (as ++ x :: bs).Nodup)
    (hn : ∀ n, n ≠ x → next' n = if as.getLast? = some n then bs.head? else next n)
    (hp : ∀ n, n ≠ x → prev' n = if bs.head? = some n then as.getLast? else prev n) :
    Links next' prev' none (as ++ bs) none := by
  obtain ⟨ha, -, -, hb⟩ := links_append.1 h
  obtain ⟨nda, ndxb, disj⟩ := nodup_append'.1 nd
  obtain ⟨hxb, ndb⟩ := nodup_cons.1 ndxb
  have hxa : x ∉ as := fun hm => disj hm (.head _)
  rw [links_append, or_none, or_none]
  refine ⟨ha.after nda (fun n hm => ?_) (fun n hm => ?_),
    hb.before ndb (fun n hm => ?_) (fun n hm => ?_)⟩
  · have hb : bs.head? ≠ some n := fun e =>
      disj hm (.tail _ (mem_of_mem_head? e))
    rw [hp n (ne_of_mem_of_not_mem hm hxa), if_neg hb]
  · exact hn n (ne_of_mem_of_not_mem hm hxa)
  · have ha : as.getLast? ≠ some n := fun e =>
      disj (mem_of_mem_getLast? e) (.tail _ hm)
    rw [hn n (ne_of_mem_of_not_mem hm hxb), if_neg ha]
  · exact hp n (ne_of_mem_of_not_mem hm hxb)

end

end SpacePony.Linked
