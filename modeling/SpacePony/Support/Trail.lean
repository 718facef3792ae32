import Mathlib.Data.List.Nodup
import Mathlib.Logic.Function.Basic

/-!
# Support — trails

Elements linked by a `next` pointer, in a queue to which one adds in two steps: the new last element
is made known first (`Trail.append`), and the link to it is stored afterwards (`Trail.store`).
`Trail.next_eq` is about a look at the front.
-/

namespace SpacePony

open List Function

variable {ι : Type*} {next next' : ι → Option ι} {gaps rest : List (ι × ι)} {a b p q : ι}
  {xs ys : List ι}

/-- `next` runs from `a` through `xs` and ends there.  The links of `gaps` are not stored yet. -/
inductive Trail (next : ι → Option ι) : List (ι × ι) → ι → List ι → Prop
  | nil {a : ι} (h : next a = none) : Trail next [] a []
  | link {gaps : List (ι × ι)} {a b : ι} {xs : List ι} (h : next a = some b)
      (t : Trail next gaps b xs) : Trail next gaps a (b :: xs)
  | gap {gaps : List (ι × ι)} {a b : ι} {xs : List ι} (h : next a = none)
      (t : Trail next gaps b xs) : Trail next ((a, b) :: gaps) a (b :: xs)

namespace Trail

/-- Only the pointers of its elements matter. -/
theorem congr (t : Trail next gaps a xs) (h : ∀ x ∈ a :: xs, next' x = next x) :
    Trail next' gaps a xs := by
  induction t with
  | nil hn => exact .nil ((h _ (.head _)).trans hn)
  | link hn _ ih => exact .link ((h _ (.head _)).trans hn) (ih fun x hx => h x (.tail _ hx))
  | gap hn _ ih => exact .gap ((h _ (.head _)).trans hn) (ih fun x hx => h x (.tail _ hx))

/-- Nothing is linked behind a gap. -/
theorem of_mem (t : Trail next gaps a xs) (h : (p, q) ∈ gaps) : p ∈ a :: xs ∧ next p = none := by
  induction t with
  | nil => cases h
  | link _ _ ih => exact ⟨.tail _ (ih h).1, (ih h).2⟩
  | gap hn _ ih =>
    rcases mem_cons.1 h with heq | h
    · cases heq
      exact ⟨.head _, hn⟩
    · exact ⟨.tail _ (ih h).1, (ih h).2⟩

/-- **Another trail behind the last element**, with the link to it still to come. -/
theorem append (t : Trail next gaps a xs) (u : Trail next [] b ys) :
    Trail next (gaps ++ [((a :: xs).getLast (cons_ne_nil a xs), b)]) a (xs ++ b :: ys) := by
  induction t with
  | nil hn => exact .gap hn u
  | link hn _ ih =>
    rw [getLast_cons_cons]
    exact .link hn ih
  | gap hn _ ih =>
    rw [getLast_cons_cons]
    exact .gap hn ih

/-- **A link that was still to come is stored**, whichever it is. -/
theorem store [DecidableEq ι] (t : Trail next (gaps ++ (p, q) :: rest) a xs) (h : (a :: xs).Nodup) :
    Trail (update next p (some q)) (gaps ++ rest) a xs := by
  generalize hg : gaps ++ (p, q) :: rest = all at t
  induction t generalizing gaps with
  | nil => simp at hg
  | @link all a b xs hn t ih =>
    have hp : (p, q) ∈ all := hg ▸ mem_append_right _ (.head _)
    have hne : a ≠ p := fun e => (nodup_cons.1 h).1 (e ▸ (t.of_mem hp).1)
    exact .link ((update_of_ne hne _ _).trans hn) (ih (nodup_cons.1 h).2 hg)
  | @gap all a b xs hn t ih =>
    cases gaps with
    | nil =>
      cases hg
      exact .link (update_self _ _ _) (t.congr fun x hx =>
        update_of_ne (ne_of_mem_of_not_mem hx (nodup_cons.1 h).1) _ _)
    | cons g gaps =>
      cases hg
      have hne : a ≠ p := fun e =>
        (nodup_cons.1 h).1 (e ▸ (t.of_mem (mem_append_right _ (.head _))).1)
      exact .gap ((update_of_ne hne _ _).trans hn) (ih (nodup_cons.1 h).2 rfl)

/-- What is linked behind the first element is the second one. -/
theorem next_eq (t : Trail next gaps a xs) (h : next a = some b) :
    ∃ ys, xs = b :: ys ∧ Trail next gaps b ys := by
  cases t with
  | nil hn => exact absurd (hn.symm.trans h) nofun
  | link hn t => cases hn.symm.trans h; exact ⟨_, rfl, t⟩
  | gap hn _ => exact absurd (hn.symm.trans h) nofun

/-- Without gaps, the pointer of the first element tells whether there is another one. -/
theorem next_eq_head? (t : Trail next [] a xs) : next a = xs.head? := by
  cases t with
  | nil hn | link hn _ => exact hn

end Trail

end SpacePony
