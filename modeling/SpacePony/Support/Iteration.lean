import Mathlib.Logic.Relation

/-!
# Support — iterators
-/

namespace SpacePony.Iteration

/-- An iterator with states `σ` over values `α`: a `next` without a value is an error. -/
structure Iterator (σ α : Type) where
  hasNext : σ → Bool
  next : σ → Option α × σ

namespace Iterator

variable {σ α β : Type} (it : Iterator σ α)

/-- Any number of calls of `next` lead from one state to the other. -/
def After : σ → σ → Prop := Relation.ReflTransGen fun s s' => (it.next s).2 = s'

/-- A value that is promised is given. -/
def Honest (s : σ) : Prop := ∀ s', it.After s s' → it.hasNext s' = true → (it.next s').1.isSome

/-- The values that are given until no more is promised. -/
inductive Yields : σ → List α → Prop
  | nil {s : σ} (hn : it.hasNext s = false) : Yields s []
  | cons {s s' : σ} {a : α} {as : List α} (hn : it.hasNext s = true) (hs : it.next s = (some a, s'))
      (rest : Yields s' as) : Yields s (a :: as)

/-- What the states of `Ready` still have to give is `pending`. -/
structure Pending (Ready : σ → Prop) (pending : σ → List α) : Prop where
  done : ∀ s, Ready s → it.hasNext s = false → pending s = [] ∧ Ready (it.next s).2
  next : ∀ s, Ready s → it.hasNext s = true →
    ∃ a s', it.next s = (some a, s') ∧ Ready s' ∧ pending s = a :: pending s'

section
variable {it} {Ready : σ → Prop} {pending : σ → List α} {s s' : σ}

theorem Pending.after (P : it.Pending Ready pending) (hs : Ready s) (h : it.After s s') :
    Ready s' := by
  induction h with
  | refl => exact hs
  | @tail s₁ s₂ _ hstep ih =>
    subst hstep
    cases hn : it.hasNext s₁ with
    | false => exact (P.done s₁ ih hn).2
    | true =>
      obtain ⟨a, s', he, hs', -⟩ := P.next s₁ ih hn
      rw [he]
      exact hs'

/-- **A promise is kept.** -/
theorem Pending.honest (P : it.Pending Ready pending) (hs : Ready s) : it.Honest s := by
  intro s' h hn
  obtain ⟨a, s'', he, -⟩ := P.next s' (P.after hs h) hn
  rw [he]
  rfl

/-- **What is pending is given.** -/
theorem Pending.yields (P : it.Pending Ready pending) (hs : Ready s) : it.Yields s (pending s) := by
  generalize hp : pending s = as
  induction as generalizing s with
  | nil =>
    cases hn : it.hasNext s with
    | false => exact .nil hn
    | true =>
      obtain ⟨a, s', -, -, hcons⟩ := P.next s hs hn
      rw [hp] at hcons
      exact nomatch hcons
  | cons a as ih =>
    cases hn : it.hasNext s with
    | false =>
      have hnil := (P.done s hs hn).1
      rw [hp] at hnil
      exact nomatch hnil
    | true =>
      obtain ⟨a', s', he, hs', hcons⟩ := P.next s hs hn
      rw [hp] at hcons
      cases hcons
      exact .cons hn he (ih hs' rfl)

end

/-! ### A part of each value -/

/-- An iterator that holds another and gives `f` of each value of it. -/
structure Shows {τ : Type} (outer : Iterator τ β) (inner : τ → σ) (f : α → β) : Prop where
  hasNext : ∀ s, outer.hasNext s = it.hasNext (inner s)
  next : ∀ s, (outer.next s).1 = (it.next (inner s)).1.map f
  state : ∀ s, inner (outer.next s).2 = (it.next (inner s)).2

variable {it}

/-- An iterator that shows another one has its elements pending, mapped. -/
theorem Pending.shows {τ : Type} {outer : Iterator τ β} {inner : τ → σ} {f : α → β}
    {Ready : σ → Prop} {pending : σ → List α} (P : it.Pending Ready pending)
    (h : it.Shows outer inner f) :
    outer.Pending (fun s => Ready (inner s)) fun s => (pending (inner s)).map f where
  done s hs hn := by
    obtain ⟨hnil, hr⟩ := P.done _ hs (h.hasNext s ▸ hn)
    exact ⟨by rw [hnil]; rfl, by rw [h.state]; exact hr⟩
  next s hs hn := by
    obtain ⟨a, s', he, hs', hcons⟩ := P.next _ hs (h.hasNext s ▸ hn)
    refine ⟨f a, (outer.next s).2, Prod.ext ?_ rfl, ?_, ?_⟩
    · rw [h.next, he]
      rfl
    · rw [h.state, he]
      exact hs'
    · rw [h.state, he, hcons]
      rfl

end Iterator

end SpacePony.Iteration
