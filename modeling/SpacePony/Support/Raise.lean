import Mathlib.Order.Basic

/-!
# Support — programs that raise errors and keep the state

Programs are `ExceptT ε (StateM σ)`: what was done to the state before an error stays done.  There
is one rule for each construct, the conclusion from the premise (`ends_bind`, `ends_get`, …), so
that a proof follows the text of the program.
-/

namespace SpacePony.Raise

variable {σ ε α β : Type}

/-- The program ends in a result and a state with `Q`, or in an error and a state with `E`. -/
def Ends (x : ExceptT ε (StateM σ) α) (Q : α → σ → Prop) (E : ε → σ → Prop) (s : σ) : Prop :=
  match x s with
  | (.ok a, s') => Q a s'
  | (.error e, s') => E e s'

variable {x : ExceptT ε (StateM σ) α} {f : α → ExceptT ε (StateM σ) β}
  {Q R : α → σ → Prop} {S : β → σ → Prop} {E E' : ε → σ → Prop} {s s' : σ} {e : ε} {a : α}

theorem Ends.mono (h : Ends x Q E s) (hQ : ∀ a s', Q a s' → R a s')
    (hE : ∀ e s', E e s' → E' e s') : Ends x R E' s := by
  unfold Ends at h ⊢
  split at h
  · exact hQ _ _ h
  · exact hE _ _ h

/-- A program that does not raise an error ends in a result. -/
theorem Ends.exists_ok (h : Ends x Q (fun _ _ => False) s) : ∃ a s', x s = (.ok a, s') ∧ Q a s' := by
  unfold Ends at h
  split at h
  · exact ⟨_, _, ‹_›, h⟩
  · exact h.elim

/-- A program that has no result ends in an error. -/
theorem Ends.exists_error (h : Ends x (fun _ _ => False) E s) :
    ∃ e s', x s = (.error e, s') ∧ E e s' := by
  unfold Ends at h
  split at h
  · exact h.elim
  · exact ⟨_, _, ‹_›, h⟩

theorem Ends.ok (h : Ends x Q E s) (hx : x s = (.ok a, s')) : Q a s' := by
  unfold Ends at h
  rwa [hx] at h

theorem Ends.error (h : Ends x Q E s) (hx : x s = (.error e, s')) : E e s' := by
  unfold Ends at h
  rwa [hx] at h

theorem ends_of_eq (hx : x s = (.ok a, s')) (h : Q a s') : Ends x Q E s := by
  unfold Ends
  rw [hx]
  exact h

theorem ends_pure (h : Q a s) : Ends (pure a : ExceptT ε (StateM σ) α) Q E s := h

theorem ends_throw (h : E e s) : Ends (throw e : ExceptT ε (StateM σ) α) Q E s := h

theorem ends_get {Q : σ → σ → Prop} (h : Q s s) : Ends (get : ExceptT ε (StateM σ) σ) Q E s := h

theorem ends_set {Q : PUnit → σ → Prop} (h : Q ⟨⟩ s') :
    Ends (set s' : ExceptT ε (StateM σ) PUnit) Q E s := h

theorem ends_modify {Q : PUnit → σ → Prop} {g : σ → σ} (h : Q ⟨⟩ (g s)) :
    Ends (modify g : ExceptT ε (StateM σ) PUnit) Q E s := h

/-- Sequencing, with one condition on the raised state for both parts. -/
theorem ends_bind (h : Ends x (fun a s' => Ends (f a) S E s') E s) : Ends (x >>= f) S E s := by
  unfold Ends at h ⊢
  show (match (StateT.bind x (ExceptT.bindCont f)) s with
    | (.ok a, s') => S a s'
    | (.error e, s') => E e s')
  cases hx : x s with
  | mk r s' =>
    rw [hx] at h
    simp only [StateT.bind, hx]
    cases r with
    | ok a | error e => exact h

theorem ends_map {g : α → β} (h : Ends x (fun a s' => S (g a) s') E s) : Ends (g <$> x) S E s := by
  rw [map_eq_pure_bind]
  exact ends_bind (h.mono (fun a s' hS => ends_pure hS) fun _ _ hE => hE)

theorem ends_ite {p : Prop} [Decidable p] {y : ExceptT ε (StateM σ) α}
    (ht : p → Ends x Q E s) (hf : ¬ p → Ends y Q E s) : Ends (if p then x else y) Q E s := by
  by_cases h : p
  · rw [if_pos h]
    exact ht h
  · rw [if_neg h]
    exact hf h

theorem ends_tryCatch {h : ε → ExceptT ε (StateM σ) α}
    (hx : Ends x Q (fun e s' => Ends (h e) Q E s') s) : Ends (tryCatch x h) Q E s := by
  unfold Ends at hx ⊢
  show (match (x >>= fun r => match r with
      | .ok a => pure (.ok a)
      | .error e => h e : StateM σ (Except ε α)) s with
    | (.ok a, s') => Q a s'
    | (.error e, s') => E e s')
  cases hr : x s with
  | mk r s' =>
    rw [hr] at hx
    simp only [bind, StateT.bind, hr]
    cases r with
    | ok a | error e => exact hx

/-! ### Loops -/

/-- Rounds of `body` until it is done, `stuck` when `n` of them are not enough. -/
def loop (stuck : ε) (body : β → ExceptT ε (StateM σ) (ForInStep β)) :
    ℕ → β → ExceptT ε (StateM σ) β
  | 0, _ => throw stuck
  | n + 1, b => do
      match ← body b with
      | .done b' => pure b'
      | .yield b' => loop stuck body n b'

/-- What holds after one round. -/
def Round (I : β → σ → Prop) (D : β → σ → Prop) (m : β → ℕ) (b : β) : ForInStep β → σ → Prop
  | .done b', s => D b' s
  | .yield b', s => I b' s ∧ m b' < m b

/-- **The rule of loops**: a round keeps the invariant and makes the measure less, or ends the
loop. -/
theorem ends_loop {stuck : ε} {body : β → ExceptT ε (StateM σ) (ForInStep β)}
    {I D : β → σ → Prop} {m : β → ℕ}
    (hround : ∀ b s, I b s → Ends (body b) (Round I D m b) E s) (n : ℕ) (b : β) (s : σ)
    (hI : I b s) (hm : m b < n) : Ends (loop stuck body n b) D E s := by
  induction n generalizing b s with
  | zero => omega
  | succ n ih =>
    refine ends_bind ((hround b s hI).mono ?_ fun _ _ he => he)
    rintro (b' | b') s' h
    · exact ends_pure h
    · exact ih b' s' h.1 (by have := h.2; omega)

end SpacePony.Raise
