import Mathlib.Order.Basic

/-!
# Support — total correctness of stateful programs

Programs are `StateT σ (Except ε)`: they change a state or end in a fault.  There is one rule for
each construct, the conclusion from the premise (`wp_bind`, `wp_get`, …), so that a proof follows
the text of the program.
-/

namespace SpacePony.Hoare

variable {σ ε α β : Type}

/-- The program ends without a fault, in a result and a state with `Q`. -/
def Wp (x : StateT σ (Except ε) α) (Q : α → σ → Prop) (s : σ) : Prop :=
  ∃ a s', x s = .ok (a, s') ∧ Q a s'

/-- The program ends in a result and a state with `Q`, or in a fault with `E`. -/
def Ends (x : StateT σ (Except ε) α) (Q : α → σ → Prop) (E : ε → Prop) (s : σ) : Prop :=
  match x s with
  | .ok (a, s') => Q a s'
  | .error e => E e

variable {x : StateT σ (Except ε) α} {f : α → StateT σ (Except ε) β}
  {Q R : α → σ → Prop} {S : β → σ → Prop} {s s' : σ} {e : ε} {a : α}

theorem Wp.mono (h : Wp x Q s) (hQ : ∀ a s', Q a s' → R a s') : Wp x R s := by
  obtain ⟨a, s', hx, ha⟩ := h
  exact ⟨a, s', hx, hQ a s' ha⟩

theorem wp_pure (h : Q a s) : Wp (pure a : StateT σ (Except ε) α) Q s :=
  ⟨a, s, rfl, h⟩

theorem wp_get {Q : σ → σ → Prop} (h : Q s s) : Wp (get : StateT σ (Except ε) σ) Q s :=
  ⟨s, s, rfl, h⟩

theorem wp_set {Q : PUnit → σ → Prop} (h : Q ⟨⟩ s') : Wp (set s' : StateT σ (Except ε) PUnit) Q s :=
  ⟨⟨⟩, s', rfl, h⟩

theorem wp_modify {Q : PUnit → σ → Prop} {g : σ → σ} (h : Q ⟨⟩ (g s)) :
    Wp (modify g : StateT σ (Except ε) PUnit) Q s :=
  ⟨⟨⟩, g s, rfl, h⟩

theorem bind_eq_ok (h : x s = .ok (a, s')) : (x >>= f) s = f a s' := by
  show (StateT.bind x f) s = _
  simp only [StateT.bind, h, bind, Except.bind]

/-- A sequence that ends well, taken apart. -/
theorem bind_ok {b : β} (h : (x >>= f) s = .ok (b, s')) :
    ∃ a s₁, x s = .ok (a, s₁) ∧ f a s₁ = .ok (b, s') := by
  have hbind : (StateT.bind x f) s = .ok (b, s') := h
  cases hx : x s with
  | ok p =>
    simp only [StateT.bind, hx, bind, Except.bind] at hbind
    exact ⟨p.1, p.2, rfl, hbind⟩
  | error e =>
    simp only [StateT.bind, hx, bind, Except.bind] at hbind
    cases hbind

/-- Sequencing: the first part establishes what the second one needs. -/
theorem wp_bind (h : Wp x (fun a s' => Wp (f a) S s') s) : Wp (x >>= f) S s := by
  obtain ⟨a, s', hx, b, s'', hf, hS⟩ := h
  exact ⟨b, s'', (bind_eq_ok hx).trans hf, hS⟩

theorem wp_ite {p : Prop} [Decidable p] {y : StateT σ (Except ε) α}
    (ht : p → Wp x Q s) (hf : ¬ p → Wp y Q s) : Wp (if p then x else y) Q s := by
  by_cases h : p
  · rw [if_pos h]; exact ht h
  · rw [if_neg h]; exact hf h

variable {E : ε → Prop}

theorem Wp.ends (h : Wp x Q s) : Ends x Q E s := by
  obtain ⟨a, s', hx, ha⟩ := h
  rw [Ends, hx]
  exact ha

theorem Ends.wp (h : Ends x Q E s) (hE : ∀ e, ¬ E e) : Wp x Q s := by
  unfold Ends at h
  split at h
  · exact ⟨_, _, ‹_›, h⟩
  · exact absurd h (hE _)

theorem Ends.mono {F : ε → Prop} (h : Ends x Q E s) (hQ : ∀ a s', Q a s' → R a s')
    (hE : ∀ e, E e → F e) : Ends x R F s := by
  unfold Ends at h ⊢
  split at h
  · exact hQ _ _ h
  · exact hE _ h

theorem Ends.and {F : ε → Prop} (h : Ends x Q E s) (h' : Ends x R F s) :
    Ends x (fun a s' => Q a s' ∧ R a s') (fun e => E e ∧ F e) s := by
  unfold Ends at h h' ⊢
  split at h <;> simp_all

/-- Sequencing, with one condition on the error for both parts. -/
theorem ends_bind (h : Ends x (fun a s' => Ends (f a) S E s') E s) : Ends (x >>= f) S E s := by
  unfold Ends at h ⊢
  show (match (StateT.bind x f) s with
    | .ok (a, s') => S a s'
    | .error e => E e)
  cases hx : x s with
  | ok p =>
    obtain ⟨a, s'⟩ := p
    rw [hx] at h
    simpa only [StateT.bind, hx, bind, Except.bind] using h
  | error e =>
    rw [hx] at h
    simpa only [StateT.bind, hx, bind, Except.bind] using h

theorem ends_ite {p : Prop} [Decidable p] {y : StateT σ (Except ε) α} (ht : p → Ends x Q E s)
    (hf : ¬ p → Ends y Q E s) : Ends (if p then x else y) Q E s := by
  by_cases h : p
  · rw [if_pos h]; exact ht h
  · rw [if_neg h]; exact hf h

theorem ends_pure (h : Q a s) : Ends (pure a : StateT σ (Except ε) α) Q E s := h

theorem ends_get {Q : σ → σ → Prop} (h : Q s s) : Ends (get : StateT σ (Except ε) σ) Q E s := h

theorem ends_set {Q : PUnit → σ → Prop} (h : Q ⟨⟩ s') :
    Ends (set s' : StateT σ (Except ε) PUnit) Q E s := h

theorem ends_modify {Q : PUnit → σ → Prop} {g : σ → σ} (h : Q ⟨⟩ (g s)) :
    Ends (modify g : StateT σ (Except ε) PUnit) Q E s := h

theorem ends_throw (h : E e) : Ends (throw e : StateT σ (Except ε) α) Q E s := h

end SpacePony.Hoare
