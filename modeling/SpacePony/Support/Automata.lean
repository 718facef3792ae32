import Mathlib.Computability.Language
import Mathlib.Tactic

/-!
# Support — Automata

Automata with silent steps, and how their parts compose.  A part has one entry, and leaves to one
state outside it.  What it matches is said without naming the states of the part: whatever is
accepted from the entry is a word of the language and then something that is accepted from the exit,
in fewer steps (`Part`).  The number of steps is what makes loops over parts that match the empty
word no special case.

* `Part`, `Part.alt`, `Part.mul`, `Part.star`, `Part.plus`, `Part.opt`: parts and their languages.
-/

namespace SpacePony.Automata

open List

variable {σ α : Type}

/-- An automaton with silent steps. -/
structure Machine (σ α : Type) where
  eps : σ → σ → Prop
  read : σ → α → σ → Prop
  final : σ → Prop

/-- The word is accepted from the state, in `n` steps. -/
inductive Accepts (M : Machine σ α) : Nat → σ → List α → Prop
  | final {s : σ} (h : M.final s) : Accepts M 0 s []
  | eps {n : Nat} {s s' : σ} {w : List α} (h : M.eps s s') (t : Accepts M n s' w) :
      Accepts M (n + 1) s w
  | read {n : Nat} {s s' : σ} {a : α} {w : List α} (h : M.read s a s') (t : Accepts M n s' w) :
      Accepts M (n + 1) s (a :: w)

/-- From `s` a word of `L` is read, and the automaton is at `t`. -/
structure Part (M : Machine σ α) (L : Language α) (s t : σ) : Prop where
  complete : ∀ {u v n}, u ∈ L → Accepts M n t v → ∃ m, Accepts M m s (u ++ v)
  sound : ∀ {n w}, Accepts M n s w →
    ∃ u v m, w = u ++ v ∧ u ∈ L ∧ m < n ∧ Accepts M m t v

/-- The words of one symbol. -/
def symbols (C : α → Prop) : Language α := {w | ∃ a, C a ∧ w = [a]}

theorem symbols_congr {C D : α → Prop} (h : ∀ a, C a ↔ D a) : symbols C = symbols D := by
  rw [funext fun a => propext (h a)]

/-! ### States -/

/-- The state has only silent steps, to `l` and to `r`. -/
structure IsSplit (M : Machine σ α) (s l r : σ) : Prop where
  eps : ∀ s', M.eps s s' ↔ s' = l ∨ s' = r
  read : ∀ a s', ¬ M.read s a s'
  final : ¬ M.final s

/-- The state reads one of the symbols and goes to `t`. -/
structure IsReader (M : Machine σ α) (s : σ) (C : α → Prop) (t : σ) : Prop where
  eps : ∀ s', ¬ M.eps s s'
  read : ∀ a s', M.read s a s' ↔ C a ∧ s' = t
  final : ¬ M.final s

section
variable {M : Machine σ α} {L R : Language α} {s l r m t : σ} {n : Nat} {w : List α}

theorem IsSplit.inv (h : IsSplit M s l r) (a : Accepts M n s w) :
    ∃ k < n, Accepts M k l w ∨ Accepts M k r w := by
  cases a with
  | final hf => exact absurd hf h.final
  | eps he ht =>
    obtain rfl | rfl := (h.eps _).1 he
    · exact ⟨_, Nat.lt_succ_self _, .inl ht⟩
    · exact ⟨_, Nat.lt_succ_self _, .inr ht⟩
  | read hr _ => exact absurd hr (h.read _ _)

theorem IsSplit.left (h : IsSplit M s l r) (a : Accepts M n l w) : Accepts M (n + 1) s w :=
  .eps ((h.eps l).2 (.inl rfl)) a

theorem IsSplit.right (h : IsSplit M s l r) (a : Accepts M n r w) : Accepts M (n + 1) s w :=
  .eps ((h.eps r).2 (.inr rfl)) a

/-! ### Parts -/

theorem IsReader.part {C : α → Prop} (h : IsReader M s C t) : Part M (symbols C) s t where
  complete := by
    rintro u v n ⟨a, ha, rfl⟩ hv
    exact ⟨n + 1, .read ((h.read a t).2 ⟨ha, rfl⟩) hv⟩
  sound := by
    intro n w a
    cases a with
    | final hf => exact absurd hf h.final
    | eps he _ => exact absurd he (h.eps _)
    | @read k _ s' c v hr ht =>
      obtain ⟨hc, rfl⟩ := (h.read _ _).1 hr
      exact ⟨[c], v, k, rfl, ⟨c, hc, rfl⟩, Nat.lt_succ_self k, ht⟩

/-- Both steps leave the part. -/
theorem IsSplit.part (h : IsSplit M s t t) : Part M 1 s t where
  complete := by
    intro u v n hu hv
    rw [Language.mem_one] at hu
    subst hu
    exact ⟨n + 1, h.left hv⟩
  sound := by
    intro n w a
    obtain ⟨k, hk, ha | ha⟩ := h.inv a
    all_goals exact ⟨[], w, k, rfl, Language.nil_mem_one, hk, ha⟩

/-- A split into two parts accepts what either accepts. -/
theorem Part.alt (h : IsSplit M s l r) (hl : Part M L l t) (hr : Part M R r t) :
    Part M (L + R) s t where
  complete := by
    intro u v n hu hv
    obtain hu | hu := (Language.mem_add _ _ _).1 hu
    · obtain ⟨k, hk⟩ := hl.complete hu hv
      exact ⟨k + 1, h.left hk⟩
    · obtain ⟨k, hk⟩ := hr.complete hu hv
      exact ⟨k + 1, h.right hk⟩
  sound := by
    intro n w a
    obtain ⟨k, hk, ha | ha⟩ := h.inv a
    · obtain ⟨u, v, m, rfl, hu, hm, hv⟩ := hl.sound ha
      exact ⟨u, v, m, rfl, (Language.mem_add _ _ _).2 (.inl hu), by omega, hv⟩
    · obtain ⟨u, v, m, rfl, hu, hm, hv⟩ := hr.sound ha
      exact ⟨u, v, m, rfl, (Language.mem_add _ _ _).2 (.inr hu), by omega, hv⟩

theorem Part.mul (hl : Part M L s m) (hr : Part M R m t) : Part M (L * R) s t where
  complete := by
    intro u v n hu hv
    obtain ⟨a, ha, b, hb, rfl⟩ := Language.mem_mul.1 hu
    obtain ⟨k, hk⟩ := hr.complete hb hv
    obtain ⟨j, hj⟩ := hl.complete ha hk
    exact ⟨j, by rwa [append_assoc]⟩
  sound := by
    intro n w a
    obtain ⟨u, v, k, rfl, hu, hk, hv⟩ := hl.sound a
    obtain ⟨u', v', k', rfl, hu', hk', hv'⟩ := hr.sound hv
    exact ⟨u ++ u', v', k', (append_assoc _ _ _).symm, Language.append_mem_mul hu hu',
      by omega, hv'⟩

theorem Part.opt (h : IsSplit M s l t) (hl : Part M L l t) : Part M (1 + L) s t where
  complete := by
    intro u v n hu hv
    obtain hu | hu := (Language.mem_add _ _ _).1 hu
    · rw [Language.mem_one] at hu
      subst hu
      exact ⟨n + 1, h.right hv⟩
    · obtain ⟨k, hk⟩ := hl.complete hu hv
      exact ⟨k + 1, h.left hk⟩
  sound := by
    intro n w a
    obtain ⟨k, hk, ha | ha⟩ := h.inv a
    · obtain ⟨u, v, m, rfl, hu, hm, hv⟩ := hl.sound ha
      exact ⟨u, v, m, rfl, (Language.mem_add _ _ _).2 (.inr hu), by omega, hv⟩
    · exact ⟨[], w, k, rfl, (Language.mem_add _ _ _).2 (.inl Language.nil_mem_one), hk, ha⟩

/-- A loop: the part below the split leads back to it. -/
theorem Part.star (h : IsSplit M s l t) (hl : Part M L l s) : Part M (KStar.kstar L) s t where
  complete := by
    intro u v n hu hv
    obtain ⟨us, rfl, hus⟩ := Language.mem_kstar.1 hu
    clear hu
    induction us with
    | nil => exact ⟨n + 1, h.right hv⟩
    | cons u us ih =>
      obtain ⟨k, hk⟩ := ih fun y hy => hus y (.tail _ hy)
      obtain ⟨j, hj⟩ := hl.complete (hus u (.head _)) hk
      refine ⟨j + 1, ?_⟩
      rw [flatten_cons, append_assoc]
      exact h.left hj
  sound := by
    -- the number of steps gets less each time around, also where nothing is read
    intro n
    induction n using Nat.strong_induction_on with
    | _ n ih =>
      intro w a
      obtain ⟨k, hk, ha | ha⟩ := h.inv a
      · obtain ⟨u, v, m, rfl, hu, hm, hv⟩ := hl.sound ha
        obtain ⟨u', v', m', rfl, hu', hm', hv'⟩ := ih m (by omega) hv
        refine ⟨u ++ u', v', m', (append_assoc _ _ _).symm, ?_, by omega, hv'⟩
        exact mul_kstar_le_kstar (a := L) (Language.append_mem_mul hu hu')
      · exact ⟨[], w, k, rfl, Language.nil_mem_kstar L, hk, ha⟩

theorem Part.plus (h : IsSplit M s l t) (hl : Part M L l s) : Part M (L * KStar.kstar L) l t :=
  hl.mul (hl.star h)

end

/-! ### Runs -/

/-- The word leads from the state `s₀` to a state. -/
inductive Run (M : Machine σ α) (s₀ : σ) : List α → σ → Prop
  | start : Run M s₀ [] s₀
  | eps {w : List α} {s s' : σ} (r : Run M s₀ w s) (h : M.eps s s') : Run M s₀ w s'
  | read {w : List α} {s s' : σ} {a : α} (r : Run M s₀ w s) (h : M.read s a s') :
      Run M s₀ (w ++ [a]) s'

section
variable {M : Machine σ α} {s₀ s : σ} {v w : List α}

theorem Run.accepts (r : Run M s₀ w s) {n : Nat} (a : Accepts M n s v) :
    ∃ m, Accepts M m s₀ (w ++ v) := by
  induction r generalizing n v with
  | start => exact ⟨n, a⟩
  | eps _ h ih => exact ih (.eps h a)
  | read _ h ih =>
    rw [append_assoc]
    exact ih (.read h a)

theorem Run.append_accepts {n : Nat} (a : Accepts M n s v) (r : Run M s₀ w s) :
    ∃ s', Run M s₀ (w ++ v) s' ∧ M.final s' := by
  induction a generalizing w with
  | @final s h => exact ⟨s, by rwa [append_nil], h⟩
  | eps h _ ih => exact ih (r.eps h)
  | @read _ _ _ c v h _ ih =>
    have := ih (r.read h)
    rwa [append_assoc] at this

theorem accepts_iff_run : (∃ n, Accepts M n s₀ w) ↔ ∃ s, Run M s₀ w s ∧ M.final s := by
  constructor
  · rintro ⟨n, a⟩
    exact Run.append_accepts a .start
  rintro ⟨s, r, hf⟩
  obtain ⟨m, hm⟩ := r.accepts (.final hf)
  exact ⟨m, by rwa [append_nil] at hm⟩

theorem Run.trans_eps {s' : σ} (r : Run M s₀ w s) (h : Relation.ReflTransGen M.eps s s') :
    Run M s₀ w s' := by
  induction h with
  | refl => exact r
  | tail _ h ih => exact ih.eps h

/-- A run that has read something read its last symbol, and then took silent steps. -/
theorem Run.snoc_inv {a : α} (r : Run M s₀ (w ++ [a]) s) :
    ∃ s₁ s₂, Run M s₀ w s₁ ∧ M.read s₁ a s₂ ∧ Relation.ReflTransGen M.eps s₂ s := by
  generalize hv : w ++ [a] = v at r
  induction r with
  | start => simp at hv
  | eps _ h ih =>
    obtain ⟨s₁, s₂, r₁, hr, he⟩ := ih hv
    exact ⟨s₁, s₂, r₁, hr, he.tail h⟩
  | read r h _ =>
    obtain ⟨rfl, ⟨⟩⟩ := append_inj' hv rfl
    exact ⟨_, _, r, h, .refl⟩

theorem Run.nil_inv (r : Run M s₀ [] s) : Relation.ReflTransGen M.eps s₀ s := by
  generalize hv : ([] : List α) = v at r
  induction r with
  | start => exact .refl
  | eps _ h ih => exact (ih hv).tail h
  | read => simp at hv

end

/-! ### Powers -/

/-- Up to `k` words of a language, one after the other. -/
theorem mem_one_add_pow {L : Language α} {k : Nat} {w : List α} :
    w ∈ (1 + L) ^ k ↔ ∃ n ≤ k, w ∈ L ^ n := by
  induction k generalizing w with
  | zero =>
    constructor
    · intro h
      exact ⟨0, le_refl 0, h⟩
    rintro ⟨n, hn, h⟩
    obtain rfl := Nat.le_zero.1 hn
    exact h
  | succ k ih =>
    rw [pow_succ', add_mul, one_mul, Language.mem_add, Language.mem_mul]
    constructor
    · rintro (h | ⟨a, ha, b, hb, rfl⟩)
      · obtain ⟨n, hn, h⟩ := ih.1 h
        exact ⟨n, by omega, h⟩
      obtain ⟨n, hn, h⟩ := ih.1 hb
      refine ⟨n + 1, by omega, ?_⟩
      rw [pow_succ']
      exact Language.append_mem_mul ha h
    rintro ⟨n, hn, h⟩
    by_cases hk : n = k + 1
    · subst hk
      rw [pow_succ', Language.mem_mul] at h
      obtain ⟨a, ha, b, hb, rfl⟩ := h
      exact .inr ⟨a, ha, b, ih.2 ⟨k, le_refl k, hb⟩, rfl⟩
    · exact .inl (ih.2 ⟨n, by omega, h⟩)

/-- At least `k` words of a language, one after the other. -/
theorem mem_pow_mul_kstar {L : Language α} {k : Nat} {w : List α} :
    w ∈ L ^ k * KStar.kstar L ↔ ∃ n, k ≤ n ∧ w ∈ L ^ n := by
  rw [Language.kstar_eq_iSup_pow, Language.mul_iSup, Language.mem_iSup]
  constructor
  · rintro ⟨i, h⟩
    rw [← pow_add] at h
    exact ⟨k + i, Nat.le_add_right k i, h⟩
  rintro ⟨n, hn, h⟩
  refine ⟨n - k, ?_⟩
  rwa [← pow_add, Nat.add_sub_cancel' hn]

/-- Between `k` and `k + j` words of a language, one after the other. -/
theorem mem_pow_mul_one_add_pow {L : Language α} {j k : Nat} {w : List α} :
    w ∈ L ^ k * (1 + L) ^ j ↔ ∃ n, k ≤ n ∧ n ≤ k + j ∧ w ∈ L ^ n := by
  rw [Language.mem_mul]
  constructor
  · rintro ⟨a, ha, b, hb, rfl⟩
    obtain ⟨n, hn, h⟩ := mem_one_add_pow.1 hb
    refine ⟨k + n, Nat.le_add_right k n, by omega, ?_⟩
    rw [pow_add]
    exact Language.append_mem_mul ha h
  rintro ⟨n, hk, hn, h⟩
  rw [← Nat.add_sub_cancel' hk, pow_add, Language.mem_mul] at h
  obtain ⟨a, ha, b, hb, rfl⟩ := h
  exact ⟨a, ha, b, mem_one_add_pow.2 ⟨n - k, by omega, hb⟩, rfl⟩

end SpacePony.Automata
