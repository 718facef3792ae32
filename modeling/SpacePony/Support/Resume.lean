import Mathlib.Init

/-!
# Support — Resume

Computations that call back.  A computation over states `σ` ends with a result, fails with a `φ`, or
asks for a job `κ` to be done and goes on with the answer `ρ` and the state it leaves.  An
interpreter is then one step, `κ → σ → Resume`, that says what each job asks for; running it gives
the record of all that was asked, a `Run`.

* `drive_eq_iff`, `run_eq_iff`: two interpreters have one run exactly when a local condition holds
  at every job of the run.
-/

namespace SpacePony

/-- A computation with result `α` that asks for jobs `κ` in states `σ` and is answered by `ρ`. -/
inductive Resume (κ σ ρ φ α : Type) where
  | done (a : α)
  | fail (f : φ)
  | call (c : κ) (s : σ) (k : ρ → σ → Resume κ σ ρ φ α)

namespace Resume

variable {κ σ ρ φ α β : Type}

/-- First `x`, then `f` on its result. -/
def bind : Resume κ σ ρ φ α → (α → Resume κ σ ρ φ β) → Resume κ σ ρ φ β
  | .done a, f => f a
  | .fail e, _ => .fail e
  | .call c s k, f => .call c s fun r s' => (k r s').bind f

instance : Monad (Resume κ σ ρ φ) where
  pure := .done
  bind := bind

@[simp] theorem done_bind (a : α) (f : α → Resume κ σ ρ φ β) : (done a >>= f) = f a := rfl

@[simp] theorem fail_bind (e : φ) (f : α → Resume κ σ ρ φ β) : (fail e >>= f) = fail e := rfl

@[simp] theorem call_bind (c : κ) (s : σ) (k : ρ → σ → Resume κ σ ρ φ α)
    (f : α → Resume κ σ ρ φ β) : (call c s k >>= f) = call c s fun r s' => k r s' >>= f := rfl

theorem bind_done (x : Resume κ σ ρ φ α) : x.bind done = x := by
  induction x with
  | done a | fail e => rfl
  | call c s k ih => simp only [bind, ih]

theorem bind_bind {γ : Type} (x : Resume κ σ ρ φ α) (f : α → Resume κ σ ρ φ β)
    (g : β → Resume κ σ ρ φ γ) : (x.bind f).bind g = x.bind fun a => (f a).bind g := by
  induction x with
  | done a | fail e => rfl
  | call c s k ih => simp only [bind, ih]

instance : LawfulMonad (Resume κ σ ρ φ) := LawfulMonad.mk' _
  (fun x => bind_done x) (fun _ _ => rfl) (fun x f g => bind_bind x f g)

end Resume

/-- How a run ends. -/
inductive Ending (σ ρ φ : Type) where
  | done (r : ρ) (s : σ)
  | failed (f : φ)

/-- The record of a run: the jobs asked for, each with the state it started in and its own run, and
the ending. -/
inductive Run (κ σ ρ φ : Type) where
  | stop (e : Ending σ ρ φ)
  | call (c : κ) (s : σ) (own rest : Run κ σ ρ φ)

namespace Run

variable {κ σ ρ φ : Type}

/-- How the run ends. -/
@[simp] def ending : Run κ σ ρ φ → Ending σ ρ φ
  | .stop e => e
  | .call _ _ _ rest => rest.ending

/-- The jobs that the run directly asks for. -/
@[simp] def calls : Run κ σ ρ φ → List κ
  | .stop _ => []
  | .call c _ _ rest => c :: rest.calls

/-- A property of the jobs that the run directly asks for. -/
@[simp] def All (P : κ → σ → Run κ σ ρ φ → Prop) : Run κ σ ρ φ → Prop
  | .stop _ => True
  | .call c s own rest => P c s own ∧ rest.All P

/-- A property of all jobs below the run. -/
@[simp] def Below (L : κ → Run κ σ ρ φ → Prop) : Run κ σ ρ φ → Prop
  | .stop _ => True
  | .call c _ own rest => (L c own ∧ own.Below L) ∧ rest.Below L

/-- A property of the job `c` with this run and of all jobs below it. -/
def Everywhere (L : κ → Run κ σ ρ φ → Prop) (c : κ) (run : Run κ σ ρ φ) : Prop :=
  L c run ∧ run.Below L

theorem below_iff_all (L : κ → Run κ σ ρ φ → Prop) (run : Run κ σ ρ φ) :
    run.Below L ↔ run.All fun c _ own => own.Everywhere L c := by
  induction run with
  | stop e => exact Iff.rfl
  | call c s own rest _ ih => simp only [Below, All, Everywhere, ih]

end Run

section
variable {κ σ ρ φ : Type}

/-- The run of a computation, with `ev` for the runs of the jobs it asks for. -/
def drive (ev : κ → σ → Run κ σ ρ φ) : Resume κ σ ρ φ (ρ × σ) → Run κ σ ρ φ
  | .done (r, s) => .stop (.done r s)
  | .fail f => .stop (.failed f)
  | .call c s k => .call c s (ev c s) <|
      match (ev c s).ending with
      | .done r s' => drive ev (k r s')
      | .failed f => .stop (.failed f)

section
attribute [local simp] drive

@[simp] theorem drive_done (ev : κ → σ → Run κ σ ρ φ) (r : ρ) (s : σ) :
    drive ev (.done (r, s)) = .stop (.done r s) := by simp

@[simp] theorem drive_fail (ev : κ → σ → Run κ σ ρ φ) (f : φ) :
    drive ev (.fail f) = .stop (.failed f) := by simp

theorem drive_call (ev : κ → σ → Run κ σ ρ φ) (c : κ) (s : σ)
    (k : ρ → σ → Resume κ σ ρ φ (ρ × σ)) :
    drive ev (.call c s k) = .call c s (ev c s) (match (ev c s).ending with
      | .done r s' => drive ev (k r s')
      | .failed f => .stop (.failed f)) := by simp

end

/-- The run of a job, at most `n` jobs deep; `out` is the failure of a run that goes deeper. -/
def run (step : Nat → κ → σ → Resume κ σ ρ φ (ρ × σ)) (out : φ) : Nat → κ → σ → Run κ σ ρ φ
  | 0, _, _ => .stop (.failed out)
  | n + 1, c, s => drive (run step out n) (step n c s)

variable {ev : κ → σ → Run κ σ ρ φ} {c : κ} {s : σ} {k k₁ k₂ : ρ → σ → Resume κ σ ρ φ (ρ × σ)}

/-- A call that returns goes on with its continuation. -/
theorem drive_call_done {s' : σ} {r : ρ} (h : (ev c s).ending = .done r s')
    (k : ρ → σ → Resume κ σ ρ φ (ρ × σ)) :
    drive ev (.call c s k) = .call c s (ev c s) (drive ev (k r s')) := by
  rw [drive, h]

/-- A call that fails stops the run. -/
theorem drive_call_failed {f : φ} (h : (ev c s).ending = .failed f)
    (k : ρ → σ → Resume κ σ ρ φ (ρ × σ)) :
    drive ev (.call c s k) = .call c s (ev c s) (.stop (.failed f)) := by
  rw [drive, h]

theorem drive_call_ne_stop {e : Ending σ ρ φ} : drive ev (.call c s k) ≠ .stop e := by
  rw [drive]
  exact nofun

theorem drive_call_calls_ne_nil : (drive ev (.call c s k)).calls ≠ [] := by
  rw [drive]
  exact nofun

/-- Two computations that ask for different jobs. -/
theorem drive_call_ne_call {ev₁ ev₂ : κ → σ → Run κ σ ρ φ} {c₁ c₂ : κ} (h : c₁ ≠ c₂) {s₁ s₂ : σ} :
    drive ev₁ (.call c₁ s₁ k₁) ≠ drive ev₂ (.call c₂ s₂ k₂) := by
  rw [drive, drive]
  intro heq
  injection heq with hc
  exact h hc

/-- Two computations that ask for one job. -/
theorem drive_call_eq_iff {ev₁ ev₂ : κ → σ → Run κ σ ρ φ} :
    drive ev₁ (.call c s k₁) = drive ev₂ (.call c s k₂) ↔ ev₁ c s = ev₂ c s ∧
      ∀ r s', (ev₂ c s).ending = .done r s' → drive ev₁ (k₁ r s') = drive ev₂ (k₂ r s') := by
  constructor
  · intro heq
    rw [drive, drive] at heq
    injection heq with _ _ hown hrest
    refine ⟨hown, fun r s' h => ?_⟩
    rw [hown, h] at hrest
    exact hrest
  rintro ⟨hown, hrest⟩
  cases h : (ev₂ c s).ending with
  | done r s' => rw [drive_call_done h, drive_call_done (hown ▸ h), hown, hrest r s' h]
  | failed f => rw [drive_call_failed h, drive_call_failed (hown ▸ h), hown]

theorem drive_call_all_iff {P : κ → σ → Run κ σ ρ φ → Prop} :
    (drive ev (.call c s k)).All P ↔ P c s (ev c s) ∧
      ∀ r s', (ev c s).ending = .done r s' → (drive ev (k r s')).All P := by
  cases h : (ev c s).ending with
  | done r s' =>
    rw [drive_call_done h, Run.All]
    refine and_congr_right fun _ => ⟨fun hall r' s'' he => ?_, fun hall => hall r s' rfl⟩
    injection he with hr hs
    exact hr ▸ hs ▸ hall
  | failed f =>
    rw [drive_call_failed h, Run.All]
    exact and_congr_right fun _ => ⟨fun _ _ _ he => (nomatch he), fun _ => trivial⟩

/-- Two ways of doing the jobs give one run exactly when they agree on the jobs of the run. -/
theorem drive_eq_iff (ev₁ ev₂ : κ → σ → Run κ σ ρ φ) (p : Resume κ σ ρ φ (ρ × σ)) :
    drive ev₁ p = drive ev₂ p ↔ (drive ev₂ p).All fun c s own => ev₁ c s = own := by
  induction p with
  | done a | fail f => exact iff_of_true rfl trivial
  | call c s k ih =>
    rw [drive_call_eq_iff, drive_call_all_iff]
    exact and_congr_right fun _ => forall₂_congr fun r s' => imp_congr_right fun _ => ih r s'

/-- The runs recorded in a run are those of `ev`. -/
theorem drive_all_iff {P Q : κ → σ → Run κ σ ρ φ → Prop}
    (h : ∀ c s, P c s (ev c s) ↔ Q c s (ev c s)) (p : Resume κ σ ρ φ (ρ × σ)) :
    (drive ev p).All P ↔ (drive ev p).All Q := by
  induction p with
  | done a | fail f => exact Iff.rfl
  | call c s k ih =>
    rw [drive_call_all_iff, drive_call_all_iff, h c s]
    exact and_congr_right fun _ => forall₂_congr fun r s' => imp_congr_right fun _ => ih r s'

/-- Two computations have one run exactly when `Q` holds of it and both ways of doing the jobs agree
on the jobs of it. -/
def AgreeIff (ev₁ ev₂ : κ → σ → Run κ σ ρ φ) (p₁ p₂ : Resume κ σ ρ φ (ρ × σ))
    (Q : Run κ σ ρ φ → Prop) : Prop :=
  drive ev₁ p₁ = drive ev₂ p₂ ↔
    Q (drive ev₂ p₂) ∧ (drive ev₂ p₂).All fun c s own => ev₁ c s = own

namespace AgreeIff

variable {ev₁ ev₂ : κ → σ → Run κ σ ρ φ} {p p₁ p₂ : Resume κ σ ρ φ (ρ × σ)}
  {Q : Run κ σ ρ φ → Prop}

theorem refl (h : Q (drive ev₂ p)) : AgreeIff ev₁ ev₂ p p Q := by
  rw [AgreeIff, drive_eq_iff]
  exact ⟨fun hall => ⟨h, hall⟩, fun hall => hall.2⟩

theorem congr {Q' : Run κ σ ρ φ → Prop} (h : AgreeIff ev₁ ev₂ p₁ p₂ Q)
    (hQ : ∀ run, Q' run ↔ Q run) : AgreeIff ev₁ ev₂ p₁ p₂ Q' := by
  rw [AgreeIff, hQ]
  exact h

theorem of_ne (hne : drive ev₁ p₁ ≠ drive ev₂ p₂) (hQ : ¬ Q (drive ev₂ p₂)) :
    AgreeIff ev₁ ev₂ p₁ p₂ Q :=
  iff_of_false hne fun h => hQ h.1

theorem call (Q' : ρ → Run κ σ ρ φ → Prop) (hQ : Q (drive ev₂ (.call c s k₂)) ↔
      ∀ r s', (ev₂ c s).ending = .done r s' → Q' r (drive ev₂ (k₂ r s')))
    (h : ∀ r s', AgreeIff ev₁ ev₂ (k₁ r s') (k₂ r s') (Q' r)) :
    AgreeIff ev₁ ev₂ (.call c s k₁) (.call c s k₂) Q := by
  rw [AgreeIff, drive_call_eq_iff, drive_call_all_iff, hQ]
  constructor
  · rintro ⟨hown, hrest⟩
    exact ⟨fun r s' he => ((h r s').1 (hrest r s' he)).1, hown,
      fun r s' he => ((h r s').1 (hrest r s' he)).2⟩
  · rintro ⟨hq, hown, hall⟩
    exact ⟨hown, fun r s' he => (h r s').2 ⟨hq r s' he, hall r s' he⟩⟩

end AgreeIff

/-- **Two interpreters with one run.**  If a job has one run under both steps exactly when `L` holds
of its run and both agree on the jobs it asks for, then the interpreters have one run exactly when
`L` holds everywhere. -/
theorem run_eq_iff {step₁ step₂ : Nat → κ → σ → Resume κ σ ρ φ (ρ × σ)} {out : φ}
    {L : κ → Run κ σ ρ φ → Prop} (hout : ∀ c, L c (.stop (.failed out)))
    (hstep : ∀ n c s ev₁ ev₂, AgreeIff ev₁ ev₂ (step₁ n c s) (step₂ n c s) (L c))
    (n : Nat) (c : κ) (s : σ) : run step₁ out n c s = run step₂ out n c s ↔
      (run step₂ out n c s).Everywhere L c := by
  induction n generalizing c s with
  | zero => exact ⟨fun _ => ⟨hout c, trivial⟩, fun _ => rfl⟩
  | succ n ih =>
    have h := hstep n c s (run step₁ out n) (run step₂ out n)
    rw [AgreeIff] at h
    rw [run, run, h, Run.Everywhere, Run.below_iff_all]
    exact and_congr_right fun _ => drive_all_iff (fun c s => ih c s) _

end

end SpacePony
