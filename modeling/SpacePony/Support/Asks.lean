import SpacePony.Support.Resume

/-!
# Support — Asks

What a computation asks for.  When `ev` does the jobs, a computation asks for some of them, each in
a state, and comes out with a result or a failure, its own or that of a job.  `asks_bind` and
`asks_bind_eq_iff` are about two computations in sequence; computations that ask for the same have
the same run (`drive_congr`).
-/

namespace SpacePony

/-- How a computation comes out. -/
inductive Answer (φ α : Type) where
  | done (a : α)
  | failed (f : φ)
  | jobFailed (f : φ)

namespace Resume

variable {κ σ ρ φ α β : Type} {ev : κ → σ → Except φ (ρ × σ)}

/-- The jobs that a computation asks for when `ev` does them, and how it comes out. -/
def asks (ev : κ → σ → Except φ (ρ × σ)) : Resume κ σ ρ φ α → List (κ × σ) × Answer φ α
  | .done a => ([], .done a)
  | .fail f => ([], .failed f)
  | .call c s k =>
    match ev c s with
    | .ok (r, s') => ((c, s) :: ((k r s').asks ev).1, ((k r s').asks ev).2)
    | .error f => ([(c, s)], .jobFailed f)

@[simp] theorem asks_fail (f : φ) : (fail f : Resume κ σ ρ φ α).asks ev = ([], .failed f) := rfl

variable {k : ρ → σ → Resume κ σ ρ φ α} {x : Resume κ σ ρ φ α} {Φ : φ → Prop} {Ψ : α → Prop}
  {Q : κ → Prop}

theorem asks_call_ok {c : κ} {s s' : σ} {r : ρ} (h : ev c s = .ok (r, s')) :
    (call c s k).asks ev = ((c, s) :: ((k r s').asks ev).1, ((k r s').asks ev).2) := by
  rw [asks, h]

theorem asks_call_error {c : κ} {s : σ} {f : φ} (h : ev c s = .error f) :
    (call c s k).asks ev = ([(c, s)], .jobFailed f) := by
  rw [asks, h]

/-- The first job that a computation asks for. -/
theorem head_asks_call (ev : κ → σ → Except φ (ρ × σ)) (c : κ) (s : σ)
    (k : ρ → σ → Resume κ σ ρ φ α) : ∃ jobs, ((call c s k).asks ev).1 = (c, s) :: jobs := by
  rcases h : ev c s with f | ⟨r, s'⟩
  · exact ⟨[], by rw [asks_call_error h]⟩
  · exact ⟨_, by rw [asks_call_ok h]⟩

/-- What comes of an answer when the computation goes on. -/
def andThen (x : List (κ × σ) × Answer φ α)
    (k : α → List (κ × σ) × Answer φ β) : List (κ × σ) × Answer φ β :=
  match x with
  | (jobs, .done a) => (jobs ++ (k a).1, (k a).2)
  | (jobs, .failed f) => (jobs, .failed f)
  | (jobs, .jobFailed f) => (jobs, .jobFailed f)

/-- What a sequence asks is what its first part asks, and then what the rest does. -/
theorem asks_bind (x : Resume κ σ ρ φ α) (k : α → Resume κ σ ρ φ β) :
    (x >>= k).asks ev = andThen (x.asks ev) fun a => (k a).asks ev := by
  induction x with
  | done a | fail f => rfl
  | call c s k' ih =>
    rw [call_bind]
    rcases h : ev c s with f | ⟨r, s'⟩
    · rw [asks_call_error h, asks_call_error h]
      rfl
    · rw [asks_call_ok h, asks_call_ok h, ih r s']
      rcases (k' r s').asks ev with ⟨jobs, a | f | f⟩ <;> rfl

/-- Two ways to go on after one computation. -/
theorem asks_bind_eq_iff {k k' : α → Resume κ σ ρ φ β} :
    (x >>= k).asks ev = (x >>= k').asks ev ↔
      ∀ a, (x.asks ev).2 = .done a → (k a).asks ev = (k' a).asks ev := by
  rw [asks_bind, asks_bind]
  rcases x.asks ev with ⟨jobs, a | f | f⟩
  · simp only [andThen, Prod.mk.injEq, List.append_cancel_left_eq, Answer.done.injEq]
    exact ⟨fun h a' ha => ha ▸ Prod.ext h.1 h.2, fun h => Prod.ext_iff.1 (h a rfl)⟩
  · exact iff_of_true rfl nofun
  · exact iff_of_true rfl nofun

/-! ### Every job that may be asked for -/

/-- Every job that the computation may ask for has `Q`. -/
def Only (Q : κ → Prop) : Resume κ σ ρ φ α → Prop
  | .done _ => True
  | .fail _ => True
  | .call c _ k => Q c ∧ ∀ r s', (k r s').Only Q

theorem Only.bind {k : α → Resume κ σ ρ φ β}
    (hx : x.Only Q) (hk : ∀ a, (k a).Only Q) : (x >>= k).Only Q := by
  induction x with
  | done a => exact hk a
  | fail f => trivial
  | call c s k' ih => exact ⟨hx.1, fun r s' => ih r s' (hx.2 r s')⟩

theorem Only.asks (h : x.Only Q) : ∀ job ∈ (x.asks ev).1, Q job.1 := by
  induction x with
  | done a | fail f => exact fun _ hm => nomatch hm
  | call c s k ih =>
    rcases he : ev c s with f | ⟨r, s'⟩
    · rw [asks_call_error he]
      intro job hm
      rcases List.mem_singleton.1 hm with rfl
      exact h.1
    rw [asks_call_ok he]
    intro job hm
    rcases List.mem_cons.1 hm with rfl | hm
    · exact h.1
    · exact ih r s' (h.2 r s') job hm

/-- A computation that asks for a job at once, and one that never asks for it. -/
theorem asks_call_ne {c : κ} {s : σ} {k : ρ → σ → Resume κ σ ρ φ α} (hx : x.Only Q) (hc : ¬ Q c) :
    (call c s k).asks ev ≠ x.asks ev := by
  intro heq
  obtain ⟨jobs, hjobs⟩ := head_asks_call ev c s k
  rw [heq] at hjobs
  exact hc (hx.asks (c, s) (by rw [hjobs]; exact .head _))

/-- Two computations that ask for different jobs at once. -/
theorem asks_call_ne_call {c c' : κ} {s s' : σ} {k' : ρ → σ → Resume κ σ ρ φ α} (h : c ≠ c') :
    (call c s k).asks ev ≠ (call c' s' k').asks ev := by
  intro heq
  obtain ⟨jobs, hjobs⟩ := head_asks_call ev c s k
  obtain ⟨jobs', hjobs'⟩ := head_asks_call ev c' s' k'
  rw [heq, hjobs'] at hjobs
  exact h (Prod.ext_iff.1 (List.cons.inj hjobs).1).1.symm

/-! ### What comes out before anything is asked for -/

/-- If the computation comes out without asking for anything, the result has `Ψ` or the failure
`Φ`. -/
def Starts (Ψ : α → Prop) (Φ : φ → Prop) : Resume κ σ ρ φ α → Prop
  | .done a => Ψ a
  | .fail f => Φ f
  | .call _ _ _ => True

theorem Starts.bind {Ψ : β → Prop}
    {k : α → Resume κ σ ρ φ β} (h : x.Starts (fun a => (k a).Starts Ψ Φ) Φ) :
    (x >>= k).Starts Ψ Φ := by
  cases x with
  | done a | fail f => exact h
  | call c s k' => trivial

theorem Starts.imp {Ψ Ψ' : α → Prop} (h : x.Starts Ψ Φ) (hi : ∀ a, Ψ a → Ψ' a) : x.Starts Ψ' Φ := by
  cases x with
  | done a => exact hi a h
  | fail f => exact h
  | call c s k => trivial

theorem Starts.weaken (h : x.Starts Ψ Φ) : x.Starts Ψ fun _ => True := by
  cases x with
  | done a => exact h
  | fail f | call c s k => trivial

theorem Starts.asks_ne_done {a : α}
    (h : x.Starts Ψ Φ) (ha : ¬ Ψ a) : x.asks ev ≠ ([], .done a) := by
  intro heq
  cases x with
  | done a' =>
    cases heq
    exact ha h
  | fail f => cases heq
  | call c s k =>
    obtain ⟨jobs, hjobs⟩ := head_asks_call ev c s k
    rw [heq] at hjobs
    cases hjobs

theorem Starts.asks_ne_failed {f : φ}
    (h : x.Starts Ψ Φ) (hf : ¬ Φ f) : x.asks ev ≠ ([], .failed f) := by
  intro heq
  cases x with
  | done a => cases heq
  | fail f' =>
    cases heq
    exact hf h
  | call c s k =>
    obtain ⟨jobs, hjobs⟩ := head_asks_call ev c s k
    rw [heq] at hjobs
    cases hjobs

end Resume

/-! ### Runs -/

section
variable {κ σ ρ φ α : Type}

/-- The answer of a job is the ending of its run. -/
def Ending.answer : Ending σ ρ φ → Except φ (ρ × σ)
  | .done r s => .ok (r, s)
  | .failed f => .error f

/-- The run of the jobs of a list, then `rest`. -/
def Run.ofJobs (ev : κ → σ → Run κ σ ρ φ) (rest : Run κ σ ρ φ) (jobs : List (κ × σ)) :
    Run κ σ ρ φ := jobs.foldr (fun job run => .call job.1 job.2 (ev job.1 job.2) run) rest

/-- The run of a computation is that of what it asks for, then of what it goes on with. -/
theorem drive_bind {ev : κ → σ → Run κ σ ρ φ} (x : Resume κ σ ρ φ α)
    (k : α → Resume κ σ ρ φ (ρ × σ)) : drive ev (x >>= k) = Run.ofJobs ev
      (match (x.asks fun c s => (ev c s).ending.answer).2 with
        | .done a => drive ev (k a)
        | .failed f | .jobFailed f => .stop (.failed f))
      (x.asks fun c s => (ev c s).ending.answer).1 := by
  induction x with
  | done a | fail f => rfl
  | call c s k' ih =>
    rw [Resume.call_bind]
    cases h : (ev c s).ending with
    | done r s' =>
      have ha : (ev c s).ending.answer = .ok (r, s') := by rw [h]; rfl
      rw [drive_call_done h, ih r s', Resume.asks_call_ok ha]
      rfl
    | failed f =>
      have ha : (ev c s).ending.answer = .error f := by rw [h]; rfl
      rw [drive_call_failed h, Resume.asks_call_error ha]
      rfl

/-- **One run.**  Two computations that ask for the same, and go on alike, have the same run. -/
theorem drive_congr {ev : κ → σ → Run κ σ ρ φ} {x y : Resume κ σ ρ φ α}
    {k k' : α → Resume κ σ ρ φ (ρ × σ)}
    (h : x.asks (fun c s => (ev c s).ending.answer) = y.asks fun c s => (ev c s).ending.answer)
    (hk : ∀ a, (x.asks fun c s => (ev c s).ending.answer).2 = .done a →
      drive ev (k a) = drive ev (k' a)) : drive ev (x >>= k) = drive ev (y >>= k') := by
  rw [drive_bind, drive_bind, ← h]
  cases ha : (x.asks fun c s => (ev c s).ending.answer).2 with
  | done a => exact congrArg (Run.ofJobs ev · _) (hk a ha)
  | failed f | jobFailed f => rfl

end

end SpacePony
