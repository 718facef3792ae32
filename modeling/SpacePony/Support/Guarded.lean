import SpacePony.Support.Resume

/-!
# Support — Guarded

Runs that stop early.  A guard looks at each answer a job gets from the jobs it asked for, and can
end the job there.  Next to it stands a rule about unguarded runs, which says how a job must end
when such an answer comes; it is kept in an unguarded run exactly when the guard never acts in the
guarded one (`everywhere_iff`).
-/

namespace SpacePony

variable {κ σ ρ φ : Type}

/-- The run of a computation that ends early where `stop` says so. -/
def driveUntil (stop : κ → ρ → σ → Option (ρ × σ)) (ev : κ → σ → Run κ σ ρ φ) :
    Resume κ σ ρ φ (ρ × σ) → Run κ σ ρ φ
  | .done (r, s) => .stop (.done r s)
  | .fail f => .stop (.failed f)
  | .call c s k => .call c s (ev c s) <|
      match (ev c s).ending with
      | .done r s' =>
        match stop c r s' with
        | some (r', s'') => .stop (.done r' s'')
        | none => driveUntil stop ev (k r s')
      | .failed f => .stop (.failed f)

/-- The run of a job, at most `n` jobs deep, in which every job is guarded; a guard knows the job and
the state it started in. -/
def runUntil (step : Nat → κ → σ → Resume κ σ ρ φ (ρ × σ))
    (stop : κ → σ → κ → ρ → σ → Option (ρ × σ)) (out : φ) : Nat → κ → σ → Run κ σ ρ φ
  | 0, _, _ => .stop (.failed out)
  | n + 1, c, s => driveUntil (stop c s) (runUntil step stop out n) (step n c s)

variable {stop : κ → ρ → σ → Option (ρ × σ)} {ev : κ → σ → Run κ σ ρ φ} {s : σ}
  {Rule Clean : κ → Run κ σ ρ φ → Prop}

theorem driveUntil_call (c : κ) (s : σ) (k : ρ → σ → Resume κ σ ρ φ (ρ × σ)) :
    driveUntil stop ev (.call c s k) = .call c s (ev c s) (match (ev c s).ending with
      | .done r s' =>
        match stop c r s' with
        | some (r', s'') => .stop (.done r' s'')
        | none => driveUntil stop ev (k r s')
      | .failed f => .stop (.failed f)) := by
  rw [driveUntil]

/-- A call that fails stops the run. -/
theorem driveUntil_call_failed {c : κ} {f : φ} (h : (ev c s).ending = .failed f)
    (k : ρ → σ → Resume κ σ ρ φ (ρ × σ)) :
    driveUntil stop ev (.call c s k) = .call c s (ev c s) (.stop (.failed f)) := by
  rw [driveUntil, h]

theorem driveUntil_call_stop {c : κ} {s' s'' : σ} {r r' : ρ} (h : (ev c s).ending = .done r s')
    (hstop : stop c r s' = some (r', s'')) (k : ρ → σ → Resume κ σ ρ φ (ρ × σ)) :
    driveUntil stop ev (.call c s k) = .call c s (ev c s) (.stop (.done r' s'')) := by
  simp only [driveUntil, h, hstop]

/-- A call that returns goes on, unless it is told to stop. -/
theorem driveUntil_call_go {c : κ} {s' : σ} {r : ρ} (h : (ev c s).ending = .done r s')
    (hstop : stop c r s' = none) (k : ρ → σ → Resume κ σ ρ φ (ρ × σ)) :
    driveUntil stop ev (.call c s k) = .call c s (ev c s) (driveUntil stop ev (k r s')) := by
  simp only [driveUntil, h, hstop]

/-- What is watched in the run of one job. -/
structure Watch (κ σ ρ : Type) where
  /-- The answers that count. -/
  abrupt : κ → ρ → Prop
  /-- What it is to end well, with a result and a state, after an answer and its state. -/
  endsWell : ρ → σ → ρ → σ → Prop

namespace Watch

variable (w : Watch κ σ ρ) (exposed : κ → ρ → σ → Prop)

/-- The rest of a run ends well after an answer: nothing more is asked for. -/
def EndsWell (r : ρ) (s : σ) : Run κ σ ρ φ → Prop
  | .stop (.done r' s') => w.endsWell r s r' s'
  | _ => False

/-- The rule: after an answer that counts the run ends well. -/
def Kept : Run κ σ ρ φ → Prop
  | .stop _ => True
  | .call c _ own rest =>
    (∀ r s, own.ending = .done r s → w.abrupt c r → w.EndsWell r s rest) ∧ Kept rest

/-- A guard that acts at the exposed answers does not act in the run. -/
def Quiet : Run κ σ ρ φ → Prop
  | .stop _ => True
  | .call c _ own rest =>
    (∀ r s, own.ending = .done r s → w.abrupt c r → ¬ exposed c r s) ∧ Quiet rest

/-- The computation does not end well right away. -/
def Misses (r : ρ) (s : σ) (p : Resume κ σ ρ φ (ρ × σ)) : Prop :=
  ∀ r' s', p = .done (r', s') → ¬ w.endsWell r s r' s'

/-- The computation ends well after the answers that count, but for those that are exposed. -/
def Respects : Resume κ σ ρ φ (ρ × σ) → Prop
  | .done _ => True
  | .fail _ => True
  | .call c _ k => ∀ r s',
      (¬ w.abrupt c r → Respects (k r s')) ∧
      (w.abrupt c r → exposed c r s' → w.Misses r s' (k r s')) ∧
      (w.abrupt c r → ¬ exposed c r s' →
        ∃ r' s'', k r s' = .done (r', s'') ∧ w.endsWell r s' r' s'')

variable {w}

theorem Misses.not_endsWell {r : ρ} {p : Resume κ σ ρ φ (ρ × σ)} (h : w.Misses r s p)
    (ev : κ → σ → Run κ σ ρ φ) : ¬ w.EndsWell r s (drive ev p) := by
  cases p with
  | done a => exact h a.1 a.2 rfl
  | fail f => exact id
  | call c s k => exact fun hw => by rw [drive] at hw; exact hw

end Watch

/-! ### Unguarded against guarded runs -/

/-- The jobs of two ways of doing them: the rule is kept everywhere in one run exactly when the guard
is quiet everywhere in the other, and then the runs are equal. -/
def RunsMatch (Rule Clean : κ → Run κ σ ρ φ → Prop) (ev₁ ev₂ : κ → σ → Run κ σ ρ φ) : Prop :=
  ∀ c s, ((ev₁ c s).Everywhere Rule c ↔ (ev₂ c s).Everywhere Clean c) ∧
    ((ev₂ c s).Everywhere Clean c → ev₁ c s = ev₂ c s)

/-- The same for the computations of one job, with `rule` and `clean` for the job itself. -/
def StepMatches (Rule Clean : κ → Run κ σ ρ φ → Prop) (rule clean : Run κ σ ρ φ → Prop)
    (run₁ run₂ : Run κ σ ρ φ) : Prop :=
  (rule run₁ ∧ run₁.Below Rule ↔ clean run₂ ∧ run₂.Below Clean) ∧
    (clean run₂ ∧ run₂.Below Clean → run₁ = run₂)

theorem StepMatches.of_false {rule clean : Run κ σ ρ φ → Prop} {run₁ run₂ : Run κ σ ρ φ}
    (h₁ : ¬ (rule run₁ ∧ run₁.Below Rule)) (h₂ : ¬ (clean run₂ ∧ run₂.Below Clean)) :
    StepMatches Rule Clean rule clean run₁ run₂ :=
  ⟨iff_of_false h₁ h₂, fun h => absurd h h₂⟩

/-- Two runs that start with one job need only be compared where both ways of doing it agree. -/
theorem StepMatches.of_call {rule clean : Run κ σ ρ φ → Prop} {ev₁ ev₂ : κ → σ → Run κ σ ρ φ}
    (hev : RunsMatch Rule Clean ev₁ ev₂) {c : κ} {rest₁ rest₂ : Run κ σ ρ φ}
    (h : (ev₁ c s).Everywhere Rule c → (ev₂ c s).Everywhere Clean c → ev₁ c s = ev₂ c s →
      StepMatches Rule Clean rule clean (.call c s (ev₁ c s) rest₁) (.call c s (ev₂ c s) rest₂)) :
    StepMatches Rule Clean rule clean (.call c s (ev₁ c s) rest₁) (.call c s (ev₂ c s) rest₂) := by
  obtain ⟨hiff, heq⟩ := hev c s
  by_cases hcl : (ev₂ c s).Everywhere Clean c
  · exact h (hiff.2 hcl) hcl (heq hcl)
  · exact .of_false (fun h => hcl (hiff.1 h.2.1)) fun h => hcl h.2.1

/-- A computation that respects the watch. -/
theorem Watch.Respects.stepMatches {w : Watch κ σ ρ} {exposed : κ → ρ → σ → Prop}
    (hstop : ∀ c r s, stop c r s = none ↔ ¬ (w.abrupt c r ∧ exposed c r s))
    {ev₁ ev₂ : κ → σ → Run κ σ ρ φ} (hev : RunsMatch Rule Clean ev₁ ev₂)
    {p : Resume κ σ ρ φ (ρ × σ)} (hp : w.Respects exposed p) :
    StepMatches Rule Clean w.Kept (w.Quiet exposed) (drive ev₁ p) (driveUntil stop ev₂ p) := by
  induction p with
  | done a | fail f => exact ⟨Iff.rfl, fun _ => rfl⟩
  | call c s k ih =>
    rw [drive_call, driveUntil_call]
    refine .of_call hev fun hru hcl hown => ?_
    rw [← drive_call, ← driveUntil_call]
    cases he : (ev₂ c s).ending with
    | failed f =>
      have he₁ : (ev₁ c s).ending = .failed f := hown ▸ he
      rw [drive_call_failed he₁, driveUntil_call_failed he, hown]
      have hvacuous : ∀ {A : ρ → σ → Prop} r s', (ev₂ c s).ending = .done r s' → A r s' :=
        fun r s' h => (nomatch he.symm.trans h)
      refine ⟨iff_of_true ⟨⟨hvacuous, trivial⟩, hown ▸ hru, trivial⟩
        ⟨⟨hvacuous, trivial⟩, hcl, trivial⟩, fun _ => rfl⟩
    | done r s' =>
      have he₁ : (ev₁ c s).ending = .done r s' := hown ▸ he
      obtain ⟨hgo, hmiss, hpass⟩ := hp r s'
      rw [drive_call_done he₁]
      by_cases hab : w.abrupt c r
      · by_cases hex : exposed c r s'
        · -- the guard acts, and the unguarded run goes on
          have hsome : (stop c r s').isSome := by
            rw [Option.isSome_iff_ne_none, Ne, hstop]
            exact not_not_intro ⟨hab, hex⟩
          obtain ⟨⟨r', s''⟩, hs⟩ := Option.isSome_iff_exists.1 hsome
          rw [driveUntil_call_stop he hs]
          refine .of_false (fun h => ?_) fun h => h.1.1 r s' he hab hex
          exact (hmiss hab hex).not_endsWell ev₁ (h.1.1 r s' he₁ hab)
        -- both end here
        obtain ⟨r', s'', hk, hwell⟩ := hpass hab hex
        have hnone : stop c r s' = none := (hstop c r s').2 fun h => hex h.2
        rw [driveUntil_call_go he hnone, hk, hown]
        refine ⟨iff_of_true ⟨⟨fun q t h _ => ?_, trivial⟩, hown ▸ hru, trivial⟩
          ⟨⟨fun q t h _ => ?_, trivial⟩, hcl, trivial⟩, fun _ => rfl⟩
        · cases he.symm.trans h
          exact hwell
        · cases he.symm.trans h
          exact hex
      have hnone : stop c r s' = none := (hstop c r s').2 fun h => hab h.1
      obtain ⟨hrest, hresteq⟩ := ih r s' (hgo hab)
      rw [driveUntil_call_go he hnone, hown]
      have hvacuous : ∀ {A : ρ → σ → Prop} q t, (ev₂ c s).ending = .done q t →
          w.abrupt c q → A q t := by
        intro A q t h habq
        cases he.symm.trans h
        exact absurd habq hab
      constructor
      · constructor
        · rintro ⟨⟨-, hk⟩, -, hb⟩
          obtain ⟨hq, hb'⟩ := hrest.1 ⟨hk, hb⟩
          exact ⟨⟨hvacuous, hq⟩, hcl, hb'⟩
        rintro ⟨⟨-, hq⟩, -, hb⟩
        obtain ⟨hk, hb'⟩ := hrest.2 ⟨hq, hb⟩
        exact ⟨⟨hvacuous, hk⟩, hown ▸ hru, hb'⟩
      · rintro ⟨⟨-, hq⟩, -, hb⟩
        rw [hresteq ⟨hq, hb⟩]

/-- **The rule is kept exactly when the guard never acts.** -/
theorem everywhere_iff {step₁ step₂ : Nat → κ → σ → Resume κ σ ρ φ (ρ × σ)}
    {stop : κ → σ → κ → ρ → σ → Option (ρ × σ)} {out : φ}
    (hrule : ∀ c, Rule c (.stop (.failed out))) (hclean : ∀ c, Clean c (.stop (.failed out)))
    (hstep : ∀ n c s ev₁ ev₂, RunsMatch Rule Clean ev₁ ev₂ →
      StepMatches Rule Clean (Rule c) (Clean c) (drive ev₁ (step₁ n c s))
        (driveUntil (stop c s) ev₂ (step₂ n c s)))
    (n : Nat) : RunsMatch Rule Clean (run step₁ out n) (runUntil step₂ stop out n) := by
  induction n with
  | zero => exact fun c s => ⟨iff_of_true ⟨hrule c, trivial⟩ ⟨hclean c, trivial⟩, fun _ => rfl⟩
  | succ n ih => exact fun c s => hstep n c s _ _ ih

end SpacePony
