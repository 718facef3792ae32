import Mathlib.Data.Set.Basic

/-!
# Support — Ask

Decisions that ask.  A decision ends with a truth value, fails, asks a question `Q` and goes on with
the answer, or fetches the result `Y` of a side computation on `X`.  A decision procedure is then one
step, `Q → Ask Q X Y`, and it runs by asking itself.
-/

namespace SpacePony

open List

/-- How a decision under a bound comes out. -/
inductive Outcome where
  | answer (b : Bool)
  | crash
  | timeout
  deriving DecidableEq

namespace Outcome

/-- The outcome `o'` is `o`, unless `o` ran out of fuel. -/
def Le (o o' : Outcome) : Prop := o ≠ timeout → o' = o

theorem Le.refl (o : Outcome) : o.Le o := fun _ => rfl

end Outcome

/-- A decision that asks questions `Q` and fetches a `Y` for an `X`. -/
inductive Ask (Q X Y : Type) where
  | done (b : Bool)
  | fail
  | ask (q : Q) (k : Bool → Ask Q X Y)
  | fetch (x : X) (k : Y → Ask Q X Y)

namespace Ask

variable {Q X Y σ : Type}

/-- First `t`, then `f` on its truth value. -/
def bind : Ask Q X Y → (Bool → Ask Q X Y) → Ask Q X Y
  | done b, f => f b
  | fail, _ => fail
  | ask q k, f => ask q fun b => (k b).bind f
  | fetch x k, f => fetch x fun y => (k y).bind f

theorem bind_assoc (t : Ask Q X Y) (f g : Bool → Ask Q X Y) :
    (t.bind f).bind g = t.bind fun b => (f b).bind g := by
  induction t with
  | done b | fail => rfl
  | ask q k ih | fetch x k ih => simp only [bind, ih]

/-- Both of two decisions, the second only after the first comes out true. -/
def and (t u : Ask Q X Y) : Ask Q X Y := t.bind fun b => if b then u else done false

/-- Either of two decisions, the second only after the first comes out false. -/
def or (t u : Ask Q X Y) : Ask Q X Y := t.bind fun b => if b then done true else u

/-- Both of two decisions, both made in any case. -/
def both (t u : Ask Q X Y) : Ask Q X Y := t.bind fun b => u.bind fun c => done (b && c)

/-- One question. -/
def only (q : Q) : Ask Q X Y := ask q done

/-- All of a list of decisions, up to the first that comes out false. -/
def every : List (Ask Q X Y) → Ask Q X Y
  | [] => done true
  | t :: ts => t.and (every ts)

/-- Any of a list of decisions, up to the first that comes out true. -/
def some : List (Ask Q X Y) → Ask Q X Y
  | [] => done false
  | t :: ts => t.or (some ts)

/-- All of a list of decisions, all of them made. -/
def each : List (Ask Q X Y) → Ask Q X Y
  | [] => done true
  | t :: ts => t.both (each ts)

/-- What holds of each of some decisions holds of what is put together from them. -/
theorem list_induct {M : Ask Q X Y → Prop} {f : List (Ask Q X Y) → Ask Q X Y}
    {ts : List (Ask Q X Y)} (h : ∀ t ∈ ts, M t) (hnil : M (f []))
    (hcons : ∀ t ts, M t → M (f ts) → M (f (t :: ts))) : M (f ts) := by
  induction ts with
  | nil => exact hnil
  | cons t ts ih =>
    obtain ⟨ht, hts⟩ := forall_mem_cons.1 h
    exact hcons t ts ht (ih hts)

/-! ### Outcomes -/

/-- The outcome when every question has one answer. -/
def eval (o : Q → Outcome) (f : X → Option Y) : Ask Q X Y → Outcome
  | done b => .answer b
  | fail => .crash
  | ask q k =>
    match o q with
    | .answer b => (k b).eval o f
    | .crash => .crash
    | .timeout => .timeout
  | fetch x k =>
    match f x with
    | .some y => (k y).eval o f
    | none => .timeout

/-- The outcome and the state after it when the answers come from a state. -/
def run (o : Q → σ → Outcome × σ) (f : X → Option Y) : Ask Q X Y → σ → Outcome × σ
  | done b, s => (.answer b, s)
  | fail, s => (.crash, s)
  | ask q k, s =>
    match o q s with
    | (.answer b, s') => (k b).run o f s'
    | (.crash, s') => (.crash, s')
    | (.timeout, s') => (.timeout, s')
  | fetch x k, s =>
    match f x with
    | .some y => (k y).run o f s
    | none => (.timeout, s)

/-- More fuel for the answers and for what is fetched is more fuel for the decision. -/
theorem eval_le {o o' : Q → Outcome} {f f' : X → Option Y} (ho : ∀ q, (o q).Le (o' q))
    (hf : ∀ x y, f x = .some y → f' x = .some y) (t : Ask Q X Y) :
    (t.eval o f).Le (t.eval o' f') := by
  induction t with
  | done b | fail => exact .refl _
  | ask q k ih =>
    intro h
    cases hq : o q with
    | answer b =>
      have hq' : o' q = .answer b := (ho q (by simp [hq])).trans hq
      simp only [eval, hq] at h
      simpa only [eval, hq, hq'] using ih b h
    | crash =>
      have hq' : o' q = .crash := (ho q (by simp [hq])).trans hq
      simp only [eval, hq, hq']
    | timeout => exact absurd (by simp only [eval, hq]) h
  | fetch x k ih =>
    intro h
    cases hx : f x with
    | none => exact absurd (by simp only [eval, hx]) h
    | some y =>
      simp only [eval, hx] at h
      simpa only [eval, hx, hf x y hx] using ih y h

/-- The outcome is the same when the questions that come up have the same answers. -/
theorem eval_congr {o o' : Q → Outcome} {f : X → Option Y} (t : Ask Q X Y)
    (h : ∀ q, o q = o' q) : t.eval o f = t.eval o' f := by
  rw [funext h]

/-! ### Runs -/

section Run

variable {o : Q → σ → Outcome × σ} {f : X → Option Y}

theorem run_ask (q : Q) (k : Bool → Ask Q X Y) (s : σ) : (ask q k).run o f s =
    match (o q s).1 with
    | .answer b => (k b).run o f (o q s).2
    | .crash => (.crash, (o q s).2)
    | .timeout => (.timeout, (o q s).2) := by
  simp only [run]
  rcases o q s with ⟨r, s'⟩
  cases r with
  | answer b | crash | timeout => rfl

/-- **The run rule**: what holds between the states before and after each question, and carries over
from one question to the next, holds between the states before and after the run. -/
theorem run_rel {R : σ → σ → Prop} (hrefl : ∀ s, R s s)
    (htrans : ∀ {a b c}, R a b → R b c → R a c) (hstep : ∀ q s, R s (o q s).2) (t : Ask Q X Y)
    (s : σ) : R s (t.run o f s).2 := by
  induction t generalizing s with
  | done b | fail => exact hrefl s
  | ask q k ih =>
    rw [run_ask]
    cases (o q s).1 with
    | answer b => exact htrans (hstep q s) (ih b _)
    | crash | timeout => exact hstep q s
  | fetch x k ih =>
    rw [run]
    cases f x with
    | none => exact hrefl s
    | some y => exact ih y s

end Run

/-! ### Coming out true -/

/-- The decision can come out true, with the positive answers taken from `R`. -/
def Holds (R : Set Q) (F : X → Y → Prop) : Ask Q X Y → Prop
  | done b => b = true
  | fail => False
  | ask q k => q ∈ R ∧ (k true).Holds R F ∨ (k false).Holds R F
  | fetch x k => ∃ y, F x y ∧ (k y).Holds R F

variable {g : Bool → Ask Q X Y} {ts : List (Ask Q X Y)}

section Holds

variable {R R' : Set Q} {F : X → Y → Prop} {t u : Ask Q X Y}

@[simp] theorem holds_done {b : Bool} : (done b : Ask Q X Y).Holds R F ↔ b = true := Iff.rfl

@[simp] theorem holds_fail : (fail : Ask Q X Y).Holds R F ↔ False := Iff.rfl

@[simp] theorem holds_only {q : Q} : (only q : Ask Q X Y).Holds R F ↔ q ∈ R := by
  simp [only, Holds]

theorem Holds.fetch_mono {F' : X → Y → Prop} (h : ∀ x y, F x y → F' x y) (ht : t.Holds R F) :
    t.Holds R F' := by
  induction t with
  | done b | fail => exact ht
  | ask q k ih =>
    rcases ht with ⟨hq, ht⟩ | ht
    · exact .inl ⟨hq, ih true ht⟩
    · exact .inr (ih false ht)
  | fetch x k ih =>
    obtain ⟨y, hy, ht⟩ := ht
    exact ⟨y, h x y hy, ih y ht⟩

/-- A decision in two steps comes out true through the second; the first came out one way or the
other. -/
theorem Holds.of_bind (h : (t.bind g).Holds R F) :
    t.Holds R F ∧ (g true).Holds R F ∨ (g false).Holds R F := by
  induction t with
  | done b =>
    cases b with
    | true => exact .inl ⟨rfl, h⟩
    | false => exact .inr h
  | fail => exact h.elim
  | ask q k ih =>
    rcases h with ⟨hq, h⟩ | h
    · rcases ih true h with ⟨ht, h⟩ | h
      · exact .inl ⟨.inl ⟨hq, ht⟩, h⟩
      · exact .inr h
    rcases ih false h with ⟨ht, h⟩ | h
    · exact .inl ⟨.inr ht, h⟩
    · exact .inr h
  | fetch x k ih =>
    obtain ⟨y, hy, h⟩ := h
    rcases ih y h with ⟨ht, h⟩ | h
    · exact .inl ⟨⟨y, hy, ht⟩, h⟩
    · exact .inr h

theorem Holds.of_and (h : (t.and u).Holds R F) : t.Holds R F ∧ u.Holds R F := by
  rcases h.of_bind with h | h
  · simpa using h
  · simp at h

theorem Holds.of_or (h : (t.or u).Holds R F) : t.Holds R F ∨ u.Holds R F := by
  rcases h.of_bind with ⟨h, -⟩ | h
  · exact .inl h
  · exact .inr (by simpa using h)

theorem Holds.of_both (h : (t.both u).Holds R F) : t.Holds R F ∧ u.Holds R F := by
  rcases h.of_bind with ⟨ht, h⟩ | h
  · rcases h.of_bind with ⟨hu, -⟩ | h
    · exact ⟨ht, hu⟩
    · simp at h
  rcases h.of_bind with ⟨-, h⟩ | h
  · simp at h
  · simp at h

theorem Holds.of_every (h : (every ts).Holds R F) : ∀ t ∈ ts, t.Holds R F := by
  induction ts with
  | nil => simp
  | cons t ts ih =>
    obtain ⟨ht, hts⟩ := Holds.of_and h
    exact forall_mem_cons.2 ⟨ht, ih hts⟩

theorem Holds.of_each (h : (each ts).Holds R F) : ∀ t ∈ ts, t.Holds R F := by
  induction ts with
  | nil => simp
  | cons t ts ih =>
    obtain ⟨ht, hts⟩ := Holds.of_both h
    exact forall_mem_cons.2 ⟨ht, ih hts⟩

theorem Holds.of_some (h : (some ts).Holds R F) : ∃ t ∈ ts, t.Holds R F := by
  induction ts with
  | nil => simp [some] at h
  | cons t ts ih =>
    rcases Holds.of_or h with ht | hts
    · exact ⟨t, .head _, ht⟩
    · obtain ⟨u, hu, h⟩ := ih hts
      exact ⟨u, .tail _ hu, h⟩

end Holds

/-! ### Runs under an invariant

The states of a run keep `I` as long as they meet `G`, and a state that meets `G` comes from states
that do. -/

section Invariant

variable {o : Q → σ → Outcome × σ} {f : X → Option Y} {I G : σ → Prop}

section
variable (hI : ∀ q s, I s → G (o q s).2 → I (o q s).2) (hG : ∀ q s, G (o q s).2 → G s)
include hI hG

/-- The induction over a run that ends in a state which meets `G`. -/
theorem run_induct {M : Ask Q X Y → σ → Prop} (hdone : ∀ b s, I s → M (done b) s)
    (hfail : ∀ s, I s → M fail s) (hask : ∀ q k s, I s → G (o q s).2 → I (o q s).2 →
      (∀ b, (o q s).1 = .answer b → M (k b) (o q s).2) → M (ask q k) s)
    (hfetch : ∀ x k s, I s → (∀ y, f x = .some y → M (k y) s) → M (fetch x k) s)
    (t : Ask Q X Y) (s : σ) (hs : I s) (hend : G (t.run o f s).2) : M t s := by
  have hback : ∀ (t : Ask Q X Y) (s : σ), G (t.run o f s).2 → G s := fun t s =>
    t.run_rel (R := fun a b => G b → G a) (fun _ h => h) (fun hab hbc h => hab (hbc h)) hG s
  induction t generalizing s with
  | done b => exact hdone b s hs
  | fail => exact hfail s hs
  | ask q k ih =>
    rw [run_ask] at hend
    have hmid : G (o q s).2 := by
      cases hq : (o q s).1 with
      | answer b => exact hback (k b) _ (by simpa only [hq] using hend)
      | crash | timeout => simpa only [hq] using hend
    refine hask q k s hs hmid (hI q s hs hmid) fun b hb => ?_
    exact ih b _ (hI q s hs hmid) (by simpa only [hb] using hend)
  | fetch x k ih =>
    refine hfetch x k s hs fun y hy => ih y s hs ?_
    simpa only [run, hy] using hend

theorem run_invariant (t : Ask Q X Y) (s : σ) (hs : I s)
    (hend : G (t.run o f s).2) : I (t.run o f s).2 := by
  refine run_induct (M := fun t s => I (t.run o f s).2) hI hG ?_ ?_ ?_ ?_ t s hs hend
  · exact fun b s hs => hs
  · exact fun s hs => hs
  · intro q k s _ _ hmid ih
    rw [run_ask]
    cases hq : (o q s).1 with
    | answer b => exact ih b hq
    | crash | timeout => exact hmid
  intro x k s hs ih
  rw [run]
  cases hx : f x with
  | none => exact hs
  | some y => exact ih y hx

/-- **A run that comes out true**: what the states vouch for, and go on to vouch for, is enough for
the decision. -/
theorem run_holds {W : σ → Set Q} (hW : ∀ q s, W s ⊆ W (o q s).2)
    (hstep : ∀ q s, I s → G (o q s).2 → (o q s).1 = .answer true → q ∈ W (o q s).2)
    (t : Ask Q X Y) (s : σ) (hs : I s) (hend : G (t.run o f s).2)
    (htrue : (t.run o f s).1 = .answer true) :
    t.Holds (W (t.run o f s).2) fun x y => f x = .some y := by
  have hgrow : ∀ (t : Ask Q X Y) (s : σ), W s ⊆ W (t.run o f s).2 := fun t s =>
    t.run_rel (R := fun a b => W a ⊆ W b) (fun _ => subset_rfl) (fun h h' => h.trans h') hW s
  refine run_induct (M := fun t s => (t.run o f s).1 = .answer true →
    t.Holds (W (t.run o f s).2) fun x y => f x = .some y) hI hG ?_ ?_ ?_ ?_ t s hs hend htrue
  · exact fun b s _ h => by simpa [run] using h
  · exact fun s _ h => by simp [run] at h
  · intro q k s hs hmid _ ih htrue
    rw [run_ask] at htrue ⊢
    cases hq : (o q s).1 with
    | crash | timeout => simp [hq] at htrue
    | answer b =>
      simp only [hq] at htrue ⊢
      cases b with
      | true => exact .inl ⟨hgrow (k true) _ (hstep q s hs hmid hq), ih true hq htrue⟩
      | false => exact .inr (ih false hq htrue)
  · intro x k s _ ih htrue
    rw [run] at htrue ⊢
    cases hx : f x with
    | none => simp [hx] at htrue
    | some y =>
      simp only [hx] at htrue ⊢
      exact ⟨y, hx, ih y hx htrue⟩

end

/-- **A run that ends is an evaluation**, under enough fuel: if each answer from a state is the one
answer under enough fuel, so is the outcome. -/
theorem run_eval {u : Nat → Q → Outcome} {g : Nat → X → Option Y}
    (hu : ∀ q m m', m ≤ m' → (u m q).Le (u m' q))
    (hg : ∀ x y m m', m ≤ m' → g m x = .some y → g m' x = .some y)
    (hf : ∀ x y, f x = .some y → ∃ m, g m x = .some y)
    (hI : ∀ q s, I s → G (o q s).2 → I (o q s).2) (hG : ∀ q s, G (o q s).2 → G s)
    (hstep : ∀ q s, I s → G (o q s).2 → (o q s).1 ≠ .timeout → ∃ m, u m q = (o q s).1)
    (t : Ask Q X Y) (s : σ) (hs : I s) (hend : G (t.run o f s).2)
    (hne : (t.run o f s).1 ≠ .timeout) : ∃ m, t.eval (u m) (g m) = (t.run o f s).1 := by
  have hmore : ∀ (t : Ask Q X Y) m m' r, m ≤ m' → r ≠ .timeout → t.eval (u m) (g m) = r →
      t.eval (u m') (g m') = r := by
    intro t m m' r hm hr ht
    have hle := t.eval_le (fun q => hu q m m' hm) fun x y => hg x y m m' hm
    rw [hle (ht ▸ hr), ht]
  refine run_induct (M := fun t s => (t.run o f s).1 ≠ .timeout →
    ∃ m, t.eval (u m) (g m) = (t.run o f s).1) hI hG ?_ ?_ ?_ ?_ t s hs hend hne
  · exact fun b s _ _ => ⟨0, rfl⟩
  · exact fun s _ _ => ⟨0, rfl⟩
  · intro q k s hs hmid _ ih hne
    rw [run_ask] at hne ⊢
    cases hq : (o q s).1 with
    | timeout => simp [hq] at hne
    | crash =>
      obtain ⟨m, hm⟩ := hstep q s hs hmid (by simp [hq])
      exact ⟨m, by simp only [eval, hm, hq]⟩
    | answer b =>
      obtain ⟨m, hm⟩ := hstep q s hs hmid (by simp [hq])
      simp only [hq] at hne ⊢
      obtain ⟨m', hm'⟩ := ih b hq hne
      have hq' : u (max m m') q = .answer b := by
        rw [hu q m (max m m') (Nat.le_max_left ..) (by simp [hm, hq]), hm, hq]
      exact ⟨max m m', by
        simp only [eval, hq']
        exact hmore (k b) m' _ _ (Nat.le_max_right ..) hne hm'⟩
  · intro x k s _ ih hne
    rw [run] at hne ⊢
    cases hx : f x with
    | none => simp [hx] at hne
    | some y =>
      simp only [hx] at hne ⊢
      obtain ⟨m, hm⟩ := hf x y hx
      obtain ⟨m', hm'⟩ := ih y hx hne
      have hx' : g (max m m') x = .some y := hg x y m _ (Nat.le_max_left ..) hm
      exact ⟨max m m', by
        simp only [eval, hx']
        exact hmore (k y) m' _ _ (Nat.le_max_right ..) hne hm'⟩

/-- **An evaluation that ends is a run**: if each question that has an answer gets it from the
state, the outcomes are the same. -/
theorem run_eq_eval {u : Q → Outcome} (hI : ∀ q s, I s → G (o q s).2 → I (o q s).2)
    (hG : ∀ q s, G (o q s).2 → G s)
    (hstep : ∀ q s, I s → G (o q s).2 → u q ≠ .timeout → (o q s).1 = u q)
    (t : Ask Q X Y) (s : σ) (hs : I s) (hend : G (t.run o f s).2)
    (hne : t.eval u f ≠ .timeout) : (t.run o f s).1 = t.eval u f := by
  refine run_induct (M := fun t s => t.eval u f ≠ .timeout → (t.run o f s).1 = t.eval u f)
    hI hG ?_ ?_ ?_ ?_ t s hs hend hne
  · exact fun b s _ _ => rfl
  · exact fun s _ _ => rfl
  · intro q k s hs hmid _ ih hne
    have hq : u q ≠ .timeout := fun h => hne (by simp only [eval, h])
    have hstep' := hstep q s hs hmid hq
    rw [run_ask]
    cases hu : u q with
    | timeout => exact absurd hu hq
    | crash => simp only [hstep', hu, eval]
    | answer b =>
      simp only [eval, hu] at hne ⊢
      rw [hu] at hstep'
      simp only [hstep']
      exact ih b hstep' hne
  · intro x k s _ ih hne
    rw [run, eval]
    cases hx : f x with
    | none => rfl
    | some y =>
      simp only [eval, hx] at hne
      exact ih y hx hne

end Invariant

/-! ### The questions that come up, and failures -/

/-- A property of the questions that come up in an evaluation. -/
def All (o : Q → Outcome) (f : X → Option Y) (p : Q → Prop) : Ask Q X Y → Prop
  | done _ => True
  | fail => True
  | ask q k => p q ∧ ∀ b, o q = .answer b → (k b).All o f p
  | fetch x k => ∀ y, f x = .some y → (k y).All o f p

/-- The evaluation does not come to a failure. -/
def Passes (o : Q → Outcome) (f : X → Option Y) : Ask Q X Y → Prop
  | done _ => True
  | fail => False
  | ask q k => ∀ b, o q = .answer b → (k b).Passes o f
  | fetch x k => ∀ y, f x = .some y → (k y).Passes o f

/-- What holds of the members of a list that are come to: of the first, and of the next after one
that is gone on from. -/
def InTurn {α : Type} (go C : α → Prop) : List α → Prop
  | [] => True
  | a :: as => C a ∧ (go a → InTurn go C as)

section Passes

variable {o : Q → Outcome} {f : X → Option Y} {p p' : Q → Prop} {t u : Ask Q X Y} {α : Type}
  {l : List α} {h : α → Ask Q X Y}

/-- **A decision crashes** where it comes to a failure, or to a question that crashes. -/
theorem eval_ne_crash_iff :
    t.eval o f ≠ .crash ↔ t.Passes o f ∧ t.All o f fun q => o q ≠ .crash := by
  induction t with
  | done b => simp [eval, Passes, All]
  | fail => simp [eval, Passes]
  | ask q k ih =>
    simp only [eval, Passes, All]
    cases hq : o q with
    | answer b => simpa using ih b
    | crash | timeout => simp
  | fetch x k ih =>
    simp only [eval, Passes, All]
    cases hx : f x with
    | none => simp
    | some y => simpa using ih y

@[simp] theorem eval_only {q : Q} : (only q : Ask Q X Y).eval o f = o q := by
  simp only [only, eval]
  cases o q with
  | answer b | crash | timeout => rfl

@[simp] theorem passes_done {b : Bool} : (done b : Ask Q X Y).Passes o f := trivial

@[simp] theorem passes_fail : (fail : Ask Q X Y).Passes o f ↔ False := Iff.rfl

@[simp] theorem passes_only {q : Q} : (only q : Ask Q X Y).Passes o f := fun _ _ => trivial

theorem passes_bind : (t.bind g).Passes o f ↔
    t.Passes o f ∧ ∀ b, t.eval o f = .answer b → (g b).Passes o f := by
  induction t with
  | done b => simp [bind, eval, Passes]
  | fail => simp [bind, Passes]
  | ask q k ih =>
    simp only [bind, eval, Passes]
    cases hq : o q with
    | answer b => simpa using ih b
    | crash | timeout => simp
  | fetch x k ih =>
    simp only [bind, eval, Passes]
    cases hx : f x with
    | none => simp
    | some y => simpa using ih y

@[simp] theorem passes_and : (t.and u).Passes o f ↔
    t.Passes o f ∧ (t.eval o f = .answer true → u.Passes o f) := by
  simp [and, passes_bind]

@[simp] theorem passes_or : (t.or u).Passes o f ↔
    t.Passes o f ∧ (t.eval o f = .answer false → u.Passes o f) := by
  simp [or, passes_bind]

@[simp] theorem passes_both : (t.both u).Passes o f ↔
    t.Passes o f ∧ ((∃ b, t.eval o f = .answer b) → u.Passes o f) := by
  rw [both, passes_bind, forall_exists_index]
  refine and_congr_right fun _ => forall₂_congr fun b _ => ?_
  rw [passes_bind]
  exact and_iff_left fun c _ => trivial

theorem passes_every : (every (l.map h)).Passes o f ↔
    InTurn (fun a => (h a).eval o f = .answer true) (fun a => (h a).Passes o f) l := by
  induction l with
  | nil => exact Iff.rfl
  | cons a l ih => rw [map_cons, every, passes_and, InTurn, ih]

theorem passes_some : (some (l.map h)).Passes o f ↔
    InTurn (fun a => (h a).eval o f = .answer false) (fun a => (h a).Passes o f) l := by
  induction l with
  | nil => exact Iff.rfl
  | cons a l ih => rw [map_cons, some, passes_or, InTurn, ih]

theorem passes_each : (each (l.map h)).Passes o f ↔
    InTurn (fun a => ∃ b, (h a).eval o f = .answer b) (fun a => (h a).Passes o f) l := by
  induction l with
  | nil => exact Iff.rfl
  | cons a l ih => rw [map_cons, each, passes_both, InTurn, ih]

theorem InTurn.of_forall {go C : α → Prop} (hC : ∀ a ∈ l, C a) : InTurn go C l := by
  induction l with
  | nil => trivial
  | cons a l ih =>
    obtain ⟨ha, hl⟩ := forall_mem_cons.1 hC
    exact ⟨ha, fun _ => ih hl⟩

theorem inTurn_congr {go go' C C' : α → Prop} (hgo : ∀ a ∈ l, go a ↔ go' a)
    (hC : ∀ a ∈ l, C a ↔ C' a) : InTurn go C l ↔ InTurn go' C' l := by
  induction l with
  | nil => exact Iff.rfl
  | cons a l ih =>
    obtain ⟨hgoa, hgo⟩ := forall_mem_cons.1 hgo
    obtain ⟨ha, hC⟩ := forall_mem_cons.1 hC
    exact and_congr ha (imp_congr hgoa (ih hgo hC))

theorem All.imp (h : ∀ q, p q → p' q) (ht : t.All o f p) : t.All o f p' := by
  induction t with
  | done b | fail => trivial
  | ask q k ih => exact ⟨h q ht.1, fun b hb => ih b (ht.2 b hb)⟩
  | fetch x k ih => exact fun y hy => ih y (ht y hy)

end Passes

/-! ### Decisions that ask the same in another form -/

/-- The first decision asks what the second asks, in the form that `R` relates, and it may ask again
what was answered no (`S`); where the second fails, it may do anything. -/
inductive Mirrors (R : Q → Q → Prop) : Set Q → Ask Q X Y → Ask Q X Y → Prop
  | done (S : Set Q) (b : Bool) : Mirrors R S (done b) (done b)
  | fail (S : Set Q) (t : Ask Q X Y) : Mirrors R S t fail
  | ask {S : Set Q} {q q' : Q} {k k' : Bool → Ask Q X Y} (h : R q q')
      (yes : Mirrors R S (k true) (k' true)) (no : Mirrors R (insert q' S) (k false) (k' false)) :
      Mirrors R S (ask q k) (ask q' k')
  | again {S : Set Q} {q q' : Q} {k : Bool → Ask Q X Y} {u : Ask Q X Y} (h : R q q') (hq : q' ∈ S)
      (no : Mirrors R S (k false) u) : Mirrors R S (ask q k) u
  | fetch {S : Set Q} (x : X) {k k' : Y → Ask Q X Y} (h : ∀ y, Mirrors R S (k y) (k' y)) :
      Mirrors R S (fetch x k) (fetch x k')

section Mirrors

variable {R : Q → Q → Prop} {S S' : Set Q} {t t' u u' : Ask Q X Y} {o : Q → Outcome}
  {f : X → Option Y} {p : Q → Prop} {α : Type} {l : List α} {h h' : α → Ask Q X Y}

/-- **Mirrored decisions have one outcome**, if the answers do not depend on the form and the second
decision does not crash. -/
theorem Mirrors.eval_eq (hm : Mirrors R S t u)
    (ho : ∀ q q', R q q' → p q → o q' ≠ .crash → o q = o q') (hS : ∀ q ∈ S, o q = .answer false)
    (ht : t.All o f p) (hu : u.eval o f ≠ .crash) : t.eval o f = u.eval o f := by
  induction hm with
  | done S b => rfl
  | fail S t => exact absurd rfl hu
  | @ask S q q' k k' hR yes no ihyes ihno =>
    have hq' : o q' ≠ .crash := fun hc => hu (by simp only [eval, hc])
    have hq := ho q q' hR ht.1 hq'
    simp only [eval, hq] at hu ⊢
    cases hans : o q' with
    | crash | timeout => rfl
    | answer b =>
      simp only [hans] at hu
      have hall := ht.2 b (hq.trans hans)
      cases b with
      | true => exact ihyes hS hall hu
      | false =>
        refine ihno (fun r hr => ?_) hall hu
        rcases hr with rfl | hr
        · exact hans
        · exact hS r hr
  | @again S q q' k u hR hmem no ih =>
    have hq' := hS q' hmem
    have hq := (ho q q' hR ht.1 (by simp [hq'])).trans hq'
    simp only [eval, hq]
    exact ih hS (ht.2 false hq) hu
  | fetch x h ih =>
    simp only [eval] at hu ⊢
    cases hx : f x with
    | none => rfl
    | some y => exact ih y hS (ht y hx) (by simpa only [hx] using hu)

theorem Mirrors.refl (hR : ∀ q, R q q) (S : Set Q) (t : Ask Q X Y) : Mirrors R S t t := by
  induction t generalizing S with
  | done b => exact .done S b
  | fail => exact .fail S _
  | ask q k ih => exact .ask (hR q) (ih true S) (ih false _)
  | fetch x k ih => exact .fetch x fun y => ih y S

theorem Mirrors.bind (ht : Mirrors R S t u) {g' : Bool → Ask Q X Y}
    (hg : ∀ b S', S ⊆ S' → Mirrors R S' (g b) (g' b)) :
    Mirrors R S (t.bind g) (u.bind g') := by
  induction ht with
  | done S b => exact hg b S subset_rfl
  | fail S t => exact .fail S _
  | ask hR yes no ihyes ihno =>
    exact .ask hR (ihyes hg) (ihno fun b S' hS => hg b S' (fun _ h => hS (.inr h)))
  | again hR hmem no ih => exact .again hR hmem (ih hg)
  | fetch x h ih => exact .fetch x fun y => ih y hg

theorem Mirrors.and (ht : Mirrors R S t u) (hu : ∀ S', S ⊆ S' → Mirrors R S' t' u') :
    Mirrors R S (t.and t') (u.and u') :=
  ht.bind fun b S' hS => by
    cases b with
    | true => exact hu S' hS
    | false => exact .done S' false

theorem Mirrors.or (ht : Mirrors R S t u) (hu : ∀ S', S ⊆ S' → Mirrors R S' t' u') :
    Mirrors R S (t.or t') (u.or u') :=
  ht.bind fun b S' hS => by
    cases b with
    | true => exact .done S' true
    | false => exact hu S' hS

theorem Mirrors.both (ht : Mirrors R S t u) (hu : ∀ S', S ⊆ S' → Mirrors R S' t' u') :
    Mirrors R S (t.both t') (u.both u') :=
  ht.bind fun b S' hS => (hu S' hS).bind fun c S'' _ => .done S'' (b && c)

theorem Mirrors.every (hl : ∀ a ∈ l, ∀ S', Mirrors R S' (h a) (h' a)) (S : Set Q) :
    Mirrors R S (every (l.map h)) (every (l.map h')) := by
  induction l generalizing S with
  | nil => exact .done S true
  | cons a l ih =>
    obtain ⟨ha, hl⟩ := forall_mem_cons.1 hl
    exact (ha S).and fun S' _ => ih hl S'

theorem Mirrors.some (hl : ∀ a ∈ l, ∀ S', Mirrors R S' (h a) (h' a)) (S : Set Q) :
    Mirrors R S (some (l.map h)) (some (l.map h')) := by
  induction l generalizing S with
  | nil => exact .done S false
  | cons a l ih =>
    obtain ⟨ha, hl⟩ := forall_mem_cons.1 hl
    exact (ha S).or fun S' _ => ih hl S'

theorem Mirrors.each (hl : ∀ a ∈ l, ∀ S', Mirrors R S' (h a) (h' a)) (S : Set Q) :
    Mirrors R S (each (l.map h)) (each (l.map h')) := by
  induction l generalizing S with
  | nil => exact .done S true
  | cons a l ih =>
    obtain ⟨ha, hl⟩ := forall_mem_cons.1 hl
    exact (ha S).both fun S' _ => ih hl S'

/-- When none of some questions is answered yes, all of them have been answered no. -/
theorem Mirrors.some_or {q q' : α → Q} (hR : ∀ a, R (q a) (q' a))
    (hu : ∀ S', S ⊆ S' → (∀ a ∈ l, q' a ∈ S') → Mirrors R S' t u) :
    Mirrors R S ((Ask.some (l.map fun a => only (q a))).or t)
      ((Ask.some (l.map fun a => only (q' a))).or u) := by
  induction l generalizing S with
  | nil => exact hu S subset_rfl (forall_mem_nil _)
  | cons a l ih =>
    refine .ask (hR a) (.done S true) (ih fun S' hS hl => ?_)
    exact hu S' (fun r hr => hS (.inr hr)) (forall_mem_cons.2 ⟨hS (.inl rfl), hl⟩)

/-- What was answered no may be asked again. -/
theorem Mirrors.ask_each {q q' : α → Q} (hR : ∀ a, R (q a) (q' a)) (hl : ∀ a ∈ l, q' a ∈ S)
    (hg : ∀ b, Mirrors R S (g b) u) :
    Mirrors R S ((Ask.each (l.map fun a => only (q a))).bind g) u := by
  induction l generalizing g with
  | nil => exact hg true
  | cons a l ih =>
    obtain ⟨ha, hl⟩ := forall_mem_cons.1 hl
    refine .again (hR a) ha ?_
    simp only [bind_assoc]
    exact ih hl fun b => hg _

end Mirrors

/-! ### Every way through a decision -/

/-- Every question on any way through the decision has the property `p`; whatever is fetched on the
way comes out of `F`. -/
def Only (p : Q → Prop) (F : X → Y → Prop) : Ask Q X Y → Prop
  | done _ => True
  | fail => True
  | ask q k => p q ∧ ∀ b, (k b).Only p F
  | fetch x k => (∃ y, F x y) ∧ ∀ y, F x y → (k y).Only p F

section Only

variable {p : Q → Prop} {F : X → Y → Prop} {t u : Ask Q X Y}

theorem only_only {q : Q} (h : p q) : (only q : Ask Q X Y).Only p F := ⟨h, fun _ => trivial⟩

theorem Only.bind (ht : t.Only p F) (hg : ∀ b, (g b).Only p F) : (t.bind g).Only p F := by
  induction t with
  | done b => exact hg b
  | fail => trivial
  | ask q k ih => exact ⟨ht.1, fun b => ih b (ht.2 b)⟩
  | fetch x k ih => exact ⟨ht.1, fun y hy => ih y (ht.2 y hy)⟩

theorem Only.and (ht : t.Only p F) (hu : u.Only p F) : (t.and u).Only p F :=
  ht.bind fun b => by
    cases b with
    | true => exact hu
    | false => trivial

theorem Only.or (ht : t.Only p F) (hu : u.Only p F) : (t.or u).Only p F :=
  ht.bind fun b => by
    cases b with
    | true => trivial
    | false => exact hu

theorem Only.both (ht : t.Only p F) (hu : u.Only p F) : (t.both u).Only p F :=
  ht.bind fun _ => hu.bind fun _ => trivial

theorem Only.every (h : ∀ t ∈ ts, t.Only p F) : (every ts).Only p F :=
  list_induct h trivial fun _ _ => .and

theorem Only.some (h : ∀ t ∈ ts, t.Only p F) : (some ts).Only p F :=
  list_induct h trivial fun _ _ => .or

theorem Only.each (h : ∀ t ∈ ts, t.Only p F) : (each ts).Only p F :=
  list_induct h trivial fun _ _ => .both

theorem Only.imp {p' : Q → Prop} (h : ∀ q, p q → p' q) (ht : t.Only p F) : t.Only p' F := by
  induction t with
  | done b | fail => trivial
  | ask q k ih => exact ⟨h q ht.1, fun b => ih b (ht.2 b)⟩
  | fetch x k ih => exact ⟨ht.1, fun y hy => ih y (ht.2 y hy)⟩

/-- **A run that ends**: if every question that can come up ends under enough fuel, in any state that
meets `C`, then so does the decision. -/
theorem Only.ends {o : Nat → Q → σ → Outcome × σ} {f : Nat → X → Option Y} {C : σ → Prop}
    (ht : t.Only (fun q => ∃ n, ∀ m ≥ n, ∀ s, C s → (o m q s).1 ≠ .timeout)
      fun x y => ∃ n, ∀ m ≥ n, f m x = .some y) (hC : ∀ m q s, C s → C (o m q s).2) :
    ∃ n, ∀ m ≥ n, ∀ s, C s → (t.run (o m) (f m) s).1 ≠ .timeout := by
  induction t with
  | done b | fail => exact ⟨0, fun _ _ _ _ => nofun⟩
  | ask q k ih =>
    obtain ⟨⟨n, hn⟩, hk⟩ := ht
    obtain ⟨n₁, hn₁⟩ := ih true (hk true)
    obtain ⟨n₂, hn₂⟩ := ih false (hk false)
    refine ⟨n + n₁ + n₂, fun m hm s hs => ?_⟩
    have hq := hn m (by omega) s hs
    rw [run_ask]
    cases ho : (o m q s).1 with
    | timeout => exact absurd ho hq
    | crash => exact nofun
    | answer b =>
      cases b with
      | true => exact hn₁ m (by omega) _ (hC m q s hs)
      | false => exact hn₂ m (by omega) _ (hC m q s hs)
  | fetch x k ih =>
    obtain ⟨⟨y, hy⟩, hk⟩ := ht
    obtain ⟨n₁, hn₁⟩ := ih y (hk y hy)
    obtain ⟨n, hn⟩ := hy
    refine ⟨n + n₁, fun m hm s hs => ?_⟩
    rw [run, hn m (by omega)]
    exact hn₁ m (by omega) s hs

end Only

/-! ### Never coming out false -/

/-- The decision does not come out false as long as no question in `R` is answered so. -/
def Sure (R : Set Q) : Ask Q X Y → Prop
  | done b => b = true
  | fail => True
  | ask q k => (k true).Sure R ∧ (q ∉ R → (k false).Sure R)
  | fetch _ k => ∀ y, (k y).Sure R

section Sure

variable {R : Set Q} {t u : Ask Q X Y}

theorem sure_only {q : Q} (h : q ∈ R) : (only q : Ask Q X Y).Sure R :=
  ⟨rfl, fun hq => absurd h hq⟩

/-- What follows decides, however the first comes out. -/
theorem sure_bind (hg : ∀ b, (g b).Sure R) : (t.bind g).Sure R := by
  induction t with
  | done b => exact hg b
  | fail => trivial
  | ask q k ih => exact ⟨ih true, fun _ => ih false⟩
  | fetch x k ih => exact fun y => ih y

theorem Sure.bind (ht : t.Sure R) (hg : (g true).Sure R) : (t.bind g).Sure R := by
  induction t with
  | done b =>
    cases ht
    exact hg
  | fail => trivial
  | ask q k ih => exact ⟨ih true ht.1, fun hq => ih false (ht.2 hq)⟩
  | fetch x k ih => exact fun y => ih y (ht y)

theorem Sure.and (ht : t.Sure R) (hu : u.Sure R) : (t.and u).Sure R := ht.bind hu

theorem Sure.or_left (ht : t.Sure R) : (t.or u).Sure R := ht.bind rfl

theorem Sure.or_right (hu : u.Sure R) : (t.or u).Sure R := sure_bind fun b => by
  cases b with
  | true => exact rfl
  | false => exact hu

theorem Sure.both (ht : t.Sure R) (hu : u.Sure R) : (t.both u).Sure R := ht.bind (hu.bind rfl)

theorem Sure.every (h : ∀ t ∈ ts, t.Sure R) : (every ts).Sure R :=
  list_induct h rfl fun _ _ => Sure.and

theorem Sure.each (h : ∀ t ∈ ts, t.Sure R) : (each ts).Sure R :=
  list_induct h rfl fun _ _ => Sure.both

theorem Sure.some (h : ∃ t ∈ ts, t.Sure R) : (some ts).Sure R := by
  induction ts with
  | nil =>
    obtain ⟨t, ht, -⟩ := h
    cases ht
  | cons t ts ih =>
    obtain ⟨u, hu, hsure⟩ := h
    rcases mem_cons.1 hu with rfl | hu
    · exact hsure.or_left
    · exact (ih ⟨u, hu, hsure⟩).or_right

/-- **A run that is sure** does not come out false. -/
theorem Sure.run_ne_false {o : Q → σ → Outcome × σ} {f : X → Option Y} {I G : σ → Prop}
    (hI : ∀ q s, I s → G (o q s).2 → I (o q s).2) (hG : ∀ q s, G (o q s).2 → G s)
    (hR : ∀ q ∈ R, ∀ s, I s → G (o q s).2 → (o q s).1 ≠ .answer false) (ht : t.Sure R) {s : σ}
    (hs : I s) (hend : G (t.run o f s).2) : (t.run o f s).1 ≠ .answer false := by
  refine run_induct (M := fun t s => t.Sure R → (t.run o f s).1 ≠ .answer false) hI hG ?_ ?_ ?_ ?_
    t s hs hend ht
  · intro b s _ ht
    cases ht
    exact nofun
  · exact fun _ _ _ => nofun
  · intro q k s hs hmid _ ih ht
    rw [run_ask]
    cases ho : (o q s).1 with
    | crash | timeout => exact nofun
    | answer b =>
      cases b with
      | true => exact ih true ho ht.1
      | false => exact ih false ho (ht.2 fun hq => hR q hq s hs hmid ho)
  · intro x k s _ ih ht
    rw [run]
    cases hx : f x with
    | none => exact nofun
    | some y => exact ih y hx (ht y)

end Sure

/-! ### Runs over states that say more -/

/-- A run over states of which `h` forgets a part. -/
theorem run_erase {τ : Type} {h : τ → σ} {o : Q → σ → Outcome × σ} {u : Q → τ → Outcome × τ}
    {f : X → Option Y} (ho : ∀ q s, (u q s).1 = (o q (h s)).1 ∧ h (u q s).2 = (o q (h s)).2)
    (t : Ask Q X Y) (s : τ) :
    (t.run u f s).1 = (t.run o f (h s)).1 ∧ h (t.run u f s).2 = (t.run o f (h s)).2 := by
  induction t generalizing s with
  | done b | fail => exact ⟨rfl, rfl⟩
  | ask q k ih =>
    obtain ⟨h₁, h₂⟩ := ho q s
    rw [run_ask, run_ask, ← h₁, ← h₂]
    cases (u q s).1 with
    | answer b => exact ih b _
    | crash | timeout => exact ⟨rfl, rfl⟩
  | fetch x k ih =>
    rw [run, run]
    cases f x with
    | none => exact ⟨rfl, rfl⟩
    | some y => exact ih y s

end Ask

end SpacePony
