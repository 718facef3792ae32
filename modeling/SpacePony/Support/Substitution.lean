import Mathlib.Data.List.Basic

/-!
# Support — substitution in trees

Trees with variables, where a substitution rebuilds each node by a function of its label: most nodes
are rebuilt as they are, some are computed anew.  Two substitutions agree on a rigid tree exactly
where they agree on its variables (`substitute_eq_iff`); one may follow another where rebuilding
respects the second (`substitute_substitute`).
-/

namespace SpacePony.Substitution

/-- A tree: a variable, or a label with the trees below it. -/
inductive Tree (V L : Type) where
  | var (v : V)
  | node (l : L) (children : List (Tree V L))

namespace Tree

variable {V L : Type}

/-- Induction where the children are taken one by one. -/
theorem ind {P : Tree V L → Prop} (t : Tree V L) (var : ∀ v, P (.var v))
    (node : ∀ l ts, (∀ t ∈ ts, P t) → P (.node l ts)) : P t :=
  @Tree.rec V L P (fun ts => ∀ t ∈ ts, P t) var node nofun
    (fun _ _ ht hts => List.forall_mem_cons.2 ⟨ht, hts⟩) t

mutual

/-- Each variable is replaced, and each node rebuilt. -/
def substitute (make : L → List (Tree V L) → Tree V L) (σ : V → Tree V L) : Tree V L → Tree V L
  | .var v => σ v
  | .node l ts => make l (substituteAll make σ ts)

def substituteAll (make : L → List (Tree V L) → Tree V L) (σ : V → Tree V L) :
    List (Tree V L) → List (Tree V L)
  | [] => []
  | t :: ts => substitute make σ t :: substituteAll make σ ts

end

/-- The variable occurs in the tree. -/
inductive Occurs (v : V) : Tree V L → Prop
  | var : Occurs v (.var v)
  | node {l : L} {ts : List (Tree V L)} {t : Tree V L} (hmem : t ∈ ts) (h : Occurs v t) :
      Occurs v (.node l ts)

/-- The first tree is a part of the second. -/
inductive Part (u : Tree V L) : Tree V L → Prop
  | self : Part u u
  | node {l : L} {ts : List (Tree V L)} {t : Tree V L} (hmem : t ∈ ts) (h : Part u t) :
      Part u (.node l ts)

section
variable (make : L → List (Tree V L) → Tree V L)

/-- All nodes are rebuilt as they are. -/
def Rigid (t : Tree V L) : Prop :=
  ∀ l ts, Part (.node l ts) t → ∀ us, make l us = .node l us

/-- Rebuilding what the first substitution makes of a node respects the second. -/
def Respects (σ τ : V → Tree V L) (t : Tree V L) : Prop :=
  ∀ l ts, Part (.node l ts) t →
    (make l (ts.map (substitute make τ))).substitute make σ =
      make l ((ts.map (substitute make τ)).map (substitute make σ))

variable {make} {σ τ : V → Tree V L} {t : Tree V L}

theorem substituteAll_eq_map (ts : List (Tree V L)) :
    substituteAll make σ ts = ts.map (substitute make σ) := by
  induction ts with
  | nil => rfl
  | cons t ts ih => rw [substituteAll, ih, List.map_cons]

@[simp] theorem substitute_node (l : L) (ts : List (Tree V L)) :
    (node l ts).substitute make σ = make l (ts.map (substitute make σ)) := by
  rw [substitute, substituteAll_eq_map]

theorem Rigid.child {l : L} {ts : List (Tree V L)} (h : Rigid make (.node l ts)) (ht : t ∈ ts) :
    Rigid make t :=
  fun l' ts' hpart => h l' ts' (.node ht hpart)

theorem Respects.child {l : L} {ts : List (Tree V L)} (h : Respects make σ τ (.node l ts))
    (ht : t ∈ ts) : Respects make σ τ t :=
  fun l' ts' hpart => h l' ts' (.node ht hpart)

/-- Only the variables that occur matter. -/
theorem substitute_congr (h : ∀ v, Occurs v t → σ v = τ v) :
    t.substitute make σ = t.substitute make τ := by
  induction t using ind with
  | var v => exact h v .var
  | node l ts ih =>
    rw [substitute_node, substitute_node]
    exact congrArg _ (List.map_congr_left fun t ht => ih t ht fun v hv => h v (.node ht hv))

/-- **Where all nodes are rebuilt as they are, substitutions agree only if they agree on the
variables.** -/
theorem substitute_eq_iff (hrigid : Rigid make t) :
    t.substitute make σ = t.substitute make τ ↔ ∀ v, Occurs v t → σ v = τ v := by
  refine ⟨fun h v hv => ?_, substitute_congr⟩
  induction hv with
  | var => exact h
  | @node l ts u hmem hv ih =>
    rw [substitute_node, substitute_node, hrigid l ts .self, hrigid l ts .self] at h
    injection h with _ h
    exact ih (hrigid.child hmem) (List.map_inj_left.1 h u hmem)

theorem Rigid.respects (hrigid : Rigid make t) : Respects make σ τ t := by
  intro l ts hpart
  rw [hrigid l ts hpart, substitute_node]

/-- One substitution after another. -/
theorem substitute_substitute (h : Respects make σ τ t) : (t.substitute make τ).substitute make σ =
      t.substitute make fun v => (τ v).substitute make σ := by
  induction t using ind with
  | var v => rfl
  | node l ts ih =>
    rw [substitute_node, h l ts .self, substitute_node, List.map_map]
    exact congrArg _ (List.map_congr_left fun t ht => ih t ht (h.child ht))

end

end Tree

end SpacePony.Substitution
