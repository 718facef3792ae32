import SpacePony.Runtime.Cycle.Scan
import SpacePony.Support.TrialDeletion
import Mathlib.Data.UInt

/-!
# Runtime — the scans of trial deletion

What the scans of `detect` do to the views, one scan after another.

* `scanLoop_inv`: what a visit keeps of the stack, a scan keeps.
* `scanGrey_spec`, `scanBlack_spec`, `scanWhite_spec`: the scans, with the searches of
  `TrialDeletion` that they carry out.
-/

namespace SpacePony.Cycle

open Finset List Cells Hoare TrialDeletion
open scoped UInt64.CommRing
open Function (update update_of_ne update_self)

/-! ### Views as a net -/

/-- References as edges. -/
def edges (l : List ViewRef) : List (ViewId × UInt64) := l.map fun ref => (ref.view, ref.rc)

/-- The views of a detector as a net. -/
def net (d : Detector) : Net ViewId UInt64 where
  edges v := edges (((cell d.heap v).map View.map).getD [])
  follow v := ∃ x, cell d.heap v = some x ∧ x.blocked = true

/-- What a scan changes of the views. -/
structure Marks where
  rc : ViewId → UInt64
  color : ViewId → Color
  deferred : ViewId → Bool
  perceived : ViewId → Option Token

/-- A view with its marks. -/
def Marks.on (m : Marks) (v : ViewId) (x : View) : View :=
  { x with rc := m.rc v, color := m.color v, deferred := m.deferred v, perceived := m.perceived v }

/-- The views of `d` are those of `d₀` with the marks. -/
def Shows (d₀ : Detector) (m : Marks) (d : Detector) : Prop :=
  ∀ v, cell d.heap v = (cell d₀.heap v).map (m.on v)

/-- Every reference of a view is to a view. -/
def Alive (d : Detector) : Prop :=
  ∀ v x, cell d.heap v = some x → ∀ ref ∈ x.map, ∃ y, cell d.heap ref.view = some y

/-- The references on a stack are to views. -/
def AllAlive (d : Detector) (stack : List ViewRef) : Prop :=
  ∀ ref ∈ stack, ∃ y, cell d.heap ref.view = some y

variable {d₀ d d' : Detector} {m m' : Marks} {v u root : ViewId} {x x₀ y : View} {w rc : UInt64}
  {stack : List ViewRef} {ref : ViewRef} {count : Int}

theorem net_edges (hx : cell d.heap v = some x) : (net d).edges v = edges x.map := by
  show edges _ = _
  rw [hx]
  rfl

theorem net_follow (hx : cell d.heap v = some x) : (net d).follow v ↔ x.blocked = true :=
  ⟨fun ⟨y, hy, hb⟩ => by rw [hx] at hy; exact Option.some.inj hy ▸ hb, fun hb => ⟨x, hx, hb⟩⟩

theorem AllAlive.tail (h : AllAlive d (ref :: stack)) : AllAlive d stack :=
  fun r hr => h r (.tail _ hr)

theorem AllAlive.push (h : AllAlive d (ref :: stack)) (hd : Alive d) (hx : cell d.heap v = some x) :
    AllAlive d (x.map.reverse ++ stack) := fun r hr => by
  rcases mem_append.1 hr with hr | hr
  · exact hd v x hx r (mem_reverse.1 hr)
  · exact h.tail r hr

theorem Shows.cell_eq (h : Shows d₀ m d) (hx : cell d₀.heap v = some x₀) :
    cell d.heap v = some (m.on v x₀) := by
  rw [h v, hx]
  rfl

/-- Writing one view. -/
theorem Shows.write (h : Shows d₀ m d) (hx : cell d₀.heap v = some x₀) (hy : m'.on v x₀ = y)
    (hne : ∀ u, u ≠ v → m'.on u = m.on u) : Shows d₀ m' { d with heap := write d.heap v y } := by
  intro u
  rw [cell_write (h.cell_eq hx)]
  by_cases hu : u = v
  · subst hu
    rw [if_pos rfl, hx, ← hy]
    rfl
  · rw [if_neg hu, h u, hne u hu]

/-! ### Scans with an invariant -/

/-- Where the only fault that may end a program is that it takes too many rounds. -/
def OnlyEndless : Fault → Prop := (· = .endless)

section
variable {I : List ViewRef → Int → Detector → Prop} {visit : ViewId → UInt64 → DetM (Bool × Int)}
  (hvisit : ∀ ref stack count d, I (ref :: stack) count d →
    Ends (visit ref.view ref.rc) (fun r d' => if r.1 then
      ∃ x, cell d'.heap ref.view = some x ∧ I (x.map.reverse ++ stack) (count + r.2) d'
      else I stack (count + r.2) d') OnlyEndless d)
include hvisit

/-- **What a visit keeps of the stack, a scan keeps.** -/
theorem scanLoop_inv (n : Nat) : ∀ stack count d, I stack count d →
    Ends (scanLoop visit n stack count) (fun count d' => I [] count d') OnlyEndless d := by
  induction n with
  | zero =>
    intro stack count d h
    cases stack with
    | nil => exact ends_pure h
    | cons ref stack => exact ends_throw rfl
  | succ n ih =>
    intro stack count d h
    cases stack with
    | nil => exact ends_pure h
    | cons ref stack =>
      refine ends_bind ((hvisit ref stack count d h).mono (fun r d' hd' => ?_) fun _ h => h)
      refine ends_ite (fun hr => ?_) fun hr => ?_
      · rw [if_pos hr] at hd'
        obtain ⟨x, hx, hI⟩ := hd'
        refine ends_bind (ends_getV (fun y hy => ?_) fun hn => ?_)
        · rw [hx] at hy
          cases hy
          exact ih _ _ _ hI
        · rw [hx] at hn
          cases hn
      · rw [if_neg hr] at hd'
        exact ih _ _ _ hd'

theorem scan_inv (h : I [⟨v, rc⟩] 0 d) :
    Ends (scan visit v rc) (fun count d' => I [] count d') OnlyEndless d :=
  ends_bind (ends_get (scanLoop_inv hvisit _ _ _ _ h))

end

variable {E : Fault → Prop}

theorem ends_getV_of {Q : View → Detector → Prop} (hx : cell d.heap v = some x) (h : Q x d) :
    Ends (getV v) Q E d :=
  ends_getV (fun y hy => by rw [hx] at hy; exact Option.some.inj hy ▸ h) fun hn => by
    rw [hx] at hn
    cases hn

/-- A scan that may only end in too many rounds, and does not, ends well. -/
theorem wp_of_endless {α : Type} {p : DetM α} {Q R : α → Detector → Prop}
    (h : Ends p Q OnlyEndless d) (hn : NotEndless p R d) : Wp p Q d :=
  ((h.and hn).mono (fun _ _ hQ => hQ.1) fun _ hE => hE).wp fun _ hE => hE.2 hE.1

/-! ### Marks -/

/-- The marks of a detector. -/
def marks (d : Detector) : Marks where
  rc v := ((cell d.heap v).map View.rc).getD 0
  color v := ((cell d.heap v).map View.color).getD .black
  deferred v := ((cell d.heap v).map View.deferred).getD false
  perceived v := ((cell d.heap v).map View.perceived).getD none

/-- White in `W`, else grey in `G`, else black. -/
def shade (G W : Finset ViewId) (v : ViewId) : Color :=
  if v ∈ W then .white else if v ∈ G then .grey else .black

/-- What is left of a detector but for its views and the deferred set. -/
def SameRest (d₀ d : Detector) : Prop :=
  d.views = d₀.views ∧ d.perceived = d₀.perceived ∧ d.nextToken = d₀.nextToken ∧
    d.effects = d₀.effects

theorem shows_marks (d : Detector) : Shows d (marks d) d := by
  intro v
  cases hv : cell d.heap v with
  | none => rfl
  | some x =>
    rw [Option.map_some, Marks.on, marks]
    simp only [hv, Option.map_some, Option.getD_some]

section
variable {G R W D : Finset ViewId}

theorem shade_white_iff : shade G W v = .white ↔ v ∈ W := by
  rw [shade]
  split <;> rename_i hW
  · simp [hW]
  · split <;> simp [hW]

theorem shade_grey_iff : shade G W v = .grey ↔ v ∉ W ∧ v ∈ G := by
  rw [shade]
  split <;> rename_i hW
  · simp [hW]
  · split <;> rename_i hG <;> simp [hW, hG]

theorem shade_black_iff : shade G W v = .black ↔ v ∉ W ∧ v ∉ G := by
  rw [shade]
  split <;> rename_i hW
  · simp [hW]
  · split <;> rename_i hG <;> simp [hW, hG]

/-- Within the region, what is black is what the search has seen. -/
theorem shade_sdiff_black_iff (hv : v ∈ R) : shade (R \ D) (W \ D) v = .black ↔ v ∈ D := by
  rw [shade_black_iff, mem_sdiff, mem_sdiff]
  tauto

theorem shade_sdiff_white_iff (hv : v ∉ D) : shade (R \ D) (W \ D) v = .white ↔ v ∈ W := by
  rw [shade_white_iff, mem_sdiff, and_iff_left hv]

theorem update_shade_black : update (shade (R \ D) (W \ D)) v .black =
    shade (R \ insert v D) (W \ insert v D) := by
  funext u
  by_cases hu : u = v
  · subst hu
    rw [update_self, eq_comm, shade_black_iff]
    simp
  · rw [update_of_ne hu, shade, shade]
    simp [hu]

theorem update_shade_grey : update (shade D ∅) v .grey = shade (insert v D) ∅ := by
  funext u
  by_cases hu : u = v
  · subst hu
    rw [update_self, eq_comm, shade_grey_iff]
    simp
  · rw [update_of_ne hu, shade, shade]
    simp [hu]

theorem update_shade_white : update (shade G W) v .white = shade G (insert v W) := by
  funext u
  by_cases hu : u = v
  · subst hu
    rw [update_self, eq_comm, shade_white_iff]
    simp
  · rw [update_of_ne hu, shade, shade]
    simp [hu]

/-- The white views that a search has not seen, after one more. -/
theorem card_sdiff_insert (hv : v ∉ D) :
    ((W \ insert v D).card : Int) + (if v ∈ W then 1 else 0) = (W \ D).card := by
  rw [sdiff_insert]
  split <;> rename_i hW
  · exact_mod_cast card_erase_add_one (mem_sdiff.2 ⟨hW, hv⟩)
  · rw [erase_eq_of_notMem fun hc => hW (mem_sdiff.1 hc).1, add_zero]

end

theorem edges_push (l stack : List ViewRef) :
    edges (l.reverse ++ stack) = (edges l).reverse ++ edges stack := by
  rw [edges, map_append, map_reverse]
  rfl

/-! ### The grey scan -/

/-- References as edges, with the counts to be taken away. -/
def negs (l : List ViewRef) : List (ViewId × UInt64) := (edges l).map fun e => (e.1, -e.2)

theorem negs_push (l stack : List ViewRef) :
    negs (l.reverse ++ stack) = (negs l).reverse ++ negs stack := by
  rw [negs, edges_push, map_append, map_reverse]
  rfl

/-- The deferred flags, cleared on `D`. -/
def clear (d : Detector) (D : Finset ViewId) (v : ViewId) : Bool :=
  if v ∈ D then false else (marks d).deferred v

/-- The views in the grey scan: `D` are grey by now. -/
def greyMarks (d : Detector) (r : ViewId → UInt64) (D : Finset ViewId) : Marks :=
  ⟨r, shade D ∅, clear d D, (marks d).perceived⟩

/-- What holds in the grey scan. -/
def Greying (d₀ : Detector) (R : Finset ViewId) (root : ViewId) (stack : List ViewRef) (_ : Int)
    (d : Detector) : Prop :=
  ∃ D r, Flood (net d₀).neg (· ∈ R) root ∅ D (negs stack) (marks d₀).rc r ∧
    Shows d₀ (greyMarks d₀ r D) d ∧ SameRest d₀ d ∧ AllAlive d₀ stack

theorem ends_undefer_clear {Q : View → Detector → Prop}
    (h : ∀ l, Q { x with deferred := false } { d with deferred := l }) : Ends (undefer x) Q E d :=
  ends_undefer h fun hx => by
    have hclear : ({ x with deferred := false } : View) = x := by rw [← hx]
    exact hclear ▸ h d.deferred

section
variable {R D : Finset ViewId} {r : ViewId → UInt64}

/-- A view that is written in the grey scan. -/
theorem Shows.grey (h : Shows d₀ (greyMarks d₀ r D) d) (hx : cell d₀.heap v = some x)
    (l : ViewMap) (hy : y = { x with
      rc := r v - w, color := .grey, deferred := false, perceived := (marks d₀).perceived v }) :
    Shows d₀ (greyMarks d₀ (update r v (r v + -w)) (insert v D))
      { d with heap := Cells.write d.heap v y, deferred := l } := by
  refine Shows.write (d := { d with deferred := l }) h hx ?_ fun u hu => ?_
  · rw [hy, Marks.on, greyMarks]
    simp only [update_self, ← update_shade_grey, clear, Finset.mem_insert_self, if_true,
      sub_eq_add_neg]
  funext z
  rw [Marks.on, Marks.on, greyMarks, greyMarks]
  simp only [update_of_ne hu, ← update_shade_grey, clear, Finset.mem_insert, hu, false_or]

theorem greyView_spec (hd : Alive d₀) (hR : IsRegion (net d₀) root R)
    (hx : cell d₀.heap v = some x) (hb : x.blocked = true)
    (hy : y = { (greyMarks d₀ r D).on v x with deferred := false })
    (hflood : Flood (net d₀).neg (· ∈ R) root ∅ D (negs (⟨v, w⟩ :: stack)) (marks d₀).rc r)
    (hshow : Shows d₀ (greyMarks d₀ r D) d) (hrest : SameRest d₀ d)
    (halive : AllAlive d₀ (⟨v, w⟩ :: stack)) (l : ViewMap) :
    Ends (greyView v w y) (fun r d' => if r.1 then
      ∃ x, cell d'.heap v = some x ∧ Greying d₀ R root (x.map.reverse ++ stack) (count + r.2) d'
      else Greying d₀ R root stack (count + r.2) d') OnlyEndless { d with deferred := l } := by
  have hf : (net d₀).follow v := (net_follow hx).2 hb
  have hcolor : y.color = shade D ∅ v := congrArg View.color hy
  refine ends_ite (fun hc => ?_) fun hc => ?_
  · -- the view is grey already
    have hD : v ∈ D := (shade_grey_iff.1 (hcolor.symm.trans hc)).2
    refine ends_bind (ends_setV (ends_pure ?_))
    have hshow' := hshow.grey (w := w) (y := { y with rc := y.rc - w }) hx l (by
      rw [hy, ← hc, hcolor]
      rfl)
    rw [insert_eq_of_mem hD] at hshow'
    exact ⟨D, _, hflood.seen hf hD, hshow', hrest, halive.tail⟩
  have hD : v ∉ D := fun hD =>
    hc (hcolor.trans (shade_grey_iff.2 ⟨notMem_empty _, hD⟩))
  have hblack : y.color = .black :=
    hcolor.trans (shade_black_iff.2 ⟨notMem_empty _, hD⟩)
  refine ends_bind (ends_assert (fun _ => ?_) fun h => absurd hblack h)
  refine ends_bind (ends_setV (ends_pure ?_))
  have hmem : v ∈ R := hflood.pending _ (.head _) hf
  have hflood' := hflood.visit hf hD fun e he hfe => hR.neg.step hmem he hfe
  have hedges : (net d₀).neg.edges v = negs x.map := congrArg (List.map _) (net_edges hx)
  rw [hedges] at hflood'
  have hpush : Flood (net d₀).neg (· ∈ R) root ∅ (insert v D) (negs (x.map.reverse ++ stack))
      (marks d₀).rc (update r v (r v + -w)) := by
    rw [negs_push]
    exact hflood'
  have hshow' := hshow.grey (w := w) (y := { y with rc := y.rc - w, color := .grey }) hx l (by
    rw [hy]
    rfl)
  have hpushed : AllAlive d₀ (x.map.reverse ++ stack) := halive.push hd hx
  exact ⟨_, hshow'.cell_eq hx, _, _, hpush, hshow', hrest, hpushed⟩

theorem markGrey_spec (hd : Alive d₀) (hR : IsRegion (net d₀) root R) (ref : ViewRef)
    (stack : List ViewRef) (count : Int) (d : Detector)
    (h : Greying d₀ R root (ref :: stack) count d) :
    Ends (markGrey ref.view ref.rc) (fun r d' => if r.1 then
      ∃ x, cell d'.heap ref.view = some x ∧
        Greying d₀ R root (x.map.reverse ++ stack) (count + r.2) d'
      else Greying d₀ R root stack (count + r.2) d') OnlyEndless d := by
  obtain ⟨D, r, hflood, hshow, hrest, halive⟩ := h
  obtain ⟨x, hx⟩ := halive ref (.head _)
  refine ends_bind (ends_getV_of (hshow.cell_eq hx) (ends_ite (fun hb => ?_) fun hb => ?_))
  · refine ends_bind (ends_undefer_clear fun l => ?_)
    exact greyView_spec hd hR hx hb rfl hflood hshow hrest halive l
  · have hskip := hflood.skip fun h => hb ((net_follow hx).1 h)
    exact ends_pure ⟨D, r, hskip, hshow, hrest, halive.tail⟩

theorem greyMarks_empty (hcolor : ∀ v x, cell d.heap v = some x → x.color = .black) :
    greyMarks d (marks d).rc ∅ = marks d := by
  have hc : shade ∅ ∅ = (marks d).color := by
    funext v
    rw [shade_black_iff.2 ⟨notMem_empty v, notMem_empty v⟩, marks]
    cases hv : cell d.heap v with
    | none => simp [hv]
    | some x => simp [hv, hcolor v x hv]
  have hd : clear d ∅ = (marks d).deferred := by
    funext v
    rw [clear, if_neg (notMem_empty v)]
  rw [greyMarks, hc, hd]

/-- **The grey scan** takes from every view of the region what the region refers to it with. -/
theorem scanGrey_spec (hd : Alive d₀) (hR : IsRegion (net d₀) root R)
    (hcolor : ∀ v x, cell d₀.heap v = some x → x.color = .black)
    (hroot : cell d₀.heap root = some x) : Ends (scanGrey root 0) (fun _ d => ∃ r,
      (∀ v, (net d₀).follow v → r v + flow (net d₀) R v = (marks d₀).rc v) ∧
        (∀ v, ¬ (net d₀).follow v → r v = (marks d₀).rc v) ∧
        Shows d₀ (greyMarks d₀ r R) d ∧ SameRest d₀ d) OnlyEndless d₀ := by
  have hstart : Shows d₀ (greyMarks d₀ (marks d₀).rc ∅) d₀ := by
    rw [greyMarks_empty hcolor]
    exact shows_marks d₀
  have hbegin : Flood (net d₀).neg (· ∈ R) root ∅ ∅ (negs [⟨root, 0⟩]) (marks d₀).rc
      (marks d₀).rc := by
    have hneg : negs [⟨root, 0⟩] = [(root, 0)] := by
      rw [negs, edges]
      simp
    rw [hneg]
    exact Flood.begin (fun v hv => absurd hv (notMem_empty v)) hR.root_mem
      fun u hu => absurd hu (notMem_empty u)
  refine (scan_inv (I := Greying d₀ R root) (markGrey_spec hd hR) ⟨∅, _, hbegin, hstart,
    ⟨rfl, rfl, rfl, rfl⟩, ?_⟩).mono (fun _ d h => ?_) fun _ h => h
  · intro ref href
    obtain rfl := List.mem_singleton.1 href
    exact ⟨x, hroot⟩
  obtain ⟨D, r, hflood, hshow, hrest, -⟩ := h
  obtain rfl : D = R := hflood.region hR.neg fun _ hv => hv
  refine ⟨r, fun v hv => ?_, hflood.other, hshow, hrest⟩
  obtain ⟨-, -, hbalance⟩ := hflood.final
  rw [hbalance v hv, sdiff_empty, flow_neg, neg_add_cancel_right]

end

/-! ### The black scan -/

/-- The views in a black scan: `D` are black by now, and the views of `W` that are not are white. -/
def blackMarks (m : Marks) (R W : Finset ViewId) (r : ViewId → UInt64) (D : Finset ViewId) :
    Marks :=
  { m with rc := r, color := shade (R \ D) (W \ D) }

/-- What holds in a black scan from `s` that began in `d₁`. -/
def Blackening (d₀ d₁ : Detector) (m : Marks) (R W : Finset ViewId) (P : ViewId → Prop)
    (s : ViewId) (D₀ : Finset ViewId) (stack : List ViewRef) (count : Int) (d : Detector) : Prop :=
  ∃ D r, Flood (net d₀) P s D₀ D (edges stack) m.rc r ∧ Shows d₀ (blackMarks m R W r D) d ∧
    count + (W \ D).card = (W \ D₀).card ∧ (∃ h, d = { d₁ with heap := h }) ∧ AllAlive d₀ stack

section
variable {d₁ : Detector} {R W D D₀ : Finset ViewId} {r : ViewId → UInt64} {P : ViewId → Prop}
  {s : ViewId}

theorem Shows.blacken (h : Shows d₀ (blackMarks m R W r D) d) (hx : cell d₀.heap v = some x)
    (hy : y = { (blackMarks m R W r D).on v x with rc := r v + w, color := .black }) :
    Shows d₀ (blackMarks m R W (update r v (r v + w)) (insert v D))
      { d with heap := Cells.write d.heap v y } := by
  refine h.write hx ?_ fun u hu => ?_
  · rw [hy, Marks.on, blackMarks]
    simp only [update_self, ← update_shade_black]
    rfl
  funext z
  rw [Marks.on, Marks.on, blackMarks, blackMarks]
  simp only [update_of_ne hu, ← update_shade_black]

/-- A view of the region becomes black, and is followed if it was not. -/
theorem markBlack_blocked (hx : cell d₀.heap v = some x) (hb : x.blocked = true) (hv : v ∈ R)
    (hshow : Shows d₀ (blackMarks m R W r D) d) : Ends (markBlack v w) (fun res d' =>
      res = (decide (v ∉ D), if v ∉ D ∧ v ∈ W then 1 else 0) ∧
        (∃ h, d' = { d with heap := h }) ∧
        Shows d₀ (blackMarks m R W (update r v (r v + w)) (insert v D)) d') E d := by
  refine ends_bind (ends_getV_of (hshow.cell_eq hx) (ends_ite (fun _ => ?_) fun h => absurd hb h))
  refine ends_ite (fun hc => ?_) fun hc => ?_
  · have hD : v ∈ D := (shade_sdiff_black_iff hv).1 hc
    refine ends_bind (ends_setV (ends_pure ⟨?_, ⟨_, rfl⟩, hshow.blacken hx ?_⟩))
    · rw [if_neg fun h => h.1 hD, decide_eq_false fun h => h hD]
    · exact congrArg (fun c => { (blackMarks m R W r D).on v x with rc := r v + w, color := c }) hc
  have hD : v ∉ D := fun hD => hc ((shade_sdiff_black_iff hv).2 hD)
  have hwhite : ((blackMarks m R W r D).on v x).color = .white ↔ v ∈ W :=
    shade_sdiff_white_iff hD
  refine ends_bind (ends_setV (ends_pure ⟨?_, ⟨_, rfl⟩, hshow.blacken hx rfl⟩))
  simp only [hwhite, hD, not_false_eq_true, decide_true, true_and]

/-- A view that is not followed stays. -/
theorem markBlack_unblocked (hx : cell d₀.heap v = some x) (hb : ¬ x.blocked = true) (hv : v ∉ R)
    (hW : W ⊆ R) (hshow : Shows d₀ (blackMarks m R W r D) d) :
    Ends (markBlack v w) (fun res d' => res = (false, 0) ∧ d' = d) E d := by
  refine ends_bind (ends_getV_of (hshow.cell_eq hx) (ends_ite (fun h => absurd h hb) fun _ => ?_))
  have hblack : shade (R \ D) (W \ D) v = .black := shade_black_iff.2
    ⟨fun hc => hv (hW (mem_sdiff.1 hc).1), fun hc => hv (mem_sdiff.1 hc).1⟩
  exact ends_bind (ends_assert (fun _ => ends_pure ⟨rfl, rfl⟩) fun h => absurd hblack h)

/-- The search of a black scan after a view of the region. -/
theorem flood_blacken {base : ViewId → UInt64} (hx : cell d₀.heap v = some x)
    (hb : x.blocked = true) (hP : ∀ e ∈ (net d₀).edges v, (net d₀).follow e.1 → P e.1)
    (h : Flood (net d₀) P s D₀ D (edges (⟨v, w⟩ :: stack)) base r) :
    Flood (net d₀) P s D₀ (insert v D)
      (edges (if v ∉ D then x.map.reverse ++ stack else stack)) base (update r v (r v + w)) := by
  by_cases hD : v ∈ D
  · rw [if_neg fun h => h hD, insert_eq_of_mem hD]
    exact h.seen ((net_follow hx).2 hb) hD
  · rw [if_pos hD, edges_push, ← net_edges hx]
    exact h.visit ((net_follow hx).2 hb) hD hP

/-- The count of a black scan after a view. -/
theorem count_blacken {k : Int} (h : count + (W \ D).card = k) :
    count + (if v ∉ D ∧ v ∈ W then 1 else 0) + (W \ insert v D).card = k := by
  by_cases hD : v ∈ D
  · rw [if_neg fun h => h.1 hD, insert_eq_of_mem hD, add_zero, h]
  have hcard := card_sdiff_insert (W := W) hD
  simp only [hD, not_false_eq_true, true_and]
  rw [add_assoc, add_comm (ite _ _ _), hcard, h]

section
variable (hd : Alive d₀) (hPR : ∀ v, P v → v ∈ R)
  (hP : ∀ v, P v → ∀ e ∈ (net d₀).edges v, (net d₀).follow e.1 → P e.1)
  (hR : ∀ v ∈ R, (net d₀).follow v) (hW : W ⊆ R)
include hd hPR hP hR hW

theorem markBlack_spec (ref : ViewRef) (stack : List ViewRef)
    (count : Int) (d : Detector) (h : Blackening d₀ d₁ m R W P s D₀ (ref :: stack) count d) :
    Ends (markBlack ref.view ref.rc) (fun r d' => if r.1 then
      ∃ x, cell d'.heap ref.view = some x ∧
        Blackening d₀ d₁ m R W P s D₀ (x.map.reverse ++ stack) (count + r.2) d'
      else Blackening d₀ d₁ m R W P s D₀ stack (count + r.2) d') OnlyEndless d := by
  obtain ⟨D, r, hflood, hshow, hcount, ⟨h₁, hd₁⟩, halive⟩ := h
  obtain ⟨x, hx⟩ := halive ref (.head _)
  have hf : (net d₀).follow ref.view ↔ x.blocked = true := net_follow hx
  by_cases hb : x.blocked = true
  · have hPv : P ref.view := hflood.pending _ (.head _) (hf.2 hb)
    refine (markBlack_blocked hx hb (hPR _ hPv) hshow).mono (fun res d' h => ?_) fun _ h => h
    obtain ⟨rfl, ⟨h₂, rfl⟩, hshow'⟩ := h
    have hflood' := flood_blacken hx hb (hP _ hPv) hflood
    have hcount' := count_blacken (v := ref.view) hcount
    have hd' : ∃ h, { d with heap := h₂ } = { d₁ with heap := h } := ⟨h₂, by rw [hd₁]⟩
    by_cases hD : ref.view ∈ D
    · rw [if_neg fun h => h hD] at hflood'
      rw [if_neg (by simpa using hD)]
      exact ⟨_, _, hflood', hshow', hcount', hd', halive.tail⟩
    rw [if_pos hD] at hflood'
    rw [if_pos (by simpa using hD)]
    have hpush : AllAlive d₀ (x.map.reverse ++ stack) := halive.push hd hx
    exact ⟨_, hshow'.cell_eq hx, _, _, hflood', hshow', hcount', hd', hpush⟩
  have hnot : ref.view ∉ R := fun h => hb (hf.1 (hR _ h))
  refine (markBlack_unblocked hx hb hnot hW hshow).mono (fun res d' h => ?_) fun _ h => h
  obtain ⟨rfl, rfl⟩ := h
  have hskip := hflood.skip fun h => hb (hf.1 h)
  have hcount' : count + 0 + (W \ D).card = (W \ D₀).card := by rw [add_zero, hcount]
  exact ⟨D, r, hskip, hshow, hcount', ⟨h₁, hd₁⟩, halive.tail⟩

/-- **A black scan** turns black what it follows, and gives back what was taken for it. -/
theorem scanBlack_spec (hs : cell d₀.heap s = some x)
    (hstart : Flood (net d₀) P s D₀ D₀ [(s, 0)] m.rc m.rc)
    (hshow : Shows d₀ (blackMarks m R W m.rc D₀) d₁) :
    Ends (scanBlack s 0) (fun count d => ∃ D r, Flood (net d₀) P s D₀ D [] m.rc r ∧
      Shows d₀ (blackMarks m R W r D) d ∧ count + (W \ D).card = (W \ D₀).card ∧
        ∃ h, d = { d₁ with heap := h }) OnlyEndless d₁ := by
  refine (scan_inv (I := Blackening d₀ d₁ m R W P s D₀) (markBlack_spec hd hPR hP hR hW)
    ⟨D₀, _, hstart, hshow, zero_add _, ⟨_, rfl⟩, ?_⟩).mono (fun count d h => ?_) fun _ h => h
  · intro ref href
    obtain rfl := List.mem_singleton.1 href
    exact ⟨x, hs⟩
  · obtain ⟨D, r, hflood, hshow', hcount, hrest, -⟩ := h
    exact ⟨D, r, hflood, hshow', hcount, hrest⟩

end

end

/-! ### The white scan -/

/-- The views in the white scan: `B` are black by now, and `W` are white. -/
def whiteMarks (m : Marks) (R B W : Finset ViewId) (r : ViewId → UInt64) : Marks :=
  { m with rc := r, color := shade (R \ B) W }

/-- What holds in the white scan, that began in `d₁`. -/
def Whitening (d₀ d₁ : Detector) (m : Marks) (R : Finset ViewId) (root : ViewId)
    (stack : List ViewRef) (count : Int) (d : Detector) : Prop :=
  ∃ B W r, White (net d₀) R (marks d₀).rc root B W (edges stack) r ∧
    Shows d₀ (whiteMarks m R B W r) d ∧ count = W.card ∧ (∃ h, d = { d₁ with heap := h }) ∧
    AllAlive d₀ stack

section
variable {d₁ : Detector} {R B W : Finset ViewId} {r : ViewId → UInt64}

theorem Shows.whiten (h : Shows d₀ (whiteMarks m R B W r) d) (hx : cell d₀.heap v = some x)
    (hy : y = { (whiteMarks m R B W r).on v x with color := .white }) :
    Shows d₀ (whiteMarks m R B (insert v W) r) { d with heap := Cells.write d.heap v y } := by
  refine h.write hx ?_ fun u hu => ?_
  · rw [hy, Marks.on, whiteMarks]
    simp only [← update_shade_white, update_self]
    rfl
  funext z
  rw [Marks.on, Marks.on, whiteMarks, whiteMarks]
  simp only [← update_shade_white, update_of_ne hu]

section
variable (hd : Alive d₀) (hR : IsRegion (net d₀) root R)
include hd hR

/-- A grey view that is held turns black what it leads to. -/
theorem markWhite_held
    (hx : cell d₀.heap v = some x) (hf : (net d₀).follow v) (hB : v ∉ B) (hr : r v ≠ 0)
    (hwhite : White (net d₀) R (marks d₀).rc root B W (edges (⟨v, w⟩ :: stack)) r)
    (hshow : Shows d₀ (whiteMarks m R B W r) d) (hrest : ∃ h, d = { d₁ with heap := h })
    (halive : AllAlive d₀ stack) :
    Ends (scanBlack v 0) (fun c d' => Whitening d₀ d₁ m R root stack (W.card - c) d')
      OnlyEndless d := by
  have hheld : Held (net d₀) R (marks d₀).rc v := hwhite.held hR hf hB hr
  have hstart : Flood (net d₀) (Held (net d₀) R (marks d₀).rc) v B B [(v, 0)] r r :=
    Flood.begin hwhite.black (fun _ => hheld) hwhite.blackClosed
  have hshow' : Shows d₀ (blackMarks (whiteMarks m R B W r) R W r B) d := by
    rw [blackMarks, hwhite.sdiff_eq]
    exact hshow
  refine (scanBlack_spec hd (fun v hv => hR.held_mem hv) (fun v hv e he hfe => hv.step he hfe)
    (fun v hv => hR.follow hv) (fun v hv => (hwhite.white v hv).1) hx hstart hshow').mono
    (fun c d' h => ?_) fun _ h => h
  obtain ⟨D, r', hflood, hshow₂, hcount, h₂, rfl⟩ := h
  obtain ⟨h₁, rfl⟩ := hrest
  rw [hwhite.sdiff_eq] at hcount
  have hcard : (W.card : Int) - c = (W \ D).card := by rw [← hcount, add_sub_cancel_left]
  exact ⟨D, W \ D, r', hwhite.blacken hR hflood, hshow₂, hcard, ⟨h₂, rfl⟩, halive⟩

theorem markWhite_spec
    (hperceived : ∀ v ∈ R, m.perceived v = none) (ref : ViewRef) (stack : List ViewRef)
    (count : Int) (d : Detector) (h : Whitening d₀ d₁ m R root (ref :: stack) count d) :
    Ends (markWhite ref.view ref.rc) (fun r d' => if r.1 then
      ∃ x, cell d'.heap ref.view = some x ∧
        Whitening d₀ d₁ m R root (x.map.reverse ++ stack) (count + r.2) d'
      else Whitening d₀ d₁ m R root stack (count + r.2) d') OnlyEndless d := by
  obtain ⟨B, W, r, hwhite, hshow, rfl, hrest, halive⟩ := h
  obtain ⟨x, hx⟩ := halive ref (.head _)
  refine ends_bind (ends_getV_of (hshow.cell_eq hx) (ends_ite (fun hc => ?_) fun hc => ?_))
  · have hgrey : shade (R \ B) W ref.view = .grey := hc
    obtain ⟨hW, hRB⟩ := shade_grey_iff.1 hgrey
    obtain ⟨hv, hB⟩ := mem_sdiff.1 hRB
    have hf : (net d₀).follow ref.view := hR.follow hv
    refine ends_bind (ends_assert (fun _ => ?_) fun h => absurd ((net_follow hx).1 hf) h)
    refine ends_ite (fun hr => ?_) fun hr => ?_
    · have hne : r ref.view ≠ 0 := fun h0 => by
        have hpos : 0 < r ref.view := hr
        rw [h0] at hpos
        exact absurd hpos (by decide)
      refine ends_bind ((markWhite_held hd hR hx hf hB hne hwhite hshow hrest halive.tail).mono
        (fun c d' h => ends_pure ?_) fun _ h => h)
      exact h
    have hzero : r ref.view = 0 := by
      have hnot : ¬ 0 < r ref.view := hr
      exact UInt64.le_antisymm (UInt64.not_lt.1 hnot) (UInt64.zero_le)
    refine ends_bind (ends_assert (fun _ => ?_) fun h => absurd (hperceived _ hv) h)
    refine ends_bind (ends_setV (ends_pure ?_))
    have hturn := hwhite.turn hR hf (notMem_union.2 ⟨hB, hW⟩) hzero
    have hpush : White (net d₀) R (marks d₀).rc root B (insert ref.view W)
        (edges (x.map.reverse ++ stack)) r := by
      rw [edges_push, ← net_edges hx]
      exact hturn
    have hshow' := hshow.whiten hx rfl
    have hcard : (W.card : Int) + 1 = (insert ref.view W).card := by
      rw [card_insert_of_notMem hW]
      rfl
    have hpushed : AllAlive d₀ (x.map.reverse ++ stack) := halive.push hd hx
    obtain ⟨h₁, rfl⟩ := hrest
    exact ⟨_, hshow'.cell_eq hx, _, _, r, hpush, hshow', hcard, ⟨_, rfl⟩, hpushed⟩
  have hskip := hwhite.skip fun hf => by
    have hv : ref.view ∈ R := hwhite.pending _ (.head _) hf
    by_contra hn
    obtain ⟨hB, hW⟩ := notMem_union.1 hn
    exact hc (shade_grey_iff.2 ⟨hW, mem_sdiff.2 ⟨hv, hB⟩⟩)
  exact ends_pure ⟨B, W, r, hskip, hshow, add_zero _, hrest, halive.tail⟩

/-- **The white scan** finds the views of the region that are not held. -/
theorem scanWhite_spec
    (hperceived : ∀ v ∈ R, m.perceived v = none) (hroot : cell d₀.heap root = some x)
    (hbalance : ∀ v, (net d₀).follow v → m.rc v + flow (net d₀) R v = (marks d₀).rc v)
    (hother : ∀ v, ¬ (net d₀).follow v → m.rc v = (marks d₀).rc v)
    (hcolor : m.color = shade R ∅) (hshow : Shows d₀ m d₁) :
    Ends (scanWhite root) (fun count d => ∃ B W r,
      White (net d₀) R (marks d₀).rc root B W [] r ∧ Shows d₀ (whiteMarks m R B W r) d ∧
        count = W.card ∧ ∃ h, d = { d₁ with heap := h }) OnlyEndless d₁ := by
  have hstart : Shows d₀ (whiteMarks m R ∅ ∅ m.rc) d₁ := by
    rw [whiteMarks, sdiff_empty, ← hcolor]
    exact hshow
  refine (scan_inv (I := Whitening d₀ d₁ m R root) (markWhite_spec hd hR hperceived)
    ⟨∅, ∅, m.rc, White.begin hR hbalance hother, hstart, rfl, ⟨_, rfl⟩, ?_⟩).mono
    (fun count d h => ?_) fun _ h => h
  · intro ref href
    obtain rfl := List.mem_singleton.1 href
    exact ⟨x, hroot⟩
  · obtain ⟨B, W, r, hwhite, hshow', hcount, hrest, -⟩ := h
    exact ⟨B, W, r, hwhite, hshow', hcount, hrest⟩

end

end

end SpacePony.Cycle
