import SpacePony.Runtime.Cycle.Detector

/-!
# Runtime — scans of the cycle detector

What a visit keeps, a scan keeps (`scanLoop_keeps`).  The bound on the rounds of a scan is never
used up, for each visit that is followed takes its view out of those that can be followed
(`scan_not_endless`).
-/

namespace SpacePony.Cycle

open Cells Hoare

/-! ### Rules -/

variable {x y : View} {visit : ViewId → UInt64 → DetM (Bool × Int)}

section
variable {α : Type} {d : Detector} {E : Fault → Prop} {v : ViewId}

theorem ends_assert {p : Prop} [Decidable p] {Q : Unit → Detector → Prop} (h : p → Q () d)
    (hE : ¬ p → E .assertion) : Ends (assert p) Q E d :=
  ends_ite (fun hp => ends_pure (h hp)) fun hp => ends_throw (hE hp)

theorem ends_getV {Q : View → Detector → Prop} (h : ∀ x, cell d.heap v = some x → Q x d)
    (hE : cell d.heap v = none → E .useAfterFree) : Ends (getV v) Q E d := by
  refine ends_bind (ends_get ?_)
  cases hc : cell d.heap v with
  | some x => exact ends_pure (h x hc)
  | none => exact ends_throw (hE hc)

theorem ends_setV {Q : Unit → Detector → Prop} (h : Q () { d with heap := write d.heap v x }) :
    Ends (setV v x) Q E d :=
  ends_modify h

/-- The program keeps `P`, if it does not fault. -/
def Keeps (P : Detector → Prop) (x : DetM α) : Prop :=
  ∀ d, P d → Ends x (fun _ d' => P d') (fun _ => True) d

variable {P : Detector → Prop}

theorem Keeps.bind {β : Type} {x : DetM α} {f : α → DetM β} (hx : Keeps P x)
    (hf : ∀ a, Keeps P (f a)) : Keeps P (x >>= f) :=
  fun d hd => ends_bind ((hx d hd).mono (fun a d' hd' => hf a d' hd') fun _ h => h)

theorem Keeps.pure {a : α} : Keeps P (pure a : DetM α) :=
  fun _ hd => ends_pure hd

theorem Keeps.throw {e : Fault} : Keeps P (throw e : DetM α) :=
  fun _ _ => ends_throw trivial

theorem Keeps.ite {p : Prop} [Decidable p] {x y : DetM α} (hx : Keeps P x) (hy : Keeps P y) :
    Keeps P (if p then x else y) :=
  fun d hd => ends_ite (fun _ => hx d hd) fun _ => hy d hd

theorem Keeps.assert {p : Prop} [Decidable p] : Keeps P (assert p) :=
  fun _ hd => ends_assert (fun _ => hd) fun _ => trivial

/-- A view that is read first. -/
theorem Keeps.getV {f : View → DetM α}
    (h : ∀ x d, P d → cell d.heap v = some x → Ends (f x) (fun _ d' => P d') (fun _ => True) d) :
    Keeps P (getV v >>= f) :=
  fun d hd => ends_bind (ends_getV (fun x hx => h x d hd hx) fun _ => trivial)

/-- What a visit keeps, a scan keeps, whatever is on the stack. -/
theorem scanLoop_keeps (hvisit : ∀ v rc, Keeps P (visit v rc)) (n : Nat) (stack : List ViewRef)
    (count : Int) : Keeps P (scanLoop visit n stack count) := by
  induction n generalizing stack count with
  | zero =>
    cases stack with
    | nil => exact Keeps.pure
    | cons ref stack => exact Keeps.throw
  | succ n ih =>
    cases stack with
    | nil => exact Keeps.pure
    | cons ref stack =>
      refine (hvisit ref.view ref.rc).bind fun r => Keeps.ite ?_ (ih stack _)
      exact fun d hd => ends_bind (ends_getV (fun x _ => ih _ _ d hd) fun _ => trivial)

theorem scan_keeps (hvisit : ∀ v rc, Keeps P (visit v rc)) (rc : UInt64) :
    Keeps P (scan visit v rc) :=
  fun d hd => ends_bind (ends_get (scanLoop_keeps hvisit _ _ _ d hd))

end

/-! ### Scans end -/

/-- The references of the views that a scan can still follow. -/
def pending (p : View → Bool) (d : Detector) : Nat :=
  total (fun x : View => if p x then x.map.length else 0) d.heap

theorem pending_le (p : View → Bool) (d : Detector) : pending p d + 1 ≤ scanBound d := by
  have hle : ∀ h : List (Option View), total (fun x : View => if p x then x.map.length else 0) h ≤
      total (fun x : View => x.map.length) h := by
    intro h
    induction h with
    | nil => exact le_rfl
    | cons o h ih =>
      rw [total_cons, total_cons]
      refine Nat.add_le_add ?_ ih
      cases o with
      | none => exact le_rfl
      | some x =>
        show (if p x then x.map.length else 0) ≤ x.map.length
        split
        · exact le_rfl
        · exact Nat.zero_le _
  have := hle d.heap
  rw [pending, scanBound]
  omega

/-- A program that faults, if at all, not for want of rounds. -/
def NotEndless {α : Type} (x : DetM α) (Q : α → Detector → Prop) (d : Detector) : Prop :=
  Ends x Q (· ≠ .endless) d

/-- A visit of a scan over the views with `p`: a view that is followed leaves them, and none
joins them. -/
def Visits (p : View → Bool) (visit : ViewId → UInt64 → DetM (Bool × Int)) : Prop :=
  ∀ v rc d, NotEndless (visit v rc) (fun r d' => if r.1 then
    ∀ x, cell d'.heap v = some x → pending p d' + x.map.length ≤ pending p d
    else pending p d' ≤ pending p d) d

theorem scanLoop_not_endless {p : View → Bool} (hvisit : Visits p visit) {n : Nat}
    {stack : List ViewRef} {count : Int} {d : Detector} (hn : stack.length + pending p d ≤ n) :
    NotEndless (scanLoop visit n stack count) (fun _ d' => pending p d' ≤ pending p d) d := by
  induction n generalizing stack count d with
  | zero =>
    cases stack with
    | nil => exact ends_pure le_rfl
    | cons ref stack => simp at hn
  | succ n ih =>
    cases stack with
    | nil => exact ends_pure le_rfl
    | cons ref stack =>
      rw [List.length_cons] at hn
      refine ends_bind ((hvisit ref.view ref.rc d).mono (fun r d' hd' => ?_) fun _ h => h)
      refine ends_ite (fun hr => ?_) fun hr => ?_
      · rw [if_pos hr] at hd'
        refine ends_bind (ends_getV (fun x hx => ?_) fun _ => by decide)
        have hlt := hd' x hx
        refine (ih ?_).mono (fun _ d'' h => ?_) fun _ h => h
        · rw [List.length_append, List.length_reverse]
          omega
        · omega
      · rw [if_neg hr] at hd'
        exact (ih (by omega)).mono (fun _ d'' h => h.trans hd') fun _ h => h

/-- A scan ends when its visits do, and leaves no more views pending than before. -/
theorem scan_not_endless {p : View → Bool} (hvisit : Visits p visit) {v : ViewId} {rc : UInt64}
    {d : Detector} : NotEndless (scan visit v rc) (fun _ d' => pending p d' ≤ pending p d) d := by
  refine ends_bind (ends_get (scanLoop_not_endless hvisit ?_))
  have := pending_le p d
  rw [List.length_singleton]
  omega

/-- Writing a view changes what is pending by that view. -/
theorem pending_write {p : View → Bool} {d : Detector} {v : ViewId} (hc : cell d.heap v = some x) :
    pending p { d with heap := write d.heap v y } + (if p x then x.map.length else 0) =
      pending p d + if p y then y.map.length else 0 :=
  total_write hc

section
variable {p : View → Bool} {d : Detector} {v : ViewId} {rc : UInt64}

/-- A write that does not add to the views that can be followed. -/
theorem pending_write_le (hc : cell d.heap v = some x) (hmap : y.map = x.map)
    (hp : p y = true → p x = true) :
    pending p { d with heap := write d.heap v y } ≤ pending p d := by
  have hw := pending_write (p := p) (y := y) hc
  rw [hmap] at hw
  by_cases hy : p y = true
  · rw [if_pos hy, if_pos (hp hy)] at hw
    omega
  · rw [if_neg hy] at hw
    omega

/-- A write that takes a view out of those that can be followed. -/
theorem pending_write_follow (hc : cell d.heap v = some x) (hmap : y.map = x.map) (hx : p x = true)
    (hy : p y = false) : ∀ z, cell (write d.heap v y) v = some z →
      pending p { d with heap := write d.heap v y } + z.map.length ≤ pending p d := by
  intro z hz
  rw [cell_write hc, if_pos rfl] at hz
  cases hz
  have hw := pending_write (p := p) (y := y) hc
  rw [if_pos hx, hy, if_neg (by decide)] at hw
  rw [hmap]
  omega

/-- The views that `scan_grey` can follow. -/
def isBlack (x : View) : Bool := x.color = .black

/-- The views that `scan_black` and `collect_white` can follow. -/
def notBlack (x : View) : Bool := x.color ≠ .black

/-- The views that `scan_white` can follow. -/
def isGrey (x : View) : Bool := x.color = .grey

theorem ends_undefer {E : Fault → Prop} {Q : View → Detector → Prop}
    (h : ∀ m, Q { x with deferred := false } { d with deferred := m })
    (h' : x.deferred = false → Q x d) : Ends (undefer x) Q E d :=
  ends_ite (fun _ => ends_bind (ends_modify (ends_pure (h _)))) fun hx =>
    ends_pure (h' (by simpa using hx))

/-- Clearing the deferred flag leaves colours and references alone. -/
theorem greyView_visits {m : ViewMap} (hx : cell d.heap v = some x) (hmap : y.map = x.map)
    (hcolor : y.color = x.color) : NotEndless (greyView v rc y) (fun r d' => if r.1 then
      ∀ z, cell d'.heap v = some z → pending isBlack d' + z.map.length ≤ pending isBlack d
      else pending isBlack d' ≤ pending isBlack d) { d with deferred := m } := by
  refine ends_ite (fun hg => ?_) fun _ => ?_
  · refine ends_bind (ends_setV (ends_pure ?_))
    exact pending_write_le (d := { d with deferred := m }) hx hmap fun h => by
      simpa [isBlack, hcolor] using h
  refine ends_bind (ends_assert (fun hb => ?_) fun _ => by decide)
  refine ends_bind (ends_setV (ends_pure ?_))
  exact pending_write_follow (d := { d with deferred := m }) hx hmap
    (by simp [isBlack, ← hcolor, hb]) rfl

theorem markGrey_visits : Visits isBlack markGrey := by
  intro v rc d
  refine ends_bind (ends_getV (fun x hx => ends_ite (fun _ => ends_bind ?_)
    fun _ => ends_pure le_rfl) fun _ => by decide)
  exact ends_undefer (fun m => greyView_visits hx rfl rfl) fun _ => greyView_visits hx rfl rfl

theorem markBlack_visits : Visits notBlack markBlack := by
  intro v rc d
  refine ends_bind (ends_getV (fun x hx => ends_ite (fun _ => ends_ite (fun _ => ?_) fun hb => ?_)
    fun _ => ?_) fun _ => by decide)
  · refine ends_bind (ends_setV (ends_pure ?_))
    exact pending_write_le hx rfl fun h => h
  · refine ends_bind (ends_setV (ends_pure ?_))
    exact pending_write_follow hx rfl (by simp [notBlack, hb]) rfl
  · exact ends_bind (ends_assert (fun _ => ends_pure le_rfl) fun _ => by decide)

/-- `mark_black` adds no grey view. -/
theorem markBlack_keeps_grey {k : Nat} :
    Keeps (fun d => pending isGrey d ≤ k) (markBlack v rc) := by
  intro d hd
  refine ends_bind (ends_getV (fun x hx => ends_ite (fun _ => ends_ite (fun _ => ?_) fun hb => ?_)
    fun _ => ?_) fun _ => trivial)
  · refine ends_bind (ends_setV (ends_pure (le_trans ?_ hd)))
    exact pending_write_le hx rfl fun h => h
  · refine ends_bind (ends_setV (ends_pure (le_trans ?_ hd)))
    exact pending_write_le hx rfl fun h => by simp [isGrey] at h
  · exact ends_bind (ends_assert (fun _ => ends_pure hd) fun _ => trivial)

theorem markWhite_visits : Visits isGrey markWhite := by
  intro v rc d
  refine ends_bind (ends_getV (fun x hx => ends_ite (fun hg => ?_) fun _ => ends_pure le_rfl)
    fun _ => by decide)
  refine ends_bind (ends_assert (fun _ => ends_ite (fun _ => ?_) fun _ => ?_) fun _ => by decide)
  · have hblack : NotEndless (scan markBlack v 0)
        (fun _ d' => pending notBlack d' ≤ pending notBlack d) d :=
      scan_not_endless markBlack_visits
    have hgrey : Ends (scan markBlack v 0) (fun _ d' => pending isGrey d' ≤ pending isGrey d)
        (fun _ => True) d :=
      scan_keeps (P := fun d' => pending isGrey d' ≤ pending isGrey d)
        (fun _ _ => markBlack_keeps_grey) 0 d le_rfl
    exact ends_bind ((hblack.and hgrey).mono (fun _ d' h => ends_pure h.2) fun _ h => h.1)
  · refine ends_bind (ends_assert (fun _ => ?_) fun _ => by decide)
    refine ends_bind (ends_setV (ends_pure ?_))
    exact pending_write_follow hx rfl (by simp [isGrey, hg]) rfl

theorem collectView_visits {token : Token} : Visits notBlack (collectView token) := by
  intro v rc d
  refine ends_bind (ends_getV (fun x hx => ends_ite (fun _ => ends_bind ?_)
    fun _ => markBlack_visits v rc d) fun _ => by decide)
  refine ends_bind (ends_assert (fun _ => ends_bind (ends_assert (fun _ => ?_)
    fun _ => by decide)) fun _ => by decide)
  refine ends_bind (ends_setV (ends_modify ?_))
  -- the cycle gets a member, the colours stay
  have hle : pending notBlack
      { d with heap := write d.heap v { x with perceived := some token } } ≤ pending notBlack d :=
    pending_write_le hx rfl fun h => h
  refine (markBlack_visits v rc _).mono (fun r d' hd' => ?_) fun _ h => h
  split at hd' <;> rename_i hr
  · rw [if_pos hr]
    exact fun z hz => (hd' z hz).trans hle
  · rw [if_neg hr]
    exact hd'.trans hle

end

end SpacePony.Cycle
