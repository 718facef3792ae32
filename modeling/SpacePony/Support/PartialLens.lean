import Mathlib.Logic.Basic

/-!
# Support — partial lenses

A lens whose focus may be missing.  Lenses that obey the laws compose (`Lawful.comp`), and
`Lawful.set_comp_eq_none` says when a composition cannot be set.
-/

namespace SpacePony

open Option

/-- A lens whose focus may be missing. -/
@[ext] structure PartialLens (S A : Type) where
  get : S → Option A
  set : S → A → Option S

namespace PartialLens

variable {S A B : Type}

/-- The whole. -/
def id : PartialLens S S := ⟨some, fun _ s => some s⟩

/-- First the one, then the other within its focus. -/
def comp (l : PartialLens S A) (m : PartialLens A B) : PartialLens S B where
  get s := l.get s >>= m.get
  set s b := do
    let a ← l.get s
    let a' ← m.set a b
    l.set s a'

/-- The laws of a lens: what was put is read, the last one that was put counts, and to put what is
read changes nothing. -/
structure Lawful (l : PartialLens S A) (E : S → S → Prop) (F : A → A → Prop) : Prop where
  get_set {s r a} : l.set s a = some r → l.get r = some a
  set_set {s r a} (b : A) : l.set s a = some r → l.set r b = l.set s b
  set_get {s a a'} : l.get s = some a → F a' a → ∃ r, l.set s a' = some r ∧ E r s
  set_found {s a} (b : A) : l.get s = some a → ∃ r, l.set s b = some r

variable {l : PartialLens S A} {m : PartialLens A B} {E : S → S → Prop} {F : A → A → Prop}
  {G : B → B → Prop} {s r : S} {a : A} {b : B}

theorem lawful_id : (id : PartialLens S S).Lawful E E where
  get_set h := congrArg some (some.inj h).symm
  set_set _ _ := rfl
  set_get h hE := by
    cases h
    exact ⟨_, rfl, hE⟩
  set_found b _ := ⟨b, rfl⟩

theorem get_comp_eq_some : (l.comp m).get s = some b ↔ ∃ a, l.get s = some a ∧ m.get a = some b :=
  bind_eq_some_iff

theorem set_comp_eq_some : (l.comp m).set s b = some r ↔
    ∃ a a', l.get s = some a ∧ m.set a b = some a' ∧ l.set s a' = some r := by
  constructor
  · intro h
    obtain ⟨a, ha, h⟩ := bind_eq_some_iff.1 h
    obtain ⟨a', ha', h⟩ := bind_eq_some_iff.1 h
    exact ⟨a, a', ha, ha', h⟩
  rintro ⟨a, a', ha, ha', h⟩
  show (l.get s >>= fun a => m.set a b >>= l.set s) = some r
  rw [ha, bind_eq_bind, bind_some, ha']
  exact h

theorem set_comp (ha : l.get s = some a) : (l.comp m).set s b = m.set a b >>= l.set s := by
  show (l.get s >>= fun a => m.set a b >>= l.set s) = _
  rw [ha]
  rfl

/-- **Lenses that obey the laws compose.** -/
theorem Lawful.comp (hl : l.Lawful E F) (hm : m.Lawful F G) : (l.comp m).Lawful E G where
  get_set h := by
    obtain ⟨a, a', -, ha', h⟩ := set_comp_eq_some.1 h
    exact get_comp_eq_some.2 ⟨a', hl.get_set h, hm.get_set ha'⟩
  set_set c h := by
    obtain ⟨a, a', ha, ha', h⟩ := set_comp_eq_some.1 h
    rw [set_comp (hl.get_set h), set_comp ha, hm.set_set c ha']
    exact congrArg (m.set a c >>= ·) (funext fun x => hl.set_set x h)
  set_get h hG := by
    obtain ⟨a, ha, hb⟩ := get_comp_eq_some.1 h
    obtain ⟨a', ha', hF⟩ := hm.set_get hb hG
    obtain ⟨r, hr, hE⟩ := hl.set_get ha hF
    exact ⟨r, set_comp_eq_some.2 ⟨a, a', ha, ha', hr⟩, hE⟩
  set_found c h := by
    obtain ⟨a, ha, hb⟩ := get_comp_eq_some.1 h
    obtain ⟨a', ha'⟩ := hm.set_found c hb
    obtain ⟨r, hr⟩ := hl.set_found a' ha
    exact ⟨r, set_comp_eq_some.2 ⟨a, a', ha, ha', hr⟩⟩

/-- A composition cannot be set if the first lens finds nothing, or if the second one cannot be set in
what is found. -/
theorem Lawful.set_comp_eq_none (hl : l.Lawful E F) : (l.comp m).set s b = none ↔
    l.get s = none ∨ ∃ a, l.get s = some a ∧ m.set a b = none := by
  cases ha : l.get s with
  | none =>
    refine iff_of_true ?_ (.inl rfl)
    show (l.get s >>= fun a => m.set a b >>= l.set s) = none
    rw [ha]
    rfl
  | some a =>
    rw [set_comp ha]
    cases ha' : m.set a b with
    | none => exact iff_of_true rfl (.inr ⟨a, rfl, ha'⟩)
    | some a' =>
      obtain ⟨r, hr⟩ := hl.set_found a' ha
      refine iff_of_false (fun h => ?_) ?_
      · exact some_ne_none r (hr.symm.trans h)
      rintro (h | ⟨x, hx, h⟩)
      · cases h
      cases hx
      rw [ha'] at h
      cases h

end PartialLens

end SpacePony
