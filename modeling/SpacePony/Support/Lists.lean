import Mathlib.Data.List.Forall2
import Mathlib.Tactic

/-!
# Support — Lists

Maps that can fail, over lists, and the pointwise relation between a list and its image.
-/

namespace SpacePony.Lists

open List

variable {α β : Type}

/-- A map that succeeds on every element succeeds on the list, element by element. -/
theorem mapM_forall₂ {R : α → β → Prop} {g : α → Option β} (l : List α)
    (h : ∀ a ∈ l, ∃ b, g a = some b ∧ R a b) : ∃ l', l.mapM g = some l' ∧ List.Forall₂ R l l' := by
  induction l with
  | nil => exact ⟨[], rfl, .nil⟩
  | cons a l ih =>
    obtain ⟨b, hb, hR⟩ := h a (.head _)
    obtain ⟨l', hl', hRs⟩ := ih fun a' ha' => h a' (.tail _ ha')
    exact ⟨b :: l', by simp [mapM_cons, hb, hl'], .cons hR hRs⟩

/-- What stands on the right is related to something on the left. -/
theorem exists_of_forall₂_right {R : α → β → Prop} {l : List α} {l' : List β}
    (h : List.Forall₂ R l l') {b : β} (hb : b ∈ l') : ∃ a ∈ l, R a b := by
  induction h with
  | nil => cases hb
  | cons hR _ ih =>
    rcases mem_cons.1 hb with rfl | hb
    · exact ⟨_, .head _, hR⟩
    · obtain ⟨a, ha, hR'⟩ := ih hb
      exact ⟨a, .tail _ ha, hR'⟩

end SpacePony.Lists
