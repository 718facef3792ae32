import Mathlib.Data.List.Basic

/-!
# Support — lexical paths

A path is read component by component: one stays, goes up, or goes down to a name.  There is no way
up from the root (`move_up_root`).
-/

namespace SpacePony.Lexical

variable {α : Type}

/-- What a component of a path says. -/
inductive Move (α : Type) where
  | stay
  | up
  | name (a : α)

/-- A place: so many steps up, if it is not told from the root, and then down by names. -/
@[ext] structure Place (α : Type) where
  rooted : Bool
  ups : ℕ
  names : List α

/-- One move; there is no way up from the root. -/
def Place.move (p : Place α) : Move α → Place α
  | .stay => p
  | .up =>
    match p.names with
    | [] => if p.rooted then p else { p with ups := p.ups + 1 }
    | _ :: _ => { p with names := p.names.dropLast }
  | .name a => { p with names := p.names ++ [a] }

/-- All moves. -/
def walk (p : Place α) (ms : List (Move α)) : Place α := ms.foldl Place.move p

/-- Where a path starts. -/
def start (rooted : Bool) : Place α := ⟨rooted, 0, []⟩

variable {p : Place α} {a : α} {ms ms' : List (Move α)}

/-- **There is no way up from the root.** -/
theorem move_up_root (hroot : p.rooted = true) (hnames : p.names = []) : p.move .up = p := by
  simp only [Place.move, hnames, hroot, if_true]

theorem move_up_rel (hroot : p.rooted = false) (hnames : p.names = []) :
    p.move .up = { p with ups := p.ups + 1 } := by
  simp [Place.move, hnames, hroot]

theorem move_up_names (hnames : p.names ≠ []) :
    p.move .up = { p with names := p.names.dropLast } := by
  obtain ⟨b, bs, h⟩ := List.exists_cons_of_ne_nil hnames
  simp only [Place.move, h]

theorem rooted_move (m : Move α) : (p.move m).rooted = p.rooted := by
  cases m with
  | stay | name => rfl
  | up =>
    by_cases hnames : p.names = []
    · cases hroot : p.rooted
      · rw [move_up_rel hroot hnames, hroot]
      · rw [move_up_root hroot hnames, hroot]
    · rw [move_up_names hnames]

end SpacePony.Lexical
