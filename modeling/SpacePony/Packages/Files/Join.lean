import SpacePony.Packages.Files.Clean

/-!
# Packages — files — what `join` returns

A path is read after another one, behind a separator (`resolve_append`), and `join` reads the second
path after the first one, if that is relative (`join_eq`).
-/

namespace SpacePony.Files

open List

section
variable {st : Stack} {p q H t : Bytes}

theorem isAbs_append (hp : p ≠ []) : isAbs (p ++ q) = isAbs p := by
  obtain ⟨c, rest, rfl⟩ := exists_cons_of_ne_nil hp
  rfl

theorem components_append (H t : Bytes) :
    components (H ++ slash :: t) = components H ++ components t :=
  splitOn_append_cons_self H t

/-- A path that goes on behind a separator. -/
theorem resolve_append (hH : H ≠ []) :
    resolve (H ++ slash :: t) = (components t).foldl Stack.push (resolve H) := by
  rw [resolve, components_append, foldl_append, isAbs_append hH]
  rfl

/-- **What `join` returns** for a second path that is relative. -/
theorem join_eq (hq : isAbs q = false) :
    join p q = ((components q).foldl Stack.push (resolve p)).text := by
  rw [join]
  split
  · rename_i hp
    rw [length_eq_zero_iff.1 hp, clean_eq, resolve, hq]
    rfl
  rename_i hp
  have hne : p ≠ [] := fun hnil => hp (length_eq_zero_iff.2 hnil)
  have hlong : clean (p ++ sep ++ q) = ((components q).foldl Stack.push (resolve p)).text := by
    rw [clean_eq, ← resolve_append hne, append_assoc]
    rfl
  split
  · rename_i hnil
    rw [length_eq_zero_iff.1 hnil, clean_eq]
    rfl
  obtain ⟨l, c, rfl⟩ := (eq_nil_or_concat p).resolve_left hne
  obtain ⟨x, rest, rfl⟩ := exists_cons_of_ne_nil (l := q) fun hnil => by
    rename_i hlength
    exact hlength (length_eq_zero_iff.2 hnil)
  have hlast : (l.concat c)[(l.concat c).length - 1]? = some c := by simp
  have hx : ¬ isSep x = true := by
    rw [show isSep x = false from hq]
    exact Bool.false_ne_true
  rw [if_neg (by rw [hq]; exact Bool.false_ne_true), hlast]
  by_cases hc : isSep c = true
  · have hslash : c = slash := of_decide_eq_true hc
    subst hslash
    have hshort : clean (l.concat slash ++ x :: rest) =
        ((components (x :: rest)).foldl Stack.push (resolve (l.concat slash))).text := by
      have hresolve : resolve (l.concat slash) = (components l).foldl Stack.push
          (.empty (isAbs (l.concat slash))) := by
        rw [resolve, concat_eq_append, components_append, foldl_append]
        rfl
      rw [clean_eq, hresolve, ← foldl_append, resolve, isAbs_append hne,
        concat_eq_append, append_assoc]
      rw [show [slash] ++ x :: rest = slash :: x :: rest from rfl, components_append]
    simp only [hc, getElem?_cons_zero, hx, if_true]
    exact hshort
  · simp only [hc]
    exact hlong

end

end SpacePony.Files
