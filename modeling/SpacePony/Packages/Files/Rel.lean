import Mathlib.Data.List.Induction
import SpacePony.Packages.Files.Join

/-!
# Packages — files — what `rel` returns

The first loop finds where the components diverge (`relLoop_eq`), the second one makes a step up for
each component that is left (`upLoop_eq`).  From these comes what `rel` returns, in terms of
components (`relation`, `rel_eq`), and from where the path that is returned leads to the target
(`rel_inverts_iff`).
-/

namespace SpacePony.Files

open Stack Nat Option List

/-- What is left of two lists behind what they begin with together. -/
def diverge {α : Type} [DecidableEq α] : List α → List α → List α × List α
  | [], ys => ([], ys)
  | xs, [] => (xs, [])
  | x :: xs, y :: ys => if x = y then diverge xs ys else (x :: xs, y :: ys)

variable {α : Type}

theorem diverge_same [DecidableEq α] (x : α) (xs ys : List α) :
    diverge (x :: xs) (x :: ys) = diverge xs ys := if_pos rfl

theorem exists_diverge [DecidableEq α] (xs ys : List α) :
    ∃ common, xs = common ++ (diverge xs ys).1 ∧ ys = common ++ (diverge xs ys).2 ∧
      ((diverge xs ys).1.head? = (diverge xs ys).2.head? → xs = ys) := by
  fun_induction diverge xs ys with
  | case1 ys =>
    refine ⟨[], rfl, rfl, fun h => ?_⟩
    exact (head?_eq_none_iff.1 h.symm).symm
  | case2 xs hxs =>
    exact ⟨[], rfl, rfl, fun h => head?_eq_none_iff.1 h⟩
  | case3 xs y ys ih =>
    obtain ⟨common, hxs, hys, hhead⟩ := ih
    refine ⟨y :: common, congrArg (y :: ·) hxs, congrArg (y :: ·) hys, fun h => ?_⟩
    exact congrArg (y :: ·) (hhead h)
  | case4 x xs y ys hne => exact ⟨[], rfl, rfl, fun h => absurd (some.inj h) hne⟩

section
variable {s c rest pre a b x : Bytes} {as bs cs : List Bytes} {n offset : ℕ}

/-! ### Positions -/

theorem findFrom_append (hc : slash ∉ c) : findFrom slash (c ++ slash :: rest) offset =
    some (offset + c.length) := by
  induction c generalizing offset with
  | nil => exact if_pos rfl
  | cons y c ih =>
    rw [mem_cons, not_or] at hc
    rw [cons_append, findFrom, if_neg (Ne.symm hc.1), ih hc.2, length_cons]
    exact congrArg some (by omega)

theorem findFrom_none (hc : slash ∉ c) : findFrom slash c offset = none := by
  induction c generalizing offset with
  | nil => rfl
  | cons y c ih =>
    rw [mem_cons, not_or] at hc
    rw [findFrom, if_neg (Ne.symm hc.1), ih hc.2]

/-- Components with a separator between them. -/
abbrev joined (cs : List Bytes) : Bytes := sep.intercalate cs

theorem joined_cons_cons : joined (a :: b :: cs) = a ++ slash :: joined (b :: cs) := by
  rw [joined, intercalate_cons_cons, append_assoc]
  rfl

/-- Where the first component ends. -/
theorem findOrSize_joined (ha : slash ∉ a) :
    findOrSize (pre ++ joined (a :: as)) pre.length = pre.length + a.length := by
  rw [findOrSize, find, drop_left]
  cases as with
  | nil =>
    rw [joined, intercalate_singleton, findFrom_none ha, length_append]
    rfl
  | cons b as =>
    rw [joined_cons_cons, findFrom_append ha]
    rfl

theorem findOrSize_length : findOrSize s s.length = s.length := by
  rw [findOrSize, find, drop_length]
  rfl

theorem take_joined : (pre ++ joined (a :: as)).take (pre.length + a.length) = pre ++ a := by
  rw [take_length_add_append]
  cases as with
  | nil => rw [joined, intercalate_singleton, take_length]
  | cons b as => rw [joined_cons_cons, take_left]

theorem length_joined : (pre ++ joined (a :: as)).length =
    pre.length + a.length + (if as = [] then 0 else (joined as).length + 1) := by
  cases as with
  | nil => simp [joined]
  | cons b as =>
    rw [joined_cons_cons, length_append, length_append, length_cons, if_neg (by simp)]
    omega

/-! ### The loops -/

/-- Where the first loop stops. -/
structure Diverged (A B : Bytes) (xs ys : List Bytes) (r : Relating) : Prop where
  to0_le : r.to0 ≤ A.length
  left : A.drop r.to0 = joined xs
  right : B.drop r.target0 = joined ys
  toI : r.toI = r.to0 + (xs.head?.getD []).length

/-- The components differ here. -/
theorem relLoop_differ (ha : slash ∉ a) (hb : slash ∉ b) (hab : a ≠ b) :
    relLoop (pre ++ joined (a :: as)) (pre ++ joined (b :: bs)) (n + 1)
        ⟨pre.length, pre.length, pre.length, pre.length⟩ =
      some ⟨pre.length + a.length, pre.length, pre.length + b.length, pre.length⟩ := by
  have hstop : pre.length + a.length ≠ pre.length + b.length ∨
      compareSub (pre ++ joined (a :: as)) (pre ++ joined (b :: bs)) (pre.length + b.length) ≠
        .eq := by
    by_cases hlength : a.length = b.length
    · refine .inr fun heq => hab ?_
      rw [compareSub, drop_zero, compareLoop_eq, take_joined, ← hlength, take_joined] at heq
      exact append_cancel_left heq
    · exact .inl fun h => hlength (add_left_cancel h)
  rw [relLoop]
  simp only [findOrSize_joined ha, findOrSize_joined hb]
  exact if_pos hstop

/-- The components are the same here: the loop goes on behind them. -/
theorem relLoop_same (ha : slash ∉ a) :
    relLoop (pre ++ joined (a :: as)) (pre ++ joined (a :: bs)) (n + 1)
        ⟨pre.length, pre.length, pre.length, pre.length⟩ =
      relLoop (pre ++ joined (a :: as)) (pre ++ joined (a :: bs)) n
        ⟨pre.length + a.length + (if as = [] then 0 else 1),
          pre.length + a.length + (if as = [] then 0 else 1),
          pre.length + a.length + (if bs = [] then 0 else 1),
          pre.length + a.length + (if bs = [] then 0 else 1)⟩ := by
  have hgo : ¬ (pre.length + a.length ≠ pre.length + a.length ∨
      compareSub (pre ++ joined (a :: as)) (pre ++ joined (a :: bs)) (pre.length + a.length) ≠
        .eq) := by
    rw [not_or, not_not, not_not, compareSub, drop_zero, compareLoop_eq, take_joined, take_joined]
    exact ⟨rfl, rfl⟩
  have hnext : ∀ cs : List Bytes, (if pre.length + a.length < (pre ++ joined (a :: cs)).length then
      pre.length + a.length + 1 else pre.length + a.length) =
        pre.length + a.length + (if cs = [] then 0 else 1) := by
    intro cs
    rw [length_joined]
    by_cases hcs : cs = []
    · simp [hcs]
    · simp [hcs]
  rw [relLoop]
  simp only [findOrSize_joined ha]
  rw [if_neg hgo, hnext, hnext]

theorem relLoop_stop {A B : Bytes} {i j : ℕ} (h : findOrSize A i ≠ findOrSize B j) :
    relLoop A B (n + 1) ⟨i, i, j, j⟩ = some ⟨findOrSize A i, i, findOrSize B j, j⟩ := by
  rw [relLoop]
  exact if_pos (.inl h)

/-- The text behind the first separator. -/
theorem append_joined : pre ++ joined (a :: b :: cs) = (pre ++ (a ++ sep)) ++ joined (b :: cs) := by
  rw [joined_cons_cons]
  simp [sep]

theorem length_behind : (pre ++ (a ++ sep)).length = pre.length + a.length + 1 := by
  simp [sep]
  omega

/-- Where the loop stops when the first components differ. -/
theorem diverged_differ (hab : a ≠ b) : Diverged (pre ++ joined (a :: as)) (pre ++ joined (b :: bs))
      (diverge (a :: as) (b :: bs)).1 (diverge (a :: as) (b :: bs)).2
      ⟨pre.length + a.length, pre.length, pre.length + b.length, pre.length⟩ := by
  rw [diverge, if_neg hab]
  refine ⟨?_, drop_left, drop_left, rfl⟩
  rw [length_append]
  exact le_add_right _ _

/-- **The first loop finds where the components diverge.** -/
theorem relLoop_eq (ha : ∀ c ∈ a :: as, slash ∉ c) (hb : ∀ c ∈ b :: bs, slash ∉ c)
    (hne : a :: as ≠ b :: bs) (hn : as.length + 2 ≤ n) :
    ∃ r, relLoop (pre ++ joined (a :: as)) (pre ++ joined (b :: bs)) n
        ⟨pre.length, pre.length, pre.length, pre.length⟩ = some r ∧
      Diverged (pre ++ joined (a :: as)) (pre ++ joined (b :: bs))
        (diverge (a :: as) (b :: bs)).1 (diverge (a :: as) (b :: bs)).2 r := by
  induction as generalizing pre a b bs n with
  | nil =>
    have hslash := ha a (.head _)
    obtain ⟨n, rfl⟩ := Nat.exists_eq_add_of_le' (show 2 ≤ n by simpa using hn)
    by_cases hab : a = b
    · subst hab
      rw [relLoop_same hslash, diverge_same]
      cases bs with
      | nil => exact absurd rfl hne
      | cons b' bs =>
        -- the first path ends here
        have hb' := hb b' (.tail _ (.head _))
        have hA : (pre ++ joined [a]).length = pre.length + a.length := by
          rw [joined, intercalate_singleton, length_append]
        have hstop : findOrSize (pre ++ joined [a]) (pre.length + a.length) ≠
            findOrSize (pre ++ joined (a :: b' :: bs)) (pre.length + a.length + 1) := by
          rw [← hA, findOrSize_length, hA, ← length_behind, append_joined,
            findOrSize_joined hb', length_behind]
          omega
        rw [if_pos (show ([] : List Bytes) = [] from rfl), if_neg (cons_ne_nil b' bs), Nat.add_zero]
        have hfind : findOrSize (pre ++ joined [a]) (pre.length + a.length) =
            pre.length + a.length := by
          rw [← hA, findOrSize_length]
        refine ⟨_, relLoop_stop hstop, hA.ge, ?_, ?_, hfind⟩
        · show (pre ++ joined [a]).drop (pre.length + a.length) = []
          rw [← hA, drop_length]
        show (pre ++ joined (a :: b' :: bs)).drop (pre.length + a.length + 1) = _
        rw [← length_behind, append_joined, drop_left]
        rfl
    · exact ⟨_, relLoop_differ hslash (hb b (.head _)) hab, diverged_differ hab⟩
  | cons a' as ih =>
    have hslash := ha a (.head _)
    obtain ⟨n, rfl⟩ := Nat.exists_eq_add_of_le' (show 2 ≤ n by omega)
    by_cases hab : a = b
    · subst hab
      rw [relLoop_same hslash, diverge_same]
      have ha' := ha a' (.tail _ (.head _))
      cases bs with
      | nil =>
        -- the second path ends here
        have hB : (pre ++ joined [a]).length = pre.length + a.length := by
          rw [joined, intercalate_singleton, length_append]
        have hstop : findOrSize (pre ++ joined (a :: a' :: as)) (pre.length + a.length + 1) ≠
            findOrSize (pre ++ joined [a]) (pre.length + a.length) := by
          rw [← hB, findOrSize_length, hB, ← length_behind, append_joined,
            findOrSize_joined ha', length_behind]
          omega
        rw [if_pos (show ([] : List Bytes) = [] from rfl), if_neg (cons_ne_nil a' as), Nat.add_zero]
        have hfind : findOrSize (pre ++ joined (a :: a' :: as)) (pre.length + a.length + 1) =
            pre.length + a.length + 1 + a'.length := by
          rw [← length_behind, append_joined, findOrSize_joined ha']
        refine ⟨_, relLoop_stop hstop, ?_, ?_, ?_, hfind⟩
        · show pre.length + a.length + 1 ≤ _
          rw [length_joined, if_neg (cons_ne_nil a' as)]
          omega
        · show (pre ++ joined (a :: a' :: as)).drop (pre.length + a.length + 1) = _
          rw [← length_behind, append_joined, drop_left]
          rfl
        · show (pre ++ joined [a]).drop (pre.length + a.length) = []
          rw [← hB, drop_length]
      | cons b' bs =>
        have hlength : as.length + 2 ≤ n + 1 := by
          rw [length_cons] at hn
          omega
        rw [append_joined, append_joined, if_neg (cons_ne_nil a' as),
          if_neg (cons_ne_nil b' bs), ← length_behind]
        exact ih (fun c hc => ha c (.tail _ hc))
          (fun c hc => hb c (.tail _ hc)) (fun heq => hne (heq ▸ rfl)) hlength
    · exact ⟨_, relLoop_differ hslash (hb b (.head _)) hab, diverged_differ hab⟩

/-- A step up. -/
abbrev upStep : Bytes := [dot, dot] ++ sep

/-- **The second loop makes a step up for each separator.** -/
theorem upLoop_eq {A : Bytes} {toI : ℕ} (hc : ∀ d ∈ c :: cs, slash ∉ d)
    (hdrop : A.drop toI = joined (c :: cs)) (result : Bytes) (hn : cs.length + 1 ≤ n) :
    upLoop A n toI result = some (result ++ (replicate cs.length upStep).flatten) := by
  obtain ⟨n, rfl⟩ := Nat.exists_eq_add_of_le' (show 1 ≤ n by omega)
  have hslash := hc c (.head _)
  induction cs generalizing c toI result n with
  | nil =>
    rw [joined, intercalate_singleton] at hdrop
    rw [upLoop, find, hdrop, findFrom_none hslash]
    simp
  | cons d cs ih =>
    obtain ⟨n, rfl⟩ := Nat.exists_eq_add_of_le' (show 1 ≤ n by
      rw [length_cons] at hn
      omega)
    rw [joined_cons_cons] at hdrop
    have hnext : A.drop (toI + c.length + 1) = joined (d :: cs) := by
      rw [Nat.add_assoc, ← drop_drop, hdrop, ← drop_drop, drop_left]
      rfl
    rw [upLoop, find, hdrop, findFrom_append hslash]
    simp only
    rw [ih (fun e he => hc e (.tail _ he)) hnext _ n (by
      rw [length_cons] at hn
      omega) (hc d (.tail _ (.head _))), length_cons,
      replicate_succ, flatten_cons]
    simp only [append_assoc]

/-- How many steps up the components that are left need; the empty one behind the root needs none. -/
def steps (xs : List Bytes) : ℕ := if xs = [[]] then 0 else xs.length

/-- What `rel` returns, from what is left of the components of the two paths. -/
def relation (xs ys : List Bytes) : Option Bytes :=
  if xs.head? = some [dot, dot] then none
  else some ((replicate (steps xs) upStep).flatten ++ joined ys)

theorem joined_components (p : Bytes) : joined (components p) = p := intercalate_splitOn slash

/-- **What `rel` returns.** -/
theorem rel_eq {to' target : Bytes} (hne : clean to' ≠ clean target) :
    ∃ n, rel n to' target = some (relation
      (diverge (components (clean to')) (components (clean target))).1
      (diverge (components (clean to')) (components (clean target))).2) := by
  obtain ⟨a, as, hA⟩ := exists_cons_of_ne_nil (splitOn_ne_nil slash (clean to'))
  obtain ⟨b, bs, hB⟩ := exists_cons_of_ne_nil (splitOn_ne_nil slash (clean target))
  have hA' : components (clean to') = a :: as := hA
  have hB' : components (clean target) = b :: bs := hB
  have hjA := joined_components (clean to')
  have hjB := joined_components (clean target)
  rw [hA'] at hjA ⊢
  rw [hB'] at hjB ⊢
  have hcs : a :: as ≠ b :: bs := by
    intro heq
    rw [heq, hjB] at hjA
    exact hne hjA.symm
  have hslashA : ∀ c ∈ a :: as, slash ∉ c := fun c hc => slash_notMem_components (hA' ▸ hc)
  have hslashB : ∀ c ∈ b :: bs, slash ∉ c := fun c hc => slash_notMem_components (hB' ▸ hc)
  obtain ⟨r, hr, hdiv⟩ : ∃ r, relLoop ([] ++ joined (a :: as)) ([] ++ joined (b :: bs))
      (as.length + 2) ⟨0, 0, 0, 0⟩ = some r ∧
        Diverged ([] ++ joined (a :: as)) ([] ++ joined (b :: bs))
          (diverge (a :: as) (b :: bs)).1 (diverge (a :: as) (b :: bs)).2 r :=
    relLoop_eq hslashA hslashB hcs (le_refl _)
  rw [nil_append, nil_append, hjA, hjB] at hr hdiv
  obtain ⟨common, hcommon, -, -⟩ := exists_diverge (a :: as) (b :: bs)
  refine ⟨as.length + 2, ?_⟩
  rw [rel, if_neg hne]
  rw [hr, bind_eq_bind, bind_some]
  have hlast : trim (clean target) r.target0 = joined (diverge (a :: as) (b :: bs)).2 := hdiv.right
  cases hx : (diverge (a :: as) (b :: bs)).1 with
  | nil =>
    rw [hx] at hdiv
    have htoI : r.toI - r.to0 = 0 := by
      rw [hdiv.toI]
      exact Nat.sub_self _
    have hto0 : r.to0 = (clean to').length :=
      le_antisymm hdiv.to0_le (List.drop_eq_nil_iff.1 hdiv.left)
    rw [if_neg (by rw [htoI]; exact fun h => absurd h.1 (by decide)), if_neg (not_not.2 hto0),
      hlast, relation, if_neg (by simp)]
    rfl
  | cons c cs =>
    rw [hx] at hdiv hcommon
    have hleft := hdiv.left
    have hmem : ∀ d ∈ c :: cs, slash ∉ d := fun d hd =>
      hslashA d (hcommon ▸ mem_append_right common hd)
    have hlength : r.toI - r.to0 = c.length := by
      rw [hdiv.toI, Nat.add_sub_cancel_left]
      rfl
    -- the first of the components that are left is a step up
    have hup : (r.toI - r.to0 = 2 ∧ compareSub (clean to') [dot, dot] 2 r.to0 = .eq) ↔
        c = [dot, dot] := by
      have htake : (joined (c :: cs)).take c.length = c := by
        have h : ([] ++ joined (c :: cs)).take (([] : Bytes).length + c.length) = [] ++ c :=
          take_joined
        simpa using h
      rw [hlength, compareSub, compareLoop_eq, hleft]
      constructor
      · rintro ⟨htwo, htake2⟩
        rw [← htake, htwo, htake2]
        rfl
      · rintro rfl
        exact ⟨rfl, htake⟩
    by_cases hc : c = [dot, dot]
    · rw [if_pos (hup.2 hc), relation, hc]
      rfl
    have hhead : (c :: cs).head? ≠ some [dot, dot] := fun h => hc (some.inj h)
    rw [if_neg fun h => hc (hup.1 h), relation, if_neg hhead]
    by_cases hroot : c :: cs = [[]]
    · have hto0 : r.to0 = (clean to').length := by
        rw [hroot] at hleft
        exact le_antisymm hdiv.to0_le (List.drop_eq_nil_iff.1 (hleft.trans rfl))
      rw [if_neg (not_not.2 hto0), steps, if_pos hroot, hlast]
      rfl
    have hto0 : r.to0 ≠ (clean to').length := by
      intro heq
      rw [heq, drop_length] at hleft
      cases cs with
      | nil =>
        rw [joined, intercalate_singleton] at hleft
        exact hroot (by rw [← hleft])
      | cons d ds =>
        rw [joined_cons_cons] at hleft
        exact append_ne_nil_of_right_ne_nil c (cons_ne_nil slash _) hleft.symm
    have hdrop : (clean to').drop r.toI = joined ([] :: cs) := by
      rw [hdiv.toI, ← drop_drop, hleft]
      cases cs with
      | nil =>
        rw [joined, intercalate_singleton]
        exact drop_length
      | cons d ds =>
        rw [joined_cons_cons, joined_cons_cons]
        exact drop_left
    have hloop := upLoop_eq (n := as.length + 2)
      (fun d hd => by
        rcases List.mem_cons.1 hd with rfl | hd
        · exact not_mem_nil
        · exact hmem d (.tail _ hd)) hdrop [] (by
        have hlen := congrArg length hcommon
        simp only [length_append, length_cons] at hlen
        omega)
    rw [if_pos hto0, hloop, bind_eq_bind, bind_some, steps, if_neg hroot, hlast,
      length_cons, replicate_succ', flatten_append]
    simp

end

/-! ### The path that is returned -/

section
variable {xs ys common : List Bytes} {st st' S : Stack} {p r : Bytes}

/-- A path that goes up first. -/
theorem components_upSteps (k : ℕ) (t : Bytes) : components ((replicate k upStep).flatten ++ t) =
      replicate k [dot, dot] ++ components t := by
  induction k with
  | zero => rfl
  | succ k ih =>
    have hcons : components (upStep ++ ((replicate k upStep).flatten ++ t)) =
        [dot, dot] :: components ((replicate k upStep).flatten ++ t) :=
      splitOn_append_cons_self_of_not_mem (by decide : slash ∉ [dot, dot]) _
    rw [replicate_succ, flatten_cons, append_assoc, hcons, ih]
    rfl

theorem foldl_joined (hys : ∀ c ∈ ys, slash ∉ c) (st : Stack) :
    (components (joined ys)).foldl push st = ys.foldl push st := by
  cases ys with
  | nil => rfl
  | cons y ys =>
    have hcomponents : components (joined (y :: ys)) = y :: ys :=
      splitOn_intercalate slash hys (cons_ne_nil y ys)
    rw [hcomponents]

/-- **What `join` makes of the path that is returned.** -/
theorem join_relation (hys : ∀ c ∈ ys, slash ∉ c) (hr : relation xs ys = some r)
    (habs : isAbs r = false) : join p r =
      ((replicate (steps xs) [dot, dot] ++ ys).foldl push (resolve p)).text := by
  rw [relation] at hr
  split at hr
  · cases hr
  · cases hr
    rw [join_eq habs, components_upSteps, foldl_append, foldl_joined hys, foldl_append]

/-- It is relative if it goes up, or goes down by a name first. -/
theorem isAbs_relation (hys : ∀ c ∈ ys, slash ∉ c) (hr : relation xs ys = some r)
    (h : steps xs ≠ 0 ∨ ys.head? ≠ some []) : isAbs r = false := by
  rw [relation] at hr
  split at hr
  · cases hr
  cases hr
  cases hsteps : steps xs with
  | succ k => rfl
  | zero =>
    have hhead := h.resolve_left (not_not.2 hsteps)
    rcases ys with _ | ⟨y, ys⟩
    · rfl
    obtain ⟨z, y, rfl⟩ := exists_cons_of_ne_nil (fun hy => hhead (by rw [hy]; rfl) : y ≠ [])
    have hz : z ≠ slash := fun hz => hys _ (.head _) (hz ▸ (.head _))
    cases ys with
    | nil =>
      rw [joined, intercalate_singleton]
      exact decide_eq_false hz
    | cons y' ys =>
      rw [joined_cons_cons]
      exact decide_eq_false hz

/-- Names are taken away one by one. -/
theorem foldl_ups {N : List Bytes} (hnames : st.names = N ++ xs) :
    (replicate xs.length [dot, dot]).foldl push st = { st with names := N } := by
  induction xs using reverseRecOn generalizing st with
  | nil =>
    rw [append_nil] at hnames
    rw [← hnames]
    rfl
  | append_singleton xs c ih =>
    have hne : st.names ≠ [] := by
      rw [hnames, ← append_assoc]
      exact append_ne_nil_of_right_ne_nil _ (cons_ne_nil c [])
    have hup : st.up = { st with names := N ++ xs } := by
      rw [up_names hne, hnames, ← append_assoc, dropLast_concat]
    rw [length_append, length_singleton, replicate_succ, foldl_cons]
    show (replicate xs.length [dot, dot]).foldl push st.up = _
    rw [hup, ih rfl]

/-- What is common ends among the names, if what is left does not go up. -/
theorem common_names {k : ℕ} {names : List Bytes} (hxs : xs.head? ≠ some [dot, dot])
    (h : common ++ xs = replicate k [dot, dot] ++ names) :
    ∃ N, common = replicate k [dot, dot] ++ N ∧ names = N ++ xs := by
  rcases append_eq_append_iff.1 h with ⟨as, hk, hxs'⟩ | ⟨N, hcommon, hnames⟩
  · cases as with
    | nil =>
      rw [append_nil] at hk
      exact ⟨[], by rw [append_nil, hk], hxs'.symm⟩
    | cons a as =>
      have ha : a = [dot, dot] := eq_of_mem_replicate
        (hk ▸ mem_append_right common (.head _) : a ∈ replicate k _)
      rw [hxs', ha] at hxs
      exact absurd rfl hxs
  · exact ⟨N, hcommon, hnames⟩

/-- The text tells how far a path goes up. -/
theorem Stack.Good.ups_of_text (h : st.Good) (h' : st'.Good) (htext : st.text = st'.text) :
    st.ups = st'.ups := by
  have hresolve := h.resolve_text
  rw [htext, h'.resolve_text] at hresolve
  exact (congrArg ups hresolve).symm

/-- There is no step up from the root once there were names on it. -/
theorem foldl_anchored (k : ℕ) : (replicate k [dot, dot]).foldl push ⟨true, 0, [], true⟩ =
    ⟨true, 0, [], true⟩ := by
  induction k with
  | zero => rfl
  | succ k ih => exact ih

/-- The names that are left of a stack when steps up are taken, with what is pushed then: the target,
unless the names were put on the root and the target goes up from it. -/
theorem foldl_rest {N : List Bytes} (h : st.Good) (hS : S.Good) (hroot : st.rooted = S.rooted)
    (hnames : st.names = N ++ xs) (hparts : List.replicate st.ups [dot, dot] ++ N ++ ys = S.parts) :
    ((List.replicate xs.length [dot, dot] ++ ys).foldl Stack.push st).text = S.text ↔
      ¬ (st.anchored = true ∧ 0 < S.ups) := by
  have hN : ∀ c ∈ N, IsName c := fun c hc => h.names c (hnames ▸ mem_append_left xs hc)
  rw [foldl_append, foldl_ups hnames]
  have htarget := foldl_parts S.rooted S.ups hS.names
  have htext : (S.parts.foldl Stack.push (.empty S.rooted)).text = S.text := by
    rw [Stack.parts, htarget]
    exact text_congr rfl rfl
  have hreached : (List.replicate st.ups [dot, dot] ++ N).foldl Stack.push (.empty S.rooted) =
      ⟨S.rooted, st.ups, N, N ≠ [] && (S.rooted && st.ups = 0)⟩ := foldl_parts S.rooted st.ups hN
  by_cases hanchored : st.anchored = (decide (N ≠ []) && (S.rooted && decide (st.ups = 0)))
  · -- the stack is the one that the common components make
    have hsame : ({ st with names := N } : Stack) =
        (List.replicate st.ups [dot, dot] ++ N).foldl Stack.push (.empty S.rooted) := by
      rw [hreached, ← hanchored, ← hroot]
    rw [hsame, ← foldl_append, hparts, htext]
    refine iff_of_true rfl ?_
    rintro ⟨ha, hups⟩
    rw [hanchored, Bool.and_eq_true, decide_eq_true_eq, Bool.and_eq_true, decide_eq_true_eq] at ha
    obtain ⟨c, cs, rfl⟩ := exists_cons_of_ne_nil ha.1
    rw [ha.2.2, Stack.parts, pos_iff_ne_zero.1 hups |> succ_pred_eq_of_ne_zero |>.symm,
      replicate_succ] at hparts
    exact (hN c (.head _)).2.2.1 (List.cons.inj hparts).1
  -- the names that were on the root are gone, and it is not forgotten that there were any
  have ha : st.anchored = true := by
    by_contra hfalse
    refine hanchored ?_
    rw [Bool.not_eq_true] at hfalse
    rw [hfalse, eq_comm, Bool.eq_false_iff]
    intro hall
    rw [Bool.and_eq_true, decide_eq_true_eq, Bool.and_eq_true, decide_eq_true_eq] at hall
    have hne : st.names ≠ [] := hnames ▸ append_ne_nil_of_left_ne_nil hall.1 xs
    rw [h.root hne (hroot.trans hall.2.1) hall.2.2] at hfalse
    cases hfalse
  obtain ⟨hrooted, hups⟩ := h.anchored ha
  have hnil : N = [] := by
    by_contra hne
    refine hanchored ?_
    rw [ha, ← hroot, hrooted, hups]
    simp [hne]
  have hys : ys = S.parts := by
    rw [← hparts, hups, hnil]
    rfl
  have hstack : ({ st with names := N } : Stack) = ⟨true, 0, [], true⟩ :=
    Stack.ext hrooted hups hnil ha
  have hfold : S.parts.foldl Stack.push ⟨true, 0, [], true⟩ = ⟨true, 0, S.names, true⟩ := by
    rw [Stack.parts, foldl_append, foldl_anchored, foldl_names hS.names]
    rfl
  have hgood : (⟨true, 0, S.names, true⟩ : Stack).Good :=
    ⟨hS.names, fun _ => ⟨rfl, rfl⟩, fun _ _ _ => rfl⟩
  rw [hstack, hys, hfold, ha]
  constructor
  · rintro htext' ⟨-, hpos⟩
    exact hpos.ne (hgood.ups_of_text hS htext')
  intro hzero
  have hS0 : S.ups = 0 := by
    by_contra hne
    exact hzero ⟨rfl, pos_of_ne_zero hne⟩
  refine text_congr (hrooted.symm.trans hroot) ?_
  rw [Stack.parts, Stack.parts, hS0]

end

/-! ### From where it leads to the target -/

/-- The two paths are the same when they are cleaned; or both are relative and the first one leads
somewhere; or both are absolute and the second one does not go up from the root where the first one
has put names on it. -/
def Relates (to' target : Bytes) : Prop :=
  clean to' = clean target ∨
    (isAbs to' = isAbs target ∧ (isAbs to' = false → place to' ≠ Lexical.start false) ∧
      ¬ ((resolve to').anchored = true ∧ 0 < (resolve target).ups))

section
variable {to' target r : Bytes} {st : Stack}

/-- The component `.` or an empty one is no part of a stack. -/
theorem Stack.Good.notMem_parts (h : st.Good) {c : Bytes} (hc : c = [] ∨ c = [dot]) :
    c ∉ st.parts := by
  intro hmem
  rcases mem_append.1 hmem with hmem | hmem
  · rw [eq_of_mem_replicate hmem] at hc
    rcases hc with hc | hc <;> cases hc
  · have hname := h.names c hmem
    exact hc.elim hname.1 hname.2.1

theorem diverge_differ [DecidableEq α] {xs ys : List α} (hxs : xs ≠ []) (hys : ys ≠ [])
    (h : xs.head? ≠ ys.head?) : diverge xs ys = (xs, ys) := by
  obtain ⟨x, xs, rfl⟩ := exists_cons_of_ne_nil hxs
  obtain ⟨y, ys, rfl⟩ := exists_cons_of_ne_nil hys
  exact if_neg fun hxy => h (congrArg some hxy)

theorem components_ne_nil (p : Bytes) : components p ≠ [] := splitOn_ne_nil slash p

/-- The first component tells an absolute path. -/
theorem head?_components (p : Bytes) (hp : p ≠ []) :
    (components p).head? = some [] ↔ isAbs p = true := by
  obtain ⟨c, rest, rfl⟩ := exists_cons_of_ne_nil hp
  by_cases hc : c = slash
  · subst hc
    exact iff_of_true (by rw [components_slash]; rfl) rfl
  refine iff_of_false (fun h => ?_) fun h => hc (of_decide_eq_true h)
  rw [components, splitOn_cons_eq_if_modifyHead, if_neg fun heq => hc (beq_iff_eq.1 heq)] at h
  obtain ⟨d, ds, hsplit⟩ := exists_cons_of_ne_nil (splitOn_ne_nil slash rest)
  rw [hsplit] at h
  cases h

/-- What is the same at the beginning does not matter. -/
theorem diverge_append [DecidableEq α] (common xs ys : List α) :
    diverge (common ++ xs) (common ++ ys) = diverge xs ys := by
  induction common with
  | nil => rfl
  | cons c common ih => exact (diverge_same c _ _).trans ih

theorem isAbs_clean (p : Bytes) : isAbs (clean p) = isAbs p := by
  rw [clean_eq, (resolve_good p).isAbs_text, rooted_resolve]

/-- The components that are pushed last neither lead to the root nor away from it. -/
theorem isAbs_foldl {cs : List Bytes} (h : st.Good) (hcs : ∀ c ∈ cs, slash ∉ c) :
    isAbs (cs.foldl push st).text = st.rooted := by
  obtain ⟨hgood, hroot, -⟩ := h.foldl hcs
  rw [hgood.isAbs_text, hroot]

/-- The components of a text that is not the root need steps up. -/
theorem Stack.Good.steps_text (h : st.Good) : steps (components st.text) ≠ 0 := by
  have hne : components st.text ≠ [[]] := by
    intro heq
    have htext := joined_components st.text
    rw [heq] at htext
    exact h.text_ne_nil htext.symm
  rw [steps, if_neg hne]
  exact fun hlength => components_ne_nil _ (length_eq_zero_iff.1 hlength)

/-- **An absolute path and a relative one**: the path that is returned never leads to the target. -/
theorem join_rel_mixed (habs : isAbs to' ≠ isAbs target)
    (hr : relation (diverge (components (clean to')) (components (clean target))).1
      (diverge (components (clean to')) (components (clean target))).2 = some r) :
    join to' r ≠ clean target := by
  have hA : clean to' ≠ [] := by
    rw [clean_eq]
    exact (resolve_good to').text_ne_nil
  have hB : clean target ≠ [] := by
    rw [clean_eq]
    exact (resolve_good target).text_ne_nil
  have hhead : (components (clean to')).head? ≠ (components (clean target)).head? := by
    intro heq
    have hiff := head?_components _ hA
    rw [heq, head?_components _ hB, isAbs_clean, isAbs_clean] at hiff
    exact habs (Bool.eq_iff_iff.2 hiff.symm)
  rw [diverge_differ (components_ne_nil _) (components_ne_nil _) hhead] at hr
  have hslash : ∀ c ∈ components (clean target), slash ∉ c :=
    fun c hc => slash_notMem_components hc
  have hsteps : steps (components (clean to')) ≠ 0 := by
    rw [clean_eq]
    exact (resolve_good to').steps_text
  have hpushed : ∀ c ∈ replicate (steps (components (clean to'))) [dot, dot] ++
      components (clean target), slash ∉ c := by
    intro c hc
    rcases mem_append.1 hc with hc | hc
    · rw [eq_of_mem_replicate hc]
      decide
    · exact hslash c hc
  intro hjoin
  have hrooted := isAbs_foldl (resolve_good to') hpushed
  rw [← join_relation hslash hr (isAbs_relation hslash hr (.inl hsteps)), hjoin, isAbs_clean,
    rooted_resolve] at hrooted
  exact habs hrooted.symm

/-- A stack that nothing is on. -/
theorem Stack.Good.eq_empty (h : st.Good) (hparts : st.parts = []) (hroot : st.rooted = false) :
    st = .empty false := by
  obtain ⟨hups, hnames⟩ := append_eq_nil_iff.1 hparts
  have hzero := congrArg List.length hups
  rw [length_replicate] at hzero
  refine Stack.ext hroot hzero hnames ?_
  by_contra hne
  have hrooted := (h.anchored (Bool.eq_true_of_not_eq_false hne)).1
  rw [hroot] at hrooted
  cases hrooted

variable {S T : Stack}

/-- **From nowhere**: the step up is one too many. -/
theorem join_rel_nowhere (hS : S.Good) (hT : T.Good) (hSroot : S.rooted = false)
    (hTroot : T.rooted = false) (hparts : S.parts = []) (hne : S.text ≠ T.text) :
    diverge (components S.text) (components T.text) = ([[dot]], T.parts) ∧
      ((replicate (steps [[dot]]) [dot, dot] ++ T.parts).foldl push S).text ≠ T.text := by
  have hempty := hS.eq_empty hparts hSroot
  have hTparts : T.parts ≠ [] := by
    intro hnil
    rw [hempty, hT.eq_empty hnil hTroot] at hne
    exact hne rfl
  have hcomponents : components T.text = T.parts := by
    rcases hT.components_text with ⟨hnil, -⟩ | ⟨hnil, -⟩ | ⟨-, hT'⟩
    · exact absurd hnil hTparts
    · exact absurd hnil hTparts
    · rw [hT', hTroot]
      rfl
  constructor
  · rw [hcomponents, hempty]
    refine diverge_differ (cons_ne_nil _ _) hTparts fun hhead => ?_
    exact hT.notMem_parts (.inr rfl) (mem_of_head? hhead.symm)
  rw [hempty]
  have hreached : (replicate (steps [[dot]]) [dot, dot] ++ T.parts).foldl push
      (.empty false) = ⟨false, T.ups + 1, T.names, T.names ≠ [] && (false && T.ups + 1 = 0)⟩ :=
    foldl_parts false (T.ups + 1) hT.names
  have hgood : (⟨false, T.ups + 1, T.names, T.names ≠ [] && (false && T.ups + 1 = 0)⟩ :
      Stack).Good := by
    rw [Bool.false_and, Bool.and_false]
    exact ⟨hT.names, fun h => absurd h Bool.false_ne_true, fun _ h => absurd h Bool.false_ne_true⟩
  rw [hreached]
  intro htext
  exact succ_ne_self T.ups (hgood.ups_of_text hT htext)

section
variable (hS : S.Good) (hT : T.Good) (hroot : S.rooted = T.rooted)
include hS hT hroot

/-- From the root: no step up is needed. -/
theorem join_rel_root (hparts : S.parts = []) :
    ((replicate (steps [[]]) [dot, dot] ++ T.parts).foldl push S).text = T.text ↔
      ¬ (S.anchored = true ∧ 0 < T.ups) := by
  obtain ⟨hups, hnames⟩ := append_eq_nil_iff.1 hparts
  have hnone : S.names = [] ++ [] := hnames
  exact foldl_rest hS hT hroot hnone (by rw [hups]; rfl)

/-- From components to the path that nothing is left of, or to the root. -/
theorem join_rel_nothing (hparts : T.parts = []) (hup : S.parts.head? ≠ some [dot, dot]) {q : Bytes}
    (hq : q = [] ∨ q = [dot]) :
    ((replicate S.parts.length [dot, dot] ++ [q]).foldl push S).text = T.text ↔
      ¬ (S.anchored = true ∧ 0 < T.ups) := by
  obtain ⟨N, hN, hnames⟩ := common_names hup (nil_append S.parts)
  have hstay : ∀ st : Stack, st.push q = st := by
    intro st
    rw [push, moveOf, if_pos hq]
  have hleft : replicate S.ups [dot, dot] ++ N ++ [] = T.parts := by
    rw [← hN, hparts]
    rfl
  have hrest := foldl_rest hS hT hroot hnames hleft
  rw [append_nil] at hrest
  rwa [foldl_append, foldl_cons, foldl_nil, hstay]

/-- **From components to components**: as many steps up as are left, and down again. -/
theorem join_rel_parts (hup : (diverge S.parts T.parts).1.head? ≠ some [dot, dot]) :
    ((replicate (diverge S.parts T.parts).1.length [dot, dot] ++
      (diverge S.parts T.parts).2).foldl push S).text = T.text ↔
      ¬ (S.anchored = true ∧ 0 < T.ups) := by
  obtain ⟨common, hx, hy, -⟩ := exists_diverge S.parts T.parts
  obtain ⟨N, hN, hnames⟩ := common_names hup hx.symm
  exact foldl_rest hS hT hroot hnames (hN ▸ hy.symm)

end

/-- **Both absolute or both relative**, and from somewhere. -/
theorem join_rel_same (habs : isAbs to' = isAbs target) (hne : clean to' ≠ clean target)
    (hsomewhere : isAbs to' = true ∨ (resolve to').parts ≠ [])
    (hr : relation (diverge (components (clean to')) (components (clean target))).1
      (diverge (components (clean to')) (components (clean target))).2 = some r) :
    join to' r = clean target ↔
      ¬ ((resolve to').anchored = true ∧ 0 < (resolve target).ups) := by
  have hS := resolve_good to'
  have hT := resolve_good target
  have hroot : (resolve to').rooted = (resolve target).rooted := by
    rw [rooted_resolve, rooted_resolve, habs]
  have hys : ∀ c ∈ (resolve target).parts, slash ∉ c := fun c hc => (hT.parts hc).2
  have hhead : ∀ ys, (∃ common, (resolve target).parts = common ++ ys) → ys.head? ≠ some [] :=
    fun ys hsuffix heq => by
      obtain ⟨common, hcommon⟩ := hsuffix
      refine hT.notMem_parts (.inl rfl) ?_
      rw [hcommon]
      exact mem_append_right common (mem_of_head? heq)
  rw [clean_eq] at hr hne ⊢
  rw [clean_eq] at hr hne
  rcases hS.components_text with ⟨hnil, hr', -⟩ | ⟨hnil, hr', hA⟩ | ⟨hparts, hA⟩
  · rw [rooted_resolve] at hr'
    rcases hsomewhere with h | h
    · exact absurd (hr'.symm.trans h) Bool.false_ne_true
    · exact absurd hnil h
  · -- from the root
    rw [hA] at hr
    rcases hT.components_text with ⟨-, hTr, -⟩ | ⟨hTnil, -, -⟩ | ⟨hTparts, hB⟩
    · exact absurd (hTr.symm.trans (hroot.symm.trans hr')) Bool.false_ne_true
    · exact absurd (text_congr hroot (hnil.trans hTnil.symm)) hne
    have hdiff : ([[]] : List Bytes).head? ≠ (resolve target).parts.head? :=
      fun heq => hhead _ ⟨[], rfl⟩ heq.symm
    rw [hB, if_pos (hroot.symm.trans hr'), singleton_append, diverge_same,
      diverge_differ (cons_ne_nil _ _) hTparts hdiff] at hr
    rw [join_relation hys hr (isAbs_relation hys hr (.inr (hhead _ ⟨[], rfl⟩)))]
    exact join_rel_root hS hT hroot hnil
  have hsteps : ∀ xs, (∃ common, (resolve to').parts = common ++ xs) → steps xs = xs.length := by
    rintro xs ⟨common, hcommon⟩
    refine if_neg fun heq => hS.notMem_parts (.inl rfl) ?_
    rw [hcommon, heq]
    exact mem_append_right common (mem_singleton_self [])
  by_cases hTparts : (resolve target).parts = []
  · -- to the root, or to the path that nothing is left of
    obtain ⟨q, hq, hB⟩ : ∃ q : Bytes, (q = [] ∨ q = [dot]) ∧ components (resolve target).text =
        (if (resolve target).rooted then [[]] else []) ++ [q] := by
      rcases hT.components_text with ⟨-, hTr, hB⟩ | ⟨-, hTr, hB⟩ | ⟨hTne, -⟩
      · exact ⟨[dot], .inr rfl, by rw [hB, hTr]; rfl⟩
      · exact ⟨[], .inl rfl, by rw [hB, hTr]; rfl⟩
      · exact absurd hTparts hTne
    have hdiff : (resolve to').parts.head? ≠ [q].head? :=
      fun heq => hS.notMem_parts hq (mem_of_head? heq)
    rw [hA, hB, hroot, diverge_append, diverge_differ hparts (cons_ne_nil _ _) hdiff] at hr
    have hup : (resolve to').parts.head? ≠ some [dot, dot] := fun heq => by
      rw [relation, if_pos heq] at hr
      cases hr
    have hqs : ∀ c ∈ [q], slash ∉ c := by
      intro c hc
      rw [mem_singleton.1 hc]
      rcases hq with rfl | rfl <;> decide
    have hall := hsteps (resolve to').parts ⟨[], rfl⟩
    have hpos : steps (resolve to').parts ≠ 0 := by
      rw [hall]
      exact fun hlength => hparts (length_eq_zero_iff.1 hlength)
    rw [join_relation hqs hr (isAbs_relation hqs hr (.inl hpos)), hall]
    exact join_rel_nothing hS hT hroot hTparts hup hq
  -- to components
  have hB : components (resolve target).text =
      (if (resolve target).rooted then [[]] else []) ++ (resolve target).parts := by
    rcases hT.components_text with ⟨hTnil, -⟩ | ⟨hTnil, -⟩ | ⟨-, hB⟩
    · exact absurd hTnil hTparts
    · exact absurd hTnil hTparts
    · exact hB
  rw [hA, hB, hroot, diverge_append] at hr
  obtain ⟨common, hx, hy, -⟩ := exists_diverge (resolve to').parts (resolve target).parts
  have hup : (diverge (resolve to').parts (resolve target).parts).1.head? ≠
      some [dot, dot] := fun heq => by
    rw [relation, if_pos heq] at hr
    cases hr
  have hrest : ∀ c ∈ (diverge (resolve to').parts (resolve target).parts).2, slash ∉ c :=
    fun c hc => hys c (by rw [hy]; exact mem_append_right common hc)
  rw [join_relation hrest hr (isAbs_relation hrest hr (.inr (hhead _ ⟨common, hy⟩))),
    hsteps _ ⟨common, hx⟩]
  exact join_rel_parts hS hT hroot hup

/-! ### Rounds -/

variable {A B p : Bytes} {m n i : ℕ} {R R' : Relating} {o : Option Bytes}

/-- More rounds change nothing. -/
theorem relLoop_more (h : relLoop A B n R = some R') (hle : n ≤ m) : relLoop A B m R = some R' := by
  induction n generalizing m R with
  | zero => cases h
  | succ n ih =>
    obtain ⟨m, rfl⟩ := Nat.exists_eq_add_of_le' (Nat.le_trans (Nat.succ_pos n) hle)
    rw [relLoop] at h ⊢
    split at h
    · rename_i hstop
      rw [if_pos hstop]
      exact h
    rename_i hgo
    rw [if_neg hgo]
    exact ih h (Nat.le_of_succ_le_succ hle)

theorem upLoop_more (h : upLoop A n i p = some r) (hle : n ≤ m) : upLoop A m i p = some r := by
  induction n generalizing m i p with
  | zero => cases h
  | succ n ih =>
    obtain ⟨m, rfl⟩ := Nat.exists_eq_add_of_le' (Nat.le_trans (Nat.succ_pos n) hle)
    rw [upLoop] at h ⊢
    cases hfind : find A slash i with
    | none =>
      rw [hfind] at h
      exact h
    | some j =>
      rw [hfind] at h
      exact ih h (Nat.le_of_succ_le_succ hle)

theorem rel_more (h : rel n to' target = some o) (hle : n ≤ m) : rel m to' target = some o := by
  rw [rel] at h ⊢
  split at h
  · rename_i heq
    rw [if_pos heq]
    exact h
  rename_i hne
  rw [if_neg hne]
  obtain ⟨R, hR, h⟩ := bind_eq_some_iff.1 h
  rw [relLoop_more hR hle, bind_eq_bind, bind_some]
  split at h
  · rename_i herror
    rw [if_pos herror]
    exact h
  rename_i hok
  rw [if_neg hok]
  split at h
  · rename_i hleft
    rw [if_pos hleft]
    obtain ⟨result, hup, h⟩ := bind_eq_some_iff.1 h
    rw [upLoop_more hup hle]
    exact h
  · rename_i hdone
    rw [if_neg hdone]
    exact h

/-- **`rel` returns after some rounds.** -/
theorem rel_returns (to' target : Bytes) : ∃ n, (rel n to' target).isSome := by
  by_cases heq : clean to' = clean target
  · refine ⟨0, ?_⟩
    rw [rel, if_pos heq]
    rfl
  · obtain ⟨n, hn⟩ := rel_eq heq
    exact ⟨n, hn ▸ rfl⟩

/-- The path `.` leads nowhere else. -/
theorem join_dot (p : Bytes) : join p [dot] = clean p := by
  rw [join_eq rfl, clean_eq]
  rfl

end

/-- **From where the path that is returned leads to the target**: from a path that is the same when
it is cleaned, and else, if both paths are relative, from any but the one that nothing is left of,
and, if both are absolute, from any if no step up from the root is left of the target, or from one
that never put a name on the root.  And `rel` returns for all paths. -/
theorem rel_inverts_iff (to' target : Bytes) : (∃ n, (rel n to' target).isSome) ∧
      ∀ n r, rel n to' target = some (some r) → (join to' r = clean target ↔ Relates to' target) := by
  refine ⟨rel_returns to' target, fun n r hr => ?_⟩
  by_cases heq : clean to' = clean target
  · rw [rel, if_pos heq] at hr
    obtain rfl : [dot] = r := some.inj (some.inj hr)
    rw [join_dot]
    exact iff_of_true heq (.inl heq)
  obtain ⟨m, hm⟩ := rel_eq heq
  have hrelation := (rel_more hr (le_max_left n m)).symm.trans
    (rel_more hm (le_max_right n m))
  have hr' := (some.inj hrelation).symm
  rw [Relates, or_iff_right heq]
  by_cases habs : isAbs to' = isAbs target
  · by_cases hnowhere : isAbs to' = false ∧ (resolve to').parts = []
    · obtain ⟨hrel, hnil⟩ := hnowhere
      have hS := resolve_good to'
      have hT := resolve_good target
      have hSroot : (resolve to').rooted = false := (rooted_resolve to').trans hrel
      have hTroot : (resolve target).rooted = false :=
        (rooted_resolve target).trans (habs.symm.trans hrel)
      have hys : ∀ c ∈ (resolve target).parts, slash ∉ c := fun c hc => (hT.parts hc).2
      rw [clean_eq, clean_eq] at hr' heq
      obtain ⟨hd, hwrong⟩ := join_rel_nowhere hS hT hSroot hTroot hnil heq
      rw [hd] at hr'
      have hone : steps [[dot]] ≠ 0 := by decide
      rw [join_relation hys hr' (isAbs_relation hys hr' (.inl hone)), clean_eq]
      refine iff_of_false hwrong fun h => h.2.1 hrel ?_
      rw [← place_resolve, hS.eq_empty hnil hSroot]
      rfl
    have hsomewhere : isAbs to' = true ∨ (resolve to').parts ≠ [] := by
      rcases Classical.not_and_iff_not_or_not.1 hnowhere with h | h
      · exact .inl (Bool.eq_true_of_not_eq_false h)
      · exact .inr h
    rw [join_rel_same habs heq hsomewhere hr']
    refine ⟨fun h => ⟨habs, fun hrel hplace => ?_, h⟩, fun h => h.2.2⟩
    refine hnowhere ⟨hrel, ?_⟩
    rw [← place_resolve, place_eq_start] at hplace
    exact hplace.1
  · exact iff_of_false (join_rel_mixed habs hr') fun h => habs h.1

/-- From an absolute path to a relative one. -/
theorem rel_mixed : ¬ ∀ to' target : Bytes, ∀ n r, rel n to' target = some (some r) →
    join to' r = clean target := fun h =>
  absurd (h [slash, 0x61] [0x62] 3 [dot, dot, slash, dot, dot, slash, 0x62] (by decide)) (by decide)

end SpacePony.Files
