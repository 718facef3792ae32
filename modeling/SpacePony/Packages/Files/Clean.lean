import Mathlib.Tactic.Linarith
import SpacePony.Packages.Files.Path
import SpacePony.Support.Lexical

/-!
# Packages — files — what `clean` returns

`reads` gives the variables of the loop, from the stack of what was read and the component that is
being read.  `clean` returns the text of the stack (`clean_eq`), which is a lexical normal form
(`clean_normal`).
-/

namespace SpacePony.Files

open Int Nat List Lexical

/-- The components of a path. -/
def components (path : Bytes) : List Bytes := path.splitOn slash

/-- A component that is a name. -/
def IsName (c : Bytes) : Prop := c ≠ [] ∧ c ≠ [dot] ∧ c ≠ [dot, dot] ∧ slash ∉ c

/-- What a component says. -/
def moveOf (c : Bytes) : Move Bytes :=
  if c = [] ∨ c = [dot] then .stay else if c = [dot, dot] then .up else .name c

/-- Where a path leads. -/
def place (path : Bytes) : Place Bytes := walk (start (isAbs path)) ((components path).map moveOf)

/-! ### The stack -/

/-- The steps up and the names that are left of a path. -/
@[ext] structure Stack where
  rooted : Bool
  ups : ℕ
  names : List Bytes
  anchored : Bool
deriving DecidableEq

namespace Stack

/-- The stack of an empty path. -/
def empty (rooted : Bool) : Stack := ⟨rooted, 0, [], false⟩

/-- A step up. -/
def up (st : Stack) : Stack :=
  match st.names with
  | [] => if st.anchored then st else { st with ups := st.ups + 1 }
  | _ :: _ => { st with names := st.names.dropLast }

/-- A name. -/
def name (st : Stack) (c : Bytes) : Stack :=
  { st with names := st.names ++ [c], anchored := st.anchored || (st.rooted && st.ups = 0) }

/-- A component. -/
def push (st : Stack) (c : Bytes) : Stack :=
  match moveOf c with
  | .stay => st
  | .up => st.up
  | .name c => st.name c

/-- What is left of the components. -/
def parts (st : Stack) : List Bytes := replicate st.ups [dot, dot] ++ st.names

/-- The root, if the path is absolute. -/
def root (st : Stack) : Bytes := if st.rooted then sep else []

/-- Components with a separator behind each. -/
def render (cs : List Bytes) : Bytes := cs.flatMap (· ++ sep)

/-- The text while components are read. -/
def open' (st : Stack) : Bytes := st.root ++ render st.parts

/-- The text. -/
def text (st : Stack) : Bytes :=
  if st.root ++ sep.intercalate st.parts = [] then [dot] else st.root ++ sep.intercalate st.parts

/-- The position that the last name starts at, or a mark that there is none to take away. -/
def backtrack (st : Stack) : ℤ :=
  if st.names = [] then (if st.anchored then 1 else -1)
  else (st.root ++ render (replicate st.ups [dot, dot] ++ st.names.dropLast)).length

/-- What holds of every stack. -/
structure Good (st : Stack) : Prop where
  names : ∀ c ∈ st.names, IsName c
  anchored : st.anchored = true → st.rooted = true ∧ st.ups = 0
  root : st.names ≠ [] → st.rooted = true → st.ups = 0 → st.anchored = true

/-- Where the components lead. -/
def place (st : Stack) : Place Bytes := ⟨st.rooted, if st.rooted then 0 else st.ups, st.names⟩

end Stack

/-- The stack of a path. -/
def resolve (path : Bytes) : Stack := (components path).foldl Stack.push (.empty (isAbs path))

/-- The variables of the loop, after components with the stack `st` and the bytes `cur` of the next
one. -/
def reads (st : Stack) (cur : Bytes) : Cleaning :=
  if cur = [] then ⟨st.open', .sep, st.backtrack⟩
  else if cur = [dot] then ⟨st.open', .dot, st.backtrack⟩
  else if cur = [dot, dot] then ⟨st.open', .dot2, st.backtrack⟩
  else ⟨st.open' ++ cur, .other, st.open'.length⟩

/-! ### Components and moves -/

section
variable {c cur : Bytes} {st : Stack} {p : Bytes}

theorem moveOf_name (h : IsName c) : moveOf c = .name c := by
  rw [moveOf, if_neg (not_or.2 ⟨h.1, h.2.1⟩), if_neg h.2.2.1]

/-- A component stays, goes up or is a name. -/
theorem moveOf_cases (h : slash ∉ c) :
    (moveOf c = .stay ∧ (c = [] ∨ c = [dot])) ∨ (moveOf c = .up ∧ c = [dot, dot]) ∨
      (moveOf c = .name c ∧ IsName c) := by
  by_cases hstay : c = [] ∨ c = [dot]
  · exact .inl ⟨if_pos hstay, hstay⟩
  by_cases hup : c = [dot, dot]
  · exact .inr (.inl ⟨hup ▸ rfl, hup⟩)
  · have hname : IsName c := ⟨fun h => hstay (.inl h), fun h => hstay (.inr h), hup, h⟩
    exact .inr (.inr ⟨moveOf_name hname, hname⟩)

theorem slash_notMem_components (h : c ∈ components p) : slash ∉ c := by
  induction p generalizing c with
  | nil =>
    rw [components, splitOn_nil] at h
    rw [mem_singleton.1 h]
    exact not_mem_nil
  | cons x p ih =>
    rw [components, splitOn_cons_eq_if_modifyHead] at h
    split at h
    · rcases mem_cons.1 h with rfl | h
      · exact not_mem_nil
      · exact ih h
    rename_i hx
    obtain ⟨d, ds, hsplit⟩ := exists_cons_of_ne_nil (splitOn_ne_nil slash p)
    rw [hsplit, modifyHead_cons] at h
    rcases mem_cons.1 h with rfl | h
    · rw [mem_cons, not_or]
      refine ⟨fun heq => hx (beq_iff_eq.2 heq.symm), ih ?_⟩
      rw [components, hsplit]
      exact .head _
    · refine ih ?_
      rw [components, hsplit]
      exact .tail _ h

/-- A path on the root has an empty component first. -/
theorem components_slash (rest : Bytes) : components (slash :: rest) = [] :: components rest :=
  splitOn_append_cons_self_of_not_mem (not_mem_nil : slash ∉ ([] : Bytes)) rest

theorem Stack.up_names (h : st.names ≠ []) : st.up = { st with names := st.names.dropLast } := by
  obtain ⟨b, bs, hcons⟩ := exists_cons_of_ne_nil h
  simp only [Stack.up, hcons]

theorem Stack.up_anchored (h : st.names = []) (ha : st.anchored = true) : st.up = st := by
  simp only [Stack.up, h, ha, if_true]

theorem Stack.up_free (h : st.names = []) (ha : st.anchored = false) :
    st.up = { st with ups := st.ups + 1 } := by
  simp [Stack.up, h, ha]

theorem Stack.Good.push (h : st.Good) (hc : slash ∉ c) : (st.push c).Good := by
  rcases moveOf_cases hc with ⟨hm, -⟩ | ⟨hm, -⟩ | ⟨hm, hname⟩
  · rw [Stack.push, hm]
    exact h
  · rw [Stack.push, hm]
    show st.up.Good
    by_cases hnames : st.names = []
    · cases ha : st.anchored with
      | true =>
        rw [Stack.up_anchored hnames ha]
        exact h
      | false =>
        rw [Stack.up_free hnames ha]
        exact ⟨h.names, fun ha' => absurd (ha.symm.trans ha') Bool.false_ne_true,
          fun hne => absurd hnames hne⟩
    · rw [Stack.up_names hnames]
      exact ⟨fun c hc => h.names c (dropLast_subset _ hc), h.anchored, fun _ => h.root hnames⟩
  · rw [Stack.push, hm]
    refine ⟨fun c' hc' => ?_, fun ha => ?_, fun _ hroot hups => ?_⟩
    · rcases mem_append.1 hc' with hc' | hc'
      · exact h.names c' hc'
      · rw [mem_singleton.1 hc']
        exact hname
    · rcases Bool.or_eq_true_iff.1 ha with ha | ha
      · exact h.anchored ha
      · rw [Bool.and_eq_true, decide_eq_true_eq] at ha
        exact ha
    · refine Bool.or_eq_true_iff.2 (.inr ?_)
      rw [Bool.and_eq_true, decide_eq_true_eq]
      exact ⟨hroot, hups⟩

theorem Stack.good_empty (rooted : Bool) : (Stack.empty rooted).Good :=
  ⟨fun _ h => absurd h not_mem_nil, fun h => absurd h Bool.false_ne_true, fun h => absurd rfl h⟩

/-- **The place of a stack moves with it.** -/
theorem Stack.Good.place_push (h : st.Good) (hc : slash ∉ c) :
    (st.push c).place = st.place.move (moveOf c) := by
  rcases moveOf_cases hc with ⟨hm, -⟩ | ⟨hm, -⟩ | ⟨hm, -⟩
  · rw [Stack.push, hm]
    rfl
  · rw [Stack.push, hm]
    show st.up.place = st.place.move .up
    by_cases hnames : st.names = []
    · cases hroot : st.rooted with
      | true =>
        rw [move_up_root (p := st.place) hroot hnames]
        cases ha : st.anchored with
        | true => rw [Stack.up_anchored hnames ha]
        | false =>
          rw [Stack.up_free hnames ha]
          simp [Stack.place, hroot]
      | false =>
        have ha : st.anchored = false := by
          by_contra hne
          have hrooted := (h.anchored (by simpa using hne)).1
          rw [hroot] at hrooted
          cases hrooted
        rw [move_up_rel (p := st.place) hroot hnames, Stack.up_free hnames ha]
        simp [Stack.place, hroot]
    · rw [move_up_names (p := st.place) hnames, Stack.up_names hnames]
      rfl
  · rw [Stack.push, hm]
    rfl

end

/-! ### Positions -/

section
variable {s t R b : Bytes} {c : UInt8} {i j n : ℕ}

theorem rfindFrom_eq_some (hle : j ≤ i) (hj : s[j]? = some c)
    (hnot : ∀ k, j < k → k ≤ i → s[k]? ≠ some c) : rfindFrom s c i = some j := by
  induction i with
  | zero =>
    obtain rfl := le_zero.1 hle
    rw [rfindFrom, if_pos hj]
  | succ i ih =>
    rcases le_succ_iff.1 hle with hle | rfl
    · rw [rfindFrom, if_neg (hnot _ (lt_succ_of_le hle) (le_refl _))]
      exact ih hle fun k hk hki => hnot k hk (le_succ_of_le hki)
    · rw [rfindFrom, if_pos hj]

theorem rfindFrom_eq_none (hnot : ∀ k, k ≤ i → s[k]? ≠ some c) : rfindFrom s c i = none := by
  induction i with
  | zero => rw [rfindFrom, if_neg (hnot 0 (le_refl 0))]
  | succ i ih =>
    rw [rfindFrom, if_neg (hnot _ (le_refl _))]
    exact ih fun k hk => hnot k (le_succ_of_le hk)

theorem rfind_nat (h : i < s.length) : rfind s c i = rfindFrom s c i := by
  have hindex : offsetToIndex s (i : ℤ) = some i := by
    rw [offsetToIndex, if_neg (not_lt.2 (natCast_nonneg i)), toNat_natCast]
  rw [rfind, hindex]
  exact if_pos h

theorem delete_nat (h : i < s.length) : delete s i none = s.take i := by
  have hindex : offsetToIndex s (i : ℤ) = some i := by
    rw [offsetToIndex, if_neg (not_lt.2 (natCast_nonneg i)), toNat_natCast]
  rw [delete, hindex]
  show (if i < s.length then _ else _) = _
  rw [if_pos h]
  exact append_nil _

/-- A text that ends with a separator, or is empty. -/
def Closed (R : Bytes) : Prop := R = [] ∨ ∃ R', R = R' ++ sep

/-- **The last component starts behind the separator before it.** -/
theorem lastStart_append (hR : Closed R) (hb : b ≠ []) (hslash : slash ∉ b) :
    lastStart (R ++ b ++ sep) ((R ++ b ++ sep).length - 2) = R.length := by
  have hpos := length_pos_iff.2 hb
  have hoffset : (((R ++ b ++ sep).length : ℤ) - 2) = ((R.length + (b.length - 1) : ℕ) : ℤ) := by
    simp [sep]
    omega
  have hget : ∀ k, k ≤ R.length + (b.length - 1) → R.length ≤ k →
      (R ++ b ++ sep)[k]? ≠ some slash := by
    intro k hk hRk hsome
    rw [append_assoc, getElem?_append_right hRk, getElem?_append_left (by omega)] at hsome
    exact hslash (mem_of_getElem? hsome)
  rw [lastStart, hoffset, rfind_nat (by simp only [length_append]; omega)]
  rcases hR with rfl | ⟨R', rfl⟩
  · rw [rfindFrom_eq_none fun k hk => hget k hk (zero_le k)]
    rfl
  have hlength : (R' ++ sep).length = R'.length + 1 := length_append
  have hat : (R' ++ sep ++ b ++ sep)[R'.length]? = some slash := by simp [sep]
  rw [rfindFrom_eq_some (by omega) hat fun k hk hki => hget k hki (by omega), hlength]
  rfl

theorem compareLoop_eq : compareLoop n s t = .eq ↔ s.take n = t.take n := by
  fun_induction compareLoop n s t with
  | case1 | case2 | case3 | case4 => simp
  | case5 n a s t ih => simp [ih]
  | case6 n a s b t hne _ | case7 n a s b t hne _ => simp [hne]

/-- Only `..` is found to be a step up. -/
theorem compareSub_dots (hb : b ≠ []) (hslash : slash ∉ b) :
    compareSub (R ++ b ++ sep) [dot, dot, slash] 3 R.length = .eq ↔ b = [dot, dot] := by
  rw [compareSub, append_assoc, drop_left, compareLoop_eq]
  constructor
  · intro h
    match b, hb with
    | [x], _ => simp [sep] at h
    | [x, y], _ =>
      simp [sep] at h
      rw [h.1, h.2]
    | x :: y :: z :: rest, _ =>
      simp at h
      exact absurd h.2.2.symm fun hz => hslash (by simp [hz])
  · rintro rfl
    rfl

end

/-! ### The loop -/

namespace Stack

variable {st : Stack} {cs : List Bytes} {c cur : Bytes}

theorem render_append (cs ds : List Bytes) : render (cs ++ ds) = render cs ++ render ds :=
  flatMap_append

theorem render_concat (cs : List Bytes) (c : Bytes) : render (cs ++ [c]) = render cs ++ c ++ sep := by
  rw [render_append, append_assoc]
  exact congrArg (render cs ++ ·) (flatMap_singleton _ _)

theorem closed_root (st : Stack) : Closed st.root := by
  rw [root]
  split
  · exact .inr ⟨[], rfl⟩
  · exact .inl rfl

theorem closed_render (st : Stack) (cs : List Bytes) : Closed (st.root ++ render cs) := by
  rcases eq_nil_or_concat cs with rfl | ⟨cs, c, rfl⟩
  · rw [render, flatMap_nil, append_nil]
    exact st.closed_root
  refine .inr ⟨st.root ++ (render cs ++ c), ?_⟩
  rw [concat_eq_append, render_concat]
  simp only [append_assoc]

/-- The last component, if there are any. -/
theorem open'_concat (h : st.parts = cs ++ [c]) : st.open' = st.root ++ render cs ++ c ++ sep := by
  rw [open', h, render_concat]
  simp only [append_assoc]

/-- Components are not empty and have no separator. -/
theorem Good.parts (h : st.Good) (hc : c ∈ st.parts) : c ≠ [] ∧ slash ∉ c := by
  rcases mem_append.1 hc with hc | hc
  · rw [eq_of_mem_replicate hc]
    decide
  · exact ⟨(h.names c hc).1, (h.names c hc).2.2.2⟩

theorem parts_names (h : st.names = cs ++ [c]) :
    st.parts = replicate st.ups [dot, dot] ++ cs ++ [c] := by
  rw [Stack.parts, h, append_assoc]

/-- The state that a separator after `..` leads to, when a name is taken away. -/
theorem Good.backtrack (h : st.Good) (hroot : st.rooted = true → st.ups = 0 → st.anchored = true) :
    (if st.open'.length = 0 ∨ compareSub st.open' [dot, dot, slash] 3
        (lastStart st.open' (st.open'.length - 2)) = .eq then -1
      else (lastStart st.open' (st.open'.length - 2) : ℤ)) = st.backtrack := by
  by_cases hnames : st.names = []
  · rw [Stack.backtrack, if_pos hnames]
    cases hups : st.ups with
    | zero =>
      have hopen : st.open' = st.root := by
        rw [open', Stack.parts, hups, hnames]
        exact append_nil _
      cases hr : st.rooted with
      | true =>
        have hsep : st.open' = sep := by
          rw [hopen, Stack.root, hr]
          rfl
        rw [hroot hr hups, hsep]
        rfl
      | false =>
        have ha : st.anchored = false := by
          by_contra hne
          have hrooted := (h.anchored (by simpa using hne)).1
          rw [hr] at hrooted
          cases hrooted
        have hnil : st.open' = [] := by
          rw [hopen, Stack.root, hr]
          rfl
        rw [ha, hnil]
        rfl
    | succ k =>
      have ha : st.anchored = false := by
        by_contra hne
        have hzero := (h.anchored (by simpa using hne)).2
        rw [hups] at hzero
        cases hzero
      have hparts : st.parts = replicate k [dot, dot] ++ [[dot, dot]] := by
        rw [Stack.parts, hups, hnames, append_nil, replicate_succ']
      rw [open'_concat hparts, lastStart_append (st.closed_render _) (by decide) (by decide),
        if_pos (.inr ((compareSub_dots (by decide) (by decide)).2 rfl)), ha]
      rfl
  obtain ⟨ns, b, hb⟩ := (eq_nil_or_concat st.names).resolve_left hnames
  rw [concat_eq_append] at hb
  have hname := h.names b (hb ▸ mem_append_right ns (.head _))
  have hlength : ¬ (st.root ++ render (replicate st.ups [dot, dot] ++ ns) ++ b ++ sep).length
      = 0 := by
    simp [sep]
  rw [open'_concat (parts_names hb), lastStart_append (st.closed_render _) hname.1 hname.2.2.2,
    if_neg (not_or.2 ⟨hlength, fun heq =>
      hname.2.2.1 ((compareSub_dots hname.1 hname.2.2.2).1 heq)⟩),
    Stack.backtrack, if_neg hnames, hb, dropLast_concat]

/-- The text before the last name. -/
theorem open'_up (h : st.names = cs ++ [c]) : st.open' = st.up.open' ++ c ++ sep := by
  have hne : st.names ≠ [] := h ▸ append_ne_nil_of_right_ne_nil _ (cons_ne_nil c [])
  rw [open'_concat (parts_names h), up_names hne, h, dropLast_concat]
  rfl

theorem backtrack_names (h : st.names ≠ []) : st.backtrack = st.up.open'.length := by
  rw [Stack.backtrack, if_neg h, up_names h]
  rfl

theorem backtrack_free (h : st.names = []) (ha : st.anchored = false) : st.backtrack = -1 := by
  rw [Stack.backtrack, if_pos h, ha]
  rfl

theorem backtrack_anchored (h : st.names = []) (ha : st.anchored = true) : st.backtrack = 1 := by
  rw [Stack.backtrack, if_pos h, if_pos ha]

theorem Good.open'_anchored (h : st.Good) (hnames : st.names = []) (ha : st.anchored = true) :
    st.open' = sep := by
  obtain ⟨hroot, hups⟩ := h.anchored ha
  rw [open', Stack.parts, hnames, hups, Stack.root, if_pos hroot]
  rfl

/-- A step up that is new. -/
theorem open'_free (h : st.names = []) (ha : st.anchored = false) :
    st.up.open' = st.open' ++ [dot, dot] ++ sep := by
  have hparts : st.up.parts = replicate st.ups [dot, dot] ++ [[dot, dot]] := by
    rw [up_free h ha, Stack.parts, h, append_nil, replicate_succ']
  have hold : st.parts = replicate st.ups [dot, dot] := by rw [Stack.parts, h, append_nil]
  rw [open'_concat hparts, open', hold]
  simp only [up_free h ha, root]

/-- The last name is deleted. -/
theorem delete_name (h : st.names = cs ++ [c]) :
    delete st.open' st.up.open'.length none = st.up.open' := by
  rw [open'_up h, delete_nat (by simp [sep]), append_assoc, take_left]

/-- **The round of a separator after `..`.** -/
theorem Good.separator_dot2 (h : st.Good) : (⟨st.open', .dot2, st.backtrack⟩ : Cleaning).separator =
      ⟨st.up.open', .sep, st.up.backtrack⟩ := by
  by_cases hnames : st.names = []
  · cases ha : st.anchored with
    | true =>
      rw [up_anchored hnames ha, h.open'_anchored hnames ha, backtrack_anchored hnames ha]
      rfl
    | false =>
      have hback : st.up.backtrack = -1 := by
        rw [up_free hnames ha]
        exact backtrack_free hnames ha
      rw [open'_free hnames ha, hback, backtrack_free hnames ha]
      rfl
  obtain ⟨ns, b, hb⟩ := (eq_nil_or_concat st.names).resolve_left hnames
  rw [concat_eq_append] at hb
  have hup : st.up.Good := h.push (c := [dot, dot]) (by decide)
  have hback := hup.backtrack (by
    rw [up_names hnames]
    exact h.root hnames)
  have hne : (st.up.open'.length : ℤ) ≠ -1 := by
    omega
  rw [backtrack_names hnames, ← hback]
  simp only [Cleaning.separator, if_neg hne, delete_name hb]
  split <;> rfl

theorem open'_name (st : Stack) (c : Bytes) : (st.name c).open' = st.open' ++ c ++ sep := by
  have hparts : (st.name c).parts = st.parts ++ [c] := (append_assoc _ _ _).symm
  rw [open'_concat hparts]
  rfl

theorem backtrack_name (st : Stack) (c : Bytes) : (st.name c).backtrack = st.open'.length := by
  have hne : (st.name c).names ≠ [] :=
    append_ne_nil_of_right_ne_nil _ (cons_ne_nil c [])
  rw [Stack.backtrack, if_neg hne]
  simp only [Stack.name, dropLast_concat]
  rfl

end Stack

section
variable {st : Stack} {c : UInt8} {cur : Bytes}

theorem reads_nil (st : Stack) : reads st [] = ⟨st.open', .sep, st.backtrack⟩ := rfl

theorem reads_dot (st : Stack) : reads st [dot] = ⟨st.open', .dot, st.backtrack⟩ := rfl

theorem reads_dots (st : Stack) : reads st [dot, dot] = ⟨st.open', .dot2, st.backtrack⟩ := rfl

theorem reads_name (h : cur ≠ []) (hdot : cur ≠ [dot]) (hdots : cur ≠ [dot, dot]) :
    reads st cur = ⟨st.open' ++ cur, .other, st.open'.length⟩ := by
  rw [reads, if_neg h, if_neg hdot, if_neg hdots]

/-- What has been read of a component: nothing, dots, or the beginning of a name. -/
theorem reads_cases (cur : Bytes) :
    cur = [] ∨ cur = [dot] ∨ cur = [dot, dot] ∨ (cur ≠ [] ∧ cur ≠ [dot] ∧ cur ≠ [dot, dot]) := by
  by_cases h : cur = []
  · exact .inl h
  by_cases hdot : cur = [dot]
  · exact .inr (.inl hdot)
  by_cases hdots : cur = [dot, dot]
  · exact .inr (.inr (.inl hdots))
  · exact .inr (.inr (.inr ⟨h, hdot, hdots⟩))

/-- **A separator ends the component.** -/
theorem step_separator (h : st.Good) (hcur : slash ∉ cur) :
    (reads st cur).step slash = reads (st.push cur) [] := by
  rcases reads_cases cur with rfl | rfl | rfl | ⟨hne, hdot, hdots⟩
  · rfl
  · rfl
  · exact h.separator_dot2
  have hpush : st.push cur = st.name cur := by rw [Stack.push, moveOf_name ⟨hne, hdot, hdots, hcur⟩]
  rw [hpush, reads_nil, Stack.open'_name, Stack.backtrack_name, reads_name hne hdot hdots]
  rfl

/-- **Any other byte belongs to it.** -/
theorem step_byte (hc : c ≠ slash) : (reads st cur).step c = reads st (cur ++ [c]) := by
  have hsep : isSep c = false := decide_eq_false hc
  by_cases hdotc : c = dot
  · subst hdotc
    rcases reads_cases cur with rfl | rfl | rfl | ⟨hne, hdot, hdots⟩
    · rfl
    · rfl
    · rfl
    have hdots' : cur ++ [dot] ≠ [dot, dot] := fun heq =>
      hdot (append_cancel_right (heq : cur ++ [dot] = [dot] ++ [dot]))
    rw [reads_name hne hdot hdots, reads_name (by simp) (by simpa using hne) hdots', ← append_assoc]
    rfl
  have hstep : ∀ m : Cleaning, m.step c = m.other c := by
    intro m
    rw [Cleaning.step, hsep, if_neg hdotc]
    rfl
  have hlast : ∀ l : Bytes, cur ++ [c] ≠ l ++ [dot] := by
    intro l heq
    exact hdotc (cons.inj (append_inj_right' heq rfl)).1
  rw [hstep, reads_name (by simp) (hlast []) (hlast [dot])]
  rcases reads_cases cur with rfl | rfl | rfl | ⟨hne, hdot, hdots⟩
  · rfl
  · rw [reads_dot]
    show (⟨st.open' ++ [dot] ++ [c], _, _⟩ : Cleaning) = _
    rw [append_assoc]
  · rw [reads_dots]
    show (⟨st.open' ++ [dot, dot] ++ [c], _, _⟩ : Cleaning) = _
    rw [append_assoc]
  · rw [reads_name hne hdot hdots, ← append_assoc]
    rfl

/-! ### The text -/

/-- A text that ends with a separator is without it. -/
theorem tidy_closed {s : Bytes} (hs : s ≠ []) : tidy (s ++ sep) = s := by
  have hpos := length_pos_iff.2 hs
  have hlast : (s ++ sep)[(s ++ sep).length - 1]? = some slash := by simp [sep]
  have hdelete : delete (s ++ sep) (-1) (some sep.length) = s := by
    have hindex : offsetToIndex (s ++ sep) (-1) = some s.length := by
      have hlen : (-1 : ℤ) + (s ++ sep).length = (s.length : ℤ) := by simp [sep]
      rw [offsetToIndex, if_pos (by decide), hlen, if_pos (natCast_nonneg _), toNat_natCast]
    rw [delete, hindex]
    simp [sep]
  have hlong : (s ++ sep).length > 1 := by
    simp [sep]
    exact hpos
  have hinner : (if isSep slash = true ∧ (s ++ sep).length > 1 then
      delete (s ++ sep) (-1) (some sep.length) else s ++ sep) = s :=
    (if_pos ⟨rfl, hlong⟩).trans hdelete
  rw [tidy, hlast]
  simp only [hinner]
  exact if_pos hpos

theorem tidy_of_last {s : Bytes} {c : UInt8} (hc : c ≠ slash) : tidy (s ++ [c]) = s ++ [c] := by
  have hlast : (s ++ [c])[(s ++ [c]).length - 1]? = some c := by simp
  have hsep : isSep c = false := decide_eq_false hc
  rw [tidy, hlast]
  simp [hsep]

theorem tidy_name {s : Bytes} (hcur : slash ∉ cur) (hne : cur ≠ []) :
    tidy (s ++ cur) = s ++ cur := by
  obtain ⟨l, c, rfl⟩ := (eq_nil_or_concat cur).resolve_left hne
  rw [concat_eq_append] at hcur ⊢
  rw [← append_assoc]
  refine tidy_of_last fun hc => hcur ?_
  rw [hc]
  exact mem_append_right l (.head _)

namespace Stack

variable {cs : List Bytes} {c : Bytes}

theorem intercalate_concat (cs : List Bytes) (c : Bytes) :
    sep.intercalate (cs ++ [c]) = render cs ++ c := by
  induction cs with
  | nil => exact intercalate_singleton
  | cons d cs ih =>
    rw [cons_append, intercalate_cons_of_ne_nil (by simp), ih]
    simp only [render, flatMap_cons, append_assoc]

theorem text_concat (h : st.parts = cs ++ [c]) (hc : c ≠ []) :
    st.text = st.root ++ render cs ++ c := by
  have hne : st.root ++ (render cs ++ c) ≠ [] := fun hnil =>
    hc (append_eq_nil_iff.1 (append_eq_nil_iff.1 hnil).2).2
  rw [text, h, intercalate_concat, if_neg hne, append_assoc]

theorem text_nil (h : st.parts = []) : st.text = if st.rooted then sep else [dot] := by
  rw [text, h, intercalate_nil, append_nil, root]
  cases st.rooted <;> rfl

/-- **The text of what was read.** -/
theorem Good.tidy_open' (h : st.Good) : tidy st.open' = st.text := by
  rcases eq_nil_or_concat st.parts with hnil | ⟨cs, c, hcs⟩
  · rw [text_nil hnil, open', hnil, Stack.root]
    cases st.rooted <;> rfl
  rw [concat_eq_append] at hcs
  have hc := h.parts (c := c) (hcs ▸ mem_append_right cs (.head _))
  have hne : st.root ++ render cs ++ c ≠ [] := fun hnil => hc.1 (append_eq_nil_iff.1 hnil).2
  rw [open'_concat hcs, tidy_closed hne, text_concat hcs hc.1]

end Stack

/-- **What follows the loop.** -/
theorem finish_reads (h : st.Good) (hcur : slash ∉ cur) :
    (reads st cur).finish = (st.push cur).text := by
  rcases reads_cases cur with rfl | rfl | rfl | ⟨hne, hdot, hdots⟩
  · exact h.tidy_open'
  · exact h.tidy_open'
  · have hgood : st.up.Good := h.push (c := [dot, dot]) hcur
    have hpush : st.push [dot, dot] = st.up := rfl
    rw [reads_dots, Cleaning.finish, hpush, ← hgood.tidy_open']
    simp only [Cleaning.lastDots]
    by_cases hnames : st.names = []
    · cases ha : st.anchored with
      | true =>
        rw [Stack.up_anchored hnames ha, h.open'_anchored hnames ha,
          Stack.backtrack_anchored hnames ha]
        rfl
      | false =>
        have hopen : st.open' ++ [dot, dot] ≠ [] := by simp
        rw [Stack.open'_free hnames ha, Stack.backtrack_free hnames ha, if_pos rfl,
          tidy_closed hopen, tidy_name hcur (by decide)]
    obtain ⟨ns, b, hb⟩ := (eq_nil_or_concat st.names).resolve_left hnames
    rw [concat_eq_append] at hb
    have hne : (st.up.open'.length : ℤ) ≠ -1 := by
      omega
    rw [Stack.backtrack_names hnames, if_neg hne, Stack.delete_name hb]
  · have hpush : st.push cur = st.name cur := by
      rw [Stack.push, moveOf_name ⟨hne, hdot, hdots, hcur⟩]
    have hopen : st.open' ++ cur ≠ [] := fun hnil => hne (append_eq_nil_iff.1 hnil).2
    have hgood : (st.name cur).Good := hpush ▸ h.push hcur
    rw [reads_name hne hdot hdots, hpush, ← hgood.tidy_open', Stack.open'_name, tidy_closed hopen]
    exact tidy_name hcur hne

theorem resolve_components (h : st.Good) (hcur : slash ∉ cur) (rest : Bytes) :
    (rest.foldl Cleaning.step (reads st cur)).finish =
      ((components (cur ++ rest)).foldl Stack.push st).text := by
  induction rest generalizing st cur with
  | nil =>
    rw [append_nil, components, splitOn_eq_singleton hcur]
    exact finish_reads h hcur
  | cons c rest ih =>
    by_cases hc : c = slash
    · subst hc
      rw [foldl_cons, step_separator h hcur, ih (h.push hcur) not_mem_nil, components,
        components, splitOn_append_cons_self_of_not_mem hcur]
      rfl
    have hcur' : slash ∉ cur ++ [c] := by
      rw [mem_append, not_or, mem_singleton]
      exact ⟨hcur, Ne.symm hc⟩
    rw [foldl_cons, step_byte hc, ih h hcur', append_assoc]
    rfl

/-- **What `clean` returns**: the text of the stack. -/
theorem clean_eq (path : Bytes) : clean path = (resolve path).text := by
  cases path with
  | nil => rfl
  | cons c rest =>
    rw [clean]
    by_cases hc : c = slash
    · subst hc
      have hread := resolve_components (Stack.good_empty true)
        (not_mem_nil : slash ∉ ([] : Bytes)) rest
      rw [if_pos (show isSep slash = true from rfl), resolve, components_slash]
      exact hread
    have hsep : ¬ isSep c = true := by simpa [isSep] using hc
    have habs : isAbs (c :: rest) = false := decide_eq_false hc
    rw [if_neg hsep, resolve, habs]
    have hread := resolve_components (Stack.good_empty false)
      (fun h => hc (mem_singleton.1 h).symm : slash ∉ [c]) rest
    split
    · rename_i hdot
      subst hdot
      exact hread
    rename_i hdot
    have hreads : reads (.empty false) [c] = ⟨[c], .other, 0⟩ := by
      rw [reads_name (by simp) (by simpa using hdot) (by simp)]
      rfl
    have hfirst : (⟨[], .other, 0⟩ : Cleaning).step c = ⟨[c], .other, 0⟩ := by
      rw [Cleaning.step, if_neg hsep, if_neg hdot]
      rfl
    rw [foldl_cons, hfirst, ← hreads]
    exact hread

end

/-! ### The normal form -/

/-- The components behind the root. -/
def parts (path : Bytes) : List Bytes :=
  let rest := if isAbs path then path.tail else path
  if rest = [] then [] else components rest

section
variable {st : Stack} {p : Bytes} {cs : List Bytes}

/-- Pushing components one by one walks the place they name. -/
theorem Stack.Good.foldl (h : st.Good) (hcs : ∀ c ∈ cs, slash ∉ c) :
    (cs.foldl Stack.push st).Good ∧ (cs.foldl Stack.push st).rooted = st.rooted ∧
      (cs.foldl Stack.push st).place = walk st.place (cs.map moveOf) := by
  induction cs generalizing st with
  | nil => exact ⟨h, rfl, rfl⟩
  | cons c cs ih =>
    have hc := hcs c (.head _)
    obtain ⟨hgood, hroot, hplace⟩ := ih (h.push hc) fun d hd => hcs d (.tail _ hd)
    refine ⟨hgood, hroot.trans ?_, ?_⟩
    · have hmove := rooted_move (p := st.place) (moveOf c)
      rw [← h.place_push hc] at hmove
      exact hmove
    · rw [foldl_cons, hplace, h.place_push hc]
      rfl

theorem resolve_good (p : Bytes) : (resolve p).Good :=
  ((Stack.good_empty _).foldl fun _ hc => slash_notMem_components hc).1

theorem rooted_resolve (p : Bytes) : (resolve p).rooted = isAbs p :=
  ((Stack.good_empty _).foldl fun _ hc => slash_notMem_components hc).2.1

/-- **The stack leads where the path leads.** -/
theorem place_resolve (p : Bytes) : (resolve p).place = place p := by
  have hslash : ∀ c ∈ components p, slash ∉ c := fun _ hc => slash_notMem_components hc
  have h := ((Stack.good_empty (isAbs p)).foldl hslash).2.2
  have hstart : (Stack.empty (isAbs p)).place = start (isAbs p) := by cases isAbs p <;> rfl
  rw [hstart] at h
  exact h

/-- The text of a stack: nothing is left of the path, or the root is, or components are. -/
theorem Stack.Good.text_cases (h : st.Good) :
    (st.parts = [] ∧ st.rooted = false ∧ st.text = [dot]) ∨
      (st.parts = [] ∧ st.rooted = true ∧ st.text = sep) ∨
      (st.parts ≠ [] ∧ st.text = st.root ++ sep.intercalate st.parts) := by
  rcases eq_nil_or_concat st.parts with hnil | ⟨cs, c, hcs⟩
  · have htext := Stack.text_nil hnil
    cases hr : st.rooted with
    | false => exact .inl ⟨hnil, rfl, htext.trans (if_neg (by rw [hr]; decide))⟩
    | true => exact .inr (.inl ⟨hnil, rfl, htext.trans (if_pos hr)⟩)
  rw [concat_eq_append] at hcs
  have hc := h.parts (c := c) (hcs ▸ mem_append_right cs (.head _))
  have hne : st.parts ≠ [] := by
    rw [hcs]
    exact append_ne_nil_of_right_ne_nil _ (cons_ne_nil c [])
  refine .inr (.inr ⟨hne, ?_⟩)
  rw [Stack.text_concat hcs hc.1, hcs, Stack.intercalate_concat, append_assoc]

theorem Stack.Good.components_intercalate (h : st.Good) (hne : st.parts ≠ []) :
    components (sep.intercalate st.parts) = st.parts :=
  splitOn_intercalate slash (fun _ hc => (h.parts hc).2) hne

/-- Components make a text that is not empty, and does not look like an absolute path. -/
theorem Stack.Good.intercalate_ne (h : st.Good) (hne : st.parts ≠ []) :
    sep.intercalate st.parts ≠ [] ∧ isAbs (sep.intercalate st.parts) = false := by
  obtain ⟨c, cs, hcs⟩ := exists_cons_of_ne_nil hne
  have hc := h.parts (c := c) (hcs ▸ (.head _))
  obtain ⟨x, xs, rfl⟩ := exists_cons_of_ne_nil hc.1
  have hx : x ≠ slash := fun hx => hc.2 (hx ▸ (.head _))
  have hhead : ∃ rest, sep.intercalate st.parts = x :: rest := by
    rw [hcs]
    cases cs with
    | nil => exact ⟨xs, intercalate_singleton⟩
    | cons d cs => exact ⟨_, intercalate_cons_cons⟩
  obtain ⟨rest, hrest⟩ := hhead
  rw [hrest]
  exact ⟨cons_ne_nil x rest, decide_eq_false hx⟩

theorem Stack.Good.isAbs_text (h : st.Good) : isAbs st.text = st.rooted := by
  rcases h.text_cases with ⟨-, hr, ht⟩ | ⟨-, hr, ht⟩ | ⟨hne, ht⟩
  · rw [ht, hr]
    rfl
  · rw [ht, hr]
    rfl
  rw [ht, Stack.root]
  cases st.rooted with
  | true => rfl
  | false => exact (h.intercalate_ne hne).2

/-- The components of the text. -/
theorem Stack.Good.parts_text (h : st.Good) (htext : st.text ≠ [dot]) :
    Files.parts st.text = st.parts := by
  rcases h.text_cases with ⟨-, -, ht⟩ | ⟨hnil, hr, ht⟩ | ⟨hne, ht⟩
  · exact absurd ht htext
  · rw [hnil, ht]
    rfl
  rw [Files.parts, h.isAbs_text, ht, Stack.root]
  cases st.rooted with
  | true | false =>
    exact (if_neg (h.intercalate_ne hne).1).trans (h.components_intercalate hne)

/-- The components of the text of a stack, with those of the root and of `.`. -/
theorem Stack.Good.components_text (h : st.Good) :
    (st.parts = [] ∧ st.rooted = false ∧ components st.text = [[dot]]) ∨
      (st.parts = [] ∧ st.rooted = true ∧ components st.text = [[], []]) ∨
      (st.parts ≠ [] ∧ components st.text = (if st.rooted then [[]] else []) ++ st.parts) := by
  rcases h.text_cases with ⟨hnil, hr, ht⟩ | ⟨hnil, hr, ht⟩ | ⟨hne, ht⟩
  · exact .inl ⟨hnil, hr, by rw [ht]; rfl⟩
  · exact .inr (.inl ⟨hnil, hr, by rw [ht]; rfl⟩)
  refine .inr (.inr ⟨hne, ?_⟩)
  rw [ht, Stack.root]
  cases st.rooted with
  | true =>
    have hcons : components (sep ++ sep.intercalate st.parts) =
        [] :: components (sep.intercalate st.parts) := components_slash _
    rw [if_pos rfl, if_pos rfl, hcons, h.components_intercalate hne]
    rfl
  | false =>
    rw [if_neg Bool.false_ne_true, if_neg Bool.false_ne_true, nil_append,
      h.components_intercalate hne, nil_append]

/-- **The text is read as its components.** -/
theorem Stack.Good.resolve_text_parts (h : st.Good) :
    resolve st.text = st.parts.foldl Stack.push (.empty st.rooted) := by
  rw [resolve, h.isAbs_text]
  rcases h.components_text with ⟨hnil, hr, hc⟩ | ⟨hnil, hr, hc⟩ | ⟨-, hc⟩
  · rw [hnil, hr, hc]
    rfl
  · rw [hnil, hr, hc]
    rfl
  rw [hc]
  cases st.rooted with
  | true | false => rfl

/-- Names on the root anchor the stack. -/
theorem foldl_names {names : List Bytes} (hnames : ∀ c ∈ names, IsName c) (st : Stack) :
    names.foldl Stack.push st =
      { st with
        names := st.names ++ names
        anchored := st.anchored || (names ≠ [] && (st.rooted && st.ups = 0)) } := by
  induction names generalizing st with
  | nil => simp
  | cons c names ih =>
    have hpush : st.push c = st.name c := by rw [Stack.push, moveOf_name (hnames c (.head _))]
    rw [foldl_cons, hpush, ih fun d hd => hnames d (.tail _ hd)]
    refine Stack.ext rfl rfl (append_assoc _ _ _) ?_
    cases hanchor : st.rooted && decide (st.ups = 0)
    · simp [Stack.name, hanchor]
    · simp [Stack.name, hanchor]

/-- Steps up, where nothing keeps the stack at the root. -/
theorem foldl_up (rooted : Bool) (n k : ℕ) :
    (replicate k [dot, dot]).foldl Stack.push ⟨rooted, n, [], false⟩ =
      ⟨rooted, n + k, [], false⟩ := by
  induction k generalizing n with
  | zero => rfl
  | succ k ih =>
    rw [replicate_succ, foldl_cons, add_comm k, ← add_assoc]
    exact ih (n + 1)

/-- **Steps up, and then names.** -/
theorem foldl_parts (rooted : Bool) (k : ℕ) {names : List Bytes} (hnames : ∀ c ∈ names, IsName c) :
    (replicate k [dot, dot] ++ names).foldl Stack.push (.empty rooted) =
      ⟨rooted, k, names, names ≠ [] && (rooted && k = 0)⟩ := by
  rw [foldl_append, Stack.empty, foldl_up, zero_add, foldl_names hnames]
  simp

/-- The text depends on what is left alone. -/
theorem Stack.text_congr {st' : Stack} (hr : st.rooted = st'.rooted) (hp : st.parts = st'.parts) :
    st.text = st'.text := by
  rw [Stack.text, Stack.text, Stack.root, Stack.root, hr, hp]

/-- Without names it is forgotten that there were names on the root. -/
def Stack.forget (st : Stack) : Stack := { st with anchored := st.anchored && st.names ≠ [] }

/-- **What is left of the stack in the text.** -/
theorem Stack.Good.resolve_text (h : st.Good) : resolve st.text = st.forget := by
  rw [h.resolve_text_parts]
  refine (foldl_parts st.rooted st.ups h.names).trans (Stack.ext rfl rfl rfl ?_)
  by_cases hnames : st.names = []
  · simp [Stack.forget, hnames]
  have hanchored : st.anchored = (st.rooted && decide (st.ups = 0)) := by
    rw [Bool.eq_iff_iff, Bool.and_eq_true, decide_eq_true_eq]
    exact ⟨h.anchored, fun hboth => h.root hnames hboth.1 hboth.2⟩
  simp [Stack.forget, hnames, hanchored]

theorem Stack.Good.clean_text (h : st.Good) : clean st.text = st.text := by
  rw [clean_eq, h.resolve_text]
  exact Stack.text_congr rfl rfl

theorem resolve_clean (p : Bytes) : resolve (clean p) = (resolve p).forget := by
  rw [clean_eq]
  exact (resolve_good p).resolve_text

/-- A stack that nothing is left on. -/
theorem Stack.place_eq_start : st.place = start false ↔ st.parts = [] ∧ st.rooted = false := by
  rw [Place.ext_iff]
  constructor
  · rintro ⟨hr, hups, hnames⟩
    have hr' : st.rooted = false := hr
    have hups' : st.ups = 0 := by simpa [Stack.place, hr', start] using hups
    have hnames' : st.names = [] := hnames
    rw [Stack.parts, hups', hnames']
    exact ⟨rfl, hr'⟩
  rintro ⟨hp, hr⟩
  obtain ⟨hups, hnames⟩ := append_eq_nil_iff.1 hp
  have hzero := congrArg length hups
  rw [length_replicate] at hzero
  exact ⟨hr, by simpa [Stack.place, hr, start] using hzero, hnames⟩

/-- A text that nothing is left of. -/
theorem Stack.Good.text_eq_dot (h : st.Good) : st.text = [dot] ↔ st.place = start false := by
  rw [Stack.place_eq_start]
  rcases h.text_cases with ⟨hnil, hr, ht⟩ | ⟨hnil, hr, ht⟩ | ⟨hne, ht⟩
  · exact iff_of_true ht ⟨hnil, hr⟩
  · refine iff_of_false ?_ fun hboth => ?_
    · rw [ht]
      decide
    · rw [hr] at hboth
      exact absurd hboth.2 (by decide)
  refine iff_of_false (fun hdot => ?_) fun hboth => hne hboth.1
  have hroot : st.rooted = false := by
    rw [← h.isAbs_text, hdot]
    rfl
  rw [ht, Stack.root, hroot, if_neg Bool.false_ne_true, nil_append] at hdot
  have hcomponents := h.components_intercalate hne
  rw [hdot] at hcomponents
  have hmem : [dot] ∈ st.parts := by
    rw [← hcomponents]
    exact .head _
  rcases mem_append.1 hmem with hmem | hmem
  · exact absurd (eq_of_mem_replicate hmem) (by decide)
  · exact (h.names _ hmem).2.1 rfl

theorem Stack.Good.text_ne_nil (h : st.Good) : st.text ≠ [] := by
  rcases h.text_cases with ⟨-, -, ht⟩ | ⟨-, -, ht⟩ | ⟨hne, ht⟩
  · exact ht ▸ cons_ne_nil _ _
  · exact ht ▸ cons_ne_nil _ _
  · rw [ht]
    exact append_ne_nil_of_right_ne_nil _ (h.intercalate_ne hne).1

/-- A text that ends with a separator is the root. -/
theorem Stack.Good.getLast?_text (h : st.Good) (hlast : st.text.getLast? = some slash) :
    st.text = sep := by
  rcases eq_nil_or_concat st.parts with hnil | ⟨cs, c, hcs⟩
  · rcases h.text_cases with ⟨-, -, ht⟩ | ⟨-, -, ht⟩ | ⟨hne, -⟩
    · rw [ht] at hlast
      cases hlast
    · exact ht
    · exact absurd hnil hne
  rw [concat_eq_append] at hcs
  have hc := h.parts (c := c) (hcs ▸ mem_append_right cs (.head _))
  rw [Stack.text_concat hcs hc.1, getLast?_append_of_ne_nil _ hc.1] at hlast
  exact absurd (mem_of_getLast? hlast) hc.2

end

/-- **`clean` returns a lexical normal form**: components without empty ones and without `.`, but for
the path that nothing is left of; `..` at its front only; no separator at its end, but for the root;
absolute or relative as the path is; and the same place, so that it is its own normal form. -/
theorem clean_normal (p : Bytes) : clean p ≠ [] ∧
    (clean p = [dot] ↔ place p = start false) ∧
    (clean p ≠ [dot] → ∀ c ∈ parts (clean p), c ≠ [] ∧ c ≠ [dot]) ∧
    (∃ k names, parts (clean p) = replicate k [dot, dot] ++ names ∧ [dot, dot] ∉ names) ∧
    ((clean p).getLast? = some slash → clean p = sep) ∧
    isAbs (clean p) = isAbs p ∧
    place (clean p) = place p ∧
    clean (clean p) = clean p := by
  have h := resolve_good p
  refine ⟨?_, ?_, ?_, ?_, ?_, ?_, ?_, ?_⟩
  · rw [clean_eq]
    exact h.text_ne_nil
  · rw [clean_eq, h.text_eq_dot, place_resolve]
  · intro hdot c hc
    rw [clean_eq] at hdot hc
    rw [h.parts_text hdot] at hc
    refine ⟨(h.parts hc).1, fun heq => ?_⟩
    rcases mem_append.1 hc with hc | hc
    · exact absurd (heq.symm.trans (eq_of_mem_replicate hc)) (by decide)
    · exact (h.names c hc).2.1 heq
  · by_cases hdot : clean p = [dot]
    · rw [hdot]
      exact ⟨0, [[dot]], rfl, by decide⟩
    rw [clean_eq] at hdot ⊢
    rw [h.parts_text hdot]
    exact ⟨_, _, rfl, fun hmem => (h.names _ hmem).2.2.1 rfl⟩
  · intro hlast
    rw [clean_eq] at hlast ⊢
    exact h.getLast?_text hlast
  · rw [clean_eq, h.isAbs_text, rooted_resolve]
  · rw [← place_resolve, ← place_resolve p, resolve_clean]
    rfl
  · rw [clean_eq p]
    exact h.clean_text

/-- The path that nothing is left of has the component `.`. -/
theorem clean_nothing : clean [] = [dot] ∧ [dot] ∈ parts (clean []) := ⟨rfl, by decide⟩

end SpacePony.Files
