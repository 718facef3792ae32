import Mathlib.Data.List.TakeWhile
import SpacePony.Compiler.Lexer.Scan
import SpacePony.Support.Cut

/-!
# Compiler — triple-quoted strings

What `normalise_string` is to do, by the lines of the string (`normalised`): an empty first line
goes, every line loses the indentation that the lines with something on them share, and a last
line with nothing on it goes.

* `leadingWs_join`, `trimLines_join`: the loops of `normalise_string`, by lines.
* `normalise_exact_iff`: the result is the normalised string exactly when the lines are regular:
  no line with a newline is blank but not empty and shorter than the indentation, and the
  indentation is that of a line that goes on with something else than whitespace.
-/

namespace SpacePony.Lexing

open Nat List Cut

/-! ### The normalised string -/

/-- The indentation of a line: its spaces and tabs at the front. -/
def indent (l : List Char) : Nat := (l.takeWhile fun c => c = ' ' || c = '\t').length

/-- There is only whitespace on the line. -/
def isBlank (l : List Char) : Bool := l.all isSpace

/-- After its indentation the line goes on with something else than whitespace. -/
def isPlain (l : List Char) : Bool :=
  match l.drop (indent l) with
  | [] => false
  | c :: _ => !isSpace c

/-- The smallest indentation of the lines with `p`, `default` when there is none. -/
def minIndent (p : List Char → Bool) (ls : List (List Char)) (default : Nat) : Nat :=
  ls.foldl (fun ws l => if p l && indent l < ws then indent l else ws) default

/-- Remove `ws` characters of indentation, or all of it. -/
def dedent (ws : Nat) (l : List Char) : List Char := l.drop (min ws (indent l))

/-- The lines of a string without an empty first line. -/
def bodyLines (buf : List Char) : List (List Char) × List Char :=
  match cut '\n' buf with
  | ([] :: ls, last) => (ls, last)
  | (['\r'] :: ls, last) => (ls, last)
  | lines => lines

/-- All lines, also the one after the last newline. -/
def allLines (lines : List (List Char) × List Char) : List (List Char) := lines.1 ++ [lines.2]

/-- The indentation that the lines with something on them share; without such a line it is more
than any line has. -/
def commonIndent (lines : List (List Char) × List Char) : Nat :=
  minIndent (fun l => !isBlank l) (allLines lines) (join '\n' lines.1 lines.2).length

/-- The string as it is to be. -/
def normalised (buf : List Char) : List Char :=
  let lines := bodyLines buf
  let ws := commonIndent lines
  join '\n' (lines.1.map (dedent ws)) (if isBlank lines.2 then [] else dedent ws lines.2)

/-- The lines on which the loops do what they are to do: a line with a newline is empty or at
least as indented as what is removed, and no line is less indented than the plain lines, those
that go on after their spaces and tabs with something else than whitespace. -/
structure Regular (lines : List (List Char) × List Char) : Prop where
  indented : ∀ l ∈ lines.1, l = [] ∨ commonIndent lines ≤ indent l
  plain : ∀ l ∈ allLines lines, isBlank l = false →
    ∃ l' ∈ allLines lines, isPlain l' = true ∧ indent l' ≤ indent l

/-! ### Indentation -/

variable {c : Char}

section
variable {p : List Char → Bool} {l : List Char} {ls : List (List Char)} {ws d : Nat}

theorem indent_le_length (l : List Char) : indent l ≤ l.length := (List.takeWhile_prefix _).length_le

theorem mem_take_indent (h : c ∈ l.take (indent l)) : c = ' ' ∨ c = '\t' := by
  have e : l.take (indent l) = l.takeWhile fun c => c = ' ' || c = '\t' :=
    prefix_iff_eq_take.1 (List.takeWhile_prefix _) |>.symm
  rw [e] at h
  simpa using mem_takeWhile_imp h

theorem isSpace_of_mem_indent (h : c ∈ l.take (indent l)) : isSpace c = true := by
  rcases mem_take_indent h with rfl | rfl <;> rfl

/-- What is left of a line when no more than its indentation is removed is blank if the line is. -/
theorem isBlank_drop (h : ws ≤ indent l) : isBlank (l.drop ws) = isBlank l := by
  have hsplit : isBlank l = (isBlank (l.take ws) && isBlank (l.drop ws)) := by
    rw [isBlank, isBlank, isBlank, ← all_append, take_append_drop]
  have hfront : isBlank (l.take ws) = true := by
    rw [isBlank, all_eq_true]
    exact fun c hc => isSpace_of_mem_indent (take_subset_take_left _ h hc)
  rw [hsplit, hfront, Bool.true_and]

theorem not_isBlank_of_isPlain (h : isPlain l = true) : isBlank l = false := by
  rw [← isBlank_drop (le_refl (indent l))]
  unfold isPlain at h
  split at h
  · cases h
  rename_i c cs e
  rw [e, isBlank, all_cons]
  simp only [Bool.not_eq_true'] at h
  rw [h, Bool.false_and]

theorem indent_lt_length (h : isBlank l = false) : indent l < l.length := by
  refine lt_of_le_of_ne (indent_le_length l) fun e => ?_
  have hnil : l.drop (indent l) = [] := by rw [e, drop_length]
  rw [← isBlank_drop (le_refl (indent l)), hnil] at h
  cases h

theorem minIndent_cons (p : List Char → Bool) (l : List Char) (ls : List (List Char)) (d : Nat) :
    minIndent p (l :: ls) d = minIndent p ls (if p l && indent l < d then indent l else d) := rfl

theorem minIndent_le (p : List Char → Bool) (ls : List (List Char)) (d : Nat) :
    minIndent p ls d ≤ d ∧ ∀ l ∈ ls, p l = true → minIndent p ls d ≤ indent l := by
  induction ls generalizing d with
  | nil => exact ⟨le_rfl, fun l hl => absurd hl not_mem_nil⟩
  | cons l ls ih =>
    rw [minIndent_cons]
    obtain ⟨hd, hmem⟩ := ih (if p l && indent l < d then indent l else d)
    have hstep : (if p l && indent l < d then indent l else d) ≤ d ∧
        (p l = true → (if p l && indent l < d then indent l else d) ≤ indent l) := by
      split
      case isTrue h =>
        simp only [Bool.and_eq_true, decide_eq_true_eq] at h
        exact ⟨h.2.le, fun _ => le_rfl⟩
      case isFalse h =>
        refine ⟨le_rfl, fun hp => ?_⟩
        simp only [hp, Bool.true_and, decide_eq_true_eq] at h
        omega
    refine ⟨hd.trans hstep.1, forall_mem_cons.2 ⟨fun hp => hd.trans (hstep.2 hp), hmem⟩⟩

/-- The smallest indentation is that of some line. -/
theorem minIndent_attained (h : minIndent p ls d ≠ d) :
    ∃ l ∈ ls, p l = true ∧ indent l = minIndent p ls d := by
  induction ls generalizing d with
  | nil => exact absurd rfl h
  | cons l ls ih =>
    rw [minIndent_cons] at h ⊢
    by_cases e : minIndent p ls (if p l && indent l < d then indent l else d)
        = if p l && indent l < d then indent l else d
    · rw [e] at h ⊢
      split at h
      case isTrue hp =>
        rw [if_pos hp]
        exact ⟨l, .head _, (Bool.and_eq_true _ _ ▸ hp).1, rfl⟩
      case isFalse => exact absurd rfl h
    · obtain ⟨l', hl', hp, he⟩ := ih e
      exact ⟨l', .tail _ hl', hp, he⟩

end

/-! ### The whitespace loop -/

section
variable {l last : List Char} {ls : List (List Char)} {ws n : Nat}

theorem indent_cons (hc : c = ' ' ∨ c = '\t') (l : List Char) : indent (c :: l) = indent l + 1 := by
  rw [indent, takeWhile_cons_of_pos (by simpa using hc), length_cons, indent]

theorem indent_cons_of_ne (hc : ¬ (c = ' ' ∨ c = '\t')) (l : List Char) : indent (c :: l) = 0 := by
  rw [indent, takeWhile_cons_of_neg (by simpa using hc), length_nil]

/-- Once the indentation of a line is over, its other characters change nothing. -/
theorem foldl_wsStep_rest (h : '\n' ∉ l) (nonWs : Bool) :
    l.foldl wsStep ⟨ws, n, false, nonWs⟩ = ⟨ws, n, false, nonWs⟩ := by
  induction l with
  | nil => rfl
  | cons c l ih =>
    have hc : c ≠ '\n' := fun e => h (e ▸ (.head _))
    have hstep : wsStep ⟨ws, n, false, nonWs⟩ c = ⟨ws, n, false, nonWs⟩ := by simp [wsStep, hc]
    rw [foldl_cons, hstep, ih fun hm => h (.tail _ hm)]

/-- A newline ends a line: what the line has added to the smallest indentation is kept. -/
theorem wsStep_newline (st : WsState) (h : st.inLeadingWs = true → st.hasNonWs = false) :
    wsStep st '\n' = ⟨st.ws, 0, true, false⟩ := by
  rcases st with ⟨ws, n, lead, nonWs⟩
  cases lead with
  | true =>
    have hn : nonWs = false := h rfl
    subst hn
    rfl
  | false => rfl

/-- One line of the loop. -/
theorem foldl_wsStep_line (ws n : Nat) (h : '\n' ∉ l) : (l.foldl wsStep ⟨ws, n, true, false⟩).ws
        = (if isPlain l && n + indent l < ws then n + indent l else ws) ∧
      ((l.foldl wsStep ⟨ws, n, true, false⟩).inLeadingWs = true →
        (l.foldl wsStep ⟨ws, n, true, false⟩).hasNonWs = false) := by
  induction l generalizing n with
  | nil => exact ⟨rfl, fun _ => rfl⟩
  | cons c l ih =>
    have hc : c ≠ '\n' := fun e => h (e ▸ (.head _))
    have hl : '\n' ∉ l := fun hm => h (.tail _ hm)
    by_cases hspace : c = ' ' ∨ c = '\t'
    · have hstep : wsStep ⟨ws, n, true, false⟩ c = ⟨ws, n + 1, true, false⟩ := by
        simp [wsStep, hspace, hc]
      have hplain : isPlain (c :: l) = isPlain l := by
        rw [isPlain, isPlain, indent_cons hspace, drop_succ_cons]
      rw [foldl_cons, hstep, hplain, indent_cons hspace,
        show n + (indent l + 1) = n + 1 + indent l by omega]
      exact ih _ hl
    have hplain : isPlain (c :: l) = !isSpace c := by
      rw [isPlain, indent_cons_of_ne hspace]
      rfl
    have hstep : wsStep ⟨ws, n, true, false⟩ c
        = ⟨if !isSpace c && n < ws then n else ws, n, false, !isSpace c⟩ := by
      simp [wsStep, hspace, hc]
    rw [foldl_cons, hstep, foldl_wsStep_rest hl, hplain, indent_cons_of_ne hspace]
    exact ⟨rfl, fun h => by cases h⟩

/-- **The whitespace loop finds the smallest indentation of the plain lines.** -/
theorem foldl_wsStep_join (hls : ∀ l ∈ ls, '\n' ∉ l) (hlast : '\n' ∉ last) :
    ((join '\n' ls last).foldl wsStep ⟨ws, 0, true, false⟩).ws
      = minIndent isPlain (ls ++ [last]) ws := by
  induction ls generalizing ws with
  | nil =>
    rw [join_nil, (foldl_wsStep_line ws 0 hlast).1, zero_add]
    rfl
  | cons l ls ih =>
    obtain ⟨hl, hls⟩ := forall_mem_cons.1 hls
    obtain ⟨hws, hlead⟩ := foldl_wsStep_line ws 0 hl
    rw [join_cons, foldl_append, foldl_cons, wsStep_newline _ hlead, hws, zero_add,
      ih hls, cons_append, minIndent_cons]

/-- The scan for leading blanks finds the least indent over all lines that are not blank. -/
theorem leadingWs_join (hls : ∀ l ∈ ls, '\n' ∉ l) (hlast : '\n' ∉ last) :
    leadingWs (join '\n' ls last)
      = minIndent isPlain (ls ++ [last]) (join '\n' ls last).length :=
  foldl_wsStep_join hls hlast

end

/-! ### The trimming loops -/

/-- What trimming leaves of a line and its newline. -/
def trimLine (ws : Nat) (l : List Char) : List Char :=
  if l = [] then ['\n'] else (l ++ ['\n']).drop ws

section
variable {l last : List Char} {ls : List (List Char)} {ws n k : Nat}

theorem ne_newline (h : '\n' ∉ l) : ∀ c ∈ l, decide (c ≠ '\n') = true :=
  fun _ hc => decide_eq_true fun e => h (e ▸ hc)

theorem takeWhile_line (h : '\n' ∉ l) (rest : List Char) :
    (l ++ '\n' :: rest).takeWhile (· ≠ '\n') = l := by
  rw [takeWhile_append_of_pos (ne_newline h)]
  simp

theorem dropWhile_line (h : '\n' ∉ l) (rest : List Char) :
    (l ++ '\n' :: rest).dropWhile (· ≠ '\n') = '\n' :: rest := by
  rw [dropWhile_append_of_pos (ne_newline h)]
  simp

/-- **The trimming loop trims every line**, its newline counted as part of it. -/
theorem trimLines_join (hls : ∀ l ∈ ls, '\n' ∉ l) (hlast : '\n' ∉ last) (hn : ls.length < n) :
    trimLines ws n (join '\n' ls last) = ls.flatMap (trimLine ws) ++ last.drop ws := by
  induction ls generalizing n with
  | nil =>
    obtain ⟨n, rfl⟩ := exists_eq_succ_of_ne_zero (ne_of_gt hn)
    rw [join_nil, trimLines, takeWhile_eq_self_iff.2 (ne_newline hlast),
      dropWhile_eq_nil_iff.2 (ne_newline hlast)]
    rfl
  | cons l ls ih =>
    obtain ⟨n, rfl⟩ := exists_eq_succ_of_ne_zero (ne_of_gt (zero_lt_of_lt hn))
    obtain ⟨hl, hls⟩ := forall_mem_cons.1 hls
    rw [join_cons, trimLines, takeWhile_line hl, dropWhile_line hl, flatMap_cons, trimLine]
    simp only [ih hls (lt_of_succ_lt_succ hn)]
    split <;> simp

theorem trimLine_zero (l : List Char) : trimLine 0 l = l ++ ['\n'] := by
  rw [trimLine]
  split
  case isTrue h => rw [h, nil_append]
  case isFalse => rw [drop_zero]

theorem length_le_join (ls : List (List Char)) (last : List Char) :
    ls.length ≤ (join '\n' ls last).length := by
  induction ls with
  | nil => exact zero_le _
  | cons l ls ih =>
    rw [join_cons, length_append, length_cons, length_cons]
    omega

/-- Both branches of `normalise_string` on the indentation. -/
theorem trimmed_eq (hls : ∀ l ∈ ls, '\n' ∉ l) (hlast : '\n' ∉ last) (ws : Nat) :
    (if 0 < ws then trimLines ws ((join '\n' ls last).length + 1) (join '\n' ls last)
      else join '\n' ls last) = ls.flatMap (trimLine ws) ++ last.drop ws := by
  split
  case isTrue => exact trimLines_join hls hlast (lt_succ_of_le (length_le_join ls last))
  case isFalse h =>
    obtain rfl : ws = 0 := by omega
    have e : trimLine 0 = (· ++ ['\n']) := funext trimLine_zero
    rw [e, drop_zero]
    rfl

/-- Whitespace at the end is counted on the way to the last newline. -/
theorem trailingWs_append (hl : ∀ c ∈ l, isSpace c = true ∧ c ≠ '\n') (rest : List Char)
    (hrest : rest ≠ []) : trailingWs (l ++ rest) k = trailingWs rest (k + l.length) := by
  induction l generalizing k with
  | nil => rfl
  | cons c l ih =>
    obtain ⟨⟨hc, hne⟩, hl⟩ := forall_mem_cons.1 hl
    obtain ⟨d, before, e⟩ := exists_cons_of_ne_nil (append_ne_nil_of_right_ne_nil l hrest)
    rw [cons_append, e, trailingWs, if_neg hne, if_pos hc, ← e, ih hl, length_cons]
    congr 1
    omega

/-- Anything but whitespace after the last newline keeps it all. -/
theorem trailingWs_of_not_blank (h : '\n' ∉ l) (hb : isBlank l = false) (rest : List Char) :
    trailingWs (l ++ rest) k = 0 := by
  induction l generalizing k with
  | nil => cases hb
  | cons c l ih =>
    have hc : c ≠ '\n' := fun e => h (e ▸ (.head _))
    have hl : '\n' ∉ l := fun hm => h (.tail _ hm)
    rw [isBlank, all_cons] at hb
    cases hrest : l ++ rest with
    | nil => rw [cons_append, hrest]; rfl
    | cons d before =>
      rw [cons_append, hrest, trailingWs, if_neg hc]
      split
      case isTrue hs =>
        rw [← hrest]
        rw [hs, Bool.true_and] at hb
        exact ih hl hb
      case isFalse => rfl

/-- Without a newline nothing is trimmed. -/
theorem trailingWs_of_not_mem (h : '\n' ∉ l) : trailingWs l k = 0 := by
  induction l generalizing k with
  | nil => rfl
  | cons c l ih =>
    have hc : c ≠ '\n' := fun e => h (e ▸ (.head _))
    have hl : '\n' ∉ l := fun hm => h (.tail _ hm)
    cases l with
    | nil => rfl
    | cons d before =>
      rw [trailingWs, if_neg hc]
      split
      · exact ih hl
      · rfl

/-- **The trailing loop drops a blank last line**, when its newline is not the first character. -/
theorem trailing_join (hlast : '\n' ∉ last) : (join '\n' ls last).take
        ((join '\n' ls last).length - trailingWs (join '\n' ls last).reverse 0)
      = if isBlank last = true ∧ 2 ≤ (join '\n' ls []).length then join '\n' ls []
        else join '\n' ls last := by
  obtain ⟨t, ht⟩ : ∃ t, t = trailingWs (join '\n' ls last).reverse 0 := ⟨_, rfl⟩
  have hwhole : t = 0 → (join '\n' ls last).take ((join '\n' ls last).length - t)
      = join '\n' ls last := by
    rintro rfl
    rw [Nat.sub_zero, take_length]
  rw [← ht]
  rcases eq_nil_or_concat ls with rfl | ⟨ls', l, rfl⟩
  · have hzero : t = 0 := by
      rw [ht, join_nil]
      exact trailingWs_of_not_mem fun hm => hlast (mem_reverse.1 hm)
    rw [hwhole hzero, if_neg fun h => absurd h.2 (by decide)]
  rw [concat_eq_append] at ht hwhole ⊢
  obtain ⟨before, hbefore⟩ : ∃ before, before = join '\n' ls' [] ++ l := ⟨_, rfl⟩
  have hfront : join '\n' (ls' ++ [l]) [] = before ++ ['\n'] := by
    rw [hbefore]
    simp [join]
  have hall : join '\n' (ls' ++ [l]) last = before ++ '\n' :: last := by
    rw [← nil_append last, ← join_append, hfront]
    simp
  have hrev : (join '\n' (ls' ++ [l]) last).reverse = last.reverse ++ '\n' :: before.reverse := by
    rw [hall]
    simp
  have hmem : '\n' ∉ last.reverse := fun hm => hlast (mem_reverse.1 hm)
  have hrevblank : isBlank last.reverse = isBlank last := all_reverse
  have hlen : 2 ≤ (join '\n' (ls' ++ [l]) []).length ↔ before ≠ [] := by
    rw [hfront, length_append, length_singleton, ← length_pos_iff]
    omega
  cases hb : isBlank last with
  | false =>
    have hzero : t = 0 := by
      rw [ht, hrev]
      exact trailingWs_of_not_blank hmem (hrevblank.trans hb) _
    rw [hwhole hzero, if_neg fun h => absurd h.1 (by decide)]
  | true =>
    have hspace : ∀ c ∈ last.reverse, isSpace c = true ∧ c ≠ '\n' := by
      intro c hc
      have hall := all_eq_true.1 hb
      exact ⟨hall c (mem_reverse.1 hc), fun e => hmem (e ▸ hc)⟩
    rw [hrev, trailingWs_append hspace _ (cons_ne_nil _ _), Nat.zero_add, length_reverse] at ht
    by_cases hne : before = []
    · have hzero : t = 0 := by
        rw [ht, hne]
        rfl
      rw [hwhole hzero, if_neg fun h => hlen.1 h.2 hne]
    obtain ⟨d, more, e⟩ := exists_cons_of_ne_nil (mt reverse_eq_nil_iff.1 hne)
    have hlast : t = last.length := by rw [ht, e, trailingWs, if_pos rfl]
    have hcount : (before ++ '\n' :: last).length - last.length
        = (before ++ ['\n']).length := by
      simp only [length_append, length_cons, length_nil]
      omega
    rw [if_pos ⟨rfl, hlen.2 hne⟩, hlast, hall, hfront, hcount,
      show before ++ '\n' :: last = (before ++ ['\n']) ++ last by simp, take_left]

end

/-! ### The string by its lines -/

section
variable {buf : List Char}

/-- The first step of `normalise_string`. -/
def withoutFirst (buf : List Char) : List Char :=
  match buf with
  | '\r' :: '\n' :: rest => rest
  | '\n' :: rest => rest
  | buf => buf

/-- The first step of `normalise_string` leaves the body lines. -/
theorem withoutFirst_eq (buf : List Char) :
    withoutFirst buf = join '\n' (bodyLines buf).1 (bodyLines buf).2 := by
  unfold withoutFirst
  split
  case h_1 rest =>
    have e : bodyLines ('\r' :: '\n' :: rest) = cut '\n' rest := by
      have hcut : cut '\n' ('\r' :: '\n' :: rest) = (['\r'] :: (cut '\n' rest).1, (cut '\n' rest).2) :=
        cut_append_sep (l := ['\r']) (by decide) rest
      unfold bodyLines
      rw [hcut]
      rfl
    rw [e, join_cut]
  case h_2 rest =>
    have e : bodyLines ('\n' :: rest) = cut '\n' rest := by rw [bodyLines, cut, if_pos rfl]
    rw [e, join_cut]
  case h_3 hr hn =>
    have e : bodyLines buf = cut '\n' buf := by
      have hback := join_cut '\n' buf
      unfold bodyLines
      split
      case h_1 ls last hc =>
        rw [hc, join_cons] at hback
        exact absurd hback.symm (hn _)
      case h_2 ls last hc =>
        rw [hc, join_cons] at hback
        exact absurd hback.symm (hr _)
      case h_3 => rfl
    rw [e, join_cut]

theorem not_mem_bodyLines (buf : List Char) :
    (∀ l ∈ (bodyLines buf).1, '\n' ∉ l) ∧ '\n' ∉ (bodyLines buf).2 := by
  have h := not_mem_cut '\n' buf
  unfold bodyLines
  split
  case h_1 ls last hc | h_2 ls last hc =>
    rw [hc] at h
    exact ⟨(forall_mem_cons.1 h.1).2, h.2⟩
  case h_3 => exact h

/-- The indentation that `normalise_string` removes. -/
def plainIndent (lines : List (List Char) × List Char) : Nat :=
  minIndent isPlain (allLines lines) (join '\n' lines.1 lines.2).length

/-- **`normalise_string` by the lines.** -/
theorem normaliseString_eq (h : '\n' ∈ buf) :
    ∃ out, out = (bodyLines buf).1.flatMap (trimLine (plainIndent (bodyLines buf)))
        ++ (bodyLines buf).2.drop (plainIndent (bodyLines buf)) ∧
      normaliseString buf = out.take (out.length - trailingWs out.reverse 0) := by
  obtain ⟨hls, hlast⟩ := not_mem_bodyLines buf
  refine ⟨_, rfl, ?_⟩
  rw [← trimmed_eq hls hlast, plainIndent, allLines, ← leadingWs_join hls hlast, ← withoutFirst_eq,
    normaliseString.eq_def, if_pos h]
  rfl

/-! ### Regular lines -/

variable {lines : List (List Char) × List Char}

variable {l : List Char} {ws : Nat}

theorem length_le_body (h : l ∈ allLines lines) :
    l.length ≤ (join '\n' lines.1 lines.2).length := by
  rw [allLines, mem_append, mem_singleton] at h
  rw [join, length_append]
  rcases h with h | rfl
  · obtain ⟨front, back, e⟩ := append_of_mem h
    rw [e, flatMap_append, flatMap_cons]
    simp only [length_append, length_singleton]
    omega
  · exact le_add_left _ _

theorem plain_of_le (hl : l ∈ allLines lines) (hb : isBlank l = false)
    (h : plainIndent lines ≤ indent l) :
    ∃ l' ∈ allLines lines, isPlain l' = true ∧ indent l' ≤ indent l := by
  have hlt : plainIndent lines < (join '\n' lines.1 lines.2).length :=
    lt_of_le_of_lt h (lt_of_lt_of_le (indent_lt_length hb) (length_le_body hl))
  obtain ⟨l', hl', hp, he⟩ := minIndent_attained hlt.ne
  exact ⟨l', hl', hp, he ▸ h⟩

theorem commonIndent_le_plainIndent (lines : List (List Char) × List Char) :
    commonIndent lines ≤ plainIndent lines := by
  obtain ⟨hd, hmem⟩ := minIndent_le (fun l => !isBlank l) (allLines lines)
    (join '\n' lines.1 lines.2).length
  by_cases h : plainIndent lines = (join '\n' lines.1 lines.2).length
  · exact h ▸ hd
  obtain ⟨l, hl, hp, he⟩ := minIndent_attained h
  have hb : (!isBlank l) = true := by rw [not_isBlank_of_isPlain hp]; rfl
  exact (hmem l hl hb).trans he.le

theorem commonIndent_le (hl : l ∈ allLines lines) (hb : isBlank l = false) :
    commonIndent lines ≤ indent l :=
  (minIndent_le (fun l => !isBlank l) (allLines lines) _).2 l hl (by simp [hb])

theorem Regular.plainIndent_eq (h : Regular lines) : plainIndent lines = commonIndent lines := by
  refine le_antisymm ?_ (commonIndent_le_plainIndent lines)
  obtain ⟨hd, hmem⟩ := minIndent_le isPlain (allLines lines) (join '\n' lines.1 lines.2).length
  by_cases hc : commonIndent lines = (join '\n' lines.1 lines.2).length
  · exact hc ▸ hd
  obtain ⟨l, hl, hb, he⟩ := minIndent_attained hc
  obtain ⟨l', hl', hp, hle⟩ := h.plain l hl (by simpa using hb)
  exact (hmem l' hl' hp).trans (hle.trans he.le)

/-- A line that keeps its newline is trimmed of no more than itself. -/
theorem trimLine_of_le (h : l = [] ∨ ws ≤ l.length) : trimLine ws l = l.drop ws ++ ['\n'] := by
  rw [trimLine]
  split
  case isTrue e => rw [e, drop_nil, nil_append]
  case isFalse e => rw [drop_append_of_le_length (h.resolve_left e)]

theorem flatMap_trimLine {ls : List (List Char)} (h : ∀ l ∈ ls, l = [] ∨ ws ≤ l.length)
    (last : List Char) : ls.flatMap (trimLine ws) ++ last = join '\n' (ls.map (drop ws)) last := by
  rw [join, flatMap_map]
  congr 1
  exact flatMap_congr fun l hl => trimLine_of_le (h l hl)

theorem not_mem_drop (h : '\n' ∉ l) : '\n' ∉ l.drop ws :=
  fun hm => h (mem_of_mem_drop hm)

/-- On regular lines the result is the normalised string. -/
theorem normalise_of_regular (h : '\n' ∈ buf) (hr : Regular (bodyLines buf)) :
    normaliseString buf = normalised buf := by
  obtain ⟨hls, hlast⟩ := not_mem_bodyLines buf
  obtain ⟨out, hout, e⟩ := normaliseString_eq h
  have hindent : ∀ l ∈ (bodyLines buf).1, l = [] ∨ plainIndent (bodyLines buf) ≤ indent l := by
    rw [hr.plainIndent_eq]
    exact hr.indented
  rw [flatMap_trimLine fun l hl => (hindent l hl).imp_right fun h => h.trans (indent_le_length l)]
    at hout
  have hmap : (bodyLines buf).1.map (drop (plainIndent (bodyLines buf)))
      = (bodyLines buf).1.map (dedent (commonIndent (bodyLines buf))) := by
    refine map_congr_left fun l hl => ?_
    rcases hindent l hl with rfl | hle
    · simp [dedent]
    · rw [dedent, ← hr.plainIndent_eq, min_eq_left hle]
  rw [hmap] at hout
  rw [e, hout, trailing_join (not_mem_drop hlast), normalised]
  have hlastmem : (bodyLines buf).2 ∈ allLines (bodyLines buf) := by simp [allLines]
  cases hb : isBlank (bodyLines buf).2 with
  | false =>
    have hle := commonIndent_le hlastmem hb
    have hkeep : isBlank ((bodyLines buf).2.drop (plainIndent (bodyLines buf))) = false := by
      rw [hr.plainIndent_eq, isBlank_drop hle, hb]
    rw [if_neg fun h => by rw [hkeep] at h; cases h.1]
    simp only [Bool.false_eq_true, if_false]
    rw [dedent, ← hr.plainIndent_eq, min_eq_left (hr.plainIndent_eq ▸ hle)]
  | true =>
    have hrest : isBlank ((bodyLines buf).2.drop (plainIndent (bodyLines buf))) = true :=
      all_eq_true.2 fun c hc => all_eq_true.1 hb c (mem_of_mem_drop hc)
    simp only [if_true]
    split
    case isTrue => rfl
    case isFalse hshort =>
      have hfew := fun hlen => hshort ⟨hrest, hlen⟩
      -- with at most one line before it there is nothing but whitespace, and all of it goes
      have hnone : ∀ l ∈ allLines (bodyLines buf), isBlank l = true := by
        intro l hl
        rw [allLines, mem_append, mem_singleton] at hl
        rcases hl with hl | rfl
        · by_contra hnb
          have hnb : isBlank l = false := Bool.eq_false_iff.2 hnb
          have hlt := indent_lt_length hnb
          obtain ⟨front, back, e'⟩ := append_of_mem hl
          rw [e', join, map_append, map_cons, flatMap_append, flatMap_cons] at hfew
          refine hfew ?_
          have hd : 1 ≤ (dedent (commonIndent (bodyLines buf)) l).length := by
            rw [dedent, length_drop]
            omega
          simp only [length_append, length_singleton]
          omega
        · exact hb
      have hall : plainIndent (bodyLines buf)
          = (join '\n' (bodyLines buf).1 (bodyLines buf).2).length := by
        by_contra hne
        obtain ⟨l, hl, hp, -⟩ := minIndent_attained hne
        have := not_isBlank_of_isPlain hp
        rw [hnone l hl] at this
        cases this
      rw [drop_eq_nil_of_le (hall ▸ length_le_body hlastmem)]

/-! ### Irregular lines -/

theorem count_trimLine (h : '\n' ∉ l) :
    (trimLine ws l).count '\n' = if l = [] ∨ ws ≤ l.length then 1 else 0 := by
  split
  case isTrue hle =>
    rw [trimLine_of_le hle, count_append, count_eq_zero_of_not_mem (not_mem_drop h)]
    rfl
  case isFalse hlt =>
    obtain ⟨hne, hlt⟩ := not_or.1 hlt
    rw [trimLine, if_neg hne, drop_eq_nil_of_le (by simp; omega)]
    rfl

/-- Where as many newlines are left as there are lines, every line has kept its own. -/
theorem kept_of_count {ls : List (List Char)} (hls : ∀ l ∈ ls, '\n' ∉ l) :
    (ls.flatMap (trimLine ws)).count '\n' ≤ ls.length ∧
      ((ls.flatMap (trimLine ws)).count '\n' = ls.length → ∀ l ∈ ls, l = [] ∨ ws ≤ l.length) := by
  induction ls with
  | nil => exact ⟨le_rfl, fun _ l hl => absurd hl not_mem_nil⟩
  | cons l ls ih =>
    obtain ⟨hl, hls⟩ := forall_mem_cons.1 hls
    obtain ⟨hle, hall⟩ := ih hls
    rw [flatMap_cons, count_append, count_trimLine hl, length_cons]
    by_cases hk : l = [] ∨ ws ≤ l.length
    · rw [if_pos hk]
      exact ⟨by omega, fun h => forall_mem_cons.2 ⟨hk, hall (by omega)⟩⟩
    · rw [if_neg hk]
      exact ⟨by omega, fun h => absurd h (by omega)⟩

/-- Trimming the end removes no newline. -/
theorem count_trailing (out : List Char) :
    (out.take (out.length - trailingWs out.reverse 0)).count '\n' = out.count '\n' := by
  obtain ⟨hls, hlast⟩ := not_mem_cut '\n' out
  have e := join_cut '\n' out
  rw [← e, trailing_join hlast]
  split
  · rw [count_join hls not_mem_nil, count_join hls hlast]
  · rfl

/-- Where the result is the normalised string the lines are regular. -/
theorem regular_of_normalise (h : '\n' ∈ buf) (he : normaliseString buf = normalised buf) :
    Regular (bodyLines buf) := by
  obtain ⟨hls, hlast⟩ := not_mem_bodyLines buf
  obtain ⟨out, hout, e⟩ := normaliseString_eq h
  have hlastmem : (bodyLines buf).2 ∈ allLines (bodyLines buf) := by simp [allLines]
  have hdedent : ∀ l ∈ (bodyLines buf).1.map (dedent (commonIndent (bodyLines buf))), '\n' ∉ l := by
    intro l hl
    obtain ⟨l', hl', rfl⟩ := mem_map.1 hl
    exact not_mem_drop (hls l' hl')
  obtain ⟨last, hspec⟩ : ∃ last, last = if isBlank (bodyLines buf).2 then []
      else dedent (commonIndent (bodyLines buf)) (bodyLines buf).2 := ⟨_, rfl⟩
  have hnl : '\n' ∉ last := by
    rw [hspec]
    split
    · exact not_mem_nil
    · exact not_mem_drop hlast
  have hnorm : normalised buf
      = join '\n' ((bodyLines buf).1.map (dedent (commonIndent (bodyLines buf)))) last := by
    rw [hspec, normalised]
  -- no newline is lost, so every line has kept its own
  have hkept : ∀ l ∈ (bodyLines buf).1, l = [] ∨ plainIndent (bodyLines buf) ≤ l.length := by
    refine (kept_of_count hls).2 ?_
    have hcount := count_trailing out
    rw [← e, he, hnorm, count_join hdedent hnl, length_map, hout, count_append,
      count_eq_zero_of_not_mem (not_mem_drop hlast)] at hcount
    omega
  rw [flatMap_trimLine hkept] at hout
  obtain ⟨last', hlast', e'⟩ : ∃ last', (last' = [] ∨
        last' = (bodyLines buf).2.drop (plainIndent (bodyLines buf))) ∧
      normaliseString buf
        = join '\n' ((bodyLines buf).1.map (drop (plainIndent (bodyLines buf)))) last' := by
    rw [e, hout, trailing_join (not_mem_drop hlast)]
    split
    · exact ⟨_, .inl rfl, rfl⟩
    · exact ⟨_, .inr rfl, rfl⟩
  have hdrop : ∀ l ∈ (bodyLines buf).1.map (drop (plainIndent (bodyLines buf))), '\n' ∉ l := by
    intro l hl
    obtain ⟨l', hl', rfl⟩ := mem_map.1 hl
    exact not_mem_drop (hls l' hl')
  have hnl' : '\n' ∉ last' := by
    rcases hlast' with rfl | rfl
    · exact not_mem_nil
    · exact not_mem_drop hlast
  obtain ⟨hlines, hends⟩ := join_inj hdrop hnl' hdedent hnl (e'.symm.trans (he.trans hnorm))
  have hle := commonIndent_le_plainIndent (bodyLines buf)
  -- each line has lost the same characters on both sides
  have hindent : ∀ l ∈ (bodyLines buf).1, l = [] ∨ plainIndent (bodyLines buf) ≤ indent l := by
    intro l hl
    refine or_iff_not_imp_left.2 fun hne => ?_
    have hlen := congrArg length (map_inj_left.1 hlines l hl)
    have hshort := (hkept l hl).resolve_left hne
    have hindent := indent_le_length l
    rw [dedent, length_drop, length_drop] at hlen
    omega
  have hlastindent : isBlank (bodyLines buf).2 = false →
      plainIndent (bodyLines buf) ≤ indent (bodyLines buf).2 := by
    intro hb
    have hcommon := commonIndent_le hlastmem hb
    have hlt := indent_lt_length hb
    rw [hspec, hb] at hends
    simp only [Bool.false_eq_true, if_false] at hends
    rw [dedent, min_eq_left hcommon] at hends
    have hlen := congrArg length hends
    rw [length_drop] at hlen
    rcases hlast' with rfl | rfl
    · rw [length_nil] at hlen
      omega
    · rw [length_drop] at hlen
      omega
  refine ⟨fun l hl => (hindent l hl).imp_right hle.trans, fun l hl hb => plain_of_le hl hb ?_⟩
  have hmem := hl
  rw [allLines, mem_append, mem_singleton] at hmem
  rcases hmem with hmem | rfl
  · refine (hindent l hmem).resolve_left fun hnil => ?_
    rw [hnil] at hb
    cases hb
  · exact hlastindent hb

/-- **Triple-quoted strings are normalised on regular lines, and on no others.** -/
theorem normalise_exact_iff (buf : List Char) (h : '\n' ∈ buf) :
    normaliseString buf = normalised buf ↔ Regular (bodyLines buf) :=
  ⟨regular_of_normalise h, normalise_of_regular h⟩

/-- An indented string of two lines with an empty one between them. -/
theorem normalise_exact_iff_two_lines :
    normaliseString "\n  a\n\n  b\n".toList = normalised "\n  a\n\n  b\n".toList :=
  (normalise_exact_iff _ (by decide)).2 ⟨by decide, by decide⟩

/-- A blank line with less indentation than the others loses its newline as well. -/
theorem short_blank_line_lost : normaliseString "\n  a\n \n  b\n".toList = "a\nb\n".toList ∧
      normalised "\n  a\n \n  b\n".toList = "a\n\nb\n".toList := by
  decide

end

end SpacePony.Lexing
