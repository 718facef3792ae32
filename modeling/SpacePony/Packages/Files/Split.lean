import SpacePony.Packages.Files.Join

/-!
# Packages — files — what `split` returns

The pair that is returned (`split_eq`) is cut at the last separator (`rfind_slash`).
`split_keeps_iff` says which paths `join` puts together again.
-/

namespace SpacePony.Files

open Stack List

section
variable {H t p : Bytes}

/-- **The last separator.** -/
theorem rfind_slash (ht : slash ∉ t) : rfind (H ++ slash :: t) slash = some H.length := by
  have hlength : (H ++ slash :: t).length = H.length + t.length + 1 := by
    simp
    omega
  have hindex : offsetToIndex (H ++ slash :: t) (-1) = some (H.length + t.length) := by
    have hlast : (-1 : ℤ) + (H ++ slash :: t).length = ((H.length + t.length : ℕ) : ℤ) := by
      rw [hlength]
      omega
    rw [offsetToIndex, if_pos (by decide), hlast, if_pos (Int.natCast_nonneg _), Int.toNat_natCast]
  have hat : (H ++ slash :: t)[H.length]? = some slash := by simp
  rw [rfind, hindex]
  show (if H.length + t.length < (H ++ slash :: t).length then _ else _) = _
  rw [if_pos (by omega)]
  refine rfindFrom_eq_some (Nat.le_add_right _ _) hat fun k hk hle hsome => ht ?_
  obtain ⟨j, rfl⟩ := Nat.exists_eq_add_of_lt hk
  rw [getElem?_append_right (by omega)] at hsome
  rw [show H.length + j + 1 - H.length = j + 1 by omega, getElem?_cons_succ] at hsome
  exact mem_of_getElem? hsome

/-- A path with a separator, at its last one. -/
theorem exists_last (h : slash ∈ p) : ∃ H t, p = H ++ slash :: t ∧ slash ∉ t := by
  obtain ⟨H, t, hp, ht⟩ := eq_append_cons_of_mem (mem_reverse.2 h)
  refine ⟨t.reverse, H.reverse, ?_, fun hmem => ht (mem_reverse.1 hmem)⟩
  rw [← reverse_reverse p, hp]
  simp

/-- `split` cuts at the last separator and cleans the head. -/
theorem split_eq (ht : slash ∉ t) : split (H ++ slash :: t) = (clean H, t) := by
  rw [split, rfind_slash ht]
  simp [trim]

theorem base_eq (ht : slash ∉ t) : base (H ++ slash :: t) = t := by
  rw [base, rfind_slash ht]
  simp [trim]

theorem dir_eq (ht : slash ∉ t) : dir (H ++ slash :: t) = clean H := by
  rw [dir, rfind_slash ht]
  simp [trim]

/-- An absolute path that goes down from the root and comes back to it. -/
def Returns (p : Bytes) : Prop := (resolve p).names = [] ∧ (resolve p).anchored = true

instance : DecidablePred Returns := fun _ => inferInstanceAs (Decidable (_ ∧ _))

/-- **The head and the tail together.** -/
theorem clean_join_split (ht : slash ∉ t) :
    clean (join (clean H) t) = ((resolve H).forget.push t).text := by
  have habs : isAbs t = false := by
    cases t with
    | nil => rfl
    | cons c t => exact decide_eq_false fun hc => ht (hc ▸ (.head _))
  have hgood : ((resolve H).forget.push t).Good := by
    rw [← resolve_clean]
    exact (resolve_good _).push ht
  rw [join_eq habs, components, splitOn_eq_singleton ht, resolve_clean]
  exact hgood.clean_text

/-- What was forgotten matters for a step up from the root that was left. -/
theorem text_forget_push {st : Stack} (h : st.Good) (ht : slash ∉ t) :
    (st.forget.push t).text = (st.push t).text ↔
      ¬ (t = [dot, dot] ∧ st.names = [] ∧ st.anchored = true) := by
  by_cases hforget : st.names = [] ∧ st.anchored = true
  · obtain ⟨hnames, ha⟩ := hforget
    have hforgot : st.forget.anchored = false := by simp [Stack.forget, hnames]
    rcases moveOf_cases ht with ⟨hm, hstay⟩ | ⟨hm, rfl⟩ | ⟨hm, hname⟩
    · refine iff_of_true ?_ ?_
      · rw [Stack.push, Stack.push, hm]
        exact text_congr rfl rfl
      · rintro ⟨rfl, -⟩
        rcases hstay with hstay | hstay <;> cases hstay
    · refine iff_of_false ?_ (not_not.2 ⟨rfl, hnames, ha⟩)
      have hroot := h.anchored ha
      show st.forget.up.text ≠ st.up.text
      have hup : st.forget.up = { st.forget with ups := st.forget.ups + 1 } :=
        up_free hnames hforgot
      rw [up_anchored hnames ha, hup]
      have hold : st.text = sep := by
        rw [text_nil (by rw [Stack.parts, hroot.2, hnames]; rfl), if_pos hroot.1]
      have hnew : ({ st.forget with ups := st.forget.ups + 1 } : Stack).text = [slash, dot, dot] := by
        have hparts : ({ st.forget with ups := st.forget.ups + 1 } : Stack).parts =
            [] ++ [[dot, dot]] := by
          show List.replicate (st.ups + 1) _ ++ st.names = _
          rw [hroot.2, hnames]
          rfl
        rw [text_concat hparts (by decide)]
        show st.root ++ _ ++ _ = _
        rw [Stack.root, if_pos hroot.1]
        rfl
      rw [hold, hnew]
      decide
    · refine iff_of_true ?_ fun hall => hname.2.2.1 hall.1
      rw [Stack.push, Stack.push, hm]
      exact text_congr rfl rfl
  have hsame : st.forget = st := by
    refine Stack.ext rfl rfl rfl ?_
    rw [Stack.forget]
    by_cases hnames : st.names = []
    · have ha : st.anchored = false := by simpa using fun ha => hforget ⟨hnames, ha⟩
      simp [ha]
    · simp [hnames]
  rw [hsame]
  exact iff_of_true rfl fun hall => hforget hall.2

/-- The path goes on below a head that is not empty, and does not go up from a root that the head
returned to. -/
def SplitsWell (p : Bytes) : Prop :=
  ∃ H t, p = H ++ slash :: t ∧ slash ∉ t ∧ H ≠ [] ∧ ¬ (t = [dot, dot] ∧ Returns H)

/-- **Which paths `join` puts together again**: those whose last separator is not their first byte,
unless the tail goes up from a root that the head returned to. -/
theorem split_keeps_iff (p : Bytes) (h : slash ∈ p) :
    (clean (join (split p).1 (split p).2) = clean p ∧ slash ∉ (split p).2 ∧
      (split p).2 = base p ∧ dir p = (split p).1) ↔ SplitsWell p := by
  obtain ⟨H, t, rfl, ht⟩ := exists_last h
  have hsplits : SplitsWell (H ++ slash :: t) ↔ H ≠ [] ∧ ¬ (t = [dot, dot] ∧ Returns H) := by
    constructor
    · rintro ⟨H', t', heq, ht', hH', hnot⟩
      have hrfind := rfind_slash (H := H') ht'
      rw [← heq, rfind_slash ht] at hrfind
      obtain ⟨rfl, ⟨⟩⟩ := append_inj heq (Option.some.inj hrfind)
      exact ⟨hH', hnot⟩
    · rintro ⟨hH, hnot⟩
      exact ⟨H, t, rfl, ht, hH, hnot⟩
  rw [hsplits, split_eq ht, base_eq ht, dir_eq ht, clean_join_split ht]
  by_cases hH : H = []
  · subst hH
    refine iff_of_false (fun hall => ?_) fun hall => hall.1 rfl
    -- the head of a path on the root is `.`
    have hrel : isAbs ((resolve []).forget.push t).text = false := by
      have hgood : ((resolve []).forget.push t).Good :=
        ((good_empty false).push ht : ((empty false).push t).Good)
      rw [hgood.isAbs_text]
      have hslash : ∀ c ∈ [t], slash ∉ c := fun c hc => (mem_singleton.1 hc) ▸ ht
      exact ((good_empty false).foldl hslash).2.1
    rw [hall.1, clean_eq, (resolve_good _).isAbs_text, rooted_resolve] at hrel
    cases hrel
  have hresolve : resolve (H ++ slash :: t) = (resolve H).push t := by
    rw [resolve_append hH, components, splitOn_eq_singleton ht]
    rfl
  rw [clean_eq (H ++ slash :: t), hresolve]
  constructor
  · rintro ⟨htext, -⟩
    exact ⟨hH, fun hboth => (text_forget_push (resolve_good H) ht).1 htext hboth⟩
  · rintro ⟨-, hnot⟩
    exact ⟨(text_forget_push (resolve_good H) ht).2 hnot, ht, rfl, rfl⟩

/-- `a/b` is put together again. -/
theorem split_keeps_relative :
    clean (join (split [0x61, slash, 0x62]).1 (split [0x61, slash, 0x62]).2) =
      clean [0x61, slash, 0x62] :=
  ((split_keeps_iff [0x61, slash, 0x62] (by decide)).2
    ⟨[0x61], [0x62], rfl, by decide, by decide, fun h => absurd h.1 (by decide)⟩).1

/-- `/a` is not: it is split into `.` and `a`. -/
theorem split_root : split [slash, 0x61] = ([dot], [0x61]) ∧
    clean (join [dot] [0x61]) = [0x61] ∧ clean [slash, 0x61] = [slash, 0x61] := by decide

end

end SpacePony.Files
