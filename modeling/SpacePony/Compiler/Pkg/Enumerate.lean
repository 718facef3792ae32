import SpacePony.Compiler.Pkg.BuildFlagSet
import Mathlib.Data.List.Nodup

/-!
# Compiler — pkg — the enumeration of configurations

The calls of `buildflagset_next` from `buildflagset_startenum` on, one after the other.  The table
of the flags that are in no group is read in the order of its hash map, which is any order.  After
each call that returns true the odometer shows how many there were before (`at_reading`); so it is
known how often true is returned, no two configurations look the same, and each one is met
(`enumeration_exact`).
-/

namespace SpacePony.Pkg

open List BuildFlagSet
open Prod (fst ext)

/-! ### Calls -/

/-- A set that is being enumerated. -/
structure Enumeration where
  set : BuildFlagSet
  firstConfigReady : Bool

/-- `buildflagset_startenum`. -/
def startenum (set : BuildFlagSet) : Enumeration := ⟨set.startEnum, true⟩

/-- `buildflagset_next`.  Where it returns false, every digit has been set back. -/
def Enumeration.next (e : Enumeration) : Bool × Enumeration :=
  if e.firstConfigReady then (true, { e with firstConfigReady := false })
  else
    match e.set.next with
    | some set => (true, { e with set })
    | none => (false, { e with set := e.set.startEnum })

/-- `buildflagset_configcount`: a double.  Every product is exact until it is out of range. -/
def configcount (set : BuildFlagSet) : Option Nat :=
  if set.configCount Group.all < 2 ^ 1024 then some (set.configCount Group.all) else none

/-- What is left of a number of calls. -/
def afterCalls (e : Enumeration) : Nat → Enumeration
  | 0 => e
  | n + 1 => (afterCalls e n).next.2

/-- The configuration after the call. -/
def shown (set : BuildFlagSet) (n : Nat) : BuildFlagSet := (afterCalls (startenum set) (n + 1)).set

/-- What the call returns. -/
def returned (set : BuildFlagSet) (n : Nat) : Bool := (afterCalls (startenum set) n).next.1

/-- The flags are added, and the table is read in some order. -/
structure Added (flags : List String) (set : BuildFlagSet) : Prop where
  groups : set.haveFlags = (flags.foldl add {}).haveFlags
  table : set.flags.Perm (flags.foldl add {}).flags

/-- The flag is of a group that some added flag is of, or is an added flag of no group. -/
def Enumerated (flags : List String) (f : String) : Prop :=
  match groupOf f with
  | some g => ∃ f' ∈ flags, f' ∈ g.names
  | none => f ∈ flags

variable {flags : List String} {set s s' : BuildFlagSet} {f : String} {g : Group} {n m : Nat}

/-! ### What is added -/

theorem haveFlags_add : (set.add f).haveFlags g = true ↔ set.haveFlags g = true ∨ f ∈ g.names := by
  rw [add]
  cases hf : groupOf f with
  | some g' =>
    rw [← groupOf_eq_some_iff (f := f), hf, Option.some.injEq]
    by_cases e : g = g'
    · subst e
      simp
    · simp [Function.update_of_ne e, show ¬ g' = g from fun h => e h.symm]
  | none =>
    have hno : f ∉ g.names := fun h => by
      rw [groupOf_eq_some_iff.2 h] at hf
      cases hf
    simp only [hno, or_false]
    split <;> rfl

theorem mem_flags_add {f' : String} : f' ∈ (set.add f).flags.map fst ↔
    f' ∈ set.flags.map fst ∨ f' = f ∧ groupOf f = none := by
  rw [add]
  cases hf : groupOf f with
  | some g' => simp
  | none =>
    by_cases hmem : f ∈ set.flags.map fst
    · simp only [if_pos hmem, and_true]
      exact ⟨.inl, fun h => h.elim id fun e => e ▸ hmem⟩
    · simp only [if_neg hmem, map_append, mem_append, map_cons, map_nil, mem_singleton, and_true]

theorem nodup_flags_add (h : (set.flags.map fst).Nodup) : ((set.add f).flags.map fst).Nodup := by
  rw [add]
  cases groupOf f with
  | some g' => exact h
  | none =>
    by_cases hmem : f ∈ set.flags.map fst
    · simp only [if_pos hmem]
      exact h
    simp only [if_neg hmem, map_append, map_cons, map_nil]
    exact nodup_append.2 ⟨h, nodup_singleton f, fun a ha b hb e => hmem (by
      rw [← mem_singleton.1 hb, ← e]
      exact ha)⟩

theorem foldl_add_spec (flags : List String) (set : BuildFlagSet) (h : (set.flags.map fst).Nodup) :
    (∀ g, (flags.foldl add set).haveFlags g = true ↔
      set.haveFlags g = true ∨ ∃ f ∈ flags, f ∈ g.names) ∧
    (∀ f, f ∈ (flags.foldl add set).flags.map fst ↔
      f ∈ set.flags.map fst ∨ f ∈ flags ∧ groupOf f = none) ∧
    ((flags.foldl add set).flags.map fst).Nodup := by
  induction flags generalizing set with
  | nil =>
    refine ⟨fun g => ?_, fun f => ?_, h⟩ <;> simp
  | cons f flags ih =>
    obtain ⟨hg, hf, hn⟩ := ih (set.add f) (nodup_flags_add h)
    refine ⟨fun g => ?_, fun f' => ?_, hn⟩
    · rw [foldl_cons, hg g, haveFlags_add, or_assoc, exists_mem_cons_iff]
    rw [foldl_cons, hf f', mem_flags_add, or_assoc, mem_cons, or_and_right]
    refine or_congr_right (or_congr_left ?_)
    constructor
    · rintro ⟨rfl, h⟩
      exact ⟨rfl, h⟩
    · rintro ⟨rfl, h⟩
      exact ⟨rfl, h⟩

theorem Added.haveFlags_iff (h : Added flags set) :
    set.haveFlags g = true ↔ ∃ f ∈ flags, f ∈ g.names := by
  rw [h.groups, (foldl_add_spec flags {} nodup_nil).1 g]
  simp

theorem Added.mem_flags (h : Added flags set) :
    f ∈ set.flags.map fst ↔ f ∈ flags ∧ groupOf f = none := by
  rw [(h.table.map fst).mem_iff, (foldl_add_spec flags {} nodup_nil).2.1 f]
  simp

theorem Added.nodup (h : Added flags set) : (set.flags.map fst).Nodup :=
  (h.table.map fst).nodup_iff.2 (foldl_add_spec flags {} nodup_nil).2.2

/-! ### The odometer -/

/-- **Where the enumeration is** after the calls that return true. -/
theorem at_reading (h : n < set.configCount Group.all) :
    (afterCalls (startenum set) (n + 1)).firstConfigReady = false ∧ Valid (shown set n) ∧
      SameFlags set (shown set n) ∧ reading (shown set n) Group.all = n ∧ returned set n = true := by
  induction n with
  | zero =>
    exact ⟨rfl, valid_startEnum, sameFlags_startEnum, reading_startEnum, rfl⟩
  | succ n ih =>
    obtain ⟨hready, hv, hs, hr, -⟩ := ih (by omega)
    have hcount : configCount (shown set n) Group.all = configCount set Group.all :=
      configCount_congr hs
    have hstep : (afterCalls (startenum set) (n + 1)).next = match (shown set n).next with
        | some s => (true, ⟨s, false⟩)
        | none => (false, ⟨(shown set n).startEnum, false⟩) := by
      rw [Enumeration.next, if_neg (by rw [hready]; decide), shown]
      cases (afterCalls (startenum set) (n + 1)).set.next <;> simp only [hready]
    cases hnext : (shown set n).next with
    | none =>
      have hlast := nextFrom_none nodup_all hv hnext
      omega
    | some s =>
      obtain ⟨hv', hs', hr', -⟩ := nextFrom_some nodup_all hv hnext
      rw [hnext] at hstep
      have hshown : shown set (n + 1) = s := by rw [shown, afterCalls, hstep]
      have hfirst : (afterCalls (startenum set) (n + 1 + 1)).firstConfigReady = false := by
        rw [afterCalls, hstep]
      rw [hshown]
      exact ⟨hfirst, hv', ⟨hs'.1.trans hs.1, hs'.2.trans hs.2⟩, by rw [hr', hr],
        by rw [returned, hstep]⟩

/-- The call after the last configuration returns false. -/
theorem returned_last : returned set (set.configCount Group.all) = false := by
  have hpos : 0 < set.configCount Group.all := (Nat.zero_le _).trans_lt
    ((reading_lt valid_startEnum).trans_eq (configCount_congr sameFlags_startEnum))
  obtain ⟨n, hn⟩ := Nat.exists_eq_succ_of_ne_zero hpos.ne'
  have hlast : n < set.configCount Group.all := hn ▸ Nat.lt_succ_self n
  obtain ⟨hready, hv, hs, hr, -⟩ := at_reading hlast
  have hcount : configCount (shown set n) Group.all = configCount set Group.all :=
    configCount_congr hs
  rw [hn, returned, Enumeration.next, if_neg (by rw [hready]; decide)]
  cases hnext : (afterCalls (startenum set) n.succ).set.next with
  | none => rfl
  | some s =>
    obtain ⟨hv', hs', hr', -⟩ := nextFrom_some nodup_all hv hnext
    have hlt : reading s Group.all < configCount s Group.all := reading_lt hv'
    rw [configCount_congr hs'] at hlt
    have hnr : reading s Group.all = n + 1 := by
      rw [hr']
      exact congrArg (· + 1) hr
    have hc : configCount (afterCalls (startenum set) n.succ).set Group.all = n + 1 :=
      hcount.trans hn
    omega

/-! ### What `buildflagset_get` sees -/

theorem get_group (hf : f ∈ g.names) : s.get f = true ↔ g.names[s.enumFlags g]? = some f := by
  rw [BuildFlagSet.get, groupOf_eq_some_iff.2 hf]
  simp only [decide_eq_true_iff]
  exact index_eq_some_iff

theorem get_flag (hf : groupOf f = none) : s.get f = (s.flags.lookup f).getD false := by
  rw [BuildFlagSet.get, hf]

theorem exists_lookup {l : List (String × Bool)} (hf : f ∈ l.map fst) :
    ∃ b, l.lookup f = some b := by
  induction l with
  | nil => cases hf
  | cons x l ih =>
    rw [lookup_cons]
    cases hx : f == x.1 with
    | true => exact ⟨x.2, rfl⟩
    | false =>
      refine ih ((mem_cons.1 hf).resolve_left fun e => ?_)
      rw [e] at hx
      simp at hx

/-- Exactly one flag of a group is true. -/
theorem one_of_group (hv : Valid s) (hg : s.haveFlags g = true) :
    ∃! f, f ∈ g.names ∧ s.get f = true := by
  have hlt := hv g hg
  refine ⟨g.names[s.enumFlags g], ⟨getElem_mem hlt, ?_⟩, fun f hf => ?_⟩
  · rw [get_group (getElem_mem hlt), getElem?_eq_getElem hlt]
  have hget := (get_group hf.1).1 hf.2
  rw [getElem?_eq_getElem hlt] at hget
  exact (Option.some.inj hget).symm

/-- Lists of values with the same names and values are the same. -/
theorem eq_of_lookup {l l' : List (String × Bool)} (hn : l'.map fst = l.map fst)
    (hd : (l.map fst).Nodup) (h : ∀ f ∈ l.map fst, l'.lookup f = l.lookup f) : l' = l := by
  induction l generalizing l' with
  | nil => exact map_eq_nil_iff.1 hn
  | cons x l ih =>
    cases l' with
    | nil => cases hn
    | cons x' l' =>
      obtain ⟨a, v⟩ := x
      obtain ⟨a', v'⟩ := x'
      rw [map_cons, map_cons, cons.injEq] at hn
      obtain ⟨rfl, hn⟩ := hn
      rw [map_cons, nodup_cons] at hd
      have hv : v' = v := by
        have hhead := h a' (.head _)
        simpa using hhead
      refine congrArg₂ cons (ext rfl hv) (ih hn hd.2 fun f hf => ?_)
      have hne : (f == a') = false := beq_eq_false_iff_ne.2 fun e => hd.1 (e ▸ hf)
      have htail := h f (.tail _ hf)
      simpa only [lookup_cons, hne] using htail

/-- Two configurations that look the same are the same. -/
theorem reading_eq_of_get (ha : Added flags set) (hv : Valid s) (hv' : Valid s')
    (hs : SameFlags set s) (hs' : SameFlags set s')
    (h : ∀ f, Enumerated flags f → s'.get f = s.get f) :
    reading s' Group.all = reading s Group.all := by
  have hsame : SameFlags s s' := ⟨hs'.1.trans hs.1.symm, hs'.2.trans hs.2.symm⟩
  have hflags : s'.flags = s.flags := by
    refine eq_of_lookup hsame.2 (hs.2 ▸ ha.nodup) fun f hf => ?_
    obtain ⟨hmem, hnone⟩ := ha.mem_flags.1 (hs.2 ▸ hf)
    have hget := h f (by rw [Enumerated, hnone]; exact hmem)
    rw [get_flag hnone, get_flag hnone] at hget
    obtain ⟨b, hb⟩ := exists_lookup hf
    obtain ⟨b', hb'⟩ := exists_lookup (hsame.2 ▸ hf)
    rw [hb, hb'] at hget
    rw [hb, hb']
    exact congrArg some hget
  have hdigit : ∀ g, s.haveFlags g = true → s'.enumFlags g = s.enumFlags g := by
    intro g hg
    have hlt := hv g hg
    have hmem : g.names[s.enumFlags g] ∈ g.names := getElem_mem hlt
    have henum : Enumerated flags g.names[s.enumFlags g] := by
      rw [Enumerated, groupOf_eq_some_iff.2 hmem]
      exact ha.haveFlags_iff.1 (hs.1 ▸ hg)
    have htrue : s'.get g.names[s.enumFlags g] = true := by
      rw [h _ henum, get_group hmem, getElem?_eq_getElem hlt]
    have hget := (get_group hmem).1 htrue
    have hlt' := hv' g (hsame.1 ▸ hg)
    rw [getElem?_eq_getElem hlt'] at hget
    exact (List.Nodup.getElem_inj_iff g.nodup_names).1 (Option.some.inj hget)
  have hgs : ∀ gs : List Group, reading s' gs = reading s gs := by
    intro gs
    induction gs with
    | nil => rw [reading, reading, hflags]
    | cons g gs ih =>
      rw [reading, reading, ih, hsame.1]
      by_cases hg : s.haveFlags g = true
      · rw [if_pos hg, if_pos hg, hdigit g hg]
      · rw [if_neg hg, if_neg hg]
  exact hgs _

/-- **The enumeration is complete and without repetition.** -/
theorem enumeration_exact (ha : Added flags set) :
    (∀ count, configcount set = some count → count = set.configCount Group.all) ∧
    (∀ n < set.configCount Group.all, returned set n = true) ∧
    returned set (set.configCount Group.all) = false ∧
    (∀ m < set.configCount Group.all, ∀ n < set.configCount Group.all, m ≠ n →
      ∃ f, Enumerated flags f ∧ (shown set m).get f ≠ (shown set n).get f) ∧
    (∀ n < set.configCount Group.all, ∀ g : Group, (∃ f ∈ flags, f ∈ g.names) →
      ∃! f, f ∈ g.names ∧ (shown set n).get f = true) ∧
    ∀ (choice : Group → String) (a : String → Bool), (∀ g, choice g ∈ g.names) →
      ∃ n < set.configCount Group.all,
        (∀ g : Group, (∃ f ∈ flags, f ∈ g.names) → (shown set n).get (choice g) = true) ∧
        ∀ f ∈ flags, groupOf f = none → (shown set n).get f = a f := by
  refine ⟨fun count hc => ?_, fun n hn => (at_reading hn).2.2.2.2, returned_last,
    fun m hm n hn hne => ?_, fun n hn g hg => ?_, fun choice a hchoice => ?_⟩
  · rw [configcount] at hc
    split at hc
    · exact (Option.some.inj hc).symm
    · cases hc
  · obtain ⟨-, hv, hs, hr, -⟩ := at_reading hm
    obtain ⟨-, hv', hs', hr', -⟩ := at_reading hn
    by_contra hall
    push Not at hall
    have heq := reading_eq_of_get ha hv' hv hs' hs hall
    omega
  · obtain ⟨-, hv, hs, -, -⟩ := at_reading hn
    exact one_of_group hv (hs.1 ▸ ha.haveFlags_iff.2 hg)
  choose k hk using fun g => getElem?_of_mem (hchoice g)
  have hklt : ∀ g, k g < g.names.length := fun g => (List.getElem?_eq_some_iff.1 (hk g)).1
  let goal : BuildFlagSet :=
    { set with enumFlags := k, flags := set.flags.map fun f => (f.1, a f.1) }
  have hgoal : Valid goal := fun g _ => hklt g
  have hsame : SameFlags set goal := by
    refine ⟨rfl, ?_⟩
    rw [map_map]
    rfl
  have hlt : reading goal Group.all < set.configCount Group.all :=
    (reading_lt hgoal).trans_eq (configCount_congr hsame)
  obtain ⟨-, hv, hs, hr, -⟩ := at_reading hlt
  obtain ⟨he, hf⟩ := reading_inj hgoal hv ⟨hs.1, hs.2.trans hsame.2.symm⟩ hr
  refine ⟨_, hlt, fun g hg => ?_, fun f hmem hnone => ?_⟩
  · rw [get_group (hchoice g), he g g.mem_all (ha.haveFlags_iff.2 hg)]
    exact hk g
  · rw [get_flag hnone, hf]
    exact congrArg (Option.getD · false) (lookup_map_of_mem a (ha.mem_flags.2 ⟨hmem, hnone⟩))

/-- A system flag and a user flag. -/
theorem enumerate_linux_debug : (∀ n < 16, returned (["linux", "debug"].foldl add {}) n = true) ∧
    returned (["linux", "debug"].foldl add {}) 16 = false := by
  have hcount : (["linux", "debug"].foldl add {}).configCount Group.all = 16 := by decide
  obtain ⟨-, htrue, hfalse, -⟩ := (@enumeration_exact ["linux", "debug"] (["linux", "debug"].foldl add {})
    ⟨rfl, List.Perm.refl _⟩)
  rw [hcount] at htrue hfalse
  exact ⟨htrue, hfalse⟩

/-- A flag that is false in two configurations: the set has all systems when it has one of them. -/
theorem linux_looks_same : ¬ ∀ (flags : List String) (set : BuildFlagSet), Added flags set →
    ∀ m < set.configCount Group.all, ∀ n < set.configCount Group.all, m ≠ n →
      ∃ f ∈ flags, (shown set m).get f ≠ (shown set n).get f := by
  intro h
  obtain ⟨f, hf, hne⟩ := h ["linux"] (["linux"].foldl add {}) ⟨rfl, List.Perm.refl _⟩ 0 (by decide) 1
    (by decide) (by decide)
  rw [mem_singleton.1 hf] at hne
  exact hne (by decide)

end SpacePony.Pkg
