import Mathlib.Logic.Function.Basic
import Mathlib.Logic.Relation
import Mathlib.Tactic

/-!
# Compiler — pkg — build flag sets

`buildflagset.c`: a set of build flags, and the enumeration of the configurations it has.  Of the
flags of a group exactly one is true in a configuration; a flag that is in no group may be true or
false.  The enumeration counts like an odometer, the groups first, and every choice of one flag of
each group and of values for the other flags is met (`exists_config`).
-/

namespace SpacePony.Pkg

open Nat Bool Option
open List (map_cons mem_cons mem_cons_of_mem)
open Function (update update_of_ne update_self)

/-! ### Groups -/

/-- The groups of flags. -/
inductive Group
  | os
  | arch
  | size
  | endian
  deriving DecidableEq

/-- `_os_flags`, `_arch_flags`, `_size_flags` and `_endian_flags`. -/
def Group.names : Group → List String
  | os => ["bsd", "freebsd", "dragonfly", "openbsd", "linux", "osx", "windows", "unknown_OS"]
  | arch => ["x86", "arm", "unknown_arch"]
  | size => ["lp64", "llp64", "ilp32", "unknown_size"]
  | endian => ["bigendian", "littleendian", "unknown_endian"]

/-- The groups, in the order in which they are looked at. -/
def Group.all : List Group := [os, arch, size, endian]

/-- `os_index`, `arch_index`, `size_index` and `endian_index`. -/
def Group.index (g : Group) (flag : String) : Option Nat := g.names.findIdx? (· == flag)

/-- The first group that has the flag. -/
def groupOf (flag : String) : Option Group := Group.all.find? fun g => (g.index flag).isSome

section
variable {f : String} {g : Group} {k : Nat}

theorem Group.mem_all (g : Group) : g ∈ Group.all := by cases g <;> decide

theorem Group.nodup_names (g : Group) : g.names.Nodup := by cases g <;> decide

theorem index_eq_some_iff : g.index f = some k ↔ g.names[k]? = some f := by
  rw [Group.index, List.findIdx?_eq_some_iff_getElem]
  constructor
  · rintro ⟨hk, he, -⟩
    rw [List.getElem?_eq_getElem hk, eq_of_beq he]
  intro h
  obtain ⟨hk, rfl⟩ := List.getElem?_eq_some_iff.1 h
  refine ⟨hk, beq_self_eq_true _, fun j hj he => ?_⟩
  have := (List.Nodup.getElem_inj_iff g.nodup_names).1 (eq_of_beq he)
  omega

theorem index_isSome_iff : (g.index f).isSome = true ↔ f ∈ g.names := by
  rw [isSome_iff_exists]
  constructor
  · rintro ⟨k, hk⟩
    exact List.mem_of_getElem? (index_eq_some_iff.1 hk)
  intro h
  obtain ⟨k, hk⟩ := List.getElem?_of_mem h
  exact ⟨k, index_eq_some_iff.2 hk⟩

theorem Group.names_disjoint :
    ∀ g ∈ Group.all, ∀ g' ∈ Group.all, ∀ f ∈ g.names, f ∈ g'.names → g = g' := by decide

theorem mem_of_groupOf (h : groupOf f = some g) : f ∈ g.names := by
  have hg := List.find?_some h
  exact index_isSome_iff.1 hg

/-- No flag is in two groups. -/
theorem groupOf_eq_some_iff : groupOf f = some g ↔ f ∈ g.names := by
  refine ⟨mem_of_groupOf, fun h => ?_⟩
  have hsome : (groupOf f).isSome = true := by
    rw [groupOf, List.find?_isSome]
    exact ⟨g, g.mem_all, index_isSome_iff.2 h⟩
  obtain ⟨g', hg'⟩ := isSome_iff_exists.1 hsome
  rw [hg', Group.names_disjoint g g.mem_all g' g'.mem_all f h (mem_of_groupOf hg')]

end

theorem lookup_map_of_mem {l : List (String × Bool)} {f : String} (a : String → Bool)
    (hf : f ∈ l.map Prod.fst) : (l.map fun x => (x.1, a x.1)).lookup f = some (a f) := by
  induction l with
  | nil => cases hf
  | cons x l ih =>
    rw [map_cons, List.lookup_cons]
    by_cases e : f = x.1
    · subst e
      simp
    rw [map_cons] at hf
    have hb : (f == x.1) = false := beq_eq_false_iff_ne.2 e
    simp only [hb]
    exact ih ((mem_cons.1 hf).resolve_left e)

/-! ### Sets -/

/-- `buildflagset_t`. -/
structure BuildFlagSet where
  haveFlags : Group → Bool := fun _ => false
  enumFlags : Group → Nat := fun _ => 0
  flags : List (String × Bool) := []

namespace BuildFlagSet

/-- `buildflagset_add`. -/
def add (set : BuildFlagSet) (flag : String) : BuildFlagSet :=
  match groupOf flag with
  | some g => { set with haveFlags := update set.haveFlags g true }
  | none =>
    if flag ∈ set.flags.map Prod.fst then set
    else { set with flags := set.flags ++ [(flag, false)] }

/-- `buildflagset_startenum`. -/
def startEnum (set : BuildFlagSet) : BuildFlagSet :=
  { set with enumFlags := fun _ => 0, flags := set.flags.map fun f => (f.1, false) }

/-- The loop of `buildflagset_next` over the flags that are in no group. -/
def nextFlags : List (String × Bool) → Option (List (String × Bool))
  | [] => none
  | (name, false) :: flags => some ((name, true) :: flags)
  | (name, true) :: flags => (nextFlags flags).map ((name, false) :: ·)

/-- `buildflagset_next` from a group on. -/
def nextFrom : List Group → BuildFlagSet → Option BuildFlagSet
  | [], set => (nextFlags set.flags).map fun flags => { set with flags }
  | g :: gs, set =>
    if set.haveFlags g then
      if set.enumFlags g + 1 < g.names.length then
        some { set with enumFlags := update set.enumFlags g (set.enumFlags g + 1) }
      else nextFrom gs { set with enumFlags := update set.enumFlags g 0 }
    else nextFrom gs set

/-- `buildflagset_next`, after the first configuration. -/
def next (set : BuildFlagSet) : Option BuildFlagSet := nextFrom Group.all set

/-- `buildflagset_get`. -/
def get (set : BuildFlagSet) (flag : String) : Bool :=
  match groupOf flag with
  | some g => g.index flag = some (set.enumFlags g)
  | none => (set.flags.lookup flag).getD false

/-- `buildflagset_configcount`, over the groups and over the other flags. -/
def configCount (set : BuildFlagSet) : List Group → Nat
  | [] => 2 ^ set.flags.length
  | g :: gs => if set.haveFlags g then g.names.length * configCount set gs else configCount set gs

/-- The configurations that a loop meets, of which there are at most a number. -/
def configsFrom : Nat → BuildFlagSet → List BuildFlagSet
  | 0, _ => []
  | n + 1, set =>
    set :: match set.next with
      | some set' => configsFrom n set'
      | none => []

/-- The configurations that `while(buildflagset_next(..))` meets. -/
def configs (set : BuildFlagSet) : List BuildFlagSet :=
  configsFrom (set.configCount Group.all) set.startEnum

/-! ### The enumeration -/

/-- What the odometer shows: the flags that are in no group. -/
def flagsReading : List (String × Bool) → Nat
  | [] => 0
  | f :: flags => f.2.toNat + 2 * flagsReading flags

/-- What the odometer shows, from a group on. -/
def reading (set : BuildFlagSet) : List Group → Nat
  | [] => flagsReading set.flags
  | g :: gs =>
    if set.haveFlags g then set.enumFlags g + g.names.length * reading set gs else reading set gs

/-- The flag that a group is at exists. -/
def Valid (set : BuildFlagSet) : Prop :=
  ∀ g, set.haveFlags g = true → set.enumFlags g < g.names.length

/-- The two sets have the same flags. -/
def SameFlags (set set' : BuildFlagSet) : Prop :=
  set'.haveFlags = set.haveFlags ∧ set'.flags.map Prod.fst = set.flags.map Prod.fst

theorem nextFlags_some {flags flags' : List (String × Bool)} (h : nextFlags flags = some flags') :
    flagsReading flags' = flagsReading flags + 1 ∧ flags'.map Prod.fst = flags.map Prod.fst := by
  induction flags generalizing flags' with
  | nil => cases h
  | cons f flags ih =>
    obtain ⟨name, b⟩ := f
    cases b with
    | false =>
      cases h
      simp only [flagsReading, toNat_true, toNat_false, map_cons]
      exact ⟨by omega, trivial⟩
    | true =>
      rw [nextFlags, map_eq_some_iff] at h
      obtain ⟨fs, hfs, rfl⟩ := h
      obtain ⟨hr, hn⟩ := ih hfs
      simp only [flagsReading, toNat_true, toNat_false, map_cons, hr, hn]
      exact ⟨by omega, trivial⟩

theorem nextFlags_none {flags : List (String × Bool)} (h : nextFlags flags = none) :
    flagsReading flags + 1 = 2 ^ flags.length := by
  induction flags with
  | nil => rfl
  | cons f flags ih =>
    obtain ⟨name, b⟩ := f
    cases b with
    | false => cases h
    | true =>
      rw [nextFlags, map_eq_none_iff] at h
      rw [flagsReading, List.length_cons, pow_succ, ← ih h, toNat_true]
      omega

theorem flagsReading_lt (flags : List (String × Bool)) : flagsReading flags < 2 ^ flags.length := by
  induction flags with
  | nil => exact one_pos
  | cons f flags ih =>
    have hb := toNat_le f.2
    rw [flagsReading, List.length_cons, pow_succ]
    omega

theorem flagsReading_inj {flags flags' : List (String × Bool)}
    (hn : flags'.map Prod.fst = flags.map Prod.fst) (hr : flagsReading flags' = flagsReading flags) :
    flags' = flags := by
  induction flags generalizing flags' with
  | nil => exact List.map_eq_nil_iff.1 hn
  | cons f flags ih =>
    cases flags' with
    | nil => cases hn
    | cons f' flags' =>
      rw [map_cons, map_cons, List.cons.injEq] at hn
      rw [flagsReading, flagsReading] at hr
      have hb := toNat_le f.2
      have hb' := toNat_le f'.2
      have hnat : f'.2.toNat = f.2.toNat := by omega
      have hval : f'.2 = f.2 := by
        revert hnat
        cases f'.2 <;> cases f.2 <;> decide
      rw [ih hn.2 (by omega), Prod.ext hn.1 hval]

section
variable {set set' : BuildFlagSet} {gs : List Group}

/-- Only the groups that are counted matter. -/
theorem reading_congr (hh : set'.haveFlags = set.haveFlags) (hf : set'.flags = set.flags)
    (he : ∀ g ∈ gs, set'.enumFlags g = set.enumFlags g) : reading set' gs = reading set gs := by
  induction gs with
  | nil => rw [reading, reading, hf]
  | cons g gs ih =>
    rw [reading, reading, hh, he g (.head _),
      ih fun g' hg' => he g' (.tail _ hg')]

theorem configCount_congr (h : SameFlags set set') : configCount set' gs = configCount set gs := by
  induction gs with
  | nil =>
    have hlen := congrArg List.length h.2
    rw [List.length_map, List.length_map] at hlen
    rw [configCount, configCount, hlen]
  | cons g gs ih => rw [configCount, configCount, h.1, ih]

theorem reading_lt (hv : Valid set) : reading set gs < configCount set gs := by
  induction gs with
  | nil => exact flagsReading_lt set.flags
  | cons g gs ih =>
    rw [reading, configCount]
    by_cases hg : set.haveFlags g = true
    · rw [if_pos hg, if_pos hg]
      calc set.enumFlags g + g.names.length * reading set gs
          < g.names.length + g.names.length * reading set gs := Nat.add_lt_add_right (hv g hg) _
        _ = g.names.length * (reading set gs + 1) := by ring
        _ ≤ g.names.length * configCount set gs := Nat.mul_le_mul_left _ ih
    · rwa [if_neg hg, if_neg hg]

/-- Two sets that show the same are at the same configuration. -/
theorem reading_inj (hv : Valid set) (hv' : Valid set') (hs : SameFlags set set')
    (hr : reading set' gs = reading set gs) :
    (∀ g ∈ gs, set.haveFlags g = true → set'.enumFlags g = set.enumFlags g) ∧
      set'.flags = set.flags := by
  induction gs with
  | nil => exact ⟨nofun, flagsReading_inj hs.2 hr⟩
  | cons g gs ih =>
    rw [reading, reading, hs.1] at hr
    by_cases hg : set.haveFlags g = true
    · rw [if_pos hg, if_pos hg] at hr
      have hlt := hv g hg
      have hlt' := hv' g (by rwa [hs.1])
      have hdigit : set'.enumFlags g = set.enumFlags g := by
        have := congrArg (· % g.names.length) hr
        simpa only [add_mul_mod_self_left, mod_eq_of_lt hlt, mod_eq_of_lt hlt'] using this
      rw [hdigit] at hr
      obtain ⟨he, hf⟩ := ih (Nat.eq_of_mul_eq_mul_left (by omega) (add_left_cancel hr))
      refine ⟨fun g' hg' hh => ?_, hf⟩
      obtain rfl | hg' := mem_cons.1 hg'
      · exact hdigit
      · exact he g' hg' hh
    rw [if_neg hg, if_neg hg] at hr
    obtain ⟨he, hf⟩ := ih hr
    refine ⟨fun g' hg' hh => ?_, hf⟩
    obtain rfl | hg' := mem_cons.1 hg'
    · exact absurd hh hg
    · exact he g' hg' hh

/-- The odometer without the digit of a group. -/
theorem reading_update {g : Group} (hg : g ∉ gs) (k : Nat) :
    reading { set with enumFlags := update set.enumFlags g k } gs = reading set gs := by
  refine reading_congr rfl rfl fun g' hg' => ?_
  have hne : g' ≠ g := fun e => hg (e ▸ hg')
  exact update_of_ne hne _ _

theorem valid_update (hv : Valid set) {g : Group} {k : Nat} (hk : k < g.names.length) :
    Valid { set with enumFlags := update set.enumFlags g k } := by
  intro g' hg'
  by_cases e : g' = g
  · subst e
    simpa using hk
  · simpa [update_of_ne e] using hv g' hg'

/-- **One step** of the odometer. -/
theorem nextFrom_some (hn : gs.Nodup) (hv : Valid set) (h : nextFrom gs set = some set') :
    Valid set' ∧ SameFlags set set' ∧ reading set' gs = reading set gs + 1 ∧
      ∀ g, g ∉ gs → set'.enumFlags g = set.enumFlags g := by
  induction gs generalizing set with
  | nil =>
    rw [nextFrom, map_eq_some_iff] at h
    obtain ⟨flags, hf, rfl⟩ := h
    obtain ⟨hr, hnames⟩ := nextFlags_some hf
    exact ⟨hv, ⟨rfl, hnames⟩, hr, fun _ _ => rfl⟩
  | cons g gs ih =>
    obtain ⟨hgs, hn'⟩ := List.nodup_cons.1 hn
    rw [nextFrom] at h
    by_cases hg : set.haveFlags g = true
    · rw [if_pos hg] at h
      by_cases hlt : set.enumFlags g + 1 < g.names.length
      · rw [if_pos hlt] at h
        cases h
        refine ⟨valid_update hv hlt, ⟨rfl, rfl⟩, ?_, fun g' hg' => ?_⟩
        · simp only [reading, if_pos hg, reading_update hgs, update_self]
          omega
        · exact update_of_ne (List.ne_of_not_mem_cons hg') _ _
      rw [if_neg hlt] at h
      have hpos := hv g hg
      obtain ⟨hv', hs', hr', he'⟩ := ih hn' (valid_update hv (by omega)) h
      rw [reading_update hgs] at hr'
      have hzero : set'.enumFlags g = 0 := by
        rw [he' g hgs]
        exact update_self ..
      refine ⟨hv', hs', ?_, fun g' hg' => ?_⟩
      · rw [reading, reading, hs'.1, if_pos hg, if_pos hg, hr', hzero, mul_add]
        omega
      · rw [he' g' (fun hm => hg' (.tail _ hm))]
        exact update_of_ne (List.ne_of_not_mem_cons hg') _ _
    rw [if_neg hg] at h
    obtain ⟨hv', hs', hr', he'⟩ := ih hn' hv h
    refine ⟨hv', hs', ?_, fun g' hg' => he' g' (fun hm => hg' (.tail _ hm))⟩
    rw [reading, reading, hs'.1, if_neg hg, if_neg hg, hr']

/-- The enumeration ends at the last configuration only. -/
theorem nextFrom_none (hn : gs.Nodup) (hv : Valid set) (h : nextFrom gs set = none) :
    reading set gs + 1 = configCount set gs := by
  induction gs generalizing set with
  | nil =>
    rw [nextFrom, map_eq_none_iff] at h
    exact nextFlags_none h
  | cons g gs ih =>
    obtain ⟨hgs, hn'⟩ := List.nodup_cons.1 hn
    rw [nextFrom] at h
    by_cases hg : set.haveFlags g = true
    · rw [if_pos hg] at h
      by_cases hlt : set.enumFlags g + 1 < g.names.length
      · rw [if_pos hlt] at h
        cases h
      rw [if_neg hlt] at h
      have hpos := hv g hg
      have hr := ih hn' (valid_update hv (by omega)) h
      rw [reading_update hgs] at hr
      have hc : configCount { set with enumFlags := update set.enumFlags g 0 } gs =
          configCount set gs := configCount_congr ⟨rfl, rfl⟩
      rw [reading, configCount, if_pos hg, if_pos hg, ← hc, ← hr, mul_add]
      omega
    · rw [if_neg hg] at h
      rw [reading, configCount, if_neg hg, if_neg hg]
      exact ih hn' hv h

theorem nodup_all : Group.all.Nodup := by decide

/-- Every configuration that is met is one of the set's. -/
theorem valid_of_mem_configsFrom {n : Nat} {s : BuildFlagSet} (hv : Valid set)
    (hs : s ∈ configsFrom n set) : Valid s ∧ SameFlags set s := by
  induction n generalizing set with
  | zero => cases hs
  | succ n ih =>
    rw [configsFrom] at hs
    obtain rfl | hs := mem_cons.1 hs
    · exact ⟨hv, rfl, rfl⟩
    cases hnext : set.next with
    | none =>
      rw [hnext] at hs
      cases hs
    | some set' =>
      rw [hnext] at hs
      obtain ⟨hv', hs', -⟩ := nextFrom_some nodup_all hv hnext
      obtain ⟨hv'', hs''⟩ := ih hv' hs
      exact ⟨hv'', hs''.1.trans hs'.1, hs''.2.trans hs'.2⟩

/-- Everything that the odometer can show from here on is met. -/
theorem exists_reading {n r : Nat} (hv : Valid set) (hr : reading set Group.all ≤ r)
    (hr' : r < configCount set Group.all)
    (hn : configCount set Group.all - reading set Group.all ≤ n) :
    ∃ s ∈ configsFrom n set, reading s Group.all = r := by
  induction n generalizing set with
  | zero => omega
  | succ n ih =>
    by_cases he : reading set Group.all = r
    · exact ⟨set, .head _, he⟩
    cases hnext : set.next with
    | none =>
      have hlast := nextFrom_none nodup_all hv hnext
      omega
    | some set' =>
      obtain ⟨hv', hs', hread, -⟩ := nextFrom_some nodup_all hv hnext
      have hc : set'.configCount Group.all = set.configCount Group.all :=
        configCount_congr hs'
      obtain ⟨s, hs, hsr⟩ := ih hv' (by omega) (by omega) (by omega)
      refine ⟨s, ?_, hsr⟩
      rw [configsFrom, hnext]
      exact .tail _ hs

theorem valid_startEnum : Valid set.startEnum := by
  intro g _
  show 0 < g.names.length
  cases g <;> decide

theorem sameFlags_startEnum : SameFlags set set.startEnum := by
  refine ⟨rfl, ?_⟩
  rw [startEnum, List.map_map]
  rfl

theorem valid_of_mem_configs {s : BuildFlagSet} (hs : s ∈ set.configs) :
    Valid s ∧ SameFlags set s := by
  obtain ⟨hv, hs'⟩ := valid_of_mem_configsFrom valid_startEnum hs
  exact ⟨hv, hs'.1.trans sameFlags_startEnum.1, hs'.2.trans sameFlags_startEnum.2⟩

theorem reading_startEnum : reading set.startEnum Group.all = 0 := by
  have hflags : ∀ l : List (String × Bool), flagsReading (l.map fun f => (f.1, false)) = 0 := by
    intro l
    induction l with
    | nil => rfl
    | cons f l ih =>
      rw [map_cons, flagsReading, ih]
      rfl
  have hgs : ∀ gs : List Group, reading set.startEnum gs = 0 := by
    intro gs
    induction gs with
    | nil => exact hflags set.flags
    | cons g gs ih =>
      rw [reading, ih]
      simp [startEnum]
  exact hgs _

/-- **The enumeration is complete**: every choice of one flag of each group that is used, and of
values for the other flags, is met. -/
theorem exists_config (set : BuildFlagSet) (k : Group → Nat) (hk : ∀ g, k g < g.names.length)
    (a : String → Bool) : ∃ s ∈ set.configs, (∀ g, set.haveFlags g = true → s.enumFlags g = k g) ∧
      s.flags = set.flags.map fun f => (f.1, a f.1) := by
  let goal : BuildFlagSet :=
    { set with enumFlags := k, flags := set.flags.map fun f => (f.1, a f.1) }
  have hgoal : Valid goal := fun g _ => hk g
  have hsame : SameFlags goal set.startEnum := by
    refine ⟨rfl, ?_⟩
    rw [startEnum, List.map_map, List.map_map]
    rfl
  have hzero : reading set.startEnum Group.all = 0 := reading_startEnum
  have hcount : set.startEnum.configCount Group.all = goal.configCount Group.all :=
    configCount_congr hsame
  have hcount' : set.startEnum.configCount Group.all = set.configCount Group.all :=
    configCount_congr sameFlags_startEnum
  obtain ⟨s, hs, hr⟩ := exists_reading (n := set.configCount Group.all)
    (r := reading goal Group.all) (valid_startEnum : Valid set.startEnum) (by omega)
    (by rw [hcount]; exact reading_lt hgoal) (by omega)
  obtain ⟨hv, hs'⟩ := valid_of_mem_configsFrom valid_startEnum hs
  have hsame' : SameFlags goal s := ⟨hs'.1.trans hsame.1, hs'.2.trans hsame.2⟩
  have hr' : reading s Group.all = reading goal Group.all := hr
  obtain ⟨he, hf⟩ := reading_inj hgoal hv hsame' hr'
  exact ⟨s, hs, fun g hg => he g g.mem_all hg, hf⟩

end

end BuildFlagSet

end SpacePony.Pkg
