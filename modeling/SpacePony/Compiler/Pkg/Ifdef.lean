import SpacePony.Compiler.Pkg.BuildFlagSet

/-!
# Compiler — pkg — conditional compilation

`ifdef.c` and `platformfuns.c`: the condition of an `ifdef` is evaluated against the target, and
before that it is checked against every configuration of the flags that it uses.  The declaration of
a foreign function is chosen in the same way, for every configuration.  The configurations cover the
target if and only if it sets the flags of each group as one of them does (`covers_iff`).
-/

namespace SpacePony.Pkg

open List

/-! ### Targets -/

/-- The operating systems that are told apart. -/
inductive OSType
  | dragonFly
  | freeBSD
  | openBSD
  | linux
  | macOSX
  | windows
  | other
  deriving DecidableEq

/-- The architectures that are told apart, by their prefix. -/
inductive ArchPrefix
  | x86
  | arm
  | aarch64
  | other
  deriving DecidableEq

/-- What is asked of a target triple. -/
structure Triple where
  os : OSType
  arch : ArchPrefix
  pointerBits : Nat
  littleEndian : Bool
  windowsMSVC : Bool

/-- The options of a compilation, and what the compiler itself was built with. -/
structure Options where
  triple : Triple
  release : Bool
  userFlags : List String
  runtimeStats : Bool
  runtimeStatsMessages : Bool

namespace Triple

/-- `target_is_bsd`. -/
def isBsd (t : Triple) : Bool := t.os = .dragonFly ∨ t.os = .freeBSD ∨ t.os = .openBSD

/-- `target_is_posix`. -/
def isPosix (t : Triple) : Bool :=
  t.os = .macOSX ∨ t.os = .freeBSD ∨ t.os = .linux ∨ t.os = .dragonFly ∨ t.os = .openBSD

/-- `target_is_lp64`. -/
def isLp64 (t : Triple) : Bool := t.pointerBits = 64 ∧ t.os ≠ .windows

/-- `target_is_llp64`. -/
def isLlp64 (t : Triple) : Bool := t.pointerBits = 64 ∧ t.os = .windows

/-- `target_is_ilp32`. -/
def isIlp32 (t : Triple) : Bool := t.pointerBits = 32

/-- `target_is_native128`. -/
def isNative128 (t : Triple) : Bool := t.pointerBits ≠ 32 ∧ t.windowsMSVC = false

end Triple

/-- The platform flags, with their values. -/
def platformFlags (opt : Options) : List (String × Bool) :=
  [("bsd", opt.triple.isBsd),
   ("freebsd", opt.triple.os = .freeBSD),
   ("dragonfly", opt.triple.os = .dragonFly),
   ("openbsd", opt.triple.os = .openBSD),
   ("linux", opt.triple.os = .linux),
   ("osx", opt.triple.os = .macOSX),
   ("windows", opt.triple.os = .windows),
   ("posix", opt.triple.isPosix),
   ("x86", opt.triple.arch = .x86),
   ("arm", opt.triple.arch = .arm ∨ opt.triple.arch = .aarch64),
   ("lp64", opt.triple.isLp64),
   ("llp64", opt.triple.isLlp64),
   ("ilp32", opt.triple.isIlp32),
   ("native128", opt.triple.isNative128),
   ("debug", !opt.release),
   ("bigendian", !opt.triple.littleEndian),
   ("littleendian", opt.triple.littleEndian),
   ("spacepony", true),
   ("runtimestats", opt.runtimeStats || opt.runtimeStatsMessages),
   ("runtimestatsmessages", opt.runtimeStatsMessages)]

/-- `os_is_target`: whether the platform flag is true, if it is one. -/
def osIsTarget (opt : Options) (name : String) : Option Bool :=
  (platformFlags opt).lookup name

/-- The value of a flag for the target: a flag that is not a platform flag is a user flag. -/
def targetFlag (opt : Options) (name : String) : Bool :=
  match osIsTarget opt name with
  | some val => val
  | none => name ∈ opt.userFlags

/-! ### Conditions -/

/-- A condition that is normalised.  `none` is no condition. -/
inductive IfdefCond
  | none
  | ifdefAnd (left right : IfdefCond)
  | ifdefOr (left right : IfdefCond)
  | ifdefNot (child : IfdefCond)
  | ifdefFlag (name : String)

/-- A condition.  The condition of an outer `ifdef` in it is normalised already. -/
inductive Cond
  | and (left right : Cond)
  | or (left right : Cond)
  | not (child : Cond)
  | string (name : String)
  | reference (name : String)
  | seq (child : Cond)
  | normalised (cond : IfdefCond)

/-- `cond_normalise`. -/
def condNormalise : Cond → IfdefCond
  | .and left right => .ifdefAnd (condNormalise left) (condNormalise right)
  | .or left right => .ifdefOr (condNormalise left) (condNormalise right)
  | .not child => .ifdefNot (condNormalise child)
  | .string name => .ifdefFlag name
  | .reference name =>
    if name = "posix" then
      .ifdefOr (.ifdefOr (.ifdefFlag "linux") (.ifdefFlag "osx")) (.ifdefFlag "bsd")
    else .ifdefFlag name
  | .seq child => condNormalise child
  | .normalised cond => cond

/-- `cond_eval`, for flags that have the given values. -/
def condEval (value : String → Bool) : IfdefCond → Bool
  | .none => true
  | .ifdefAnd left right => condEval value left && condEval value right
  | .ifdefOr left right => condEval value left || condEval value right
  | .ifdefNot child => !condEval value child
  | .ifdefFlag name => value name

/-- `find_flags_in_cond`. -/
def findFlagsInCond : IfdefCond → BuildFlagSet → BuildFlagSet
  | .none, config => config
  | .ifdefAnd left right, config => findFlagsInCond right (findFlagsInCond left config)
  | .ifdefOr left right, config => findFlagsInCond right (findFlagsInCond left config)
  | .ifdefNot child, config => findFlagsInCond child config
  | .ifdefFlag name, config => config.add name

/-- `ifdef_cond_normalise`: whether the condition can ever be true. -/
def ifdefCondNormalise (cond : Cond) : Bool :=
  match cond with
  | .normalised .none => true
  | _ =>
    let config := findFlagsInCond (condNormalise cond) {}
    config.configs.any fun c => condEval c.get (condNormalise cond)

/-- `ifdef_cond_eval`. -/
def ifdefCondEval (opt : Options) (cond : IfdefCond) : Bool := condEval (targetFlag opt) cond

/-! ### Declarations -/

/-- A `use` of a package that declares a foreign function. -/
structure FfiUse where
  name : String
  guard : IfdefCond

/-- The guards of the declarations of the function, in the order of the package's modules.  A
declaration is known by its place in the list. -/
def declGuards (package : List (List FfiUse)) (ffiName : String) : List IfdefCond :=
  (package.flatten.filter fun u => u.name == ffiName).map FfiUse.guard

/-- The loop of `find_decl_for_config`, from the declaration number `i` on: `decl` is the one that
was found, and `hadValid` says whether one is valid in this configuration. -/
def findDeclLoop (config : BuildFlagSet) : Nat → List IfdefCond → Option Nat → Bool → Option Nat
  | _, [], decl, hadValid => if hadValid then decl else none
  | i, guard :: guards, decl, hadValid =>
    if condEval config.get guard then
      match decl with
      | some d => if d ≠ i then none else findDeclLoop config (i + 1) guards decl true
      | none => findDeclLoop config (i + 1) guards (some i) true
    else findDeclLoop config (i + 1) guards decl hadValid

/-- `find_decl_for_config`.  `none` is a failure. -/
def findDeclForConfig (config : BuildFlagSet) (guards : List IfdefCond) (decl : Option Nat) :
    Option Nat :=
  findDeclLoop config 0 guards decl false

/-- The loop of `find_ffi_decl` over the configurations. -/
def ffiLoop (guards : List IfdefCond) (ifdefCond : IfdefCond) :
    List BuildFlagSet → Option Nat → Option (Option Nat)
  | [], decl => some decl
  | config :: configs, decl =>
    if condEval config.get ifdefCond then
      match findDeclForConfig config guards decl with
      | some d => ffiLoop guards ifdefCond configs (some d)
      | none => none
    else ffiLoop guards ifdefCond configs decl

/-- `find_ffi_decl`: `some d` is the declaration number `d`.  Where there are no declarations the
source returns `NULL`, which is not a declaration. -/
def findFfiDecl (package : List (List FfiUse)) (ffiName : String) (ifdefCond : IfdefCond) :
    Option Nat :=
  let guards := declGuards package ffiName
  let config := guards.foldl (fun config g => findFlagsInCond g config)
    (findFlagsInCond ifdefCond {})
  (ffiLoop guards ifdefCond config.configs none).join

/-! ### Flags -/

/-- The flags of a condition. -/
def IfdefCond.flags : IfdefCond → List String
  | none => []
  | ifdefAnd left right => left.flags ++ right.flags
  | ifdefOr left right => left.flags ++ right.flags
  | ifdefNot child => child.flags
  | ifdefFlag name => [name]

/-- The set has the flag, or the group of the flag. -/
def Covered (set : BuildFlagSet) (f : String) : Prop :=
  match groupOf f with
  | some g => set.haveFlags g = true
  | none => f ∈ set.flags.map Prod.fst

variable {guards : List IfdefCond}

section
variable {set : BuildFlagSet} {f : String}

theorem covered_add_self (set : BuildFlagSet) (f : String) : Covered (set.add f) f := by
  rw [Covered, BuildFlagSet.add]
  cases groupOf f with
  | some g => exact Function.update_self ..
  | none =>
    by_cases hf : f ∈ set.flags.map Prod.fst
    · simp only [if_pos hf]
      exact hf
    · simp only [if_neg hf, map_append, map_cons, mem_append, mem_cons, true_or, or_true]

theorem Covered.add (h : Covered set f) (f' : String) : Covered (set.add f') f := by
  rw [Covered] at h ⊢
  rw [BuildFlagSet.add]
  cases hf : groupOf f with
  | some g =>
    rw [hf] at h
    cases hf' : groupOf f' with
    | some g' =>
      by_cases e : g = g'
      · subst e
        exact Function.update_self ..
      · exact (Function.update_of_ne e _ _).trans h
    | none =>
      simp only
      split <;> exact h
  | none =>
    rw [hf] at h
    cases hf' : groupOf f' with
    | some g' => exact h
    | none =>
      simp only
      split
      · exact h
      · simp only [map_append, mem_append]
        exact .inl h

theorem Covered.findFlags (h : Covered set f) (c : IfdefCond) :
    Covered (findFlagsInCond c set) f := by
  induction c generalizing set with
  | none => exact h
  | ifdefAnd left right ihl ihr | ifdefOr left right ihl ihr => exact ihr (ihl h)
  | ifdefNot child ih => exact ih h
  | ifdefFlag name => exact h.add name

theorem covered_findFlags {c : IfdefCond} (hf : f ∈ c.flags) (set : BuildFlagSet) :
    Covered (findFlagsInCond c set) f := by
  induction c generalizing set with
  | none => cases hf
  | ifdefAnd left right ihl ihr | ifdefOr left right ihl ihr =>
    obtain hf | hf := mem_append.1 hf
    · exact (ihl hf set).findFlags right
    · exact ihr hf _
  | ifdefNot child ih => exact ih hf set
  | ifdefFlag name =>
    rw [IfdefCond.flags, mem_singleton] at hf
    subst hf
    exact covered_add_self set f

theorem Covered.foldl (h : Covered set f) (guards : List IfdefCond) :
    Covered (guards.foldl (fun config g => findFlagsInCond g config) set) f := by
  induction guards generalizing set with
  | nil => exact h
  | cons g guards ih => exact ih (h.findFlags g)

theorem covered_foldl {g : IfdefCond} (hg : g ∈ guards) (hf : f ∈ g.flags) (set : BuildFlagSet) :
    Covered (guards.foldl (fun config g => findFlagsInCond g config) set) f := by
  induction guards generalizing set with
  | nil => cases hg
  | cons g' guards ih =>
    obtain rfl | hg := mem_cons.1 hg
    · exact (covered_findFlags hf set).foldl guards
    · exact ih hg _

theorem condEval_congr {v v' : String → Bool} {c : IfdefCond} (h : ∀ f ∈ c.flags, v f = v' f) :
    condEval v c = condEval v' c := by
  induction c with
  | none => rfl
  | ifdefAnd left right ihl ihr | ifdefOr left right ihl ihr =>
    rw [condEval, condEval, ihl fun f hf => h f (mem_append_left _ hf),
      ihr fun f hf => h f (mem_append_right _ hf)]
  | ifdefNot child ih => rw [condEval, condEval, ih h]
  | ifdefFlag name => exact h name (.head _)

end

/-! ### Configurations and the target -/

/-- The flags of the group that are in `F` are set by the target as a configuration sets them: not
two of them are true, and where none is there is a flag of the group that is not in `F`. -/
def Separated (opt : Options) (F : List String) (g : Group) : Prop :=
  (∀ f ∈ F, ∀ f' ∈ F, f ∈ g.names → f' ∈ g.names → targetFlag opt f = true →
    targetFlag opt f' = true → f = f') ∧
  ((∃ f ∈ F, f ∈ g.names ∧ targetFlag opt f = true) ∨ ∃ f ∈ g.names, f ∉ F)

section
variable {opt : Options} {F : List String}

/-- The flag of a group that a configuration takes for the target. -/
theorem Separated.exists_index {g : Group} (h : Separated opt F g) :
    ∃ k < g.names.length, ∀ f ∈ F, f ∈ g.names →
      (targetFlag opt f = true ↔ g.index f = some k) := by
  obtain ⟨hone, hsome⟩ := h
  by_cases hall : ∃ f ∈ F, f ∈ g.names ∧ targetFlag opt f = true
  · obtain ⟨f, hf, hg, htrue⟩ := hall
    obtain ⟨k, hk⟩ := getElem?_of_mem hg
    refine ⟨k, (List.getElem?_eq_some_iff.1 hk).1, fun f' hf' hg' => ?_⟩
    rw [index_eq_some_iff, hk]
    constructor
    · intro h'
      rw [hone f hf f' hf' hg hg' htrue h']
    intro e
    cases e
    exact htrue
  obtain ⟨f, hg, hnot⟩ := hsome.resolve_left hall
  obtain ⟨k, hk⟩ := getElem?_of_mem hg
  refine ⟨k, (List.getElem?_eq_some_iff.1 hk).1, fun f' hf' hg' => ?_⟩
  rw [index_eq_some_iff, hk]
  refine iff_of_false (fun h' => hall ⟨f', hf', hg', h'⟩) fun e => ?_
  cases e
  exact hnot hf'

/-- **Some configuration agrees with the target**, on the flags that are in the set. -/
theorem exists_agreeing_config (h : ∀ g, Separated opt F g) (set : BuildFlagSet) :
    ∃ s ∈ set.configs, ∀ f ∈ F, Covered set f → s.get f = targetFlag opt f := by
  choose k hk hagree using fun g => (h g).exists_index
  obtain ⟨s, hs, henum, hflags⟩ := set.exists_config k hk (targetFlag opt)
  refine ⟨s, hs, fun f hf hc => ?_⟩
  rw [Covered] at hc
  rw [BuildFlagSet.get]
  cases hg : groupOf f with
  | some g =>
    rw [hg] at hc
    simp only [henum g hc]
    rw [Bool.eq_iff_iff, decide_eq_true_iff]
    exact (hagree g f hf (groupOf_eq_some_iff.1 hg)).symm
  | none =>
    rw [hg] at hc
    simp only [hflags, lookup_map_of_mem _ hc, Option.getD_some]

/-! ### The declaration of a foreign function -/

/-- A declaration that is found is valid in the configuration, and no other is. -/
theorem findDeclLoop_spec {config : BuildFlagSet} {i d : Nat} {decl : Option Nat} {hadValid : Bool}
    (h : findDeclLoop config i guards decl hadValid = some d) : (∀ e, decl = some e → e = d) ∧
      (∀ (j : Nat) (guard : IfdefCond), guards[j]? = some guard →
        condEval config.get guard = true → i + j = d) ∧
      (hadValid = true ∨ ∃ (j : Nat) (guard : IfdefCond), guards[j]? = some guard ∧
        condEval config.get guard = true) := by
  induction guards generalizing i decl hadValid with
  | nil =>
    rw [findDeclLoop] at h
    split at h
    · next hv =>
        subst h
        exact ⟨fun e he => by cases he; rfl, nofun, .inl hv⟩
    · cases h
  | cons guard guards ih =>
    unfold findDeclLoop at h
    -- the declaration number `i`, and those after it
    have hshift : ∀ {D : Option Nat} {b : Bool}, findDeclLoop config (i + 1) guards D b = some d →
        (condEval config.get guard = true → i = d) →
        ∀ (j : Nat) (g : IfdefCond), (guard :: guards)[j]? = some g →
          condEval config.get g = true → i + j = d := by
      intro D b hrun hfirst j g hj hg
      cases j with
      | zero =>
        rw [getElem?_cons_zero] at hj
        cases hj
        exact hfirst hg
      | succ j =>
        rw [getElem?_cons_succ] at hj
        have := (ih hrun).2.1 j g hj hg
        omega
    by_cases hv : condEval config.get guard = true
    · rw [if_pos hv] at h
      have hex : ∃ (j : Nat) (g : IfdefCond), (guard :: guards)[j]? = some g ∧
          condEval config.get g = true :=
        ⟨0, guard, getElem?_cons_zero, hv⟩
      cases decl with
      | some e =>
        simp only at h
        split at h
        · cases h
        next he =>
          have hd := (ih h).1 e rfl
          exact ⟨fun e' h' => by cases h'; exact hd, hshift h fun _ => by omega, .inr hex⟩
      | none =>
        have hd := (ih h).1 i rfl
        exact ⟨nofun, hshift h fun _ => hd, .inr hex⟩
    rw [if_neg hv] at h
    obtain ⟨hdecl, -, hsome⟩ := ih h
    refine ⟨hdecl, hshift h fun hv' => absurd hv' hv, ?_⟩
    obtain hh | ⟨j, g, hj, hg⟩ := hsome
    · exact .inl hh
    · exact .inr ⟨j + 1, g, by rwa [getElem?_cons_succ], hg⟩

/-- The declaration that is returned is the only one that is valid, in every configuration in which
the condition is true. -/
theorem ffiLoop_spec {cond : IfdefCond} {configs : List BuildFlagSet} {decl : Option Nat} {d : Nat}
    (h : ffiLoop guards cond configs decl = some (some d)) :
    (∀ e, decl = some e → e = d) ∧ ∀ config ∈ configs, condEval config.get cond = true →
      ∀ j, (∃ guard, guards[j]? = some guard ∧ condEval config.get guard = true) ↔ j = d := by
  induction configs generalizing decl with
  | nil =>
    cases h
    exact ⟨fun e he => by cases he; rfl, nofun⟩
  | cons config configs ih =>
    rw [ffiLoop] at h
    by_cases hc : condEval config.get cond = true
    · rw [if_pos hc] at h
      cases hfind : findDeclForConfig config guards decl with
      | none =>
        rw [hfind] at h
        cases h
      | some d' =>
        rw [hfind] at h
        obtain ⟨hd, hrest⟩ := ih h
        obtain rfl := hd d' rfl
        obtain ⟨hdecl, hvalid, hex⟩ := findDeclLoop_spec hfind
        refine ⟨hdecl, fun config' hmem hc' => ?_⟩
        obtain rfl | hmem := mem_cons.1 hmem
        · intro j
          constructor
          · rintro ⟨guard, hj, hg⟩
            have := hvalid j guard hj hg
            omega
          rintro rfl
          obtain ⟨j', guard, hj, hg⟩ := hex.resolve_left Bool.false_ne_true
          have he := hvalid j' guard hj hg
          rw [Nat.zero_add] at he
          exact ⟨guard, he ▸ hj, hg⟩
        · exact hrest config' hmem hc'
    rw [if_neg hc] at h
    obtain ⟨hd, hrest⟩ := ih h
    refine ⟨hd, fun config' hmem hc' => ?_⟩
    obtain rfl | hmem := mem_cons.1 hmem
    · exact absurd hc' hc
    · exact hrest config' hmem hc'

end

/-! ### Coverage -/

/-- The enumeration covers the target, for the conditions over the flags of `F`.

* A condition that is found never to be true is not true for the target.
* A condition that is found always to be true is true for the target.
* The declaration that is chosen for a call, in a region that is compiled for the target, is the
  only one whose guard is true for the target. -/
structure Covers (opt : Options) (F : List String) : Prop where
  never : ∀ c : Cond, (condNormalise c).flags ⊆ F → ifdefCondNormalise c = false →
    ifdefCondEval opt (condNormalise c) = false
  always : ∀ c : Cond, (condNormalise c).flags ⊆ F → ifdefCondNormalise (.not c) = false →
    ifdefCondEval opt (condNormalise c) = true
  ffi : ∀ (package : List (List FfiUse)) (ffiName : String) (cond : IfdefCond) (d : Nat),
    cond.flags ⊆ F → (∀ guard ∈ declGuards package ffiName, guard.flags ⊆ F) →
    findFfiDecl package ffiName cond = some d → ifdefCondEval opt cond = true →
    ∀ j, (∃ guard, (declGuards package ffiName)[j]? = some guard ∧
      ifdefCondEval opt guard = true) ↔ j = d

section
variable {opt : Options} {F : List String}

/-- What is never true is not true for the target. -/
theorem never_of_separated (h : ∀ g, Separated opt F g) {c : Cond}
    (hF : (condNormalise c).flags ⊆ F) (hn : ifdefCondNormalise c = false) :
    ifdefCondEval opt (condNormalise c) = false := by
  obtain ⟨s, hs, hagree⟩ := exists_agreeing_config h (findFlagsInCond (condNormalise c) {})
  have hany : (findFlagsInCond (condNormalise c) {}).configs.any
      (fun s => condEval s.get (condNormalise c)) = false := by
    unfold ifdefCondNormalise at hn
    split at hn
    · cases hn
    · exact hn
  have hfalse : condEval s.get (condNormalise c) = false := by
    rw [any_eq_false] at hany
    exact Bool.not_eq_true _ ▸ hany s hs
  rw [ifdefCondEval, ← hfalse]
  exact condEval_congr fun f hf => (hagree f (hF hf) (covered_findFlags hf _)).symm

/-- A flag as it is written. -/
def written (opt : Options) (f : String) : Cond :=
  if (osIsTarget opt f).isSome then .reference f else .string f

/-- The flag, or its negation: what is true for the target. -/
def literal (opt : Options) (f : String) : Cond :=
  if targetFlag opt f then written opt f else .not (written opt f)

/-- All of the flags as they are set by the target. -/
def conjunction (opt : Options) (f : String) (fs : List String) : Cond :=
  fs.foldl (fun c f => .and c (literal opt f)) (literal opt f)

variable {f : String}

theorem condNormalise_written (hf : f ≠ "posix") :
    condNormalise (written opt f) = .ifdefFlag f := by
  rw [written]
  split
  · rw [condNormalise, if_neg hf]
  · rfl

theorem flags_literal (hf : f ≠ "posix") : (condNormalise (literal opt f)).flags = [f] := by
  rw [literal]
  split
  · rw [condNormalise_written hf]
    rfl
  · rw [condNormalise, condNormalise_written hf]
    rfl

theorem condEval_literal (hf : f ≠ "posix") (v : String → Bool) :
    condEval v (condNormalise (literal opt f)) = true ↔ v f = targetFlag opt f := by
  rw [literal]
  split
  · next h => rw [condNormalise_written hf, condEval, h]
  next h =>
    have h' : targetFlag opt f = false := by simpa using h
    rw [condNormalise, condNormalise_written hf, condEval, condEval, h']
    cases v f <;> decide

theorem conjunction_spec (opt : Options) {fs : List String} (hf : f ≠ "posix")
    (hfs : ∀ f' ∈ fs, f' ≠ "posix") :
    (∀ f', f' ∈ (condNormalise (conjunction opt f fs)).flags ↔ f' ∈ f :: fs) ∧
      ∀ v, condEval v (condNormalise (conjunction opt f fs)) = true ↔
        ∀ f' ∈ f :: fs, v f' = targetFlag opt f' := by
  induction fs using reverseRecOn with
  | nil =>
    refine ⟨fun f' => by rw [conjunction, foldl_nil, flags_literal hf], fun v => ?_⟩
    rw [conjunction, foldl_nil, condEval_literal hf]
    simp
  | append_singleton fs a ih =>
    obtain ⟨ihf, ihv⟩ := ih fun f' hf' => hfs f' (mem_append_left _ hf')
    have ha := hfs a (mem_append_right _ (.head _))
    have e : condNormalise (conjunction opt f (fs ++ [a])) =
        .ifdefAnd (condNormalise (conjunction opt f fs)) (condNormalise (literal opt a)) := by
      rw [conjunction, foldl_append]
      rfl
    rw [e]
    refine ⟨fun f' => ?_, fun v => ?_⟩
    · rw [IfdefCond.flags, mem_append, ihf, flags_literal ha]
      simp [or_assoc]
    rw [condEval, Bool.and_eq_true, ihv, condEval_literal ha]
    grind

theorem posix_notMem (g : Group) : "posix" ∉ g.names := by cases g <;> decide

/-- Where the enumeration covers the target, each group is set as in a configuration. -/
theorem separated_of_covers (h : Covers opt F) (g : Group) : Separated opt F g := by
  obtain hnil | ⟨f, fs, hfs⟩ : (F.filter (· ∈ g.names)) = [] ∨
      ∃ f fs, F.filter (· ∈ g.names) = f :: fs := by
    cases F.filter (· ∈ g.names) with
    | nil => exact .inl rfl
    | cons f fs => exact .inr ⟨f, fs, rfl⟩
  · have hout : ∀ f ∈ F, f ∉ g.names := by
      intro f hf hg
      have : f ∈ F.filter (· ∈ g.names) := mem_filter.2 ⟨hf, decide_eq_true hg⟩
      rw [hnil] at this
      cases this
    refine ⟨fun f hf _ _ hg => absurd hg (hout f hf), .inr ?_⟩
    have hpos : 0 < g.names.length := by cases g <;> decide
    exact ⟨_, getElem_mem hpos, fun hF => hout _ hF (getElem_mem hpos)⟩
  have hmem : ∀ f', f' ∈ f :: fs ↔ f' ∈ F ∧ f' ∈ g.names := by
    intro f'
    rw [← hfs, mem_filter, decide_eq_true_iff]
  have hposix : ∀ f' ∈ f :: fs, f' ≠ "posix" := by
    rintro f' hf' rfl
    exact posix_notMem g ((hmem _).1 hf').2
  obtain ⟨hflags, heval⟩ := conjunction_spec opt (hposix f (.head _))
    fun f' hf' => hposix f' (.tail _ hf')
  -- the conjunction is true for the target, so it is true in some configuration
  have htrue : ifdefCondEval opt (condNormalise (conjunction opt f fs)) = true :=
    (heval _).2 fun _ _ => rfl
  have hnorm : ifdefCondNormalise (conjunction opt f fs) = true := by
    by_contra hne
    have hfalse := h.never (conjunction opt f fs)
      (fun f' hf' => ((hmem f').1 ((hflags f').1 hf')).1) (Bool.not_eq_true _ ▸ hne)
    rw [htrue] at hfalse
    cases hfalse
  obtain ⟨s, hs, hget⟩ : ∃ s ∈ (findFlagsInCond (condNormalise (conjunction opt f fs)) {}).configs,
      condEval s.get (condNormalise (conjunction opt f fs)) = true := by
    unfold ifdefCondNormalise at hnorm
    split at hnorm
    · next e =>
        have hf : f ∈ (condNormalise (conjunction opt f fs)).flags :=
          (hflags f).2 (.head _)
        rw [e] at hf
        cases hf
    · exact any_eq_true.1 hnorm
  have hagree := (heval _).1 hget
  obtain ⟨hvalid, hsame⟩ := BuildFlagSet.valid_of_mem_configs hs
  have hindex : ∀ f' ∈ f :: fs, (targetFlag opt f' = true ↔ g.index f' = some (s.enumFlags g)) := by
    intro f' hf'
    rw [← hagree f' hf', BuildFlagSet.get, groupOf_eq_some_iff.2 ((hmem f').1 hf').2]
    exact decide_eq_true_iff
  have hlt : s.enumFlags g < g.names.length := by
    refine hvalid g ?_
    rw [hsame.1]
    have hc := covered_findFlags ((hflags f).2 (.head _)) {}
    rw [Covered, groupOf_eq_some_iff.2 ((hmem f).1 (.head _)).2] at hc
    exact hc
  have hname := getElem?_eq_getElem hlt
  refine ⟨fun a ha b hb hag hbg hat hbt => ?_, ?_⟩
  · have h₁ := index_eq_some_iff.1 ((hindex a ((hmem a).2 ⟨ha, hag⟩)).1 hat)
    have h₂ := index_eq_some_iff.1 ((hindex b ((hmem b).2 ⟨hb, hbg⟩)).1 hbt)
    rw [h₁] at h₂
    cases h₂
    rfl
  by_cases hF : g.names[s.enumFlags g] ∈ F
  · have hin : g.names[s.enumFlags g] ∈ f :: fs := (hmem _).2 ⟨hF, getElem_mem hlt⟩
    exact .inl ⟨_, hF, getElem_mem hlt, (hindex _ hin).2 (index_eq_some_iff.2 hname)⟩
  · exact .inr ⟨_, getElem_mem hlt, hF⟩

/-- **The enumeration covers a target, for the conditions over some flags, if and only if the target
sets those of each group as a configuration does.** -/
theorem covers_iff (opt : Options) (F : List String) : Covers opt F ↔ ∀ g, Separated opt F g := by
  refine ⟨separated_of_covers, fun h => ⟨fun c hF hn => never_of_separated h hF hn,
    fun c hF hn => ?_, fun package ffiName cond d hcond hguards hfind htrue j => ?_⟩⟩
  · have hfalse := never_of_separated h (c := .not c) hF hn
    rw [ifdefCondEval, condNormalise, condEval] at hfalse
    rw [ifdefCondEval]
    cases hc : condEval (targetFlag opt) (condNormalise c) with
    | true => rfl
    | false =>
      rw [hc] at hfalse
      cases hfalse
  rw [findFfiDecl, Option.join_eq_some_iff] at hfind
  obtain ⟨s, hs, hagree⟩ := exists_agreeing_config h _
  have hvalid := (ffiLoop_spec hfind).2 s hs
  have hc : condEval s.get cond = ifdefCondEval opt cond :=
    condEval_congr fun f hf => hagree f (hcond hf) ((covered_findFlags hf {}).foldl _)
  have hg : ∀ guard ∈ declGuards package ffiName,
      condEval s.get guard = ifdefCondEval opt guard := fun guard hguard =>
    condEval_congr fun f hf => hagree f (hguards guard hguard hf) (covered_foldl hguard hf _)
  rw [← hvalid (hc.trans htrue) j]
  constructor
  · rintro ⟨guard, hj, hv⟩
    exact ⟨guard, hj, (hg guard (mem_of_getElem? hj)).trans hv⟩
  · rintro ⟨guard, hj, hv⟩
    exact ⟨guard, hj, (hg guard (mem_of_getElem? hj)).symm.trans hv⟩

/-- FreeBSD, for x86 with 64 bits. -/
def freeBSD : Options where
  triple := { os := .freeBSD, arch := .x86, pointerBits := 64, littleEndian := true,
              windowsMSVC := false }
  release := true
  userFlags := []
  runtimeStats := false
  runtimeStatsMessages := false

/-- `ifdef bsd and freebsd`, on FreeBSD: the condition is true, and it is reported as one that will
never be. -/
theorem bsd_and_freebsd_not_covered :
    ifdefCondNormalise (.and (.reference "bsd") (.reference "freebsd")) = false ∧
      ifdefCondEval freeBSD (condNormalise (.and (.reference "bsd") (.reference "freebsd"))) = true ∧
      ¬ ∀ opt F, Covers opt F := by
  refine ⟨by decide, by decide, fun h => ?_⟩
  have hfalse := (h freeBSD ["bsd", "freebsd"]).never
    (.and (.reference "bsd") (.reference "freebsd")) (by decide) (by decide)
  revert hfalse
  decide

end

end SpacePony.Pkg
