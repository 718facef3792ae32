import SpacePony.Packages.Persistent.Vec
import SpacePony.Support.Chunks

/-!
# Packages — persistent — the tree of a vector

The values that the tree holds, as a list.  A node at depth `d + 1` may hold fewer values than its
nodes have room for, since a pop leaves empty nodes behind; a node at depth 0 is full.

* `Holds.apply_eq`, `Holds.update`, `Holds.push`, `Holds.pop`: what the methods of a node do.
* `Holds.leafNodes`: the leaves, one after the other, are the values.
-/

namespace SpacePony.Persistent

open Nat Option List Collections Chunks

variable {A : Type}

/-! ### Bits -/

theorem shift32_eq {d : Nat} (hd : d ≤ 12) : shift32 d = 5 * d := by
  have hu : usize = 2 ^ 64 := rfl
  rw [shift32, hu, mod_eq_of_lt (by omega)]
  omega

theorem pow32_eq (d : Nat) : 2 ^ (5 * d) = 32 ^ d := pow_mul 2 5 d

/-- The digit of `i` at depth `d`. -/
theorem mask_eq {d : Nat} (i : Nat) (hd : d ≤ 12) : mask i d = i / 32 ^ d % 32 := by
  rw [mask, shift32_eq hd, shiftRight_eq_div_pow, pow32_eq]
  exact and_two_pow_sub_one_eq_mod _ 5

/-- The amount of values that a tree of depth `d` has room for. -/
theorem nextPow32_eq {d : Nat} (hd : d ≤ 11) : nextPow32 d = 32 ^ (d + 1) := by
  have hu : usize = 2 ^ 64 := rfl
  rw [nextPow32, shift32_eq (by omega), shiftLeft_eq, pow32_eq, ← pow_succ', hu]
  refine mod_eq_of_lt ?_
  calc 32 ^ (d + 1) ≤ 32 ^ 12 := Nat.pow_le_pow_right (by omega) (by omega)
    _ < 2 ^ 64 := by norm_num

/-- No vector without a root has values in the tree: there it counts as full. -/
theorem nextPow32_none : nextPow32 (usize - 1) = 0 := by decide

/-! ### What a node holds -/

/-- The node at the depth holds the values. -/
def Holds : Nat → VecNode A → List A → Prop
  | 0, .leaves ls, xs => ls = xs ∧ xs.length = 32
  | 0, .nodes _, _ => False
  | _ + 1, .leaves _, _ => False
  | d + 1, .nodes ns, xs =>
    xs.length ≤ ns.length * 32 ^ (d + 1) ∧ ns.length ≤ 32 ∧
      ∀ j n, ns[j]? = some n → Holds d n (chunk (32 ^ (d + 1)) xs j)

section
variable {d i : Nat} {n : VecNode A} {xs : List A}

theorem Holds.zero (h : Holds 0 n xs) : n = .leaves xs ∧ xs.length = 32 := by
  cases n with
  | leaves ls =>
    obtain ⟨rfl, hlen⟩ := h
    exact ⟨rfl, hlen⟩
  | nodes ns => exact h.elim

/-- A node above the leaves holds a chunk of the items under each of its children. -/
theorem Holds.succ (h : Holds (d + 1) n xs) :
    ∃ ns, n = .nodes ns ∧ xs.length ≤ ns.length * 32 ^ (d + 1) ∧ ns.length ≤ 32 ∧
      ∀ j m, ns[j]? = some m → Holds d m (chunk (32 ^ (d + 1)) xs j) := by
  cases n with
  | leaves ls => exact h.elim
  | nodes ns => exact ⟨ns, rfl, h⟩

/-- A digit of an index, and what is left of it below the digit. -/
theorem digit_eq (i d : Nat) : i / 32 ^ (d + 1) % 32 = i % 32 ^ (d + 2) / 32 ^ (d + 1) := by
  rw [pow_succ 32 (d + 1), mod_mul_right_div_self]

theorem rest_eq (i d : Nat) : i % 32 ^ (d + 1) = i % 32 ^ (d + 2) % 32 ^ (d + 1) :=
  (mod_mod_of_dvd _ (pow_dvd_pow 32 (by omega))).symm

/-- **Reading**. -/
theorem Holds.apply_eq (h : Holds d n xs) (hd : d ≤ 12) : n.apply d i = xs[i % 32 ^ (d + 1)]? := by
  induction d generalizing n xs with
  | zero =>
    obtain ⟨rfl, -⟩ := h.zero
    rw [VecNode.apply, mask_eq i hd, Nat.pow_zero, Nat.div_one]
    rfl
  | succ d ih =>
    obtain ⟨ns, rfl, hlen, -, hsub⟩ := h.succ
    have hS : 0 < 32 ^ (d + 1) := by positivity
    have hx : xs[i % 32 ^ (d + 2)]? = _ := getElem?_eq_chunk hS
    rw [← rest_eq] at hx
    rw [VecNode.apply, mask_eq i hd, digit_eq, hx]
    cases hn : ns[i % 32 ^ (d + 2) / 32 ^ (d + 1)]? with
    | some m =>
      rw [bind_eq_bind, bind_some]
      exact ih (hsub _ m hn) (by omega)
    | none =>
      have hle : xs.length ≤ i % 32 ^ (d + 2) / 32 ^ (d + 1) * 32 ^ (d + 1) :=
        hlen.trans (Nat.mul_le_mul_right _ (List.getElem?_eq_none_iff.1 hn))
      rw [chunk_eq_nil hle]
      rfl

theorem setAt_of_getElem? {α : Type} {l : List α} {j : Nat} {a : α} (h : l[j]? = some a) (b : α) :
    setAt l j b = some (l.set j b) := by
  obtain ⟨hj, -⟩ := List.getElem?_eq_some_iff.1 h
  rw [setAt, if_pos hj]

variable {ns : List (VecNode A)}

/-- A node of which one node is replaced. -/
theorem holds_set {j : Nat} {m : VecNode A} {xs' : List A}
    (hroom : xs'.length ≤ ns.length * 32 ^ (d + 1)) (hns : ns.length ≤ 32)
    (hsub : ∀ j m, ns[j]? = some m → Holds d m (chunk (32 ^ (d + 1)) xs j))
    (hm : Holds d m (chunk (32 ^ (d + 1)) xs' j))
    (hother : ∀ k, k ≠ j → chunk (32 ^ (d + 1)) xs' k = chunk (32 ^ (d + 1)) xs k) :
    Holds (d + 1) (.nodes (ns.set j m)) xs' := by
  refine ⟨by rwa [length_set], by rwa [length_set], fun k a ha => ?_⟩
  by_cases hk : k = j
  · subst hk
    obtain ⟨_, rfl⟩ := List.getElem?_eq_some_iff.1 ha
    rwa [getElem_set_self]
  rw [getElem?_set_ne (Ne.symm hk)] at ha
  rw [hother k hk]
  exact hsub k a ha

/-- **Changing a value**. -/
theorem Holds.update (h : Holds d n xs) (hd : d ≤ 12) (v : A) (hi : i % 32 ^ (d + 1) < xs.length) :
    ∃ n', n.update d i v = some n' ∧ Holds d n' (xs.set (i % 32 ^ (d + 1)) v) := by
  induction d generalizing n xs with
  | zero =>
    obtain ⟨rfl, hlen⟩ := h.zero
    have hidx : mask i 0 = i % 32 ^ (0 + 1) := by
      rw [mask_eq i hd, Nat.pow_zero, Nat.div_one]
      rfl
    refine ⟨.leaves (xs.set (i % 32 ^ (0 + 1)) v), ?_, rfl, by rw [length_set, hlen]⟩
    rw [VecNode.update, hidx, setAt, if_pos hi]
    rfl
  | succ d ih =>
    obtain ⟨ns, rfl, hlen, hns, hsub⟩ := h.succ
    have hS : 0 < 32 ^ (d + 1) := by positivity
    generalize hk : i % 32 ^ (d + 2) = k at hi
    have hidx : mask i (d + 1) = k / 32 ^ (d + 1) := by rw [mask_eq i hd, digit_eq, hk]
    have hrest : i % 32 ^ (d + 1) = k % 32 ^ (d + 1) := by rw [rest_eq, hk]
    have hj : k / 32 ^ (d + 1) < ns.length :=
      (Nat.div_lt_iff_lt_mul hS).2 (hi.trans_le hlen)
    have hn := getElem?_eq_getElem hj
    have hin : i % 32 ^ (d + 1) < (chunk (32 ^ (d + 1)) xs (k / 32 ^ (d + 1))).length := by
      rw [length_chunk, hrest, lt_min_iff]
      have := Nat.div_add_mod' k (32 ^ (d + 1))
      exact ⟨Nat.mod_lt _ hS, by omega⟩
    obtain ⟨n', hrun, hn'⟩ := ih (hsub _ _ hn) (by omega) hin
    refine ⟨.nodes (ns.set (k / 32 ^ (d + 1)) n'), ?_, ?_⟩
    · rw [VecNode.update, hidx, hn]
      simp only [bind_eq_bind, bind_some, hrun, setAt_of_getElem? hn]
    · refine holds_set (by rwa [length_set]) hns hsub ?_ fun j hj => chunk_set_other v hj
      rwa [chunk_set_same, ← hrest]

/-- The nodes of a node at depth 1 are full. -/
theorem full_of_holds_one (hlen : xs.length ≤ ns.length * 32)
    (hsub : ∀ j m, ns[j]? = some m → Holds 0 m (chunk 32 xs j)) : xs.length = ns.length * 32 := by
  rcases Nat.eq_zero_or_pos ns.length with h0 | hpos
  · omega
  have hlast := getElem?_eq_getElem (show ns.length - 1 < ns.length by omega)
  have h32 := (hsub _ _ hlast).zero.2
  rw [length_chunk] at h32
  omega

theorem holds_empty (d : Nat) : Holds (d + 1) (.empty (d + 1) : VecNode A) [] :=
  ⟨zero_le _, zero_le _, fun j n hn => by cases hn⟩

/-- **Pushing** a full tail. -/
theorem Holds.push {t : List A} (h : Holds (d + 1) n xs) (hd : d + 1 ≤ 12) (hfull : 32 ∣ xs.length)
    (hi : i % 32 ^ (d + 2) = xs.length) (ht : t.length = 32) :
    ∃ n', n.push (d + 1) i t = some n' ∧ Holds (d + 1) n' (xs ++ t) := by
  induction d generalizing n xs with
  | zero =>
    obtain ⟨ns, rfl, hlen, hns, hsub⟩ := h.succ
    rw [Nat.zero_add, Nat.pow_one] at hlen hsub
    have heq := full_of_holds_one hlen hsub
    have hroom : ns.length < 32 := by
      rw [Nat.zero_add] at hi
      omega
    have hfit : xs.length % 32 + t.length ≤ 32 := by omega
    refine ⟨.nodes (ns ++ [.leaves t]), rfl, ?_, ?_, fun j m hm => ?_⟩
    · rw [length_append, length_append, length_singleton, Nat.zero_add, Nat.pow_one]
      omega
    · rw [length_append, length_singleton]
      omega
    rw [Nat.zero_add, Nat.pow_one]
    have hdiv : xs.length / 32 = ns.length := by omega
    by_cases hj : j = ns.length
    · subst hj
      rw [getElem?_concat_length] at hm
      cases hm
      rw [← hdiv, chunk_append_same hfit, chunk_eq_nil (by omega)]
      exact ⟨rfl, ht⟩
    rw [chunk_append_other hfit (by omega)]
    rw [getElem?_append] at hm
    split at hm
    · exact hsub j m hm
    · rw [getElem?_singleton, if_neg (by omega)] at hm
      cases hm
  | succ d ih =>
    obtain ⟨ns, rfl, hlen, hns, hsub⟩ := h.succ
    have hS : 0 < 32 ^ (d + 1 + 1) := by positivity
    have hidx : mask i (d + 2) = xs.length / 32 ^ (d + 1 + 1) := by rw [mask_eq i hd, digit_eq, hi]
    have hrest : i % 32 ^ (d + 1 + 1) = xs.length % 32 ^ (d + 1 + 1) := by rw [rest_eq, hi]
    have hdvd : 32 ∣ 32 ^ (d + 1 + 1) := Dvd.intro_left (32 ^ (d + 1)) rfl
    have hfull' : 32 ∣ xs.length % 32 ^ (d + 1 + 1) := (Nat.dvd_mod_iff hdvd).2 hfull
    have hfit : xs.length % 32 ^ (d + 1 + 1) + t.length ≤ 32 ^ (d + 1 + 1) := by
      have hlt := Nat.mod_lt xs.length hS
      rw [ht]
      obtain ⟨a, ha⟩ := hfull'
      obtain ⟨b, hb⟩ := hdvd
      omega
    have hcap : xs.length < 32 * 32 ^ (d + 1 + 1) := by
      rw [← hi, ← Nat.pow_succ']
      exact Nat.mod_lt _ (by positivity)
    have hsum := Nat.div_add_mod' xs.length (32 ^ (d + 1 + 1))
    have hdiv : xs.length / 32 ^ (d + 1 + 1) < 32 := (Nat.div_lt_iff_lt_mul hS).2 hcap
    by_cases hj : xs.length / 32 ^ (d + 1 + 1) < ns.length
    · have hn := getElem?_eq_getElem hj
      obtain ⟨n', hrun, hn'⟩ := ih (hsub _ _ hn) (by omega)
        (by rwa [length_chunk_end hS]) (by rw [length_chunk_end hS, hrest])
      refine ⟨.nodes (ns.set (xs.length / 32 ^ (d + 1 + 1)) n'), ?_, ?_⟩
      · rw [VecNode.push, hidx, if_pos hj, hn]
        simp only [bind_eq_bind, bind_some, hrun, setAt_of_getElem? hn]
      refine holds_set ?_ hns hsub ?_ fun k hk => chunk_append_other hfit hk
      · have hle : (xs.length / 32 ^ (d + 1 + 1) + 1) * 32 ^ (d + 1 + 1) ≤ ns.length * 32 ^ (d + 1 + 1) :=
          Nat.mul_le_mul_right _ hj
        rw [Nat.succ_mul] at hle
        rw [length_append]
        omega
      · rwa [chunk_append_same hfit]
    have hle := Nat.le_of_not_lt hj
    have hmul : ns.length * 32 ^ (d + 1 + 1) ≤ xs.length / 32 ^ (d + 1 + 1) * 32 ^ (d + 1 + 1) :=
      Nat.mul_le_mul_right _ hle
    have hzero : xs.length % 32 ^ (d + 1 + 1) = 0 := by omega
    have hend : xs.length / 32 ^ (d + 1 + 1) = ns.length :=
      Nat.eq_of_mul_eq_mul_right hS (by omega)
    obtain ⟨n', hrun, hn'⟩ := ih (holds_empty (A := A) d) (by omega)
      (by rw [length_nil]; omega) (by rw [hrest, hzero]; rfl)
    refine ⟨.nodes (ns ++ [n']), ?_, ?_, ?_, fun j m hm => ?_⟩
    · rw [VecNode.push, hidx, if_neg hj]
      simp only [bind_eq_bind, bind_some, hrun]
    · rw [length_append, length_append, length_singleton, Nat.succ_mul]
      omega
    · rw [length_append, length_singleton]
      omega
    by_cases hj' : j = ns.length
    · subst hj'
      rw [getElem?_concat_length] at hm
      cases hm
      rw [← hend, chunk_append_same hfit, chunk_eq_nil (by omega)]
      exact hn'
    rw [chunk_append_other hfit (by omega)]
    rw [getElem?_append] at hm
    split at hm
    · exact hsub j m hm
    · rw [getElem?_singleton, if_neg (by omega)] at hm
      cases hm

/-- **Popping** a full tail. -/
theorem Holds.pop {t : List A} (h : Holds d n (xs ++ t)) (hd : d ≤ 12) (hfull : 32 ∣ xs.length)
    (hi : i % 32 ^ (d + 1) = xs.length + 31) (ht : t.length = 32) :
    ∃ n', n.pop d i = some (n', t) ∧ (d ≠ 0 → Holds d n' xs) := by
  induction d generalizing n xs with
  | zero =>
    obtain ⟨rfl, hlen⟩ := h.zero
    have hnil : xs = [] := by
      rw [length_append] at hlen
      exact List.length_eq_zero_iff.1 (by omega)
    subst hnil
    exact ⟨_, rfl, fun hne => absurd rfl hne⟩
  | succ d ih =>
    obtain ⟨ns, rfl, hlen, hns, hsub⟩ := h.succ
    have hS : 0 < 32 ^ (d + 1) := by positivity
    have hdvd : 32 ∣ 32 ^ (d + 1) := Dvd.intro_left (32 ^ d) rfl
    have hfull' : 32 ∣ xs.length % 32 ^ (d + 1) := (Nat.dvd_mod_iff hdvd).2 hfull
    have hlt := Nat.mod_lt xs.length hS
    have hsum := Nat.div_add_mod' xs.length (32 ^ (d + 1))
    have hfit : xs.length % 32 ^ (d + 1) + 32 ≤ 32 ^ (d + 1) := by
      obtain ⟨a, ha⟩ := hfull'
      obtain ⟨b, hb⟩ := hdvd
      omega
    -- the last value of the tail is in the chunk that its first value is in
    obtain ⟨hdiv, hmod⟩ := (index_eq_iff (S := 32 ^ (d + 1))
      (j := xs.length / 32 ^ (d + 1)) (i := xs.length + 31) (k := xs.length % 32 ^ (d + 1) + 31)
      (by omega)).1 (by omega)
    have hidx : mask i (d + 1) = xs.length / 32 ^ (d + 1) := by
      rw [mask_eq i hd, digit_eq, hi, ← hdiv]
    have hrest : i % 32 ^ (d + 1) = xs.length % 32 ^ (d + 1) + 31 := by rw [rest_eq, hi, ← hmod]
    rw [length_append, ht] at hlen
    have hj : xs.length / 32 ^ (d + 1) < ns.length :=
      (Nat.div_lt_iff_lt_mul hS).2 (by omega)
    have hn := getElem?_eq_getElem hj
    have hm := hsub _ _ hn
    rw [chunk_append_same (by rw [ht]; exact hfit)] at hm
    obtain ⟨n', hrun, hn'⟩ := ih hm (by omega) (by rwa [length_chunk_end hS])
      (by rw [length_chunk_end hS, hrest])
    have hother : ∀ k, k ≠ xs.length / 32 ^ (d + 1) →
        chunk (32 ^ (d + 1)) xs k = chunk (32 ^ (d + 1)) (xs ++ t) k :=
      fun k hk => (chunk_append_other (by rw [ht]; exact hfit) hk).symm
    cases d with
    | zero =>
      refine ⟨.nodes ns.dropLast, ?_, fun _ => ?_⟩
      · rw [VecNode.pop, hidx, hn]
        simp only [bind_eq_bind, bind_some, hrun]
      have heq : (xs ++ t).length = ns.length * 32 :=
        full_of_holds_one (by rw [length_append, ht]; omega) hsub
      rw [length_append, ht] at heq
      refine ⟨?_, ?_, fun j m hm => ?_⟩
      · rw [length_dropLast, Nat.zero_add, Nat.pow_one]
        omega
      · rw [length_dropLast]
        omega
      rw [getElem?_dropLast] at hm
      split at hm
      · rw [hother j (by omega)]
        exact hsub j m hm
      · cases hm
    | succ d =>
      refine ⟨.nodes (ns.set (xs.length / 32 ^ (d + 1 + 1)) n'), ?_, fun _ => ?_⟩
      · rw [VecNode.pop, hidx, hn]
        simp only [bind_eq_bind, bind_some, hrun, setAt_of_getElem? hn]
      · exact holds_set (by omega) hns hsub (hn' (Nat.succ_ne_zero d)) hother

/-- There is nothing to pop where nothing is left. -/
theorem Holds.pop_nil (h : Holds d n []) : n.pop d i = none := by
  induction d generalizing n with
  | zero => cases h.zero.2
  | succ d ih =>
    obtain ⟨ns, rfl, -, -, hsub⟩ := h.succ
    have hchunk : ∀ (j : Nat) (m : VecNode A), ns[j]? = some m → m.pop d i = none := by
      intro j m hm
      have hh := hsub j m hm
      rw [chunk_eq_nil (zero_le _)] at hh
      exact ih hh
    cases d with
    | zero =>
      rw [VecNode.pop]
      cases hn : ns[mask i 1]? with
      | none => rfl
      | some m =>
        simp only [bind_eq_bind, bind_some, hchunk _ m hn, bind_none]
    | succ d =>
      rw [VecNode.pop]
      cases hn : ns[mask i (d + 2)]? with
      | none => rfl
      | some m =>
        simp only [bind_eq_bind, bind_some, hchunk _ m hn, bind_none]

/-- **Growing**. -/
theorem Holds.growRoot (h : Holds d n xs) (hlen : xs.length ≤ 32 ^ (d + 1)) :
    Holds (d + 1) n.growRoot xs := by
  refine ⟨by rwa [length_singleton, one_mul], by rw [length_singleton]; omega, fun j m hm => ?_⟩
  rw [getElem?_singleton] at hm
  split at hm
  · next hj =>
      cases hm
      rwa [hj, chunk_zero hlen]
  · cases hm

theorem Holds.length_le (h : Holds d n xs) : xs.length ≤ 32 ^ (d + 1) := by
  cases d with
  | zero => exact h.zero.2.le
  | succ d =>
    obtain ⟨ns, -, hlen, hns, -⟩ := h.succ
    calc xs.length ≤ ns.length * 32 ^ (d + 1) := hlen
      _ ≤ 32 * 32 ^ (d + 1) := mul_le_mul_right _ hns
      _ = 32 ^ (d + 2) := (pow_succ' (m := 32) (n := d + 1)).symm

/-! ### The leaves -/

theorem leafNodes_go (happ : ∀ m ∈ ns, ∀ l, m.leafNodes l = l ++ m.leafNodes [])
    (lns : List (List A)) :
    VecNode.leafNodes.go ns lns = lns ++ ns.flatMap fun m => m.leafNodes [] := by
  induction ns generalizing lns with
  | nil => simp [VecNode.leafNodes.go]
  | cons m ns ih =>
    rw [VecNode.leafNodes.go, ih fun a ha => happ a (.tail _ ha),
      happ m (.head _), flatMap_cons, append_assoc]

theorem Holds.leafNodes_append (h : Holds d n xs) (lns : List (List A)) :
    n.leafNodes lns = lns ++ n.leafNodes [] := by
  induction d generalizing n xs lns with
  | zero =>
    obtain ⟨rfl, -⟩ := h.zero
    rfl
  | succ d ih =>
    obtain ⟨ns, rfl, -, -, hsub⟩ := h.succ
    have happ : ∀ m ∈ ns, ∀ l, m.leafNodes l = l ++ m.leafNodes [] := by
      intro m hm l
      obtain ⟨j, hj⟩ := getElem?_of_mem hm
      exact ih (hsub j m hj) l
    simp only [VecNode.leafNodes]
    rw [leafNodes_go happ lns, leafNodes_go happ [], nil_append]

/-- The leaves, one after the other, are the values, and none of them is empty. -/
theorem Holds.leafNodes (h : Holds d n xs) :
    (n.leafNodes []).flatten = xs ∧ ∀ l ∈ n.leafNodes [], l ≠ [] := by
  induction d generalizing n xs with
  | zero =>
    obtain ⟨rfl, hlen⟩ := h.zero
    refine ⟨by simp [VecNode.leafNodes], fun l hl => ?_⟩
    rw [VecNode.leafNodes, nil_append, mem_singleton] at hl
    subst hl
    exact ne_nil_of_length_pos (by omega)
  | succ d ih =>
    obtain ⟨ns, rfl, hlen, -, hsub⟩ := h.succ
    have happ : ∀ m ∈ ns, ∀ l, m.leafNodes l = l ++ m.leafNodes [] := by
      intro m hm l
      obtain ⟨j, hj⟩ := getElem?_of_mem hm
      exact (hsub j m hj).leafNodes_append l
    rw [VecNode.leafNodes, leafNodes_go happ, nil_append]
    constructor
    · rw [← flatMap_id, flatMap_assoc]
      refine flatMap_eq_of_chunks hlen fun j m hm => ?_
      rw [flatMap_id]
      exact (ih (hsub j m hm)).1
    intro l hl
    obtain ⟨m, hm, hl⟩ := mem_flatMap.1 hl
    obtain ⟨j, hj⟩ := getElem?_of_mem hm
    exact (ih (hsub j m hj)).2 l hl

end

end SpacePony.Persistent
