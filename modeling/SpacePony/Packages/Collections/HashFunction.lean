import Mathlib.Data.List.Perm.Basic
import Mathlib.Tactic

/-!
# Packages — collections — hash functions and entries

What the mutable and the persistent map share: `interface HashFunction` of `hashable.pony`, and
lists of entries whose keys are different.
-/

namespace SpacePony.Collections

variable {K V : Type}

/-- `interface HashFunction`. -/
structure HashFunction (K : Type) where
  hash : K → BitVec 64
  eq : K → K → Bool

/-- What the map relies on. -/
structure HashFunction.Lawful (H : HashFunction K) : Prop where
  refl : ∀ a, H.eq a a = true
  symm : ∀ a b, H.eq a b = true → H.eq b a = true
  trans : ∀ a b c, H.eq a b = true → H.eq b c = true → H.eq a c = true
  hash : ∀ a b, H.eq a b = true → H.hash a = H.hash b

theorem HashFunction.Lawful.eq_left {H : HashFunction K} (L : H.Lawful) {a b : K}
    (h : H.eq a b = true) (c : K) : H.eq a c = H.eq b c :=
  Bool.eq_iff_iff.2 ⟨L.trans _ _ _ (L.symm _ _ h), L.trans _ _ _ h⟩

section
variable (H : HashFunction K)

/-- What a list of entries says about a key. -/
def lookup (l : List (K × V)) (k : K) : Option V := (l.find? fun e => H.eq e.1 k).map Prod.snd

/-- The map `f` with the key `k` set to `v`. -/
def put (f : K → Option V) (k : K) (v : V) : K → Option V :=
  fun k' => if H.eq k k' then some v else f k'

/-- The map `f` without the key `k`. -/
def del (f : K → Option V) (k : K) : K → Option V := fun k' => if H.eq k k' then none else f k'

/-- Keys of different entries are different. -/
def Distinct (l : List (K × V)) : Prop := l.Pairwise fun a b => H.eq a.1 b.1 = false

variable {H} {l l' : List (K × V)} {e : K × V} {k : K} {v : V}

theorem lookup_cons : lookup H (e :: l) k = if H.eq e.1 k then some e.2 else lookup H l k := by
  rw [lookup, List.find?_cons]
  cases H.eq e.1 k <;> rfl

theorem Distinct.perm (L : H.Lawful) (h : Distinct H l) (p : l.Perm l') : Distinct H l' := by
  refine (p.pairwise_iff fun {a b} hab => ?_).1 h
  rw [Bool.eq_false_iff] at hab ⊢
  exact fun hba => hab (L.symm _ _ hba)

/-- A key is found in a list of different keys when one of its entries has it. -/
theorem lookup_eq_some (L : H.Lawful) (h : Distinct H l) :
    lookup H l k = some v ↔ ∃ e ∈ l, H.eq e.1 k = true ∧ e.2 = v := by
  induction l with
  | nil => simp [lookup]
  | cons a l ih =>
    obtain ⟨ha, hl⟩ := List.pairwise_cons.1 h
    rw [lookup_cons]
    by_cases hk : H.eq a.1 k = true
    · rw [if_pos hk]
      constructor
      · intro hv
        exact ⟨a, .head _, hk, Option.some.inj hv⟩
      rintro ⟨e, he, hek, rfl⟩
      rcases List.mem_cons.1 he with rfl | he
      · rfl
      have := L.trans _ _ _ hk (L.symm _ _ hek)
      rw [ha e he] at this
      cases this
    rw [if_neg hk, ih hl]
    constructor
    · rintro ⟨e, he, hek, hv⟩
      exact ⟨e, .tail _ he, hek, hv⟩
    rintro ⟨e, he, hek, hv⟩
    rcases List.mem_cons.1 he with rfl | he
    · exact absurd hek hk
    · exact ⟨e, he, hek, hv⟩

theorem lookup_perm (L : H.Lawful) (h : Distinct H l) (p : l.Perm l') :
    lookup H l = lookup H l' := by
  funext k
  refine Option.ext fun v => ?_
  rw [lookup_eq_some L h, lookup_eq_some L (h.perm L p)]
  exact exists_congr fun e => and_congr_left fun _ => p.mem_iff

theorem lookup_eq_none (h : ∀ e ∈ l, H.eq e.1 k = false) : lookup H l k = none := by
  rw [lookup, List.find?_eq_none.2 fun e he => by simp [h e he]]
  rfl

/-- Setting a key that one entry has. -/
theorem lookup_replace (L : H.Lawful) {e' : K × V} (hk : H.eq e.1 k = true)
    (hk' : H.eq e'.1 k = true) : lookup H (e' :: l) = put H (lookup H (e :: l)) k e'.2 := by
  funext k'
  rw [lookup_cons, put, lookup_cons, L.eq_left hk', L.eq_left hk]
  split_ifs <;> rfl

/-- Removing the entry of a key. -/
theorem lookup_remove (L : H.Lawful) (h : Distinct H (e :: l)) (hk : H.eq e.1 k = true) :
    lookup H l = del H (lookup H (e :: l)) k := by
  funext k'
  rw [del, lookup_cons, L.eq_left hk]
  split_ifs with hk'
  · refine lookup_eq_none fun a ha => ?_
    rw [Bool.eq_false_iff]
    intro hak
    have h1 := (List.pairwise_cons.1 h).1 a ha
    have h2 : H.eq e.1 a.1 = true :=
      L.trans _ _ _ (L.trans _ _ _ hk hk') (L.symm _ _ hak)
    rw [h1] at h2
    cases h2
  · rfl

/-- Setting the keys of different entries one after the other. -/
theorem foldl_put (L : H.Lawful) (h : Distinct H l) (f : K → Option V) :
    l.foldl (fun f e => put H f e.1 e.2) f = fun k => (lookup H l k).or (f k) := by
  induction l generalizing f with
  | nil => rfl
  | cons a l ih =>
    obtain ⟨ha, hl⟩ := List.pairwise_cons.1 h
    rw [List.foldl_cons, ih hl]
    funext k
    rw [lookup_cons, put]
    by_cases hk : H.eq a.1 k = true
    · have hnone : lookup H l k = none := lookup_eq_none fun e he => by
        rw [Bool.eq_false_iff]
        intro hek
        have := L.trans _ _ _ hk (L.symm _ _ hek)
        rw [ha e he] at this
        cases this
      rw [if_pos hk, if_pos hk, hnone]
      rfl
    · rw [if_neg hk, if_neg hk]

end

/-- Numbers, each its own hash. -/
def natHash : HashFunction Nat where
  hash n := BitVec.ofNat 64 n
  eq a b := a == b

theorem natHash_lawful : natHash.Lawful where
  refl a := beq_self_eq_true a
  symm a b h := by rw [eq_of_beq h]; exact beq_self_eq_true b
  trans a b c h h' := by rw [eq_of_beq h]; exact h'
  hash a b h := by rw [eq_of_beq h]

end SpacePony.Collections
