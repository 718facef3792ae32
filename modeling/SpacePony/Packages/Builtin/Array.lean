import Mathlib.Algebra.Group.Nat.Defs
import Mathlib.Data.Nat.Size
import SpacePony.Support.Raise
import SpacePony.Support.Rearrange

/-!
# Packages — builtin — Array

`array.pony`: the methods that add elements at the end, and the ones that heaps need.
`reserve_ends`, `push_ends`, `append_ends` and `concat_ends` say what they do when the space that is
asked for does not wrap.
-/

namespace SpacePony.Builtin

open Nat List Raise

/-- Why a method has no result: an error, a loop with too few rounds, no memory left, or memory that
is not the array's own. -/
inductive Fault where
  | raised
  | rounds
  | exhausted
  | corrupt
deriving DecidableEq

/-- The width of a `USize`, and the size of an element in bytes. -/
structure Target where
  w : ℕ
  elem : ℕ
  elem_pos : 0 < elem
  elem_lt : 8 * elem < 2 ^ w
  block_lt : 32 < 2 ^ w

/-- The sizes that the run-time grants at some moment. -/
structure Memory (T : Target) where
  grants : ℕ → Bool
  half : ∀ n, grants n → n < 2 ^ (T.w - 1)

/-- `class Array`. -/
structure PonyArray (A : Type) where
  items : List A := []
  alloc : ℕ := 0
  cells : ℕ := 0
  extra : List A := []
deriving DecidableEq

/-- A method that works on an array. -/
abbrev Arr (A : Type) := ExceptT Fault (StateM (PonyArray A))

variable {A : Type} {T : Target}

/-- A sequence that elements are read from: its size, which is a `USize`, and its `apply`. -/
structure ReadSeq (T : Target) (A : Type) where
  size : ℕ
  apply : ℕ → Option A
  size_lt : size < 2 ^ T.w

/-- An iterator: what its calls of `next` give or raise, while it has a next. -/
abbrev Iterator (A : Type) := List (Option A)

namespace Target

/-- `USize.next_pow2`. -/
def nextPow2 (T : Target) (x : ℕ) : ℕ :=
  let clz := T.w - ((x + (2 ^ T.w - 1)) % 2 ^ T.w).size
  1 <<< (if clz = 0 then 0 else T.w - clz)

/-- `Pointer.min_alloc`. -/
def minAlloc (T : Target) : ℕ := if T.elem > 32 then 1 else 32 / T.elem

/-- The space that is made for `len` elements. -/
def space (T : Target) (len : ℕ) : ℕ :=
  max (max (max (T.nextPow2 len) len) 8) T.minAlloc

end Target

namespace PonyArray

/-- `try … end`. -/
def attempt (x : Arr A Unit) : Arr A Unit :=
  tryCatch x fun
    | .raised => pure ()
    | e => throw e

/-- `Pointer.realloc`, which keeps the elements. -/
def realloc (M : Memory T) (len : ℕ) : Arr A Unit := do
  let bytes := len * T.elem % 2 ^ T.w
  if M.grants bytes then do
    let a ← get
    if a.items.length ≤ bytes / T.elem then set { a with cells := bytes / T.elem }
    else throw .corrupt
  else throw .exhausted

/-- `Array.reserve`. -/
def reserve (M : Memory T) (len : ℕ) : Arr A Unit := do
  if (← get).alloc < len then do
    modify fun a => { a with alloc := T.space len }
    realloc M (T.space len)
  else pure ()

/-- `new create`. -/
def create (M : Memory T) (len : ℕ) : Arr A Unit := do
  set ({} : PonyArray A)
  if len > 0 then do
    modify fun a => { a with alloc := T.space len }
    realloc M (T.space len)
  else pure ()

/-- `_ptr.update(_size + n, v)`, where `n` elements are written after the last one. -/
def store (n : ℕ) (v : A) : Arr A Unit := do
  let a ← get
  if a.items.length + n < a.cells then set { a with extra := a.extra.take n ++ [v] }
  else throw .corrupt

/-- `_size = _size + n`, where `n` elements are written after the last one. -/
def count : Arr A Unit := modify fun a => { a with items := a.items ++ a.extra, extra := [] }

/-- `Array.push`. -/
def push (M : Memory T) (v : A) : Arr A Unit := do
  reserve M (((← get).items.length + 1) % 2 ^ T.w)
  store 0 v
  count

/-- `Array.delete`. -/
def delete (i : ℕ) : Arr A A := do
  let a ← get
  match a.items[i]? with
  | some x => set { a with items := a.items.eraseIdx i }; pure x
  | none => throw .raised

/-- `Array.pop`. -/
def pop (T : Target) : Arr A A := do
  delete (((← get).items.length + (2 ^ T.w - 1)) % 2 ^ T.w)

/-- `Array.apply`. -/
def apply (i : ℕ) : Arr A A := do
  match (← get).items[i]? with
  | some x => pure x
  | none => throw .raised

/-- `Array.swap_elements`. -/
def swapElements (i j : ℕ) : Arr A Unit := do
  let a ← get
  match a.items[i]?, a.items[j]? with
  | some x, some y => set { a with items := (a.items.set i y).set j x }
  | _, _ => throw .raised

/-- `Array.clear`. -/
def clear : Arr A Unit := modify fun a => { a with items := [] }

/-- The loop of `append`, with `left` elements to go. -/
def copyLoop (seq : ReadSeq T A) (offset : ℕ) : (left n : ℕ) → Arr A Unit
  | 0, _ => pure ()
  | left + 1, n => do
      match seq.apply ((offset + n) % 2 ^ T.w) with
      | some x => store n x; copyLoop seq offset left (n + 1)
      | none => throw .raised

/-- `Array.append`. -/
def append (M : Memory T) (seq : ReadSeq T A) (offset len : ℕ) : Arr A Unit := do
  if offset ≥ seq.size then pure () else do
    let copyLen := min len (seq.size - offset)
    reserve M (((← get).items.length + copyLen) % 2 ^ T.w)
    attempt (copyLoop seq offset copyLen 0)
    count

/-- The first loop of `concat`: what is left of the iterator after `offset` elements, none when it
ends before.  An error ends the loop. -/
def skip : (offset : ℕ) → Iterator A → Option (Iterator A)
  | 0, iter => some iter
  | _ + 1, [] => none
  | _ + 1, none :: iter => some iter
  | offset + 1, some _ :: iter => skip offset iter

/-- The loop of `concat` that writes to the memory, with `left` elements to go. -/
def fillLoop : (left n : ℕ) → Iterator A → Arr A Unit
  | 0, _, _ => pure ()
  | _ + 1, _, [] => pure ()
  | _ + 1, _, none :: _ => throw .raised
  | left + 1, n, some x :: iter => do
      store n x
      fillLoop left (n + 1) iter

/-- The loop of `concat` that pushes, with `left` elements to go. -/
def pushLoop (M : Memory T) : (left : ℕ) → Iterator A → Arr A Unit
  | 0, _ => pure ()
  | _ + 1, [] => pure ()
  | _ + 1, none :: _ => throw .raised
  | left + 1, some x :: iter => do
      push M x
      pushLoop M left iter

/-- `Array.concat`. -/
def concat (M : Memory T) (iter : Iterator A) (offset len : ℕ) : Arr A Unit :=
  match skip offset iter with
  | none => pure ()
  | some iter =>
    if len ≠ 2 ^ T.w - 1 then do
      reserve M (((← get).items.length + len) % 2 ^ T.w)
      attempt (fillLoop len 0 iter)
      count
    else attempt (pushLoop M len iter)

/-! ### What the methods do -/

/-- The elements that are given before an error. -/
def upToError : List (Option A) → List A
  | some x :: given => x :: upToError given
  | _ => []

/-- The elements that `append` is to add. -/
def appended (seq : ReadSeq T A) (offset len : ℕ) : List A :=
  upToError ((range' offset (min len (seq.size - offset))).map seq.apply)

/-- The elements that `concat` is to add. -/
def concatenated (iter : Iterator A) (offset len : ℕ) : List A :=
  match skip offset iter with
  | none => []
  | some iter => upToError (iter.take len)

/-- The array's cells are those that `_alloc` counts, and its elements fit in them. -/
structure Sound (T : Target) (a : PonyArray A) : Prop where
  cells : a.cells = a.alloc
  fits : a.items.length + a.extra.length ≤ a.alloc
  half : a.alloc * T.elem < 2 ^ (T.w - 1)

/-- Between calls no element is written and not counted. -/
structure Settled (T : Target) (a : PonyArray A) : Prop extends Sound T a where
  extra : a.extra = []

/-- Space for `n` elements is there, or its size in bytes does not wrap. -/
def Fits (T : Target) (a : PonyArray A) (n : ℕ) : Prop :=
  a.alloc < n → T.space n * T.elem < 2 ^ T.w

variable {M : Memory T} {a : PonyArray A} {n len offset : ℕ} {v : A}

theorem width_pos (T : Target) : 0 < T.w := by
  have h := T.block_lt
  rcases Nat.eq_zero_or_pos T.w with hw | hw
  · rw [hw] at h
    omega
  · exact hw

theorem two_pow (T : Target) : 2 ^ T.w = 2 * 2 ^ (T.w - 1) := by
  rw [← Nat.pow_succ', Nat.succ_eq_add_one, Nat.sub_add_cancel (width_pos T)]

theorem le_space (T : Target) (n : ℕ) : n ≤ T.space n := by
  unfold Target.space
  omega

theorem le_mul_elem (T : Target) (n : ℕ) : n ≤ n * T.elem := Nat.le_mul_of_pos_right n T.elem_pos

theorem Sound.length_lt (h : Sound T a) : a.items.length < 2 ^ (T.w - 1) := by
  have := h.fits
  have := le_mul_elem T a.alloc
  have := h.half
  omega

/-- The next power of two is at most double. -/
theorem nextPow2_succ_le (hn : n < 2 ^ T.w) : T.nextPow2 (n + 1) ≤ max 1 (2 * n) := by
  have hmod : (n + 1 + (2 ^ T.w - 1)) % 2 ^ T.w = n := by
    rw [show n + 1 + (2 ^ T.w - 1) = n + 2 ^ T.w by omega, Nat.add_mod_right, Nat.mod_eq_of_lt hn]
  unfold Target.nextPow2
  simp only [hmod, Nat.one_shiftLeft]
  split_ifs with hclz
  · simp
  rw [show T.w - (T.w - n.size) = n.size by omega]
  rcases Nat.eq_zero_or_pos n with rfl | hpos
  · simp
  have hlt : n.size - 1 < n.size := Nat.sub_lt (Nat.size_pos.2 hpos) Nat.one_pos
  have hle : 2 ^ (n.size - 1) ≤ n := Nat.lt_size.1 hlt
  have hpow : 2 ^ n.size = 2 * 2 ^ (n.size - 1) := by
    rw [← Nat.pow_succ', Nat.succ_eq_add_one, Nat.sub_add_cancel (Nat.size_pos.2 hpos)]
  omega

theorem minAlloc_mul_lt (T : Target) : T.minAlloc * T.elem < 2 ^ T.w := by
  have helem := T.elem_lt
  have hblock := T.block_lt
  unfold Target.minAlloc
  split_ifs
  · omega
  · have := div_mul_le_self 32 T.elem
    omega

/-- The space for one more element does not wrap. -/
theorem Sound.fits_succ (h : Sound T a) : Fits T a (a.items.length + 1) := by
  intro hlt
  have hhalf := h.half
  have hpow := two_pow T
  have helem := T.elem_lt
  have hle := h.fits
  have hlen : a.items.length * T.elem < 2 ^ (T.w - 1) :=
    (Nat.mul_le_mul_right _ (by omega)).trans_lt hhalf
  have hspace : T.space (a.items.length + 1) = T.nextPow2 (a.items.length + 1) ∨
      T.space (a.items.length + 1) = a.items.length + 1 ∨
      T.space (a.items.length + 1) = 8 ∨ T.space (a.items.length + 1) = T.minAlloc := by
    unfold Target.space
    omega
  have hone : (a.items.length + 1) * T.elem < 2 ^ T.w := by
    rw [Nat.add_mul]
    omega
  rcases hspace with he | he | he | he <;> rw [he]
  · have hlt := h.length_lt
    have hnext := nextPow2_succ_le (T := T) (n := a.items.length) (by omega)
    rcases le_total 1 (2 * a.items.length) with hle | hle
    · refine (Nat.mul_le_mul_right T.elem (show _ ≤ 2 * a.items.length by omega)).trans_lt ?_
      rw [Nat.mul_assoc]
      omega
    · refine (Nat.mul_le_mul_right T.elem (show _ ≤ 1 by omega)).trans_lt ?_
      omega
  · exact hone
  · exact helem
  · exact minAlloc_mul_lt T

theorem realloc_ends (hextra : a.extra = []) (hle : a.items.length ≤ T.space n)
    (hbytes : T.space n * T.elem < 2 ^ T.w) : Ends (realloc M (T.space n))
      (fun _ a' => Settled T a' ∧ a'.items = a.items ∧ n ≤ a'.alloc) (fun e _ => e = .exhausted)
      { a with alloc := T.space n } := by
  have hcells : T.space n * T.elem % 2 ^ T.w / T.elem = T.space n := by
    rw [mod_eq_of_lt hbytes, Nat.mul_div_cancel _ T.elem_pos]
  refine ends_ite (fun hgrant => ends_bind (ends_get ?_)) (fun _ => ends_throw rfl)
  rw [mod_eq_of_lt hbytes] at hgrant
  rw [hcells]
  refine ends_ite (fun _ => ends_set ⟨⟨⟨rfl, ?_, M.half _ hgrant⟩, hextra⟩, rfl, le_space T n⟩)
    fun hnot => absurd hle hnot
  rw [hextra]
  exact hle

/-- `reserve` keeps the items and leaves room for `n`, or runs out of memory. -/
theorem reserve_ends (h : Settled T a) (hn : Fits T a n) :
    Ends (reserve M (n % 2 ^ T.w)) (fun _ a' => Settled T a' ∧ a'.items = a.items ∧ n ≤ a'.alloc)
      (fun e _ => e = .exhausted) a := by
  have hmod : n % 2 ^ T.w = n := by
    refine mod_eq_of_lt ?_
    have hpow := two_pow T
    rcases lt_or_ge a.alloc n with hlt | hge
    · exact ((le_space T n).trans (le_mul_elem T _)).trans_lt (hn hlt)
    have := le_mul_elem T a.alloc
    have := h.half
    omega
  rw [hmod]
  refine ends_bind (ends_get (ends_ite (fun hlt => ?_) (fun hge => ?_)))
  · refine ends_bind (ends_modify (realloc_ends h.extra ?_ (hn hlt)))
    have := h.fits
    have := le_space T n
    omega
  · exact ends_pure ⟨h, rfl, by omega⟩

variable {E : Fault → PonyArray A → Prop} {given : List A} {Q : A → PonyArray A → Prop}

/-- A handler passes on what is not an error. -/
theorem ends_attempt {x : Arr A Unit} {Q : Unit → PonyArray A → Prop}
    (h : Ends x Q (fun e a' => e = .raised ∧ Q () a' ∨ e ≠ .raised ∧ E e a') a) :
    Ends (attempt x) Q E a := by
  refine ends_tryCatch (h.mono (fun _ _ hq => hq) ?_)
  rintro e a' (⟨rfl, hq⟩ | ⟨hne, he⟩)
  · exact ends_pure hq
  cases e with
  | raised => exact absurd rfl hne
  | rounds | exhausted | corrupt => exact ends_throw he

theorem store_ends {Q : Unit → PonyArray A → Prop} (h : Sound T a) (hn : n = a.extra.length)
    (hroom : a.items.length + n < a.alloc) (hQ : Q () { a with extra := a.extra ++ [v] }) :
    Ends (store n v) Q E a := by
  refine ends_bind (ends_get (ends_ite (fun _ => ?_) fun hnot => absurd (h.cells ▸ hroom) hnot))
  rw [hn, take_length]
  exact ends_set hQ

/-- What a loop that writes after the last element leaves. -/
def Writes (T : Target) (a : PonyArray A) (given : List A) (a' : PonyArray A) : Prop :=
  Sound T a' ∧ a' = { a with extra := a.extra ++ given }

theorem Writes.nil (h : Sound T a) : Writes T a [] a := ⟨h, by simp⟩

theorem Writes.cons {a' : PonyArray A} (h : Writes T { a with extra := a.extra ++ [v] } given a') :
    Writes T a (v :: given) a' :=
  ⟨h.1, by rw [h.2]; simp⟩

theorem Sound.stored (h : Sound T a) (hroom : a.items.length + a.extra.length < a.alloc) :
    Sound T { a with extra := a.extra ++ [v] } :=
  ⟨h.cells, by simp only [length_append, length_singleton]; omega, h.half⟩

theorem copyLoop_ends (seq : ReadSeq T A) (offset left : ℕ) (h : Sound T a)
    (hroom : a.items.length + a.extra.length + left ≤ a.alloc)
    (hsize : offset + a.extra.length + left ≤ seq.size) :
    Ends (copyLoop seq offset left a.extra.length)
      (fun _ => Writes T a (upToError ((range' (offset + a.extra.length) left).map seq.apply)))
      (fun e a' => e = .raised ∧ Writes T a
        (upToError ((range' (offset + a.extra.length) left).map seq.apply)) a') a := by
  induction left generalizing a with
  | zero => exact ends_pure (.nil h)
  | succ left ih =>
    have hmod : (offset + a.extra.length) % 2 ^ T.w = offset + a.extra.length := by
      refine mod_eq_of_lt ?_
      have := seq.size_lt
      omega
    rw [copyLoop, hmod, range'_succ, map_cons]
    cases hx : seq.apply (offset + a.extra.length) with
    | none => exact ends_throw ⟨rfl, .nil h⟩
    | some x =>
      refine ends_bind (store_ends h rfl (by omega) ?_)
      have hlen : (a.extra ++ [x]).length = a.extra.length + 1 := by simp
      have hnext := ih (a := { a with extra := a.extra ++ [x] }) (h.stored (by omega))
        (by simp only [hlen]; omega) (by simp only [hlen]; omega)
      simp only [hlen] at hnext
      exact hnext.mono (fun _ _ hw => .cons hw) fun _ _ he => ⟨he.1, .cons he.2⟩

theorem fillLoop_ends (left : ℕ) (iter : Iterator A) (h : Sound T a)
    (hroom : a.items.length + a.extra.length + left ≤ a.alloc) :
    Ends (fillLoop left a.extra.length iter) (fun _ => Writes T a (upToError (iter.take left)))
      (fun e a' => e = .raised ∧ Writes T a (upToError (iter.take left)) a') a := by
  induction left generalizing a iter with
  | zero => exact ends_pure (.nil h)
  | succ left ih =>
    rcases iter with _ | ⟨_ | x, iter⟩
    · exact ends_pure (.nil h)
    · exact ends_throw ⟨rfl, .nil h⟩
    refine ends_bind (store_ends h rfl (by omega) ?_)
    have hlen : (a.extra ++ [x]).length = a.extra.length + 1 := by simp
    have hnext := ih (a := { a with extra := a.extra ++ [x] }) iter (h.stored (by omega))
      (by simp only [hlen]; omega)
    simp only [hlen] at hnext
    exact hnext.mono (fun _ _ hw => .cons hw) fun _ _ he => ⟨he.1, .cons he.2⟩

/-- What a method that adds elements leaves. -/
def Adds (T : Target) (a : PonyArray A) (given : List A) (a' : PonyArray A) : Prop :=
  Settled T a' ∧ a'.items = a.items ++ given

theorem count_ends {a₀ : PonyArray A} (h : Writes T a given a₀) (ha : a.extra = []) :
    Ends count (fun _ => Adds T a given) E a₀ := by
  obtain ⟨hs, rfl⟩ := h
  refine ends_modify ⟨⟨⟨hs.cells, ?_, hs.half⟩, rfl⟩, by simp [ha]⟩
  simpa using hs.fits

/-- `push` adds one item at the end. -/
theorem push_ends (h : Settled T a) :
    Ends (push M v) (fun _ => Adds T a [v]) (fun e _ => e = .exhausted) a := by
  refine ends_bind (ends_get (ends_bind ((reserve_ends h h.fits_succ).mono ?_ fun _ _ he => he)))
  rintro - a' ⟨h', hitems, hroom⟩
  have hlt : a'.items.length + a'.extra.length < a'.alloc := by
    rw [hitems, h'.extra]
    exact hroom
  refine ends_bind (store_ends h'.toSound (by rw [h'.extra]; rfl) (by omega) ?_)
  refine (count_ends ⟨h'.toSound.stored hlt, rfl⟩ h'.extra).mono ?_ fun _ _ he => he
  rintro - a'' ⟨hs, he⟩
  exact ⟨hs, by rw [he, hitems]⟩

theorem Adds.trans {given' : List A} {a' a'' : PonyArray A} (h : Adds T a given a')
    (h' : Adds T a' given' a'') : Adds T a (given ++ given') a'' :=
  ⟨h'.1, by rw [h'.2, h.2, append_assoc]⟩

/-- `append` adds the part of the sequence that it was asked for. -/
theorem append_ends {seq : ReadSeq T A} (h : Settled T a)
    (hfits : offset < seq.size → Fits T a (a.items.length + min len (seq.size - offset))) :
    Ends (append M seq offset len) (fun _ => Adds T a (appended seq offset len))
      (fun e _ => e = .exhausted) a := by
  refine ends_ite (fun hge => ends_pure ⟨h, ?_⟩) (fun hlt => ?_)
  · rw [appended, Nat.sub_eq_zero_of_le hge]
    simp [upToError]
  have hlt : offset < seq.size := Nat.lt_of_not_ge hlt
  refine ends_bind (ends_get (ends_bind ((reserve_ends h (hfits hlt)).mono ?_ fun _ _ he => he)))
  rintro - a' ⟨h', hitems, hroom⟩
  have hzero : a'.extra.length = 0 := by rw [h'.extra]; rfl
  have hcopy := copyLoop_ends seq offset (min len (seq.size - offset)) h'.toSound
    (by rw [hitems, hzero]; exact hroom) (by rw [hzero]; omega)
  rw [hzero, Nat.add_zero] at hcopy
  refine ends_bind (ends_attempt (hcopy.mono (fun _ a'' hw => ?_) fun e a'' he => .inl ⟨he.1, ?_⟩))
  · refine (count_ends hw h'.extra).mono (fun _ _ ha => ?_) fun _ _ he => he
    exact ⟨ha.1, by rw [ha.2, hitems, appended]⟩
  · refine (count_ends he.2 h'.extra).mono (fun _ _ ha => ?_) fun _ _ he => he
    exact ⟨ha.1, by rw [ha.2, hitems, appended]⟩

theorem pushLoop_ends (left : ℕ) (iter : Iterator A) (h : Settled T a) :
    Ends (pushLoop M left iter) (fun _ => Adds T a (upToError (iter.take left)))
      (fun e a' => e = .raised ∧ Adds T a (upToError (iter.take left)) a' ∨ e = .exhausted)
      a := by
  induction left generalizing a iter with
  | zero => exact ends_pure ⟨h, by simp [upToError]⟩
  | succ left ih =>
    rcases iter with _ | ⟨_ | x, iter⟩
    · exact ends_pure ⟨h, by simp [upToError]⟩
    · exact ends_throw (.inl ⟨rfl, h, by simp [upToError]⟩)
    refine ends_bind ((push_ends h).mono ?_ fun _ _ he => .inr he)
    intro _ a' ha
    refine (ih iter ha.1).mono (fun _ _ hb => ha.trans hb) ?_
    rintro e a'' (⟨he, hb⟩ | he)
    · exact .inl ⟨he, ha.trans hb⟩
    · exact .inr he

/-- `concat` adds what the iterator gives after the skipped items, `len` of them at most. -/
theorem concat_ends {iter : Iterator A} (h : Settled T a)
    (hfits : len ≠ 2 ^ T.w - 1 → (skip offset iter).isSome → Fits T a (a.items.length + len)) :
    Ends (concat M iter offset len) (fun _ => Adds T a (concatenated iter offset len))
      (fun e _ => e = .exhausted) a := by
  unfold concat concatenated
  cases hskip : skip offset iter with
  | none => exact ends_pure ⟨h, by simp⟩
  | some rest =>
    refine ends_ite (fun hne => ?_) (fun _ => ends_attempt ?_)
    · rw [hskip] at hfits
      refine ends_bind (ends_get (ends_bind ((reserve_ends h (hfits hne rfl)).mono ?_
        fun _ _ he => he)))
      rintro - a' ⟨h', hitems, hroom⟩
      have hzero : a'.extra.length = 0 := by rw [h'.extra]; rfl
      have hfill := fillLoop_ends len rest h'.toSound (by rw [hitems, hzero]; exact hroom)
      rw [hzero] at hfill
      refine ends_bind (ends_attempt (hfill.mono (fun _ a'' hw => ?_)
        fun e a'' he => .inl ⟨he.1, ?_⟩))
      · refine (count_ends hw h'.extra).mono (fun _ _ ha => ?_) fun _ _ he => he
        exact ⟨ha.1, by rw [ha.2, hitems]⟩
      · refine (count_ends he.2 h'.extra).mono (fun _ _ ha => ?_) fun _ _ he => he
        exact ⟨ha.1, by rw [ha.2, hitems]⟩
    refine (pushLoop_ends len rest h).mono (fun _ _ ha => ha) ?_
    rintro e a' (⟨rfl, ha⟩ | rfl)
    · exact .inl ⟨rfl, ha⟩
    · exact .inr ⟨nofun, rfl⟩

/-- `create` makes an empty array with room for `len` items. -/
theorem create_ends (hfits : Fits T ({} : PonyArray A) len) :
    Ends (create M len) (fun _ a' => Settled T a' ∧ a'.items = []) (fun e _ => e = .exhausted)
      a := by
  refine ends_bind (ends_set (ends_ite (fun hpos => ?_) (fun _ => ends_pure ⟨?_, rfl⟩)))
  · refine ends_bind (ends_modify ?_)
    exact (realloc_ends rfl (Nat.zero_le _) (hfits hpos)).mono (fun _ _ h => ⟨h.1, h.2.1⟩)
      fun _ _ he => he
  · exact ⟨⟨rfl, le_rfl, by rw [Nat.zero_mul]; exact Nat.two_pow_pos _⟩, rfl⟩

theorem delete_ends {i : ℕ} {x : A} (hx : a.items[i]? = some x)
    (hQ : Q x { a with items := a.items.eraseIdx i }) : Ends (delete i) Q E a := by
  refine ends_bind (ends_get ?_)
  rw [hx]
  exact ends_bind (ends_set (ends_pure hQ))

/-- `pop` takes the last element off. -/
theorem pop_ends {xs : List A} {x : A} (h : Settled T a) (hitems : a.items = xs ++ [x])
    (hQ : Q x { a with items := xs }) : Ends (pop T) Q E a := by
  have hlt := h.length_lt
  have hpow := two_pow T
  rw [hitems, length_append, length_singleton] at hlt
  have hidx : (a.items.length + (2 ^ T.w - 1)) % 2 ^ T.w = xs.length := by
    rw [hitems, length_append, length_singleton,
      show xs.length + 1 + (2 ^ T.w - 1) = xs.length + 2 ^ T.w by omega, add_mod_right,
      mod_eq_of_lt (by omega)]
  refine ends_bind (ends_get ?_)
  rw [hidx]
  refine delete_ends (by rw [hitems, getElem?_concat_length]) ?_
  rw [hitems, eraseIdx_append_of_length_le le_rfl]
  simpa using hQ

theorem swapElements_ends {Q : Unit → PonyArray A → Prop} {i j : ℕ} (hi : i < a.items.length)
    (hj : j < a.items.length) (hQ : Q () { a with items := Rearrange.exchange a.items i j }) :
    Ends (swapElements i j) Q E a := by
  refine ends_bind (ends_get ?_)
  rw [Rearrange.exchange_eq hi hj] at hQ
  rw [getElem?_eq_getElem hi, getElem?_eq_getElem hj]
  exact ends_set hQ

theorem apply_ends {i : ℕ} {x : A} (hx : a.items[i]? = some x) (hQ : Q x a) :
    Ends (apply i) Q E a := by
  refine ends_bind (ends_get ?_)
  rw [hx]
  exact ends_pure hQ

theorem apply_raises {i : ℕ} (hi : a.items.length ≤ i) (hE : E .raised a) :
    Ends (apply i) Q E a := by
  refine ends_bind (ends_get ?_)
  rw [getElem?_eq_none hi]
  exact ends_throw hE

end PonyArray

end SpacePony.Builtin
