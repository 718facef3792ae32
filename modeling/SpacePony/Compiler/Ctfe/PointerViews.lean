import Mathlib.Algebra.Order.Ring.Nat
import Mathlib.Data.List.Forall2
import SpacePony.Compiler.Ctfe.Pointer

/-!
# Compiler — pointers of compile-time evaluation as views

Chains of pointer methods against the views that they are there for.  The bytes are those of elements
(`Laid`), and the elements are values (`Shows`), with the tuples among them where `Tuples` has them.

* `step_refines`: one clean method; `bounded_views`: every chain of them.
* `pointerAtIndex_reads_beyond`: a pointer into the middle of an array of `U32` reaches beyond it.
-/

namespace SpacePony.CtfePointer

open Nat Option List Records
open UInt64 (lt_iff_toNat_lt)

variable {e : ElemType} {v w : Value} {n k : Nat}

/-! ### The bytes of an element -/

/-- The values an array can give back. -/
def Stored (e : ElemType) (v : Value) : Prop :=
  match e.rep with
  | .word w => ∃ bs : List UInt8, v = .word bs ∧ bs.length = w
  | .reference => v = .empty ∨ ∃ id, v = .object id
  | .boxed => True

/-- The bytes an element is read from. -/
def image (e : ElemType) (v : Value) : List Byte :=
  match e.rep, v with
  | .boxed, v => v.copied e.size
  | _, .word bs => bs.map .raw
  | _, .object id => parts (.object id) 8
  | _, _ => zeros e.width

/-- All the bytes of an element. -/
def slot (e : ElemType) (v : Value) : List Byte := (image e v ++ zeros e.size).take e.size

@[simp] theorem length_zeros : (zeros n).length = n := by simp [zeros]

@[simp] theorem length_parts : (parts v n).length = n := by simp [parts]

theorem zeros_add {m : Nat} : zeros (n + m) = zeros n ++ zeros m := by
  rw [zeros, replicate_add, zeros, zeros]

theorem take_zeros : (zeros n).take k = zeros (min k n) := by simp [zeros]

theorem length_copied : (v.copied n).length = n := by
  cases v <;> simp [Value.copied]

theorem length_slot (e : ElemType) (v : Value) : (slot e v).length = e.size := by
  simp [slot]

theorem length_image (h : Stored e v) : (image e v).length = e.width := by
  simp only [Stored, image, ElemType.width, Rep.width] at *
  cases hr : e.rep with
  | word w =>
    simp only [hr] at h ⊢
    obtain ⟨bs, rfl, hbs⟩ := h
    simpa using hbs
  | reference =>
    simp only [hr] at h ⊢
    rcases h with rfl | ⟨id, rfl⟩ <;> simp
  | boxed => exact length_copied

theorem slot_eq (h : Stored e v) : slot e v = image e v ++ zeros (e.size - e.width) := by
  have hw : (image e v).length ≤ e.size := length_image h ▸ e.width_le
  rw [slot, take_append, take_of_length_le hw, take_zeros, length_image h, min_eq_left (sub_le _ _)]

theorem mapM_raw (bs : List UInt8) : (bs.map Byte.raw).mapM Byte.raw? = some bs := by
  induction bs with
  | nil => rfl
  | cons b bs ih => rw [map_cons, mapM_cons, ih]; rfl

theorem decodeParts_zeros : decodeParts (zeros n) = .ok .empty := by
  rw [decodeParts, length_zeros, if_pos rfl]

theorem decodeParts_parts (hn : 0 < n) : decodeParts (parts v n) = .ok v := by
  obtain ⟨n, rfl⟩ : ∃ m, n = m + 1 := ⟨n - 1, by omega⟩
  have hp : parts v (n + 1) = .part v 0 :: (range n).map (fun k => .part v (k + 1)) := by
    simp [parts, range_succ_eq_map]
  have hz : parts v (n + 1) ≠ zeros (n + 1) := by
    rw [hp, zeros, replicate_succ]
    exact fun h => Byte.noConfusion (cons.inj h).1
  have hh : (parts v (n + 1)).head? = some (.part v 0) := by rw [hp, head?_cons]
  rw [decodeParts, length_parts, if_neg hz, hh]
  exact if_pos rfl

/-- An element is read as it was written. -/
theorem decode_image (h : Stored e v) : decode e (image e v) = .ok v := by
  have hpos := e.width_pos
  simp only [Stored, decode, image, ElemType.width] at *
  cases hr : e.rep with
  | word w =>
    simp only [hr] at h ⊢
    obtain ⟨bs, rfl, -⟩ := h
    simp only [mapM_raw]
  | reference =>
    simp only [hr] at h ⊢
    rcases h with rfl | ⟨id, rfl⟩
    · exact decodeParts_zeros
    · exact decodeParts_parts (by decide)
  | boxed =>
    simp only [hr, Rep.width] at hpos ⊢
    cases v with
    | empty => exact decodeParts_zeros
    | _ => exact decodeParts_parts hpos

theorem stored_zero : Stored e e.zero := by
  rw [Stored, ElemType.zero]
  cases e.rep with
  | word w => exact ⟨_, rfl, length_replicate⟩
  | reference => exact .inl rfl
  | boxed => trivial

theorem image_zero : image e e.zero = zeros e.width := by
  simp only [image, ElemType.zero, ElemType.width]
  cases e.rep with
  | word w => simp only [zeros, Rep.width, map_replicate]
  | reference | boxed => rfl

theorem slot_zero : slot e e.zero = zeros e.size := by
  have hw : e.width ≤ e.size := e.width_le
  rw [slot_eq stored_zero, image_zero, ← zeros_add, Nat.add_sub_cancel' hw]

theorem flatMap_slot_zero : (replicate n e.zero).flatMap (slot e) = zeros (n * e.size) := by
  induction n with
  | zero => simp [zeros]
  | succ n ih =>
    rw [replicate_succ, flatMap_cons, ih, slot_zero, ← zeros_add, succ_mul, add_comm]

/-! ### Arrays of elements -/

variable {s : State} {t : Tuples} {a b : Views} {p q : Pointer} {u : View} {i : Nat}
  {ys : List Value}

/-- The view lies inside its array. -/
def Inside (arrays : List (List Value)) (u : View) : Prop :=
  u.array = none ∧ u.len = 0 ∨
    ∃ k xs, u.array = some k ∧ arrays[k]? = some xs ∧ u.start + u.len ≤ xs.length

/-- The pointer covers exactly the elements in view. -/
structure Covers (e : ElemType) (arrays : List (List Value)) (p : Pointer) (u : View) : Prop where
  array : p.array = u.array
  offset : p.offset = u.start * e.size
  size : p.size.toNat = u.len
  inside : Inside arrays u

/-- The arrays are the slots of their elements, all of them values that can be read again, and
each pointer covers its view.  The tuples are these. -/
structure Laid (e : ElemType) (t : Tuples) (s : State) (a : Views) : Prop where
  memory : s.memory = a.arrays.map (·.flatMap (slot e))
  tuples : s.tuples = t
  stored : ∀ xs ∈ a.arrays, ∀ v ∈ xs, Stored e v
  bounded : ∀ xs ∈ a.arrays, xs.length * e.size < 2 ^ 64
  pointers : List.Forall₂ (Covers e a.arrays) s.pointers a.views

/-- A size in bytes that does not overflow. -/
theorem bytes_eq {n : UInt64} (h : n.toNat * e.size < 2 ^ 64) : e.bytes n = n.toNat * e.size := by
  rw [ElemType.bytes, UInt64.toNat_mul, UInt64.toNat_ofNat', mul_mod_mod, mod_eq_of_lt h]

theorem length_elems (h : Inside a.arrays u) : (a.elems u).length = u.len := by
  rw [Views.elems]
  rcases h with ⟨hn, hl⟩ | ⟨k, xs, hk, hxs, hl⟩
  · rw [hn, hl]
    rfl
  · rw [hk, bind_some, hxs]
    exact length_slice hl

theorem mem_elems (h : v ∈ a.elems u) : ∃ xs ∈ a.arrays, v ∈ xs := by
  rw [Views.elems] at h
  split at h
  · rename_i xs hxs
    obtain ⟨k, -, hk⟩ := bind_eq_some_iff.1 hxs
    exact ⟨xs, mem_of_getElem? hk, mem_of_mem_slice h⟩
  · cases h

/-- The elements in a view are less than `2 ^ 64` bytes. -/
theorem Covers.lt (hc : Covers e a.arrays p u) (hb : ∀ xs ∈ a.arrays, xs.length * e.size < 2 ^ 64)
    (h : n ≤ u.len) : n * e.size < 2 ^ 64 := by
  rcases hc.inside with ⟨-, hl⟩ | ⟨k, xs, -, hxs, hl⟩
  · have hn : n = 0 := by omega
    rw [hn, zero_mul]
    decide
  · exact lt_of_le_of_lt (mul_le_mul_right _ (by omega)) (hb xs (mem_of_getElem? hxs))

variable {m : Memory} {bs : List Byte} {addr : Nat} {xs : List Value} {size copyLen : UInt64}

theorem load_eq (hm : m[k]? = some bs) (h : addr + n ≤ bs.length) :
    load m (some k) addr n = .ok (slice bs addr n) := by
  rw [load]
  split_ifs with h0
  · rw [h0, slice, take_zero]
  · rw [bind_some, hm]
    exact if_pos h

theorem store_eq {new : List Byte} (hm : m[k]? = some bs) (h : addr + new.length ≤ bs.length) :
    store m (some k) addr new = .ok (m.set k (splice bs addr new)) := by
  rw [store.eq_def]
  split_ifs with h0
  · obtain ⟨hk, rfl⟩ := List.getElem?_eq_some_iff.1 hm
    rw [h0, splice_nil, set_getElem_self]
  · simp only [hm, if_pos h]

theorem array_eq (hm : s.memory = a.arrays.map (·.flatMap (slot e))) (hxs : a.arrays[k]? = some xs)
    : s.memory[k]? = some (xs.flatMap (slot e)) := by
  rw [hm, getElem?_map, hxs]
  rfl

/-- Elements in view, loaded. -/
theorem load_elems (hm : s.memory = a.arrays.map (·.flatMap (slot e)))
    (hc : Covers e a.arrays p u) (h : i + n ≤ u.len) :
    load s.memory p.array (p.offset + i * e.size) (n * e.size) =
      .ok ((slice (a.elems u) i n).flatMap (slot e)) := by
  have hf := length_slot e
  rcases Nat.eq_zero_or_pos n with rfl | hn
  · simp [load, slice]
  rcases hc.inside with ⟨-, hl⟩ | ⟨k, xs, hk, hxs, hl⟩
  · omega
  have ha : p.offset + i * e.size = (u.start + i) * e.size := by rw [hc.offset, Nat.add_mul]
  have hle : (u.start + i) * e.size + n * e.size ≤ (xs.flatMap (slot e)).length := by
    rw [length_flatMap hf, ← Nat.add_mul]
    exact Nat.mul_le_mul_right _ (by omega)
  rw [hc.array, hk, ha, load_eq (array_eq hm hxs) hle, slice_flatMap hf, Views.elems, hk,
    bind_some, hxs, slice_slice h]

theorem modify_eq_set (hxs : a.arrays[k]? = some xs) (f : List Value → List Value) :
    (a.arrays.modify k f).map (·.flatMap (slot e)) =
      (a.arrays.map (·.flatMap (slot e))).set k ((f xs).flatMap (slot e)) := by
  rw [modify_eq_set_getElem?, hxs, ← map_set]
  rfl

/-- Elements stored over a view. -/
theorem store_elems (hm : s.memory = a.arrays.map (·.flatMap (slot e)))
    (hc : Covers e a.arrays p u) (h : i + ys.length ≤ u.len) :
    store s.memory p.array (p.offset + i * e.size) (ys.flatMap (slot e)) =
      .ok ((a.put u i ys).map (·.flatMap (slot e))) := by
  have hf := length_slot e
  have ha : p.offset + i * e.size = (u.start + i) * e.size := by rw [hc.offset, add_mul]
  rcases hc.inside with ⟨hn, hl⟩ | ⟨k, xs, hk, hxs, hl⟩
  · have hys : ys = [] := eq_nil_of_length_eq_zero (by omega)
    rw [hys, flatMap_nil, store.eq_def, if_pos rfl, Views.put, hn, hm]
  have hle : (u.start + i) * e.size + (ys.flatMap (slot e)).length ≤
      (xs.flatMap (slot e)).length := by
    rw [length_flatMap hf, length_flatMap hf, ← add_mul]
    exact mul_le_mul_right _ (by omega)
  rw [hc.array, hk, ha, store_eq (array_eq hm hxs) hle, splice_flatMap hf, hm, Views.put, hk]
  exact congrArg _ (modify_eq_set hxs (splice · (u.start + i) ys)).symm

/-- The bytes of the `i`-th element in view. -/
theorem slot_at (hxs : xs[i]? = some v) :
    slice (xs.flatMap (slot e)) (i * e.size) e.size = slot e v := by
  have h : slice (xs.flatMap (slot e)) (i * e.size) (1 * e.size) = (slice xs i 1).flatMap (slot e) :=
    slice_flatMap (length_slot e)
  obtain ⟨hi, rfl⟩ := List.getElem?_eq_some_iff.1 hxs
  rw [one_mul, slice_one hi, flatMap_singleton] at h
  exact h

section
variable (hm : s.memory = a.arrays.map (·.flatMap (slot e)))
  (hs : ∀ xs ∈ a.arrays, ∀ v ∈ xs, Stored e v) (hc : Covers e a.arrays p u)
include hm hs hc

/-- An element stored over a view: what follows its image is zero already. -/
theorem store_image (h : i < u.len) (hv : Stored e v) :
    store s.memory p.array (p.offset + i * e.size) (image e v) =
      .ok ((a.put u i [v]).map (·.flatMap (slot e))) := by
  have hf := length_slot e
  have hw : e.width ≤ e.size := e.width_le
  rw [← store_elems hm hc h, flatMap_singleton]
  rcases hc.inside with ⟨hn, hl⟩ | ⟨k, xs, hk, hxs, hl⟩
  · omega
  have ha : p.offset + i * e.size = (u.start + i) * e.size := by rw [hc.offset, add_mul]
  have hlt : u.start + i < xs.length := by omega
  have hlen : (u.start + i) * e.size + e.size ≤ (xs.flatMap (slot e)).length := by
    rw [length_flatMap hf, ← succ_mul]
    exact mul_le_mul_right _ hlt
  have hold := hs xs (mem_of_getElem? hxs) _ (getElem_mem hlt)
  -- the bytes after the image of the old element
  have htail : slice (xs.flatMap (slot e)) ((u.start + i) * e.size + (image e v).length)
      (e.size - e.width) = zeros (e.size - e.width) := by
    rw [length_image hv, ← slice_slice (n := e.size) (by omega),
      slot_at (getElem?_eq_getElem hlt), slot_eq hold, slice,
      drop_left' (length_image hold), take_zeros, min_self]
  have hsplice : splice (xs.flatMap (slot e)) ((u.start + i) * e.size) (slot e v) =
      splice (xs.flatMap (slot e)) ((u.start + i) * e.size) (image e v) := by
    rw [slot_eq hv, ← htail, splice_append_slice]
    rw [length_image hv]
    omega
  rw [hc.array, hk, ha, store_eq (array_eq hm hxs) (by rw [length_image hv]; omega),
    store_eq (array_eq hm hxs) (by rw [hf]; exact hlen), hsplice]

/-- An element in view, loaded. -/
theorem read_elem (h : (a.elems u)[i]? = some v) :
    readFromArray e s.memory p (i * e.size) = .ok v := by
  have hw : e.width ≤ e.size := e.width_le
  obtain ⟨xs', hmem, hv'⟩ := mem_elems (mem_of_getElem? h)
  have hv := hs xs' hmem v hv'
  have hi : i < u.len := by
    rw [← length_elems hc.inside]
    exact (List.getElem?_eq_some_iff.1 h).1
  rcases hc.inside with ⟨hn, hl⟩ | ⟨k, xs, hk, hxs, hl⟩
  · omega
  have ha : p.offset + i * e.size = (u.start + i) * e.size := by rw [hc.offset, add_mul]
  have hat : xs[u.start + i]? = some v := by
    rw [← getElem?_slice hi]
    rw [Views.elems, hk, bind_some, hxs] at h
    exact h
  have hlen : (u.start + i) * e.size + e.size ≤ (xs.flatMap (slot e)).length := by
    rw [length_flatMap (length_slot e), ← succ_mul]
    exact mul_le_mul_right _ (by omega)
  have hload : load s.memory p.array (p.offset + i * e.size) e.width = .ok (image e v) := by
    rw [hc.array, hk, ha, load_eq (array_eq hm hxs) (by omega),
      ← add_zero ((u.start + i) * e.size), ← slice_slice (n := e.size) (by omega), slot_at hat,
      slot_eq hv, slice, drop_zero, take_left' (length_image hv)]
  rw [readFromArray, hload]
  exact decode_image hv

end

/-! ### The methods -/

/-- The element is no tuple of which the values are deleted, as they are when a copy of its bytes is
written over. -/
def Alive (e : ElemType) (s : State) (q : Pointer) (i : UInt64) : Prop :=
  ∀ k, readFromArray e s.memory q (e.bytes i) = .ok (.tuple k) → s.tuples[k]? ≠ some none

/-- The method does what it is there for: the size of an allocation in bytes fits `size_t`, a
pointer into an array is to its first element or to elements of one byte, no tuple is read that is
deleted, objects are written where pointers to objects are read, and a `realloc` that needs no room
finds zeroes after the elements it keeps. -/
def Clean (e : ElemType) (s : State) : Op e → Prop
  | .alloc n => n.toNat * e.size < 2 ^ 64
  | .pointerAtIndex p i => ∀ q, s.pointers[p]? = some q → i < q.size → i = 0 ∨ e.size = 1
  | .apply p i => ∀ q, s.pointers[p]? = some q → i < q.size → Alive e s q i
  | .update p i v => ∀ q, s.pointers[p]? = some q → i < q.size →
      Alive e s q i ∧ (e.rep = .reference → ∃ id, v.val = .object id)
  | .realloc p size copyLen => ∀ q, s.pointers[p]? = some q → copyLen ≤ q.size →
      if q.size < size then size.toNat * e.size < 2 ^ 64
      else ∀ i, copyLen ≤ i → i < q.size → readFromArray e s.memory q (e.bytes i) = .ok e.zero
  | _ => True

variable {x : Value}

theorem writeToArray_eq (m : Memory) (p : Pointer) (pos : Nat) (ht : e.Typed x)
    (ho : e.rep = .reference → ∃ id, x = .object id) :
    Stored e x ∧ writeToArray e m p pos x = store m p.array (p.offset + pos) (image e x) := by
  simp only [ElemType.Typed, Stored, writeToArray, image] at *
  cases hr : e.rep with
  | word w =>
    simp only [hr] at ht ⊢
    obtain ⟨bs, rfl, hbs⟩ := ht
    exact ⟨⟨bs, rfl, hbs⟩, rfl⟩
  | reference =>
    obtain ⟨id, rfl⟩ := ho hr
    exact ⟨.inr ⟨id, rfl⟩, rfl⟩
  | boxed => exact ⟨trivial, rfl⟩

/-- The copy of a value is written as the value is. -/
theorem writeToArray_copyIn (m : Memory) (p : Pointer) (pos : Nat) (t : Tuples) (ht : e.Typed x)
    (ho : e.rep = .reference → ∃ id, x = .object id) : Stored e (x.copyIn t).1 ∧
      writeToArray e m p pos (x.copyIn t).1 =
        store m p.array (p.offset + pos) (image e (x.copyIn t).1) := by
  refine writeToArray_eq m p pos ?_ fun hr => ?_
  · simp only [ElemType.Typed] at ht ⊢
    cases hr : e.rep with
    | word w =>
      simp only [hr] at ht
      obtain ⟨bs, rfl, hbs⟩ := ht
      exact ⟨bs, rfl, hbs⟩
    | reference | boxed => trivial
  · obtain ⟨id, rfl⟩ := ho hr
    exact ⟨id, rfl⟩

/-- Writing inside a view keeps every view inside its array. -/
theorem Inside.put (hu : Inside a.arrays u) {u' : View} (h : Inside a.arrays u')
    (hi : i + ys.length ≤ u.len) : Inside (a.put u i ys) u' := by
  rcases h with h | ⟨k, xs, hk, hxs, hl⟩
  · exact .inl h
  rw [Views.put]
  split
  · rename_i k' hk'
    obtain ⟨xs', hxs', hl'⟩ : ∃ xs', a.arrays[k']? = some xs' ∧ u.start + u.len ≤ xs'.length := by
      rcases hu with ⟨hn, -⟩ | ⟨k'', xs', hk'', hxs', hl'⟩
      · exact absurd (hn.symm.trans hk') (some_ne_none k').symm
      · cases hk''.symm.trans hk'
        exact ⟨xs', hxs', hl'⟩
    refine .inr ⟨k, if k' = k then splice xs (u.start + i) ys else xs, hk, ?_, ?_⟩
    · rw [getElem?_modify, hxs]
      rfl
    split_ifs with hkk
    · subst hkk
      cases hxs.symm.trans hxs'
      rwa [length_splice (by omega)]
    · exact hl
  · exact .inr ⟨k, xs, hk, hxs, hl⟩

theorem mem_put (hu : Inside a.arrays u) (hi : i + ys.length ≤ u.len) (h : xs ∈ a.put u i ys) :
    ∃ xs' ∈ a.arrays, xs.length = xs'.length ∧
      ∀ v ∈ xs, v ∈ xs' ∨ v ∈ ys := by
  rw [Views.put] at h
  split at h
  · rename_i k hk
    obtain ⟨n, hn⟩ := mem_iff_getElem?.1 h
    rw [getElem?_modify] at hn
    obtain ⟨xs', hxs', rfl⟩ := map_eq_some_iff.1 hn
    refine ⟨xs', mem_of_getElem? hxs', ?_⟩
    split_ifs with hkn
    · subst hkn
      rcases hu with ⟨hnone, -⟩ | ⟨k', xs'', hk', hxs'', hl'⟩
      · exact absurd (hnone.symm.trans hk) (some_ne_none k).symm
      cases hk'.symm.trans hk
      cases hxs'.symm.trans hxs''
      exact ⟨length_splice (by omega), fun v hv => mem_splice hv⟩
    · exact ⟨rfl, fun v hv => .inl hv⟩
  · exact ⟨xs, h, rfl, fun v hv => .inl hv⟩

/-- Values written over a view. -/
theorem Laid.put (hr : Laid e t s a) (hu : Inside a.arrays u) (hi : i + ys.length ≤ u.len)
    (hys : ∀ v ∈ ys, Stored e v) :
    Laid e t ⟨(a.put u i ys).map (·.flatMap (slot e)), s.pointers, s.tuples⟩
      ⟨a.put u i ys, a.views⟩ where
  memory := rfl
  tuples := hr.tuples
  stored xs hxs v hv := by
    obtain ⟨xs', hmem, -, hor⟩ := mem_put hu hi hxs
    rcases hor v hv with h | h
    · exact hr.stored xs' hmem v h
    · exact hys v h
  bounded xs hxs := by
    obtain ⟨xs', hmem, hl, -⟩ := mem_put hu hi hxs
    rw [hl]
    exact hr.bounded xs' hmem
  pointers := hr.pointers.imp fun p v hc => ⟨hc.array, hc.offset, hc.size, hu.put hc.inside hi⟩

/-- One more pointer, to a view that is there. -/
theorem Laid.push (hr : Laid e t s a) (hc : Covers e a.arrays p u) :
    Laid e t { s with pointers := s.pointers ++ [p] } { a with views := a.views ++ [u] } where
  __ := hr
  pointers := rel_append hr.pointers (.cons hc .nil)

/-- The pointer of a number, and its view. -/
theorem Laid.at (hr : Laid e t s a) (n : Nat) : s.pointers[n]? = none ∧ a.views[n]? = none ∨
      ∃ p u, s.pointers[n]? = some p ∧ a.views[n]? = some u ∧ Covers e a.arrays p u := by
  obtain ⟨hlen, hget⟩ := forall₂_iff_get.1 hr.pointers
  rcases lt_or_ge n s.pointers.length with hn | hn
  · have hn' : n < a.views.length := hlen ▸ hn
    exact .inr ⟨_, _, getElem?_eq_getElem hn, getElem?_eq_getElem hn', hget n hn hn'⟩
  · exact .inl ⟨getElem?_eq_none hn, getElem?_eq_none (hlen ▸ hn)⟩

/-- A new array for a pointer of its own. -/
theorem Laid.fresh (hr : Laid e t s a) (hxs : ∀ v ∈ xs, Stored e v)
    (hb : xs.length * e.size < 2 ^ 64) (hne : xs ≠ []) (hsize : size.toNat = xs.length) :
    Laid e t ⟨s.memory ++ [xs.flatMap (slot e)],
      s.pointers ++ [⟨some s.memory.length, 0, size⟩], s.tuples⟩ (a.fresh xs) := by
  have hlen : s.memory.length = a.arrays.length := by rw [hr.memory, length_map]
  rw [Views.fresh, if_neg hne, hlen]
  refine ⟨?_, hr.tuples, ?_, ?_, ?_⟩
  · rw [hr.memory, map_append, map_singleton]
  · simp only [mem_append, mem_singleton]
    rintro ys (hys | rfl)
    · exact hr.stored ys hys
    · exact hxs
  · simp only [mem_append, mem_singleton]
    rintro ys (hys | rfl)
    · exact hr.bounded ys hys
    · exact hb
  apply rel_append
  · refine hr.pointers.imp fun p u hc => ⟨hc.array, hc.offset, hc.size, ?_⟩
    rcases hc.inside with h | ⟨k, ys, hk, hys, hl⟩
    · exact .inl h
    · exact .inr ⟨k, ys, hk, by rw [getElem?_append_left
        (List.getElem?_eq_some_iff.1 hys).1, hys], hl⟩
  refine .cons ⟨rfl, (Nat.zero_mul _).symm, hsize, .inr ⟨_, xs, rfl, ?_, ?_⟩⟩ .nil
  · rw [getElem?_append_right le_rfl, Nat.sub_self]
    rfl
  · exact (Nat.zero_add _).le

theorem lt_iff_toNat {i : UInt64} (hc : Covers e a.arrays p u) : i < p.size ↔ i.toNat < u.len := by
  rw [lt_iff_toNat_lt, hc.size]

theorem elems_getElem? (hu : Inside a.arrays u) (h : i < u.len) : ∃ v, (a.elems u)[i]? = some v :=
  ⟨_, getElem?_eq_getElem (by rwa [length_elems hu])⟩

theorem elems_eq_none (hu : Inside a.arrays u) (h : ¬i < u.len) : (a.elems u)[i]? = none :=
  getElem?_eq_none (by rw [length_elems hu]; omega)

/-- What a method and what it is there for make of the bytes of elements. -/
def Follows (e : ElemType) (t : Tuples) (s : State) (a : Views) (op : Op e) : Prop :=
  ∃ s', step e s op = .ok ((specStep e a op).1, s') ∧ Laid e t s' (specStep e a op).2

theorem follows_alloc (hr : Laid e t s a) {n : UInt64} (hb : n.toNat * e.size < 2 ^ 64) :
    Follows e t s a (.alloc n) := by
  rcases Nat.eq_zero_or_pos n.toNat with h0 | hpos
  · obtain rfl : n = 0 := UInt64.toNat_inj.1 h0
    refine ⟨_, rfl, ?_⟩
    exact hr.push ⟨rfl, (Nat.zero_mul _).symm, rfl, .inl ⟨rfl, rfl⟩⟩
  have hn : n ≠ 0 := fun h => by rw [h] at hpos; exact absurd hpos (by decide)
  have hxs : replicate n.toNat e.zero ≠ [] := by
    rw [ne_eq, replicate_eq_nil_iff]
    omega
  have halloc : alloc e s.memory n = (⟨some s.memory.length, 0, n⟩,
      s.memory ++ [zeros (e.bytes n)]) := if_neg hn
  have hz : ∀ v ∈ replicate n.toNat e.zero, Stored e v := fun v hv =>
    eq_of_mem_replicate hv ▸ stored_zero
  have h := hr.fresh hz (by rwa [length_replicate]) hxs List.length_replicate.symm
  rw [flatMap_slot_zero, ← bytes_eq hb] at h
  exact ⟨_, by simp only [step, runMethod, halloc]; rfl, h⟩

theorem follows_pointerAtIndex (hr : Laid e t s a) {n : Nat} {i : UInt64}
    (hc : Clean e s (.pointerAtIndex n i)) : Follows e t s a (.pointerAtIndex n i) := by
  rcases hr.at n with ⟨hs, ha⟩ | ⟨p, u, hs, ha, hp⟩
  · exact ⟨s, by simp only [step, runMethod, hs, specStep, ha], by simpa only [specStep, ha] using hr⟩
  by_cases hi : i.toNat < u.len
  · have hlt := (lt_iff_toNat hp).2 hi
    have hb : e.bytes i = i.toNat * e.size := bytes_eq (hp.lt hr.bounded hi.le)
    have hat : pointerAtIndex e p i =
        .ok ⟨p.array, p.offset + e.bytes i, p.size - i * UInt64.ofNat e.size⟩ := if_pos hlt
    refine ⟨_, by simp only [step, runMethod, hs, hat, specStep, ha, hi]; rfl, ?_⟩
    simp only [specStep, ha, hi, if_true]
    apply hr.push
    refine ⟨hp.array, ?_, ?_, ?_⟩
    · rw [hb, hp.offset, View.drop, add_mul]
    · have hsub : i * UInt64.ofNat e.size = i := by
        rcases hc p hs hlt with rfl | h1
        · exact UInt64.zero_mul
        · rw [h1]
          exact UInt64.mul_one i
      rw [hsub, UInt64.toNat_sub_of_le _ _ (UInt64.le_of_lt hlt), hp.size, View.drop]
    · rcases hp.inside with ⟨-, hl⟩ | ⟨k, xs, hk, hxs, hl⟩
      · omega
      · exact .inr ⟨k, xs, hk, hxs, by simp only [View.drop]; omega⟩
  refine ⟨s, ?_, by simpa only [specStep, ha, hi, if_false] using hr⟩
  simp only [step, runMethod, hs, pointerAtIndex, mt (lt_iff_toNat hp).1 hi, if_false, specStep, ha,
    hi]
  rfl

theorem take_elems (hu : Inside a.arrays u) (h : n ≤ u.len) :
    slice (a.elems u) 0 n = (a.elems u).take n ∧ ((a.elems u).take n).length = n := by
  constructor
  · rw [slice, drop_zero]
  · rw [length_take, length_elems hu, min_eq_left h]

theorem follows_copyTo (hr : Laid e t s a) {n n' : Nat} {len : UInt64} :
    Follows e t s a (.copyTo n n' len) := by
  rcases hr.at n with ⟨hs, ha⟩ | ⟨p, u, hs, ha, hp⟩
  · exact ⟨s, by simp only [step, runMethod, hs, specStep, ha], by simpa only [specStep, ha] using hr⟩
  rcases hr.at n' with ⟨hs', ha'⟩ | ⟨q, u', hs', ha', hq⟩
  · exact ⟨s, by simp only [step, runMethod, hs, hs', specStep, ha, ha'],
      by simpa only [specStep, ha, ha'] using hr⟩
  have hiff : len > p.size ∨ len > q.size ↔ ¬(len.toNat ≤ u.len ∧ len.toNat ≤ u'.len) := by
    rw [gt_iff_lt, gt_iff_lt, lt_iff_toNat_lt, lt_iff_toNat_lt, hp.size, hq.size]
    omega
  by_cases hl : len.toNat ≤ u.len ∧ len.toNat ≤ u'.len
  · have hb : e.bytes len = len.toNat * e.size := bytes_eq (hp.lt hr.bounded hl.1)
    obtain ⟨hslice, hlen⟩ := take_elems hp.inside hl.1
    have hload := load_elems (i := 0) hr.memory hp (n := len.toNat) (by omega)
    have hroom : 0 + ((a.elems u).take len.toNat).length ≤ u'.len := by omega
    have hstore := store_elems hr.memory hq hroom
    rw [zero_mul, add_zero] at hload hstore
    have hcp : copyTo e s.memory p q len =
        .ok (p, (a.put u' 0 ((a.elems u).take len.toNat)).map (·.flatMap (slot e))) := by
      rw [copyTo, if_neg (fun h => hiff.1 h hl), hb, hload, hslice]
      show (do
        let m ← store s.memory q.array q.offset (((a.elems u).take len.toNat).flatMap (slot e))
        pure (p, m) : Except Stop (Pointer × Memory)) = _
      rw [hstore]
      rfl
    have hspec : specStep e a (.copyTo n n' len) =
        (.pointer, ⟨a.put u' 0 ((a.elems u).take len.toNat), a.views ++ [u]⟩) := by
      simp only [specStep, ha, ha']
      exact if_pos hl
    rw [Follows, hspec]
    refine ⟨_, by simp only [step, runMethod, hs, hs', hcp]; rfl, ?_⟩
    have hi : 0 + ((a.elems u).take len.toNat).length ≤ u'.len := by omega
    have hput := hr.put hq.inside hi fun v hv => by
      obtain ⟨xs, hxs, hm⟩ := mem_elems (mem_of_mem_take hv)
      exact hr.stored xs hxs v hm
    exact hput.push ⟨hp.array, hp.offset, hp.size, hq.inside.put hp.inside hi⟩
  have hspec : specStep e a (.copyTo n n' len) = (.exception, a) := by
    simp only [specStep, ha, ha']
    exact if_neg hl
  rw [Follows, hspec]
  exact ⟨s, by simp only [step, runMethod, hs, hs', copyTo, if_pos (hiff.2 hl)]; rfl, hr⟩

theorem ok_bind {α β : Type} (x : α) (f : α → Except Stop β) : (Except.ok x >>= f) = f x := rfl

/-- An array that is there stays as it is when there are more. -/
theorem load_append {ms : Memory} {array : Option Nat} (h : load m array addr n = .ok bs) :
    load (m ++ ms) array addr n = .ok bs := by
  rw [load] at h ⊢
  split_ifs at h ⊢ with h0
  · exact h
  split at h
  · rename_i xs hxs
    obtain ⟨k, hk, hm⟩ := Option.bind_eq_some_iff.1 hxs
    rw [hk, bind_some, getElem?_append_left (List.getElem?_eq_some_iff.1 hm).1, hm]
    exact h
  · cases h

/-- A write to the array made last. -/
theorem store_last {new : List Byte} (h : addr + new.length ≤ bs.length) :
    store (m ++ [bs]) (some m.length) addr new = .ok (m ++ [splice bs addr new]) := by
  have hlast : (m ++ [bs])[m.length]? = some bs := by simp
  rw [store_eq hlast h, set_append_right _ _ le_rfl, Nat.sub_self]
  rfl

/-- `realloc` to more elements: the new array holds the elements kept, and zeroes. -/
theorem realloc_grown (hr : Laid e t s a) (hp : Covers e a.arrays p u) (hl : copyLen.toNat ≤ u.len)
    (hlt : u.len < size.toNat) (hb : size.toNat * e.size < 2 ^ 64) :
    ∃ m, realloc e s.memory p size copyLen = .ok (⟨some s.memory.length, 0, size⟩, m) ∧
      Laid e t ⟨m, s.pointers ++ [⟨some s.memory.length, 0, size⟩], s.tuples⟩
        (a.fresh ((a.elems u).take copyLen.toNat ++
          replicate (size.toNat - copyLen.toNat) e.zero)) := by
  have hf := length_slot e
  have hbs : e.bytes size = size.toNat * e.size := bytes_eq hb
  have hbc : e.bytes copyLen = copyLen.toNat * e.size := bytes_eq (hp.lt hr.bounded hl)
  have hmono : copyLen.toNat * e.size ≤ size.toNat * e.size := Nat.mul_le_mul_right _ (by omega)
  obtain ⟨hslice, hlen⟩ := take_elems hp.inside hl
  have hgt : ¬copyLen > p.size := by
    rw [gt_iff_lt, lt_iff_toNat_lt, hp.size]
    omega
  have hsz : size > p.size := by rwa [gt_iff_lt, lt_iff_toNat_lt, hp.size]
  have hne : size ≠ 0 := fun h => by rw [h] at hlt; exact absurd hlt (Nat.not_lt_zero _)
  have halloc : alloc e s.memory size = (⟨some s.memory.length, 0, size⟩,
      s.memory ++ [zeros (e.bytes size)]) := if_neg hne
  have hload := load_elems (i := 0) hr.memory hp (n := copyLen.toNat) (by omega)
  rw [Nat.zero_mul, Nat.add_zero, hslice] at hload
  set kept := (a.elems u).take copyLen.toNat with hkept
  set rest := replicate (size.toNat - copyLen.toNat) e.zero with hrest
  have hkl : (kept.flatMap (slot e)).length = copyLen.toNat * e.size := by
    rw [length_flatMap hf, hlen]
  have hrl : zeros (size.toNat * e.size - copyLen.toNat * e.size) = rest.flatMap (slot e) := by
    rw [hrest, flatMap_slot_zero, Nat.sub_mul]
  refine ⟨s.memory ++ [(kept ++ rest).flatMap (slot e)], ?_, ?_⟩
  · have h₁ : load (s.memory ++ [zeros (e.bytes size)]) _ _ _ = _ := load_append hload
    have h₂ : store (s.memory ++ [zeros (e.bytes size)]) (some s.memory.length) 0
        (kept.flatMap (slot e)) =
          .ok (s.memory ++ [splice (zeros (e.bytes size)) 0 (kept.flatMap (slot e))]) :=
      store_last (by rw [length_zeros, hkl, hbs]; omega)
    have hin : 0 + copyLen.toNat * e.size +
          (zeros (size.toNat * e.size - copyLen.toNat * e.size)).length ≤
        (splice (zeros (e.bytes size)) 0 (kept.flatMap (slot e))).length := by
      rw [length_splice (by rw [length_zeros, hkl, hbs]; omega), length_zeros, length_zeros, hbs]
      omega
    have h₃ := @store_last s.memory _ _ _ hin
    rw [Nat.zero_add, ← hkl, splice_all (by rw [hkl, length_zeros, length_zeros, hbs]; omega), hkl,
      hrl, ← flatMap_append] at h₃
    rw [realloc, if_neg hgt, if_pos hsz, halloc]
    show (do
      let bs ← load (s.memory ++ [zeros (e.bytes size)]) p.array p.offset (e.bytes copyLen)
      let m ← store (s.memory ++ [zeros (e.bytes size)]) (some s.memory.length) 0 bs
      if e.bytes size < e.bytes copyLen then .error .fault
      else do
        let m ← store m (some s.memory.length) (0 + e.bytes copyLen)
          (zeros (e.bytes size - e.bytes copyLen))
        pure (⟨some s.memory.length, 0, size⟩, m) : Except Stop (Pointer × Memory)) = _
    rw [hbc, h₁, ok_bind, h₂, ok_bind, if_neg (by omega), hbs, hrl, Nat.zero_add, ← hbs, h₃,
      ok_bind]
    rfl
  refine hr.fresh ?_ ?_ ?_ ?_
  · intro v hv
    rcases List.mem_append.1 hv with h | h
    · obtain ⟨xs, hxs, hm⟩ := mem_elems (mem_of_mem_take h)
      exact hr.stored xs hxs v hm
    · exact eq_of_mem_replicate h ▸ stored_zero
  · rwa [length_append, hlen, hrest, length_replicate, Nat.add_sub_cancel' (by omega)]
  · rw [ne_eq, append_eq_nil_iff, hrest, replicate_eq_nil_iff]
    omega
  · rw [length_append, hlen, hrest, length_replicate, Nat.add_sub_cancel' (by omega)]

/-- `realloc` that needs no room, where the rest is zero already. -/
theorem put_zeroes (hr : Laid e t s a) (hp : Covers e a.arrays p u) (hl : copyLen.toNat ≤ u.len)
    (hz : ∀ i, copyLen ≤ i → i < p.size → readFromArray e s.memory p (e.bytes i) = .ok e.zero) :
    a.put u copyLen.toNat (replicate (u.len - copyLen.toNat) e.zero) = a.arrays := by
  rw [Views.put]
  rcases hp.inside with ⟨hn, -⟩ | ⟨k, xs, hk, hxs, hin⟩
  · rw [hn]
  -- the rest is what is there
  have hrest : replicate (u.len - copyLen.toNat) e.zero =
      slice xs (u.start + copyLen.toNat) (u.len - copyLen.toNat) := by
    refine (List.eq_replicate_iff.2 ⟨length_slice (by omega), fun v hv => ?_⟩).symm
    obtain ⟨j, hj⟩ := List.mem_iff_getElem?.1 hv
    have hlt : j < u.len - copyLen.toNat := by
      have := (List.getElem?_eq_some_iff.1 hj).1
      rwa [length_slice (by omega)] at this
    rw [getElem?_slice hlt] at hj
    have hsize := p.size.toNat_lt
    rw [hp.size] at hsize
    have hi : (UInt64.ofNat (copyLen.toNat + j)).toNat = copyLen.toNat + j :=
      UInt64.toNat_ofNat_of_lt' (lt_trans (by omega : _ < u.len) hsize)
    have he : (a.elems u)[(UInt64.ofNat (copyLen.toNat + j)).toNat]? = some v := by
      rw [hi, Views.elems, hk, Option.bind_some, hxs]
      show (slice xs u.start u.len)[_]? = _
      rw [getElem?_slice (by omega), ← add_assoc]
      exact hj
    have hread := read_elem hr.memory hr.stored hp he
    have hb : e.bytes (UInt64.ofNat (copyLen.toNat + j)) = _ := bytes_eq (hp.lt hr.bounded (by omega))
    have hzero := hz (UInt64.ofNat (copyLen.toNat + j)) (by rw [UInt64.le_iff_toNat_le, hi]; omega)
      (by rw [lt_iff_toNat_lt, hi, hp.size]; omega)
    rw [hb, hread] at hzero
    exact Except.ok.inj hzero
  rw [hk, hrest]
  apply ext_getElem?
  intro n
  rw [getElem?_modify]
  split_ifs with hkn
  · rw [← hkn, hxs, Option.map_eq_map, Option.map_some, splice_slice (by omega)]
  · exact id_map _

theorem follows_realloc (hr : Laid e t s a) {n : Nat} (hc : Clean e s (.realloc n size copyLen)) :
    Follows e t s a (.realloc n size copyLen) := by
  rcases hr.at n with ⟨hs, ha⟩ | ⟨p, u, hs, ha, hp⟩
  · exact ⟨s, by simp only [step, runMethod, hs, specStep, ha], by simpa only [specStep, ha] using hr⟩
  have hgt : copyLen > p.size ↔ ¬copyLen.toNat ≤ u.len := by
    rw [gt_iff_lt, lt_iff_toNat_lt, hp.size]
    omega
  have hsz : size > p.size ↔ u.len < size.toNat := by rw [gt_iff_lt, lt_iff_toNat_lt, hp.size]
  by_cases hl : copyLen.toNat ≤ u.len
  swap
  · have hspec : specStep e a (.realloc n size copyLen) = (.exception, a) := by
      simp only [specStep, ha]
      exact if_neg hl
    rw [Follows, hspec]
    exact ⟨s, by simp only [step, runMethod, hs, realloc, if_pos (hgt.2 hl)]; rfl, hr⟩
  have hle : copyLen ≤ p.size := by rwa [UInt64.le_iff_toNat_le, hp.size]
  have hclean := hc p hs hle
  by_cases hlt : u.len < size.toNat
  · rw [if_pos (hsz.2 hlt)] at hclean
    obtain ⟨m, hre, hr'⟩ := realloc_grown hr hp hl hlt hclean
    have hspec : specStep e a (.realloc n size copyLen) =
        (.pointer, a.fresh ((a.elems u).take copyLen.toNat ++
          replicate (size.toNat - copyLen.toNat) e.zero)) := by
      simp only [specStep, ha, hl, if_true]
      exact if_pos hlt
    rw [Follows, hspec]
    exact ⟨_, by simp only [step, runMethod, hs, hre]; rfl, hr'⟩
  rw [if_neg (fun h => hlt (hsz.1 h))] at hclean
  have hre : realloc e s.memory p size copyLen = .ok (p, s.memory) := by
    rw [realloc, if_neg (fun h => hgt.1 h hl), if_neg (fun h => hlt (hsz.1 h))]
    rfl
  have hspec : specStep e a (.realloc n size copyLen) = (.pointer, ⟨a.put u copyLen.toNat
      (replicate (u.len - copyLen.toNat) e.zero), a.views ++ [u]⟩) := by
    simp only [specStep, ha, hl, if_true]
    exact if_neg hlt
  rw [Follows, hspec, put_zeroes hr hp hl hclean]
  exact ⟨_, by simp only [step, runMethod, hs, hre]; rfl, hr.push hp⟩

/-! ### What the elements are -/

/-- An element in memory and the value that it is: a tuple has the values of it, unless they are
deleted. -/
def Holds (t : Tuples) : Value → Value → Prop
  | .tuple n, x => ∃ vars, x = .tuple vars ∧ (t[n]? = some (some vars) ∨ t[n]? = some none)
  | v, x => x = v

/-- The elements in memory are the values of the arrays. -/
structure Shows (t : Tuples) (b a : Views) : Prop where
  arrays : Forall₂ (Forall₂ (Holds t)) b.arrays a.arrays
  views : b.views = a.views

/-- The arrays are the slots of elements that are the values of the arrays. -/
def Refines (e : ElemType) (s : State) (a : Views) : Prop :=
  ∃ b, Laid e s.tuples s b ∧ Shows s.tuples b a

variable {t' : Tuples} {y : Value} {zs : List Value}

theorem holds_zero (t : Tuples) (e : ElemType) : Holds t e.zero e.zero := by
  rw [ElemType.zero]
  cases e.rep <;> rfl

theorem holds_zeroes (t : Tuples) (e : ElemType) (n : Nat) :
    Forall₂ (Holds t) (replicate n e.zero) (replicate n e.zero) :=
  forall₂_same.2 fun _ hv => eq_of_mem_replicate hv ▸ holds_zero t e

theorem forall₂_splice {R : Value → Value → Prop} {xs xs' ys ys' : List Value}
    (hx : Forall₂ R xs xs') (hy : Forall₂ R ys ys') (i : Nat) :
    Forall₂ R (splice xs i ys) (splice xs' i ys') := by
  rw [splice, splice, hy.length_eq]
  exact rel_append (rel_append (forall₂_take i hx) hy) (forall₂_drop _ hx)

theorem forall₂_modify {R : List Value → List Value → Prop} {f g : List Value → List Value}
    (hfg : ∀ xs ys, R xs ys → R (f xs) (g ys)) {l l' : List (List Value)} (h : Forall₂ R l l')
    (k : Nat) : Forall₂ R (l.modify k f) (l'.modify k g) := by
  induction h generalizing k with
  | nil =>
    rw [modify_nil, modify_nil]
    exact .nil
  | cons hx hl ih =>
    cases k with
    | zero => exact .cons (hfg _ _ hx) hl
    | succ k => exact .cons hx (ih k)

namespace Shows

variable (h : Shows t b a)
include h

theorem elems (u : View) : Forall₂ (Holds t) (b.elems u) (a.elems u) := by
  rw [Views.elems, Views.elems]
  cases u.array with
  | none => exact .nil
  | some k =>
    obtain ⟨hlen, hget⟩ := forall₂_iff_get.1 h.arrays
    rw [bind_some, bind_some]
    rcases lt_or_ge k b.arrays.length with hk | hk
    · rw [getElem?_eq_getElem hk, getElem?_eq_getElem (hlen ▸ hk)]
      exact forall₂_take _ (forall₂_drop _ (hget k hk (hlen ▸ hk)))
    · rw [getElem?_eq_none hk, getElem?_eq_none (hlen ▸ hk)]
      exact .nil

/-- An element in view, and the value that it is. -/
theorem elem (hv : (b.elems u)[i]? = some v) : ∃ x, (a.elems u)[i]? = some x ∧ Holds t v x := by
  obtain ⟨hlen, hget⟩ := forall₂_iff_get.1 (h.elems u)
  obtain ⟨hi, rfl⟩ := List.getElem?_eq_some_iff.1 hv
  exact ⟨_, getElem?_eq_getElem (hlen ▸ hi), hget i hi (hlen ▸ hi)⟩

theorem elem_eq_none (hv : (b.elems u)[i]? = none) : (a.elems u)[i]? = none := by
  rw [getElem?_eq_none_iff] at hv ⊢
  rwa [← (h.elems u).length_eq]

theorem put (u : View) (i : Nat) (hy : Forall₂ (Holds t) ys zs) :
    Forall₂ (Forall₂ (Holds t)) (b.put u i ys) (a.put u i zs) := by
  rw [Views.put, Views.put]
  cases u.array with
  | none => exact h.arrays
  | some k => exact forall₂_modify (fun _ _ hx => forall₂_splice hx hy _) h.arrays k

theorem fresh (hy : Forall₂ (Holds t) ys zs) : Shows t (b.fresh ys) (a.fresh zs) := by
  rw [Views.fresh, Views.fresh]
  cases hy with
  | nil =>
    rw [if_pos rfl, if_pos rfl, h.views]
    exact ⟨h.arrays, rfl⟩
  | cons hv hvs =>
    rw [if_neg (by simp), if_neg (by simp)]
    refine ⟨rel_append h.arrays (.cons (.cons hv hvs) .nil), ?_⟩
    simp only [h.views, h.arrays.length_eq, length_cons, hvs.length_eq]

/-- The tuples of the elements changed. -/
theorem mono (ht : ∀ v x, Holds t v x → Holds t' v x) : Shows t' b a :=
  ⟨h.arrays.imp fun _ _ hx => hx.imp ht, h.views⟩

/-- A method that makes no copies of values does the same to the elements and to their values. -/
theorem specStep {op : Op e} (happly : ∀ p i, op ≠ .apply p i) (hupdate : ∀ p i x, op ≠ .update p i x) :
    (CtfePointer.specStep e b op).1 = (CtfePointer.specStep e a op).1 ∧
      Shows t (CtfePointer.specStep e b op).2 (CtfePointer.specStep e a op).2 := by
  cases op with
  | apply p i => exact absurd rfl (happly p i)
  | update p i x => exact absurd rfl (hupdate p i x)
  | alloc n => exact ⟨rfl, h.fresh (holds_zeroes t e _)⟩
  | pointerAtIndex p i =>
    simp only [CtfePointer.specStep, h.views]
    split
    · split
      · exact ⟨rfl, h.arrays, rfl⟩
      · exact ⟨rfl, h⟩
    · exact ⟨rfl, h⟩
  | copyTo p that len =>
    simp only [CtfePointer.specStep, h.views]
    split
    · split
      · exact ⟨rfl, h.put _ 0 (forall₂_take _ (h.elems _)), rfl⟩
      · exact ⟨rfl, h⟩
    · exact ⟨rfl, h⟩
  | realloc p size copyLen =>
    simp only [CtfePointer.specStep, h.views]
    split
    · split
      · split
        · exact ⟨rfl, h.fresh (rel_append (forall₂_take _ (h.elems _)) (holds_zeroes t e _))⟩
        · exact ⟨rfl, h.put _ _ (holds_zeroes t e _), rfl⟩
      · exact ⟨rfl, h⟩
    · exact ⟨rfl, h⟩

end Shows

/-! ### Values that are copied -/

/-- What an element is, if it is not a tuple that was deleted. -/
theorem copyOut_eq (h : Holds t v x) (halive : ∀ k, v = .tuple k → t[k]? ≠ some none) :
    v.copyOut t = .ok x := by
  cases v with
  | tuple k =>
    obtain ⟨vars, rfl, hk | hk⟩ := h
    · simp only [Value.copyOut, hk]
    · exact absurd hk (halive k rfl)
  | empty | word bs | object id | other id =>
    obtain rfl : x = _ := h
    rfl

theorem Holds.append (h : Holds t v x) (t' : Tuples) : Holds (t ++ t') v x := by
  cases v with
  | tuple n =>
    obtain ⟨vars, rfl, hn⟩ := h
    refine ⟨vars, rfl, ?_⟩
    rcases hn with hn | hn <;>
      rw [getElem?_append_left (List.getElem?_eq_some_iff.1 hn).1, hn]
    · exact .inl rfl
    · exact .inr rfl
  | empty | word bs | object id | other id => exact h

/-- A tuple that is deleted may have been any. -/
theorem Holds.delete (h : Holds t v x) (k : Nat) : Holds (t.set k none) v x := by
  cases v with
  | tuple n =>
    obtain ⟨vars, rfl, hn⟩ := h
    refine ⟨vars, rfl, ?_⟩
    by_cases hk : k = n
    · subst hk
      have hlt : k < t.length := by
        rcases hn with hn | hn <;> exact (List.getElem?_eq_some_iff.1 hn).1
      exact .inr (getElem?_set_self hlt)
    · rwa [getElem?_set_ne hk]
  | empty | word bs | object id | other id => exact h

theorem holds_copyIn (t : Tuples) (x : Value) : Holds (x.copyIn t).2 (x.copyIn t).1 x := by
  cases x with
  | tuple vars => exact ⟨vars, rfl, .inl (by simp [Value.copyIn])⟩
  | empty | word bs | object id | other id => rfl

theorem Holds.copyIn (h : Holds t v x) (y : Value) : Holds (y.copyIn t).2 v x := by
  cases y with
  | tuple vars => exact h.append [some vars]
  | empty | word bs | object id | other id => exact h

/-- A value is copied to memory, and what was there is deleted. -/
theorem exists_delete (h : Holds t v x) (halive : ∀ k, v = .tuple k → t[k]? ≠ some none) (y : Value) :
    ∃ t', v.delete (y.copyIn t).2 = .ok t' ∧ ∀ w z, Holds (y.copyIn t).2 w z → Holds t' w z := by
  cases v with
  | tuple k =>
    have halive' : (y.copyIn t).2[k]? ≠ some none := by
      obtain ⟨vars, -, hk | hk⟩ := h
      · cases y with
        | tuple vars' =>
          have hlt := (List.getElem?_eq_some_iff.1 hk).1
          simp [Value.copyIn, getElem?_append_left hlt, hk]
        | empty | word bs | object id | other id => exact halive k rfl
      · exact absurd hk (halive k rfl)
    obtain ⟨vars, -, hk | hk⟩ := h.copyIn y
    · exact ⟨_, by simp only [Value.delete, hk], fun w z hw => hw.delete k⟩
    · exact absurd hk halive'
  | empty | word bs | object id | other id => exact ⟨_, rfl, fun w z hw => hw⟩

/-- What a method and what it is there for make of related states. -/
def Agrees (e : ElemType) (s : State) (a : Views) (op : Op e) : Prop :=
  ∃ s', step e s op = .ok ((specStep e a op).1, s') ∧ Refines e s' (specStep e a op).2

/-- A method that makes no copies of values. -/
theorem Follows.agrees {op : Op e} (h : Follows e s.tuples s b op) (hb : Shows s.tuples b a)
    (happly : ∀ p i, op ≠ .apply p i) (hupdate : ∀ p i x, op ≠ .update p i x) : Agrees e s a op := by
  obtain ⟨s', hstep, hl⟩ := h
  obtain ⟨hres, hshows⟩ := hb.specStep happly hupdate
  exact ⟨s', by rw [hstep, hres], _, hl.tuples ▸ hl, hl.tuples ▸ hshows⟩

theorem agrees_apply (hr : Refines e s a) {n : Nat} {i : UInt64} (hc : Clean e s (.apply n i)) :
    Agrees e s a (.apply n i) := by
  obtain ⟨b, hl, hb⟩ := hr
  rcases hl.at n with ⟨hs, ha⟩ | ⟨p, u, hs, ha, hp⟩ <;> rw [hb.views] at ha
  · exact ⟨s, by simp only [step, runMethod, hs, specStep, ha],
      by simpa only [specStep, ha] using ⟨b, hl, hb⟩⟩
  by_cases hi : i.toNat < u.len
  · obtain ⟨v, hv⟩ := elems_getElem? hp.inside hi
    obtain ⟨x, hx, hvx⟩ := hb.elem hv
    have hlt := (lt_iff_toNat hp).2 hi
    have hbytes : e.bytes i = i.toNat * e.size := bytes_eq (hp.lt hl.bounded hi.le)
    have hread := read_elem hl.memory hl.stored hp hv
    have hout : v.copyOut s.tuples = .ok x :=
      copyOut_eq hvx fun k hk => hc p hs hlt k (by rw [hbytes, hread, hk])
    refine ⟨s, ?_, by simpa only [specStep, ha, hx] using ⟨b, hl, hb⟩⟩
    simp only [step, runMethod, hs, apply, hlt, if_true, hbytes, hread, specStep, ha, hx, ok_bind,
      hout]
    rfl
  have hx := hb.elem_eq_none (elems_eq_none hp.inside hi)
  refine ⟨s, ?_, by simpa only [specStep, ha, hx] using ⟨b, hl, hb⟩⟩
  simp only [step, runMethod, hs, apply, mt (lt_iff_toNat hp).1 hi, if_false, specStep, ha, hx]
  rfl

theorem agrees_update (hr : Refines e s a) {n : Nat} {i : UInt64}
    {x : {v : Value // e.Typed v}} (hc : Clean e s (.update n i x)) :
    Agrees e s a (.update n i x) := by
  obtain ⟨b, hl, hb⟩ := hr
  rcases hl.at n with ⟨hs, ha⟩ | ⟨p, u, hs, ha, hp⟩ <;> rw [hb.views] at ha
  · exact ⟨s, by simp only [step, runMethod, hs, specStep, ha],
      by simpa only [specStep, ha] using ⟨b, hl, hb⟩⟩
  by_cases hi : i.toNat < u.len
  · have hlt := (lt_iff_toNat hp).2 hi
    obtain ⟨v, hv⟩ := elems_getElem? hp.inside hi
    obtain ⟨y, hy, hvy⟩ := hb.elem hv
    have hbytes : e.bytes i = i.toNat * e.size := bytes_eq (hp.lt hl.bounded hi.le)
    have hread := read_elem hl.memory hl.stored hp hv
    obtain ⟨halive, hobject⟩ := hc p hs hlt
    have halive : ∀ k, v = .tuple k → s.tuples[k]? ≠ some none := fun k hk =>
      halive k (by rw [hbytes, hread, hk])
    have hout := copyOut_eq hvy halive
    obtain ⟨t, hdelete, hkeep⟩ := exists_delete hvy halive x.val
    obtain ⟨hstored, hw⟩ := writeToArray_copyIn s.memory p (i.toNat * e.size) s.tuples x.2 hobject
    have hstore := store_image hl.memory hl.stored hp hi hstored
    have hup : update e s.memory s.tuples p i x =
        .ok (y, (b.put u i.toNat [(x.val.copyIn s.tuples).1]).map (·.flatMap (slot e)), t) := by
      simp only [update, if_pos hlt, hbytes, hread, ok_bind, hout, hw, hstore, hdelete]
      rfl
    refine ⟨_, by simp only [step, runMethod, hs, hup, specStep, ha, hy]; rfl, ?_⟩
    have hput := hl.put hp.inside hi fun z hz => by rwa [mem_singleton.1 hz]
    have hshows := (hb.mono fun _ _ h => hkeep _ _ (h.copyIn x.val)).put u i.toNat
      (.cons (hkeep _ _ (holds_copyIn s.tuples x.val)) .nil)
    simp only [specStep, ha, hy]
    exact ⟨_, ⟨hput.memory, rfl, hput.stored, hput.bounded, hput.pointers⟩, hshows, hb.views⟩
  have hx := hb.elem_eq_none (elems_eq_none hp.inside hi)
  refine ⟨s, ?_, by simpa only [specStep, ha, hx] using ⟨b, hl, hb⟩⟩
  simp only [step, runMethod, hs, update, mt (lt_iff_toNat hp).1 hi, if_false, specStep, ha, hx]
  rfl

/-! ### Chains -/

/-- **A clean method** gives what it is there for. -/
theorem step_refines (hr : Refines e s a) {op : Op e} (hc : Clean e s op) : Agrees e s a op := by
  obtain ⟨b, hl, hb⟩ := hr
  cases op with
  | alloc n => exact (follows_alloc hl hc).agrees hb nofun nofun
  | pointerAtIndex p i => exact (follows_pointerAtIndex hl hc).agrees hb nofun nofun
  | apply p i => exact agrees_apply ⟨b, hl, hb⟩ hc
  | update p i v => exact agrees_update ⟨b, hl, hb⟩ hc
  | copyTo p that len => exact (follows_copyTo hl).agrees hb nofun nofun
  | realloc p size copyLen => exact (follows_realloc hl hc).agrees hb nofun nofun

/-- Each method is clean where it is called. -/
def CleanRun (e : ElemType) (s : State) : List (Op e) → Prop
  | [] => True
  | op :: ops => Clean e s op ∧ ∀ r s', step e s op = .ok (r, s') → CleanRun e s' ops

theorem run_refines (hr : Refines e s a) {ops : List (Op e)} (hc : CleanRun e s ops) :
    ∃ s', run e s ops = .ok ((specRun e a ops).1, s') ∧ Refines e s' (specRun e a ops).2 := by
  induction ops generalizing s a with
  | nil => exact ⟨s, rfl, hr⟩
  | cons op ops ih =>
    obtain ⟨s₁, hstep, hr₁⟩ := step_refines hr hc.1
    obtain ⟨s₂, hrun, hr₂⟩ := ih hr₁ (hc.2 _ _ hstep)
    refine ⟨s₂, ?_, hr₂⟩
    rw [run, hstep]
    simp only [bind, Except.bind, hrun]
    rfl

theorem refines_init : Refines e {} {} :=
  ⟨{}, ⟨rfl, rfl, by simp, by simp, .nil⟩, .nil, rfl⟩

/-- **Bounded views of arrays**: in a chain of clean methods every one gives the value, the pointer
or the exception that its view gives, no access is outside an array, and in the end each pointer
covers exactly the elements of its view. -/
theorem bounded_views (e : ElemType) (ops : List (Op e)) (h : CleanRun e {} ops) :
    ∃ s, run e {} ops = .ok ((specRun e {} ops).1, s) ∧ Refines e s (specRun e {} ops).2 :=
  run_refines refines_init h

/-- `Pointer[U8]` -/
def u8 : ElemType := ⟨1, .word 1, by decide, by decide⟩

/-- `Pointer[U32]` -/
def u32 : ElemType := ⟨4, .word 4, by decide, by decide⟩

/-- `Pointer[(A, B)]` -/
def pair : ElemType := ⟨32, .boxed, by decide, by decide⟩

theorem alive_of_tuple {i : UInt64} (hn : readFromArray e s.memory q (e.bytes i) = .ok (.tuple n))
    (hne : s.tuples[n]? ≠ some none) : Alive e s q i := by
  intro k hk
  cases hn.symm.trans hk
  exact hne

theorem alive_of_word {w : Nat} (hr : e.rep = .word w) (q : Pointer) (i : UInt64) : Alive e s q i := by
  intro k hk
  rw [readFromArray] at hk
  cases hload : load s.memory q.array (q.offset + e.bytes i) e.width with
  | error stop => rw [hload] at hk; cases hk
  | ok bs =>
    simp only [hload, ok_bind, decode, hr] at hk
    split at hk <;> cases hk

/-- A byte written through a pointer into an array of bytes, and seen through the array's; a tuple
that is copied, and read and written in its new place. -/
theorem bounded_views_u8 :
    (∃ s, run u8 {} [.alloc 4, .pointerAtIndex 0 1, .update 1 2 ⟨.word [7], [7], rfl, rfl⟩,
      .apply 0 3, .apply 1 3] =
        .ok ([.pointer, .pointer, .value (.word [0]), .value (.word [7]), .exception], s)) ∧
    ∃ s, run pair {} [.alloc 1, .alloc 2, .update 0 0 ⟨.tuple 5, trivial⟩, .copyTo 0 1 1,
      .apply 1 0, .update 1 0 ⟨.tuple 6, trivial⟩, .apply 1 0] =
        .ok ([.pointer, .pointer, .value .empty, .pointer, .value (.tuple 5), .value (.tuple 5),
          .value (.tuple 6)], s) := by
  have hword : CleanRun u8 {} [.alloc 4, .pointerAtIndex 0 1,
      .update 1 2 ⟨.word [7], [7], rfl, rfl⟩, .apply 0 3, .apply 1 3] :=
    ⟨show (4 : UInt64).toNat * 1 < 2 ^ 64 by decide, fun _ _ _ => ⟨fun _ _ _ => .inr rfl,
      fun _ _ _ => ⟨fun q _ _ => ⟨alive_of_word rfl q 2, nofun⟩, fun _ _ _ =>
        ⟨fun q _ _ => alive_of_word rfl q 3, fun _ _ _ =>
          ⟨fun q _ _ => alive_of_word rfl q 3, fun _ _ _ => trivial⟩⟩⟩⟩⟩
  have htuple : CleanRun pair {} [.alloc 1, .alloc 2, .update 0 0 ⟨.tuple 5, trivial⟩,
      .copyTo 0 1 1, .apply 1 0, .update 1 0 ⟨.tuple 6, trivial⟩, .apply 1 0] := by
    refine ⟨show (1 : UInt64).toNat * 32 < 2 ^ 64 by decide, fun _ s₁ h₁ => ?_⟩
    cases h₁
    refine ⟨show (2 : UInt64).toNat * 32 < 2 ^ 64 by decide, fun _ s₂ h₂ => ?_⟩
    cases h₂
    refine ⟨fun q hq _ => ⟨fun k hk => ?_, nofun⟩, fun _ s₃ h₃ => ?_⟩
    · cases hq
      cases hk
    cases h₃
    refine ⟨trivial, fun _ s₄ h₄ => ?_⟩
    cases h₄
    refine ⟨fun q hq _ => ?_, fun _ s₅ h₅ => ?_⟩
    · cases hq
      exact alive_of_tuple (n := 0) rfl (by decide)
    cases h₅
    refine ⟨fun q hq _ => ⟨?_, nofun⟩, fun _ s₆ h₆ => ?_⟩
    · cases hq
      exact alive_of_tuple (n := 0) rfl (by decide)
    cases h₆
    refine ⟨fun q hq _ => ?_, fun _ _ _ => trivial⟩
    cases hq
    exact alive_of_tuple (n := 1) rfl (by decide)
  obtain ⟨s, hs, -⟩ := bounded_views u8 _ hword
  obtain ⟨s', hs', -⟩ := bounded_views pair _ htuple
  exact ⟨⟨s, hs⟩, s', hs'⟩

/-- A tuple that was copied is lost when one of its copies is written over. -/
example : run pair {} [.alloc 1, .alloc 1, .update 0 0 ⟨.tuple 5, trivial⟩, .copyTo 0 1 1,
    .update 0 0 ⟨.tuple 6, trivial⟩, .apply 1 0] = .error .fault := rfl

/-- The pointer to the third of four elements of four bytes has a size from below zero, and reads
beyond the array. -/
theorem pointerAtIndex_reads_beyond : ¬∀ (e : ElemType) (ops : List (Op e)),
      ∃ s, run e {} ops = .ok ((specRun e {} ops).1, s) ∧ Refines e s (specRun e {} ops).2 := by
  intro h
  obtain ⟨s, hs, -⟩ := h u32 [.alloc 4, .pointerAtIndex 0 2, .apply 1 3]
  have hr : run u32 {} [.alloc 4, .pointerAtIndex 0 2, .apply 1 3] = .error .fault := rfl
  rw [hr] at hs
  cases hs

end SpacePony.CtfePointer
