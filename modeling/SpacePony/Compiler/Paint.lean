import SpacePony.Support.Bitmap
import SpacePony.Support.Lists

/-!
# Compiler — vtable painting

`reach/paint.c`.  Every mangled method name of the reachable types gets a colour, which becomes
the `vtable_index` of each method of that name.  Two names may share a colour when no type uses
both; the painter records which types use a name, and which use a colour, in bitmaps with one
bit for each type that is not bare.

The model follows the C step by step: `findNamesTypesUse` (step 1), `assignColoursToNames`
(step 3) and `distributeInfo` (step 5).  A hash map is a list in its iteration order.  The
order in which step 3 meets the name records is a parameter, `IterOrder`: any rearrangement of
the records may be what the hash map yields.  A failed `pony_assert` is `none`.

`paint_proper_colouring`: whatever the types and the order, painting succeeds and colours
properly.
-/

namespace SpacePony.Paint

open List

variable {ν : Type} [DecidableEq ν]

/-- `reach_method_t`, as far as the painter reads it.  Names are interned, so that equal names
are equal pointers. -/
structure ReachMethod (ν : Type) where
  mangledName : ν
  vtableIndex : Nat
deriving DecidableEq

/-- `reach_method_name_t`: the methods of one source name, in the order of `r_mangled`. -/
structure ReachMethodName (ν : Type) where
  rMangled : List (ReachMethod ν)
deriving DecidableEq

/-- `reach_type_t`.  `bare` is `bare_method != NULL`. -/
structure ReachType (ν : Type) where
  bare : Bool
  methods : List (ReachMethodName ν)
  vtableSize : Nat
deriving DecidableEq

/-- `UNASSIGNED_COLOUR`. -/
def unassignedColour : Nat := 2 ^ 32 - 1

/-- `name_record_t`. -/
structure NameRecord (ν : Type) where
  name : ν
  colour : Nat
  typeMap : Bitmap.Words

/-- `colour_record_t`. -/
structure ColourRecord where
  colour : Nat
  typeMap : Bitmap.Words

/-- `painter_t`. -/
structure Painter (ν : Type) where
  names : List (NameRecord ν)
  colours : List ColourRecord
  typemapSize : Nat
  colourCount : Nat

/-- What a hash map's iteration may do to the order of its entries. -/
structure IterOrder (α : Type) where
  apply : List α → List α
  perm : ∀ l, (apply l).Perm l

/-! ### The painter -/

/-- A bitmap with no type in it. -/
def emptyTypemap (p : Painter ν) : Bitmap.Words := replicate p.typemapSize 0#64

/-- `add_name`. -/
def addName (p : Painter ν) (name : ν) : Painter ν :=
  { p with names := p.names ++ [⟨name, unassignedColour, emptyTypemap p⟩] }

/-- `add_colour`, with the record it returns. -/
def addColour (p : Painter ν) : Painter ν × ColourRecord :=
  let n : ColourRecord := ⟨p.colourCount, emptyTypemap p⟩
  ({ p with colours := p.colours ++ [n], colourCount := p.colourCount + 1 }, n)

/-- `find_name`. -/
def findName (p : Painter ν) (name : ν) : Option (NameRecord ν) :=
  p.names.find? fun n => n.name = name

/-- `is_name_compatible`. -/
def isNameCompatible (colour : ColourRecord) (name : NameRecord ν) : Bool :=
  Bitmap.disjoint colour.typeMap name.typeMap

/-- `assign_name_to_colour`, on the colour record of number `c` and the record of `name`. -/
def assignNameToColour (p : Painter ν) (c : Nat) (name : NameRecord ν) : Painter ν :=
  { p with
    colours := p.colours.map fun r =>
      if r.colour = c then { r with typeMap := Bitmap.union r.typeMap name.typeMap } else r
    names := p.names.map fun n => if n.name = name.name then { n with colour := c } else n }

/-! ### Step 1 -/

/-- The position of the next type in the bitmaps: `typemap_index` and `typemap_mask`. -/
structure Cursor where
  index : Nat
  mask : BitVec 64

/-- `typemap_mask <<= 1`, moving to the next word when the bit falls off. -/
def Cursor.advance (c : Cursor) : Cursor :=
  let m := c.mask <<< 1
  if m = 0#64 then ⟨c.index + 1, 1#64⟩ else ⟨c.index, m⟩

/-- `name_rec->type_map[typemap_index] |= typemap_mask`, adding the record at its first use. -/
def markName (c : Cursor) (p : Painter ν) (name : ν) : Painter ν :=
  let p := if (findName p name).isNone then addName p name else p
  { p with names := p.names.map fun n =>
      if n.name = name then { n with typeMap := n.typeMap.modify c.index (· ||| c.mask) } else n }

/-- The mangled names of a type's methods, in iteration order. -/
def ReachType.names (t : ReachType ν) : List ν :=
  t.methods.flatMap fun n => n.rMangled.map (·.mangledName)

/-- The body of step 1's loop over the types. -/
def useType (s : Painter ν × Cursor) (t : ReachType ν) : Option (Painter ν × Cursor) :=
  if t.bare then some s
  else if s.2.index < s.1.typemapSize then
    some (t.names.foldl (markName s.2) s.1, s.2.advance)
  else none

/-- `find_names_types_use`. -/
def findNamesTypesUse (p : Painter ν) (types : List (ReachType ν)) : Option (Painter ν) :=
  (types.foldlM useType (p, ⟨0, 1#64⟩)).map Prod.fst

/-! ### Step 3 -/

/-- The body of step 3's loop: the first compatible colour, or a new one. -/
def assignColour (p : Painter ν) (name : NameRecord ν) : Painter ν :=
  match p.colours.find? (isNameCompatible · name) with
  | some c => assignNameToColour p c.colour name
  | none => assignNameToColour (addColour p).1 (addColour p).2.colour name

/-- `assign_colours_to_names`. -/
def assignColoursToNames (order : IterOrder (NameRecord ν)) (p : Painter ν) : Painter ν :=
  (order.apply p.names).foldl assignColour p

/-! ### Step 5 -/

/-- The colour of a method's name record; the record must be there. -/
def distributeMethod (p : Painter ν) (m : ReachMethod ν) : Option (ReachMethod ν) :=
  (findName p m.mangledName).map fun n => { m with vtableIndex := n.colour }

/-- The methods of a type with their colours, by source name. -/
def distributeName (p : Painter ν) (n : ReachMethodName ν) : Option (ReachMethodName ν) :=
  (n.rMangled.mapM (distributeMethod p)).map (⟨·⟩)

/-- `max_colour`: the largest `vtable_index`, zero when there is no method. -/
def maxColour (ns : List (ReachMethodName ν)) : Nat :=
  (ns.flatMap (·.rMangled)).foldl (fun mx m => if m.vtableIndex > mx then m.vtableIndex else mx) 0

/-- The body of step 5's loop over the types. -/
def distributeType (p : Painter ν) (t : ReachType ν) : Option (ReachType ν) :=
  if t.methods.length = 0 ∨ t.bare = true then some t
  else do
    let ns ← t.methods.mapM (distributeName p)
    pure { t with methods := ns, vtableSize := maxColour ns + 1 }

/-- `distribute_info`. -/
def distributeInfo (p : Painter ν) (types : List (ReachType ν)) : Option (List (ReachType ν)) :=
  types.mapM (distributeType p)

/-- `paint`, with the painter it has before it tidies up. -/
def paint (order : IterOrder (NameRecord ν)) (types : List (ReachType ν)) :
    Option (Painter ν × List (ReachType ν)) :=
  if types.length = 0 then some (⟨[], [], 0, 0⟩, types)
  else do
    let p ← findNamesTypesUse ⟨[], [], (types.length - 1) / 64 + 1, 0⟩ types
    let p := assignColoursToNames order p
    let ts ← distributeInfo p types
    pure (p, ts)

/-! ### The name records of step 1 -/

/-- The cursor at the `k`-th type that is not bare. -/
def cursorAt (k : Nat) : Cursor := ⟨k / 64, Bitmap.mask (k % 64)⟩

theorem mask_shift {j : Nat} (hj : j < 64) :
    Bitmap.mask j <<< 1 = if j = 63 then 0#64 else Bitmap.mask (j + 1) := by
  simp only [Bitmap.mask, ← BitVec.shiftLeft_add]
  split
  · subst j; rfl
  · rfl

theorem mask_ne_zero {j : Nat} (hj : j < 64) : Bitmap.mask j ≠ 0#64 := fun h => by
  have := congrArg (fun y => y.getLsbD j) h
  simp [Bitmap.getLsbD_mask hj] at this

/-- The cursor walks the bits of the bitmap in order, across word boundaries. -/
theorem cursorAt_advance (k : Nat) : (cursorAt k).advance = cursorAt (k + 1) := by
  have hk : k % 64 < 64 := Nat.mod_lt _ (by decide)
  simp only [cursorAt, Cursor.advance, mask_shift hk]
  by_cases h : k % 64 = 63
  · have hd : (k + 1) / 64 = k / 64 + 1 := by omega
    have hm : (k + 1) % 64 = 0 := by omega
    rw [if_pos h, if_pos rfl, hd, hm]
    rfl
  · have hd : (k + 1) / 64 = k / 64 := by omega
    have hm : (k + 1) % 64 = k % 64 + 1 := by omega
    rw [if_neg h, if_neg (mask_ne_zero (by omega)), hd, hm]

/-- The records of the painter say that name `x` is used by type number `k` exactly when
`f x k`; a name with no record is used by no type. -/
structure Records (p : Painter ν) (f : ν → Nat → Prop) : Prop where
  nodup : (p.names.map (·.name)).Nodup
  len : ∀ n ∈ p.names, n.typeMap.length = p.typemapSize
  bits : ∀ n ∈ p.names, ∀ k, Bitmap.mem n.typeMap k = true ↔ f n.name k
  absent : ∀ x, (∀ n ∈ p.names, n.name ≠ x) → ∀ k, ¬ f x k

variable {p : Painter ν} {f : ν → Nat → Prop} {t : ReachType ν} {D : ν → Prop} {m : ReachMethod ν}

theorem findName_isNone {x : ν} : (findName p x).isNone = true ↔ ∀ n ∈ p.names, n.name ≠ x := by
  simp [findName]

omit [DecidableEq ν] in
theorem Records.addName (h : Records p f) {x : ν} (hx : ∀ n ∈ p.names, n.name ≠ x) :
    Records (addName p x) f := by
  have hf := h.absent x hx
  refine ⟨?_, fun n hn => ?_, fun n hn k => ?_, fun y hy => ?_⟩
  · simp only [Paint.addName, map_append, map_cons, map_nil]
    refine List.Nodup.append h.nodup (nodup_singleton x) ?_
    simpa using hx
  · rcases mem_append.1 hn with hn | hn
    · exact h.len n hn
    · cases mem_singleton.1 hn; simp [emptyTypemap, Paint.addName]
  · rcases mem_append.1 hn with hn | hn
    · exact h.bits n hn k
    · cases mem_singleton.1 hn; simp [emptyTypemap, hf k]
  · exact h.absent y fun n hn => hy n (mem_append_left _ hn)

/-- The marking half of `markName`, on a name that has its record. -/
theorem Records.mark (h : Records p f) {x : ν} {k : Nat} (hk : k / 64 < p.typemapSize)
    (hx : ∃ n ∈ p.names, n.name = x) : Records { p with names := p.names.map fun n =>
      if n.name = x then { n with typeMap := Bitmap.insert n.typeMap k } else n }
      (fun y j => f y j ∨ (y = x ∧ j = k)) := by
  have hname : ∀ n : NameRecord ν, (if n.name = x then
      { n with typeMap := Bitmap.insert n.typeMap k } else n).name = n.name := fun n => by
    split <;> rfl
  refine ⟨?_, fun n' hn' => ?_, fun n' hn' j => ?_, fun y hy j hj => ?_⟩
  · rw [map_map]
    convert h.nodup using 2
    exact funext hname
  · obtain ⟨n, hn, rfl⟩ := mem_map.1 hn'
    split
    · simpa using h.len n hn
    · exact h.len n hn
  · obtain ⟨n, hn, rfl⟩ := mem_map.1 hn'
    rw [hname]
    by_cases e : n.name = x
    · rw [if_pos e, Bitmap.mem_insert (h.len n hn ▸ hk), h.bits n hn, Or.comm]
      simp [e]
    · rw [if_neg e, h.bits n hn]
      simp [e]
  · have hy' : ∀ n ∈ p.names, n.name ≠ y := fun n hn e =>
      hy _ (mem_map_of_mem hn) ((hname n).trans e)
    rcases hj with hj | ⟨rfl, rfl⟩
    · exact h.absent y hy' j hj
    · obtain ⟨n, hn, e⟩ := hx
      exact hy' n hn e

theorem Records.markName (h : Records p f) (x : ν) {k : Nat} (hk : k / 64 < p.typemapSize) :
    Records (markName (cursorAt k) p x) (fun y j => f y j ∨ (y = x ∧ j = k)) := by
  rw [Paint.markName]
  by_cases hx : (findName p x).isNone = true
  · rw [if_pos hx]
    exact (h.addName (findName_isNone.1 hx)).mark hk
      ⟨_, mem_append_right _ (mem_singleton_self _), rfl⟩
  rw [if_neg hx]
  have hx' : ∃ n ∈ p.names, n.name = x := by simpa using mt findName_isNone.2 hx
  exact h.mark hk hx'

theorem markName_typemapSize (c : Cursor) (p : Painter ν) (x : ν) :
    (markName c p x).typemapSize = p.typemapSize := by
  simp only [markName]; split <;> rfl

theorem markName_colours (c : Cursor) (p : Painter ν) (x : ν) :
    (markName c p x).colours = p.colours ∧ (markName c p x).colourCount = p.colourCount := by
  simp only [markName]; split <;> exact ⟨rfl, rfl⟩

/-- Marking the names `xs` of type number `k`. -/
theorem Records.foldl_markName {k : Nat} (xs : List ν) :
    ∀ {p : Painter ν} {f : ν → Nat → Prop}, Records p f → k / 64 < p.typemapSize →
      Records (xs.foldl (Paint.markName (cursorAt k)) p) (fun y j => f y j ∨ (y ∈ xs ∧ j = k)) := by
  induction xs with
  | nil => intro p f h _; simpa using h
  | cons x xs ih =>
    intro p f h hk
    have hk' : k / 64 < (Paint.markName (cursorAt k) p x).typemapSize := by
      rwa [markName_typemapSize]
    have e : (fun y j => f y j ∨ (y ∈ x :: xs ∧ j = k)) =
        fun y j => (f y j ∨ (y = x ∧ j = k)) ∨ (y ∈ xs ∧ j = k) := by
      funext y j
      simp only [mem_cons, or_and_right, or_assoc]
    rw [foldl_cons, e]
    exact ih (h.markName x hk) hk'

theorem foldl_markName_typemapSize (c : Cursor) (xs : List ν) (p : Painter ν) :
    (xs.foldl (markName c) p).typemapSize = p.typemapSize := by
  induction xs generalizing p with
  | nil => rfl
  | cons x xs ih => rw [foldl_cons, ih, markName_typemapSize]

theorem foldl_markName_colours (c : Cursor) (xs : List ν) (p : Painter ν) :
    (xs.foldl (markName c) p).colours = p.colours ∧
      (xs.foldl (markName c) p).colourCount = p.colourCount := by
  induction xs generalizing p with
  | nil => exact ⟨rfl, rfl⟩
  | cons x xs ih =>
    rw [foldl_cons]
    exact ⟨(ih _).1.trans (markName_colours c p x).1, (ih _).2.trans (markName_colours c p x).2⟩

/-- The types step 1 gives a bit to, in order. -/
def nonBare (types : List (ReachType ν)) : List (ReachType ν) := types.filter fun t => !t.bare

/-- Type number `k` uses the name `x`. -/
def UsedBy (types : List (ReachType ν)) (x : ν) (k : Nat) : Prop :=
  ∃ t, (nonBare types)[k]? = some t ∧ x ∈ t.names

omit [DecidableEq ν] in
theorem usedBy_append_bare (us : List (ReachType ν)) (ht : t.bare = true) :
    UsedBy (us ++ [t]) = UsedBy us := by
  have : nonBare (us ++ [t]) = nonBare us := by simp [nonBare, ht]
  unfold UsedBy
  rw [this]

omit [DecidableEq ν] in
theorem usedBy_append (us : List (ReachType ν)) (ht : t.bare = false) :
    UsedBy (us ++ [t]) = fun x k => UsedBy us x k ∨ (x ∈ t.names ∧ k = (nonBare us).length) := by
  have e : nonBare (us ++ [t]) = nonBare us ++ [t] := by simp [nonBare, ht]
  funext x k
  unfold UsedBy
  rw [e, eq_iff_iff]
  by_cases hk : k < (nonBare us).length
  · rw [getElem?_append_left hk]
    exact ⟨.inl, fun h => h.resolve_right fun h' => by omega⟩
  rw [getElem?_append_right (Nat.not_lt.1 hk), getElem?_eq_none (l := nonBare us) (Nat.not_lt.1 hk)]
  by_cases he : k = (nonBare us).length
  · subst he; simp
  have : k - (nonBare us).length ≠ 0 := by omega
  obtain ⟨m, hm⟩ := Nat.exists_eq_succ_of_ne_zero this
  simp [hm, he]

/-- **Step 1.**  With room in the bitmaps for every type, the assertion on `typemap_index`
holds throughout, and the records say which types use which names. -/
theorem foldlM_useType (ts : List (ReachType ν)) :
    ∀ (us : List (ReachType ν)) (p : Painter ν), Records p (UsedBy us) →
      (us ++ ts).length ≤ 64 * p.typemapSize →
      ∃ q c, ts.foldlM useType (p, cursorAt (nonBare us).length) = some (q, c) ∧
        Records q (UsedBy (us ++ ts)) ∧ q.typemapSize = p.typemapSize ∧
        q.colours = p.colours ∧ q.colourCount = p.colourCount := by
  induction ts with
  | nil => intro us p h _; exact ⟨p, _, rfl, by simpa using h, rfl, rfl, rfl⟩
  | cons t ts ih =>
    intro us p h hlen
    have hlen' : ((us ++ [t]) ++ ts).length ≤ 64 * p.typemapSize := by simpa using hlen
    cases ht : t.bare with
    | true =>
      obtain ⟨q, c, hq, hr⟩ := ih (us ++ [t]) p (by rwa [usedBy_append_bare us ht]) hlen'
      have e : nonBare (us ++ [t]) = nonBare us := by simp [nonBare, ht]
      refine ⟨q, c, ?_, by simpa using hr⟩
      rw [foldlM_cons, useType, if_pos ht]
      rw [e] at hq
      exact hq
    | false =>
      have hus : (nonBare us).length ≤ us.length := length_filter_le _ _
      have hk : (nonBare us).length / 64 < p.typemapSize := by
        simp only [length_append, length_cons] at hlen
        omega
      have hrec := h.foldl_markName t.names hk
      rw [← usedBy_append us ht] at hrec
      have hcol := foldl_markName_colours (cursorAt (nonBare us).length) t.names p
      have hsz := foldl_markName_typemapSize (cursorAt (nonBare us).length) t.names p
      obtain ⟨q, c, hq, hr, hs, hc₁, hc₂⟩ := ih (us ++ [t]) _ hrec (by rwa [hsz])
      have e : (nonBare (us ++ [t])).length = (nonBare us).length + 1 := by simp [nonBare, ht]
      refine ⟨q, c, ?_, by simpa using hr, hs.trans hsz, hc₁.trans hcol.1, hc₂.trans hcol.2⟩
      have hu : useType (p, cursorAt (nonBare us).length) t = some (t.names.foldl
          (markName (cursorAt (nonBare us).length)) p, cursorAt ((nonBare us).length + 1)) := by
        rw [useType, if_neg (by simp [ht]), ← cursorAt_advance]
        exact if_pos hk
      rw [foldlM_cons, hu]
      rw [e] at hq
      exact hq

/-! ### The colours of step 3 -/

/-- The names in `D` have their colours: a colour's bitmap is the union of the bitmaps of the
names that have it, and two names with one colour are used by no common type. -/
structure Coloured (p : Painter ν) (D : ν → Prop) : Prop where
  numbered : p.colours.map (·.colour) = range p.colourCount
  len : ∀ c ∈ p.colours, c.typeMap.length = p.typemapSize
  bits : ∀ c ∈ p.colours, ∀ k, Bitmap.mem c.typeMap k = true ↔
    ∃ n ∈ p.names, D n.name ∧ n.colour = c.colour ∧ Bitmap.mem n.typeMap k = true
  lt : ∀ n ∈ p.names, D n.name → n.colour < p.colourCount
  apart : ∀ n ∈ p.names, ∀ n' ∈ p.names, D n.name → D n'.name → n.name ≠ n'.name →
    n.colour = n'.colour → ∀ k, ¬ (Bitmap.mem n.typeMap k = true ∧ Bitmap.mem n'.typeMap k = true)

omit [DecidableEq ν] in
theorem Coloured.colour_lt (h : Coloured p D) {c : ColourRecord} (hc : c ∈ p.colours) :
    c.colour < p.colourCount := by
  have : c.colour ∈ p.colours.map (·.colour) := mem_map_of_mem hc
  rwa [h.numbered, mem_range] at this

omit [DecidableEq ν] in
omit [DecidableEq ν] in
theorem Coloured.addColour (h : Coloured p D) : Coloured (addColour p).1 D := by
  refine ⟨?_, fun c hc => ?_, fun c hc k => ?_, fun n hn hD => ?_, h.apart⟩
  · simp [Paint.addColour, h.numbered, range_succ]
  · rcases mem_append.1 hc with hc | hc
    · exact h.len c hc
    · cases mem_singleton.1 hc; simp [emptyTypemap, Paint.addColour]
  · rcases mem_append.1 hc with hc | hc
    · exact h.bits c hc k
    -- a new colour has an empty bitmap, and no name yet
    cases mem_singleton.1 hc
    simp only [emptyTypemap, Bitmap.mem_replicate, Bool.false_eq_true, false_iff]
    rintro ⟨n, hn, hD, e, -⟩
    exact absurd (h.lt n hn hD) (by simp [e])
  · exact Nat.lt_succ_of_lt (h.lt n hn hD)

/-- `assign_name_to_colour` leaves names and name bitmaps alone. -/
theorem Records.assignNameToColour (h : Records p f) (c : Nat) (x : NameRecord ν) :
    Records (assignNameToColour p c x) f := by
  have hname : ∀ n : NameRecord ν,
      (if n.name = x.name then { n with colour := c } else n).name = n.name := fun n => by
    split <;> rfl
  have hmap : ∀ n : NameRecord ν,
      (if n.name = x.name then { n with colour := c } else n).typeMap = n.typeMap := fun n => by
    split <;> rfl
  refine ⟨?_, fun n' hn' => ?_, fun n' hn' k => ?_, fun y hy => h.absent y fun n hn e => ?_⟩
  · simp only [Paint.assignNameToColour, map_map]
    convert h.nodup using 2
    exact funext hname
  · obtain ⟨n, hn, rfl⟩ := mem_map.1 hn'
    rw [hmap]; exact h.len n hn
  · obtain ⟨n, hn, rfl⟩ := mem_map.1 hn'
    rw [hmap, hname]; exact h.bits n hn k
  · exact hy _ (mem_map_of_mem hn) ((hname n).trans e)

/-- Giving a compatible colour to one more name keeps the colouring proper. -/
theorem Coloured.assignNameToColour (hR : Records p f) (h : Coloured p D) {c : ColourRecord}
    (hc : c ∈ p.colours) {x : NameRecord ν}
    (hx : ∃ n ∈ p.names, n.name = x.name ∧ n.typeMap = x.typeMap) (hD : ¬ D x.name)
    (hcompat : isNameCompatible c x = true) :
    Coloured (assignNameToColour p c.colour x) (fun y => D y ∨ y = x.name) := by
  obtain ⟨x₀, hx₀, hxn, hxm⟩ := hx
  have hdis : ∀ k, ¬ (Bitmap.mem c.typeMap k = true ∧ Bitmap.mem x.typeMap k = true) :=
    (Bitmap.disjoint_iff _ _).1 hcompat
  have hlen : ∀ r ∈ p.colours, r.typeMap.length = x.typeMap.length := fun r hr => by
    rw [h.len r hr, ← hxm, hR.len x₀ hx₀]
  -- the only record of `x`'s name is `x₀`
  have huniq : ∀ n ∈ p.names, n.name = x.name → n = x₀ := fun n hn e =>
    inj_on_of_nodup_map hR.nodup hn hx₀ (e.trans hxn.symm)
  refine ⟨?_, fun r' hr' => ?_, fun r' hr' k => ?_, fun n' hn' hD' => ?_,
    fun n' hn' m' hm' hDn hDm hne e k => ?_⟩
  · simp only [Paint.assignNameToColour, map_map]
    rw [← h.numbered]
    refine map_congr_left fun r _ => ?_
    simp only [Function.comp_apply]
    split <;> rfl
  · obtain ⟨r, hr, rfl⟩ := mem_map.1 hr'
    split
    · exact (Bitmap.length_union (hlen r hr)).trans (hlen r hr ▸ h.len r hr)
    · exact h.len r hr
  · obtain ⟨r, hr, rfl⟩ := mem_map.1 hr'
    -- the names of a colour are the old ones, and `x` for the colour it gets
    have key : (∃ n ∈ (Paint.assignNameToColour p c.colour x).names,
        (D n.name ∨ n.name = x.name) ∧ n.colour = r.colour ∧ Bitmap.mem n.typeMap k = true) ↔
        (∃ n ∈ p.names, D n.name ∧ n.colour = r.colour ∧ Bitmap.mem n.typeMap k = true) ∨
          (c.colour = r.colour ∧ Bitmap.mem x.typeMap k = true) := by
      constructor
      · rintro ⟨n', hn', hDn, hcol, hk⟩
        obtain ⟨n, hn, rfl⟩ := mem_map.1 hn'
        by_cases e : n.name = x.name
        · rw [if_pos e] at hcol hk
          exact .inr ⟨hcol, by rwa [← hxm, ← huniq n hn e]⟩
        · rw [if_neg e] at hDn hcol hk
          exact .inl ⟨n, hn, hDn.resolve_right e, hcol, hk⟩
      rintro (⟨n, hn, hDn, hcol, hk⟩ | ⟨hcol, hk⟩)
      · have e : n.name ≠ x.name := fun e => hD (e ▸ hDn)
        exact ⟨_, mem_map_of_mem hn, by rw [if_neg e]; exact ⟨.inl hDn, hcol, hk⟩⟩
      refine ⟨_, mem_map_of_mem hx₀, ?_⟩
      rw [if_pos hxn]
      exact ⟨.inr hxn, hcol, by rwa [hxm]⟩
    by_cases e : r.colour = c.colour
    · rw [if_pos e, Bitmap.mem_union (hlen r hr), h.bits r hr, key]
      simp [e]
    · rw [if_neg e, h.bits r hr, key]
      simp [Ne.symm e]
  · obtain ⟨n, hn, rfl⟩ := mem_map.1 hn'
    by_cases e : n.name = x.name
    · rw [if_pos e]; exact h.colour_lt hc
    · rw [if_neg e] at hD' ⊢
      exact h.lt n hn (hD'.resolve_right e)
  · obtain ⟨n, hn, rfl⟩ := mem_map.1 hn'
    obtain ⟨m, hm, rfl⟩ := mem_map.1 hm'
    -- a name of the colour `x` gets meets its bitmap, which `x` does not
    have old : ∀ y ∈ p.names, y.name ≠ x.name → (D y.name ∨ y.name = x.name) →
        y.colour = c.colour → Bitmap.mem y.typeMap k = true → ¬ Bitmap.mem x.typeMap k = true :=
      fun y hy hne' hDy hcol hk hk' =>
        hdis k ⟨(h.bits c hc k).2 ⟨y, hy, hDy.resolve_right hne', hcol, hk⟩, hk'⟩
    by_cases en : n.name = x.name
    · by_cases em : m.name = x.name
      · rw [if_pos en, if_pos em] at hne
        exact absurd (en.trans em.symm) hne
      rw [if_pos en, if_neg em] at *
      rintro ⟨hk, hk'⟩
      rw [huniq n hn en, hxm] at hk
      exact old m hm em hDm e.symm hk' hk
    by_cases em : m.name = x.name
    · rw [if_neg en, if_pos em] at *
      rintro ⟨hk, hk'⟩
      rw [huniq m hm em, hxm] at hk'
      exact old n hn en hDn e hk hk'
    · rw [if_neg en, if_neg em] at *
      exact h.apart n hn m hm (hDn.resolve_right en) (hDm.resolve_right em) hne e k

/-- The body of step 3's loop, whichever branch it takes. -/
theorem assignColour_step (hR : Records p f) (h : Coloured p D) {x : NameRecord ν}
    (hx : ∃ n ∈ p.names, n.name = x.name ∧ n.typeMap = x.typeMap) (hD : ¬ D x.name) :
    Records (assignColour p x) f ∧ Coloured (assignColour p x) (fun y => D y ∨ y = x.name) := by
  rw [assignColour]
  cases hfind : p.colours.find? (isNameCompatible · x) with
  | some c =>
    have hc := mem_of_find?_eq_some hfind
    have hcompat := find?_some hfind
    exact ⟨hR.assignNameToColour _ x, h.assignNameToColour hR hc hx hD hcompat⟩
  | none =>
    have hR' : Records (addColour p).1 f := ⟨hR.nodup, hR.len, hR.bits, hR.absent⟩
    have hc : (addColour p).2 ∈ (addColour p).1.colours :=
      mem_append_right _ (mem_singleton_self _)
    have hcompat : isNameCompatible (addColour p).2 x = true := by
      rw [isNameCompatible, Bitmap.disjoint_iff]
      rintro k ⟨hk, -⟩
      simp [addColour, emptyTypemap] at hk
    exact ⟨hR'.assignNameToColour _ x, h.addColour.assignNameToColour hR' hc hx hD hcompat⟩

/-- The loop of step 3 never changes a record's name or bitmap. -/
theorem assignColour_names {x : NameRecord ν} {a : ν} {w : Bitmap.Words}
    (h : ∃ n ∈ p.names, n.name = a ∧ n.typeMap = w) :
    ∃ n ∈ (assignColour p x).names, n.name = a ∧ n.typeMap = w := by
  obtain ⟨n, hn, hna, hnw⟩ := h
  have key : ∀ (q : Painter ν) (c : Nat), n ∈ q.names →
      ∃ n' ∈ (assignNameToColour q c x).names, n'.name = a ∧ n'.typeMap = w := fun q c hq => by
    refine ⟨_, mem_map_of_mem hq, ?_⟩
    split
    · exact ⟨hna, hnw⟩
    · exact ⟨hna, hnw⟩
  rw [assignColour]
  split
  · exact key _ _ hn
  · exact key _ _ hn

/-- **Step 3**, over the records that remain. -/
theorem foldl_assignColour (xs : List (NameRecord ν)) :
    ∀ {p : Painter ν} {D : ν → Prop}, Records p f → Coloured p D →
      (∀ x ∈ xs, ∃ n ∈ p.names, n.name = x.name ∧ n.typeMap = x.typeMap) →
      (xs.map (·.name)).Nodup → (∀ x ∈ xs, ¬ D x.name) →
      Records (xs.foldl assignColour p) f ∧
        Coloured (xs.foldl assignColour p) (fun y => D y ∨ ∃ x ∈ xs, y = x.name) := by
  induction xs with
  | nil => intro p D hR h _ _ _; exact ⟨hR, by simpa using h⟩
  | cons x xs ih =>
    intro p D hR h hx hnd hD
    rw [map_cons, nodup_cons] at hnd
    obtain ⟨hR', h'⟩ := assignColour_step hR h (hx x (.head _))
      (hD x (.head _))
    have hx' : ∀ y ∈ xs, ∃ n ∈ (assignColour p x).names,
        n.name = y.name ∧ n.typeMap = y.typeMap := fun y hy =>
      assignColour_names (hx y (.tail _ hy))
    have hD' : ∀ y ∈ xs, ¬ (D y.name ∨ y.name = x.name) := fun y hy h => by
      rcases h with h | h
      · exact hD y (.tail _ hy) h
      · exact hnd.1 (h ▸ mem_map_of_mem hy)
    have e : (fun y => D y ∨ ∃ z ∈ x :: xs, y = z.name) =
        fun y => (D y ∨ y = x.name) ∨ ∃ z ∈ xs, y = z.name := by
      funext y
      simp only [mem_cons, exists_eq_or_imp, or_assoc]
    rw [foldl_cons, e]
    exact ih hR' h' hx' hnd.2 hD'

/-- **Step 3.**  Whatever order the hash map yields its records in, every name with a record
gets a colour and the colouring is proper. -/
theorem assignColoursToNames_spec (order : IterOrder (NameRecord ν)) (hR : Records p f)
    (hc : p.colours = []) (hn : p.colourCount = 0) : Records (assignColoursToNames order p) f ∧
      Coloured (assignColoursToNames order p) (fun y => ∃ k, f y k) := by
  have hperm := order.perm p.names
  have h₀ : Coloured p (fun _ => False) :=
    ⟨by simp [hc, hn], by simp [hc], by simp [hc], fun _ _ h => h.elim, fun _ _ _ _ h => h.elim⟩
  obtain ⟨hR', h'⟩ := foldl_assignColour (order.apply p.names) hR h₀
    (fun x hx => ⟨x, hperm.mem_iff.1 hx, rfl, rfl⟩)
    ((hperm.map (·.name)).nodup_iff.2 hR.nodup) (fun _ _ => id)
  refine ⟨hR', ?_⟩
  -- a name some type uses has a record, so that the loop meets it
  have hsub : ∀ y, (∃ k, f y k) → False ∨ ∃ x ∈ order.apply p.names, y = x.name := by
    rintro y ⟨k, hk⟩
    by_contra hno
    refine hR.absent y (fun n hn e => hno (.inr ⟨n, hperm.mem_iff.2 hn, e.symm⟩)) k hk
  refine ⟨h'.numbered, h'.len, fun c hcm k => (h'.bits c hcm k).trans ?_,
    fun n hn hD => h'.lt n hn (hsub _ hD),
    fun n hn n' hn' hD hD' => h'.apart n hn n' hn' (hsub _ hD) (hsub _ hD')⟩
  constructor
  · rintro ⟨n, hn, -, e, hk⟩
    exact ⟨n, hn, ⟨k, (hR'.bits n hn k).1 hk⟩, e, hk⟩
  · rintro ⟨n, hn, hD, e, hk⟩
    exact ⟨n, hn, hsub _ hD, e, hk⟩

/-! ### Distribution -/

/-- The methods of a type. -/
def ReachType.allMethods (t : ReachType ν) : List (ReachMethod ν) := t.methods.flatMap (·.rMangled)

/-- `paint` writes nothing of a type but its indices and its table size, and of a bare type
nothing. -/
def SameButIndices (t t' : ReachType ν) : Prop :=
  t'.bare = t.bare ∧ t'.names = t.names ∧ (t.bare = true → t' = t)

omit [DecidableEq ν] in
theorem le_foldl_max (ms : List (ReachMethod ν)) :
    ∀ a : Nat, a ≤ ms.foldl (fun mx m => if m.vtableIndex > mx then m.vtableIndex else mx) a ∧
      ∀ m ∈ ms, m.vtableIndex ≤
        ms.foldl (fun mx m => if m.vtableIndex > mx then m.vtableIndex else mx) a := by
  induction ms with
  | nil => intro a; simp
  | cons m ms ih =>
    intro a
    obtain ⟨h₁, h₂⟩ := ih (if m.vtableIndex > a then m.vtableIndex else a)
    have ha : a ≤ (if m.vtableIndex > a then m.vtableIndex else a) := by split <;> omega
    have hm : m.vtableIndex ≤ (if m.vtableIndex > a then m.vtableIndex else a) := by split <;> omega
    rw [foldl_cons]
    refine ⟨ha.trans h₁, fun m' hm' => ?_⟩
    rcases mem_cons.1 hm' with rfl | hm'
    · exact hm.trans h₁
    · exact h₂ m' hm'

omit [DecidableEq ν] in
theorem vtableIndex_le_maxColour {ns : List (ReachMethodName ν)} (hm : m ∈ ns.flatMap (·.rMangled))
    : m.vtableIndex ≤ maxColour ns :=
  (le_foldl_max _ 0).2 m hm

/-- The method `m` with the colour of its name's record. -/
def Stored (p : Painter ν) (m m' : ReachMethod ν) : Prop :=
  m'.mangledName = m.mangledName ∧
    ∃ n ∈ p.names, n.name = m.mangledName ∧ m'.vtableIndex = n.colour

theorem distributeMethod_stored (h : ∃ n ∈ p.names, n.name = m.mangledName) :
    ∃ m', distributeMethod p m = some m' ∧ Stored p m m' := by
  cases hf : findName p m.mangledName with
  | none =>
    obtain ⟨n, hn, e⟩ := h
    exact absurd e (findName_isNone.1 (by rw [hf]; rfl) n hn)
  | some n =>
    refine ⟨{ m with vtableIndex := n.colour }, by rw [distributeMethod, hf]; rfl, rfl, n,
      mem_of_find?_eq_some hf, ?_, rfl⟩
    simpa using find?_some hf

omit [DecidableEq ν] in
theorem Stored.map_name {l l' : List (ReachMethod ν)} (h : List.Forall₂ (Stored p) l l') :
    l'.map (·.mangledName) = l.map (·.mangledName) := by
  induction h with
  | nil => rfl
  | cons h _ ih => rw [map_cons, map_cons, h.1, ih]

omit [DecidableEq ν] in
theorem Stored.map_names {l l' : List (ReachMethodName ν)}
    (h : List.Forall₂ (fun n n' => List.Forall₂ (Stored p) n.rMangled n'.rMangled) l l') :
    l'.flatMap (fun n => n.rMangled.map (·.mangledName)) =
      l.flatMap fun n => n.rMangled.map (·.mangledName) := by
  induction h with
  | nil => rfl
  | cons h _ ih => rw [flatMap_cons, flatMap_cons, ih, Stored.map_name h]

theorem distributeName_stored {n : ReachMethodName ν}
    (h : ∀ m ∈ n.rMangled, ∃ r ∈ p.names, r.name = m.mangledName) :
    ∃ n', distributeName p n = some n' ∧ List.Forall₂ (Stored p) n.rMangled n'.rMangled := by
  obtain ⟨l', hl', hR⟩ := Lists.mapM_forall₂ n.rMangled fun m hm => distributeMethod_stored (h m hm)
  exact ⟨⟨l'⟩, by rw [distributeName, hl']; rfl, hR⟩

/-- **Step 5** on one type: every method gets its record's colour, and the table has room for
it. -/
theorem distributeType_stored (h : t.bare = false → ∀ x ∈ t.names, ∃ r ∈ p.names, r.name = x) :
    ∃ t', distributeType p t = some t' ∧ SameButIndices t t' ∧
      (t.bare = false → ∀ m ∈ t'.allMethods, m.vtableIndex < t'.vtableSize ∧
        ∃ n ∈ p.names, n.name = m.mangledName ∧ m.vtableIndex = n.colour) := by
  by_cases hb : t.methods.length = 0 ∨ t.bare = true
  · refine ⟨t, by rw [distributeType, if_pos hb], ⟨rfl, rfl, fun _ => rfl⟩, fun hb' m hm => ?_⟩
    have hnil : t.methods = [] :=
      eq_nil_of_length_eq_zero (hb.resolve_right (by simp [hb']))
    simp [ReachType.allMethods, hnil] at hm
  have hbare : t.bare = false := by simpa using (not_or.1 hb).2
  have hrec : ∀ n ∈ t.methods, ∀ m ∈ n.rMangled, ∃ r ∈ p.names, r.name = m.mangledName :=
    fun n hn m hm => h hbare _ (mem_flatMap.2 ⟨n, hn, mem_map_of_mem hm⟩)
  obtain ⟨ns, hns, hR⟩ := Lists.mapM_forall₂ t.methods fun n hn => distributeName_stored (hrec n hn)
  refine ⟨{ t with methods := ns, vtableSize := maxColour ns + 1 }, ?_, ⟨rfl, ?_, ?_⟩, ?_⟩
  · rw [distributeType, if_neg hb, hns]; rfl
  · exact Stored.map_names hR
  · simp [hbare]
  intro _ m hm
  refine ⟨Nat.lt_succ_of_le (vtableIndex_le_maxColour hm), ?_⟩
  obtain ⟨n', hn', hm'⟩ := mem_flatMap.1 hm
  obtain ⟨n, -, hnn'⟩ := Lists.exists_of_forall₂_right hR hn'
  obtain ⟨m₀, -, hst⟩ := Lists.exists_of_forall₂_right hnn' hm'
  rw [hst.1]
  exact hst.2

/-! ### The painting -/

omit [DecidableEq ν] in
theorem usedBy_of_mem {types : List (ReachType ν)} (ht : t ∈ types) (hb : t.bare = false) :
    ∃ k, ∀ x, x ∈ t.names → UsedBy types x k := by
  have : t ∈ nonBare types := mem_filter.2 ⟨ht, by simp [hb]⟩
  obtain ⟨k, hk⟩ := getElem?_of_mem this
  exact ⟨k, fun x hx => ⟨t, hk, hx⟩⟩

omit [DecidableEq ν] in
theorem mangledName_mem_names (hm : m ∈ t.allMethods) : m.mangledName ∈ t.names := by
  obtain ⟨n, hn, hm⟩ := mem_flatMap.1 hm
  exact mem_flatMap.2 ⟨n, hn, mem_map_of_mem hm⟩

/-- **Painting is a proper colouring.**  For every list of reachable types and every iteration
order, no assertion of the painter fails, only indices and table sizes are written, and in the
painted types that are not bare: two methods of one type with different names have different
indices; methods with the same name have the same index, whatever their types; every index is
below its type's table size; and every index is below the number of colours created. -/
theorem paint_proper_colouring (order : IterOrder (NameRecord ν)) (types : List (ReachType ν)) :
    ∃ p ts, paint order types = some (p, ts) ∧ List.Forall₂ SameButIndices types ts ∧
      (∀ t ∈ ts, t.bare = false → ∀ m ∈ t.allMethods, ∀ m' ∈ t.allMethods,
        m.mangledName ≠ m'.mangledName → m.vtableIndex ≠ m'.vtableIndex) ∧
      (∀ t ∈ ts, t.bare = false → ∀ t' ∈ ts, t'.bare = false →
        ∀ m ∈ t.allMethods, ∀ m' ∈ t'.allMethods,
          m.mangledName = m'.mangledName → m.vtableIndex = m'.vtableIndex) ∧
      (∀ t ∈ ts, t.bare = false → ∀ m ∈ t.allMethods, m.vtableIndex < t.vtableSize) ∧
      (∀ t ∈ ts, t.bare = false → ∀ m ∈ t.allMethods, m.vtableIndex < p.colours.length) := by
  by_cases h0 : types.length = 0
  · obtain rfl := eq_nil_of_length_eq_zero h0
    exact ⟨_, _, by rw [paint, if_pos h0], .nil, by simp, by simp, by simp, by simp⟩
  -- step 1: the records
  have hempty : Records (⟨[], [], (types.length - 1) / 64 + 1, 0⟩ : Painter ν) (UsedBy []) :=
    ⟨nodup_nil, by simp, by simp, fun x _ k ⟨t, ht, _⟩ => by simp [nonBare] at ht⟩
  obtain ⟨p, c, hp, hR, hsz, hc, hn⟩ := foldlM_useType types [] _ hempty
    (by simp only [nil_append]; omega)
  have hstep1 : findNamesTypesUse ⟨[], [], (types.length - 1) / 64 + 1, 0⟩ types = some p := by
    rw [findNamesTypesUse]
    have : (⟨0, 1#64⟩ : Cursor) = cursorAt (nonBare ([] : List (ReachType ν))).length := by
      simp [cursorAt, nonBare, Bitmap.mask]
    rw [this, hp]
    rfl
  -- step 3: the colours
  obtain ⟨hR', hcol⟩ := assignColoursToNames_spec order hR hc hn
  rw [nil_append] at hR' hcol
  have hcount : (assignColoursToNames order p).colours.length =
      (assignColoursToNames order p).colourCount := by
    simpa using congrArg length hcol.numbered
  -- step 5: every name of a type that is not bare has its record
  have hrec : ∀ t ∈ types, t.bare = false → ∀ x ∈ t.names,
      ∃ r ∈ (assignColoursToNames order p).names, r.name = x := fun t ht hb x hx => by
    obtain ⟨k, hk⟩ := usedBy_of_mem ht hb
    by_contra hno
    exact hR'.absent x (fun n hn e => hno ⟨n, hn, e⟩) k (hk x hx)
  obtain ⟨ts, hts, hall⟩ := Lists.mapM_forall₂ types fun t ht => distributeType_stored (hrec t ht)
  refine ⟨assignColoursToNames order p, ts, ?_, hall.imp fun _ _ h => h.1, ?_⟩
  · rw [paint, if_neg h0, hstep1]
    simp only [Option.bind_eq_bind, Option.bind_some, distributeInfo, hts]
    rfl
  have hmeth : ∀ t ∈ ts, t.bare = false → ∃ k, ∀ m ∈ t.allMethods, m.vtableIndex < t.vtableSize ∧
      ∃ n ∈ (assignColoursToNames order p).names, n.name = m.mangledName ∧
        m.vtableIndex = n.colour ∧ UsedBy types n.name k := fun t ht hb => by
    obtain ⟨t₀, ht₀, hsame, hst⟩ := Lists.exists_of_forall₂_right hall ht
    have hb₀ : t₀.bare = false := hsame.1 ▸ hb
    obtain ⟨k, hk⟩ := usedBy_of_mem ht₀ hb₀
    refine ⟨k, fun m hm => ?_⟩
    obtain ⟨hlt, n, hn, hname, hidx⟩ := hst hb₀ m hm
    refine ⟨hlt, n, hn, hname, hidx, hk _ ?_⟩
    rw [hname, ← hsame.2.1]
    exact mangledName_mem_names hm
  refine ⟨fun t ht hb m hm m' hm' hne e => ?_, fun t ht hb t' ht' hb' m hm m' hm' e => ?_,
    fun t ht hb m hm => ?_, fun t ht hb m hm => ?_⟩
  · -- one type uses both names, so that their colours differ
    obtain ⟨k, hk⟩ := hmeth t ht hb
    obtain ⟨-, n, hn, hname, hidx, hu⟩ := hk m hm
    obtain ⟨-, n', hn', hname', hidx', hu'⟩ := hk m' hm'
    exact hcol.apart n hn n' hn' ⟨k, hu⟩ ⟨k, hu'⟩ (by rwa [hname, hname'])
      (by rw [← hidx, ← hidx', e]) k ⟨(hR'.bits n hn k).2 hu, (hR'.bits n' hn' k).2 hu'⟩
  · -- equal names have one record
    obtain ⟨k, hk⟩ := hmeth t ht hb
    obtain ⟨k', hk'⟩ := hmeth t' ht' hb'
    obtain ⟨-, n, hn, hname, hidx, -⟩ := hk m hm
    obtain ⟨-, n', hn', hname', hidx', -⟩ := hk' m' hm'
    have : n = n' := inj_on_of_nodup_map hR'.nodup hn hn' (by rw [hname, hname', e])
    rw [hidx, hidx', this]
  · obtain ⟨k, hk⟩ := hmeth t ht hb
    exact (hk m hm).1
  · obtain ⟨k, hk⟩ := hmeth t ht hb
    obtain ⟨-, n, hn, -, hidx, hu⟩ := hk m hm
    rw [hidx, hcount]
    exact hcol.lt n hn ⟨k, hu⟩

end SpacePony.Paint
