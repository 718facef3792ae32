import Mathlib.Tactic

/-!
# Packages — json — values, tokens and the tree builder

`json.pony`, `json_token.pony` and `_tree_builder.pony`: a JSON value, the tokens of a document, and
the consumer of tokens that assembles a value.  Of the tokens of a tree the builder makes the value
of the tree, and ignores none (`TreeBuilder.foldl_tokens`).
-/

namespace SpacePony.Json

open List
open Prod (fst)

/-- A string: its bytes. -/
abbrev Bytes := List UInt8

/-! ### Values -/

/-- `type JsonValue`. -/
inductive JsonValue
  | object (data : List (Bytes × JsonValue))
  | array (data : List JsonValue)
  | string (s : Bytes)
  | i64 (n : Int64)
  | f64 (x : Float)
  | bool (b : Bool)
  | null

/-- `Map.update`, on the pairs of a map. -/
def update {V : Type} (data : List (Bytes × V)) (key : Bytes) (value : V) : List (Bytes × V) :=
  if key ∈ data.map fst then
    data.map fun e => if e.1 = key then (key, value) else e
  else data ++ [(key, value)]

/-- The type of `last_number`. -/
inductive JsonNumber
  | i64 (n : Int64)
  | f64 (x : Float)

/-- A number as a value. -/
def JsonNumber.value : JsonNumber → JsonValue
  | .i64 n => .i64 n
  | .f64 x => .f64 x

/-! ### Tokens -/

/-- `type JsonToken`. -/
inductive JsonToken
  | null
  | true
  | false
  | number
  | string
  | key
  | objectStart
  | objectEnd
  | arrayStart
  | arrayEnd

/-- A token, with the `last_number` or the `last_string` that goes with it. -/
inductive Event
  | null
  | true
  | false
  | number (n : JsonNumber)
  | string (s : Bytes)
  | key (s : Bytes)
  | objectStart
  | objectEnd
  | arrayStart
  | arrayEnd

/-! ### The tree builder -/

/-- `_ObjectInProgress` and `_ArrayInProgress`. -/
inductive InProgress
  | object (map : List (Bytes × JsonValue)) (pendingKey : Option Bytes)
  | array (vec : List JsonValue)

/-- `class _TreeBuilder`.  The top of the stack is its head. -/
structure TreeBuilder where
  stack : List InProgress := []
  result : Option JsonValue := none

namespace TreeBuilder

/-- `_add_value`. -/
def addValue (b : TreeBuilder) (value : JsonValue) : TreeBuilder :=
  match b.stack with
  | [] => { b with result := some value }
  | .object map (some key) :: stack =>
    { b with stack := .object (update map key value) none :: stack }
  | .object _ none :: _ => b
  | .array vec :: stack => { b with stack := .array (vec ++ [value]) :: stack }

/-- `apply`. -/
def apply (b : TreeBuilder) : Event → TreeBuilder
  | .objectStart => { b with stack := .object [] none :: b.stack }
  | .arrayStart => { b with stack := .array [] :: b.stack }
  | .key s =>
    match b.stack with
    | .object map _ :: stack => { b with stack := .object map (some s) :: stack }
    | _ => b
  | .string s => b.addValue (.string s)
  | .number n => b.addValue n.value
  | .true => b.addValue (.bool true)
  | .false => b.addValue (.bool false)
  | .null => b.addValue .null
  | .objectEnd =>
    match b.stack with
    | .object map _ :: stack => addValue { b with stack } (.object map)
    | _ :: stack => { b with stack }
    | [] => b
  | .arrayEnd =>
    match b.stack with
    | .array vec :: stack => addValue { b with stack } (.array vec)
    | _ :: stack => { b with stack }
    | [] => b

/-- Whether a value that is added now has a place. -/
def hasPlace (b : TreeBuilder) : Bool :=
  match b.stack with
  | [] => b.result.isNone
  | .object _ pendingKey :: _ => pendingKey.isSome
  | .array _ :: _ => true

/-- Whether the token is swallowed, in whole or in part: it finds the wrong thing on the stack, or
it overwrites what an earlier one has set. -/
def ignores (b : TreeBuilder) : Event → Bool
  | .objectStart => !b.hasPlace
  | .arrayStart => !b.hasPlace
  | .key _ =>
    match b.stack with
    | .object _ none :: _ => false
    | _ => true
  | .objectEnd =>
    match b.stack with
    | .object _ none :: stack => !hasPlace { b with stack }
    | _ => true
  | .arrayEnd =>
    match b.stack with
    | .array _ :: stack => !hasPlace { b with stack }
    | _ => true
  | _ => !b.hasPlace

/-- The builder ignores none of the tokens. -/
def Takes : TreeBuilder → List Event → Prop
  | _, [] => True
  | b, e :: es => b.ignores e = false ∧ Takes (b.apply e) es

section
variable {b : TreeBuilder} {es es' : List Event}

theorem takes_append : b.Takes (es ++ es') ↔ b.Takes es ∧ (es.foldl apply b).Takes es' := by
  induction es generalizing b with
  | nil => simp [Takes]
  | cons e es ih => simp [Takes, ih, and_assoc]

theorem Takes.of_start (h : b.Takes es') (hp : es <+: es') : b.Takes es := by
  obtain ⟨r, rfl⟩ := hp
  exact (takes_append.1 h).1

end

end TreeBuilder

/-! ### Trees -/

/-- A document as it is nested. -/
inductive Tree
  | object (members : List (Bytes × Tree))
  | array (elements : List Tree)
  | string (s : Bytes)
  | number (n : JsonNumber)
  | bool (b : Bool)
  | null

mutual

/-- The tokens of a document. -/
def Tree.tokens : Tree → List Event
  | .object members => .objectStart :: (memberTokens members ++ [.objectEnd])
  | .array elements => .arrayStart :: (elementTokens elements ++ [.arrayEnd])
  | .string s => [.string s]
  | .number n => [.number n]
  | .bool b => [if b then .true else .false]
  | .null => [.null]

/-- The tokens of the members of an object. -/
def memberTokens : List (Bytes × Tree) → List Event
  | [] => []
  | (k, t) :: members => .key k :: (t.tokens ++ memberTokens members)

/-- The tokens of the elements of an array. -/
def elementTokens : List Tree → List Event
  | [] => []
  | t :: elements => t.tokens ++ elementTokens elements

end

mutual

/-- The value that a document denotes.  Of the members with one key the last one counts. -/
def Tree.value : Tree → JsonValue
  | .object members => .object ((memberValues members).foldl (fun d e => update d e.1 e.2) [])
  | .array elements => .array (elementValues elements)
  | .string s => .string s
  | .number n => n.value
  | .bool b => .bool b
  | .null => .null

/-- The values of the members of an object. -/
def memberValues : List (Bytes × Tree) → List (Bytes × JsonValue)
  | [] => []
  | (k, t) :: members => (k, t.value) :: memberValues members

/-- The values of the elements of an array. -/
def elementValues : List Tree → List JsonValue
  | [] => []
  | t :: elements => t.value :: elementValues elements

end

/-! ### The last of the members with one key -/

section
variable {V : Type} {data : List (Bytes × V)} {k k' : Bytes} {v : V}

theorem lookup_append (l l' : List (Bytes × V)) (k : Bytes) :
    (l ++ l').lookup k = (l.lookup k).or (l'.lookup k) := by
  induction l with
  | nil => rfl
  | cons e l ih =>
    rw [cons_append, lookup_cons, lookup_cons, ih]
    cases k == e.1 <;> rfl

theorem lookup_eq_none (h : k ∉ data.map fst) : data.lookup k = none := by
  induction data with
  | nil => rfl
  | cons e data ih =>
    rw [map_cons, mem_cons, not_or] at h
    rw [lookup_cons, beq_eq_false_iff_ne.2 h.1]
    exact ih h.2

/-- Replacing the value at a key changes no other lookup. -/
theorem lookup_replace (data : List (Bytes × V)) (k : Bytes) (v : V) (k' : Bytes) :
    (data.map fun e => if e.1 = k then (k, v) else e).lookup k' =
      if k' = k then (data.lookup k').map fun _ => v else data.lookup k' := by
  induction data with
  | nil => simp
  | cons e data ih =>
    rw [map_cons, lookup_cons, lookup_cons, ih]
    by_cases he : e.1 = k
    · rw [if_pos he, he]
      by_cases hk : k' = k
      · simp [hk]
      · simp [hk, beq_eq_false_iff_ne.2 hk]
    rw [if_neg he]
    by_cases hk : k' = e.1
    · simp [hk, he]
    · simp only [beq_eq_false_iff_ne.2 hk]

theorem map_fst_replace (data : List (Bytes × V)) (k : Bytes) (v : V) :
    (data.map fun e => if e.1 = k then (k, v) else e).map fst = data.map fst := by
  rw [map_map]
  refine map_congr_left fun e _ => ?_
  rw [Function.comp_apply]
  split
  · next he => exact he.symm
  · rfl

/-- An update sets the key, and no other. -/
theorem lookup_update (data : List (Bytes × V)) (k : Bytes) (v : V) (k' : Bytes) :
    (update data k v).lookup k' = if k' = k then some v else data.lookup k' := by
  unfold update
  split
  · next hk =>
      rw [lookup_replace]
      by_cases hk' : k' = k
      · obtain ⟨v', hv'⟩ : ∃ v', data.lookup k = some v' :=
          Option.isSome_iff_exists.1 (lookup_isSome_iff.2 (by simpa using hk))
        rw [if_pos hk', if_pos hk', hk', hv']
        rfl
      · rw [if_neg hk', if_neg hk']
  next hk =>
    rw [lookup_append, lookup_cons]
    by_cases hk' : k' = k
    · rw [if_pos hk', hk', lookup_eq_none hk]
      simp
    · rw [if_neg hk', beq_eq_false_iff_ne.2 hk']
      simp

theorem nodup_update (h : (data.map fst).Nodup) (k : Bytes) (v : V) :
    ((update data k v).map fst).Nodup := by
  unfold update
  split
  · rw [map_fst_replace]
    exact h
  next hk =>
    rw [map_append]
    exact nodup_append.2 ⟨h, nodup_singleton _, fun a ha b hb hab => by
      rw [map_cons, map_nil, mem_singleton] at hb
      subst hab hb
      exact hk ha⟩

/-- Of the pairs with one key the last one counts. -/
theorem lookup_foldl_update (l data : List (Bytes × V)) (k : Bytes) :
    (l.foldl (fun d e => update d e.1 e.2) data).lookup k =
      (l.reverse.lookup k).or (data.lookup k) := by
  induction l generalizing data with
  | nil => rfl
  | cons e l ih =>
    rw [foldl_cons, ih, reverse_cons, lookup_append, lookup_update, Option.or_assoc]
    congr 1
    rw [lookup_cons]
    by_cases hk : k = e.1
    · simp [hk]
    · simp [hk, beq_eq_false_iff_ne.2 hk]

theorem nodup_foldl_update (l : List (Bytes × V)) (h : (data.map fst).Nodup) :
    ((l.foldl (fun d e => update d e.1 e.2) data).map fst).Nodup := by
  induction l generalizing data with
  | nil => exact h
  | cons e l ih => exact ih (nodup_update h e.1 e.2)

/-- Pairs with different keys are added one after the other. -/
theorem foldl_update_nodup {l : List (Bytes × V)} (h : ((data ++ l).map fst).Nodup) :
    l.foldl (fun d e => update d e.1 e.2) data = data ++ l := by
  induction l generalizing data with
  | nil => rw [foldl_nil, append_nil]
  | cons e l ih =>
    have hnot : e.1 ∉ data.map fst := by
      rw [map_append, map_cons, nodup_append] at h
      exact fun hin => h.2.2 e.1 hin e.1 (.head _) rfl
    have happ : data ++ e :: l = (data ++ [e]) ++ l := by simp
    rw [foldl_cons, update, if_neg hnot, happ]
    rw [happ] at h
    exact ih h

end

/-! ### What the builder makes of a tree -/

namespace TreeBuilder

/-- A token that is a value. -/
theorem foldl_apply_single {b : TreeBuilder} (h : b.hasPlace = true) {e : Event} {v : JsonValue}
    (hi : b.ignores e = !b.hasPlace) (ha : b.apply e = b.addValue v) :
    b.Takes [e] ∧ [e].foldl apply b = b.addValue v :=
  ⟨⟨by rw [hi, h]; rfl, trivial⟩, ha⟩

mutual

/-- **The tokens of a tree** are taken, all of them, and the value of the tree is added. -/
theorem foldl_tokens (t : Tree) {b : TreeBuilder} (h : b.hasPlace = true) :
    b.Takes t.tokens ∧ t.tokens.foldl apply b = b.addValue t.value := by
  cases t with
  | object members =>
    obtain ⟨ht, hf⟩ := foldl_memberTokens members [] b
    have hstart : b.apply .objectStart = { b with stack := .object [] none :: b.stack } := rfl
    rw [← hstart] at ht hf
    rw [Tree.tokens, Tree.value]
    refine ⟨⟨by rw [ignores, h]; rfl, takes_append.2 ⟨ht, ?_, trivial⟩⟩, ?_⟩
    · rw [hf, ignores]
      simpa using h
    · rw [foldl_cons, foldl_append, hf]
      rfl
  | array elements =>
    obtain ⟨ht, hf⟩ := foldl_elementTokens elements [] b
    have hstart : b.apply .arrayStart = { b with stack := .array [] :: b.stack } := rfl
    rw [← hstart] at ht hf
    rw [Tree.tokens, Tree.value]
    refine ⟨⟨by rw [ignores, h]; rfl, takes_append.2 ⟨ht, ?_, trivial⟩⟩, ?_⟩
    · rw [hf, ignores]
      simpa using h
    · rw [foldl_cons, foldl_append, hf]
      rfl
  | string s | number n =>
    rw [Tree.tokens, Tree.value]
    exact foldl_apply_single h rfl rfl
  | bool v =>
    rw [Tree.tokens, Tree.value]
    cases v
    · exact foldl_apply_single h rfl rfl
    · exact foldl_apply_single h rfl rfl
  | null =>
    rw [Tree.tokens, Tree.value]
    exact foldl_apply_single h rfl rfl

/-- The tokens of members set the keys of the object on the stack. -/
theorem foldl_memberTokens (members : List (Bytes × Tree)) (map : List (Bytes × JsonValue))
    (b : TreeBuilder) :
    Takes { b with stack := .object map none :: b.stack } (memberTokens members) ∧
      (memberTokens members).foldl apply { b with stack := .object map none :: b.stack } =
        { b with stack := .object ((memberValues members).foldl (fun d e => update d e.1 e.2) map)
                   none :: b.stack } := by
  match members with
  | [] => exact ⟨trivial, rfl⟩
  | (k, t) :: members =>
    obtain ⟨ht, hf⟩ :=
      foldl_tokens t (b := { b with stack := .object map (some k) :: b.stack }) rfl
    obtain ⟨ht', hf'⟩ := foldl_memberTokens members (update map k t.value) b
    rw [memberTokens, memberValues]
    refine ⟨⟨rfl, takes_append.2 ⟨ht, ?_⟩⟩, ?_⟩
    · show Takes (t.tokens.foldl apply { b with stack := .object map (some k) :: b.stack }) _
      rw [hf]
      exact ht'
    rw [foldl_cons, foldl_append]
    show (memberTokens members).foldl apply
      (t.tokens.foldl apply { b with stack := .object map (some k) :: b.stack }) = _
    rw [hf]
    exact hf'

/-- The tokens of elements are added to the array on the stack. -/
theorem foldl_elementTokens (elements : List Tree) (vec : List JsonValue) (b : TreeBuilder) :
    Takes { b with stack := .array vec :: b.stack } (elementTokens elements) ∧
      (elementTokens elements).foldl apply { b with stack := .array vec :: b.stack } =
        { b with stack := .array (vec ++ elementValues elements) :: b.stack } := by
  match elements with
  | [] => exact ⟨trivial, by rw [elementTokens, elementValues, append_nil]; rfl⟩
  | t :: elements =>
    obtain ⟨ht, hf⟩ := foldl_tokens t (b := { b with stack := .array vec :: b.stack }) rfl
    obtain ⟨ht', hf'⟩ := foldl_elementTokens elements (vec ++ [t.value]) b
    rw [elementTokens, elementValues]
    refine ⟨takes_append.2 ⟨ht, ?_⟩, ?_⟩
    · rw [hf]
      exact ht'
    rw [foldl_append, hf]
    refine hf'.trans ?_
    rw [append_assoc]
    rfl

end

end TreeBuilder

end SpacePony.Json
