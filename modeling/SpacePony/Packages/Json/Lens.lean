import SpacePony.Packages.Json.RoundTrip
import SpacePony.Support.PartialLens

/-!
# Packages — json — lenses

`_traversal.pony` and `json_lens.pony`.  The traversal of a recipe is a lens that obeys the laws
(`Traversal.lens`, `lawful`); `lens_laws` has these, what a lens leaves unchanged, and when it does
not find its path.
-/

namespace SpacePony.Json

open List

/-! ### Traversals -/

/-- `(JsonValue | _Delete)`.  `sub` is what `Map.sub` leaves of the pairs of an object: for a key that is
not there, this depends on where its hash leads in the map. -/
inductive Change
  | value (j : JsonValue)
  | delete (sub : List (Bytes × JsonValue) → Bytes → List (Bytes × JsonValue))

/-- The classes of `trait val _JsonTraversal`. -/
inductive Traversal
  | noTraversal
  | objKey (key : Bytes)
  | arrayIndex (idx : ℕ)
  | compose (a b : Traversal)
  | choice (a b : Traversal)

namespace Traversal

/-- `apply`. -/
def apply : Traversal → JsonValue → Option JsonValue
  | noTraversal, v => some v
  | objKey key, v =>
    match v with
    | .object data => data.lookup key
    | _ => none
  | arrayIndex idx, v =>
    match v with
    | .array data => data[idx]?
    | _ => none
  | compose a b, v =>
    match a.apply v with
    | some j => b.apply j
    | none => none
  | choice a b, v =>
    match a.apply v with
    | some j => some j
    | none => b.apply v

/-- `update`. -/
def update : Traversal → JsonValue → Change → Option JsonValue
  | noTraversal, _, value =>
    match value with
    | .value j => some j
    | .delete _ => none
  | objKey key, input, value =>
    match input with
    | .object data =>
      match value with
      | .value j => some (.object (Json.update data key j))
      | .delete sub => some (.object (sub data key))
    | _ => none
  | arrayIndex idx, input, value =>
    match input with
    | .array data =>
      match value with
      | .value j => if idx < data.length then some (.array (data.set idx j)) else none
      | .delete _ => none
    | _ => none
  | compose a b, input, value => do
      let intermediate ← a.apply input
      let innerResult ← b.update intermediate value
      a.update input (.value innerResult)
  | choice a b, input, value =>
    match a.apply input with
    | some _ => a.update input value
    | none => b.update input value

end Traversal

/-- `(String | USize)`. -/
inductive Step
  | key (k : Bytes)
  | index (i : ℕ)
deriving DecidableEq

/-- `class val JsonLens`. -/
structure JsonLens where
  traversal : Traversal

namespace JsonLens

/-- `create`. -/
def create : JsonLens := ⟨.noTraversal⟩

/-- `apply`. -/
def apply (l : JsonLens) (keyOrIndex : Step) : JsonLens :=
  let step : Traversal :=
    match keyOrIndex with
    | .key k => .objKey k
    | .index i => .arrayIndex i
  ⟨l.traversal.compose step⟩

/-- `get`. -/
def get (l : JsonLens) (input : JsonValue) : Option JsonValue := l.traversal.apply input

/-- `set`. -/
def set (l : JsonLens) (input value : JsonValue) : Option JsonValue :=
  l.traversal.update input (.value value)

/-- `remove`. -/
def remove (sub : List (Bytes × JsonValue) → Bytes → List (Bytes × JsonValue)) (l : JsonLens)
    (input : JsonValue) : Option JsonValue :=
  l.traversal.update input (.delete sub)

/-- `compose`. -/
def compose (l other : JsonLens) : JsonLens := ⟨l.traversal.compose other.traversal⟩

/-- `or_else`. -/
def orElse (l alt : JsonLens) : JsonLens := ⟨l.traversal.choice alt.traversal⟩

/-- To remove a key of an object is to set the object without it. -/
theorem remove_key (sub : List (Bytes × JsonValue) → Bytes → List (Bytes × JsonValue))
    {l : JsonLens} {input : JsonValue} {data : List (Bytes × JsonValue)}
    (h : l.get input = some (.object data)) (k : Bytes) :
    (l.apply (.key k)).remove sub input = l.set input (.object (sub data k)) := by
  have hfocus : l.traversal.apply input = some (.object data) := h
  simp only [remove, apply, Traversal.update, hfocus, set, Option.bind_eq_bind, Option.bind_some]

end JsonLens

/-! ### Recipes and paths -/

/-- How a lens is built. -/
inductive Recipe
  | create
  | apply (l : Recipe) (keyOrIndex : Step)
  | compose (l other : Recipe)

namespace Recipe

/-- The lens. -/
def lens : Recipe → JsonLens
  | create => .create
  | apply l keyOrIndex => l.lens.apply keyOrIndex
  | compose l other => l.lens.compose other.lens

/-- The steps of its path. -/
def path : Recipe → List Step
  | create => []
  | apply l keyOrIndex => l.path ++ [keyOrIndex]
  | compose l other => l.path ++ other.path

/-- Whether a lens without steps is composed behind the last step. -/
def endsInIdentity : Recipe → Bool
  | create => false
  | apply _ _ => false
  | compose l other => if other.path = [] then l.path ≠ [] else other.endsInIdentity

end Recipe

/-- One step into a value. -/
def Step.follow : Step → JsonValue → Option JsonValue
  | key k, .object data => data.lookup k
  | index i, .array data => data[i]?
  | _, _ => none

/-- Where a path leads. -/
def follow : List Step → JsonValue → Option JsonValue
  | [], d => some d
  | s :: p, d => s.follow d >>= follow p

/-- The value is a container that the step can be set in. -/
def Step.Fits : Step → JsonValue → Prop
  | key _, .object _ => True
  | index i, .array data => i < data.length
  | _, _ => False

/-- A proper beginning of the path does not lead to a container of the right kind, or an index is out
of range. -/
def Blocked (p : List Step) (d : JsonValue) : Prop :=
  ∃ q s rest, p = q ++ s :: rest ∧ ∀ x, follow q d = some x → ¬ s.Fits x

/-- The paths lead to different places. -/
def Diverge (p q : List Step) : Prop :=
  ∃ common s t p' q', p = common ++ s :: p' ∧ q = common ++ t :: q' ∧ s ≠ t

/-! ### Equal values -/

section
variable {d v w r x : JsonValue} {data : List (Bytes × JsonValue)} {xs : List JsonValue} {k : Bytes}
  {i : ℕ} {s : Step} {p q : List Step}

theorem sizeOf_lookup (h : data.lookup k = some x) : sizeOf x < 1 + sizeOf data := by
  have hmem := sizeOf_lt_of_mem (mem_of_lookup h)
  rw [Prod.mk.sizeOf_spec] at hmem
  omega

theorem sizeOf_getElem? (h : xs[i]? = some x) : sizeOf x < 1 + sizeOf xs := by
  have hmem := sizeOf_lt_of_mem (mem_of_getElem? h)
  omega

theorem Equal.refl (v : JsonValue) : Equal v v := by
  match v with
  | .object data =>
    refine .object (fun _ => rfl) fun k x y hx hy => ?_
    cases hx.symm.trans hy
    have hlt := sizeOf_lookup hx
    exact Equal.refl x
  | .array xs =>
    refine .array rfl fun i x y hx hy => ?_
    cases hx.symm.trans hy
    have hlt := sizeOf_getElem? hx
    exact Equal.refl x
  | .string s => exact .string s
  | .i64 n => exact .i64 n
  | .f64 x => exact .f64 x
  | .bool b => exact .bool b
  | .null => exact .null
termination_by sizeOf v

/-- An object in which a value is replaced by one that is equal. -/
theorem Equal.update (h : data.lookup k = some v) (hw : Equal w v) :
    Equal (.object (Json.update data k w)) (.object data) := by
  refine .object (fun k' => ?_) fun k' x y hx hy => ?_
  · rw [lookup_update]
    by_cases hk : k' = k
    · rw [if_pos hk, hk, h]
      rfl
    · rw [if_neg hk]
  rw [lookup_update] at hx
  by_cases hk : k' = k
  · rw [if_pos hk] at hx
    rw [hk, h] at hy
    cases hx
    cases hy
    exact hw
  · rw [if_neg hk] at hx
    cases hx.symm.trans hy
    exact .refl x

/-- An array in which a value is replaced by one that is equal. -/
theorem Equal.set (h : xs[i]? = some v) (hw : Equal w v) :
    Equal (.array (xs.set i w)) (.array xs) := by
  refine .array length_set fun j x y hx hy => ?_
  rw [getElem?_set] at hx
  split at hx
  · rename_i hij
    subst hij
    split at hx
    · cases hx
      cases h.symm.trans hy
      exact hw
    · cases hx
  · cases hx.symm.trans hy
    exact .refl x

/-- The last update of a key counts. -/
theorem update_update (data : List (Bytes × JsonValue)) (k : Bytes) (v w : JsonValue) :
    Json.update (Json.update data k v) k w = Json.update data k w := by
  by_cases hk : k ∈ data.map Prod.fst
  · have hk' : k ∈ (Json.update data k v).map Prod.fst := by
      rw [Json.update, if_pos hk, map_fst_replace]
      exact hk
    rw [Json.update, if_pos hk', Json.update, if_pos hk, Json.update, if_pos hk, map_map]
    refine map_congr_left fun e _ => ?_
    by_cases he : e.1 = k
    · simp [he]
    · simp [he]
  have hdata : Json.update data k v = data ++ [(k, v)] := if_neg hk
  have hk' : k ∈ (data ++ [(k, v)]).map Prod.fst := by simp
  rw [hdata, Json.update, if_pos hk', Json.update, if_neg hk, map_append]
  have hsame : data.map (fun e => if e.1 = k then (k, w) else e) = data := by
    refine (map_congr_left fun e he => if_neg fun heq => hk ?_).trans (map_id data)
    exact heq ▸ mem_map_of_mem he
  rw [hsame, map_singleton, if_pos rfl]

/-! ### The steps -/

/-- A step as a traversal. -/
def Step.traversal : Step → Traversal
  | key k => .objKey k
  | index i => .arrayIndex i

/-- What a traversal reads and puts, as a lens. -/
def Traversal.lens (t : Traversal) : PartialLens JsonValue JsonValue :=
  ⟨t.apply, fun d v => t.update d (.value v)⟩

theorem Traversal.lens_compose (a b : Traversal) : (a.compose b).lens = a.lens.comp b.lens := by
  refine PartialLens.ext (funext fun d => ?_) rfl
  show (a.compose b).apply d = a.apply d >>= b.apply
  rw [Traversal.apply]
  cases a.apply d <;> rfl

theorem Step.get_lens (s : Step) (d : JsonValue) : s.traversal.lens.get d = s.follow d := by
  cases s <;> cases d <;> rfl

theorem Step.follow_key : (Step.key k).follow d = some x ↔
    ∃ data, d = .object data ∧ data.lookup k = some x := by
  cases d <;> simp [Step.follow]

theorem Step.follow_index : (Step.index i).follow d = some x ↔
    ∃ xs, d = .array xs ∧ xs[i]? = some x := by
  cases d <;> simp [Step.follow]

theorem Step.set_key : (Step.key k).traversal.lens.set d v = some r ↔
    ∃ data, d = .object data ∧ r = .object (update data k v) := by
  cases d <;> simp [Step.traversal, Traversal.lens, Traversal.update, eq_comm]

theorem Step.set_index : (Step.index i).traversal.lens.set d v = some r ↔
    ∃ xs, d = .array xs ∧ i < xs.length ∧ r = .array (xs.set i v) := by
  cases d <;> simp [Step.traversal, Traversal.lens, Traversal.update, eq_comm]

/-- A step can be set where it fits, and only there. -/
theorem Step.set_eq_none : s.traversal.lens.set d v = none ↔ ¬ s.Fits d := by
  cases s with
  | key k
  | index i => cases d <;> simp [Step.traversal, Traversal.lens, Traversal.update, Step.Fits]

theorem Step.fits_of_follow (h : s.follow d = some x) : s.Fits d := by
  cases s with
  | key k =>
    obtain ⟨data, rfl, -⟩ := Step.follow_key.1 h
    trivial
  | index i =>
    obtain ⟨xs, rfl, hx⟩ := Step.follow_index.1 h
    exact (List.getElem?_eq_some_iff.1 hx).1

/-- **A step obeys the laws of a lens.** -/
theorem Step.lawful (s : Step) : s.traversal.lens.Lawful Equal Equal where
  get_set {d r v} h := by
    rw [Step.get_lens]
    cases s with
    | key k =>
      obtain ⟨data, -, rfl⟩ := Step.set_key.1 h
      exact (lookup_update data k v k).trans (if_pos rfl)
    | index i =>
      obtain ⟨xs, -, hi, rfl⟩ := Step.set_index.1 h
      exact getElem?_set_self hi
  set_set {d r v} w h := by
    cases s with
    | key k =>
      obtain ⟨data, rfl, rfl⟩ := Step.set_key.1 h
      exact congrArg (some ∘ JsonValue.object) (update_update data k v w)
    | index i =>
      obtain ⟨xs, rfl, hi, rfl⟩ := Step.set_index.1 h
      have hnew : (Step.index i).traversal.lens.set (.array xs) w = some (.array (xs.set i w)) :=
        Step.set_index.2 ⟨xs, rfl, hi, rfl⟩
      refine (Step.set_index.2 ⟨xs.set i v, rfl, ?_, ?_⟩).trans hnew.symm
      · rw [length_set]
        exact hi
      · rw [set_set]
  set_get {d v w} h hw := by
    rw [Step.get_lens] at h
    cases s with
    | key k =>
      obtain ⟨data, rfl, hv⟩ := Step.follow_key.1 h
      exact ⟨_, rfl, .update hv hw⟩
    | index i =>
      obtain ⟨xs, rfl, hv⟩ := Step.follow_index.1 h
      have hi := (List.getElem?_eq_some_iff.1 hv).1
      exact ⟨_, Step.set_index.2 ⟨xs, rfl, hi, rfl⟩, .set hv hw⟩
  set_found {d v} w h := by
    rw [Step.get_lens] at h
    rw [← Option.ne_none_iff_exists', Ne, Step.set_eq_none, not_not]
    exact Step.fits_of_follow h

/-- What a step sets leaves the other steps as they are. -/
theorem Step.follow_of_ne {t : Step} (h : s.traversal.lens.set d v = some r) (hne : s ≠ t) :
    t.follow r = t.follow d := by
  cases s with
  | key k =>
    obtain ⟨data, rfl, rfl⟩ := Step.set_key.1 h
    cases t with
    | key k' =>
      have hk : k' ≠ k := fun heq => hne (heq ▸ rfl)
      exact (lookup_update data k v k').trans (if_neg hk)
    | index j => rfl
  | index i =>
    obtain ⟨xs, rfl, hi, rfl⟩ := Step.set_index.1 h
    cases t with
    | key k => rfl
    | index j =>
      have hj : i ≠ j := fun heq => hne (heq ▸ rfl)
      exact getElem?_set_ne hj

/-! ### Paths -/

theorem follow_append : follow (p ++ q) d = follow p d >>= follow q := by
  induction p generalizing d with
  | nil => rfl
  | cons s p ih =>
    rw [cons_append, follow, follow]
    cases s.follow d with
    | none => rfl
    | some x => exact ih

theorem follow_singleton : follow [s] d = s.follow d := by
  rw [follow]
  cases s.follow d <;> rfl

/-- A path that is blocked leads nowhere. -/
theorem Blocked.follow_eq_none (h : Blocked p d) : follow p d = none := by
  obtain ⟨q, s, rest, rfl, hblocked⟩ := h
  rw [follow_append]
  cases hq : follow q d with
  | none => rfl
  | some x =>
    show s.follow x >>= follow rest = none
    cases hs : s.follow x with
    | none => rfl
    | some y => exact absurd (Step.fits_of_follow hs) (hblocked x hq)

/-- A path that goes on is blocked before its end, or behind it. -/
theorem blocked_append (hq : q ≠ []) :
    Blocked (p ++ q) d ↔ follow p d = none ∨ ∃ x, follow p d = some x ∧ Blocked q x := by
  constructor
  · rintro ⟨q', s, rest, heq, hblocked⟩
    rcases append_eq_append_iff.1 heq with ⟨as, rfl, hq'⟩ | ⟨as, hp, hrest⟩
    · cases hp : follow p d with
      | none => exact .inl rfl
      | some x =>
        refine .inr ⟨x, rfl, as, s, rest, hq', fun y hy => hblocked y ?_⟩
        rw [follow_append, hp]
        exact hy
    cases as with
    | nil =>
      rw [append_nil] at hp
      subst hp
      cases hp : follow p d with
      | none => exact .inl rfl
      | some x => exact .inr ⟨x, rfl, [], s, rest, hrest.symm, fun y hy => by
          cases hy
          exact hblocked x hp⟩
    | cons a as =>
      cases hrest
      exact .inl (Blocked.follow_eq_none ⟨q', s, as, hp, hblocked⟩)
  rintro (hnone | ⟨x, hx, q', s, rest, rfl, hblocked⟩)
  · obtain ⟨s, rest, rfl⟩ := exists_cons_of_ne_nil hq
    refine ⟨p, s, rest, rfl, fun x hx => ?_⟩
    rw [hnone] at hx
    cases hx
  · refine ⟨p ++ q', s, rest, by rw [append_assoc], fun y hy => hblocked y ?_⟩
    rw [follow_append, hx] at hy
    exact hy

/-- A path that diverges from two paths behind one another diverges from the first one, or goes along
it and diverges from the second one. -/
theorem Diverge.append {o : List Step} (h : Diverge (p ++ q) o) :
    Diverge p o ∨ ∃ o', o = p ++ o' ∧ Diverge q o' := by
  obtain ⟨common, s, t, p', o', hpq, rfl, hne⟩ := h
  rcases append_eq_append_iff.1 hpq with ⟨as, rfl, hq⟩ | ⟨as, hp, hrest⟩
  · exact .inr ⟨as ++ t :: o', append_assoc p as _, as, s, t, p', o', hq, rfl, hne⟩
  cases as with
  | nil =>
    rw [append_nil] at hp
    exact .inr ⟨t :: o', by rw [hp], [], s, t, p', o', hrest.symm, rfl, hne⟩
  | cons a as =>
    cases hrest
    exact .inl ⟨common, s, t, as, o', hp, rfl, hne⟩

end

/-! ### The laws -/

namespace Recipe

/-- The traversal of a lens that is built from two others. -/
theorem lens_apply (l : Recipe) (s : Step) : (l.apply s).lens.traversal.lens =
    l.lens.traversal.lens.comp s.traversal.lens := by
  cases s with
  | key k | index i => exact Traversal.lens_compose _ _

theorem lens_compose (l other : Recipe) : (l.compose other).lens.traversal.lens =
    l.lens.traversal.lens.comp other.lens.traversal.lens := Traversal.lens_compose _ _

variable (b : Recipe)

/-- **A lens that is built so obeys the laws.** -/
theorem lawful : b.lens.traversal.lens.Lawful Equal Equal := by
  induction b with
  | create => exact PartialLens.lawful_id
  | apply l s ih =>
    rw [lens_apply]
    exact ih.comp s.lawful
  | compose l other ih ih' =>
    rw [lens_compose]
    exact ih.comp ih'

/-- **It reads what its path leads to.** -/
theorem get_lens (d : JsonValue) : b.lens.traversal.lens.get d = follow b.path d := by
  induction b generalizing d with
  | create => rfl
  | apply l s ih =>
    have hstep : s.traversal.lens.get = follow [s] :=
      funext fun x => (s.get_lens x).trans follow_singleton.symm
    rw [lens_apply, path, follow_append, ← ih, ← hstep]
    rfl
  | compose l other ih ih' =>
    have hother : other.lens.traversal.lens.get = follow other.path := funext ih'
    rw [lens_compose, path, follow_append, ← ih, ← hother]
    rfl

/-- One lens and then another leave what both leave. -/
theorem frame_comp {l m : PartialLens JsonValue JsonValue} {p q : List Step}
    (hl : l.Lawful Equal Equal) (hget : ∀ d, l.get d = follow p d)
    (hp : ∀ d v r o, l.set d v = some r → Diverge p o → follow o r = follow o d)
    (hq : ∀ d v r o, m.set d v = some r → Diverge q o → follow o r = follow o d)
    (d v r : JsonValue) (o : List Step) (h : (l.comp m).set d v = some r)
    (ho : Diverge (p ++ q) o) : follow o r = follow o d := by
  obtain ⟨x, x', hx, hx', hr⟩ := PartialLens.set_comp_eq_some.1 h
  rcases ho.append with ho' | ⟨o', rfl, ho'⟩
  · exact hp d x' r o hr ho'
  have hnew := hl.get_set hr
  rw [hget] at hnew hx
  rw [follow_append, follow_append, hnew, hx]
  exact hq x v x' o' hx' ho'

/-- **Nothing outside of the path changes.** -/
theorem frame (d v r : JsonValue) (o : List Step) (h : b.lens.traversal.lens.set d v = some r)
    (ho : Diverge b.path o) : follow o r = follow o d := by
  induction b generalizing d v r o with
  | create =>
    obtain ⟨common, s, t, p', q', hp, -⟩ := ho
    exact absurd hp.symm (append_ne_nil_of_right_ne_nil common (cons_ne_nil s p'))
  | apply l s ih =>
    rw [lens_apply] at h
    refine frame_comp l.lawful l.get_lens ih (fun d v r o h ho => ?_) d v r o h ho
    obtain ⟨common, s', t, p', q', hs, rfl, hne⟩ := ho
    cases common with
    | cons c common => simp at hs
    | nil =>
      cases hs
      show t.follow r >>= follow q' = t.follow d >>= follow q'
      rw [Step.follow_of_ne h hne]
  | compose l other ih ih' =>
    rw [lens_compose] at h
    exact frame_comp l.lawful l.get_lens ih ih' d v r o h ho

/-- **When the path is not found.** -/
theorem set_eq_none (d v : JsonValue) : b.lens.traversal.lens.set d v = none ↔
      Blocked b.path d ∨ (b.endsInIdentity = true ∧ follow b.path d = none) := by
  induction b generalizing d v with
  | create =>
    refine iff_of_false (Option.some_ne_none v) ?_
    rintro (⟨q, s, rest, hp, -⟩ | ⟨h, -⟩)
    · exact absurd hp.symm (append_ne_nil_of_right_ne_nil q (cons_ne_nil s rest))
    · cases h
  | apply l s ih =>
    have hblocked : ∀ x, Blocked [s] x ↔ ¬ s.Fits x := by
      intro x
      constructor
      · rintro ⟨q, s', rest, hs, hfits⟩
        cases q with
        | cons c q => simp at hs
        | nil =>
          cases hs
          exact hfits x rfl
      intro hfits
      exact ⟨[], s, [], rfl, fun y hy => by
        cases hy
        exact hfits⟩
    have hfalse : ¬ ((l.apply s).endsInIdentity = true ∧ follow (l.apply s).path d = none) :=
      fun h => Bool.false_ne_true h.1
    rw [lens_apply, l.lawful.set_comp_eq_none, or_iff_left hfalse, path,
      blocked_append (cons_ne_nil s []), get_lens]
    simp only [Step.set_eq_none, hblocked]
  | compose l other ih ih' =>
    rw [lens_compose, l.lawful.set_comp_eq_none, get_lens, path, endsInIdentity]
    simp only [ih']
    by_cases hother : other.path = []
    · -- the second lens is in focus where the first one is
      have hnot : ∀ x, ¬ (Blocked other.path x ∨
          (other.endsInIdentity = true ∧ follow other.path x = none)) := by
        rw [hother]
        rintro x (hx | ⟨-, hx⟩)
        · exact Option.some_ne_none x hx.follow_eq_none
        · exact Option.some_ne_none x hx
      rw [if_pos hother, hother, append_nil, decide_eq_true_eq]
      constructor
      · rintro (hnone | ⟨x, -, hx⟩)
        · refine .inr ⟨fun hp => ?_, hnone⟩
          rw [hp] at hnone
          exact Option.some_ne_none d hnone
        · exact absurd (hother ▸ hx) (hnot x)
      · rintro (hblocked | ⟨-, hnone⟩)
        · exact .inl hblocked.follow_eq_none
        · exact .inl hnone
    rw [if_neg hother, blocked_append hother, follow_append]
    cases hl : follow l.path d with
    | none => exact iff_of_true (.inl rfl) (.inl (.inl rfl))
    | some x => simp

end Recipe

/-- **The laws of a lens.**  What was set is read; the last value that is set counts; to set what is
read gives an equal document; no value outside of the path changes.  The path is not found if a proper
beginning of it does not lead to a container of the right kind, or an index is out of range; and, where
a lens without steps is composed behind the last step, if nothing is in focus. -/
theorem lens_laws (b : Recipe) (d : JsonValue) :
    (∀ v w r, b.lens.set d v = some r → b.lens.get r = some v ∧ b.lens.set r w = b.lens.set d w) ∧
    (∀ v, b.lens.get d = some v → ∃ r, b.lens.set d v = some r ∧ Equal r d) ∧
    (∀ v r o, b.lens.set d v = some r → Diverge b.path o → follow o r = follow o d) ∧
    b.lens.get d = follow b.path d ∧
    (∀ v, b.lens.set d v = none ↔
      Blocked b.path d ∨ (b.endsInIdentity = true ∧ b.lens.get d = none)) := by
  have hl := b.lawful
  have hget : b.lens.get d = follow b.path d := b.get_lens d
  refine ⟨fun v w r h => ⟨hl.get_set h, hl.set_set w h⟩,
    fun v h => hl.set_get h (.refl v), b.frame d, hget, fun v => ?_⟩
  rw [hget]
  exact b.set_eq_none d v

/-- A lens without steps behind a key that is not there. -/
theorem set_behind_key : ¬ ∀ (b : Recipe) (d v : JsonValue),
    b.lens.set d v = none ↔ Blocked b.path d := by
  intro h
  obtain ⟨q, s, rest, hp, hfits⟩ :=
    (h (.compose (.apply .create (.key [0x61])) .create) (.object []) .null).1 rfl
  cases q with
  | nil =>
    cases hp
    exact hfits (.object []) rfl trivial
  | cons c q => cases q <;> cases hp

end SpacePony.Json
