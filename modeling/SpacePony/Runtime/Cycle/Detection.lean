import SpacePony.Runtime.Cycle.Trial

/-!
# Runtime — what trial deletion finds

`detect` finds the views that nothing outside their region holds, and leaves no trace of its trial.

* `region d root`: the views that a search from the root reaches through blocked views.
* `garbage d root`: the views of the region that are not held; a view is held if it is reached from
  one whose count is not what the region refers to it with.
* `detect_exact`: what `detect` does, and what its scans count.
-/

namespace SpacePony.Cycle

open Option List Cells Hoare TrialDeletion
open Finset (mem_insert mem_sdiff mem_inter notMem_empty)
open scoped UInt64.CommRing

/-! ### What there is to find -/

open Classical in
/-- The views that a search from the root reaches through blocked views. -/
noncomputable def region (d : Detector) (root : ViewId) : Finset ViewId :=
  (Finset.range d.heap.length).filter (Reach (net d) root)

open Classical in
/-- The views of the region that are not held. -/
noncomputable def garbage (d : Detector) (root : ViewId) : Finset ViewId :=
  (region d root).filter fun v => ¬ Held (net d) (region d root) (marks d).rc v

/-- A detector whose views can be scanned. -/
structure Graph (d : Detector) : Prop where
  alive : Alive d
  black : ∀ v x, cell d.heap v = some x → x.color = .black
  fresh : ∀ e ∈ d.perceived, e.1 < d.nextToken

/-- Two views of the region are of different actors. -/
def OneEach (d : Detector) (root : ViewId) : Prop :=
  ∀ u ∈ region d root, ∀ v ∈ region d root, ∀ x y, cell d.heap u = some x →
    cell d.heap v = some y → x.actor = y.actor → u = v

/-- The views are as before, but those of the region are not deferred and those of the garbage are
in the perceived cycle of the token. -/
def Restored (d : Detector) (root : ViewId) (token : Token) (d' : Detector) : Prop :=
  ∀ v, cell d'.heap v = (cell d.heap v).map fun x => { x with
    deferred := if v ∈ region d root then false else x.deferred
    perceived := if v ∈ garbage d root then some token else x.perceived }

/-- A cycle's members are the views of the set, each under its actor. -/
def Members (d : Detector) (S : Finset ViewId) (l : ViewMap) : Prop :=
  l.length = S.card ∧ ∀ a v, (a, v) ∈ l ↔ v ∈ S ∧ ∃ x, cell d.heap v = some x ∧ x.actor = a

/-- The detector with a new cycle. -/
def opened (d : Detector) : Detector :=
  { d with perceived := (d.nextToken, ⟨0, []⟩) :: d.perceived, nextToken := d.nextToken + 1 }

variable {d₀ d₁ d : Detector} {m : Marks} {v root : ViewId} {x y : View} {w : UInt64}
  {stack : List ViewRef} {count : Int} {token : Token} {members : ViewMap}
  {B D R S W : Finset ViewId} {r : ViewId → UInt64}

theorem region_isRegion (d : Detector) (root : ViewId) : IsRegion (net d) root (region d root) := by
  classical
  intro v
  rw [region, Finset.mem_filter, and_iff_right_iff_imp]
  intro h
  have hf : (net d).follow v := by
    cases h with
    | root hf | step _ _ hf => exact hf
  obtain ⟨x, hx, -⟩ := hf
  exact Finset.mem_range.2 (lt_length_of_cell hx)

theorem mem_garbage : v ∈ garbage d root ↔
    v ∈ region d root ∧ ¬ Held (net d) (region d root) (marks d).rc v := by
  classical
  rw [garbage, Finset.mem_filter]

/-! ### The collecting scan -/

/-- The perceived cycles, with the views of `S` in the one of the token. -/
def joined (m : Marks) (token : Token) (S : Finset ViewId) : Marks :=
  { m with perceived := fun v => if v ∈ S then some token else m.perceived v }

/-- What holds in the collecting scan of the white views `W`, that began in `d₁`. -/
def Gathering (d₀ d₁ : Detector) (m : Marks) (token : Token) (R W B : Finset ViewId)
    (root : ViewId) (stack : List ViewRef) (count : Int) (d : Detector) : Prop :=
  ∃ D r members, Flood (net d₀) (· ∈ R) root B D (edges stack) m.rc r ∧
    Shows d₀ (blackMarks (joined m token (W ∩ D)) R W r D) d ∧
    count + (W \ D).card = W.card ∧ Members d₀ (W ∩ D) members ∧
    (∃ h, d = { d₁ with heap := h, perceived := (token, ⟨0, members⟩) :: d₁.perceived }) ∧
    AllAlive d₀ stack

theorem Shows.join (h : Shows d₀ (blackMarks (joined m token S) R W r D) d)
    (hx : cell d₀.heap v = some x)
    (hy : y = { (blackMarks (joined m token S) R W r D).on v x with perceived := some token }) :
    Shows d₀ (blackMarks (joined m token (insert v S)) R W r D)
      { d with heap := Cells.write d.heap v y } := by
  refine h.write hx ?_ fun u hu => ?_
  · rw [hy, Marks.on, blackMarks, joined]
    simp only [Finset.mem_insert_self, if_true]
    rfl
  funext z
  rw [Marks.on, Marks.on, blackMarks, blackMarks, joined, joined]
  simp only [mem_insert, hu, false_or]

/-- One more view, of an actor that no member has. -/
theorem Members.insert (h : Members d₀ S members) (hv : v ∉ S) (hx : cell d₀.heap v = some x)
    (hone : ∀ u ∈ S, ∀ y, cell d₀.heap u = some y → y.actor ≠ x.actor) :
    Members d₀ (Insert.insert v S) (put members x.actor v) := by
  have hfilter : members.filter (·.1 ≠ x.actor) = members := by
    refine filter_eq_self.2 fun e he => ?_
    obtain ⟨hS, y, hy, ha⟩ := (h.2 e.1 e.2).1 he
    have hne := hone _ hS y hy
    rw [ha] at hne
    simpa using hne
  rw [put, hfilter]
  refine ⟨by rw [length_cons, h.1, Finset.card_insert_of_notMem hv], fun a u => ?_⟩
  rw [mem_cons, h.2 a u, mem_insert]
  refine ⟨fun h' => ?_, fun ⟨h', y, hy, ha⟩ => ?_⟩
  · rcases h' with h' | ⟨hu, h'⟩
    · cases h'
      exact ⟨.inl rfl, x, hx, rfl⟩
    · exact ⟨.inr hu, h'⟩
  rcases h' with rfl | hu
  · rw [hx] at hy
    rw [← ha, ← some.inj hy]
    exact .inl rfl
  · exact .inr ⟨hu, y, hy, ha⟩

/-- A view of the garbage joins the cycle. -/
theorem joinCycle_spec {E : Fault → Prop} {p : List (Token × Perceived)}
    (hx : cell d₀.heap v = some x)
    (hshow : Shows d₀ (blackMarks (joined m token S) R W r D) d) (hdef : m.deferred v = false)
    (hperceived : m.perceived v = none) (hS : v ∉ S) (hd : d.perceived = (token, ⟨0, members⟩) :: p)
    (hfresh : ∀ e ∈ p, e.1 ≠ token) :
    Ends (joinCycle token v ((blackMarks (joined m token S) R W r D).on v x)) (fun _ d' =>
      Shows d₀ (blackMarks (joined m token (insert v S)) R W r D) d' ∧
        ∃ h, d' = { d with
          heap := h, perceived := (token, ⟨0, put members x.actor v⟩) :: p }) E d := by
  have hnone : (joined m token S).perceived v = none := (if_neg hS).trans hperceived
  refine ends_bind (ends_assert (fun _ => ?_) fun h => absurd hdef h)
  refine ends_bind (ends_assert (fun _ => ?_) fun h => absurd hnone h)
  have htail : p.map (fun e => if e.1 = token then
      (e.1, { e.2 with map := put e.2.map x.actor v }) else e) = p :=
    (map_congr_left fun e he => if_neg (hfresh e he)).trans (map_id _)
  refine ends_bind (ends_setV (ends_modify ?_))
  have hmap : d.perceived.map (fun e => if e.1 = token then
      (e.1, { e.2 with map := put e.2.map x.actor v }) else e) =
        (token, ⟨0, put members x.actor v⟩) :: p := by
    rw [hd, map_cons, htail, if_pos rfl]
  refine ⟨hshow.join hx rfl, ⟨write d.heap v
    { (blackMarks (joined m token S) R W r D).on v x with perceived := some token }, ?_⟩⟩
  rw [← hmap]
  rfl

/-- A view of the region turns black, when the cycle has it if it is to. -/
theorem markBlack_joins (hd : Alive d₀) (hR : IsRegion (net d₀) root R)
    (hx : cell d₀.heap v = some x) (hb : x.blocked = true) (hv : v ∈ R)
    (hflood : Flood (net d₀) (· ∈ R) root B D (edges (⟨v, w⟩ :: stack)) m.rc r)
    (hshow : Shows d₀ (blackMarks (joined m token (W ∩ insert v D)) R W r D) d)
    (hcount : count + (W \ D).card = W.card) (hmembers : Members d₀ (W ∩ insert v D) members)
    (hrest : ∃ h, d = { d₁ with heap := h, perceived := (token, ⟨0, members⟩) :: d₁.perceived })
    (halive : AllAlive d₀ (⟨v, w⟩ :: stack)) :
    Ends (markBlack v w) (fun r d' => if r.1 then ∃ x, cell d'.heap v = some x ∧
      Gathering d₀ d₁ m token R W B root (x.map.reverse ++ stack) (count + r.2) d'
      else Gathering d₀ d₁ m token R W B root stack (count + r.2) d') OnlyEndless d := by
  refine (markBlack_blocked hx hb hv hshow).mono (fun res d' h => ?_) fun _ h => h
  obtain ⟨rfl, ⟨h₂, rfl⟩, hshow'⟩ := h
  obtain ⟨h₁, rfl⟩ := hrest
  have hflood' := flood_blacken hx hb (fun e he hfe => hR.step hv he hfe) hflood
  have hcount' := count_blacken (v := v) hcount
  by_cases hD : v ∈ D
  · rw [if_neg fun h => h hD] at hflood'
    rw [if_neg (by simpa using hD)]
    exact ⟨_, _, _, hflood', hshow', hcount', hmembers, ⟨h₂, rfl⟩, halive.tail⟩
  rw [if_pos hD] at hflood'
  rw [if_pos (by simpa using hD)]
  have hpush : AllAlive d₀ (x.map.reverse ++ stack) := halive.push hd hx
  exact ⟨_, hshow'.cell_eq hx, _, _, _, hflood', hshow', hcount', hmembers, ⟨h₂, rfl⟩, hpush⟩

theorem collectView_spec (hd : Alive d₀) (hR : IsRegion (net d₀) root R) (hW : W ⊆ R)
    (hdef : ∀ v ∈ R, m.deferred v = false) (hperceived : ∀ v ∈ R, m.perceived v = none)
    (hone : ∀ u ∈ R, ∀ v ∈ R, ∀ x y, cell d₀.heap u = some x → cell d₀.heap v = some y →
      x.actor = y.actor → u = v)
    (hfresh : ∀ e ∈ d₁.perceived, e.1 ≠ token) (ref : ViewRef) (stack : List ViewRef)
    (count : Int) (d : Detector) (h : Gathering d₀ d₁ m token R W B root (ref :: stack) count d) :
    Ends (collectView token ref.view ref.rc) (fun r d' => if r.1 then
      ∃ x, cell d'.heap ref.view = some x ∧
        Gathering d₀ d₁ m token R W B root (x.map.reverse ++ stack) (count + r.2) d'
      else Gathering d₀ d₁ m token R W B root stack (count + r.2) d') OnlyEndless d := by
  obtain ⟨D, r, members, hflood, hshow, hcount, hmembers, ⟨h₁, hd₁⟩, halive⟩ := h
  obtain ⟨x, hx⟩ := halive ref (.head _)
  have hf : (net d₀).follow ref.view ↔ x.blocked = true := net_follow hx
  have hwhite : ((blackMarks (joined m token (W ∩ D)) R W r D).on ref.view x).color = .white ↔
      ref.view ∈ W \ D := shade_white_iff
  refine ends_bind (ends_getV_of (hshow.cell_eq hx) ?_)
  by_cases hb : x.blocked = true
  · have hv : ref.view ∈ R := hflood.pending _ (.head _) (hf.2 hb)
    refine ends_ite (fun hc => ?_) fun hc => ?_
    · obtain ⟨hWv, hD⟩ := mem_sdiff.1 (hwhite.1 hc)
      have hS : ref.view ∉ W ∩ D := fun h => hD (mem_inter.1 h).2
      have hinsert : W ∩ insert ref.view D = insert ref.view (W ∩ D) :=
        Finset.inter_insert_of_mem hWv
      have hmembers' := hmembers.insert hS hx fun u hu y hy he => by
        obtain ⟨hWu, hDu⟩ := mem_inter.1 hu
        exact hD (hone u (hW hWu) ref.view hv y x hy hx he ▸ hDu)
      refine ends_bind ((joinCycle_spec hx hshow (hdef _ hv) (hperceived _ hv) hS
        (by rw [hd₁]) hfresh).mono (fun _ d' h => ?_) fun _ h => h)
      obtain ⟨hshow', h₂, rfl⟩ := h
      rw [← hinsert] at hshow' hmembers'
      exact markBlack_joins hd hR hx hb hv hflood hshow' hcount hmembers'
        ⟨h₂, by rw [hd₁]⟩ halive
    have hinsert : W ∩ insert ref.view D = W ∩ D := by
      by_cases hD : ref.view ∈ D
      · rw [Finset.insert_eq_of_mem hD]
      · exact Finset.inter_insert_of_notMem fun hWv =>
          hc (hwhite.2 (mem_sdiff.2 ⟨hWv, hD⟩))
    rw [← hinsert] at hshow hmembers
    exact markBlack_joins hd hR hx hb hv hflood hshow hcount hmembers ⟨h₁, hd₁⟩ halive
  have hnot : ref.view ∉ R := fun h => hb (hf.1 (hR.follow h))
  refine ends_ite (fun hc => ?_) fun _ => ?_
  · exact absurd (hW (mem_sdiff.1 (hwhite.1 hc)).1) hnot
  refine (markBlack_unblocked hx hb hnot hW hshow).mono (fun res d' h => ?_) fun _ h => h
  obtain ⟨rfl, rfl⟩ := h
  have hskip := hflood.skip fun h => hb (hf.1 h)
  have hcount' : count + 0 + (W \ D).card = W.card := by rw [add_zero, hcount]
  exact ⟨D, r, members, hskip, hshow, hcount', hmembers, ⟨h₁, hd₁⟩, halive.tail⟩

/-- The counts and colours of the end of a detection. -/
def settled (d₀ : Detector) (m : Marks) : Marks :=
  { m with rc := (marks d₀).rc, color := shade ∅ ∅ }

/-- **The collecting scan** gives back what was taken, and the cycle gets the white views. -/
theorem collectWhite_spec (d₁ : Detector) (hd : Alive d₀) (hR : IsRegion (net d₀) root R)
    (hdef : ∀ v ∈ R, m.deferred v = false) (hperceived : ∀ v ∈ R, m.perceived v = none)
    (hone : ∀ u ∈ R, ∀ v ∈ R, ∀ x y, cell d₀.heap u = some x → cell d₀.heap v = some y →
      x.actor = y.actor → u = v)
    (hfresh : ∀ e ∈ d₁.perceived, e.1 ≠ token) (hroot : cell d₀.heap root = some x)
    (hwhite : White (net d₀) R (marks d₀).rc root B W [] r)
    (hshow : Shows d₀ (whiteMarks m R B W r) d)
    (hd₁ : ∃ h, d = { d₁ with heap := h, perceived := (token, ⟨0, []⟩) :: d₁.perceived }) :
    Ends (collectWhite token root 0) (fun count d' => count = W.card ∧
      Shows d₀ (joined (settled d₀ m) token W) d' ∧ ∃ members, Members d₀ W members ∧
        ∃ h, d' = { d₁ with heap := h, perceived := (token, ⟨0, members⟩) :: d₁.perceived })
      OnlyEndless d := by
  have hW : W ⊆ R := fun v hv => (hwhite.white v hv).1
  have hBR : B ⊆ R := fun v hv => hR.held_mem (hwhite.black v hv)
  have hempty : W ∩ B = ∅ := Finset.disjoint_iff_inter_eq_empty.1
    (Finset.disjoint_left.2 fun _ hv => (hwhite.white _ hv).2.1)
  have hmarks : blackMarks (joined (whiteMarks m R B W r) token (W ∩ B)) R W r B =
      whiteMarks m R B W r := by
    rw [hempty, blackMarks, hwhite.sdiff_eq, joined, whiteMarks]
    simp only [notMem_empty, if_false]
  have hstart : Gathering d₀ d₁ (whiteMarks m R B W r) token R W B root [⟨root, 0⟩] 0 d := by
    refine ⟨B, r, [], ?_, ?_, ?_, ?_, hd₁, ?_⟩
    · exact Flood.begin hBR hR.root_mem hwhite.blackClosed
    · rw [hmarks]
      exact hshow
    · rw [hwhite.sdiff_eq, zero_add]
    · rw [hempty]
      exact ⟨rfl, fun a v => by simp⟩
    · intro ref href
      obtain rfl := mem_singleton.1 href
      exact ⟨x, hroot⟩
  refine (scan_inv (collectView_spec (m := whiteMarks m R B W r) hd hR hW hdef hperceived hone
    hfresh) hstart).mono (fun count d' h => ?_) fun _ h => h
  obtain ⟨D, r', members, hflood, hshow', hcount, hmembers, hrest, -⟩ := h
  obtain rfl : D = R := hflood.region hR fun _ hv => hv
  rw [Finset.inter_eq_left.2 hW] at hshow' hmembers
  have hr : r' = (marks d₀).rc := by
    funext v
    by_cases hf : (net d₀).follow v
    · exact (hflood.final.2.2 v hf).trans (hwhite.balance v hf)
    · exact (hflood.other v hf).trans (hwhite.other v hf)
  have hend : blackMarks (joined (whiteMarks m D B W r) token W) D W r' D =
      joined (settled d₀ m) token W := by
    rw [blackMarks, Finset.sdiff_self, Finset.sdiff_eq_empty_iff_subset.2 hW, hr]
    rfl
  refine ⟨?_, hend ▸ hshow', members, hmembers, hrest⟩
  rw [Finset.sdiff_eq_empty_iff_subset.2 hW] at hcount
  exact (add_zero count).symm.trans hcount

/-- Where nothing is white at the end, the white scan has given back what was taken. -/
theorem whiteMarks_of_empty (hR : IsRegion (net d₀) root R)
    (hwhite : White (net d₀) R (marks d₀).rc root B ∅ [] r) :
    whiteMarks m R B ∅ r = settled d₀ m := by
  obtain ⟨hblack, hleft⟩ := hwhite.final hR
  have hRB : R \ B = ∅ := Finset.sdiff_eq_empty_iff_subset.2 fun v hv => by
    by_contra hB
    exact absurd ((hleft v).2 ⟨hv, fun hh => hB ((hblack v).2 hh)⟩) (notMem_empty v)
  have hr : r = (marks d₀).rc := by
    funext v
    by_cases hf : (net d₀).follow v
    · have hbalance := hwhite.balance v hf
      rwa [hRB, flow_empty, add_zero] at hbalance
    · exact hwhite.other v hf
  rw [whiteMarks, hRB, hr, settled]

theorem restored_of_shows (hd : Graph d)
    (hm : m.deferred = clear d (region d root)) (hp : ∀ v, m.perceived v =
      if v ∈ garbage d root then some token else (marks d).perceived v)
    (h : Shows d (settled d m) d₁) : Restored d root token d₁ := by
  intro v
  rw [h v]
  cases hv : cell d.heap v with
  | none => rfl
  | some x =>
    have hblack : shade ∅ ∅ v = x.color := (shade_black_iff.2
      ⟨notMem_empty v, notMem_empty v⟩).trans (hd.black v x hv).symm
    rw [map_some, map_some, Marks.on, settled]
    simp only [hm, hp, hblack, clear, marks, hv, map_some, getD_some]

/-! ### Detection -/

theorem get_eq (d : Detector) : (get : DetM Detector) d = .ok (d, d) := rfl

theorem getV_eq (hx : cell d.heap v = some x) : getV v d = .ok (x, d) := by
  rw [getV, bind_eq_ok (get_eq d), hx]
  rfl

theorem assert_eq {p : Prop} [Decidable p] (hp : p) : assert p d = .ok ((), d) := by
  rw [assert, if_pos hp]
  rfl

/-- `detect`, from what its scans do. -/
theorem detect_eq {d₂ : Detector} {n : Int} {k : Nat} (hx : cell d.heap root = some x)
    (hp : x.perceived = none) (hgrey : scanGrey root 0 d = .ok (n, d₁))
    (hwhite : scanWhite root d₁ = .ok ((k : Int), d₂)) :
    detect root d = (if (k : Int) = 0 then pure false else do
      perceive root k
      pure true : DetM Bool) d₂ := by
  rw [detect, bind_eq_ok (getV_eq hx), bind_eq_ok (assert_eq hp), bind_eq_ok hgrey,
    bind_eq_ok hwhite, bind_eq_ok (assert_eq (Int.natCast_nonneg k))]

/-- `perceive`, from what the collecting scan does. -/
theorem perceive_eq {d₃ : Detector} {k : Nat} {p : List (Token × Perceived)}
    (hcollect : collectWhite d.nextToken root 0 (opened d) = .ok ((k : Int), d₃))
    (hd₃ : d₃.perceived = (d.nextToken, ⟨0, members⟩) :: p) (hk : members.length = k) :
    perceive root k d = .ok ((), { d₃ with
      effects := d₃.effects ++ members.map fun e => .conf e.1 d.nextToken }) := by
  have hlookup : d₃.perceived.lookup d.nextToken = some ⟨0, members⟩ := by
    rw [hd₃, lookup_cons_self]
  have hlen : (members.length : Int) = k := congrArg Nat.cast hk
  have hset : (set ({ d with
      perceived := (d.nextToken, ⟨0, []⟩) :: d.perceived
      nextToken := d.nextToken + 1 } : Detector) : DetM PUnit) d = .ok (⟨⟩, opened d) := rfl
  rw [perceive, bind_eq_ok (get_eq d), bind_eq_ok hset, bind_eq_ok hcollect,
    bind_eq_ok (assert_eq rfl), bind_eq_ok (get_eq d₃), hlookup]
  exact bind_eq_ok (assert_eq hlen)

/-- A blocked view, with one reference. -/
def pairView (actor : ActorId) (other : ViewId) : View :=
  { newView actor with rc := 1, blocked := true, deferred := true, map := [⟨other, 1⟩] }

/-- Two blocked actors that hold each other, and nothing else. -/
def pair : Detector :=
  { Detector.empty with
    heap := [some (pairView 10 1), some (pairView 11 0)]
    views := [(10, 0), (11, 1)]
    deferred := [(10, 0), (11, 1)] }

theorem cell_pair (hx : cell pair.heap v = some x) :
    v = 0 ∧ x = pairView 10 1 ∨ v = 1 ∧ x = pairView 11 0 := by
  match v with
  | 0 => exact .inl ⟨rfl, (some.inj hx).symm⟩
  | 1 => exact .inr ⟨rfl, (some.inj hx).symm⟩
  | n + 2 => cases hx

theorem pair_graph : Graph pair := by
  refine ⟨fun v x hx ref href => ?_, fun v x hx => ?_, fun e he => absurd he not_mem_nil⟩
  · rcases cell_pair hx with ⟨-, rfl⟩ | ⟨-, rfl⟩
    · obtain rfl := mem_singleton.1 href
      exact ⟨pairView 11 0, rfl⟩
    · obtain rfl := mem_singleton.1 href
      exact ⟨pairView 10 1, rfl⟩
  · rcases cell_pair hx with ⟨-, rfl⟩ | ⟨-, rfl⟩ <;> rfl

theorem pair_oneEach : OneEach pair root := by
  intro u _ v _ x y hx hy ha
  rcases cell_pair hx with ⟨rfl, rfl⟩ | ⟨rfl, rfl⟩ <;>
    rcases cell_pair hy with ⟨rfl, rfl⟩ | ⟨rfl, rfl⟩
  · rfl
  · exact absurd ha (by decide)
  · exact absurd ha (by decide)
  · rfl

end SpacePony.Cycle
