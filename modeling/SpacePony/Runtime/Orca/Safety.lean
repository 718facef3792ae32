import SpacePony.Runtime.Orca.Protocol
import SpacePony.Support.Credit

/-!
# Runtime — the protocol keeps its counts

The counts of the actors are credits that travel in letters (`Support.Credit`): every step of a
system posts or delivers letters.

* `Message.letter`, `Sys.net`: a system as a network of credits.
* **`Reachable.safety`**: the counts of every owner cover what the other actors hold.
* **`Reachable.exact`**: and they are not more than that; the traces of sender and receiver adjust the
  same counts.
-/

namespace SpacePony.Orca

open ActorMap Nat List SpacePony.Credit
open Prod (fst)
open Function (update update_apply update_eq_self update_idem update_of_ne update_self)

/-! ### Systems as networks -/

/-- What a message says about the counts of its receiver, and the credits it carries. -/
def Message.letter (m : Message) : Letter ActorId Res where
  id := m.id
  dest := m.dest
  past := m.past
  plus := fun r =>
    match m.body with
    | .acquire ref => if m.dest = r.1 then ref.count r.2 else 0
    | _ => 0
  minus := fun r =>
    match m.body with
    | .release ref => if m.dest = r.1 then ref.count r.2 else 0
    | _ => 0
  carry := fun r =>
    match m.body with
    | .app _ _ _ counted => (counted r).toNat
    | _ => 0

def Sys.net (s : Sys) : Net ActorId Res where
  actors := s.actors
  own := fun r => (s.gc r.1).count r.2
  held := fun b r => (s.gc b).foreign.count r
  know := s.know
  flight := s.flight.map Message.letter
  next := s.next

/-- The network with other counts for one of the actors. -/
def Sys.netWith (s : Sys) (a : ActorId) (own held : Res → Nat) : Net ActorId Res :=
  { s.net with own := own, held := update s.net.held a held }

variable {order releases : List ActorId}

section
variable {s : Sys} {a b : ActorId} {own held : Res → Nat} {body : Body} {gc : Gc}

theorem Sys.net_eq_netWith (s : Sys) (a : ActorId) :
    s.net = s.netWith a s.net.own (s.net.held a) := by
  rw [Sys.netWith, update_eq_self]

theorem Sys.net_setGc (s : Sys) (a : ActorId) (gc : Gc) :
    (s.setGc a gc).net = s.netWith a (fun r => if r.1 = a then gc.count r.2 else s.net.own r)
      gc.foreign.count := by
  have hown : (s.setGc a gc).net.own = fun r => if r.1 = a then gc.count r.2 else s.net.own r := by
    funext r
    by_cases hr : r.1 = a
    · simp [Sys.setGc, Sys.net, hr]
    · simp [Sys.setGc, Sys.net, hr]
  have hheld : (s.setGc a gc).net.held = update s.net.held a gc.foreign.count := by
    funext b
    by_cases hb : b = a
    · subst hb
      simp [Sys.setGc, Sys.net]
    · simp [Sys.setGc, Sys.net, hb]
  rw [Sys.netWith, ← hown, ← hheld]
  rfl

@[simp] theorem Sys.post_gc (s : Sys) (a b : ActorId) (body : Body) :
    (s.post a b body).gc = s.gc := rfl

@[simp] theorem Sys.postAll_gc (s : Sys) (a : ActorId) (body : ActorId → Body)
    (bs : List ActorId) : (s.postAll a body bs).gc = s.gc := by
  induction bs generalizing s with
  | nil => rfl
  | cons b bs ih => exact ih _

@[simp] theorem Sys.postAll_actors (s : Sys) (a : ActorId) (body : ActorId → Body)
    (bs : List ActorId) : (s.postAll a body bs).actors = s.actors := by
  induction bs generalizing s with
  | nil => rfl
  | cons b bs ih => exact ih _

/-- The messages in flight after some were posted. -/
theorem Sys.mem_postAll {m : Message} {body : ActorId → Body} {bs : List ActorId}
    (hm : m ∈ (s.postAll a body bs).flight) : m ∈ s.flight ∨ ∃ b, m.body = body b := by
  induction bs generalizing s with
  | nil => exact .inl hm
  | cons b bs ih =>
    rcases ih hm with hm | hm
    · rcases mem_append.1 hm with hm | hm
      · exact .inl hm
      · rw [mem_singleton] at hm
        exact .inr ⟨b, by rw [hm]⟩
    · exact .inr hm

/-- A posted message is a posted letter. -/
theorem Sys.post_net (s : Sys) (a b : ActorId) (body : Body) (own held own' held' : Res → Nat) :
    (s.post a b body).netWith a own' held' = (s.netWith a own held).post a own' held'
      (Message.letter ⟨s.next, b, s.know a, body⟩) := by
  simp only [Sys.netWith, Sys.net, Sys.post, Net.post, map_append, map_cons, map_nil, update_idem]
  rfl

/-- Messages to the actors in `bs`, which acquire `p` and release `q`. -/
theorem Sys.good_postAll (body : ActorId → Body) (p q : Res → Nat) {held' : Res → Nat}
    {bs : List ActorId}
    (hbody : ∀ (m : Message) r, m.body = body m.dest → m.letter.carry r = 0 ∧
      m.letter.plus r = (if m.dest = r.1 then p r else 0) ∧
      m.letter.minus r = if m.dest = r.1 then q r else 0)
    (hnodup : bs.Nodup) (ha : a ∈ s.actors) (hself : ∀ r : Res, r.1 = a → p r = 0 ∧ q r = 0)
    (h : Good fst (s.netWith a own held))
    (hheld : ∀ r, held' r + (if r.1 ∈ bs then q r else 0) =
      held r + if r.1 ∈ bs then p r else 0) :
    Good fst ((s.postAll a body bs).netWith a own held') := by
  induction bs generalizing s held with
  | nil =>
    have heq : held' = held := funext hheld
    rwa [heq]
  | cons b bs ih =>
    obtain ⟨hb, hnodup⟩ := nodup_cons.1 hnodup
    let mid : Res → Nat := fun r => if b = r.1 then held' r else held r
    have hpost : Good fst ((s.post a b (body b)).netWith a own mid) := by
      rw [Sys.post_net s a b _ own held]
      have hletter := fun r => hbody ⟨s.next, b, s.know a, body b⟩ r rfl
      refine h.post ⟨ha, rfl, Finset.Subset.refl _, fun r hr => ?_, fun r hr => ?_, fun r _ => ?_⟩
      · rw [(hletter r).2.1, (hletter r).2.2]
        exact ⟨if_neg hr, if_neg hr⟩
      · rw [(hletter r).1, (hletter r).2.1, (hletter r).2.2, (hself r hr).1, (hself r hr).2]
        exact ⟨ite_self 0, ite_self 0, rfl⟩
      · rw [(hletter r).1, (hletter r).2.1, (hletter r).2.2]
        refine ⟨rfl, ?_, .inl rfl⟩
        simp only [Sys.netWith, update_self, mid]
        split
        · rename_i hr
          simpa [hr] using hheld r
        · rfl
    refine ih hnodup ha hpost fun r => ?_
    by_cases hr : b = r.1
    · subst hr
      simp [mid, hb]
    · have hr' : ¬ r.1 = b := fun e => hr e.symm
      simpa [mid, hr, hr'] using hheld r

end

/-! ### The invariant -/

/-- What holds of the messages in flight. -/
def Body.Ok (A : Finset ActorId) : Body → Prop
  | .app g rounds roots counted =>
    ∃ sp : Spec, g.run rounds roots = some sp ∧ sp.Within A ∧ ∀ r, counted r = decide (r ∈ sp.seen)
  | .acquire _ => True
  | .release ref => ∀ p o, ref.map p = some o → 0 < o.rc

/-- The invariant of the protocol. -/
structure Inv (s : Sys) : Prop where
  good : Good fst s.net
  rest : ∀ a, (s.gc a).Rest a
  unborn : ∀ a ∉ s.actors, s.gc a = Gc.new ∧ ∀ b x, (s.gc b).foreign.count (a, x) = 0
  bodies : ∀ m ∈ s.flight, m.body.Ok s.actors

section
variable {s : Sys} {a b : ActorId} {gc : Gc} {A B : Finset ActorId} {body : Body}

theorem Body.Ok.mono (h : body.Ok A) (hsub : A ⊆ B) : body.Ok B := by
  cases body with
  | app g rounds roots counted =>
    obtain ⟨sp, hrun, hA, hcounted⟩ := h
    exact ⟨sp, hrun, fun r hr => hsub (hA r hr), hcounted⟩
  | acquire ref => trivial
  | release ref => exact h

theorem Gc.done_count (gc : Gc) (x : Option Addr) : gc.done.count x = gc.count x := by
  cases x <;> rfl

theorem Gc.new_count (x : Option Addr) : Gc.new.count x = 0 := by
  cases x <;> rfl

theorem Gc.new_rest (k : Nat) (a : ActorId) : ({ Gc.new with rc := k } : Gc).Rest a where
  wf :=
    { mark := one_pos
      rcMark := zero_le _
      locals := nofun
      alone := rfl
      refs := nofun
      objs := fun h _ => nomatch h }
  rcMark := one_pos
  locals := nofun
  refs := nofun
  objs := fun h _ => nomatch h

theorem inv_init : Inv Sys.init where
  good :=
    { ids := nodup_nil
      fresh := fun _ hl => absurd hl not_mem_nil
      addressed := fun _ hl => absurd hl not_mem_nil
      balanced := fun r => (Gc.new_count r.2).symm
      covered := fun _ _ _ => zero_le _ }
  rest := Gc.new_rest 0
  unborn := fun _ _ => ⟨rfl, fun _ _ => rfl⟩
  bodies := fun _ hm => absurd hm not_mem_nil

theorem Sys.setGc_self : (s.setGc a gc).gc a = gc := update_self ..

theorem Sys.setGc_of_ne (hb : b ≠ a) : (s.setGc a gc).gc b = s.gc b := update_of_ne hb ..

/-- After a step an actor has other counts, nothing of them on an actor that does not exist. -/
theorem Inv.setGc {t : Sys} (h : Inv s) (hgcs : t.gc = s.gc) (hactors : t.actors = s.actors)
    (ha : a ∈ s.actors) (hgood : Good fst (t.setGc a gc).net) (hrest : gc.Rest a)
    (hgc : ∀ d ∉ s.actors, ∀ x, gc.foreign.count (d, x) = 0)
    (hbodies : ∀ m ∈ t.flight, m.body.Ok s.actors) : Inv (t.setGc a gc) := by
  refine ⟨hgood, fun b => ?_, fun d hd => ?_, fun m hm => ?_⟩
  · by_cases hb : b = a
    · subst hb
      rw [Sys.setGc_self]
      exact hrest
    · rw [Sys.setGc_of_ne hb, hgcs]
      exact h.rest b
  · have hd' : d ∉ s.actors := hactors ▸ hd
    obtain ⟨hnew, hcount⟩ := h.unborn d hd'
    have hda : d ≠ a := fun e => hd' (e ▸ ha)
    refine ⟨?_, fun b x => ?_⟩
    · rw [Sys.setGc_of_ne hda, hgcs]
      exact hnew
    by_cases hb : b = a
    · subst hb
      rw [Sys.setGc_self]
      exact hgc d hd' x
    · rw [Sys.setGc_of_ne hb, hgcs]
      exact hcount b x
  · exact (hbodies m hm).mono (hactors ▸ Finset.Subset.refl _)

/-! ### Sending -/

theorem Lists.acquired {m : ActorMap} (h : Lists m order) (r : Res) :
    (if r.1 ∈ order then (m.getorput r.1 0).count r.2 else 0) = m.count r := by
  split
  · exact m.count_getorput r.1 0 r.2
  rename_i hr
  have hnone : m r.1 = none := not_not.1 fun e => hr ((h.mem r.1).2 e)
  rw [ActorMap.count, hnone]
  rfl

/-- The counts of a context, for the current actor and for others. -/
theorem Ctx.count_own {c : Ctx} (hc : c.current = a) (x : Option Addr) :
    c.count (a, x) = c.gc.count x := if_pos hc.symm

variable {r : Res}

theorem Ctx.count_other {c : Ctx} (hc : c.current = a) (hr : r.1 ≠ a) :
    c.count r = c.gc.foreign.count r := if_neg (hc.symm ▸ hr)

theorem Gc.counts_own (gc : Gc) (a : ActorId) (x : Option Addr) : gc.counts a (a, x) = gc.count x :=
  Ctx.count_own rfl x

theorem Gc.counts_other (hr : r.1 ≠ a) : gc.counts a r = gc.foreign.count r :=
  Ctx.count_other rfl hr

section
variable {sp : Spec} {c : Ctx}

/-- What a send trace makes of the sender's own counts. -/
theorem Tally.sent_own (h : Tally (sentCount a (gc.counts a)) a sp c) (x : Option Addr) :
    c.gc.count x = gc.count x + (decide ((a, x) ∈ sp.seen)).toNat ∧ c.acquire.count (a, x) = 0 := by
  have hcount := h.count (a, x)
  rw [sentCount, if_pos rfl, Ctx.count_own h.current, Gc.counts_own] at hcount
  exact hcount

/-- What a send trace makes of the counts of what other actors own. -/
theorem Tally.sent_other (h : Tally (sentCount a (gc.counts a)) a sp c) (hr : r.1 ≠ a) :
    c.gc.foreign.count r + (decide (r ∈ sp.seen)).toNat =
      gc.foreign.count r + c.acquire.count r ∧ (r ∉ sp.seen → c.acquire.count r = 0) := by
  have hcount := h.count r
  rw [sentCount, if_neg hr, Ctx.count_other h.current hr, Gc.counts_other hr] at hcount
  obtain ⟨hn, hq⟩ := hcount
  refine ⟨hn, fun hnot => hq.resolve_right ?_⟩
  simp [hnot]

theorem Tally.received_own (h : Tally (receivedCount a (gc.counts a)) a sp c) (x : Option Addr) :
    c.gc.count x + (decide ((a, x) ∈ sp.seen)).toNat = gc.count x := by
  have hcount := h.count (a, x)
  rw [receivedCount, if_pos rfl, Ctx.count_own h.current, Gc.counts_own] at hcount
  exact hcount.1

theorem Tally.received_other (h : Tally (receivedCount a (gc.counts a)) a sp c) (hr : r.1 ≠ a) :
    c.gc.foreign.count r = gc.foreign.count r + (decide (r ∈ sp.seen)).toNat := by
  have hcount := h.count r
  rw [receivedCount, if_neg hr, Ctx.count_other h.current hr, Gc.counts_other hr] at hcount
  exact hcount.1

theorem Marks.own (h : Marks A a (gc.counts a) c) (x : Option Addr) :
    c.gc.count x = gc.count x ∧ c.acquire.count (a, x) = 0 := by
  obtain ⟨hn, hq⟩ := h.count (a, x)
  have hzero := hq (.inl rfl)
  rw [hzero, Ctx.count_own h.current, Gc.counts_own] at hn
  exact ⟨hn, hzero⟩

theorem Marks.other (h : Marks A a (gc.counts a) c) (hr : r.1 ≠ a) :
    c.gc.foreign.count r = gc.foreign.count r + c.acquire.count r ∧
      (r.1 ∉ A → c.acquire.count r = 0) := by
  obtain ⟨hn, hq⟩ := h.count r
  rw [Ctx.count_other h.current hr, Gc.counts_other hr] at hn
  exact ⟨hn, fun hA => hq (.inr hA)⟩

end

theorem Gc.Wf.count_alone (h : gc.Wf a) (x : Option Addr) : gc.foreign.count (a, x) = 0 := by
  rw [ActorMap.count, h.alone]
  rfl

/-- The letters that acquire what is in a map. -/
theorem Inv.good_sendAcquire (h : Inv s) (ha : a ∈ s.actors) {m : ActorMap} (horder : Lists m order)
    (hself : ∀ x, m.count (a, x) = 0) : Good fst ((s.sendAcquire a m order).netWith a s.net.own
      fun r => (s.gc a).foreign.count r + m.count r) := by
  refine Sys.good_postAll _ (fun r => (m.getorput r.1 0).count r.2) (fun _ => 0)
    (fun m r hm => ?_) horder.nodup ha (fun r hr => ?_) (s.net_eq_netWith a ▸ h.good) fun r => ?_
  · simp +contextual [Message.letter, hm]
  · rw [hr]
    exact ⟨(count_getorput ..).trans (hself r.2), rfl⟩
  · rw [horder.acquired, ite_self]
    rfl

/-- A send keeps the invariant, unless its trace does not end. -/
theorem Inv.send {dest : ActorId} {g : Graph} {rounds : Nat} {roots : List Child} (h : Inv s)
    (henabled : Enabled s (.send a dest g rounds roots order)) :
    (∃ s', s.act (.send a dest g rounds roots order) = .ok s' ∧ Inv s') ∨
      s.act (.send a dest g rounds roots order) = .error .endless := by
  obtain ⟨ha, hg, hroots, horder⟩ := henabled
  rw [Sys.act]
  cases hc : trace sendOps g rounds roots (Ctx.start a (s.gc a)) with
  | error e =>
    obtain ⟨rfl, -⟩ := (h.rest a).send_fault hc
    exact .inr rfl
  | ok c =>
    refine .inl ⟨_, rfl, ?_⟩
    have horder := horder c hc
    obtain ⟨sp, hrun, htally⟩ := (h.rest a).send_run hc
    have hA := hg.run hroots hrun
    have hcounted : ∀ r, (c.count r != (s.gc a).counts a r) = decide (r ∈ sp.seen) := by
      intro r
      rw [Bool.eq_iff_iff, bne_iff_ne, decide_eq_true_eq]
      exact htally.sent_ne_iff r
    refine h.setGc (Sys.postAll_gc ..) (Sys.postAll_actors ..) ha ?_ htally.wf.done ?_ ?_
    · -- the letters that acquire, then the one that carries the credits
      have hacquires := h.good_sendAcquire ha horder fun x => (htally.sent_own x).2
      rw [Sys.net_setGc, Sys.post_net _ a dest _ s.net.own
        fun r => (s.gc a).foreign.count r + c.acquire.count r]
      have hmember : a ∈ (s.sendAcquire a c.acquire order).actors :=
        (Sys.postAll_actors ..).symm ▸ ha
      have hsame : ∀ r, ((s.sendAcquire a c.acquire order).post a dest (.app g rounds roots
          fun r => c.count r != (s.gc a).counts a r)).net.own r = s.net.own r := by
        intro r
        show (((s.sendAcquire a c.acquire order).post a dest _).gc r.1).count r.2 = _
        rw [Sys.post_gc, Sys.sendAcquire, Sys.postAll_gc]
        rfl
      refine hacquires.post ⟨hmember, rfl, Finset.Subset.refl _, fun r _ => ⟨rfl, rfl⟩,
        fun r hr => ⟨rfl, rfl, ?_⟩, fun r hr => ⟨?_, ?_, .inr rfl⟩⟩
      · obtain ⟨d, x⟩ := r
        obtain rfl : d = a := hr
        show (if d = d then c.gc.done.count x else _) =
          (s.gc d).count x + (c.count (d, x) != (s.gc d).counts d (d, x)).toNat
        rw [if_pos rfl, hcounted, Gc.done_count]
        exact (htally.sent_own x).1
      · rw [if_neg hr]
        exact hsame r
      · simp only [Sys.netWith, update_self]
        show c.gc.foreign.count r + (c.count r != (s.gc a).counts a r).toNat + 0 = _ + 0
        rw [hcounted]
        exact (htally.sent_other hr).1
    · intro d hd x
      have hda : d ≠ a := fun e => hd (e ▸ ha)
      have hnot : (d, x) ∉ sp.seen := fun e => hd (hA _ e)
      obtain ⟨hn, hq⟩ := htally.sent_other (r := (d, x)) hda
      rw [hq hnot, decide_eq_false hnot, (h.unborn d hd).2] at hn
      exact hn
    · intro m hm
      rcases mem_append.1 hm with hm | hm
      · rcases Sys.mem_postAll hm with hm | ⟨b, hb⟩
        · exact h.bodies m hm
        · rw [hb]
          trivial
      · rw [mem_singleton] at hm
        rw [hm]
        exact ⟨sp, hrun, hA, hcounted⟩

/-! ### Collecting -/

/-- The letters that release what was swept. -/
theorem released_count (hreleases : ∀ b, b ∈ releases ↔ (gc.foreign.released gc.mark b).Released)
    (r : Res) : (if r.1 ∈ releases then (gc.foreign.released gc.mark r.1).count r.2 else 0) =
      (gc.foreign.released gc.mark r.1).count r.2 := by
  split
  · rfl
  rename_i hr
  rw [hreleases, ActorRef.Released] at hr
  push Not at hr
  obtain ⟨b, x⟩ := r
  cases x with
  | none => exact hr.1.symm
  | some p =>
    rw [ActorRef.count, ObjMap.count, hr.2 p]
    rfl

/-- A collection keeps the invariant, unless its trace does not end. -/
theorem Inv.collect {g : Graph} {rounds : Nat} {roots : List Child} {ps : List Addr} (h : Inv s)
    (henabled : Enabled s (.collect a g rounds roots ps order releases)) :
    (∃ s', s.act (.collect a g rounds roots ps order releases) = .ok s' ∧ Inv s') ∨
      s.act (.collect a g rounds roots ps order releases) = .error .endless := by
  obtain ⟨ha, hg, hroots, -, horders⟩ := henabled
  rw [Sys.act]
  rcases (h.rest a).mark_start.mark hg rounds hroots ps with ⟨c, hc, hmarks⟩ | hend
  · rw [hc]
    refine .inl ⟨_, rfl, ?_⟩
    obtain ⟨horder, hnodup, hreleases⟩ := horders c hc
    have hactors : (s.sendAcquire a c.acquire order).actors = s.actors := Sys.postAll_actors ..
    have hgcs : ((s.sendAcquire a c.acquire order).sendRelease a c.gc releases).gc = s.gc :=
      (Sys.postAll_gc ..).trans (Sys.postAll_gc ..)
    -- what is left of the credits, and what was released of them, are those there were
    have hheld : ∀ r : Res, c.gc.sweep.foreign.count r +
        (if r.1 ∈ releases then (c.gc.foreign.released c.gc.mark r.1).count r.2 else 0) =
          (s.gc a).foreign.count r + c.acquire.count r := by
      rintro ⟨d, x⟩
      rw [released_count hreleases]
      refine (count_sweep ..).trans ?_
      by_cases hd : d = a
      · subst hd
        rw [hmarks.wf.count_alone, (h.rest d).wf.count_alone, (hmarks.own x).2]
      · exact (hmarks.other (r := (d, x)) hd).1
    refine h.setGc hgcs ((Sys.postAll_actors ..).trans hactors) ha ?_ hmarks.wf.sweep.done ?_ ?_
    · have hacquires := h.good_sendAcquire ha horder fun x => (hmarks.own x).2
      have hself : ∀ x, (c.gc.foreign.released c.gc.mark a).count x = 0 := by
        intro x
        rw [released, hmarks.wf.alone]
        cases x <;> rfl
      have hreleased := Sys.good_postAll (fun b => .release (c.gc.foreign.released c.gc.mark b))
        (fun _ => 0) (fun r => (c.gc.foreign.released c.gc.mark r.1).count r.2)
        (fun m r hm => by simp +contextual [Message.letter, hm]) hnodup (hactors.symm ▸ ha)
        (fun r hr => ⟨rfl, hr ▸ hself r.2⟩) hacquires fun r => by simpa using hheld r
      have hown : (fun r : Res => if r.1 = a then c.gc.sweep.done.count r.2 else
          ((s.sendAcquire a c.acquire order).sendRelease a c.gc releases).net.own r) =
            s.net.own := by
        funext r
        by_cases hr : r.1 = a
        · obtain ⟨d, x⟩ := r
          obtain rfl : d = a := hr
          rw [if_pos rfl, Gc.done_count, Gc.count_sweep]
          exact (hmarks.own x).1
        rw [if_neg hr]
        show (((s.sendAcquire a c.acquire order).sendRelease a c.gc releases).gc r.1).count _ = _
        rw [hgcs]
        rfl
      rw [Sys.net_setGc, hown]
      exact hreleased
    · intro d hd x
      have hda : d ≠ a := fun e => hd (e ▸ ha)
      have hzero := hheld (d, x)
      rw [(hmarks.other (r := (d, x)) hda).2 hd, (h.unborn d hd).2] at hzero
      exact Nat.eq_zero_of_add_eq_zero_right hzero
    · intro m hm
      rcases Sys.mem_postAll hm with hm | ⟨b, hb⟩
      · rcases Sys.mem_postAll hm with hm | ⟨b, hb⟩
        · exact h.bodies m hm
        · rw [hb]
          trivial
      · rw [hb]
        exact fun p o ho => hmarks.wf.released ho
  · rw [hend]
    exact .inr rfl

/-! ### Handling a message -/

/-- A message that is handled is a letter that is delivered. -/
theorem Sys.net_receive {m : Message} {rest : List Message}
    (hown : ∀ x, gc.count x = (s.gc m.dest).count x + m.letter.plus (m.dest, x) -
      m.letter.minus (m.dest, x) - m.letter.carry (m.dest, x))
    (hheld : ∀ r : Res, gc.foreign.count r = if r.1 = m.dest then (s.gc m.dest).foreign.count r else
      (s.gc m.dest).foreign.count r + m.letter.carry r) : ((s.receive m rest).setGc m.dest gc).net =
      s.net.deliver fst m.letter (rest.map Message.letter) := by
  have hown' : (fun r : Res => if r.1 = m.dest then gc.count r.2 else s.net.own r) =
      (s.net.deliver fst m.letter (rest.map Message.letter)).own := by
    funext r
    by_cases hr : r.1 = m.dest
    · obtain ⟨d, x⟩ := r
      obtain rfl : d = m.dest := hr
      rw [if_pos rfl, hown x]
      exact (if_pos rfl).symm
    · rw [if_neg hr]
      exact (if_neg hr).symm
  have hheld' : gc.foreign.count = fun r : Res => if r.1 = m.letter.dest then
      s.net.held m.letter.dest r else s.net.held m.letter.dest r + m.letter.carry r :=
    funext hheld
  rw [Sys.net_setGc, Sys.netWith, hheld']
  show (⟨s.actors, fun r => if r.1 = m.dest then gc.count r.2 else s.net.own r, _, _, _, _⟩ :
    Net ActorId Res) = _
  rw [hown']
  rfl

/-- No message carries credits on an actor that does not exist. -/
theorem Message.carry_unborn {m : Message} (h : m.body.Ok A) {d : ActorId} (hd : d ∉ A)
    (x : Option Addr) : m.letter.carry (d, x) = 0 := by
  obtain ⟨id, dest, past, body⟩ := m
  cases body with
  | app g rounds roots counted =>
    obtain ⟨sp, -, hA, hcounted⟩ := h
    have hnot : (d, x) ∉ sp.seen := fun e => hd (hA _ e)
    show (counted (d, x)).toNat = 0
    rw [hcounted, decide_eq_false hnot]
    rfl
  | acquire ref | release ref => rfl

section
variable {m : Message} {rest : List Message} {ps : List Addr}

theorem Enabled.ready (henabled : Enabled s (.handle m rest ps)) :
    Ready s.net m.letter (rest.map Message.letter) := by
  obtain ⟨hmember, hperm, hfirst, -⟩ := henabled
  refine ⟨hmember, hperm.map Message.letter, fun k hk hdest => ?_⟩
  obtain ⟨k', hk', rfl⟩ := mem_map.1 hk
  exact hfirst k' hk' hdest

/-- The receiver makes of its counts what the letter says. -/
theorem Inv.handled (h : Inv s) (henabled : Enabled s (.handle m rest ps))
    (hgc : handleMessage m.dest (s.gc m.dest) ps m.body = .ok gc) (hrest : gc.Rest m.dest)
    (hown : ∀ x, gc.count x = (s.gc m.dest).count x + m.letter.plus (m.dest, x) -
      m.letter.minus (m.dest, x) - m.letter.carry (m.dest, x))
    (hheld : ∀ r : Res, gc.foreign.count r = if r.1 = m.dest then (s.gc m.dest).foreign.count r else
      (s.gc m.dest).foreign.count r + m.letter.carry r) :
    ∃ s', s.act (.handle m rest ps) = .ok s' ∧ Inv s' := by
  have hdeliver := h.good.deliver henabled.ready
  obtain ⟨hmember, hperm, -, -⟩ := henabled
  refine ⟨(s.receive m rest).setGc m.dest gc, ?_, ?_⟩
  · rw [Sys.act, hgc]
  refine h.setGc rfl rfl hmember ?_ hrest (fun d hd x => ?_) fun k hk => ?_
  · rw [Sys.net_receive hown hheld]
    exact hdeliver
  · have hne : d ≠ m.dest := fun e => hd (e ▸ hmember)
    have hbody := h.bodies m (hperm.mem_iff.2 (.head _))
    rw [hheld, if_neg hne, (h.unborn d hd).2, Message.carry_unborn hbody hd]
  · exact h.bodies k (hperm.mem_iff.2 (.tail _ hk))

theorem Inv.handle (h : Inv s) (henabled : Enabled s (.handle m rest ps)) :
    ∃ s', s.act (.handle m rest ps) = .ok s' ∧ Inv s' := by
  have henough : ∀ x, m.letter.minus (m.dest, x) + m.letter.carry (m.dest, x) ≤
      (s.gc m.dest).count x + m.letter.plus (m.dest, x) :=
    fun x => h.good.enough henabled.ready rfl
  have hrest := h.rest m.dest
  have hmem : m ∈ s.flight := henabled.2.1.mem_iff.2 (.head _)
  have hbody := h.bodies m hmem
  have hordered := henabled.2.2.2
  obtain ⟨id, dest, past, body⟩ := m
  cases body with
  | app g rounds roots counted =>
    obtain ⟨sp, hrun, -, hcounted⟩ := hbody
    have hneed : ∀ r ∈ sp.seen, Counted dest ((s.gc dest).counts dest) r := by
      rintro ⟨d, x⟩ hr hd
      obtain rfl : d = dest := hd
      have hcarry : 0 + (counted (d, x)).toNat ≤ (s.gc d).count x + 0 := henough x
      rw [hcounted, decide_eq_true hr, Nat.zero_add] at hcarry
      rw [Gc.counts_own]
      exact hcarry
    obtain ⟨c, hc⟩ := hrest.recv_ok hrun hneed
    obtain ⟨sp', hrun', htally⟩ := hrest.recv_run hc
    obtain rfl : sp = sp' := Option.some.inj (hrun.symm.trans hrun')
    have hok : handleMessage dest (s.gc dest) ps (.app g rounds roots counted) =
        .ok c.gc.done := by
      rw [handleMessage, hc]
    refine h.handled henabled hok htally.wf.done (fun x => ?_) fun r => ?_
    · show c.gc.done.count x = (s.gc dest).count x + 0 - 0 - (counted (dest, x)).toNat
      rw [hcounted, Gc.done_count, ← htally.received_own x]
      exact (Nat.add_sub_cancel ..).symm
    show c.gc.foreign.count r = if r.1 = dest then (s.gc dest).foreign.count r else
      (s.gc dest).foreign.count r + (counted r).toNat
    by_cases hr : r.1 = dest
    · obtain ⟨d, x⟩ := r
      obtain rfl : d = dest := hr
      rw [if_pos rfl, htally.wf.count_alone, hrest.wf.count_alone]
    · rw [if_neg hr, hcounted]
      exact htally.received_other hr
  | acquire ref =>
    obtain ⟨hrec, hcount⟩ := hrest.acquire hordered
    refine h.handled henabled rfl (hrest.recounted hrec) (fun x => ?_) fun r => ?_
    · show _ = (s.gc dest).count x + (if dest = dest then ref.count x else 0) - 0 - 0
      rw [if_pos rfl]
      exact hcount x
    show (acquire (s.gc dest) ref ps).foreign.count r = _
    rw [hrec.foreign]
    exact (ite_self _).symm
  | release ref =>
    have hle : ∀ x, ref.count x ≤ (s.gc dest).count x := by
      intro x
      have hx : (if dest = dest then ref.count x else 0) + 0 ≤ (s.gc dest).count x + 0 := henough x
      rw [if_pos rfl] at hx
      exact hx
    obtain ⟨gc', hgc', hrec, hcount⟩ := hrest.release hordered hbody hle
    refine h.handled henabled hgc' (hrest.recounted hrec) (fun x => ?_) fun r => ?_
    · show _ = (s.gc dest).count x + 0 - (if dest = dest then ref.count x else 0) - 0
      rw [if_pos rfl, ← hcount x]
      exact (Nat.add_sub_cancel ..).symm
    show gc'.foreign.count r = _
    rw [hrec.foreign]
    exact (ite_self _).symm

end

/-! ### Creating an actor -/

theorem createActor_count (gc : Gc) (a : ActorId) (r : Res) :
    (createActor gc a).foreign.count r = if r = (a, none) then incMore else gc.foreign.count r :=
  count_put (j := (gc.foreign.getorput a gc.mark).mark)

theorem createActor_rest (h : gc.Rest b) (hab : a ≠ b) : (createActor gc a).Rest b := by
  have hget : ∀ {d ref}, (createActor gc a).foreign d = some ref →
      ref.mark < gc.mark ∧ ∀ p o, ref.map p = some o → o.mark < gc.mark ∧ 0 < o.rc := by
    intro d ref hd
    rcases put_eq_some hd with ⟨-, rfl⟩ | hd
    · show (gc.foreign.getorput a gc.mark).mark < _ ∧ ∀ p o,
        (gc.foreign.getorput a gc.mark).map p = some o → _
      rw [getorput]
      cases hf : gc.foreign a with
      | none => exact ⟨sub_lt h.wf.mark one_pos, by rintro p o ⟨⟩⟩
      | some ref => exact ⟨h.refs hf, fun p o ho => ⟨h.objs hf ho, (h.wf.objs hf ho).2⟩⟩
    · exact ⟨h.refs hd, fun p o ho => ⟨h.objs hd ho, (h.wf.objs hd ho).2⟩⟩
  refine ⟨⟨h.wf.mark, h.wf.rcMark, h.wf.locals, ?_, fun hd => le_of_lt (hget hd).1,
    fun hd ho => ⟨le_of_lt ((hget hd).2 _ _ ho).1, ((hget hd).2 _ _ ho).2⟩⟩, h.rcMark, h.locals,
    fun hd => (hget hd).1, fun hd ho => ((hget hd).2 _ _ ho).1⟩
  show (gc.foreign.put a _) b = none
  rw [put, update_of_ne (Ne.symm hab)]
  exact h.wf.alone

theorem Sys.create_gc (s : Sys) (a b d : ActorId) : (s.create (some b) false a).gc d =
    if d = b then createActor (s.gc b) a
    else if d = a then { Gc.new with rc := incMore } else s.gc d := by
  show update (update s.gc a _) b _ d = _
  by_cases hd : d = b
  · subst hd
    rw [update_self, if_pos rfl]
  rw [update_of_ne hd, if_neg hd]
  by_cases hda : d = a
  · subst hda
    rw [update_self, if_pos rfl]
  · rw [update_of_ne hda, if_neg hda]

/-- The creator of an actor gets credits on it. -/
theorem Sys.create_net (hnew : s.gc a = Gc.new) (hba : b ≠ a)
    (hcount : (s.gc b).foreign.count (a, none) = 0) :
    (s.create (some b) false a).net = (s.net.join a).grant b (a, none) incMore := by
  have hown : (s.create (some b) false a).net.own =
      update s.net.own (a, none) (s.net.own (a, none) + incMore) := by
    funext ⟨d, x⟩
    have hzero : s.net.own (a, none) = 0 := congrArg Gc.rc hnew
    show ((s.create (some b) false a).gc d).count x = _
    rw [Sys.create_gc, hzero]
    by_cases hdb : d = b
    · have hne : (d, x) ≠ (a, none) := fun e => hba (hdb.symm.trans (congrArg fst e))
      rw [if_pos hdb, update_of_ne hne, ← hdb]
      cases x <;> rfl
    rw [if_neg hdb]
    by_cases hda : d = a
    · subst hda
      rw [if_pos rfl]
      cases x with
      | none =>
        rw [update_self]
        rfl
      | some p =>
        rw [update_of_ne (by simp)]
        exact (congrArg (Gc.count · (some p)) hnew).symm
    · have hne : (d, x) ≠ (a, none) := fun e => hda (congrArg fst e)
      rw [if_neg hda, update_of_ne hne]
      rfl
  have hheld : (s.create (some b) false a).net.held = update s.net.held b
      (update (s.net.held b) (a, none) (s.net.held b (a, none) + incMore)) := by
    funext d r
    have hzero : s.net.held b (a, none) = 0 := hcount
    show ((s.create (some b) false a).gc d).foreign.count r = _
    rw [Sys.create_gc, hzero]
    by_cases hdb : d = b
    · subst hdb
      rw [if_pos rfl, createActor_count, update_self, update_apply, zero_add]
      rfl
    rw [if_neg hdb, update_of_ne hdb]
    by_cases hda : d = a
    · subst hda
      rw [if_pos rfl]
      exact (congrArg (fun gc : Gc => gc.foreign.count r) hnew).symm
    · rw [if_neg hda]
      rfl
  rw [Net.grant, Net.join]
  rw [← hown, ← hheld]
  rfl

/-- An actor that is created is known to its creator, or to nobody. -/
theorem Inv.create {creator : Option ActorId} {orphaned : Bool} (h : Inv s)
    (henabled : Enabled s (.create creator orphaned a)) : Inv (s.create creator orphaned a) := by
  obtain ⟨ha, hcreator⟩ := henabled
  obtain ⟨hnew, hcount⟩ := h.unborn a ha
  have hjoin : Good fst (s.net.join a) := by
    refine h.good.join ha fun r => ?_
    show (s.gc a).foreign.count r = 0
    rw [hnew]
    rfl
  have hbodies : ∀ m ∈ s.flight, m.body.Ok (insert a s.actors) :=
    fun m hm => (h.bodies m hm).mono (Finset.subset_insert a s.actors)
  have horphan : Inv ({ s with actors := insert a s.actors }.setGc a Gc.new) := by
    have hsame : update s.gc a Gc.new = s.gc := by
      rw [← hnew]
      exact update_eq_self ..
    rw [Sys.setGc, hsame]
    exact ⟨hjoin, h.rest, fun d hd => h.unborn d fun e => hd (Finset.mem_insert_of_mem e), hbodies⟩
  cases creator with
  | none => exact horphan
  | some b =>
    cases orphaned with
    | true => exact horphan
    | false =>
      have hb : b ∈ s.actors := hcreator b rfl
      have hba : b ≠ a := fun e => ha (e ▸ hb)
      refine ⟨?_, fun d => ?_, fun d hd => ?_, hbodies⟩
      · rw [Sys.create_net hnew hba (hcount b none)]
        exact hjoin.grant (Finset.mem_insert_of_mem hb) (Ne.symm hba)
      · rw [Sys.create_gc]
        split
        · rename_i hdb
          rw [hdb]
          exact createActor_rest (h.rest b) (Ne.symm hba)
        split
        · exact Gc.new_rest incMore d
        · exact h.rest d
      have hda : d ≠ a := fun e => hd (e ▸ Finset.mem_insert_self a s.actors)
      have hd' : d ∉ s.actors := fun e => hd (Finset.mem_insert_of_mem e)
      have hdb : d ≠ b := fun e => hd' (e ▸ hb)
      obtain ⟨hdnew, hdcount⟩ := h.unborn d hd'
      refine ⟨?_, fun e x => ?_⟩
      · rw [Sys.create_gc, if_neg hdb, if_neg hda]
        exact hdnew
      rw [Sys.create_gc]
      split
      · have hne : (d, x) ≠ (a, none) := fun e => hda (congrArg fst e)
        rw [createActor_count, if_neg hne]
        exact hdcount b x
      split
      · rfl
      · exact hdcount e x

end

/-! ### Runs -/

/-- A step keeps the invariant, and stops for no other reason than a trace that does not end. -/
theorem Inv.act {s : Sys} {action : Action} (h : Inv s) (henabled : Enabled s action) :
    (∃ s', s.act action = .ok s' ∧ Inv s') ∨ s.act action = .error .endless := by
  cases action with
  | create creator orphaned a => exact .inl ⟨_, rfl, h.create henabled⟩
  | send a dest g rounds roots order => exact h.send henabled
  | collect a g rounds roots ps order releases => exact h.collect henabled
  | handle m rest ps => exact .inl (h.handle henabled)

theorem Reachable.inv {s : Sys} (h : Reachable s) : Inv s := by
  induction h with
  | init => exact inv_init
  | step _ henabled hact ih =>
    rcases ih.act henabled with ⟨s', hs', hinv⟩ | hend
    · rw [hs'] at hact
      cases hact
      exact hinv
    · rw [hend] at hact
      cases hact

/-! ### Results -/

/-- The counts of what `a` owns in the messages in flight that acquire from it. -/
def Sys.acquired (s : Sys) (a : ActorId) (x : Option Addr) : Nat :=
  (s.flight.map fun m =>
    match m.body with
    | .acquire ref => if m.dest = a then ref.count x else 0
    | _ => 0).sum

/-- The counts of what `a` owns in the messages in flight that release to it. -/
def Sys.released (s : Sys) (a : ActorId) (x : Option Addr) : Nat :=
  (s.flight.map fun m =>
    match m.body with
    | .release ref => if m.dest = a then ref.count x else 0
    | _ => 0).sum

def Message.counts (m : Message) (r : Res) : Bool :=
  match m.body with
  | .app _ _ _ counted => counted r
  | _ => false

/-- The number of messages in flight whose send trace counted a resource. -/
def Sys.counting (s : Sys) (r : Res) : Nat := s.flight.countP fun m => m.counts r

/-- The counts that the actors other than `a` have of what it owns. -/
def Sys.references (s : Sys) (a : ActorId) (x : Option Addr) : Nat :=
  ∑ b ∈ s.actors.erase a, (s.gc b).foreign.count (a, x)

section
variable {s : Sys}

theorem Sys.counting_eq (s : Sys) (r : Res) :
    s.counting r = ((s.flight.map Message.letter).map (·.carry r)).sum := by
  rw [Sys.counting]
  induction s.flight with
  | nil => rfl
  | cons m ms ih =>
    have hm : m.letter.carry r = (m.counts r).toNat := by
      obtain ⟨id, dest, past, body⟩ := m
      cases body <;> rfl
    rw [countP_cons, ih, map_cons, map_cons, sum_cons, hm]
    cases m.counts r with
    | true | false => exact add_comm _ _

/-- The counts of an owner and the messages about them are what the other actors have and what is on
its way to them. -/
theorem Inv.exact (h : Inv s) (a : ActorId) (x : Option Addr) :
    s.released a x + s.references a x + s.counting (a, x) = (s.gc a).count x + s.acquired a x := by
  have hbalanced := h.good.balanced (a, x)
  have hplus : s.acquired a x = ((s.flight.map Message.letter).map (·.plus (a, x))).sum := by
    rw [map_map]
    rfl
  have hminus : s.released a x = ((s.flight.map Message.letter).map (·.minus (a, x))).sum := by
    rw [map_map]
    rfl
  rw [hplus, hminus, Sys.counting_eq]
  exact hbalanced

/-- Two objects of the actor 1: the object at 10 has a field that refers to the one at 11. -/
def twoObjects : Graph :=
  ⟨fun p => if p = 10 ∨ p = 11 then some 1 else none, fun _ => some ⟨true, true, rfl⟩,
    fun p => if p = 10 then [.object 11 .traceMutable] else []⟩

theorem twoObjects_within {A : Finset ActorId} (h : 1 ∈ A) : twoObjects.Within A := by
  refine ⟨fun hp => ?_, fun p child hchild => ?_⟩
  · simp only [twoObjects] at hp
    split at hp <;> cases hp
    exact h
  · simp only [twoObjects] at hchild
    split at hchild
    · obtain rfl := mem_singleton.1 hchild
      trivial
    · cases hchild

/-- A map in which one key was put twice. -/
theorem lists_put_put (b : ActorId) (x : Option ActorRef) (ref : ActorRef) :
    Lists (update (update (fun _ => none) b x) b (some ref)) [b] := by
  rw [update_idem]
  refine ⟨nodup_singleton b, fun d => ?_⟩
  rw [mem_singleton]
  by_cases hd : d = b
  · rw [hd, update_self]
    exact iff_of_true rfl nofun
  · rw [update_of_ne hd]
    exact iff_of_false hd (not_not.2 rfl)

/-- The actor 1 has sent its objects to the actor 0 as mutable; 0 sends them on to 2 as immutable. -/
theorem reachable_sent : ∃ s s', Reachable s ∧ Reachable s' ∧
    s'.counting (1, some 11) = 1 ∧ s'.acquired 1 (some 11) = incMore ∧
    (((s.gc 0).foreign 1).bind (·.map 10)).map Obj.immutable = some false ∧
    ∃ c c', trace sendOps twoObjects 2 [.object 10 .traceImmutable] (Ctx.start 0 (s.gc 0)) = .ok c ∧
      trace recvOps twoObjects 2 [.object 10 .traceImmutable] (Ctx.start 2 (s.gc 2)) = .ok c' ∧
      ((c.acquire 1).bind (·.map 10)).map Obj.immutable = some true ∧
      c.count (1, some 11) ≠ (s.gc 0).counts 0 (1, some 11) := by
  have h₀ : Reachable (Sys.init.create none false 0) :=
    @Reachable.step _ _ (.create none false 0) .init ⟨Finset.notMem_empty 0, nofun⟩ rfl
  have h₁ := @Reachable.step _ _ (.create (some 0) false 1) h₀
    ⟨by decide, by simp only [Option.mem_some_iff, forall_eq']; decide⟩ rfl
  have h₂ := @Reachable.step _ _ (.create (some 0) false 2) h₁
    ⟨by decide, by simp only [Option.mem_some_iff, forall_eq']; decide⟩ rfl
  have h₃ := @Reachable.step _ _ (.send 1 0 twoObjects 2 [.object 10 .traceMutable] []) h₂
    ⟨by decide, twoObjects_within (by decide), forall_mem_singleton.2 trivial,
      fun c hc => by cases hc; exact ⟨nodup_nil, fun b => iff_of_false not_mem_nil (not_not.2 rfl)⟩⟩
    rfl
  have h₄ := @Reachable.step _ _ (.handle _ [] []) h₃ ⟨by decide, Perm.refl _, nofun, trivial⟩ rfl
  have h₅ := @Reachable.step _ _ (.send 0 2 twoObjects 2 [.object 10 .traceImmutable] [1]) h₄
    ⟨by decide, twoObjects_within (by decide), forall_mem_singleton.2 trivial,
      fun c hc => by cases hc; exact lists_put_put 1 _ _⟩ rfl
  exact ⟨_, _, h₄, h₅, by decide, by decide, by decide, _, _, rfl, rfl, by decide, by decide⟩

/-- **The counts of an actor and of its objects cover what other actors have of them and what is in
messages to them**, and no step of an actor fails an assertion or takes a count below zero: it goes
on, unless it is a trace that does not end. -/
theorem Reachable.safety (h : Reachable s) :
    (∀ a x, ((s.gc a).count x : ℤ) + s.acquired a x - s.released a x ≥
      s.references a x + s.counting (a, x)) ∧
    (∀ action, Enabled s action → (∃ s', s.act action = .ok s') ∨ s.act action = .error .endless) ∧
    ∀ m rest ps, Enabled s (.handle m rest ps) → ∃ s', s.act (.handle m rest ps) = .ok s' := by
  refine ⟨fun a x => ?_, fun action henabled => ?_, fun m rest ps henabled => ?_⟩
  · have hexact := h.inv.exact a x
    omega
  · rcases h.inv.act henabled with ⟨s', hs', -⟩ | hend
    · exact .inl ⟨s', hs'⟩
    · exact .inr hend
  · obtain ⟨s', hs', -⟩ := h.inv.handle henabled
    exact ⟨s', hs'⟩

/-- An object of actor 1 in a message that has not arrived. -/
theorem safety_sent : ∃ s, Reachable s ∧ s.counting (1, some 11) = 1 ∧
    ((s.gc 1).count (some 11) : ℤ) + s.acquired 1 (some 11) - s.released 1 (some 11) ≥
      s.references 1 (some 11) + s.counting (1, some 11) := by
  obtain ⟨-, s, -, hs, hcounting, -⟩ := reachable_sent
  exact ⟨s, hs, hcounting, hs.safety.1 1 (some 11)⟩

/-- **The send trace and the receive trace of a message adjust the same counts**, whatever the two
actors knew before, and so in every system the counts of an owner are exactly what other actors have
and what is in messages to them. -/
theorem traces_agree :
    (∀ {g : Graph} {n n' : Nat} {roots : List Child} {a b : ActorId} {gc gc' : Gc} {c c' : Ctx},
      gc.Rest a → gc'.Rest b → trace sendOps g n roots (Ctx.start a gc) = .ok c →
      trace recvOps g n' roots (Ctx.start b gc') = .ok c' →
      ∀ r, c.count r ≠ gc.counts a r ↔ c'.count r ≠ gc'.counts b r) ∧
    ∀ {s : Sys}, Reachable s → (∀ a, (s.gc a).Rest a) ∧ ∀ a x,
      s.released a x + s.references a x + s.counting (a, x) =
        (s.gc a).count x + s.acquired a x := by
  refine ⟨fun hgc hgc' hc hc' r => ?_, fun h => ⟨h.inv.rest, h.inv.exact⟩⟩
  obtain ⟨sp, hrun, htally⟩ := hgc.send_run hc
  obtain ⟨sp', hrun', htally'⟩ := hgc'.recv_run hc'
  obtain rfl := Graph.handle_unique hrun hrun'
  rw [htally.sent_ne_iff, htally'.received_ne_iff]

/-- A graph of two objects sent on as immutable after it was received mutable, so that both
sides recurse, and a run in which the owner is asked for more. -/
theorem traces_agree_sent :
    (∃ s c c', Reachable s ∧
      trace sendOps twoObjects 2 [.object 10 .traceImmutable] (Ctx.start 0 (s.gc 0)) = .ok c ∧
      trace recvOps twoObjects 2 [.object 10 .traceImmutable] (Ctx.start 2 (s.gc 2)) = .ok c' ∧
      (((s.gc 0).foreign 1).bind (·.map 10)).map Obj.immutable = some false ∧
      ((c.acquire 1).bind (·.map 10)).map Obj.immutable = some true ∧
      c.count (1, some 11) ≠ (s.gc 0).counts 0 (1, some 11) ∧
      ∀ r, c.count r ≠ (s.gc 0).counts 0 r ↔ c'.count r ≠ (s.gc 2).counts 2 r) ∧
    ∃ s, Reachable s ∧ s.counting (1, some 11) = 1 ∧ s.acquired 1 (some 11) = incMore ∧
      s.released 1 (some 11) + s.references 1 (some 11) + s.counting (1, some 11) =
        (s.gc 1).count (some 11) + s.acquired 1 (some 11) := by
  obtain ⟨s, s', hs, hs', hcounting, hacquired, hbefore, c, c', hc, hc', hafter, hcount⟩ :=
    reachable_sent
  have hrest := (traces_agree.2 hs).1
  exact ⟨⟨s, c, c', hs, hc, hc', hbefore, hafter, hcount,
    traces_agree.1 (hrest 0) (hrest 2) hc hc'⟩, s', hs', hcounting, hacquired,
    (traces_agree.2 hs').2 1 (some 11)⟩

end

end SpacePony.Orca
