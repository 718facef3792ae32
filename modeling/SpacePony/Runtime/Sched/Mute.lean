import Mathlib.Data.Set.Card
import Mathlib.Logic.Function.Basic

/-!
# Runtime — muting the senders of an overloaded actor

An actor that sends to an overloaded actor is muted: the scheduler that runs it puts it into the
mute set of the receiver, in its own mute map, and the actor is not run again while its `muted`
count is above 0.  Unmuting a receiver takes its entry out of the mute map of a scheduler, and
adds the senders whose count drops to 0 to a run queue.

* `Event`: an actor starts or ends its turn on a scheduler, mutes itself, or a scheduler handles a
  `SCHED_UNMUTE_ACTOR`.  `Reach` has every order of these.
* **`muted_exact`**: in every run the count of an actor is the number of its entries, which are all
  in the mute map of one scheduler, and unmuting does what it should.
-/

namespace SpacePony.Sched

open Set
open Function (update update_of_ne update_self)

variable {S A : Type} [DecidableEq S] [DecidableEq A]

/-- What the schedulers and the actors hold. -/
structure MuteState (S A : Type) where
  /-- `sched->mute_mapping`, of each scheduler. -/
  muteMapping : S → A → Option (List A) := fun _ _ => none
  /-- `actor->muted`. -/
  muted : A → Nat := fun _ => 0
  /-- `ACTOR_SYNC_FLAG_MUTED`. -/
  flag : A → Bool := fun _ => false
  /-- `ctx->current`, the actor that a scheduler runs. -/
  current : S → Option A := fun _ => none
  /-- What unmuting has added to the run queues, with the scheduler that did. -/
  runQueue : List (S × A) := []
  /-- The actors for which a global unmute was started. -/
  globalUnmutes : List A := []

namespace MuteState

/-- One entry of a mute map. -/
def setEntry (m : S → A → Option (List A)) (sched : S) (recv : A) (set : Option (List A)) :
    S → A → Option (List A) :=
  update m sched (update (m sched) recv set)

/-- The mute set of a receiver, which is empty when there is no entry. -/
def senders (st : MuteState S A) (sched : S) (recv : A) : List A :=
  (st.muteMapping sched recv).getD []

/-- `ponyint_sched_mute`; a receiver without an entry gets an empty one. -/
def schedMute (st : MuteState S A) (sched : S) (sender recv : A) : MuteState S A :=
  let set := st.senders sched recv
  if sender ∈ set then st
  else
    { st with
      muteMapping := setEntry st.muteMapping sched recv (some (sender :: set))
      muted := update st.muted sender (st.muted sender + 1) }

/-- The loop over a mute set: the counts, and the stack of the actors that need unmuting.  There is
no result when the assertion fails. -/
def collectUnmuted : List A → (A → Nat) → List A → Option ((A → Nat) × List A)
  | [], muted, needsUnmuting => some (muted, needsUnmuting)
  | a :: rest, muted, needsUnmuting =>
    if 0 < muted a then
      let muted := update muted a (muted a - 1)
      collectUnmuted rest muted (if muted a = 0 then a :: needsUnmuting else needsUnmuting)
    else none

/-- `sched_reschedule_unmuted`. -/
def rescheduleUnmuted (sched : S) (st : MuteState S A) (actor : A) : MuteState S A :=
  { st with
    flag := update st.flag actor false
    runQueue := st.runQueue ++ [(sched, actor)]
    globalUnmutes := st.globalUnmutes ++ [actor] }

/-- `ponyint_sched_unmute_senders`: whether actors were rescheduled, and what is left. -/
def schedUnmuteSenders (st : MuteState S A) (sched : S) (actor : A) :
    Option (Bool × MuteState S A) :=
  match st.muteMapping sched actor with
  | none => some (false, st)
  | some set => do
      let (muted, needsUnmuting) ← collectUnmuted set st.muted []
      let st := { st with muted, muteMapping := setEntry st.muteMapping sched actor none }
      return (!needsUnmuting.isEmpty, needsUnmuting.foldl (rescheduleUnmuted sched) st)

/-- A scheduler starts to run an actor. -/
def startTurn (st : MuteState S A) (sched : S) (actor : A) : MuteState S A :=
  { st with current := update st.current sched (some actor) }

/-- The end of a turn: `maybe_should_mute`. -/
def stopTurn (st : MuteState S A) (sched : S) (actor : A) : MuteState S A :=
  { st with
    current := update st.current sched none
    flag := if 0 < st.muted actor then update st.flag actor true else st.flag }

end MuteState

/-- The steps of a run. -/
inductive MuteEvent (S A : Type) where
  /-- A scheduler starts to run an actor. -/
  | run (sched : S) (actor : A)
  /-- The actor that a scheduler runs sends to a receiver that triggers muting. -/
  | mute (sched : S) (recv : A)
  /-- The turn of the actor that a scheduler runs ends. -/
  | stop (sched : S)
  /-- A scheduler handles a `SCHED_UNMUTE_ACTOR`, between two turns. -/
  | unmute (sched : S) (actor : A)

open MuteState

/-- One step, if it can be taken.  A scheduler runs one actor at a time, an actor is run by one
scheduler at a time, and no actor is run while its count is above 0. -/
inductive MuteStep : MuteState S A → MuteEvent S A → MuteState S A → Prop
  | run {st : MuteState S A} {sched : S} {actor : A} (idle : st.current sched = none)
      (alone : ∀ s, st.current s ≠ some actor) (unmuted : st.muted actor = 0) :
      MuteStep st (.run sched actor) (st.startTurn sched actor)
  | mute {st : MuteState S A} {sched : S} {sender recv : A}
      (running : st.current sched = some sender) (ne : sender ≠ recv) :
      MuteStep st (.mute sched recv) (st.schedMute sched sender recv)
  | stop {st : MuteState S A} {sched : S} {actor : A} (running : st.current sched = some actor) :
      MuteStep st (.stop sched) (st.stopTurn sched actor)
  | unmute {st st' : MuteState S A} {sched : S} {actor : A} {b : Bool}
      (idle : st.current sched = none) (e : st.schedUnmuteSenders sched actor = some (b, st')) :
      MuteStep st (.unmute sched actor) st'

/-- The states of all runs. -/
inductive MuteReach : MuteState S A → Prop
  | start : MuteReach {}
  | step {st st' : MuteState S A} {e : MuteEvent S A} (r : MuteReach st) (h : MuteStep st e st') :
      MuteReach st'

/-- The mute sets that have an actor. -/
def entries (st : MuteState S A) (a : A) : Set (S × A) :=
  {p | ∃ set, st.muteMapping p.1 p.2 = some set ∧ a ∈ set}

/-- The invariant: counts are exact, the entries of an actor are with one scheduler, which is the
one that runs it if it is running, and an actor is in a mute set once. -/
structure MuteInv (st : MuteState S A) : Prop where
  finite : ∀ a, (entries st a).Finite
  count : ∀ a, (entries st a).ncard = st.muted a
  home : ∀ a, ∀ p ∈ entries st a, ∀ q ∈ entries st a, p.1 = q.1
  running : ∀ s a, st.current s = some a → ∀ p ∈ entries st a, p.1 = s
  alone : ∀ s s' a, st.current s = some a → st.current s' = some a → s = s'
  nodup : ∀ s r set, st.muteMapping s r = some set → set.Nodup

/-! ### What the functions do -/

section
variable {st st' : MuteState S A} {s sched : S} {a r sender recv actor : A}

theorem setEntry_self (m : S → A → Option (List A)) (set : Option (List A)) :
    setEntry m sched recv set sched recv = set := by
  rw [setEntry, update_self, update_self]

theorem setEntry_of_ne (m : S → A → Option (List A)) (set : Option (List A))
    (h : (s, r) ≠ (sched, recv)) : setEntry m sched recv set s r = m s r := by
  rw [setEntry]
  by_cases hs : s = sched
  · subst hs
    rw [update_self, update_of_ne fun e => h (by rw [e])]
  · rw [update_of_ne hs]

/-- The loop over a mute set decrements the counts, and collects those that drop to 0. -/
theorem collectUnmuted_spec {set : List A} (hnd : set.Nodup) (muted : A → Nat)
    (hpos : ∀ a ∈ set, 0 < muted a) (stack : List A) :
    ∃ muted' new, collectUnmuted set muted stack = some (muted', new ++ stack) ∧ new.Nodup ∧
      (∀ a, muted' a = if a ∈ set then muted a - 1 else muted a) ∧
      ∀ a, a ∈ new ↔ a ∈ set ∧ muted a = 1 := by
  induction set generalizing muted stack with
  | nil => exact ⟨muted, [], rfl, List.nodup_nil, fun a => by simp, fun a => by simp⟩
  | cons b rest ih =>
    obtain ⟨hb, hrest⟩ := List.nodup_cons.1 hnd
    have hb0 := hpos b (.head _)
    have hother : ∀ a ∈ rest, update muted b (muted b - 1) a = muted a := by
      intro a ha
      have hne : a ≠ b := fun e => hb (e ▸ ha)
      rw [update_of_ne hne]
    obtain ⟨muted', new, hrun, hnew, hmuted, hmem⟩ := ih hrest
      (update muted b (muted b - 1))
      (fun a ha => by rw [hother a ha]; exact hpos a (.tail _ ha))
      (if muted b - 1 = 0 then b :: stack else stack)
    have hcount : ∀ a, muted' a = if a ∈ b :: rest then muted a - 1 else muted a := by
      intro a
      rw [hmuted]
      by_cases hab : a = b
      · subst hab
        rw [if_neg hb, update_self, if_pos (.head _)]
      · simp [hab]
    have hin : ∀ a, a ∈ new → a ∈ rest ∧ muted a = 1 := fun a ha => by
      obtain ⟨har, h1⟩ := (hmem a).1 ha
      exact ⟨har, by rwa [hother a har] at h1⟩
    have hin' : ∀ a, a ∈ rest → muted a = 1 → a ∈ new := fun a har h1 =>
      (hmem a).2 ⟨har, by rwa [hother a har]⟩
    by_cases h1 : muted b = 1
    · refine ⟨muted', new ++ [b], ?_, ?_, hcount, fun a => ?_⟩
      · rw [collectUnmuted, if_pos hb0]
        simp only [update_self]
        rw [hrun, if_pos (by omega), List.append_assoc, List.singleton_append]
      · rw [List.nodup_append]
        refine ⟨hnew, List.nodup_singleton b, ?_⟩
        intro a ha c hc e
        rw [List.mem_singleton] at hc
        exact hb ((e.trans hc) ▸ (hin a ha).1)
      rw [List.mem_append, List.mem_singleton, List.mem_cons]
      constructor
      · rintro (ha | rfl)
        · exact ⟨.inr (hin a ha).1, (hin a ha).2⟩
        · exact ⟨.inl rfl, h1⟩
      rintro ⟨rfl | ha, h⟩
      · exact .inr rfl
      · exact .inl (hin' a ha h)
    refine ⟨muted', new, ?_, hnew, hcount, fun a => ?_⟩
    · rw [collectUnmuted, if_pos hb0]
      simp only [update_self]
      rw [hrun, if_neg (by omega)]
    rw [List.mem_cons]
    constructor
    · exact fun ha => ⟨.inr (hin a ha).1, (hin a ha).2⟩
    rintro ⟨rfl | ha, h⟩
    · exact absurd h h1
    · exact hin' a ha h

omit [DecidableEq S] in
/-- Rescheduling touches flags, queues and broadcasts only. -/
theorem foldl_rescheduleUnmuted (sched : S) (l : List A) (st : MuteState S A) :
    ∃ flag, l.foldl (rescheduleUnmuted sched) st =
      { st with
        flag := flag
        runQueue := st.runQueue ++ l.map fun a => (sched, a)
        globalUnmutes := st.globalUnmutes ++ l } := by
  induction l generalizing st with
  | nil => exact ⟨st.flag, by simp⟩
  | cons a l ih =>
    obtain ⟨flag, e⟩ := ih (rescheduleUnmuted sched st a)
    refine ⟨flag, ?_⟩
    rw [List.foldl_cons, e]
    simp [rescheduleUnmuted]

omit [DecidableEq S] [DecidableEq A] in
theorem mem_entries {p : S × A} :
    p ∈ entries st a ↔ ∃ set, st.muteMapping p.1 p.2 = some set ∧ a ∈ set :=
  Iff.rfl

omit [DecidableEq S] [DecidableEq A] in
theorem mem_senders : a ∈ st.senders s r ↔ (s, r) ∈ entries st a := by
  rw [mem_entries, senders]
  cases st.muteMapping s r with
  | none | some set => simp

/-- Muting adds an entry for the sender. -/
theorem entries_schedMute : entries (st.schedMute sched sender recv) a =
      if a = sender then insert (sched, recv) (entries st a) else entries st a := by
  rw [schedMute]
  by_cases hin : sender ∈ st.senders sched recv
  · rw [if_pos hin]
    split_ifs with ha
    · subst ha
      exact (insert_eq_of_mem (mem_senders.1 hin)).symm
    · rfl
  rw [if_neg hin]
  ext ⟨s, r⟩
  simp only [mem_entries]
  by_cases hp : (s, r) = (sched, recv)
  · cases hp
    rw [setEntry_self]
    have hset : a ∈ st.senders sched recv ↔ (sched, recv) ∈ entries st a := mem_senders
    by_cases ha : a = sender
    · simp [ha]
    · rw [if_neg ha, ← hset]
      simp [ha]
  rw [setEntry_of_ne _ _ hp, ← mem_entries (p := (s, r))]
  split_ifs with ha
  · rw [mem_insert_iff, or_iff_right hp]
  · exact Iff.rfl

omit [DecidableEq S] [DecidableEq A] in
theorem MuteInv.muted_pos (I : MuteInv st) (h : a ∈ st.senders s r) : 0 < st.muted a := by
  rw [← I.count a]
  exact (ncard_pos (I.finite a)).2 ⟨_, mem_senders.1 h⟩

/-- **Unmuting** takes the entry of the receiver away, decrements the count of each of its senders,
and reschedules those whose count drops to 0. -/
theorem MuteInv.unmute (I : MuteInv st) (sched : S) (actor : A) :
    ∃ (b : Bool) (st' : MuteState S A) (new : List A),
      st.schedUnmuteSenders sched actor = some (b, st') ∧
      st'.muteMapping = setEntry st.muteMapping sched actor none ∧ st'.current = st.current ∧
      st'.runQueue = st.runQueue ++ new.map (fun a => (sched, a)) ∧ new.Nodup ∧
      (∀ a, st'.muted a = if a ∈ st.senders sched actor then st.muted a - 1 else st.muted a) ∧
      ∀ a, a ∈ new ↔ a ∈ st.senders sched actor ∧ st.muted a = 1 := by
  rw [schedUnmuteSenders]
  cases hmap : st.muteMapping sched actor with
  | none =>
    have hnone : st.senders sched actor = [] := by rw [senders, hmap]; rfl
    refine ⟨false, st, [], rfl, ?_, rfl, by simp, List.nodup_nil, fun a => ?_, fun a => ?_⟩
    · funext s r
      by_cases hp : (s, r) = (sched, actor)
      · cases hp
        rw [setEntry_self, hmap]
      · rw [setEntry_of_ne _ _ hp]
    · rw [hnone, if_neg List.not_mem_nil]
    · simp [hnone]
  | some set =>
    have hset : st.senders sched actor = set := by rw [senders, hmap]; rfl
    have hpos : ∀ a ∈ set, 0 < st.muted a := fun a ha => I.muted_pos (hset ▸ ha)
    obtain ⟨muted', new, hrun, hnew, hmuted, hin⟩ :=
      collectUnmuted_spec (I.nodup _ _ _ hmap) st.muted hpos []
    rw [List.append_nil] at hrun
    obtain ⟨flag, hfold⟩ := foldl_rescheduleUnmuted sched new { st with
      muted := muted', muteMapping := setEntry st.muteMapping sched actor none }
    refine ⟨!new.isEmpty, new.foldl (rescheduleUnmuted sched) { st with
        muted := muted', muteMapping := setEntry st.muteMapping sched actor none }, new, ?_,
      by rw [hfold], by rw [hfold], by rw [hfold], hnew, fun a => ?_, fun a => ?_⟩
    · simp only [hrun, Option.bind_eq_bind, Option.bind_some]
      rfl
    · rw [hfold, hset, ← hmuted]
    · rw [hin, hset]

/-- The entries that are left after unmuting. -/
theorem entries_unmute (h : st'.muteMapping = setEntry st.muteMapping sched actor none) :
    entries st' a = entries st a \ {(sched, actor)} := by
  ext ⟨s, r⟩
  rw [mem_sdiff, mem_singleton_iff, mem_entries, mem_entries, h]
  by_cases hp : (s, r) = (sched, actor)
  · cases hp
    simp [setEntry_self]
  · simp only [setEntry_of_ne _ _ hp, hp, not_false_eq_true, and_true]

end

/-! ### Whole runs -/

section
variable {st st' : MuteState S A} {sched : S} {sender recv actor : A}

omit [DecidableEq S] [DecidableEq A] in
theorem muteInv_start : MuteInv ({} : MuteState S A) := by
  have hnone : ∀ a : A, entries ({} : MuteState S A) a = ∅ := by
    intro a
    ext p
    simp [mem_entries]
  refine ⟨fun a => ?_, fun a => ?_, fun a => ?_, nofun, nofun, nofun⟩
  · rw [hnone]
    exact finite_empty
  · rw [hnone, ncard_empty]
  · rw [hnone]
    simp

omit [DecidableEq A] in
theorem current_startTurn {s : S} {a : A} (h : (st.startTurn sched actor).current s = some a) :
    (s = sched ∧ a = actor) ∨ st.current s = some a := by
  rw [startTurn] at h
  by_cases hs : s = sched
  · subst hs
    simp only [update_self, Option.some.injEq] at h
    exact .inl ⟨rfl, h.symm⟩
  · simp only [update_of_ne hs] at h
    exact .inr h

omit [DecidableEq A] in
/-- The actor that a scheduler starts to run has no entries. -/
theorem MuteInv.run (I : MuteInv st) (alone : ∀ s, st.current s ≠ some actor)
    (unmuted : st.muted actor = 0) : MuteInv (st.startTurn sched actor) := by
  have hempty : entries (st.startTurn sched actor) actor = ∅ :=
    (ncard_eq_zero (I.finite actor)).1 ((I.count actor).trans unmuted)
  refine ⟨I.finite, I.count, I.home, fun s a hs p hp => ?_, fun s s' a hs hs' => ?_, I.nodup⟩
  · rcases current_startTurn hs with ⟨-, rfl⟩ | hs
    · rw [hempty] at hp
      exact absurd hp (notMem_empty p)
    · exact I.running s a hs p hp
  rcases current_startTurn hs with ⟨hs, ha⟩ | hs <;>
    rcases current_startTurn hs' with ⟨hs', ha'⟩ | hs'
  · rw [hs, hs']
  · exact absurd (ha ▸ hs') (alone s')
  · exact absurd (ha' ▸ hs) (alone s)
  · exact I.alone s s' a hs hs'

theorem schedMute_muted (st : MuteState S A) (a : A) : (st.schedMute sched sender recv).muted a =
      if a = sender ∧ sender ∉ st.senders sched recv then st.muted a + 1 else st.muted a := by
  rw [schedMute]
  by_cases hin : sender ∈ st.senders sched recv
  · simp [hin]
  by_cases ha : a = sender
  · subst ha
    simp [hin]
  · simp [hin, ha]

theorem schedMute_current (st : MuteState S A) :
    (st.schedMute sched sender recv).current = st.current := by
  rw [schedMute]
  split_ifs <;> rfl

theorem schedMute_nodup (I : MuteInv st) {s : S} {r : A} {set : List A}
    (h : (st.schedMute sched sender recv).muteMapping s r = some set) : set.Nodup := by
  rw [schedMute] at h
  split_ifs at h with hin
  · exact I.nodup _ _ _ h
  dsimp only at h
  by_cases hp : (s, r) = (sched, recv)
  · cases hp
    rw [setEntry_self] at h
    cases h
    refine List.nodup_cons.2 ⟨hin, ?_⟩
    rw [senders]
    cases hm : st.muteMapping sched recv with
    | none => exact List.nodup_nil
    | some l => exact I.nodup _ _ _ hm
  · rw [setEntry_of_ne _ _ hp] at h
    exact I.nodup _ _ _ h

/-- All the entries of a sender are with the scheduler that runs it, and so is the new one. -/
theorem MuteInv.mute (I : MuteInv st) (running : st.current sched = some sender) :
    MuteInv (st.schedMute sched sender recv) := by
  have hent : ∀ a, entries (st.schedMute sched sender recv) a =
      if a = sender then insert (sched, recv) (entries st a) else entries st a :=
    fun _ => entries_schedMute
  have hhome : ∀ p ∈ entries (st.schedMute sched sender recv) sender, p.1 = sched := by
    intro p hp
    rw [hent, if_pos rfl] at hp
    rcases hp with rfl | hp
    · rfl
    · exact I.running _ _ running p hp
  refine ⟨fun a => ?_, fun a => ?_, fun a p hp q hq => ?_, fun s a hs p hp => ?_,
    fun s s' a hs hs' => ?_, fun _ _ _ => schedMute_nodup I⟩
  · rw [hent]
    split_ifs
    · exact (I.finite a).insert _
    · exact I.finite a
  · rw [hent, schedMute_muted]
    by_cases ha : a = sender
    · subst ha
      rw [if_pos rfl]
      by_cases hin : a ∈ st.senders sched recv
      · rw [insert_eq_of_mem (mem_senders.1 hin), if_neg fun h => h.2 hin, I.count]
      · rw [ncard_insert_of_notMem (mt mem_senders.2 hin) (I.finite a), if_pos ⟨rfl, hin⟩, I.count]
    · rw [if_neg ha, if_neg fun h => ha h.1, I.count]
  · by_cases ha : a = sender
    · subst ha
      rw [hhome p hp, hhome q hq]
    · rw [hent, if_neg ha] at hp hq
      exact I.home a p hp q hq
  · rw [schedMute_current] at hs
    by_cases ha : a = sender
    · subst ha
      rw [hhome p hp, I.alone _ _ _ running hs]
    · rw [hent, if_neg ha] at hp
      exact I.running s a hs p hp
  · rw [schedMute_current] at hs hs'
    exact I.alone s s' a hs hs'

theorem MuteInv.stop (I : MuteInv st) : MuteInv (st.stopTurn sched actor) := by
  have hcur : ∀ s a, (st.stopTurn sched actor).current s = some a → st.current s = some a := by
    intro s a hs
    rw [stopTurn] at hs
    by_cases he : s = sched
    · subst he
      simp at hs
    · simpa [he] using hs
  exact ⟨I.finite, I.count, I.home, fun s a hs => I.running s a (hcur s a hs),
    fun s s' a hs hs' => I.alone s s' a (hcur s a hs) (hcur s' a hs'), I.nodup⟩

theorem MuteInv.unmuted (I : MuteInv st)
    (hmap : st'.muteMapping = setEntry st.muteMapping sched actor none)
    (hcur : st'.current = st.current) (hmuted : ∀ a, st'.muted a =
      if a ∈ st.senders sched actor then st.muted a - 1 else st.muted a) : MuteInv st' := by
  have hent := fun a => entries_unmute (a := a) hmap
  have hsub : ∀ a, ∀ p ∈ entries st' a, p ∈ entries st a := fun a p hp => by
    rw [hent] at hp
    exact hp.1
  refine ⟨fun a => ?_, fun a => ?_, fun a p hp q hq => I.home a p (hsub a p hp) q (hsub a q hq),
    fun s a hs p hp => I.running s a (hcur ▸ hs) p (hsub a p hp),
    fun s s' a hs hs' => I.alone s s' a (hcur ▸ hs) (hcur ▸ hs'), fun s r set hset => ?_⟩
  · exact (I.finite a).subset (hsub a)
  · rw [hent, hmuted]
    split_ifs with hin
    · rw [ncard_sdiff_singleton_of_mem (mem_senders.1 hin), I.count]
    · rw [sdiff_singleton_eq_self (mt mem_senders.2 hin), I.count]
  rw [hmap] at hset
  by_cases hp : (s, r) = (sched, actor)
  · cases hp
    rw [setEntry_self] at hset
    cases hset
  · rw [setEntry_of_ne _ _ hp] at hset
    exact I.nodup _ _ _ hset

theorem MuteInv.step {e : MuteEvent S A} (I : MuteInv st) (h : MuteStep st e st') :
    MuteInv st' := by
  cases h with
  | run _ alone unmuted => exact I.run alone unmuted
  | mute running _ => exact I.mute running
  | stop _ => exact I.stop
  | @unmute _ sched actor _ _ e =>
    obtain ⟨b, st₁, new, hrun, hmap, hcur, -, -, hmuted, -⟩ := I.unmute sched actor
    rw [hrun] at e
    cases e
    exact I.unmuted hmap hcur hmuted

theorem MuteReach.inv (r : MuteReach st) : MuteInv st := by
  induction r with
  | start => exact muteInv_start
  | step _ h ih => exact ih.step h

/-- **Mute accounting is exact.**  In every run, the count of an actor is the number of its entries,
and they are all in the mute map of one scheduler.  Unmuting a receiver fails no assertion, removes
its entry and no other, and adds an actor to the run queue once for its count dropping to 0. -/
theorem muted_exact (r : MuteReach st) :
    (∀ a, (entries st a).Finite ∧ (entries st a).ncard = st.muted a ∧
      ∀ p ∈ entries st a, ∀ q ∈ entries st a, p.1 = q.1) ∧
    ∀ sched recv, ∃ (b : Bool) (st' : MuteState S A) (new : List A),
      st.schedUnmuteSenders sched recv = some (b, st') ∧
      (st'.muteMapping sched recv = none ∧
        ∀ s r, (s, r) ≠ (sched, recv) → st'.muteMapping s r = st.muteMapping s r) ∧
      st'.runQueue = st.runQueue ++ new.map (fun a => (sched, a)) ∧ new.Nodup ∧
      ∀ a, a ∈ new ↔ 0 < st.muted a ∧ st'.muted a = 0 := by
  have I := r.inv
  refine ⟨fun a => ⟨I.finite a, I.count a, I.home a⟩, fun sched recv => ?_⟩
  obtain ⟨b, st', new, hrun, hmap, -, hqueue, hnew, hmuted, hin⟩ := I.unmute sched recv
  refine ⟨b, st', new, hrun, ⟨?_, fun s r hp => ?_⟩, hqueue, hnew, fun a => ?_⟩
  · rw [hmap, setEntry_self]
  · rw [hmap, setEntry_of_ne _ _ hp]
  rw [hin, hmuted]
  split_ifs with he
  · have hpos := I.muted_pos he
    exact ⟨fun ⟨_, h1⟩ => ⟨hpos, by omega⟩, fun ⟨_, h0⟩ => ⟨he, by omega⟩⟩
  · exact ⟨fun ⟨h, _⟩ => absurd h he, fun ⟨hpos, h0⟩ => by omega⟩

end

/-- Actor 0 is run by one of two schedulers and sends to the overloaded actors 1 and 2, which are
then unmuted. -/
theorem muted_exact_unmuted :
    ∃ st st' : MuteState Bool Nat, MuteReach st ∧ st.muted 0 = 1 ∧ (entries st 0).ncard = 1 ∧
      MuteReach st' ∧ st'.runQueue = [(true, 0)] ∧
      (entries st' 0).ncard = 0 := by
  have r₁ := MuteReach.start.step (@MuteStep.run Bool Nat _ _ {} true 0 rfl nofun rfl)
  have r₂ := r₁.step (@MuteStep.mute Bool Nat _ _ _ true 0 1 rfl (by decide))
  have r₃ := r₂.step (@MuteStep.mute Bool Nat _ _ _ true 0 2 rfl (by decide))
  have r₄ := r₃.step (@MuteStep.stop Bool Nat _ _ _ true 0 rfl)
  have r₅ := r₄.step (@MuteStep.unmute Bool Nat _ _ _ _ true 1 false rfl rfl)
  have r₆ := r₅.step (@MuteStep.unmute Bool Nat _ _ _ _ true 2 true rfl rfl)
  exact ⟨_, _, r₅, rfl, ((muted_exact r₅).1 0).2.1, r₆, rfl, ((muted_exact r₆).1 0).2.1⟩

end SpacePony.Sched
