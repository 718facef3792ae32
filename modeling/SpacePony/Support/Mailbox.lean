import Mathlib.Data.List.Basic
import Mathlib.Data.List.Perm.Basic
import Mathlib.Logic.Relation

/-!
# Support — Mailboxes

Actors that send each other messages, which are delivered in any order.

* **`Reach.induct`**: an invariant of the states and the history, with a property of the messages.
* **`Reach.conserved`**: the messages in flight and those delivered are the messages that were sent.
-/

namespace SpacePony.Mailbox

open List

variable {σ M : Type}

/-- The state of the actors, and the messages.  `delivered` is a history. -/
structure Net (σ M : Type) where
  state : σ
  inFlight : List M
  delivered : List M

/-- The actors' reaction to a message, and what is sent from outside. -/
structure System (σ M : Type) where
  init : σ
  handle : M → σ → σ × List M
  inject : σ → σ → List M → Prop

/-- One step. -/
inductive Step (S : System σ M) : Net σ M → Net σ M → Prop where
  | inject (s s' : σ) (ms fl d : List M) (h : S.inject s s' ms) :
      Step S ⟨s, fl, d⟩ ⟨s', fl ++ ms, d⟩
  | deliver (s : σ) (before after d : List M) (m : M) :
      Step S ⟨s, before ++ m :: after, d⟩
        ⟨(S.handle m s).1, before ++ after ++ (S.handle m s).2, d ++ [m]⟩

/-- What is reached from the start. -/
def Reach (S : System σ M) (n : Net σ M) : Prop :=
  Relation.ReflTransGen (Step S) ⟨S.init, [], []⟩ n

variable {S : System σ M} {n : Net σ M}

/-- An invariant `I` of the states and the history, together with a property `P` of the messages. -/
theorem Reach.induct {I : σ → List M → Prop} {P : M → Prop} (hinit : I S.init [])
    (hinject : ∀ {s s' ms d}, S.inject s s' ms → I s d → I s' d ∧ ∀ m ∈ ms, P m)
    (hdeliver : ∀ {s d m}, I s d → (∀ m ∈ d, P m) → P m →
      I (S.handle m s).1 (d ++ [m]) ∧ ∀ m' ∈ (S.handle m s).2, P m') (h : Reach S n) :
    I n.state n.delivered ∧ (∀ m ∈ n.inFlight, P m) ∧ ∀ m ∈ n.delivered, P m := by
  induction h with
  | refl => exact ⟨hinit, fun _ hm => absurd hm not_mem_nil, fun _ hm => absurd hm not_mem_nil⟩
  | tail _ hstep ih =>
    obtain ⟨hI, hfl, hd⟩ := ih
    cases hstep with
    | inject s s' ms fl d hin =>
      obtain ⟨hI', hms⟩ := hinject hin hI
      refine ⟨hI', fun m hm => ?_, hd⟩
      rcases mem_append.1 hm with hm | hm
      · exact hfl m hm
      · exact hms m hm
    | deliver s before after d m =>
      have hP : P m := hfl m (mem_append_right _ (.head _))
      obtain ⟨hI', hout⟩ := hdeliver hI hd hP
      refine ⟨hI', fun m' hm' => ?_, fun m' hm' => ?_⟩
      · rcases mem_append.1 hm' with hm' | hm'
        · rcases mem_append.1 hm' with hm' | hm'
          · exact hfl m' (mem_append_left _ hm')
          · exact hfl m' (mem_append_right _ (.tail _ hm'))
        · exact hout m' hm'
      rcases mem_append.1 hm' with hm' | hm'
      · exact hd m' hm'
      · rw [mem_singleton.1 hm']
        exact hP

/-- When the state has a record of what was sent, the messages in flight and those delivered are
what was sent. -/
theorem Reach.conserved {sent : σ → List M} (hinit : sent S.init = [])
    (hinject : ∀ {s s' ms}, S.inject s s' ms → (sent s').Perm (sent s ++ ms))
    (hhandle : ∀ m s, (sent (S.handle m s).1).Perm (sent s ++ (S.handle m s).2))
    (h : Reach S n) : (n.inFlight ++ n.delivered).Perm (sent n.state) := by
  induction h with
  | refl =>
    show List.Perm [] (sent S.init)
    rw [hinit]
  | tail _ hstep ih =>
    cases hstep with
    | inject s s' ms fl d hin =>
      refine List.Perm.trans ?_ (hinject hin).symm
      refine List.Perm.trans ?_ (ih.append_right ms)
      rw [append_assoc, append_assoc]
      exact perm_append_comm.append_left fl
    | deliver s before after d m =>
      refine List.Perm.trans ?_ (hhandle m s).symm
      refine List.Perm.trans ?_ (ih.append_right _)
      simp only [append_assoc, cons_append]
      refine List.Perm.append_left before ?_
      refine List.Perm.trans ?_ perm_middle
      refine List.Perm.append_left after ?_
      refine perm_append_comm.trans ?_
      rw [← cons_append]
      exact (perm_append_singleton m d).append_right _

/-- The message at a place in flight is delivered. -/
theorem Reach.deliver (h : Reach S n) {i : Nat} {m : M} (hi : n.inFlight[i]? = some m) :
    Reach S ⟨(S.handle m n.state).1, n.inFlight.eraseIdx i ++ (S.handle m n.state).2,
      n.delivered ++ [m]⟩ := by
  obtain ⟨s, fl, d⟩ := n
  obtain ⟨hlt, hget⟩ := List.getElem?_eq_some_iff.1 hi
  have hsplit : fl = fl.take i ++ m :: fl.drop (i + 1) := by
    rw [← hget, getElem_cons_drop, take_append_drop]
  refine h.tail ?_
  rw [eraseIdx_eq_take_drop_succ]
  have hstep := Step.deliver (S := S) s (fl.take i) (fl.drop (i + 1)) d m
  rwa [← hsplit] at hstep

/-- Messages are sent from outside. -/
theorem Reach.send (h : Reach S n) {s' : σ} {ms : List M} (hin : S.inject n.state s' ms) :
    Reach S ⟨s', n.inFlight ++ ms, n.delivered⟩ :=
  h.tail (.inject n.state s' ms n.inFlight n.delivered hin)

end SpacePony.Mailbox
