import Mathlib.Data.List.Count
import Mathlib.Tactic.Common

/-!
# Machines and their runs

A machine is given by what an event does in a state: it cannot happen, it crashes the machine, or it
gives a reply and leads to another state. A `Run` is a sequence of events that happened, with their
replies.

* `Run.single` and `Run.trans` make a run of one event and put runs together.
* `Run.history_invariant` and `Run.invariant` are the induction: what holds at the start and is kept
  by each event holds after each run, of the history and the state or of the state alone.
* `Run.reply_of_mem`: what is true of the reply to each event is true of all replies of a run.
* `Run.trace_of_simulates` is the simulation rule: a machine of which each event is an event of a
  `Trace`, a run of something that may be answered in more than one way, has only runs that are.
* `Run.countP_add_le` bounds how often the events of one party happen: each of them uses up a part
  of a budget, the events of others leave it alone. `Run.exists_countP` is the contrary: a party of
  which an event can always happen has runs with any number of them.
-/

namespace VirParquet.Found

/-- What an event does in a state: nothing, as it cannot happen there (`none`), or it crashes the
machine, or it leads to another state and gives a reply. -/
abbrev Machine (S E R C : Type) := S → E → Option (Except C (S × R))

variable {S E R C : Type} {step : Machine S E R C}

/-- No event crashes the machine in this state. -/
def Safe (step : Machine S E R C) (s : S) : Prop := ∀ e c, step s e ≠ some (.error c)

/-- The runs from `s₀`: what happened, the oldest first, and the state reached. -/
inductive Run (step : Machine S E R C) (s₀ : S) : List (E × R) → S → Prop
  | nil : Run step s₀ [] s₀
  | snoc {h : List (E × R)} {s s' : S} {e : E} {r : R} (hrun : Run step s₀ h s)
      (hstep : step s e = some (.ok (s', r))) : Run step s₀ (h ++ [(e, r)]) s'

namespace Run

variable {s₀ s s' : S} {h h' : List (E × R)}

/-- A step is a run of one event. -/
theorem single {e : E} {r : R} (hstep : step s e = some (.ok (s', r))) :
    Run step s [(e, r)] s' := by
  have hrun := Run.nil.snoc hstep
  rwa [List.nil_append] at hrun

/-- A run goes on. -/
theorem trans (hrun : Run step s₀ h s) (hrun' : Run step s h' s') : Run step s₀ (h ++ h') s' := by
  induction hrun' with
  | nil => rwa [List.append_nil]
  | snoc _ hstep ih =>
      rw [← List.append_assoc]
      exact ih.snoc hstep

/-- **What every step keeps of history and state holds after every run.** -/
theorem history_invariant (I : List (E × R) → S → Prop) (hnil : I [] s₀)
    (hsnoc : ∀ h s e r s', I h s → step s e = some (.ok (s', r)) → I (h ++ [(e, r)]) s')
    (hrun : Run step s₀ h s) : I h s := by
  induction hrun with
  | nil => exact hnil
  | snoc _ hstep ih => exact hsnoc _ _ _ _ _ ih hstep

/-- **What every step keeps of the state holds after every run.** -/
theorem invariant (I : S → Prop) (hstart : I s₀)
    (hkeep : ∀ s e r s', I s → step s e = some (.ok (s', r)) → I s')
    (hrun : Run step s₀ h s) : I s :=
  hrun.history_invariant (fun _ s => I s) hstart fun _ => hkeep

/-- **Replies.** If each event in a state with the invariant keeps it and gives a reply with `Q`,
then all replies of a run have `Q`. -/
theorem reply_of_mem (I : S → Prop) (Q : E → R → Prop) (hstart : I s₀)
    (hkeep : ∀ s e r s', I s → step s e = some (.ok (s', r)) → I s' ∧ Q e r)
    (hrun : Run step s₀ h s) {e : E} {r : R} (hmem : (e, r) ∈ h) : Q e r := by
  have hboth : I s ∧ ∀ x ∈ h, Q x.1 x.2 := by
    refine hrun.history_invariant (fun h s => I s ∧ ∀ x ∈ h, Q x.1 x.2) ?_ ?_
    · exact ⟨hstart, fun x hx => absurd hx List.not_mem_nil⟩
    · rintro h s e r s' ⟨hs, hall⟩ hstep
      obtain ⟨hs', hreply⟩ := hkeep s e r s' hs hstep
      refine ⟨hs', fun x hx => ?_⟩
      rcases List.mem_append.mp hx with hx | hx
      · exact hall x hx
      · obtain rfl := List.mem_singleton.mp hx
        exact hreply
  exact hboth.2 _ hmem

/-- **A budget for the events of one party.** `I n` says that a budget of `n` is left. An event of
the party lowers it and other events keep it, as long as what happens is `ok`. So the events of the
party, with what is left at the end, are no more than the budget at the start. -/
theorem countP_add_le (I : ℕ → S → Prop) (own : E → Bool) (ok : E × R → Prop)
    (hown : ∀ n s e r s', I n s → step s e = some (.ok (s', r)) → ok (e, r) → own e = true →
      ∃ k, k < n ∧ I k s')
    (hother : ∀ n s e r s', I n s → step s e = some (.ok (s', r)) → ok (e, r) → own e = false →
      I n s')
    (hrun : Run step s₀ h s) (hok : ∀ x ∈ h, ok x) {n : ℕ} (hstart : I n s₀) :
    ∃ k, I k s ∧ h.countP (fun x => own x.1) + k ≤ n := by
  induction hrun with
  | nil => exact ⟨n, hstart, by simp⟩
  | @snoc h s s' e r _ hstep ih =>
      obtain ⟨k, hk, hle⟩ := ih fun x hx => hok x (List.mem_append_left _ hx)
      have hnow := hok (e, r) (List.mem_append_right _ (List.mem_singleton_self _))
      rw [List.countP_append, List.countP_singleton]
      cases hparty : own e with
      | true =>
          obtain ⟨j, hlt, hj⟩ := hown k s e r s' hk hstep hnow hparty
          refine ⟨j, hj, ?_⟩
          simp only [if_true]
          omega
      | false =>
          refine ⟨k, hother k s e r s' hk hstep hnow hparty, ?_⟩
          simpa using hle

/-- **A party that is never at its end.** If in each state with the invariant some event of the
party happens, which is `ok`, and leads to such a state again, then there are runs with any number
of its events, all of them `ok`. -/
theorem exists_countP (I : S → Prop) (own : E → Bool) (ok : E × R → Prop)
    (hgo : ∀ s, I s → ∃ e r s', step s e = some (.ok (s', r)) ∧ I s' ∧ own e = true ∧ ok (e, r))
    (hstart : I s₀) (n : ℕ) :
    ∃ h s, Run step s₀ h s ∧ I s ∧ (∀ x ∈ h, ok x) ∧ h.countP (fun x => own x.1) = n := by
  induction n with
  | zero => exact ⟨[], s₀, .nil, hstart, fun x hx => absurd hx List.not_mem_nil, rfl⟩
  | succ n ih =>
      obtain ⟨h, s, hrun, hs, hok, hcount⟩ := ih
      obtain ⟨e, r, s', hstep, hs', hown, hnow⟩ := hgo s hs
      refine ⟨h ++ [(e, r)], s', hrun.snoc hstep, hs', fun x hx => ?_, ?_⟩
      · rcases List.mem_append.mp hx with hx | hx
        · exact hok x hx
        · obtain rfl := List.mem_singleton.mp hx
          exact hnow
      · rw [List.countP_append, List.countP_singleton, hcount, hown, if_pos rfl]

end Run

/-! ## Simulation -/

section traces

variable {A : Type} {spec : A → E → R → A → Prop} {a₀ : A}

/-- The runs of what may be answered in more than one way: what happened, the oldest first, and the
state reached. -/
inductive Trace (spec : A → E → R → A → Prop) (a₀ : A) : List (E × R) → A → Prop
  | nil : Trace spec a₀ [] a₀
  | snoc {h : List (E × R)} {a a' : A} {e : E} {r : R} (htrace : Trace spec a₀ h a)
      (hspec : spec a e r a') : Trace spec a₀ (h ++ [(e, r)]) a'

/-- **Simulation.** If the machine starts in a state that is related to the start of the
specification, and each event from a related state is allowed by the specification and leads to a
related state, then the history of each run is that of a trace. -/
theorem Run.trace_of_simulates {s₀ s : S} (rel : S → A → Prop) (hstart : rel s₀ a₀)
    (hsim : ∀ s a e r s', rel s a → step s e = some (.ok (s', r)) →
      ∃ a', spec a e r a' ∧ rel s' a')
    {h : List (E × R)} (hrun : Run step s₀ h s) : ∃ a, Trace spec a₀ h a ∧ rel s a := by
  induction hrun with
  | nil => exact ⟨a₀, .nil, hstart⟩
  | snoc _ hstep ih =>
      obtain ⟨a, htrace, hrel⟩ := ih
      obtain ⟨a', hspec, hrel'⟩ := hsim _ _ _ _ _ hrel hstep
      exact ⟨a', htrace.snoc hspec, hrel'⟩

end traces

end VirParquet.Found
