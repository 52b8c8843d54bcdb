import Mathlib.Data.Nat.Basic
import Mathlib.Tactic.Common

/-!
# Loops between whose turns others run

The turn of such a loop works on variables of its own and on a state that it shares with others, who
may have changed it in any way since the last turn. `EndsWithin body Q n l` says that from the
variables `l` the loop leaves with `Q` after at most `n` turns of its own, whatever the shared state
is at the beginning of each, and that no turn fails.

The rules are `EndsWithin.turn` (what the next turn does) and `endsWithin_of_variant` (an invariant
of the loop's own variables, and a number that goes down in each turn).

`NeverFails body Q l` promises less: that no turn fails and that the loop leaves with `Q`, if it
leaves at all. It has the same two rules, and `EndsWithin.neverFails` connects the two.
-/

namespace VirParquet.Found

variable {ε L S R : Type}

/-- From `l` the loop leaves with `Q` after at most `n` turns, whatever others do in between. -/
def EndsWithin (body : L → S → Except ε ((L ⊕ R) × S)) (Q : R → Prop) : ℕ → L → Prop
  | 0, _ => False
  | n + 1, l => ∀ s, (∃ l' s', body l s = .ok (.inl l', s') ∧ EndsWithin body Q n l') ∨
      ∃ r s', body l s = .ok (.inr r, s') ∧ Q r

variable {body : L → S → Except ε ((L ⊕ R) × S)} {Q : R → Prop} {n m : ℕ} {l : L}

/-- The next turn of a loop that ends goes on with fewer turns to come, or leaves. -/
theorem EndsWithin.turn (h : EndsWithin body Q n l) (s : S) :
    (∃ l' s' k, body l s = .ok (.inl l', s') ∧ k < n ∧ EndsWithin body Q k l') ∨
      ∃ r s', body l s = .ok (.inr r, s') ∧ Q r := by
  cases n with
  | zero => exact absurd h id
  | succ n =>
      rcases h s with ⟨l', s', hturn, hrest⟩ | hleave
      · exact Or.inl ⟨l', s', n, hturn, Nat.lt_succ_self n, hrest⟩
      · exact Or.inr hleave

/-- More turns than enough are enough. -/
theorem EndsWithin.mono (h : EndsWithin body Q n l) (hnm : n ≤ m) : EndsWithin body Q m l := by
  induction n generalizing m l with
  | zero => exact absurd h id
  | succ n ih =>
      obtain ⟨m, rfl⟩ : ∃ k, m = k + 1 := ⟨m - 1, by omega⟩
      intro s
      rcases h s with ⟨l', s', hturn, hrest⟩ | hleave
      · exact Or.inl ⟨l', s', hturn, ih hrest (Nat.le_of_succ_le_succ hnm)⟩
      · exact Or.inr hleave

/-- **A loop under interference ends**: if under the invariant `I` of the loop's own variables every
turn, whatever the shared state, goes on with `I` and a smaller `μ` or leaves with `Q`, then the
loop leaves with `Q`, after at most one turn more than `μ` says. -/
theorem endsWithin_of_variant (I : L → Prop) (μ : L → ℕ)
    (hturn : ∀ l s, I l → (∃ l' s', body l s = .ok (.inl l', s') ∧ I l' ∧ μ l' < μ l) ∨
      ∃ r s', body l s = .ok (.inr r, s') ∧ Q r) (hl : I l) : EndsWithin body Q (μ l + 1) l := by
  induction hμ : μ l using Nat.strong_induction_on generalizing l with
  | _ k ih =>
      intro s
      rcases hturn l s hl with ⟨l', s', hbody, hl', hlt⟩ | hleave
      · refine Or.inl ⟨l', s', hbody, ?_⟩
        exact (ih (μ l') (hμ ▸ hlt) hl' rfl).mono (by omega)
      · exact Or.inr hleave

/-- From `l` no turn of the loop fails, whatever others do in between, and if it leaves, then with
`Q`. -/
def NeverFails (body : L → S → Except ε ((L ⊕ R) × S)) (Q : R → Prop) (l : L) : Prop :=
  ∃ I : L → Prop, I l ∧ ∀ l s, I l → (∃ l' s', body l s = .ok (.inl l', s') ∧ I l') ∨
    ∃ r s', body l s = .ok (.inr r, s') ∧ Q r

/-- The next turn of a loop that never fails goes on with such a loop, or leaves. -/
theorem NeverFails.turn (h : NeverFails body Q l) (s : S) :
    (∃ l' s', body l s = .ok (.inl l', s') ∧ NeverFails body Q l') ∨
      ∃ r s', body l s = .ok (.inr r, s') ∧ Q r := by
  obtain ⟨I, hl, hturn⟩ := h
  rcases hturn l s hl with ⟨l', s', hbody, hl'⟩ | hleave
  · exact Or.inl ⟨l', s', hbody, I, hl', hturn⟩
  · exact Or.inr hleave

/-- A loop that ends never fails. -/
theorem EndsWithin.neverFails (h : EndsWithin body Q n l) : NeverFails body Q l := by
  refine ⟨fun l => ∃ n, EndsWithin body Q n l, ⟨n, h⟩, ?_⟩
  rintro l s ⟨n, hl⟩
  rcases hl.turn s with ⟨l', s', k, hbody, -, hl'⟩ | hleave
  · exact Or.inl ⟨l', s', hbody, k, hl'⟩
  · exact Or.inr hleave

end VirParquet.Found
