import Mathlib.Data.Nat.Basic
import Mathlib.Tactic.Common

/-!
# Loops that may fail or run for ever

* `runLoop body n s` runs at most `n` turns of a `while` loop whose turn either goes on with a new
  state or leaves with a result, and may fail. `Ends body s r` says that some number of turns
  leaves with `r`, `Diverges body s` that no number of turns does. Both are closed under adding
  turns (`runLoop_mono`), an ending is unique (`Ends.unique`), and the two rules are
  `ends_of_variant` (an invariant, and a number that goes down in each turn) and
  `diverges_of_invariant` (an invariant under which every turn goes on).
* `countUp limit overflow bound body i s` is the `for` loop whose counter cannot hold `limit`:
  counting up to it is the failure `overflow`. It succeeds only if `bound < limit`
  (`bound_lt_of_countUp_eq_ok`), and its rules are `countUp_total` (every turn succeeds) and
  `countUp_invariant` (what a run that succeeded preserves).
-/

namespace VirParquet.Found

variable {ε S R : Type}

/-! ## While loops -/

section whileLoop

/-- At most `n` turns of the loop from `s`; `none` when it has not left by then. -/
def runLoop (body : S → Except ε (S ⊕ R)) : ℕ → S → Except ε (Option R)
  | 0, _ => .ok none
  | n + 1, s =>
      match body s with
      | .error e => .error e
      | .ok (.inl s') => runLoop body n s'
      | .ok (.inr r) => .ok (some r)

/-- The loop leaves with `r`, after some number of turns. -/
def Ends (body : S → Except ε (S ⊕ R)) (s : S) (r : R) : Prop :=
  ∃ n, runLoop body n s = .ok (some r)

/-- The loop never leaves and never fails. -/
def Diverges (body : S → Except ε (S ⊕ R)) (s : S) : Prop :=
  ∀ n, runLoop body n s = .ok none

variable {body : S → Except ε (S ⊕ R)} {s s' : S} {r r' : R}

/-- A turn that goes on leaves the rest of the fuel to the next state. -/
theorem runLoop_succ_inl (h : body s = .ok (.inl s')) (n : ℕ) :
    runLoop body (n + 1) s = runLoop body n s' := by
  simp [runLoop, h]

/-- A turn that leaves returns, whatever fuel is left. -/
theorem runLoop_succ_inr (h : body s = .ok (.inr r)) (n : ℕ) :
    runLoop body (n + 1) s = .ok (some r) := by
  simp [runLoop, h]

/-- More turns never change a result. -/
theorem runLoop_mono {n m : ℕ} (hnm : n ≤ m) (h : runLoop body n s = .ok (some r)) :
    runLoop body m s = .ok (some r) := by
  induction n generalizing s m with
  | zero => simp [runLoop] at h
  | succ n ih =>
      obtain ⟨m, rfl⟩ : ∃ k, m = k + 1 := ⟨m - 1, by omega⟩
      cases hb : body s with
      | error e => simp [runLoop, hb] at h
      | ok next =>
          cases next with
          | inl s' =>
              rw [runLoop_succ_inl hb] at h ⊢
              exact ih (by omega) h
          | inr r' => rwa [runLoop_succ_inr hb] at h ⊢

/-- The result of a loop is unique. -/
theorem Ends.unique (h : Ends body s r) (h' : Ends body s r') : r = r' := by
  obtain ⟨n, hn⟩ := h
  obtain ⟨m, hm⟩ := h'
  have h₁ := runLoop_mono (Nat.le_max_left n m) hn
  have h₂ := runLoop_mono (Nat.le_max_right n m) hm
  rw [h₁] at h₂
  simpa using h₂

/-- A loop that runs for ever does not end. -/
theorem Diverges.not_ends (h : Diverges body s) : ¬ ∃ r, Ends body s r := by
  rintro ⟨r, n, hn⟩
  rw [h n] at hn
  simp at hn

/-- A turn that goes on moves the end of the loop to the next state. -/
theorem ends_of_inl (h : body s = .ok (.inl s')) (hr : Ends body s' r) : Ends body s r := by
  obtain ⟨n, hn⟩ := hr
  exact ⟨n + 1, by rwa [runLoop_succ_inl h]⟩

/-- A turn that leaves ends the loop. -/
theorem ends_of_inr (h : body s = .ok (.inr r)) : Ends body s r :=
  ⟨1, runLoop_succ_inr h 0⟩

/-- **Total correctness of a loop**: if under the invariant `I` no turn fails, a turn that goes on
keeps `I` and lowers `μ`, and a turn that leaves gives `Q`, then the loop ends with `Q`. -/
theorem ends_of_variant (I : S → Prop) (μ : S → ℕ) (Q : R → Prop)
    (hturn : ∀ s, I s → (∃ s', body s = .ok (.inl s') ∧ I s' ∧ μ s' < μ s) ∨
      ∃ r, body s = .ok (.inr r) ∧ Q r) (hs : I s) : ∃ r, Ends body s r ∧ Q r := by
  induction hμ : μ s using Nat.strong_induction_on generalizing s with
  | _ k ih =>
      rcases hturn s hs with ⟨s', hb, hs', hlt⟩ | ⟨r, hb, hr⟩
      · obtain ⟨r, hend, hr⟩ := ih (μ s') (hμ ▸ hlt) hs' rfl
        exact ⟨r, ends_of_inl hb hend, hr⟩
      · exact ⟨r, ends_of_inr hb, hr⟩

/-- **Divergence of a loop**: if under the invariant every turn goes on and keeps it, the loop
runs for ever. -/
theorem diverges_of_invariant (I : S → Prop)
    (hturn : ∀ s, I s → ∃ s', body s = .ok (.inl s') ∧ I s') (hs : I s) : Diverges body s := by
  intro n
  induction n generalizing s with
  | zero => rfl
  | succ n ih =>
      obtain ⟨s', hb, hs'⟩ := hturn s hs
      rw [runLoop_succ_inl hb]
      exact ih hs'

end whileLoop

/-! ## Counting loops -/

section countUp

/-- `for (i; i < bound; i++)` with a counter whose values end below `limit`: the step to `limit`
is the failure `overflow`. -/
def countUp (limit : ℕ) (overflow : ε) (bound : ℕ) (body : ℕ → S → Except ε S) (i : ℕ) (s : S) :
    Except ε S :=
  if i < bound then
    match body i s with
    | .error e => .error e
    | .ok s' =>
        if i + 1 < limit then countUp limit overflow bound body (i + 1) s' else .error overflow
  else .ok s
termination_by limit - i

variable {limit bound i : ℕ} {overflow : ε} {body : ℕ → S → Except ε S} {s s' : S}

/-- The counter has reached the bound. -/
theorem countUp_of_le (h : bound ≤ i) : countUp limit overflow bound body i s = .ok s := by
  rw [countUp, if_neg (by omega)]

/-- A turn of the counting loop that is not the last goes on with the next number. -/
theorem countUp_of_lt (h : i < bound) (hb : body i s = .ok s') (hl : i + 1 < limit) :
    countUp limit overflow bound body i s = countUp limit overflow bound body (i + 1) s' := by
  rw [countUp, if_pos h, hb]
  simp [hl]

/-- **Total correctness of a counting loop** whose bound the counter can hold: if each turn keeps
the invariant, the loop returns with it. -/
theorem countUp_total (I : ℕ → S → Prop) (hlim : bound < limit) (hi : i ≤ bound) (hs : I i s)
    (hturn : ∀ j t, j < bound → I j t → ∃ t', body j t = .ok t' ∧ I (j + 1) t') :
    ∃ s', countUp limit overflow bound body i s = .ok s' ∧ I bound s' := by
  induction hk : bound - i generalizing i s with
  | zero =>
      obtain rfl : i = bound := by omega
      exact ⟨s, countUp_of_le le_rfl, hs⟩
  | succ k ih =>
      obtain ⟨t, hb, ht⟩ := hturn i s (by omega) hs
      rw [countUp_of_lt (by omega) hb (by omega)]
      exact ih (by omega) ht (by omega)

/-- A counting loop whose turns do not fail overflows its counter if that cannot hold the bound. -/
theorem countUp_overflow (I : ℕ → S → Prop) (hlim : limit ≤ bound) (hi : i < limit) (hs : I i s)
    (hturn : ∀ j t, j < limit → I j t → ∃ t', body j t = .ok t' ∧ I (j + 1) t') :
    countUp limit overflow bound body i s = .error overflow := by
  induction hk : limit - i generalizing i s with
  | zero => omega
  | succ k ih =>
      obtain ⟨t, hb, ht⟩ := hturn i s hi hs
      by_cases hnext : i + 1 < limit
      · rw [countUp_of_lt (by omega) hb hnext]
        exact ih hnext ht (by omega)
      · rw [countUp, if_pos (by omega), hb]
        exact if_neg hnext

/-- **A counting loop that succeeded** preserves what each of its turns does. -/
theorem countUp_invariant (I : ℕ → S → Prop) (hi : i ≤ bound) (hs : I i s)
    (hturn : ∀ j t t', j < bound → I j t → body j t = .ok t' → I (j + 1) t')
    (h : countUp limit overflow bound body i s = .ok s') : I bound s' := by
  induction hk : bound - i generalizing i s with
  | zero =>
      obtain rfl : i = bound := by omega
      rw [countUp_of_le le_rfl] at h
      cases h
      exact hs
  | succ k ih =>
      rw [countUp, if_pos (by omega)] at h
      cases hb : body i s with
      | error e => simp [hb] at h
      | ok t =>
          simp only [hb] at h
          split at h
          · exact ih (by omega) (hturn i s t (by omega) hs hb) h (by omega)
          · cases h

/-- A counting loop that is entered succeeds only if its counter can hold the bound. -/
theorem bound_lt_of_countUp_eq_ok (hi : i < bound)
    (h : countUp limit overflow bound body i s = .ok s') : bound < limit := by
  induction hk : bound - i generalizing i s with
  | zero => omega
  | succ k ih =>
      rw [countUp, if_pos hi] at h
      cases hb : body i s with
      | error e => simp [hb] at h
      | ok t =>
          simp only [hb] at h
          split at h
          · by_cases hlast : i + 1 < bound
            · exact ih hlast h (by omega)
            · omega
          · cases h

end countUp

end VirParquet.Found
