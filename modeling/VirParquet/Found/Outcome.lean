import Mathlib.Tactic.Common

/-!
# Outcomes

Computations that may fail.

* `FailsOnly p x` says that `x` stops at no errors but those with `p`: the others are excluded, and
  nothing is said about the value that it returns if it does. The rules follow a computation step by
  step (`FailsOnly.bind`).
* `SameValue` says of two outcomes of computations that pass a state on that they are the same but
  for the state that they leave behind, and its rules are those for a computation that is followed
  step by step from two states. A computation that has the `SameValue` from every state reads
  nothing of it that matters.
-/

namespace VirParquet.Found

variable {ε σ α β : Type}

/-- A composed computation returns exactly if both parts do, one after the other. -/
theorem exists_bind_eq_ok {x : Except ε α} {f : α → Except ε β} :
    (∃ b, x >>= f = .ok b) ↔ ∃ a, x = .ok a ∧ ∃ b, f a = .ok b := by
  cases x with
  | error e =>
      constructor
      · rintro ⟨b, hb⟩
        cases hb
      · rintro ⟨a, ha, -⟩
        cases ha
  | ok a =>
      constructor
      · rintro ⟨b, hb⟩
        exact ⟨a, rfl, b, hb⟩
      · rintro ⟨a', ha, b, hb⟩
        cases ha
        exact ⟨b, hb⟩

/-! ## Errors -/

section errors

variable {p : ε → Prop}

/-- A computation stops at no errors but those with `p`. -/
def FailsOnly (p : ε → Prop) (x : Except ε α) : Prop := ∀ e, x = .error e → p e

/-- A computation that returns stops at no error. -/
theorem FailsOnly.of_eq_ok {x : Except ε α} {a : α} (h : x = .ok a) : FailsOnly p x := by
  intro e he
  cases h.symm.trans he

/-- A computation that stops at an error with `p` stops at no other. -/
theorem FailsOnly.of_eq_error {x : Except ε α} {e : ε} (h : x = .error e) (he : p e) :
    FailsOnly p x := by
  intro e' he'
  obtain rfl := Except.error.inj (h.symm.trans he')
  exact he

/-- **Two computations one after the other**: the second one is followed from each value that the
first one may return. -/
theorem FailsOnly.bind {x : Except ε α} (hx : FailsOnly p x) {f : α → Except ε β}
    (hf : ∀ a, x = .ok a → FailsOnly p (f a)) : FailsOnly p (x >>= f) := by
  cases x with
  | error e => exact FailsOnly.of_eq_error rfl (hx e rfl)
  | ok a => exact hf a rfl

end errors

/-! ## States -/

/-- Two outcomes return the same value or fail alike, whatever states they leave behind. -/
def SameValue (x y : Except ε (α × σ)) : Prop := x.map Prod.fst = y.map Prod.fst

/-- An outcome returns the same value as itself. -/
theorem SameValue.refl (x : Except ε (α × σ)) : SameValue x x := rfl

/-- What returns the same value as another outcome does so the other way round. -/
theorem SameValue.symm {x y : Except ε (α × σ)} (h : SameValue x y) : SameValue y x := Eq.symm h

/-- One value with two states is the same value. -/
theorem SameValue.ok (a : α) (s s' : σ) :
    SameValue (.ok (a, s) : Except ε (α × σ)) (.ok (a, s')) := rfl

/-- What one outcome returns the other returns as well. -/
theorem SameValue.exists_eq_ok {x y : Except ε (α × σ)} (h : SameValue x y) {a : α} {s : σ}
    (hx : x = .ok (a, s)) : ∃ s', y = .ok (a, s') := by
  subst hx
  cases y with
  | error e => cases h
  | ok p =>
      obtain rfl : a = p.1 := Except.ok.inj h
      exact ⟨p.2, rfl⟩

/-- Both outcomes return a value, or neither does. -/
theorem SameValue.exists_eq_ok_iff {x y : Except ε (α × σ)} (h : SameValue x y) (a : α) :
    (∃ s, x = .ok (a, s)) ↔ ∃ s, y = .ok (a, s) := by
  constructor
  · rintro ⟨s, hx⟩
    exact h.exists_eq_ok hx
  · rintro ⟨s, hy⟩
    exact h.symm.exists_eq_ok hy

/-- **Two computations one after the other**: the second ones start from a value that the first ones
may return, and perhaps from different states. -/
theorem SameValue.bind {x y : Except ε (α × σ)} (h : SameValue x y)
    {f g : α × σ → Except ε (β × σ)}
    (hfg : ∀ a s s', x = .ok (a, s) → SameValue (f (a, s)) (g (a, s'))) :
    SameValue (x >>= f) (y >>= g) := by
  cases x with
  | error e =>
      cases y with
      | error e' =>
          cases h
          exact rfl
      | ok q => cases h
  | ok p =>
      cases y with
      | error e' => cases h
      | ok q =>
          obtain ⟨a, s⟩ := p
          obtain ⟨b, s'⟩ := q
          obtain rfl : a = b := Except.ok.inj h
          exact hfg a s s' rfl

/-- A computation that does not use the state, and then two that do, have the same value if the
second ones do. -/
theorem SameValue.bind_left (x : Except ε α) {f g : α → Except ε (β × σ)}
    (hfg : ∀ a, SameValue (f a) (g a)) : SameValue (x >>= f) (x >>= g) := by
  cases x with
  | error e => exact rfl
  | ok a => exact hfg a

end VirParquet.Found
