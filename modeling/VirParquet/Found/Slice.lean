import Mathlib.Data.List.Basic
import Mathlib.Tactic.Ring

/-!
# Slices of a list

`slice xs off len` is the part of `xs` that starts at position `off` and holds at most `len`
elements: what a positional read of a byte string returns when it is complete. The lemmas say how
slices compose (`slice_append_slice`, `slice_slice`), how they pass through a concatenation
(`slice_append_left`, `slice_append_right`, `slice_middle`) and what a prefix of a slice is
(`eq_slice_of_prefix`), which is all that a reader needs that fills a buffer by several partial
reads.
-/

namespace VirParquet.Found

variable {α : Type}

/-- The at most `len` elements of `xs` from position `off` on. -/
def slice (xs : List α) (off len : ℕ) : List α := (xs.drop off).take len

/-! ## Length and emptiness -/

/-- A slice is cut off at the end of the list. -/
@[simp] theorem length_slice (xs : List α) (off len : ℕ) :
    (slice xs off len).length = min len (xs.length - off) := by
  simp [slice]

/-- A slice that lies inside the list has the length asked for. -/
theorem length_slice_of_le {xs : List α} {off len : ℕ} (h : off + len ≤ xs.length) :
    (slice xs off len).length = len := by
  rw [length_slice]
  omega

/-- The slice of length zero is empty. -/
@[simp] theorem slice_zero (xs : List α) (off : ℕ) : slice xs off 0 = [] := by
  simp [slice]

/-- Past the end there is nothing. -/
theorem slice_of_length_le {xs : List α} {off : ℕ} (h : xs.length ≤ off) (len : ℕ) :
    slice xs off len = [] := by
  simp [slice, List.drop_eq_nil_of_le h]

/-- A slice is empty exactly when nothing is asked for or nothing is left. -/
theorem slice_eq_nil_iff {xs : List α} {off len : ℕ} :
    slice xs off len = [] ↔ len = 0 ∨ xs.length ≤ off := by
  rw [← List.length_eq_zero_iff, length_slice]
  omega

/-- The whole list is a slice of itself. -/
@[simp] theorem slice_full (xs : List α) : slice xs 0 xs.length = xs := by
  simp [slice]

/-! ## Composition -/

/-- Two adjacent slices make one. -/
theorem slice_append_slice (xs : List α) (off a b : ℕ) :
    slice xs off a ++ slice xs (off + a) b = slice xs off (a + b) := by
  simp only [slice, List.take_add, List.drop_drop]

/-- A slice of a slice is a slice. -/
theorem slice_slice (xs : List α) (off len o l : ℕ) :
    slice (slice xs off len) o l = slice xs (off + o) (min l (len - o)) := by
  simp [slice, List.drop_take, List.take_take, List.drop_drop]

/-- A slice of a slice that stays inside it is a slice of the same length. -/
theorem slice_slice_of_le {len o l : ℕ} (h : o + l ≤ len) (xs : List α) (off : ℕ) :
    slice (slice xs off len) o l = slice xs (off + o) l := by
  rw [slice_slice, Nat.min_eq_left (by omega)]

/-- A prefix of a slice is a shorter slice. -/
theorem take_slice (xs : List α) (off len k : ℕ) :
    (slice xs off len).take k = slice xs off (min k len) := by
  simp [slice, List.take_take]

/-- What a partial read returns, a prefix of the slice asked for, is itself a slice. -/
theorem eq_slice_of_prefix {xs d : List α} {off len : ℕ} (h : d <+: slice xs off len) :
    d = slice xs off d.length := by
  have hlen : d.length ≤ len := by
    have := h.length_le
    rw [length_slice] at this
    omega
  have htake := List.prefix_iff_eq_take.mp h
  rwa [take_slice, Nat.min_eq_left hlen] at htake

/-- Asking for more than is left changes nothing. -/
theorem slice_min (xs : List α) (off len : ℕ) :
    slice xs off (min len (xs.length - off)) = slice xs off len := by
  unfold slice
  rw [← List.length_drop, ← List.take_eq_take_min]

/-! ## Concatenation -/

/-- A slice inside the front of a concatenation is one of the front. -/
theorem slice_append_left {xs : List α} {off len : ℕ} (h : off + len ≤ xs.length)
    (ys : List α) : slice (xs ++ ys) off len = slice xs off len := by
  unfold slice
  rw [List.drop_append_of_le_length (by omega), List.take_append_of_le_length (by simp; omega)]

/-- A slice behind the front of a concatenation is one of the back. -/
theorem slice_append_right (xs ys : List α) (off len : ℕ) :
    slice (xs ++ ys) (xs.length + off) len = slice ys off len := by
  unfold slice
  rw [← List.drop_drop, List.drop_left]

/-- The middle of three concatenated lists is a slice. -/
theorem slice_middle (xs ys zs : List α) :
    slice (xs ++ (ys ++ zs)) xs.length ys.length = ys := by
  have := slice_append_right xs (ys ++ zs) 0 ys.length
  rw [Nat.add_zero] at this
  rw [this, slice_append_left (by omega), slice_full]

/-- Where the list is dropped up to the slice, the slice is a prefix. -/
theorem slice_drop (xs : List α) (k off len : ℕ) :
    slice (xs.drop k) off len = slice xs (k + off) len := by
  simp [slice, List.drop_drop]

/-! ## Elements -/

/-- The elements at `n` positions from `pos` on, if all of them exist. -/
def readAt (f : ℕ → Option α) (pos : ℕ) : ℕ → Option (List α)
  | 0 => some []
  | n + 1 => (f pos).bind fun x => (readAt f (pos + 1) n).map (x :: ·)

variable {f : ℕ → Option α} {pos n : ℕ}

/-- A reading that begins where there is no element fails. -/
theorem readAt_eq_none (h : f pos = none) (hn : 0 < n) : readAt f pos n = none := by
  obtain ⟨n, rfl⟩ : ∃ k, n = k + 1 := ⟨n - 1, by omega⟩
  rw [readAt, h]
  rfl

/-- **A reading can be cut anywhere.** -/
theorem readAt_add (f : ℕ → Option α) (pos m n : ℕ) :
    readAt f pos (m + n) =
      (readAt f pos m).bind fun xs => (readAt f (pos + m) n).map (xs ++ ·) := by
  induction m generalizing pos with
  | zero =>
      rw [Nat.zero_add]
      show _ = (readAt f (pos + 0) n).map ([] ++ ·)
      rw [Nat.add_zero]
      rcases readAt f pos n with _ | xs <;> rfl
  | succ m ih =>
      have hpos : pos + 1 + m = pos + (m + 1) := by omega
      rw [Nat.succ_add, readAt, readAt, ih, hpos]
      rcases f pos with _ | x
      · rfl
      · rcases readAt f (pos + 1) m with _ | xs
        · rfl
        · rcases readAt f (pos + (m + 1)) n with _ | ys <;> rfl

/-- A reading over a position without an element fails. -/
theorem readAt_eq_none_of_lt {i : ℕ} (h : f (pos + i) = none) (hi : i < n) :
    readAt f pos n = none := by
  have hsplit := readAt_add f pos i (n - i)
  rw [Nat.add_sub_cancel' hi.le, readAt_eq_none h (by omega)] at hsplit
  rw [hsplit]
  cases readAt f pos i <;> rfl

/-- A reading returns as many elements as asked for. -/
theorem length_of_readAt_eq_some {xs : List α} (h : readAt f pos n = some xs) : xs.length = n := by
  induction n generalizing pos xs with
  | zero =>
      cases h
      rfl
  | succ n ih =>
      obtain ⟨x, -, h⟩ := Option.bind_eq_some_iff.mp h
      obtain ⟨ys, hys, rfl⟩ := Option.map_eq_some_iff.mp h
      rw [List.length_cons, ih hys]

/-- A reading of the elements of a list is a slice. -/
theorem readAt_eq_slice {xs : List α} {off : ℕ} (h : ∀ i < n, f (pos + i) = xs[off + i]?)
    (hn : off + n ≤ xs.length) : readAt f pos n = some (slice xs off n) := by
  induction n generalizing pos off with
  | zero => simp only [readAt, slice, List.take_zero]
  | succ n ih =>
      have hoff : off < xs.length := by omega
      have hrest : readAt f (pos + 1) n = some (slice xs (off + 1) n) := by
        refine ih (fun i hi => ?_) (by omega)
        have := h (i + 1) (by omega)
        rwa [Nat.add_comm i 1, ← Nat.add_assoc, ← Nat.add_assoc] at this
      have hfirst : f pos = some xs[off] := by
        have := h 0 (by omega)
        rwa [Nat.add_zero, Nat.add_zero, List.getElem?_eq_getElem hoff] at this
      rw [readAt, hfirst, hrest]
      rw [slice, slice, List.drop_eq_getElem_cons hoff, List.take_succ_cons]
      rfl

end VirParquet.Found
