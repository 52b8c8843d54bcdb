import VirParquet.Found.Slice
import Mathlib.Algebra.BigOperators.Group.List.Lemmas
import Mathlib.Algebra.Order.BigOperators.Group.List

/-!
# Extents: blocks laid end to end

A concatenation of blocks addressed by position. `start sizes i` is where block `i` begins,
`starts sizes` lists all beginnings and, last, the end; `upperBound xs x` is the position of the
first entry of `xs` above `x` (C++'s `std::upper_bound` on a sorted range). The two facts a reader
of such a layout needs are `upperBound_starts` (the upper bound less one is the block that holds
the position, also when empty blocks make entries repeat) and `slice_flatten` (a slice that stays
in one block is a slice of that block).
-/

namespace VirParquet.Found

/-! ## Where blocks begin -/

/-- The position at which block `i` begins. -/
def start (sizes : List ℕ) (i : ℕ) : ℕ := (sizes.take i).sum

/-- The beginnings of all blocks, and last the end of the layout. -/
def starts (sizes : List ℕ) : List ℕ := (List.range (sizes.length + 1)).map (start sizes)

/-- The layout begins at zero. -/
@[simp] theorem start_zero (sizes : List ℕ) : start sizes 0 = 0 := by
  simp [start]

/-- The layout ends at the sum of the sizes. -/
theorem start_length (sizes : List ℕ) : start sizes sizes.length = sizes.sum := by
  simp [start]

/-- A block begins where the one before it ends. -/
theorem start_succ {sizes : List ℕ} {i : ℕ} (h : i < sizes.length) :
    start sizes (i + 1) = start sizes i + sizes[i] := by
  unfold start
  rw [List.take_succ_eq_append_getElem h, List.sum_append, List.sum_singleton]

/-- Beginnings never go down. -/
theorem start_mono (sizes : List ℕ) {i j : ℕ} (h : i ≤ j) : start sizes i ≤ start sizes j := by
  unfold start
  obtain ⟨k, rfl⟩ := Nat.exists_eq_add_of_le h
  rw [List.take_add, List.sum_append]
  omega

/-- Every block begins inside the layout. -/
theorem start_le_sum (sizes : List ℕ) (i : ℕ) : start sizes i ≤ sizes.sum := by
  unfold start
  conv_rhs => rw [← List.take_append_drop i sizes, List.sum_append]
  omega

/-- Blocks added at the end do not move a beginning. -/
theorem start_append_left {xs : List ℕ} {i : ℕ} (h : i ≤ xs.length) (ys : List ℕ) :
    start (xs ++ ys) i = start xs i := by
  unfold start
  rw [List.take_append_of_le_length h]

/-- One beginning more than there are blocks. -/
@[simp] theorem length_starts (sizes : List ℕ) : (starts sizes).length = sizes.length + 1 := by
  simp [starts]

/-- The list of beginnings has the beginning of each block at its index. -/
theorem getElem?_starts {sizes : List ℕ} {i : ℕ} (h : i ≤ sizes.length) :
    (starts sizes)[i]? = some (start sizes i) := by
  unfold starts
  rw [List.getElem?_map, List.getElem?_range (by omega)]
  rfl

/-- A block added at the end adds the new end to the beginnings. -/
theorem starts_append_singleton (sizes : List ℕ) (k : ℕ) :
    starts (sizes ++ [k]) = starts sizes ++ [sizes.sum + k] := by
  unfold starts
  rw [List.length_append, List.length_singleton, List.range_succ, List.map_append]
  congr 1
  · refine List.map_congr_left fun i hi => ?_
    exact start_append_left (by simpa [Nat.lt_succ_iff] using hi) [k]
  · simp [start]

/-- The list of beginnings never goes down. -/
theorem pairwise_starts (sizes : List ℕ) : (starts sizes).Pairwise (· ≤ ·) := by
  rw [starts, List.pairwise_map]
  exact List.pairwise_lt_range.imp fun h => start_mono sizes h.le

/-! ## Tilings -/

/-- The extents, each a place and a length, lie end to end from `a` to `b`. -/
def Tiles : ℕ → List (ℕ × ℕ) → ℕ → Prop
  | a, [], b => a = b
  | a, x :: xs, b => x.1 = a ∧ Tiles (a + x.2) xs b

section tiles

variable {a b : ℕ} {xs : List (ℕ × ℕ)}

/-- The extents of a tiling lie inside it. -/
theorem Tiles.bounds (h : Tiles a xs b) : a ≤ b ∧ ∀ x ∈ xs, a ≤ x.1 ∧ x.1 + x.2 ≤ b := by
  induction xs generalizing a with
  | nil =>
      obtain rfl : a = b := h
      exact ⟨le_rfl, by simp⟩
  | cons x xs ih =>
      obtain ⟨rfl, hrest⟩ := h
      obtain ⟨hle, hmem⟩ := ih hrest
      refine ⟨by omega, fun y hy => ?_⟩
      rcases List.mem_cons.mp hy with rfl | hy
      · exact ⟨le_rfl, hle⟩
      · have := hmem y hy
        omega

/-- **The extents of a tiling are disjoint** and come in order. -/
theorem Tiles.pairwise (h : Tiles a xs b) : xs.Pairwise fun x y => x.1 + x.2 ≤ y.1 := by
  induction xs generalizing a with
  | nil => exact List.Pairwise.nil
  | cons x xs ih =>
      obtain ⟨rfl, hrest⟩ := h
      exact List.pairwise_cons.mpr ⟨fun y hy => (hrest.bounds.2 y hy).1, ih hrest⟩

/-- **The extents of a tiling cover it** and nothing else. -/
theorem Tiles.mem_iff (h : Tiles a xs b) (p : ℕ) :
    (∃ x ∈ xs, x.1 ≤ p ∧ p < x.1 + x.2) ↔ a ≤ p ∧ p < b := by
  constructor
  · rintro ⟨x, hx, hlow, hup⟩
    have := h.bounds.2 x hx
    omega
  · rintro ⟨hlow, hup⟩
    induction xs generalizing a with
    | nil =>
        obtain rfl : a = b := h
        omega
    | cons x xs ih =>
        obtain ⟨rfl, hrest⟩ := h
        by_cases hp : p < x.1 + x.2
        · exact ⟨x, List.mem_cons_self, hlow, hp⟩
        · obtain ⟨y, hy, hmem⟩ := ih hrest (by omega)
          exact ⟨y, List.mem_cons_of_mem _ hy, hmem⟩

end tiles

/-! ## The block of a position -/

/-- The position of the first entry above `x`, the length if there is none. -/
def upperBound (xs : List ℕ) (x : ℕ) : ℕ := xs.findIdx fun y => decide (x < y)

/-- The upper bound is known from the entries on both sides of it. -/
theorem upperBound_eq {xs : List ℕ} {x i : ℕ} (hlow : ∀ j < i, ∀ y, xs[j]? = some y → y ≤ x)
    (hi : i ≤ xs.length) (hup : ∀ y, xs[i]? = some y → x < y) : upperBound xs x = i := by
  unfold upperBound
  rcases Nat.lt_or_eq_of_le hi with hlt | rfl
  · rw [List.findIdx_eq hlt]
    refine ⟨by simpa using hup xs[i] (List.getElem?_eq_getElem hlt), fun j hj => ?_⟩
    simpa using hlow j hj _ (List.getElem?_eq_getElem (by omega))
  · rw [List.findIdx_eq_length]
    intro y hy
    obtain ⟨j, hj, rfl⟩ := List.mem_iff_getElem.mp hy
    simpa using hlow j hj _ (List.getElem?_eq_getElem hj)

/-- A position inside the layout lies in some block. -/
theorem exists_block {sizes : List ℕ} {x : ℕ} (h : x < sizes.sum) :
    ∃ i < sizes.length, start sizes i ≤ x ∧ x < start sizes (i + 1) := by
  have hex : ∃ i, x < start sizes (i + 1) := by
    refine ⟨sizes.length, ?_⟩
    have := start_mono sizes (Nat.le_succ sizes.length)
    rw [start_length] at this
    exact lt_of_lt_of_le h this
  classical
  have hmin : ∀ j < Nat.find hex, ¬ x < start sizes (j + 1) := fun j hj => Nat.find_min hex hj
  have hlow : start sizes (Nat.find hex) ≤ x := by
    cases hf : Nat.find hex with
    | zero => simp
    | succ k => exact not_lt.mp (hmin k (by omega))
  refine ⟨Nat.find hex, ?_, hlow, Nat.find_spec hex⟩
  by_contra hge
  have := start_mono sizes (not_lt.mp hge)
  rw [start_length] at this
  omega

/-- **The block of a position**: inside the layout the upper bound of the beginnings is one more
than the block that holds the position. -/
theorem upperBound_starts {sizes : List ℕ} {x i : ℕ} (hi : i < sizes.length)
    (hlow : start sizes i ≤ x) (hup : x < start sizes (i + 1)) :
    upperBound (starts sizes) x = i + 1 := by
  refine upperBound_eq (fun j hj y hy => ?_) (by simp; omega) fun y hy => ?_
  · rw [getElem?_starts (by omega), Option.some.injEq] at hy
    exact hy ▸ (start_mono sizes (by omega)).trans hlow
  · rw [getElem?_starts (by omega), Option.some.injEq] at hy
    exact hy ▸ hup

/-! ## Blocks and their concatenation -/

variable {α : Type}

/-- The sizes of the blocks add up to the length of their concatenation. -/
theorem sum_map_length (blocks : List (List α)) :
    (blocks.map List.length).sum = blocks.flatten.length := by
  rw [List.length_flatten]

/-- **A slice that stays in one block** of a concatenation is a slice of the block. -/
theorem slice_flatten {blocks : List (List α)} {i : ℕ} (hi : i < blocks.length) {off len : ℕ}
    (h : off + len ≤ blocks[i].length) :
    slice blocks.flatten (start (blocks.map List.length) i + off) len =
      slice blocks[i] off len := by
  have hsplit : blocks.flatten =
      (blocks.take i).flatten ++ (blocks[i] ++ (blocks.drop (i + 1)).flatten) := by
    conv_lhs => rw [← List.take_append_drop i blocks, List.drop_eq_getElem_cons hi]
    rw [List.flatten_append, List.flatten_cons]
  have hstart : start (blocks.map List.length) i = (blocks.take i).flatten.length := by
    unfold start
    rw [← List.map_take, sum_map_length]
  rw [hstart, hsplit, slice_append_right, slice_append_left h]

end VirParquet.Found
