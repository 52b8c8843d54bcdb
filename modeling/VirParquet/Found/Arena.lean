import Mathlib.Data.List.Nodup
import Mathlib.Logic.Function.Basic
import Mathlib.Tactic.Common

/-!
# Objects at addresses, and who owns them

An `Arena` is a memory of objects of one kind, each at its address. `Arena.Owned A owners` says that
the objects are exactly those at the addresses of the list `owners`, which names none of them twice:
none is lost and none is held after it was freed. Allocation at an address that is not in use and
freeing what is owned keep this (`Owned.alloc`, `Owned.free`).
-/

namespace VirParquet.Found

/-- A memory of objects of one kind. -/
structure Arena (α : Type) where
  /-- The object at an address. -/
  find : ℕ → Option α

namespace Arena

variable {α : Type}

/-- A memory without objects. -/
def empty : Arena α := ⟨fun _ => none⟩

/-- The memory with an object more. -/
def alloc (A : Arena α) (a : ℕ) (x : α) : Arena α := ⟨Function.update A.find a (some x)⟩

/-- The memory with an object less. -/
def free (A : Arena α) (a : ℕ) : Arena α := ⟨Function.update A.find a none⟩

/-- The address that was given holds the new object. -/
@[simp] theorem find_alloc_self (A : Arena α) (a : ℕ) (x : α) : (A.alloc a x).find a = some x :=
  Function.update_self ..

/-- The others are where they were. -/
theorem find_alloc_of_ne (A : Arena α) {a b : ℕ} (h : b ≠ a) (x : α) :
    (A.alloc a x).find b = A.find b := Function.update_of_ne h ..

/-- The object is gone. -/
@[simp] theorem find_free_self (A : Arena α) (a : ℕ) : (A.free a).find a = none :=
  Function.update_self ..

/-- The others are still there. -/
theorem find_free_of_ne (A : Arena α) {a b : ℕ} (h : b ≠ a) : (A.free a).find b = A.find b :=
  Function.update_of_ne h ..

/-- The objects are those at the addresses of the list, in which each is once. -/
structure Owned (A : Arena α) (owners : List ℕ) : Prop where
  nodup : owners.Nodup
  isSome_iff : ∀ a, (A.find a).isSome ↔ a ∈ owners

variable {A : Arena α} {owners : List ℕ} {a : ℕ}

/-- Nobody owns anything at first. -/
theorem owned_empty : (empty : Arena α).Owned [] where
  nodup := List.nodup_nil
  isSome_iff a := by simp [empty]

/-- A new object has an owner. -/
theorem Owned.alloc (h : A.Owned owners) (hfree : A.find a = none) (x : α) :
    (A.alloc a x).Owned (a :: owners) := by
  have hnew : a ∉ owners := by
    intro hmem
    have hsome := (h.isSome_iff a).mpr hmem
    rw [hfree] at hsome
    cases hsome
  refine ⟨List.nodup_cons.mpr ⟨hnew, h.nodup⟩, fun b => ?_⟩
  by_cases hb : b = a
  · subst hb
    simp
  · rw [find_alloc_of_ne A hb, h.isSome_iff, List.mem_cons, or_iff_right hb]

/-- What is freed has no owner any more. -/
theorem Owned.free (h : A.Owned owners) (a : ℕ) : (A.free a).Owned (owners.erase a) := by
  refine ⟨h.nodup.erase a, fun b => ?_⟩
  by_cases hb : b = a
  · subst hb
    simp [h.nodup.mem_erase_iff]
  · rw [find_free_of_ne A hb, h.isSome_iff, h.nodup.mem_erase_iff, and_iff_right hb]

end Arena

end VirParquet.Found
