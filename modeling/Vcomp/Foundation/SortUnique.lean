import Mathlib.Data.List.Sort
import Mathlib.Data.List.Destutter

def sortUnique {α : Type*} [LinearOrder α] (l : List α) : List α :=
  (l.insertionSort (· ≤ ·)).destutter (· ≠ ·)

namespace SortUnique

variable {α : Type*} [LinearOrder α] {l : List α}

section

variable (sorted : l.Pairwise (· ≤ ·))
include sorted

theorem destutter_ne_of_sorted : l.destutter (· ≠ ·) = l.dedup :=
  sorted.destutter_eq_dedup

theorem pairwise_lt_of_le_nodup (nodup : l.Nodup) : l.Pairwise (· < ·) := by
  have both := List.pairwise_and_iff.mpr ⟨sorted, nodup⟩
  exact both.imp (fun h => lt_of_le_of_ne h.1 h.2)

theorem destutter_pairwise_lt : (l.destutter (· ≠ ·)).Pairwise (· < ·) := by
  rw [destutter_ne_of_sorted sorted]
  exact pairwise_lt_of_le_nodup (sorted.sublist (List.dedup_sublist l)) (List.nodup_dedup l)

theorem mem_destutter_of_sorted {x : α} : x ∈ l.destutter (· ≠ ·) ↔ x ∈ l := by
  rw [destutter_ne_of_sorted sorted, List.mem_dedup]

end

@[simp] theorem mem_sortUnique {x : α} : x ∈ sortUnique l ↔ x ∈ l := by
  unfold sortUnique
  rw [mem_destutter_of_sorted (List.pairwise_insertionSort _ _), List.mem_insertionSort]

theorem sortUnique_pairwise (l : List α) : (sortUnique l).Pairwise (· < ·) :=
  destutter_pairwise_lt (List.pairwise_insertionSort _ _)

end SortUnique
