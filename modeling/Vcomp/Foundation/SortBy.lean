import Mathlib.Data.List.Sort

namespace SortBy

variable {α : Type*} {less : α → α → Bool}

def sortBy (less : α → α → Bool) (l : List α) : List α := l.insertionSort fun a b => less b a = false

structure Comparator (less : α → α → Bool) : Prop where
  total : ∀ a b, less b a = false ∨ less a b = false
  trans : ∀ a b c, less b a = false → less c b = false → less c a = false

theorem Comparator.of_rank {β : Type*} [LinearOrder β] (rank : α → β)
    (ranked : ∀ a b, less a b = true ↔ rank a < rank b) : Comparator less := by
  have notLess : ∀ a b, less a b = false ↔ rank b ≤ rank a := by
    intro a b
    rw [← Bool.not_eq_true, ranked, not_lt]
  constructor
  · intro a b
    rw [notLess, notLess]
    exact le_total _ _
  · intro a b c
    rw [notLess, notLess, notLess]
    exact le_trans

theorem sortBy_perm (less : α → α → Bool) (l : List α) : (sortBy less l).Perm l := List.perm_insertionSort _ l

@[simp] theorem mem_sortBy {l : List α} {a : α} : a ∈ sortBy less l ↔ a ∈ l := (sortBy_perm less l).mem_iff

variable (comparator : Comparator less)
include comparator

theorem sortBy_sorted (l : List α) : (sortBy less l).Pairwise fun a b => less b a = false :=
  have : Std.Total fun a b => less b a = false := ⟨comparator.total⟩
  have : IsTrans α fun a b => less b a = false := ⟨comparator.trans⟩
  List.pairwise_insertionSort _ l

theorem Comparator.irrefl (a : α) : less a a = false :=
  (comparator.total a a).elim id id

theorem sortBy_index {l : List α} {a b : α} {i j : ℕ}
    (atA : (sortBy less l)[i]? = some a) (atB : (sortBy less l)[j]? = some b) (first : less a b = true) : i < j := by
  by_contra notBefore
  obtain ⟨belowA, rfl⟩ := List.getElem?_eq_some_iff.mp atA
  obtain ⟨belowB, rfl⟩ := List.getElem?_eq_some_iff.mp atB
  rcases Nat.lt_or_eq_of_le (Nat.le_of_not_lt notBefore) with later | rfl
  · have sorted := List.pairwise_iff_getElem.mp (sortBy_sorted comparator l) j i belowB belowA later
    rw [sorted] at first
    nomatch first
  · rw [comparator.irrefl] at first
    nomatch first

end SortBy
