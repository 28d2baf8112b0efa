import Vcomp.Foundation.SortBy

namespace TaggedMerge

open SortBy List

variable {α : Type*} (less : α → α → Bool) {left right : List α}

def insertLeft (a : α) (rest : List α → List (Bool × α)) : List α → List (Bool × α)
  | [] => (true, a) :: rest []
  | b :: right => if less a b then (true, a) :: rest (b :: right) else (false, b) :: insertLeft a rest right

/-- Merge of two sorted lists that remembers which elements are from the left one. -/
def merge : (left right : List α) → List (Bool × α)
  | [], right => right.map (false, ·)
  | a :: left, right => insertLeft less a (merge left) right

theorem insertLeft_perm (a : α) {rest : List α → List (Bool × α)} {tail : List (Bool × α)}
    (perm : ∀ right, (rest right).Perm (tail ++ right.map (false, ·))) (right : List α) :
    (insertLeft less a rest right).Perm ((true, a) :: (tail ++ right.map (false, ·))) := by
  induction right with
  | nil => exact (perm []).cons (true, a)
  | cons b right ih =>
    unfold insertLeft
    split
    · exact (perm (b :: right)).cons (true, a)
    · apply (ih.cons (false, b)).trans
      rw [map_cons, ← cons_append, ← cons_append]
      exact perm_middle.symm

theorem merge_perm (left right : List α) :
    (merge less left right).Perm (left.map (true, ·) ++ right.map (false, ·)) := by
  induction left generalizing right with
  | nil => exact List.Perm.refl _
  | cons a left ih => exact insertLeft_perm less a ih right

theorem mem_merge {x : Bool × α} : x ∈ merge less left right ↔ x.1 = true ∧ x.2 ∈ left ∨ x.1 = false ∧ x.2 ∈ right := by
  rw [(merge_perm less left right).mem_iff]
  obtain ⟨tag, a⟩ := x
  cases tag <;> simp

variable {less}

theorem insertLeft_sorted (comparator : Comparator less) {a : α}
    (rest : ∀ right : List α, right.Pairwise (fun x y => less y x = false) →
      (merge less left right).Pairwise fun x y => less y.2 x.2 = false)
    (first : ∀ x ∈ left, less x a = false) (right : List α) (sorted : right.Pairwise fun x y => less y x = false) :
    (insertLeft less a (merge less left) right).Pairwise fun x y => less y.2 x.2 = false := by
  induction right with
  | nil =>
    apply pairwise_cons.mpr
    refine ⟨?_, rest [] .nil⟩
    intro x mem
    rcases (mem_merge less).mp mem with ⟨-, old⟩ | ⟨-, new⟩
    · exact first x.2 old
    · cases new
  | cons b right ih =>
    obtain ⟨before, later⟩ := pairwise_cons.mp sorted
    unfold insertLeft
    split
    next less' =>
      have notAfter : less b a = false := by
        rcases comparator.total a b with h | h
        · exact h
        · rw [h] at less'
          cases less'
      apply pairwise_cons.mpr
      refine ⟨?_, rest (b :: right) sorted⟩
      intro x mem
      rcases (mem_merge less).mp mem with ⟨-, old⟩ | ⟨-, new⟩
      · exact first x.2 old
      · rcases mem_cons.mp new with eq | deeper
        · rw [eq]
          exact notAfter
        · exact comparator.trans _ _ _ notAfter (before x.2 deeper)
    next notLess =>
      have notAfter : less a b = false := Bool.not_eq_true _ ▸ notLess
      apply pairwise_cons.mpr
      refine ⟨?_, ih later⟩
      intro x mem
      have cases' := (insertLeft_perm less a (fun right => merge_perm less left right) right).mem_iff.mp mem
      rcases mem_cons.mp cases' with rfl | inner
      · exact notAfter
      · rcases mem_append.mp inner with old | new
        · obtain ⟨y, inLeft, rfl⟩ := mem_map.mp old
          exact comparator.trans _ _ _ notAfter (first y inLeft)
        · obtain ⟨y, inRight, rfl⟩ := mem_map.mp new
          exact before y inRight

theorem merge_sorted (comparator : Comparator less)
    (leftSorted : left.Pairwise fun x y => less y x = false) (rightSorted : right.Pairwise fun x y => less y x = false) :
    (merge less left right).Pairwise fun x y => less y.2 x.2 = false := by
  induction left generalizing right with
  | nil => exact rightSorted.map _ fun _ _ sorted => sorted
  | cons a left ih =>
    obtain ⟨first, later⟩ := pairwise_cons.mp leftSorted
    exact insertLeft_sorted comparator (fun right sorted => ih later sorted) first right rightSorted

end TaggedMerge
