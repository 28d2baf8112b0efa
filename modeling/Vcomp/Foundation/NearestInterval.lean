import Mathlib.Algebra.Order.Field.Basic
import Mathlib.Tactic.Linarith
import Mathlib.Data.List.Pairwise

namespace NearestInterval

open List

variable {K α : Type*} [Field K] [LinearOrder K] [IsStrictOrderedRing K] {lo hi : α → K} {l : List α} {a b : α} {p : K}

def distance (lo hi p : K) : K :=
  if p < lo then lo - p else if hi < p then p - hi else 0

theorem distance_nonneg (lo hi p : K) : 0 ≤ distance lo hi p := by
  unfold distance
  split_ifs <;> linarith

theorem distance_zero_iff {lo hi : K} : distance lo hi p = 0 ↔ lo ≤ p ∧ p ≤ hi := by
  unfold distance
  split_ifs with lt above
  · constructor
    · intro h; linarith
    · intro h; exact absurd lt (not_lt.mpr h.1)
  · constructor
    · intro h; linarith
    · intro h; exact absurd above (not_lt.mpr h.2)
  · exact ⟨fun _ => ⟨not_lt.mp lt, not_lt.mp above⟩, fun _ => rfl⟩

theorem distance_closer_persists {loA hiA loB hiB q : K} (ordered : loA ≤ hiA) (later : loB ≤ loA)
    (le : p ≤ q) (closer : distance loA hiA p < distance loB hiB p) : distance loA hiA q < distance loB hiB q := by
  have pos : 0 < distance loB hiB p := lt_of_le_of_lt (distance_nonneg _ _ _) closer
  have notBelow : ¬ p < loB := by
    intro lt
    have belowA : p < loA := lt_of_lt_of_le lt later
    simp only [distance, lt, belowA, if_true] at closer
    linarith
  have above : hiB < p := by
    by_contra inside
    have zero : distance loB hiB p = 0 := distance_zero_iff.mpr ⟨not_lt.mp notBelow, not_lt.mp inside⟩
    linarith
  have aboveQ : hiB < q := lt_of_lt_of_le above le
  have notBelowQ : ¬ q < loB := not_lt.mpr (le_trans (not_lt.mp notBelow) le)
  simp only [distance, notBelow, above, if_true, if_false] at closer
  simp only [distance, notBelowQ, aboveQ, if_true, if_false]
  split_ifs at closer ⊢ <;> linarith

/-- `a` is the first element of the list whose interval is at minimal distance from `p`. -/
def IsFirstNearest (lo hi : α → K) (p : K) (l : List α) (a : α) : Prop :=
  ∃ before after, l = before ++ a :: after ∧
    (∀ x ∈ before, distance (lo a) (hi a) p < distance (lo x) (hi x) p) ∧
    (∀ x ∈ after, distance (lo a) (hi a) p ≤ distance (lo x) (hi x) p)

omit [IsStrictOrderedRing K] in
theorem IsFirstNearest.mem (h : IsFirstNearest lo hi p l a) : a ∈ l := by
  obtain ⟨before, after, rfl, _, _⟩ := h
  simp

omit [IsStrictOrderedRing K] in
theorem IsFirstNearest.singleton (lo hi : α → K) (p : K) (a : α) : IsFirstNearest lo hi p [a] a :=
  ⟨[], [], rfl, by simp, by simp⟩

omit [IsStrictOrderedRing K] in
theorem IsFirstNearest.append_closer (h : IsFirstNearest lo hi p l a)
    (closer : distance (lo b) (hi b) p < distance (lo a) (hi a) p) :
    IsFirstNearest lo hi p (l ++ [b]) b := by
  obtain ⟨before, after, rfl, closerA, closeA⟩ := h
  refine ⟨before ++ a :: after, [], rfl, ?_, by simp⟩
  intro x mem
  rcases mem_append.mp mem with earlier | later
  · exact closer.trans (closerA x earlier)
  · rcases mem_cons.mp later with rfl | later
    · exact closer
    · exact closer.trans_le (closeA x later)

omit [IsStrictOrderedRing K] in
theorem IsFirstNearest.append_farther (h : IsFirstNearest lo hi p l a)
    (farther : distance (lo a) (hi a) p ≤ distance (lo b) (hi b) p) :
    IsFirstNearest lo hi p (l ++ [b]) a := by
  obtain ⟨before, after, rfl, closerA, closeA⟩ := h
  refine ⟨before, after ++ [b], by simp, closerA, ?_⟩
  intro x mem
  rcases mem_append.mp mem with earlier | last
  · exact closeA x earlier
  · rw [mem_singleton.mp last]
    exact farther

theorem split_cases {before after before' after' : List α} (ha : l = before ++ a :: after) (hb : l = before' ++ b :: after') :
    a = b ∨ b ∈ after ∨ (b ∈ before ∧ a ∈ after') := by
  rw [ha] at hb
  rcases append_eq_append_iff.mp hb with ⟨middle, hm, ht⟩ | ⟨middle, hm, ht⟩
  · cases middle with
    | nil =>
      simp only [nil_append, List.cons.injEq] at ht
      exact .inl ht.1
    | cons x middle =>
      simp only [cons_append, List.cons.injEq] at ht
      right; left
      rw [ht.2]
      simp
  · cases middle with
    | nil =>
      simp only [nil_append, List.cons.injEq] at ht
      exact .inl ht.1.symm
    | cons x middle =>
      simp only [cons_append, List.cons.injEq] at ht
      right; right
      constructor
      · rw [hm, ← ht.1]; simp
      · rw [ht.2]; simp

theorem IsFirstNearest.monotone {q : K} {R : α → α → Prop}
    (ha : IsFirstNearest lo hi p l a) (hb : IsFirstNearest lo hi q l b) (le : p ≤ q)
    (proper : ∀ x ∈ l, lo x ≤ hi x) (starts : l.Pairwise (fun x y => lo x ≤ lo y))
    (related : l.Pairwise R) : a = b ∨ R a b := by
  have memA := ha.mem
  obtain ⟨before, after, splitA, closerA, _⟩ := ha
  obtain ⟨before', after', splitB, _, closeB⟩ := hb
  rcases split_cases splitA splitB with eq | follows | ⟨precedes, inAfter⟩
  · exact .inl eq
  · right
    rw [splitA] at related
    exact (pairwise_cons.mp (pairwise_append.mp related).2.1).1 b follows
  · have later : lo b ≤ lo a := by
      rw [splitB] at starts
      exact (pairwise_cons.mp (pairwise_append.mp starts).2.1).1 a inAfter
    have strict := distance_closer_persists (proper a memA) later le (closerA b precedes)
    exact absurd (closeB a inAfter) (not_le.mpr strict)

end NearestInterval
