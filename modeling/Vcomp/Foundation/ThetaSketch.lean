import Vcomp.Foundation.SortUnique

namespace ThetaSketch

open List

variable {α : Type*} [LinearOrder α]

/-- Offer an element to a bounded max-heap of the smallest ones, kept in descending order. -/
def offer (bound : ℕ) (heap : List α) (x : α) : List α :=
  if heap.length < bound then heap.orderedInsert (· ≥ ·) x
  else
    match heap with
    | [] => []
    | front :: rest => if x < front then rest.orderedInsert (· ≥ ·) x else front :: rest

structure IsSample (theta : α) (samples : List α) (H : Set α) : Prop where
  sorted : samples.Pairwise (· < ·)
  mem_iff : ∀ h, h ∈ samples ↔ h ∈ H ∧ h ≤ theta

theorem isSample_sortUnique {theta : α} {l : List α} {H : Set α} (members : ∀ h, h ∈ l ↔ h ∈ H ∧ h ≤ theta) :
    IsSample theta (sortUnique l) H :=
  ⟨SortUnique.sortUnique_pairwise l, fun h => SortUnique.mem_sortUnique.trans (members h)⟩

theorem le_getLast_of_sorted {l : List α} {back x : α} (sorted : l.Pairwise (· < ·))
    (last : l.getLast? = some back) (mem : x ∈ l) : x ≤ back := by
  obtain ⟨init, rfl⟩ := getLast?_eq_some_iff.mp last
  rcases mem_append.mp mem with earlier | final
  · exact ((pairwise_append.mp sorted).2.2 x earlier back (by simp)).le
  · exact (mem_singleton.mp final).le

theorem IsSample.take {theta back : α} {samples : List α} {H : Set α} (sample : IsSample theta samples H)
    {bound : ℕ} (last : (samples.take bound).getLast? = some back) : IsSample back (samples.take bound) H := by
  have sorted := sample.sorted.sublist (take_sublist bound samples)
  have backMem : back ∈ samples.take bound := mem_of_getLast? last
  have split := take_append_drop bound samples
  refine ⟨sorted, fun h => ⟨fun mem => ?_, fun ⟨inH, le⟩ => ?_⟩⟩
  · exact ⟨((sample.mem_iff h).mp (mem_of_mem_take mem)).1, le_getLast_of_sorted sorted last mem⟩
  · have backLe := ((sample.mem_iff back).mp (mem_of_mem_take backMem)).2
    have mem : h ∈ samples := (sample.mem_iff h).mpr ⟨inH, le.trans backLe⟩
    rw [← split] at mem
    rcases mem_append.mp mem with kept | dropped
    · exact kept
    · have all := sample.sorted
      rw [← split] at all
      exact absurd le (not_le.mpr ((pairwise_append.mp all).2.2 back backMem h dropped))

/-- The heap holds the smallest `bound` of the `count` distinct elements of `H`. -/
structure IsBottom (bound count : ℕ) (heap : List α) (H : Set α) : Prop where
  sorted : heap.Pairwise (· > ·)
  length : heap.length = min bound count
  mem : ∀ h ∈ heap, h ∈ H
  rest : ∀ h ∈ H, h ∉ heap → bound < count ∧ ∀ x ∈ heap, x < h

theorem isBottom_empty (bound : ℕ) : IsBottom bound 0 ([] : List α) ∅ :=
  ⟨by simp, by simp, by simp, by simp⟩

theorem orderedInsert_sorted {heap : List α} {x : α} (sorted : heap.Pairwise (· > ·)) (fresh : x ∉ heap) :
    (heap.orderedInsert (· ≥ ·) x).Pairwise (· > ·) := by
  have weak : (heap.orderedInsert (· ≥ ·) x).Pairwise (· ≥ ·) :=
    (sorted.imp fun h => h.le).orderedInsert x heap
  have nodup : (heap.orderedInsert (· ≥ ·) x).Nodup := by
    rw [(perm_orderedInsert (· ≥ ·) x heap).nodup_iff, nodup_cons]
    exact ⟨fresh, sorted.imp fun h => h.ne'⟩
  exact (pairwise_and_iff.mpr ⟨weak, nodup⟩).imp fun h => lt_of_le_of_ne h.1 h.2.symm

theorem IsBottom.offer {bound count : ℕ} {heap : List α} {H : Set α} (bottom : IsBottom bound count heap H)
    {x : α} (fresh : x ∉ H) : IsBottom bound (count + 1) (offer bound heap x) (insert x H) := by
  have notMem : x ∉ heap := fun mem => fresh (bottom.mem x mem)
  have length := bottom.length
  unfold ThetaSketch.offer
  split_ifs with room
  · refine ⟨orderedInsert_sorted bottom.sorted notMem, by rw [orderedInsert_length]; omega, ?_, ?_⟩
    · intro h mem
      rcases (mem_orderedInsert _).mp mem with rfl | old
      · exact Set.mem_insert _ _
      · exact Set.mem_insert_of_mem _ (bottom.mem h old)
    · intro h inH outside
      simp only [mem_orderedInsert, not_or] at outside
      have full := (bottom.rest h (Set.mem_of_mem_insert_of_ne inH outside.1) outside.2).1
      omega
  cases heap with
  | nil =>
    simp only [length_nil] at length room
    exact ⟨by simp, by simp only [length_nil]; omega, by simp, fun _ _ _ => ⟨by omega, by simp⟩⟩
  | cons front rest =>
    obtain ⟨beforeFront, sortedRest⟩ := pairwise_cons.mp bottom.sorted
    simp only [length_cons] at length room
    dsimp only
    split_ifs with smaller
    · have notRest : x ∉ rest := fun mem => notMem (mem_cons_of_mem _ mem)
      refine ⟨orderedInsert_sorted sortedRest notRest, by rw [orderedInsert_length]; omega, ?_, ?_⟩
      · intro h mem
        rcases (mem_orderedInsert _).mp mem with rfl | old
        · exact Set.mem_insert _ _
        · exact Set.mem_insert_of_mem _ (bottom.mem h (mem_cons_of_mem _ old))
      · intro h inH outside
        simp only [mem_orderedInsert, not_or] at outside
        -- the old front leaves the heap, and is above everything that stays
        have frontLe : front ≤ h := by
          by_cases same : h = front
          · exact same.ge
          · have old := Set.mem_of_mem_insert_of_ne inH outside.1
            exact ((bottom.rest h old (by simp [same, outside.2])).2 front (by simp)).le
        refine ⟨by omega, fun y mem => ?_⟩
        rcases (mem_orderedInsert _).mp mem with rfl | old
        · exact smaller.trans_le frontLe
        · exact (beforeFront y old).trans_le frontLe
    · have frontLt : front < x := lt_of_le_of_ne (not_lt.mp smaller) fun same => notMem (by simp [same])
      refine ⟨bottom.sorted, by simp only [length_cons]; omega, ?_, ?_⟩
      · intro h mem
        exact Set.mem_insert_of_mem _ (bottom.mem h mem)
      · intro h inH outside
        refine ⟨by omega, fun y mem => ?_⟩
        have le : y ≤ front := by
          rcases mem_cons.mp mem with rfl | later
          · exact le_rfl
          · exact (beforeFront y later).le
        rcases Set.mem_insert_iff.mp inH with rfl | old
        · exact le.trans_lt frontLt
        · exact (bottom.rest h old outside).2 y mem

section

variable {bound count : ℕ} {heap samples : List α} {H : Set α} (bottom : IsBottom bound count heap H)
  (sorted : samples.Pairwise (· < ·)) (same : ∀ h, h ∈ samples ↔ h ∈ heap)

include bottom sorted same

theorem IsBottom.isSample_complete {top : α} (above : ∀ h ∈ H, h ≤ top) (complete : count ≤ bound) :
    IsSample top samples H := by
  refine ⟨sorted, fun h => (same h).trans ⟨fun mem => ?_, fun ⟨inH, _⟩ => ?_⟩⟩
  · exact ⟨bottom.mem h mem, above h (bottom.mem h mem)⟩
  · by_contra outside
    have evicted := (bottom.rest h inH outside).1
    omega

theorem IsBottom.isSample_back {back : α} (last : samples.getLast? = some back) : IsSample back samples H := by
  have backMem : back ∈ heap := (same back).mp (mem_of_getLast? last)
  refine ⟨sorted, fun h => ⟨fun mem => ?_, fun ⟨inH, le⟩ => ?_⟩⟩
  · exact ⟨bottom.mem h ((same h).mp mem), le_getLast_of_sorted sorted last mem⟩
  · by_contra outside
    have above := (bottom.rest h inH (fun inHeap => outside ((same h).mpr inHeap))).2 back backMem
    exact absurd le (not_le.mpr above)

end

variable {ι : Type*} (f : ι → α) (l : List ι) (start : α)

theorem le_foldl_max :
    start ≤ l.foldl (fun bound i => max bound (f i)) start ∧
      ∀ i ∈ l, f i ≤ l.foldl (fun bound i => max bound (f i)) start := by
  induction l generalizing start with
  | nil => simp
  | cons first rest ih =>
    obtain ⟨above, members⟩ := ih (max start (f first))
    refine ⟨(le_max_left _ _).trans above, fun i mem => ?_⟩
    rcases mem_cons.mp mem with rfl | later
    · exact (le_max_right _ _).trans above
    · exact members i later

theorem foldl_min_le :
    l.foldl (fun bound i => min bound (f i)) start ≤ start ∧ ∀ i ∈ l, l.foldl (fun bound i => min bound (f i)) start ≤ f i :=
  le_foldl_max (α := αᵒᵈ) f l start

end ThetaSketch
