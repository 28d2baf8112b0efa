import Vcomp.Sst.Compaction

namespace VcompProof

open VcompModel SortUnique NearestInterval List

section

variable {lo hi : ℕ} {segs : List PLRSegment}

section

variable (tiles : Tiles lo hi segs)
include tiles

theorem Tiles.within : SegmentsWithin lo hi segs := by
  induction tiles with
  | nil => simp [SegmentsWithin]
  | cons first proper tail ih =>
    refine forall_mem_cons.mpr ⟨⟨first.ge, tail.le⟩, fun seg mem => ?_⟩
    exact ⟨(first ▸ proper.1).trans (ih seg mem).1, (ih seg mem).2⟩

theorem Tiles.keyMin (ne : segs ≠ []) : (PLRModel.mk segs).keyMin = lo := by
  cases tiles with
  | nil => exact absurd rfl ne
  | cons first => exact first

theorem assignIntercepts_tiles (cumulativePos : ℚ) : Tiles lo hi (assignIntercepts cumulativePos segs) := by
  induction tiles generalizing cumulativePos with
  | nil => exact .nil _
  | cons first proper _ ih => exact .cons first proper (ih _)

end

theorem compactSegments_tiles {prev : PLRSegment} {rest : List PLRSegment} (tiles : Tiles lo hi (prev :: rest)) :
    Tiles lo hi (compactSegments prev rest) := by
  induction rest generalizing prev lo with
  | nil => exact tiles
  | cons cur rest ih =>
    rw [compactSegments]
    cases tiles with
    | cons first proper tail =>
      split_ifs with joined
      · cases tail with
        | cons meets curProper tail =>
          exact ih (.cons first ⟨proper.1.trans (meets.symm.le.trans curProper.1), proper.2⟩ tail)
      · exact .cons first proper (ih tail)

end

variable {inputs : InputList} {merged : PLRModel} {total : ℕ} {rest : List ℕ} {front next : ℕ}

/-- The segments of the breakpoints with their positions, before adjacent ones are fused. -/
def mergedLines (inputs : InputList) (total : ℕ) : List PLRSegment :=
  let points := mergeBreakpoints inputs
  let order := (inputs.filterMap id).insertionSort (fun a b => a.keyMin ≤ b.keyMin)
  let sweep := sweepBreakpoints points { waiting := order }
  assignIntercepts 0 (rescaleSlopes total sweep.rawTotalEntries (points.getLastD (points.headD 0) - points.headD 0)
    sweep.merged)

theorem breakpoints_sorted {points : List ℕ} (pointsEq : mergeBreakpoints inputs = points) : points.Pairwise (· < ·) :=
  pointsEq ▸ sortUnique_pairwise _

theorem mergedLines_tiles (points : mergeBreakpoints inputs = front :: rest) (total : ℕ) :
    Tiles front ((front :: rest).getLastD front) (mergedLines inputs total) := by
  simp only [mergedLines, points]
  apply assignIntercepts_tiles
  exact rescaleSlopes_tiles (sweepBreakpoints_tiles rest _ (breakpoints_sorted points) (.nil front)) _ _ _

theorem front_lt_last (sorted : (front :: next :: rest).Pairwise (· < ·)) :
    front < (front :: next :: rest).getLastD front := by
  have eq : (front :: next :: rest).getLastD front = (next :: rest).getLastD next := by simp [getLast?_cons]
  rw [eq]
  exact (pairwise_cons.mp sorted).1 _ (mem_getLastD next rest)

theorem mergedLines_cons (points : mergeBreakpoints inputs = front :: next :: rest)
    (total : ℕ) : ∃ line lines, mergedLines inputs total = line :: lines := by
  have lt := front_lt_last (breakpoints_sorted points)
  cases lines : mergedLines inputs total with
  | nil =>
    have tiles := mergedLines_tiles points total
    rw [lines] at tiles
    generalize (front :: next :: rest).getLastD front = last at tiles lt
    cases tiles
    exact absurd lt (lt_irrefl _)
  | cons line rest => exact ⟨line, rest, rfl⟩

theorem compactSegments_ne_nil (prev : PLRSegment) (rest : List PLRSegment) : compactSegments prev rest ≠ [] := by
  induction rest generalizing prev with
  | nil => exact cons_ne_nil _ _
  | cons cur rest ih =>
    rw [compactSegments]
    split_ifs
    · exact ih _
    · exact cons_ne_nil _ _

theorem nWayMerge_ok {naive : ℕ} (counted : sumEntries inputs 0 = some naive)
    (points : mergeBreakpoints inputs = front :: next :: rest) :
    nWayMergeKMVRangeAware inputs =
      .ok (⟨compactMerged (mergedLines inputs (estimateKMVUnionEntries inputs naive))⟩,
        estimateKMVUnionEntries inputs naive) := by
  unfold nWayMergeKMVRangeAware
  split_ifs with empty
  · rw [empty] at points
    nomatch points
  simp only [counted, points, mergedLines, headD_cons]

theorem nWayMerge_eq (done : nWayMergeKMVRangeAware inputs = .ok (merged, total))
    (points : mergeBreakpoints inputs = front :: next :: rest) : merged = ⟨compactMerged (mergedLines inputs total)⟩ := by
  cases counted : sumEntries inputs 0 with
  | none =>
    unfold nWayMergeKMVRangeAware at done
    split_ifs at done with empty
    · rw [empty] at points
      nomatch points
    simp [counted] at done
  | some naive =>
    rw [nWayMerge_ok counted points] at done
    obtain ⟨rfl, rfl⟩ := Prod.mk.inj (Except.ok.inj done)
    rfl

theorem nWayMerge_tiles (done : nWayMergeKMVRangeAware inputs = .ok (merged, total))
    (points : mergeBreakpoints inputs = front :: rest) :
    Tiles front ((front :: rest).getLastD front) merged.segments ∧ merged.segments ≠ [] := by
  cases rest with
  | nil =>
    unfold nWayMergeKMVRangeAware at done
    split_ifs at done with empty
    · rw [empty] at points
      nomatch points
    cases counted : sumEntries inputs 0 with
    | none => simp [counted] at done
    | some naive =>
      simp only [counted, points] at done
      obtain ⟨rfl, -⟩ := Prod.mk.inj (Except.ok.inj done)
      exact ⟨.cons rfl ⟨le_rfl, le_rfl⟩ (.nil front), cons_ne_nil _ _⟩
  | cons next rest =>
    obtain rfl := nWayMerge_eq done points
    have tiles := mergedLines_tiles points total
    obtain ⟨line, lines, linesEq⟩ := mergedLines_cons points total
    rw [linesEq] at tiles ⊢
    exact ⟨compactSegments_tiles tiles, compactSegments_ne_nil line lines⟩

/-- `Inverse` is monotone and inside the model unless a flat segment that it chooses has a midpoint that wraps. -/
theorem merged_inverse_monotone (inputs : InputList) (merged : PLRModel) (total : ℕ)
    (done : nWayMergeKMVRangeAware inputs = .ok (merged, total))
    (keys : ∀ point ∈ mergeBreakpoints inputs, point < word64) (nonempty : mergeBreakpoints inputs ≠ [])
    (fits : ∀ p seg, inverseSearch p merged.segments none = some seg → |seg.slope| < flatSlope →
      seg.keyStart + seg.keyEnd < word64) :
    (∀ p, ∃ seg ∈ merged.segments, seg.keyStart ≤ merged.inverse p ∧ merged.inverse p ≤ seg.keyEnd) ∧
      ∀ p q, p ≤ q → merged.inverse p ≤ merged.inverse q := by
  obtain ⟨front, rest, points⟩ := exists_cons_of_ne_nil nonempty
  have ne := (nWayMerge_tiles done points).2
  have ordered := (nWayMerge_ordered done fun point mem => ⟨Nat.zero_le point, (keys point mem).le⟩).1
  exact ⟨inverse_in_segment ordered fits ne, fun p q => inverse_mono ordered fits⟩

def gapInputs : InputList :=
  [some (virtualSSTOfKeys {} 0 0 0 0 [3, 9]), none, some (virtualSSTOfKeys {} 0 0 0 0 [20, 40])]

/-- The gap between the two files is a flat segment. -/
theorem merged_inverse_monotone_gap :
    ∃ merged, nWayMergeKMVRangeAware gapInputs = .ok (merged, 4) ∧ merged.segments.map (·.slope) = [1 / 3, 0, 1 / 10] ∧
      ∀ p q, p ≤ q → merged.inverse p ≤ merged.inverse q := by
  let merged : PLRModel := ⟨[⟨3, 9, 1 / 3, -1⟩, ⟨9, 20, 0, 2⟩, ⟨20, 40, 1 / 10, 0⟩]⟩
  have done : nWayMergeKMVRangeAware gapInputs = .ok (merged, 4) := by decide +kernel
  have small : ∀ seg ∈ merged.segments, seg.keyStart + seg.keyEnd < word64 := by decide
  exact ⟨merged, done, rfl, (merged_inverse_monotone gapInputs merged 4 done (by decide +kernel) (by decide +kernel)
    fun p seg found _ => small seg (inverseSearch_nearest found).mem).2⟩

/-- The model of the one key 2^63: its midpoint wraps to 0. -/
theorem merged_inverse_wraps :
    ∃ merged total, nWayMergeKMVRangeAware [some (virtualSSTOfKeys {} 0 0 0 0 [2 ^ 63])] = .ok (merged, total) ∧
      merged.inverse 0 = 0 ∧ ∀ seg ∈ merged.segments, ¬ (seg.keyStart ≤ merged.inverse 0 ∧ merged.inverse 0 ≤ seg.keyEnd) :=
  ⟨⟨[⟨2 ^ 63, 2 ^ 63, 0, 1 / 2⟩]⟩, 1, by decide +kernel, by decide +kernel, by decide +kernel⟩

end VcompProof
