import Mathlib.Algebra.Order.BigOperators.Group.List
import Vcomp.Plr.Inverse
import Vcomp.Sst.Merge

namespace VcompProof

open VcompModel SortUnique List

variable {segs : List PLRSegment} {lo hi : ℕ} {seg : PLRSegment} {prev : PLRSegment} {rest : List PLRSegment}

/-- The segments cover the keys from `lo` to `hi` without gaps, with non-negative slopes. -/
inductive Tiles : ℕ → ℕ → List PLRSegment → Prop where
  | nil (key : ℕ) : Tiles key key []
  | cons {lo hi : ℕ} {seg : PLRSegment} {rest : List PLRSegment} (first : seg.keyStart = lo)
      (proper : ProperSegment seg) (tail : Tiles seg.keyEnd hi rest) : Tiles lo hi (seg :: rest)

theorem Tiles.le (tiles : Tiles lo hi segs) : lo ≤ hi := by
  induction tiles with
  | nil => exact le_rfl
  | cons first proper _ ih => exact (first ▸ proper.1).trans ih

theorem Tiles.snoc {next : ℕ} (tiles : Tiles lo hi segs)
    (first : seg.keyStart = hi) (last : seg.keyEnd = next) (proper : ProperSegment seg) :
    Tiles lo next (segs ++ [seg]) := by
  induction tiles with
  | nil => exact .cons first proper (last ▸ .nil _)
  | cons firstSeg properSeg _ ih => exact .cons firstSeg properSeg (ih first)

theorem Tiles.map_slope (tiles : Tiles lo hi segs) (slope : PLRSegment → ℚ)
    (nonneg : ∀ seg, ProperSegment seg → 0 ≤ slope seg) :
    Tiles lo hi (segs.map fun seg => { seg with slope := slope seg }) := by
  induction tiles with
  | nil => exact .nil _
  | cons first proper _ ih => exact .cons first ⟨proper.1, nonneg _ proper⟩ ih

theorem sum_nonneg_of_max {α : Type*} (f : α → ℚ) (l : List α) : 0 ≤ (l.map fun x => max (f x) 0).sum := by
  apply sum_nonneg
  intro x mem
  obtain ⟨y, _, rfl⟩ := mem_map.mp mem
  exact le_max_right _ _

theorem intervalSlope_nonneg {slopeSum width : ℚ} (sumNonneg : 0 ≤ slopeSum) (widthNonneg : 0 ≤ width)
    (intervalEntries : ℕ) : 0 ≤ intervalSlope slopeSum width intervalEntries := by
  simp only [intervalSlope]
  have massNonneg : (0 : ℚ) ≤ max 0 (slopeSum * width) := le_max_left _ _
  split_ifs
  · exact mul_nonneg sumNonneg (div_nonneg (Nat.cast_nonneg _) massNonneg)
  · exact div_nonneg (Nat.cast_nonneg _) widthNonneg
  · exact le_rfl

theorem MergeSweep.step_tiles {sweep : MergeSweep} {kStart kEnd : ℕ} (tiles : Tiles lo kStart sweep.merged)
    (le : kStart ≤ kEnd) : Tiles lo kEnd (sweep.step kStart kEnd).merged := by
  refine tiles.snoc rfl rfl ⟨le, ?_⟩
  exact intervalSlope_nonneg (sum_nonneg_of_max _ _) (zero_le_one.trans (le_max_left _ _)) _

theorem sweepBreakpoints_tiles (points : List ℕ) {front : ℕ} (sweep : MergeSweep)
    (sorted : (front :: points).Pairwise (· < ·)) (tiles : Tiles lo front sweep.merged) :
    Tiles lo ((front :: points).getLastD front) (sweepBreakpoints (front :: points) sweep).merged := by
  induction points generalizing front sweep with
  | nil => simpa [sweepBreakpoints] using tiles
  | cons next points ih =>
    have lt : front < next := rel_of_pairwise_cons sorted mem_cons_self
    have eq : (front :: next :: points).getLastD front = (next :: points).getLastD next := by
      simp [getLast?_cons]
    rw [eq]
    exact ih (sweep.step front next) (pairwise_cons.mp sorted).2 (MergeSweep.step_tiles tiles lt.le)

theorem rescaleSlopes_tiles {merged : List PLRSegment} (tiles : Tiles lo hi merged)
    (kmvTotalEntries width : ℕ) (rawTotalEntries : ℚ) :
    Tiles lo hi (rescaleSlopes kmvTotalEntries rawTotalEntries width merged) := by
  unfold rescaleSlopes
  split_ifs with rescaled spread
  · refine tiles.map_slope (fun seg => seg.slope * (kmvTotalEntries / rawTotalEntries)) ?_
    intro seg proper
    exact mul_nonneg proper.2 (div_nonneg (Nat.cast_nonneg _) rescaled.2.le)
  · refine tiles.map_slope (fun _ => kmvTotalEntries / max 1 (width : ℚ)) ?_
    intro _ _
    exact div_nonneg (Nat.cast_nonneg _) (zero_le_one.trans (le_max_left _ _))
  · exact tiles

def SegmentsWithin (lo hi : ℕ) (segs : List PLRSegment) : Prop :=
  ∀ seg ∈ segs, lo ≤ seg.keyStart ∧ seg.keyEnd ≤ hi

theorem assignIntercepts_ordered (tiles : Tiles lo hi segs) (cumulativePos : ℚ) :
    OrderedSegments (assignIntercepts cumulativePos segs) ∧
      SegmentsWithin lo hi (assignIntercepts cumulativePos segs) ∧
      ∀ seg ∈ assignIntercepts cumulativePos segs, cumulativePos ≤ seg.posStart := by
  induction tiles generalizing cumulativePos with
  | nil => exact ⟨⟨by simp [assignIntercepts], by simp [assignIntercepts]⟩, by simp [assignIntercepts,
      SegmentsWithin], by simp [assignIntercepts]⟩
  | @cons lo hi seg rest first proper tail ih =>
    obtain ⟨ordered, within, positions⟩ :=
      ih (cumulativePos + seg.slope * ((seg.keyEnd - seg.keyStart : ℕ) : ℚ))
    have advance : cumulativePos ≤ cumulativePos + seg.slope * ((seg.keyEnd - seg.keyStart : ℕ) : ℚ) :=
      le_add_of_nonneg_right (mul_nonneg proper.2 (Nat.cast_nonneg _))
    have start : ({ seg with intercept := cumulativePos - seg.slope * seg.keyStart } : PLRSegment).posStart =
        cumulativePos := by
      simp only [PLRSegment.posStart, PLRSegment.eval]
      ring
    refine ⟨⟨?_, ?_⟩, ?_, ?_⟩
    · intro x mem
      rcases mem_cons.mp mem with rfl | mem
      · exact proper
      · exact ordered.proper x mem
    · refine pairwise_cons.mpr ⟨?_, ordered.before⟩
      intro x mem
      exact ⟨(within x mem).1, by rw [start]; exact advance.trans (positions x mem)⟩
    · intro x mem
      rcases mem_cons.mp mem with rfl | mem
      · exact ⟨first.ge, tail.le⟩
      · exact ⟨(first ▸ proper.1).trans (within x mem).1, (within x mem).2⟩
    · intro x mem
      rcases mem_cons.mp mem with rfl | mem
      · exact start.ge
      · exact advance.trans (positions x mem)

theorem mem_compactSegments (mem : seg ∈ compactSegments prev rest) :
    (∃ origin ∈ prev :: rest, seg.keyStart = origin.keyStart ∧ seg.posStart = origin.posStart) ∧
      ∃ origin ∈ prev :: rest, seg.keyEnd = origin.keyEnd := by
  induction rest generalizing prev with
  | nil =>
    simp only [compactSegments, mem_singleton] at mem
    subst mem
    exact ⟨⟨seg, by simp, rfl, rfl⟩, ⟨seg, by simp, rfl⟩⟩
  | cons cur rest ih =>
    simp only [compactSegments] at mem
    split_ifs at mem with joined
    · obtain ⟨⟨line, lineMem, starts⟩, ⟨last, lastMem, ends⟩⟩ := ih mem
      constructor
      · rcases mem_cons.mp lineMem with rfl | later
        · exact ⟨prev, by simp, starts⟩
        · exact ⟨line, by simp [later], starts⟩
      · rcases mem_cons.mp lastMem with rfl | later
        · exact ⟨cur, by simp, ends⟩
        · exact ⟨last, by simp [later], ends⟩
    · rcases mem_cons.mp mem with rfl | later
      · exact ⟨⟨seg, by simp, rfl, rfl⟩, ⟨seg, by simp, rfl⟩⟩
      · obtain ⟨⟨line, lineMem, starts⟩, ⟨last, lastMem, ends⟩⟩ := ih later
        exact ⟨⟨line, mem_cons_of_mem _ lineMem, starts⟩, ⟨last, mem_cons_of_mem _ lastMem, ends⟩⟩

theorem compactSegments_ordered
    (ordered : OrderedSegments (prev :: rest)) : OrderedSegments (compactSegments prev rest) := by
  induction rest generalizing prev with
  | nil => exact ordered
  | cons cur rest ih =>
    obtain ⟨beforeAll, beforeRest⟩ := pairwise_cons.mp ordered.before
    have properPrev := ordered.proper prev mem_cons_self
    have properCur := ordered.proper cur (by simp)
    have beforeCur := beforeAll cur mem_cons_self
    simp only [compactSegments]
    split_ifs with joined
    · refine ih ⟨?_, pairwise_cons.mpr ⟨?_, (pairwise_cons.mp beforeRest).2⟩⟩
      · intro seg mem
        rcases mem_cons.mp mem with rfl | mem
        · exact ⟨(properPrev.1.trans beforeCur.1).trans properCur.1, properPrev.2⟩
        · exact ordered.proper seg (by simp [mem])
      · intro seg mem
        exact ⟨((pairwise_cons.mp beforeRest).1 seg mem).1, (beforeAll seg (by simp [mem])).2⟩
    · have tail := ih ⟨fun seg mem => ordered.proper seg (mem_cons_of_mem _ mem), beforeRest⟩
      refine ⟨?_, pairwise_cons.mpr ⟨?_, tail.before⟩⟩
      · intro seg mem
        rcases mem_cons.mp mem with rfl | mem
        · exact properPrev
        · exact tail.proper seg mem
      · intro seg mem
        obtain ⟨⟨line, lineMem, keys, ranks⟩, _⟩ := mem_compactSegments mem
        have before := beforeAll line lineMem
        exact ⟨keys ▸ before.1, ranks ▸ before.2⟩

theorem compactMerged_ordered (ordered : OrderedSegments segs) : OrderedSegments (compactMerged segs) := by
  cases segs with
  | nil => exact ordered
  | cons first rest => exact compactSegments_ordered ordered

theorem compactMerged_within (within : SegmentsWithin lo hi segs) : SegmentsWithin lo hi (compactMerged segs) := by
  cases segs with
  | nil => exact within
  | cons first rest =>
    intro seg mem
    obtain ⟨⟨line, lineMem, keys, _⟩, ⟨last, lastMem, ends⟩⟩ := mem_compactSegments mem
    exact ⟨keys ▸ (within line lineMem).1, ends ▸ (within last lastMem).2⟩

theorem mem_getLastD {α : Type*} (front : α) (rest : List α) : (front :: rest).getLastD front ∈ front :: rest := by
  rw [getLastD_eq_getLast?, getLast?_eq_some_getLast (cons_ne_nil front rest), Option.getD_some]
  exact getLast_mem _

theorem nWayMerge_ordered {inputs : InputList} {merged : PLRModel} {total : ℕ}
    (done : nWayMergeKMVRangeAware inputs = .ok (merged, total))
    (points : ∀ point ∈ mergeBreakpoints inputs, lo ≤ point ∧ point ≤ hi) :
    OrderedSegments merged.segments ∧ SegmentsWithin lo hi merged.segments := by
  unfold nWayMergeKMVRangeAware at done
  split_ifs at done with empty
  · obtain ⟨rfl, -⟩ := Prod.mk.inj (Except.ok.inj done)
    exact ⟨⟨by simp, by simp⟩, by simp [SegmentsWithin]⟩
  cases counted : sumEntries inputs 0 with
  | none => simp [counted] at done
  | some naiveEntries =>
    simp only [counted] at done
    match breaks : mergeBreakpoints inputs with
    | [] =>
      simp only [breaks] at done
      obtain ⟨rfl, -⟩ := Prod.mk.inj (Except.ok.inj done)
      exact ⟨⟨by simp, by simp⟩, by simp [SegmentsWithin]⟩
    | [only] =>
      simp only [breaks] at done
      obtain ⟨rfl, -⟩ := Prod.mk.inj (Except.ok.inj done)
      have inside := points only (by simp [breaks])
      exact ⟨⟨by simp [ProperSegment], by simp⟩, by simpa [SegmentsWithin] using inside⟩
    | front :: next :: rest =>
      simp only [breaks] at done
      obtain ⟨rfl, -⟩ := Prod.mk.inj (Except.ok.inj done)
      have sorted : (front :: next :: rest).Pairwise (· < ·) := breaks ▸ sortUnique_pairwise _
      have tiles := rescaleSlopes_tiles
        (sweepBreakpoints_tiles (next :: rest)
          { waiting := (inputs.filterMap id).insertionSort (fun a b => a.keyMin ≤ b.keyMin) } sorted (.nil front))
        (estimateKMVUnionEntries inputs naiveEntries) ((front :: next :: rest).getLastD front - front)
        (sweepBreakpoints (front :: next :: rest)
          { waiting := (inputs.filterMap id).insertionSort (fun a b => a.keyMin ≤ b.keyMin) }).rawTotalEntries
      obtain ⟨ordered, within, _⟩ := assignIntercepts_ordered tiles 0
      refine ⟨compactMerged_ordered ordered, compactMerged_within ?_⟩
      have frontInside := points front (by simp [breaks])
      have lastInside := points ((front :: next :: rest).getLastD front) (by rw [breaks]; exact mem_getLastD _ _)
      intro seg mem
      exact ⟨frontInside.1.trans (within seg mem).1, (within seg mem).2.trans lastInside.2⟩

end VcompProof
