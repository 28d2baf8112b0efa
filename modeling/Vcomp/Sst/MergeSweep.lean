import Mathlib.Data.List.TakeWhile
import Vcomp.Sst.Merge

namespace VcompProof

open VcompModel SortUnique List

/-- The inputs that a step takes at `kMid`. -/
def intervalInputs (sweep : MergeSweep) (kMid : ℕ) : List VirtualSST :=
  ((sweep.activeAt kMid).filterMap fun input => (input.segmentAt kMid).map (input.input, ·)).map Prod.fst

def hasSegmentAt (kMid : ℕ) (v : VirtualSST) : Bool := v.plrModel.segments.any fun seg => seg.keyStart ≤ kMid ∧
    kMid ≤ seg.keyEnd

/-- Segments in key order that share at most end points. -/
structure SegmentsApart (segs : List PLRSegment) : Prop where
  proper : ∀ seg ∈ segs, seg.keyStart ≤ seg.keyEnd
  apart : segs.Pairwise fun a b => a.keyEnd ≤ b.keyStart

/-- The sweep at `k`: inputs that ended before it are gone, and the segments passed end before it. -/
structure Sweeping (order : List VirtualSST) (k : ℕ) (sweep : MergeSweep) : Prop where
  split : ∃ taken, taken ++ sweep.waiting = order ∧ (∀ v ∈ taken, v.keyMin ≤ k) ∧
    sweep.active.map (·.input) = taken.filter fun v => !(v.keyMax < k)
  passed : ∀ a ∈ sweep.active, ∃ passed, passed ++ a.segs = a.input.plrModel.segments ∧ ∀ seg ∈ passed, seg.keyEnd < k

variable {order : List VirtualSST} {k kMid kStart : ℕ} {sweep : MergeSweep}

theorem advanceSegments_passes (kMid : ℕ) (segs : List PLRSegment) :
    (∃ passed, passed ++ advanceSegments kMid segs = segs ∧ ∀ seg ∈ passed, seg.keyEnd < kMid) ∧
      ∀ seg next rest, advanceSegments kMid segs = seg :: next :: rest → kMid ≤ seg.keyEnd := by
  fun_induction advanceSegments kMid segs with
  | case1 seg next rest before ih =>
    obtain ⟨⟨passed, eq, ends⟩, stops⟩ := ih
    exact ⟨⟨seg :: passed, congrArg (seg :: ·) eq, forall_mem_cons.mpr ⟨before, ends⟩⟩, stops⟩
  | case2 seg next rest reached =>
    refine ⟨⟨[], rfl, by simp⟩, ?_⟩
    rintro _ _ _ ⟨⟩
    exact not_lt.mp reached
  | case3 segs single => exact ⟨⟨[], rfl, by simp⟩, fun seg next rest eq => absurd eq (single seg next rest)⟩

theorem segmentAt_isSome {a : ActiveInput} {passed : List PLRSegment} (segments : passed ++ a.segs = a.input.plrModel.segments)
    (apart : SegmentsApart a.input.plrModel.segments) (ends : ∀ seg ∈ passed, seg.keyEnd < kMid)
    (stops : ∀ seg next rest, a.segs = seg :: next :: rest → kMid ≤ seg.keyEnd) :
    (a.segmentAt kMid).isSome = hasSegmentAt kMid a.input := by
  rw [Bool.eq_iff_iff, hasSegmentAt, any_eq_true, ← segments]
  rw [← segments] at apart
  simp only [decide_eq_true_iff]
  unfold ActiveInput.segmentAt
  split
  next none => simpa [none] using fun seg mem _ => ends seg mem
  next seg rest first =>
    rw [first] at apart ⊢
    constructor
    · intro found
      split_ifs at found with outside
      · cases found
      · exact ⟨seg, by simp, by omega⟩
    · rintro ⟨other, mem, starts, ended⟩
      rcases mem_append.mp mem with old | mem
      · exact absurd (ends other old) (not_lt.mpr ended)
      have inside : seg.keyStart ≤ kMid ∧ kMid ≤ seg.keyEnd := by
        rcases mem_cons.mp mem with rfl | later
        · exact ⟨starts, ended⟩
        · obtain ⟨next, rest, rfl⟩ := exists_cons_of_ne_nil (ne_nil_of_mem later)
          have touches := (pairwise_cons.mp (pairwise_append.mp apart.apart).2.1).1 other later
          exact ⟨(apart.proper seg (by simp)).trans (touches.trans starts), stops seg next rest first⟩
      rw [if_neg (by omega)]
      rfl

theorem lt_of_mem_dropWhile (sorted : order.Pairwise fun a b => a.keyMin ≤ b.keyMin) {v : VirtualSST}
    (mem : v ∈ order.dropWhile (·.keyMin ≤ kMid)) : kMid < v.keyMin := by
  induction order with
  | nil => cases mem
  | cons first order ih =>
    obtain ⟨least, sorted⟩ := pairwise_cons.mp sorted
    rw [dropWhile_cons] at mem
    split at mem
    next => exact ih sorted mem
    next above =>
      have above : kMid < first.keyMin := by simpa using above
      rcases mem_cons.mp mem with rfl | later
      · exact above
      · exact above.trans_le (least v later)

section

variable (sweeping : Sweeping order k sweep) (kEnd : ℕ) (le : k ≤ kStart)
include sweeping le

theorem Sweeping.step : Sweeping order (kStart + (kEnd - kStart) / 2) (sweep.step kStart kEnd) := by
  obtain ⟨taken, split, started, active⟩ := sweeping.split
  set kMid := kStart + (kEnd - kStart) / 2
  have le : k ≤ kMid := le.trans (Nat.le_add_right _ _)
  refine ⟨⟨taken ++ sweep.waiting.takeWhile (·.keyMin ≤ kMid), ?_, ?_, ?_⟩, ?_⟩
  · rw [append_assoc, MergeSweep.step, takeWhile_append_dropWhile, split]
  · intro v mem
    rcases mem_append.mp mem with old | new
    · exact (started v old).trans le
    · simpa using mem_takeWhile_imp new
  · have pruned : ∀ v : VirtualSST, (!decide (v.keyMax < kMid) && !decide (v.keyMax < k)) =
        !decide (v.keyMax < kMid) := by grind
    change (map _ (filter _ _)).map (fun a : ActiveInput => a.input) = _
    rw [map_map]
    change map (fun a : ActiveInput => a.input) (filter ((fun v : VirtualSST => !decide (v.keyMax < kMid)) ∘ _) _) = _
    rw [← filter_map, map_append, active, map_map, filter_append, filter_append, filter_filter,
      filter_congr fun v _ => pruned v]
    exact congrArg (_ ++ filter _ ·) (map_id _)
  · intro a mem
    obtain ⟨old, kept, rfl⟩ := mem_map.mp mem
    obtain ⟨passed, segments, ends⟩ : ∃ passed, passed ++ old.segs = old.input.plrModel.segments ∧
        ∀ seg ∈ passed, seg.keyEnd < kMid := by
      rcases mem_append.mp (mem_filter.mp kept).1 with active | arrived
      · obtain ⟨passed, segments, ends⟩ := sweeping.passed old active
        exact ⟨passed, segments, fun seg mem => (ends seg mem).trans_le le⟩
      · obtain ⟨v, -, rfl⟩ := mem_map.mp arrived
        exact ⟨[], rfl, by simp⟩
    obtain ⟨⟨more, advanced, ends'⟩, -⟩ := advanceSegments_passes kMid old.segs
    exact ⟨passed ++ more, by rw [append_assoc, advanced, segments], forall_mem_append.mpr ⟨ends, ends'⟩⟩

theorem Sweeping.intervalInputs_eq (sorted : order.Pairwise fun a b => a.keyMin ≤ b.keyMin)
    (apart : ∀ v ∈ order, SegmentsApart v.plrModel.segments) : let kMid := kStart + (kEnd - kStart) / 2
    intervalInputs sweep kMid = order.filter fun v => v.keyMin ≤ kMid ∧ kMid ≤ v.keyMax ∧ hasSegmentAt kMid v := by
  intro kMid
  obtain ⟨⟨taken, split, started, active⟩, passed⟩ := sweeping.step kEnd le
  have chosen : ∀ a ∈ (sweep.step kStart kEnd).active,
      ((a.segmentAt kMid).map (a.input, ·)).map Prod.fst = Option.guard (hasSegmentAt kMid) a.input := by
    intro a mem
    have inTaken : a.input ∈ taken := (mem_filter.mp (active ▸ mem_map_of_mem mem)).1
    obtain ⟨gone, segments, ends⟩ := passed a mem
    have isSome := segmentAt_isSome segments (apart a.input (split ▸ mem_append_left _ inTaken)) ends <| by
      obtain ⟨old, -, rfl⟩ := mem_map.mp mem
      exact (advanceSegments_passes kMid old.segs).2
    rw [Option.guard, ← isSome]
    cases a.segmentAt kMid <;> rfl
  have rest : (sweep.step kStart kEnd).waiting.filter (fun v => v.keyMin ≤ kMid ∧ kMid ≤ v.keyMax ∧
      hasSegmentAt kMid v) = [] := by
    obtain ⟨_, split, -⟩ := sweeping.split
    refine filter_eq_nil_iff.mpr fun v mem lies => ?_
    exact absurd (of_decide_eq_true lies).1 (lt_of_mem_dropWhile (pairwise_append.mp (split ▸ sorted)).2.1 mem).not_ge
  rw [intervalInputs, map_filterMap]
  change filterMap _ (sweep.step kStart kEnd).active = _
  rw [filterMap_congr chosen]
  change filterMap (Option.guard _ ∘ _) _ = _
  rw [← filterMap_map, active, filterMap_eq_filter, filter_filter, ← split, filter_append, rest, append_nil]
  refine filter_congr fun v mem => ?_
  have first := started v mem
  simp [first, Bool.and_comm, ← decide_not, kMid]

end

theorem Sweeping.run {points : List ℕ} {last : ℕ} (sweeping : Sweeping order k sweep) (sorted : points.Pairwise (· < ·))
    (le : ∀ p ∈ points, k ≤ p) (ended : points.getLast? = some last) :
    ∃ k ≤ last, Sweeping order k (sweepBreakpoints points sweep) := by
  fun_induction sweepBreakpoints points sweep generalizing k with
  | case1 kStart kEnd rest sweep ih =>
    obtain ⟨least, sorted⟩ := pairwise_cons.mp sorted
    refine ih (sweeping.step kEnd (le kStart mem_cons_self)) sorted ?_ (by simpa using ended)
    intro p mem
    have first := least kEnd mem_cons_self
    have later : kEnd ≤ p := by
      rcases mem_cons.mp mem with rfl | later
      · exact le_rfl
      · exact ((pairwise_cons.mp sorted).1 p later).le
    omega
  | case2 => exact ⟨k, le _ (mem_of_getLast? ended), sweeping⟩

theorem sweep_selects (inputs : InputList) (apart : ∀ v, some v ∈ inputs → SegmentsApart v.plrModel.segments)
    (passed rest : List ℕ) (kStart kEnd : ℕ) (points : mergeBreakpoints inputs = passed ++ kStart :: kEnd :: rest) :
    let order := (inputs.filterMap id).insertionSort (fun a b => a.keyMin ≤ b.keyMin)
    let kMid := kStart + (kEnd - kStart) / 2
    (intervalInputs (sweepBreakpoints (passed ++ [kStart]) { waiting := order }) kMid).Perm
      ((inputs.filterMap id).filter fun v => v.keyMin ≤ kMid ∧ kMid ≤ v.keyMax ∧ hasSegmentAt kMid v) := by
  intro order kMid
  have perm : order.Perm (inputs.filterMap id) := perm_insertionSort _ _
  have all : (mergeBreakpoints inputs).Pairwise (· < ·) := sortUnique_pairwise _
  rw [points, append_cons] at all
  have start : Sweeping order 0 { waiting := order } := ⟨⟨[], rfl, by simp, rfl⟩, by simp⟩
  obtain ⟨k, le, sweeping⟩ := start.run (pairwise_append.mp all).1 (fun _ _ => Nat.zero_le _) getLast?_concat
  rw [sweeping.intervalInputs_eq kEnd le (pairwise_insertionSort _ _)
    fun v mem => apart v (by simpa using perm.mem_iff.mp mem)]
  exact perm.filter _

def longInput : VirtualSST := ⟨⟨[⟨0, 9, 1, 0⟩, ⟨9, 20, 1, 0⟩, ⟨30, 40, 1, -9⟩]⟩, [], 0, 40, 32, 100⟩

def lateInput : VirtualSST := ⟨⟨[⟨5, 15, 1, -5⟩, ⟨15, 50, 1, -5⟩]⟩, [], 5, 50, 46, 100⟩

def shortInput : VirtualSST := ⟨⟨[⟨2, 8, 1, -2⟩]⟩, [], 2, 8, 7, 100⟩

/-- At the seventh interval, `[20, 30]`, one input has ended, one is between two segments and one is left. -/
theorem sweep_selects_seventh : let inputs := [some longInput, none, some lateInput, some shortInput]
    let order := (inputs.filterMap id).insertionSort (fun a b => a.keyMin ≤ b.keyMin)
    mergeBreakpoints inputs = [0, 2, 5, 8, 9, 15, 20, 30, 40, 50] ∧ order = [longInput, shortInput, lateInput] ∧
    [longInput, lateInput, shortInput].filter (fun v => v.keyMin ≤ 25 ∧ 25 ≤ v.keyMax ∧ hasSegmentAt 25 v) = [lateInput] ∧
    (intervalInputs (sweepBreakpoints [0, 2, 5, 8, 9, 15, 20] { waiting := order }) 25).Perm
      ([longInput, lateInput, shortInput].filter fun v => v.keyMin ≤ 25 ∧ 25 ≤ v.keyMax ∧ hasSegmentAt 25 v) := by
  intro inputs order
  have points : mergeBreakpoints inputs = [0, 2, 5, 8, 9, 15, 20, 30, 40, 50] := by decide +kernel
  refine ⟨points, by decide +kernel, by decide +kernel, sweep_selects inputs ?_ [0, 2, 5, 8, 9, 15] [40, 50] 20 30 points⟩
  intro v mem
  obtain rfl | rfl | rfl : v = longInput ∨ v = lateInput ∨ v = shortInput := by simpa [inputs] using mem
  · exact ⟨by decide +kernel, by decide +kernel⟩
  · exact ⟨by decide +kernel, by decide +kernel⟩
  · exact ⟨by decide +kernel, by decide +kernel⟩

end VcompProof
