import Vcomp.Foundation.NearestInterval
import Vcomp.Plr.Model

namespace VcompProof

open VcompModel NearestInterval

variable {seg : PLRSegment} {position : ℚ} {segments : List PLRSegment}

theorem stdRound_mono {x y : ℚ} (nonneg : 0 ≤ x) (le : x ≤ y) : stdRound x ≤ stdRound y := by
  simp only [stdRound, not_lt.mpr nonneg, not_lt.mpr (nonneg.trans le), if_false]
  exact Int.floor_le_floor (by linarith)

@[simp]
theorem stdRound_natCast (n : ℕ) : stdRound (n : ℚ) = n := by
  have nonneg : ¬ (n : ℚ) < 0 := not_lt.mpr (Nat.cast_nonneg n)
  simp only [stdRound, nonneg, if_false]
  rw [Int.floor_eq_iff]
  constructor <;> push_cast <;> linarith

theorem stdRound_toNat_mem {lo hi : ℕ} {x : ℚ} (lower : (lo : ℚ) ≤ x) (upper : x ≤ hi) :
    lo ≤ (stdRound x).toNat ∧ (stdRound x).toNat ≤ hi := by
  have lt := stdRound_mono (Nat.cast_nonneg lo) lower
  have above := stdRound_mono ((Nat.cast_nonneg lo).trans lower) upper
  rw [stdRound_natCast] at lt above
  omega

/-- A segment as a merge produces it: its keys and its positions do not decrease. -/
def ProperSegment (seg : PLRSegment) : Prop := seg.keyStart ≤ seg.keyEnd ∧ 0 ≤ seg.slope

/-- The order between segments of one model: keys do not overlap, start ranks do not decrease. -/
def SegmentBefore (a b : PLRSegment) : Prop := a.keyEnd ≤ b.keyStart ∧ a.posStart ≤ b.posStart

structure OrderedSegments (segments : List PLRSegment) : Prop where
  proper : ∀ seg ∈ segments, ProperSegment seg
  before : segments.Pairwise SegmentBefore

/-- The flat midpoint `(key_start + key_end) / 2` is computed without 64-bit overflow. -/
def MidpointFits (seg : PLRSegment) : Prop := |seg.slope| < flatSlope → seg.keyStart + seg.keyEnd < word64

theorem ProperSegment.posStart_le_posEnd (proper : ProperSegment seg) : seg.posStart ≤ seg.posEnd := by
  have keys : (seg.keyStart : ℚ) ≤ seg.keyEnd := by exact_mod_cast proper.1
  have ranks := mul_le_mul_of_nonneg_left keys proper.2
  simp only [PLRSegment.posStart, PLRSegment.posEnd, PLRSegment.eval]
  linarith

theorem ProperSegment.lo_eq (proper : ProperSegment seg) : seg.lo = seg.posStart :=
  min_eq_left proper.posStart_le_posEnd

theorem PLRSegment.lo_le_hi (seg : PLRSegment) : seg.lo ≤ seg.hi := min_le_max

theorem keyAt_mem (proper : ProperSegment seg) (fits : MidpointFits seg) (position : ℚ) :
    seg.keyStart ≤ seg.keyAt position ∧ seg.keyAt position ≤ seg.keyEnd := by
  have keys := proper.1
  unfold PLRSegment.keyAt
  split_ifs with flat
  · rw [Nat.mod_eq_of_lt (fits flat)]
    omega
  · have ends : (seg.keyStart : ℚ) ≤ seg.keyEnd := by exact_mod_cast keys
    exact stdRound_toNat_mem (le_min (le_max_right _ _) ends) (min_le_right _ _)

theorem keyAt_mono (proper : ProperSegment seg) {p q : ℚ} (le : p ≤ q) : seg.keyAt p ≤ seg.keyAt q := by
  unfold PLRSegment.keyAt
  split_ifs with flat
  · exact le_rfl
  · have unclamped : (p - seg.intercept) / seg.slope ≤ (q - seg.intercept) / seg.slope :=
      div_le_div_of_nonneg_right (by linarith) proper.2
    have clamped := min_le_min_right (seg.keyEnd : ℚ) (max_le_max_right (seg.keyStart : ℚ) unclamped)
    have nonneg : (0 : ℚ) ≤ min (max ((p - seg.intercept) / seg.slope) seg.keyStart) seg.keyEnd :=
      le_min ((Nat.cast_nonneg _).trans (le_max_right _ _)) (Nat.cast_nonneg _)
    exact Int.toNat_le_toNat (stdRound_mono nonneg clamped)

theorem loop_distance_eq (outside : ¬ (position ≥ seg.lo ∧ position ≤ seg.hi)) :
    (if position < seg.lo then seg.lo - position else position - seg.hi) = distance seg.lo seg.hi position := by
  unfold distance
  by_cases lt : position < seg.lo
  · rw [if_pos lt, if_pos lt]
  · have above : seg.hi < position := not_le.mp fun le => outside ⟨not_lt.mp lt, le⟩
    rw [if_neg lt, if_neg lt, if_pos above]

theorem inverseSearch_cons_inside (rest : List PLRSegment)
    (best : Option (PLRSegment × ℚ)) (inside : position ≥ seg.lo ∧ position ≤ seg.hi) :
    inverseSearch position (seg :: rest) best = some seg := by
  simp only [inverseSearch, inside, and_self, if_true]

theorem inverseSearch_cons_some (rest : List PLRSegment)
    (best : PLRSegment) (bestDist : ℚ) (outside : ¬ (position ≥ seg.lo ∧ position ≤ seg.hi)) :
    inverseSearch position (seg :: rest) (some (best, bestDist)) =
      if distance seg.lo seg.hi position < bestDist
      then inverseSearch position rest (some (seg, distance seg.lo seg.hi position))
      else inverseSearch position rest (some (best, bestDist)) := by
  simp only [inverseSearch, if_neg outside, loop_distance_eq outside]

theorem inverseSearch_some_nearest (position : ℚ) (rest passed : List PLRSegment) (best seg : PLRSegment)
    (nearest : IsFirstNearest PLRSegment.lo PLRSegment.hi position passed best)
    (pos : ∀ x ∈ passed, 0 < distance x.lo x.hi position)
    (found : inverseSearch position rest (some (best, distance best.lo best.hi position)) = some seg) :
    IsFirstNearest PLRSegment.lo PLRSegment.hi position (passed ++ rest) seg := by
  induction rest generalizing passed best with
  | nil =>
    simp only [inverseSearch, Option.map_some, Option.some.injEq] at found
    subst found
    simpa using nearest
  | cons next rest ih =>
    by_cases inside : position ≥ next.lo ∧ position ≤ next.hi
    · rw [inverseSearch_cons_inside rest _ inside, Option.some.injEq] at found
      subst found
      have zero : distance next.lo next.hi position = 0 := distance_zero_iff.mpr inside
      refine ⟨passed, rest, rfl, ?_, ?_⟩
      · intro x mem
        rw [zero]
        exact pos x mem
      · intro x _
        rw [zero]
        exact distance_nonneg _ _ _
    · rw [inverseSearch_cons_some rest _ _ inside] at found
      have positiveNext : 0 < distance next.lo next.hi position :=
        lt_of_le_of_ne (distance_nonneg _ _ _) fun zero => inside (distance_zero_iff.mp zero.symm)
      have positiveAll : ∀ x ∈ passed ++ [next], 0 < distance x.lo x.hi position := by
        intro x mem
        rcases List.mem_append.mp mem with earlier | last
        · exact pos x earlier
        · rw [List.mem_singleton.mp last]
          exact positiveNext
      rw [List.append_cons]
      split_ifs at found with nearer
      · exact ih _ next (nearest.append_closer nearer) positiveAll found
      · exact ih _ best (nearest.append_farther (not_lt.mp nearer)) positiveAll found

theorem inverseSearch_nearest (found : inverseSearch position segments none = some seg) :
    IsFirstNearest PLRSegment.lo PLRSegment.hi position segments seg := by
  match segments with
  | [] => simp [inverseSearch] at found
  | first :: rest =>
    by_cases inside : position ≥ first.lo ∧ position ≤ first.hi
    · rw [inverseSearch_cons_inside rest _ inside, Option.some.injEq] at found
      subst found
      refine ⟨[], rest, rfl, by simp, ?_⟩
      intro x _
      rw [distance_zero_iff.mpr inside]
      exact distance_nonneg _ _ _
    · simp only [inverseSearch, if_neg inside, loop_distance_eq inside] at found
      have pos : 0 < distance first.lo first.hi position :=
        lt_of_le_of_ne (distance_nonneg _ _ _) fun zero => inside (distance_zero_iff.mp zero.symm)
      exact inverseSearch_some_nearest position rest [first] first seg (IsFirstNearest.singleton _ _ _ _)
        (by simpa using pos) found

theorem inverseSearch_isSome_of_best (position : ℚ) (segments : List PLRSegment) (best : PLRSegment × ℚ) :
    (inverseSearch position segments (some best)).isSome := by
  induction segments generalizing best with
  | nil => simp [inverseSearch]
  | cons seg rest ih =>
    simp only [inverseSearch]
    split_ifs
    · rfl
    all_goals exact ih _

theorem inverse_eq_keyAt {plr : PLRModel} (ne : plr.segments ≠ []) (position : ℚ) :
    ∃ seg, IsFirstNearest PLRSegment.lo PLRSegment.hi position plr.segments seg ∧
      plr.inverse position = seg.keyAt position ∧ inverseSearch position plr.segments none = some seg := by
  have found : (inverseSearch position plr.segments none).isSome := by
    match h : plr.segments with
    | [] => exact absurd h ne
    | first :: rest =>
      simp only [inverseSearch]
      split_ifs
      · rfl
      all_goals exact inverseSearch_isSome_of_best _ _ _
  obtain ⟨seg, found⟩ := Option.isSome_iff_exists.mp found
  exact ⟨seg, inverseSearch_nearest found, by simp only [PLRModel.inverse, found], found⟩

theorem OrderedSegments.chosen_before (ordered : OrderedSegments segments) {p q : ℚ} (le : p ≤ q)
    {a b : PLRSegment} (nearestA : IsFirstNearest PLRSegment.lo PLRSegment.hi p segments a)
    (nearestB : IsFirstNearest PLRSegment.lo PLRSegment.hi q segments b) : a = b ∨ SegmentBefore a b := by
  have starts : segments.Pairwise (fun x y => x.lo ≤ y.lo) := by
    refine ordered.before.imp_of_mem ?_
    intro x y memX memY before
    rw [(ordered.proper x memX).lo_eq, (ordered.proper y memY).lo_eq]
    exact before.2
  exact nearestA.monotone nearestB le (fun x _ => PLRSegment.lo_le_hi x) starts ordered.before

section

variable {plr : PLRModel} (ordered : OrderedSegments plr.segments)
  (fits : ∀ p seg, inverseSearch p plr.segments none = some seg → MidpointFits seg)

include ordered fits

theorem inverse_mono {p q : ℚ} (le : p ≤ q) : plr.inverse p ≤ plr.inverse q := by
  by_cases ne : plr.segments = []
  · simp [PLRModel.inverse, ne, inverseSearch]
  obtain ⟨a, nearestA, keyA, foundA⟩ := inverse_eq_keyAt ne p
  obtain ⟨b, nearestB, keyB, foundB⟩ := inverse_eq_keyAt ne q
  rw [keyA, keyB]
  have properA := ordered.proper a nearestA.mem
  rcases ordered.chosen_before le nearestA nearestB with rfl | before
  · exact keyAt_mono properA le
  · have boundA := (keyAt_mem properA (fits p a foundA) p).2
    have boundB := (keyAt_mem (ordered.proper b nearestB.mem) (fits q b foundB) q).1
    exact boundA.trans (before.1.trans boundB)

theorem inverse_in_segment (ne : plr.segments ≠ []) (position : ℚ) :
    ∃ seg ∈ plr.segments, seg.keyStart ≤ plr.inverse position ∧ plr.inverse position ≤ seg.keyEnd := by
  obtain ⟨seg, nearest, key, found⟩ := inverse_eq_keyAt ne position
  exact ⟨seg, nearest.mem, key ▸ keyAt_mem (ordered.proper seg nearest.mem) (fits position seg found) position⟩

theorem inverse_mem {keyMin keyMax : ℕ} (ne : plr.segments ≠ [])
    (inside : ∀ seg ∈ plr.segments, keyMin ≤ seg.keyStart ∧ seg.keyEnd ≤ keyMax) (position : ℚ) :
    keyMin ≤ plr.inverse position ∧ plr.inverse position ≤ keyMax := by
  obtain ⟨seg, mem, ends⟩ := inverse_in_segment ordered fits ne position
  have bounds := inside seg mem
  exact ⟨bounds.1.trans ends.1, ends.2.trans bounds.2⟩

end

end VcompProof
