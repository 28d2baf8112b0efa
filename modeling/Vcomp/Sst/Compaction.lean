import Vcomp.Plr.GreedyFit
import Vcomp.Sst.MergeOrder
import Vcomp.Sst.Split

namespace VcompModel

def virtualSSTOfKeys (env : KMVEnv) (errorBound : ℚ) (maxSamples maxRanges sizeBytes : ℕ) (keys : List ℕ) :
    VirtualSST where
  plrModel := greedyPLRFit keys errorBound
  kmvRanges := buildKMVRangeSketchesFromSortedKeys env keys maxSamples maxRanges
  keyMin := keys.headD 0
  keyMax := keys.getLastD 0
  numEntries := keys.length
  sizeBytes := sizeBytes

structure RegistryConfig where
  targetSstSize : ℕ
  avgEntrySize : ℕ
  sizeModel : SSTSizeModel

def globalMin (inputs : List VirtualSST) : ℕ := inputs.foldl (fun key input => min key input.keyMin) uint64Max
def globalMax (inputs : List VirtualSST) : ℕ := inputs.foldl (fun key input => max key input.keyMax) 0

def grandparentBoundaries (grandparents : List (ℕ × ℕ)) : List ℕ :=
  sortUnique (grandparents.flatMap fun (smallest, largest) => [min smallest largest, max smallest largest])

/-- The merge of `RunVirtualCompaction`: the model and the entry count handed to the split. -/
def compactionModel (inputs : List VirtualSST) : Except Status (PLRModel × ℕ) :=
  match sumEntries (inputs.map some) 0 with
  | none => .error (.invalidArgument "virtual input count overflow")
  | some naiveEntries =>
    match nWayMergeKMVRangeAware (inputs.map some) with
    | .error status => .error status
    | .ok (merged, totalEntries) =>
      if naiveEntries > 0 ∧ merged.empty then .error (.corruption "empty virtual merge result")
      else if totalEntries > naiveEntries ∧ totalEntries > 0 then
        .ok (scalePLRPositions merged (naiveEntries / totalEntries), naiveEntries)
      else .ok (merged, totalEntries)

def compactionSplit (env : KMVEnv) (config : RegistryConfig) (outputLevel : ℤ) (boundaries : List ℕ)
    (inputs : List VirtualSST) (merged : PLRModel) (totalEntries : ℕ) : List VirtualSST :=
  splitIntoSSTs env ⟨config.targetSstSize, config.avgEntrySize, outputLevel, boundaries, 0, some config.sizeModel⟩
    merged (some (inputs.map some)) totalEntries (globalMin inputs) (globalMax inputs)

def compactionOutputs (env : KMVEnv) (config : RegistryConfig) (outputLevel : ℤ) (grandparents : List (ℕ × ℕ))
    (inputs : List VirtualSST) : Except Status (List VirtualSST) :=
  (compactionModel inputs).map fun (merged, totalEntries) =>
    compactionSplit env config outputLevel (grandparentBoundaries grandparents) inputs merged totalEntries

end VcompModel

namespace VcompProof

open VcompModel List

variable {inputs : List VirtualSST} {keys : List ℕ}

def BuiltFromSortedKeys (input : VirtualSST) : Prop :=
  ∃ env errorBound maxSamples maxRanges sizeBytes keys, keys.Pairwise (· < ·) ∧
    input = virtualSSTOfKeys env errorBound maxSamples maxRanges sizeBytes keys

def EnclosesModel (input : VirtualSST) : Prop :=
  input.keyMin ≤ input.keyMax ∧ ∀ seg ∈ input.plrModel.segments,
    (input.keyMin ≤ seg.keyStart ∧ seg.keyStart ≤ input.keyMax) ∧
      (input.keyMin ≤ seg.keyEnd ∧ seg.keyEnd ≤ input.keyMax)

theorem headD_le_of_mem (sorted : keys.Pairwise (· ≤ ·)) {key : ℕ} (mem : key ∈ keys) : keys.headD 0 ≤ key := by
  cases keys with
  | nil => simp at mem
  | cons =>
    rcases mem_cons.mp mem with rfl | later
    · exact le_rfl
    · exact (pairwise_cons.mp sorted).1 key later

theorem le_getLastD_of_mem (sorted : keys.Pairwise (· ≤ ·)) {key : ℕ} (mem : key ∈ keys) : key ≤ keys.getLastD 0 := by
  induction keys using List.reverseRecOn with
  | nil => simp at mem
  | append_singleton _ last =>
    simp only [getLastD_concat]
    rcases mem_append.mp mem with earlier | final
    · exact (pairwise_append.mp sorted).2.2 key earlier last (by simp)
    · exact (mem_singleton.mp final).le

theorem BuiltFromSortedKeys.encloses {input : VirtualSST} (built : BuiltFromSortedKeys input) :
    EnclosesModel input := by
  obtain ⟨env, errorBound, maxSamples, maxRanges, sizeBytes, keys, sorted, rfl⟩ := built
  have bounds : ∀ key ∈ keys, keys.headD 0 ≤ key ∧ key ≤ keys.getLastD 0 := fun key mem =>
    ⟨headD_le_of_mem (sorted.imp le_of_lt) mem, le_getLastD_of_mem (sorted.imp le_of_lt) mem⟩
  constructor
  · cases keys with
    | nil => simp [virtualSSTOfKeys]
    | cons first => exact (bounds first (by simp)).2
  · intro seg mem
    obtain ⟨starts, ends⟩ := greedyPLRFit_ends_mem keys errorBound seg mem
    exact ⟨bounds _ starts, bounds _ ends⟩

theorem mergeBreakpoints_within (enclosed : ∀ input ∈ inputs, EnclosesModel input) :
    ∀ point ∈ mergeBreakpoints (inputs.map some), globalMin inputs ≤ point ∧ point ≤ globalMax inputs := by
  intro point mem
  simp only [mergeBreakpoints, SortUnique.mem_sortUnique, mem_flatMap, mem_map] at mem
  obtain ⟨_, ⟨input, inputMem, rfl⟩, pointMem⟩ := mem
  have lower := (ThetaSketch.foldl_min_le (·.keyMin) inputs uint64Max).2 input inputMem
  have upper := (ThetaSketch.le_foldl_max (·.keyMax) inputs 0).2 input inputMem
  have inRange : input.keyMin ≤ point ∧ point ≤ input.keyMax := by
    obtain ⟨proper, segments⟩ := enclosed input inputMem
    simp only [Option.elim, mem_cons, mem_flatMap] at pointMem
    rcases pointMem with rfl | rfl | ⟨seg, segMem, rfl | rfl | empty⟩
    · exact ⟨le_rfl, proper⟩
    · exact ⟨proper, le_rfl⟩
    · exact (segments seg segMem).1
    · exact (segments seg segMem).2
    · simp at empty
  exact ⟨lower.trans inRange.1, inRange.2.trans upper⟩

theorem scalePLRPositions_ordered {plr : PLRModel} {scale : ℚ} (nonneg : 0 ≤ scale) {lo hi : ℕ}
    (ordered : OrderedSegments plr.segments) (within : SegmentsWithin lo hi plr.segments) :
    OrderedSegments (scalePLRPositions plr scale).segments ∧
      SegmentsWithin lo hi (scalePLRPositions plr scale).segments := by
  unfold scalePLRPositions
  split_ifs
  · exact ⟨ordered, within⟩
  · have scaledStart : ∀ seg : PLRSegment,
        ({ seg with slope := seg.slope * scale, intercept := seg.intercept * scale } : PLRSegment).posStart =
          seg.posStart * scale := by
      intro seg
      simp only [PLRSegment.posStart, PLRSegment.eval]
      ring
    refine ⟨⟨?_, ?_⟩, ?_⟩
    · intro seg mem
      obtain ⟨origin, originMem, rfl⟩ := mem_map.mp mem
      have proper := ordered.proper origin originMem
      exact ⟨proper.1, mul_nonneg proper.2 nonneg⟩
    · refine pairwise_map.mpr (ordered.before.imp ?_)
      intro a b before
      refine ⟨before.1, ?_⟩
      rw [scaledStart, scaledStart]
      exact mul_le_mul_of_nonneg_right before.2 nonneg
    · intro seg mem
      obtain ⟨origin, originMem, rfl⟩ := mem_map.mp mem
      exact within origin originMem

theorem compactionModel_ordered {merged : PLRModel} {total : ℕ}
    (enclosed : ∀ input ∈ inputs, EnclosesModel input) (done : compactionModel inputs = .ok (merged, total)) :
    OrderedSegments merged.segments ∧
      SegmentsWithin (globalMin inputs) (globalMax inputs) merged.segments := by
  unfold compactionModel at done
  cases counted : sumEntries (inputs.map some) 0 with
  | none => simp [counted] at done
  | some =>
    cases mergedWith : nWayMergeKMVRangeAware (inputs.map some) with
    | error => simp [counted, mergedWith] at done
    | ok result =>
      obtain ⟨raw, rawTotal⟩ := result
      obtain ⟨ordered, within⟩ := nWayMerge_ordered mergedWith (mergeBreakpoints_within enclosed)
      simp only [counted, mergedWith] at done
      split_ifs at done with empty scaled
      · obtain ⟨rfl, -⟩ := Prod.mk.inj (Except.ok.inj done)
        exact scalePLRPositions_ordered (div_nonneg (Nat.cast_nonneg _) (Nat.cast_nonneg _)) ordered within
      · obtain ⟨rfl, -⟩ := Prod.mk.inj (Except.ok.inj done)
        exact ⟨ordered, within⟩

section

variable {env : KMVEnv} {opts : SplitOptions} {plr : PLRModel} {inputs : Option InputList}
  {totalEntries keyMin keyMax : ℕ} (ordered : OrderedSegments plr.segments)
  (fits : ∀ p seg, inverseSearch p plr.segments none = some seg → MidpointFits seg) (nonempty : plr.segments ≠ [])
  (within : SegmentsWithin keyMin keyMax plr.segments) {posStart : ℕ}

def startKey (plr : PLRModel) (keyMin : ℕ) (first : Bool) (posStart : ℕ) : ℕ :=
  if first then keyMin else plr.inverse posStart

theorem splitOutput_bounds {first last : Bool} {posEnd : ℕ} {output : VirtualSST}
    (built : splitOutput env opts plr inputs totalEntries keyMin keyMax first last posStart posEnd = some output) :
    output.keyMin = startKey plr keyMin first posStart ∧ output.keyMin ≤ output.keyMax ∧
      output.keyMax = max (startKey plr keyMin first posStart)
        (if last then keyMax else plr.inverse (posEnd - 1 : ℕ)) := by
  simp only [splitOutput] at built
  split_ifs at built
  all_goals
    obtain rfl := Option.some.inj built
    simp_all [startKey]
    try omega

include ordered fits nonempty within

theorem startKey_le_inverse (first : Bool) {pos : ℕ} (le : posStart ≤ pos) :
    startKey plr keyMin first posStart ≤ plr.inverse pos := by
  unfold startKey
  split_ifs
  · exact (inverse_mem ordered fits nonempty within _).1
  · exact inverse_mono ordered fits (by exact_mod_cast le)

theorem startKey_mem (first : Bool) (posStart : ℕ) (proper : keyMin ≤ keyMax) :
    keyMin ≤ startKey plr keyMin first posStart ∧ startKey plr keyMin first posStart ≤ keyMax := by
  unfold startKey
  split_ifs
  · exact ⟨le_rfl, proper⟩
  · exact inverse_mem ordered fits nonempty within _

theorem splitOutputs_ordered (proper : keyMin ≤ keyMax) (first : Bool) (posStart : ℕ) (positions : List ℕ)
    (sorted : (posStart :: positions).Pairwise (· < ·)) :
    (splitOutputs env opts plr inputs totalEntries keyMin keyMax first posStart positions).Pairwise
        (fun a b => a.keyMax ≤ b.keyMin) ∧
      ∀ output ∈ splitOutputs env opts plr inputs totalEntries keyMin keyMax first posStart positions,
        startKey plr keyMin first posStart ≤ output.keyMin ∧ output.keyMin ≤ output.keyMax ∧
          output.keyMax ≤ keyMax := by
  induction positions generalizing first posStart with
  | nil =>
    simp only [splitOutputs]
    cases built : splitOutput env opts plr inputs totalEntries keyMin keyMax first true posStart totalEntries with
    | none => simp
    | some =>
      obtain ⟨starts, order, ends⟩ := splitOutput_bounds built
      have bound := (startKey_mem ordered fits nonempty within first posStart proper).2
      simp only [Option.toList_some, pairwise_singleton, mem_singleton, forall_eq, true_and]
      exact ⟨starts.ge, order, ends.trans_le (max_le bound le_rfl)⟩
  | cons posEnd rest ih =>
    obtain ⟨tailSorted, tailBounds⟩ := ih false posEnd (pairwise_cons.mp sorted).2
    have lt : posStart < posEnd := rel_of_pairwise_cons sorted mem_cons_self
    have startLe := startKey_le_inverse ordered fits nonempty within first lt.le
    simp only [splitOutputs]
    cases built : splitOutput env opts plr inputs totalEntries keyMin keyMax first false posStart posEnd with
    | none =>
      refine ⟨tailSorted, ?_⟩
      intro output mem
      have bounds := tailBounds output mem
      exact ⟨startLe.trans bounds.1, bounds.2⟩
    | some output =>
      obtain ⟨starts, order, ends⟩ := splitOutput_bounds built
      -- the last rank of this output is at most the first rank of the next one
      have lastRank : plr.inverse (posEnd - 1 : ℕ) ≤ plr.inverse posEnd :=
        inverse_mono ordered fits (by exact_mod_cast Nat.sub_le posEnd 1)
      have ended : output.keyMax ≤ plr.inverse posEnd := ends.trans_le (max_le startLe (by simpa using lastRank))
      have inside := (inverse_mem ordered fits nonempty within posEnd).2
      refine ⟨pairwise_cons.mpr ⟨?_, tailSorted⟩, ?_⟩
      · intro next mem
        exact ended.trans (tailBounds next mem).1
      · intro next mem
        rcases mem_cons.mp mem with rfl | later
        · exact ⟨starts.ge, order, ended.trans inside⟩
        · have bounds := tailBounds next later
          exact ⟨startLe.trans bounds.1, bounds.2⟩

end

theorem globalMin_le_globalMax (nonempty : inputs ≠ [])
    (enclosed : ∀ input ∈ inputs, EnclosesModel input) : globalMin inputs ≤ globalMax inputs := by
  obtain ⟨input, mem⟩ := exists_mem_of_ne_nil inputs nonempty
  have lower := (ThetaSketch.foldl_min_le (·.keyMin) inputs uint64Max).2 input mem
  have upper := (ThetaSketch.le_foldl_max (·.keyMax) inputs 0).2 input mem
  exact (lower.trans (enclosed input mem).1).trans upper

/-- Outputs below L0 are in order, share at most boundary keys and stay inside the inputs' range, if no flat midpoint
wraps. -/
theorem compaction_outputs_ordered (env : KMVEnv) (config : RegistryConfig) (outputLevel : ℤ)
    (boundaries : List ℕ) (inputs : List VirtualSST) (merged : PLRModel) (totalEntries : ℕ)
    (nonempty : inputs ≠ []) (built : ∀ input ∈ inputs, BuiltFromSortedKeys input) (level : 1 ≤ outputLevel)
    (done : compactionModel inputs = .ok (merged, totalEntries)) (fits : ∀ seg ∈ merged.segments, MidpointFits seg) :
    (compactionSplit env config outputLevel boundaries inputs merged totalEntries).Pairwise
        (fun a b => a.keyMax ≤ b.keyMin) ∧
      ∀ output ∈ compactionSplit env config outputLevel boundaries inputs merged totalEntries,
        globalMin inputs ≤ output.keyMin ∧ output.keyMin ≤ output.keyMax ∧
          output.keyMax ≤ globalMax inputs := by
  have enclosed : ∀ input ∈ inputs, EnclosesModel input := fun input mem => (built input mem).encloses
  obtain ⟨ordered, within⟩ := compactionModel_ordered enclosed done
  unfold compactionSplit splitIntoSSTs splitIntoSSTsAt
  split_ifs with empty noEntrySize invalid levelZero
  · simp
  · simp
  · simp
  · have zero : outputLevel = 0 := levelZero
    omega
  · have segments : merged.segments ≠ [] := by
      intro none
      exact empty (.inr (by simp [PLRModel.empty, none]))
    have chosen : ∀ p seg, inverseSearch p merged.segments none = some seg → MidpointFits seg := fun p seg found =>
      fits seg (inverseSearch_nearest found).mem
    exact splitOutputs_ordered ordered chosen segments within (globalMin_le_globalMax nonempty enclosed) true 0 _
      (splitPositions_pairwise _ _ _).1

def threeKeys : VirtualSST := virtualSSTOfKeys {} 0 0 0 3 [0, 1, 2]

def oneKeyFiles : RegistryConfig := ⟨1, 1, .logical 1⟩

theorem compaction_outputs_ordered_threeKeys : compactionModel [threeKeys] = .ok (⟨[⟨0, 2, 3 / 2, 0⟩]⟩, 3) ∧
      (compactionSplit {} oneKeyFiles 1 [] [threeKeys] ⟨[⟨0, 2, 3 / 2, 0⟩]⟩ 3).Pairwise
        (fun a b => a.keyMax ≤ b.keyMin) := by
  have done : compactionModel [threeKeys] = .ok (⟨[⟨0, 2, 3 / 2, 0⟩]⟩, 3) := by decide +kernel
  have built : ∀ input ∈ [threeKeys], BuiltFromSortedKeys input := by
    intro input mem
    rw [mem_singleton.mp mem]
    exact ⟨{}, 0, 0, 0, 3, [0, 1, 2], by decide, rfl⟩
  refine ⟨done, (compaction_outputs_ordered {} oneKeyFiles 1 [] [threeKeys] _ 3 (by simp) built le_rfl done ?_).1⟩
  intro seg mem
  rw [mem_singleton.mp mem]
  intro flat
  exact absurd flat (by norm_num [flatSlope, abs_lt])

/-- The outputs share the key 1. Above `2 ^ 63` a flat midpoint wraps, and the second output starts too low. -/
theorem compaction_outputs_touch :
    (compactionOutputs {} oneKeyFiles 1 [] [threeKeys]).map (List.map fun o => (o.keyMin, o.keyMax)) =
        .ok [(0, 0), (1, 1), (1, 2)] ∧
      (compactionOutputs {} oneKeyFiles 1 [] [virtualSSTOfKeys {} 0 0 0 2 [2 ^ 63, 2 ^ 64 - 2]]).map
          (List.map fun o => (o.keyMin, o.keyMax)) =
        .ok [(2 ^ 63, 2 ^ 63), (2 ^ 62 - 1, 2 ^ 64 - 2)] := by
  exact ⟨by decide +kernel, by decide +kernel⟩

end VcompProof
