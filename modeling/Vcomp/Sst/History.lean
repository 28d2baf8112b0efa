import Vcomp.Kmv.MergeValidity
import Vcomp.Sst.Compaction

namespace VcompProof

open VcompModel ThetaSketch List

variable {env : KMVEnv} {config : RegistryConfig} {outputLevel : ℤ} {output : VirtualSST} {keyMin keyMax : ℕ}
  {inputs : List (VirtualSST × Set ℕ)}

/-- A tree of virtual compactions over flushed key lists, with the ingested keys its buckets cover. -/
inductive History : VirtualSST → Set ℕ → Prop where
  | flush (env : KMVEnv) (errorBound : ℚ) (maxSamples maxRanges sizeBytes : ℕ) (keys : List ℕ)
      (sorted : keys.Pairwise (· ≤ ·)) (bounded : ∀ key ∈ keys, key < word64) :
      History (virtualSSTOfKeys env errorBound maxSamples maxRanges sizeBytes keys) {key | key ∈ keys}
  | compaction (env : KMVEnv) (config : RegistryConfig) (outputLevel : ℤ) (grandparents : List (ℕ × ℕ))
      (inputs : List (VirtualSST × Set ℕ)) (outputs : List VirtualSST) (output : VirtualSST)
      (histories : ∀ input ∈ inputs, History input.1 input.2)
      (done : compactionOutputs env config outputLevel grandparents (inputs.map Prod.fst) = .ok outputs)
      (member : output ∈ outputs) :
      History output {key | (∃ input ∈ inputs, key ∈ input.2) ∧
        ∃ bucket ∈ output.kmvRanges, bucket.keyMin ≤ key ∧ key ≤ bucket.keyMax}

def bucketShare (keys : Set ℕ) (bucket : KMVRangeSketch) : Set ℕ :=
  {key | key ∈ keys ∧ bucket.keyMin ≤ key ∧ key ≤ bucket.keyMax}

/-- The buckets lie in the range, cover its keys, and are valid for those in their own. -/
structure DescriptorHolds (descriptor : VirtualSST) (keys : Set ℕ) : Prop where
  inside : BucketsInside descriptor
  covered : ∀ key ∈ keys, ∃ bucket ∈ descriptor.kmvRanges, bucket.keyMin ≤ key ∧ key ≤ bucket.keyMax
  bounded : ∀ key ∈ keys, key < word64
  valid : ∀ bucket ∈ descriptor.kmvRanges, ValidSketch bucket.sketch (bucketShare keys bucket)

theorem mem_run_iff {runs : List (List ℕ)} {run : List ℕ} {front back key : ℕ}
    (sorted : runs.flatten.Pairwise (· ≤ ·)) (runMem : run ∈ runs) (first : run.head? = some front)
    (last : run.getLast? = some back) : key ∈ run ↔ key ∈ runs.flatten ∧ front ≤ key ∧ key ≤ back := by
  obtain ⟨before, after, rfl⟩ := append_of_mem runMem
  simp only [flatten_append, flatten_cons] at sorted ⊢
  obtain ⟨_, sortedTail, beforeAll⟩ := pairwise_append.mp sorted
  obtain ⟨sortedRun, _, runAfter⟩ := pairwise_append.mp sortedTail
  have frontMem := mem_of_head? first
  have backMem := mem_of_getLast? last
  constructor
  · intro mem
    refine ⟨by simp [mem], ?_, ?_⟩
    · have bound := headD_le_of_mem sortedRun mem
      simpa [headD_eq_head?_getD, first] using bound
    · have bound := le_getLastD_of_mem sortedRun mem
      simpa [getLastD_eq_getLast?, last] using bound
  · rintro ⟨mem, lower, upper⟩
    simp only [mem_append] at mem
    rcases mem with earlier | inRun | later
    · have le := beforeAll key earlier front (mem_append_left _ frontMem)
      rwa [le_antisymm le lower]
    · exact inRun
    · have le := runAfter back backMem key later
      rwa [← le_antisymm le upper]

theorem flush_holds (env : KMVEnv) (errorBound : ℚ) (maxSamples maxRanges sizeBytes : ℕ) {keys : List ℕ}
    (sorted : keys.Pairwise (· ≤ ·)) (bounded : ∀ key ∈ keys, key < word64) :
    DescriptorHolds (virtualSSTOfKeys env errorBound maxSamples maxRanges sizeBytes keys) {key | key ∈ keys} := by
  obtain ⟨runs, rfl, covers⟩ := buildKMVRangeSketches_cover env maxSamples maxRanges sorted bounded
  refine ⟨?_, ?_, bounded, ?_⟩
  · intro bucket mem
    obtain ⟨run, runMem, cover⟩ := forall₂_exists_right covers.flip bucket mem
    have frontMem := ((mem_run_iff sorted runMem cover.first cover.last).mp (mem_of_head? cover.first)).1
    have backMem := ((mem_run_iff sorted runMem cover.first cover.last).mp (mem_of_getLast? cover.last)).1
    exact ⟨headD_le_of_mem sorted frontMem, le_getLastD_of_mem sorted backMem⟩
  · intro key mem
    obtain ⟨run, runMem, inRun⟩ := mem_flatten.mp mem
    obtain ⟨bucket, bucketMem, cover⟩ := forall₂_exists_right covers run runMem
    exact ⟨bucket, bucketMem, ((mem_run_iff sorted runMem cover.first cover.last).mp inRun).2⟩
  · intro bucket mem
    obtain ⟨run, runMem, cover⟩ := forall₂_exists_right covers.flip bucket mem
    have eq : bucketShare {key | key ∈ runs.flatten} bucket = {key | key ∈ run} := by
      ext key
      exact (mem_run_iff sorted runMem cover.first cover.last).symm
    rw [eq]
    exact cover.valid

section

variable {opts : SplitOptions} {plr : PLRModel} {sources : Option InputList} {total lo hi posStart : ℕ} {first : Bool}

theorem splitOutput_kmvRanges {last : Bool} {posEnd : ℕ}
    (made : splitOutput env opts plr sources total lo hi first last posStart posEnd = some output) :
    output.kmvRanges = outputRanges env opts sources output.keyMin output.keyMax output.numEntries := by
  simp only [splitOutput] at made
  split_ifs at made
  all_goals
    obtain rfl := Option.some.inj made
    rfl

theorem splitOutputs_kmvRanges (positions : List ℕ)
    (mem : output ∈ splitOutputs env opts plr sources total lo hi first posStart positions) :
    output.kmvRanges = outputRanges env opts sources output.keyMin output.keyMax output.numEntries := by
  induction positions generalizing first posStart with
  | nil => exact splitOutput_kmvRanges (Option.mem_toList.mp mem)
  | cons _ _ ih =>
    rcases mem_append.mp mem with here | later
    · exact splitOutput_kmvRanges (Option.mem_toList.mp here)
    · exact ih later

theorem compactionSplit_kmvRanges {boundaries : List ℕ} {inputs : List VirtualSST}
    (mem : output ∈ compactionSplit env config outputLevel boundaries inputs plr total) :
    output.kmvRanges =
      mergeKMVRangeSketchesForOutput env (inputs.map some) output.keyMin output.keyMax output.numEntries 0 0 := by
  unfold compactionSplit splitIntoSSTs splitIntoSSTsAt at mem
  split_ifs at mem
  · simp at mem
  · simp at mem
  · simp at mem
  · rw [mem_singleton.mp mem]
    rfl
  · exact splitOutputs_kmvRanges _ mem

end

theorem outputBucket_inside {rangeCount i : ℕ} (proper : keyMin ≤ keyMax) (index : i < rangeCount) :
    keyMin ≤ outputBucketMin keyMin (keyMax - keyMin + 1) rangeCount i ∧
      outputBucketMax keyMin (keyMax - keyMin + 1) rangeCount i ≤ keyMax := by
  simp only [outputBucketMin, outputBucketMax]
  have starts : (keyMax - keyMin + 1) * i / rangeCount < keyMax - keyMin + 1 :=
    Nat.div_lt_of_lt_mul (by rw [mul_comm rangeCount]; exact Nat.mul_lt_mul_of_pos_left index (by omega))
  have ends : (keyMax - keyMin + 1) * (i + 1) / rangeCount ≤ keyMax - keyMin + 1 :=
    Nat.div_le_of_le_mul (by rw [Nat.mul_comm rangeCount]; exact Nat.mul_le_mul_left _ index)
  generalize (keyMax - keyMin + 1) * i / rangeCount = startOff at starts
  generalize (keyMax - keyMin + 1) * (i + 1) / rangeCount = endOff at ends
  omega

theorem mem_mergeKMVRangeSketches {inputs : InputList} {numEntries maxSamples maxRanges : ℕ} {bucket : KMVRangeSketch}
    (mem : bucket ∈ mergeKMVRangeSketchesForOutput env inputs keyMin keyMax numEntries maxSamples maxRanges) :
    (keyMin ≤ bucket.keyMin ∧ bucket.keyMax ≤ keyMax) ∧
      ∃ samplesPerRange, 1 ≤ samplesPerRange ∧
        bucket.sketch = mergeKMVSketchesForRange env inputs bucket.keyMin bucket.keyMax samplesPerRange := by
  by_cases empty : inputs = [] ∨ numEntries = 0 ∨ keyMax < keyMin
  · simp [mergeKMVRangeSketchesForOutput, if_pos empty] at mem
  simp only [mergeKMVRangeSketchesForOutput, if_neg empty, mem_filterMap, mem_range] at mem
  generalize min (min (if maxRanges = 0 then virtualSSTKMVRangeBuckets env else maxRanges) numEntries)
    (keyMax - keyMin + 1) = rangeCount at mem
  generalize (if maxSamples = 0 then virtualSSTKMVSamples env else maxSamples) = samples at mem
  obtain ⟨i, index, built⟩ := mem
  split_ifs at built
  obtain rfl := Option.some.inj built
  exact ⟨outputBucket_inside (by omega) index, _, le_max_left _ _, rfl⟩

theorem forall₂_buckets (holds : ∀ input ∈ inputs, DescriptorHolds input.1 input.2) :
    List.Forall₂ BucketHolds (allBuckets ((inputs.map Prod.fst).map some))
      (inputs.flatMap fun input => input.1.kmvRanges.map (bucketShare input.2)) := by
  induction inputs with
  | nil => exact .nil
  | cons input _ ih =>
    simp only [allBuckets, map_cons, flatMap_cons, Option.elim]
    refine rel_append ?_ (ih fun other mem => holds other (by simp [mem]))
    have held := holds input (by simp)
    rw [forall₂_map_right_iff, forall₂_same]
    intro bucket mem
    exact ⟨held.valid bucket mem, fun key inShare => inShare.2, fun key inShare => held.bounded key inShare.1⟩

theorem compaction_holds {grandparents : List (ℕ × ℕ)} {outputs : List VirtualSST}
    (holds : ∀ input ∈ inputs, DescriptorHolds input.1 input.2)
    (done : compactionOutputs env config outputLevel grandparents (inputs.map Prod.fst) = .ok outputs)
    (mem : output ∈ outputs) : DescriptorHolds output {key | (∃ input ∈ inputs, key ∈ input.2) ∧
      ∃ bucket ∈ output.kmvRanges, bucket.keyMin ≤ key ∧ key ≤ bucket.keyMax} := by
  obtain ⟨⟨merged, totalEntries⟩, _, rfl⟩ : ∃ model, compactionModel (inputs.map Prod.fst) = .ok model ∧
      compactionSplit env config outputLevel (grandparentBoundaries grandparents) (inputs.map Prod.fst)
        model.1 model.2 = outputs := by
    unfold compactionOutputs at done
    cases merged : compactionModel (inputs.map Prod.fst) with
    | error => simp [merged, Except.map] at done
    | ok model => exact ⟨model, rfl, by simpa [merged, Except.map] using done⟩
  have ranges := compactionSplit_kmvRanges mem
  refine ⟨?_, fun key inKeys => inKeys.2, ?_, ?_⟩
  · intro bucket inRanges
    rw [ranges] at inRanges
    exact (mem_mergeKMVRangeSketches inRanges).1
  · rintro key ⟨⟨input, inputMem, inKeys⟩, _⟩
    exact (holds input inputMem).bounded key inKeys
  · intro bucket inRanges
    obtain ⟨_, samplesPerRange, pos, sketch⟩ := mem_mergeKMVRangeSketches (ranges ▸ inRanges)
    have inside : ∀ input, some input ∈ (inputs.map Prod.fst).map some → BucketsInside input := by
      intro input inputMem
      simp only [map_map, mem_map, Function.comp_apply, Option.some.injEq] at inputMem
      obtain ⟨origin, originMem, rfl⟩ := inputMem
      exact (holds origin originMem).inside
    have valid := (mergeKMVSketches_valid (forall₂_buckets holds) inside bucket.keyMin bucket.keyMax env pos).1
    rw [← sketch] at valid
    convert valid using 1
    ext key
    constructor
    · rintro ⟨⟨⟨input, inputMem, inKeys⟩, _⟩, inRange⟩
      obtain ⟨piece, pieceMem, inPiece⟩ := (holds input inputMem).covered key inKeys
      refine ⟨⟨bucketShare input.2 piece, ?_, inKeys, inPiece⟩, inRange⟩
      exact mem_flatMap.mpr ⟨input, inputMem, mem_map_of_mem pieceMem⟩
    · rintro ⟨⟨share, shareMem, inShare⟩, inRange⟩
      obtain ⟨input, inputMem, inMap⟩ := mem_flatMap.mp shareMem
      obtain ⟨piece, _, rfl⟩ := mem_map.mp inMap
      exact ⟨⟨⟨input, inputMem, inShare.1⟩, bucket, inRanges, inRange⟩, inRange⟩

theorem history_holds {descriptor : VirtualSST} {keys : Set ℕ} (history : History descriptor keys) :
    DescriptorHolds descriptor keys := by
  induction history with
  | flush env errorBound maxSamples maxRanges sizeBytes _ sorted bounded =>
    exact flush_holds env errorBound maxSamples maxRanges sizeBytes sorted bounded
  | compaction _ _ _ _ _ _ _ _ done mem ih =>
    exact compaction_holds ih done mem

/-- Built sketches are valid, range merges of valid ones are within their budget, and so is every bucket of a tree of
compactions. -/
theorem kmv_sketches_stay_valid (env : KMVEnv) :
    (∀ keys maxSamples maxRanges, keys.Pairwise (· ≤ ·) → (∀ key ∈ keys, key < word64) →
      ∃ runs, runs.flatten = keys ∧
        List.Forall₂ BucketCovers runs (buildKMVRangeSketchesFromSortedKeys env keys maxSamples maxRanges)) ∧
    (∀ inputs sets lo hi maxSamples, 1 ≤ maxSamples → List.Forall₂ BucketHolds (allBuckets inputs) sets →
      (∀ input, some input ∈ inputs → BucketsInside input) →
      ValidSketch (mergeKMVSketchesForRange env inputs lo hi maxSamples) (keysInRange sets lo hi) ∧
        (mergeKMVSketchesForRange env inputs lo hi maxSamples).samples.length ≤ maxSamples ∧
        (maxSamples < (sortUnique (samplesInRange (foldTheta (sketchPieces inputs lo hi)) lo hi
            (sketchPieces inputs lo hi))).length →
          (mergeKMVSketchesForRange env inputs lo hi maxSamples).complete = false)) ∧
    (∀ descriptor keys, History descriptor keys → BucketsInside descriptor ∧
      ∀ bucket ∈ descriptor.kmvRanges, ValidSketch bucket.sketch (bucketShare keys bucket)) := by
  refine ⟨?_, ?_, ?_⟩
  · intro keys maxSamples maxRanges sorted bounded
    exact buildKMVRangeSketches_cover env maxSamples maxRanges sorted bounded
  · intro inputs sets lo hi maxSamples pos holds inside
    exact mergeKMVSketches_valid holds inside _ _ env pos
  · intro descriptor keys history
    have held := history_holds history
    exact ⟨held.inside, held.valid⟩

def laterKeys : VirtualSST := virtualSSTOfKeys {} 0 0 0 2 [1, 7]

theorem kmv_sketches_stay_valid_compacted : (∃ runs, runs.flatten = [0, 1, 2] ∧
      List.Forall₂ BucketCovers runs (buildKMVRangeSketchesFromSortedKeys {} [0, 1, 2] 0 0)) ∧
    ValidSketch (mergeKMVSketchesForRange {} [some threeKeys] 0 1 1)
      (keysInRange (threeKeys.kmvRanges.map (bucketShare {key | key ∈ [0, 1, 2]})) 0 1) ∧
    (mergeKMVSketchesForRange {} [some threeKeys] 0 1 1).complete = false ∧
    ∃ outputs, compactionOutputs {} oneKeyFiles 1 [] [threeKeys, laterKeys] = .ok outputs ∧
      outputs.length = 4 ∧ ∀ output ∈ outputs, ∃ keys, History output keys ∧
        ∀ bucket ∈ output.kmvRanges, ValidSketch bucket.sketch (bucketShare keys bucket) := by
  have sorted : [0, 1, 2].Pairwise (· ≤ ·) := by decide
  have bounded : ∀ key ∈ [0, 1, 2], key < word64 := by decide
  have first : History threeKeys {key | key ∈ [0, 1, 2]} := .flush {} 0 0 0 3 [0, 1, 2] sorted bounded
  have second : History laterKeys {key | key ∈ [1, 7]} := .flush {} 0 0 0 2 [1, 7] (by decide) (by decide)
  have held := history_holds first
  have buckets := forall₂_buckets
    (by simpa using held : ∀ input ∈ [(threeKeys, {key | key ∈ [0, 1, 2]})], DescriptorHolds input.1 input.2)
  obtain ⟨built, merged, tree⟩ := kmv_sketches_stay_valid {}
  have result := merged [some threeKeys] _ 0 1 1 le_rfl buckets (by simpa using held.inside)
  have model : compactionModel [threeKeys, laterKeys] =
      .ok (⟨[⟨0, 2, 8 / 5, 0⟩, ⟨2, 7, 4 / 25, 72 / 25⟩]⟩, 4) := by decide +kernel
  have done : compactionOutputs {} oneKeyFiles 1 [] [threeKeys, laterKeys] = .ok (compactionSplit {} oneKeyFiles 1 []
      [threeKeys, laterKeys] ⟨[⟨0, 2, 8 / 5, 0⟩, ⟨2, 7, 4 / 25, 72 / 25⟩]⟩ 4) := by
    rw [compactionOutputs, model]
    rfl
  refine ⟨built [0, 1, 2] 0 0 sorted bounded, result.1, result.2.2 (by decide +kernel), _, done, by decide +kernel, ?_⟩
  intro output mem
  have history := History.compaction {} oneKeyFiles 1 [] [(threeKeys, _), (laterKeys, _)] _ output
    (forall_mem_cons.mpr ⟨first, forall_mem_singleton.mpr second⟩) done mem
  exact ⟨_, history, (tree output _ history).2⟩

end VcompProof
