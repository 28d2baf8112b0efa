import Vcomp.Kmv.MergeValidity
import Vcomp.Sst.Compaction

namespace VcompProof

open VcompModel ThetaSketch SortUnique List

variable {theta : ℕ} {run keys : List ℕ} {bucket : KMVRangeSketch}

theorem length_sortUnique (l : List ℕ) : (sortUnique l).length = l.dedup.length := by
  rw [sortUnique, destutter_ne_of_sorted (pairwise_insertionSort _ l)]
  exact ((perm_insertionSort _ l).dedup).length_eq

theorem nodup_hashes (bounded : ∀ k ∈ keys, k < word64) (nodup : keys.Nodup) : (keys.map kmvHash).Nodup :=
  nodup.map_on fun a inA b inB => kmvHash_injective (bounded a inA) (bounded b inB)

theorem length_dedup_hashes (bounded : ∀ k ∈ keys, k < word64) : (keys.map kmvHash).dedup.length = keys.dedup.length := by
  have image : (keys.map kmvHash).toFinset = keys.toFinset.image kmvHash := by
    ext h
    simp
  rw [← card_toFinset, ← card_toFinset, image]
  apply Finset.card_image_of_injOn
  intro a inA b inB
  exact kmvHash_injective (bounded a (mem_toFinset.mp inA)) (bounded b (mem_toFinset.mp inB))

theorem samplesBelow_perm {runs : List (List ℕ)} {ranges : List KMVRangeSketch}
    (covers : List.Forall₂ BucketCovers runs ranges) (nodup : ∀ run ∈ runs, run.Nodup)
    (bounded : ∀ run ∈ runs, ∀ k ∈ run, k < word64) (lt : ∀ bucket ∈ ranges, theta ≤ bucket.sketch.thetaHash) :
    (samplesBelow theta ranges).Perm ((runs.flatten.map kmvHash).filter (· ≤ theta)) := by
  induction covers with
  | nil => exact .refl _
  | @cons run bucket runs ranges first rest ih =>
    obtain ⟨nodupFirst, nodupRest⟩ := forall_mem_cons.mp nodup
    obtain ⟨boundedFirst, boundedRest⟩ := forall_mem_cons.mp bounded
    obtain ⟨belowFirst, belowRest⟩ := forall_mem_cons.mp lt
    rw [samplesBelow, flatMap_cons, flatten_cons, map_append, filter_append]
    apply List.Perm.append _ (ih nodupRest boundedRest belowRest)
    have sample := first.valid.sample
    rw [perm_ext_iff_of_nodup ((sample.sorted.imp ne_of_lt).filter _) ((nodup_hashes boundedFirst nodupFirst).filter _)]
    intro h
    rw [mem_filter, mem_filter, sample.mem_iff, decide_eq_true_iff, mem_map]
    constructor
    · intro mem
      exact ⟨mem.1.1, mem.2⟩
    · intro mem
      exact ⟨⟨mem.1, mem.2.trans belowFirst⟩, mem.2⟩

section

variable {lists : List (List ℕ)} {inputs : InputList}

/-- A descriptor built from a sorted list of distinct 64-bit keys. -/
structure BuiltFrom (keys : List ℕ) (input : Option VirtualSST) : Prop where
  sorted : keys.Pairwise (· < ·)
  bounded : ∀ k ∈ keys, k < word64
  built : ∃ env errorBound maxSamples maxRanges sizeBytes,
    input = some (virtualSSTOfKeys env errorBound maxSamples maxRanges sizeBytes keys)

structure Covered (runs : List (List ℕ)) (keys : List ℕ) (ranges : List KMVRangeSketch) : Prop where
  flat : runs.flatten = keys
  covers : List.Forall₂ BucketCovers runs ranges
  nodup : ∀ run ∈ runs, run.Nodup

theorem BuiltFrom.covers {input : Option VirtualSST} (made : BuiltFrom keys input) :
    ∃ runs, Covered runs keys (input.elim [] (·.kmvRanges)) := by
  obtain ⟨env, errorBound, maxSamples, maxRanges, sizeBytes, rfl⟩ := made.built
  obtain ⟨runs, flat, covers⟩ :=
    buildKMVRangeSketches_cover env maxSamples maxRanges (made.sorted.imp le_of_lt) made.bounded
  have nodup : runs.flatten.Nodup := by
    rw [flat]
    exact made.sorted.imp ne_of_lt
  exact ⟨runs, flat, covers, (nodup_flatten.mp nodup).1⟩

section

variable (built : List.Forall₂ BuiltFrom lists inputs)
include built

theorem builtFrom_covers : ∃ runs, Covered runs lists.flatten (allBuckets inputs) := by
  induction built with
  | nil => exact ⟨[], rfl, .nil, by simp⟩
  | cons first _ ih =>
    obtain ⟨runs, flat, covers, nodup⟩ := first.covers
    obtain ⟨later, flatLater, coversLater, nodupLater⟩ := ih
    refine ⟨runs ++ later, ?_, ?_, ?_⟩
    · rw [flatten_append, flat, flatLater, flatten_cons]
    · rw [allBuckets, flatMap_cons]
      exact rel_append covers coversLater
    · exact forall_mem_append.mpr ⟨nodup, nodupLater⟩

theorem builtFrom_bounded : ∀ k ∈ lists.flatten, k < word64 := by
  intro k mem
  obtain ⟨keys, inLists, inKeys⟩ := mem_flatten.mp mem
  obtain ⟨input, -, made⟩ := forall₂_exists_right built keys inLists
  exact made.bounded k inKeys

theorem sampled_keys : (samplesBelow (foldTheta (allBuckets inputs)) (allBuckets inputs)).Perm
      ((lists.flatten.map kmvHash).filter (· ≤ foldTheta (allBuckets inputs))) := by
  obtain ⟨runs, flat, covers, nodup⟩ := builtFrom_covers built
  have bounded := builtFrom_bounded built
  rw [← flat] at bounded ⊢
  apply samplesBelow_perm covers nodup
  · exact fun run mem k inRun => bounded k (mem_flatten_of_mem mem inRun)
  · exact fun bucket mem => (ThetaSketch.foldl_min_le _ _ _).2 bucket mem

end

theorem estimate_bounds {naive : ℕ} (one : 1 ≤ naive) :
    1 ≤ estimateKMVUnionEntries inputs naive ∧ estimateKMVUnionEntries inputs naive ≤ naive := by
  simp only [estimateKMVUnionEntries]
  split_ifs with _ _ _ _ all
  all_goals first | exact ⟨one, le_rfl⟩ | skip
  all_goals
    have share : ∀ unique sampled : ℕ, ¬ unique ≥ sampled → (naive : ℚ) * unique / sampled ≤ naive := by
      intro unique sampled fewer
      have lt : (unique : ℚ) ≤ sampled := by exact_mod_cast (not_le.mp fewer).le
      rw [mul_div_assoc]
      exact mul_le_of_le_one_right (Nat.cast_nonneg _) (div_le_one_of_le₀ lt (Nat.cast_nonneg _))
    have upper := share _ _ all
    refine ⟨le_max_left _ _, max_le one ?_⟩
  · have rounded := stdRound_mono (by positivity) upper
    rw [stdRound_natCast] at rounded
    omega
  · have rounded := Int.ceil_le_ceil upper
    rw [Int.ceil_natCast] at rounded
    omega

section

variable (built : List.Forall₂ BuiltFrom lists inputs)
include built

theorem estimate_disjoint (disjoint : lists.Pairwise List.Disjoint) (naive : ℕ) :
    estimateKMVUnionEntries inputs naive = naive := by
  have nodup : lists.flatten.Nodup := by
    refine nodup_flatten.mpr ⟨fun keys mem => ?_, disjoint⟩
    obtain ⟨input, -, made⟩ := forall₂_exists_right built keys mem
    exact made.sorted.imp ne_of_lt
  have sampled := sampled_keys built
  have distinct := sampled.nodup_iff.mpr ((nodup_hashes (builtFrom_bounded built) nodup).filter _)
  simp only [estimateKMVUnionEntries]
  split_ifs with _ _ _ _ all
  all_goals first | rfl | skip
  all_goals
    rw [length_sortUnique] at all
    exact absurd (congrArg List.length distinct.dedup).ge all

theorem complete_sampled (complete : ∀ bucket ∈ allBuckets inputs, bucket.sketch.complete = true) :
    (samplesBelow (foldTheta (allBuckets inputs)) (allBuckets inputs)).Perm (lists.flatten.map kmvHash) := by
  obtain ⟨runs, -, covers, -⟩ := builtFrom_covers built
  have theta : foldTheta (allBuckets inputs) = uint64Max := by
    apply foldTheta_of_all_max
    intro bucket mem
    obtain ⟨run, -, held⟩ := forall₂_exists_right covers.flip bucket mem
    exact (held.valid.complete (complete bucket mem)).1
  have sampled := sampled_keys built
  rwa [filter_eq_self.mpr] at sampled
  intro h mem
  obtain ⟨k, -, rfl⟩ := mem_map.mp mem
  rw [theta, decide_eq_true_iff]
  exact Nat.le_sub_one_of_lt (kmvHash_lt k)

theorem builtFrom_ranges (ne : ∀ keys ∈ lists, keys ≠ []) :
    ¬ inputs.any (fun input => input.all (·.kmvRanges.isEmpty)) = true := by
  intro without
  obtain ⟨input, mem, empty⟩ := List.any_eq_true.mp without
  obtain ⟨keys, inLists, made⟩ := forall₂_exists_right built.flip input mem
  obtain ⟨runs, flat, covers, -⟩ := made.covers
  obtain ⟨env, errorBound, maxSamples, maxRanges, sizeBytes, rfl⟩ := made.built
  rw [Option.all_some, List.isEmpty_iff] at empty
  rw [Option.elim_some, empty, List.forall₂_nil_right_iff] at covers
  exact ne keys inLists (by rw [← flat, covers, List.flatten_nil])

theorem estimate_complete (ne : ∀ keys ∈ lists, keys ≠ [])
    (complete : ∀ bucket ∈ allBuckets inputs, bucket.sketch.complete = true) :
    estimateKMVUnionEntries inputs lists.flatten.length = lists.flatten.dedup.length := by
  have sampled := complete_sampled built complete
  have entries : (samplesBelow (foldTheta (allBuckets inputs)) (allBuckets inputs)).length = lists.flatten.length := by
    rw [sampled.length_eq, length_map]
  have unique : (samplesBelow (foldTheta (allBuckets inputs)) (allBuckets inputs)).dedup.length =
      lists.flatten.dedup.length := by
    rw [sampled.dedup.length_eq, length_dedup_hashes (builtFrom_bounded built)]
  have noKeys : lists.flatten.length = 0 → lists.flatten.length = lists.flatten.dedup.length := by
    intro zero
    rw [length_eq_zero_iff.mp zero]
    rfl
  rw [allBuckets] at entries unique
  simp only [estimateKMVUnionEntries, length_sortUnique, entries, unique]
  rw [if_neg (builtFrom_ranges built ne)]
  split_ifs with nothing sampleless zero all
  · apply noKeys
    rcases nothing with few | zero
    · rw [few, forall₂_nil_right_iff] at built
      rw [built]
      rfl
    · exact zero
  · obtain ⟨bucket, mem, bad⟩ := any_eq_true.mp sampleless
    rw [complete bucket mem] at bad
    simp at bad
  · exact noKeys zero
  · exact le_antisymm all (dedup_sublist _).length_le
  all_goals
    have pos : (lists.flatten.length : ℚ) ≠ 0 := Nat.cast_ne_zero.mpr zero
    have one : 1 ≤ lists.flatten.dedup.length := by
      by_contra few
      have empty := length_eq_zero_iff.mp (Nat.lt_one_iff.mp (not_le.mp few))
      rw [dedup_eq_nil] at empty
      exact zero (by rw [empty]; rfl)
    rw [mul_div_cancel_left₀ _ pos]
  · rw [stdRound_natCast, Int.toNat_natCast, max_eq_right one]
  · rw [Int.ceil_natCast, Int.toNat_natCast, max_eq_right one]

end

/-- The estimate of the distinct keys of built descriptors, with the sum of their counts as naive count. -/
theorem estimate_sound (lists : List (List ℕ)) (inputs : InputList) (built : List.Forall₂ BuiltFrom lists inputs) :
    let naive := (lists.map List.length).sum
    (1 ≤ naive → 1 ≤ estimateKMVUnionEntries inputs naive ∧ estimateKMVUnionEntries inputs naive ≤ naive) ∧
      (lists.Pairwise List.Disjoint → estimateKMVUnionEntries inputs naive = naive) ∧
      ((∀ keys ∈ lists, keys ≠ []) → (∀ bucket ∈ allBuckets inputs, bucket.sketch.complete = true) →
        estimateKMVUnionEntries inputs naive = lists.flatten.dedup.length) := by
  intro naive
  refine ⟨estimate_bounds, fun disjoint => estimate_disjoint built disjoint naive, fun ne complete => ?_⟩
  rw [← estimate_complete built ne complete, length_flatten]

def pairOfKeys (keys : List ℕ) : Option VirtualSST := some (virtualSSTOfKeys {} 0 0 0 0 keys)

theorem pairOfKeys_built (sorted : keys.Pairwise (· < ·)) (bounded : ∀ k ∈ keys, k < word64) :
    BuiltFrom keys (pairOfKeys keys) := ⟨sorted, bounded, _, _, _, _, _, rfl⟩

theorem estimate_sound_overlap : estimateKMVUnionEntries [pairOfKeys [0, 1], pairOfKeys [1, 2]] 4 = 3 :=
  (estimate_sound [[0, 1], [1, 2]] _ (.cons (pairOfKeys_built (by decide) (by decide))
    (.cons (pairOfKeys_built (by decide) (by decide)) .nil))).2.2 (by decide) (by decide +kernel)

/-- With a descriptor of no keys the naive count is returned, though all buckets are complete. -/
theorem estimate_empty_list :
    List.Forall₂ BuiltFrom [[], [0, 1], [0, 1]] [pairOfKeys [], pairOfKeys [0, 1], pairOfKeys [0, 1]] ∧
      (∀ bucket ∈ allBuckets [pairOfKeys [], pairOfKeys [0, 1], pairOfKeys [0, 1]], bucket.sketch.complete = true) ∧
      estimateKMVUnionEntries [pairOfKeys [], pairOfKeys [0, 1], pairOfKeys [0, 1]] 4 = 4 ∧
      [[], [0, 1], [0, 1]].flatten.dedup.length = 2 :=
  ⟨.cons (pairOfKeys_built (by decide) (by decide)) (.cons (pairOfKeys_built (by decide) (by decide))
    (.cons (pairOfKeys_built (by decide) (by decide)) .nil)), by decide +kernel, by decide +kernel, by decide⟩

end

end VcompProof
