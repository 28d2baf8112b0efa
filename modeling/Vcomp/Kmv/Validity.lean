import Vcomp.Kmv.Merge

namespace VcompProof

open VcompModel ThetaSketch SortUnique List

variable {samplesPerRange : ℕ} {samples : List ℕ} {keys : Set ℕ} {maxSamples : ℕ} {run : List ℕ}

/-- The samples are the sorted fingerprints up to theta; a complete sketch holds all under the largest theta. -/
structure ValidSketch (sketch : KMVSketch) (keys : Set ℕ) : Prop where
  sample : IsSample sketch.thetaHash sketch.samples (Set.image kmvHash keys)
  complete : sketch.complete = true →
    sketch.thetaHash = uint64Max ∧ ∀ h, h ∈ sketch.samples ↔ h ∈ Set.image kmvHash keys

theorem image_le_uint64Max {h : ℕ} (mem : h ∈ Set.image kmvHash keys) : h ≤ uint64Max := by
  obtain ⟨key, _, rfl⟩ := mem
  exact Nat.le_sub_one_of_lt (kmvHash_lt key)

theorem validSketch_of_top (complete : Bool) (sample : IsSample uint64Max samples (Set.image kmvHash keys)) :
    ValidSketch ⟨samples, uint64Max, complete⟩ keys :=
  ⟨sample, fun _ => ⟨rfl, fun h => (sample.mem_iff h).trans ⟨And.left, fun mem =>
    ⟨mem, image_le_uint64Max mem⟩⟩⟩⟩

theorem validSketch_of_incomplete {theta : ℕ} (sample : IsSample theta samples (Set.image kmvHash keys)) :
    ValidSketch ⟨samples, theta, false⟩ keys :=
  ⟨sample, by simp⟩

theorem validSketch_empty : ValidSketch {} ∅ := validSketch_of_incomplete ⟨by simp, by simp⟩

theorem sortByHashAndTrim_of_le (fits : samples.length ≤ maxSamples) :
    sortByHashAndTrim samples maxSamples = samples.insertionSort (· ≤ ·) := by
  simp only [sortByHashAndTrim, length_insertionSort]
  exact if_neg fun trimmed => absurd trimmed.2 (not_lt.mpr fits)

structure ScanInv (maxSamples : ℕ) (seen : List ℕ) (build : SketchBuild) : Prop where
  bottom : IsBottom maxSamples build.uniqueCount build.heap (Set.image kmvHash {key | key ∈ seen})
  last : build.lastKey = seen.getLast?

theorem ScanInv.add {key : ℕ} {seen : List ℕ} {build : SketchBuild} (inv : ScanInv maxSamples seen build)
    (sorted : (seen ++ [key]).Pairwise (· ≤ ·)) (bounded : ∀ k ∈ seen ++ [key], k < word64) :
    ScanInv maxSamples (seen ++ [key]) (build.add maxSamples key) := by
  have insertSeen : {k | k ∈ seen ++ [key]} = insert key {k | k ∈ seen} := by
    ext k
    simp [or_comm]
  unfold SketchBuild.add
  split_ifs with repeated
  · rw [inv.last] at repeated
    have seenKey : key ∈ {k | k ∈ seen} := mem_of_getLast? repeated
    refine ⟨?_, ?_⟩
    · rw [insertSeen, Set.insert_eq_of_mem seenKey]
      exact inv.bottom
    · rw [inv.last, repeated]
      simp
  · have fresh : key ∉ seen := by
      intro mem
      obtain ⟨init, back, rfl⟩ := eq_nil_or_concat' seen |>.resolve_left (ne_nil_of_mem mem)
      obtain ⟨sortedSeen, _, lt⟩ := pairwise_append.mp sorted
      have backLe : back ≤ key := lt back (by simp) key (by simp)
      have leBack : key ≤ back := by
        rcases mem_append.mp mem with earlier | final
        · exact (pairwise_append.mp sortedSeen).2.2 key earlier back (by simp)
        · exact (mem_singleton.mp final).le
      rw [inv.last] at repeated
      exact repeated (by simp [le_antisymm leBack backLe])
    have freshHash : kmvHash key ∉ Set.image kmvHash {k | k ∈ seen} := by
      rintro ⟨other, otherMem, eq⟩
      have equal := kmvHash_injective (bounded other (mem_append_left _ otherMem)) (bounded key (by simp)) eq
      exact fresh (equal ▸ otherMem)
    refine ⟨?_, by simp⟩
    rw [insertSeen, Set.image_insert_eq]
    exact inv.bottom.offer freshHash

theorem foldl_scanInv (maxSamples : ℕ) (keys seen : List ℕ) (build : SketchBuild) (inv : ScanInv maxSamples seen build)
    (sorted : (seen ++ keys).Pairwise (· ≤ ·)) (bounded : ∀ k ∈ seen ++ keys, k < word64) :
    ScanInv maxSamples (seen ++ keys) (keys.foldl (SketchBuild.add maxSamples) build) := by
  induction keys generalizing seen build with
  | nil => simpa using inv
  | cons key keys ih =>
    rw [append_cons] at sorted bounded ⊢
    have added := inv.add (sorted.sublist (sublist_append_left _ _))
      fun k mem => bounded k (mem_append_left _ mem)
    exact ih _ _ added sorted bounded

theorem buildKMVSketch_valid {keys : List ℕ} (pos : 1 ≤ maxSamples)
    (sorted : keys.Pairwise (· ≤ ·)) (bounded : ∀ k ∈ keys, k < word64) :
    ValidSketch (buildKMVSketchFromSortedKeyRange keys maxSamples) {key | key ∈ keys} ∧
      (buildKMVSketchFromSortedKeyRange keys maxSamples).samples.length ≤ maxSamples := by
  by_cases empty : keys = []
  · subst empty
    simpa [buildKMVSketchFromSortedKeyRange] using validSketch_empty
  have start : ScanInv maxSamples [] ({} : SketchBuild) := ⟨by simpa using isBottom_empty maxSamples, rfl⟩
  have scanned := (foldl_scanInv maxSamples keys [] {} start sorted bounded).bottom
  simp only [nil_append] at scanned
  simp only [buildKMVSketchFromSortedKeyRange, if_neg empty]
  generalize keys.foldl (SketchBuild.add maxSamples) {} = build at scanned
  have fits : build.heap.length ≤ maxSamples := scanned.length.trans_le (min_le_left _ _)
  rw [sortByHashAndTrim_of_le fits]
  have members : ∀ h, h ∈ build.heap.insertionSort (· ≤ ·) ↔ h ∈ build.heap := fun h => mem_insertionSort _
  have nodup : (build.heap.insertionSort (· ≤ ·)).Nodup :=
    (perm_insertionSort (· ≤ ·) build.heap).nodup_iff.mpr (scanned.sorted.imp fun h => h.ne')
  have increasing := pairwise_lt_of_le_nodup (pairwise_insertionSort (· ≤ ·) build.heap) nodup
  refine ⟨?_, by simpa using fits⟩
  by_cases complete : build.uniqueCount ≤ maxSamples
  · simp only [complete, decide_true, if_true]
    exact validSketch_of_top true
      (scanned.isSample_complete increasing members (fun h mem => image_le_uint64Max mem) complete)
  · simp only [complete, decide_false, Bool.false_eq_true, if_false]
    cases last : (build.heap.insertionSort (· ≤ ·)).getLast? with
    | none =>
      have none := getLast?_eq_none_iff.mp last
      have zero : build.heap.length = 0 := by
        rw [← length_insertionSort (· ≤ ·) build.heap, none, length_nil]
      have length := scanned.length
      omega
    | some back => exact validSketch_of_incomplete (scanned.isSample_back increasing members last)

structure BucketCovers (run : List ℕ) (bucket : KMVRangeSketch) : Prop where
  first : run.head? = some bucket.keyMin
  last : run.getLast? = some bucket.keyMax
  entries : bucket.numEntries = run.length
  valid : ValidSketch bucket.sketch {key | key ∈ run}

theorem rangeBucket_covers {bucket : KMVRangeSketch}
    (pos : 1 ≤ samplesPerRange) (sorted : run.Pairwise (· ≤ ·)) (bounded : ∀ k ∈ run, k < word64)
    (built : rangeBucket run samplesPerRange = some bucket) : BucketCovers run bucket := by
  unfold rangeBucket at built
  split at built
  · next front back first last =>
    obtain rfl := Option.some.inj built
    exact ⟨first, last, rfl, (buildKMVSketch_valid pos sorted bounded).1⟩
  · simp at built

theorem rangeBucket_eq_none (skipped : rangeBucket run samplesPerRange = none) : run = [] := by
  cases run with
  | nil => rfl
  | cons key keys =>
    have last : (key :: keys).getLast? = some ((key :: keys).getLast (by simp)) := getLast?_eq_some_getLast _
    simp [rangeBucket, last] at skipped

theorem filterMap_rangeBucket_covers (pos : 1 ≤ samplesPerRange) (runs : List (List ℕ))
    (sorted : ∀ run ∈ runs, run.Pairwise (· ≤ ·)) (bounded : ∀ run ∈ runs, ∀ k ∈ run, k < word64) :
    ∃ covered, covered.flatten = runs.flatten ∧
      List.Forall₂ BucketCovers covered (runs.filterMap fun run => rangeBucket run samplesPerRange) := by
  induction runs with
  | nil => exact ⟨[], rfl, .nil⟩
  | cons run runs ih =>
    obtain ⟨covered, eq, covers⟩ := ih (fun r mem => sorted r (by simp [mem]))
      fun r mem => bounded r (by simp [mem])
    cases built : rangeBucket run samplesPerRange with
    | none =>
      refine ⟨covered, ?_, by simpa [built] using covers⟩
      rw [rangeBucket_eq_none built, eq]
      simp
    | some bucket =>
      refine ⟨run :: covered, by simp [eq], ?_⟩
      simp only [filterMap_cons, built]
      exact .cons (rangeBucket_covers pos (sorted run (by simp)) (bounded run (by simp)) built) covers

theorem flatten_slices (keys : List ℕ) (cut : ℕ → ℕ) (zero : cut 0 = 0) (mono : ∀ i, cut i ≤ cut (i + 1)) (n : ℕ) :
    ((List.range n).map fun i => (keys.drop (cut i)).take (cut (i + 1) - cut i)).flatten = keys.take (cut n) := by
  induction n with
  | zero => simp [zero]
  | succ n ih =>
    rw [range_succ, map_append, flatten_append, ih]
    simp only [map_cons, map_nil, flatten_cons, flatten_nil, append_nil]
    rw [← take_add, Nat.add_sub_cancel' (mono n)]

theorem flatten_bucketKeys (keys : List ℕ) {rangeCount : ℕ} (pos : 0 < rangeCount) :
    ((List.range rangeCount).map (bucketKeys keys rangeCount)).flatten = keys := by
  have slices := flatten_slices keys (fun i => keys.length * i / rangeCount) (by simp)
    (fun i => Nat.div_le_div_right (Nat.mul_le_mul_left _ (Nat.le_succ i))) rangeCount
  rw [Nat.mul_div_cancel _ pos, take_length] at slices
  exact slices

theorem envSize_pos {fallback : ℕ} (pos : 0 < fallback) (value : Option (List Char)) : 0 < envSize fallback value := by
  unfold envSize
  split
  · exact pos
  · exact pos
  · split
    · exact pos
    · exact pos
    · next parsed notZero _ => exact pos_of_ne_zero notZero

theorem buildKMVRangeSketches_cover (env : KMVEnv) {keys : List ℕ} (maxSamples maxRanges : ℕ)
    (sorted : keys.Pairwise (· ≤ ·)) (bounded : ∀ k ∈ keys, k < word64) : ∃ runs, runs.flatten = keys ∧
      List.Forall₂ BucketCovers runs (buildKMVRangeSketchesFromSortedKeys env keys maxSamples maxRanges) := by
  by_cases empty : keys = []
  · exact ⟨[], by simp [empty], by simp [buildKMVRangeSketchesFromSortedKeys, empty]⟩
  simp only [buildKMVRangeSketchesFromSortedKeys, if_neg empty]
  generalize ranges : (if maxRanges = 0 then virtualSSTKMVRangeBuckets env else maxRanges) = count
  have countPos : 0 < count := by
    rw [← ranges]
    split_ifs
    · exact envSize_pos (by decide) _
    · omega
  have pos : 0 < min count keys.length := lt_min countPos (length_pos_iff.mpr empty)
  have slice : ∀ run ∈ (List.range (min count keys.length)).map (bucketKeys keys (min count keys.length)),
      run.Sublist keys := by
    intro run mem
    obtain ⟨i, _, rfl⟩ := mem_map.mp mem
    exact (take_sublist _ _).trans (drop_sublist _ _)
  obtain ⟨covered, eq, covers⟩ := filterMap_rangeBucket_covers (le_max_left 1 _) _
    (fun run mem => sorted.sublist (slice run mem))
    (fun run mem k inRun => bounded k ((slice run mem).subset inRun))
  rw [flatten_bucketKeys keys pos] at eq
  rw [filterMap_map] at covers
  exact ⟨covered, eq, covers⟩

end VcompProof
