import Vcomp.Kmv.Validity

namespace VcompProof

open VcompModel ThetaSketch SortUnique List

/-- A bucket that is valid for a set of key ids inside its range. -/
structure BucketHolds (bucket : KMVRangeSketch) (keys : Set ℕ) : Prop where
  valid : ValidSketch bucket.sketch keys
  inRange : ∀ key ∈ keys, bucket.keyMin ≤ key ∧ key ≤ bucket.keyMax
  bounded : ∀ key ∈ keys, key < word64

def allBuckets (inputs : InputList) : List KMVRangeSketch :=
  inputs.flatMap fun input => input.elim [] (·.kmvRanges)

def BucketsInside (input : VirtualSST) : Prop :=
  ∀ bucket ∈ input.kmvRanges, input.keyMin ≤ bucket.keyMin ∧ bucket.keyMax ≤ input.keyMax

theorem forall₂_exists_right {α β : Type*} {R : α → β → Prop} {l : List α} {l' : List β}
    (all : List.Forall₂ R l l') : ∀ a ∈ l, ∃ b ∈ l', R a b := by
  induction all with
  | nil => simp
  | cons related _ ih => simp_all

theorem mem_allBuckets {inputs : InputList} {bucket : KMVRangeSketch} :
    bucket ∈ allBuckets inputs ↔ ∃ input, some input ∈ inputs ∧ bucket ∈ input.kmvRanges := by
  simp only [allBuckets, mem_flatMap]
  constructor
  · rintro ⟨input, mem, inBuckets⟩
    cases input with
    | none => simp at inBuckets
    | some input => exact ⟨input, mem, inBuckets⟩
  · rintro ⟨input, mem, inBuckets⟩
    exact ⟨some input, mem, inBuckets⟩

variable {piece : KMVRangeSketch}

theorem mem_sketchPieces {inputs : InputList} {lo hi : ℕ} :
    piece ∈ sketchPieces inputs lo hi ↔ ∃ input, some input ∈ inputs ∧
      (lo ≤ input.keyMax ∧ input.keyMin ≤ hi) ∧ piece ∈ input.kmvRanges ∧
        lo ≤ piece.keyMax ∧ piece.keyMin ≤ hi := by
  simp only [sketchPieces, mem_flatMap]
  constructor
  · rintro ⟨input, mem, inPieces⟩
    cases input with
    | none => simp [overlappingRanges] at inPieces
    | some input =>
      simp only [overlappingRanges] at inPieces
      split_ifs at inPieces with outside
      · simp at inPieces
      · simp at inPieces
        exact ⟨input, mem, by omega, inPieces.1, by omega⟩
  · rintro ⟨input, mem, meets, inRanges, overlaps⟩
    refine ⟨some input, mem, ?_⟩
    have inside : ¬ (input.keyMax < lo ∨ input.keyMin > hi) := by omega
    simp only [overlappingRanges, if_neg inside, mem_filter]
    exact ⟨inRanges, by simp; omega⟩

variable {pieces : List KMVRangeSketch}

theorem foldTheta_of_all_max
    (all : ∀ piece ∈ pieces, piece.sketch.thetaHash = uint64Max) : foldTheta pieces = uint64Max := by
  unfold foldTheta
  induction pieces with
  | nil => rfl
  | cons first rest ih =>
    rw [foldl_cons, all first (by simp), min_self]
    exact ih fun piece mem => all piece (by simp [mem])

theorem foldl_complete (pieces : List KMVRangeSketch) (start : Bool)
    (complete : pieces.foldl (fun complete piece => complete && piece.sketch.complete) start = true) :
    start = true ∧ ∀ piece ∈ pieces, piece.sketch.complete = true := by
  induction pieces generalizing start with
  | nil => simpa using complete
  | cons first rest ih =>
    obtain ⟨both, later⟩ := ih _ complete
    simp only [Bool.and_eq_true] at both
    refine ⟨both.1, fun piece mem => ?_⟩
    rcases mem_cons.mp mem with rfl | mem
    · exact both.2
    · exact later piece mem

theorem mem_samplesInRange {theta lo hi h : ℕ} : h ∈ samplesInRange theta lo hi pieces ↔
      (∃ piece ∈ pieces, h ∈ piece.sketch.samples) ∧ h ≤ theta ∧ lo ≤ kmvUnhash h ∧ kmvUnhash h ≤ hi := by
  simp only [samplesInRange, samplesBelow, mem_filter, mem_flatMap, decide_eq_true_eq, ge_iff_le,
    Bool.and_eq_true]
  constructor
  · rintro ⟨⟨piece, mem, inSamples, lt⟩, inRange⟩
    exact ⟨⟨piece, mem, inSamples⟩, lt, inRange⟩
  · rintro ⟨⟨piece, mem, inSamples⟩, lt, inRange⟩
    exact ⟨⟨piece, mem, inSamples, lt⟩, inRange⟩

def keysInRange (sets : List (Set ℕ)) (lo hi : ℕ) : Set ℕ := {key | (∃ keys ∈ sets, key ∈ keys) ∧ lo ≤ key ∧ key ≤ hi}

section

variable {inputs : InputList} {sets : List (Set ℕ)} {lo hi : ℕ}
  (holds : List.Forall₂ BucketHolds (allBuckets inputs) sets)
  (inside : ∀ input, some input ∈ inputs → BucketsInside input)

include holds inside

theorem exists_piece_of_mem {key : ℕ} (mem : key ∈ keysInRange sets lo hi) :
    ∃ piece ∈ sketchPieces inputs lo hi, ∃ keys, BucketHolds piece keys ∧ key ∈ keys := by
  obtain ⟨⟨keys, keysMem, inKeys⟩, lower, upper⟩ := mem
  obtain ⟨bucket, bucketMem, held⟩ := forall₂_exists_right holds.flip keys keysMem
  obtain ⟨input, inputMem, inRanges⟩ := mem_allBuckets.mp bucketMem
  have range := held.inRange key inKeys
  have within := inside input inputMem bucket inRanges
  exact ⟨bucket, mem_sketchPieces.mpr ⟨input, inputMem, by omega, inRanges, by omega⟩, keys, held, inKeys⟩

omit inside in
theorem piece_holds (mem : piece ∈ sketchPieces inputs lo hi) : ∃ keys ∈ sets, BucketHolds piece keys := by
  obtain ⟨input, inputMem, _, inRanges, _⟩ := mem_sketchPieces.mp mem
  exact forall₂_exists_right holds piece (mem_allBuckets.mpr ⟨input, inputMem, inRanges⟩)

theorem samplesInRange_isSample (lo hi : ℕ) : IsSample (foldTheta (sketchPieces inputs lo hi))
      (sortUnique (samplesInRange (foldTheta (sketchPieces inputs lo hi)) lo hi (sketchPieces inputs lo hi)))
      (Set.image kmvHash (keysInRange sets lo hi)) := by
  refine isSample_sortUnique fun h => mem_samplesInRange.trans ⟨?_, ?_⟩
  · rintro ⟨⟨piece, mem, inSamples⟩, lt, inRange⟩
    obtain ⟨keys, keysMem, held⟩ := piece_holds holds mem
    obtain ⟨⟨key, inKeys, rfl⟩, _⟩ := (held.valid.sample.mem_iff h).mp inSamples
    rw [kmvUnhash_kmvHash (held.bounded key inKeys)] at inRange
    exact ⟨⟨key, ⟨⟨keys, keysMem, inKeys⟩, inRange⟩, rfl⟩, lt⟩
  · rintro ⟨⟨key, mem, rfl⟩, lt⟩
    obtain ⟨piece, pieceMem, keys, held, inKeys⟩ := exists_piece_of_mem holds inside mem
    have belowPiece := lt.trans ((ThetaSketch.foldl_min_le _ (sketchPieces inputs lo hi) uint64Max).2 piece pieceMem)
    refine ⟨⟨piece, pieceMem, (held.valid.sample.mem_iff _).mpr ⟨⟨key, inKeys, rfl⟩, belowPiece⟩⟩, lt, ?_⟩
    rw [kmvUnhash_kmvHash (held.bounded key inKeys)]
    exact mem.2

omit inside in
theorem foldTheta_of_complete (lo hi : ℕ) (complete : foldComplete (sketchPieces inputs lo hi) = true) :
    foldTheta (sketchPieces inputs lo hi) = uint64Max := by
  refine foldTheta_of_all_max fun piece mem => ?_
  obtain ⟨keys, _, held⟩ := piece_holds holds mem
  exact (held.valid.complete ((foldl_complete _ true complete).2 piece mem)).1

theorem mergeKMVSketches_valid (lo hi : ℕ) (env : KMVEnv) {maxSamples : ℕ} (pos : 1 ≤ maxSamples) :
    ValidSketch (mergeKMVSketchesForRange env inputs lo hi maxSamples) (keysInRange sets lo hi) ∧
      (mergeKMVSketchesForRange env inputs lo hi maxSamples).samples.length ≤ maxSamples ∧
      (maxSamples < (sortUnique (samplesInRange (foldTheta (sketchPieces inputs lo hi)) lo hi
          (sketchPieces inputs lo hi))).length →
        (mergeKMVSketchesForRange env inputs lo hi maxSamples).complete = false) := by
  have noPiece : sketchPieces inputs lo hi = [] → keysInRange sets lo hi = ∅ := by
    intro empty
    refine Set.eq_empty_iff_forall_notMem.mpr fun key mem => ?_
    obtain ⟨piece, pieceMem, _⟩ := exists_piece_of_mem holds inside mem
    simp [empty] at pieceMem
  by_cases skipped : (inputs = [] ∨ hi < lo) ∨ sketchPieces inputs lo hi = []
  · have result : mergeKMVSketchesForRange env inputs lo hi maxSamples = {} := by
      by_cases early : inputs = [] ∨ hi < lo
      · simp only [mergeKMVSketchesForRange, if_pos early]
      · simp only [mergeKMVSketchesForRange, if_neg early, if_pos (skipped.resolve_left early)]
    have none : keysInRange sets lo hi = ∅ := by
      rcases skipped with (empty | reversed) | empty
      · exact noPiece (by simp [sketchPieces, empty])
      · refine Set.eq_empty_iff_forall_notMem.mpr fun key mem => ?_
        have range := mem.2
        omega
      · exact noPiece empty
    rw [result, none]
    exact ⟨validSketch_empty, by simp, fun _ => rfl⟩
  obtain ⟨notEarly, pieces⟩ := not_or.mp skipped
  have sample := samplesInRange_isSample holds inside lo hi
  have top := foldTheta_of_complete holds lo hi
  have noDefault : maxSamples ≠ 0 := by omega
  simp only [mergeKMVSketchesForRange, if_neg notEarly, if_neg pieces, if_neg noDefault]
  generalize sortUnique (samplesInRange (foldTheta (sketchPieces inputs lo hi)) lo hi
    (sketchPieces inputs lo hi)) = samples at sample
  generalize foldTheta (sketchPieces inputs lo hi) = theta at sample top
  generalize foldComplete (sketchPieces inputs lo hi) = complete at top
  have already : samples.insertionSort (· ≤ ·) = samples := List.Pairwise.insertionSort_eq (sample.sorted.imp le_of_lt)
  by_cases trimmed : samples.length > maxSamples
  · have kept : sortByHashAndTrim samples maxSamples = samples.take maxSamples := by
      simp only [sortByHashAndTrim, already]
      exact if_pos ⟨pos, trimmed⟩
    have ne : samples.take maxSamples ≠ [] := by
      rw [← length_pos_iff, length_take]
      omega
    have last := getLast?_eq_some_getLast ne
    simp only [kept, trimmed, gt_iff_lt, lt_of_lt_of_le zero_lt_one pos, and_self, decide_true,
      Bool.not_true, Bool.and_false, Bool.false_eq_true, if_false, last, implies_true, and_true]
    exact ⟨validSketch_of_incomplete (sample.take last), by simp⟩
  · have kept := sortByHashAndTrim_of_le (not_lt.mp trimmed)
    rw [already] at kept
    simp only [kept, trimmed, and_false, decide_false, Bool.not_false, Bool.and_true, false_imp_iff, and_true]
    refine ⟨?_, not_lt.mp trimmed⟩
    cases complete with
    | true =>
      rw [top rfl] at sample
      simpa using validSketch_of_top true sample
    | false => simpa using validSketch_of_incomplete sample

end

end VcompProof
