import Mathlib.Data.List.DropRight
import Vcomp.Foundation.LowerBound
import Vcomp.Version.Fold

namespace VcompModel

inductive CompactionPri where
  | byCompensatedSize
  | oldestLargestSeqFirst
  | oldestSmallestSeqFirst
  | minOverlappingRatio
  | roundRobin
  deriving DecidableEq, Repr

structure Fsize (K : Type) where
  index : ℕ
  file : FileMetaData K
  compactionOrder : UInt64 := 0

/-- The options, the booster of files near their ttl, and the library's sorts, which place equal elements as the input
determines. -/
structure PriOptions (K : Type) where
  compactionStyle : CompactionStyle
  compactionPri : CompactionPri
  ttl : UInt64
  boostScore : (level numNonEmptyLevels : ℕ) → FileMetaData K → UInt64
  sort : (Fsize K → Fsize K → Bool) → List (Fsize K) → List (Fsize K)
  partialSort : (Fsize K → Fsize K → Bool) → ℕ → List (Fsize K) → List (Fsize K)

def kNumberFilesToSort : ℕ := 50

variable {K : Type} [LinearOrder K]

/-- The bytes below a file, and the files where the next one goes on. -/
def overlappingBytes (file : FileMetaData K) (bytes : UInt64) : List (FileMetaData K) → UInt64 × List (FileMetaData K)
  | [] => (bytes, [])
  | next :: nextLevel =>
    if next.smallest < file.largest then
      if next.largest > file.largest then (bytes + next.fileSize, next :: nextLevel)
      else overlappingBytes file (bytes + next.fileSize) nextLevel
    else (bytes, next :: nextLevel)

def scoreOverlap (boost : FileMetaData K → UInt64) : (nextLevel : List (FileMetaData K)) → List (Fsize K) → List (Fsize K)
  | _, [] => []
  | nextLevel, fsize :: temp =>
    let file := fsize.file
    let (bytes, nextLevel) := overlappingBytes file 0 (nextLevel.dropWhile fun next => next.largest < file.smallest)
    { fsize with compactionOrder := bytes * 1024 / file.compensatedFileSize / boost file } :: scoreOverlap boost nextLevel temp

def overlapLess (f1 f2 : Fsize K) : Bool :=
  if f1.file.markedForCompaction = f2.file.markedForCompaction then
    if f1.compactionOrder = f2.compactionOrder then f1.file.smallest < f2.file.smallest
    else f1.compactionOrder < f2.compactionOrder
  else f1.file.markedForCompaction && !f2.file.markedForCompaction

def sortFileByRoundRobin (options : PriOptions K) (cursor : Option (EntryKey K)) (level0NonOverlapping : Bool) (level : ℕ)
    (temp : List (Fsize K)) : List (Fsize K) :=
  if level = 0 ∧ level0NonOverlapping = false then
    options.sort (fun f1 f2 => f1.file.smallestSeqno < f2.file.smallestSeqno) temp
  else match cursor with
    | none => temp
    | some cursor =>
      if temp.length > 1 then
        let current := LowerBound.lowerBound (fun i => (temp[i]?).any fun f => cursor > f.file.smallest) 0 temp.length
        if current ≠ temp.length ∧ current ≠ 0 then temp.drop current ++ temp.take current else temp
      else temp

def sortedByCompactionPri (options : PriOptions K) (numNonEmptyLevels level : ℕ) (files nextLevel : List (FileMetaData K))
    (cursor : Option (EntryKey K)) : List ℕ :=
  let temp := files.mapIdx fun i file => { index := i, file := file : Fsize K }
  let num := min kNumberFilesToSort temp.length
  let sorted := match options.compactionPri with
    | .byCompensatedSize =>
      options.partialSort (fun f1 f2 => f1.file.compensatedFileSize > f2.file.compensatedFileSize) num temp
    | .oldestLargestSeqFirst => options.sort (fun f1 f2 => f1.file.largestSeqno < f2.file.largestSeqno) temp
    | .oldestSmallestSeqFirst => options.sort (fun f1 f2 => f1.file.smallestSeqno < f2.file.smallestSeqno) temp
    | .minOverlappingRatio =>
      let boost := fun file => if options.ttl > 0 then options.boostScore level numNonEmptyLevels file else 1
      options.partialSort overlapLess num (scoreOverlap boost nextLevel temp)
    | .roundRobin =>
      -- `level0_non_overlapping_` is computed later in the preparation
      sortFileByRoundRobin options cursor false level temp
  sorted.map (·.index)

def VersionStorageInfo.numNonEmptyLevels (vstorage : VersionStorageInfo K) : ℕ :=
  ((List.range vstorage.numLevels).rdropWhile fun level => (vstorage.files level).isEmpty).length

def updateFilesByCompactionPri (options : PriOptions K) (vstorage : VersionStorageInfo K) (orders : ℕ → List ℕ)
    (level : ℕ) : List ℕ :=
  match options.compactionStyle with
  | .none | .fifo | .universal => orders level
  | .level =>
    if level < vstorage.numLevels - 1 ∧ orders level = [] then
      sortedByCompactionPri options vstorage.numNonEmptyLevels level (vstorage.files level) (vstorage.files (level + 1))
        (vstorage.compactCursor level)
    else orders level

def markCompactionPriRebuildLevels (vstorage : VersionStorageInfo K) (changed : ℕ → Bool) (orders : ℕ → List ℕ) (level : ℕ) :
    List ℕ :=
  if level < vstorage.numLevels - 1 ∧
      (changed level ∨ (level + 1 < vstorage.numLevels ∧ changed (level + 1)) ∨
        (orders level).length ≠ (vstorage.files level).length) then []
  else orders level

def freshOrders (options : PriOptions K) (vstorage : VersionStorageInfo K) (level : ℕ) : List ℕ :=
  updateFilesByCompactionPri options vstorage (fun _ => []) level

end VcompModel

namespace VcompProof

open VcompModel VersionBuilder

section

variable {K : Type}

theorem emplaceLocations_compactCursor (level pos : ℕ) (files : List (FileMetaData K)) (v : VersionStorageInfo K) :
    (VersionStorageInfo.emplaceLocations level pos files v).compactCursor = v.compactCursor := by
  induction files generalizing pos v with
  | nil => rfl
  | cons f files ih => exact ih _ _

variable [LinearOrder K] {b : VersionBuilder K}

theorem saveLevelTo_compactCursor (lt : FileMetaData K → FileMetaData K → Bool) (v : VersionStorageInfo K) (level : ℕ) :
    (b.saveLevelTo lt v level).compactCursor = v.compactCursor := by
  unfold saveLevelTo
  split
  · exact emplaceLocations_compactCursor _ _ _ _
  · rw [mergeLevelTo_eq]
    generalize b.keptFiles lt level = files
    induction files generalizing v with
    | nil => rfl
    | cons f files ih => exact ih _

theorem saveLevels_compactCursor (order : ℕ → FileMetaData K → FileMetaData K → Bool) (levels : List ℕ)
    (v : VersionStorageInfo K) :
    (levels.foldl (fun v level => b.saveLevelTo (order level) v level) v).compactCursor = v.compactCursor := by
  induction levels generalizing v with
  | nil => rfl
  | cons level levels ih => rw [List.foldl_cons, ih, saveLevelTo_compactCursor]

theorem saveSSTFilesTo_compactCursor (target : VersionStorageInfo K) :
    (b.saveSSTFilesTo target).compactCursor = target.compactCursor := by
  rcases Nat.eq_zero_or_pos b.base.numLevels with none | some
  · rw [saveSSTFilesTo, if_pos none]
  · rw [saveSSTFilesTo_levels target some, saveLevels_compactCursor]

end

variable {K : Type} [LinearOrder K] {options : BuilderOptions K} {base target : VersionStorageInfo K} {b : VersionBuilder K}
  {s : Ledger K}

theorem saveTo_unchanged (consistent : ConsistentBase options base) (rep : Represents base b s)
    (fresh : target.Fresh base.numLevels) (cursors : target.compactCursor = base.compactCursor) {level : ℕ}
    (inside : level < base.numLevels) (unchanged : b.getChangedLevels level = false) :
    (b.saveTo options target).2.files level = base.files level ∧
      (b.saveTo options target).2.compactCursor level = base.compactCursor level := by
  simp only [getChangedLevels, Bool.or_eq_false_iff, decide_eq_false_iff_not, not_not, Option.isSome_eq_false_iff,
    Option.isNone_iff_eq_none] at unchanged
  obtain ⟨⟨⟨-, noAdded⟩, noDeleted⟩, noCursor⟩ := unchanged
  obtain ⟨-, -, files⟩ := saveSSTFilesTo_spec consistent rep fresh
  rw [saveTo_storage fresh]
  refine ⟨?_, ?_⟩
  · change (b.saveSSTFilesTo target).files level = _
    rw [files level, if_pos inside, keptFiles_unchanged noAdded noDeleted, rep.baseEq]
  · change (b.updatedCompactCursors level).getD ((b.saveSSTFilesTo target).compactCursor level) = _
    rw [noCursor, saveSSTFilesTo_compactCursor, cursors]
    rfl

theorem sortedByCompactionPri_ttl {pri : PriOptions K} (noTtl : pri.ttl = 0) (n m level : ℕ)
    (files nextLevel : List (FileMetaData K)) (cursor : Option (EntryKey K)) :
    sortedByCompactionPri pri n level files nextLevel cursor = sortedByCompactionPri pri m level files nextLevel cursor := by
  unfold sortedByCompactionPri
  rw [noTtl]
  rfl

theorem reused_orders_fresh (options : BuilderOptions K) (pri : PriOptions K) (noTtl : pri.ttl = 0)
    (base target : VersionStorageInfo K) (consistent : ConsistentBase options base) (fresh : target.Fresh base.numLevels)
    (cursors : target.compactCursor = base.compactCursor) (edits : List (VersionEdit K))
    (below : ∀ edit ∈ edits, edit.Below base.numLevels) (b : VersionBuilder K)
    (accepted : applyAll options base edits = .ok b) (level : ℕ) :
    updateFilesByCompactionPri pri (b.saveTo options target).2
        (markCompactionPriRebuildLevels (b.saveTo options target).2 b.getChangedLevels (freshOrders pri base)) level =
      freshOrders pri (b.saveTo options target).2 level := by
  obtain ⟨s, -, rep⟩ := (applyAll_refines options (ConsistentBase.passes consistent) consistent.located below).ok accepted
  have numLevels : (b.saveTo options target).2.numLevels = base.numLevels := by
    rw [saveTo_storage fresh]
    exact (saveSSTFilesTo_spec consistent rep fresh).2.1
  have eq : ∀ level < base.numLevels, b.getChangedLevels level = false →
      (b.saveTo options target).2.files level = base.files level ∧
        (b.saveTo options target).2.compactCursor level = base.compactCursor level :=
    fun level => saveTo_unchanged consistent rep fresh cursors
  generalize (b.saveTo options target).2 = saved at numLevels eq ⊢
  unfold freshOrders updateFilesByCompactionPri markCompactionPriRebuildLevels
  rw [numLevels]
  cases pri.compactionStyle with
  | none => exact ite_self _
  | fifo => exact ite_self _
  | universal => exact ite_self _
  | level =>
    dsimp only
    by_cases inside : level < base.numLevels - 1
    swap
    · simp only [inside, false_and, if_false]
    simp only [inside, true_and, and_self, if_true]
    by_cases rebuilt : b.getChangedLevels level = true ∨ (level + 1 < base.numLevels ∧ b.getChangedLevels (level + 1) = true) ∨
        (sortedByCompactionPri pri base.numNonEmptyLevels level (base.files level) (base.files (level + 1))
          (base.compactCursor level)).length ≠ (saved.files level).length
    · rw [if_pos rebuilt, if_pos rfl]
    · -- nothing that the order depends on has changed
      rw [if_neg rebuilt]
      rw [not_or, not_or, Bool.not_eq_true] at rebuilt
      obtain ⟨here, next, -⟩ := rebuilt
      have nextUnchanged : b.getChangedLevels (level + 1) = false :=
        Bool.not_eq_true _ ▸ fun changed => next ⟨by omega, changed⟩
      have nextSame := (eq (level + 1) (by omega) nextUnchanged).1
      obtain ⟨filesSame, cursorSame⟩ := eq level (by omega) here
      rw [filesSame, nextSame, cursorSame, sortedByCompactionPri_ttl noTtl saved.numNonEmptyLevels base.numNonEmptyLevels]
      exact ite_self _

def overlapPri : PriOptions ℕ where
  compactionStyle := .level
  compactionPri := .minOverlappingRatio
  ttl := 0
  boostScore := fun _ _ _ => 1
  sort := SortBy.sortBy
  partialSort := fun less _ => SortBy.sortBy less

theorem reused_orders_fresh_flush : ∃ b, applyAll checkedOptions baseVersion [flushEdit] = .ok b ∧
    let saved := (b.saveTo checkedOptions emptyVersion).2
    let reused := markCompactionPriRebuildLevels saved b.getChangedLevels (freshOrders overlapPri baseVersion)
    updateFilesByCompactionPri overlapPri saved reused 1 = freshOrders overlapPri saved 1 ∧ reused 0 = [] ∧
      reused 1 = [0, 1] := by
  have accepted : (applyAll checkedOptions baseVersion [flushEdit]).toOption.map (fun b =>
      let reused := markCompactionPriRebuildLevels (b.saveTo checkedOptions emptyVersion).2 b.getChangedLevels
        (freshOrders overlapPri baseVersion)
      (reused 0, reused 1)) = some ([], [0, 1]) := by
    decide +kernel
  obtain ⟨b, run, orders⟩ := ok_of_toOption accepted
  have below : ∀ edit ∈ [flushEdit], edit.Below baseVersion.numLevels := by simpa using flushThenMove_below flushEdit (.head _)
  exact ⟨b, run, reused_orders_fresh checkedOptions overlapPri rfl baseVersion emptyVersion baseVersion_consistent
    ⟨rfl, fun _ => rfl, fun _ => rfl, rfl⟩ rfl [flushEdit] below b run 1, Prod.mk.inj orders⟩

end VcompProof
