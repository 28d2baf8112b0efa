import Vcomp.Foundation.TaggedMerge
import Vcomp.Version.Storage

namespace VcompModel

open Function

structure BlobFileAddition where
  blobFileNumber : ℕ
  totalBlobCount : UInt64
  totalBlobBytes : UInt64
  deriving DecidableEq, Repr

structure BlobFileGarbage where
  blobFileNumber : ℕ
  garbageBlobCount : UInt64
  garbageBlobBytes : UInt64
  deriving DecidableEq, Repr

/-- The records of a `VersionEdit` that `VersionBuilder` applies, each in the order of its container. -/
structure VersionEdit (K : Type) where
  blobFileAdditions : List BlobFileAddition := []
  blobFileGarbages : List BlobFileGarbage := []
  deletedFiles : List (ℕ × ℕ) := []
  newFiles : List (ℕ × FileMetaData K) := []
  compactCursors : List (ℤ × Option (EntryKey K)) := []

structure LevelState (K : Type) where
  deletedFiles : Finset ℕ := ∅
  addedFiles : List (FileMetaData K) := []

/-- `VersionBuilder::Rep`. A table file's level is `none` for `FileLocation::Invalid()`. -/
structure VersionBuilder (K : Type) where
  base : VersionStorageInfo K
  levels : ℕ → LevelState K := fun _ => {}
  invalidLevelSizes : ℕ → ℕ := fun _ => 0
  hasInvalidLevels : Bool := false
  tableFileLevels : ℕ → Option (Option ℕ) := fun _ => none
  updatedCompactCursors : ℕ → Option (Option (EntryKey K)) := fun _ => none
  mutableBlobFileMetas : ℕ → Option BlobFileMetaData := fun _ => none

def BlobFileMetaData.addGarbage (blob : BlobFileMetaData) (count bytes : UInt64) : Option BlobFileMetaData :=
  if blob.garbageBlobCount + count > blob.totalBlobCount ∨ blob.garbageBlobBytes + bytes > blob.totalBlobBytes then none
  else some { blob with
    garbageBlobCount := blob.garbageBlobCount + count
    garbageBlobBytes := blob.garbageBlobBytes + bytes }

namespace VersionBuilder

variable {K : Type}

abbrev Rejection (K : Type) := Status × VersionBuilder K

section

variable (b : VersionBuilder K)

def isBlobFileInVersion (number : ℕ) : Bool :=
  (b.mutableBlobFileMetas number).isSome || (b.base.blobFiles.find? (·.number = number)).isSome

def getOrCreateMutableBlobFileMetaData (number : ℕ) : Option BlobFileMetaData :=
  (b.mutableBlobFileMetas number).or (b.base.blobFiles.find? (·.number = number))

def applyBlobFileAddition (addition : BlobFileAddition) : Except (Rejection K) (VersionBuilder K) :=
  if b.isBlobFileInVersion addition.blobFileNumber then
    .error (builderCorruption s!"Blob file #{addition.blobFileNumber} already added", b)
  else
    let shared : BlobFileMetaData :=
      { number := addition.blobFileNumber
        totalBlobCount := addition.totalBlobCount
        totalBlobBytes := addition.totalBlobBytes }
    .ok { b with mutableBlobFileMetas := update b.mutableBlobFileMetas addition.blobFileNumber (some shared) }

def applyBlobFileGarbage (garbage : BlobFileGarbage) : Except (Rejection K) (VersionBuilder K) :=
  match b.getOrCreateMutableBlobFileMetaData garbage.blobFileNumber with
  | none => .error (builderCorruption s!"Blob file #{garbage.blobFileNumber} not found", b)
  | some blob =>
    match blob.addGarbage garbage.garbageBlobCount garbage.garbageBlobBytes with
    | none => .error (builderCorruption s!"Garbage overflow for blob file #{garbage.blobFileNumber}", b)
    | some blob =>
      .ok { b with mutableBlobFileMetas := update b.mutableBlobFileMetas garbage.blobFileNumber (some blob) }

def getCurrentLevelForTableFile (number : ℕ) : Option ℕ :=
  match b.tableFileLevels number with
  | some level => level
  | none => (b.base.fileLocations number).map Prod.fst

def applyFileDeletion (level number : ℕ) : Except (Rejection K) (VersionBuilder K) :=
  match b.getCurrentLevelForTableFile number with
  | none =>
    .error (builderCorruption s!"Cannot delete table file #{number} from level {level} since it is not in the LSM tree",
      { b with hasInvalidLevels := b.hasInvalidLevels || level ≥ b.base.numLevels })
  | some current =>
    if level ≠ current then
      .error (builderCorruption s!"Cannot delete table file #{number} from level {level} since it is on level {current}",
        { b with hasInvalidLevels := b.hasInvalidLevels || level ≥ b.base.numLevels })
    else if level ≥ b.base.numLevels then
      .ok { b with
        invalidLevelSizes := update b.invalidLevelSizes level (b.invalidLevelSizes level - 1)
        tableFileLevels := update b.tableFileLevels number (some none) }
    else
      let state := b.levels level
      .ok { b with
        levels := update b.levels level
          { deletedFiles := insert number state.deletedFiles
            addedFiles := state.addedFiles.filter (·.number ≠ number) }
        tableFileLevels := update b.tableFileLevels number (some none) }

def applyFileAddition (level : ℕ) (f : FileMetaData K) : Except (Rejection K) (VersionBuilder K) :=
  match b.getCurrentLevelForTableFile f.number with
  | some current =>
    .error (builderCorruption (s!"Cannot add table file #{f.number} to level {level}" ++
        s!" since it is already in the LSM tree on level {current}"),
      { b with hasInvalidLevels := b.hasInvalidLevels || level ≥ b.base.numLevels })
  | none =>
    if level ≥ b.base.numLevels then
      .ok { b with
        invalidLevelSizes := update b.invalidLevelSizes level (b.invalidLevelSizes level + 1)
        tableFileLevels := update b.tableFileLevels f.number (some (some level)) }
    else
      let state := b.levels level
      .ok { b with
        levels := update b.levels level
          { deletedFiles := state.deletedFiles.erase f.number
            addedFiles := state.addedFiles ++ [f] }
        tableFileLevels := update b.tableFileLevels f.number (some (some level)) }

variable (options : BuilderOptions K)

def applyCompactCursors (level : ℤ) (smallestUncompactedKey : Option (EntryKey K)) :
    Except (Rejection K) (VersionBuilder K) :=
  if level < 0 then
    .error (builderCorruption (s!"Cannot add compact cursor ({level}," ++ options.encode smallestUncompactedKey ++
      s!" due to invalid level (level = {level})"), b)
  else if level < b.base.numLevels then
    .ok { b with updatedCompactCursors := update b.updatedCompactCursors level.toNat (some smallestUncompactedKey) }
  else .ok b

def apply [LinearOrder K] (edit : VersionEdit K) : Except (Rejection K) (VersionBuilder K) :=
  match checkConsistency options b.base with
  | .error status => .error (status, b)
  | .ok () => do
    let b ← edit.blobFileAdditions.foldlM applyBlobFileAddition b
    let b ← edit.blobFileGarbages.foldlM applyBlobFileGarbage b
    let b ← edit.deletedFiles.foldlM (fun b deleted => b.applyFileDeletion deleted.1 deleted.2) b
    let b ← edit.newFiles.foldlM (fun b new => b.applyFileAddition new.1 new.2) b
    edit.compactCursors.foldlM (fun b cursor => b.applyCompactCursors options cursor.1 cursor.2) b

end

def applyAll [LinearOrder K] (options : BuilderOptions K) (base : VersionStorageInfo K) (edits : List (VersionEdit K)) :
    Except (Rejection K) (VersionBuilder K) :=
  edits.foldlM (fun b edit => apply b options edit) { base := base }

variable [LinearOrder K] (b : VersionBuilder K)

def maybeAddFile (level : ℕ) (vstorage : VersionStorageInfo K) : Bool × FileMetaData K → VersionStorageInfo K
  | (isAdded, f) =>
    if f.number ∈ (b.levels level).deletedFiles then vstorage
    else if !isAdded && (b.levels level).addedFiles.any (·.number = f.number) then vstorage
    else vstorage.addFile level f

def mergeLevelTo (less : FileMetaData K → FileMetaData K → Bool) (vstorage : VersionStorageInfo K) (level : ℕ) :
    VersionStorageInfo K :=
  (TaggedMerge.merge less (SortBy.sortBy less (b.levels level).addedFiles) (b.base.files level)).foldl
    (b.maybeAddFile level) vstorage

def saveLevelTo (less : FileMetaData K → FileMetaData K → Bool) (vstorage : VersionStorageInfo K) (level : ℕ) :
    VersionStorageInfo K :=
  if (b.levels level).addedFiles = [] ∧ (b.levels level).deletedFiles = ∅ then
    vstorage.addFilesForUnchangedLevel level (b.base.files level)
  else b.mergeLevelTo less vstorage level

def promoteEpochNumberRequirementIfNeeded (vstorage : VersionStorageInfo K) : VersionStorageInfo K :=
  if vstorage.hasMissingEpochNumber then vstorage
  else if (List.range b.base.numLevels).any fun level =>
      (b.levels level).addedFiles.any fun f => f.epochNumber = kUnknownEpochNumber then vstorage
  else { vstorage with epochNumberRequirement := .mustPresent }

def level0Order : EpochNumberRequirement → FileMetaData K → FileMetaData K → Bool
  | .mightMissing => FileMetaData.newestFirstBySeqNo
  | .mustPresent => FileMetaData.newestFirstByEpochNumber

def saveSSTFilesTo (vstorage : VersionStorageInfo K) : VersionStorageInfo K :=
  if b.base.numLevels = 0 then vstorage
  else
    let vstorage := if vstorage.epochNumberRequirement = .mightMissing then b.promoteEpochNumberRequirementIfNeeded vstorage
      else vstorage
    let vstorage := b.saveLevelTo (level0Order vstorage.epochNumberRequirement) vstorage 0
    (List.range' 1 (b.base.numLevels - 1)).foldl (b.saveLevelTo FileMetaData.bySmallestKey) vstorage

def saveCompactCursorsTo (vstorage : VersionStorageInfo K) : VersionStorageInfo K :=
  { vstorage with compactCursor := fun level => (b.updatedCompactCursors level).getD (vstorage.compactCursor level) }

variable (options : BuilderOptions K)

/-- `SaveTo`: the status, and the version storage as it is left. Blob files are not written here. -/
def saveTo (vstorage : VersionStorageInfo K) : Except Status Unit × VersionStorageInfo K :=
  match checkConsistency options vstorage with
  | .error status => (.error status, vstorage)
  | .ok () =>
    let vstorage := b.saveCompactCursorsTo (b.saveSSTFilesTo vstorage)
    (checkConsistency options vstorage, vstorage)

def getChangedLevels (level : ℕ) : Bool :=
  b.hasInvalidLevels || (b.levels level).addedFiles ≠ [] || (b.levels level).deletedFiles ≠ ∅ ||
    (b.updatedCompactCursors level).isSome

end VersionBuilder

end VcompModel
