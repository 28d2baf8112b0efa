import Vcomp.Lsm.FileMetaData
import Vcomp.Sst.Merge

namespace VcompModel

inductive EpochNumberRequirement where
  | mightMissing
  | mustPresent
  deriving DecidableEq, Repr

def kUnknownEpochNumber : ℕ := 0

/-- A blob file with its share of garbage; the links from table files are not kept. -/
structure BlobFileMetaData where
  number : ℕ
  totalBlobCount : UInt64
  totalBlobBytes : UInt64
  garbageBlobCount : UInt64 := 0
  garbageBlobBytes : UInt64 := 0
  deriving DecidableEq, Repr

/-- As far as `VersionBuilder` reads and writes it; an empty compact cursor is `none`. -/
structure VersionStorageInfo (K : Type) where
  numLevels : ℕ
  files : ℕ → List (FileMetaData K) := fun _ => []
  fileLocations : ℕ → Option (ℕ × ℕ) := fun _ => none
  epochNumberRequirement : EpochNumberRequirement := .mustPresent
  compactCursor : ℕ → Option (EntryKey K) := fun _ => none
  blobFiles : List BlobFileMetaData := []

variable {K : Type}

def FileMetaData.newestFirstBySeqNo (lhs rhs : FileMetaData K) : Bool :=
  if lhs.largestSeqno ≠ rhs.largestSeqno then lhs.largestSeqno > rhs.largestSeqno
  else if lhs.smallestSeqno ≠ rhs.smallestSeqno then lhs.smallestSeqno > rhs.smallestSeqno
  else lhs.number > rhs.number

def FileMetaData.newestFirstByEpochNumber (lhs rhs : FileMetaData K) : Bool :=
  if lhs.epochNumber ≠ rhs.epochNumber then lhs.epochNumber > rhs.epochNumber else FileMetaData.newestFirstBySeqNo lhs rhs

def FileMetaData.bySmallestKey [LinearOrder K] (lhs rhs : FileMetaData K) : Bool :=
  if lhs.smallest ≠ rhs.smallest then lhs.smallest < rhs.smallest else lhs.number < rhs.number

namespace VersionStorageInfo

variable (vstorage : VersionStorageInfo K)

def emplaceLocation (number level pos : ℕ) : VersionStorageInfo K :=
  { vstorage with
    fileLocations := Function.update vstorage.fileLocations number
      ((vstorage.fileLocations number).or (some (level, pos))) }

def addFile (level : ℕ) (f : FileMetaData K) : VersionStorageInfo K :=
  let pos := (vstorage.files level).length
  { vstorage with files := Function.update vstorage.files level (vstorage.files level ++ [f]) }.emplaceLocation f.number
    level pos

def emplaceLocations (level : ℕ) : (pos : ℕ) → List (FileMetaData K) → VersionStorageInfo K → VersionStorageInfo K
  | _, [], vstorage => vstorage
  | pos, f :: files, vstorage => emplaceLocations level (pos + 1) files (vstorage.emplaceLocation f.number level pos)

def addFilesForUnchangedLevel (level : ℕ) (files : List (FileMetaData K)) : VersionStorageInfo K :=
  emplaceLocations level 0 files { vstorage with files := Function.update vstorage.files level files }

def hasMissingEpochNumber : Bool :=
  (List.range vstorage.numLevels).any fun level => (vstorage.files level).any fun f => f.epochNumber = kUnknownEpochNumber

end VersionStorageInfo

variable [LinearOrder K]

structure BuilderOptions (K : Type) where
  useVirtualCompaction : Bool
  forceConsistencyChecks : Bool
  debugString : EntryKey K → String
  encode : Option (EntryKey K) → String

def builderCorruption (text : String) : Status := .corruption s!"VersionBuilder: {text}"

def checkNeighbours (checker : FileMetaData K → FileMetaData K → Except Status Unit) :
    List (FileMetaData K) → Except Status Unit
  | lhs :: rhs :: files => do
    checker lhs rhs
    checkNeighbours checker (rhs :: files)
  | _ => .ok ()

variable (options : BuilderOptions K)

def level0Checker : (requirement : EpochNumberRequirement) → (lhs rhs : FileMetaData K) → Except Status Unit
  | .mightMissing, lhs, rhs =>
    if FileMetaData.newestFirstBySeqNo lhs rhs then .ok ()
    else .error (builderCorruption (s!"L0 files are not sorted properly: files #{lhs.number}" ++
      s!" with seqnos (largest, smallest) {lhs.largestSeqno} , {lhs.smallestSeqno}" ++
      s!", #{rhs.number} with seqnos (largest, smallest) {rhs.largestSeqno} , {rhs.smallestSeqno}"))
  | .mustPresent, lhs, rhs =>
    if lhs.epochNumber = rhs.epochNumber ∧ lhs.smallest ≤ rhs.largest ∧ lhs.largest ≥ rhs.smallest then
      .error (builderCorruption (s!"L0 files of same epoch number but overlapping range #{lhs.number}" ++
        " , smallest key: " ++ options.debugString lhs.smallest ++ " , largest key: " ++ options.debugString lhs.largest ++
        s!" , epoch number: {lhs.epochNumber} vs. file #{rhs.number}" ++
        " , smallest key: " ++ options.debugString rhs.smallest ++ " , largest key: " ++ options.debugString rhs.largest ++
        s!" , epoch number: {rhs.epochNumber}"))
    else if FileMetaData.newestFirstByEpochNumber lhs rhs then .ok ()
    else .error (builderCorruption (s!"L0 files are not sorted properly: files #{lhs.number}" ++
      s!" with epoch number {lhs.epochNumber}, #{rhs.number} with epoch number {rhs.epochNumber}"))

def levelChecker (level : ℕ) (lhs rhs : FileMetaData K) : Except Status Unit :=
  if !FileMetaData.bySmallestKey lhs rhs then
    .error (builderCorruption s!"L{level} files are not sorted properly: files #{lhs.number}, #{rhs.number}")
  else if lhs.largest ≥ rhs.smallest then
    .error (builderCorruption (s!"L{level} has overlapping ranges: file #{lhs.number}" ++
      " largest key: " ++ options.debugString lhs.largest ++ s!" vs. file #{rhs.number}" ++
      " smallest key: " ++ options.debugString rhs.smallest))
  else .ok ()

def checkBlobFile (blob : BlobFileMetaData) : Except Status Unit :=
  if blob.garbageBlobCount ≥ blob.totalBlobCount then
    .error (builderCorruption s!"Blob file #{blob.number} consists entirely of garbage")
  else .ok ()

def checkConsistencyDetails (vstorage : VersionStorageInfo K) : Except Status Unit := do
  if vstorage.numLevels > 0 then
    checkNeighbours (level0Checker options vstorage.epochNumberRequirement) (vstorage.files 0)
    (List.range' 1 (vstorage.numLevels - 1)).forM fun level =>
      checkNeighbours (levelChecker options level) (vstorage.files level)
  vstorage.blobFiles.forM checkBlobFile

def checkConsistency (vstorage : VersionStorageInfo K) : Except Status Unit :=
  if options.useVirtualCompaction then .ok ()
  else if !options.forceConsistencyChecks then .ok ()
  else match checkConsistencyDetails options vstorage with
    | .error (.corruption text) => .error (.corruption s!"force_consistency_checks: {text}")
    | result => result

end VcompModel
