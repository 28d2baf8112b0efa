import Vcomp.Foundation.SortBy
import Vcomp.Lsm.FileMetaData
import Vcomp.Sst.Merge

namespace VcompModel

open SortBy

variable {K : Type}

/-- The types that `IsExtendedValueType` accepts. -/
def ValueType.ofCode (code : ℕ) : Option ValueType :=
  [.deletion, .value, .merge, .singleDeletion, .rangeDeletion, .blobIndex, .deletionWithTimestamp, .wideColumnEntity,
    .valuePreferredSeqno, .maxValid].find? (·.code = code)

/-- An encoded internal key: the user key and an eight-byte footer, or a string too short for a footer. -/
inductive InternalKey (K : Type) where
  | short (size : ℕ)
  | key (user : K) (footer : BitVec 64)
  deriving DecidableEq

def parseInternalKey : InternalKey K → Except Status (EntryKey K)
  | .short size => .error (.corruption s!"Corrupted Key: Internal Key too small. Size={size}. ")
  | .key user footer =>
    let sequence := (footer >>> 8).toNat
    let type := (footer &&& 0xff).toNat
    match ValueType.ofCode type with
    | some type => .ok ⟨user, sequence, type⟩
    | none => .error (.corruption s!"Corrupted Key: '<redacted>' seq:{sequence}, type:{type}")

/-- On a parsed key. -/
def updateInternalKey (sequence : ℕ) (type : ValueType) (key : EntryKey K) : EntryKey K :=
  { key with sequence := sequence, type := type }

/-- An `AddFile` record of the edit, with its keys as they are encoded. -/
structure MaterializedFile (K : Type) where
  level : ℤ
  number : ℕ
  fileSize : UInt64
  epochNumber : ℕ
  smallest : InternalKey K
  largest : InternalKey K
  smallestSeqno : ℕ
  largestSeqno : ℕ
  deriving DecidableEq

def InternalKey.user : InternalKey K → Option K
  | .short _ => none
  | .key user _ => some user

/-- What the sequences leave as it is: level, number, epoch and range. -/
def MaterializedFile.identity (file : MaterializedFile K) : ℤ × ℕ × ℕ × Option K × Option K :=
  (file.level, file.number, file.epochNumber, file.smallest.user, file.largest.user)

structure MaterializationEdit (K : Type) where
  columnFamily : ℕ
  deletedFiles : List (ℤ × ℕ)
  newFiles : List (MaterializedFile K)

/-- The default column family with the files of its Version by level, the sequence counters and the error state of the
database. -/
structure InstallState (K : Type) where
  bgWorkPaused : ℕ
  memEmpty : Bool
  numNotFlushed : ℕ
  cfId : ℕ
  tableFactoryName : String
  timestampSize : ℕ
  numLevels : ℕ
  files : List (ℕ × FileMetaData K)
  lastSequence : ℕ
  lastAllocatedSequence : ℕ
  lastPublishedSequence : ℕ
  ioError : Bool
  bgError : Bool

def InstallState.newestSequence (s : InstallState K) : ℕ :=
  max s.lastSequence (max s.lastAllocatedSequence s.lastPublishedSequence)

inductive ApplyOutcome where
  | ok
  | failed (status : Status) (notOk : status ≠ .ok) (ioError : Bool)

def sequencedBefore (a b : ℕ × FileMetaData K) : Bool :=
  if a.1 ≠ b.1 then a.1 > b.1
  else if a.2.epochNumber ≠ b.2.epochNumber then a.2.epochNumber < b.2.epochNumber
  else a.2.number < b.2.number

def FileMetaData.withSequence (file : FileMetaData K) (sequence : ℕ) : FileMetaData K :=
  { file with
    smallestSeqno := sequence
    largestSeqno := sequence
    smallest := updateInternalKey sequence .value file.smallest
    largest := updateInternalKey sequence .value file.largest }

def assignSequences : List ℕ → ℕ → List (ℕ × FileMetaData K) → List (ℕ × FileMetaData K) × ℕ
  | [], sequence, files => (files, sequence)
  | i :: order, sequence, files =>
    assignSequences order (sequence + 1) (files.modify i (Prod.map id (·.withSequence (sequence + 1))))

def sequenceOrder (files : List (ℕ × FileMetaData K)) : List ℕ :=
  (sortBy (fun a b => sequencedBefore a.1 b.1) files.zipIdx).map Prod.snd

def InstallState.failed (s : InstallState K) : InstallState K := { s with bgError := s.bgError || s.ioError }

variable [LinearOrder K]

def MaterializedFile.covers (file : MaterializedFile K) (key : K) : Bool :=
  file.smallest.user.any (· ≤ key) && file.largest.user.any (key ≤ ·)

def checkMaterialized (numLevels : ℕ) (file : MaterializedFile K) : Except Status (ℕ × FileMetaData K) := do
  let smallest ← parseInternalKey file.smallest
  let largest ← parseInternalKey file.largest
  if file.level < 0 ∨ file.level ≥ numLevels ∨ file.smallestSeqno ≠ 0 ∨ file.largestSeqno ≠ 0 ∨
      smallest.sequence ≠ 0 ∨ largest.sequence ≠ 0 ∨ smallest.type ≠ .value ∨ largest.type ≠ .value ∨
      smallest.userKey > largest.userKey then
    throw (.invalidArgument "Invalid sequence-zero materialization file metadata")
  return (file.level.toNat,
    ⟨file.number, file.fileSize, smallest, largest, file.smallestSeqno, file.largestSeqno, file.epochNumber, 0, 0, 0, 0, 0,
      false, false, 0, 0, .unknown⟩)

/-- The new files as the edit holds them for `LogAndApply`, and its last sequence. -/
def InstallState.prepare (s : InstallState K) (edit : MaterializationEdit K) :
    Except Status (List (ℕ × FileMetaData K) × ℕ) := do
  if s.bgWorkPaused = 0 ∨ s.memEmpty = false ∨ s.numNotFlushed ≠ 0 then
    throw (.invalidArgument "Materialization requires paused background work and empty memtables")
  if edit.columnFamily ≠ s.cfId ∨ s.tableFactoryName ≠ "BlockBasedTable" ∨ s.timestampSize ≠ 0 then
    throw (.notSupported
      "Materialization requires the default CF, block-based external SSTs, and no user timestamps")
  if s.files.any fun file => !(edit.deletedFiles.contains (↑file.1, file.2.number)) then
    throw (.invalidArgument "Materialization must replace every current file")
  let files ← edit.newFiles.mapM (checkMaterialized s.numLevels)
  let sequence := s.newestSequence
  if sequence ≥ kMaxSequenceNumber ∨ files.length ≥ kMaxSequenceNumber - sequence then
    throw (.invalidArgument "Materialization sequence space exhausted")
  return assignSequences (sequenceOrder files) sequence files

def installVirtualCompactionMaterialization (s : InstallState K) (outcome : ApplyOutcome) :
    Option (MaterializationEdit K) → Status × InstallState K
  | none => (.invalidArgument "Missing materialization VersionEdit", s)
  | some edit =>
    match s.prepare edit with
    | .error status => (status, s.failed)
    | .ok (newFiles, sequence) =>
      match outcome with
      | .failed status _ ioError => (status, { s with ioError := ioError }.failed)
      | .ok => (.ok, { s with
          files := s.files.filter (fun file => !(edit.deletedFiles.contains (↑file.1, file.2.number))) ++ newFiles
          lastAllocatedSequence := sequence
          lastPublishedSequence := sequence
          lastSequence := sequence })

end VcompModel
