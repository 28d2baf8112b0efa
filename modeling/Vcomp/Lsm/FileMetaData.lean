import Vcomp.Lsm.InternalKey

namespace VcompModel

inductive Temperature where
  | unknown
  | hot
  | warm
  | cool
  | cold
  | ice
  deriving DecidableEq, Repr

/-- The times are what the accessors find in the record or the table properties, 0 for unknown. -/
structure FileMetaData (K : Type) where
  number : ℕ
  fileSize : UInt64
  smallest : EntryKey K
  largest : EntryKey K
  smallestSeqno : ℕ
  largestSeqno : ℕ
  epochNumber : ℕ
  compensatedFileSize : UInt64 := 0
  compensatedRangeDeletionSize : UInt64 := 0
  numEntries : UInt64 := 0
  numDeletions : UInt64 := 0
  numRangeDeletions : UInt64 := 0
  beingCompacted : Bool := false
  markedForCompaction : Bool := false
  oldestAncesterTime : UInt64 := 0
  newestKeyTime : UInt64 := 0
  temperature : Temperature := .unknown
  deriving DecidableEq, Repr

inductive CompactionStyle where
  | level
  | universal
  | fifo
  | none
  deriving DecidableEq, Repr

end VcompModel
