import Vcomp.Wal.Format

namespace VcompModel.Wal

structure Report where
  bytes : ℕ
  reason : String
  deriving DecidableEq, Repr

/-- The compression type, timestamp sizes and the predecessor; told whether a record was open and how much was read. -/
structure Metadata (σ : Type) where
  record : RecordType → (inFragmentedRecord : Bool) → (scratchSize : ℕ) → (firstRecordRead : Bool) → Bytes →
    σ → σ × List Report

structure ReaderOptions where
  checksum : Bool := true
  logNumber : ℕ

/-- The state both readers share; `position` is the file's position and the end of the buffer. -/
structure Reader (σ : Type) where
  buffer : Bytes := []
  eof : Bool := false
  eofOffset : ℕ := 0
  position : ℕ := 0
  recycled : Bool := false
  firstRecordRead : Bool := false
  metadata : σ
  reports : List Report := []

inductive WalRecoveryMode where
  | tolerateCorruptedTailRecords | absoluteConsistency | pointInTimeRecovery | skipAnyCorruptedRecords
  deriving DecidableEq, Repr

variable {σ : Type}

def Reader.report (r : Reader σ) (bytes : ℕ) (reason : String) : Reader σ :=
  { r with reports := r.reports ++ [⟨bytes, reason⟩] }

def Reader.readBlock (file : Bytes) (r : Reader σ) : Reader σ :=
  let buffer := (file.drop r.position).take kBlockSize
  { r with
    buffer := buffer
    position := r.position + buffer.length
    eof := decide (buffer.length < kBlockSize)
    eofOffset := if buffer.length < kBlockSize then buffer.length else r.eofOffset }

def Reader.readMore (file : Bytes) (r : Reader σ) : Reader σ × Option (RecordType × ℕ) :=
  if r.eof then
    ({ r with buffer := [] }, some (if r.buffer.length > 0 then (.badHeader, r.buffer.length) else (.eof, 0)))
  else (r.readBlock file, none)

structure Physical where
  type : RecordType
  fragment : Bytes := []
  dropSize : ℕ := 0

def Reader.parseRecord (options : ReaderOptions) (headerSize : ℕ) (r : Reader σ) : Reader σ × Physical :=
  let header := r.buffer
  let length := headerLength header
  let type := headerType header
  if headerSize + length > r.buffer.length then
    ({ r with buffer := [] }, { type := .badRecordLen, dropSize := r.buffer.length })
  else if type.isRecyclable ∧ headerLogNumber header ≠ options.logNumber then
    ({ r with buffer := r.buffer.drop (headerSize + length) }, { type := .oldRecord })
  else if type = .zero ∧ length = 0 then ({ r with buffer := [] }, { type := .badRecord })
  else if options.checksum ∧ ¬ checksumMatches header headerSize length then
    ({ r with buffer := [] }, { type := .badRecordChecksum, dropSize := r.buffer.length })
  else
    ({ r with buffer := r.buffer.drop (headerSize + length) },
      { type := type, fragment := (header.drop headerSize).take length })

def Reader.readPhysicalRecord (options : ReaderOptions) (file : Bytes) : (fuel : ℕ) → Reader σ → Option (Reader σ × Physical)
  | 0, _ => none
  | fuel + 1, r =>
    if r.buffer.length < kHeaderSize then
      match r.readMore file with
      | (r, some (outcome, dropped)) => some (r, { type := outcome, dropSize := dropped })
      | (r, none) => Reader.readPhysicalRecord options file fuel r
    else if (headerType r.buffer).isRecyclable then
      if r.firstRecordRead ∧ ¬ r.recycled then some (r, { type := .badRecord })
      else
        let r := { r with recycled := true }
        if r.buffer.length < kRecyclableHeaderSize then
          match r.readMore file with
          | (r, some (outcome, dropped)) => some (r, { type := outcome, dropSize := dropped })
          | (r, none) => Reader.readPhysicalRecord options file fuel r
        else some (r.parseRecord options kRecyclableHeaderSize)
    else some (r.parseRecord options kHeaderSize)

structure Scratch where
  inFragmentedRecord : Bool := false
  bytes : Bytes := []

inductive Round (σ : Type) where
  | next (r : Reader σ) (scratch : Scratch)
  | done (r : Reader σ) (record : Option Bytes)

def WalRecoveryMode.reportsTail (mode : WalRecoveryMode) : Bool :=
  match mode with
  | .absoluteConsistency | .pointInTimeRecovery => true
  | _ => false

variable (metadata : Metadata σ) (mode : WalRecoveryMode)

def Reader.atEof (r : Reader σ) (scratch : Scratch) : Round σ :=
  .done (if scratch.inFragmentedRecord ∧ mode.reportsTail then
      r.report scratch.bytes.length "error reading trailing data due to encountering EOF" else r) none

def Reader.atBadRecord (r : Reader σ) (scratch : Scratch) : Round σ :=
  if scratch.inFragmentedRecord then .next (r.report scratch.bytes.length "error in middle of record") {}
  else .next r scratch

def Reader.atBadChecksum (r : Reader σ) (scratch : Scratch) (dropSize : ℕ) (reason : String) : Round σ :=
  if r.recycled ∧ mode = .tolerateCorruptedTailRecords then .done r none
  else (r.report dropSize reason).atBadRecord scratch

def Reader.switchRecord (r : Reader σ) (scratch : Scratch) (read : Physical) : Round σ :=
  let unfinished := scratch.inFragmentedRecord ∧ scratch.bytes ≠ []
  match read.type with
  | .full | .recyclableFull =>
    let r := if unfinished then r.report scratch.bytes.length "partial record without end(1)" else r
    .done { r with firstRecordRead := true } (some read.fragment)
  | .first | .recyclableFirst =>
    let r := if unfinished then r.report scratch.bytes.length "partial record without end(2)" else r
    .next r { inFragmentedRecord := true, bytes := read.fragment }
  | .middle | .recyclableMiddle =>
    if scratch.inFragmentedRecord then .next r { scratch with bytes := scratch.bytes ++ read.fragment }
    else .next (r.report read.fragment.length "missing start of fragmented record(1)") scratch
  | .last | .recyclableLast =>
    if scratch.inFragmentedRecord then .done { r with firstRecordRead := true } (some (scratch.bytes ++ read.fragment))
    else .next (r.report read.fragment.length "missing start of fragmented record(2)") scratch
  | .setCompression | .predecessorWalInfo | .recyclePredecessorWalInfo
  | .userDefinedTimestampSize | .recyclableUserDefinedTimestampSize =>
    let (state, reports) := metadata.record read.type scratch.inFragmentedRecord scratch.bytes.length r.firstRecordRead
      read.fragment r.metadata
    .next { r with metadata := state, reports := r.reports ++ reports } { scratch with bytes := [] }
  | .badHeader => (if mode.reportsTail then r.report read.dropSize "truncated header" else r).atEof mode scratch
  | .eof => r.atEof mode scratch
  | .oldRecord =>
    if mode = .skipAnyCorruptedRecords then r.atBadRecord scratch
    else .done (if scratch.inFragmentedRecord ∧ mode.reportsTail then
      r.report scratch.bytes.length "error reading trailing data due to encountering old record" else r) none
  | .badRecord => r.atBadRecord scratch
  | .badRecordLen =>
    if r.eof then .done (if mode.reportsTail then r.report read.dropSize "truncated record body" else r) none
    else r.atBadChecksum mode scratch read.dropSize "bad record length"
  | .badRecordChecksum => r.atBadChecksum mode scratch read.dropSize "checksum mismatch"
  | .zero | .unknown _ =>
    let code := read.type.toByte.toNat
    let size := read.fragment.length + if scratch.inFragmentedRecord then scratch.bytes.length else 0
    .next (if code < 128 then r.report size s!"unknown record type {code}" else r) {}

def Reader.readLoop (options : ReaderOptions) (file : Bytes) :
    (fuel : ℕ) → Reader σ → Scratch → Option (Reader σ × Option Bytes)
  | 0, _, _ => none
  | fuel + 1, r, scratch =>
    match r.readPhysicalRecord options file fuel with
    | none => none
    | some (r, read) =>
      match r.switchRecord metadata mode scratch read with
      | .next r scratch => Reader.readLoop options file fuel r scratch
      | .done r record => some (r, record)

def Reader.readRecord (options : ReaderOptions) (file : Bytes) (fuel : ℕ) (r : Reader σ) : Option (Reader σ × Option Bytes) :=
  r.readLoop metadata mode options file fuel {}

end VcompModel.Wal
