import Vcomp.Wal.Reader

namespace VcompModel.Wal

/-- It goes on after the given rounds, or looks at a header whose block was replaced. -/
inductive Stuck where
  | fuel | staleHeader
  deriving DecidableEq, Repr

structure FragmentBufferedReader (σ : Type) where
  reader : Reader σ
  inFragmentedRecord : Bool := false
  fragments : Bytes := []

variable {σ : Type}

def Reader.unmarkEof (file : Bytes) (r : Reader σ) : Reader σ :=
  let remaining := kBlockSize - r.eofOffset
  let added := (file.drop r.position).take remaining
  { r with
    buffer := r.buffer ++ added
    position := r.position + added.length
    eof := decide (added.length < remaining)
    eofOffset := if added.length < remaining then r.eofOffset + added.length else 0 }

def Reader.tryReadMore (file : Bytes) (r : Reader σ) : Reader σ := if r.eof then r.unmarkEof file else r.readBlock file

/-- Waits for `need` bytes: `none` where it returns false, otherwise whether the block was replaced. -/
def Reader.refill (file : Bytes) (need : ℕ) : (fuel : ℕ) → (replaced : Bool) → Reader σ → Except Stuck (Reader σ × Option Bool)
  | 0, _, _ => .error .fuel
  | fuel + 1, replaced, r =>
    if need ≤ r.buffer.length then .ok (r, some replaced)
    else
      let r' := r.tryReadMore file
      if r.buffer.length = r'.buffer.length then .ok (r', none) else Reader.refill file need fuel (replaced || !r.eof) r'

variable (options : ReaderOptions) (file : Bytes) (fuel : ℕ)

def Reader.tryReadBody (headerSize : ℕ) (r : Reader σ) : Except Stuck (Reader σ × Option Physical) := do
  let type := headerType r.buffer
  let length := headerLength r.buffer
  match ← r.refill file (headerSize + length) fuel false with
  | (r, none) => .ok (r, none)
  | (_, some true) => .error .staleHeader
  | (r, some false) =>
    if type = .zero ∧ length = 0 then .ok ({ r with buffer := [] }, some { type := .badRecord })
    else if options.checksum ∧ ¬ checksumMatches r.buffer headerSize length then
      .ok ({ r with buffer := [] }, some { type := .badRecordChecksum, dropSize := r.buffer.length })
    else
      .ok ({ r with buffer := r.buffer.drop (headerSize + length) },
        some { type := type, fragment := (r.buffer.drop headerSize).take length })

def Reader.tryReadFragment (r : Reader σ) : Except Stuck (Reader σ × Option Physical) := do
  match ← r.refill file kHeaderSize fuel false with
  | (r, none) => .ok (r, none)
  | (r, some _) =>
    if (headerType r.buffer).isRecyclable then
      if r.firstRecordRead ∧ ¬ r.recycled then .ok (r, some { type := .badRecord })
      else
        match ← ({ r with recycled := true } : Reader σ).refill file kRecyclableHeaderSize fuel false with
        | (r, none) => .ok (r, none)
        | (_, some true) => .error .staleHeader
        | (r, some false) =>
          if headerLogNumber r.buffer ≠ options.logNumber then .ok (r, some { type := .oldRecord })
          else r.tryReadBody options file fuel kRecyclableHeaderSize
    else r.tryReadBody options file fuel kHeaderSize

inductive TailRound (σ : Type) where
  | next (r : FragmentBufferedReader σ)
  | done (r : FragmentBufferedReader σ) (record : Option Bytes)

variable (metadata : Metadata σ)

def FragmentBufferedReader.report (r : FragmentBufferedReader σ) (bytes : ℕ) (reason : String) : FragmentBufferedReader σ :=
  { r with reader := r.reader.report bytes reason }

def FragmentBufferedReader.atBadRecord (r : FragmentBufferedReader σ) : FragmentBufferedReader σ :=
  if r.inFragmentedRecord then
    { r.report r.fragments.length "error in middle of record" with inFragmentedRecord := false, fragments := [] }
  else r

def FragmentBufferedReader.switchRecord (r : FragmentBufferedReader σ) (read : Physical) : TailRound σ :=
  match read.type with
  | .full | .recyclableFull =>
    let r := if r.inFragmentedRecord ∧ r.fragments ≠ [] then r.report r.fragments.length "partial record without end(1)" else r
    .done ⟨{ r.reader with firstRecordRead := true }, false, []⟩ (some read.fragment)
  | .first | .recyclableFirst =>
    let r := if r.inFragmentedRecord ∨ r.fragments ≠ [] then r.report r.fragments.length "partial record without end(2)" else r
    .next { r with inFragmentedRecord := true, fragments := read.fragment }
  | .middle | .recyclableMiddle =>
    if r.inFragmentedRecord then .next { r with fragments := r.fragments ++ read.fragment }
    else .next (r.report read.fragment.length "missing start of fragmented record(1)")
  | .last | .recyclableLast =>
    if r.inFragmentedRecord then
      .done ⟨{ r.reader with firstRecordRead := true }, false, []⟩ (some (r.fragments ++ read.fragment))
    else .next (r.report read.fragment.length "missing start of fragmented record(2)")
  | .setCompression | .predecessorWalInfo | .recyclePredecessorWalInfo
  | .userDefinedTimestampSize | .recyclableUserDefinedTimestampSize =>
    -- the scratch of this reader is empty when such a record comes
    let (state, reports) :=
      metadata.record read.type r.inFragmentedRecord 0 r.reader.firstRecordRead read.fragment r.reader.metadata
    .next ⟨{ r.reader with metadata := state, reports := r.reader.reports ++ reports }, false, []⟩
  | .badHeader | .badRecord | .eof | .oldRecord => .next r.atBadRecord
  | .badRecordChecksum =>
    if r.reader.recycled then .done { r with fragments := [] } none
    else .next (r.report read.dropSize "checksum mismatch").atBadRecord
  | .zero | .badRecordLen | .unknown _ =>
    let code := read.type.toByte.toNat
    let size := read.fragment.length + if r.inFragmentedRecord then r.fragments.length else 0
    let r := if code < 128 then r.report size s!"unknown record type {code}" else r
    .next { r with inFragmentedRecord := false, fragments := [] }

def FragmentBufferedReader.readRecord (options : ReaderOptions) (file : Bytes) :
    (fuel : ℕ) → FragmentBufferedReader σ → Except Stuck (FragmentBufferedReader σ × Option Bytes)
  | 0, _ => .error .fuel
  | fuel + 1, r => do
    match ← r.reader.tryReadFragment options file fuel with
    | (reader, none) => .ok ({ r with reader := reader }, none)
    | (reader, some read) =>
      match ({ r with reader := reader } : FragmentBufferedReader σ).switchRecord metadata read with
      | .next r => FragmentBufferedReader.readRecord options file fuel r
      | .done r record => .ok (r, record)

def FragmentBufferedReader.calls (options : ReaderOptions) (fuel : ℕ) :
    (files : List Bytes) → FragmentBufferedReader σ → Except Stuck (FragmentBufferedReader σ × List (Option Bytes))
  | [], r => .ok (r, [])
  | file :: files, r => do
    let (r, record) ← r.readRecord metadata options file fuel
    let (r, records) ← FragmentBufferedReader.calls options fuel files r
    .ok (r, record :: records)

end VcompModel.Wal
