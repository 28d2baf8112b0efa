import Vcomp.Foundation.Crc32c
import Vcomp.Foundation.LittleEndian

namespace VcompModel.Wal

abbrev Bytes := List UInt8

def kBlockSize : ℕ := 32768

def kHeaderSize : ℕ := 7

def kRecyclableHeaderSize : ℕ := 11

/-- The types in a log, and in the same byte the readers' outcomes. -/
inductive RecordType where
  | zero | full | first | middle | last
  | recyclableFull | recyclableFirst | recyclableMiddle | recyclableLast
  | setCompression
  | userDefinedTimestampSize | recyclableUserDefinedTimestampSize
  | predecessorWalInfo | recyclePredecessorWalInfo
  | eof | badRecord | badHeader | oldRecord | badRecordLen | badRecordChecksum
  | unknown (code : UInt8)
  deriving DecidableEq, Repr

namespace RecordType

def toByte : RecordType → UInt8
  | zero => 0 | full => 1 | first => 2 | middle => 3 | last => 4
  | recyclableFull => 5 | recyclableFirst => 6 | recyclableMiddle => 7 | recyclableLast => 8
  | setCompression => 9
  | userDefinedTimestampSize => 10 | recyclableUserDefinedTimestampSize => 11
  | predecessorWalInfo => 130 | recyclePredecessorWalInfo => 131
  | eof => 132 | badRecord => 133 | badHeader => 134 | oldRecord => 135 | badRecordLen => 136 | badRecordChecksum => 137
  | unknown code => code

def ofByte (byte : UInt8) : RecordType :=
  match byte.toNat with
  | 0 => zero | 1 => full | 2 => first | 3 => middle | 4 => last
  | 5 => recyclableFull | 6 => recyclableFirst | 7 => recyclableMiddle | 8 => recyclableLast
  | 9 => setCompression
  | 10 => userDefinedTimestampSize | 11 => recyclableUserDefinedTimestampSize
  | 130 => predecessorWalInfo | 131 => recyclePredecessorWalInfo
  | 132 => eof | 133 => badRecord | 134 => badHeader | 135 => oldRecord | 136 => badRecordLen | 137 => badRecordChecksum
  | _ => unknown byte

def isRecyclable : RecordType → Bool
  | recyclableFull | recyclableFirst | recyclableMiddle | recyclableLast
  | recyclableUserDefinedTimestampSize | recyclePredecessorWalInfo => true
  | _ => false

def isLegacy : RecordType → Bool
  | zero | full | first | middle | last | setCompression | predecessorWalInfo | userDefinedTimestampSize => true
  | _ => false

def ofFragment (recycle start finish : Bool) : RecordType :=
  match start, finish with
  | true, true => if recycle then recyclableFull else full
  | true, false => if recycle then recyclableFirst else first
  | false, true => if recycle then recyclableLast else last
  | false, false => if recycle then recyclableMiddle else middle

end RecordType

def physicalRecord (logNumber : ℕ) (type : RecordType) (payload : Bytes) : Bytes :=
  let typeCrc := Crc32c.value [type.toByte]
  let number := if type.isLegacy then [] else LittleEndian.encode 4 logNumber
  let crc := if type.isLegacy then typeCrc else Crc32c.extend typeCrc number
  let crc := Crc32c.mask (Crc32c.combine crc (Crc32c.value payload) payload.length)
  LittleEndian.encode 4 crc.toNat ++ LittleEndian.encode 2 payload.length ++ [type.toByte] ++ number ++ payload

structure Writer where
  logNumber : ℕ
  recycleLogFiles : Bool
  blockOffset : ℕ := 0
  dest : Bytes := []

variable (w : Writer)

def headerSize (recycle : Bool) : ℕ := if recycle then kRecyclableHeaderSize else kHeaderSize

def Writer.emitPhysicalRecord (type : RecordType) (payload : Bytes) : Writer :=
  let record := physicalRecord w.logNumber type payload
  { w with dest := w.dest ++ record, blockOffset := w.blockOffset + record.length }

def Writer.switchBlock : Writer :=
  let leftover := kBlockSize - w.blockOffset
  if leftover < headerSize w.recycleLogFiles then
    { w with dest := w.dest ++ List.replicate leftover 0, blockOffset := 0 }
  else w

def Writer.addFragments : (fuel : ℕ) → (start : Bool) → (left : Bytes) → Writer → Writer
  | 0, _, _, w => w
  | fuel + 1, start, left, w =>
    let w := w.switchBlock
    let avail := kBlockSize - w.blockOffset - headerSize w.recycleLogFiles
    let rest := left.drop avail
    let w := w.emitPhysicalRecord (.ofFragment w.recycleLogFiles start rest.isEmpty) (left.take avail)
    if rest.isEmpty then w else Writer.addFragments fuel false rest w

/-- Only the first fragment can be empty, so a round for each byte and two more are enough. -/
def Writer.addRecord (slice : Bytes) : Writer := Writer.addFragments (slice.length + 2) true slice w

variable (header : Bytes)

def headerChecksum : BitVec 32 := BitVec.ofNat 32 (LittleEndian.decode (header.take 4))

def headerLength : ℕ := LittleEndian.decode ((header.drop 4).take 2)

def headerType : RecordType := .ofByte (header.getD 6 0)

def headerLogNumber : ℕ := LittleEndian.decode ((header.drop 7).take 4)

def checksumMatches (headerSize length : ℕ) : Bool :=
  Crc32c.value ((header.drop 6).take (length + headerSize - 6)) == Crc32c.unmask (headerChecksum header)

end VcompModel.Wal
