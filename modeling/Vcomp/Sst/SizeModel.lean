import Vcomp.Plr.Model

namespace VcompModel

def uint64Max : ℕ := word64 - 1

/-- One calibration line: `numerator / denominator` bytes an entry plus `fixedBytes` a file. -/
structure SSTSizeLine where
  numerator : ℕ
  denominator : ℕ
  fixedBytes : ℕ
  deriving DecidableEq, Repr

/-- Upper envelope of affine size estimates; 128-bit products are exact. -/
structure SSTSizeModel where
  lines : List SSTSizeLine
  deriving DecidableEq, Repr

namespace SSTSizeModel

def logical (bytesPerEntry : ℕ) : SSTSizeModel :=
  if bytesPerEntry ≠ 0 then ⟨[⟨bytesPerEntry, 1, 0⟩]⟩ else ⟨[]⟩

def addCalibration (model : SSTSizeModel) (n1 bytes1 n2 bytes2 : ℕ) : Option SSTSizeModel :=
  if n1 = 0 ∨ n2 ≤ n1 ∨ bytes2 ≤ bytes1 then none
  else
    let numerator := bytes2 - bytes1
    let denominator := n2 - n1
    let interceptLeft := bytes1 * denominator
    let interceptRight := n1 * numerator
    let fixedBytes :=
      if interceptLeft > interceptRight then
        let difference := interceptLeft - interceptRight
        (difference / denominator + if difference % denominator ≠ 0 then 1 else 0) % word64
      else 0
    some ⟨model.lines ++ [⟨numerator, denominator, fixedBytes⟩]⟩

def valid (model : SSTSizeModel) : Bool := !model.lines.isEmpty

end SSTSizeModel

def SSTSizeLine.estimate (line : SSTSizeLine) (entries : ℕ) : ℕ :=
  let product := entries * line.numerator
  let variableBytes := product / line.denominator + if product % line.denominator ≠ 0 then 1 else 0
  let available := uint64Max - line.fixedBytes
  if variableBytes > available then uint64Max else variableBytes + line.fixedBytes

/-- Entries of a line that fit, `none` where the source returns zero at once. -/
def SSTSizeLine.capacity (line : SSTSizeLine) (targetBytes : ℕ) : Option ℕ :=
  if targetBytes < line.fixedBytes then none
  else
    let capacity := (targetBytes - line.fixedBytes) * line.denominator / line.numerator
    some (if capacity > uint64Max then uint64Max else capacity)

namespace SSTSizeModel

def estimate (model : SSTSizeModel) (entries : ℕ) : ℕ :=
  if entries = 0 then 0
  else model.lines.foldl (fun result line => max result (line.estimate entries)) 0

def maxEntriesLoop (targetBytes : ℕ) : List SSTSizeLine → ℕ → ℕ
  | [], result => result
  | line :: lines, result =>
    match line.capacity targetBytes with
    | none => 0
    | some bounded => maxEntriesLoop targetBytes lines (min result bounded)

def maxEntries (model : SSTSizeModel) (targetBytes : ℕ) : ℕ :=
  if !model.valid then 0
  else if targetBytes = uint64Max then uint64Max
  else maxEntriesLoop targetBytes model.lines uint64Max

end SSTSizeModel

end VcompModel
