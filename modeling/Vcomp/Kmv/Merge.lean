import Vcomp.Kmv.Sketch

namespace VcompModel

abbrev InputList := List (Option VirtualSST)

def overlappingRanges (keyMin keyMax : ℕ) : Option VirtualSST → List KMVRangeSketch
  | none => []
  | some input =>
    if input.keyMax < keyMin ∨ input.keyMin > keyMax then []
    else input.kmvRanges.filter fun range => !(range.keyMax < keyMin || range.keyMin > keyMax)

def sketchPieces (inputs : InputList) (keyMin keyMax : ℕ) : List KMVRangeSketch :=
  inputs.flatMap (overlappingRanges keyMin keyMax)

def foldTheta (pieces : List KMVRangeSketch) : ℕ :=
  pieces.foldl (fun theta piece => min theta piece.sketch.thetaHash) uint64Max

def foldComplete (pieces : List KMVRangeSketch) : Bool :=
  pieces.foldl (fun complete piece => complete && piece.sketch.complete) true

def samplesBelow (theta : ℕ) (pieces : List KMVRangeSketch) : List ℕ :=
  pieces.flatMap fun piece => piece.sketch.samples.filter (· ≤ theta)

def samplesInRange (theta keyMin keyMax : ℕ) (pieces : List KMVRangeSketch) : List ℕ :=
  (samplesBelow theta pieces).filter fun sample =>
    kmvUnhash sample ≥ keyMin && kmvUnhash sample ≤ keyMax

def mergeKMVSketchesForRange (env : KMVEnv) (inputs : InputList) (keyMin keyMax maxSamples : ℕ) :
    KMVSketch :=
  if inputs = [] ∨ keyMax < keyMin then {}
  else
    let maxSamples := if maxSamples = 0 then virtualSSTKMVSamples env else maxSamples
    let pieces := sketchPieces inputs keyMin keyMax
    if pieces = [] then {}
    else
      let complete := foldComplete pieces
      let theta := foldTheta pieces
      let samples := sortUnique (samplesInRange theta keyMin keyMax pieces)
      let trimmed := decide (maxSamples > 0 ∧ samples.length > maxSamples)
      let samplesKept := sortByHashAndTrim samples maxSamples
      let completeKept := complete && !trimmed
      let thetaHash :=
        if completeKept then uint64Max
        else match trimmed, samplesKept.getLast? with
          | true, some back => back
          | _, _ => if complete then uint64Max else theta
      ⟨samplesKept, thetaHash, completeKept⟩

def estimateKMVUnionEntries (inputs : InputList) (naiveEntries : ℕ) : ℕ :=
  if inputs = [] ∨ naiveEntries = 0 then naiveEntries
  else if inputs.any (fun input => input.all (·.kmvRanges.isEmpty)) then naiveEntries
  else
    let ranges := inputs.flatMap fun input => input.elim [] (·.kmvRanges)
    if ranges.any (fun range => range.sketch.samples.isEmpty && !range.sketch.complete) then naiveEntries
    else
      let merged := samplesBelow (foldTheta ranges) ranges
      let sampledEntries := merged.length
      let sampledUnique := (sortUnique merged).length
      if sampledEntries = 0 then naiveEntries
      else if sampledUnique ≥ sampledEntries then naiveEntries
      else
        let estimate := (naiveEntries : ℚ) * sampledUnique / sampledEntries
        if foldComplete ranges then max 1 (stdRound estimate).toNat
        else max 1 ⌈estimate⌉.toNat

def densityShare (keyMin keyMax : ℕ) (piece : KMVRangeSketch) : ℚ :=
  let overlapMin := max piece.keyMin keyMin
  let overlapMax := min piece.keyMax keyMax
  if overlapMax ≥ overlapMin ∧ piece.numEntries > 0 then
    let pieceSpan := piece.keyMax - piece.keyMin + 1
    let overlapSpan := overlapMax - overlapMin + 1
    (piece.numEntries : ℚ) * overlapSpan / pieceSpan
  else 0

def estimateKMVUnionEntriesForRange (inputs : InputList) (keyMin keyMax : ℕ) : ℕ :=
  if inputs = [] ∨ keyMax < keyMin then 0
  else
    let pieces := sketchPieces inputs keyMin keyMax
    if pieces = [] then 0
    else
      let inputEntriesCap := (pieces.map (·.numEntries)).sum % word64
      let densityEstimate := (pieces.map (densityShare keyMin keyMax)).sum
      if inputEntriesCap = 0 then 0
      else
        let merged := samplesInRange (foldTheta pieces) keyMin keyMax pieces
        let sampledEntries := merged.length
        let sampledUnique := (sortUnique merged).length
        let inRange := min densityEstimate inputEntriesCap
        if sampledEntries = 0 ∨ sampledUnique ≥ sampledEntries then
          min inputEntriesCap ⌈inRange⌉.toNat
        else
          let estimate := inRange * sampledUnique / sampledEntries
          min inputEntriesCap (max 1 ⌈estimate⌉.toNat)

def outputBucketMin (keyMin span rangeCount i : ℕ) : ℕ := keyMin + span * i / rangeCount

def outputBucketMax (keyMin span rangeCount i : ℕ) : ℕ :=
  let endOff := span * (i + 1) / rangeCount
  max (keyMin + (endOff - 1)) (outputBucketMin keyMin span rangeCount i)

def mergeKMVRangeSketchesForOutput (env : KMVEnv) (inputs : InputList)
    (keyMin keyMax numEntries maxSamples maxRanges : ℕ) : List KMVRangeSketch :=
  if inputs = [] ∨ numEntries = 0 ∨ keyMax < keyMin then []
  else
    let maxSamples := if maxSamples = 0 then virtualSSTKMVSamples env else maxSamples
    let maxRanges := if maxRanges = 0 then virtualSSTKMVRangeBuckets env else maxRanges
    let span := keyMax - keyMin + 1
    let rangeCount := min (min maxRanges numEntries) span
    let samplesPerRange := max 1 (maxSamples / rangeCount)
    (List.range rangeCount).filterMap fun i =>
      let rangeMin := outputBucketMin keyMin span rangeCount i
      let rangeMax := outputBucketMax keyMin span rangeCount i
      let entries := estimateKMVUnionEntriesForRange inputs rangeMin rangeMax
      let sketch := mergeKMVSketchesForRange env inputs rangeMin rangeMax samplesPerRange
      if entries > 0 ∨ sketch.samples ≠ [] then some ⟨rangeMin, rangeMax, entries, sketch⟩ else none

end VcompModel
