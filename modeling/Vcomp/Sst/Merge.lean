import Vcomp.Kmv.Merge

namespace VcompModel

/-- The error results of the modelled functions, with their texts. -/
inductive Status where
  | ok
  | invalidArgument (msg : String)
  | corruption (msg : String)
  | notSupported (msg : String)
  | ioError
  deriving DecidableEq, Repr

def sumEntries : InputList → ℕ → Option ℕ
  | [], naive => some naive
  | none :: inputs, naive => sumEntries inputs naive
  | some input :: inputs, naive =>
    if input.numEntries > uint64Max - naive then none else sumEntries inputs (naive + input.numEntries)

def mergeBreakpoints (inputs : InputList) : List ℕ :=
  sortUnique (inputs.flatMap fun input => input.elim [] fun vsst =>
    vsst.keyMin :: vsst.keyMax :: vsst.plrModel.segments.flatMap fun seg => [seg.keyStart, seg.keyEnd])

structure ActiveInput where
  input : VirtualSST
  segs : List PLRSegment

def advanceSegments (kMid : ℕ) : List PLRSegment → List PLRSegment
  | seg :: next :: rest =>
    if seg.keyEnd < kMid then advanceSegments kMid (next :: rest) else seg :: next :: rest
  | segs => segs

def ActiveInput.segmentAt (active : ActiveInput) (kMid : ℕ) : Option PLRSegment :=
  match active.segs with
  | [] => none
  | seg :: _ => if kMid < seg.keyStart ∨ kMid > seg.keyEnd then none else some seg

structure MergeSweep where
  waiting : List VirtualSST
  active : List ActiveInput := []
  merged : List PLRSegment := []
  rawTotalEntries : ℚ := 0

def MergeSweep.activeAt (sweep : MergeSweep) (kMid : ℕ) : List ActiveInput :=
  let arrived := (sweep.waiting.takeWhile (·.keyMin ≤ kMid)).map fun input =>
    (⟨input, input.plrModel.segments⟩ : ActiveInput)
  let kept := (sweep.active ++ arrived).filter fun active => !(active.input.keyMax < kMid)
  kept.map fun active => { active with segs := advanceSegments kMid active.segs }

def intervalSlope (slopeSum width : ℚ) (intervalEntries : ℕ) : ℚ :=
  let naiveMass := max 0 (slopeSum * width)
  if intervalEntries > 0 then
    if slopeSum > 0 ∧ naiveMass > 0 then slopeSum * (intervalEntries / naiveMass)
    else intervalEntries / width
  else 0

def MergeSweep.step (sweep : MergeSweep) (kStart kEnd : ℕ) : MergeSweep :=
  let kMid := kStart + (kEnd - kStart) / 2
  let active := sweep.activeAt kMid
  let chosen := active.filterMap fun input => (input.segmentAt kMid).map (input.input, ·)
  let slopeSum := (chosen.map fun (_, seg) => max seg.slope 0).sum
  let intervalEntries := estimateKMVUnionEntriesForRange (chosen.map fun (input, _) => some input) kStart kEnd
  let width : ℚ := max 1 ((kEnd - kStart : ℕ) : ℚ)
  { waiting := sweep.waiting.dropWhile (·.keyMin ≤ kMid)
    active := active
    merged := sweep.merged ++ [⟨kStart, kEnd, intervalSlope slopeSum width intervalEntries, 0⟩]
    rawTotalEntries := sweep.rawTotalEntries + intervalEntries }

def sweepBreakpoints : List ℕ → MergeSweep → MergeSweep
  | kStart :: kEnd :: rest, sweep => sweepBreakpoints (kEnd :: rest) (sweep.step kStart kEnd)
  | _, sweep => sweep

def rescaleSlopes (kmvTotalEntries : ℕ) (rawTotalEntries : ℚ) (width : ℕ)
    (merged : List PLRSegment) : List PLRSegment :=
  if kmvTotalEntries > 0 ∧ rawTotalEntries > 0 then
    merged.map fun seg => { seg with slope := seg.slope * (kmvTotalEntries / rawTotalEntries) }
  else if kmvTotalEntries > 0 ∧ merged ≠ [] then
    merged.map fun seg => { seg with slope := kmvTotalEntries / max 1 (width : ℚ) }
  else merged

def assignIntercepts : ℚ → List PLRSegment → List PLRSegment
  | _, [] => []
  | cumulativePos, seg :: rest =>
    { seg with intercept := cumulativePos - seg.slope * seg.keyStart } ::
      assignIntercepts (cumulativePos + seg.slope * ((seg.keyEnd - seg.keyStart : ℕ) : ℚ)) rest

def compactSegments (prev : PLRSegment) : List PLRSegment → List PLRSegment
  | [] => [prev]
  | cur :: rest =>
    if |prev.slope - cur.slope| < 1 / 10 ^ 12 ∧ |prev.intercept - cur.intercept| < 1 / 10 ^ 9 then
      compactSegments { prev with keyEnd := cur.keyEnd } rest
    else prev :: compactSegments cur rest

def compactMerged : List PLRSegment → List PLRSegment
  | [] => []
  | first :: rest => compactSegments first rest

def nWayMergeKMVRangeAware (inputs : InputList) : Except Status (PLRModel × ℕ) :=
  if inputs = [] then .ok (⟨[]⟩, 0)
  else
    match sumEntries inputs 0 with
    | none => .error (.invalidArgument "virtual input count overflow")
    | some naiveEntries =>
      let kmvTotalEntries := estimateKMVUnionEntries inputs naiveEntries
      match mergeBreakpoints inputs with
      | [] => .ok (⟨[]⟩, 0)
      | [only] => .ok (⟨[⟨only, only, 0, kmvTotalEntries / 2⟩]⟩, kmvTotalEntries)
      | front :: next :: rest =>
        let order := (inputs.filterMap id).insertionSort (fun a b => a.keyMin ≤ b.keyMin)
        let sweep := sweepBreakpoints (front :: next :: rest) { waiting := order }
        let width := (front :: next :: rest).getLastD front - front
        let scaled := rescaleSlopes kmvTotalEntries sweep.rawTotalEntries width sweep.merged
        .ok (⟨compactMerged (assignIntercepts 0 scaled)⟩, kmvTotalEntries)

end VcompModel
