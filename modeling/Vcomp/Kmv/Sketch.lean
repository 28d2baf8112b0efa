import Vcomp.Foundation.ThetaSketch
import Vcomp.Kmv.Hash
import Vcomp.Sst.SizeModel

namespace VcompModel

/-- A sample is its fingerprint alone; the key is recomputed by `kmvUnhash`. -/
structure KMVSketch where
  samples : List ℕ := []
  thetaHash : ℕ := uint64Max
  complete : Bool := false
  deriving DecidableEq, Repr

structure KMVRangeSketch where
  keyMin : ℕ := 0
  keyMax : ℕ := 0
  numEntries : ℕ := 0
  sketch : KMVSketch := {}
  deriving DecidableEq, Repr

structure VirtualSST where
  plrModel : PLRModel
  kmvRanges : List KMVRangeSketch
  keyMin : ℕ
  keyMax : ℕ
  numEntries : ℕ
  sizeBytes : ℕ
  deriving DecidableEq, Repr

structure KMVEnv where
  samples : Option (List Char) := none
  rangeBuckets : Option (List Char) := none

/-- Decimal digits with a `size_t` overflow check; `none` on any other text. -/
def parseDigits : List Char → ℕ → Option ℕ
  | [], parsed => some parsed
  | c :: rest, parsed =>
    let digit := c.toNat - 48
    if c.toNat < 48 ∨ 57 < c.toNat ∨ parsed > (uint64Max - digit) / 10 then none
    else parseDigits rest (parsed * 10 + digit)

/-- Unset, empty, malformed and zero give the default. -/
def envSize (fallback : ℕ) : Option (List Char) → ℕ
  | none => fallback
  | some [] => fallback
  | some value =>
    match parseDigits value 0 with
    | none => fallback
    | some 0 => fallback
    | some parsed => parsed

def virtualSSTKMVSamples (env : KMVEnv) : ℕ := envSize 512 env.samples
def virtualSSTKMVRangeBuckets (env : KMVEnv) : ℕ := envSize 8 env.rangeBuckets

def sortByHashAndTrim (samples : List ℕ) (maxSamples : ℕ) : List ℕ :=
  let sorted := samples.insertionSort (· ≤ ·)
  if maxSamples > 0 ∧ sorted.length > maxSamples then sorted.take maxSamples else sorted

structure SketchBuild where
  heap : List ℕ := []
  uniqueCount : ℕ := 0
  lastKey : Option ℕ := none

def SketchBuild.add (maxSamples : ℕ) (build : SketchBuild) (key : ℕ) : SketchBuild :=
  if build.lastKey = some key then build
  else ⟨ThetaSketch.offer maxSamples build.heap (kmvHash key), build.uniqueCount + 1, some key⟩

def buildKMVSketchFromSortedKeyRange (keys : List ℕ) (maxSamples : ℕ) : KMVSketch :=
  if keys = [] then {}
  else
    let build := keys.foldl (SketchBuild.add maxSamples) {}
    let complete := decide (build.uniqueCount ≤ maxSamples)
    let samples := sortByHashAndTrim build.heap maxSamples
    let thetaHash :=
      if complete then uint64Max
      else match samples.getLast? with
        | none => uint64Max
        | some back => back
    ⟨samples, thetaHash, complete⟩

def bucketKeys (sortedKeys : List ℕ) (rangeCount i : ℕ) : List ℕ :=
  let beginIdx := sortedKeys.length * i / rangeCount
  let endIdx := sortedKeys.length * (i + 1) / rangeCount
  (sortedKeys.drop beginIdx).take (endIdx - beginIdx)

def rangeBucket (keys : List ℕ) (samplesPerRange : ℕ) : Option KMVRangeSketch :=
  match keys.head?, keys.getLast? with
  | some front, some back =>
    some ⟨front, back, keys.length, buildKMVSketchFromSortedKeyRange keys samplesPerRange⟩
  | _, _ => none

def buildKMVRangeSketchesFromSortedKeys (env : KMVEnv) (sortedKeys : List ℕ)
    (maxSamples maxRanges : ℕ) : List KMVRangeSketch :=
  if sortedKeys = [] then []
  else
    let maxSamples := if maxSamples = 0 then virtualSSTKMVSamples env else maxSamples
    let maxRanges := if maxRanges = 0 then virtualSSTKMVRangeBuckets env else maxRanges
    let rangeCount := min maxRanges sortedKeys.length
    let samplesPerRange := max 1 (maxSamples / rangeCount)
    (List.range rangeCount).filterMap fun i =>
      rangeBucket (bucketKeys sortedKeys rangeCount i) samplesPerRange

end VcompModel
