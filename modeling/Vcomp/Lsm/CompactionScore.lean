import Vcomp.Foundation.FloatOps
import Vcomp.Lsm.FileMetaData

namespace VcompModel

structure DoubleArith (F : Type) extends FloatOps F where
  ofInt : ℤ → F
  ofUInt64 : UInt64 → F
  toUInt64 : F → UInt64
  div : F → F → F

def DoubleArith.max {F : Type} (fl : DoubleArith F) (a b : F) : F := if fl.lt a b then b else a

structure LevelCompactionStats where
  fileSize : UInt64 := 0
  compensatedSize : UInt64 := 0
  nonCompactingCompensatedSize : UInt64 := 0
  nonCompactingFileCount : ℤ := 0
  firstFileBeingCompacted : Bool := false
  deriving DecidableEq, Repr

def LevelCompactionStats.add {K : Type} (stats : LevelCompactionStats) (i : ℕ) (file : FileMetaData K) :
    LevelCompactionStats where
  fileSize := stats.fileSize + file.fileSize
  compensatedSize := stats.compensatedSize + file.compensatedFileSize
  nonCompactingCompensatedSize :=
    if file.beingCompacted then stats.nonCompactingCompensatedSize
    else stats.nonCompactingCompensatedSize + file.compensatedFileSize
  nonCompactingFileCount :=
    if file.beingCompacted then stats.nonCompactingFileCount else stats.nonCompactingFileCount + 1
  firstFileBeingCompacted := if i = 0 then file.beingCompacted else stats.firstFileBeingCompacted

def collectLevel {K : Type} (stats : LevelCompactionStats) : (i : ℕ) → List (FileMetaData K) → LevelCompactionStats
  | _, [] => stats
  | i, file :: files => collectLevel (stats.add i file) (i + 1) files

def collectLevelCompactionStats {K : Type} (files : List (List (FileMetaData K))) : List LevelCompactionStats :=
  files.map (collectLevel {} 0)

def FileMetaData.compensated {K : Type} (averageValueSize : UInt64) (file : FileMetaData K) : FileMetaData K :=
  if file.compensatedFileSize = 0 then
    let boost :=
      if (file.numDeletions - file.numRangeDeletions) * 2 ≥ file.numEntries then
        ((file.numDeletions - file.numRangeDeletions) * 2 - file.numEntries) * averageValueSize * 2
      else 0
    { file with compensatedFileSize := file.fileSize + boost + file.compensatedRangeDeletionSize }
  else file

structure ScoreContext where
  style : CompactionStyle
  numLevels : ℕ
  allowIngestBehind : Bool
  dynamicLevelBytes : Bool
  currentTime : Option UInt64
  level0FileNumCompactionTrigger : ℤ
  maxBytesForLevelBase : UInt64
  maxTableFilesSize : UInt64
  fifoAllowCompaction : Bool
  fileTemperatureAgeThresholds : List (UInt64 × Temperature)
  ttl : UInt64
  levelMaxBytes : ℕ → UInt64
  baseLevel : ℕ
  lowestUnnecessaryLevel : ℤ

variable {K F : Type} (fl : DoubleArith F) (ctx : ScoreContext)

def ScoreContext.inputLevels : ℕ := if ctx.style = .level then ctx.numLevels - 1 else 1

def ScoreContext.maxOutputLevel : ℕ := if ctx.allowIngestBehind then ctx.numLevels - 2 else ctx.numLevels - 1

def getExpiredTtlFilesCount (files : List (FileMetaData K)) : ℕ :=
  match ctx.currentTime with
  | none => 0
  | some now => (files.filter fun file => !file.beingCompacted && file.oldestAncesterTime ≠ 0 &&
      file.oldestAncesterTime < now - ctx.ttl).length

def FileMetaData.tryGetNewestKeyTime (file : FileMetaData K) (prev : Option (FileMetaData K)) : UInt64 :=
  if file.newestKeyTime ≠ 0 then file.newestKeyTime else (prev.map (·.oldestAncesterTime)).getD 0

def targetTemperature (now time : UInt64) (first : Temperature) (ages : List (UInt64 × Temperature)) : Temperature :=
  ages.foldl (fun target age => if now ≥ age.1 ∧ time ≤ now - age.1 then age.2 else target) first

def temperatureLoop (now threshold : UInt64) (first : Temperature) (ages : List (UInt64 × Temperature)) :
    List (FileMetaData K) → Bool
  | [] => false
  | file :: rest =>
    if file.beingCompacted then temperatureLoop now threshold first ages rest
    else
      let time := file.tryGetNewestKeyTime rest.head?
      if time = 0 then temperatureLoop now threshold first ages rest
      else if time > threshold then false
      else if file.temperature ≠ targetTemperature now time first ages then true
      else temperatureLoop now threshold first ages rest

def shouldChangeFileTemperature (files : List (FileMetaData K)) : Bool :=
  match ctx.fileTemperatureAgeThresholds, ctx.currentTime with
  | (age, temperature) :: ages, some now =>
    if now ≥ age then temperatureLoop now (now - age) temperature ages files.reverse else false
  | _, _ => false

def fifoScore (files : List (FileMetaData K)) (numSortedRuns : ℤ) (totalSize : UInt64) : F :=
  let maxTableFilesSize := if ctx.maxTableFilesSize = 0 then 1 else ctx.maxTableFilesSize
  let score := fl.div (fl.ofUInt64 totalSize) (fl.ofUInt64 maxTableFilesSize)
  let score :=
    if fl.lt score (fl.lit 1) ∧ ctx.fifoAllowCompaction then
      fl.max (fl.div (fl.ofInt numSortedRuns) (fl.ofInt ctx.level0FileNumCompactionTrigger)) score
    else score
  let score :=
    if fl.lt score (fl.lit 1) ∧ ctx.ttl > 0 then fl.max (fl.ofInt (getExpiredTtlFilesCount ctx files)) score else score
  if fl.lt score (fl.lit 1) ∧ shouldChangeFileTemperature ctx files then fl.lit (11 / 10) else score

def levelZeroSizeScore (stats : ℕ → LevelCompactionStats) (totalSize : UInt64) (score : F) : F :=
  if ctx.dynamicLevelBytes then
    let score := if totalSize ≥ ctx.maxBytesForLevelBase then fl.max score (fl.lit (101 / 100)) else score
    let score :=
      if totalSize > ctx.levelMaxBytes ctx.baseLevel then
        let base := max (stats ctx.baseLevel).compensatedSize (ctx.levelMaxBytes ctx.baseLevel)
        fl.max score (fl.div (fl.ofUInt64 totalSize) (fl.ofUInt64 base))
      else score
    if fl.lt (fl.lit 1) score then fl.mul score (fl.lit 10) else score
  else fl.max score (fl.div (fl.ofUInt64 totalSize) (fl.ofUInt64 ctx.maxBytesForLevelBase))

def levelZeroScore (stats : ℕ → LevelCompactionStats) (files : List (List (FileMetaData K))) : F :=
  let numSortedRuns := (stats 0).nonCompactingFileCount
  let numSortedRuns :=
    if ctx.style = .universal then
      numSortedRuns + ((List.range ctx.maxOutputLevel).filter fun i =>
        (files.getD (i + 1) []) ≠ [] ∧ !(stats (i + 1)).firstFileBeingCompacted).length
    else numSortedRuns
  let totalSize := (stats 0).nonCompactingCompensatedSize
  if ctx.style = .fifo then fifoScore fl ctx (files.getD 0 []) numSortedRuns totalSize
  else
    let score := fl.div (fl.ofInt numSortedRuns) (fl.ofInt ctx.level0FileNumCompactionTrigger)
    if ctx.style = .level ∧ ctx.numLevels > 1 then levelZeroSizeScore fl ctx stats totalSize score else score

def deeperScore (stats : LevelCompactionStats) (level : ℕ) (totalDowncompactBytes : F) : F :=
  let bytes := stats.nonCompactingCompensatedSize
  let target := fl.ofUInt64 (ctx.levelMaxBytes level)
  if !ctx.dynamicLevelBytes then fl.div (fl.ofUInt64 bytes) target
  else
    let score :=
      if bytes < ctx.levelMaxBytes level then fl.div (fl.ofUInt64 bytes) target
      else fl.mul (fl.div (fl.ofUInt64 bytes) (fl.add target totalDowncompactBytes)) (fl.lit 10)
    if bytes > 0 ∧ level ≤ ctx.lowestUnnecessaryLevel then
      fl.max score (fl.mul (fl.lit 10) (fl.add (fl.lit (1001 / 1000))
        (fl.mul (fl.lit (1 / 1000)) (fl.ofInt (ctx.lowestUnnecessaryLevel - level)))))
    else score

def downcompactBytes (stats : LevelCompactionStats) (level : ℕ) (total : F) : F :=
  if level = 0 then fl.add total (fl.ofUInt64 stats.fileSize)
  else if level ≤ ctx.lowestUnnecessaryLevel then fl.add total (fl.ofUInt64 stats.fileSize)
  else if stats.fileSize > ctx.levelMaxBytes level then
    fl.add total (fl.ofUInt64 (stats.fileSize - ctx.levelMaxBytes level))
  else total

def levelScores (stats : ℕ → LevelCompactionStats) (files : List (List (FileMetaData K))) :
    (levels : List ℕ) → (totalDowncompactBytes : F) → List (ℕ × F)
  | [], _ => []
  | level :: levels, total =>
    let score := if level = 0 then levelZeroScore fl ctx stats files else deeperScore fl ctx (stats level) level total
    (level, score) :: levelScores stats files levels (downcompactBytes fl ctx (stats level) level total)

def swapIfLess (scores : List (ℕ × F)) (i j : ℕ) : List (ℕ × F) :=
  match scores[i]?, scores[j]? with
  | some a, some b => if fl.lt a.2 b.2 then (scores.set i b).set j a else scores
  | _, _ => scores

def sortScores (numLevels : ℕ) (scores : List (ℕ × F)) : List (ℕ × F) :=
  (List.range (numLevels - 2)).foldl (fun scores i =>
    (List.range' (i + 1) (numLevels - 1 - (i + 1))).foldl (fun scores j => swapIfLess fl scores i j) scores) scores

/-- The scores with their levels, filled and sorted; `before` is what the arrays held. -/
def computeCompactionScore (stats : List LevelCompactionStats) (files : List (List (FileMetaData K)))
    (before : List (ℕ × F)) : List (ℕ × F) :=
  let scores := levelScores fl ctx (fun level => stats.getD level {}) files (List.range ctx.inputLevels) (fl.lit 0)
  sortScores fl ctx.numLevels (scores ++ before.drop scores.length)

structure EstimateState where
  estimated : UInt64
  bytesCompactToNextLevel : UInt64
  bytesNextLevel : UInt64
  deriving DecidableEq

def estimateLevel (stats : ℕ → LevelCompactionStats) (level0Triggered : Bool) (s : EstimateState) (level : ℕ) :
    EstimateState :=
  let levelSize := if s.bytesNextLevel > 0 then s.bytesNextLevel else (stats level).fileSize
  let estimated := if level = ctx.baseLevel ∧ level0Triggered then s.estimated + levelSize else s.estimated
  let levelSize := levelSize + s.bytesCompactToNextLevel
  let target := ctx.levelMaxBytes level
  if levelSize > target then
    let compact := levelSize - target
    let next := if level + 1 < ctx.numLevels then (stats (level + 1)).fileSize else 0
    if next > 0 then
      ⟨estimated + fl.toUInt64 (fl.mul (fl.ofUInt64 compact)
        (fl.add (fl.div (fl.ofUInt64 next) (fl.ofUInt64 levelSize)) (fl.lit 1))), compact, next⟩
    else ⟨estimated, compact, next⟩
  else ⟨estimated, 0, 0⟩

def estimateCompactionBytesNeeded (stats : List LevelCompactionStats) (files : List (List (FileMetaData K))) : UInt64 :=
  if ctx.style ≠ .level then 0
  else
    let stats := fun level => stats.getD level {}
    let levelSize := (stats 0).fileSize
    let triggered := decide (((files.getD 0 []).length : ℤ) ≥ ctx.level0FileNumCompactionTrigger ∨
      levelSize ≥ ctx.maxBytesForLevelBase)
    let start : EstimateState := if triggered then ⟨levelSize, levelSize, 0⟩ else ⟨0, 0, 0⟩
    ((List.range' ctx.baseLevel (ctx.inputLevels - ctx.baseLevel)).foldl (estimateLevel fl ctx stats triggered)
      start).estimated

end VcompModel
