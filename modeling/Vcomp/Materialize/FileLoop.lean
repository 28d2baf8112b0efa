import Vcomp.Kmv.Sketch
import Vcomp.Materialize.KeyBitmap

namespace VcompModel

open SharedWords

structure KeyFormat where
  keySize : ℕ
  prefixSize : ℕ
  keysPerPrefix : ℕ
  deriving DecidableEq, Repr

def bigEndian (v count : ℕ) : List ℕ := (List.range count).map fun i => v / 256 ^ (count - i - 1) % 256

/-- `GenerateKeyFromInt` without existing keys; the padding is the character `0`. -/
def generateKeyFromInt (format : KeyFormat) (v numKeys : ℕ) : List ℕ :=
  let front :=
    if format.keysPerPrefix > 0 then
      bigEndian (v % (numKeys / format.keysPerPrefix)) (min format.prefixSize 8) ++
        List.replicate (format.prefixSize - 8) 48
    else []
  let key := front ++ bigEndian v (min (format.keySize - front.length) 8)
  key ++ List.replicate (format.keySize - key.length) 48

def encodeUserKey (keySize v : ℕ) : List ℕ :=
  let bytesToFill := min keySize 8
  (List.range keySize).map fun i => if i < bytesToFill then v >>> ((bytesToFill - i - 1) <<< 3) &&& 0xFF else 48

/-- `extract_key` of `RunVirtualCompaction`. -/
def extractKey (userKey : List ℕ) : ℕ :=
  if userKey.length ≥ 8 then (userKey.take 8).foldl (fun k d => k <<< 8 ||| d) 0 else 0

inductive ReportStatus where
  | notStarted
  | skipped
  | invalidModel
  | openFailed
  | uniqueCountMismatch
  | finishFailed
  | written
  | writtenUniqueShortfall
  deriving DecidableEq, Repr

inductive StopReason where
  | none
  | zeroPlannedEntries
  | emptyPlr
  | emptyMaterializeRange
  | uniqueCapacityExhausted
  | uniqueReservationFailed
  | uniqueReservationConflict
  | membershipEmptyRange
  | membershipExhausted
  | uint64Exhausted
  | rangeExhausted
  | putFailed
  | zeroWrittenEntries
  deriving DecidableEq, Repr

structure SSTTask where
  virtualFnum : ℕ
  realFnum : ℕ
  level : ℕ
  materializeKeyMin : ℕ
  materializeKeyMax : ℕ
  vsst : VirtualSST
  deriving DecidableEq

/-- `emitted` lists the ids put into the file, `fresh` those of them it claimed. -/
structure SSTResult where
  fileNumber : ℕ
  level : ℕ
  keysWritten : ℕ := 0
  firstKey : List ℕ := []
  lastKey : List ℕ := []
  ok : Bool := false
  putSuccesses : ℕ := 0
  skippedNonincreasingKeys : ℕ := 0
  putFailed : Bool := false
  uniqueFreeCapacity : ℕ := 0
  uniqueShortfall : ℕ := 0
  reportStatus : ReportStatus := .notStarted
  stopReason : StopReason := .none
  emitted : List ℕ := []
  fresh : List ℕ := []
  deriving DecidableEq, Repr

/-- How the writes of one file go; `puts` is asked with the number of keys already in the file. -/
structure SstIo where
  opens : Bool
  puts : ℕ → Bool
  finishes : Bool

inductive KeySelection where
  | model
  | unique
  | membership
  deriving DecidableEq, Repr

structure MaterializeConfig where
  format : KeyFormat
  selection : KeySelection
  map : KeyBitmap
  io : ℕ → SstIo

def advanceSegment (segments : List PLRSegment) (position : ℚ) : (fuel segIdx : ℕ) → ℕ
  | 0, segIdx => segIdx
  | fuel + 1, segIdx =>
    if segIdx + 1 < segments.length then
      match segments[segIdx]? with
      | some seg => if position ≤ seg.posEnd then segIdx else advanceSegment segments position fuel (segIdx + 1)
      | none => segIdx
    else segIdx

def modelKey (task : SSTTask) (segIdx pos : ℕ) : ℕ × ℕ :=
  let segments := task.vsst.plrModel.segments
  let segIdx := advanceSegment segments pos segments.length segIdx
  let k :=
    match segments[segIdx]? with
    | some seg => seg.keyAt pos
    | none => 0
  (min (max k task.materializeKeyMin) task.materializeKeyMax, segIdx)

/-- The locals of each way of choosing keys; a cursor comes with the key it found. -/
inductive Selector where
  | model (segIdx : ℕ)
  | unique (segIdx lo hi target cap : ℕ)
  | member (fresh stale : Option (ℕ × Cursor)) (claims : List ℕ)

def Selector.claims : Selector → List ℕ
  | .member _ _ claims => claims
  | _ => []

structure FileState where
  selector : Selector
  prevKey : Option ℕ := none
  prevKeyStr : List ℕ := []
  firstKey : List ℕ := []
  emitted : List ℕ := []
  skipped : ℕ := 0
  putFailed : Bool := false
  stopReason : StopReason := .none

def FileState.keysInFile (s : FileState) : ℕ := s.emitted.length

def lowerKey (lo : ℕ) : Option ℕ → ℕ
  | none => lo
  | some prev => max lo (prev + 1)

def reachKey (map : KeyBitmap) (candidate cap : ℕ) : Access ℕ :=
  if candidate ≥ cap then pure cap
  else do
    match ← map.nextFree candidate cap with
    | some k => return k
    | none => return cap

def placeUnique (map : KeyBitmap) (segIdx lo hi target cap keysInFile k : ℕ) (prev : Option ℕ) :
    Access (Except StopReason (ℕ × Selector)) := do
  if prev = some uint64Max then return .error .uint64Exhausted
  let k ← reachKey map (max k (lowerKey lo prev)) cap
  let free ← take k
  if !free then return .error .uniqueReservationConflict
  if keysInFile + 1 < target then
    if cap ≥ hi then return .error .uniqueReservationConflict
    match ← map.nextFree (cap + 1) hi with
    | none => return .error .uniqueReservationConflict
    | some cap => return .ok (k, .unique segIdx lo hi target cap)
  else return .ok (k, .unique segIdx lo hi target cap)

def selectKey (map : KeyBitmap) (task : SSTTask) (pos : ℕ) (s : FileState) :
    Access (Except StopReason (ℕ × Selector)) :=
  match s.selector with
  | .model segIdx =>
    let (k, segIdx) := modelKey task segIdx pos
    match s.prevKey with
    | none => pure (.ok (k, .model segIdx))
    | some prev =>
      if k ≤ prev ∧ prev = uint64Max then pure (.error .uint64Exhausted)
      else
        let k := if k ≤ prev then prev + 1 else k
        if k > task.materializeKeyMax then pure (.error .rangeExhausted) else pure (.ok (k, .model segIdx))
  | .unique segIdx lo hi target cap =>
    if s.keysInFile ≥ target then pure (.error .uniqueCapacityExhausted)
    else
      let (k, segIdx) := modelKey task segIdx pos
      placeUnique map segIdx lo hi target cap s.keysInFile k s.prevKey
  | .member (some (k, cursor)) none claims => do
    return .ok (k, .member (← map.next cursor) none (claims ++ [k]))
  | .member none (some (k, cursor)) claims => do
    return .ok (k, .member none (← map.next cursor) claims)
  | .member (some (freshKey, fresh)) (some (staleKey, stale)) claims => do
    if freshKey ≤ staleKey then
      return .ok (freshKey, .member (← map.next fresh) (some (staleKey, stale)) (claims ++ [freshKey]))
    else
      return .ok (staleKey, .member (some (freshKey, fresh)) (← map.next stale) claims)
  | .member none none _ => pure (.error .membershipExhausted)

/-- The encoding, the check that keys increase, and the `Put`; whether to go on. -/
def putKey (cfg : MaterializeConfig) (io : SstIo) (k : ℕ) (s : FileState) : FileState × Bool :=
  let key := generateKeyFromInt cfg.format k cfg.map.keyDomain
  if s.prevKeyStr ≠ [] ∧ ¬ s.prevKeyStr < key then
    ({ s with skipped := s.skipped + 1, prevKey := some k }, true)
  else if !io.puts s.keysInFile then
    ({ s with putFailed := true, stopReason := .putFailed }, false)
  else
    ({ s with
        emitted := s.emitted ++ [k]
        firstKey := if s.firstKey = [] then key else s.firstKey
        prevKeyStr := key
        prevKey := some k }, true)

def fileLoop (cfg : MaterializeConfig) (io : SstIo) (task : SSTTask) : (left pos : ℕ) → FileState → Access FileState
  | 0, _, s => pure s
  | left + 1, pos, s => do
    match ← selectKey cfg.map task pos s with
    | .error reason => return { s with stopReason := reason }
    | .ok (k, selector) =>
      let (s, more) := putKey cfg io k { s with selector := selector }
      if more then fileLoop cfg io task left (pos + 1) s else return s

/-- What the setup of a file settles: its free capacity, its shortfall and how its keys are chosen. -/
structure FilePlan where
  freeCapacity : ℕ
  shortfall : ℕ
  selector : Selector

structure FileEnd where
  freeCapacity : ℕ
  shortfall : ℕ
  reportStatus : ReportStatus
  stopReason : StopReason
  ok : Bool

def freeInRange (map : KeyBitmap) (lo hi : ℕ) : Access ℕ := if lo > hi then pure 0 else map.countFree lo hi

def planUnique (map : KeyBitmap) (task : SSTTask) : Access (Except FileEnd FilePlan) := do
  let lo := task.materializeKeyMin
  let hi := if task.materializeKeyMax ≥ map.keyDomain then map.keyDomain - 1 else task.materializeKeyMax
  let freeKeys ← freeInRange map lo hi
  let target := min task.vsst.numEntries freeKeys
  let shortfall := task.vsst.numEntries - target
  if target = 0 then
    return .error ⟨freeKeys, shortfall, .skipped, .uniqueCapacityExhausted, true⟩
  match ← map.selectFree lo hi (freeKeys - target) with
  | none => return .error ⟨freeKeys, shortfall, .invalidModel, .uniqueReservationFailed, false⟩
  | some cap => return .ok ⟨freeKeys, shortfall, .unique 0 lo hi target cap⟩

def planMembership (map : KeyBitmap) (task : SSTTask) : Access (Except FileEnd FilePlan) := do
  let hi := if task.materializeKeyMax ≥ map.keyDomain then map.keyDomain - 1 else task.materializeKeyMax
  let lo := task.materializeKeyMin
  let want := task.vsst.numEntries
  let freshAvail ← map.countPresent lo hi .newest
  let staleAvail ← map.countPresent lo hi .stale
  let wantFresh := min want freshAvail
  let wantStale := min (want - wantFresh) staleAvail
  let fresh ← map.newCursor lo hi wantFresh .newest
  let stale ← map.newCursor lo hi wantStale .stale
  let shortfall := want - wantFresh - wantStale
  let fresh ← map.next fresh
  let stale ← map.next stale
  if fresh.isNone ∧ stale.isNone then
    return .error ⟨freshAvail + staleAvail, shortfall, .skipped, .membershipEmptyRange, true⟩
  return .ok ⟨freshAvail + staleAvail, shortfall, .member fresh stale []⟩

def planFile (cfg : MaterializeConfig) (task : SSTTask) : Access (Except FileEnd FilePlan) :=
  match cfg.selection with
  | .model => pure (.ok ⟨0, 0, .model 0⟩)
  | .unique => planUnique cfg.map task
  | .membership => planMembership cfg.map task

def finishFile (cfg : MaterializeConfig) (io : SstIo) (task : SSTTask) (plan : FilePlan) (s : FileState) (res : SSTResult) :
    Access SSTResult := do
  let res := { res with
    uniqueFreeCapacity := plan.freeCapacity, uniqueShortfall := plan.shortfall
    firstKey := s.firstKey, lastKey := s.prevKeyStr, putSuccesses := s.keysInFile
    skippedNonincreasingKeys := s.skipped, putFailed := s.putFailed, stopReason := s.stopReason
    emitted := s.emitted }
  if cfg.selection ≠ .model ∧ (s.keysInFile + plan.shortfall ≠ task.vsst.numEntries ∨ s.skipped ≠ 0) then
    return { res with reportStatus := .uniqueCountMismatch }
  if s.keysInFile = 0 then
    return { res with
      reportStatus := .skipped, ok := true
      stopReason := if s.stopReason = .none then .zeroWrittenEntries else s.stopReason }
  if !io.finishes then return { res with reportStatus := .finishFailed }
  s.selector.claims.forM cfg.map.claim
  return { res with
    keysWritten := s.keysInFile, ok := true, fresh := s.selector.claims
    reportStatus := if plan.shortfall = 0 then .written else .writtenUniqueShortfall }

def materializeFile (cfg : MaterializeConfig) (task : SSTTask) : Access SSTResult := do
  let res : SSTResult := { fileNumber := task.realFnum, level := task.level }
  let io := cfg.io task.realFnum
  if task.vsst.numEntries = 0 then
    return { res with reportStatus := .skipped, stopReason := .zeroPlannedEntries, ok := true }
  if task.vsst.plrModel.empty then
    return { res with reportStatus := .invalidModel, stopReason := .emptyPlr }
  if task.materializeKeyMin > task.materializeKeyMax then
    return { res with reportStatus := .invalidModel, stopReason := .emptyMaterializeRange }
  match ← planFile cfg task with
  | .error ended =>
    return { res with
      uniqueFreeCapacity := ended.freeCapacity, uniqueShortfall := ended.shortfall
      reportStatus := ended.reportStatus, stopReason := ended.stopReason, ok := ended.ok }
  | .ok plan =>
    if !io.opens then
      return { res with
        uniqueFreeCapacity := plan.freeCapacity, uniqueShortfall := plan.shortfall, reportStatus := .openFailed }
    let s ← fileLoop cfg io task task.vsst.numEntries 0 { selector := plan.selector }
    finishFile cfg io task plan s res

end VcompModel
