import Mathlib.Algebra.Group.Nat.Defs
import Mathlib.Data.List.AList
import Mathlib.Data.List.Sort
import Vcomp.Foundation.LowerBound

namespace VcompModel.WritePrepared

structure CommitEntry where
  prepSeq : ℕ
  commitSeq : ℕ
  deriving DecidableEq, Repr

structure Config where
  commitCacheBits : ℕ
  snapshotCacheBits : ℕ

namespace Config

variable (cfg : Config)

def commitCacheSize : ℕ := 2 ^ cfg.commitCacheBits

def snapshotCacheSize : ℕ := 2 ^ cfg.snapshotCacheBits

def incStepForMaxEvicted : ℕ := max (cfg.commitCacheSize / 100) 1

def commitBits : ℕ := 8 + cfg.commitCacheBits

def deltaUpperbound : ℕ := 2 ^ cfg.commitBits

end Config

structure SnapshotImpl where
  number : ℕ
  minUncommitted : ℕ
  deriving DecidableEq, Repr

structure State where
  lastPublished : ℕ
  snapshotList : List SnapshotImpl
  preparedTxns : List ℕ
  delayedPrepared : List ℕ
  delayedPreparedEmpty : Bool
  delayedPreparedCommits : AList fun _ : ℕ => ℕ
  commitCache : List (Option CommitEntry)
  maxEvictedSeq : ℕ
  futureMaxEvictedSeq : ℕ
  snapshotsVersion : ℕ
  snapshotCache : List ℕ
  snapshots : List ℕ
  snapshotsTotal : ℕ
  snapshotsAll : List ℕ
  oldCommitMap : AList fun _ : ℕ => List ℕ
  oldCommitMapEmpty : Bool

namespace State

variable (cfg : Config)

def initial : State where
  lastPublished := 0
  snapshotList := []
  preparedTxns := []
  delayedPrepared := []
  delayedPreparedEmpty := true
  delayedPreparedCommits := ∅
  commitCache := List.replicate cfg.commitCacheSize none
  maxEvictedSeq := 0
  futureMaxEvictedSeq := 0
  snapshotsVersion := 0
  snapshotCache := List.replicate cfg.snapshotCacheSize 0
  snapshots := []
  snapshotsTotal := 0
  snapshotsAll := []
  oldCommitMap := ∅
  oldCommitMapEmpty := true

def getCommitEntry (s : State) (indexedSeq : ℕ) : Option CommitEntry := s.commitCache.getD indexedSeq none

def moveToDelayed (newMax : ℕ) : List ℕ → State → State
  | [], s => { s with preparedTxns := [] }
  | top :: rest, s =>
    if top ≤ newMax then
      moveToDelayed newMax rest { s with delayedPrepared := s.delayedPrepared ++ [top], delayedPreparedEmpty := false }
    else { s with preparedTxns := top :: rest }

def checkPreparedAgainstMax (s : State) (newMax : ℕ) : State := moveToDelayed newMax s.preparedTxns s

def addPrepared (s : State) (seq : ℕ) : State :=
  let s := { s with preparedTxns := s.preparedTxns ++ [seq] }
  if seq ≤ s.futureMaxEvictedSeq then s.checkPreparedAgainstMax s.futureMaxEvictedSeq else s

def getAll (maxSeq : ℕ) (ret : List ℕ) : List ℕ → List ℕ
  | [] => ret
  | number :: rest =>
    if maxSeq < number then ret
    else if ret.getLast? = some number then getAll maxSeq ret rest
    else getAll maxSeq (ret ++ [number]) rest

def getSnapshotListFromDB (s : State) (maxSeq : ℕ) : List ℕ := getAll maxSeq [] (s.snapshotList.map (·.number))

def releaseSnapshotInternal (s : State) (snapSeq : ℕ) : State :=
  if snapSeq ≤ s.maxEvictedSeq then
    if snapSeq ∈ s.oldCommitMap then
      let map := s.oldCommitMap.erase snapSeq
      { s with oldCommitMap := map, oldCommitMapEmpty := map.entries.isEmpty }
    else s
  else s

def cleanupReleasedSnapshots : (fuel : ℕ) → (newSnapshots oldSnapshots : List ℕ) → State → State
  | 0, _, _, s => s
  | _ + 1, _, [], s => s
  | fuel + 1, [], old :: olds, s => cleanupReleasedSnapshots fuel [] olds (s.releaseSnapshotInternal old)
  | fuel + 1, new :: news, old :: olds, s =>
    if new = old then
      cleanupReleasedSnapshots fuel (news.dropWhile (· == new)) (olds.dropWhile (· == old)) s
    else cleanupReleasedSnapshots fuel (new :: news) olds (s.releaseSnapshotInternal old)

def updateSnapshots (s : State) (snapshots : List ℕ) (version : ℕ) : State :=
  let s :=
    { s with
      snapshotsVersion := version
      -- cells beyond the list keep what they held
      snapshotCache := snapshots.take cfg.snapshotCacheSize ++
        s.snapshotCache.drop (min snapshots.length cfg.snapshotCacheSize)
      snapshots := snapshots.drop cfg.snapshotCacheSize
      snapshotsTotal := snapshots.length }
  let s := cleanupReleasedSnapshots (snapshots.length + s.snapshotsAll.length + 1) snapshots s.snapshotsAll s
  { s with snapshotsAll := snapshots }

def touchOldCommitMap (s : State) (snap : ℕ) : State :=
  { s with oldCommitMap := s.oldCommitMap.insert snap ((s.oldCommitMap.lookup snap).getD []) }

def advanceMaxEvictedSeq (s : State) (prevMax newMax : ℕ) : State :=
  let s := { s with
    futureMaxEvictedSeq := if prevMax < newMax then max s.futureMaxEvictedSeq newMax else s.futureMaxEvictedSeq }
  let s := s.checkPreparedAgainstMax newMax
  let s :=
    if s.snapshotsVersion < newMax then
      let snapshots := s.getSnapshotListFromDB newMax
      let s := s.updateSnapshots cfg snapshots newMax
      if snapshots ≠ [] then { snapshots.foldl touchOldCommitMap s with oldCommitMapEmpty := false } else s
    else s
  { s with maxEvictedSeq := if prevMax < newMax then max s.maxEvictedSeq newMax else s.maxEvictedSeq }

def maybeUpdateOldCommitMap (s : State) (entry : CommitEntry) (snapshotSeq : ℕ) (nextIsLarger : Bool) : Bool × State :=
  if entry.commitSeq ≤ snapshotSeq then (!nextIsLarger, s)
  else if entry.prepSeq ≤ snapshotSeq then
    let vec := ((s.oldCommitMap.lookup snapshotSeq).getD []).orderedInsert (· ≤ ·) entry.prepSeq
    (true, { s with oldCommitMapEmpty := false, oldCommitMap := s.oldCommitMap.insert snapshotSeq vec })
  else (nextIsLarger, s)

/-- From the largest cached snapshot down, and whether larger ones are to be searched. -/
def scanDown (entry : CommitEntry) : (ip1 : ℕ) → (searchLargerList : Bool) → State → Bool × State
  | 0, searchLargerList, s => (searchLargerList, s)
  | i + 1, searchLargerList, s =>
    let snapshotSeq := s.snapshotCache.getD i 0
    -- the border line snapshot
    let searchLargerList := if i + 1 = cfg.snapshotCacheSize then decide (snapshotSeq < entry.commitSeq) else searchLargerList
    match s.maybeUpdateOldCommitMap entry snapshotSeq false with
    | (true, s) => scanDown entry i searchLargerList s
    | (false, s) => (searchLargerList, s)

def scanUp (entry : CommitEntry) : List ℕ → State → State
  | [], s => s
  | snapshotSeq :: rest, s =>
    match s.maybeUpdateOldCommitMap entry snapshotSeq true with
    | (true, s) => scanUp entry rest s
    | (false, s) => s

def checkAgainstSnapshots (s : State) (evicted : CommitEntry) : State :=
  let cnt := s.snapshotsTotal
  let (searchLargerList, s) := scanDown cfg evicted (min cnt cfg.snapshotCacheSize) false s
  if cfg.snapshotCacheSize < cnt ∧ searchLargerList then
    scanUp evicted s.snapshots (scanUp evicted (s.snapshotCache.take cfg.snapshotCacheSize) s)
  else s

def evict (s : State) (evicted : CommitEntry) : State :=
  let prevMax := s.maxEvictedSeq
  let s :=
    if prevMax < evicted.commitSeq then
      let last := s.lastPublished
      let maxEvictedSeq :=
        if evicted.commitSeq < last then min (evicted.commitSeq + cfg.incStepForMaxEvicted) (last - 1) else evicted.commitSeq
      s.advanceMaxEvictedSeq cfg prevMax maxEvictedSeq
    else s
  let s :=
    if !s.delayedPreparedEmpty ∧ evicted.prepSeq ∈ s.delayedPrepared then
      { s with delayedPreparedCommits := s.delayedPreparedCommits.insert evicted.prepSeq evicted.commitSeq }
    else s
  s.checkAgainstSnapshots cfg evicted

def addCommitted (s : State) (prepareSeq commitSeq : ℕ) : Option State :=
  let indexedSeq := prepareSeq % cfg.commitCacheSize
  let s :=
    match s.getCommitEntry indexedSeq with
    | none => s
    | some evicted => s.evict cfg evicted
  -- the constructor of `CommitEntry64b` throws where the distance does not fit
  if cfg.deltaUpperbound ≤ commitSeq - prepareSeq + 1 then none
  else some { s with commitCache := s.commitCache.set indexedSeq (some ⟨prepareSeq, commitSeq⟩) }

def removePrepared (s : State) (prepareSeq : ℕ) : State :=
  let s := { s with preparedTxns := s.preparedTxns.erase prepareSeq }
  if s.delayedPrepared.isEmpty then s
  else
    let delayed := s.delayedPrepared.erase prepareSeq
    { s with
      delayedPrepared := delayed
      delayedPreparedCommits := s.delayedPreparedCommits.erase prepareSeq
      delayedPreparedEmpty := if delayed.isEmpty then true else s.delayedPreparedEmpty }

def smallestUnCommittedSeq (s : State) : ℕ :=
  let nextPrepare := s.lastPublished + 1
  match (if s.delayedPreparedEmpty then none else s.delayedPrepared.min?) with
  | some first => first
  | none =>
    match s.preparedTxns.head? with
    | none => nextPrepare
    | some minPrepare => min minPrepare nextPrepare

def binarySearch (vec : List ℕ) (x : ℕ) : Bool :=
  decide (vec[LowerBound.lowerBound (fun i => (vec[i]?).any (· < x)) 0 vec.length]? = some x)

def isInSnapshot (s : State) (prepSeq snapshotSeq minUncommitted : ℕ) : Bool × Bool :=
  if prepSeq = 0 then (true, false)
  else if snapshotSeq < prepSeq then (false, false)
  else if prepSeq < minUncommitted then (true, false)
  else
    match (s.getCommitEntry (prepSeq % cfg.commitCacheSize)).filter (·.prepSeq = prepSeq) with
    | some cached => (decide (cached.commitSeq ≤ snapshotSeq), false)
    | none =>
      if s.maxEvictedSeq < prepSeq then (false, false)
      else if !s.delayedPreparedEmpty ∧ prepSeq ∈ s.delayedPrepared then
        match s.delayedPreparedCommits.lookup prepSeq with
        | none => (false, false)
        | some commitSeq => (decide (commitSeq ≤ snapshotSeq), false)
      else if s.maxEvictedSeq < snapshotSeq then (true, false)
      else if s.oldCommitMapEmpty then (true, true)
      else
        match s.oldCommitMap.lookup snapshotSeq with
        | none => (true, true)
        | some vec => (!binarySearch vec prepSeq, false)

end State

structure Run where
  db : State
  prepared : List ℕ
  commits : ℕ → Option ℕ

namespace Run

variable (cfg : Config)

def initial : Run := ⟨State.initial cfg, [], fun _ => none⟩

def prepare (r : Run) : Run :=
  let seq := r.db.lastPublished + 1
  { r with db := { r.db.addPrepared seq with lastPublished := seq }, prepared := r.prepared ++ [seq] }

/-- A number was prepared, or it is one of the commit's own. -/
def commitAll (commitSeq : ℕ) : List ℕ → Run → Option Run
  | [], r => some r
  | prep :: preps, r =>
    if (prep ∈ r.prepared ∨ r.db.lastPublished < prep ∧ prep ≤ commitSeq) ∧ r.commits prep = none then
      match r.db.addCommitted cfg prep commitSeq with
      | none => none
      | some db => commitAll commitSeq preps { r with db := db, commits := Function.update r.commits prep (some commitSeq) }
    else none

/-- The commit's batches take `more` numbers beyond the first. -/
def commit (preps : List ℕ) (more : ℕ) (r : Run) : Option Run :=
  let commitSeq := r.db.lastPublished + 1 + more
  (r.commitAll cfg commitSeq preps).map fun r => { r with db := { r.db with lastPublished := commitSeq } }

def removePrepared (prep : ℕ) (r : Run) : Option Run :=
  if r.commits prep = none then none else some { r with db := r.db.removePrepared prep }

def advanceSeqByOne (r : Run) : Option Run :=
  let seq := r.db.lastPublished + 1
  (r.prepare.commit cfg [seq] 0).bind (removePrepared seq)

def catchUp : (retries : ℕ) → Run → Option Run
  | 0, r => if r.db.lastPublished ≤ r.db.futureMaxEvictedSeq then none else some r
  | retries + 1, r =>
    if r.db.futureMaxEvictedSeq ≠ 0 ∧ r.db.lastPublished ≤ r.db.futureMaxEvictedSeq then
      (r.advanceSeqByOne cfg).bind (catchUp retries)
    else if r.db.lastPublished ≤ r.db.futureMaxEvictedSeq then none
    else some r

def getSnapshot (r : Run) : Option Run :=
  let minUncommitted := r.db.smallestUnCommittedSeq
  let caughtUp := if r.db.lastPublished ≠ 0 ∧ r.db.lastPublished ≤ r.db.futureMaxEvictedSeq then r.catchUp cfg 100 else some r
  caughtUp.map fun r =>
    { r with db := { r.db with snapshotList := r.db.snapshotList ++ [⟨r.db.lastPublished, minUncommitted⟩] } }

def releaseSnapshot (index : ℕ) (r : Run) : Run :=
  { r with db := { r.db with snapshotList := r.db.snapshotList.eraseIdx index } }

inductive Op where
  | addPrepared
  | addCommitted (preps : List ℕ) (more : ℕ)
  | removePrepared (prep : ℕ)
  | getSnapshot
  | releaseSnapshot (index : ℕ)

def step (r : Run) : Op → Option Run
  | .addPrepared => some r.prepare
  | .addCommitted preps more => r.commit cfg preps more
  | .removePrepared prep => r.removePrepared prep
  | .getSnapshot => r.getSnapshot cfg
  | .releaseSnapshot index => some (r.releaseSnapshot index)

end Run

end VcompModel.WritePrepared
