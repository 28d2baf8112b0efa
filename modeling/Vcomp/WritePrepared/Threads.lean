import Vcomp.WritePrepared.State

namespace VcompModel.WritePrepared

inductive Pc where
  | start
  | declare (updatedFutureMax : ℕ)
  | checkPrepared
  | readVersion
  | getSnapshots
  | lock
  | store (i : ℕ)
  | publish
  | cleanup (news olds : List ℕ)
  | find (snapSeq : ℕ) (news olds : List ℕ)
  | erase (snapSeq : ℕ) (news olds : List ℕ)
  | touch
  | advance (updatedPrevMax : ℕ)
  | finished
deriving DecidableEq

structure AdvanceCall where
  prevMax : ℕ
  newMax : ℕ
  pc : Pc
  snapshots : List ℕ

/-- One round of a `compare_exchange_weak` loop: the cell, and the value to go on with. -/
def casRound (cell updated newMax : ℕ) (spurious : Bool) : ℕ × Option ℕ :=
  if newMax ≤ updated then (cell, none)
  else if cell = updated ∧ spurious = false then (newMax, none)
  else (cell, some cell)

variable {ι : Type*}

/-- The database, the holder of `snapshots_mutex_`, the calls, and the entries on record. -/
structure Threads (ι : Type*) where
  db : State
  holder : Option ι
  calls : ι → AdvanceCall
  recorded : List (ℕ × ℕ)

def AdvanceCall.step (cfg : Config) (self : ι) (spurious : Bool) (db : State) (holder : Option ι) (c : AdvanceCall) :
    Option (State × Option ι × AdvanceCall) :=
  match c.pc with
  | .start => some (db, holder, { c with pc := .declare c.prevMax })
  | .declare updated =>
    let round := casRound db.futureMaxEvictedSeq updated c.newMax spurious
    some ({ db with futureMaxEvictedSeq := round.1 }, holder,
      { c with pc := match round.2 with | none => .checkPrepared | some updated => .declare updated })
  | .checkPrepared => some (db.checkPreparedAgainstMax c.newMax, holder, { c with pc := .readVersion })
  | .readVersion =>
    -- the version is read without the lock
    some (db, holder, { c with pc := if db.snapshotsVersion < c.newMax then .getSnapshots else .advance c.prevMax })
  | .getSnapshots => some (db, holder, { c with snapshots := db.getSnapshotListFromDB c.newMax, pc := .lock })
  | .lock =>
    match holder with
    | some _ => none
    | none => some ({ db with snapshotsVersion := c.newMax }, some self, { c with pc := .store 0 })
  | .store i =>
    match c.snapshots[i]? with
    | some snap =>
      if i < cfg.snapshotCacheSize then
        some ({ db with snapshotCache := db.snapshotCache.set i snap }, holder, { c with pc := .store (i + 1) })
      else some (db, holder, { c with pc := .publish })
    | none => some (db, holder, { c with pc := .publish })
  | .publish =>
    some ({ db with snapshots := c.snapshots.drop cfg.snapshotCacheSize, snapshotsTotal := c.snapshots.length }, holder,
      { c with pc := .cleanup c.snapshots db.snapshotsAll })
  | .cleanup _ [] =>
    some ({ db with snapshotsAll := c.snapshots }, none,
      { c with pc := if c.snapshots = [] then .advance c.prevMax else .touch })
  | .cleanup [] (old :: olds) =>
    some (db, holder, { c with pc := if old ≤ db.maxEvictedSeq then .find old [] olds else .cleanup [] olds })
  | .cleanup (new :: news) (old :: olds) =>
    if new = old then
      some (db, holder, { c with pc := .cleanup (news.dropWhile (· == new)) (olds.dropWhile (· == old)) })
    else
      some (db, holder, { c with
        pc := if old ≤ db.maxEvictedSeq then .find old (new :: news) olds else .cleanup (new :: news) olds })
  | .find snapSeq news olds =>
    some (db, holder, { c with pc := if snapSeq ∈ db.oldCommitMap then .erase snapSeq news olds else .cleanup news olds })
  | .erase snapSeq news olds =>
    let map := db.oldCommitMap.erase snapSeq
    some ({ db with oldCommitMap := map, oldCommitMapEmpty := map.entries.isEmpty }, holder,
      { c with pc := .cleanup news olds })
  | .touch =>
    some ({ c.snapshots.foldl State.touchOldCommitMap db with oldCommitMapEmpty := false }, holder,
      { c with pc := .advance c.prevMax })
  | .advance updated =>
    let round := casRound db.maxEvictedSeq updated c.newMax spurious
    some ({ db with maxEvictedSeq := round.1 }, holder,
      { c with pc := match round.2 with | none => .finished | some updated => .advance updated })
  | .finished => none

/-- What the calls do, and other threads: snapshots taken and released, evicted entries put on record. -/
inductive ThreadEvent (ι : Type*) where
  | call (i : ι) (spurious : Bool)
  | getSnapshot (number minUncommitted : ℕ)
  | releaseSnapshot (index : ℕ)
  | record (entry : CommitEntry) (snapshotSeq : ℕ) (nextIsLarger : Bool)

namespace Threads

variable [DecidableEq ι]

def step (cfg : Config) (s : Threads ι) : ThreadEvent ι → Option (Threads ι)
  | .call i spurious =>
    ((s.calls i).step cfg i spurious s.db s.holder).map fun (db, holder, c) =>
      { s with db := db, holder := holder, calls := Function.update s.calls i c }
  | .getSnapshot number minUncommitted =>
    some { s with db := { s.db with snapshotList := s.db.snapshotList ++ [⟨number, minUncommitted⟩] } }
  | .releaseSnapshot index => some { s with db := { s.db with snapshotList := s.db.snapshotList.eraseIdx index } }
  | .record entry snapshotSeq nextIsLarger =>
    some
      { s with
        db := (s.db.maybeUpdateOldCommitMap entry snapshotSeq nextIsLarger).2
        recorded := if entry.prepSeq ≤ snapshotSeq ∧ snapshotSeq < entry.commitSeq then
          s.recorded ++ [(entry.prepSeq, snapshotSeq)]
          else s.recorded }

structure Initial (cfg : Config) (s : Threads ι) : Prop where
  db : s.db = State.initial cfg
  holder : s.holder = none
  calls : ∀ i, (s.calls i).pc = .start ∧ (s.calls i).prevMax < (s.calls i).newMax
  versions : ∀ i j, (s.calls i).newMax = (s.calls j).newMax → i = j
  recorded : s.recorded = []

end Threads

end VcompModel.WritePrepared
