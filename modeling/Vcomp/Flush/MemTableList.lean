import Mathlib.Data.Int.Notation
import Mathlib.Data.Nat.Notation

namespace VcompModel.Flush

/-- `ident` is the number of memtables added before, `id` its `GetID`; an edit is named by the file it adds. -/
structure MemTable where
  ident : ℕ
  id : ℕ
  flushInProgress : Bool
  flushCompleted : Bool
  fileNumber : ℕ
  edit : Option ℕ
deriving DecidableEq

def MemTable.reset (m : MemTable) : MemTable :=
  { m with flushInProgress := false, flushCompleted := false, edit := none, fileNumber := 0 }

/-- `memlist` runs from the back of `memlist_`: the oldest memtable first. -/
structure MemTableList where
  memlist : List MemTable
  numFlushNotStarted : ℤ
  immFlushNeeded : Bool
  commitInProgress : Bool

structure Picked where
  memlist : List MemTable
  ret : List ℕ
  numFlushNotStarted : ℤ
  immFlushNeeded : Bool

/-- The loop of `PickMemtablesToFlush`; `started` is that `ret` is not empty. -/
def pickLoop (maxMemtableId : ℕ) (started : Bool) (num : ℤ) (needed : Bool) : List MemTable → Picked
  | [] => ⟨[], [], num, needed⟩
  | m :: rest =>
    if maxMemtableId < m.id then ⟨m :: rest, [], num, needed⟩
    else if m.flushInProgress = false then
      let tail := pickLoop maxMemtableId true (num - 1) (if num - 1 = 0 then false else needed) rest
      ⟨{ m with flushInProgress := true } :: tail.memlist, m.ident :: tail.ret, tail.numFlushNotStarted, tail.immFlushNeeded⟩
    else if started then
      -- no memtable after one in progress, so that those picked are consecutive
      ⟨m :: rest, [], num, needed⟩
    else
      let tail := pickLoop maxMemtableId false num needed rest
      ⟨m :: tail.memlist, tail.ret, tail.numFlushNotStarted, tail.immFlushNeeded⟩

def rollbackCompleted : List MemTable → List MemTable × ℕ
  | [] => ([], 0)
  | m :: rest =>
    if m.flushCompleted then (m.reset :: (rollbackCompleted rest).1, (rollbackCompleted rest).2 + 1) else (m :: rest, 0)

def rollbackSucceeding (first : ℕ) : List MemTable → List MemTable × ℕ
  | [] => ([], 0)
  | m :: rest =>
    if m.ident = first then (m :: (rollbackCompleted rest).1, (rollbackCompleted rest).2)
    else (m :: (rollbackSucceeding first rest).1, (rollbackSucceeding first rest).2)

def rollbackAfter (mems : List ℕ) (succeeding : Bool) (memlist : List MemTable) : List MemTable × ℕ :=
  match mems with
  | [] => (memlist, 0)
  | first :: _ => if succeeding then rollbackSucceeding first memlist else (memlist, 0)

def editList (batchFileNumber : Option ℕ) : List MemTable → List (Option ℕ)
  | [] => []
  | m :: rest =>
    if batchFileNumber = some m.fileNumber then editList batchFileNumber rest
    else m.edit :: editList (some m.fileNumber) rest

namespace MemTableList

def add (list : MemTableList) (ident id : ℕ) : MemTableList :=
  { list with
    memlist := list.memlist ++ [⟨ident, id, false, false, 0, none⟩]
    numFlushNotStarted := list.numFlushNotStarted + 1
    immFlushNeeded := if list.numFlushNotStarted + 1 = 1 then true else list.immFlushNeeded }

def rollbackMemtableFlush (list : MemTableList) (mems : List ℕ) (succeeding : Bool) : MemTableList :=
  let rolled := rollbackAfter mems succeeding list.memlist
  let own (m : MemTable) : Bool := decide (m.ident ∈ mems) && m.flushInProgress
  { list with
    memlist := rolled.1.map fun m => if own m then m.reset else m
    numFlushNotStarted := list.numFlushNotStarted + rolled.2 + rolled.1.countP own
    immFlushNeeded := if mems = [] then list.immFlushNeeded else true }

def markCompleted (list : MemTableList) (mems : List ℕ) (fileNumber : ℕ) : MemTableList :=
  { list with
    memlist := list.memlist.map fun m =>
      if m.ident ∈ mems then { m with flushCompleted := true, fileNumber := fileNumber } else m }

def memtablesToFlush (list : MemTableList) : List MemTable := list.memlist.takeWhile (·.flushCompleted)

def removeMemTablesOrRestoreFlags (list : MemTableList) (ok : Bool) (numMemToFlush : ℕ) : MemTableList :=
  if ok then { list with memlist := list.memlist.drop numMemToFlush }
  else
    { list with
      memlist := (list.memlist.take numMemToFlush).map (·.reset) ++ list.memlist.drop numMemToFlush
      numFlushNotStarted := list.numFlushNotStarted + numMemToFlush
      immFlushNeeded := if numMemToFlush = 0 then list.immFlushNeeded else true }

end MemTableList

structure FlushJob where
  mems : List ℕ
  fileNumber : ℕ
deriving DecidableEq

/-- The committing thread: inside `LogAndApply`, or after its callback. -/
inductive Commit where
  | logAndApply (numMemToFlush : ℕ) (edits : List (Option ℕ))
  | applied (ok : Bool)

/-- The list with its flush jobs. The last three fields are history: memtables that left, edit lists logged, files
installed with their `write_edits`. -/
structure System where
  list : MemTableList
  nextFileNumber : ℕ
  jobs : List FlushJob
  commit : Option Commit
  added : ℕ
  left : List MemTable
  manifest : List (List (Option ℕ))
  installs : List (ℕ × Bool)

inductive Call where
  | add (id : ℕ)
  | pickMemTable (maxMemtableId fileNumber : ℕ)
  | rollback (job : FlushJob) (succeeding : Bool)
  | tryInstall (job : FlushJob) (writeEdits : Bool)
  | manifestWriteCb (ok : Bool)
  | logAndApplyReturns

namespace System

def initial : System := ⟨⟨[], 0, false, false⟩, 2, [], none, 0, [], [], []⟩

def add (s : System) (id : ℕ) : System :=
  { s with list := s.list.add s.added id, added := s.added + 1 }

def pickMemTable (s : System) (maxMemtableId fileNumber : ℕ) : System :=
  let picked := pickLoop maxMemtableId false s.list.numFlushNotStarted s.list.immFlushNeeded s.list.memlist
  match picked.ret with
  | [] => { s with list := ⟨picked.memlist, picked.numFlushNotStarted, picked.immFlushNeeded, s.list.commitInProgress⟩ }
  | first :: rest =>
    { s with
      list := ⟨picked.memlist.map fun m => if m.ident = first then { m with edit := some fileNumber } else m,
        picked.numFlushNotStarted, picked.immFlushNeeded, s.list.commitInProgress⟩
      nextFileNumber := fileNumber + 1
      jobs := s.jobs ++ [⟨first :: rest, fileNumber⟩] }

def rollback (s : System) (job : FlushJob) (succeeding : Bool) : System :=
  { s with list := s.list.rollbackMemtableFlush job.mems succeeding, jobs := s.jobs.erase job }

/-- The commit loop up to the point where it releases the mutex. -/
def commitRound (s : System) : System :=
  match s.list.memtablesToFlush with
  | [] => { s with list := { s.list with commitInProgress := false }, commit := none }
  | m :: rest => { s with commit := some (.logAndApply (rest.length + 1) (editList none (m :: rest))) }

/-- The commit loop without `write_edits`, under the mutex throughout. -/
def commitUnlogged : ℕ → System → System
  | 0, s => s
  | fuel + 1, s =>
    match s.list.memtablesToFlush with
    | [] => { s with list := { s.list with commitInProgress := false }, commit := none }
    | m :: rest =>
      commitUnlogged fuel
        { s with
          list := s.list.removeMemTablesOrRestoreFlags true (rest.length + 1)
          left := s.left ++ m :: rest }

def install (s : System) (job : FlushJob) (writeEdits : Bool) : System :=
  { s with
    list := s.list.markCompleted job.mems job.fileNumber
    jobs := s.jobs.erase job
    installs := s.installs ++ [(job.fileNumber, writeEdits)] }

def tryInstall (s : System) (job : FlushJob) (writeEdits : Bool) : System :=
  let marked := s.install job writeEdits
  -- some other thread is already committing
  if marked.list.commitInProgress then marked
  else
    let committing : System := { marked with list := { marked.list with commitInProgress := true } }
    if writeEdits then committing.commitRound
    else committing.commitUnlogged (committing.list.memlist.length + 1)

def manifestWriteCb (s : System) (ok : Bool) : System :=
  match s.commit with
  | some (.logAndApply numMemToFlush edits) =>
    { s with
      list := s.list.removeMemTablesOrRestoreFlags ok numMemToFlush
      commit := some (.applied ok)
      left := if ok then s.left ++ s.list.memlist.take numMemToFlush else s.left
      manifest := if ok then s.manifest ++ [edits] else s.manifest }
  | _ => s

def logAndApplyReturns (s : System) : System :=
  match s.commit with
  | some (.applied true) => s.commitRound
  | some (.applied false) => { s with list := { s.list with commitInProgress := false }, commit := none }
  | _ => s

def step (s : System) : Call → System
  | .add id => s.add id
  | .pickMemTable maxMemtableId fileNumber => s.pickMemTable maxMemtableId fileNumber
  | .rollback job succeeding => s.rollback job succeeding
  | .tryInstall job writeEdits => s.tryInstall job writeEdits
  | .manifestWriteCb ok => s.manifestWriteCb ok
  | .logAndApplyReturns => s.logAndApplyReturns

end System

end VcompModel.Flush
