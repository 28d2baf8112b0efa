import Mathlib.Data.List.SplitBy
import Vcomp.Foundation.SortBy
import Vcomp.Foundation.WorkerPool
import Vcomp.Materialize.FileLoop

namespace VcompModel

open SharedWords SortBy

def taskBefore (a b : SSTTask) : Bool :=
  if a.level ≠ b.level then a.level < b.level
  else if a.vsst.keyMin ≠ b.vsst.keyMin then a.vsst.keyMin < b.vsst.keyMin
  else if a.vsst.keyMax ≠ b.vsst.keyMax then a.vsst.keyMax < b.vsst.keyMax
  else a.realFnum < b.realFnum

def taskOrder (tasks : List SSTTask) : List SSTTask := sortBy taskBefore tasks

def SSTTask.startAfter (task : SSTTask) (prevKeyMax : ℕ) : SSTTask :=
  { task with
    materializeKeyMin :=
      if task.materializeKeyMin ≤ prevKeyMax then if prevKeyMax = uint64Max then uint64Max else prevKeyMax + 1
      else task.materializeKeyMin }

/-- Makes the ranges of a sorted level half-open; `current` is `none` for the level -1. -/
def halfOpenRanges : (current : Option ℕ) → (prevKeyMax : ℕ) → List SSTTask → List SSTTask
  | _, _, [] => []
  | current, prevKeyMax, task :: rest =>
    if task.level = 0 ∨ current ≠ some task.level then
      task :: halfOpenRanges (some task.level) task.materializeKeyMax rest
    else task.startAfter prevKeyMax :: halfOpenRanges current (max prevKeyMax task.materializeKeyMax) rest

def newTask (virtualFnum realFnum level : ℕ) (vsst : VirtualSST) : SSTTask :=
  ⟨virtualFnum, realFnum, level, vsst.keyMin, vsst.keyMax, vsst⟩

def levelGroups (tasks : List SSTTask) : List (List SSTTask) := tasks.splitBy fun a b => a.level == b.level

def groupWorkers (numWorkers : ℕ) (group : List SSTTask) : ℕ :=
  if group.head?.map (·.level) = some 0 then 1 else min numWorkers group.length

/-- The groups of Phase 2a: a level at a time, the deepest first only for unique keys. -/
def phaseGroups (cfg : MaterializeConfig) (deepFirst : Bool) (tasks : List SSTTask) : List (List SSTTask) :=
  if deepFirst ∧ cfg.selection = .unique then (levelGroups tasks).reverse else levelGroups tasks

def workerGroup (cfg : MaterializeConfig) (requestedWorkers taskCount : ℕ) (group : List SSTTask) :
    Group 64 (BitArray × ℕ) SSTResult :=
  ⟨groupWorkers (min (max 1 requestedWorkers) taskCount) group, group.map (materializeFile cfg)⟩

def materializePhase (cfg : MaterializeConfig) (requestedWorkers : ℕ) (deepFirst : Bool) (tasks : List SSTTask)
    (memory : BitMemory) : Pool 64 (BitArray × ℕ) SSTResult :=
  .start memory ((phaseGroups cfg deepFirst tasks).map (workerGroup cfg requestedWorkers tasks.length))

end VcompModel
