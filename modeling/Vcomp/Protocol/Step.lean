import Vcomp.Foundation.Transition
import Vcomp.Protocol.State

namespace VcompModel

variable {n : ℕ}

/-- The gather loop of `RunVirtualCompaction`: the handles, or its early status (`ok` for a stale input). -/
def State.gatherInputs (s : State n) (cf : ℕ) : List VersionFile → Except Status (List VirtualSST)
  | [] => .ok []
  | file :: rest =>
    match s.registry file.number with
    | some handle => (s.gatherInputs cf rest).map (handle :: ·)
    | none =>
      if !s.located cf file.number then .error .ok
      else if !s.onDisk file.number then .error (.corruption "current virtual SST missing from registry")
      else .error (.notSupported "mixed physical/virtual compaction input")

/-- The gather loop of `PerformTrivialMove`: virtual inputs, and whether one is physical. -/
def State.gatherMoved (s : State n) (cf : ℕ) : List VersionFile → Except Status (List (ℕ × VirtualSST) × Bool)
  | [] => .ok ([], false)
  | file :: rest =>
    match s.registry file.number with
    | some handle => (s.gatherMoved cf rest).map fun (moved, physical) => ((file.number, handle) :: moved, physical)
    | none =>
      if !s.onDisk file.number then
        .error (if s.located cf file.number then
          .corruption "current virtual trivial-move input missing from registry" else .ok)
      else (s.gatherMoved cf rest).map fun (moved, _) => (moved, true)

def Compaction.movedInputs (c : Compaction) : List VersionFile := c.inputs.filter (·.level ≠ c.outputLevel)

def numberOutputs (nextFile : ℕ) (outputs : List VirtualSST) : List (ℕ × VirtualSST) :=
  (List.range' nextFile outputs.length).zip outputs

def l0Files (files : List VersionFile) : ℕ := (files.filter (·.level = 0)).length
def l0Bytes (files : List VersionFile) : ℕ := ((files.filter (·.level = 0)).map (·.size)).sum

def Compaction.commitRequest (c : Compaction) (outputs : List (ℕ × VirtualSST)) : CommitRequest where
  compaction := c
  deletes := c.inputs
  adds := outputs.map fun (number, vsst) => ⟨c.cf, number, c.outputLevel, vsst.sizeBytes, true⟩
  pendingOutputs := outputs
  inputFileNumbers := c.inputs.map (·.number)
  movedVirtuals := none
  l0InputFiles := l0Files c.inputs
  l0InputBytes := l0Bytes c.inputs
  l0OutputFiles := if c.outputLevel = 0 then outputs.length else 0
  l0OutputBytes := if c.outputLevel = 0 then (outputs.map (·.2.sizeBytes)).sum else 0

def Compaction.moveRequest (c : Compaction) (moved : List (ℕ × VirtualSST)) : CommitRequest where
  compaction := c
  deletes := c.movedInputs
  adds := c.movedInputs.map fun file => { file with level := c.outputLevel }
  pendingOutputs := []
  inputFileNumbers := moved.map Prod.fst
  movedVirtuals := some moved
  l0InputFiles := l0Files c.movedInputs
  l0InputBytes := l0Bytes c.movedInputs
  l0OutputFiles := if c.outputLevel = 0 then moved.length else 0
  l0OutputBytes := if c.outputLevel = 0 then (c.movedInputs.map (·.size)).sum else 0

/-- Inputs of one column family that no other compaction holds; a stale one has left the Version. -/
structure CanPick (s : State n) (c : Compaction) : Prop where
  distinct : (c.inputs.map (·.number)).Nodup
  sameCf : ∀ file ∈ c.inputs, file.cf = c.cf
  free : ∀ file ∈ c.inputs, s.beingCompacted file.number = false
  known : ∀ file ∈ c.inputs, file ∈ s.files ∨ file.number ∈ s.removed

def State.current (s : State n) (id : ℕ) : Bool :=
  (s.requests id).inputFileNumbers.all (s.located (s.requests id).compaction.cf)

def State.commitRun (s : State n) (cfg : ProtocolConfig) : List ℕ :=
  match s.queue with
  | [] => []
  | front :: _ => (s.queue.take (max 1 cfg.commitBatchMax)).takeWhile fun id =>
      (s.requests id).compaction.cf = (s.requests front).compaction.cf

def State.delays (s : State n) (cfg : ProtocolConfig) : Bool :=
  cfg.commitDelayUs > 0 && s.queue.length < max 1 cfg.commitBatchMax

inductive Event (n : ℕ) where
  | reserve (count : ℕ)
  | enqueue (t : Fin n) (files : List VirtualL0WindowFile)
  | refillWindow (t : Fin n)
  | refillEntry (t : Fin n)
  | refillStop (t : Fin n)
  | refillBatch (t : Fin n) (trickle : Bool)
  | refillLogAndApply (t : Fin n) (ok : Bool)
  | refillReturn (t : Fin n)
  | pick (t : Fin n) (c : Compaction) (trivialMove : Bool)
  | gather (t : Fin n)
  | merge (t : Fin n)
  | commitEnter (t : Fin n)
  | wake (t : Fin n)
  | leaderLoop (t : Fin n)
  | leaderAwake (t : Fin n)
  | leaderTake (t : Fin n)
  | leaderLogAndApply (t : Fin n) (ok callback : Bool)
  | leaderReturn (t : Fin n)
  | leaderMark (t : Fin n)
  | commitReturn (t : Fin n)

/-- Whether a call begins here, rather than goes on. -/
def Event.begins : Event n → Bool
  | .reserve _ | .enqueue _ _ | .refillWindow _ | .pick _ _ _ => true
  | _ => false

def State.takeCommitBatch (s : State n) (cfg : ProtocolConfig) : State n :=
  let batch := s.commitRun cfg
  let stale := batch.filter fun id => !s.current id
  let taken := { s with queue := s.queue.drop batch.length, popped := s.popped ++ batch }
  (taken.releaseRequests stale).markDone stale .ok

def State.finishBatch (s : State n) (batch commitBatch : List ℕ) (status : Status) : State n :=
  let s := (s.releaseRequests commitBatch).markDone commitBatch status
  let leftover := batch.filter fun id => !(s.requests id).done
  (s.releaseRequests leftover).markDone leftover .ok

/-- What a thread does between points where the mutex can change hands. `LogAndApply` is three steps: the call, the
atomic outcome with the callback, and the return. -/
inductive Step (cfg : ProtocolConfig) (s : State n) : Event n → State n → Prop where
  | reserve (count : ℕ) :
      Step cfg s (.reserve count)
        { s with nextFile := s.nextFile + count, reserved := s.reserved ++ List.range' s.nextFile count }
  | enqueue (t : Fin n) (files : List VirtualL0WindowFile) (free : s.owner = none) (pc : s.pc t = .idle)
      (nonempty : files ≠ []) (distinct : (files.map (·.fileNumber)).Nodup)
      (owned : ∀ file ∈ files, file.fileNumber ∈ s.reserved) :
      Step cfg s (.enqueue t files)
        (State.setPc { s with
          owner := some t
          pending := s.pending ++ files
          reserved := s.reserved.filter fun number => !(files.any (·.fileNumber = number))
          largestEnqueued := files.foldl (fun largest file => max largest file.fileSize) s.largestEnqueued }
          t (.refillEntry .user))
  | refillWindow (t : Fin n) (free : s.owner = none) (pc : s.pc t = .idle) :
      Step cfg s (.refillWindow t) ({ s with owner := some t }.setPc t (.refillEntry .user))
  | refillNothing (t : Fin n) (caller : RefillCaller) (pc : s.pc t = .refillEntry caller)
      (empty : s.pending = []) :
      Step cfg s (.refillEntry t) (s.finishRefill t .ok caller)
  | refillStart (t : Fin n) (caller : RefillCaller) (front : VirtualL0WindowFile)
      (rest : List VirtualL0WindowFile) (pc : s.pc t = .refillEntry caller) (queued : s.pending = front :: rest) :
      Step cfg s (.refillEntry t)
        (s.setPc t (.refillLoop caller
          ⟨if cfg.targetVisibleBytes > 0 then cfg.targetVisibleBytes else front.fileSize, false⟩))
  /-- The loop condition fails, or the pressure is `kStop`. -/
  | refillStop (t : Fin n) (caller : RefillCaller) (locals : RefillLocals) (pc : s.pc t = .refillLoop caller locals)
      (stop : s.pending = [] ∨ s.visibleBytes ≥ locals.targetBytes ∨ locals.trickled = true ∨
        cfg.backpressure = true) :
      Step cfg s (.refillStop t) (s.finishRefill t .ok caller)
  /-- One round up to `LogAndApply`; `trickle` is the pressure `kSlowdown`. -/
  | refillBatch (t : Fin n) (caller : RefillCaller) (locals : RefillLocals) (trickle : Bool)
      (batch left : List VirtualL0WindowFile) (pc : s.pc t = .refillLoop caller locals)
      (room : s.visibleBytes < locals.targetBytes) (fresh : locals.trickled = false)
      (pressure : trickle = true → cfg.backpressure = true)
      (taken : takeBatch (locals.targetBytes - s.visibleBytes)
        (if trickle then 1 else max 1 cfg.maxRegisterBatchFiles) 0 0 s.pending = (batch, left))
      (nonempty : batch ≠ []) :
      Step cfg s (.refillBatch t trickle)
        (State.setPc { s with
          owner := none
          pending := left
          registry := registerAll s.registry (batch.map fun file => (file.fileNumber, file.vsst)) }
          t (.refillLog caller { locals with trickled := trickle } batch))
  | refillInstall (t : Fin n) (caller : RefillCaller) (locals : RefillLocals) (batch : List VirtualL0WindowFile)
      (free : s.owner = none) (pc : s.pc t = .refillLog caller locals batch) :
      Step cfg s (.refillLogAndApply t true)
        (State.setPc { s with files := s.files ++ batch.map (·.versionFile) }
          t (.refillLogged caller locals batch true))
  | refillFail (t : Fin n) (caller : RefillCaller) (locals : RefillLocals) (batch : List VirtualL0WindowFile)
      (free : s.owner = none) (pc : s.pc t = .refillLog caller locals batch) :
      Step cfg s (.refillLogAndApply t false) (s.setPc t (.refillLogged caller locals batch false))
  | refillCount (t : Fin n) (caller : RefillCaller) (locals : RefillLocals) (batch : List VirtualL0WindowFile)
      (free : s.owner = none) (pc : s.pc t = .refillLogged caller locals batch true) :
      Step cfg s (.refillReturn t)
        (State.setPc { s with
          owner := some t
          visibleFiles := s.visibleFiles + batch.length
          visibleBytes := s.visibleBytes + (batch.map (·.fileSize)).sum } t (.refillLoop caller locals))
  | refillUndo (t : Fin n) (caller : RefillCaller) (locals : RefillLocals) (batch : List VirtualL0WindowFile)
      (free : s.owner = none) (pc : s.pc t = .refillLogged caller locals batch false) :
      Step cfg s (.refillReturn t)
        (State.finishRefill { s with
          owner := some t
          registry := removeAll s.registry (batch.map (·.fileNumber)) } t .ioError caller)
  | pick (t : Fin n) (c : Compaction) (trivialMove : Bool) (free : s.owner = none) (pc : s.pc t = .idle)
      (allowed : CanPick s c) :
      Step cfg s (.pick t c trivialMove)
        (State.setPc
          { s with beingCompacted := fun number => s.beingCompacted number || c.inputs.any (·.number = number) }
          t (.picked c trivialMove))
  /-- A stale, corrupt, mixed or empty input set ends `RunVirtualCompaction`. -/
  | gatherEnd (t : Fin n) (c : Compaction) (free : s.owner = none) (pc : s.pc t = .picked c false)
      (ended : ∀ handles, s.gatherInputs c.cf c.inputs = .ok handles → handles = []) :
      Step cfg s (.gather t) ((s.releaseCompaction c).setPc t .idle)
  | gather (t : Fin n) (c : Compaction) (handles : List VirtualSST) (free : s.owner = none)
      (pc : s.pc t = .picked c false) (found : s.gatherInputs c.cf c.inputs = .ok handles)
      (nonempty : handles ≠ []) :
      Step cfg s (.gather t) (s.setPc t (.merging c handles))
  | moveEnd (t : Fin n) (c : Compaction) (free : s.owner = none) (pc : s.pc t = .picked c true)
      (ended : ∀ moved, s.gatherMoved c.cf c.movedInputs = .ok (moved, false) → moved = []) :
      Step cfg s (.gather t) ((s.releaseCompaction c).setPc t .idle)
  | move (t : Fin n) (c : Compaction) (moved : List (ℕ × VirtualSST)) (free : s.owner = none)
      (pc : s.pc t = .picked c true) (found : s.gatherMoved c.cf c.movedInputs = .ok (moved, false))
      (nonempty : moved ≠ []) :
      Step cfg s (.gather t) (s.pushRequest t (c.moveRequest moved))
  | mergeFail (t : Fin n) (c : Compaction) (handles : List VirtualSST) (status : Status) (free : s.owner = none)
      (pc : s.pc t = .merging c handles)
      (failed : compactionOutputs cfg.env cfg.registry c.outputLevel c.grandparents handles = .error status) :
      Step cfg s (.merge t) ((s.releaseCompaction c).setPc t .idle)
  | merge (t : Fin n) (c : Compaction) (handles outputs : List VirtualSST) (free : s.owner = none)
      (pc : s.pc t = .merging c handles)
      (merged : compactionOutputs cfg.env cfg.registry c.outputLevel c.grandparents handles = .ok outputs) :
      Step cfg s (.merge t)
        ({ s with nextFile := s.nextFile + outputs.length }.pushRequest t
          (c.commitRequest (numberOutputs s.nextFile outputs)))
  | commitWait (t : Fin n) (own : ℕ) (pc : s.pc t = .commitEntered own) (busy : s.inProgress = true) :
      Step cfg s (.commitEnter t) ({ s with owner := none }.setPc t (.waiting own))
  | commitLead (t : Fin n) (own : ℕ) (pc : s.pc t = .commitEntered own) (none : s.inProgress = false) :
      Step cfg s (.commitEnter t) ({ s with inProgress := true }.setPc t (.leaderLoop own))
  | wake (t : Fin n) (own : ℕ) (free : s.owner = none) (pc : s.pc t = .waiting own)
      (done : (s.requests own).done = true) :
      Step cfg s (.wake t) ({ s with owner := some t }.setPc t (.commitReturn own))
  | leaderExit (t : Fin n) (own : ℕ) (pc : s.pc t = .leaderLoop own) (empty : s.queue = []) :
      Step cfg s (.leaderLoop t) ({ s with inProgress := false }.setPc t (.commitReturn own))
  | leaderDelay (t : Fin n) (own : ℕ) (pc : s.pc t = .leaderLoop own) (nonempty : s.queue ≠ [])
      (delay : s.delays cfg = true) :
      Step cfg s (.leaderLoop t) ({ s with owner := none }.setPc t (.leaderSleep own))
  | leaderProceed (t : Fin n) (own : ℕ) (pc : s.pc t = .leaderLoop own) (nonempty : s.queue ≠ [])
      (noDelay : s.delays cfg = false) :
      Step cfg s (.leaderLoop t) (s.setPc t (.leaderBatch own))
  | leaderAwake (t : Fin n) (own : ℕ) (free : s.owner = none) (pc : s.pc t = .leaderSleep own) :
      Step cfg s (.leaderAwake t)
        ({ s with owner := some t }.setPc t (if s.queue = [] then .leaderLoop own else .leaderBatch own))
  | leaderStale (t : Fin n) (own : ℕ) (pc : s.pc t = .leaderBatch own)
      (stale : (s.commitRun cfg).filter s.current = []) :
      Step cfg s (.leaderTake t)
        ((s.takeCommitBatch cfg).setPc t (.refillEntry (.leader own (s.commitRun cfg) [])))
  | leaderLog (t : Fin n) (own : ℕ) (pc : s.pc t = .leaderBatch own)
      (edits : (s.commitRun cfg).filter s.current ≠ []) :
      Step cfg s (.leaderTake t)
        (State.setPc { s.takeCommitBatch cfg with
          owner := none
          logged := s.logged ++ (s.commitRun cfg).filter s.current }
          t (.leaderLog own (s.commitRun cfg) ((s.commitRun cfg).filter s.current)))
  | leaderInstall (t : Fin n) (own : ℕ) (batch commitBatch : List ℕ) (free : s.owner = none)
      (pc : s.pc t = .leaderLog own batch commitBatch) :
      Step cfg s (.leaderLogAndApply t true true)
        (((commitBatch.foldl State.installRequest s).releaseRequests commitBatch).setPc t
          (.leaderLogged own batch commitBatch true))
  /-- A failure, which may or may not reach the callback. -/
  | leaderFail (t : Fin n) (own : ℕ) (batch commitBatch : List ℕ) (callback : Bool) (free : s.owner = none)
      (pc : s.pc t = .leaderLog own batch commitBatch) :
      Step cfg s (.leaderLogAndApply t false callback)
        ((if callback then s.releaseRequests commitBatch else s).setPc t (.leaderLogged own batch commitBatch false))
  | leaderAccount (t : Fin n) (own : ℕ) (batch commitBatch : List ℕ) (free : s.owner = none)
      (pc : s.pc t = .leaderLogged own batch commitBatch true) :
      Step cfg s (.leaderReturn t)
        (State.setPc { (commitBatch.map s.requests).foldl State.accountVirtualL0Compaction s with owner := some t }
          t (.refillEntry (.leader own batch commitBatch)))
  | leaderError (t : Fin n) (own : ℕ) (batch commitBatch : List ℕ) (free : s.owner = none)
      (pc : s.pc t = .leaderLogged own batch commitBatch false) :
      Step cfg s (.leaderReturn t) ({ s with owner := some t }.setPc t (.leaderMark own batch commitBatch .ioError))
  | leaderMark (t : Fin n) (own : ℕ) (batch commitBatch : List ℕ) (status : Status)
      (pc : s.pc t = .leaderMark own batch commitBatch status) :
      Step cfg s (.leaderMark t) ((s.finishBatch batch commitBatch status).setPc t (.leaderLoop own))
  /-- The caller releases what the commit did not, and leaves. -/
  | commitReturn (t : Fin n) (own : ℕ) (pc : s.pc t = .commitReturn own) :
      Step cfg s (.commitReturn t) ({ s.releaseRequests [own] with owner := none }.setPc t .idle)

/-- No virtual file in level 0, nothing queued, all idle; deeper virtual files are registered. -/
structure Initial (s : State n) : Prop where
  owner : s.owner = none
  idle : ∀ t, s.pc t = .idle
  distinct : (s.files.map (·.number)).Nodup
  below : ∀ file ∈ s.files, file.number < s.nextFile
  deep : ∀ file ∈ s.files, file.virtual = true → file.level ≠ 0
  registered : ∀ number, (s.registry number).isSome ↔ ∃ file ∈ s.files, file.virtual = true ∧ file.number = number
  reserved : s.reserved = []
  pending : s.pending = []
  visibleFiles : s.visibleFiles = 0
  visibleBytes : s.visibleBytes = 0
  beingCompacted : ∀ number, s.beingCompacted number = false
  queue : s.queue = []
  inProgress : s.inProgress = false
  nextRequest : s.nextRequest = 0
  removed : s.removed = []
  popped : s.popped = []
  logged : s.logged = []
  releases : s.releases = []

/-- States reached by steps that meet a condition on the state before them. -/
abbrev Reached (cfg : ProtocolConfig) (allowed : State n → Event n → Prop) : State n → Prop :=
  Transition.Reachable Initial (Step cfg) allowed

end VcompModel
