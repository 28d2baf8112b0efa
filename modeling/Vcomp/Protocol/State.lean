import Vcomp.Sst.Compaction

namespace VcompModel

structure VersionFile where
  cf : ℕ
  number : ℕ
  level : ℕ
  size : ℕ
  virtual : Bool
  deriving DecidableEq, Repr

structure VirtualL0WindowFile where
  fileNumber : ℕ
  vsst : VirtualSST
  fileSize : ℕ
  epochNumber : ℕ
  deriving DecidableEq, Repr

/-- A picked compaction. The inputs carry the levels they were picked from. -/
structure Compaction where
  cf : ℕ
  inputs : List VersionFile
  outputLevel : ℕ
  grandparents : List (ℕ × ℕ)
  deriving DecidableEq, Repr, Inhabited

/-- `VirtualCompactionCommitRequest`; `deletes` and `adds` are its `VersionEdit`. -/
structure CommitRequest where
  compaction : Compaction
  deletes : List VersionFile
  adds : List VersionFile
  pendingOutputs : List (ℕ × VirtualSST)
  inputFileNumbers : List ℕ
  movedVirtuals : Option (List (ℕ × VirtualSST))
  l0InputFiles : ℕ
  l0InputBytes : ℕ
  l0OutputFiles : ℕ
  l0OutputBytes : ℕ
  compactionReleased : Bool := false
  status : Status := .ok
  done : Bool := false
  deriving Inhabited

structure ProtocolConfig where
  env : KMVEnv
  registry : RegistryConfig
  targetVisibleBytes : ℕ
  maxRegisterBatchFiles : ℕ
  backpressure : Bool
  commitBatchMax : ℕ
  commitDelayUs : ℕ

inductive RefillCaller where
  | user
  | leader (own : ℕ) (batch commitBatch : List ℕ)
  deriving DecidableEq, Repr

structure RefillLocals where
  targetBytes : ℕ
  trickled : Bool
  deriving DecidableEq, Repr

/-- `own` is the caller's request; a `Logged` point lies between the end of `LogAndApply` and the return from it. -/
inductive Pc where
  | idle
  | refillEntry (caller : RefillCaller)
  | refillLoop (caller : RefillCaller) (locals : RefillLocals)
  | refillLog (caller : RefillCaller) (locals : RefillLocals) (batch : List VirtualL0WindowFile)
  | refillLogged (caller : RefillCaller) (locals : RefillLocals) (batch : List VirtualL0WindowFile) (ok : Bool)
  | picked (c : Compaction) (trivialMove : Bool)
  | merging (c : Compaction) (inputs : List VirtualSST)
  | commitEntered (own : ℕ)
  | waiting (own : ℕ)
  | leaderLoop (own : ℕ)
  | leaderSleep (own : ℕ)
  | leaderBatch (own : ℕ)
  | leaderLog (own : ℕ) (batch commitBatch : List ℕ)
  | leaderLogged (own : ℕ) (batch commitBatch : List ℕ) (ok : Bool)
  | leaderMark (own : ℕ) (batch commitBatch : List ℕ) (status : Status)
  | commitReturn (own : ℕ)

/-- `owner` holds the DB mutex. The last five fields are history: numbers that left the Versions, the largest file
enqueued, and requests taken, logged and released in order. -/
structure State (n : ℕ) where
  owner : Option (Fin n)
  pc : Fin n → Pc
  files : List VersionFile
  registry : ℕ → Option VirtualSST
  nextFile : ℕ
  reserved : List ℕ
  pending : List VirtualL0WindowFile
  visibleFiles : ℕ
  visibleBytes : ℕ
  beingCompacted : ℕ → Bool
  queue : List ℕ
  inProgress : Bool
  requests : ℕ → CommitRequest
  nextRequest : ℕ
  removed : List ℕ
  largestEnqueued : ℕ
  popped : List ℕ
  logged : List ℕ
  releases : List ℕ

variable {n : ℕ}

def State.setPc (s : State n) (t : Fin n) (pc : Pc) : State n := { s with pc := Function.update s.pc t pc }

def State.located (s : State n) (cf number : ℕ) : Bool :=
  s.files.any fun file => file.cf = cf && file.number = number

def State.onDisk (s : State n) (number : ℕ) : Bool :=
  s.files.any fun file => file.number = number && !file.virtual

def registerAll (registry : ℕ → Option VirtualSST) (entries : List (ℕ × VirtualSST)) : ℕ → Option VirtualSST :=
  entries.foldl (fun registry entry => Function.update registry entry.1 (some entry.2)) registry

def removeAll (registry : ℕ → Option VirtualSST) (numbers : List ℕ) : ℕ → Option VirtualSST :=
  numbers.foldl (fun registry number => Function.update registry number none) registry

def VirtualL0WindowFile.versionFile (file : VirtualL0WindowFile) : VersionFile :=
  ⟨0, file.fileNumber, 0, file.fileSize, true⟩

def takeBatch (remaining batchCap : ℕ) :
    (size bytes : ℕ) → List VirtualL0WindowFile → List VirtualL0WindowFile × List VirtualL0WindowFile
  | _, _, [] => ([], [])
  | size, bytes, file :: rest =>
    if size < batchCap then
      if size ≠ 0 ∧ bytes + file.fileSize > remaining then ([], file :: rest)
      else if bytes + file.fileSize ≥ remaining then ([file], rest)
      else
        let (batch, left) := takeBatch remaining batchCap (size + 1) (bytes + file.fileSize) rest
        (file :: batch, left)
    else ([], file :: rest)

def State.accountVirtualL0Compaction (s : State n) (r : CommitRequest) : State n :=
  { s with
    visibleFiles := (if r.l0InputFiles > s.visibleFiles then 0 else s.visibleFiles - r.l0InputFiles) + r.l0OutputFiles
    visibleBytes := (if r.l0InputBytes > s.visibleBytes then 0 else s.visibleBytes - r.l0InputBytes) + r.l0OutputBytes }

def State.releaseCompaction (s : State n) (c : Compaction) : State n :=
  { s with beingCompacted := fun number => s.beingCompacted number && !(c.inputs.any (·.number = number)) }

/-- `release_request` over distinct requests: those not released yet are. -/
def State.releaseRequests (s : State n) (ids : List ℕ) : State n :=
  let unreleased := ids.filter fun id => !(s.requests id).compactionReleased
  { s with
    requests := fun id =>
      if id ∈ unreleased then { s.requests id with compactionReleased := true } else s.requests id
    beingCompacted := fun number => s.beingCompacted number &&
      !(unreleased.any fun id => (s.requests id).compaction.inputs.any (·.number = number))
    releases := s.releases ++ unreleased }

def State.markDone (s : State n) (ids : List ℕ) (status : Status) : State n :=
  { s with requests := fun id => if id ∈ ids then { s.requests id with status := status, done := true } else s.requests id }

def State.finishRefill (s : State n) (t : Fin n) (status : Status) : RefillCaller → State n
  | .user => { s with owner := none }.setPc t .idle
  | .leader own batch commitBatch => s.setPc t (.leaderMark own batch commitBatch status)

/-- Push a request; its id is its position in the queue's history. -/
def State.pushRequest (s : State n) (t : Fin n) (r : CommitRequest) : State n :=
  { s with
    owner := some t
    requests := Function.update s.requests s.nextRequest r
    queue := s.queue ++ [s.nextRequest]
    nextRequest := s.nextRequest + 1 }.setPc t (.commitEntered s.nextRequest)

def State.installRequest (s : State n) (id : ℕ) : State n :=
  let r := s.requests id
  let left := s.files.filter fun file => !(r.deletes.any fun d => d.level = file.level && d.number = file.number)
  match r.movedVirtuals with
  | some moved => { s with files := left ++ r.adds, registry := registerAll s.registry moved }
  | none =>
    { s with
      files := left ++ r.adds
      registry := removeAll (registerAll s.registry r.pendingOutputs) r.inputFileNumbers
      removed := s.removed ++ r.inputFileNumbers }

end VcompModel
