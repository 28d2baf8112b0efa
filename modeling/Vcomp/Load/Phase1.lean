import Vcomp.Foundation.RadixSort
import Vcomp.Materialize.KeyBitmap
import Vcomp.Protocol.State

namespace VcompModel

open SharedWords

/-- A synthetic load with exact membership; the bitmap's domain is the key domain. -/
structure LoadConfig where
  map : KeyBitmap
  numOps : ℕ
  capacity : ℕ
  shards : ℕ
  fileBase : ℕ
  registerBatchMax : ℕ
  errorBound : ℚ
  env : KMVEnv
  sizeModel : SSTSizeModel

def LoadConfig.totalFlushes (cfg : LoadConfig) : ℕ := (cfg.numOps + cfg.capacity - 1) / cfg.capacity

section

variable {σ : Type} (next : σ → ℕ × σ) (domain : ℕ)

def drawKey (rng : σ) : ℕ × σ :=
  let (_, rng) := next rng
  let (v, rng) := next rng
  (v % domain, rng)

def drawKeys : ℕ → σ → List ℕ × σ
  | 0, rng => ([], rng)
  | n + 1, rng =>
    let (k, rng) := drawKey next domain rng
    let (keys, rng) := drawKeys n rng
    (k :: keys, rng)

end

def byteCount : (fuel maxVal : ℕ) → ℕ
  | 0, _ => 0
  | fuel + 1, maxVal => if maxVal > 0 then byteCount fuel (maxVal >>> 8) + 1 else 0

def radixPasses (domain : ℕ) : ℕ := if byteCount domain domain = 0 then 1 else byteCount domain domain

def resize (n : ℕ) (l : List ℕ) : List ℕ := l.take n ++ List.replicate (n - l.length) 0

def pendingFile (cfg : LoadConfig) (number epoch : ℕ) (keys : List ℕ) : VirtualL0WindowFile :=
  let sizeBytes := cfg.sizeModel.estimate keys.length
  ⟨number, ⟨greedyPLRFit keys cfg.errorBound, buildKMVRangeSketchesFromSortedKeys cfg.env keys 0 0, keys.headD 0,
    keys.getLastD 0, keys.length, sizeBytes⟩, sizeBytes, epoch⟩

/-- The files to hand over, the calls of `EnqueueVirtualL0Files`, and whether one failed. -/
structure L0Enqueue where
  pending : List VirtualL0WindowFile := []
  calls : List (List VirtualL0WindowFile) := []
  failed : Bool := false
  deriving DecidableEq

/-- `flush_l0_window_enqueue_batch`; `accepts` says whether the last of the calls returns OK. -/
def L0Enqueue.flush (accepts : List (List VirtualL0WindowFile) → Bool) (e : L0Enqueue) : L0Enqueue :=
  if e.pending = [] then e
  else
    let calls := e.calls ++ [e.pending]
    { pending := [], calls := calls, failed := e.failed || !accepts calls }

def L0Enqueue.push (cfg : LoadConfig) (accepts : List (List VirtualL0WindowFile) → Bool) (e : L0Enqueue)
    (file : VirtualL0WindowFile) : L0Enqueue :=
  let e := { e with pending := e.pending ++ [file] }
  if e.pending.length ≥ max 1 cfg.registerBatchMax then e.flush accepts else e

def L0Enqueue.finish (accepts : List (List VirtualL0WindowFile) → Bool) (e : L0Enqueue) : L0Enqueue :=
  if e.failed then e else e.flush accepts

variable {σ : Type} (cfg : LoadConfig) (next : σ → ℕ × σ) (accepts : List (List VirtualL0WindowFile) → Bool)

structure SerialLoad (σ : Type) where
  rng : σ
  memtable : List ℕ
  radixTmp : List ℕ
  nextFile : ℕ
  nextEpoch : ℕ
  enqueue : L0Enqueue
  bits : BitMemory

def doFlush (s : SerialLoad σ) : SerialLoad σ :=
  let (sorted, radixTmp) := RadixSort.sort (radixPasses cfg.map.keyDomain) s.memtable (resize s.memtable.length s.radixTmp)
  let keys := sorted.destutter (· ≠ ·)
  { s with
    memtable := []
    radixTmp := radixTmp
    nextFile := s.nextFile + 1
    nextEpoch := s.nextEpoch + 1
    enqueue := s.enqueue.push cfg accepts (pendingFile cfg s.nextFile s.nextEpoch keys) }

def serialOp (s : SerialLoad σ) : SerialLoad σ :=
  let (key, rng) := drawKey next cfg.map.keyDomain s.rng
  let s := { s with
    rng := rng
    memtable := s.memtable ++ [key]
    bits := ((cfg.map.mark key).run s.bits).2 }
  if s.memtable.length ≥ cfg.capacity then doFlush cfg accepts s else s

def serialLoop : ℕ → SerialLoad σ → SerialLoad σ
  | 0, s => s
  | n + 1, s => if s.enqueue.failed then s else serialLoop n (serialOp cfg next accepts s)

def serialLoad (seed : σ) : SerialLoad σ :=
  let s := serialLoop cfg next accepts cfg.numOps ⟨seed, [], [], cfg.fileBase, 1, {}, fun _ => 0⟩
  let s := if !s.enqueue.failed ∧ s.memtable ≠ [] then doFlush cfg accepts s else s
  { s with enqueue := s.enqueue.finish accepts }

/-- An async `process_synthetic_batch`: before the sort, with `marked` keys marked, or with its result. -/
inductive BatchWorker where
  | sorting (batchId : ℕ) (supplied : List ℕ)
  | marking (batchId : ℕ) (keys : List ℕ) (marked : ℕ)
  | ready (keys : List ℕ) (file : VirtualL0WindowFile)

def BatchWorker.isReady : BatchWorker → Bool
  | .ready _ _ => true
  | _ => false

def BatchWorker.step (bits : BitMemory) : BatchWorker → Option (BatchWorker × BitMemory)
  | .sorting batchId supplied =>
    let (sorted, _) := RadixSort.sort (radixPasses cfg.map.keyDomain) supplied (resize supplied.length [])
    some (.marking batchId (sorted.destutter (· ≠ ·)) 0, bits)
  | .marking batchId keys marked =>
    match keys[marked]? with
    | some key => some (.marking batchId keys (marked + 1), ((cfg.map.mark key).run bits).2)
    | none => some (.ready keys (pendingFile cfg (cfg.fileBase + batchId) (batchId + 1) keys), bits)
  | .ready _ _ => none

/-- In the batch loop, at a full `in_flight`, emptying it, at its destruction, at the end of the keys, or through. -/
inductive ConsumerPc where
  | launching
  | draining
  | tail
  | joining
  | joined
  | ended
  deriving DecidableEq

/-- The producer's locals and queue, the consumer's, the workers in `in_flight` and the bits. -/
structure ShardedLoad (σ : Type) where
  rng : σ
  drawn : ℕ
  chunk : Option (List ℕ)
  queue : List (List ℕ)
  finished : Bool
  stop : Bool
  pc : ConsumerPc
  batchId : ℕ
  inFlight : List BatchWorker
  enqueue : L0Enqueue
  bits : BitMemory

def shardedStart (seed : σ) : ShardedLoad σ :=
  ⟨seed, 0, none, [], false, false, .launching, 0, [], {}, fun _ => 0⟩

inductive LoadAction where
  | draw
  | push
  | producerStop
  | producerEnd
  | launch
  | streamEnd
  | loopEnd
  | drain
  | tailEnd
  | join
  | finish
  | work (i : ℕ)

def streamDepth : ℕ := max 1 (2 * max 1 cfg.shards)

def loadStep (s : ShardedLoad σ) : LoadAction → Option (ShardedLoad σ)
  | .draw =>
    if s.chunk = none ∧ s.finished = false ∧ s.drawn < cfg.numOps then
      let n := min (max 1 cfg.capacity) (cfg.numOps - s.drawn)
      let (keys, rng) := drawKeys next cfg.map.keyDomain n s.rng
      some { s with rng := rng, drawn := s.drawn + n, chunk := some keys }
    else none
  | .push =>
    match s.chunk with
    | some keys =>
      if s.queue.length < streamDepth cfg ∧ s.stop = false then
        some { s with queue := s.queue ++ [keys], chunk := none }
      else none
    | none => none
  | .producerStop =>
    if s.chunk ≠ none ∧ s.stop = true then some { s with chunk := none, finished := true } else none
  | .producerEnd =>
    if s.chunk = none ∧ s.finished = false ∧ s.drawn ≥ cfg.numOps then some { s with finished := true } else none
  | .launch =>
    match s.queue with
    | keys :: queue =>
      if s.pc = .launching ∧ s.enqueue.failed = false ∧ s.batchId < cfg.totalFlushes then
        let inFlight := s.inFlight ++ [.sorting s.batchId keys]
        some { s with
          queue := queue
          inFlight := inFlight
          batchId := s.batchId + 1
          pc := if inFlight.length ≥ max 1 cfg.shards then .draining else .launching }
      else none
    | [] => none
  | .streamEnd =>
    if s.pc = .launching ∧ s.enqueue.failed = false ∧ s.batchId < cfg.totalFlushes ∧ s.queue = [] ∧ s.finished = true then
      some { s with pc := .tail }
    else none
  | .loopEnd =>
    if s.pc = .launching ∧ (s.enqueue.failed = true ∨ s.batchId ≥ cfg.totalFlushes) then some { s with pc := .tail }
    else none
  | .drain =>
    match s.inFlight with
    | .ready _ file :: rest =>
      if s.pc = .draining ∨ s.pc = .tail ∧ s.enqueue.failed = false then
        some { s with
          inFlight := rest
          enqueue := s.enqueue.push cfg accepts file
          pc := if s.pc = .draining then .launching else .tail }
      else none
    | _ => none
  | .tailEnd =>
    if s.pc = .tail ∧ (s.enqueue.failed = true ∨ s.inFlight.isEmpty) then some { s with pc := .joining } else none
  | .join =>
    if s.pc = .joining ∧ s.inFlight.all (·.isReady) then some { s with inFlight := [], stop := true, pc := .joined }
    else none
  | .finish =>
    if s.pc = .joined ∧ s.finished = true then some { s with enqueue := s.enqueue.finish accepts, pc := .ended } else none
  | .work i =>
    match s.inFlight[i]? with
    | some worker =>
      match worker.step cfg s.bits with
      | some (worker, bits) => some { s with inFlight := s.inFlight.set i worker, bits := bits }
      | none => none
    | none => none

/-- Phase 1 with several shards: any thread takes its next action. -/
def LoadStep (s s' : ShardedLoad σ) : Prop := ∃ action, loadStep cfg next accepts s action = some s'

end VcompModel
