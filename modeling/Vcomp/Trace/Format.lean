import Mathlib.Data.Int.Bitwise
import Mathlib.Data.Nat.GCD.Basic
import Vcomp.Foundation.FloatOps
import Vcomp.Foundation.LittleEndian

namespace VcompModel

/-- The floating-point operations the generator uses; `none` is a raised exception. -/
structure FloatArith (F : Type) extends FloatOps F where
  ofInt : ℤ → Option F
  toInt : F → Option ℤ
  round : F → Option ℤ
  sub : F → F → F
  div : F → F → Option F
  floorDiv : F → F → Option F
  abs : F → F
  exp : F → Option F
  log : F → Option F
  pow : F → F → Option F
  le : F → F → Bool
  bits : F → BitVec 64

/-- `random.Random`: the state of a seed, `_randbelow` and `random`. -/
structure RandomSource (σ F : Type) where
  seed : ℤ → σ
  below : ℕ → σ → ℕ × σ
  random : σ → F × σ
  below_lt : ∀ n s, 0 < n → (below n s).1 < n

/-- The parsed command line; `--progress-every` and `--no-sidecar` do not touch the trace. -/
structure TraceArgs (F : Type) where
  num : Option ℤ
  targetDbGb : Option F
  keySize : ℤ
  valueSize : ℤ
  keyDomain : Option ℤ
  uniqueRatio : F
  uniqueCount : Option ℤ
  zipfAlpha : F
  seed : ℤ
  chunkRecords : ℤ
  force : Bool
  output : String

/-- `arithmetic` and `struct` are runtime exceptions, `diverges` a search without end. -/
inductive TraceError where
  | usage (message : String)
  | value (message : String)
  | fileExists (message : String)
  | arithmetic
  | struct
  | diverges
  deriving DecidableEq, Repr

def magic : List UInt8 := [86, 76, 79, 65, 68, 84, 82, 49]
def version : ℕ := 1
def headerSize : ℕ := 88
def flagExactUniqueCount : ℕ := 1 <<< 0
def flagAffineKeyMapping : ℕ := 1 <<< 1

def raised {α : Type} : Option α → Except TraceError α
  | some a => .ok a
  | none => .error .arithmetic

def pack (width : ℕ) (n : ℤ) : Except TraceError (List UInt8) :=
  if 0 ≤ n ∧ n < 256 ^ width then .ok (LittleEndian.encode width n.toNat) else .error .struct

variable {F σ : Type} (fl : FloatArith F) (rng : RandomSource σ F)

def coprimeSearch (modulus : ℕ) : (fuel candidate : ℕ) → Option ℕ
  | 0, _ => none
  | fuel + 1, candidate =>
    if Nat.gcd candidate modulus ≠ 1 then
      coprimeSearch modulus fuel (if candidate + 2 ≥ modulus then 1 else candidate + 2)
    else some candidate

def chooseCoprimeMultiplier (modulus : ℕ) (s : σ) : Except TraceError (ℕ × σ) :=
  if modulus ≤ 1 then .ok (0, s)
  else
    let (drawn, s) := rng.below (modulus - 1) s
    let candidate := 1 + drawn
    let candidate := if candidate % 2 = 0 then candidate + 1 else candidate
    match coprimeSearch modulus modulus candidate with
    | some multiplier => .ok (multiplier, s)
    | none => .error .diverges

def zipfRank (existing : ℕ) (alpha u : F) : Option ℤ :=
  if fl.lt (fl.abs (fl.sub alpha (fl.lit 1))) (fl.lit (1 / 1000000000)) then do
    let exponent ← fl.log (← fl.ofInt existing)
    fl.toInt (← fl.exp (fl.mul u exponent))
  else do
    let oneMinusAlpha := fl.sub (fl.lit 1) alpha
    let high ← fl.pow (← fl.ofInt existing) oneMinusAlpha
    let inverse ← fl.div (fl.lit 1) oneMinusAlpha
    fl.toInt (← fl.pow (fl.add (fl.mul u (fl.sub high (fl.lit 1))) (fl.lit 1)) inverse)

def sampleExistingRank (existing : ℕ) (alpha : F) (s : σ) : Except TraceError (ℕ × σ) :=
  if existing ≤ 1 then .ok (0, s)
  else if fl.le alpha (fl.lit 0) then .ok (rng.below existing s)
  else
    let (u, s) := rng.random s
    (raised (zipfRank fl existing alpha u)).map fun rank : ℤ => ((max 0 (min ((existing : ℤ) - 1) (rank - 1))).toNat, s)

def computeNumRecords (args : TraceArgs F) : Except TraceError ℤ :=
  match args.num, args.targetDbGb with
  | some num, _ => .ok num
  | none, none => .error (.value "either --num or --target-db-gb is required")
  | none, some gb =>
    if args.keySize + args.valueSize ≤ 0 then .error (.value "key_size + value_size must be positive")
    else raised do
      let bytes := fl.mul gb (← fl.ofInt (1024 ^ 3))
      fl.toInt (← fl.floorDiv bytes (← fl.ofInt (args.keySize + args.valueSize)))

def requestedUnique (numRecords : ℤ) (args : TraceArgs F) : Except TraceError ℤ :=
  match args.uniqueCount with
  | some count => .ok count
  | none => raised do fl.round (fl.mul (← fl.ofInt numRecords) args.uniqueRatio)

def computeUniqueCount (numRecords keyDomain : ℤ) (args : TraceArgs F) : Except TraceError ℤ :=
  if numRecords = 0 then .ok 0
  else (requestedUnique fl numRecords args).map fun count => min (min (max 1 count) numRecords) keyDomain

def denseToKeyId (keyDomain multiplier offset denseRank : ℕ) : ℕ :=
  if keyDomain ≤ 1 then 0 else (multiplier * denseRank + offset) % keyDomain

def packHeader (numRecords keyDomain uniqueCount : ℤ) (ratio : F) (args : TraceArgs F) : Except TraceError (List UInt8) := do
  let version ← pack 4 version
  let size ← pack 4 headerSize
  let records ← pack 8 numRecords
  let domain ← pack 8 keyDomain
  let unique ← pack 8 uniqueCount
  let keySize ← pack 4 args.keySize
  let valueSize ← pack 4 args.valueSize
  let seed ← pack 8 args.seed
  let flags ← pack 8 (flagExactUniqueCount ||| flagAffineKeyMapping : ℕ)
  let reserved ← pack 8 0
  let double := fun x : F => LittleEndian.encode 8 (fl.bits x).toNat
  .ok (magic ++ version ++ size ++ records ++ domain ++ unique ++ keySize ++ valueSize ++ double ratio ++
    double args.zipfAlpha ++ seed ++ flags ++ reserved)

structure TraceWriter (σ : Type) where
  rng : σ
  introduced : ℕ
  chunk : List UInt8
  file : List UInt8

def nextRank (uniqueCount remainingOps : ℕ) (alpha : F) (w : TraceWriter σ) : Except TraceError (ℕ × ℕ × σ) :=
  let remainingNew := uniqueCount - w.introduced
  let again := fun s => (sampleExistingRank fl rng w.introduced alpha s).map fun (rank, s) => (rank, w.introduced, s)
  if remainingNew = 0 then again w.rng
  else if remainingNew ≥ remainingOps then .ok (w.introduced, w.introduced + 1, w.rng)
  else if w.introduced = 0 then .ok (w.introduced, w.introduced + 1, w.rng)
  else
    let (u, s) := rng.random w.rng
    match (do fl.div (← fl.ofInt remainingNew) (← fl.ofInt remainingOps)) with
    | none => .error .arithmetic
    | some quota => if fl.lt u quota then .ok (w.introduced, w.introduced + 1, s) else again s

structure TracePlan (F : Type) where
  numRecords : ℕ
  keyDomain : ℕ
  uniqueCount : ℕ
  multiplier : ℕ
  offset : ℕ
  alpha : F
  chunkRecords : ℕ

def writeRecord (plan : TracePlan F) (i : ℕ) (w : TraceWriter σ) : Except TraceError (TraceWriter σ) := do
  let (denseRank, introduced, s) ← nextRank fl rng plan.uniqueCount (plan.numRecords - i) plan.alpha w
  let record ← pack 8 (denseToKeyId plan.keyDomain plan.multiplier plan.offset denseRank)
  let chunk := w.chunk ++ record
  if (i + 1) % plan.chunkRecords = 0 then .ok ⟨s, introduced, [], w.file ++ chunk⟩
  else .ok ⟨s, introduced, chunk, w.file⟩

def writeRecords (plan : TracePlan F) : (i left : ℕ) → TraceWriter σ → Except TraceError (TraceWriter σ)
  | _, 0, w => .ok w
  | i, left + 1, w => do writeRecords plan (i + 1) left (← writeRecord fl rng plan i w)

def effectiveUniqueRatio (uniqueCount numRecords : ℤ) : Except TraceError F :=
  if numRecords = 0 then .ok (fl.lit 0)
  else raised do fl.div (← fl.ofInt uniqueCount) (← fl.ofInt numRecords)

/-- `write_trace`: the bytes of the trace. `outputExists` says whether the output path is taken. -/
def writeTrace (args : TraceArgs F) (outputExists : Bool) : Except TraceError (List UInt8) := do
  let numRecords ← computeNumRecords fl args
  let keyDomain := args.keyDomain.getD numRecords
  if keyDomain < 0 then .error (.value "--key-domain must be non-negative") else
  if numRecords > 0 ∧ keyDomain = 0 then .error (.value "--key-domain must be positive for non-empty traces") else
  let uniqueCount ← computeUniqueCount fl numRecords keyDomain args
  let ratio ← effectiveUniqueRatio fl uniqueCount numRecords
  if outputExists ∧ ¬ args.force then .error (.fileExists s!"{args.output} already exists; pass --force to overwrite") else
  let (multiplier, mapper) ←
    chooseCoprimeMultiplier rng keyDomain.toNat (rng.seed (Int.xor args.seed 0x9E3779B97F4A7C15))
  let offset := if keyDomain > 0 then (rng.below keyDomain.toNat mapper).1 else 0
  let header ← packHeader fl numRecords keyDomain uniqueCount ratio args
  let plan : TracePlan F := ⟨numRecords.toNat, keyDomain.toNat, uniqueCount.toNat, multiplier, offset, args.zipfAlpha,
    (max 1 args.chunkRecords).toNat⟩
  let w ← writeRecords fl rng plan 0 numRecords.toNat ⟨rng.seed args.seed, 0, [], header⟩
  .ok (w.file ++ w.chunk)

def generateLoadTrace (args : TraceArgs F) (outputExists : Bool) : Except TraceError (List UInt8) :=
  if args.num = none ∧ args.targetDbGb.isNone then .error (.usage "one of --num or --target-db-gb is required")
  else if ¬ (fl.le (fl.lit 0) args.uniqueRatio ∧ fl.le args.uniqueRatio (fl.lit 1)) then
    .error (.usage "--unique-ratio must be in [0,1]")
  else if ∃ count ∈ args.uniqueCount, count < 0 then .error (.usage "--unique-count must be non-negative")
  else if fl.lt args.zipfAlpha (fl.lit 0) then .error (.usage "--zipf-alpha must be non-negative")
  else if args.keySize < 0 ∨ args.valueSize < 0 then
    .error (.usage "--key-size and --value-size must be non-negative")
  else writeTrace fl rng args outputExists

structure LoadTraceHeader where
  records : ℕ
  keyDomain : ℕ
  uniqueCount : ℕ
  keySize : ℕ
  valueSize : ℕ
  uniqueRatio : ℕ
  zipfAlpha : ℕ
  seed : ℕ
  flags : ℕ
  reserved : ℕ
  deriving DecidableEq, Repr

/-- The `read_exact` chain: version, header size, the other fields and the rest of the file. -/
def readFields (file : List UInt8) : Option (ℕ × ℕ × LoadTraceHeader × List UInt8) := do
  let (found, file) ← LittleEndian.take 8 file
  guard (found = magic)
  let (version, file) ← LittleEndian.read 4 file
  let (headerSize, file) ← LittleEndian.read 4 file
  let (records, file) ← LittleEndian.read 8 file
  let (keyDomain, file) ← LittleEndian.read 8 file
  let (uniqueCount, file) ← LittleEndian.read 8 file
  let (keySize, file) ← LittleEndian.read 4 file
  let (valueSize, file) ← LittleEndian.read 4 file
  let (uniqueRatio, file) ← LittleEndian.read 8 file
  let (zipfAlpha, file) ← LittleEndian.read 8 file
  let (seed, file) ← LittleEndian.read 8 file
  let (flags, file) ← LittleEndian.read 8 file
  let (reserved, file) ← LittleEndian.read 8 file
  some (version, headerSize,
    ⟨records, keyDomain, uniqueCount, keySize, valueSize, uniqueRatio, zipfAlpha, seed, flags, reserved⟩, file)

/-- The header reader of `FillVirtual` with its flags: the header and the file from the read position on. -/
def readLoadTraceHeader (name : String) (keySize valueSize : ℕ) (file : List UInt8) :
    Except String (LoadTraceHeader × List UInt8) :=
  match readFields file with
  | none => .error s!"fillvirtual: malformed VLOADTR1 header in {name}\n"
  | some (version, headerSize, header, rest) =>
    if version ≠ 1 ∨ headerSize < 88 then
      .error s!"fillvirtual: unsupported trace header version={version} size={headerSize}\n"
    else
      let rest := if headerSize > 88 then rest.drop (headerSize - 88) else rest
      if header.keySize ≠ keySize % 2 ^ 32 ∨ header.valueSize ≠ valueSize % 2 ^ 32 then
        .error s!"fillvirtual: trace key/value size mismatch. trace={header.keySize}/{header.valueSize} flags={keySize}/{valueSize}\n"
      else if header.keyDomain = 0 ∨ header.uniqueCount > header.records ∨ header.uniqueCount > header.keyDomain then
        .error s!"fillvirtual: invalid trace cardinality records={header.records} domain={header.keyDomain} unique={header.uniqueCount}\n"
      else .ok (header, rest)

end VcompModel
