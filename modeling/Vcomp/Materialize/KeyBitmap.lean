import Vcomp.Foundation.Bitmap
import Vcomp.Foundation.SharedWords
import Vcomp.Plr.Model

namespace VcompModel

open SharedWords Bitmap

/-- The atomic arrays: the reservation of `UniqueKeyReservation`, and the two of `KeyMembership`. -/
inductive BitArray where
  | reserved
  | present
  | claimed
  deriving DecidableEq

abbrev Access := Prog 64 (BitArray × ℕ)

abbrev BitMemory := BitArray × ℕ → BitVec 64

def loadWord (array : BitArray) (word : ℕ) : Access (BitVec 64) := .load (array, word) .done

def fetchOr (array : BitArray) (word : ℕ) (mask : BitVec 64) : Access (BitVec 64) := .fetchOr (array, word) mask .done

def keyMask (key : ℕ) : BitVec 64 := 1#64 <<< (key % 64)

structure KeyBitmap where
  keyDomain : ℕ
  words : ℕ
  deriving DecidableEq, Repr

/-- `Create` of both classes. The word count is computed in 64 bits. -/
def KeyBitmap.create (keyDomain maxBytes : ℕ) : Except String KeyBitmap :=
  if keyDomain = 0 then .error "key domain is zero"
  else
    let words := (keyDomain + 63) % word64 / 64
    if words > maxBytes / 8 then
      .error s!"key domain {keyDomain} needs {words * 8} bytes > budget {maxBytes} bytes"
    else .ok ⟨keyDomain, words⟩

/-- The loop of `ForEachWord`; `fn` says whether to go on. -/
def walkWords {σ : Type} (first last : ℕ) (fn : ℕ → BitVec 64 → σ → Access (Bool × σ)) : List ℕ → σ → Access σ
  | [], acc => pure acc
  | word :: rest, acc => do
    let (more, acc) ← fn word (wordMask first last word) acc
    if more then walkWords first last fn rest acc else pure acc

def KeyBitmap.forEachWord {σ : Type} (map : KeyBitmap) (first last : ℕ) (init : σ)
    (fn : ℕ → BitVec 64 → σ → Access (Bool × σ)) : Access σ :=
  if first > last ∨ first ≥ map.keyDomain then pure init
  else
    let last := if last ≥ map.keyDomain then map.keyDomain - 1 else last
    walkWords first last fn (wordsOf first last) init

def take (key : ℕ) : Access Bool := do
  let old ← fetchOr .reserved (key / 64) (keyMask key)
  return old &&& keyMask key = 0

def KeyBitmap.countFree (map : KeyBitmap) (first last : ℕ) : Access ℕ :=
  map.forEachWord first last 0 fun word mask freeKeys => do
    let v ← loadWord .reserved word
    return (true, freeKeys + popCount (mask &&& ~~~v))

def KeyBitmap.nextFree (map : KeyBitmap) (first last : ℕ) : Access (Option ℕ) :=
  map.forEachWord first last none fun word mask _ => do
    let v ← loadWord .reserved word
    let candidates := mask &&& ~~~v
    if candidates = 0 then return (true, none)
    return (false, some (64 * word + trailingZeros candidates))

def clearLowest : ℕ → BitVec 64 → BitVec 64
  | 0, candidates => candidates
  | i + 1, candidates => clearLowest i (candidates &&& (candidates - 1))

def KeyBitmap.selectFree (map : KeyBitmap) (first last rank : ℕ) : Access (Option ℕ) := do
  let (_, key) ← map.forEachWord first last (rank, none) fun word mask (rank, _) => do
    let v ← loadWord .reserved word
    let candidates := mask &&& ~~~v
    let count := popCount candidates
    if rank ≥ count then return (true, (rank - count, none))
    return (false, (rank, some (64 * word + trailingZeros (clearLowest rank candidates))))
  return key

def KeyBitmap.totalBits (map : KeyBitmap) (array : BitArray) : Access ℕ :=
  (List.range map.words).foldlM (fun total word => do return total + popCount (← loadWord array word)) 0

def KeyBitmap.takenTotal (map : KeyBitmap) : Access ℕ := map.totalBits .reserved

inductive MembershipMode where
  | present
  | newest
  | stale
  deriving DecidableEq, Repr

def KeyBitmap.setBit (map : KeyBitmap) (array : BitArray) (key : ℕ) : Access Unit :=
  if key ≥ map.keyDomain then pure ()
  else do
    let _ ← fetchOr array (key / 64) (keyMask key)

def KeyBitmap.mark (map : KeyBitmap) (key : ℕ) : Access Unit := map.setBit .present key

def KeyBitmap.claim (map : KeyBitmap) (key : ℕ) : Access Unit := map.setBit .claimed key

def modeWord (mode : MembershipMode) (word : ℕ) : Access (BitVec 64) := do
  let present ← loadWord .present word
  match mode with
  | .present => return present
  | .newest => return present &&& ~~~(← loadWord .claimed word)
  | .stale => return present &&& (← loadWord .claimed word)

def KeyBitmap.countPresent (map : KeyBitmap) (first last : ℕ) (mode : MembershipMode) : Access ℕ :=
  map.forEachWord first last 0 fun word mask present => do
    let v ← modeWord mode word
    return (true, present + popCount (mask &&& v))

structure Cursor where
  last : ℕ
  want : ℕ
  mode : MembershipMode
  present : ℕ
  word : ℕ
  pending : BitVec 64
  seen : ℕ
  emitted : ℕ

def KeyBitmap.newCursor (map : KeyBitmap) (first last want : ℕ) (mode : MembershipMode) : Access Cursor := do
  let present ← map.countPresent first last mode
  if first < map.keyDomain then
    let v ← modeWord mode (first / 64)
    return ⟨last, want, mode, present, first / 64, v &&& (BitVec.allOnes 64 <<< (first % 64)), 0, 0⟩
  else
    return ⟨last, want, mode, present, map.words, 0, 0, 0⟩

/-- A key of a rank not below the target, a key after the range, or nothing. -/
inductive PendingScan where
  | found (key : ℕ) (pending : BitVec 64) (seen : ℕ)
  | beyond
  | empty (seen : ℕ)

/-- `Next` within the loaded word, which has at most `fuel` bits left. -/
def scanPending (last target word : ℕ) : (fuel : ℕ) → BitVec 64 → ℕ → PendingScan
  | 0, _, seen => .empty seen
  | fuel + 1, pending, seen =>
    if pending = 0 then .empty seen
    else
      let candidate := 64 * word + trailingZeros pending
      let pending := pending &&& (pending - 1)
      if candidate > last then .beyond
      else if seen ≥ target then .found candidate pending (seen + 1)
      else scanPending last target word fuel pending (seen + 1)

/-- The outer loop of `Next`, with `ahead` words after the loaded one. -/
def nextLoop (target : ℕ) : (ahead : ℕ) → Cursor → Access (Option (ℕ × Cursor))
  | ahead, c =>
    match scanPending c.last target c.word 64 c.pending c.seen with
    | .found key pending seen => pure (some (key, { c with pending := pending, seen := seen, emitted := c.emitted + 1 }))
    | .beyond => pure none
    | .empty seen =>
      match ahead with
      | 0 => pure none
      | ahead + 1 =>
        if 64 * (c.word + 1) > c.last then pure none
        else do
          let v ← modeWord c.mode (c.word + 1)
          nextLoop target ahead { c with word := c.word + 1, pending := v, seen := seen }

/-- `Cursor::Next`: the key and the cursor after it. The product is computed in 64 bits. -/
def KeyBitmap.next (map : KeyBitmap) (c : Cursor) : Access (Option (ℕ × Cursor)) :=
  if c.want = 0 ∨ c.emitted ≥ c.want ∨ c.present = 0 then pure none
  else nextLoop (c.emitted * c.present % word64 / c.want) (map.words - 1 - c.word) c

end VcompModel
