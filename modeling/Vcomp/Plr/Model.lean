import Mathlib.Data.Rat.Floor
import Mathlib.Tactic.Linarith

namespace VcompModel

/-- Number of values of `uint64_t`; a wrapping result is written `% word64`. -/
def word64 : ℕ := 2 ^ 64

/-- `pos(key) = slope * key + intercept` over `[keyStart, keyEnd]`, doubles as exact rationals. -/
structure PLRSegment where
  keyStart : ℕ
  keyEnd : ℕ
  slope : ℚ
  intercept : ℚ
  deriving DecidableEq, Repr

def PLRSegment.eval (seg : PLRSegment) (key : ℕ) : ℚ := seg.slope * key + seg.intercept

def PLRSegment.posStart (seg : PLRSegment) : ℚ := seg.eval seg.keyStart
def PLRSegment.posEnd (seg : PLRSegment) : ℚ := seg.eval seg.keyEnd
def PLRSegment.lo (seg : PLRSegment) : ℚ := min seg.posStart seg.posEnd
def PLRSegment.hi (seg : PLRSegment) : ℚ := max seg.posStart seg.posEnd

structure PLRModel where
  segments : List PLRSegment
  deriving DecidableEq, Repr

def PLRModel.empty (plr : PLRModel) : Bool := plr.segments.isEmpty

/-- `std::round`: to the nearest integer, halves away from zero. -/
def stdRound (x : ℚ) : ℤ := if x < 0 then -⌊-x + 1 / 2⌋ else ⌊x + 1 / 2⌋

def predictSearch (segments : List PLRSegment) (key : ℕ) : (fuel lo hi : ℕ) → ℕ
  | 0, lo, _ => lo
  | fuel + 1, lo, hi =>
    if lo < hi then
      let mid := lo + (hi - lo) / 2
      match segments[mid]? with
      | some seg =>
        if seg.keyEnd < key then predictSearch segments key fuel (mid + 1) hi
        else predictSearch segments key fuel lo mid
      | none => lo
    else lo

def PLRModel.predict (plr : PLRModel) (key : ℕ) : ℚ :=
  let segments := plr.segments
  match segments.getLast? with
  | none => 0
  | some back =>
    let lo := predictSearch segments key segments.length 0 segments.length
    match segments[lo]? with
    | none => back.posEnd
    | some seg =>
      if key < seg.keyStart then
        match lo with
        | 0 => 0
        | previous + 1 =>
          match segments[previous]? with
          | some prev => prev.posEnd
          | none => 0
      else seg.eval key

/-- The first segment that holds `position`, or else the first closest one; `best` is `best_seg` with `best_dist`. -/
def inverseSearch (position : ℚ) : List PLRSegment → Option (PLRSegment × ℚ) → Option PLRSegment
  | [], best => best.map Prod.fst
  | seg :: rest, best =>
    if position ≥ seg.lo ∧ position ≤ seg.hi then some seg
    else
      let dist := if position < seg.lo then seg.lo - position else position - seg.hi
      match best with
      | none => inverseSearch position rest (some (seg, dist))
      | some (bestSeg, bestDist) =>
        if dist < bestDist then inverseSearch position rest (some (seg, dist))
        else inverseSearch position rest (some (bestSeg, bestDist))

def flatSlope : ℚ := 1 / 10 ^ 15

/-- The key at a position; the sum in a flat segment's midpoint wraps. -/
def PLRSegment.keyAt (seg : PLRSegment) (position : ℚ) : ℕ :=
  if |seg.slope| < flatSlope then ((seg.keyStart + seg.keyEnd) % word64) / 2
  else
    let key := (position - seg.intercept) / seg.slope
    let key := max key seg.keyStart
    let key := min key seg.keyEnd
    (stdRound key).toNat

def PLRModel.inverse (plr : PLRModel) (position : ℚ) : ℕ :=
  match inverseSearch position plr.segments none with
  | none => 0
  | some seg => seg.keyAt position

def PLRModel.keyMin (plr : PLRModel) : ℕ :=
  match plr.segments.head? with
  | none => 0
  | some front => front.keyStart

end VcompModel
