import Mathlib.Algebra.Group.Int.Defs
import Mathlib.Data.List.DropRight
import Vcomp.Foundation.LowerBound
import Vcomp.Lsm.FileMetaData

namespace VcompModel

structure IndexUnit where
  smallestLb : ℤ
  largestLb : ℤ
  smallestRb : ℤ
  largestRb : ℤ
  deriving DecidableEq, Repr

structure FileIndexer where
  numLevels : ℕ := 0
  levelRb : List ℤ := []
  nextLevelIndex : List (List IndexUnit) := []
  deriving DecidableEq, Repr

def kLevelMaxIndex : ℤ := 2 ^ 31 - 1

variable {K : Type} [LinearOrder K]

def skipBelow (u : K) : (lower : List K) → (i : ℤ) → List K × ℤ
  | [], i => ([], i)
  | l :: lower, i => if l < u then skipBelow u lower (i + 1) else (l :: lower, i)

def calculateLB (lower : List K) (i : ℤ) : (upper : List K) → List ℤ
  | [] => []
  | u :: upper => (skipBelow u lower i).2 :: calculateLB (skipBelow u lower i).1 (skipBelow u lower i).2 upper

def skipAbove (u : K) : (lower : List K) → (i : ℤ) → List K × ℤ
  | [], i => ([], i)
  | l :: lower, i => if u < l then skipAbove u lower (i - 1) else (l :: lower, i)

def calculateRB (lower : List K) (i : ℤ) : (upper : List K) → List ℤ
  | [] => []
  | u :: upper => (skipAbove u lower i).2 :: calculateRB (skipAbove u lower i).1 (skipAbove u lower i).2 upper

def FileMetaData.smallestUser (file : FileMetaData K) : K := file.smallest.userKey
def FileMetaData.largestUser (file : FileMetaData K) : K := file.largest.userKey

def indexUnits (upper lower : List (FileMetaData K)) : List IndexUnit :=
  let leftOf := fun keys : List K => calculateLB (lower.map (·.largestUser)) 0 keys
  let rightOf := fun keys : List K =>
    (calculateRB (lower.map (·.smallestUser)).reverse (lower.length - 1) keys.reverse).reverse
  let smallest := upper.map (·.smallestUser)
  let largest := upper.map (·.largestUser)
  ((leftOf smallest).zip (leftOf largest)).zipWith
    (fun left right => ⟨left.1, left.2, right.1, right.2⟩) ((rightOf smallest).zip (rightOf largest))

def updateIndex (files : List (List (FileMetaData K))) : FileIndexer where
  numLevels := files.length
  levelRb := (List.range files.length).map fun level =>
    if level = 0 ∧ files.length ≠ 1 then -1 else ((files.getD level []).length : ℤ) - 1
  nextLevelIndex := (List.range files.length).map fun level =>
    if 0 < level ∧ level < files.length - 1 then indexUnits (files.getD level []) (files.getD (level + 1) []) else []

/-- `GetNextLevelIndex`, `none` when it reads what `UpdateIndex` has not built. -/
def FileIndexer.getNextLevelIndex (indexer : FileIndexer) (level fileIndex : ℕ) (cmpSmallest cmpLargest : Ordering) :
    Option (ℤ × ℤ) :=
  -- the source compares with the unsigned `num_levels_ - 1`
  if level + 1 = indexer.numLevels then some (0, -1)
  else do
    let units ← indexer.nextLevelIndex[level]?
    let index ← units[fileIndex]?
    match cmpSmallest, cmpLargest with
    | .lt, _ =>
      if fileIndex > 0 then
        let previous ← units[fileIndex - 1]?
        some (previous.largestLb, index.smallestRb)
      else some (0, index.smallestRb)
    | .eq, _ => some (index.smallestLb, index.smallestRb)
    | .gt, .lt => some (index.smallestLb, index.largestRb)
    | .gt, .eq => some (index.largestLb, index.largestRb)
    | .gt, .gt => do
      let right ← indexer.levelRb[level + 1]?
      some (index.largestLb, right)

variable (indexer : FileIndexer) (ikey : EntryKey K)

def findFileInRange (files : List (FileMetaData K)) (left right : ℕ) : ℕ :=
  LowerBound.lowerBound (fun i => (files[i]?).any fun file => file.largest < ikey) left (right - left)

def FileMetaData.compareSmallest (file : FileMetaData K) : Ordering := compare ikey.userKey file.smallestUser

def FileMetaData.compareLargest (file : FileMetaData K) : Ordering :=
  if file.compareSmallest ikey = .lt then .lt else compare ikey.userKey file.largestUser

/-- The inner loop of `GetNextFile` on a sorted level: the files, and the bounds for the next level. -/
def pickSortedLevel (level : ℕ) : (index : ℕ) → (bounds : ℤ × ℤ) → (rest : List (FileMetaData K)) →
    Option (List (FileMetaData K) × ℤ × ℤ)
  | _, bounds, [] => some ([], bounds)
  | index, _, file :: rest => do
    let bounds ← indexer.getNextLevelIndex level index (file.compareSmallest ikey) (file.compareLargest ikey)
    if file.compareSmallest ikey = .lt ∨ file.compareLargest ikey = .gt then some ([], bounds)
    else if file.compareLargest ikey = .lt then some ([file], bounds)
    else do
      let (found, bounds) ← pickSortedLevel level (index + 1) bounds rest
      some (file :: found, bounds)

/-- `PrepareNextLevel` and `GetNextFile` from `level` on; a file comes with its `GetHitFileLevel`. -/
def pickDeeper : (level : ℕ) → (left right : ℤ) → (levels : List (List (FileMetaData K))) →
    Option (List (ℕ × FileMetaData K))
  | _, _, _, [] => some []
  | level, left, right, files :: levels =>
    if files = [] then pickDeeper (level + 1) 0 kLevelMaxIndex levels
    else if left ≤ right then
      let right := if right = kLevelMaxIndex then (files.length : ℤ) - 1 else right
      let start := findFileInRange ikey files left.toNat (right.toNat + 1)
      if (start : ℤ) = right + 1 then pickDeeper (level + 1) 0 kLevelMaxIndex levels
      else do
        let (found, left, right) ← pickSortedLevel indexer ikey level start (left, right) (files.drop start)
        let rest ← pickDeeper (level + 1) left right levels
        some (found.map (level, ·) ++ rest)
    else pickDeeper (level + 1) 0 kLevelMaxIndex levels

def pickLevel0 (numLevels : ℕ) (files : List (FileMetaData K)) : List (FileMetaData K) :=
  if numLevels > 1 ∨ files.length > 3 then
    files.filter fun file => !(file.compareSmallest ikey = .lt || file.compareLargest ikey = .gt)
  else files

def nonEmptyLevels (files : List (List (FileMetaData K))) : List (List (FileMetaData K)) :=
  files.rdropWhile (· = [])

def preparedIndexer (useVirtualCompaction : Bool) (files : List (List (FileMetaData K))) : FileIndexer :=
  if useVirtualCompaction then {} else updateIndex (nonEmptyLevels files)

def pickFiles (useVirtualCompaction : Bool) (files : List (List (FileMetaData K))) (ikey : EntryKey K) :
    Option (List (ℕ × FileMetaData K)) :=
  match nonEmptyLevels files with
  | [] => some []
  | level0 :: levels =>
    (pickDeeper (preparedIndexer useVirtualCompaction files) ikey 1 0 kLevelMaxIndex levels).map
      ((pickLevel0 ikey (levels.length + 1) level0).map (0, ·) ++ ·)

end VcompModel
