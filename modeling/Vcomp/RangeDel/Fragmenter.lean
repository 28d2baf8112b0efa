import Vcomp.Foundation.LowerBound
import Vcomp.Foundation.SortBy
import Vcomp.Lsm.InternalKey

namespace VcompModel.RangeDel

structure RangeTombstone (K : Type) where
  startKey : K
  endKey : K
  seq : ℕ
  deriving DecidableEq, Repr

/-- Fragments over one key range; the indices are positions in the pool of sequence numbers. -/
structure RangeTombstoneStack (K : Type) where
  startKey : K
  endKey : K
  seqStartIdx : ℕ
  seqEndIdx : ℕ
  deriving DecidableEq, Repr

structure FragmentedRangeTombstoneList (K : Type) where
  tombstones : List (RangeTombstoneStack K) := []
  tombstoneSeqs : List ℕ := []
  deriving DecidableEq, Repr

/-- Readers keep all sequence numbers, a compaction one in each snapshot stripe. -/
structure FragmentOptions where
  forCompaction : Bool := false
  snapshots : List ℕ := []

def dropUnpreserved (snapshots : List ℕ) : (nextSnapshot : ℕ) → List ℕ → List ℕ
  | _, [] => []
  | nextSnapshot, seq :: seqs =>
    if seq ≤ nextSnapshot then
      let upperBound := LowerBound.lowerBound (fun i => (snapshots[i]?).any (· < seq)) 0 snapshots.length
      if upperBound = 0 then [seq] else seq :: dropUnpreserved snapshots (snapshots.getD (upperBound - 1) 0) seqs
    else dropUnpreserved snapshots nextSnapshot seqs

def FragmentOptions.keep (options : FragmentOptions) (seqs : List ℕ) : List ℕ :=
  if options.forCompaction then dropUnpreserved options.snapshots kMaxSequenceNumber seqs else seqs

variable {K : Type} [LinearOrder K]

def emplaceEndKey (key : EntryKey K) : List (EntryKey K) → List (EntryKey K)
  | [] => [key]
  | e :: ends => if key < e then key :: e :: ends else if key = e then e :: ends else e :: emplaceEndKey key ends

variable (options : FragmentOptions)

def FragmentedRangeTombstoneList.flushFragment (list : FragmentedRangeTombstoneList K) (startKey endKey : K)
    (ends : List (EntryKey K)) : FragmentedRangeTombstoneList K :=
  let seqnumsToFlush := SortBy.sortBy (fun a b => decide (a > b)) (ends.map (·.sequence))
  let kept := options.keep seqnumsToFlush
  let startIdx := list.tombstoneSeqs.length
  { tombstones := list.tombstones ++ [⟨startKey, endKey, startIdx, startIdx + kept.length⟩]
    tombstoneSeqs := list.tombstoneSeqs ++ kept }

/-- The fragments from the current end key on, and the end keys left. -/
def flushCurrentTombstones (nextStartKey : K) : (curStartKey : K) → (ends : List (EntryKey K)) →
    (list : FragmentedRangeTombstoneList K) → FragmentedRangeTombstoneList K × List (EntryKey K)
  | _, [], list => (list, [])
  | curStartKey, e :: ends, list =>
    if curStartKey = e.userKey then flushCurrentTombstones nextStartKey curStartKey ends list
    else if nextStartKey ≤ e.userKey then (list.flushFragment options curStartKey nextStartKey (e :: ends), e :: ends)
    else flushCurrentTombstones nextStartKey e.userKey ends (list.flushFragment options curStartKey e.userKey (e :: ends))

structure Sweep (K : Type) where
  curStartKey : Option K := none
  curEndKeys : List (EntryKey K) := []
  list : FragmentedRangeTombstoneList K := {}

def Sweep.step (sweep : Sweep K) (t : RangeTombstone K) : Sweep K :=
  let (list, ends) := match sweep.curStartKey with
    | none => (sweep.list, sweep.curEndKeys)
    | some cur =>
      if sweep.curEndKeys ≠ [] ∧ cur ≠ t.startKey then
        flushCurrentTombstones options t.startKey cur sweep.curEndKeys sweep.list
      else (sweep.list, sweep.curEndKeys)
  { curStartKey := some t.startKey
    curEndKeys := emplaceEndKey ⟨t.endKey, t.seq, .rangeDeletion⟩ ends
    list := list }

def fragmentTombstones (tombstones : List (RangeTombstone K)) : FragmentedRangeTombstoneList K :=
  let sweep := tombstones.foldl (Sweep.step options) {}
  match sweep.curStartKey, sweep.curEndKeys.getLast? with
  | some cur, some last => (flushCurrentTombstones options last.userKey cur sweep.curEndKeys sweep.list).1
  | _, _ => sweep.list

def RangeTombstone.key (t : RangeTombstone K) : EntryKey K := ⟨t.startKey, t.seq, .rangeDeletion⟩

def isSorted : List (RangeTombstone K) → Bool
  | a :: b :: tombstones => !(decide (a.key > b.key)) && isSorted (b :: tombstones)
  | _ => true

/-- The constructor of `FragmentedRangeTombstoneList`; `sort` is the sort of `VectorIterator`. -/
def fragmentedRangeTombstoneList (sort : List (RangeTombstone K) → List (RangeTombstone K))
    (tombstones : List (RangeTombstone K)) : FragmentedRangeTombstoneList K :=
  if isSorted tombstones then fragmentTombstones options tombstones else fragmentTombstones options (sort tombstones)

variable (list : FragmentedRangeTombstoneList K)

def FragmentedRangeTombstoneList.seekToCoveringTombstone (target : K) : ℕ :=
  LowerBound.lowerBound (fun i => (list.tombstones[i]?).any fun stack => !(decide (target < stack.endKey))) 0
    list.tombstones.length

def FragmentedRangeTombstoneList.maxVisibleSeq (stack : RangeTombstoneStack K) (upperBound : ℕ) : ℕ :=
  LowerBound.lowerBound (fun i => (list.tombstoneSeqs[i]?).any (· > upperBound)) stack.seqStartIdx
    (stack.seqEndIdx - stack.seqStartIdx)

def FragmentedRangeTombstoneList.maxCoveringTombstoneSeqnum (upperBound : ℕ) (target : K) : ℕ :=
  match list.tombstones[list.seekToCoveringTombstone target]? with
  | none => 0
  | some stack =>
    let seqPos := list.maxVisibleSeq stack upperBound
    if seqPos ≠ stack.seqEndIdx ∧ stack.startKey ≤ target then list.tombstoneSeqs.getD seqPos 0 else 0

end VcompModel.RangeDel
