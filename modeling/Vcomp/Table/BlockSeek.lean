import Vcomp.Table.BlockBuilder

namespace VcompModel.Table

variable {K V : Type}

structure DataBlockIter (K : Type) where
  current : ℕ
  nextEntryOffset : ℕ
  rawKey : Option (EntryKey K)

namespace Block

def restartsOffset (b : Block K V) : ℕ := b.entries.length

def numRestarts (b : Block K V) : ℕ := b.restarts.length

def getRestartPoint (b : Block K V) (index : ℕ) : ℕ := b.restarts.getD index 0

end Block

namespace DataBlockIter

def valid (b : Block K V) (it : DataBlockIter K) : Bool := decide (it.current < b.restartsOffset)

def seekToRestartPoint (b : Block K V) (it : DataBlockIter K) (index : ℕ) : DataBlockIter K :=
  { it with rawKey := none, nextEntryOffset := b.getRestartPoint index }

def parseNextDataKey (b : Block K V) (it : DataBlockIter K) : Bool × DataBlockIter K :=
  match b.entries[it.nextEntryOffset]? with
  | none => (false, { it with current := b.restartsOffset })
  | some entry => (true, ⟨it.nextEntryOffset, it.nextEntryOffset + 1, some entry.1⟩)

variable [LinearOrder K]

def notBefore (it : DataBlockIter K) (target : EntryKey K) : Bool := it.rawKey.any fun key => decide (target ≤ key)

/-- The halving loop of `BinarySeek`; `none` stands for a restart point without an entry. -/
def binarySeekLoop (b : Block K V) (target : EntryKey K) : (fuel : ℕ) → (left right : ℤ) → Option (ℤ × Bool)
  | 0, left, _ => some (left, false)
  | fuel + 1, left, right =>
    if left = right then some (left, false)
    else
      -- rounded up, so that it lies in `(left, right]`
      let mid := left + (right - left + 1) / 2
      match b.entries[b.getRestartPoint mid.toNat]? with
      | none => none
      | some entry =>
        if entry.1 < target then binarySeekLoop b target fuel mid right
        else if target < entry.1 then binarySeekLoop b target fuel left (mid - 1)
        else some (mid, true)

def binarySeek (b : Block K V) (target : EntryKey K) : Option (ℕ × Bool) :=
  if b.restartsOffset = 0 then none
  else
    match binarySeekLoop b target (b.numRestarts + 1) (-1) (b.numRestarts - 1) with
    | none => none
    | some (left, skipLinearScan) => if left = -1 then some (0, true) else some (left.toNat, skipLinearScan)

/-- The loop of `FindKeyAfterBinarySeek`; `maxOffset` is absent in the last restart interval. -/
def linearSeek (b : Block K V) (target : EntryKey K) (maxOffset : Option ℕ) : (fuel : ℕ) → DataBlockIter K → DataBlockIter K
  | 0, it => it
  | fuel + 1, it =>
    let it := (it.parseNextDataKey b).2
    if !it.valid b then it
    else if maxOffset = some it.current then it
    else if it.notBefore target then it
    else linearSeek b target maxOffset fuel it

def findKeyAfterBinarySeek (b : Block K V) (it : DataBlockIter K) (target : EntryKey K) (index : ℕ) (skipLinearScan : Bool) :
    DataBlockIter K :=
  let it := ((it.seekToRestartPoint b index).parseNextDataKey b).2
  if skipLinearScan then it
  else
    let maxOffset := if index + 1 < b.numRestarts then some (b.getRestartPoint (index + 1)) else none
    linearSeek b target maxOffset (b.entries.length + 1) it

def seekImpl (b : Block K V) (it : DataBlockIter K) (target : EntryKey K) : DataBlockIter K :=
  match binarySeek b target with
  | none => it
  | some (index, skipLinearScan) => it.findKeyAfterBinarySeek b target index skipLinearScan

def scanInterval (b : Block K V) (target : EntryKey K) (limit : ℕ) : (fuel : ℕ) → DataBlockIter K → DataBlockIter K
  | 0, it => it
  | fuel + 1, it =>
    if it.current < limit then
      let (ok, it) := it.parseNextDataKey b
      if !ok || it.notBefore target then it else scanInterval b target limit fuel it
    else it

/-- The value types `SeekForGetImpl` answers without a full seek. -/
def supported : ValueType → Bool
  | .value | .deletion | .merge | .singleDeletion | .blobIndex | .wideColumnEntity | .valuePreferredSeqno => true
  | _ => false

/-- Without an entry the result may be in the next block, so the end of this one is looked at. -/
def scannedRestart (b : Block K V) (entry : ℕ) : ℕ := if entry = kNoEntry then (b.numRestarts - 1) % 256 else entry

def seekForGetImpl (getSliceHash : K → ℕ) (b : Block K V) (buckets : List ℕ) (it : DataBlockIter K) (target : EntryKey K) :
    Bool × DataBlockIter K :=
  let entry := lookup buckets (getSliceHash target.userKey)
  if entry = kCollision then (true, it.seekImpl b target)
  else
    let restartIndex := scannedRestart b entry
    let it := { it.seekToRestartPoint b restartIndex with current := b.getRestartPoint restartIndex }
    let limit := if restartIndex + 1 < b.numRestarts then b.getRestartPoint (restartIndex + 1) else b.restartsOffset
    let it := it.scanInterval b target limit (b.entries.length + 1)
    if it.current = b.restartsOffset then (true, it)
    else if it.rawKey.map (·.userKey) ≠ some target.userKey then (false, it)
    else if it.rawKey.any (fun key => supported key.type) then (true, it)
    else (true, it.seekImpl b target)

def seekForGet (getSliceHash : K → ℕ) (b : Block K V) (it : DataBlockIter K) (target : EntryKey K) : Bool × DataBlockIter K :=
  match b.hashIndex with
  | none => (true, it.seekImpl b target)
  | some buckets => it.seekForGetImpl getSliceHash b buckets target

end DataBlockIter

def Block.Sorted [LinearOrder K] (b : Block K V) : Prop := b.entries.Pairwise fun first second => first.1 < second.1

def seekPosition [LinearOrder K] (b : Block K V) (target : EntryKey K) : ℕ :=
  b.entries.findIdx fun entry => decide (target ≤ entry.1)

end VcompModel.Table

namespace VcompProof.Table

open VcompModel VcompModel.Table VcompModel.Table.DataBlockIter List

variable {K V : Type} {getSliceHash : K → ℕ} {interval : ℕ} {b : Block K V} {it : DataBlockIter K}
  {entry : EntryKey K × V} {offset : ℕ}

theorem getRestartPoint_eq (indexed : Indexed getSliceHash interval b) {r : ℕ} (inside : r < b.numRestarts) :
    b.getRestartPoint r = r * interval := by
  rw [Block.getRestartPoint, getD_eq_getElem?_getD, indexed.restartPoint r inside, Option.getD_some]

theorem restartPoint_lt (indexed : Indexed getSliceHash interval b) (ne : 0 < b.entries.length) {r : ℕ}
    (inside : r < b.numRestarts) : r * interval < b.entries.length := by
  rcases Nat.eq_zero_or_pos r with rfl | pos
  · simpa using ne
  · have several : 1 < b.restarts.length := lt_of_le_of_lt pos inside
    have last := indexed.reached several
    have le : r * interval ≤ (b.restarts.length - 1) * interval := Nat.mul_le_mul_right _ (Nat.le_sub_one_of_lt inside)
    omega

theorem parse_inside (next : it.nextEntryOffset = offset)
    (here : b.entries[offset]? = some entry) : it.parseNextDataKey b = (true, ⟨offset, offset + 1, some entry.1⟩) := by
  rw [parseNextDataKey, next, here]

theorem parse_end (ended : b.entries[it.nextEntryOffset]? = none) :
    it.parseNextDataKey b = (false, { it with current := b.entries.length }) := by
  rw [parseNextDataKey, ended]
  rfl

def OnEntry (b : Block K V) (it : DataBlockIter K) : Prop :=
  ∀ entry, b.entries[it.current]? = some entry → it = ⟨it.current, it.current + 1, some entry.1⟩

theorem onEntry_parsed (here : b.entries[offset]? = some entry) : OnEntry b ⟨offset, offset + 1, some entry.1⟩ := by
  intro found eq
  rw [here] at eq
  rw [Option.some.inj eq]

theorem onEntry_end (ended : it.current = b.entries.length) : OnEntry b it := by
  intro entry found
  rw [ended, getElem?_eq_none (le_refl _)] at found
  cases found

theorem onEntry_unique {first second : DataBlockIter K} (here : OnEntry b first) (there : OnEntry b second)
    (same : first.current = second.current) (valid : first.valid b) : first = second := by
  have inside : first.current < b.entries.length := of_decide_eq_true valid
  obtain ⟨entry, found⟩ : ∃ entry, b.entries[first.current]? = some entry := ⟨_, getElem?_eq_getElem inside⟩
  have eq := here entry found
  rw [same] at eq found
  rw [eq, there entry found]

variable [LinearOrder K] (target : EntryKey K)

theorem seekPosition_le (b : Block K V) : seekPosition b target ≤ b.entries.length := findIdx_le_length

variable (sorted : b.Sorted)
include sorted

theorem lt_seekPosition_iff {i : ℕ} (here : b.entries[i]? = some entry) :
    i < seekPosition b target ↔ entry.1 < target := by
  obtain ⟨inside, rfl⟩ := List.getElem?_eq_some_iff.mp here
  constructor
  · intro before
    have passed := List.not_of_lt_findIdx before
    simpa using passed
  · intro lt
    by_contra reached
    have position : seekPosition b target < b.entries.length := Nat.lt_of_le_of_lt (Nat.le_of_not_lt reached) inside
    have found : target ≤ (b.entries[seekPosition b target]).1 := of_decide_eq_true (findIdx_getElem (w := position))
    rcases Nat.eq_or_lt_of_le (Nat.le_of_not_lt reached) with eq | later
    · simp only [eq] at found
      exact absurd lt (not_lt.mpr found)
    · exact absurd (lt_of_le_of_lt found (pairwise_iff_getElem.mp sorted _ _ position inside later)) (not_lt.mpr lt.le)

theorem notBefore_iff {i : ℕ} (here : b.entries[i]? = some entry)
    (current next : ℕ) : (⟨current, next, some entry.1⟩ : DataBlockIter K).notBefore target = true ↔
      seekPosition b target ≤ i := by
  rw [← not_lt, lt_seekPosition_iff target sorted here, notBefore]
  simp

def Bracketed (b : Block K V) (interval position index : ℕ) (skipLinearScan : Bool) : Prop :=
  index < b.numRestarts ∧
    if skipLinearScan then position = index * interval
    else index * interval < position ∧ (index + 1 < b.numRestarts → position ≤ (index + 1) * interval)

theorem binarySeekLoop_spec (indexed : Indexed getSliceHash interval b) (ne : 0 < b.entries.length) (fuel : ℕ)
    (left right : ℤ) (low : -1 ≤ left) (ordered : left ≤ right) (high : right < b.numRestarts) (enough : right - left < fuel)
    (lt : 0 ≤ left → left.toNat * interval < seekPosition b target)
    (above : right + 1 < b.numRestarts → seekPosition b target ≤ (right + 1).toNat * interval) :
    ∃ index skip, binarySeekLoop b target fuel left right = some (index, skip) ∧
      (index = -1 → skip = false ∧ seekPosition b target = 0) ∧
      (index ≠ -1 → 0 ≤ index ∧ Bracketed b interval (seekPosition b target) index.toNat skip) := by
  induction fuel generalizing left right with
  | zero => omega
  | succ fuel ih =>
    rw [binarySeekLoop]
    by_cases met : left = right
    · subst met
      rw [if_pos rfl]
      refine ⟨left, false, rfl, ?_, ?_⟩
      · intro none
        subst none
        have started : 0 < b.numRestarts := indexed.started
        have least := above (by omega)
        simpa using least
      · intro some
        refine ⟨by omega, by omega, lt (by omega), ?_⟩
        intro inner
        have next : (left + 1).toNat = left.toNat + 1 := by omega
        rw [← next]
        exact above (by omega)
    · rw [if_neg met]
      dsimp only
      have mid_low : left < left + (right - left + 1) / 2 := by omega
      have mid_high : left + (right - left + 1) / 2 ≤ right := by omega
      generalize left + (right - left + 1) / 2 = mid at mid_low mid_high ⊢
      have inside : mid.toNat < b.numRestarts := by omega
      have start := restartPoint_lt indexed ne inside
      have here := getElem?_eq_getElem start
      rw [getRestartPoint_eq indexed inside, here]
      dsimp only
      have split_at := lt_seekPosition_iff target sorted here
      split
      next less => exact ih mid right (by omega) mid_high high (by omega) (fun _ => split_at.mpr less) above
      next notLess =>
        have reached : seekPosition b target ≤ mid.toNat * interval :=
          Nat.le_of_not_lt fun before => notLess (split_at.mp before)
        split
        next greater =>
          apply ih left (mid - 1) low (by omega) (by omega) (by omega) lt
          intro _
          rw [Int.sub_add_cancel]
          exact reached
        next notGreater =>
          -- the keys are equal, so nothing before this restart point is reached
          have equal : (b.entries[mid.toNat * interval]).1 = target := le_antisymm (not_lt.mp notGreater) (not_lt.mp notLess)
          refine ⟨mid, true, rfl, by omega, fun _ => ⟨by omega, inside, ?_⟩⟩
          apply le_antisymm reached
          by_contra early
          have position : seekPosition b target < b.entries.length := by omega
          have strict := pairwise_iff_getElem.mp sorted _ _ position start (by omega)
          have least := (lt_seekPosition_iff target sorted (getElem?_eq_getElem position)).mpr (equal ▸ strict)
          exact absurd least (lt_irrefl _)

theorem binarySeek_spec (indexed : Indexed getSliceHash interval b) (ne : 0 < b.entries.length) :
    ∃ index skip, binarySeek b target = some (index, skip) ∧ Bracketed b interval (seekPosition b target) index skip := by
  have started : 0 < b.numRestarts := indexed.started
  obtain ⟨index, skip, found, none, some⟩ := binarySeekLoop_spec target sorted indexed ne
    (b.numRestarts + 1) (-1) (b.numRestarts - 1) (by omega) (by omega) (by omega) (by omega) (by omega) (by omega)
  rw [binarySeek, if_neg (show b.restartsOffset ≠ 0 from ne_of_gt ne), found]
  dsimp only
  by_cases first : index = -1
  · rw [if_pos first]
    refine ⟨0, true, rfl, started, ?_⟩
    rw [if_pos rfl, zero_mul]
    exact (none first).2
  · rw [if_neg first]
    exact ⟨_, _, rfl, (some first).2⟩

theorem linearSeek_spec (maxOffset : Option ℕ) (fuel : ℕ) (it : DataBlockIter K)
    (lt : it.nextEntryOffset ≤ seekPosition b target)
    (bound : ∀ offset, maxOffset = some offset → seekPosition b target ≤ offset)
    (enough : b.entries.length < fuel + it.nextEntryOffset) :
    (linearSeek b target maxOffset fuel it).current = seekPosition b target ∧
      OnEntry b (linearSeek b target maxOffset fuel it) := by
  have position := seekPosition_le target b
  induction fuel generalizing it with
  | zero => omega
  | succ fuel ih =>
    rw [linearSeek]
    rcases lt_or_ge it.nextEntryOffset b.entries.length with inside | ended
    · have here := getElem?_eq_getElem inside
      have stops := notBefore_iff target sorted here it.nextEntryOffset (it.nextEntryOffset + 1)
      rw [parse_inside rfl here]
      rw [if_neg (by simp [valid, Block.restartsOffset, inside])]
      split
      next limit => exact ⟨le_antisymm lt (bound _ limit), onEntry_parsed here⟩
      next =>
        split
        next stop => exact ⟨le_antisymm lt (stops.mp stop), onEntry_parsed here⟩
        next go =>
          have before : it.nextEntryOffset < seekPosition b target := Nat.lt_of_not_le fun le => go (stops.mpr le)
          exact ih _ before (by dsimp only; omega)
    · rw [parse_end (getElem?_eq_none ended)]
      rw [if_pos (by simp [valid, Block.restartsOffset])]
      refine ⟨?_, onEntry_end rfl⟩
      dsimp only
      omega

theorem seekImpl_spec (indexed : Indexed getSliceHash interval b) (inside : it.current ≤ b.entries.length) :
    (it.seekImpl b target).current = seekPosition b target ∧ OnEntry b (it.seekImpl b target) := by
  rcases Nat.eq_zero_or_pos b.entries.length with empty | ne
  · have position := seekPosition_le target b
    rw [seekImpl, binarySeek, if_pos (show b.restartsOffset = 0 from empty)]
    exact ⟨by dsimp only; omega, onEntry_end (by dsimp only; omega)⟩
  · obtain ⟨index, skip, found, known, bracket⟩ := binarySeek_spec target sorted indexed ne
    have start := restartPoint_lt indexed ne known
    have here := getElem?_eq_getElem start
    have next : (it.seekToRestartPoint b index).nextEntryOffset = index * interval := getRestartPoint_eq indexed known
    rw [seekImpl, found]
    dsimp only [findKeyAfterBinarySeek]
    rw [parse_inside next here]
    cases skip with
    | true => exact ⟨bracket.symm, onEntry_parsed here⟩
    | false =>
      obtain ⟨low, high⟩ := bracket
      rw [if_neg Bool.false_ne_true]
      apply linearSeek_spec target sorted _ _ _ (show index * interval + 1 ≤ seekPosition b target from low)
      · intro offset limit
        split at limit
        next inner =>
          rw [getRestartPoint_eq indexed inner] at limit
          rw [← Option.some.inj limit]
          exact high inner
        next => cases limit
      · dsimp only
        omega

theorem scanInterval_spec {limit : ℕ} (limited : limit ≤ b.entries.length) (fuel : ℕ)
    (it : DataBlockIter K) (going : it.current < limit) (next : it.nextEntryOffset ≤ limit)
    (enough : b.entries.length < fuel + it.nextEntryOffset) :
    (scanInterval b target limit fuel it).current = min (max it.nextEntryOffset (seekPosition b target)) limit ∧
      OnEntry b (scanInterval b target limit fuel it) := by
  have position := seekPosition_le target b
  induction fuel generalizing it with
  | zero => omega
  | succ fuel ih =>
    rw [scanInterval, if_pos going]
    rcases lt_or_ge it.nextEntryOffset b.entries.length with inside | ended
    · have here := getElem?_eq_getElem inside
      have stops := notBefore_iff target sorted here it.nextEntryOffset (it.nextEntryOffset + 1)
      rw [parse_inside rfl here]
      dsimp only
      split
      next stop =>
        have reached := stops.mp (by simpa using stop)
        exact ⟨by dsimp only; omega, onEntry_parsed here⟩
      next go =>
        have before : it.nextEntryOffset < seekPosition b target := by
          apply Nat.lt_of_not_le
          intro le
          exact go (by simpa using stops.mpr le)
        rcases Nat.lt_or_ge it.nextEntryOffset limit with more | last
        · obtain ⟨current, entered⟩ := ih ⟨it.nextEntryOffset, it.nextEntryOffset + 1, some (b.entries[it.nextEntryOffset]).1⟩
            more more (by dsimp only; omega)
          refine ⟨?_, entered⟩
          rw [current]
          dsimp only
          omega
        · -- the entry looked at is the first of the next interval, and the loop ends there
          have stays : scanInterval b target limit fuel
              ⟨it.nextEntryOffset, it.nextEntryOffset + 1, some (b.entries[it.nextEntryOffset]).1⟩ =
              ⟨it.nextEntryOffset, it.nextEntryOffset + 1, some (b.entries[it.nextEntryOffset]).1⟩ := by
            cases fuel with
            | zero => rfl
            | succ fuel => rw [scanInterval, if_neg (by dsimp only; omega)]
          rw [stays]
          exact ⟨by dsimp only; omega, onEntry_parsed here⟩
    · rw [parse_end (getElem?_eq_none ended)]
      dsimp only
      rw [if_pos (by simp)]
      exact ⟨by dsimp only; omega, onEntry_end rfl⟩

end VcompProof.Table
