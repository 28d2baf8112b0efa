import Vcomp.Table.BlockSeek

namespace VcompModel.Table

variable {K V : Type} [LinearOrder K]

/-- The target's bucket names an earlier interval although all user keys are smaller. -/
def InnerFalsePositive (getSliceHash : K → ℕ) (b : Block K V) (target : EntryKey K) : Prop :=
  ∃ buckets, b.hashIndex = some buckets ∧ lookup buckets (getSliceHash target.userKey) + 1 < b.numRestarts ∧
    ∀ entry ∈ b.entries, entry.1.userKey < target.userKey

def NoMatch (b : Block K V) (target : EntryKey K) : Prop :=
  ∀ entry ∈ b.entries, ¬(target ≤ entry.1 ∧ entry.1 ≤ ⟨target.userKey, 0, .deletion⟩)

/-- The last key has a larger user key, so the next block need not be searched. -/
def EndsAfter (b : Block K V) (target : EntryKey K) : Prop :=
  ∃ last, b.entries.getLast? = some last ∧ target.userKey < last.1.userKey

end VcompModel.Table

namespace VcompProof.Table

open VcompModel VcompModel.Table VcompModel.Table.DataBlockIter List Option

variable {K V : Type} {getSliceHash : K → ℕ} {interval : ℕ} {b : Block K V} {it : DataBlockIter K} {target : EntryKey K}
  {buckets : List ℕ} {i : ℕ}

theorem own_interval (indexed : Indexed getSliceHash interval b) (found : b.hashIndex = some buckets)
    (noCollision : lookup buckets (getSliceHash target.userKey) ≠ kCollision) {entry : EntryKey K × V}
    (here : b.entries[i]? = some entry) (eq : entry.1.userKey = target.userKey) :
    let restartIndex := lookup buckets (getSliceHash target.userKey)
    restartIndex ≠ kNoEntry ∧ restartIndex * interval ≤ i ∧ i < (restartIndex + 1) * interval := by
  intro restartIndex
  have index : restartIndex = i / interval := by
    have stored := indexed.hashed buckets found i entry here
    rw [eq] at stored
    exact stored.resolve_right noCollision
  obtain ⟨inside, -⟩ := List.getElem?_eq_some_iff.mp here
  have covered := lt_of_lt_of_le inside indexed.covered
  have small := indexed.fewRestarts buckets found
  have quotient : i / interval < b.restarts.length := Nat.div_lt_of_lt_mul (by rwa [mul_comm])
  refine ⟨by rw [index, kNoEntry]; omega, ?_, ?_⟩
  · rw [index]
    exact Nat.div_mul_le_self i interval
  · rw [index, mul_comm]
    exact Nat.lt_mul_div_succ i indexed.interval_pos

theorem scannedRestart_lt (indexed : Indexed getSliceHash interval b) (found : b.hashIndex = some buckets) (hash : ℕ)
    (noCollision : lookup buckets hash ≠ kCollision) : scannedRestart b (lookup buckets hash) < b.numRestarts := by
  have started : 0 < b.numRestarts := indexed.started
  rw [scannedRestart]
  split
  next =>
    have le := Nat.mod_le (b.numRestarts - 1) 256
    omega
  next someEntry => exact ((indexed.known buckets found hash).resolve_left someEntry).resolve_left noCollision

variable [LinearOrder K]

theorem le_oldest_iff {key : EntryKey K} : key ≤ ⟨target.userKey, 0, .deletion⟩ ↔ key.userKey ≤ target.userKey := by
  have least : (⟨target.userKey, 0, .deletion⟩ : EntryKey K).packed ≤ key.packed := by
    rw [EntryKey.packed, zero_mul, zero_add]
    exact Nat.zero_le _
  rw [internalKey_le, and_iff_left least]
  exact le_iff_lt_or_eq.symm

theorem userKey_mono (sorted : b.Sorted) {j : ℕ} {first second : EntryKey K × V} (le : i ≤ j)
    (here : b.entries[i]? = some first) (there : b.entries[j]? = some second) : first.1.userKey ≤ second.1.userKey := by
  obtain ⟨inside, rfl⟩ := List.getElem?_eq_some_iff.mp here
  obtain ⟨inside', rfl⟩ := List.getElem?_eq_some_iff.mp there
  rcases eq_or_lt_of_le le with rfl | lt
  · exact le_refl _
  · exact userKey_le (pairwise_iff_getElem.mp sorted _ _ inside inside' lt).le

theorem scan_stop (it : DataBlockIter K) (target : EntryKey K) (indexed : Indexed getSliceHash interval b)
    (sorted : b.Sorted) {r : ℕ} (inside : r < b.numRestarts) :
    let limit := if r + 1 < b.numRestarts then b.getRestartPoint (r + 1) else b.restartsOffset
    let start := { it.seekToRestartPoint b r with current := b.getRestartPoint r }
    (scanInterval b target limit (b.entries.length + 1) start).current =
        min (max (r * interval) (seekPosition b target)) (min ((r + 1) * interval) b.entries.length) ∧
      OnEntry b (scanInterval b target limit (b.entries.length + 1) start) := by
  intro limit start
  have interval_pos := indexed.interval_pos
  have position := seekPosition_le target b
  have current : start.current = r * interval := getRestartPoint_eq indexed inside
  have next : start.nextEntryOffset = r * interval := getRestartPoint_eq indexed inside
  have size : (r + 1) * interval = r * interval + interval := Nat.succ_mul r interval
  have limit_eq : limit = min ((r + 1) * interval) b.entries.length := by
    by_cases inner : r + 1 < b.numRestarts
    · rw [show limit = _ from if_pos inner, getRestartPoint_eq indexed inner]
      have several : 1 < b.restarts.length := lt_of_le_of_lt (Nat.le_add_left 1 r) inner
      have ne : 0 < b.entries.length := Nat.lt_of_le_of_lt (Nat.zero_le _) (indexed.reached several)
      exact (min_eq_left (restartPoint_lt indexed ne inner).le).symm
    · have last : r + 1 = b.restarts.length := Nat.le_antisymm inside (Nat.le_of_not_lt inner)
      rw [show limit = _ from if_neg inner, last]
      exact (min_eq_right indexed.covered).symm
  rcases Nat.eq_zero_or_pos b.entries.length with empty | ne
  · have first : r * interval = 0 := by
      by_contra later
      have pos : 0 < r := Nat.pos_of_mul_pos_right (pos_of_ne_zero later)
      have reached := indexed.reached (lt_of_le_of_lt pos inside)
      omega
    have ended : scanInterval b target limit (b.entries.length + 1) start = start := by
      rw [scanInterval, if_neg (by omega)]
    rw [ended]
    exact ⟨by omega, onEntry_end (by omega)⟩
  · have begins := restartPoint_lt indexed ne inside
    have spec := scanInterval_spec target sorted (show limit ≤ b.entries.length by omega)
      (b.entries.length + 1) start (by omega)
      (by omega) (by omega)
    rw [next, limit_eq] at spec
    rw [limit_eq]
    exact spec

theorem match_at_position (sorted : b.Sorted) {entry : EntryKey K × V} (here : b.entries[i]? = some entry)
    (eq : entry.1.userKey = target.userKey) (notBefore : target ≤ entry.1) :
    ∃ found, b.entries[seekPosition b target]? = some found ∧ found.1.userKey = target.userKey := by
  obtain ⟨inside, -⟩ := List.getElem?_eq_some_iff.mp here
  have reached : seekPosition b target ≤ i :=
    Nat.le_of_not_lt fun before => absurd ((lt_seekPosition_iff target sorted here).mp before) (not_lt.mpr notBefore)
  have at_position := List.getElem?_eq_getElem (Nat.lt_of_le_of_lt reached inside)
  refine ⟨_, at_position, le_antisymm ?_ ?_⟩
  · rw [← eq]
    exact userKey_mono sorted reached at_position here
  · apply userKey_le
    apply not_lt.mp
    intro before
    exact lt_irrefl _ ((lt_seekPosition_iff target sorted at_position).mpr before)

/-- A scan of the interval `r` that stopped on an entry. -/
structure Scanned (getSliceHash : K → ℕ) (interval : ℕ) (b : Block K V) (buckets : List ℕ) (target : EntryKey K) (r stop : ℕ)
    (entry : EntryKey K × V) : Prop where
  indexed : Indexed getSliceHash interval b
  sorted : b.Sorted
  found : b.hashIndex = some buckets
  noCollision : lookup buckets (getSliceHash target.userKey) ≠ kCollision
  interval_eq : r = scannedRestart b (lookup buckets (getSliceHash target.userKey))
  stopped : stop = min (max (r * interval) (seekPosition b target)) (min ((r + 1) * interval) b.entries.length)
  here : b.entries[stop]? = some entry

section

variable {r stop : ℕ} {entry : EntryKey K × V}

variable (scan : Scanned getSliceHash interval b buckets target r stop entry)
include scan

theorem Scanned.covers {other : EntryKey K × V}
    (there : b.entries[i]? = some other) (eq : other.1.userKey = target.userKey) :
    r * interval ≤ i ∧ i < (r + 1) * interval := by
  obtain ⟨someEntry, low, high⟩ := own_interval scan.indexed scan.found scan.noCollision there eq
  rw [scan.interval_eq, scannedRestart, if_neg someEntry]
  exact ⟨low, high⟩

theorem Scanned.matched (same : entry.1.userKey = target.userKey) : stop = seekPosition b target := by
  obtain ⟨low, high⟩ := scan.covers scan.here same
  have stopped := scan.stopped
  obtain ⟨inside, -⟩ := List.getElem?_eq_some_iff.mp scan.here
  rcases lt_or_ge (seekPosition b target) (r * interval) with early | late
  · -- the seek would stop in an interval before, at the same user key, and the scan would not cover it
    have notBefore : target ≤ entry.1 :=
      not_lt.mp fun lt => absurd ((lt_seekPosition_iff target scan.sorted scan.here).mpr lt) (by omega)
    obtain ⟨other, there, first⟩ := match_at_position scan.sorted scan.here same notBefore
    have start := (scan.covers there first).1
    omega
  · omega

theorem Scanned.noMatch (other : entry.1.userKey ≠ target.userKey) : NoMatch b target := by
  rintro candidate mem ⟨notBefore, upper⟩
  obtain ⟨i, at_i⟩ := mem_iff_getElem?.mp mem
  have eq : candidate.1.userKey = target.userKey := le_antisymm (le_oldest_iff.mp upper) (userKey_le notBefore)
  obtain ⟨first, at_position, matched⟩ := match_at_position scan.sorted at_i eq notBefore
  obtain ⟨low, high⟩ := scan.covers at_position matched
  obtain ⟨inside, -⟩ := List.getElem?_eq_some_iff.mp at_position
  have stopped := scan.stopped
  have met : stop = seekPosition b target := by omega
  have here := scan.here
  rw [met, at_position] at here
  exact other (some.inj here ▸ matched)

theorem Scanned.endsAfter (other : entry.1.userKey ≠ target.userKey)
    (noFalsePositive : ¬InnerFalsePositive getSliceHash b target) :
    EndsAfter b target := by
  obtain ⟨inside, -⟩ := List.getElem?_eq_some_iff.mp scan.here
  have stopped := scan.stopped
  have last := List.getElem?_eq_getElem (by omega : b.entries.length - 1 < b.entries.length)
  have few := scan.indexed.fewRestarts buckets scan.found
  refine ⟨b.entries[b.entries.length - 1], by rw [getLast?_eq_getElem?]; exact last, ?_⟩
  by_contra small
  rcases lt_or_eq_of_le (not_lt.mp small) with lt | equal
  · -- all keys are before the target: the scan ran off its interval, which was not the last
    have all : ∀ candidate ∈ b.entries, candidate.1.userKey < target.userKey := by
      intro candidate mem
      obtain ⟨i, at_i⟩ := mem_iff_getElem?.mp mem
      obtain ⟨bound, -⟩ := List.getElem?_eq_some_iff.mp at_i
      exact lt_of_le_of_lt (userKey_mono scan.sorted (Nat.le_sub_one_of_lt bound) at_i last) lt
    have passed : b.entries.length - 1 < seekPosition b target :=
      (lt_seekPosition_iff target scan.sorted last).mpr (internalKey_lt.mpr (.inl lt))
    have inner : r + 1 < b.restarts.length := by
      by_contra whole
      have covered := Nat.le_trans scan.indexed.covered (Nat.mul_le_mul_right interval (Nat.le_of_not_lt whole))
      omega
    have scanned := scan.interval_eq
    rw [scannedRestart, Block.numRestarts, Nat.mod_eq_of_lt (by omega : b.restarts.length - 1 < 256)] at scanned
    split at scanned
    next => omega
    next =>
      rw [scanned] at inner
      exact noFalsePositive ⟨buckets, scan.found, inner, all⟩
  · -- the target's user key ends the block, and the scan covers its interval up to the end
    have high := (scan.covers last equal).2
    have reached : ¬entry.1 < target := by
      intro before
      have passed := (lt_seekPosition_iff target scan.sorted scan.here).mpr before
      omega
    have upper := userKey_mono scan.sorted (by omega : stop ≤ b.entries.length - 1) scan.here last
    rw [equal] at upper
    exact other (le_antisymm upper (userKey_le (not_lt.mp reached)))

end

theorem seekForGetImpl_spec (target : EntryKey K) (indexed : Indexed getSliceHash interval b) (sorted : b.Sorted)
    (found : b.hashIndex = some buckets) (inside : it.current ≤ b.entries.length) :
    let result := it.seekForGetImpl getSliceHash b buckets target
    (result.1 = false → NoMatch b target ∧ (¬InnerFalsePositive getSliceHash b target → EndsAfter b target)) ∧
      (result.1 = true → result.2.current = seekPosition b target ∧ OnEntry b result.2) := by
  have position := seekPosition_le target b
  unfold seekForGetImpl
  dsimp only
  split
  next => exact ⟨fun answer => by simp at answer, fun _ => seekImpl_spec target sorted indexed inside⟩
  next noCollision =>
    have scanned := scannedRestart_lt indexed found _ noCollision
    obtain ⟨current, onEntry⟩ := scan_stop it target indexed sorted scanned
    generalize restart : scannedRestart b (lookup buckets (getSliceHash target.userKey)) = r at *
    generalize scanInterval b target _ _ _ = stopped at *
    split
    next ended =>
      -- the end of the block is reached in its last interval only
      refine ⟨fun answer => by simp at answer, fun _ => ⟨?_, onEntry⟩⟩
      change stopped.current = b.entries.length at ended
      change stopped.current = seekPosition b target
      rcases Nat.eq_zero_or_pos b.entries.length with empty | ne
      · omega
      · have start := restartPoint_lt indexed ne scanned
        omega
    next notEnded =>
      change stopped.current ≠ b.entries.length at notEnded
      have here := getElem?_eq_getElem (by omega : stopped.current < b.entries.length)
      have scan : Scanned getSliceHash interval b buckets target r stopped.current _ :=
        ⟨indexed, sorted, found, noCollision, restart.symm, current, here⟩
      have raw : stopped.rawKey = some (b.entries[stopped.current]).1 := congrArg DataBlockIter.rawKey (onEntry _ here)
      rw [raw, map_some, any_some]
      split
      next other =>
        have different : (b.entries[stopped.current]).1.userKey ≠ target.userKey := fun eq => other (congrArg some eq)
        exact ⟨fun _ => ⟨scan.noMatch different, scan.endsAfter different⟩, fun answer => by simp at answer⟩
      next eq =>
        have met := scan.matched (some.inj (not_not.mp eq))
        split
        next => exact ⟨fun answer => by simp at answer, fun _ => ⟨met, onEntry⟩⟩
        next => exact ⟨fun answer => by simp at answer, fun _ => seekImpl_spec target sorted indexed (by omega)⟩

variable (getSliceHash : K → ℕ) (encodedSize : Option (EntryKey K) → EntryKey K → V → ℕ) (interval : ℕ) (utilRatio : ℚ)
  (entries : List (EntryKey K × V)) (target : EntryKey K) (it : DataBlockIter K)

/-- A negative answer ends the search, except for an inner false positive, and after a positive one the iterator is
where `Seek` leaves it. -/
theorem seekForGet_contract (interval_pos : 0 < interval) (sorted : entries.Pairwise fun first second => first.1 < second.1)
    (inside : it.current ≤ entries.length) :
    let b := ((BlockBuilder.new interval .binaryAndHash utilRatio).addAll getSliceHash encodedSize entries).finish
    let answer := it.seekForGet getSliceHash b target
    (answer.1 = false → NoMatch b target ∧ (¬InnerFalsePositive getSliceHash b target → EndsAfter b target)) ∧
      (answer.1 = true → answer.2.current = (it.seekImpl b target).current ∧
        (answer.2.valid b → answer.2 = it.seekImpl b target)) := by
  intro b
  have eq : b.entries = entries := built_entries encodedSize interval .binaryAndHash utilRatio interval_pos
  have indexed : Indexed getSliceHash interval b := built_indexed encodedSize interval .binaryAndHash utilRatio interval_pos
  have ordered : b.Sorted := by
    rw [Block.Sorted, eq]
    exact sorted
  have within : it.current ≤ b.entries.length := by rwa [eq]
  obtain ⟨current, onEntry⟩ := seekImpl_spec target ordered indexed within
  rw [seekForGet]
  split
  next =>
    exact ⟨fun answer => by simp at answer, fun _ => ⟨rfl, fun _ => rfl⟩⟩
  next buckets found =>
    obtain ⟨negative, pos⟩ := seekForGetImpl_spec target indexed ordered found within
    refine ⟨negative, fun answer => ?_⟩
    obtain ⟨position, left⟩ := pos answer
    have met := position.trans current.symm
    exact ⟨met, onEntry_unique left onEntry met⟩

theorem seekForGet_innerFalsePositive {getSliceHash : K → ℕ} {interval : ℕ} (indexed : Indexed getSliceHash interval b)
    (sorted : b.Sorted)
    (falsePositive : InnerFalsePositive getSliceHash b target) : (it.seekForGet getSliceHash b target).1 = false ∧
      ¬EndsAfter b target := by
  obtain ⟨buckets, found, inner, all⟩ := falsePositive
  have few : b.numRestarts ≤ 254 := indexed.fewRestarts buckets found
  have reached := indexed.reached (lt_of_le_of_lt (Nat.le_add_left 1 _) inner)
  have passed : seekPosition b target = b.entries.length := by
    apply findIdx_eq_length_of_false
    intro entry mem
    simpa using internalKey_lt.mpr (.inl (all entry mem))
  constructor
  · have scanned : scannedRestart b (lookup buckets (getSliceHash target.userKey)) =
        lookup buckets (getSliceHash target.userKey) :=
      if_neg (by rw [kNoEntry]; omega)
    obtain ⟨current, onEntry⟩ := scan_stop it target indexed sorted (Nat.lt_of_succ_lt inner)
    have limit := restartPoint_lt indexed (by omega) inner
    rw [seekForGet, found]
    dsimp only [seekForGetImpl]
    rw [if_neg (by rw [kCollision]; omega), scanned]
    generalize scanInterval b target _ _ _ = stopped at *
    have here := getElem?_eq_getElem (by omega : stopped.current < b.entries.length)
    have raw : stopped.rawKey = some (b.entries[stopped.current]).1 := congrArg DataBlockIter.rawKey (onEntry _ here)
    have other := (all _ (getElem_mem (by omega : stopped.current < b.entries.length))).ne
    rw [if_neg (show stopped.current ≠ b.restartsOffset from by rw [Block.restartsOffset]; omega), raw, map_some,
      if_pos fun eq => other (some.inj eq)]
  · rintro ⟨last, ends, larger⟩
    exact absurd (all last (mem_of_getLast? ends)) (not_lt.mpr larger.le)

def twoIntervals : Block ℕ Unit :=
  ((BlockBuilder.new 1 .binaryAndHash 0).addAll id (fun _ _ _ => 12)
    [(⟨1, 10, .value⟩, ()), (⟨2, 5, .value⟩, ())]).finish

theorem seekForGet_contract_newer :
    let answer := (⟨2, 0, none⟩ : DataBlockIter ℕ).seekForGet id twoIntervals ⟨1, 5, .value⟩
    answer.1 = false ∧ NoMatch twoIntervals ⟨1, 5, .value⟩ ∧ EndsAfter twoIntervals ⟨1, 5, .value⟩ := by
  have negative : ((⟨2, 0, none⟩ : DataBlockIter ℕ).seekForGet id twoIntervals ⟨1, 5, .value⟩).1 = false := by decide +kernel
  obtain ⟨noMatch, ends⟩ := (seekForGet_contract id (fun _ _ _ => 12) 1 0 [(⟨1, 10, .value⟩, ()), (⟨2, 5, .value⟩, ())]
    ⟨1, 5, .value⟩ ⟨2, 0, none⟩ (by decide) (by decide) (by decide)).1 negative
  refine ⟨negative, noMatch, ends ?_⟩
  rintro ⟨buckets, -, -, all⟩
  have larger := all (⟨2, 5, .value⟩, ()) (by decide +kernel)
  exact absurd larger (by decide)

/-- A target older than an entry of its user key, and one beyond the last key whose bucket names the first interval. -/
theorem seekForGet_misses : (((⟨2, 0, none⟩ : DataBlockIter ℕ).seekForGet id twoIntervals ⟨1, 5, .value⟩).1 = false ∧
      ∃ entry ∈ twoIntervals.entries, entry.1.userKey = 1) ∧
    ((⟨2, 0, none⟩ : DataBlockIter ℕ).seekForGet id twoIntervals ⟨4, 5, .value⟩).1 = false ∧
      ∀ entry ∈ twoIntervals.entries, entry.1.userKey < 4 := by
  refine ⟨⟨by decide +kernel, (⟨1, 10, .value⟩, ()), by decide +kernel, rfl⟩, by decide +kernel, by decide +kernel⟩

end VcompProof.Table
