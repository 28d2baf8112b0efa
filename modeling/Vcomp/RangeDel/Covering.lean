import Mathlib.Data.List.GetD
import Mathlib.Data.List.MinMax
import Mathlib.Order.Nat
import Vcomp.RangeDel.Fragments

namespace VcompModel.RangeDel

variable {K : Type} [LinearOrder K]

def maxCovering (tombstones : List (RangeTombstone K)) (upperBound : ℕ) (key : K) : ℕ :=
  ((tombstones.filter fun t => t.Covers key ∧ t.seq ≤ upperBound).map (·.seq)).foldr max 0

end VcompModel.RangeDel

namespace VcompProof.RangeDel

open VcompModel VcompModel.RangeDel List

variable {K : Type} [LinearOrder K] {options : FragmentOptions} {list : FragmentedRangeTombstoneList K}
  {tombstones : List (RangeTombstone K)} {upperBound : ℕ} {snapshots : List ℕ} {bound : ℕ}
  {fragments : List (Fragment K)}

/-- What `VectorIterator` does to its keys: they come in the order of the internal key comparator. -/
def Sorts (sort : List (RangeTombstone K) → List (RangeTombstone K)) : Prop :=
  ∀ tombstones, (sort tombstones).Perm tombstones ∧ (sort tombstones).Pairwise fun a b => ¬ b.key < a.key

theorem startKey_le {a b : RangeTombstone K} (ordered : ¬ b.key < a.key) : a.startKey ≤ b.startKey :=
  userKey_le (not_lt.mp ordered)

theorem isSorted_pairwise (sorted : isSorted tombstones = true) : tombstones.Pairwise fun a b => ¬ b.key < a.key := by
  have chain : tombstones.IsChain fun a b => ¬ b.key < a.key := by
    induction tombstones using isSorted.induct with
    | case1 a b tombstones ih =>
      rw [isSorted, Bool.and_eq_true, Bool.not_eq_true', decide_eq_false_iff_not] at sorted
      exact .cons_cons sorted.1 (ih sorted.2)
    | case2 tombstones short =>
      match tombstones, short with
      | [], _ => exact .nil
      | [a], _ => exact .singleton a
      | a :: b :: rest, short => exact absurd rfl (short a b rest)
  have trans : IsTrans (RangeTombstone K) fun a b => ¬ b.key < a.key :=
    ⟨fun a b c first second => not_lt.mpr ((not_lt.mp first).trans (not_lt.mp second))⟩
  exact chain.pairwise

theorem list_fragmented {sort : List (RangeTombstone K) → List (RangeTombstone K)} (sorts : Sorts sort)
    (ordered : ∀ t ∈ tombstones, t.startKey ≤ t.endKey) :
    Fragmented options tombstones (fragmentedRangeTombstoneList options sort tombstones) := by
  unfold fragmentedRangeTombstoneList
  split
  next sorted => exact fragmentTombstones_fragmented ordered ((isSorted_pairwise sorted).imp startKey_le)
  next unsorted =>
    obtain ⟨perm, sorted⟩ := sorts tombstones
    have fragmented : Fragmented options (sort tombstones) (fragmentTombstones options (sort tombstones)) :=
      fragmentTombstones_fragmented (fun t mem => ordered t (perm.mem_iff.mp mem)) (sorted.imp startKey_le)
    exact fragmented.congr fun t => perm.mem_iff

section

theorem endKeys_rising (fragmented : Fragmented options tombstones list) :
    list.tombstones.Pairwise fun a b => a.endKey < b.endKey := by
  apply (pairwise_map.mp fragmented.apart).imp_of_mem
  intro a b _ later before
  exact before.trans_lt (fragmented.proper (list.fragment b) (mem_map_of_mem later))

theorem seekToCoveringTombstone_find (fragmented : Fragmented options tombstones list) (target : K) :
    list.tombstones[list.seekToCoveringTombstone target]? =
      list.tombstones.find? fun stack => decide (target < stack.endKey) := by
  have passed : list.tombstones.Pairwise fun a b =>
      (!(decide (target < b.endKey))) = true → (!(decide (target < a.endKey))) = true := by
    apply (endKeys_rising fragmented).imp
    intro a b lt
    simp only [Bool.not_eq_true', decide_eq_false_iff_not, not_lt]
    exact lt.le.trans
  have found := LowerBound.find?_eq_lowerBound (l := list.tombstones) (p := fun stack => !(decide (target < stack.endKey)))
    (Nat.le_of_eq (Nat.zero_add list.tombstones.length)) (by simpa using passed)
  simp only [drop_zero, take_length, Bool.not_not, Nat.zero_add] at found
  rw [found]
  unfold FragmentedRangeTombstoneList.seekToCoveringTombstone
  split
  next ended => rw [ended, getElem?_length]
  · rfl

omit [LinearOrder K] in
theorem maxVisibleSeq_find {stack : RangeTombstoneStack K}
    (bounds : stack.seqStartIdx ≤ stack.seqEndIdx ∧ stack.seqEndIdx ≤ list.tombstoneSeqs.length)
    (falling : (list.fragment stack).seqs.Pairwise (· ≥ ·)) (upperBound : ℕ) :
    (list.fragment stack).seqs.find? (· ≤ upperBound) =
      if list.maxVisibleSeq stack upperBound = stack.seqEndIdx then none
      else list.tombstoneSeqs[list.maxVisibleSeq stack upperBound]? := by
  have passed : (list.fragment stack).seqs.Pairwise fun a b =>
      decide (b > upperBound) = true → decide (a > upperBound) = true := by
    apply falling.imp
    intro a b ge above
    exact decide_eq_true ((of_decide_eq_true above).trans_le ge)
  have found := LowerBound.find?_eq_lowerBound (by omega) passed
  rw [Nat.add_sub_cancel' bounds.1] at found
  have eq : (fun seq : ℕ => !(decide (seq > upperBound))) = fun seq => decide (seq ≤ upperBound) := by
    funext seq
    simp [← decide_not]
  rw [eq] at found
  exact found

theorem maxCoveringTombstoneSeqnum_eq (fragmented : Fragmented options tombstones list) (upperBound : ℕ) (target : K) :
    list.maxCoveringTombstoneSeqnum upperBound target =
      (list.fragments.find? fun fragment => decide (target < fragment.endKey)).elim 0 fun fragment =>
        if fragment.startKey ≤ target then (fragment.seqs.find? (· ≤ upperBound)).getD 0 else 0 := by
  have found : (list.fragments.find? fun fragment => decide (target < fragment.endKey)) =
      (list.tombstones.find? fun stack => decide (target < stack.endKey)).map list.fragment := find?_map
  unfold FragmentedRangeTombstoneList.maxCoveringTombstoneSeqnum
  rw [seekToCoveringTombstone_find fragmented, found]
  cases at_pos : list.tombstones.find? fun stack => decide (target < stack.endKey) with
  | none => rfl
  | some stack =>
    have mem := mem_of_find?_eq_some at_pos
    have bounds := fragmented.indexed stack mem
    have falling := fragmented.falling (list.fragment stack) (mem_map_of_mem mem)
    dsimp only [Option.map_some, Option.elim_some]
    rw [maxVisibleSeq_find bounds falling upperBound]
    by_cases ended : list.maxVisibleSeq stack upperBound = stack.seqEndIdx
    · rw [if_neg (fun valid => valid.1 ended), if_pos ended]
      exact (ite_self 0).symm
    · rw [if_neg ended, getD_eq_getElem?_getD]
      exact if_congr (and_iff_right ended) rfl rfl

end

theorem find?_eq_max {seqs values : List ℕ} (falling : seqs.Pairwise (· ≥ ·))
    (eq : ∀ seq, seq ∈ values ↔ seq ∈ seqs ∧ seq ≤ upperBound) :
    (seqs.find? (· ≤ upperBound)).getD 0 = values.foldr max 0 := by
  cases found : seqs.find? (· ≤ upperBound) with
  | none =>
    have above := find?_eq_none.mp found
    apply Nat.le_antisymm (Nat.zero_le _)
    apply max_le_of_forall_le values 0
    intro seq mem
    obtain ⟨inSeqs, visible⟩ := (eq seq).mp mem
    exact absurd (decide_eq_true visible) (above seq inSeqs)
  | some largest =>
    obtain ⟨visible, front, back, rfl, above⟩ := find?_eq_some_iff_append.mp found
    apply le_antisymm
    · exact le_max_of_le ((eq largest).mpr ⟨mem_append_right _ mem_cons_self, of_decide_eq_true visible⟩) le_rfl
    · apply max_le_of_forall_le values largest
      intro seq mem
      obtain ⟨inSeqs, low⟩ := (eq seq).mp mem
      rcases mem_append.mp inSeqs with inFront | inBack
      · have high := above seq inFront
        rw [decide_eq_true low] at high
        cases high
      · rcases mem_cons.mp inBack with rfl | later
        · exact le_rfl
        · exact (pairwise_cons.mp (pairwise_append.mp falling).2.1).1 seq later

theorem listed_le_nextSnapshot (sorted : snapshots.Pairwise (· ≤ ·)) {seq : ℕ}
    (listed : bound ∈ snapshots) (lt : bound < seq) :
    let upperBound := LowerBound.lowerBound (fun i => (snapshots[i]?).any (· < seq)) 0 snapshots.length
    upperBound ≠ 0 ∧ bound ≤ snapshots.getD (upperBound - 1) 0 := by
  intro upperBound
  have falling : LowerBound.FallingOn (fun i => (snapshots[i]?).any (· < seq)) 0 snapshots.length := by
    apply LowerBound.fallingOn_of_pairwise
    rw [drop_zero, take_length]
    apply sorted.imp
    intro a b le less
    exact decide_eq_true (le.trans_lt (of_decide_eq_true less))
  obtain ⟨-, high, -, stopped⟩ := LowerBound.lowerBound_spec_on falling
  obtain ⟨i, inside, rfl⟩ := mem_iff_getElem.mp listed
  have early : i < upperBound := by
    by_contra late
    have no := stopped i (not_lt.mp late) (by omega)
    rw [getElem?_eq_getElem inside, Option.any_some, decide_eq_false_iff_not] at no
    exact no lt
  have last : upperBound - 1 < snapshots.length := by omega
  refine ⟨by omega, ?_⟩
  rw [getD_eq_getElem _ _ last]
  rcases eq_or_lt_of_le (show i ≤ upperBound - 1 by omega) with eq | less
  · simp [eq]
  · exact pairwise_iff_getElem.mp sorted i _ inside last less

theorem find?_dropUnpreserved (sorted : snapshots.Pairwise (· ≤ ·)) {nextSnapshot : ℕ}
    (le : bound ≤ nextSnapshot) (listed : bound ∈ snapshots ∨ nextSnapshot ≤ bound) (seqs : List ℕ) :
    (dropUnpreserved snapshots nextSnapshot seqs).find? (· ≤ bound) = seqs.find? (· ≤ bound) := by
  induction seqs generalizing nextSnapshot with
  | nil => rfl
  | cons seq seqs ih =>
    unfold dropUnpreserved
    dsimp only
    by_cases visible : seq ≤ bound
    · rw [if_pos (visible.trans le)]
      split
      · rw [find?_cons_of_pos (by simpa using visible), find?_cons_of_pos (by simpa using visible)]
      · rw [find?_cons_of_pos (by simpa using visible), find?_cons_of_pos (by simpa using visible)]
    rw [find?_cons_of_neg (l := seqs) (by simpa using visible)]
    split
    next preserved =>
      have inSnapshots : bound ∈ snapshots := listed.resolve_right fun ge => visible (preserved.trans ge)
      obtain ⟨some, next⟩ := listed_le_nextSnapshot sorted inSnapshots (not_le.mp visible)
      rw [if_neg some, find?_cons_of_neg (by simpa using visible)]
      exact ih next (.inl inSnapshots)
    next dropped => exact ih le listed

theorem find?_covering (apart : fragments.Pairwise fun a b => a.endKey ≤ b.startKey) {key : K}
    {fragment : Fragment K} (mem : fragment ∈ fragments) (covers : fragment.Covers key) :
    (fragments.find? fun fragment => decide (key < fragment.endKey)) = some fragment := by
  obtain ⟨front, back, rfl⟩ := append_of_mem mem
  apply find?_eq_some_iff_append.mpr
  refine ⟨decide_eq_true covers.2, front, back, rfl, ?_⟩
  intro earlier inFront
  have before : earlier.endKey ≤ fragment.startKey :=
    (pairwise_append.mp apart).2.2 earlier inFront fragment mem_cons_self
  simpa using before.trans covers.1

theorem covers_unique (apart : fragments.Pairwise fun a b => a.endKey ≤ b.startKey) {key : K}
    {a b : Fragment K} (inA : a ∈ fragments) (inB : b ∈ fragments) (coversA : a.Covers key) (coversB : b.Covers key) : a = b :=
  Option.some.inj ((find?_covering apart inA coversA).symm.trans (find?_covering apart inB coversB))

theorem maxCoveringTombstoneSeqnum_max (fragmented : Fragmented options tombstones list)
    (kept : ∀ seqs : List ℕ, (options.keep seqs).find? (· ≤ upperBound) = seqs.find? (· ≤ upperBound)) (key : K) :
    list.maxCoveringTombstoneSeqnum upperBound key = maxCovering tombstones upperBound key := by
  rw [maxCoveringTombstoneSeqnum_eq fragmented]
  rcases fragmented.exact key with ⟨fragment, mem, covers, all, seqs, falling, -, eq⟩ | ⟨uncovered, none⟩
  · rw [find?_covering fragmented.apart mem covers, Option.elim_some, if_pos covers.1, seqs, kept]
    apply find?_eq_max falling
    intro seq
    rw [eq]
    simp only [CoveredAt, mem_map, mem_filter, decide_eq_true_eq]
    grind
  · have nothing : maxCovering tombstones upperBound key = 0 := by
      unfold maxCovering
      rw [filter_eq_nil_iff.mpr]
      · rfl
      · intro t mem visible
        exact none t.seq ⟨t, mem, (of_decide_eq_true visible).1, rfl⟩
    rw [nothing]
    cases found : list.fragments.find? fun fragment => decide (key < fragment.endKey) with
    | none => rfl
    | some fragment =>
      have mem := mem_of_find?_eq_some found
      have ends : key < fragment.endKey := by simpa using find?_some found
      exact if_neg fun starts => uncovered fragment mem ⟨starts, ends⟩

theorem fragments_coveredAt (fragmented : Fragmented options tombstones list) (reads : options.forCompaction = false) (key : K)
    (seq : ℕ) : (∃ fragment ∈ list.fragments, fragment.Covers key ∧ seq ∈ fragment.seqs) ↔ CoveredAt tombstones key seq := by
  rcases fragmented.exact key with ⟨fragment, mem, covers, all, seqs, -, -, eq⟩ | ⟨uncovered, none⟩
  · rw [FragmentOptions.keep, reads, if_neg Bool.false_ne_true] at seqs
    rw [← eq seq, ← seqs]
    constructor
    · rintro ⟨other, inList, coversOther, holds⟩
      rwa [covers_unique fragmented.apart mem inList covers coversOther]
    · intro holds
      exact ⟨fragment, mem, covers, holds⟩
  · constructor
    · rintro ⟨fragment, mem, covers, -⟩
      exact absurd covers (uncovered fragment mem)
    · intro covered
      exact absurd covered (none seq)

def SortedDisjoint (fragments : List (Fragment K)) : Prop :=
  (∀ fragment ∈ fragments, fragment.startKey < fragment.endKey) ∧ fragments.Pairwise fun a b => a.endKey ≤ b.startKey

theorem fragmentation_exact (sort : List (RangeTombstone K) → List (RangeTombstone K)) (sorts : Sorts sort)
    (tombstones : List (RangeTombstone K)) (ordered : ∀ t ∈ tombstones, t.startKey ≤ t.endKey) (snapshots : List ℕ)
    (sorted : snapshots.Pairwise (· ≤ ·)) (stored : ∀ snapshot ∈ snapshots, snapshot ≤ kMaxSequenceNumber) :
    let list := fragmentedRangeTombstoneList ⟨false, snapshots⟩ sort tombstones
    let compacted := fragmentedRangeTombstoneList ⟨true, snapshots⟩ sort tombstones
    SortedDisjoint list.fragments ∧
      (∀ key seq, (∃ fragment ∈ list.fragments, fragment.Covers key ∧ seq ∈ fragment.seqs) ↔ CoveredAt tombstones key seq) ∧
      (∀ key upperBound, list.maxCoveringTombstoneSeqnum upperBound key = maxCovering tombstones upperBound key) ∧
      SortedDisjoint compacted.fragments ∧
      ∀ key upperBound, upperBound ∈ snapshots ∨ upperBound = kMaxSequenceNumber →
        compacted.maxCoveringTombstoneSeqnum upperBound key = list.maxCoveringTombstoneSeqnum upperBound key := by
  intro list compacted
  have reader : Fragmented ⟨false, snapshots⟩ tombstones list := list_fragmented sorts ordered
  have compaction : Fragmented ⟨true, snapshots⟩ tombstones compacted := list_fragmented sorts ordered
  have read : ∀ key upperBound, list.maxCoveringTombstoneSeqnum upperBound key = maxCovering tombstones upperBound key :=
    fun key upperBound => maxCoveringTombstoneSeqnum_max reader (fun seqs => rfl) key
  refine ⟨⟨reader.proper, reader.apart⟩, fragments_coveredAt reader rfl, read, ⟨compaction.proper, compaction.apart⟩, ?_⟩
  intro key upperBound listed
  rw [read]
  apply maxCoveringTombstoneSeqnum_max compaction
  intro seqs
  rcases listed with inSnapshots | rfl
  · exact find?_dropUnpreserved sorted (stored upperBound inSnapshots) (.inl inSnapshots) seqs
  · exact find?_dropUnpreserved sorted le_rfl (.inr le_rfl) seqs

theorem sortBy_sorts :
    Sorts fun tombstones : List (RangeTombstone K) => SortBy.sortBy (fun a b => decide (a.key < b.key)) tombstones := by
  have comparator : SortBy.Comparator fun a b : RangeTombstone K => decide (a.key < b.key) := by
    apply SortBy.Comparator.of_rank RangeTombstone.key
    intro a b
    exact decide_eq_true_iff
  intro tombstones
  refine ⟨SortBy.sortBy_perm _ _, (SortBy.sortBy_sorted comparator tombstones).imp ?_⟩
  intro a b sorted
  exact of_decide_eq_false sorted

theorem fragmentation_exact_overlapping :
    let tombstones : List (RangeTombstone ℕ) := [⟨4, 9, 7⟩, ⟨1, 6, 3⟩, ⟨4, 6, 5⟩, ⟨2, 2, 8⟩]
    let list compaction :=
      fragmentedRangeTombstoneList ⟨compaction, [4]⟩ (SortBy.sortBy fun a b => decide (a.key < b.key)) tombstones
    (list false).maxCoveringTombstoneSeqnum 6 5 = 5 ∧ maxCovering tombstones 6 5 = 5 ∧
      (list true).maxCoveringTombstoneSeqnum 4 5 = (list false).maxCoveringTombstoneSeqnum 4 5 ∧
      (list true).maxCoveringTombstoneSeqnum 6 5 ≠ (list false).maxCoveringTombstoneSeqnum 6 5 := by
  intro tombstones list
  have exact := fragmentation_exact _ sortBy_sorts tombstones (by decide) [4] (by decide) (by decide)
  exact ⟨(exact.2.2.1 5 6).trans (by decide), by decide, exact.2.2.2.2 5 4 (by decide), by decide +kernel⟩

end VcompProof.RangeDel
