import Vcomp.RangeDel.Fragmenter

namespace VcompModel.RangeDel

structure Fragment (K : Type) where
  startKey : K
  endKey : K
  seqs : List ℕ

def FragmentedRangeTombstoneList.fragment {K : Type} (list : FragmentedRangeTombstoneList K) (stack : RangeTombstoneStack K) :
    Fragment K :=
  ⟨stack.startKey, stack.endKey, (list.tombstoneSeqs.drop stack.seqStartIdx).take (stack.seqEndIdx - stack.seqStartIdx)⟩

def FragmentedRangeTombstoneList.fragments {K : Type} (list : FragmentedRangeTombstoneList K) : List (Fragment K) :=
  list.tombstones.map list.fragment

variable {K : Type} [LinearOrder K]

def Fragment.Covers (fragment : Fragment K) (key : K) : Prop := fragment.startKey ≤ key ∧ key < fragment.endKey

def RangeTombstone.Covers (t : RangeTombstone K) (key : K) : Prop := t.startKey ≤ key ∧ key < t.endKey

instance (t : RangeTombstone K) (key : K) : Decidable (t.Covers key) := inferInstanceAs (Decidable (_ ∧ _))

def CoveredAt (tombstones : List (RangeTombstone K)) (key : K) (seq : ℕ) : Prop :=
  ∃ t ∈ tombstones, t.Covers key ∧ t.seq = seq

end VcompModel.RangeDel

namespace VcompProof.RangeDel

open VcompModel VcompModel.RangeDel List

section

variable {K : Type}

def Indexed (list : FragmentedRangeTombstoneList K) : Prop :=
  ∀ stack ∈ list.tombstones, stack.seqStartIdx ≤ stack.seqEndIdx ∧ stack.seqEndIdx ≤ list.tombstoneSeqs.length

def flushedSeqs (ends : List (EntryKey K)) : List ℕ := SortBy.sortBy (fun a b => decide (a > b)) (ends.map (·.sequence))

theorem mem_flushedSeqs {ends : List (EntryKey K)} {seq : ℕ} : seq ∈ flushedSeqs ends ↔ ∃ e ∈ ends, e.sequence = seq := by
  rw [flushedSeqs, SortBy.mem_sortBy, mem_map]

theorem flushedSeqs_falling (ends : List (EntryKey K)) : (flushedSeqs ends).Pairwise (· ≥ ·) := by
  have comparator : SortBy.Comparator fun a b : ℕ => decide (a > b) := by
    apply SortBy.Comparator.of_rank OrderDual.toDual
    intro a b
    exact decide_eq_true_iff
  apply (SortBy.sortBy_sorted comparator (ends.map (·.sequence))).imp
  intro a b sorted
  exact not_lt.mp (of_decide_eq_false sorted)

theorem dropUnpreserved_sublist (snapshots : List ℕ) (nextSnapshot : ℕ) (seqs : List ℕ) :
    (dropUnpreserved snapshots nextSnapshot seqs).Sublist seqs := by
  induction seqs generalizing nextSnapshot with
  | nil => exact .slnil
  | cons seq seqs ih =>
    unfold dropUnpreserved
    split
    · dsimp only
      split
      · exact (nil_sublist seqs).cons_cons seq
      · exact (ih _).cons_cons seq
    · exact (ih _).cons seq

variable {options : FragmentOptions} {list : FragmentedRangeTombstoneList K} (startKey endKey : K) (ends : List (EntryKey K))

theorem flushFragment_indexed (indexed : Indexed list) : Indexed (list.flushFragment options startKey endKey ends) := by
  intro stack mem
  simp only [FragmentedRangeTombstoneList.flushFragment, mem_append, mem_singleton, length_append] at mem ⊢
  rcases mem with old | rfl
  · have before := indexed stack old
    omega
  · exact ⟨Nat.le_add_right _ _, le_rfl⟩

theorem flushFragment_fragments (indexed : Indexed list) : (list.flushFragment options startKey endKey ends).fragments =
      list.fragments ++ [⟨startKey, endKey, options.keep (flushedSeqs ends)⟩] := by
  unfold FragmentedRangeTombstoneList.fragments FragmentedRangeTombstoneList.fragment
    FragmentedRangeTombstoneList.flushFragment
  rw [map_append, map_singleton]
  congr 1
  · apply map_congr_left
    intro stack mem
    obtain ⟨ordered, inside⟩ := indexed stack mem
    rw [drop_append_of_le_length (by omega), take_append_of_le_length (by rw [length_drop]; omega)]
  · rw [drop_left, Nat.add_sub_cancel_left, take_length]
    rfl

theorem keep_sublist (options : FragmentOptions) (seqs : List ℕ) : (options.keep seqs).Sublist seqs := by
  unfold FragmentOptions.keep
  split
  · exact dropUnpreserved_sublist _ _ _
  · exact .refl _

end

variable {K : Type} [LinearOrder K] {e : EntryKey K}

theorem mem_emplaceEndKey {key : EntryKey K} {ends : List (EntryKey K)} :
    e ∈ emplaceEndKey key ends ↔ e = key ∨ e ∈ ends := by
  induction ends with
  | nil => simp [emplaceEndKey]
  | cons x ends ih =>
    unfold emplaceEndKey
    split
    · simp
    · split
      next eq => subst eq; simp
      · rw [mem_cons, ih, mem_cons]
        tauto

theorem emplaceEndKey_sorted (key : EntryKey K) {ends : List (EntryKey K)} (sorted : ends.Pairwise (· < ·)) :
    (emplaceEndKey key ends).Pairwise (· < ·) := by
  induction ends with
  | nil => exact pairwise_singleton _ _
  | cons x ends ih =>
    obtain ⟨first, later⟩ := pairwise_cons.mp sorted
    unfold emplaceEndKey
    split
    next lt =>
      apply pairwise_cons.mpr
      refine ⟨?_, sorted⟩
      intro e mem
      rcases mem_cons.mp mem with rfl | inner
      · exact lt
      · exact lt.trans (first e inner)
    next notLess =>
      split
      · exact sorted
      next ne =>
        apply pairwise_cons.mpr
        refine ⟨?_, ih later⟩
        intro e mem
        rcases mem_emplaceEndKey.mp mem with rfl | inner
        · exact lt_of_le_of_ne (not_lt.mp notLess) (Ne.symm ne)
        · exact first e inner

variable (options : FragmentOptions)

def KeepsOf (seqs : List ℕ) (covered : ℕ → Prop) : Prop :=
  ∃ all : List ℕ, seqs = options.keep all ∧ all.Pairwise (· ≥ ·) ∧ (∃ seq, seq ∈ all) ∧ ∀ seq, seq ∈ all ↔ covered seq

def ExactAt (fragments : List (Fragment K)) (done : List (RangeTombstone K)) (key : K) : Prop :=
  (∃ fragment ∈ fragments, fragment.Covers key ∧ KeepsOf options fragment.seqs (CoveredAt done key)) ∨
    (∀ fragment ∈ fragments, ¬ fragment.Covers key) ∧ ∀ seq, ¬ CoveredAt done key seq

/-- The state of the sweep at `cur`: exact before it, and open end keys for what comes. -/
structure Swept (done : List (RangeTombstone K)) (cur : K) (ends : List (EntryKey K))
    (list : FragmentedRangeTombstoneList K) : Prop where
  indexed : Indexed list
  apart : list.fragments.Pairwise fun a b => a.endKey ≤ b.startKey
  proper : ∀ fragment ∈ list.fragments, fragment.startKey < fragment.endKey ∧ fragment.endKey ≤ cur
  falling : ∀ fragment ∈ list.fragments, fragment.seqs.Pairwise (· ≥ ·)
  exact : ∀ key < cur, ExactAt options list.fragments done key
  sorted : ends.Pairwise (· < ·)
  ahead : ∀ e ∈ ends, cur ≤ e.userKey
  covered : ∀ key ≥ cur, ∀ seq, CoveredAt done key seq ↔ ∃ e ∈ ends, key < e.userKey ∧ e.sequence = seq

variable {options} {done : List (RangeTombstone K)} {cur next : K} {ends : List (EntryKey K)}
  {list : FragmentedRangeTombstoneList K} {t : RangeTombstone K} {sweep : Sweep K}

theorem Swept.advance (swept : Swept options done cur [] list) (le : cur ≤ next) : Swept options done next [] list :=
  { swept with
    proper := fun fragment mem => ⟨(swept.proper fragment mem).1, (swept.proper fragment mem).2.trans le⟩
    exact := by
      intro key before
      by_cases early : key < cur
      · exact swept.exact key early
      · refine .inr ⟨?_, ?_⟩
        · intro fragment mem covers
          exact early (covers.2.trans_le (swept.proper fragment mem).2)
        · intro seq covered
          obtain ⟨e, mem, -⟩ := (swept.covered key (not_lt.mp early) seq).mp covered
          cases mem
    sorted := .nil
    ahead := fun e mem => absurd mem not_mem_nil
    covered := fun key later => swept.covered key (le.trans later) }

theorem Swept.skip (swept : Swept options done cur (e :: ends) list) (here : cur = e.userKey) :
    Swept options done cur ends list :=
  { swept with
    sorted := (pairwise_cons.mp swept.sorted).2
    ahead := fun e mem => swept.ahead e (mem_cons_of_mem _ mem)
    covered := by
      intro key later seq
      rw [swept.covered key later seq, exists_mem_cons_iff]
      apply or_iff_right
      intro first
      exact (here ▸ first.1).not_ge later }

theorem Swept.flush (swept : Swept options done cur ends list) (filled : ends ≠ []) (lt : cur < next)
    (beyond : ∀ e ∈ ends, next ≤ e.userKey) :
    Swept options done next ends (list.flushFragment options cur next ends) where
  indexed := flushFragment_indexed _ _ _ swept.indexed
  apart := by
    rw [flushFragment_fragments _ _ _ swept.indexed, pairwise_append]
    refine ⟨swept.apart, pairwise_singleton _ _, ?_⟩
    intro fragment mem new last
    rw [mem_singleton.mp last]
    exact (swept.proper fragment mem).2
  proper := by
    intro fragment mem
    rw [flushFragment_fragments _ _ _ swept.indexed, mem_append, mem_singleton] at mem
    rcases mem with old | rfl
    · exact ⟨(swept.proper fragment old).1, (swept.proper fragment old).2.trans lt.le⟩
    · exact ⟨lt, le_rfl⟩
  falling := by
    intro fragment mem
    rw [flushFragment_fragments _ _ _ swept.indexed, mem_append, mem_singleton] at mem
    rcases mem with old | rfl
    · exact swept.falling fragment old
    · exact (flushedSeqs_falling ends).sublist (keep_sublist options _)
  exact := by
    intro key before
    rw [flushFragment_fragments _ _ _ swept.indexed]
    by_cases early : key < cur
    · rcases swept.exact key early with ⟨fragment, mem, covers, keeps⟩ | ⟨none, uncovered⟩
      · exact .inl ⟨fragment, mem_append_left _ mem, covers, keeps⟩
      · refine .inr ⟨?_, uncovered⟩
        intro fragment mem
        rcases mem_append.mp mem with old | last
        · exact none fragment old
        · rw [mem_singleton.mp last]
          exact fun covers => early.not_ge covers.1
    · -- all open end keys are after the key
      refine .inl ⟨_, mem_append_right _ mem_cons_self, ⟨not_lt.mp early, before⟩, flushedSeqs ends, rfl,
        flushedSeqs_falling ends, ?_, ?_⟩
      · obtain ⟨e, mem⟩ := exists_mem_of_ne_nil ends filled
        exact ⟨e.sequence, mem_flushedSeqs.mpr ⟨e, mem, rfl⟩⟩
      · intro seq
        rw [mem_flushedSeqs, swept.covered key (not_lt.mp early) seq]
        apply exists_congr
        intro e
        apply and_congr_right
        intro mem
        exact (and_iff_right (before.trans_le (beyond e mem))).symm
  sorted := swept.sorted
  ahead := beyond
  covered := fun key later => swept.covered key (lt.le.trans later)

theorem flushCurrentTombstones_swept (ends : List (EntryKey K))
    (swept : Swept options done cur ends list) (le : cur ≤ next) (proper : cur = next → ∀ e ∈ ends, e.userKey ≤ next) :
    Swept options done next (flushCurrentTombstones options next cur ends list).2
      (flushCurrentTombstones options next cur ends list).1 := by
  induction ends generalizing cur list with
  | nil => exact swept.advance le
  | cons e ends ih =>
    have rising : ∀ later ∈ e :: ends, e.userKey ≤ later.userKey := by
      rw [forall_mem_cons]
      exact ⟨le_rfl, fun later mem => userKey_le ((pairwise_cons.mp swept.sorted).1 later mem).le⟩
    unfold flushCurrentTombstones
    split
    next here =>
      exact ih (swept.skip here) le fun eq later mem => proper eq later (mem_cons_of_mem _ mem)
    next notHere =>
      have after : cur < e.userKey := lt_of_le_of_ne (swept.ahead e mem_cons_self) notHere
      split
      next reached =>
        have lt : cur < next := by
          apply lt_of_le_of_ne le
          intro eq
          exact (eq ▸ after).not_ge (proper eq e mem_cons_self)
        exact swept.flush (cons_ne_nil _ _) lt fun later mem => reached.trans (rising later mem)
      next before =>
        have flushed := swept.flush (cons_ne_nil _ _) after rising
        apply ih (flushed.skip rfl) (not_le.mp before).le
        intro eq
        exact absurd eq.ge before

theorem Swept.open (swept : Swept options done t.startKey ends list) (ordered : t.startKey ≤ t.endKey) :
    Swept options (t :: done) t.startKey (emplaceEndKey ⟨t.endKey, t.seq, .rangeDeletion⟩ ends) list :=
  { swept with
    exact := by
      intro key before
      have eq : CoveredAt (t :: done) key = CoveredAt done key := by
        funext seq
        apply propext
        unfold CoveredAt
        rw [exists_mem_cons_iff]
        exact or_iff_right fun first => before.not_ge first.1.1
      unfold ExactAt
      rw [eq]
      exact swept.exact key before
    sorted := emplaceEndKey_sorted _ swept.sorted
    ahead := by
      intro e mem
      rcases mem_emplaceEndKey.mp mem with rfl | old
      · exact ordered
      · exact swept.ahead e old
    covered := by
      intro key later seq
      have before := swept.covered key later seq
      unfold CoveredAt at before ⊢
      rw [exists_mem_cons_iff, before]
      constructor
      · rintro (⟨covers, eq⟩ | ⟨e, mem, rest⟩)
        · exact ⟨_, mem_emplaceEndKey.mpr (.inl rfl), covers.2, eq⟩
        · exact ⟨e, mem_emplaceEndKey.mpr (.inr mem), rest⟩
      · rintro ⟨e, mem, before, eq⟩
        rcases mem_emplaceEndKey.mp mem with rfl | old
        · exact .inl ⟨⟨later, before⟩, eq⟩
        · exact .inr ⟨e, old, before, eq⟩ }

/-- The sweep before a round: nothing was read, or it stands at the last start key. -/
def Sweeping (options : FragmentOptions) (done : List (RangeTombstone K)) (sweep : Sweep K) : Prop :=
  match sweep.curStartKey with
  | none => done = [] ∧ sweep.curEndKeys = [] ∧ sweep.list = {}
  | some cur => Swept options done cur sweep.curEndKeys sweep.list ∧ sweep.curEndKeys ≠ []

theorem swept_start (cur : K) : Swept options [] cur [] {} where
  indexed := fun _ mem => absurd mem not_mem_nil
  apart := .nil
  proper := fun _ mem => absurd mem not_mem_nil
  falling := fun _ mem => absurd mem not_mem_nil
  exact := fun _ _ =>
    .inr ⟨fun _ mem => absurd mem not_mem_nil, fun _ ⟨_, mem, _⟩ => absurd mem not_mem_nil⟩
  sorted := .nil
  ahead := fun e mem => absurd mem not_mem_nil
  covered := by
    rintro key - seq
    simp [CoveredAt]

theorem emplaceEndKey_ne_nil (key : EntryKey K) (ends : List (EntryKey K)) : emplaceEndKey key ends ≠ [] :=
  ne_nil_of_mem (mem_emplaceEndKey.mpr (.inl rfl))

theorem step_sweeping (sweeping : Sweeping options done sweep)
    (ordered : t.startKey ≤ t.endKey) (rising : ∀ cur, sweep.curStartKey = some cur → cur ≤ t.startKey) :
    Sweeping options (t :: done) (sweep.step options t) := by
  obtain ⟨start, ends, list⟩ := sweep
  refine ⟨?_, emplaceEndKey_ne_nil _ _⟩
  cases start with
  | none =>
    obtain ⟨rfl, rfl, rfl⟩ := sweeping
    exact (swept_start t.startKey).open ordered
  | some cur =>
    obtain ⟨swept, filled⟩ := sweeping
    have le : cur ≤ t.startKey := rising cur rfl
    dsimp only [Sweep.step]
    split
    next moved =>
      exact (flushCurrentTombstones_swept ends swept le fun eq => absurd eq moved.2).open ordered
    next stays =>
      have here : cur = t.startKey := by
        by_contra moved
        exact stays ⟨filled, moved⟩
      exact Swept.open (here ▸ swept) ordered

theorem foldl_sweeping (tombstones : List (RangeTombstone K)) (sweeping : Sweeping options done sweep)
    (ordered : ∀ t ∈ tombstones, t.startKey ≤ t.endKey)
    (sorted : tombstones.Pairwise fun a b => a.startKey ≤ b.startKey)
    (rising : ∀ cur, sweep.curStartKey = some cur → ∀ t ∈ tombstones, cur ≤ t.startKey) :
    Sweeping options (tombstones.reverse ++ done) (tombstones.foldl (Sweep.step options) sweep) := by
  induction tombstones generalizing sweep done with
  | nil => exact sweeping
  | cons t tombstones ih =>
    obtain ⟨first, later⟩ := pairwise_cons.mp sorted
    have stepped := step_sweeping sweeping (ordered t mem_cons_self) fun cur here => rising cur here t mem_cons_self
    have rest := ih stepped (fun t mem => ordered t (mem_cons_of_mem _ mem)) later (by
      intro cur here
      cases here
      exact first)
    rwa [reverse_cons, append_assoc]

variable {options : FragmentOptions} {tombstones : List (RangeTombstone K)} {a b : List (RangeTombstone K)}

structure Fragmented (options : FragmentOptions) (tombstones : List (RangeTombstone K))
    (list : FragmentedRangeTombstoneList K) : Prop where
  indexed : Indexed list
  apart : list.fragments.Pairwise fun a b => a.endKey ≤ b.startKey
  proper : ∀ fragment ∈ list.fragments, fragment.startKey < fragment.endKey
  falling : ∀ fragment ∈ list.fragments, fragment.seqs.Pairwise (· ≥ ·)
  exact : ∀ key, ExactAt options list.fragments tombstones key

theorem fragmented_nil : Fragmented options ([] : List (RangeTombstone K)) {} where
  indexed := fun _ mem => absurd mem not_mem_nil
  apart := .nil
  proper := fun _ mem => absurd mem not_mem_nil
  falling := fun _ mem => absurd mem not_mem_nil
  exact := fun _ => .inr ⟨fun _ mem => absurd mem not_mem_nil, fun _ ⟨_, mem, _⟩ => absurd mem not_mem_nil⟩

theorem CoveredAt_congr (eq : ∀ t, t ∈ a ↔ t ∈ b) : CoveredAt a = CoveredAt b := by
  funext key seq
  simp [CoveredAt, eq]

theorem Fragmented.congr (eq : ∀ t, t ∈ a ↔ t ∈ b)
    (fragmented : Fragmented options a list) : Fragmented options b list := by
  obtain ⟨indexed, apart, proper, falling, exact⟩ := fragmented
  refine ⟨indexed, apart, proper, falling, ?_⟩
  unfold ExactAt at exact ⊢
  rwa [← CoveredAt_congr eq]

theorem swept_last {last : EntryKey K}
    (swept : Swept options tombstones cur ends list) (atLast : ends.getLast? = some last) :
    Fragmented options tombstones (flushCurrentTombstones options last.userKey cur ends list).1 := by
  obtain ⟨front, rfl⟩ := getLast?_eq_some_iff.mp atLast
  have largest : ∀ e ∈ front ++ [last], e.userKey ≤ last.userKey := by
    intro e mem
    rcases mem_append.mp mem with inFront | isLast
    · exact userKey_le ((pairwise_append.mp swept.sorted).2.2 e inFront last mem_cons_self).le
    · rw [mem_singleton.mp isLast]
  have le : cur ≤ last.userKey := swept.ahead last (mem_append_right _ mem_cons_self)
  have flushed := flushCurrentTombstones_swept _ swept le fun _ => largest
  refine ⟨flushed.indexed, flushed.apart, fun fragment mem => (flushed.proper fragment mem).1, flushed.falling, ?_⟩
  intro key
  by_cases before : key < last.userKey
  · exact flushed.exact key before
  refine .inr ⟨?_, ?_⟩
  · intro fragment mem covers
    exact before (covers.2.trans_le (flushed.proper fragment mem).2)
  · intro seq covered
    obtain ⟨e, mem, early, -⟩ := (swept.covered key (le.trans (not_lt.mp before)) seq).mp covered
    exact before (early.trans_le (largest e mem))

theorem fragmentTombstones_fragmented (ordered : ∀ t ∈ tombstones, t.startKey ≤ t.endKey)
    (sorted : tombstones.Pairwise fun a b => a.startKey ≤ b.startKey) :
    Fragmented options tombstones (fragmentTombstones options tombstones) := by
  have begin : Sweeping options ([] : List (RangeTombstone K)) {} := ⟨rfl, rfl, rfl⟩
  have swept := foldl_sweeping tombstones begin ordered sorted (fun cur here => by cases here)
  rw [append_nil] at swept
  have back : ∀ t, t ∈ tombstones.reverse ↔ t ∈ tombstones := fun t => mem_reverse
  unfold fragmentTombstones
  generalize tombstones.foldl (Sweep.step options) {} = sweep at *
  obtain ⟨start, ends, list⟩ := sweep
  cases start with
  | none =>
    obtain ⟨none, -, eq⟩ := swept
    dsimp only at eq ⊢
    rw [eq, reverse_eq_nil_iff.mp none]
    exact fragmented_nil
  | some cur =>
    obtain ⟨swept, filled⟩ := swept
    have atLast := getLast?_eq_some_getLast filled
    dsimp only at atLast ⊢
    rw [atLast]
    exact (swept_last swept atLast).congr back

end VcompProof.RangeDel
