import Vcomp.Version.Ledger

namespace VcompModel

def VersionStorageInfo.addFiles {K : Type} (level : ℕ) (files : List (FileMetaData K)) (vstorage : VersionStorageInfo K) :
    VersionStorageInfo K :=
  files.foldl (fun vstorage f => vstorage.addFile level f) vstorage

namespace VersionBuilder

variable {K : Type} (b : VersionBuilder K) (less : FileMetaData K → FileMetaData K → Bool) (level : ℕ)

def keeps (x : Bool × FileMetaData K) : Bool :=
  x.2.number ∉ (b.levels level).deletedFiles ∧ ¬(!x.1 && (b.levels level).addedFiles.any (·.number = x.2.number))

def keptFiles : List (FileMetaData K) :=
  ((TaggedMerge.merge less (SortBy.sortBy less (b.levels level).addedFiles) (b.base.files level)).filter
    (b.keeps level)).map Prod.snd

end VersionBuilder

structure FileOrder {K : Type} (less : FileMetaData K → FileMetaData K → Bool) : Prop where
  comparator : SortBy.Comparator less
  strict : ∀ f g, f.number ≠ g.number → less g f = false → less f g = true

structure VersionStorageInfo.Fresh {K : Type} (vstorage : VersionStorageInfo K) (numLevels : ℕ) : Prop where
  numLevels : vstorage.numLevels = numLevels
  files : ∀ level, vstorage.files level = []
  fileLocations : ∀ number, vstorage.fileLocations number = none
  blobFiles : vstorage.blobFiles = []

end VcompModel

namespace VcompProof

open VcompModel VersionBuilder List Function

variable {K : Type}

theorem newestFirstBySeqNo_rank (f g : FileMetaData K) : FileMetaData.newestFirstBySeqNo f g = true ↔
    toLex (g.largestSeqno, toLex (g.smallestSeqno, g.number)) < toLex (f.largestSeqno, toLex (f.smallestSeqno, f.number)) := by
  unfold FileMetaData.newestFirstBySeqNo
  simp only [Prod.Lex.toLex_lt_toLex]
  split_ifs with first second <;> simp only [decide_eq_true_eq] <;> omega

theorem newestFirstByEpochNumber_rank (f g : FileMetaData K) : FileMetaData.newestFirstByEpochNumber f g = true ↔
    toLex (g.epochNumber, toLex (g.largestSeqno, toLex (g.smallestSeqno, g.number))) <
      toLex (f.epochNumber, toLex (f.largestSeqno, toLex (f.smallestSeqno, f.number))) := by
  unfold FileMetaData.newestFirstByEpochNumber
  rw [Prod.Lex.toLex_lt_toLex]
  split_ifs with first
  · simp only [decide_eq_true_eq]
    omega
  · rw [newestFirstBySeqNo_rank]
    simp [not_not.mp first]

theorem bySmallestKey_rank [LinearOrder K] (f g : FileMetaData K) : FileMetaData.bySmallestKey f g = true ↔
    toLex (f.smallest, f.number) < toLex (g.smallest, g.number) := by
  unfold FileMetaData.bySmallestKey
  rw [Prod.Lex.toLex_lt_toLex]
  split_ifs with first
  · simp only [decide_eq_true_eq]
    exact ⟨.inl, fun order => order.resolve_right fun eq => first eq.1⟩
  · simp [not_not.mp first]

theorem FileOrder.of_rank {β : Type*} [LinearOrder β] {less : FileMetaData K → FileMetaData K → Bool}
    (rank : FileMetaData K → β) (ranked : ∀ f g, less f g = true ↔ rank f < rank g)
    (apart : ∀ f g, rank f = rank g → f.number = g.number) : FileOrder less where
  comparator := .of_rank rank ranked
  strict := by
    intro f g ne notAfter
    rw [ranked]
    rw [← Bool.not_eq_true, ranked, not_lt] at notAfter
    exact lt_of_le_of_ne notAfter fun eq => ne (apart f g eq)

theorem fileOrder_byEpochNumber : FileOrder (FileMetaData.newestFirstByEpochNumber (K := K)) := by
  apply FileOrder.of_rank fun f =>
    OrderDual.toDual (toLex (f.epochNumber, toLex (f.largestSeqno, toLex (f.smallestSeqno, f.number))))
  · exact newestFirstByEpochNumber_rank
  · intro f g eq
    exact congrArg (fun x => (ofLex (ofLex (ofLex (OrderDual.ofDual x)).2).2).2) eq

theorem fileOrder_bySmallestKey [LinearOrder K] : FileOrder (FileMetaData.bySmallestKey (K := K)) := by
  apply FileOrder.of_rank fun f => toLex (f.smallest, f.number)
  · exact bySmallestKey_rank
  · intro f g eq
    exact congrArg (fun x => (ofLex x).2) eq

variable (level : ℕ) (files : List (FileMetaData K)) (vstorage : VersionStorageInfo K) {f : FileMetaData K}

theorem addFiles_cons (f : FileMetaData K) :
    vstorage.addFiles level (f :: files) = (vstorage.addFile level f).addFiles level files := rfl

theorem addFiles_files :
    (vstorage.addFiles level files).files = update vstorage.files level (vstorage.files level ++ files) := by
  induction files generalizing vstorage with
  | nil => rw [append_nil, update_eq_self]; rfl
  | cons f files ih =>
    rw [addFiles_cons, ih]
    simp [VersionStorageInfo.addFile, VersionStorageInfo.emplaceLocation]

theorem addFiles_numLevels : (vstorage.addFiles level files).numLevels = vstorage.numLevels := by
  induction files generalizing vstorage with
  | nil => rfl
  | cons f files ih => exact ih _

theorem emplaceLocations_eq (before : List (FileMetaData K)) :
    VersionStorageInfo.emplaceLocations level before.length files
        { vstorage with files := update vstorage.files level (before ++ files) } =
      { vstorage with files := update vstorage.files level before }.addFiles level files := by
  induction files generalizing before vstorage with
  | nil => rw [append_nil]; rfl
  | cons f files ih =>
    have next := ih (vstorage.emplaceLocation f.number level before.length) (before ++ [f])
    rw [length_append, append_assoc] at next
    rw [addFiles_cons, VersionStorageInfo.addFile]
    simp only [VersionStorageInfo.emplaceLocation, update_self, update_idem] at next ⊢
    exact next

theorem addFilesForUnchangedLevel_eq (empty : vstorage.files level = []) :
    vstorage.addFilesForUnchangedLevel level files = vstorage.addFiles level files := by
  have copy := emplaceLocations_eq level files vstorage []
  have eq : update vstorage.files level [] = vstorage.files := by rw [← empty, update_eq_self]
  rw [eq] at copy
  exact copy

section

variable {level : ℕ} {vstorage : VersionStorageInfo K}

theorem addFile_located (located : vstorage.Located) (inside : level < vstorage.numLevels)
    (new : vstorage.fileLocations f.number = none) : (vstorage.addFile level f).Located := by
  intro number level' pos
  simp only [VersionStorageInfo.addFile, VersionStorageInfo.emplaceLocation, new, Option.none_or]
  by_cases eq : number = f.number
  · subst eq
    rw [update_self, Option.some_inj, Prod.mk.injEq]
    apply Iff.intro
    · intro here
      obtain ⟨rfl, rfl⟩ := here
      exact ⟨inside, f, by rw [update_self, getElem?_concat_length], rfl⟩
    · intro place
      obtain ⟨lt, g, found, number⟩ := place
      by_cases here : level' = level
      · subst here
        rw [update_self] at found
        by_cases old : pos < (vstorage.files level').length
        · rw [getElem?_append_left old] at found
          have location := (located f.number level' pos).mpr ⟨lt, g, found, number⟩
          rw [new] at location
          cases location
        · have short := (List.getElem?_eq_some_iff.mp found).1
          rw [List.length_append, List.length_singleton] at short
          exact ⟨rfl, by omega⟩
      · rw [update_of_ne here] at found
        have location := (located f.number level' pos).mpr ⟨lt, g, found, number⟩
        rw [new] at location
        cases location
  · rw [update_of_ne eq]
    apply (located number level' pos).trans
    apply and_congr_right
    intro lt
    by_cases here : level' = level
    · subst here
      rw [update_self]
      apply exists_congr
      intro g
      apply and_congr_left
      intro number'
      rw [getElem?_append]
      split
      · rfl
      next late =>
        rw [getElem?_eq_none (not_lt.mp late)]
        refine iff_of_false (by simp) ?_
        intro last
        have mem := mem_singleton.mp (mem_of_getElem? last)
        exact eq (number'.symm.trans (congrArg FileMetaData.number mem))
    · rw [update_of_ne here]

theorem addFiles_located (files : List (FileMetaData K)) (located : vstorage.Located) (inside : level < vstorage.numLevels)
    (nodup : files.Pairwise fun f g => f.number ≠ g.number)
    (new : ∀ f ∈ files, vstorage.fileLocations f.number = none) : (vstorage.addFiles level files).Located := by
  induction files generalizing vstorage with
  | nil => exact located
  | cons f files ih =>
    obtain ⟨first, rest⟩ := pairwise_cons.mp nodup
    obtain ⟨fresh, others⟩ := forall_mem_cons.mp new
    apply ih (addFile_located located inside fresh) inside rest
    intro g mem
    simp only [VersionStorageInfo.addFile, VersionStorageInfo.emplaceLocation]
    rw [update_of_ne (first g mem).symm]
    exact others g mem

end

section

variable {base : VersionStorageInfo K} {b : VersionBuilder K} {s : Ledger K}
  {less : FileMetaData K → FileMetaData K → Bool} {level : ℕ}

theorem mem_keptFiles : f ∈ b.keptFiles less level ↔ b.Keeps level f := by
  unfold keptFiles keeps VersionBuilder.Keeps
  simp only [mem_map, mem_filter, TaggedMerge.mem_merge, SortBy.mem_sortBy, decide_eq_true_eq, Prod.exists,
    exists_eq_right, Bool.exists_bool, Bool.and_eq_true, Bool.not_eq_eq_eq_not, Bool.not_true, any_eq_true]
  grind

theorem keptFiles_distinct (less : FileMetaData K → FileMetaData K → Bool) (located : base.Located)
    (rep : Represents base b s) (inside : level < base.numLevels) :
    (b.keptFiles less level).Pairwise fun f g => f.number ≠ g.number := by
  have baseDistinct : (b.base.files level).Pairwise fun f g => f.number ≠ g.number := by
    rw [rep.baseEq, pairwise_iff_getElem]
    intro i j early late before eq
    have first := (located (base.files level)[i].number level i).mpr
      ⟨inside, _, getElem?_eq_getElem early, rfl⟩
    have second := (located (base.files level)[i].number level j).mpr
      ⟨inside, _, getElem?_eq_getElem late, eq.symm⟩
    rw [first] at second
    exact before.ne (congrArg Prod.snd (Option.some.inj second))
  unfold keptFiles
  rw [pairwise_map]
  have permuted := ((TaggedMerge.merge_perm less (SortBy.sortBy less (b.levels level).addedFiles)
    (b.base.files level)).filter (b.keeps level)).symm
  apply permuted.pairwise _ fun ne => ne.symm
  rw [filter_append, pairwise_append]
  refine ⟨?_, ?_, ?_⟩
  · apply List.Pairwise.filter
    rw [pairwise_map]
    exact ((SortBy.sortBy_perm less _).symm.pairwise (rep.distinct level)) fun ne => ne.symm
  · apply List.Pairwise.filter
    rw [pairwise_map]
    exact baseDistinct
  · -- a file of the base with the number of an added one is not kept
    intro x added y old
    obtain ⟨inAdded, -⟩ := mem_filter.mp added
    obtain ⟨inBase, kept⟩ := mem_filter.mp old
    obtain ⟨f, mem, rfl⟩ := mem_map.mp inAdded
    obtain ⟨g, -, rfl⟩ := mem_map.mp inBase
    have alone := (of_decide_eq_true kept).2
    simp only [Bool.not_false, Bool.true_and, any_eq_true, decide_eq_true_eq, not_exists, not_and] at alone
    exact alone f (SortBy.mem_sortBy.mp mem)

theorem keptFiles_sorted (order : FileOrder less)
    (nodup : (b.keptFiles less level).Pairwise fun f g => f.number ≠ g.number)
    (sorted : (b.base.files level).Pairwise fun f g => less f g = true) :
    (b.keptFiles less level).Pairwise fun f g => less f g = true := by
  have weak : (b.base.files level).Pairwise fun f g => less g f = false := by
    apply sorted.imp
    intro f g before
    rcases order.comparator.total f g with notAfter | notBefore
    · exact notAfter
    · rw [notBefore] at before
      cases before
  have merged := TaggedMerge.merge_sorted order.comparator
    (SortBy.sortBy_sorted order.comparator (b.levels level).addedFiles) weak
  have kept : (b.keptFiles less level).Pairwise fun f g => less g f = false := by
    unfold keptFiles
    rw [pairwise_map]
    exact merged.filter _
  exact (kept.and nodup).imp fun both => order.strict _ _ both.2 both.1

theorem mergeLevelTo_eq [LinearOrder K] (vstorage : VersionStorageInfo K) :
    b.mergeLevelTo less vstorage level = vstorage.addFiles level (b.keptFiles less level) := by
  unfold mergeLevelTo keptFiles VersionStorageInfo.addFiles
  rw [foldl_map, foldl_filter]
  congr 1
  funext v x
  obtain ⟨isAdded, f⟩ := x
  unfold maybeAddFile keeps
  dsimp only
  by_cases deleted : f.number ∈ (b.levels level).deletedFiles
  · rw [if_pos deleted, if_neg (by simp [deleted])]
  · rw [if_neg deleted]
    by_cases superseded : (!isAdded && (b.levels level).addedFiles.any (·.number = f.number)) = true
    · rw [if_pos superseded, if_neg fun kept => (of_decide_eq_true kept).2 superseded]
    · rw [if_neg superseded, if_pos (decide_eq_true ⟨deleted, superseded⟩)]

theorem keptFiles_unchanged (noAdded : (b.levels level).addedFiles = []) (noDeleted : (b.levels level).deletedFiles = ∅) :
    b.keptFiles less level = b.base.files level := by
  have all : ∀ x ∈ (b.base.files level).map (Prod.mk false), b.keeps level x = true := by
    intro x _
    simp [keeps, noAdded, noDeleted]
  unfold keptFiles
  rw [noAdded]
  change List.map Prod.snd (List.filter (b.keeps level) ((b.base.files level).map (Prod.mk false))) = _
  rw [filter_eq_self.mpr all, map_map]
  exact map_id _

theorem saveLevelTo_eq [LinearOrder K] {vstorage : VersionStorageInfo K} (empty : vstorage.files level = []) :
    b.saveLevelTo less vstorage level = b.mergeLevelTo less vstorage level := by
  unfold saveLevelTo
  split
  next unchanged =>
    rw [addFilesForUnchangedLevel_eq _ _ _ empty, mergeLevelTo_eq, keptFiles_unchanged unchanged.1 unchanged.2]
  · rfl

end

variable [LinearOrder K] {base : VersionStorageInfo K} {b : VersionBuilder K} {s : Ledger K}

theorem saveLevels_spec (located : base.Located) (rep : Represents base b s)
    (order : ℕ → FileMetaData K → FileMetaData K → Bool) (levels : List ℕ) (once : levels.Nodup)
    (inside : ∀ level ∈ levels, level < base.numLevels) (vstorage : VersionStorageInfo K)
    (numLevels : vstorage.numLevels = base.numLevels) (start : vstorage.Located)
    (empty : ∀ level ∈ levels, vstorage.files level = [])
    (other : ∀ level ∈ levels, ∀ f, b.Keeps level f → vstorage.fileLocations f.number = none) :
    (levels.foldl (fun v level => b.saveLevelTo (order level) v level) vstorage).Located ∧
      (levels.foldl (fun v level => b.saveLevelTo (order level) v level) vstorage).numLevels = base.numLevels ∧
      ∀ level, (levels.foldl (fun v level => b.saveLevelTo (order level) v level) vstorage).files level =
        if level ∈ levels then b.keptFiles (order level) level else vstorage.files level := by
  induction levels generalizing vstorage with
  | nil => exact ⟨start, numLevels, fun level => by simp⟩
  | cons level levels ih =>
    obtain ⟨notLater, once⟩ := nodup_cons.mp once
    obtain ⟨here, insideLater⟩ := forall_mem_cons.mp inside
    obtain ⟨emptyHere, emptyLater⟩ := forall_mem_cons.mp empty
    obtain ⟨newHere, newLater⟩ := forall_mem_cons.mp other
    rw [foldl_cons, saveLevelTo_eq emptyHere, mergeLevelTo_eq]
    have nodup := keptFiles_distinct (order level) located rep here
    have next := addFiles_located (b.keptFiles (order level) level) start (numLevels ▸ here) nodup
      fun f mem => newHere f (mem_keptFiles.mp mem)
    have nextFiles := addFiles_files level (b.keptFiles (order level) level) vstorage
    rw [emptyHere, nil_append] at nextFiles
    have nextLevels := (addFiles_numLevels level (b.keptFiles (order level) level) vstorage).trans numLevels
    generalize vstorage.addFiles level (b.keptFiles (order level) level) = v at next nextFiles nextLevels ⊢
    have unchanged : ∀ level' ∈ levels, v.files level' = vstorage.files level' := by
      intro level' mem
      have ne : level' ≠ level := by
        intro eq
        exact notLater (eq ▸ mem)
      rw [nextFiles, update_of_ne ne]
    obtain ⟨done, doneLevels, files⟩ :=
      ih once insideLater v nextLevels next (fun level' mem => (unchanged level' mem).trans (emptyLater level' mem))
      (by
        intro level' mem f kept
        by_contra located'
        obtain ⟨⟨l, pos⟩, place⟩ := Option.ne_none_iff_exists'.mp located'
        obtain ⟨lt, g, found, number⟩ := (next f.number l pos).mp place
        rw [nextFiles] at found
        by_cases eq : l = level
        · subst eq
          rw [update_self] at found
          have keptHere := mem_keptFiles.mp (mem_of_getElem? found)
          have first := (rep.keeps f.number l g).mpr ⟨here, number, keptHere⟩
          have second := (rep.keeps f.number level' f).mpr ⟨insideLater level' mem, rfl, kept⟩
          rw [first] at second
          cases second
          exact notLater mem
        · rw [update_of_ne eq] at found
          have old := (start f.number l pos).mpr ⟨numLevels.symm ▸ nextLevels ▸ lt, g, found, number⟩
          rw [newLater level' mem f kept] at old
          cases old)
    refine ⟨done, doneLevels, ?_⟩
    intro level'
    rw [files level', nextFiles]
    by_cases later : level' ∈ levels
    · rw [if_pos later, if_pos (mem_cons_of_mem _ later)]
    · rw [if_neg later]
      by_cases eq : level' = level
      · subst eq
        rw [update_self, if_pos mem_cons_self]
      · rw [update_of_ne eq, if_neg (by simp [eq, later])]

end VcompProof
