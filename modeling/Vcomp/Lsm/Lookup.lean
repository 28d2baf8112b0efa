import Vcomp.Lsm.LookupIndex

namespace VcompModel

variable {K : Type} [LinearOrder K]

def FileMetaData.Holds (file : FileMetaData K) (key : K) : Prop := file.smallestUser ≤ key ∧ key ≤ file.largestUser

instance (file : FileMetaData K) (key : K) : Decidable (file.Holds key) := inferInstanceAs (Decidable (_ ∧ _))

/-- The lookup reads no missing index entry and reaches every file that holds the user key, as without virtual
compaction. A deeper file that ends before the lookup key has nothing for it. -/
def LooksUpEverywhere (useVirtualCompaction : Bool) (files : List (List (FileMetaData K))) (ikey : EntryKey K) :
    Prop :=
  ∃ picked, pickFiles useVirtualCompaction files ikey = some picked ∧ pickFiles false files ikey = some picked ∧
    ∀ (level : ℕ) content file, files[level]? = some content → file ∈ content → file.Holds ikey.userKey →
      level = 0 ∨ ikey ≤ file.largest → (level, file) ∈ picked

def NothingBelow (files : List (List (FileMetaData K))) (ikey : EntryKey K) : Prop :=
  ∀ (level : ℕ) content, 0 < level → files[level]? = some content →
    findFileInRange ikey content 0 content.length = content.length ∧
      ∀ file ∈ content, file.Holds ikey.userKey → file.largest < ikey

end VcompModel

namespace VcompProof

open VcompModel List

variable {K : Type} {level0 : List (FileMetaData K)} {levels : List (List (FileMetaData K))}

section

variable {files : List (List (FileMetaData K))} {level : ℕ} {content : List (FileMetaData K)}

theorem mem_tail_of_deep (deep : 0 < level) (found : files[level]? = some content) : content ∈ files.tail := by
  obtain ⟨above, rfl⟩ := Nat.exists_eq_succ_of_ne_zero deep.ne'
  exact mem_of_getElem? (getElem?_tail.trans found)

theorem nonEmptyLevels_of_mem {file : FileMetaData K} (found : files[level]? = some content) (mem : file ∈ content) :
    (nonEmptyLevels files)[level]? = some content := by
  have split : nonEmptyLevels files ++ files.rtakeWhile (· = []) = files := rdropWhile_append_rtakeWhile
  rw [← split] at found
  by_cases kept : level < (nonEmptyLevels files).length
  · rwa [getElem?_append_left kept] at found
  · rw [getElem?_append_right (not_lt.mp kept)] at found
    have empty := mem_rtakeWhile_imp (mem_of_getElem? found)
    rw [of_decide_eq_true empty] at mem
    cases mem

theorem of_nonEmptyLevels (found : (nonEmptyLevels files)[level]? = some content) : files[level]? = some content := by
  have split : nonEmptyLevels files ++ files.rtakeWhile (· = []) = files := rdropWhile_append_rtakeWhile
  rw [← split, List.getElem?_append_left (List.getElem?_eq_some_iff.mp found).1]
  exact found

theorem nonEmptyLevels_nil (none : nonEmptyLevels files = [])
    {file : FileMetaData K} (found : files[level]? = some content) : file ∉ content := by
  intro mem
  have kept := nonEmptyLevels_of_mem found mem
  rw [none] at kept
  cases kept

theorem deeper_of_mem (shape : nonEmptyLevels files = level0 :: levels) (mem : content ∈ levels) :
    ∃ level, 0 < level ∧ files[level]? = some content := by
  obtain ⟨x, found⟩ := mem_iff_getElem?.mp mem
  refine ⟨x + 1, Nat.succ_pos x, of_nonEmptyLevels ?_⟩
  rw [shape]
  exact found

end

variable [LinearOrder K]

section

variable {ikey : EntryKey K} {files : List (FileMetaData K)} {file : FileMetaData K}

theorem pickLevel0_reaches (numLevels : ℕ) (mem : file ∈ files) (holds : file.Holds ikey.userKey) :
    file ∈ pickLevel0 ikey numLevels files := by
  have first : file.compareSmallest ikey ≠ .lt := fun lt => (compare_lt_iff_lt.mp lt).not_ge holds.1
  have second : file.compareLargest ikey ≠ .gt := by
    rw [FileMetaData.compareLargest, if_neg first]
    exact fun greater => (compare_gt_iff_gt.mp greater).not_ge holds.2
  unfold pickLevel0
  split
  · apply mem_filter.mpr
    simp [mem, first, second]
  · exact mem

end

section

variable {ikey : EntryKey K} {files : List (FileMetaData K)}

theorem pickDeeper_unread (indexer : FileIndexer) (levels : List (List (FileMetaData K))) (level : ℕ)
    (missed : ∀ files ∈ levels, findFileInRange ikey files 0 files.length = files.length) :
    pickDeeper indexer ikey level 0 kLevelMaxIndex levels = some [] := by
  induction levels generalizing level with
  | nil => rfl
  | cons files levels ih =>
    have lt := ih (level + 1) fun files mem => missed files (mem_cons_of_mem _ mem)
    by_cases filled : files = []
    · rw [pickDeeper, if_pos filled, lt]
    · have long := length_pos_iff.mpr filled
      have whole : ((files.length : ℤ) - 1).toNat + 1 = files.length := by omega
      have search : findFileInRange ikey files (0 : ℤ).toNat ((clippedRight files kLevelMaxIndex).toNat + 1) =
          files.length := by
        rw [clippedRight, if_pos rfl, whole]
        exact missed files mem_cons_self
      rw [pickDeeper_open filled (by decide) search, clippedRight, if_pos rfl, if_pos (by omega), lt]

theorem pickDeeper_unbuilt (levels : List (List (FileMetaData K))) (level : ℕ) {picked : List (ℕ × FileMetaData K)}
    (run : pickDeeper {} ikey level 0 kLevelMaxIndex levels = some picked) :
    ∀ files ∈ levels, findFileInRange ikey files 0 files.length = files.length := by
  induction levels generalizing level with
  | nil => exact fun files mem => absurd mem not_mem_nil
  | cons files levels ih =>
    by_cases filled : files = []
    · rw [pickDeeper, if_pos filled] at run
      rw [forall_mem_cons]
      exact ⟨by rw [filled]; rfl, ih (level + 1) run⟩
    · have long := length_pos_iff.mpr filled
      have whole : ((files.length : ℤ) - 1).toNat + 1 = files.length := by omega
      generalize search : findFileInRange ikey files 0 files.length = start
      have search' : findFileInRange ikey files (0 : ℤ).toNat ((clippedRight files kLevelMaxIndex).toNat + 1) = start := by
        rw [clippedRight, if_pos rfl, whole]
        exact search
      rw [pickDeeper_open filled (by decide) search', clippedRight, if_pos rfl] at run
      by_cases missed : (start : ℤ) = (files.length : ℤ) - 1 + 1
      · rw [if_pos missed] at run
        rw [forall_mem_cons]
        exact ⟨by omega, ih (level + 1) run⟩
      · rw [if_neg missed] at run
        have inside : start < files.length := by
          have within : findFileInRange ikey files 0 files.length ≤ 0 + (files.length - 0) := LowerBound.lowerBound_le _ _
          omega
        rw [drop_eq_getElem_cons inside] at run
        cases run

end

variable {files : List (List (FileMetaData K))} {ikey : EntryKey K}

theorem mem_heldBelow (first : ℕ) {x : ℕ} {content : List (FileMetaData K)}
    {file : FileMetaData K} (found : levels[x]? = some content) (mem : file ∈ heldFiles ikey content) :
    (first + x, file) ∈ heldBelow ikey first levels := by
  induction levels generalizing first x with
  | nil => cases found
  | cons files levels ih =>
    rw [heldBelow, mem_append]
    cases x with
    | zero =>
      cases found
      exact .inl (mem_map_of_mem mem)
    | succ x =>
      have deeper := ih (first + 1) found
      rw [Nat.add_right_comm] at deeper
      exact .inr deeper

theorem pickFiles_exact (ikey : EntryKey K)
    (consistent : ∀ (level : ℕ) content, 0 < level → files[level]? = some content → LevelConsistent content)
    (shape : nonEmptyLevels files = level0 :: levels) : pickFiles false files ikey =
      some ((pickLevel0 ikey (levels.length + 1) level0).map (0, ·) ++ heldBelow ikey 1 levels) := by
  have sorted : ∀ (level : ℕ) content, 0 < level → (level0 :: levels)[level]? = some content → LevelConsistent content :=
    fun level content deep found => consistent level content deep (of_nonEmptyLevels (shape ▸ found))
  unfold pickFiles preparedIndexer
  rw [if_neg (by decide), shape]
  dsimp only
  rw [pickDeeper_exact ikey sorted levels 1 0 kLevelMaxIndex Nat.one_pos rfl fun next _ => boundsValid_full ikey next]
  rfl

theorem pickFiles_reaches
    (consistent : ∀ (level : ℕ) content, 0 < level → files[level]? = some content → LevelConsistent content) :
    LooksUpEverywhere false files ikey := by
  unfold LooksUpEverywhere
  cases shape : nonEmptyLevels files with
  | nil =>
    have none : pickFiles false files ikey = some [] := by rw [pickFiles, shape]
    refine ⟨[], none, none, ?_⟩
    intro level content file found mem
    exact absurd mem (nonEmptyLevels_nil shape found)
  | cons level0 levels =>
    have run := pickFiles_exact ikey consistent shape
    refine ⟨_, run, run, ?_⟩
    intro level content file found mem holds visible
    have kept := nonEmptyLevels_of_mem found mem
    rw [shape] at kept
    rw [mem_append]
    cases level with
    | zero =>
      cases kept
      exact .inl (mem_map_of_mem (pickLevel0_reaches _ mem holds))
    | succ level =>
      have late : ikey ≤ file.largest := visible.resolve_left (Nat.succ_ne_zero level)
      have held : file ∈ heldFiles ikey content := mem_filter.mpr ⟨mem, decide_eq_true ⟨holds.1, late⟩⟩
      have lt : levels[level]? = some content := kept
      have reached := mem_heldBelow 1 lt held
      rw [Nat.add_comm] at reached
      exact .inr reached

theorem pickFiles_virtual : LooksUpEverywhere true files ikey ↔ NothingBelow files ikey := by
  unfold LooksUpEverywhere pickFiles preparedIndexer
  rw [if_pos rfl, if_neg (by decide)]
  cases shape : nonEmptyLevels files with
  | nil =>
    have none : ∀ (level : ℕ) content file, files[level]? = some content → file ∉ content :=
      fun level content file found => nonEmptyLevels_nil shape found
    refine iff_of_true ⟨[], rfl, rfl, ?_⟩ ?_
    · intro level content file found mem
      exact absurd mem (none level content file found)
    · intro level content deep found
      have empty : content = [] := eq_nil_iff_forall_not_mem.mpr fun file => none level content file found
      subst empty
      exact ⟨rfl, fun file mem => absurd mem not_mem_nil⟩
  | cons level0 levels =>
    dsimp only
    apply Iff.intro
    · intro looks
      obtain ⟨picked, run, -, reaches⟩ := looks
      obtain ⟨lt, runBelow, rfl⟩ := Option.map_eq_some_iff.mp run
      have missed := pickDeeper_unbuilt levels 1 runBelow
      rw [pickDeeper_unread {} levels 1 missed] at runBelow
      cases runBelow
      intro level content deep found
      by_cases filled : content = []
      · subst filled
        exact ⟨rfl, fun file mem => absurd mem not_mem_nil⟩
      · obtain ⟨first, mem⟩ := exists_mem_of_ne_nil content filled
        have kept := nonEmptyLevels_of_mem found mem
        rw [shape, getElem?_cons, if_neg (by omega)] at kept
        refine ⟨missed content (mem_of_getElem? kept), ?_⟩
        intro file mem holds
        by_contra late
        have reached := reaches level content file found mem holds (.inr (not_lt.mp late))
        rw [append_nil] at reached
        obtain ⟨other, -, eq⟩ := mem_map.mp reached
        exact deep.ne (congrArg Prod.fst eq)
    · intro nothing
      have missed : ∀ content ∈ levels, findFileInRange ikey content 0 content.length = content.length := by
        intro content mem
        obtain ⟨level, deep, found⟩ := deeper_of_mem shape mem
        exact (nothing level content deep found).1
      rw [pickDeeper_unread _ levels 1 missed, pickDeeper_unread _ levels 1 missed]
      refine ⟨_, rfl, rfl, ?_⟩
      intro level content file found mem holds visible
      cases level with
      | zero =>
        have kept := nonEmptyLevels_of_mem found mem
        rw [shape] at kept
        cases kept
        exact mem_append_left _ (mem_map_of_mem (pickLevel0_reaches _ mem holds))
      | succ level =>
        have ends := (nothing (level + 1) content (Nat.succ_pos level) found).2 file mem holds
        exact absurd (visible.resolve_left (Nat.succ_ne_zero level)) ends.not_ge

/-- Lookups through `FilePicker`, for every Version. -/
theorem lookup_on_index (useVirtualCompaction : Bool) (files : List (List (FileMetaData K))) (ikey : EntryKey K)
    (consistent : useVirtualCompaction = false →
      ∀ (level : ℕ) content, 0 < level → files[level]? = some content → LevelConsistent content) :
    LooksUpEverywhere useVirtualCompaction files ikey ↔ useVirtualCompaction = false ∨ NothingBelow files ikey := by
  cases useVirtualCompaction with
  | false => exact iff_of_true (pickFiles_reaches (consistent rfl)) (.inl rfl)
  | true =>
    rw [pickFiles_virtual]
    simp

def keyedFile : FileMetaData ℕ where
  number := 11
  fileSize := 4096
  smallest := ⟨3, 20, .value⟩
  largest := ⟨8, 25, .value⟩
  smallestSeqno := 20
  largestSeqno := 25
  epochNumber := 1
  numEntries := 6

/-- Level 2 is empty between levels whose index entries are read. -/
def fiveLevels : List (List (FileMetaData ℕ)) :=
  let file number low high :=
    { keyedFile with number, smallest := ⟨low, 20, .value⟩, largest := ⟨high, 25, .value⟩ }
  [[file 1 4 60], [file 2 1 9, file 3 30 39], [], [file 4 2 6, file 5 32 60], [file 6 0 4, file 7 5 20]]

theorem fiveLevels_consistent (level : ℕ) (content : List (FileMetaData ℕ)) (deep : 0 < level)
    (found : fiveLevels[level]? = some content) : LevelConsistent content := by
  have mem := mem_tail_of_deep deep found
  have all : ∀ content ∈ fiveLevels.tail, (∀ file ∈ content, file.smallest ≤ file.largest) ∧
      content.Pairwise fun a b => a.largest < b.smallest := by decide +kernel
  exact ⟨(all content mem).1, (all content mem).2⟩

theorem lookup_on_index_fiveLevels :
    (LooksUpEverywhere false fiveLevels ⟨5, 30, .maxValid⟩ ∧
      (pickFiles false fiveLevels ⟨5, 30, .maxValid⟩).map (map fun pick => (pick.1, pick.2.number)) =
        some [(0, 1), (1, 2), (3, 4), (4, 7)]) ∧
    NothingBelow fiveLevels ⟨60, 10, .maxValid⟩ ∧ LooksUpEverywhere true fiveLevels ⟨60, 10, .maxValid⟩ := by
  have nothing : NothingBelow fiveLevels ⟨60, 10, .maxValid⟩ := by
    intro level content deep found
    have all : ∀ content ∈ fiveLevels.tail, findFileInRange ⟨60, 10, .maxValid⟩ content 0 content.length = content.length ∧
        ∀ file ∈ content, file.Holds 60 → file.largest < ⟨60, 10, .maxValid⟩ := by decide +kernel
    exact all content (mem_tail_of_deep deep found)
  exact ⟨⟨(lookup_on_index false _ _ fun _ => fiveLevels_consistent).mpr (.inl rfl), by decide +kernel⟩, nothing,
    (lookup_on_index true _ _ fun on => by cases on).mpr (.inr nothing)⟩

/-- With virtual compaction the lookup of key 5 asks an indexer without levels. -/
theorem lookup_misses_index : pickFiles true [[], [keyedFile]] ⟨5, 30, .maxValid⟩ = none ∧
      ¬ LooksUpEverywhere true [[], [keyedFile]] ⟨5, 30, .maxValid⟩ := by
  have missing : pickFiles true [[], [keyedFile]] ⟨5, 30, .maxValid⟩ = none := by decide +kernel
  refine ⟨missing, ?_⟩
  intro looks
  obtain ⟨picked, run, -⟩ := looks
  rw [missing] at run
  cases run

end VcompProof
