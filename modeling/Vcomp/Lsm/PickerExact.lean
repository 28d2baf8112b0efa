import Vcomp.Lsm.Lookup

namespace VcompModel

variable {K : Type} [LinearOrder K]

def searchLevel (ikey : EntryKey K) (files : List (FileMetaData K)) : List (FileMetaData K) :=
  (files.drop (findFileInRange ikey files 0 files.length)).takeWhile fun file => file.smallestUser ≤ ikey.userKey

def levelByLevel (pick : List (FileMetaData K) → List (FileMetaData K)) (files : List (List (FileMetaData K)))
    (key : K) : List (ℕ × FileMetaData K) :=
  let level0 := files.headD []
  let filtered := if (nonEmptyLevels files).length > 1 ∨ level0.length > 3 then level0.filter (·.Holds key) else level0
  filtered.map (0, ·) ++ (files.tail.mapIdx fun i content => (pick content).map (i + 1, ·)).flatten

end VcompModel

namespace VcompProof

open VcompModel List

variable {K : Type} [LinearOrder K] {ikey : EntryKey K} {files : List (FileMetaData K)}

theorem searchLevel_eq (consistent : LevelConsistent files) : searchLevel ikey files = heldFiles ikey files := by
  obtain ⟨within, before, after⟩ := findFileInRange_spec ikey consistent 0 files.length (Nat.zero_le _)
  unfold searchLevel
  generalize findFileInRange ikey files 0 files.length = start at within before after ⊢
  have ahead : ∀ file ∈ files.drop start, ikey ≤ file.largest := by
    intro file mem
    obtain ⟨x, found⟩ := mem_iff_getElem?.mp mem
    rw [getElem?_drop] at found
    exact after (start + x) file (Nat.le_add_right _ _) (List.getElem?_eq_some_iff.mp found).1 found
  rw [heldFiles_drop (fun x file => before x file (Nat.zero_le x)) ahead]
  -- the starts rise, so the files that start in time are the first ones
  have rising : (files.drop start).Pairwise fun a b => a.smallest < b.smallest :=
    (consistent.rising.sublist (drop_sublist _ _)).imp And.left
  generalize files.drop start = rest at rising
  induction rest with
  | nil => rfl
  | cons file rest ih =>
    obtain ⟨first, later⟩ := pairwise_cons.mp rising
    by_cases starts : file.smallestUser ≤ ikey.userKey
    · rw [takeWhile_cons_of_pos (by simpa using starts), filter_cons_of_pos (by simpa using starts), ih later]
    · rw [takeWhile_cons_of_neg (by simpa using starts), filter_cons_of_neg (by simpa using starts)]
      symm
      apply filter_eq_nil_iff.mpr
      intro other mem
      rw [decide_eq_true_eq, not_le]
      exact (not_le.mp starts).trans_le (userKey_le (first other mem).le)

theorem heldFiles_eq (ikey : EntryKey K) (files : List (FileMetaData K)) :
    heldFiles ikey files = files.filter fun file => file.Holds ikey.userKey ∧ ikey ≤ file.largest := by
  apply filter_congr
  intro file _
  rw [decide_eq_decide]
  apply Iff.intro
  · intro held
    exact ⟨⟨held.1, userKey_le held.2⟩, held.2⟩
  · intro held
    exact ⟨held.1.1, held.2⟩

theorem pickLevel0_eq (numLevels : ℕ) (files : List (FileMetaData K)) : pickLevel0 ikey numLevels files =
    if numLevels > 1 ∨ files.length > 3 then files.filter (·.Holds ikey.userKey) else files := by
  have test : ∀ file : FileMetaData K,
      (!(decide (file.compareSmallest ikey = .lt) || decide (file.compareLargest ikey = .gt))) =
      decide (file.Holds ikey.userKey) := by
    intro file
    by_cases left : ikey.userKey < file.smallestUser
    · have first : file.compareSmallest ikey = .lt := compare_lt_iff_lt.mpr left
      have outside : ¬ file.Holds ikey.userKey := fun holds => left.not_ge holds.1
      simp [first, outside]
    · have first : file.compareSmallest ikey ≠ .lt := fun lt => left (compare_lt_iff_lt.mp lt)
      have second : file.compareLargest ikey = compare ikey.userKey file.largestUser := if_neg first
      by_cases right : file.largestUser < ikey.userKey
      · have outside : ¬ file.Holds ikey.userKey := fun holds => right.not_ge holds.2
        simp [second, compare_gt_iff_gt.mpr right, outside]
      · have third : compare ikey.userKey file.largestUser ≠ .gt := fun greater => right (compare_gt_iff_gt.mp greater)
        have inside : file.Holds ikey.userKey := ⟨not_lt.mp left, not_lt.mp right⟩
        simp [second, first, third, inside]
  unfold pickLevel0
  simp only [test]

theorem heldBelow_eq (first : ℕ) (levels : List (List (FileMetaData K))) : heldBelow ikey first levels =
    (levels.mapIdx fun i content => (heldFiles ikey content).map (i + first, ·)).flatten := by
  induction levels generalizing first with
  | nil => rfl
  | cons files levels ih =>
    rw [heldBelow, ih, mapIdx_cons, flatten_cons, Nat.zero_add]
    simp only [Nat.add_assoc, Nat.add_comm 1 first]

theorem heldBelow_append_empty (ikey : EntryKey K) (first : ℕ) (levels empty : List (List (FileMetaData K)))
    (none : ∀ files ∈ empty, files = []) :
    heldBelow ikey first (levels ++ empty) = heldBelow ikey first levels := by
  induction levels generalizing first with
  | nil =>
    rw [nil_append]
    induction empty generalizing first with
    | nil => rfl
    | cons files empty ih =>
      obtain ⟨here, later⟩ := forall_mem_cons.mp none
      subst here
      exact ih later (first + 1)
  | cons files levels ih => rw [cons_append, heldBelow, heldBelow, ih]

theorem levelByLevel_congr {pick pick' : List (FileMetaData K) → List (FileMetaData K)} {files : List (List (FileMetaData K))}
    (eq : ∀ (level : ℕ) content, 0 < level → files[level]? = some content → pick content = pick' content) (key : K) :
    levelByLevel pick files key = levelByLevel pick' files key := by
  have deeper : (files.tail.mapIdx fun i content => (pick content).map (i + 1, ·)) =
      files.tail.mapIdx fun i content => (pick' content).map (i + 1, ·) := by
    apply ext_getElem?
    intro i
    rw [getElem?_mapIdx, getElem?_mapIdx]
    cases found : files.tail[i]? with
    | none => rfl
    | some content =>
      rw [getElem?_tail] at found
      rw [Option.map_some, Option.map_some, eq (i + 1) content (Nat.succ_pos i) found]
  rw [levelByLevel, levelByLevel, deeper]

theorem picker_exact (files : List (List (FileMetaData K))) (ikey : EntryKey K)
    (consistent : ∀ (level : ℕ) content, 0 < level → files[level]? = some content → LevelConsistent content) :
    pickFiles false files ikey =
        some (levelByLevel (List.filter fun file => file.Holds ikey.userKey ∧ ikey ≤ file.largest) files ikey.userKey) ∧
      pickFiles false files ikey = some (levelByLevel (searchLevel ikey) files ikey.userKey) := by
  have exact : pickFiles false files ikey = some (levelByLevel (heldFiles ikey) files ikey.userKey) := by
    have split : nonEmptyLevels files ++ files.rtakeWhile (· = []) = files := rdropWhile_append_rtakeWhile
    have none : ∀ content ∈ files.rtakeWhile (· = []), content = [] := by
      intro content mem
      have empty := mem_rtakeWhile_imp mem
      exact of_decide_eq_true empty
    unfold levelByLevel
    cases shape : nonEmptyLevels files with
    | nil =>
      rw [shape, nil_append] at split
      rw [split] at none
      have run : pickFiles false files ikey = some [] := by rw [pickFiles, shape]
      have head : files.headD [] = [] := by
        cases files with
        | nil => rfl
        | cons content files => exact none content mem_cons_self
      have tail := heldBelow_append_empty ikey 1 [] files.tail fun content mem => none content (mem_of_mem_tail mem)
      rw [nil_append, heldBelow_eq] at tail
      rw [run, head, tail]
      rfl
    | cons level0 levels =>
      rw [shape] at split
      have head : files.headD [] = level0 := by rw [← split]; rfl
      have tail : files.tail = levels ++ files.rtakeWhile (· = []) := by
        conv_lhs => rw [← split]
        rfl
      rw [pickFiles_exact ikey consistent shape, head, tail, pickLevel0_eq, ← heldBelow_eq,
        heldBelow_append_empty ikey 1 _ _ none]
      rfl
  refine ⟨?_, ?_⟩
  · rw [exact, levelByLevel_congr fun level content _ _ => heldFiles_eq ikey content]
  · rw [exact, levelByLevel_congr fun level content deep found => (searchLevel_eq (consistent level content deep found)).symm]

theorem picker_exact_fiveLevels :
    pickFiles false fiveLevels ⟨5, 30, .maxValid⟩ = some (levelByLevel (searchLevel ⟨5, 30, .maxValid⟩) fiveLevels 5) ∧
      (levelByLevel (searchLevel ⟨5, 30, .maxValid⟩) fiveLevels 5).map (fun pick => (pick.1, pick.2.number)) =
        [(0, 1), (1, 2), (3, 4), (4, 7)] :=
  ⟨(picker_exact fiveLevels ⟨5, 30, .maxValid⟩ fiveLevels_consistent).2, by decide +kernel⟩

/-- A small level 0 that is alone is not filtered; a deeper file that ends before the lookup key is left out. -/
theorem picker_skips_filter :
    (pickFiles false [[keyedFile]] ⟨20, 30, .maxValid⟩ = some [(0, keyedFile)] ∧ ¬ keyedFile.Holds 20) ∧
      pickFiles false [[], [keyedFile]] ⟨8, 10, .maxValid⟩ = some [] ∧ keyedFile.Holds 8 := by
  decide +kernel

end VcompProof
