import Mathlib.Data.List.Forall2
import Vcomp.Lsm.FilePicker

namespace VcompProof

open VcompModel List Option

variable {K : Type} [LinearOrder K] {keys : List K} {bound : ℤ}

/-- Everything left of the bound lies below the key. -/
def LeftOf (keys : List K) (bound : ℤ) (key : K) : Prop := ∀ (x : ℕ) (l : K), (x : ℤ) < bound → keys[x]? = some l → l < key

def RightOf (keys : List K) (bound : ℤ) (key : K) : Prop := ∀ (x : ℕ) (l : K), bound < x → keys[x]? = some l → key < l

theorem skipBelow_spec (u : K) (lower : List K) (i : ℤ) : ∃ n ≤ lower.length,
    skipBelow u lower i = (lower.drop n, i + n) ∧ ∀ x l, x < n → lower[x]? = some l → l < u := by
  induction lower generalizing i with
  | nil => exact ⟨0, le_rfl, by simp [skipBelow], by simp⟩
  | cons l lower ih =>
    unfold skipBelow
    split
    next lt =>
      obtain ⟨n, atMost, skipped, passed⟩ := ih (i + 1)
      refine ⟨n + 1, by simp only [length_cons]; omega, ?_, ?_⟩
      · rw [skipped, drop_succ_cons]
        congr 1
        omega
      · intro x key inside found
        cases x with
        | zero =>
          cases found
          exact lt
        | succ x => exact passed x key (by omega) (by simpa using found)
    · exact ⟨0, Nat.zero_le _, by simp, by simp⟩

theorem calculateLB_spec (lower upper : List K) (sorted : upper.Pairwise (· ≤ ·)) (n : ℕ) (atMost : n ≤ lower.length)
    (passed : ∀ u ∈ upper, LeftOf lower n u) :
    List.Forall₂ (fun u (bound : ℤ) => 0 ≤ bound ∧ LeftOf lower bound u) upper (calculateLB (lower.drop n) n upper) := by
  induction upper generalizing n with
  | nil => exact .nil
  | cons u upper ih =>
    obtain ⟨first, rest⟩ := pairwise_cons.mp sorted
    obtain ⟨m, within, skipped, lt⟩ := skipBelow_spec u (lower.drop n) n
    have left : LeftOf lower (n + m) u := by
      intro x l inside found
      by_cases old : x < n
      · exact passed u mem_cons_self x l (by omega) found
      · apply lt (x - n) l (by omega)
        rw [getElem?_drop, Nat.add_sub_cancel' (by omega)]
        exact found
    rw [length_drop] at within
    simp only [calculateLB, skipped, drop_drop]
    refine .cons ⟨by omega, left⟩ ?_
    have later := ih rest (n + m) (by omega) fun u' mem x l inside found =>
      (left x l (by push_cast at inside; exact inside) found).trans_le (first u' mem)
    exact later

theorem skipAbove_eq (u : K) (lower : List K) (c i : ℤ) : skipAbove u lower (c - i) =
    ((skipBelow (K := Kᵒᵈ) u lower i).1, c - (skipBelow (K := Kᵒᵈ) u lower i).2) := by
  induction lower generalizing i with
  | nil => rfl
  | cons l lower ih =>
    have next := ih (i + 1)
    rw [← Int.sub_sub] at next
    by_cases above : u < l
    · have lt : skipBelow (K := Kᵒᵈ) u (l :: lower) i = skipBelow (K := Kᵒᵈ) u lower (i + 1) := if_pos above
      rw [skipAbove, if_pos above, next]
      exact congrArg (fun r : List K × ℤ => (r.1, c - r.2)) lt.symm
    · have lt : skipBelow (K := Kᵒᵈ) u (l :: lower) i = (l :: lower, i) := if_neg above
      rw [skipAbove, if_neg above]
      exact congrArg (fun r : List K × ℤ => (r.1, c - r.2)) lt.symm

theorem calculateRB_eq (lower upper : List K) (c i : ℤ) :
    calculateRB lower (c - i) upper = (calculateLB (K := Kᵒᵈ) lower i upper).map (c - ·) := by
  induction upper generalizing lower i with
  | nil => rfl
  | cons u upper ih =>
    rw [calculateRB, skipAbove_eq, ih]
    rfl

theorem calculateRB_spec (lower upper : List K) (sorted : upper.Pairwise (· ≥ ·)) :
    List.Forall₂ (fun u (bound : ℤ) => bound < lower.length ∧ RightOf lower bound u) upper
      (calculateRB lower.reverse (lower.length - 1) upper) := by
  have mirrored := calculateRB_eq lower.reverse upper (lower.length - 1) 0
  rw [Int.sub_zero] at mirrored
  rw [mirrored, forall₂_map_right_iff]
  refine (calculateLB_spec (K := Kᵒᵈ) lower.reverse upper sorted 0 (Nat.zero_le _) fun u _ x l inside => by omega).imp ?_
  rintro u bound ⟨pos, left⟩
  refine ⟨by omega, fun x l outside found => ?_⟩
  have inside := (List.getElem?_eq_some_iff.mp found).1
  have here : lower.reverse[lower.length - 1 - x]? = some l := by
    rw [List.getElem?_reverse (by omega), ← found]
    congr 1
    omega
  exact left _ l (by omega) here

section

/-- What `CheckConsistency` and the writers of table files grant for a level below 0. -/
structure LevelConsistent (files : List (FileMetaData K)) : Prop where
  bounded : ∀ file ∈ files, file.smallest ≤ file.largest
  apart : files.Pairwise fun a b => a.largest < b.smallest

variable {files : List (FileMetaData K)}

section

variable (level : LevelConsistent files)
include level

theorem LevelConsistent.rising :
    files.Pairwise fun a b => a.smallest < b.smallest ∧ a.largest < b.largest ∧ a.largest < b.smallest := by
  apply level.apart.imp_of_mem
  intro a b left right apart
  exact ⟨(level.bounded a left).trans_lt apart, apart.trans_le (level.bounded b right), apart⟩

theorem LevelConsistent.smallestUser_rising : (files.map (·.smallestUser)).Pairwise (· ≤ ·) := by
  rw [pairwise_map]
  exact level.rising.imp fun rising => userKey_le rising.1.le

theorem LevelConsistent.largestUser_rising : (files.map (·.largestUser)).Pairwise (· ≤ ·) := by
  rw [pairwise_map]
  exact level.rising.imp fun rising => userKey_le rising.2.1.le

theorem LevelConsistent.at_lt {x y : ℕ} {a b : FileMetaData K} (before : x < y)
    (left : files[x]? = some a) (right : files[y]? = some b) :
    a.smallest < b.smallest ∧ a.largest < b.largest ∧ a.largest < b.smallest := by
  obtain ⟨insideX, rfl⟩ := List.getElem?_eq_some_iff.mp left
  obtain ⟨insideY, rfl⟩ := List.getElem?_eq_some_iff.mp right
  exact List.pairwise_iff_getElem.mp level.rising x y insideX insideY before

end

structure UnitValid (lower : List (FileMetaData K)) (file : FileMetaData K) (unit : IndexUnit) : Prop where
  smallestLb : 0 ≤ unit.smallestLb ∧ LeftOf (lower.map (·.largestUser)) unit.smallestLb file.smallestUser
  largestLb : 0 ≤ unit.largestLb ∧ LeftOf (lower.map (·.largestUser)) unit.largestLb file.largestUser
  smallestRb : unit.smallestRb < lower.length ∧ RightOf (lower.map (·.smallestUser)) unit.smallestRb file.smallestUser
  largestRb : unit.largestRb < lower.length ∧ RightOf (lower.map (·.smallestUser)) unit.largestRb file.largestUser

theorem leftBounds_valid (lower : List (FileMetaData K)) (sorted : keys.Pairwise (· ≤ ·)) :
    List.Forall₂ (fun u (bound : ℤ) => 0 ≤ bound ∧ LeftOf (lower.map (·.largestUser)) bound u) keys
      (calculateLB (lower.map (·.largestUser)) 0 keys) := by
  have valid := calculateLB_spec (lower.map (·.largestUser)) keys sorted 0 (Nat.zero_le _)
    (fun u mem x l inside => absurd inside (by simp))
  rw [drop_zero] at valid
  exact valid

theorem rightBounds_valid (lower : List (FileMetaData K)) (sorted : keys.Pairwise (· ≤ ·)) :
    List.Forall₂ (fun u (bound : ℤ) => bound < lower.length ∧ RightOf (lower.map (·.smallestUser)) bound u) keys
      (calculateRB (lower.map (·.smallestUser)).reverse (lower.length - 1) keys.reverse).reverse := by
  have valid := calculateRB_spec (lower.map (·.smallestUser)) keys.reverse (pairwise_reverse.mpr sorted)
  rw [length_map] at valid
  rwa [← forall₂_reverse_iff, reverse_reverse]

theorem indexUnits_valid {upper : List (FileMetaData K)} (level : LevelConsistent upper) (lower : List (FileMetaData K)) :
    List.Forall₂ (UnitValid lower) upper (indexUnits upper lower) := by
  have left := leftBounds_valid lower level.smallestUser_rising
  have left' := leftBounds_valid lower level.largestUser_rising
  have right := rightBounds_valid lower level.smallestUser_rising
  have right' := rightBounds_valid lower level.largestUser_rising
  rw [forall₂_map_left_iff] at left left' right right'
  rw [forall₂_iff_get] at left left' right right' ⊢
  simp only [get_eq_getElem] at left left' right right' ⊢
  constructor
  · simp only [indexUnits, length_zipWith, length_zip]
    omega
  · intro i inside outside
    simp only [indexUnits, getElem_zipWith, getElem_zip]
    exact ⟨left.2 i inside (by omega), left'.2 i inside (by omega), right.2 i inside (by omega), right'.2 i inside (by omega)⟩

end

theorem LeftOf.mono {a b : K} (left : LeftOf keys bound a) (le : a ≤ b) : LeftOf keys bound b :=
  fun x l inside found => (left x l inside found).trans_le le

theorem RightOf.mono {a b : K} (right : RightOf keys bound a) (le : b ≤ a) : RightOf keys bound b :=
  fun x l outside found => le.trans_lt (right x l outside found)

theorem rightOf_last (files : List (FileMetaData K)) (key : K) :
    RightOf (files.map (·.smallestUser)) (files.length - 1) key := by
  intro x l outside found
  have inside := (List.getElem?_eq_some_iff.mp found).1
  rw [List.length_map] at inside
  omega

/-- Bounds that leave out no file that may hold the key: the whole level, or from the index. -/
structure BoundsValid (ikey : EntryKey K) (files : List (FileMetaData K)) (bounds : ℤ × ℤ) : Prop where
  left : 0 ≤ bounds.1 ∧ LeftOf (files.map (·.largestUser)) bounds.1 ikey.userKey
  right : bounds = (0, kLevelMaxIndex) ∨
    bounds.2 < files.length ∧ RightOf (files.map (·.smallestUser)) bounds.2 ikey.userKey

theorem boundsValid_full (ikey : EntryKey K) (files : List (FileMetaData K)) :
    BoundsValid ikey files (0, kLevelMaxIndex) :=
  ⟨⟨le_rfl, fun x l inside => absurd inside (by simp)⟩, .inl rfl⟩

def NextValid (ikey : EntryKey K) (levels : List (List (FileMetaData K))) (level : ℕ) (bounds : ℤ × ℤ) : Prop :=
  ∀ next, levels[level + 1]? = some next → BoundsValid ikey next bounds

variable {ikey : EntryKey K} {levels : List (List (FileMetaData K))} {level : ℕ} {files : List (FileMetaData K)}
  {next : List (FileMetaData K)} {file : FileMetaData K} {right : ℤ} {start : ℕ}

theorem updateIndex_units (deep : 0 < level) (here : levels[level]? = some files)
    (lt : levels[level + 1]? = some next) :
    (updateIndex levels).nextLevelIndex[level]? = some (indexUnits files next) := by
  have inside := (List.getElem?_eq_some_iff.mp lt).1
  simp only [updateIndex, List.getElem?_map, List.getElem?_range (show level < levels.length by omega), map_some]
  rw [if_pos ⟨deep, by omega⟩, List.getD_eq_getElem?_getD, List.getD_eq_getElem?_getD, here, lt]
  rfl

theorem updateIndex_levelRb (lt : levels[level + 1]? = some next) :
    (updateIndex levels).levelRb[level + 1]? = some ((next.length : ℤ) - 1) := by
  have inside := (List.getElem?_eq_some_iff.mp lt).1
  simp only [updateIndex, List.getElem?_map, List.getElem?_range inside, map_some]
  rw [if_neg (by omega), List.getD_eq_getElem?_getD, lt]
  rfl

theorem getNextLevelIndex_valid (deep : 0 < level) (here : levels[level]? = some files) (consistent : LevelConsistent files)
    {index : ℕ} (found : files[index]? = some file)
    (passed : ∀ (x : ℕ) previous, x < index → files[x]? = some previous → previous.largestUser ≤ ikey.userKey) :
    ∃ bounds, (updateIndex levels).getNextLevelIndex level index (file.compareSmallest ikey) (file.compareLargest ikey)
      = some bounds ∧ NextValid ikey levels level bounds := by
  have inside := (List.getElem?_eq_some_iff.mp here).1
  by_cases last : level + 1 = (updateIndex levels).numLevels
  · refine ⟨(0, -1), by rw [FileIndexer.getNextLevelIndex, if_pos last], ?_⟩
    intro next lt
    have deeper := (List.getElem?_eq_some_iff.mp lt).1
    exact absurd last (ne_of_lt deeper)
  have more : level + 1 < levels.length := by
    change ¬ level + 1 = levels.length at last
    omega
  obtain ⟨next, lt⟩ : ∃ next, levels[level + 1]? = some next := ⟨_, getElem?_eq_getElem more⟩
  -- the unit of the file, and that of the file before it
  have valid := forall₂_iff_get.mp (indexUnits_valid consistent next)
  have unitAt : ∀ (x : ℕ) file, files[x]? = some file → ∃ unit, (indexUnits files next)[x]? = some unit ∧
      UnitValid next file unit := by
    intro x file found
    obtain ⟨short, rfl⟩ := List.getElem?_eq_some_iff.mp found
    have long : x < (indexUnits files next).length := valid.1 ▸ short
    exact ⟨_, List.getElem?_eq_getElem long, valid.2 x short long⟩
  obtain ⟨unit, unitFound, unitValid⟩ := unitAt index file found
  have only : ∀ bounds, BoundsValid ikey next bounds → NextValid ikey levels level bounds := by
    intro bounds good other isNext
    rw [lt] at isNext
    cases isNext
    exact good
  rw [FileIndexer.getNextLevelIndex, if_neg last, updateIndex_units deep here lt]
  dsimp only [bind_eq_bind, bind_some]
  rw [unitFound]
  dsimp only [bind_some]
  rcases lt_trichotomy ikey.userKey file.smallestUser with less | eq | greater
  · -- left of the file: the file before it ends at or before the key
    have first : file.compareSmallest ikey = .lt := compare_lt_iff_lt.mpr less
    rw [first]
    have right := unitValid.smallestRb.2.mono less.le
    by_cases notFirst : index > 0
    · rw [if_pos notFirst]
      obtain ⟨short, -⟩ := List.getElem?_eq_some_iff.mp found
      have previousAt := List.getElem?_eq_getElem (show index - 1 < files.length by omega)
      obtain ⟨before, beforeFound, beforeValid⟩ := unitAt _ _ previousAt
      rw [beforeFound]
      refine ⟨_, rfl, only _ ⟨⟨beforeValid.largestLb.1, ?_⟩, .inr ⟨unitValid.smallestRb.1, right⟩⟩⟩
      exact beforeValid.largestLb.2.mono (passed _ _ (by omega) previousAt)
    · rw [if_neg notFirst]
      exact ⟨_, rfl, only _ ⟨(boundsValid_full ikey next).left, .inr ⟨unitValid.smallestRb.1, right⟩⟩⟩
  · have first : file.compareSmallest ikey = .eq := compare_eq_iff_eq.mpr eq
    rw [first]
    exact ⟨_, rfl, only _ ⟨⟨unitValid.smallestLb.1, unitValid.smallestLb.2.mono eq.ge⟩,
      .inr ⟨unitValid.smallestRb.1, unitValid.smallestRb.2.mono eq.le⟩⟩⟩
  · have first : file.compareSmallest ikey = .gt := compare_gt_iff_gt.mpr greater
    have second : file.compareLargest ikey = compare ikey.userKey file.largestUser := by
      rw [FileMetaData.compareLargest, first]
      rfl
    have left := unitValid.smallestLb.2.mono greater.le
    rw [second, first]
    rcases lt_trichotomy ikey.userKey file.largestUser with less | eq | right
    · rw [compare_lt_iff_lt.mpr less]
      exact ⟨_, rfl, only _ ⟨⟨unitValid.smallestLb.1, left⟩, .inr ⟨unitValid.largestRb.1, unitValid.largestRb.2.mono less.le⟩⟩⟩
    · rw [compare_eq_iff_eq.mpr eq]
      exact ⟨_, rfl, only _ ⟨⟨unitValid.largestLb.1, unitValid.largestLb.2.mono eq.ge⟩,
        .inr ⟨unitValid.largestRb.1, unitValid.largestRb.2.mono eq.le⟩⟩⟩
    · rw [compare_gt_iff_gt.mpr right]
      rw [updateIndex_levelRb lt]
      exact ⟨_, rfl, only _ ⟨⟨unitValid.largestLb.1, unitValid.largestLb.2.mono right.le⟩,
        .inr ⟨by dsimp only; omega, rightOf_last next ikey.userKey⟩⟩⟩

theorem pickSortedLevel_exact (deep : 0 < level) (here : levels[level]? = some files) (consistent : LevelConsistent files)
    (rest : List (FileMetaData K)) (index : ℕ) (bounds : ℤ × ℤ) (suffix : rest = files.drop index)
    (passed : ∀ (x : ℕ) previous, x < index → files[x]? = some previous → previous.largestUser ≤ ikey.userKey)
    (ahead : ∀ file ∈ rest, ikey ≤ file.largest) (ended : rest = [] → NextValid ikey levels level bounds) :
    ∃ bounds', pickSortedLevel (updateIndex levels) ikey level index bounds rest =
        some (rest.filter (fun file => file.smallestUser ≤ ikey.userKey), bounds') ∧
      NextValid ikey levels level bounds' := by
  induction rest generalizing index bounds with
  | nil => exact ⟨bounds, rfl, ended rfl⟩
  | cons file rest ih =>
    have found : files[index]? = some file := by
      rw [← head?_drop, ← suffix]
      rfl
    have shorter : rest = files.drop (index + 1) := by
      rw [← tail_drop, ← suffix]
      rfl
    obtain ⟨bounds', read, valid⟩ := getNextLevelIndex_valid deep here consistent found passed
    obtain ⟨reaches, aheadLater⟩ := forall_mem_cons.mp ahead
    have within : ikey.userKey ≤ file.largestUser := userKey_le reaches
    -- a later file starts behind the end of this one
    have later : ∀ other ∈ rest, file.smallestUser ≤ other.smallestUser ∧ file.largestUser ≤ other.smallestUser := by
      intro other mem
      rw [shorter] at mem
      obtain ⟨x, at'⟩ := mem_iff_getElem?.mp mem
      rw [getElem?_drop] at at'
      have order := consistent.at_lt (by omega) found at'
      exact ⟨userKey_le order.1.le, userKey_le order.2.2.le⟩
    have noneLater : ∀ key, ikey.userKey < key → (∀ other ∈ rest, key ≤ other.smallestUser) →
        rest.filter (fun file => file.smallestUser ≤ ikey.userKey) = [] := by
      intro key lt bound
      rw [filter_eq_nil_iff]
      intro other mem
      rw [decide_eq_true_eq, not_le]
      exact lt.trans_le (bound other mem)
    unfold pickSortedLevel
    dsimp only [bind_eq_bind]
    rw [read]
    dsimp only [bind_some]
    by_cases left : ikey.userKey < file.smallestUser
    · have first : file.compareSmallest ikey = .lt := compare_lt_iff_lt.mpr left
      rw [if_pos (.inl first), filter_cons_of_neg (by simpa using left),
        noneLater _ left fun other mem => (later other mem).1]
      exact ⟨bounds', rfl, valid⟩
    · have first : file.compareSmallest ikey ≠ .lt := fun lt => left (compare_lt_iff_lt.mp lt)
      have second : file.compareLargest ikey = compare ikey.userKey file.largestUser := if_neg first
      have third : file.compareLargest ikey ≠ .gt := by
        rw [second]
        exact fun greater => (compare_gt_iff_gt.mp greater).not_ge within
      rw [if_neg (not_or.mpr ⟨first, third⟩), second, filter_cons_of_pos (by simpa using left)]
      rcases within.lt_or_eq with inner | eq
      · rw [if_pos (compare_lt_iff_lt.mpr inner), noneLater _ inner fun other mem => (later other mem).2]
        exact ⟨bounds', rfl, valid⟩
      · rw [if_neg (by rw [compare_eq_iff_eq.mpr eq]; decide)]
        have passedHere : ∀ (x : ℕ) previous, x < index + 1 → files[x]? = some previous →
            previous.largestUser ≤ ikey.userKey := by
          intro x previous before at'
          rcases eq_or_lt_of_le (Nat.lt_succ_iff.mp before) with rfl | earlier
          · rw [found] at at'
            cases at'
            exact eq.ge
          · exact passed x previous earlier at'
        obtain ⟨bounds'', run, valid'⟩ := ih (index + 1) bounds' shorter passedHere aheadLater fun _ => valid
        rw [run]
        exact ⟨bounds'', rfl, valid'⟩

def clippedRight (files : List (FileMetaData K)) (right : ℤ) : ℤ :=
  if right = kLevelMaxIndex then (files.length : ℤ) - 1 else right

theorem BoundsValid.clipped {left : ℤ} (valid : BoundsValid ikey files (left, right)) (filled : files ≠ [])
    (open' : left ≤ right) : left ≤ clippedRight files right ∧ clippedRight files right < files.length ∧
      RightOf (files.map (·.smallestUser)) (clippedRight files right) ikey.userKey := by
  have long := length_pos_iff.mpr filled
  have last := rightOf_last files ikey.userKey
  unfold clippedRight
  rcases valid.right with full | ⟨short, right⟩
  · cases full
    rw [if_pos rfl]
    exact ⟨by omega, by omega, last⟩
  · dsimp only at short right
    split
    · exact ⟨by omega, by omega, last⟩
    · exact ⟨open', short, right⟩

theorem findFileInRange_spec (ikey : EntryKey K) (consistent : LevelConsistent files) (left right : ℕ)
    (between : left ≤ right) :
    findFileInRange ikey files left right ≤ right ∧
      (∀ (x : ℕ) file, left ≤ x → x < findFileInRange ikey files left right → files[x]? = some file → file.largest < ikey) ∧
      ∀ (x : ℕ) file, findFileInRange ikey files left right ≤ x → x < right → files[x]? = some file → ikey ≤ file.largest := by
  have falling : ∀ i j : ℕ, i ≤ j → ((files[j]?).any fun file : FileMetaData K => file.largest < ikey) = true →
      ((files[i]?).any fun file : FileMetaData K => file.largest < ikey) = true := by
    intro i j le ends
    obtain ⟨later, found, ends⟩ := (any_eq_true _ _).mp ends
    have short := (List.getElem?_eq_some_iff.mp found).1
    have here := List.getElem?_eq_getElem (show i < files.length by omega)
    rw [here, any_some, decide_eq_true_eq]
    rcases eq_or_lt_of_le le with rfl | before
    · rw [here] at found
      cases found
      exact of_decide_eq_true ends
    · exact (consistent.at_lt before here found).2.1.trans (of_decide_eq_true ends)
  obtain ⟨low, high, inside, outside⟩ := LowerBound.lowerBound_spec falling left (right - left)
  unfold findFileInRange
  refine ⟨by omega, ?_, ?_⟩
  · intro x file above lt found
    have ends := inside x above lt
    rw [found, any_some] at ends
    exact of_decide_eq_true ends
  · intro x file above lt found
    have ends := outside x above (by omega)
    rw [found, any_some] at ends
    exact not_lt.mp (of_decide_eq_false ends)

theorem BoundsValid.left_ends {bounds : ℤ × ℤ} (valid : BoundsValid ikey files bounds) {x : ℕ}
    (left : (x : ℤ) < bounds.1) (found : files[x]? = some file) : file.largest < ikey := by
  apply internalKey_lt.mpr
  apply Or.inl
  apply valid.left.2 x _ left
  rw [getElem?_map, found]
  rfl

theorem RightOf.starts (right : RightOf (files.map (·.smallestUser)) bound ikey.userKey) {x : ℕ} (beyond : bound < x)
    (found : files[x]? = some file) : ikey.userKey < file.smallestUser := by
  apply right x _ beyond
  rw [getElem?_map, found]
  rfl

theorem pickDeeper_open {indexer : FileIndexer} {left : ℤ} {rest : List (List (FileMetaData K))} (filled : files ≠ [])
    (open' : left ≤ right) (search : findFileInRange ikey files left.toNat ((clippedRight files right).toNat + 1) = start) :
    pickDeeper indexer ikey level left right (files :: rest) =
      if (start : ℤ) = clippedRight files right + 1 then pickDeeper indexer ikey (level + 1) 0 kLevelMaxIndex rest
      else (pickSortedLevel indexer ikey level start (left, clippedRight files right) (files.drop start)).bind fun step =>
        (pickDeeper indexer ikey (level + 1) step.2.1 step.2.2 rest).bind fun lt =>
          some (step.1.map (level, ·) ++ lt) := by
  subst search
  rw [pickDeeper, if_neg filled, if_pos open']
  rfl

/-- The files of a level that hold the key and do not end before the lookup key. -/
def heldFiles (ikey : EntryKey K) (files : List (FileMetaData K)) : List (FileMetaData K) :=
  files.filter fun file => file.smallestUser ≤ ikey.userKey ∧ ikey ≤ file.largest

def heldBelow (ikey : EntryKey K) : (level : ℕ) → List (List (FileMetaData K)) → List (ℕ × FileMetaData K)
  | _, [] => []
  | level, files :: levels => (heldFiles ikey files).map (level, ·) ++ heldBelow ikey (level + 1) levels

theorem heldFiles_nil
    (absent : ∀ (x : ℕ) file, files[x]? = some file → file.smallestUser ≤ ikey.userKey → ¬ ikey ≤ file.largest) :
    heldFiles ikey files = [] := by
  apply filter_eq_nil_iff.mpr
  intro file mem held
  obtain ⟨x, found⟩ := mem_iff_getElem?.mp mem
  obtain ⟨starts, ends⟩ := of_decide_eq_true held
  exact absent x file found starts ends

theorem heldFiles_drop
    (passed : ∀ x file, x < start → files[x]? = some file → file.largest < ikey)
    (ahead : ∀ file ∈ files.drop start, ikey ≤ file.largest) :
    heldFiles ikey files = (files.drop start).filter fun file => file.smallestUser ≤ ikey.userKey := by
  unfold heldFiles
  conv_lhs => rw [← take_append_drop start files]
  rw [filter_append]
  have none : (files.take start).filter (fun file => file.smallestUser ≤ ikey.userKey ∧ ikey ≤ file.largest) = [] := by
    apply filter_eq_nil_iff.mpr
    intro file mem held
    obtain ⟨x, found⟩ := mem_iff_getElem?.mp mem
    have early := (List.getElem?_eq_some_iff.mp found).1
    rw [List.length_take] at early
    rw [List.getElem?_take, if_pos (by omega)] at found
    exact (passed x file (by omega) found).not_ge (of_decide_eq_true held).2
  rw [none, nil_append]
  apply filter_congr
  intro file mem
  rw [decide_eq_decide]
  exact and_iff_left (ahead file mem)

theorem pickDeeper_exact (ikey : EntryKey K)
    (consistent : ∀ (level : ℕ) files, 0 < level → levels[level]? = some files → LevelConsistent files)
    (rest : List (List (FileMetaData K))) (level : ℕ) (left right : ℤ) (deep : 0 < level) (suffix : rest = levels.drop level)
    (valid : ∀ files, levels[level]? = some files → BoundsValid ikey files (left, right)) :
    pickDeeper (updateIndex levels) ikey level left right rest = some (heldBelow ikey level rest) := by
  induction rest generalizing level left right with
  | nil => rfl
  | cons files rest ih =>
    have here : levels[level]? = some files := by
      rw [← head?_drop, ← suffix]
      rfl
    have shorter : rest = levels.drop (level + 1) := by
      rw [← tail_drop, ← suffix]
      rfl
    have bounds := valid files here
    have sorted := consistent level files deep here
    rw [heldBelow]
    -- a level without such a file is passed over, and the next one is searched as a whole
    have skip : (∀ (x : ℕ) file, files[x]? = some file → file.smallestUser ≤ ikey.userKey → ¬ ikey ≤ file.largest) →
        pickDeeper (updateIndex levels) ikey (level + 1) 0 kLevelMaxIndex rest =
          some ((heldFiles ikey files).map (level, ·) ++ heldBelow ikey (level + 1) rest) := by
      intro absent
      rw [heldFiles_nil absent]
      exact ih (level + 1) 0 kLevelMaxIndex (Nat.succ_pos level) shorter fun next _ => boundsValid_full ikey next
    by_cases filled : files = []
    · rw [pickDeeper, if_pos filled]
      apply skip
      intro x file found
      rw [filled] at found
      cases found
    by_cases open' : left ≤ right
    · obtain ⟨le, short, beyondRight⟩ := bounds.clipped filled open'
      have nonneg : 0 ≤ left := bounds.left.1
      obtain ⟨within, before, after⟩ := findFileInRange_spec ikey sorted left.toNat
        ((clippedRight files right).toNat + 1) (by omega)
      generalize search : findFileInRange ikey files left.toNat ((clippedRight files right).toNat + 1) = start
        at within before after
      rw [pickDeeper_open filled open' search]
      have passed : ∀ (x : ℕ) file, x < start → files[x]? = some file → file.largest < ikey := by
        intro x file early found
        by_cases inner : left.toNat ≤ x
        · exact before x file inner early found
        · exact bounds.left_ends (by dsimp only; omega) found
      by_cases none : (start : ℤ) = clippedRight files right + 1
      · rw [if_pos none]
        apply skip
        intro x file found starts ends
        by_cases early : x < start
        · exact (passed x file early found).not_ge ends
        · exact (beyondRight.starts (by omega) found).not_ge starts
      · rw [if_neg none]
        have inside : start < files.length := by omega
        have ahead : ∀ file ∈ files.drop start, ikey ≤ file.largest := by
          intro file mem
          obtain ⟨x, found⟩ := mem_iff_getElem?.mp mem
          rw [getElem?_drop] at found
          have first := after start _ le_rfl (by omega) (getElem?_eq_getElem inside)
          cases x with
          | zero =>
            rw [Nat.add_zero, getElem?_eq_getElem inside] at found
            cases found
            exact first
          | succ x => exact first.trans (sorted.at_lt (by omega) (getElem?_eq_getElem inside) found).2.1.le
        obtain ⟨bounds', run, nextValid⟩ := pickSortedLevel_exact deep here sorted (files.drop start) start
          (left, clippedRight files right) rfl (fun x file early at' => userKey_le (passed x file early at').le) ahead
          (fun empty => absurd (drop_eq_nil_iff.mp empty) (by omega))
        rw [run, bind_some, ih (level + 1) bounds'.1 bounds'.2 (Nat.succ_pos level) shorter nextValid,
          heldFiles_drop passed ahead]
        rfl
    · rw [pickDeeper, if_neg filled, if_neg open']
      apply skip
      intro x file found starts ends
      rcases bounds.right with full | ⟨-, beyondRight⟩
      · cases full
        exact absurd (by decide) open'
      · by_cases early : (x : ℤ) < left
        · exact (bounds.left_ends early found).not_ge ends
        · exact (beyondRight.starts (by dsimp only; omega) found).not_ge starts

end VcompProof
