import Mathlib.Data.List.GetD
import Vcomp.WritePrepared.State

namespace VcompProof.WritePrepared

open VcompModel.WritePrepared VcompModel.WritePrepared.State List

theorem getAll_spec (maxSeq : ℕ) (l ret : List ℕ) (sorted : l.Pairwise (· ≤ ·)) (strict : ret.Pairwise (· < ·))
    (le : ∀ a ∈ ret, ∀ b ∈ l, a ≤ b) :
    (getAll maxSeq ret l).Pairwise (· < ·) ∧ ∀ x, x ∈ getAll maxSeq ret l ↔ x ∈ ret ∨ (x ∈ l ∧ x ≤ maxSeq) := by
  induction l generalizing ret with
  | nil => exact ⟨strict, by simp [getAll]⟩
  | cons number rest ih =>
    obtain ⟨first, sorted⟩ := pairwise_cons.mp sorted
    rw [getAll]
    split
    next beyond =>
      refine ⟨strict, fun x => ⟨.inl, ?_⟩⟩
      rintro (mem | ⟨mem, small⟩)
      · exact mem
      · rcases mem_cons.mp mem with rfl | later
        · omega
        · have := first x later
          omega
    next bounded =>
      have le_rest : ∀ a ∈ ret, ∀ b ∈ rest, a ≤ b := fun a mem b later => le a mem b (mem_cons_of_mem _ later)
      split
      next repeated =>
        obtain ⟨strict', members⟩ := ih ret sorted strict le_rest
        refine ⟨strict', fun x => (members x).trans ?_⟩
        have known : number ∈ ret := mem_of_getLast? repeated
        grind
      next fresh =>
        have above : ∀ a ∈ ret, a < number := by
          intro a mem
          rcases lt_or_eq_of_le (le a mem number mem_cons_self) with lt | rfl
          · exact lt
          · -- the largest of `ret` is its last
            exfalso
            obtain ⟨front, last, rfl⟩ := eq_nil_or_concat ret |>.resolve_left (ne_nil_of_mem mem)
            rw [concat_eq_append] at mem strict fresh le
            have bound := le last (by simp) a mem_cons_self
            rcases mem_append.mp mem with early | here
            · have := (pairwise_append.mp strict).2.2 a early last (by simp)
              omega
            · rw [mem_singleton.mp here] at fresh
              simp at fresh
        obtain ⟨strict', members⟩ := ih (ret ++ [number]) sorted
          (pairwise_append.mpr ⟨strict, pairwise_singleton _ _, fun a mem b here => by
            rw [mem_singleton.mp here]; exact above a mem⟩)
          (by
            intro a mem b later
            rcases mem_append.mp mem with early | here
            · exact le_rest a early b later
            · rw [mem_singleton.mp here]
              exact first b later)
        refine ⟨strict', fun x => (members x).trans ?_⟩
        grind

structure MapOnly (s s' : State) : Prop where
  eq : ∃ map empty, s' = { s with oldCommitMap := map, oldCommitMapEmpty := empty }
  flag : s.oldCommitMapEmpty = s.oldCommitMap.entries.isEmpty → s'.oldCommitMapEmpty = s'.oldCommitMap.entries.isEmpty

theorem MapOnly.refl (s : State) : MapOnly s s := ⟨⟨_, _, rfl⟩, fun flag => flag⟩

theorem MapOnly.trans {s s' s'' : State} (first : MapOnly s s') (second : MapOnly s' s'') : MapOnly s s'' := by
  obtain ⟨⟨_, _, rfl⟩, flag⟩ := first
  obtain ⟨⟨_, _, rfl⟩, flag'⟩ := second
  exact ⟨⟨_, _, rfl⟩, fun holds => flag' (flag holds)⟩

theorem releaseSnapshotInternal_mapOnly (s : State) (snap : ℕ) : MapOnly s (s.releaseSnapshotInternal snap) := by
  rw [releaseSnapshotInternal]
  split
  · split
    · exact ⟨⟨_, _, rfl⟩, fun _ => rfl⟩
    · exact .refl s
  · exact .refl s

theorem releaseSnapshotInternal_lookup (s : State) (snap x : ℕ) :
    (x ≠ snap → (s.releaseSnapshotInternal snap).oldCommitMap.lookup x = s.oldCommitMap.lookup x) ∧
      ((s.releaseSnapshotInternal snap).oldCommitMap.lookup x = none ∨
        (s.releaseSnapshotInternal snap).oldCommitMap.lookup x = s.oldCommitMap.lookup x) := by
  rw [releaseSnapshotInternal]
  split
  · split
    · refine ⟨fun other => AList.lookup_erase_ne other, ?_⟩
      by_cases eq : x = snap
      · exact .inl (by rw [eq]; exact AList.lookup_erase _ _)
      · exact .inr (AList.lookup_erase_ne eq)
    · exact ⟨fun _ => rfl, .inr rfl⟩
  · exact ⟨fun _ => rfl, .inr rfl⟩

theorem cleanupReleasedSnapshots_spec (fuel : ℕ) (news olds : List ℕ) (s : State) (new_strict : news.Pairwise (· < ·))
    (old_strict : olds.Pairwise (· < ·)) (later : ∀ n ∈ news, ∀ o ∈ olds, n ∈ olds ∨ o < n) :
    MapOnly s (cleanupReleasedSnapshots fuel news olds s) ∧
      (∀ x, x ∈ news ∨ x ∉ olds →
        (cleanupReleasedSnapshots fuel news olds s).oldCommitMap.lookup x = s.oldCommitMap.lookup x) ∧
      ∀ x, (cleanupReleasedSnapshots fuel news olds s).oldCommitMap.lookup x = none ∨
        (cleanupReleasedSnapshots fuel news olds s).oldCommitMap.lookup x = s.oldCommitMap.lookup x := by
  induction fuel generalizing news olds s with
  | zero => exact ⟨.refl s, fun _ _ => rfl, fun _ => .inr rfl⟩
  | succ fuel ih =>
    -- the release of one old snapshot outside the new list
    have release : ∀ (old : ℕ) (olds' : List ℕ), olds = old :: olds' → old ∉ news →
        MapOnly s (cleanupReleasedSnapshots fuel news olds' (s.releaseSnapshotInternal old)) ∧
          (∀ x, x ∈ news ∨ x ∉ olds →
            (cleanupReleasedSnapshots fuel news olds' (s.releaseSnapshotInternal old)).oldCommitMap.lookup x =
              s.oldCommitMap.lookup x) ∧
          ∀ x, (cleanupReleasedSnapshots fuel news olds' (s.releaseSnapshotInternal old)).oldCommitMap.lookup x = none ∨
            (cleanupReleasedSnapshots fuel news olds' (s.releaseSnapshotInternal old)).oldCommitMap.lookup x =
              s.oldCommitMap.lookup x := by
      rintro old olds' rfl out
      obtain ⟨only, kept, any⟩ := ih news olds' (s.releaseSnapshotInternal old) new_strict (pairwise_cons.mp old_strict).2
        (fun n mem o lt => by
          rcases later n mem o (mem_cons_of_mem _ lt) with known | less
          · rcases mem_cons.mp known with rfl | known
            · exact absurd mem out
            · exact .inl known
          · exact .inr less)
      refine ⟨(releaseSnapshotInternal_mapOnly s old).trans only, ?_, ?_⟩
      · intro x place
        have other : x ≠ old := by
          rintro rfl
          rcases place with mem | absent
          · exact out mem
          · exact absent mem_cons_self
        rw [kept x (place.imp_right fun absent lt => absent (mem_cons_of_mem _ lt)),
          (releaseSnapshotInternal_lookup s old x).1 other]
      · intro x
        rcases any x with none | eq
        · exact .inl none
        · rw [eq]
          exact (releaseSnapshotInternal_lookup s old x).2
    match news, olds with
    | [], [] => exact ⟨.refl s, fun _ _ => rfl, fun _ => .inr rfl⟩
    | _ :: _, [] => exact ⟨.refl s, fun _ _ => rfl, fun _ => .inr rfl⟩
    | [], old :: olds => exact release old olds rfl (by simp)
    | new :: news, old :: olds =>
      rw [cleanupReleasedSnapshots]
      split
      next eq =>
        subst eq
        obtain ⟨new_first, new_rest⟩ := pairwise_cons.mp new_strict
        obtain ⟨old_first, old_rest⟩ := pairwise_cons.mp old_strict
        have no_repeat : ∀ l : List ℕ, (∀ a ∈ l, new < a) → l.dropWhile (· == new) = l := by
          intro l above
          cases l with
          | nil => rfl
          | cons a l => exact dropWhile_cons_of_neg (by have := above a mem_cons_self; simp; omega)
        rw [no_repeat news new_first, no_repeat olds old_first]
        obtain ⟨only, kept, any⟩ := ih news olds s new_rest old_rest (fun n mem o lt => by
          rcases later n (mem_cons_of_mem _ mem) o (mem_cons_of_mem _ lt) with known | less
          · rcases mem_cons.mp known with rfl | known
            · exact absurd (new_first n mem) (lt_irrefl _)
            · exact .inl known
          · exact .inr less)
        refine ⟨only, fun x place => kept x ?_, any⟩
        rcases place with mem | absent
        · rcases mem_cons.mp mem with rfl | mem
          · exact .inr fun lt => lt_irrefl _ (old_first _ lt)
          · exact .inl mem
        · exact .inr fun lt => absent (mem_cons_of_mem _ lt)
      next other =>
        apply release old olds rfl
        intro mem
        obtain ⟨new_first, -⟩ := pairwise_cons.mp new_strict
        have ahead : old < new := by
          rcases later new mem_cons_self old mem_cons_self with known | less
          · rcases mem_cons.mp known with rfl | known
            · exact absurd rfl other
            · exact (pairwise_cons.mp old_strict).1 new known
          · exact less
        rcases mem_cons.mp mem with rfl | mem
        · exact lt_irrefl _ ahead
        · exact lt_irrefl _ (ahead.trans (new_first old mem))

theorem touch_mapOnly_eq (snapshots : List ℕ) (s : State) :
    ∃ map, snapshots.foldl touchOldCommitMap s = { s with oldCommitMap := map } ∧
      (∀ x ∈ snapshots, map.lookup x = some ((s.oldCommitMap.lookup x).getD [])) ∧
      ∀ x, x ∉ snapshots → map.lookup x = s.oldCommitMap.lookup x := by
  induction snapshots generalizing s with
  | nil => exact ⟨_, rfl, by simp, fun _ _ => rfl⟩
  | cons snap rest ih =>
    obtain ⟨map, result, touched, kept⟩ := ih (s.touchOldCommitMap snap)
    have head : (s.touchOldCommitMap snap).oldCommitMap.lookup snap = some ((s.oldCommitMap.lookup snap).getD []) :=
      AList.lookup_insert _
    have others : ∀ x ≠ snap, (s.touchOldCommitMap snap).oldCommitMap.lookup x = s.oldCommitMap.lookup x :=
      fun x other => AList.lookup_insert_ne other
    refine ⟨map, result, ?_, ?_⟩
    · intro x mem
      by_cases again : x ∈ rest
      · rw [touched x again]
        by_cases eq : x = snap
        · rw [eq, head, Option.getD_some]
        · rw [others x eq]
      · obtain rfl : x = snap := (mem_cons.mp mem).resolve_right again
        rw [kept x again, head]
    · intro x out
      obtain ⟨other, out⟩ := not_or.mp (mt mem_cons.mpr out)
      rw [kept x out, others x other]

variable {cfg : Config} {entry : CommitEntry}

def Overlaps (entry : CommitEntry) (snap : ℕ) : Prop := entry.prepSeq ≤ snap ∧ snap < entry.commitSeq

/-- Some overlapping snapshots were given the prepare number, and nothing else happened. -/
structure Recorded (entry : CommitEntry) (s s' : State) : Prop where
  only : MapOnly s s'
  mono : ∀ x vec, s.oldCommitMap.lookup x = some vec → ∃ vec', s'.oldCommitMap.lookup x = some vec' ∧ vec ⊆ vec'
  sound : ∀ x vec', s'.oldCommitMap.lookup x = some vec' → ∀ p ∈ vec',
    (∃ vec, s.oldCommitMap.lookup x = some vec ∧ p ∈ vec) ∨ p = entry.prepSeq ∧ Overlaps entry x
  sorted : (∀ x vec, s.oldCommitMap.lookup x = some vec → vec.Pairwise (· ≤ ·)) →
    ∀ x vec, s'.oldCommitMap.lookup x = some vec → vec.Pairwise (· ≤ ·)

def OnRecord (s : State) (prep snap : ℕ) : Prop := ∃ vec, s.oldCommitMap.lookup snap = some vec ∧ prep ∈ vec

theorem Recorded.refl (s : State) : Recorded entry s s :=
  ⟨.refl s, fun _ vec found => ⟨vec, found, List.Subset.refl _⟩, fun _ vec found _ mem => .inl ⟨vec, found, mem⟩,
    fun sorted => sorted⟩

theorem Recorded.trans {s s' s'' : State} (first : Recorded entry s s') (second : Recorded entry s' s'') :
    Recorded entry s s'' := by
  refine ⟨first.only.trans second.only, ?_, ?_, fun sorted => second.sorted (first.sorted sorted)⟩
  · intro x vec found
    obtain ⟨vec', found', sub⟩ := first.mono x vec found
    obtain ⟨vec'', found'', sub'⟩ := second.mono x vec' found'
    exact ⟨vec'', found'', List.Subset.trans sub sub'⟩
  · intro x vec'' found'' p mem
    rcases second.sound x vec'' found'' p mem with ⟨vec', found', member'⟩ | own
    · exact first.sound x vec' found' p member'
    · exact .inr own

theorem Recorded.onRecord {s s' : State} (recorded : Recorded entry s s') {prep snap : ℕ} (known : OnRecord s prep snap) :
    OnRecord s' prep snap := by
  obtain ⟨vec, found, mem⟩ := known
  obtain ⟨vec', found', sub⟩ := recorded.mono snap vec found
  exact ⟨vec', found', sub mem⟩

theorem maybeUpdateOldCommitMap_spec (entry : CommitEntry) (s : State) (snap : ℕ) (nextIsLarger : Bool) :
    Recorded entry s (s.maybeUpdateOldCommitMap entry snap nextIsLarger).2 ∧
      (Overlaps entry snap → OnRecord (s.maybeUpdateOldCommitMap entry snap nextIsLarger).2 entry.prepSeq snap) ∧
      ((s.maybeUpdateOldCommitMap entry snap nextIsLarger).1 = false →
        if nextIsLarger then entry.commitSeq ≤ snap else snap < entry.prepSeq) := by
  rw [maybeUpdateOldCommitMap]
  split
  next committed =>
    refine ⟨.refl s, fun overlaps => absurd overlaps.2 (by omega), ?_⟩
    cases nextIsLarger
    · simp
    · exact fun _ => committed
  next uncommitted =>
    split
    next overlaps =>
      set vec := (s.oldCommitMap.lookup snap).getD [] with vec_eq
      have here := AList.lookup_insert (a := snap) (b := vec.orderedInsert (· ≤ ·) entry.prepSeq) s.oldCommitMap
      have others : ∀ x ≠ snap, (s.oldCommitMap.insert snap (vec.orderedInsert (· ≤ ·) entry.prepSeq)).lookup x =
          s.oldCommitMap.lookup x :=
        fun x other => AList.lookup_insert_ne other
      refine ⟨⟨⟨⟨_, _, rfl⟩, fun _ => ?_⟩, ?_, ?_, ?_⟩, ?_, by simp⟩
      · simp [AList.entries_insert]
      · intro x old found
        by_cases eq : x = snap
        · subst eq
          refine ⟨_, here, fun p mem => (mem_orderedInsert _).mpr (.inr ?_)⟩
          rw [vec_eq, found]
          exact mem
        · exact ⟨old, by rw [others x eq]; exact found, List.Subset.refl _⟩
      · intro x new found p mem
        by_cases eq : x = snap
        · subst eq
          rw [here] at found
          rw [← Option.some.inj found] at mem
          rcases (mem_orderedInsert _).mp mem with rfl | earlier
          · exact .inr ⟨rfl, overlaps, Nat.lt_of_not_le uncommitted⟩
          · left
            cases known : s.oldCommitMap.lookup x with
            | none => rw [vec_eq, known] at earlier; simp at earlier
            | some old => exact ⟨old, rfl, by rwa [vec_eq, known] at earlier⟩
        · exact .inl ⟨new, by rw [← others x eq]; exact found, mem⟩
      · intro sorted x new found
        by_cases eq : x = snap
        · subst eq
          rw [here] at found
          rw [← Option.some.inj found]
          apply List.Pairwise.orderedInsert
          cases known : s.oldCommitMap.lookup x with
          | none => rw [vec_eq, known]; exact List.Pairwise.nil
          | some old => rw [vec_eq, known]; exact sorted x old known
        · exact sorted x new (by rw [← others x eq]; exact found)
      · intro _
        exact ⟨_, here, (mem_orderedInsert _).mpr (.inl rfl)⟩
    next outside =>
      refine ⟨.refl s, fun overlaps => absurd overlaps.1 outside, ?_⟩
      cases nextIsLarger
      · exact fun _ => Nat.lt_of_not_le outside
      · simp

theorem scanUp_spec (entry : CommitEntry) (l : List ℕ) (s : State) (sorted : l.Pairwise (· < ·)) :
    Recorded entry s (scanUp entry l s) ∧ ∀ x ∈ l, Overlaps entry x → OnRecord (scanUp entry l s) entry.prepSeq x := by
  induction l generalizing s with
  | nil => exact ⟨.refl s, by simp⟩
  | cons snap rest ih =>
    obtain ⟨first, sorted⟩ := pairwise_cons.mp sorted
    obtain ⟨recorded, known, stops⟩ := maybeUpdateOldCommitMap_spec entry s snap true
    rw [scanUp]
    generalize s.maybeUpdateOldCommitMap entry snap true = result at *
    obtain ⟨_ | _, next⟩ := result
    · refine ⟨recorded, ?_⟩
      intro x mem overlaps
      have beyond : entry.commitSeq ≤ snap := by simpa using stops rfl
      rcases mem_cons.mp mem with rfl | later
      · exact absurd overlaps.2 (by omega)
      · have := first x later
        exact absurd overlaps.2 (by omega)
    · obtain ⟨recorded', known'⟩ := ih next sorted
      refine ⟨recorded.trans recorded', ?_⟩
      intro x mem overlaps
      rcases mem_cons.mp mem with rfl | later
      · exact recorded'.onRecord (known overlaps)
      · exact known' x later overlaps

theorem scanDown_spec (cfg : Config) (entry : CommitEntry) (cells : List ℕ) (sorted : cells.Pairwise (· < ·)) (n : ℕ)
    (inside : n ≤ cells.length) (larger : Bool) (s : State)
    (cache : ∀ i, i < cells.length → s.snapshotCache.getD i 0 = cells.getD i 0) :
    Recorded entry s (scanDown cfg entry n larger s).2 ∧
      (∀ i < n, Overlaps entry (cells.getD i 0) → OnRecord (scanDown cfg entry n larger s).2 entry.prepSeq (cells.getD i 0)) ∧
      (0 < n → n = cfg.snapshotCacheSize →
        (scanDown cfg entry n larger s).1 = decide (cells.getD (n - 1) 0 < entry.commitSeq)) ∧
      (n < cfg.snapshotCacheSize → (scanDown cfg entry n larger s).1 = larger) := by
  induction n generalizing larger s with
  | zero => exact ⟨.refl s, by simp, by simp, fun _ => rfl⟩
  | succ i ih =>
    obtain ⟨recorded, known, stops⟩ := maybeUpdateOldCommitMap_spec entry s (cells.getD i 0) false
    rw [scanDown, cache i (by omega)]
    generalize s.maybeUpdateOldCommitMap entry (cells.getD i 0) false = result at *
    obtain ⟨_ | _, next⟩ := result
    · refine ⟨recorded, ?_, ?_, ?_⟩
      · intro j less overlaps
        have before : cells.getD i 0 < entry.prepSeq := by simpa using stops rfl
        rcases lt_or_eq_of_le (Nat.le_of_lt_succ less) with earlier | rfl
        · have order := pairwise_iff_getElem.mp sorted j i (by omega) (by omega) earlier
          rw [getD_eq_getElem _ _ (by omega : j < cells.length)] at overlaps
          rw [getD_eq_getElem _ _ (by omega : i < cells.length)] at before
          exact absurd overlaps.1 (by omega)
        · exact absurd overlaps.1 (by omega)
      · intro _ border
        rw [if_pos border, Nat.add_sub_cancel]
      · intro lt
        rw [if_neg (by omega)]
    · have eq : next.snapshotCache = s.snapshotCache := by
        obtain ⟨map, empty, rfl⟩ := recorded.only.eq
        rfl
      obtain ⟨recorded', known', -, larger'⟩ := ih (by omega)
        (if i + 1 = cfg.snapshotCacheSize then decide (cells.getD i 0 < entry.commitSeq) else larger) next (by rwa [eq])
      refine ⟨recorded.trans recorded', ?_, ?_, ?_⟩
      · intro j less overlaps
        rcases lt_or_eq_of_le (Nat.le_of_lt_succ less) with earlier | rfl
        · exact known' j earlier overlaps
        · exact recorded'.onRecord (known overlaps)
      · intro _ border
        rw [larger' (by omega), if_pos border, Nat.add_sub_cancel]
      · intro lt
        rw [larger' (by omega), if_neg (by omega)]

/-- The arrays of the snapshots hold the list `snapshotsAll`. -/
structure Listed (cfg : Config) (s : State) : Prop where
  strict : s.snapshotsAll.Pairwise (· < ·)
  total : s.snapshotsTotal = s.snapshotsAll.length
  cells : ∃ rest, s.snapshotCache = s.snapshotsAll.take cfg.snapshotCacheSize ++ rest
  overflow : s.snapshots = s.snapshotsAll.drop cfg.snapshotCacheSize

theorem checkAgainstSnapshots_spec (entry : CommitEntry) (s : State) (listed : Listed cfg s) :
    Recorded entry s (s.checkAgainstSnapshots cfg entry) ∧
      ∀ x ∈ s.snapshotsAll, Overlaps entry x → OnRecord (s.checkAgainstSnapshots cfg entry) entry.prepSeq x := by
  obtain ⟨rest, cells⟩ := listed.cells
  have some_cell : 0 < cfg.snapshotCacheSize := Nat.two_pow_pos _
  have strict : (s.snapshotsAll.take cfg.snapshotCacheSize).Pairwise (· < ·) := listed.strict.sublist (take_sublist _ _)
  have strict' : (s.snapshotsAll.drop cfg.snapshotCacheSize).Pairwise (· < ·) := listed.strict.sublist (drop_sublist _ _)
  have length : (s.snapshotsAll.take cfg.snapshotCacheSize).length = min s.snapshotsTotal cfg.snapshotCacheSize := by
    rw [length_take, listed.total, Nat.min_comm]
  obtain ⟨down, known, border, lt⟩ := scanDown_spec cfg entry _ strict
    (min s.snapshotsTotal cfg.snapshotCacheSize) length.ge false s (by
      intro i inside
      rw [cells, getD_append _ _ _ _ inside])
  have cached : ∀ x ∈ s.snapshotsAll.take cfg.snapshotCacheSize, Overlaps entry x →
      OnRecord (scanDown cfg entry (min s.snapshotsTotal cfg.snapshotCacheSize) false s).2 entry.prepSeq x := by
    intro x mem overlaps
    obtain ⟨i, inside, rfl⟩ := mem_iff_getElem.mp mem
    have recorded := known i (by omega)
    rw [getD_eq_getElem _ _ inside] at recorded
    exact recorded overlaps
  rw [checkAgainstSnapshots]
  generalize scanned : scanDown cfg entry (min s.snapshotsTotal cfg.snapshotCacheSize) false s = result at *
  obtain ⟨larger, next⟩ := result
  dsimp only at *
  have same_cells : next.snapshotCache = s.snapshotCache ∧ next.snapshots = s.snapshots := by
    obtain ⟨map, empty, rfl⟩ := down.only.eq
    exact ⟨rfl, rfl⟩
  split
  next both =>
    have cache : s.snapshotCache.take cfg.snapshotCacheSize = s.snapshotsAll.take cfg.snapshotCacheSize := by
      have full : (s.snapshotsAll.take cfg.snapshotCacheSize).length = cfg.snapshotCacheSize := by omega
      rw [cells, take_append_of_le_length full.ge, take_take, Nat.min_self]
    rw [same_cells.1, same_cells.2, cache, listed.overflow]
    obtain ⟨up, -⟩ := scanUp_spec entry (s.snapshotsAll.take cfg.snapshotCacheSize) next strict
    obtain ⟨up', known'⟩ := scanUp_spec entry (s.snapshotsAll.drop cfg.snapshotCacheSize)
      (scanUp entry (s.snapshotsAll.take cfg.snapshotCacheSize) next) strict'
    refine ⟨down.trans (up.trans up'), ?_⟩
    intro x mem overlaps
    rw [← take_append_drop cfg.snapshotCacheSize s.snapshotsAll] at mem
    rcases mem_append.mp mem with early | late
    · exact up'.onRecord (up.onRecord (cached x early overlaps))
    · exact known' x late overlaps
  next few =>
    refine ⟨down, ?_⟩
    intro x mem overlaps
    rw [← take_append_drop cfg.snapshotCacheSize s.snapshotsAll] at mem
    rcases mem_append.mp mem with early | late
    · exact cached x early overlaps
    · -- the border line snapshot is not before the commit, and those beyond it are larger
      exfalso
      have many : cfg.snapshotCacheSize < s.snapshotsTotal := by
        rw [listed.total]
        by_contra small
        rw [drop_eq_nil_of_le (Nat.le_of_not_lt small)] at late
        simp at late
      have full : min s.snapshotsTotal cfg.snapshotCacheSize = cfg.snapshotCacheSize := Nat.min_eq_right many.le
      rw [full] at border length
      have not_less := border some_cell rfl
      have stop : ¬larger = true := fun yes => few ⟨many, yes⟩
      rw [not_less, decide_eq_true_eq, getD_eq_getElem _ _ (by omega : cfg.snapshotCacheSize - 1 < _)] at stop
      have order := (pairwise_append.mp ((take_append_drop cfg.snapshotCacheSize s.snapshotsAll).symm ▸ listed.strict)).2.2 _
        (getElem_mem (by omega : cfg.snapshotCacheSize - 1 < (s.snapshotsAll.take cfg.snapshotCacheSize).length)) x late
      exact stop (order.trans overlaps.2)

end VcompProof.WritePrepared
