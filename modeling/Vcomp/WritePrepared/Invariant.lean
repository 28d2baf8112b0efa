import Mathlib.Data.List.TakeWhile
import Vcomp.WritePrepared.Snapshots

namespace VcompProof.WritePrepared

open VcompModel.WritePrepared VcompModel.WritePrepared.State List Option

variable {cfg : Config}

theorem binarySearch_iff {vec : List ℕ} (sorted : vec.Pairwise (· ≤ ·)) (x : ℕ) : binarySearch vec x = true ↔ x ∈ vec := by
  have falling : LowerBound.FallingOn (fun i => (vec[i]?).any (· < x)) 0 vec.length := by
    intro i j _ le inside before
    dsimp only at before ⊢
    rw [Nat.zero_add] at inside
    rw [getElem?_eq_getElem inside, any_some, decide_eq_true_eq] at before
    rw [getElem?_eq_getElem (by omega : i < vec.length), any_some, decide_eq_true_eq]
    rcases lt_or_eq_of_le le with lt | rfl
    · exact (pairwise_iff_getElem.mp sorted i j (by omega) inside lt).trans_lt before
    · exact before
  obtain ⟨-, -, before, after⟩ := LowerBound.lowerBound_spec_on falling
  rw [binarySearch, decide_eq_true_eq]
  constructor
  · exact fun found => mem_of_getElem? found
  · intro mem
    obtain ⟨i, inside, rfl⟩ := mem_iff_getElem.mp mem
    set bound := LowerBound.lowerBound (fun j => (vec[j]?).any (· < vec[i])) 0 vec.length
    have le : bound ≤ i := by
      by_contra early
      have lt := before i (Nat.zero_le i) (by omega)
      rw [getElem?_eq_getElem inside, any_some, decide_eq_true_eq] at lt
      exact Nat.lt_irrefl _ lt
    have here := after bound (le_refl _) (by omega)
    rw [getElem?_eq_getElem (by omega : bound < vec.length)] at here ⊢
    rw [any_some, decide_eq_false_iff_not, not_lt] at here
    congr 1
    rcases lt_or_eq_of_le le with lt | eq
    · exact le_antisymm (pairwise_iff_getElem.mp sorted bound i (by omega) inside lt) here
    · simp [eq]

variable (cfg : Config) {newMax : ℕ} {snapshots : List ℕ}

theorem moveToDelayed_eq (newMax : ℕ) (txns : List ℕ) (s : State) : moveToDelayed newMax txns s =
      { s with
        preparedTxns := txns.dropWhile (· ≤ newMax)
        delayedPrepared := s.delayedPrepared ++ txns.takeWhile (· ≤ newMax)
        delayedPreparedEmpty := s.delayedPreparedEmpty && (txns.takeWhile (· ≤ newMax)).isEmpty } := by
  induction txns generalizing s with
  | nil => simp [moveToDelayed]
  | cons top rest ih =>
    rw [moveToDelayed]
    split
    next old =>
      rw [ih]
      simp [old]
    next recent => simp [recent]

theorem dropWhile_le_above {txns : List ℕ} (sorted : txns.Pairwise (· < ·)) :
    ∀ p ∈ txns.dropWhile (· ≤ newMax), newMax < p := by
  induction txns with
  | nil => simp
  | cons top rest ih =>
    obtain ⟨first, sorted⟩ := pairwise_cons.mp sorted
    by_cases old : top ≤ newMax
    · rw [dropWhile_cons_of_pos (by simpa using old)]
      exact ih sorted
    · rw [dropWhile_cons_of_neg (by simpa using old)]
      intro p mem
      rcases mem_cons.mp mem with rfl | later
      · exact Nat.lt_of_not_le old
      · exact (Nat.lt_of_not_le old).trans (first p later)

structure Carried (s : State) (snapshots : List ℕ) (map : AList fun _ : ℕ => List ℕ) : Prop where
  listed : ∀ x ∈ snapshots, map.lookup x = some ((s.oldCommitMap.lookup x).getD [])
  kept : ∀ x, x ∉ snapshots → x ∉ s.snapshotsAll → map.lookup x = s.oldCommitMap.lookup x
  dropped : ∀ x, x ∉ snapshots → map.lookup x = none ∨ map.lookup x = s.oldCommitMap.lookup x

def relist (cfg : Config) (s : State) (snapshots : List ℕ) (version : ℕ) (map : AList fun _ : ℕ => List ℕ)
    (empty : Bool) : State :=
  { s with
    snapshotsVersion := version
    snapshotCache := snapshots.take cfg.snapshotCacheSize ++ s.snapshotCache.drop (min snapshots.length cfg.snapshotCacheSize)
    snapshots := snapshots.drop cfg.snapshotCacheSize
    snapshotsTotal := snapshots.length
    snapshotsAll := snapshots
    oldCommitMap := map
    oldCommitMapEmpty := empty }

theorem updateSnapshots_eq (s : State) (version : ℕ) (news : snapshots.Pairwise (· < ·))
    (olds : s.snapshotsAll.Pairwise (· < ·)) (later : ∀ n ∈ snapshots, ∀ o ∈ s.snapshotsAll, n ∈ s.snapshotsAll ∨ o < n) :
    ∃ map empty, s.updateSnapshots cfg snapshots version = relist cfg s snapshots version map empty ∧
      (s.oldCommitMapEmpty = s.oldCommitMap.entries.isEmpty → empty = map.entries.isEmpty) ∧
      (∀ x, x ∈ snapshots ∨ x ∉ s.snapshotsAll → map.lookup x = s.oldCommitMap.lookup x) ∧
      ∀ x, map.lookup x = none ∨ map.lookup x = s.oldCommitMap.lookup x := by
  obtain ⟨⟨⟨map, empty, result⟩, flag⟩, kept, dropped⟩ := cleanupReleasedSnapshots_spec
    (snapshots.length + s.snapshotsAll.length + 1) snapshots s.snapshotsAll
    { s with
      snapshotsVersion := version
      snapshotCache := snapshots.take cfg.snapshotCacheSize ++
        s.snapshotCache.drop (min snapshots.length cfg.snapshotCacheSize)
      snapshots := snapshots.drop cfg.snapshotCacheSize
      snapshotsTotal := snapshots.length } news olds later
  rw [result] at flag kept dropped
  refine ⟨map, empty, ?_, flag, kept, dropped⟩
  rw [updateSnapshots]
  rw [result]
  rfl

theorem relist_touched (s : State) (version : ℕ) (news : snapshots.Pairwise (· < ·))
    (olds : s.snapshotsAll.Pairwise (· < ·)) (later : ∀ n ∈ snapshots, ∀ o ∈ s.snapshotsAll, n ∈ s.snapshotsAll ∨ o < n)
    (flag : s.oldCommitMapEmpty = s.oldCommitMap.entries.isEmpty) : ∃ map, Carried s snapshots map ∧
      (if snapshots ≠ [] then
          { snapshots.foldl touchOldCommitMap (s.updateSnapshots cfg snapshots version) with oldCommitMapEmpty := false }
        else s.updateSnapshots cfg snapshots version) = relist cfg s snapshots version map map.entries.isEmpty := by
  obtain ⟨map, empty, result, flag', kept, dropped⟩ := updateSnapshots_eq cfg s version news olds later
  rw [result]
  split
  next members =>
    obtain ⟨touched, result', listed, others⟩ := touch_mapOnly_eq snapshots (relist cfg s snapshots version map empty)
    have ne : touched.entries.isEmpty = false := by
      obtain ⟨x, mem⟩ := exists_mem_of_ne_nil snapshots members
      have found := listed x mem
      rw [isEmpty_eq_false_iff]
      intro none
      rw [AList.lookup, none] at found
      simp at found
    refine ⟨touched, ⟨?_, ?_, ?_⟩, ?_⟩
    · intro x mem
      rw [listed x mem]
      exact congrArg (fun vec => some (vec.getD [])) (kept x (.inl mem))
    · intro x out old
      rw [others x out]
      exact kept x (.inr old)
    · intro x out
      rw [others x out]
      exact dropped x
    · rw [result', ne]
      rfl
  next none =>
    obtain rfl := not_not.mp none
    refine ⟨map, ⟨by simp, fun x _ old => kept x (.inr old), fun x _ => dropped x⟩, ?_⟩
    rw [flag' flag]

theorem advanceMaxEvictedSeq_eq (s : State) (advances : s.maxEvictedSeq < newMax)
    (future : s.futureMaxEvictedSeq = s.maxEvictedSeq) (version : s.snapshotsVersion = s.maxEvictedSeq)
    (flag : s.oldCommitMapEmpty = s.oldCommitMap.entries.isEmpty) (olds : s.snapshotsAll.Pairwise (· < ·))
    (news : (s.getSnapshotListFromDB newMax).Pairwise (· < ·))
    (later : ∀ n ∈ s.getSnapshotListFromDB newMax, ∀ o ∈ s.snapshotsAll, n ∈ s.snapshotsAll ∨ o < n) :
    ∃ map, Carried s (s.getSnapshotListFromDB newMax) map ∧
      s.advanceMaxEvictedSeq cfg s.maxEvictedSeq newMax =
        relist cfg
          { s with
            futureMaxEvictedSeq := newMax
            maxEvictedSeq := newMax
            preparedTxns := s.preparedTxns.dropWhile (· ≤ newMax)
            delayedPrepared := s.delayedPrepared ++ s.preparedTxns.takeWhile (· ≤ newMax)
            delayedPreparedEmpty := s.delayedPreparedEmpty && (s.preparedTxns.takeWhile (· ≤ newMax)).isEmpty }
          (s.getSnapshotListFromDB newMax) newMax map map.entries.isEmpty := by
  obtain ⟨map, carried, result⟩ := relist_touched cfg
    { s with
      futureMaxEvictedSeq := newMax
      preparedTxns := s.preparedTxns.dropWhile (· ≤ newMax)
      delayedPrepared := s.delayedPrepared ++ s.preparedTxns.takeWhile (· ≤ newMax)
      delayedPreparedEmpty := s.delayedPreparedEmpty && (s.preparedTxns.takeWhile (· ≤ newMax)).isEmpty }
    newMax news olds later flag
  refine ⟨map, { carried with }, ?_⟩
  rw [advanceMaxEvictedSeq]
  rw [if_pos advances, if_pos advances, future, max_eq_right advances.le, checkPreparedAgainstMax, moveToDelayed_eq]
  rw [if_pos (show s.snapshotsVersion < newMax by omega)]
  refine (congrArg (fun t : State => { t with maxEvictedSeq := max t.maxEvictedSeq newMax }) result).trans ?_
  simp [relist, max_eq_right advances.le]

/-- What stands for a commit that is no longer in the cache. -/
structure Evicted (s : State) (prep commit : ℕ) : Prop where
  old : commit ≤ s.maxEvictedSeq
  delayed : prep ∈ s.delayedPrepared → s.delayedPreparedCommits.lookup prep = some commit
  onRecord : ∀ snap ∈ s.snapshotList, Overlaps ⟨prep, commit⟩ snap.number → OnRecord s prep snap.number

/-- `top` is the last number in use: published, or about to be. -/
structure Inv (cfg : Config) (top : ℕ) (r : Run) : Prop where
  published : r.db.lastPublished ≤ top
  prepared : ∀ p ∈ r.prepared, 0 < p ∧ p ≤ r.db.lastPublished
  committed : ∀ p c, r.commits p = some c → 0 < p ∧ p ≤ c ∧ c ≤ top
  max_le : r.db.maxEvictedSeq ≤ top
  future : r.db.futureMaxEvictedSeq = r.db.maxEvictedSeq
  version : r.db.snapshotsVersion = r.db.maxEvictedSeq
  cells : r.db.commitCache.length = cfg.commitCacheSize
  cell : ∀ i entry, i < cfg.commitCacheSize → r.db.getCommitEntry i = some entry →
    entry.prepSeq % cfg.commitCacheSize = i ∧ r.commits entry.prepSeq = some entry.commitSeq
  found : ∀ p c, r.commits p = some c →
    r.db.getCommitEntry (p % cfg.commitCacheSize) = some ⟨p, c⟩ ∨ Evicted r.db p c
  pending : ∀ p ∈ r.prepared, r.commits p = none → p ∈ r.db.preparedTxns ∨ p ∈ r.db.delayedPrepared
  txns_sorted : r.db.preparedTxns.Pairwise (· < ·)
  txns : ∀ p ∈ r.db.preparedTxns, p ≤ r.db.lastPublished ∧ r.db.maxEvictedSeq < p
  delayed_nodup : r.db.delayedPrepared.Nodup
  delayed_le : ∀ p ∈ r.db.delayedPrepared, p ≤ r.db.maxEvictedSeq
  delayed_flag : r.db.delayedPreparedEmpty = r.db.delayedPrepared.isEmpty
  delayed_commits : ∀ p c, r.db.delayedPreparedCommits.lookup p = some c → r.commits p = some c
  snapshots_sorted : (r.db.snapshotList.map (·.number)).Pairwise (· ≤ ·)
  snapshot_le : ∀ snap ∈ r.db.snapshotList, snap.number ≤ r.db.lastPublished ∧ snap.minUncommitted ≤ r.db.lastPublished + 1
  min_uncommitted : ∀ snap ∈ r.db.snapshotList, ∀ p ∈ r.prepared, p < snap.minUncommitted →
    ∃ c ≤ snap.number, r.commits p = some c
  arrays : Listed cfg r.db
  all_le : ∀ x ∈ r.db.snapshotsAll, x ≤ r.db.maxEvictedSeq
  unlisted : r.db.maxEvictedSeq = 0 → r.db.snapshotsAll = []
  listed : r.db.maxEvictedSeq ≠ 0 → ∀ snap ∈ r.db.snapshotList, snap.number ≤ r.db.maxEvictedSeq →
    snap.number ∈ r.db.snapshotsAll ∧ (r.db.oldCommitMap.lookup snap.number).isSome
  map_flag : r.db.oldCommitMapEmpty = r.db.oldCommitMap.entries.isEmpty
  map_sound : ∀ x vec, r.db.oldCommitMap.lookup x = some vec → ∀ p ∈ vec, ∃ c, r.commits p = some c ∧ x < c
  map_sorted : ∀ x vec, r.db.oldCommitMap.lookup x = some vec → vec.Pairwise (· ≤ ·)

namespace Inv

variable {cfg : Config} {top : ℕ} {r : Run} {entry : CommitEntry}

theorem initial (cfg : Config) : Inv cfg 0 (Run.initial cfg) where
  published := le_refl 0
  prepared := by simp [Run.initial]
  committed := by simp [Run.initial]
  max_le := le_refl 0
  future := rfl
  version := rfl
  cells := length_replicate
  cell := by
    intro i entry inside cached
    rw [getCommitEntry, show (Run.initial cfg).db.commitCache = List.replicate cfg.commitCacheSize none from rfl,
      getD_eq_getElem _ _ (by simpa using inside), getElem_replicate] at cached
    cases cached
  found := by simp [Run.initial]
  pending := by simp [Run.initial]
  txns_sorted := List.Pairwise.nil
  txns := by simp [Run.initial, State.initial]
  delayed_nodup := nodup_nil
  delayed_le := by simp [Run.initial, State.initial]
  delayed_flag := rfl
  delayed_commits := by simp [Run.initial, State.initial]
  snapshots_sorted := List.Pairwise.nil
  snapshot_le := by simp [Run.initial, State.initial]
  min_uncommitted := by simp [Run.initial]
  arrays := ⟨List.Pairwise.nil, rfl, ⟨List.replicate cfg.snapshotCacheSize 0, by simp [Run.initial, State.initial]⟩,
    by simp [Run.initial, State.initial]⟩
  all_le := by simp [Run.initial, State.initial]
  unlisted := fun _ => rfl
  listed := by simp [Run.initial, State.initial]
  map_flag := rfl
  map_sound := by simp [Run.initial, State.initial]
  map_sorted := by simp [Run.initial, State.initial]

theorem advance (inv : Inv cfg top r) (newMax : ℕ) (advances : r.db.maxEvictedSeq < newMax) (le : newMax ≤ top) :
    Inv cfg top { r with db := r.db.advanceMaxEvictedSeq cfg r.db.maxEvictedSeq newMax } ∧
      (r.db.advanceMaxEvictedSeq cfg r.db.maxEvictedSeq newMax).maxEvictedSeq = newMax ∧
      (r.db.advanceMaxEvictedSeq cfg r.db.maxEvictedSeq newMax).commitCache = r.db.commitCache ∧
      (r.db.advanceMaxEvictedSeq cfg r.db.maxEvictedSeq newMax).lastPublished = r.db.lastPublished := by
  obtain ⟨news, members⟩ :=
    getAll_spec newMax (r.db.snapshotList.map (·.number)) [] inv.snapshots_sorted List.Pairwise.nil (by simp)
  have taken : ∀ x, x ∈ r.db.getSnapshotListFromDB newMax ↔ (∃ snap ∈ r.db.snapshotList, snap.number = x) ∧ x ≤ newMax := by
    intro x
    rw [getSnapshotListFromDB, members x]
    simp
  have later : ∀ n ∈ r.db.getSnapshotListFromDB newMax, ∀ o ∈ r.db.snapshotsAll, n ∈ r.db.snapshotsAll ∨ o < n := by
    intro n mem o old
    obtain ⟨⟨snap, live, rfl⟩, -⟩ := (taken n).mp mem
    have some_max : r.db.maxEvictedSeq ≠ 0 := by
      intro zero
      rw [inv.unlisted zero] at old
      simp at old
    rcases lt_or_ge r.db.maxEvictedSeq snap.number with above | lt
    · exact .inr ((inv.all_le o old).trans_lt above)
    · exact .inl (inv.listed some_max snap live lt).1
  obtain ⟨map, carried, result⟩ :=
    advanceMaxEvictedSeq_eq cfg r.db advances inv.future inv.version inv.map_flag inv.arrays.strict news later
  rw [result]
  have lookup_sub : ∀ x vec, map.lookup x = some vec → vec = [] ∨ r.db.oldCommitMap.lookup x = some vec := by
    intro x vec found
    by_cases mem : x ∈ r.db.getSnapshotListFromDB newMax
    · rw [carried.listed x mem] at found
      cases known : r.db.oldCommitMap.lookup x with
      | none => rw [known] at found; exact .inl (some.inj found).symm
      | some old => rw [known] at found; exact .inr (by rw [← some.inj found]; rfl)
    · rcases carried.dropped x mem with none | eq
      · rw [none] at found
        simp at found
      · exact .inr (eq ▸ found)
  have live_kept : ∀ snap ∈ r.db.snapshotList, ∀ vec, r.db.oldCommitMap.lookup snap.number = some vec →
      map.lookup snap.number = some vec := by
    intro snap live vec found
    by_cases mem : snap.number ∈ r.db.getSnapshotListFromDB newMax
    · rw [carried.listed _ mem, found, getD_some]
    · rw [carried.kept _ mem, found]
      intro old
      exact mem ((taken _).mpr ⟨⟨snap, live, rfl⟩, (inv.all_le _ old).trans advances.le⟩)
  have moved : ∀ p ∈ r.db.preparedTxns.takeWhile (· ≤ newMax), r.db.maxEvictedSeq < p ∧ p ≤ newMax := by
    intro p mem
    exact ⟨(inv.txns p ((takeWhile_sublist _).mem mem)).2, by simpa using mem_takeWhile_imp mem⟩
  have nodup : r.db.preparedTxns.Nodup := inv.txns_sorted.imp fun less => ne_of_lt less
  have above : ∀ p ∈ r.db.preparedTxns.dropWhile (· ≤ newMax), newMax < p := dropWhile_le_above inv.txns_sorted
  refine ⟨?_, rfl, rfl, rfl⟩
  exact
    { inv with
      max_le := le
      future := rfl
      version := rfl
      map_flag := rfl
      found := by
        intro p c commits
        rcases inv.found p c commits with cached | evicted
        · exact .inl cached
        · refine .inr ⟨evicted.old.trans advances.le, ?_, ?_⟩
          · intro mem
            rcases mem_append.mp mem with known | fresh
            · exact evicted.delayed known
            · -- a number that moves now is above the old maximum
              have := (moved p fresh).1
              have := (inv.committed p c commits).2.1
              have := evicted.old
              omega
          · intro snap live overlaps
            obtain ⟨vec, found, mem⟩ := evicted.onRecord snap live overlaps
            exact ⟨vec, live_kept snap live vec found, mem⟩
      pending := by
        intro p mem none
        rcases inv.pending p mem none with known | known
        · rw [← takeWhile_append_dropWhile (p := (· ≤ newMax)) (l := r.db.preparedTxns)] at known
          rcases mem_append.mp known with old | recent
          · exact .inr (mem_append.mpr (.inr old))
          · exact .inl recent
        · exact .inr (mem_append.mpr (.inl known))
      txns_sorted := inv.txns_sorted.sublist (dropWhile_sublist _)
      txns := fun p mem => ⟨(inv.txns p ((dropWhile_sublist _).mem mem)).1, above p mem⟩
      delayed_nodup := by
        refine nodup_append.mpr ⟨inv.delayed_nodup, nodup.sublist (takeWhile_sublist _), ?_⟩
        rintro p known _ fresh rfl
        have := inv.delayed_le p known
        have := (moved p fresh).1
        omega
      delayed_le := by
        intro p mem
        rcases mem_append.mp mem with known | fresh
        · exact (inv.delayed_le p known).trans advances.le
        · exact (moved p fresh).2
      delayed_flag := by
        rw [inv.delayed_flag]
        cases r.db.delayedPrepared <;> rfl
      arrays := ⟨news, rfl, ⟨_, rfl⟩, rfl⟩
      all_le := fun x mem => ((taken x).mp mem).2
      unlisted := fun zero => absurd zero (ne_of_gt (Nat.zero_lt_of_lt advances))
      listed := by
        intro _ snap live small
        have mem := (taken _).mpr ⟨⟨snap, live, rfl⟩, small⟩
        exact ⟨mem, isSome_of_eq_some (carried.listed _ mem)⟩
      map_sound := by
        intro x vec found p mem
        rcases lookup_sub x vec found with rfl | known
        · simp at mem
        · exact inv.map_sound x vec known p mem
      map_sorted := by
        intro x vec found
        rcases lookup_sub x vec found with rfl | known
        · exact List.Pairwise.nil
        · exact inv.map_sorted x vec known }

theorem recorded {db : State} (inv : Inv cfg top r) (known : r.commits entry.prepSeq = some entry.commitSeq)
    (recorded : Recorded entry r.db db) : Inv cfg top { r with db := db } := by
  obtain ⟨map, empty, rfl⟩ := recorded.only.eq
  exact
    { inv with
      found := by
        intro p c commits
        rcases inv.found p c commits with cached | evicted
        · exact .inl cached
        · exact .inr ⟨evicted.old, evicted.delayed,
            fun snap live overlaps => recorded.onRecord (evicted.onRecord snap live overlaps)⟩
      arrays := { inv.arrays with }
      listed := by
        intro pos snap live small
        obtain ⟨mem, found⟩ := inv.listed pos snap live small
        obtain ⟨vec, found⟩ := isSome_iff_exists.mp found
        obtain ⟨vec', found', -⟩ := recorded.mono _ vec found
        exact ⟨mem, isSome_of_eq_some found'⟩
      map_flag := recorded.only.flag inv.map_flag
      map_sound := by
        intro x vec found p mem
        rcases recorded.sound x vec found p mem with ⟨old, found, mem⟩ | ⟨rfl, overlaps⟩
        · exact inv.map_sound x old found p mem
        · exact ⟨_, known, overlaps.2⟩
      map_sorted := recorded.sorted inv.map_sorted }

theorem noted (inv : Inv cfg top r) (known : r.commits entry.prepSeq = some entry.commitSeq) :
    Inv cfg top { r with db := { r.db with
      delayedPreparedCommits := r.db.delayedPreparedCommits.insert entry.prepSeq entry.commitSeq } } :=
  { inv with
    arrays := { inv.arrays with }
    found := by
      intro p c commits
      rcases inv.found p c commits with cached | evicted
      · exact .inl cached
      · refine .inr ⟨evicted.old, fun mem => ?_, evicted.onRecord⟩
        by_cases eq : p = entry.prepSeq
        · subst eq
          rw [some.inj (commits.symm.trans known)]
          exact AList.lookup_insert _
        · exact (AList.lookup_insert_ne eq).trans (evicted.delayed mem)
    delayed_commits := by
      intro p c found
      by_cases eq : p = entry.prepSeq
      · subst eq
        rw [known]
        exact (AList.lookup_insert _).symm.trans found
      · exact inv.delayed_commits p c ((AList.lookup_insert_ne eq).symm.trans found) }

structure SameCache (s s' : State) : Prop where
  cache : s'.commitCache = s.commitCache
  published : s'.lastPublished = s.lastPublished

theorem evict (inv : Inv cfg top r) (known : r.commits entry.prepSeq = some entry.commitSeq) :
    Inv cfg top { r with db := r.db.evict cfg entry } ∧ Evicted (r.db.evict cfg entry) entry.prepSeq entry.commitSeq ∧
      SameCache r.db (r.db.evict cfg entry) := by
  -- the maximum
  obtain ⟨first, eq, inv₁, old, same₁⟩ : ∃ db, (if r.db.maxEvictedSeq < entry.commitSeq then
        r.db.advanceMaxEvictedSeq cfg r.db.maxEvictedSeq (if entry.commitSeq < r.db.lastPublished then
          min (entry.commitSeq + cfg.incStepForMaxEvicted) (r.db.lastPublished - 1) else entry.commitSeq)
      else r.db) = db ∧ Inv cfg top { r with db := db } ∧ entry.commitSeq ≤ db.maxEvictedSeq ∧ SameCache r.db db := by
    refine ⟨_, rfl, ?_⟩
    have := inv.published
    have := (inv.committed _ _ known).2.2
    split
    next advances =>
      obtain ⟨inv', max, cache, published⟩ := inv.advance (if entry.commitSeq < r.db.lastPublished then
          min (entry.commitSeq + cfg.incStepForMaxEvicted) (r.db.lastPublished - 1) else entry.commitSeq)
        (by split <;> omega) (by split <;> omega)
      exact ⟨inv', by rw [max]; split <;> omega, cache, published⟩
    next reached => exact ⟨inv, Nat.le_of_not_lt reached, rfl, rfl⟩
  -- the delayed prepared
  obtain ⟨second, eq', inv₂, old₂, noted, same₂⟩ : ∃ db,
      (if !first.delayedPreparedEmpty ∧ entry.prepSeq ∈ first.delayedPrepared then
          { first with delayedPreparedCommits := first.delayedPreparedCommits.insert entry.prepSeq entry.commitSeq }
        else first) = db ∧
      Inv cfg top { r with db := db } ∧ entry.commitSeq ≤ db.maxEvictedSeq ∧
      (entry.prepSeq ∈ db.delayedPrepared → db.delayedPreparedCommits.lookup entry.prepSeq = some entry.commitSeq) ∧
        SameCache first db := by
    refine ⟨_, rfl, ?_⟩
    split
    next delayed => exact ⟨inv₁.noted known, old, fun _ => AList.lookup_insert _, rfl, rfl⟩
    next other =>
      refine ⟨inv₁, old, fun mem => absurd ⟨?_, mem⟩ other, rfl, rfl⟩
      have flag := inv₁.delayed_flag
      rw [flag]
      simpa using ne_nil_of_mem mem
  -- the snapshots
  obtain ⟨recorded, onRecord⟩ := checkAgainstSnapshots_spec entry second inv₂.arrays
  have result : r.db.evict cfg entry = second.checkAgainstSnapshots cfg entry := by
    rw [State.evict, eq, eq']
  rw [result]
  refine ⟨inv₂.recorded known recorded, ?_, ?_⟩
  · obtain ⟨map, empty, result⟩ := recorded.only.eq
    rw [result] at onRecord ⊢
    refine ⟨old₂, noted, fun snap live overlaps => onRecord _ ?_ overlaps⟩
    have small : snap.number ≤ second.maxEvictedSeq := overlaps.2.le.trans old₂
    have pos : second.maxEvictedSeq ≠ 0 := by
      have := inv.committed _ _ known
      omega
    exact (inv₂.listed pos snap live small).1
  · obtain ⟨map, empty, result⟩ := recorded.only.eq
    rw [result]
    exact ⟨same₂.cache.trans same₁.cache, same₂.published.trans same₁.published⟩

end Inv

end VcompProof.WritePrepared
