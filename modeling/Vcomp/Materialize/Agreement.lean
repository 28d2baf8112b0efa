import Vcomp.Materialize.SearchOrder

namespace VcompProof

open VcompModel SortBy List

variable {K : Type}

section

variable {order : List ℕ} {sequence : ℕ} {files : List (ℕ × FileMetaData K)}

theorem assignSequences_notMem (order : List ℕ) (sequence : ℕ) (files : List (ℕ × FileMetaData K)) {i : ℕ}
    (notMem : i ∉ order) : (assignSequences order sequence files).1[i]? = files[i]? := by
  induction order generalizing sequence files with
  | nil => rfl
  | cons _ _ ih =>
    rw [mem_cons, not_or] at notMem
    rw [assignSequences, ih _ _ notMem.2, getElem?_modify]
    simp [Ne.symm notMem.1]

theorem assignSequences_get (sequence : ℕ) (files : List (ℕ × FileMetaData K)) (nodup : order.Nodup) {i p : ℕ}
    (placedAt : order[p]? = some i) :
    (assignSequences order sequence files).1[i]? = files[i]?.map (Prod.map id (·.withSequence (sequence + 1 + p))) := by
  induction order generalizing sequence files p with
  | nil => simp at placedAt
  | cons j order ih =>
    have rest := nodup_cons.mp nodup
    rw [assignSequences]
    cases p with
    | zero =>
      obtain rfl : j = i := by simpa using placedAt
      rw [assignSequences_notMem _ _ _ rest.1, getElem?_modify]
      simp
    | succ p =>
      have inRest : order[p]? = some i := by simpa using placedAt
      have ne : j ≠ i := fun eq => rest.1 (eq ▸ mem_of_getElem? inRest)
      rw [ih _ _ rest.2 inRest, getElem?_modify, show sequence + 1 + (p + 1) = sequence + 1 + 1 + p by omega]
      simp [ne]

theorem assignSequences_length (order : List ℕ) (sequence : ℕ) (files : List (ℕ × FileMetaData K)) :
    (assignSequences order sequence files).1.length = files.length := by
  induction order generalizing sequence files with
  | nil => rfl
  | cons _ _ ih => rw [assignSequences, ih, length_modify]

theorem sequencedBefore_comparator : Comparator fun a b : (ℕ × FileMetaData K) × ℕ => sequencedBefore a.1 b.1 := by
  constructor
  · intro a b
    unfold sequencedBefore
    split_ifs <;> simp <;> omega
  · intro a b c
    unfold sequencedBefore
    split_ifs <;> simp <;> omega

theorem sequenceOrder_perm (files : List (ℕ × FileMetaData K)) :
    (sequenceOrder files).Perm (List.range files.length) := by
  have perm := (sortBy_perm (fun a b => sequencedBefore a.1 b.1) files.zipIdx).map Prod.snd
  rwa [zipIdx_map_snd, ← range_eq_range'] at perm

theorem assigned_get {i : ℕ} {file : ℕ × FileMetaData K}
    (placedAt : (assignSequences (sequenceOrder files) sequence files).1[i]? = some file) :
    ∃ old p, (sortBy (fun a b => sequencedBefore a.1 b.1) files.zipIdx)[p]? = some (old, i) ∧ old ∈ files ∧
      p < files.length ∧ file = (old.1, old.2.withSequence (sequence + 1 + p)) := by
  have perm := sequenceOrder_perm files
  have lt : i < files.length := by
    have := List.getElem?_eq_some_iff.mp placedAt
    rw [← assignSequences_length (sequenceOrder files) sequence files]
    exact this.1
  obtain ⟨p, placed⟩ := List.mem_iff_getElem?.mp (perm.mem_iff.mpr (List.mem_range.mpr lt))
  rw [assignSequences_get _ _ (perm.nodup_iff.mpr nodup_range) placed] at placedAt
  obtain ⟨old, oldAt, rfl⟩ := Option.map_eq_some_iff.mp placedAt
  have placeBelow : p < files.length := by
    have := (List.getElem?_eq_some_iff.mp placed).1
    rwa [perm.length_eq, List.length_range] at this
  refine ⟨old, p, ?_, List.mem_of_getElem? oldAt, placeBelow, rfl⟩
  simp only [sequenceOrder, List.getElem?_map, Option.map_eq_some_iff] at placed
  obtain ⟨⟨other, j⟩, sortedAt, rfl⟩ := placed
  have pair : (other, j) ∈ files.zipIdx := mem_sortBy.mp (mem_of_getElem? sortedAt)
  have eq : files[j]? = some other := mem_zipIdx_iff_getElem?.mp pair
  rw [sortedAt, Option.some.inj (oldAt.symm.trans eq)]

theorem assigned_mem {file : ℕ × FileMetaData K}
    (mem : file ∈ (assignSequences (sequenceOrder files) sequence files).1) :
    ∃ old ∈ files, ∃ p < files.length, file = (old.1, old.2.withSequence (sequence + 1 + p)) := by
  obtain ⟨i, placedAt⟩ := mem_iff_getElem?.mp mem
  obtain ⟨old, p, -, inFiles, lt, rfl⟩ := assigned_get placedAt
  exact ⟨old, inFiles, p, lt, rfl⟩

theorem assignSequences_last (order : List ℕ) (sequence : ℕ) (files : List (ℕ × FileMetaData K)) :
    (assignSequences order sequence files).2 = sequence + order.length := by
  induction order generalizing sequence files with
  | nil => rfl
  | cons _ _ ih =>
    rw [assignSequences, ih, length_cons]
    omega

theorem assigned_nodup : ((assignSequences (sequenceOrder files) sequence files).1.map (·.2.largestSeqno)).Nodup := by
  rw [nodup_iff_pairwise_ne, pairwise_map, pairwise_iff_getElem]
  intro i j belowI belowJ lt eq
  obtain ⟨old, p, sortedI, -, -, eqI⟩ := assigned_get (getElem?_eq_getElem belowI)
  obtain ⟨old', q, sortedJ, -, -, eqJ⟩ := assigned_get (getElem?_eq_getElem belowJ)
  rw [eqI, eqJ] at eq
  have place : sequence + 1 + p = sequence + 1 + q := eq
  obtain rfl : p = q := by omega
  have pair := Option.some.inj (sortedI.symm.trans sortedJ)
  have index : i = j := congrArg Prod.snd pair
  omega

theorem assigned_lt {f g : ℕ × FileMetaData K} (inF : f ∈ (assignSequences (sequenceOrder files) sequence files).1)
    (inG : g ∈ (assignSequences (sequenceOrder files) sequence files).1)
    (first : sequencedBefore f g = true) : f.2.largestSeqno < g.2.largestSeqno := by
  obtain ⟨i, atI⟩ := mem_iff_getElem?.mp inF
  obtain ⟨j, atJ⟩ := mem_iff_getElem?.mp inG
  obtain ⟨old, p, sortedI, -, -, rfl⟩ := assigned_get atI
  obtain ⟨old', q, sortedJ, -, -, rfl⟩ := assigned_get atJ
  have earlier : p < q := sortBy_index sequencedBefore_comparator sortedI sortedJ first
  change sequence + 1 + p < sequence + 1 + q
  omega

/-- What does not depend on the sequences is kept. -/
theorem assigned_map {β : Type*} (read : ℕ × FileMetaData K → β)
    (kept : ∀ level file q, read (level, FileMetaData.withSequence file q) = read (level, file)) :
    (assignSequences (sequenceOrder files) sequence files).1.map read = files.map read := by
  refine ext_getElem? fun i => ?_
  simp only [getElem?_map]
  by_cases lt : i < files.length
  · have perm := sequenceOrder_perm files
    obtain ⟨p, placed⟩ := mem_iff_getElem?.mp (perm.mem_iff.mpr (mem_range.mpr lt))
    rw [assignSequences_get _ _ (perm.nodup_iff.mpr nodup_range) placed, Option.map_map]
    exact congrArg (Option.map · files[i]?) (funext fun file => kept file.1 file.2 _)
  · rw [getElem?_eq_none (by rw [assignSequences_length]; omega), getElem?_eq_none (by omega)]

end

theorem parseInternalKey_ok {key : InternalKey K} {parsed : EntryKey K} (ok : parseInternalKey key = .ok parsed) :
    key.user = some parsed.userKey := by
  cases key with
  | short => nomatch ok
  | key =>
    unfold parseInternalKey at ok
    dsimp only at ok
    split at ok
    · exact congrArg some (congrArg EntryKey.userKey (Except.ok.inj ok))
    · cases ok

theorem parseInternalKey_error {key : InternalKey K} {status : Status} (failed : parseInternalKey key = .error status) :
    status ≠ .ok := by
  cases key with
  | short =>
    cases failed
    nofun
  | key =>
    unfold parseInternalKey at failed
    dsimp only at failed
    split at failed
    · cases failed
    · cases failed
      nofun

section

variable {α β ε : Type} {f : α → Except ε β} {l : List α}

theorem mapM_ok {r : List β} (ok : l.mapM f = .ok r) : Forall₂ (fun a b => f a = .ok b) l r := by
  induction l generalizing r with
  | nil =>
    cases ok
    exact .nil
  | cons a l ih =>
    rw [mapM_cons] at ok
    cases first : f a with
    | error => simp [first, bind, Except.bind] at ok
    | ok b =>
      cases later : l.mapM f with
      | error => simp [first, later, bind, Except.bind] at ok
      | ok bs =>
        simp only [first, later, bind, Except.bind, pure, Except.pure, Except.ok.injEq] at ok
        exact ok ▸ .cons first (ih later)

theorem mapM_error {e : ε} (failed : l.mapM f = .error e) : ∃ a ∈ l, f a = .error e := by
  induction l with
  | nil => nomatch failed
  | cons a l ih =>
    rw [mapM_cons] at failed
    cases first : f a with
    | error =>
      simp only [first, bind, Except.bind, Except.error.injEq] at failed
      exact ⟨a, by simp, failed ▸ first⟩
    | ok =>
      cases later : l.mapM f with
      | ok => simp [first, later, bind, Except.bind, pure, Except.pure] at failed
      | error =>
        simp only [first, later, bind, Except.bind, Except.error.injEq] at failed
        obtain ⟨b, inRest, eq⟩ := ih (failed ▸ later)
        exact ⟨b, by simp [inRest], eq⟩

end

section

variable [LinearOrder K] {s : InstallState K} {edit : MaterializationEdit K} {numLevels : ℕ}

theorem checkMaterialized_ok {file : MaterializedFile K} {data : ℕ × FileMetaData K}
    (ok : checkMaterialized numLevels file = .ok data) : file.identity = recordedIdentity data ∧ data.1 < numLevels ∧
      data.2.smallestUser ≤ data.2.largestUser := by
  unfold checkMaterialized at ok
  cases small : parseInternalKey file.smallest with
  | error => simp [small, bind, Except.bind] at ok
  | ok smallest =>
    cases large : parseInternalKey file.largest with
    | error => simp [small, large, bind, Except.bind] at ok
    | ok largest =>
      simp only [small, large, bind, Except.bind, pure, Except.pure] at ok
      split_ifs at ok with bad
      obtain rfl := Except.ok.inj ok
      push Not at bad
      obtain ⟨nonneg, below, -, -, -, -, -, -, proper⟩ := bad
      refine ⟨?_, by dsimp only; omega, proper⟩
      rw [MaterializedFile.identity, recordedIdentity, parseInternalKey_ok small, parseInternalKey_ok large,
        Int.toNat_of_nonneg nonneg]
      rfl

theorem checkMaterialized_error {file : MaterializedFile K} {status : Status}
    (failed : checkMaterialized numLevels file = .error status) : status ≠ .ok := by
  unfold checkMaterialized at failed
  cases small : parseInternalKey file.smallest with
  | error =>
    simp only [small, bind, Except.bind, Except.error.injEq] at failed
    exact failed ▸ parseInternalKey_error small
  | ok =>
    cases large : parseInternalKey file.largest with
    | error =>
      simp only [small, large, bind, Except.bind, Except.error.injEq] at failed
      exact failed ▸ parseInternalKey_error large
    | ok =>
      simp only [small, large, bind, Except.bind] at failed
      split_ifs at failed
      · cases failed
        nofun
      · nomatch failed

theorem prepare_ok {newFiles : List (ℕ × FileMetaData K)} {last : ℕ} (ok : s.prepare edit = .ok (newFiles, last)) :
    (∀ file ∈ s.files, edit.deletedFiles.contains (↑file.1, file.2.number) = true) ∧
    ∃ files, edit.newFiles.mapM (checkMaterialized s.numLevels) = .ok files ∧
      s.newestSequence + files.length < kMaxSequenceNumber ∧
      assignSequences (sequenceOrder files) s.newestSequence files = (newFiles, last) := by
  unfold InstallState.prepare at ok
  simp only [bind, Except.bind, pure, Except.pure, throw, throwThe, MonadExceptOf.throw] at ok
  cases checks : edit.newFiles.mapM (checkMaterialized s.numLevels) with
  | error =>
    simp only [checks] at ok
    split_ifs at ok
  | ok files =>
    simp only [checks] at ok
    split_ifs at ok with paused cf replaced space
    refine ⟨?_, files, rfl, ?_, Except.ok.inj ok⟩
    · simpa using replaced
    · omega

theorem prepare_error {status : Status} (failed : s.prepare edit = .error status) : status ≠ .ok := by
  unfold InstallState.prepare at failed
  simp only [bind, Except.bind, pure, Except.pure, throw, throwThe, MonadExceptOf.throw] at failed
  cases checks : edit.newFiles.mapM (checkMaterialized s.numLevels) with
  | error =>
    simp only [checks] at failed
    split_ifs at failed
    · cases failed
      nofun
    · cases failed
      nofun
    · cases failed
      nofun
    all_goals
      obtain ⟨file, -, eq⟩ := mapM_error checks
      cases failed
      exact checkMaterialized_error eq
  | ok =>
    simp only [checks] at failed
    split_ifs at failed
    all_goals
      cases failed
      nofun

theorem install_ok {outcome : ApplyOutcome}
    (ok : (installVirtualCompactionMaterialization s outcome (some edit)).1 = .ok) :
    ∃ files, edit.newFiles.mapM (checkMaterialized s.numLevels) = .ok files ∧
      s.newestSequence + files.length < kMaxSequenceNumber ∧
      let after := (installVirtualCompactionMaterialization s outcome (some edit)).2
      after.files = (assignSequences (sequenceOrder files) s.newestSequence files).1 ∧ after.numLevels = s.numLevels ∧
        after.lastPublishedSequence = s.newestSequence + files.length := by
  cases prepared : s.prepare edit with
  | error =>
    simp only [installVirtualCompactionMaterialization, prepared] at ok
    exact absurd ok (prepare_error prepared)
  | ok result =>
    obtain ⟨newFiles, last⟩ := result
    obtain ⟨replaced, files, checked, space, assigned⟩ := prepare_ok prepared
    cases outcome with
    | failed _ notOk =>
      simp only [installVirtualCompactionMaterialization, prepared] at ok
      exact absurd ok notOk
    | ok =>
      have none : s.files.filter (fun file => !(edit.deletedFiles.contains (↑file.1, file.2.number))) = [] := by
        refine filter_eq_nil_iff.mpr fun file mem => ?_
        rw [replaced file mem]
        simp
      have final := assignSequences_last (sequenceOrder files) s.newestSequence files
      rw [(sequenceOrder_perm files).length_eq, length_range, assigned] at final
      refine ⟨files, checked, space, ?_⟩
      simp only [installVirtualCompactionMaterialization, prepared, none, nil_append, assigned, ← final, and_self]

def LevelsApart (files : List (MaterializedFile K)) : Prop :=
  files.Pairwise fun f g => f.level = g.level → 1 ≤ f.level → ∀ key, ¬ (f.covers key = true ∧ g.covers key = true)

theorem keysApart_of_identity {added : List (MaterializedFile K)} {files : List (ℕ × FileMetaData K)}
    (same : files.map recordedIdentity = added.map MaterializedFile.identity) (apart : LevelsApart added) :
    KeysApart files := by
  let Separate := fun a b : ℤ × ℕ × ℕ × Option K × Option K => a.1 = b.1 → 1 ≤ a.1 →
    ∀ key, ¬ ((a.2.2.2.1.any (· ≤ key) && a.2.2.2.2.any (key ≤ ·)) = true ∧
      (b.2.2.2.1.any (· ≤ key) && b.2.2.2.2.any (key ≤ ·)) = true)
  have separate : (added.map MaterializedFile.identity).Pairwise Separate := pairwise_map.mpr apart
  rw [← same, pairwise_map] at separate
  refine separate.imp fun {f g} distinct sameLevel deep key both => ?_
  refine distinct (congrArg Nat.cast sameLevel) (Int.ofNat_le.mpr (Nat.pos_of_ne_zero deep)) key ?_
  simpa [recordedIdentity, FileMetaData.Holds] using both

theorem withSequence_bounded {file : FileMetaData K} (proper : file.smallestUser ≤ file.largestUser) (q : ℕ) :
    (file.withSequence q).smallest ≤ (file.withSequence q).largest :=
  internalKey_le.mpr (proper.lt_or_eq.imp id fun eq => ⟨eq, le_rfl⟩)

theorem first_newest {key : K} {sequence : ℕ} {contains : FileMetaData K → Bool} (apart : KeysApart s.files)
    (bounded : ∀ file ∈ s.files, file.2.smallest ≤ file.2.largest) (levels : ∀ file ∈ s.files, file.1 < s.numLevels)
    (visible : ∀ file ∈ s.files, file.2.largest.packed ≤ sequence * 256 + 1)
    (epochs : (s.files.map (·.2.epochNumber)).Nodup)
    (assigned : ∀ f ∈ s.files, ∀ g ∈ s.files, sequencedBefore f g = true → f.2.largestSeqno < g.2.largestSeqno)
    (holds : ∀ file ∈ s.files, contains file.2 = true → file.2.Holds key)
    (nonempty : ∃ file ∈ s.files, contains file.2 = true) :
    ∃ first ∈ s.files, ∃ picked, s.filePicker key sequence = some picked ∧ picked.find? (contains ·.2) = some first ∧
      ∀ file ∈ s.files, contains file.2 = true → file ≠ first → file.2.largestSeqno < first.2.largestSeqno := by
  obtain ⟨picked, run, inside, reached, order⟩ := filePicker_spec key apart bounded levels visible
  obtain ⟨holder, mem, held⟩ := nonempty
  have someHolds : (picked.find? (contains ·.2)).isSome :=
    find?_isSome.mpr ⟨holder, reached holder mem (holds holder mem held), held⟩
  obtain ⟨first, found⟩ := Option.isSome_iff_exists.mp someHolds
  obtain ⟨heldFirst, front, rest, split, skipped⟩ := find?_eq_some_iff_append.mp found
  have inFiles := inside first (mem_of_find?_eq_some found)
  refine ⟨first, inFiles, picked, run, found, fun file mem held ne => assigned file mem first inFiles ?_⟩
  have position := reached file mem (holds file mem held)
  rw [split] at order position
  rcases mem_append.mp position with inFront | inRest
  · exact absurd held (by simpa using skipped file inFront)
  · have later := (mem_cons.mp inRest).resolve_left ne
    have pair := (pairwise_cons.mp (pairwise_append.mp order).2.1).1 file later (holds first inFiles heldFirst)
      (holds file mem held)
    rcases pair with lower | ⟨level, notNewer⟩
    · simp [sequencedBefore, lower.ne', lower]
    · have older : file.2.epochNumber ≠ first.2.epochNumber := fun eq => ne (inj_on_of_nodup_map epochs mem inFiles eq)
      simp only [FileMetaData.newestFirstByEpochNumber, older, ne_eq, not_false_eq_true, if_true,
        decide_eq_false_iff_not] at notNewer
      simp only [sequencedBefore, level, ne_eq, not_true_eq_false, if_false, older, not_false_eq_true, if_true,
        decide_eq_true_eq]
      omega

/-- An accepted edit has distinct sequences between the old counters and the sentinel, and the picker reaches the
largest of a key's first. A failed call changes nothing. -/
theorem materialization_reads_agree (s : InstallState K) (outcome : ApplyOutcome) (edit : Option (MaterializationEdit K)) :
    let result := installVirtualCompactionMaterialization s outcome edit
    (∀ accepted, edit = some accepted → result.1 = .ok → (accepted.newFiles.map (·.epochNumber)).Nodup →
      LevelsApart accepted.newFiles →
      result.2.files.map recordedIdentity = accepted.newFiles.map MaterializedFile.identity ∧
      (result.2.files.map (·.2.largestSeqno)).Nodup ∧
      (∀ file ∈ result.2.files, file.2.smallestSeqno = file.2.largestSeqno ∧ s.lastSequence < file.2.largestSeqno ∧
        s.lastAllocatedSequence < file.2.largestSeqno ∧ s.lastPublishedSequence < file.2.largestSeqno ∧
        file.2.largestSeqno < kMaxSequenceNumber) ∧
      ∀ key sequence, result.2.lastPublishedSequence ≤ sequence → ∀ contains : FileMetaData K → Bool,
        (∀ file ∈ result.2.files, contains file.2 = true → file.2.Holds key) →
        (∃ file ∈ result.2.files, contains file.2 = true) →
        ∃ first ∈ result.2.files, ∃ picked, result.2.filePicker key sequence = some picked ∧
          picked.find? (contains ·.2) = some first ∧
          ∀ file ∈ result.2.files, contains file.2 = true → file ≠ first → file.2.largestSeqno < first.2.largestSeqno) ∧
    (result.1 ≠ .ok → result.2.files = s.files ∧ result.2.lastSequence = s.lastSequence ∧
      result.2.lastAllocatedSequence = s.lastAllocatedSequence ∧
      result.2.lastPublishedSequence = s.lastPublishedSequence) := by
  constructor
  · rintro accepted rfl ok epochs apart
    obtain ⟨checked, all, space, numbered, numLevels, published⟩ := install_ok ok
    have recorded := (mapM_ok all).imp fun _ _ => checkMaterialized_ok
    generalize (installVirtualCompactionMaterialization s outcome (some accepted)).2 = after at numbered numLevels published ⊢
    have same : after.files.map recordedIdentity = accepted.newFiles.map MaterializedFile.identity := by
      rw [numbered, assigned_map _ fun _ _ _ => rfl]
      have pairs := forall₂_map_left_iff.mpr (forall₂_map_right_iff.mpr (recorded.imp fun _ _ record => record.1))
      rw [forall₂_eq_eq_eq] at pairs
      exact pairs.symm
    have distinct : (after.files.map (·.2.epochNumber)).Nodup := by
      have eq := congrArg (List.map fun id => id.2.2.1) same
      rw [map_map, map_map] at eq
      exact (eq : after.files.map (·.2.epochNumber) = accepted.newFiles.map (·.epochNumber)) ▸ epochs
    have assigned : ∀ file ∈ after.files, ∃ old ∈ checked, ∃ p < checked.length,
      file = (old.1, old.2.withSequence (s.newestSequence + 1 + p)) := fun file mem => assigned_mem (numbered ▸ mem)
    have known : ∀ old ∈ checked, old.1 < s.numLevels ∧ old.2.smallestUser ≤ old.2.largestUser := by
      intro old mem
      obtain ⟨i, belowI, rfl⟩ := mem_iff_getElem.mp mem
      have pair := forall₂_iff_get.mp recorded
      exact (pair.2 i (pair.1 ▸ belowI) belowI).2
    have newest : s.newestSequence = max s.lastSequence (max s.lastAllocatedSequence s.lastPublishedSequence) := rfl
    refine ⟨same, numbered ▸ assigned_nodup, ?_, ?_⟩
    · intro file mem
      obtain ⟨old, -, p, lt, rfl⟩ := assigned file mem
      have number : (old.2.withSequence (s.newestSequence + 1 + p)).largestSeqno = s.newestSequence + 1 + p := rfl
      refine ⟨rfl, ?_⟩
      rw [number]
      omega
    · intro key sequence latest contains holds nonempty
      apply first_newest
      · exact keysApart_of_identity same apart
      · intro file mem
        obtain ⟨old, inChecked, p, -, rfl⟩ := assigned file mem
        exact withSequence_bounded (known old inChecked).2 _
      · intro file mem
        obtain ⟨old, inChecked, p, -, rfl⟩ := assigned file mem
        exact (known old inChecked).1.trans_eq numLevels.symm
      · intro file mem
        obtain ⟨old, inChecked, p, lt, rfl⟩ := assigned file mem
        simp only [FileMetaData.withSequence, updateInternalKey, EntryKey.packed, ValueType.code]
        omega
      · exact distinct
      · exact fun f inF g inG before => assigned_lt (numbered ▸ inF) (numbered ▸ inG) before
      · exact holds
      · exact nonempty
  · intro failed
    cases edit with
    | none => exact ⟨rfl, rfl, rfl, rfl⟩
    | some edit =>
      simp only [installVirtualCompactionMaterialization] at failed ⊢
      cases prepared : s.prepare edit with
      | error => exact ⟨rfl, rfl, rfl, rfl⟩
      | ok =>
        cases outcome with
        | failed => exact ⟨rfl, rfl, rfl, rfl⟩
        | ok => simp [prepared] at failed

def unsequenced (level : ℤ) (number epoch low high : ℕ) : MaterializedFile ℕ :=
  ⟨level, number, 4096, epoch, .key low 1, .key high 1, 0, 0⟩

def overlappingEdit : MaterializationEdit ℕ :=
  ⟨0, [], [unsequenced 0 7 1 10 20, unsequenced 0 8 2 15 30, unsequenced 1 9 3 5 40]⟩

def quietState : InstallState ℕ := ⟨1, true, 0, 0, "BlockBasedTable", 0, 7, [], 3, 5, 4, false, false⟩

theorem materialization_reads_agree_overlapping :
    let result := (installVirtualCompactionMaterialization quietState .ok (some overlappingEdit)).2
    result.files.map (·.2.largestSeqno) = [7, 8, 6] ∧
      ∃ first ∈ result.files, ∃ picked, result.filePicker 17 8 = some picked ∧
        picked.find? (·.2.Holds 17) = some first ∧
        ∀ file ∈ result.files, file.2.Holds 17 → file ≠ first → file.2.largestSeqno < first.2.largestSeqno := by
  refine ⟨by decide +kernel, ?_⟩
  have reads := (materialization_reads_agree quietState .ok (some overlappingEdit)).1 overlappingEdit rfl
    (by decide +kernel) (by decide) ?_
  · simpa using reads.2.2.2 17 8 (by decide +kernel) (fun file => file.Holds 17) (by simp) (by decide +kernel)
  · simp [LevelsApart, overlappingEdit, unsequenced]

end

end VcompProof
