import Vcomp.Version.Save

namespace VcompModel

variable {K : Type} [LinearOrder K]

/-- A base version that passes `CheckConsistencyDetails`, with level 0 in epoch order and its files located. -/
structure ConsistentBase (options : BuilderOptions K) (base : VersionStorageInfo K) : Prop where
  checked : checkConsistencyDetails options base = .ok ()
  level0 : (base.files 0).Pairwise fun f g => FileMetaData.newestFirstByEpochNumber f g = true
  located : base.Located

/-- The files of a version are those of a ledger, each once, sorted below level 0 and located. -/
structure Lists (saved : VersionStorageInfo K) (s : Ledger K) : Prop where
  exact : ∀ level f, f ∈ saved.files level ↔ s.files f.number = some (level, f)
  once : (((List.range saved.numLevels).flatMap saved.files).map (·.number)).Nodup
  sorted : ∀ level, 0 < level → (saved.files level).Pairwise fun f g => FileMetaData.bySmallestKey f g = true
  located : saved.Located

end VcompModel

namespace VcompProof

open VcompModel VersionBuilder Refinement List

section

variable {K : Type}

theorem checkNeighbours_chain {checker : FileMetaData K → FileMetaData K → Except Status Unit}
    {R : FileMetaData K → FileMetaData K → Prop} (means : ∀ f g, checker f g = .ok () → R f g)
    {files : List (FileMetaData K)} (passed : checkNeighbours checker files = .ok ()) : files.IsChain R := by
  induction files with
  | nil => exact .nil
  | cons f files ih =>
    cases files with
    | nil => exact .singleton f
    | cons g files =>
      rw [checkNeighbours] at passed
      cases first : checker f g with
      | error status =>
        rw [first] at passed
        cases passed
      | ok _ =>
        rw [first] at passed
        exact .cons_cons (means f g first) (ih passed)

theorem checks_passed {A : Type} {check : A → Except Status Unit} {l : List A} (passed : l.forM check = .ok ()) :
    ∀ a ∈ l, check a = .ok () := by
  induction l with
  | nil => exact fun a mem => absurd mem not_mem_nil
  | cons a l ih =>
    change (check a >>= fun _ => l.forM check) = .ok () at passed
    cases first : check a with
    | error status =>
      rw [first] at passed
      cases passed
    | ok _ =>
      rw [first] at passed
      rw [forall_mem_cons]
      exact ⟨first, ih passed⟩

variable [LinearOrder K] {options : BuilderOptions K} {base : VersionStorageInfo K} {level : ℕ}

theorem levelChecker_ok {f g : FileMetaData K} (passed : levelChecker options level f g = .ok ()) :
    FileMetaData.bySmallestKey f g = true := by
  unfold levelChecker at passed
  split at passed
  · cases passed
  next sorted => simpa using sorted

theorem ConsistentBase.sorted (consistent : ConsistentBase options base) (deep : 0 < level)
    (inside : level < base.numLevels) : (base.files level).Pairwise fun f g => FileMetaData.bySmallestKey f g = true := by
  have checked := consistent.checked
  unfold checkConsistencyDetails at checked
  rw [if_pos (by omega)] at checked
  -- the checks of the levels come second
  cases first : checkNeighbours (level0Checker options base.epochNumberRequirement) (base.files 0) with
  | error status =>
    rw [first] at checked
    cases checked
  | ok _ =>
    rw [first] at checked
    cases levels : (List.range' 1 (base.numLevels - 1)).forM
        fun level => checkNeighbours (levelChecker options level) (base.files level) with
    | error status =>
      simp only [levels] at checked
      cases checked
    | ok _ =>
      have passed := checks_passed levels level (by rw [mem_range'_1]; omega)
      have chain := checkNeighbours_chain (fun f g => levelChecker_ok) passed
      have transitive : IsTrans (FileMetaData K) fun f g => FileMetaData.bySmallestKey f g = true := by
        refine ⟨fun f g h => ?_⟩
        rw [bySmallestKey_rank, bySmallestKey_rank, bySmallestKey_rank]
        exact lt_trans
      exact chain.pairwise

theorem ConsistentBase.passes (consistent : ConsistentBase options base) : checkConsistency options base = .ok () := by
  unfold checkConsistency
  rw [consistent.checked]
  split
  · rfl
  · split <;> rfl

end

section

variable {K : Type} {options : BuilderOptions K} {base target : VersionStorageInfo K} {b : VersionBuilder K} {s : Ledger K}

def savedRequirement (b : VersionBuilder K) (target : VersionStorageInfo K) : EpochNumberRequirement :=
  if target.epochNumberRequirement = .mightMissing then
    (b.promoteEpochNumberRequirementIfNeeded target).epochNumberRequirement
  else target.epochNumberRequirement

theorem savedRequirement_mustPresent (rep : Represents base b s) (fresh : target.Fresh base.numLevels)
    (known : target.epochNumberRequirement = .mustPresent ∨
      ∀ number level f, s.files number = some (level, f) → f.epochNumber ≠ kUnknownEpochNumber) :
    savedRequirement b target = .mustPresent := by
  unfold savedRequirement
  split
  next missing =>
    have known := known.resolve_left (by rw [missing]; decide)
    have present : target.hasMissingEpochNumber = false := by
      unfold VersionStorageInfo.hasMissingEpochNumber
      rw [any_eq_false]
      intro level _
      rw [fresh.files]
      exact Bool.false_ne_true
    have added : ((List.range b.base.numLevels).any fun level =>
        (b.levels level).addedFiles.any fun f => f.epochNumber = kUnknownEpochNumber) = false := by
      rw [rep.baseEq, any_eq_false]
      intro level inside
      rw [Bool.not_eq_true, any_eq_false]
      intro f mem
      have kept : b.Keeps level f := ⟨rep.apart level f mem, .inl mem⟩
      have placed := (rep.keeps f.number level f).mpr ⟨mem_range.mp inside, rfl, kept⟩
      simpa using known f.number level f placed
    unfold promoteEpochNumberRequirementIfNeeded
    rw [present, added]
    rfl
  next present =>
    cases requirement : target.epochNumberRequirement with
    | mightMissing => exact absurd requirement present
    | mustPresent => rfl

variable [LinearOrder K]

theorem Fresh.passes (fresh : target.Fresh base.numLevels) : checkConsistency options target = .ok () := by
  have levels : ∀ levels : List ℕ,
      levels.forM (fun level => checkNeighbours (levelChecker options level) (target.files level)) = .ok () := by
    intro levels
    induction levels with
    | nil => rfl
    | cons level levels ih =>
      change (checkNeighbours (levelChecker options level) (target.files level) >>= fun _ => levels.forM _) = .ok ()
      rw [fresh.files]
      exact ih
  have details : checkConsistencyDetails options target = .ok () := by
    unfold checkConsistencyDetails
    rw [fresh.files, levels, fresh.blobFiles]
    split <;> rfl
  unfold checkConsistency
  rw [details]
  split
  · rfl
  · split <;> rfl

def savedOrder (b : VersionBuilder K) (target : VersionStorageInfo K) (level : ℕ) : FileMetaData K → FileMetaData K → Bool :=
  if level = 0 then level0Order (savedRequirement b target) else FileMetaData.bySmallestKey

theorem saveSSTFilesTo_levels (target : VersionStorageInfo K) (some : 0 < b.base.numLevels) : b.saveSSTFilesTo target =
    (List.range b.base.numLevels).foldl (fun v level => b.saveLevelTo (savedOrder b target level) v level)
      { target with epochNumberRequirement := savedRequirement b target } := by
  have promoted : (if target.epochNumberRequirement = .mightMissing then b.promoteEpochNumberRequirementIfNeeded target
      else target) = { target with epochNumberRequirement := savedRequirement b target } := by
    unfold savedRequirement promoteEpochNumberRequirementIfNeeded
    split
    · split
      · rfl
      · split <;> rfl
    · rfl
  have split : List.range b.base.numLevels = 0 :: List.range' 1 (b.base.numLevels - 1) := by
    rw [range_eq_range', ← Nat.sub_add_cancel some, range'_succ]
    simp
  have deeper : ∀ v, (List.range' 1 (b.base.numLevels - 1)).foldl (b.saveLevelTo FileMetaData.bySmallestKey) v =
      (List.range' 1 (b.base.numLevels - 1)).foldl (fun v level => b.saveLevelTo (savedOrder b target level) v level) v := by
    intro v
    apply foldl_ext
    intro v level mem
    rw [mem_range'_1] at mem
    rw [savedOrder, if_neg (by omega)]
  unfold saveSSTFilesTo
  rw [if_neg (by omega), promoted, split, foldl_cons]
  rw [deeper, savedOrder, if_pos rfl]

theorem saveSSTFilesTo_spec (consistent : ConsistentBase options base) (rep : Represents base b s)
    (fresh : target.Fresh base.numLevels) :
    (b.saveSSTFilesTo target).Located ∧ (b.saveSSTFilesTo target).numLevels = base.numLevels ∧
      ∀ level, (b.saveSSTFilesTo target).files level =
        if level < base.numLevels then b.keptFiles (savedOrder b target level) level else [] := by
  have empty : { target with epochNumberRequirement := savedRequirement b target }.Located := by
    intro number level pos
    rw [fresh.fileLocations, fresh.files]
    simp
  rcases Nat.eq_zero_or_pos base.numLevels with none | some
  · have eq : b.saveSSTFilesTo target = target := if_pos (by rw [rep.baseEq, none])
    rw [eq]
    refine ⟨empty, fresh.numLevels, ?_⟩
    intro level
    rw [if_neg (by omega), fresh.files]
  rw [saveSSTFilesTo_levels target (by rw [rep.baseEq]; exact some), rep.baseEq]
  obtain ⟨located, numLevels, files⟩ :=
    saveLevels_spec consistent.located rep (savedOrder b target) (List.range base.numLevels)
    nodup_range (fun level => mem_range.mp) { target with epochNumberRequirement := savedRequirement b target }
    fresh.numLevels empty (fun level _ => fresh.files level) (fun level _ f _ => fresh.fileLocations f.number)
  refine ⟨located, numLevels, ?_⟩
  intro level
  rw [files level]
  simp [mem_range, fresh.files]

end

variable {K : Type} [LinearOrder K] {options : BuilderOptions K} {base : VersionStorageInfo K}
  {target : VersionStorageInfo K} {b : VersionBuilder K} {s : Ledger K}

theorem saveTo_storage (fresh : target.Fresh base.numLevels) :
    (b.saveTo options target).2 = b.saveCompactCursorsTo (b.saveSSTFilesTo target) := by
  unfold saveTo
  rw [Fresh.passes fresh]

theorem lists_of_represents (consistent : ConsistentBase options base) (rep : Represents base b s)
    (fresh : target.Fresh base.numLevels) : Lists (b.saveTo options target).2 s := by
  obtain ⟨located, numLevels, files⟩ := saveSSTFilesTo_spec consistent rep fresh
  rw [saveTo_storage fresh]
  have mem : ∀ level f, f ∈ (b.saveSSTFilesTo target).files level ↔ s.files f.number = some (level, f) := by
    intro level f
    rw [rep.keeps, files level]
    split
    next inside =>
      rw [mem_keptFiles]
      exact ⟨fun kept => ⟨inside, rfl, kept⟩, fun kept => kept.2.2⟩
    next outside => exact iff_of_false not_mem_nil fun kept => outside kept.1
  have nodup : ∀ level, ((b.saveSSTFilesTo target).files level).Pairwise fun f g => f.number ≠ g.number := by
    intro level
    rw [files level]
    split
    next inside => exact keptFiles_distinct _ consistent.located rep inside
    · exact .nil
  refine ⟨mem, ?_, ?_, located⟩
  · -- a number is once on its level and on no other
    change (((List.range (b.saveSSTFilesTo target).numLevels).flatMap (b.saveSSTFilesTo target).files).map _).Pairwise _
    rw [pairwise_map, pairwise_flatMap]
    refine ⟨fun level _ => nodup level, ?_⟩
    apply nodup_range.imp
    intro level level' ne f first g second eq
    rw [mem] at first second
    rw [eq, second] at first
    exact ne (congrArg Prod.fst (Option.some.inj first)).symm
  · intro level deep
    change ((b.saveSSTFilesTo target).files level).Pairwise _
    have own := nodup level
    rw [files level] at own ⊢
    split at own
    next inside =>
      rw [if_pos inside]
      have order : savedOrder b target level = FileMetaData.bySmallestKey := if_neg (by omega)
      rw [order] at own ⊢
      apply keptFiles_sorted fileOrder_bySmallestKey own
      rw [rep.baseEq]
      exact ConsistentBase.sorted consistent deep inside
    next outside =>
      rw [if_neg outside]
      exact .nil

theorem level0_by_epoch (consistent : ConsistentBase options base) (rep : Represents base b s)
    (fresh : target.Fresh base.numLevels) (known : target.epochNumberRequirement = .mustPresent ∨
      ∀ number level f, s.files number = some (level, f) → f.epochNumber ≠ kUnknownEpochNumber) :
    ((b.saveTo options target).2.files 0).Pairwise fun f g => FileMetaData.newestFirstByEpochNumber f g = true := by
  obtain ⟨-, -, files⟩ := saveSSTFilesTo_spec consistent rep fresh
  rw [saveTo_storage fresh]
  change ((b.saveSSTFilesTo target).files 0).Pairwise _
  rw [files 0]
  split
  next inside =>
    have order : savedOrder b target 0 = FileMetaData.newestFirstByEpochNumber := by
      rw [savedOrder, if_pos rfl, savedRequirement_mustPresent rep fresh known]
      rfl
    rw [order]
    apply keptFiles_sorted fileOrder_byEpochNumber (keptFiles_distinct _ consistent.located rep inside)
    rw [rep.baseEq]
    exact consistent.level0
  · exact .nil

theorem builder_is_fold (options : BuilderOptions K) (base target : VersionStorageInfo K)
    (consistent : ConsistentBase options base) (fresh : target.Fresh base.numLevels) (edits : List (VersionEdit K))
    (below : ∀ edit ∈ edits, edit.Below base.numLevels) (b : VersionBuilder K)
    (accepted : applyAll options base edits = .ok b) : ∃ s, base.ledger.applyAll edits = some s ∧
      Lists (b.saveTo options target).2 s ∧
      (target.epochNumberRequirement = .mustPresent ∨
          (∀ number level f, s.files number = some (level, f) → f.epochNumber ≠ kUnknownEpochNumber) →
        ((b.saveTo options target).2.files 0).Pairwise fun f g => FileMetaData.newestFirstByEpochNumber f g = true) ∧
      (∀ less level (vstorage : VersionStorageInfo K), vstorage.files level = [] →
        b.saveLevelTo less vstorage level = b.mergeLevelTo less vstorage level) ∧
      ∀ edit, edit.Below base.numLevels →
        ((∃ rejection, b.apply options edit = .error rejection) ↔
          s.files.applyEdit edit = none ∨ s.blobs.applyEdit edit = none ∨ ∃ cursor ∈ edit.compactCursors, cursor.1 < 0) := by
  have passes := ConsistentBase.passes consistent
  obtain ⟨s, fold, rep⟩ := (applyAll_refines options passes consistent.located below).ok accepted
  refine ⟨s, fold, lists_of_represents consistent rep fresh, level0_by_epoch consistent rep fresh,
    fun less level vstorage empty => saveLevelTo_eq empty, ?_⟩
  intro edit inside
  rw [(apply_refines options passes rep inside).rejected]
  exact Ledger.rejected s edit

def checkedOptions : BuilderOptions ℕ where
  useVirtualCompaction := false
  forceConsistencyChecks := true
  debugString := fun key => toString key.userKey
  encode := fun key => toString (key.map (·.userKey))

def emptyVersion : VersionStorageInfo ℕ := { numLevels := 3 }

def flushedFile (number epochNumber seqno : ℕ) : FileMetaData ℕ where
  number := number
  fileSize := 4096
  smallest := ⟨number, seqno, .value⟩
  largest := ⟨number, seqno, .value⟩
  smallestSeqno := seqno
  largestSeqno := seqno
  epochNumber := epochNumber

def baseVersion : VersionStorageInfo ℕ where
  numLevels := 3
  files level := ([[], [flushedFile 4 1 2, flushedFile 6 2 3], [flushedFile 5 1 1]] : List _).getD level []
  fileLocations number :=
    if number = 4 then some (1, 0) else if number = 6 then some (1, 1) else if number = 5 then some (2, 0) else none

theorem baseVersion_consistent : ConsistentBase checkedOptions baseVersion where
  checked := by decide +kernel
  level0 := .nil
  located := by
    intro number level pos
    rcases level with _ | _ | _ | level <;> rcases pos with _ | _ | pos <;> simp [baseVersion, flushedFile] <;> grind

def flushEdit : VersionEdit ℕ := { newFiles := [(0, flushedFile 11 3 5), (0, flushedFile 12 4 9)] }

def flushThenMove : List (VersionEdit ℕ) := [flushEdit, { deletedFiles := [(0, 11)], newFiles := [(2, flushedFile 11 3 5)] }]

theorem flushThenMove_below : ∀ edit ∈ flushThenMove, edit.Below baseVersion.numLevels := by
  simp only [flushThenMove, flushEdit, forall_mem_cons, VersionEdit.Below, baseVersion]
  simp

theorem ok_of_toOption {ε α β : Type} {run : Except ε α} {f : α → β} {v : β} (eq : run.toOption.map f = some v) :
    ∃ a, run = .ok a ∧ f a = v := by
  cases run with
  | error failure => cases eq
  | ok a => exact ⟨a, rfl, Option.some.inj eq⟩

theorem builder_is_fold_move : ∃ b s, applyAll checkedOptions baseVersion flushThenMove = .ok b ∧
    baseVersion.ledger.applyAll flushThenMove = some s ∧ Lists (b.saveTo checkedOptions emptyVersion).2 s ∧
    (b.saveTo checkedOptions emptyVersion).2.files 2 = [flushedFile 5 1 1, flushedFile 11 3 5] := by
  have accepted : (applyAll checkedOptions baseVersion flushThenMove).toOption.map
      (fun b => (b.saveTo checkedOptions emptyVersion).2.files 2) = some [flushedFile 5 1 1, flushedFile 11 3 5] := by
    decide +kernel
  obtain ⟨b, run, saved⟩ := ok_of_toOption accepted
  obtain ⟨s, fold, lists, -⟩ := builder_is_fold checkedOptions baseVersion emptyVersion baseVersion_consistent
    ⟨rfl, fun _ => rfl, fun _ => rfl, rfl⟩ flushThenMove flushThenMove_below b run
  exact ⟨b, s, run, fold, lists, saved⟩

def garbageEdit : VersionEdit ℕ := { blobFileGarbages := [⟨7, 1, 1⟩] }

def unknownEpochEdit : VersionEdit ℕ := { newFiles := [(0, flushedFile 11 5 1), (0, flushedFile 12 kUnknownEpochNumber 9)] }

theorem builder_rejects_blob_records_and_sorts_by_seqno :
    ((applyAll checkedOptions emptyVersion [garbageEdit]).isOk = false ∧
        (emptyVersion.ledger.files.applyEdit garbageEdit).isSome = true) ∧
      (applyAll checkedOptions emptyVersion [unknownEpochEdit]).toOption.map
          (fun b => (b.saveTo checkedOptions { emptyVersion with epochNumberRequirement := .mightMissing }).2.files 0) =
        some [flushedFile 12 kUnknownEpochNumber 9, flushedFile 11 5 1] ∧
      FileMetaData.newestFirstByEpochNumber (flushedFile 12 kUnknownEpochNumber 9) (flushedFile 11 5 1) = false := by
  decide +kernel

end VcompProof
