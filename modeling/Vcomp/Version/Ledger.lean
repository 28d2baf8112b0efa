import Vcomp.Foundation.Refinement
import Vcomp.Version.Builder

namespace VcompModel

abbrev FileTree (K : Type) := ℕ → Option (ℕ × FileMetaData K)

abbrev BlobTable := ℕ → Option BlobFileMetaData

namespace FileTree

variable {K : Type} (tree : FileTree K)

def delete (level number : ℕ) : Option (FileTree K) :=
  if (tree number).map Prod.fst = some level then some (Function.update tree number none) else none

def add (level : ℕ) (f : FileMetaData K) : Option (FileTree K) :=
  if tree f.number = none then some (Function.update tree f.number (some (level, f))) else none

/-- A deletion needs the file on its level, an addition needs it in no level. -/
def applyEdit (edit : VersionEdit K) : Option (FileTree K) := do
  let tree ← edit.deletedFiles.foldlM (fun tree deleted => delete tree deleted.1 deleted.2) tree
  edit.newFiles.foldlM (fun tree new => add tree new.1 new.2) tree

end FileTree

namespace BlobTable

variable (blobs : BlobTable)

def add (addition : BlobFileAddition) : Option BlobTable :=
  if (blobs addition.blobFileNumber).isSome then none
  else some (Function.update blobs addition.blobFileNumber
    (some ⟨addition.blobFileNumber, addition.totalBlobCount, addition.totalBlobBytes, 0, 0⟩))

def addGarbage (garbage : BlobFileGarbage) : Option BlobTable := do
  let blob ← blobs garbage.blobFileNumber
  let blob ← blob.addGarbage garbage.garbageBlobCount garbage.garbageBlobBytes
  some (Function.update blobs garbage.blobFileNumber (some blob))

def applyEdit {K : Type} (edit : VersionEdit K) : Option BlobTable := do
  let blobs ← edit.blobFileAdditions.foldlM add blobs
  edit.blobFileGarbages.foldlM addGarbage blobs

end BlobTable

structure Ledger (K : Type) where
  files : FileTree K
  blobs : BlobTable

def Ledger.applyEdit {K : Type} (s : Ledger K) (edit : VersionEdit K) : Option (Ledger K) := do
  let blobs ← s.blobs.applyEdit edit
  let files ← s.files.applyEdit edit
  edit.compactCursors.foldlM (fun s cursor => if cursor.1 < 0 then none else some s) ⟨files, blobs⟩

def Ledger.applyAll {K : Type} (s : Ledger K) (edits : List (VersionEdit K)) : Option (Ledger K) :=
  edits.foldlM (fun s edit => s.applyEdit edit) s

def VersionEdit.Below {K : Type} (edit : VersionEdit K) (numLevels : ℕ) : Prop :=
  (∀ deleted ∈ edit.deletedFiles, deleted.1 < numLevels) ∧ ∀ new ∈ edit.newFiles, new.1 < numLevels

namespace VersionStorageInfo

variable {K : Type} (vstorage : VersionStorageInfo K)

def Located : Prop := ∀ number level pos, vstorage.fileLocations number = some (level, pos) ↔
  level < vstorage.numLevels ∧ ∃ f, (vstorage.files level)[pos]? = some f ∧ f.number = number

def ledger : Ledger K where
  files := fun number => (vstorage.fileLocations number).bind fun location =>
    ((vstorage.files location.1)[location.2]?).map (location.1, ·)
  blobs := fun number => vstorage.blobFiles.find? (·.number = number)

end VersionStorageInfo

def VersionBuilder.Keeps {K : Type} (b : VersionBuilder K) (level : ℕ) (f : FileMetaData K) : Prop :=
  f.number ∉ (b.levels level).deletedFiles ∧
    (f ∈ (b.levels level).addedFiles ∨
      f ∈ b.base.files level ∧ ∀ g ∈ (b.levels level).addedFiles, g.number ≠ f.number)

/-- The builder, with its sets of changes over the base, stands for a version. -/
structure Represents {K : Type} (base : VersionStorageInfo K) (b : VersionBuilder K) (s : Ledger K) : Prop where
  baseEq : b.base = base
  current : ∀ number, b.getCurrentLevelForTableFile number = (s.files number).map Prod.fst
  keeps : ∀ number level f, s.files number = some (level, f) ↔
    level < base.numLevels ∧ f.number = number ∧ b.Keeps level f
  apart : ∀ level, ∀ f ∈ (b.levels level).addedFiles, f.number ∉ (b.levels level).deletedFiles
  distinct : ∀ level, (b.levels level).addedFiles.Pairwise fun f g => f.number ≠ g.number
  blobs : ∀ number, b.getOrCreateMutableBlobFileMetaData number = s.blobs number

end VcompModel

namespace VcompProof

open VcompModel VersionBuilder Refinement List Function

variable {K : Type} {base : VersionStorageInfo K} {b : VersionBuilder K} {files : FileTree K} {blobs : BlobTable}
  {f : FileMetaData K}

theorem Located.mem (located : base.Located) {level : ℕ} (inside : level < base.numLevels)
    (mem : f ∈ base.files level) : base.ledger.files f.number = some (level, f) := by
  obtain ⟨pos, found⟩ := mem_iff_getElem?.mp mem
  have location := (located f.number level pos).mpr ⟨inside, f, found, rfl⟩
  simp [VersionStorageInfo.ledger, location, found]

theorem Located.of_ledger (located : base.Located) {number level : ℕ}
    (found : base.ledger.files number = some (level, f)) :
    level < base.numLevels ∧ f.number = number ∧ f ∈ base.files level := by
  obtain ⟨⟨level', pos⟩, location, content⟩ := Option.bind_eq_some_iff.mp found
  obtain ⟨g, at', eq⟩ := Option.map_eq_some_iff.mp content
  cases eq
  obtain ⟨inside, h, at'', number'⟩ := (located number level' pos).mp location
  rw [at'] at at''
  cases at''
  exact ⟨inside, number', mem_of_getElem? at'⟩

theorem represents_start (located : base.Located) : Represents base { base := base } base.ledger where
  baseEq := rfl
  current := by
    intro number
    cases location : base.fileLocations number with
    | none => simp only [getCurrentLevelForTableFile, VersionStorageInfo.ledger, location, Option.map_none, Option.bind_none]
    | some place =>
      obtain ⟨level, pos⟩ := place
      obtain ⟨-, f, found, -⟩ := (located number level pos).mp location
      simp [getCurrentLevelForTableFile, VersionStorageInfo.ledger, location, found]
  keeps := by
    intro number level f
    apply Iff.intro
    · intro found
      obtain ⟨inside, number', mem⟩ := Located.of_ledger located found
      exact ⟨inside, number', Finset.notMem_empty _, .inr ⟨mem, fun g none => absurd none not_mem_nil⟩⟩
    · intro kept
      obtain ⟨inside, rfl, -, added | old⟩ := kept
      · exact absurd added not_mem_nil
      · exact Located.mem located inside old.1
  apart := fun level f mem => absurd mem not_mem_nil
  distinct := fun level => .nil
  blobs := fun number => rfl

variable {b' : VersionBuilder K} {number : ℕ} {place : Option (ℕ × FileMetaData K)} {level : ℕ}

/-- A record about one file changes the level states at its number only. -/
structure Frames (b b' : VersionBuilder K) (number : ℕ) (place : Option (ℕ × FileMetaData K)) : Prop where
  baseEq : b'.base = b.base
  blobsEq : b'.mutableBlobFileMetas = b.mutableBlobFileMetas
  current : b'.tableFileLevels = update b.tableFileLevels number (some (place.map Prod.fst))
  deleted : ∀ level, ∀ other ≠ number, other ∈ (b'.levels level).deletedFiles ↔ other ∈ (b.levels level).deletedFiles
  added : ∀ level (f : FileMetaData K), f.number ≠ number →
    (f ∈ (b'.levels level).addedFiles ↔ f ∈ (b.levels level).addedFiles)

theorem Frames.keeps (frame : Frames b b' number place) (other : f.number ≠ number) :
    b'.Keeps level f ↔ b.Keeps level f := by
  have others : (∀ g ∈ (b'.levels level).addedFiles, g.number ≠ f.number) ↔
      ∀ g ∈ (b.levels level).addedFiles, g.number ≠ f.number := by
    apply Iff.intro
    · intro all g mem eq
      exact all g ((frame.added level g (eq ▸ other)).mpr mem) eq
    · intro all g mem eq
      exact all g ((frame.added level g (eq ▸ other)).mp mem) eq
  unfold VersionBuilder.Keeps
  rw [frame.baseEq, frame.deleted level _ other, frame.added level f other, others]

theorem Frames.represents (frame : Frames b b' number place) (rep : Represents base b ⟨files, blobs⟩)
    (placed : ∀ level f, level < base.numLevels → f.number = number → (b'.Keeps level f ↔ place = some (level, f)))
    (inside : ∀ level f, place = some (level, f) → level < base.numLevels ∧ f.number = number)
    (apart : ∀ level, ∀ f ∈ (b'.levels level).addedFiles, f.number ∉ (b'.levels level).deletedFiles)
    (distinct : ∀ level, (b'.levels level).addedFiles.Pairwise fun f g => f.number ≠ g.number) :
    Represents base b' ⟨update files number place, blobs⟩ where
  baseEq := frame.baseEq.trans rep.baseEq
  current := by
    intro other
    have old := rep.current other
    dsimp only [getCurrentLevelForTableFile] at old ⊢
    rw [frame.current, frame.baseEq]
    by_cases eq : other = number
    · subst eq
      rw [update_self, update_self]
    · rw [update_of_ne eq, update_of_ne eq]
      exact old
  keeps := by
    intro other level f
    dsimp only
    by_cases eq : other = number
    · subst eq
      rw [update_self]
      apply Iff.intro
      · intro here
        obtain ⟨lt, number'⟩ := inside level f here
        exact ⟨lt, number', (placed level f lt number').mpr here⟩
      · intro kept
        exact (placed level f kept.1 kept.2.1).mp kept.2.2
    · rw [update_of_ne eq]
      apply (rep.keeps other level f).trans
      apply and_congr_right
      intro _
      apply and_congr_right
      intro number'
      exact (frame.keeps (number' ▸ eq)).symm
  apart := apart
  distinct := distinct
  blobs := by
    intro other
    have old := rep.blobs other
    unfold getOrCreateMutableBlobFileMetaData at old ⊢
    rw [frame.blobsEq, frame.baseEq]
    exact old

theorem applyFileDeletion_refines (rep : Represents base b ⟨files, blobs⟩) (number : ℕ)
    (inside : level < base.numLevels) :
    Refines (fun b files => Represents base b ⟨files, blobs⟩) (b.applyFileDeletion level number)
      (files.delete level number) := by
  have current := rep.current number
  dsimp only at current
  unfold applyFileDeletion FileTree.delete
  cases found : files number with
  | none =>
    rw [found, Option.map_none] at current
    rw [current, Option.map_none]
    trivial
  | some place =>
    obtain ⟨here, f⟩ := place
    rw [found, Option.map_some] at current
    rw [current, Option.map_some]
    dsimp only
    by_cases eq : level = here
    swap
    · rw [if_pos eq, if_neg fun equal => eq (Option.some.inj equal).symm]
      trivial
    subst eq
    rw [if_neg (not_not.mpr rfl), if_neg (by rw [rep.baseEq]; omega), if_pos rfl]
    apply Frames.represents (b := b) _ rep
    · -- on its level the number is deleted, and it was on no other
      intro level' g lt number'
      refine iff_of_false ?_ (by simp)
      intro kept
      unfold VersionBuilder.Keeps at kept
      dsimp only at kept
      by_cases eq : level' = level
      · subst eq
        rw [update_self] at kept
        exact kept.1 (Finset.mem_insert.mpr (.inl number'))
      · rw [update_of_ne eq] at kept
        have elsewhere := (rep.keeps number level' g).mpr ⟨lt, number', kept⟩
        dsimp only at elsewhere
        rw [found] at elsewhere
        exact eq (congrArg Prod.fst (Option.some.inj elsewhere)).symm
    · intro _ _ none
      cases none
    · intro level' g
      dsimp only
      by_cases eq : level' = level
      · subst eq
        rw [update_self]
        intro mem
        obtain ⟨old, other⟩ := mem_filter.mp mem
        rw [Finset.mem_insert, not_or]
        exact ⟨of_decide_eq_true other, rep.apart level' g old⟩
      · rw [update_of_ne eq]
        exact rep.apart level' g
    · intro level'
      dsimp only
      by_cases eq : level' = level
      · subst eq
        rw [update_self]
        exact (rep.distinct level').filter _
      · rw [update_of_ne eq]
        exact rep.distinct level'
    · refine ⟨rfl, rfl, rfl, ?_, ?_⟩
      · intro level' other ne
        dsimp only
        by_cases eq : level' = level
        · subst eq
          rw [update_self]
          exact ⟨fun mem => (Finset.mem_insert.mp mem).resolve_left ne, Finset.mem_insert_of_mem⟩
        · rw [update_of_ne eq]
      · intro level' g ne
        dsimp only
        by_cases eq : level' = level
        · subst eq
          rw [update_self, mem_filter]
          exact and_iff_left (decide_eq_true ne)
        · rw [update_of_ne eq]

theorem applyFileAddition_refines (rep : Represents base b ⟨files, blobs⟩) (f : FileMetaData K)
    (inside : level < base.numLevels) :
    Refines (fun b files => Represents base b ⟨files, blobs⟩) (b.applyFileAddition level f) (files.add level f) := by
  have current := rep.current f.number
  dsimp only at current
  unfold applyFileAddition FileTree.add
  cases found : files f.number with
  | some place =>
    rw [found, Option.map_some] at current
    rw [current]
    trivial
  | none =>
    rw [found, Option.map_none] at current
    rw [current, if_pos rfl]
    rw [if_neg (by rw [rep.baseEq]; omega)]
    have absent : ∀ level' g, level' < base.numLevels → g.number = f.number → ¬ b.Keeps level' g := by
      intro level' g lt number kept
      have placed := (rep.keeps f.number level' g).mpr ⟨lt, number, kept⟩
      dsimp only at placed
      rw [found] at placed
      cases placed
    have new : ∀ g ∈ (b.levels level).addedFiles, g.number ≠ f.number := by
      intro g mem number
      exact absent level g inside number ⟨rep.apart level g mem, .inl mem⟩
    apply Frames.represents (b := b) _ rep
    · intro level' g lt number
      unfold VersionBuilder.Keeps
      dsimp only
      by_cases eq : level' = level
      · subst eq
        rw [update_self, Option.some_inj]
        apply Iff.intro
        · intro kept
          rcases kept.2 with added | ⟨-, none⟩
          · rcases mem_append.mp added with old | last
            · exact absurd number (new g old)
            · rw [mem_singleton.mp last]
          · exact absurd number.symm (none f (mem_append_right _ mem_cons_self))
        · intro eq
          cases eq
          exact ⟨Finset.notMem_erase _ _, .inl (mem_append_right _ mem_cons_self)⟩
      · rw [update_of_ne eq]
        refine iff_of_false (absent level' g lt number) ?_
        intro here
        exact eq (congrArg Prod.fst (Option.some.inj here)).symm
    · intro level' g here
      cases here
      exact ⟨inside, rfl⟩
    · intro level' g
      dsimp only
      by_cases eq : level' = level
      · subst eq
        rw [update_self]
        intro mem
        rcases mem_append.mp mem with old | last
        · exact fun deleted => rep.apart level' g old (Finset.mem_of_mem_erase deleted)
        · rw [mem_singleton.mp last]
          exact Finset.notMem_erase _ _
      · rw [update_of_ne eq]
        exact rep.apart level' g
    · intro level'
      dsimp only
      by_cases eq : level' = level
      · subst eq
        rw [update_self]
        apply pairwise_append.mpr
        refine ⟨rep.distinct level', pairwise_singleton _ _, ?_⟩
        intro g mem h last
        rw [mem_singleton.mp last]
        exact new g mem
      · rw [update_of_ne eq]
        exact rep.distinct level'
    · refine ⟨rfl, rfl, rfl, ?_, ?_⟩
      · intro level' other ne
        dsimp only
        by_cases eq : level' = level
        · subst eq
          rw [update_self, Finset.mem_erase]
          exact and_iff_right ne
        · rw [update_of_ne eq]
      · intro level' g ne
        dsimp only
        by_cases eq : level' = level
        · subst eq
          rw [update_self, mem_append, mem_singleton]
          apply or_iff_left
          intro equal
          exact ne (congrArg FileMetaData.number equal)
        · rw [update_of_ne eq]

section

variable (rep : Represents base b ⟨files, blobs⟩)
include rep

theorem represents_update_blob (number : ℕ) (blob : BlobFileMetaData) :
    Represents base { b with mutableBlobFileMetas := update b.mutableBlobFileMetas number (some blob) }
      ⟨files, update blobs number (some blob)⟩ := by
  refine ⟨rep.baseEq, rep.current, rep.keeps, rep.apart, rep.distinct, ?_⟩
  intro other
  have old := rep.blobs other
  unfold getOrCreateMutableBlobFileMetaData at old ⊢
  dsimp only at old ⊢
  by_cases eq : other = number
  · subst eq
    rw [update_self, update_self]
    rfl
  · rw [update_of_ne eq, update_of_ne eq]
    exact old

theorem isBlobFileInVersion_eq (number : ℕ) : b.isBlobFileInVersion number = (blobs number).isSome := by
  have blob := rep.blobs number
  dsimp only at blob
  rw [← blob]
  unfold isBlobFileInVersion getOrCreateMutableBlobFileMetaData
  cases b.mutableBlobFileMetas number <;> rfl

theorem applyBlobFileAddition_refines (addition : BlobFileAddition) :
    Refines (fun b blobs => Represents base b ⟨files, blobs⟩) (b.applyBlobFileAddition addition) (blobs.add addition) := by
  unfold applyBlobFileAddition BlobTable.add
  rw [isBlobFileInVersion_eq rep]
  split
  · trivial
  · exact represents_update_blob rep addition.blobFileNumber _

theorem applyBlobFileGarbage_refines (garbage : BlobFileGarbage) :
    Refines (fun b blobs => Represents base b ⟨files, blobs⟩) (b.applyBlobFileGarbage garbage)
      (blobs.addGarbage garbage) := by
  unfold applyBlobFileGarbage BlobTable.addGarbage
  rw [rep.blobs]
  dsimp only
  cases blobs garbage.blobFileNumber with
  | none => trivial
  | some blob =>
    dsimp only [Option.bind_eq_bind, Option.bind_some]
    cases blob.addGarbage garbage.garbageBlobCount garbage.garbageBlobBytes with
    | none => trivial
    | some blob => exact represents_update_blob rep garbage.blobFileNumber blob

end

variable {s : Ledger K} (options : BuilderOptions K)

theorem applyCompactCursors_refines (rep : Represents base b s) (cursor : ℤ × Option (EntryKey K)) :
    Refines (Represents base) (b.applyCompactCursors options cursor.1 cursor.2)
      (if cursor.1 < 0 then none else some s) := by
  unfold applyCompactCursors
  split
  · trivial
  · split
    · exact { rep with }
    · exact rep

theorem apply_refines [LinearOrder K] (checked : checkConsistency options base = .ok ()) (rep : Represents base b s)
    {edit : VersionEdit K} (lt : edit.Below base.numLevels) :
    Refines (Represents base) (b.apply options edit) (s.applyEdit edit) := by
  unfold VersionBuilder.apply Ledger.applyEdit BlobTable.applyEdit FileTree.applyEdit
  rw [rep.baseEq, checked]
  rw [bind_assoc]
  apply (Refines.foldlM (R := fun b blobs => Represents base b ⟨s.files, blobs⟩)
    (fun b blobs addition _ rep => applyBlobFileAddition_refines rep addition) rep).bind
  intro b blobs rep
  apply (Refines.foldlM (R := fun b blobs => Represents base b ⟨s.files, blobs⟩)
    (fun b blobs garbage _ rep => applyBlobFileGarbage_refines rep garbage) rep).bind
  intro b blobs rep
  rw [bind_assoc]
  apply (Refines.foldlM (R := fun b files => Represents base b ⟨files, blobs⟩)
    (fun b files deleted mem rep => applyFileDeletion_refines rep deleted.2 (lt.1 deleted mem)) rep).bind
  intro b files rep
  apply (Refines.foldlM (R := fun b files => Represents base b ⟨files, blobs⟩)
    (fun b files new mem rep => applyFileAddition_refines rep new.2 (lt.2 new mem)) rep).bind
  intro b files rep
  exact Refines.foldlM (fun b s cursor _ rep => applyCompactCursors_refines options rep cursor) rep

theorem applyAll_refines [LinearOrder K] (checked : checkConsistency options base = .ok ()) (located : base.Located)
    {edits : List (VersionEdit K)} (lt : ∀ edit ∈ edits, edit.Below base.numLevels) :
    Refines (Represents base) (applyAll options base edits) (base.ledger.applyAll edits) := by
  apply Refines.foldlM _ (represents_start located)
  intro b s edit mem rep
  exact apply_refines options checked rep (lt edit mem)

theorem cursors_rejected (cursors : List (ℤ × Option (EntryKey K))) (s : Ledger K) :
    cursors.foldlM (fun s cursor => if cursor.1 < 0 then none else some s) s = none ↔ ∃ cursor ∈ cursors, cursor.1 < 0 := by
  induction cursors with
  | nil => simp
  | cons cursor cursors ih =>
    rw [foldlM_cons, exists_mem_cons_iff]
    by_cases negative : cursor.1 < 0
    · rw [if_pos negative]
      exact iff_of_true rfl (.inl negative)
    · rw [if_neg negative, or_iff_right negative]
      exact ih

theorem Ledger.rejected (s : Ledger K) (edit : VersionEdit K) :
    s.applyEdit edit = none ↔ s.files.applyEdit edit = none ∨ s.blobs.applyEdit edit = none ∨
      ∃ cursor ∈ edit.compactCursors, cursor.1 < 0 := by
  unfold VcompModel.Ledger.applyEdit
  cases s.blobs.applyEdit edit with
  | none => exact iff_of_true rfl (.inr (.inl rfl))
  | some blobs =>
    cases s.files.applyEdit edit with
    | none => exact iff_of_true rfl (.inl rfl)
    | some files =>
      dsimp only [Option.bind_eq_bind, Option.bind_some]
      rw [cursors_rejected]
      simp

end VcompProof
