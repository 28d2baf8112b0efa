import Vcomp.Lsm.PickerExact
import Vcomp.Materialize.Install
import Vcomp.Version.Save

namespace VcompModel

open SortBy

variable {K : Type} [LinearOrder K]

def levelFiles (files : List (ℕ × FileMetaData K)) (level : ℕ) : List (FileMetaData K) :=
  sortBy (if level = 0 then FileMetaData.newestFirstByEpochNumber else FileMetaData.bySmallestKey)
    ((files.filter (·.1 = level)).map Prod.snd)

def recordedIdentity (file : ℕ × FileMetaData K) : ℤ × ℕ × ℕ × Option K × Option K :=
  (file.1, file.2.number, file.2.epochNumber, some file.2.smallestUser, some file.2.largestUser)

/-- The files that a read at `sequence` is given for `key`, with their levels, by a Version whose `FileIndexer` is
built. -/
def InstallState.filePicker (s : InstallState K) (key : K) (sequence : ℕ) : Option (List (ℕ × FileMetaData K)) :=
  pickFiles false ((List.range s.numLevels).map (levelFiles s.files)) ⟨key, sequence, .valuePreferredSeqno⟩

end VcompModel

namespace VcompProof

open VcompModel SortBy List

variable {K : Type} [LinearOrder K] {files : List (ℕ × FileMetaData K)} {level : ℕ} {file : FileMetaData K}

/-- Files of one level below 0 share no key. -/
def KeysApart (files : List (ℕ × FileMetaData K)) : Prop :=
  files.Pairwise fun f g => f.1 = g.1 → f.1 ≠ 0 → ∀ key, ¬ (f.2.Holds key ∧ g.2.Holds key)

theorem mem_levelFiles : file ∈ levelFiles files level ↔ (level, file) ∈ files := by
  simp [levelFiles]

theorem levelFiles_apart (apart : KeysApart files) (deep : level ≠ 0) :
    (levelFiles files level).Pairwise fun f g => ∀ key, ¬ (f.Holds key ∧ g.Holds key) := by
  refine ((sortBy_perm _ _).pairwise_iff fun notBoth key both => notBoth key ⟨both.2, both.1⟩).mpr ?_
  rw [pairwise_map, pairwise_filter]
  refine apart.imp fun {f g} separate inF inG => ?_
  have levelF : f.1 = level := of_decide_eq_true inF
  have levelG : g.1 = level := of_decide_eq_true inG
  exact separate (levelF.trans levelG.symm) (levelF ▸ deep)

theorem levelFiles_consistent (bounded : ∀ file ∈ files, file.2.smallest ≤ file.2.largest) (apart : KeysApart files)
    (deep : level ≠ 0) : LevelConsistent (levelFiles files level) := by
  refine ⟨fun file mem => bounded _ (mem_levelFiles.mp mem), ?_⟩
  have sorted := sortBy_sorted fileOrder_bySmallestKey.comparator ((files.filter (·.1 = level)).map Prod.snd)
  have both := levelFiles_apart apart deep
  rw [levelFiles, if_neg deep] at both ⊢
  refine (sorted.and both).imp_of_mem fun {f g} _ inG order => ?_
  have starts : f.smallest ≤ g.smallest := by
    by_contra later
    have first := (bySmallestKey_rank g f).mpr (Prod.Lex.toLex_lt_toLex.mpr (.inl (not_le.mp later)))
    rw [order.1] at first
    cases first
  have proper : g.smallest ≤ g.largest := bounded (level, g) (by simpa using inG)
  refine internalKey_lt.mpr (.inl (not_le.mp fun reach => ?_))
  exact order.2 g.smallestUser ⟨⟨userKey_le starts, reach⟩, le_rfl, userKey_le proper⟩

theorem levelByLevel_sublist (pick : List (FileMetaData K) → List (FileMetaData K))
    (content : ℕ → List (FileMetaData K)) (n : ℕ) (key : K) : (levelByLevel pick ((List.range n).map content) key).Sublist
      ((List.range n).flatMap fun i => (if i = 0 then content 0 else pick (content i)).map (i, ·)) := by
  cases n with
  | zero => exact Sublist.refl _
  | succ n =>
    have deeper : (((List.range n).map Nat.succ).map content).mapIdx (fun i files => (pick files).map (i + 1, ·)) =
        (List.range n).map fun i => (pick (content (i + 1))).map (i + 1, ·) := by
      apply ext_getElem?
      intro i
      by_cases lt : i < n <;> simp [lt]
    rw [levelByLevel, range_succ_eq_map, map_cons, tail_cons, headD_cons, deeper, ← flatMap_def, flatMap_cons, flatMap_map]
    refine Sublist.append (Sublist.map _ ?_) (Sublist.refl _)
    split
    · exact filter_sublist
    · exact Sublist.refl _

/-- Every file that holds the key is reached, lower levels first and newer epochs first in level 0. -/
theorem filePicker_spec {s : InstallState K} (key : K) {sequence : ℕ} (apart : KeysApart s.files)
    (bounded : ∀ file ∈ s.files, file.2.smallest ≤ file.2.largest) (levels : ∀ file ∈ s.files, file.1 < s.numLevels)
    (visible : ∀ file ∈ s.files, file.2.largest.packed ≤ sequence * 256 + 1) :
    ∃ picked, s.filePicker key sequence = some picked ∧ (∀ file ∈ picked, file ∈ s.files) ∧
      (∀ file ∈ s.files, file.2.Holds key → file ∈ picked) ∧ picked.Pairwise fun f g => f.2.Holds key → g.2.Holds key →
        f.1 < g.1 ∨ f.1 = g.1 ∧ FileMetaData.newestFirstByEpochNumber g.2 f.2 = false := by
  have consistent : ∀ (level : ℕ) content, 0 < level →
      ((List.range s.numLevels).map (levelFiles s.files))[level]? = some content → LevelConsistent content := by
    intro level content deep found
    obtain ⟨inside, eq⟩ := List.getElem?_eq_some_iff.mp found
    rw [getElem_map, getElem_range] at eq
    exact eq ▸ levelFiles_consistent bounded apart deep.ne'
  have reach : LooksUpEverywhere false ((List.range s.numLevels).map (levelFiles s.files))
    ⟨key, sequence, .valuePreferredSeqno⟩ := pickFiles_reaches consistent
  obtain ⟨picked, run, -, reaches⟩ := reach
  have exact := (picker_exact _ ⟨key, sequence, .valuePreferredSeqno⟩ consistent).1
  rw [run] at exact
  have sublist := levelByLevel_sublist
    (List.filter fun file => file.Holds key ∧ (⟨key, sequence, .valuePreferredSeqno⟩ : EntryKey K) ≤ file.largest)
    (levelFiles s.files) s.numLevels key
  rw [← Option.some.inj exact] at sublist
  refine ⟨picked, run, ?_, ?_, Pairwise.sublist sublist (pairwise_flatMap.mpr ⟨?_, ?_⟩)⟩
  · intro file mem
    obtain ⟨level, -, inLevel⟩ := mem_flatMap.mp (sublist.subset mem)
    obtain ⟨data, inContent, rfl⟩ := mem_map.mp inLevel
    split at inContent
    next zero => exact zero ▸ mem_levelFiles.mp inContent
    next => exact mem_levelFiles.mp (mem_filter.mp inContent).1
  · intro file mem holds
    have found : ((List.range s.numLevels).map (levelFiles s.files))[file.1]? = some (levelFiles s.files file.1) := by
      simp [levels file mem]
    refine reaches file.1 _ file.2 found (mem_levelFiles.mpr mem) holds (.inr (internalKey_le.mpr ?_))
    have newer := visible file mem
    refine holds.2.lt_or_eq.imp id fun eq => ⟨eq, newer.trans ?_⟩
    simp only [EntryKey.packed, ValueType.code]
    omega
  · intro level _
    rw [pairwise_map]
    split
    next zero =>
      subst zero
      refine (sortBy_sorted fileOrder_byEpochNumber.comparator _).imp fun order _ _ => ?_
      exact .inr ⟨rfl, order⟩
    next deep =>
      refine ((levelFiles_apart apart deep).filter _).imp fun separate inF inG => ?_
      exact absurd ⟨inF, inG⟩ (separate key)
  · refine pairwise_lt_range.imp fun {i j} lt f inF g inG _ _ => ?_
    obtain ⟨_, -, rfl⟩ := mem_map.mp inF
    obtain ⟨_, -, rfl⟩ := mem_map.mp inG
    exact .inl lt

end VcompProof
