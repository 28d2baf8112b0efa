import Vcomp.Flush.Batches
import Vcomp.Foundation.Transition

namespace VcompProof.Flush

open VcompModel.Flush List

/-- Memtables leave in order, the edit of an installed batch is logged once and not before older ones, and the counters
are exact. -/
structure InstalledInOrder (s : System) : Prop where
  leaves : s.left.map (·.ident) ++ s.list.memlist.map (·.ident) = List.range s.added
  once : ∀ m ∈ s.left, (m.fileNumber, true) ∈ s.installs → s.manifest.countP (some m.fileNumber ∈ ·) = 1
  ordered : ∀ (i j : ℕ) (a b : MemTable), i < j → s.left[i]? = some a → s.left[j]? = some b →
    (a.fileNumber, true) ∈ s.installs → (b.fileNumber, true) ∈ s.installs →
      ∀ (k : ℕ) (edits : List (Option ℕ)), s.manifest[k]? = some edits → some b.fileNumber ∈ edits →
        ∃ k' ≤ k, ∃ edits', s.manifest[k']? = some edits' ∧ some a.fileNumber ∈ edits'
  counted : s.list.numFlushNotStarted = s.list.memlist.countP (!·.flushInProgress)
  needed : s.list.immFlushNeeded = true ↔ 0 < s.list.numFlushNotStarted

def Possible (s : System) : Call → Prop
  | .add _ => True
  | .pickMemTable _ fileNumber => s.nextFileNumber ≤ fileNumber
  | .rollback job _ => job ∈ s.jobs
  | .tryInstall job _ => job ∈ s.jobs
  | .manifestWriteCb _ => ∃ n edits, s.commit = some (.logAndApply n edits)
  | .logAndApplyReturns => ∃ ok, s.commit = some (.applied ok)

/-- A commit without `write_edits` finds no memtable whose flush is to be logged. -/
def KeepsEdits (s : System) : Call → Prop
  | .tryInstall job false => s.list.commitInProgress = false →
      ∀ m ∈ (s.install job false).list.memtablesToFlush, (m.fileNumber, true) ∉ s.installs
  | _ => True

section

variable {α β : Type*} {lists : List (List α)} {list : List α}

theorem countP_mem_eq_one [BEq α] [LawfulBEq α] {x : α} (nodup : lists.flatten.Nodup) (mem : x ∈ lists.flatten) :
    lists.countP (x ∈ ·) = 1 := by
  induction lists with
  | nil => cases mem
  | cons list lists ih =>
    rw [flatten_cons, nodup_append] at nodup
    obtain ⟨-, rest, apart⟩ := nodup
    rw [countP_cons]
    by_cases here : x ∈ list
    · have none : lists.countP (x ∈ ·) = 0 := by
        rw [countP_eq_zero]
        intro other inside found
        exact apart x here x (mem_flatten.mpr ⟨other, inside, by simpa using found⟩) rfl
      simp [here, none]
    · rw [flatten_cons, mem_append] at mem
      simp [here, ih rest (mem.resolve_left here)]

theorem flatten_order {before after : List α} {x y : α} (nodup : lists.flatten.Nodup)
    (split : lists.flatten = before ++ x :: after) (later : y ∈ x :: after) {k : ℕ}
    (here : lists[k]? = some list) (mem : y ∈ list) : ∃ k' ≤ k, ∃ list', lists[k']? = some list' ∧ x ∈ list' := by
  have parts : lists.flatten = (lists.take (k + 1)).flatten ++ (lists.drop (k + 1)).flatten := by
    rw [← flatten_append, take_append_drop]
  have early : y ∈ (lists.take (k + 1)).flatten := by
    refine mem_flatten.mpr ⟨list, ?_, mem⟩
    exact mem_of_getElem? (i := k) (by rw [getElem?_take_of_lt (Nat.lt_succ_self k), here])
  by_cases inside : x ∈ (lists.take (k + 1)).flatten
  · obtain ⟨list', found, member'⟩ := mem_flatten.mp inside
    obtain ⟨k', at_k'⟩ := mem_iff_getElem?.mp found
    have bound : k' < k + 1 := by
      have short := (List.getElem?_eq_some_iff.mp at_k').1
      rw [List.length_take] at short
      omega
    exact ⟨k', by omega, list', by rwa [List.getElem?_take_of_lt bound] at at_k', member'⟩
  · rw [split] at parts nodup
    rw [nodup_append] at nodup
    rcases append_eq_append_iff.mp parts with ⟨more, taken, rest⟩ | ⟨more, taken, -⟩
    · cases more with
      | nil =>
        rw [append_nil] at taken
        exact absurd rfl (nodup.2.2 y (taken ▸ early) y later)
      | cons z more =>
        rw [cons_append, List.cons.injEq] at rest
        rw [taken, rest.1] at inside
        exact absurd (mem_append_right _ mem_cons_self) inside
    · refine absurd rfl (nodup.2.2 y ?_ y later)
      rw [taken]
      exact mem_append_left _ early

theorem flatMap_order {f : α → List β} {i j : ℕ} {a b : β} (order : i < j) (at_i : (list.flatMap f)[i]? = some a)
    (at_j : (list.flatMap f)[j]? = some b) :
    ∃ before x after, list = before ++ x :: after ∧ a ∈ f x ∧ ∃ y ∈ x :: after, b ∈ f y := by
  induction list generalizing i j with
  | nil => cases at_i
  | cons x list ih =>
    rw [flatMap_cons] at at_i at_j
    by_cases here : i < (f x).length
    · rw [getElem?_append_left here] at at_i
      have mem : b ∈ f x ++ list.flatMap f := mem_of_getElem? at_j
      refine ⟨[], x, list, rfl, mem_of_getElem? at_i, ?_⟩
      rcases mem_append.mp mem with inside | inside
      · exact ⟨x, mem_cons_self, inside⟩
      · obtain ⟨y, inside, mem⟩ := mem_flatMap.mp inside
        exact ⟨y, mem_cons_of_mem _ inside, mem⟩
    · rw [getElem?_append_right (by omega)] at at_i at_j
      obtain ⟨before, y, after, split, mem, later⟩ := ih (by omega) at_i at_j
      exact ⟨x :: before, y, after, congrArg (x :: ·) split, mem, later⟩

end

/-- The groups under commit, then the other batches; `gone` left, each with whether its edit was logged. -/
structure Represents (s : System) (gone : List (Group × Bool)) (pend : List Group) (rest : List Batch) : Prop where
  memlist : s.list.memlist = tablesOf (pend.map .completed ++ rest)
  jobs : s.jobs.Perm (jobsOf rest)
  files : (gone.map (·.1.file) ++ (pend.map (·.file) ++ filesOf rest)).Nodup
  below : ∀ f ∈ gone.map (·.1.file) ++ (pend.map (·.file) ++ filesOf rest), f < s.nextFileNumber
  left : s.left = gone.flatMap (·.1.tables true)
  idents : s.left.map (·.ident) ++ identsOf (pend.map .completed ++ rest) = List.range s.added
  manifest : s.manifest.flatten = (gone.filter (·.2)).map fun g => some g.1.file
  unlogged : ∀ g ∈ gone, g.2 = false → (g.1.file, true) ∉ s.installs
  counted : s.list.numFlushNotStarted = waitingOf rest
  needed : s.list.immFlushNeeded = decide (0 < s.list.numFlushNotStarted)

def Committing (s : System) (pend : List Group) : Prop :=
  match s.commit with
  | none => pend = [] ∧ s.list.commitInProgress = false
  | some (.logAndApply n edits) =>
    n = (tablesOf (pend.map .completed)).length ∧ (edits = pend.map fun g => some g.file) ∧ s.list.commitInProgress = true
  | some (.applied _) => pend = [] ∧ s.list.commitInProgress = true

variable {s : System} {gone : List (Group × Bool)} {pend : List Group} {rest : List Batch} {s' : System}

theorem group_tables_fileNumber (g : Group) : ∀ m ∈ g.tables true, m.fileNumber = g.file := by
  simp [Group.tables, Group.table]

theorem jobs_erase {jobs : List FlushJob} {before after : List Batch} {g : Group}
    (perm : jobs.Perm (jobsOf (before ++ .running g :: after))) : (jobs.erase g.job).Perm (jobsOf (before ++ after)) := by
  have middle : (jobsOf (before ++ .running g :: after)).Perm (g.job :: jobsOf (before ++ after)) := by
    rw [jobsOf, filterMap_append, jobsOf, filterMap_append]
    exact perm_middle
  have erased := (perm.trans middle).erase g.job
  rwa [erase_cons_head] at erased

theorem file_perm {α : Type*} (gone pend before after : List α) (file : α) :
    (gone ++ (pend ++ (before ++ file :: after))).Perm (file :: (gone ++ (pend ++ (before ++ after)))) := by
  simp only [← append_assoc]
  exact perm_middle

theorem Represents.take (r : Represents s gone [] (pend.map .completed ++ rest)) : Represents s gone pend rest :=
  { r with
    jobs := by
      have jobs := r.jobs
      rwa [jobsOf_append, jobsOf_groups, nil_append] at jobs
    files := by
      have files := r.files
      rwa [filesOf_append, filesOf_groups] at files
    below := by
      have below := r.below
      rwa [filesOf_append, filesOf_groups] at below
    counted := by
      have counted := r.counted
      rwa [waitingOf_append, waitingOf_groups, zero_add] at counted }

section

variable (r : Represents s gone pend rest)
include r

theorem logged_mem {g : Group × Bool} (mem : g ∈ gone) (write : (g.1.file, true) ∈ s.installs) :
    g ∈ gone.filter (·.2) := by
  cases logged : g.2 with
  | true => exact mem_filter.mpr ⟨mem, logged⟩
  | false => exact absurd write (r.unlogged g mem logged)

theorem manifest_nodup : s.manifest.flatten.Nodup := by
  have goneFiles : (gone.map fun g => some g.1.file).Nodup := by
    have nodup := (nodup_append.mp r.files).1
    have := nodup.map (Option.some_injective ℕ)
    rwa [map_map] at this
  rw [r.manifest]
  exact goneFiles.sublist (filter_sublist.map _)

theorem Represents.countP_waiting :
    s.list.numFlushNotStarted = s.list.memlist.countP (!·.flushInProgress) := by
  have whole := waitingOf_append (pend.map .completed) rest
  rw [waitingOf_groups, zero_add] at whole
  rw [r.memlist, r.counted, ← whole]

theorem Represents.installedInOrder : InstalledInOrder s where
  leaves := by rw [r.memlist, tablesOf_idents, r.idents]
  once := by
    intro m mem write
    rw [r.left] at mem
    obtain ⟨g, inside, here⟩ := mem_flatMap.mp mem
    rw [group_tables_fileNumber g.1 m here] at write ⊢
    refine countP_mem_eq_one (manifest_nodup r) ?_
    rw [r.manifest]
    exact mem_map.mpr ⟨g, logged_mem r inside write, rfl⟩
  ordered := by
    intro i j a b order at_i at_j write write' k edits here mem
    rw [r.left] at at_i at_j
    obtain ⟨before, x, after, split, inside, y, later, inside'⟩ := flatMap_order order at_i at_j
    rw [group_tables_fileNumber _ _ inside] at write ⊢
    rw [group_tables_fileNumber _ _ inside'] at write' mem
    have logged := (mem_filter.mp (logged_mem r (by rw [split]; exact mem_append_right _ mem_cons_self) write)).2
    have logged' := (mem_filter.mp (logged_mem r (by rw [split]; exact mem_append_right _ later) write')).2
    have whole := r.manifest
    rw [split, filter_append, filter_cons_of_pos logged, map_append, map_cons] at whole
    refine flatten_order (manifest_nodup r) whole ?_ here mem
    rw [← map_cons (f := fun g : Group × Bool => some g.1.file), ← filter_cons_of_pos logged]
    exact mem_map.mpr ⟨y, mem_filter.mpr ⟨later, logged'⟩, rfl⟩
  counted := r.countP_waiting
  needed := by
    rw [r.needed]
    exact decide_eq_true_iff

theorem Represents.queue_nodup : (identsOf (pend.map .completed ++ rest)).Nodup := by
  have nodup : (s.left.map (·.ident) ++ identsOf (pend.map .completed ++ rest)).Nodup := by
    rw [r.idents]
    exact nodup_range
  exact (nodup_append.mp nodup).2.1

theorem Represents.add (id : ℕ) :
    Represents (s.add id) gone pend (rest ++ [.waiting ⟨s.added, id⟩]) where
  memlist := by
    change s.list.memlist ++ _ = _
    rw [r.memlist, ← append_assoc, tablesOf_append _ [_]]
    rfl
  jobs := by
    rw [jobsOf_append, ← map_singleton (f := Batch.waiting), jobsOf_waiting, append_nil]
    exact r.jobs
  files := by
    rw [filesOf_append, ← map_singleton (f := Batch.waiting), filesOf_waiting, append_nil]
    exact r.files
  below := by
    rw [filesOf_append, ← map_singleton (f := Batch.waiting), filesOf_waiting, append_nil]
    exact r.below
  left := r.left
  idents := by
    rw [← append_assoc, identsOf_append _ [_], ← append_assoc]
    change (s.left.map _ ++ _) ++ _ = List.range (s.added + 1)
    rw [r.idents, range_succ]
    rfl
  manifest := r.manifest
  unlogged := r.unlogged
  counted := by
    change s.list.numFlushNotStarted + 1 = _
    rw [waitingOf_append, r.counted]
    rfl
  needed := by
    change (if s.list.numFlushNotStarted + 1 = 1 then true else s.list.immFlushNeeded) =
        decide (0 < s.list.numFlushNotStarted + 1)
    have counted := r.counted
    rw [r.needed]
    split
    · simp_all
    · exact decide_eq_decide.mpr (by omega)

theorem Represents.job_split {job : FlushJob} (mem : job ∈ s.jobs) :
    ∃ before g after, rest = before ++ .running g :: after ∧ g.job = job := by
  obtain ⟨b, inside, isJob⟩ := mem_filterMap.mp (r.jobs.mem_iff.mp mem)
  obtain ⟨before, after, rfl⟩ := append_of_mem inside
  cases b with
  | waiting m => cases isJob
  | running g => exact ⟨before, g, after, rfl, Option.some.inj isJob⟩
  | completed g => cases isJob

theorem Represents.idents_of {rest' : List Batch} (eq : identsOf rest' = identsOf rest) :
    s.left.map (·.ident) ++ identsOf (pend.map .completed ++ rest') = List.range s.added := by
  rw [identsOf_append, eq, ← identsOf_append, r.idents]

theorem Represents.pickMemTable (maxMemtableId : ℕ) {fileNumber : ℕ}
    (fresh : s.nextFileNumber ≤ fileNumber) :
    ∃ rest', Represents (s.pickMemTable maxMemtableId fileNumber) gone pend rest' := by
  have counts := pickLoop_counts maxMemtableId false s.list.memlist r.countP_waiting.ge r.needed
  have skip := pickLoop_skip maxMemtableId s.list.numFlushNotStarted s.list.immFlushNeeded (tablesOf (pend.map .completed))
    (tablesOf rest) (groups_inProgress pend)
  have runs := pickLoop_queue maxMemtableId s.list.numFlushNotStarted s.list.immFlushNeeded rest
  rw [← tablesOf_append, ← r.memlist] at skip
  rw [System.pickMemTable]
  generalize pickLoop maxMemtableId false s.list.numFlushNotStarted s.list.immFlushNeeded s.list.memlist =
    picked at counts skip ⊢
  generalize pickLoop maxMemtableId false s.list.numFlushNotStarted s.list.immFlushNeeded (tablesOf rest) = tail at skip runs
  obtain ⟨memlist, ret, num, needed⟩ := picked
  obtain ⟨counted, exact⟩ := counts
  have nothing (none : ret = []) (eq : memlist = s.list.memlist) :
      ∃ rest', Represents { s with list := ⟨memlist, num, needed, s.list.commitInProgress⟩ } gone pend rest' := by
    subst none eq
    dsimp only [length_nil] at counted
    exact ⟨rest, { r with counted := by rw [← r.counted, counted]; simp, needed := exact }⟩
  rcases skip with ⟨eq, none⟩ | ⟨eq, picks⟩
  · obtain rfl : ret = [] := none
    exact nothing rfl eq
  rcases runs with ⟨kept, none⟩ | ⟨before, first, mems, after, split, tables, run⟩
  · obtain rfl : ret = [] := picks.trans none
    exact nothing rfl (eq.trans (by rw [kept, r.memlist, tablesOf_append]))
  obtain rfl : ret = first.ident :: mems.map (·.ident) := picks.trans run
  have nodup := r.queue_nodup
  rw [split, ← append_assoc, ← append_assoc] at nodup
  have started := start_group ⟨fileNumber, first, mems⟩ nodup
  have placed : memlist = tablesOf (pend.map .completed ++ before) ++ (first :: mems).map Mem.started ++ tablesOf after := by
    refine eq.trans ?_
    rw [tables, tablesOf_append, ← append_assoc, ← append_assoc]
  rw [Group.mems, ← placed, append_assoc] at started
  have files := r.files
  have lt := r.below
  have jobs := r.jobs
  have old := r.counted
  rw [split, filesOf_append, filesOf_append, filesOf_waiting, append_nil] at files lt
  rw [split, jobsOf_append, jobsOf_append, jobsOf_waiting, append_nil] at jobs
  rw [split] at old
  refine ⟨before ++ .running ⟨fileNumber, first, mems⟩ :: after, started, ?_, ?_, ?_, r.left, ?_, r.manifest,
    r.unlogged, ?_, exact⟩
  · rw [jobsOf_append]
    exact (jobs.append_right _).trans ((perm_append_singleton _ _).trans perm_middle.symm)
  · rw [filesOf_append]
    refine (file_perm _ _ _ _ fileNumber).nodup_iff.mpr (nodup_cons.mpr ⟨fun inside => ?_, files⟩)
    have := lt _ inside
    omega
  · intro f mem
    rw [filesOf_append] at mem
    change f < fileNumber + 1
    rcases mem_cons.mp ((file_perm _ _ _ _ fileNumber).mem_iff.mp mem) with rfl | inside
    · omega
    · have := lt _ inside
      omega
  · refine r.idents_of ?_
    rw [split, identsOf_append, identsOf_append, identsOf_append, identsOf_waiting, append_assoc]
    exact congrArg (identsOf before ++ ·) (map_append ..)
  · change num = _
    refine counted.trans ?_
    rw [old]
    simp only [waitingOf_append, waitingOf_waiting, waitingOf_running, length_cons, length_map]
    omega

theorem Represents.rollback {job : FlushJob} (mem : job ∈ s.jobs) (flag : Bool) :
    ∃ rest', Represents (s.rollback job flag) gone pend rest' := by
  obtain ⟨before, g, after, rfl, rfl⟩ := r.job_split mem
  have nodup := r.queue_nodup
  have memlist := r.memlist
  rw [← append_assoc] at nodup memlist
  obtain ⟨after', rolled, idents, jobs, files⟩ := rollbackAfter_running nodup flag
  have nodup' : (identsOf ((pend.map .completed ++ before) ++ .running g :: after')).Nodup := by
    rw [identsOf_append, identsOf_cons] at nodup ⊢
    rwa [idents]
  have list' : (s.rollback g.job flag).list.memlist =
      tablesOf (pend.map .completed ++ (before ++ (g.mems.map .waiting ++ after'))) := by
    rw [← append_assoc, ← reset_group nodup', ← rolled, ← memlist]
    rfl
  have waits : (s.rollback g.job flag).list.numFlushNotStarted = waitingOf (before ++ (g.mems.map .waiting ++ after')) := by
    have flagged : Flagged s.list.memlist := r.memlist ▸ tablesOf_flagged _
    have first := rollbackAfter_counts flagged g.job.mems flag
    have second := reset_counts (rollbackAfter g.job.mems flag s.list.memlist).1
      (fun m => decide (m.ident ∈ g.job.mems) && m.flushInProgress) (by simp)
    have whole : waitingOf (pend.map .completed ++ (before ++ (g.mems.map .waiting ++ after'))) =
        waitingOf (before ++ (g.mems.map .waiting ++ after')) := by
      rw [waitingOf_append, waitingOf_groups, zero_add]
    rw [← whole, waitingOf, ← list']
    refine Eq.trans ?_ (congrArg Nat.cast second.symm)
    rw [first]
    change s.list.numFlushNotStarted + _ + _ = _
    rw [r.countP_waiting]
    rfl
  have older := r.files
  have lt := r.below
  rw [filesOf_append] at older lt
  have fewer : (filesOf (before ++ (g.mems.map .waiting ++ after'))).Sublist
      (filesOf before ++ filesOf (.running g :: after)) := by
    rw [filesOf_append, filesOf_append, filesOf_waiting]
    exact (files.cons g.file).append_left _
  refine ⟨_, list', ?_, older.sublist ((fewer.append_left _).append_left _), ?_, r.left, r.idents_of ?_,
    r.manifest, r.unlogged,
    waits, ?_⟩
  · have erased := jobs_erase r.jobs
    rw [jobsOf_append, ← jobs] at erased
    rw [jobsOf_append, jobsOf_append, jobsOf_waiting]
    exact erased
  · intro f inside
    exact lt f (((fewer.append_left _).append_left _).subset inside)
  · rw [identsOf_append, identsOf_append, identsOf_append, identsOf_cons, identsOf_waiting, idents]
    rfl
  · rw [waits]
    refine (decide_eq_true ?_).symm
    rw [waitingOf_append, waitingOf_append, waitingOf_waiting, Group.mems, length_cons]
    omega

theorem Represents.install {job : FlushJob} (mem : job ∈ s.jobs) (writeEdits : Bool) :
    ∃ rest', Represents (s.install job writeEdits) gone pend rest' := by
  obtain ⟨before, g, after, rfl, rfl⟩ := r.job_split mem
  have nodup := r.queue_nodup
  have memlist := r.memlist
  rw [← append_assoc] at nodup memlist
  have eq : filesOf (before ++ .completed g :: after) = filesOf (before ++ .running g :: after) := by
    rw [filesOf_append, filesOf_append]
    rfl
  refine ⟨before ++ .completed g :: after, ?_, ?_, ?_, ?_, r.left, r.idents_of ?_, r.manifest, ?_, ?_, r.needed⟩
  · rw [← append_assoc, ← complete_group nodup, ← memlist]
    rfl
  · rw [jobsOf_append]
    have erased := jobs_erase r.jobs
    rwa [jobsOf_append] at erased
  · rw [eq]
    exact r.files
  · rw [eq]
    exact r.below
  · rw [identsOf_append, identsOf_append, identsOf_cons, identsOf_cons]
    rfl
  · intro left inside unlogged installed
    rcases mem_append.mp installed with old | new
    · exact r.unlogged left inside unlogged old
    · have file : left.1.file = g.file := congrArg Prod.fst (mem_singleton.mp new)
      refine (nodup_append.mp r.files).2.2 _ (mem_map_of_mem inside) g.file ?_ file
      rw [filesOf_append]
      exact mem_append_right _ (mem_append_right _ mem_cons_self)
  · rw [waitingOf_append, waitingOf_completed, ← waitingOf_running g after, ← waitingOf_append]
    exact r.counted

theorem Represents.remove (logged : Bool)
    (dropped : s'.list = { s.list with memlist := tablesOf rest, commitInProgress := s'.list.commitInProgress })
    (eq : s'.jobs = s.jobs ∧ s'.nextFileNumber = s.nextFileNumber ∧ s'.added = s.added ∧ s'.installs = s.installs)
    (left : s'.left = s.left ++ tablesOf (pend.map .completed))
    (manifest : s'.manifest.flatten = s.manifest.flatten ++ if logged then pend.map fun g => some g.file else [])
    (unlogged : logged = false → ∀ g ∈ pend, (g.file, true) ∉ s.installs) :
    Represents s' (gone ++ pend.map (·, logged)) [] rest := by
  obtain ⟨jobs, next, added, installs⟩ := eq
  have files : (gone ++ pend.map (·, logged)).map (·.1.file) = gone.map (·.1.file) ++ pend.map (·.file) := by
    rw [map_append, map_map]
    rfl
  refine ⟨by rw [dropped]; rfl, by rw [jobs]; exact r.jobs, ?_, ?_, ?_, ?_, ?_, ?_, by rw [dropped]; exact r.counted,
    by rw [dropped]; exact r.needed⟩
  · rw [files, map_nil, nil_append, append_assoc]
    exact r.files
  · rw [files, map_nil, nil_append, append_assoc, next]
    exact r.below
  · rw [left, r.left, flatMap_append, flatMap_map, tablesOf, flatMap_map]
    rfl
  · rw [left, added, map_append, tablesOf_idents, append_assoc, map_nil, nil_append, ← identsOf_append]
    exact r.idents
  · rw [manifest, r.manifest, filter_append, map_append, filter_map]
    cases logged with
    | true => simp [Function.comp_def]
    | false => simp [Function.comp_def]
  · intro g inside no
    rw [installs]
    rcases mem_append.mp inside with old | new
    · exact r.unlogged g old no
    · obtain ⟨h, mem, rfl⟩ := mem_map.mp new
      exact unlogged no h mem

theorem Represents.restore
    (list : s'.list = { s.list.removeMemTablesOrRestoreFlags false (tablesOf (pend.map .completed)).length with
      commitInProgress := s'.list.commitInProgress })
    (eq : s'.jobs = s.jobs ∧ s'.nextFileNumber = s.nextFileNumber ∧ s'.added = s.added ∧ s'.installs = s.installs ∧
      s'.left = s.left ∧ s'.manifest = s.manifest) :
    Represents s' gone [] ((pend.flatMap Group.mems).map .waiting ++ rest) := by
  obtain ⟨jobs, next, added, installs, left, manifest⟩ := eq
  have length : (tablesOf (pend.map .completed)).length = (pend.flatMap Group.mems).length := by
    rw [← length_map (·.reset), groups_reset, tablesOf_waiting, length_map]
  have waits : s'.list.numFlushNotStarted = waitingOf ((pend.flatMap Group.mems).map .waiting ++ rest) := by
    rw [list, waitingOf_append, waitingOf_waiting]
    change s.list.numFlushNotStarted + ((tablesOf (pend.map .completed)).length : ℤ) = _
    rw [r.counted, length]
    omega
  have fewer : (filesOf ((pend.flatMap Group.mems).map .waiting ++ rest)).Sublist (pend.map (·.file) ++ filesOf rest) := by
    rw [filesOf_append, filesOf_waiting, nil_append]
    exact sublist_append_right _ _
  refine ⟨?_, ?_, r.files.sublist (fewer.append_left _), ?_, left.trans r.left, ?_, by rw [manifest]; exact r.manifest,
    by rw [installs]; exact r.unlogged, waits, ?_⟩
  · rw [list]
    change (s.list.memlist.take _).map _ ++ s.list.memlist.drop _ = _
    rw [r.memlist, tablesOf_append, take_left, drop_left, groups_reset, map_nil, nil_append, tablesOf_append]
  · rw [jobs, jobsOf_append, jobsOf_waiting, nil_append]
    exact r.jobs
  · intro f inside
    rw [next]
    exact r.below f ((fewer.append_left _).subset inside)
  · rw [left, added, map_nil, nil_append, identsOf_append, identsOf_waiting, ← identsOf_groups, ← identsOf_append]
    exact r.idents
  · rw [waits, waitingOf_append, waitingOf_waiting, list]
    change (if (tablesOf (pend.map .completed)).length = 0 then s.list.immFlushNeeded else true) = _
    rw [length]
    split
    next zero =>
      rw [zero, zero_add, r.needed, r.counted]
    next some => exact (decide_eq_true (by omega)).symm

end

section

variable (r : Represents s gone [] rest)
include r

theorem Represents.toFlush : s.list.memtablesToFlush = tablesOf ((ready rest).map .completed) := by
  rw [MemTableList.memtablesToFlush, r.memlist]
  exact takeWhile_completed rest

theorem Represents.commitRound (busy : s.list.commitInProgress = true) :
    ∃ pend' rest', Represents s.commitRound gone pend' rest' ∧ Committing s.commitRound pend' := by
  have flush := r.toFlush
  obtain ⟨rest', split, -⟩ := ready_split rest
  have taken : Represents s gone (ready rest) rest' := Represents.take (split ▸ r)
  have edits := editList_groups (ready rest) none (fun _ _ => nofun)
    ((nodup_append.mp (nodup_append.mp taken.files).2.1).1)
  rw [← flush] at edits
  rw [System.commitRound]
  cases found : s.list.memtablesToFlush with
  | nil => exact ⟨[], rest, { r with }, rfl, rfl⟩
  | cons m more =>
    rw [found] at flush edits
    refine ⟨ready rest, rest', { taken with }, ?_, edits, busy⟩
    rw [← flush]
    rfl

theorem Represents.commitUnlogged : ∃ rest', rest = (ready rest).map .completed ++ rest' ∧
      s.commitUnlogged (s.list.memlist.length + 1) =
        { s with
          list := { s.list with memlist := tablesOf rest', commitInProgress := false }
          commit := none
          left := s.left ++ tablesOf ((ready rest).map .completed) } := by
  have flush := r.toFlush
  obtain ⟨rest', split, ends⟩ := ready_split rest
  have whole : s.list.memlist = tablesOf ((ready rest).map .completed) ++ tablesOf rest' := by
    rw [← tablesOf_append, ← split]
    exact r.memlist
  refine ⟨rest', split, ?_⟩
  rw [System.commitUnlogged]
  cases found : s.list.memtablesToFlush with
  | nil =>
    rw [found] at flush
    rw [← flush, nil_append] at whole
    rw [← flush, ← whole, append_nil]
  | cons m more =>
    rw [found] at flush
    rw [← flush] at whole ⊢
    have last : (tablesOf rest').takeWhile (·.flushCompleted) = [] := by
      rw [takeWhile_completed, ends]
      rfl
    have dropped : s.list.memlist.drop (more.length + 1) = tablesOf rest' := by
      rw [whole]
      exact drop_left
    have removed : s.list.removeMemTablesOrRestoreFlags true (more.length + 1) =
        { s.list with memlist := tablesOf rest' } := by
      rw [MemTableList.removeMemTablesOrRestoreFlags, if_pos rfl, dropped]
    have fuel : s.list.memlist.length = (more ++ tablesOf rest').length + 1 := by
      rw [whole]
      rfl
    dsimp only
    rw [removed, fuel, System.commitUnlogged]
    simp [MemTableList.memtablesToFlush, last]

end

section

variable {job : FlushJob}

/-- The flags stand for batches, and the committing thread holds the oldest. -/
def Batched (s : System) : Prop := ∃ gone pend rest, Represents s gone pend rest ∧ Committing s pend

theorem Batched.initial : Batched System.initial :=
  ⟨[], [], [], ⟨rfl, .refl _, .nil, nofun, rfl, rfl, rfl, nofun, rfl, rfl⟩, rfl, rfl⟩

theorem Committing.of_eq (committing : Committing s pend) (commit : s'.commit = s.commit)
    (busy : s'.list.commitInProgress = s.list.commitInProgress) : Committing s' pend := by
  unfold Committing
  rw [commit, busy]
  exact committing

theorem Committing.idle (committing : Committing s pend) (idle : s.list.commitInProgress = false) :
    pend = [] ∧ s.commit = none := by
  unfold Committing at committing
  rw [idle] at committing
  split at committing
  next none => exact ⟨committing.1, none⟩
  next => cases committing.2.2
  next => cases committing.2

section

variable (batched : Batched s)
include batched

theorem Batched.tryInstall (mem : job ∈ s.jobs) {writeEdits : Bool}
    (logs : writeEdits = true ∨ s.list.commitInProgress = true) : Batched (s.tryInstall job writeEdits) := by
  obtain ⟨gone, pend, rest, r, committing⟩ := batched
  obtain ⟨rest', marked⟩ := r.install mem writeEdits
  rw [System.tryInstall]
  split
  next => exact ⟨gone, pend, rest', marked, committing.of_eq rfl rfl⟩
  next idle =>
    obtain rfl := logs.resolve_right idle
    obtain ⟨rfl, -⟩ := committing.idle (Bool.not_eq_true _ ▸ idle)
    rw [if_pos rfl]
    have started : Represents { s.install job true with list := { (s.install job true).list with commitInProgress := true } }
        gone [] rest' := { marked with }
    exact ⟨gone, started.commitRound rfl⟩

theorem tryInstall_unlogged (mem : job ∈ s.jobs) (idle : s.list.commitInProgress = false) :
    ∃ gone pend rest, Represents (s.install job false) gone pend rest ∧
      (s.install job false).list.memtablesToFlush = tablesOf (pend.map .completed) ∧
      s.tryInstall job false =
        { s.install job false with
          list := { (s.install job false).list with memlist := tablesOf rest, commitInProgress := false }
          commit := none
          left := s.left ++ tablesOf (pend.map .completed) } := by
  obtain ⟨gone, pend, rest, r, committing⟩ := batched
  obtain ⟨rfl, -⟩ := committing.idle idle
  obtain ⟨rest', marked⟩ := r.install mem false
  have flush := marked.toFlush
  have started : Represents { s.install job false with list := { (s.install job false).list with commitInProgress := true } }
      gone [] rest' := { marked with }
  obtain ⟨rest'', split, result⟩ := started.commitUnlogged
  refine ⟨gone, ready rest', rest'', Represents.take (split ▸ marked), flush, ?_⟩
  have quiet : (s.install job false).list.commitInProgress = false := idle
  rw [System.tryInstall, if_neg (by rw [quiet]; exact Bool.false_ne_true), if_neg Bool.false_ne_true, result]
  rfl

theorem Batched.step {call : Call} (possible : Possible s call) (keeps : KeepsEdits s call) :
    Batched (s.step call) := by
  obtain ⟨gone, pend, rest, r, committing⟩ := batched
  cases call with
  | add id =>
    exact ⟨gone, pend, _, r.add id, committing.of_eq rfl rfl⟩
  | pickMemTable maxMemtableId fileNumber =>
    obtain ⟨rest', r'⟩ := r.pickMemTable maxMemtableId possible
    refine ⟨gone, pend, rest', r', committing.of_eq ?_ ?_⟩
    · unfold System.step System.pickMemTable
      dsimp only
      split <;> rfl
    · unfold System.step System.pickMemTable
      dsimp only
      split <;> rfl
  | rollback job flag =>
    obtain ⟨rest', r'⟩ := r.rollback possible flag
    exact ⟨gone, pend, rest', r', committing.of_eq rfl rfl⟩
  | tryInstall job writeEdits =>
    have batched : Batched s := ⟨gone, pend, rest, r, committing⟩
    cases writeEdits with
    | true => exact batched.tryInstall possible (.inl rfl)
    | false =>
      cases busy : s.list.commitInProgress with
      | true => exact batched.tryInstall possible (.inr busy)
      | false =>
        obtain ⟨gone, pend, rest, r, flush, result⟩ := tryInstall_unlogged batched possible busy
        rw [System.step, result]
        refine ⟨gone ++ pend.map (·, false), [], rest, ?_, rfl, rfl⟩
        refine r.remove false rfl ⟨rfl, rfl, rfl, rfl⟩ rfl (append_nil _).symm ?_
        intro _ g inside installed
        have first : g.table true (some g.file) g.first ∈ tablesOf (pend.map .completed) :=
          mem_flatMap.mpr ⟨_, mem_map_of_mem inside, mem_cons_self⟩
        refine keeps busy _ (flush ▸ first) ?_
        exact (mem_append.mp installed).resolve_right (by simp)
  | manifestWriteCb ok =>
    obtain ⟨n, edits, logging⟩ := possible
    unfold Committing at committing
    rw [logging] at committing
    obtain ⟨rfl, rfl, busy⟩ := committing
    have result : s.step (.manifestWriteCb ok) = s.manifestWriteCb ok := rfl
    rw [System.manifestWriteCb, logging] at result
    rw [result]
    cases ok with
    | true =>
      refine ⟨gone ++ pend.map (·, true), [], rest, r.remove true ?_ ⟨rfl, rfl, rfl, rfl⟩ ?_ ?_ nofun, rfl, busy⟩
      · dsimp only
        rw [MemTableList.removeMemTablesOrRestoreFlags, if_pos rfl, r.memlist, tablesOf_append, drop_left]
      · dsimp only
        rw [if_pos rfl, r.memlist, tablesOf_append, take_left]
      · dsimp only
        rw [if_pos rfl, if_pos rfl, flatten_append, flatten_singleton]
    | false => exact ⟨gone, [], _, r.restore rfl ⟨rfl, rfl, rfl, rfl, rfl, rfl⟩, rfl, busy⟩
  | logAndApplyReturns =>
    obtain ⟨ok, applied⟩ := possible
    unfold Committing at committing
    rw [applied] at committing
    obtain ⟨rfl, busy⟩ := committing
    have result : s.step .logAndApplyReturns = s.logAndApplyReturns := rfl
    rw [System.logAndApplyReturns, applied] at result
    cases ok with
    | true =>
      rw [result]
      exact ⟨gone, r.commitRound busy⟩
    | false =>
      rw [result]
      exact ⟨gone, [], rest, { r with }, rfl, rfl⟩

theorem keepsEdits_of_installedInOrder (mem : job ∈ s.jobs)
    (order : InstalledInOrder (s.tryInstall job false)) : KeepsEdits s (.tryInstall job false) := by
  intro idle m flushed installed
  obtain ⟨gone, pend, rest, r, flush, result⟩ := tryInstall_unlogged batched mem idle
  rw [flush] at flushed
  have counted := order.once m (by rw [result]; exact mem_append_right _ flushed)
    (by rw [result]; exact mem_append_left _ installed)
  rw [result] at counted
  obtain ⟨edits, logged, found⟩ := countP_pos_iff.mp (counted.symm ▸ Nat.one_pos)
  have inLog : some m.fileNumber ∈ (s.install job false).manifest.flatten :=
    mem_flatten.mpr ⟨edits, logged, of_decide_eq_true found⟩
  rw [r.manifest] at inLog
  obtain ⟨g, inside, file⟩ := mem_map.mp inLog
  obtain ⟨b, batch, here⟩ := mem_flatMap.mp flushed
  obtain ⟨h, pending, rfl⟩ := mem_map.mp batch
  -- its file belongs to a group that is still listed
  refine (nodup_append.mp r.files).2.2 g.1.file (mem_map_of_mem (mem_filter.mp inside).1) h.file
    (mem_append_left _ (mem_map_of_mem pending)) ?_
  rw [Option.some.inj file, group_tables_fileNumber h m here]

end

abbrev Flushes (allowed : System → Call → Prop) : System → Prop :=
  Transition.Reachable (· = System.initial) (fun s call s' => s.step call = s') allowed

theorem flushes_batched (reach : Flushes (fun s call => Possible s call ∧ KeepsEdits s call) s) : Batched s := by
  refine reach.invariant ?_ ?_
  · rintro _ rfl
    exact Batched.initial
  · rintro s call _ - batched ⟨possible, keeps⟩ rfl
    exact batched.step possible keeps

/-- Memtables leave from the oldest, with exact counters and edits logged once and in order, until a call without
`write_edits` commits the flush of a call with it. -/
theorem installedInOrder_iff_keepsEdits {s : System} (reach : Flushes (fun s call => Possible s call ∧ KeepsEdits s call) s) :
    InstalledInOrder s ∧ ∀ call, Possible s call → (InstalledInOrder (s.step call) ↔ KeepsEdits s call) := by
  have batched := flushes_batched reach
  refine ⟨?_, fun call possible => ⟨fun order => ?_, fun keeps => ?_⟩⟩
  · obtain ⟨gone, pend, rest, r, -⟩ := batched
    exact r.installedInOrder
  · cases call with
    | tryInstall job writeEdits =>
      cases writeEdits with
      | true => trivial
      | false => exact keepsEdits_of_installedInOrder batched possible order
    | _ => trivial
  · obtain ⟨gone, pend, rest, r, -⟩ := batched.step possible keeps
    exact r.installedInOrder

def twoFlushes : List Call :=
  [.add 1, .pickMemTable 1 2, .add 2, .pickMemTable 2 3, .tryInstall ⟨[1], 3⟩ true]

theorem installedInOrder_iff_keepsEdits_two :
    ∃ s, Flushes (fun s call => Possible s call ∧ KeepsEdits s call) s ∧ InstalledInOrder s ∧
      s.jobs = [⟨[0], 2⟩] ∧ s.list.memlist.map (·.flushCompleted) = [false, true] := by
  have reach : Flushes (fun s call => Possible s call ∧ KeepsEdits s call) (twoFlushes.foldl System.step System.initial) := by
    refine .next (e := .tryInstall ⟨[1], 3⟩ true) (.next (e := .pickMemTable 2 3) (.next (e := .add 2)
      (.next (e := .pickMemTable 1 2) (.next (e := .add 1) (.start rfl) ?_ rfl) ?_ rfl) ?_ rfl) ?_ rfl) ?_ rfl
    · exact ⟨trivial, trivial⟩
    · exact ⟨by unfold Possible; decide, trivial⟩
    · exact ⟨trivial, trivial⟩
    · exact ⟨by unfold Possible; decide, trivial⟩
    · exact ⟨by unfold Possible; decide, trivial⟩
  exact ⟨_, reach, (installedInOrder_iff_keepsEdits reach).1, by decide, by decide⟩

/-- The older job ends in a mempurge: the newer memtable leaves with it, its edit unlogged. -/
theorem mempurge_drops_edit :
    ∃ s, Flushes Possible s ∧ s.left.map (·.fileNumber) = [2, 3] ∧ (3, true) ∈ s.installs ∧ s.manifest = [] ∧
      ¬InstalledInOrder s := by
  have reach : Flushes Possible
      ((twoFlushes ++ [Call.add 1, Call.tryInstall ⟨[0], 2⟩ false]).foldl System.step System.initial) := by
    refine .next (e := .tryInstall ⟨[0], 2⟩ false) (.next (e := .add 1) (.next (e := .tryInstall ⟨[1], 3⟩ true)
      (.next (e := .pickMemTable 2 3) (.next (e := .add 2) (.next (e := .pickMemTable 1 2) (.next (e := .add 1) (.start rfl)
      ?_ rfl) ?_ rfl) ?_ rfl) ?_ rfl) ?_ rfl) ?_ rfl) ?_ rfl
    all_goals
      unfold Possible
      decide
  refine ⟨_, reach, by decide, by decide, by decide, fun order => ?_⟩
  have once := order.once ⟨1, 2, true, true, 3, some 3⟩ (by decide) (by decide)
  revert once
  decide

end

end VcompProof.Flush
