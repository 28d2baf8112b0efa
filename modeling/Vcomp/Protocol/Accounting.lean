import Vcomp.Protocol.Registry

namespace VcompModel

variable {n : ℕ}

inductive Counter where
  | files
  | bytes

def Counter.weight : Counter → VersionFile → ℕ
  | .files, _ => 1
  | .bytes, file => file.size

def Counter.visible : Counter → State n → ℕ
  | .files, s => s.visibleFiles
  | .bytes, s => s.visibleBytes

def Counter.input : Counter → CommitRequest → ℕ
  | .files, r => r.l0InputFiles
  | .bytes, r => r.l0InputBytes

def Counter.output : Counter → CommitRequest → ℕ
  | .files, r => r.l0OutputFiles
  | .bytes, r => r.l0OutputBytes

def Counter.level0 (k : Counter) (files : List VersionFile) : ℕ :=
  ((files.filter fun file => file.virtual && file.level = 0).map k.weight).sum

def Counter.batch (k : Counter) (batch : List VirtualL0WindowFile) : ℕ :=
  ((batch.map (·.versionFile)).map k.weight).sum

/-- What a thread has changed in the Versions and not yet in the counter. -/
def Counter.owed (k : Counter) (requests : ℕ → CommitRequest) : Pc → ℤ
  | .refillLogged _ _ batch true => k.batch batch
  | .leaderLogged _ _ commitBatch true => (commitBatch.map fun id => (k.output (requests id) - k.input (requests id) : ℤ)).sum
  | _ => 0

/-- How much the counter exceeds level 0 once every thread has settled what it owes. -/
def Counter.gap (k : Counter) (s : State n) : ℤ :=
  k.visible s + ∑ t, k.owed s.requests (s.pc t) - k.level0 s.files

def State.accountFits : State n → List CommitRequest → Prop
  | _, [] => True
  | s, r :: rs => r.l0InputFiles ≤ s.visibleFiles ∧ r.l0InputBytes ≤ s.visibleBytes ∧
      (s.accountVirtualL0Compaction r).accountFits rs

def AccountingFits (s : State n) (e : Event n) : Prop :=
  ∀ t own batch commitBatch, e = .leaderReturn t → s.pc t = .leaderLogged own batch commitBatch true →
    s.accountFits (commitBatch.map s.requests)

def Pc.busy : Pc → Bool
  | .idle => false
  | .picked _ _ => false
  | .merging _ _ => false
  | _ => true

end VcompModel

namespace VcompProof

open VcompModel List Function

variable {n : ℕ} {cfg : ProtocolConfig} {allowed : State n → Event n → Prop} {s s' : State n} {e : Event n} {t : Fin n}
  {p : Pc} (k : Counter)

theorem owed_of_static {requests requests' : ℕ → CommitRequest}
    (static : ∀ id, (requests' id).static = (requests id).static) (p : Pc) :
    k.owed requests' p = k.owed requests p := by
  have eq : ∀ id, k.input (requests' id) = k.input (requests id) ∧ k.output (requests' id) = k.output (requests id) := by
    intro id
    have eq := static id
    simp only [CommitRequest.static, CommitRequest.mk.injEq] at eq
    cases k <;> simp [Counter.input, Counter.output, eq]
  unfold Counter.owed
  split <;> simp only [eq]

section

variable (counted owes moved : ℤ) (threads : s'.pc = update s.pc t p)
  (requests : ∀ u, k.owed s'.requests (s.pc u) = k.owed s.requests (s.pc u))
  (visible : (k.visible s' : ℤ) = k.visible s + counted)
  (owed : k.owed s'.requests p = k.owed s.requests (s.pc t) + owes)
  (level0 : (k.level0 s'.files : ℤ) = k.level0 s.files + moved)
include threads requests visible owed level0

theorem gap_update : k.gap s' = k.gap s + (counted + owes - moved) := by
  have sum := Transition.sum_update (k.owed s'.requests) s.pc t p
  simp only [requests] at sum
  simp only [Counter.gap, threads]
  omega

theorem gap_balanced (balanced : counted + owes = moved) : k.gap s' = k.gap s := by
  have change := gap_update k counted owes moved threads requests visible owed level0
  omega

end

theorem gap_same (threads : s'.pc = update s.pc t p)
    (requests : ∀ u, k.owed s'.requests (s.pc u) = k.owed s.requests (s.pc u))
    (before : k.owed s.requests (s.pc t) = 0) (after : k.owed s'.requests p = 0) (files : s'.files = s.files)
    (visible : k.visible s' = k.visible s) : k.gap s' = k.gap s :=
  gap_balanced k 0 0 0 threads requests (by simp [visible]) (by simp [before, after]) (by simp [files]) rfl

theorem level0_append (files files' : List VersionFile) :
    k.level0 (files ++ files') = k.level0 files + k.level0 files' := by
  simp [Counter.level0]

theorem level0_perm {files files' : List VersionFile} (perm : files.Perm files') : k.level0 files = k.level0 files' :=
  ((perm.filter _).map k.weight).sum_eq

theorem level0_batch (batch : List VirtualL0WindowFile) : k.level0 (batch.map (·.versionFile)) = k.batch batch := by
  have all : (batch.map (·.versionFile)).filter (fun file => file.virtual && file.level = 0) =
      batch.map (·.versionFile) :=
    filter_eq_self.mpr (forall_mem_map.mpr fun _ _ => rfl)
  rw [Counter.level0, Counter.batch, all]

theorem level0_of_virtual {files : List VersionFile} (virtual : ∀ file ∈ files, file.virtual = true) :
    Counter.files.level0 files = l0Files files ∧ Counter.bytes.level0 files = l0Bytes files := by
  have eq : files.filter (fun file => file.virtual && file.level = 0) = files.filter (·.level = 0) :=
    filter_congr fun file mem => by simp [virtual file mem]
  have ones : Counter.files.weight = fun _ => 1 := rfl
  rw [Counter.level0, Counter.level0, eq]
  exact ⟨by simp [l0Files, ones], rfl⟩

theorem WellFormed.moves {r : CommitRequest} (wf : WellFormed r) (k : Counter) :
    k.input r = k.level0 r.deletes ∧ k.output r = k.level0 r.adds := by
  have deleted := level0_of_virtual wf.virtual
  have added := level0_of_virtual wf.addsVirtual
  cases k with
  | files => exact ⟨wf.inputL0.1.trans deleted.1.symm, wf.outputL0.1.trans added.1.symm⟩
  | bytes => exact ⟨wf.inputL0.2.trans deleted.2.symm, wf.outputL0.2.trans added.2.symm⟩

theorem level0_delete {files deletes : List VersionFile} (nodup : (files.map (·.number)).Nodup)
    (once : (deletes.map (·.number)).Nodup) (present : ∀ d ∈ deletes, d ∈ files) :
    k.level0 (files.filter fun file => file.number ∉ deletes.map (·.number)) + k.level0 deletes = k.level0 files := by
  have deleted : (files.filter fun file => file.number ∈ deletes.map (·.number)).Perm deletes := by
    refine (perm_ext_iff_of_nodup (nodup.of_map _ |>.filter _) (once.of_map _)).mpr fun file => ?_
    simp only [mem_filter, decide_eq_true_eq, mem_map]
    constructor
    · rintro ⟨inFiles, d, inDeletes, number⟩
      exact eq_of_number nodup (present d inDeletes) inFiles number ▸ inDeletes
    · intro inDeletes
      exact ⟨present file inDeletes, file, inDeletes, rfl⟩
  have split := level0_perm k (filter_append_perm (fun file => decide (file.number ∈ deletes.map (·.number))) files)
  rw [level0_append, level0_perm k deleted] at split
  have negated : files.filter (fun file => file.number ∉ deletes.map (·.number)) =
      files.filter (fun file => !decide (file.number ∈ deletes.map (·.number))) :=
    filter_congr fun file _ => decide_not
  rw [negated]
  omega

theorem level0_install {id : ℕ} (numbers : Numbers s) (wf : WellFormed (s.requests id))
    (present : ∀ d ∈ (s.requests id).deletes, d ∈ s.files) :
    k.level0 (s.installRequest id).files + k.input (s.requests id) = k.level0 s.files + k.output (s.requests id) := by
  have once := wf.distinct.sublist (wf.sub.map _)
  rw [installRequest_files numbers.installed present, level0_append, (wf.moves k).1, (wf.moves k).2,
    ← level0_delete k numbers.installed once present]
  omega

theorem level0_installAll {ids : List ℕ} (ready : Ready s ids) :
    (k.level0 (ids.foldl State.installRequest s).files : ℤ) =
      k.level0 s.files + (ids.map fun id => (k.output (s.requests id) - k.input (s.requests id) : ℤ)).sum := by
  induction ids generalizing s with
  | nil => simp
  | cons id ids ih =>
    have first := level0_install k ready.numbers (ready.wellFormed id (by simp)) (ready.present id (by simp))
    have rest := ih ready.next
    rw [(installRequest_sameQueue s id).requests] at rest
    rw [foldl_cons, rest, map_cons, sum_cons]
    omega

theorem visible_account (s : State n) (r : CommitRequest) :
    k.visible (s.accountVirtualL0Compaction r) = k.visible s - k.input r + k.output r := by
  cases k <;> simp only [Counter.visible, Counter.input, Counter.output, State.accountVirtualL0Compaction] <;>
    split_ifs <;> omega

theorem visible_accountAll (s : State n) (rs : List CommitRequest) :
    (k.visible s + (rs.map fun r => (k.output r - k.input r : ℤ)).sum ≤
      k.visible (rs.foldl State.accountVirtualL0Compaction s)) ∧
    (s.accountFits rs → (k.visible (rs.foldl State.accountVirtualL0Compaction s) : ℤ) =
      k.visible s + (rs.map fun r => (k.output r - k.input r : ℤ)).sum) := by
  induction rs generalizing s with
  | nil => simp
  | cons r rs ih =>
    have one := visible_account k s r
    obtain ⟨atLeast, exactly⟩ := ih (s.accountVirtualL0Compaction r)
    simp only [foldl_cons, map_cons, sum_cons]
    refine ⟨by omega, fun fits => ?_⟩
    have covered : k.input r ≤ k.visible s := by
      cases k with
      | files => exact fits.1
      | bytes => exact fits.2.1
    have rest := exactly fits.2.2
    omega

theorem owed_push (inv : CommitInv s) (k : Counter) (r : CommitRequest) (u : Fin n) :
    k.owed (update s.requests s.nextRequest r) (s.pc u) = k.owed s.requests (s.pc u) := by
  unfold Counter.owed
  split
  · rfl
  · rename_i own batch commitBatch pc
    refine congrArg List.sum (map_congr_left fun id mem => ?_)
    have taken := (inv.batch u id (by rw [pc]; exact mem)).1
    rw [update_of_ne (ne_of_lt ((mem_popped_or_queue inv).mpr (.inl taken)))]
  · rfl

theorem gap_release (s : State n) (ids : List ℕ) : k.gap (s.releaseRequests ids) = k.gap s := by
  have visible : k.visible (s.releaseRequests ids) = k.visible s := by cases k <;> rfl
  simp only [Counter.gap, owed_of_static k (static_release s ids), visible]
  rfl

theorem gap_markDone (s : State n) (ids : List ℕ) (status : Status) : k.gap (s.markDone ids status) = k.gap s := by
  have visible : k.visible (s.markDone ids status) = k.visible s := by cases k <;> rfl
  simp only [Counter.gap, owed_of_static k (static_markDone s ids status), visible]
  rfl

theorem gap_finishRefill (status : Status) {caller : RefillCaller}
    (before : k.owed s.requests (s.pc t) = 0) : k.gap (s.finishRefill t status caller) = k.gap s := by
  cases caller with
  | user | leader => exact gap_same k rfl (fun _ => rfl) before rfl rfl (by cases k <;> rfl)

theorem visible_installAll (ids : List ℕ) (s : State n) :
    k.visible (ids.foldl State.installRequest s) = k.visible s := by
  induction ids generalizing s with
  | nil => rfl
  | cons id _ ih =>
    have one : k.visible (s.installRequest id) = k.visible s := by
      cases moved : (s.requests id).movedVirtuals <;> cases k <;> simp [Counter.visible, State.installRequest, moved]
    rw [foldl_cons, ih, one]

variable {own : ℕ} {batch commitBatch : List ℕ} {caller : RefillCaller} {locals : RefillLocals}
  {files : List VirtualL0WindowFile}

theorem gap_refillInstall (k : Counter) (pc : s.pc t = .refillLog caller locals files) :
    k.gap (State.setPc { s with files := s.files ++ files.map (·.versionFile) }
      t (.refillLogged caller locals files true)) = k.gap s := by
  refine gap_balanced k 0 (k.batch files) (k.batch files) rfl (fun _ => rfl) ?_ ?_ ?_ (by omega)
  · cases k <;> simp [Counter.visible, State.setPc]
  · have before : k.owed s.requests (s.pc t) = 0 := by rw [pc]; rfl
    have after : k.owed s.requests (.refillLogged caller locals files true) = k.batch files := rfl
    exact after.trans (by rw [before, zero_add])
  · change (k.level0 (s.files ++ files.map (·.versionFile)) : ℤ) = _
    rw [level0_append, level0_batch, Nat.cast_add]

theorem gap_refillCount (k : Counter) (pc : s.pc t = .refillLogged caller locals files true) :
    k.gap (State.setPc { s with
      owner := some t
      visibleFiles := s.visibleFiles + files.length
      visibleBytes := s.visibleBytes + (files.map (·.fileSize)).sum } t (.refillLoop caller locals)) = k.gap s := by
  refine gap_balanced k (k.batch files) (-k.batch files) 0 rfl (fun _ => rfl) ?_ ?_ ?_ (by omega)
  · have counts : Counter.files.batch files = files.length ∧ Counter.bytes.batch files = (files.map (·.fileSize)).sum := by
      have ones : Counter.files.weight = fun _ => 1 := rfl
      refine ⟨by simp [Counter.batch, ones, comp_def], ?_⟩
      rw [Counter.batch, map_map]
      rfl
    cases k with
    | files => simp [Counter.visible, State.setPc, counts.1]
    | bytes => simp [Counter.visible, State.setPc, counts.2]
  · have before : k.owed s.requests (s.pc t) = k.batch files := by rw [pc]; rfl
    have after : k.owed s.requests (.refillLoop caller locals) = 0 := rfl
    exact after.trans (by rw [before]; omega)
  · exact (add_zero _).symm

theorem gap_leaderInstall (k : Counter) (inv : CommitInv s) (track : Tracked s)
    (pc : s.pc t = .leaderLog own batch commitBatch) :
    k.gap (((commitBatch.foldl State.installRequest s).releaseRequests commitBatch).setPc t
      (.leaderLogged own batch commitBatch true)) = k.gap s := by
  have eq := installAll_sameQueue s commitBatch
  have installed := level0_installAll k (leaderInstall_ready inv track.numbers track.held pc)
  rw [installAll_setPc] at installed
  have settled : k.gap ((commitBatch.foldl State.installRequest s).setPc t (.leaderLogged own batch commitBatch true)) =
      k.gap s := by
    refine gap_balanced k 0 (k.owed s.requests (.leaderLogged own batch commitBatch true))
      (k.owed s.requests (.leaderLogged own batch commitBatch true)) (congrArg (update · t _) eq.pc)
      (fun u => congrArg (k.owed · (s.pc u)) eq.requests) ?_ ?_ installed (by omega)
    · have unchanged := visible_installAll k commitBatch s
      rw [add_zero]
      cases k <;> exact congrArg Nat.cast unchanged
    · have before : k.owed s.requests (s.pc t) = 0 := by rw [pc]; rfl
      rw [before, zero_add]
      exact congrArg (k.owed · _) eq.requests
  exact (gap_release k _ commitBatch).trans settled

theorem gap_leaderAccount (s' : State n) (k : Counter) (pc : s.pc t = .leaderLogged own batch commitBatch true)
    (threads : s'.pc = update s.pc t (.refillEntry (.leader own batch commitBatch)))
    (requests : s'.requests = s.requests) (files : s'.files = s.files)
    (visible : k.visible s' = k.visible ((commitBatch.map s.requests).foldl State.accountVirtualL0Compaction s)) :
    k.gap s ≤ k.gap s' ∧ (s.accountFits (commitBatch.map s.requests) → k.gap s' = k.gap s) := by
  have counted := visible_accountAll k s (commitBatch.map s.requests)
  have debt : k.owed s.requests (s.pc t) =
      ((commitBatch.map s.requests).map fun r => (k.output r - k.input r : ℤ)).sum := by
    rw [pc, map_map]
    rfl
  have settled : k.owed s'.requests (.refillEntry (.leader own batch commitBatch)) = 0 := rfl
  have change := gap_update k (k.visible s' - k.visible s) (-k.owed s.requests (s.pc t)) 0 threads
    (fun u => congrArg (k.owed · (s.pc u)) requests) (by omega) (by omega) (by rw [files, add_zero])
  refine ⟨by omega, fun fits => ?_⟩
  have covered := counted.2 fits
  omega

theorem Step.gap (inv : CommitInv s) (track : Tracked s) (step : Step cfg s e s') :
    k.gap s ≤ k.gap s' ∧ (AccountingFits s e → k.gap s' = k.gap s) := by
  have neutral : k.gap s' = k.gap s → k.gap s ≤ k.gap s' ∧ (AccountingFits s e → k.gap s' = k.gap s) :=
    fun eq => ⟨eq.ge, fun _ => eq⟩
  cases step with
  | reserve => exact neutral (by cases k <;> rfl)
  | enqueue _ _ _ pc | refillWindow _ _ pc | refillStart _ _ _ _ pc
  | refillBatch _ _ _ _ _ _ pc | refillFail _ _ _ _ _ pc
  | pick _ _ _ _ pc | gatherEnd _ _ _ pc | gather _ _ _ _ pc
  | moveEnd _ _ _ pc | mergeFail _ _ _ _ _ pc | commitWait _ _ pc
  | commitLead _ _ pc | wake _ _ _ pc | leaderExit _ _ pc | leaderDelay _ _ pc
  | leaderProceed _ _ pc | leaderError _ _ _ _ _ pc =>
    exact neutral (gap_same k rfl (fun _ => rfl) (pc ▸ rfl) rfl rfl (by cases k <;> rfl))
  | refillNothing _ _ pc | refillStop _ _ _ pc =>
    exact neutral (gap_finishRefill k .ok (pc ▸ rfl))
  | refillInstall _ _ _ _ _ pc => exact neutral (gap_refillInstall k pc)
  | refillCount _ _ _ _ _ pc => exact neutral (gap_refillCount k pc)
  | refillUndo _ caller _ _ _ pc =>
    cases caller with
    | user => exact neutral (gap_same k rfl (fun _ => rfl) (pc ▸ rfl) rfl rfl (by cases k <;> rfl))
    | leader =>
      exact neutral (gap_same k rfl (fun _ => rfl) (pc ▸ rfl) rfl rfl (by cases k <;> rfl))
  | move _ _ _ _ pc | merge _ _ _ _ _ pc =>
    exact neutral (gap_same k rfl (owed_push inv k _) (pc ▸ rfl) rfl rfl (by cases k <;> rfl))
  | leaderAwake _ _ _ pc =>
    refine neutral (gap_same k rfl (fun _ => rfl) (pc ▸ rfl) ?_ rfl (by cases k <;> rfl))
    split_ifs <;> rfl
  | leaderStale t _ pc =>
    have taken : k.gap (s.takeCommitBatch cfg) = k.gap s :=
      (gap_markDone k _ _ _).trans ((gap_release k _ _).trans (by cases k <;> rfl))
    refine neutral (Eq.trans (gap_same k rfl (fun _ => rfl) ?_ rfl rfl (by cases k <;> rfl)) taken)
    change k.owed _ (s.pc t) = 0
    rw [pc]
    rfl
  | leaderLog t _ pc =>
    have taken : k.gap (s.takeCommitBatch cfg) = k.gap s :=
      (gap_markDone k _ _ _).trans ((gap_release k _ _).trans (by cases k <;> rfl))
    refine neutral (Eq.trans (gap_same (s := s.takeCommitBatch cfg) k rfl (fun _ => rfl) ?_ rfl rfl
      (by cases k <;> rfl)) taken)
    change k.owed _ (s.pc t) = 0
    rw [pc]
    rfl
  | leaderInstall _ _ _ _ _ pc => exact neutral (gap_leaderInstall k inv track pc)
  | leaderFail t own batch commitBatch callback _ pc =>
    have returned : k.gap (s.setPc t (.leaderLogged own batch commitBatch false)) = k.gap s :=
      gap_same k rfl (fun _ => rfl) (pc ▸ rfl) rfl rfl (by cases k <;> rfl)
    cases callback with
    | false => exact neutral returned
    | true => exact neutral ((gap_release k _ commitBatch).trans returned)
  | leaderAccount t own batch commitBatch _ pc =>
    have eq := accountAll_sameQueue s (commitBatch.map s.requests)
    have files := accountAll_sameFiles s (commitBatch.map s.requests)
    have change := gap_leaderAccount (State.setPc
      { (commitBatch.map s.requests).foldl State.accountVirtualL0Compaction s with owner := some t } t
      (.refillEntry (.leader own batch commitBatch))) k pc (congrArg (update · t _) eq.pc) eq.requests
      files.files (by cases k <;> rfl)
    exact ⟨change.1, fun fits => change.2 (fits t own batch commitBatch rfl pc)⟩
  | leaderMark t own _ _ _ pc =>
    have returned : k.gap (s.setPc t (.leaderLoop own)) = k.gap s :=
      gap_same k rfl (fun _ => rfl) (pc ▸ rfl) rfl rfl (by cases k <;> rfl)
    exact neutral (((gap_markDone k _ _ _).trans (gap_release k _ _)).trans
      (((gap_markDone k _ _ _).trans (gap_release k _ _)).trans returned))
  | commitReturn t own pc =>
    have returned : k.gap (State.setPc { s with owner := none } t .idle) = k.gap s :=
      gap_same k rfl (fun _ => rfl) (pc ▸ rfl) rfl rfl (by cases k <;> rfl)
    exact neutral ((gap_release k _ [own]).trans returned)

theorem gap_initial (initial : Initial s) : k.gap s = 0 := by
  have visible : k.visible s = 0 := by
    cases k with
    | files => exact initial.visibleFiles
    | bytes => exact initial.visibleBytes
  have owed : ∀ t, k.owed s.requests (s.pc t) = 0 := fun t => by rw [initial.idle t]; rfl
  have empty : s.files.filter (fun file => file.virtual && file.level = 0) = [] := by
    refine filter_eq_nil_iff.mpr fun file mem => ?_
    simpa using initial.deep file mem
  simp [Counter.gap, visible, owed, Counter.level0, empty]

theorem gap_nonneg (reach : Reached cfg allowed s) : 0 ≤ k.gap s := by
  induction reach with
  | start initial => exact (gap_initial k initial).ge
  | next before _ step ih => exact ih.trans (Step.gap k (commitInv before) (tracked before) step).1

theorem gap_zero (reach : Reached cfg AccountingFits s) : k.gap s = 0 := by
  induction reach with
  | start initial => exact gap_initial k initial
  | next before fits step ih => exact ((Step.gap k (commitInv before) (tracked before) step).2 fits).trans ih

theorem visible_of_quiet (quiet : ∀ t, (s.pc t).busy = false) (settled : k.gap s = 0) :
    k.visible s = k.level0 s.files := by
  have owed : ∀ t, k.owed s.requests (s.pc t) = 0 := by
    intro t
    have idle := quiet t
    unfold Counter.owed
    split <;> simp_all [Pc.busy]
  simp only [Counter.gap, owed, Finset.sum_const_zero] at settled
  omega

/-- If no accounting saturates, the counters are those of level 0 whenever no refill or commit is in progress. -/
theorem visible_window_exact (cfg : ProtocolConfig) (s : State n) (reach : Reached cfg AccountingFits s)
    (quiet : ∀ t, (s.pc t).busy = false) :
    s.visibleFiles = (s.files.filter fun file => file.virtual && file.level = 0).length ∧
    s.visibleBytes = ((s.files.filter fun file => file.virtual && file.level = 0).map (·.size)).sum := by
  have files := visible_of_quiet .files quiet (gap_zero .files reach)
  have bytes := visible_of_quiet .bytes quiet (gap_zero .bytes reach)
  have ones : Counter.files.weight = fun _ => 1 := rfl
  refine ⟨files.trans ?_, bytes⟩
  simp [Counter.level0, ones]

def firstFile : VirtualL0WindowFile := ⟨1, threeKeys, 10, 1⟩

def secondFile : VirtualL0WindowFile := ⟨2, threeKeys, 10, 2⟩

def firstMove : Compaction := ⟨0, [firstFile.versionFile], 1, []⟩

theorem noFiles (n : ℕ) (allowed : State n → Event n → Prop) : Reached plainConfig allowed (startState n []) :=
  .start (startState_initial nodup_nil nofun nofun)

/-- A file is moved away before its refill is counted: the subtraction saturates, and the counters keep it. -/
theorem visible_window_drifts : ∃ s : State 2, Reached plainConfig (fun _ _ => True) s ∧
    (∀ t, (s.pc t).busy = false) ∧ (s.files.filter fun file => file.virtual && file.level = 0) = [] ∧
    s.visibleFiles = 1 ∧ s.visibleBytes = 10 := by
  have r := noFiles 2 (fun _ _ => True)
    |>.next trivial (.reserve 1)
    |>.next trivial (.enqueue 0 [firstFile] rfl rfl (by simp) (by simp) (by decide))
    |>.next trivial (.refillStart 0 .user firstFile [] rfl rfl)
    |>.next trivial (.refillBatch 0 .user _ false [firstFile] [] rfl (by decide) rfl (by simp) rfl (by simp))
    |>.next trivial (.refillInstall 0 .user _ _ rfl rfl)
    |>.next trivial (.pick 1 firstMove true rfl rfl ⟨by decide, by decide, by decide, by decide⟩)
    |>.next trivial (.move 1 firstMove [(1, threeKeys)] rfl rfl rfl (by simp))
    |>.next trivial (.commitLead 1 0 rfl rfl)
    |>.next trivial (.leaderProceed 1 0 rfl (by decide) rfl)
    |>.next trivial (.leaderLog 1 0 rfl (by decide))
    |>.next trivial (.leaderInstall 1 0 _ _ rfl rfl)
    |>.next trivial (.leaderAccount 1 0 _ _ rfl rfl)
    |>.next trivial (.refillNothing 1 _ rfl rfl)
    |>.next trivial (.leaderMark 1 0 _ _ _ rfl)
    |>.next trivial (.leaderExit 1 0 rfl rfl)
    |>.next trivial (.commitReturn 1 0 rfl)
    |>.next trivial (.refillCount 0 .user _ _ rfl rfl)
    |>.next trivial (.refillStop 0 .user _ rfl (.inl rfl))
  exact ⟨_, r, by decide +kernel, rfl, rfl, rfl⟩

/-- The second thread moves the counted file away, and its commit refills the window. -/
theorem visible_window_exact_move : ∃ s : State 2, Reached plainConfig AccountingFits s ∧
    s.files = [{ firstFile.versionFile with level := 1 }, secondFile.versionFile] ∧ s.visibleFiles = 1 ∧
      s.visibleBytes = 10 := by
  have quiet : ∀ {s : State 2} {e : Event 2}, (∀ t, e ≠ .leaderReturn t) → AccountingFits s e :=
    fun other t _ _ _ eq _ => absurd eq (other t)
  have fits : ∀ {s : State 2} {own batch commitBatch}, s.pc 1 = .leaderLogged own batch commitBatch true →
      s.accountFits (commitBatch.map s.requests) → AccountingFits s (.leaderReturn 1) := by
    intro s own batch commitBatch logged fits t own' batch' commitBatch' eq logged'
    obtain rfl := Event.leaderReturn.inj eq
    obtain ⟨-, -, rfl, -⟩ := Pc.leaderLogged.inj (logged.symm.trans logged')
    exact fits
  have r := noFiles 2 AccountingFits
    |>.next (quiet (by simp)) (.reserve 2)
    |>.next (quiet (by simp)) (.enqueue 0 [firstFile, secondFile] rfl rfl (by simp) (by decide) (by decide))
    |>.next (quiet (by simp)) (.refillStart 0 .user firstFile [secondFile] rfl rfl)
    |>.next (quiet (by simp))
      (.refillBatch 0 .user _ false [firstFile] [secondFile] rfl (by decide) rfl (by simp) rfl (by simp))
    |>.next (quiet (by simp)) (.refillInstall 0 .user _ _ rfl rfl)
    |>.next (quiet (by simp)) (.refillCount 0 .user _ _ rfl rfl)
    |>.next (quiet (by simp)) (.refillStop 0 .user _ rfl (.inr (.inl (by decide))))
    |>.next (quiet (by simp)) (.pick 1 firstMove true rfl rfl ⟨by decide, by decide, by decide, by decide⟩)
    |>.next (quiet (by simp)) (.move 1 firstMove [(1, threeKeys)] rfl rfl rfl (by simp))
    |>.next (quiet (by simp)) (.commitLead 1 0 rfl rfl)
    |>.next (quiet (by simp)) (.leaderProceed 1 0 rfl (by decide) rfl)
    |>.next (quiet (by simp)) (.leaderLog 1 0 rfl (by decide))
    |>.next (quiet (by simp)) (.leaderInstall 1 0 _ _ rfl rfl)
    |>.next (fits rfl ⟨by decide +kernel, by decide +kernel, trivial⟩) (.leaderAccount 1 0 _ _ rfl rfl)
    |>.next (quiet (by simp)) (.refillStart 1 _ secondFile [] rfl rfl)
    |>.next (quiet (by simp)) (.refillBatch 1 _ _ false [secondFile] [] rfl (by decide) rfl (by simp) rfl (by simp))
    |>.next (quiet (by simp)) (.refillInstall 1 _ _ _ rfl rfl)
    |>.next (quiet (by simp)) (.refillCount 1 _ _ _ rfl rfl)
    |>.next (quiet (by simp)) (.refillStop 1 _ _ rfl (.inl rfl))
    |>.next (quiet (by simp)) (.leaderMark 1 0 _ _ _ rfl)
    |>.next (quiet (by simp)) (.leaderExit 1 0 rfl rfl)
    |>.next (quiet (by simp)) (.commitReturn 1 0 rfl)
  have settled := visible_window_exact plainConfig _ r (by decide +kernel)
  exact ⟨_, r, rfl, settled.1, settled.2⟩

end VcompProof
