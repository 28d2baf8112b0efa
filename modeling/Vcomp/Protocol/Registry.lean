import Vcomp.Protocol.Holders

namespace VcompProof

open VcompModel Placement List Function

variable {n : ℕ} {cfg : ProtocolConfig} {allowed : State n → Event n → Prop} {s s' : State n} {e : Event n} {t : Fin n}

variable {c : Compaction} {files : List VersionFile} {cf : ℕ} {moved : List (ℕ × VirtualSST)}

theorem numberOutputs_fst (nextFile : ℕ) (outputs : List VirtualSST) :
    (numberOutputs nextFile outputs).map Prod.fst = List.range' nextFile outputs.length :=
  map_fst_zip (by simp)

theorem l0_of_level {level : ℕ} (all : ∀ file ∈ files, file.level = level) :
    l0Files files = (if level = 0 then files.length else 0) ∧
      l0Bytes files = if level = 0 then (files.map (·.size)).sum else 0 := by
  have filtered : files.filter (·.level = 0) = if level = 0 then files else [] := by
    split_ifs with zero
    · exact filter_eq_self.mpr fun file mem => by simp [all file mem, zero]
    · exact filter_eq_nil_iff.mpr fun file mem => by simp [all file mem, zero]
  unfold l0Files l0Bytes
  rw [filtered]
  split_ifs <;> simp

theorem commitRequest_wellFormed (nodup : (c.inputs.map (·.number)).Nodup)
    (virtual : ∀ file ∈ c.inputs, file.virtual = true) (nextFile : ℕ) (outputs : List VirtualSST) :
    WellFormed (c.commitRequest (numberOutputs nextFile outputs)) := by
  constructor
  case sub => exact List.Sublist.refl _
  case distinct => exact nodup
  case numbers => rfl
  case virtual => exact virtual
  case addsVirtual => exact forall_mem_map.mpr fun _ _ => rfl
  case outputs =>
    intro _
    refine ⟨by simp [Compaction.commitRequest], ?_⟩
    change ((numberOutputs nextFile outputs).map Prod.fst).Nodup
    rw [numberOutputs_fst]
    exact nodup_range'
  case moved => nofun
  case inputL0 => exact ⟨rfl, rfl⟩
  case outputL0 =>
    have level : ∀ a ∈ (c.commitRequest (numberOutputs nextFile outputs)).adds, a.level = c.outputLevel :=
      forall_mem_map.mpr fun _ _ => rfl
    have counts := l0_of_level level
    rw [counts.1, counts.2]
    simp [Compaction.commitRequest, comp_def]

theorem gatherMoved_ok (found : s.gatherMoved cf files = .ok (moved, false)) :
    moved.map Prod.fst = files.map (·.number) ∧ ∀ file ∈ files, (s.registry file.number).isSome := by
  induction files generalizing moved with
  | nil =>
    simp only [State.gatherMoved, Except.ok.injEq, Prod.mk.injEq] at found
    simp [← found.1]
  | cons file rest ih =>
    unfold State.gatherMoved at found
    cases handle : s.registry file.number with
    | some handle' =>
      cases gathered : s.gatherMoved cf rest with
      | error => simp [handle, gathered, Except.map] at found
      | ok result =>
        obtain ⟨others, physical⟩ := result
        simp only [handle, gathered, Except.map, Except.ok.injEq, Prod.mk.injEq] at found
        obtain ⟨rfl, rfl⟩ := found
        have restFound := ih gathered
        simpa [restFound.1, handle] using restFound.2
    | none =>
      simp only [handle] at found
      split_ifs at found
      cases gathered : s.gatherMoved cf rest <;> simp [gathered, Except.map] at found

theorem gatherInputs_ok {handles : List VirtualSST}
    (found : s.gatherInputs cf files = .ok handles) : ∀ file ∈ files, (s.registry file.number).isSome := by
  induction files generalizing handles with
  | nil => simp
  | cons file rest ih =>
    unfold State.gatherInputs at found
    cases handle : s.registry file.number with
    | some handle' =>
      cases gathered : s.gatherInputs cf rest with
      | error => simp [handle, gathered, Except.map] at found
      | ok others => simpa [handle] using ih gathered
    | none =>
      simp only [handle] at found
      split_ifs at found

theorem moveRequest_wellFormed (nodup : (c.inputs.map (·.number)).Nodup)
    (virtual : ∀ file ∈ c.movedInputs, file.virtual = true)
    (numbers : moved.map Prod.fst = c.movedInputs.map (·.number)) : WellFormed (c.moveRequest moved) := by
  constructor
  case sub => exact filter_sublist
  case distinct => exact nodup
  case numbers => exact numbers
  case virtual => exact virtual
  case addsVirtual => simpa [Compaction.moveRequest] using virtual
  case outputs => nofun
  case moved =>
    intro entries eq
    obtain rfl : moved = entries := Option.some.inj eq
    exact ⟨numbers, by simp [Compaction.moveRequest, comp_def], rfl⟩
  case inputL0 => exact ⟨rfl, rfl⟩
  case outputL0 =>
    have level : ∀ a ∈ (c.moveRequest moved).adds, a.level = c.outputLevel := forall_mem_map.mpr fun _ _ => rfl
    have counts := l0_of_level level
    have length : moved.length = c.movedInputs.length := by simpa using congrArg List.length numbers
    rw [counts.1, counts.2]
    simp [Compaction.moveRequest, comp_def, length]

theorem virtual_of_registered (numbers : Numbers s) {file : VersionFile} (known : s.Known file)
    (registered : (s.registry file.number).isSome) : file ∈ s.files ∧ file.virtual = true := by
  have home : ∃ i, s.At i file.number ∧ i ≠ .removed := by
    rcases (numbers.registered file.number).mp registered with virtual | ⟨t, inflight⟩
    · exact ⟨.installed, (map_subset _ (filter_subset_self _)) virtual, nofun⟩
    · exact ⟨.inflight t, inflight, nofun⟩
  obtain ⟨i, lies, notRemoved⟩ := home
  rcases known with inFiles | removed
  · refine ⟨inFiles, ?_⟩
    rcases (numbers.registered file.number).mp registered with virtual | ⟨t, inflight⟩
    · obtain ⟨other, inOther, virtualOther, number⟩ := mem_virtualNumbers.mp virtual
      rw [← eq_of_number numbers.installed inOther inFiles number]
      exact virtualOther
    · cases numbers.exclusive .installed (.inflight t) _ (mem_map_of_mem inFiles) inflight
  · exact absurd (numbers.exclusive i .removed _ lies removed) notRemoved

variable {own : ℕ} {batch commitBatch : List ℕ} (ids : List ℕ)

theorem installRequest_setPc (s : State n) (pc : Pc) (id : ℕ) :
    (s.setPc t pc).installRequest id = (s.installRequest id).setPc t pc := by
  cases moved : (s.requests id).movedVirtuals <;> simp [State.installRequest, State.setPc, moved]

theorem installAll_setPc (pc : Pc) (ids : List ℕ) (s : State n) :
    ids.foldl State.installRequest (s.setPc t pc) = (ids.foldl State.installRequest s).setPc t pc := by
  induction ids generalizing s with
  | nil => rfl
  | cons _ _ ih => rw [foldl_cons, foldl_cons, installRequest_setPc, ih]

theorem Numbers.release (numbers : Numbers s) (ids : List ℕ) : Numbers (s.releaseRequests ids) :=
  numbers.of_same ⟨rfl, rfl, rfl, rfl, rfl, rfl⟩ (fun _ => rfl) fun id _ lies =>
    ⟨lies.1, pendingOutputs_of_static (static_release s ids id) ▸ lies.2⟩

theorem Numbers.markDone (numbers : Numbers s) (ids : List ℕ) (status : Status) : Numbers (s.markDone ids status) :=
  numbers.of_same ⟨rfl, rfl, rfl, rfl, rfl, rfl⟩ (fun _ => rfl) fun id _ lies =>
    ⟨lies.1, pendingOutputs_of_static (static_markDone s ids status id) ▸ lies.2⟩

theorem mem_installAll {file : VersionFile} (inFiles : file ∈ s.files)
    (kept : ∀ id ∈ ids, file.number ∉ (s.requests id).deletes.map (·.number)) :
    file ∈ (ids.foldl State.installRequest s).files := by
  induction ids generalizing s with
  | nil => exact inFiles
  | cons id ids ih =>
    refine ih ?_ fun other mem => ?_
    · have first := kept id (by simp)
      have left : file ∈ s.files.filter (fun file =>
          !((s.requests id).deletes.any fun d => d.level = file.level && d.number = file.number)) := by
        refine mem_filter.mpr ⟨inFiles, ?_⟩
        simp only [Bool.not_eq_true', any_eq_false, Bool.and_eq_true, decide_eq_true_eq, not_and]
        exact fun d inDeletes _ number => first (number ▸ mem_map_of_mem inDeletes)
      unfold State.installRequest
      dsimp only
      split <;> exact mem_append_left _ left
    · rw [(installRequest_sameQueue s id).requests]
      exact kept other (by simp [mem])

theorem removed_installAll (s : State n) : ∀ m ∈ s.removed, m ∈ (ids.foldl State.installRequest s).removed := by
  induction ids generalizing s with
  | nil => exact fun _ => id
  | cons _ _ ih =>
    intro m removed
    refine ih _ m ?_
    rw [installRequest_removed]
    exact mem_append_left _ removed

theorem beingCompacted_installAll (s : State n) :
    (ids.foldl State.installRequest s).beingCompacted = s.beingCompacted := by
  induction ids generalizing s with
  | nil => rfl
  | cons id _ ih => rw [foldl_cons, ih, (installRequest_same s id).2.2.2]

theorem accountAll_sameFiles (s : State n) (rs : List CommitRequest) :
    SameFiles s (rs.foldl State.accountVirtualL0Compaction s) := by
  induction rs generalizing s with
  | nil => exact ⟨rfl, rfl, rfl, rfl, rfl, rfl⟩
  | cons r _ ih =>
    have rest := ih (s.accountVirtualL0Compaction r)
    exact { rest with }

theorem Numbers.finishRefill (numbers : Numbers s) (status : Status) {caller : RefillCaller}
    (inflight : (s.pc t).inflight = []) : Numbers (s.finishRefill t status caller) := by
  cases caller with
  | user | leader => exact numbers.setPc_same ⟨rfl, rfl, rfl, rfl, rfl, rfl⟩ rfl inflight.symm rfl rfl rfl

theorem Held.finishRefill (held : Held s) (status : Status) {caller : RefillCaller} (inputs : (s.pc t).inputs = []) :
    Held (s.finishRefill t status caller) := by
  cases caller with
  | user | leader => exact held.setPc_same rfl inputs.symm nofun nofun (fun _ => id) rfl rfl rfl rfl

theorem accountAll_kept (rs : List CommitRequest) (s : State n) :
    (rs.foldl State.accountVirtualL0Compaction s).beingCompacted = s.beingCompacted ∧
      (rs.foldl State.accountVirtualL0Compaction s).largestEnqueued = s.largestEnqueued := by
  induction rs generalizing s with
  | nil => exact ⟨rfl, rfl⟩
  | cons r _ ih => exact ih (s.accountVirtualL0Compaction r)

section

variable (inv : CommitInv s) (numbers : Numbers s) (held : Held s)
include inv

theorem logging_below {u : Fin n} {id : ℕ} (mem : id ∈ (s.pc u).role.logging) :
    id < s.nextRequest :=
  (mem_popped_or_queue inv).mpr (.inl (inv.batch u id (logging_subset mem)).1)

theorem commitRun_below {id : ℕ} (mem : id ∈ s.commitRun cfg) : id < s.nextRequest :=
  (mem_popped_or_queue inv).mpr (.inr ((commitRun_front s cfg).subset mem))

include held

theorem Held.take : Held (s.takeCommitBatch cfg) := by
  have popped : Held { s with
      queue := s.queue.drop (s.commitRun cfg).length, popped := s.popped ++ s.commitRun cfg } :=
    held.of_same (fun i _ holds => by cases i <;> exact holds)
      (fun i file holds => held.marked i file (by cases i <;> exact holds))
      (fun _ _ _ known => known) held.distinct held.gathered rfl (fun _ => rfl) held.logging
  exact (popped.release _ fun id mem => commitRun_below inv (mem_of_mem_filter mem)).markDone _ _

theorem Held.leaderInstall (pc : s.pc t = .leaderLog own batch commitBatch) :
    Held (((commitBatch.foldl State.installRequest s).releaseRequests commitBatch).setPc t
      (.leaderLogged own batch commitBatch true)) := by
  have logging : ∀ id ∈ commitBatch, id ∈ (s.pc t).role.logging := fun id mem => by rw [pc]; exact mem
  have lt : ∀ id ∈ commitBatch, id < s.nextRequest := fun id mem => logging_below inv (logging id mem)
  have same := installAll_sameQueue s commitBatch
  have released := held.release commitBatch lt
  set s₁ := ((commitBatch.foldl State.installRequest s).releaseRequests commitBatch).setPc t
    (.leaderLogged own batch commitBatch true) with installed
  have requests : s₁.requests = (s.releaseRequests commitBatch).requests := by
    simp [installed, State.setPc, State.releaseRequests, same.requests]
  have marks : s₁.beingCompacted = (s.releaseRequests commitBatch).beingCompacted := by
    simp [installed, State.setPc, State.releaseRequests, same.requests, beingCompacted_installAll]
  have threads : s₁.pc = update s.pc t (.leaderLogged own batch commitBatch true) := by
    simp [installed, State.setPc, State.releaseRequests, same.pc]
  have holds : ∀ i file, s₁.Holds i file → (s.releaseRequests commitBatch).Holds i file := by
    intro i file holdsFile
    cases i with
    | thread u =>
      have mem : file ∈ (s₁.pc u).inputs := holdsFile
      rw [threads] at mem
      exact (mem_inputs_update.mp mem).elim (fun new => absurd new.2 not_mem_nil) And.right
    | request id =>
      have nextRequest : s₁.nextRequest = s.nextRequest := same.nextRequest
      simpa [State.Holds, releaseRequests_nextRequest, requests, nextRequest] using holdsFile
  refine released.of_same holds ?_ ?_ ?_ ?_ same.nextRequest (fun id => by rw [requests]) ?_
  · intro i file holdsFile
    rw [marks]
    exact released.marked i file (holds i file holdsFile)
  · -- a file that is still held is in no edit of the batch
    intro i file holdsFile known
    refine known.imp (fun inFiles => mem_installAll commitBatch inFiles fun id mem deleted => ?_)
      (removed_installAll commitBatch s file.number)
    obtain ⟨d, inDeletes, number⟩ := mem_map.mp deleted
    have holdsDelete : s.Holds (.request id) d := ⟨lt id mem, inv.logging t id (logging id mem),
      (held.wellFormed id (lt id mem)).sub.subset inDeletes⟩
    obtain rfl := held.exclusive i (.request id) file.number ⟨file, holds_of_release (holds i file holdsFile), rfl⟩
      ⟨d, holdsDelete, number⟩
    exact not_holds_released mem (holds _ file holdsFile)
  · rw [threads]
    refine (forall_update_iff s.pc fun _ p => (p.inputs.map (·.number)).Nodup).mpr
      ⟨?_, fun u _ => held.distinct u⟩
    exact nodup_nil
  · rw [threads]
    exact (forall_update_iff s.pc fun _ p => ∀ file ∈ p.gathered, file.virtual = true).mpr
      ⟨forall_mem_nil _, fun u _ => held.gathered u⟩
  · -- nobody else is in `LogAndApply` with an edit
    intro u id mem
    rw [threads] at mem
    by_cases eq : u = t
    · simp [eq, Pc.role, Role.logging] at mem
    · rw [update_of_ne eq] at mem
      have leads : (s.pc t).role.leads = true := by rw [pc]; rfl
      exact absurd (inv.unique u t (commitBatch_leads (logging_subset mem)) leads) eq

include numbers

theorem deletes_current {id : ℕ} (queued : id ∈ s.queue)
    (current : s.current id = true) : ∀ d ∈ (s.requests id).deletes, d ∈ s.files := by
  intro d inDeletes
  have lt : id < s.nextRequest := (mem_popped_or_queue inv).mpr (.inr queued)
  have wf := held.wellFormed id lt
  have known := held.known (.request id) d ⟨lt, (inv.queued id queued).2, wf.sub.subset inDeletes⟩
  have located := all_eq_true.mp current d.number (wf.numbers ▸ mem_map_of_mem inDeletes)
  simp only [State.located, any_eq_true, Bool.and_eq_true, decide_eq_true_eq] at located
  obtain ⟨file, inFiles, -, number⟩ := located
  have installed : s.At .installed d.number := number ▸ mem_map_of_mem inFiles
  rcases known with inFiles | removed
  · exact inFiles
  · cases numbers.exclusive .installed .removed _ installed removed

theorem leaderInstall_ready (pc : s.pc t = .leaderLog own batch commitBatch) :
    Ready (s.setPc t (.leaderLogged own batch commitBatch true)) commitBatch := by
  have logging : ∀ id ∈ commitBatch, id ∈ (s.pc t).role.logging := fun id mem => by rw [pc]; exact mem
  have lt : ∀ id ∈ commitBatch, id < s.nextRequest := fun id mem => logging_below inv (logging id mem)
  have nodup : commitBatch.Nodup := by simpa [pc, Pc.role, Role.commitBatch] using inv.distinct t
  have output : ∀ id ∈ commitBatch, ∀ m ∈ (s.requests id).pendingOutputs.map Prod.fst, s.At (.output id) m :=
    fun id mem m out => ⟨.inr ⟨t, logging id mem⟩, out⟩
  have holds : ∀ id ∈ commitBatch, ∀ d ∈ (s.requests id).deletes, s.Holds (.request id) d :=
    fun id mem d inDeletes => ⟨lt id mem, inv.logging t id (logging id mem),
      (held.wellFormed id (lt id mem)).sub.subset inDeletes⟩
  set s₁ := s.setPc t (.leaderLogged own batch commitBatch true) with returned
  have shrink : ∀ i m, s₁.At i m → s.At i m := by
    intro i m lies
    cases i with
    | inflight => exact (mem_inflight_update.mp lies).elim (fun new => absurd new.2 not_mem_nil) And.right
    | output => exact at_output lies rfl rfl rfl rfl
    | _ => exact lies
  have applied : ∀ id ∈ commitBatch, ¬ s₁.Unapplied id := by
    rintro id mem (queued | ⟨u, inLog⟩)
    · exact popped_queue_disjoint inv (inv.batch t id (logging_subset (logging id mem))).1 queued
    · by_cases eq : u = t
      · simp [s₁, State.setPc, eq, Pc.role, Role.logging] at inLog
      · simp only [s₁, State.setPc, update_of_ne eq] at inLog
        exact eq (inv.unique u t (commitBatch_leads (logging_subset inLog))
          (commitBatch_leads (logging_subset (logging id mem))))
  constructor
  case numbers => exact numbers.setPc_same ⟨rfl, rfl, rfl, rfl, rfl, rfl⟩ rfl (pc ▸ rfl) rfl rfl rfl
  case wellFormed => exact fun id mem => held.wellFormed id (lt id mem)
  case present => exact fun id mem => held.logging t id (logging id mem)
  case homeless =>
    intro id mem m out i lies
    obtain rfl := numbers.exclusive i (.output id) m (shrink i m lies) (output id mem m out)
    exact applied id mem lies.1
  case apart =>
    refine nodup.pairwise_of_forall_ne fun id mem id' member' ne => ⟨?_, ?_⟩
    · intro m out out'
      exact ne (Home.output.inj (numbers.exclusive _ _ m (output id mem m out) (output id' member' m out')))
    · intro m deleted deleted'
      obtain ⟨d, inDeletes, rfl⟩ := mem_map.mp deleted
      obtain ⟨d', inDeletes', number⟩ := mem_map.mp deleted'
      exact ne (Holder.request.inj (held.exclusive _ _ d.number ⟨d, holds id mem d inDeletes, rfl⟩
        ⟨d', holds id' member' d' inDeletes', number⟩))

theorem Numbers.leaderInstall (pc : s.pc t = .leaderLog own batch commitBatch) :
    Numbers (((commitBatch.foldl State.installRequest s).releaseRequests commitBatch).setPc t
      (.leaderLogged own batch commitBatch true)) := by
  have installed := (leaderInstall_ready inv numbers held pc).install
  rw [installAll_setPc] at installed
  exact installed.release commitBatch

theorem Numbers.step (step : Step cfg s e s') :
    Numbers s' := by
  cases step with
  | reserve count => exact numbers.reserve count
  | enqueue _ _ _ pc _ nodup owned => exact numbers.enqueue pc nodup owned _ _
  | refillWindow _ _ pc | commitWait _ _ pc | commitLead _ _ pc | wake _ _ _ pc
  | leaderExit _ _ pc | leaderDelay _ _ pc | leaderProceed _ _ pc | leaderError _ _ _ _ _ pc | pick _ _ _ _ pc
  | gatherEnd _ _ _ pc | gather _ _ _ _ pc | moveEnd _ _ _ pc | mergeFail _ _ _ _ _ pc =>
    exact numbers.setPc_same ⟨rfl, rfl, rfl, rfl, rfl, rfl⟩ rfl (pc ▸ rfl) rfl rfl rfl
  | refillNothing _ _ pc | refillStop _ _ _ pc => exact numbers.finishRefill .ok (pc ▸ rfl)
  | refillStart _ caller _ _ pc | refillFail _ caller _ _ _ pc
  | refillCount _ caller _ _ _ pc =>
    exact numbers.setPc_same ⟨rfl, rfl, rfl, rfl, rfl, rfl⟩ rfl (pc ▸ rfl) (by cases caller <;> rfl) rfl rfl
  | refillBatch _ _ locals trickle _ _ pc _ _ _ taken =>
    have queued := takeBatch_append (locals.targetBytes - s.visibleBytes)
      (if trickle then 1 else max 1 cfg.maxRegisterBatchFiles) 0 0 s.pending
    rw [taken] at queued
    exact numbers.refillBatch (pc ▸ rfl) queued.symm none
  | refillInstall _ _ _ _ _ pc => exact numbers.refillInstall pc
  | refillUndo t caller _ _ _ pc =>
    cases caller with
    | user => exact numbers.refillUndo pc none rfl rfl
    | leader => exact numbers.refillUndo pc (some t) rfl rfl
  | move _ _ _ _ pc => exact numbers.push 0 (pc ▸ rfl) nofun
  | merge _ _ _ outputs _ pc =>
    refine numbers.push outputs.length (pc ▸ rfl) fun m mem => ?_
    change m ∈ (numberOutputs s.nextFile outputs).map Prod.fst at mem
    rw [numberOutputs_fst] at mem
    exact mem_range'_1.mp mem
  | leaderAwake _ _ _ pc =>
    refine numbers.setPc_same ⟨rfl, rfl, rfl, rfl, rfl, rfl⟩ rfl ?_ ?_ rfl rfl
    · rw [pc]
      split_ifs <;> rfl
    · split_ifs <;> rfl
  | leaderStale _ _ pc =>
    refine numbers.of_update ⟨rfl, rfl, rfl, rfl, rfl, rfl⟩ rfl (pc ▸ rfl) nofun (fun id => mem_of_mem_drop) fun id => ?_
    exact pendingOutputs_of_static (static_takeCommitBatch s cfg id)
  | leaderLog _ _ pc =>
    refine numbers.of_update ⟨rfl, rfl, rfl, rfl, rfl, rfl⟩ rfl (pc ▸ rfl) ?_ (fun id => mem_of_mem_drop) fun id => ?_
    · intro id mem
      exact .inl ((commitRun_front s cfg).subset (mem_of_mem_filter mem))
    · exact pendingOutputs_of_static (static_takeCommitBatch s cfg id)
  | leaderInstall _ _ _ _ _ pc => exact numbers.leaderInstall inv held pc
  | leaderFail t own batch commitBatch callback _ pc =>
    have returned : Numbers (s.setPc t (.leaderLogged own batch commitBatch false)) :=
      numbers.setPc_same ⟨rfl, rfl, rfl, rfl, rfl, rfl⟩ rfl (pc ▸ rfl) rfl rfl rfl
    cases callback with
    | false => exact returned
    | true => exact returned.release commitBatch
  | leaderAccount t _ _ commitBatch _ pc =>
    have files := accountAll_sameFiles s (commitBatch.map s.requests)
    have queue := accountAll_sameQueue s (commitBatch.map s.requests)
    exact numbers.setPc_same { files with }
      (congrArg (update · t _) queue.pc) (pc ▸ rfl) rfl queue.queue queue.requests
  | leaderMark t own _ commitBatch status pc =>
    have returned : Numbers (s.setPc t (.leaderLoop own)) :=
      numbers.setPc_same ⟨rfl, rfl, rfl, rfl, rfl, rfl⟩ rfl (pc ▸ rfl) rfl rfl rfl
    exact (((returned.release commitBatch).markDone commitBatch status).release _).markDone _ _
  | commitReturn _ own pc =>
    exact numbers.of_update ⟨rfl, rfl, rfl, rfl, rfl, rfl⟩ rfl (pc ▸ rfl) nofun (fun _ => id)
      fun id => pendingOutputs_of_static (static_release s [own] id)

theorem Held.step (step : Step cfg s e s') : Held s' := by
  have kept : ∀ file ∈ s.files, file ∈ s.files := fun _ => id
  cases step with
  | reserve =>
    exact held.of_same (fun i _ holds => by cases i <;> exact holds)
      (fun i file holds => held.marked i file (by cases i <;> exact holds)) (fun _ _ _ => id) held.distinct held.gathered
      rfl (fun _ => rfl) held.logging
  | enqueue _ _ _ pc | refillWindow _ _ pc | commitWait _ _ pc | commitLead _ _ pc
  | wake _ _ _ pc | leaderExit _ _ pc | leaderDelay _ _ pc | leaderProceed _ _ pc | leaderError _ _ _ _ _ pc =>
    exact held.setPc_same rfl (pc ▸ rfl) nofun nofun kept rfl rfl rfl rfl
  | refillNothing _ _ pc | refillStop _ _ _ pc => exact held.finishRefill .ok (pc ▸ rfl)
  | refillStart _ caller _ _ pc | refillBatch _ caller _ _ _ _ pc
  | refillFail _ caller _ _ _ pc | refillCount _ caller _ _ _ pc =>
    exact held.setPc_same rfl (pc ▸ rfl) nofun (by cases caller <;> nofun) kept rfl rfl rfl rfl
  | refillInstall _ caller _ _ _ pc =>
    exact held.setPc_same rfl (pc ▸ rfl) nofun (by cases caller <;> nofun)
      (fun _ mem => mem_append_left _ mem) rfl rfl rfl rfl
  | refillUndo _ caller _ _ _ pc =>
    cases caller <;> exact held.setPc_same rfl (pc ▸ rfl) nofun nofun kept rfl rfl rfl rfl
  | pick _ _ _ _ pc allowed => exact held.pick pc allowed
  | gatherEnd _ _ _ pc | moveEnd _ _ _ pc | mergeFail _ _ _ _ _ pc =>
    exact held.giveUp (pc ▸ rfl)
  | gather t _ _ _ pc found =>
    refine held.setPc_same rfl (pc ▸ rfl) (fun file mem => ?_) nofun kept rfl rfl rfl rfl
    have known := held.known (.thread t) file (by change file ∈ (s.pc t).inputs; rw [pc]; exact mem)
    exact (virtual_of_registered numbers known (gatherInputs_ok found file mem)).2
  | move t _ _ _ pc found =>
    have nodup := held.distinct t
    rw [pc] at nodup
    obtain ⟨movedNumbers, registered⟩ := gatherMoved_ok found
    refine held.push (pc ▸ rfl) (moveRequest_wellFormed nodup (fun file mem => ?_) movedNumbers)
      fun u id => logging_below inv
    have known := held.known (.thread t) file
      (by change file ∈ (s.pc t).inputs; rw [pc]; exact mem_of_mem_filter mem)
    exact (virtual_of_registered numbers known (registered file mem)).2
  | merge t _ _ _ _ pc =>
    have nodup := held.distinct t
    have gathered := held.gathered t
    rw [pc] at nodup gathered
    exact held.push (pc ▸ rfl) (commitRequest_wellFormed nodup gathered _ _) fun u id => logging_below inv
  | leaderAwake _ _ _ pc =>
    refine held.setPc_same rfl ?_ ?_ ?_ kept rfl rfl rfl rfl
    · rw [pc]
      split_ifs <;> rfl
    · split_ifs <;> nofun
    · split_ifs <;> nofun
  | leaderStale t _ pc =>
    exact (held.take inv).setPc_same rfl (by change _ = (s.pc t).inputs; rw [pc]; rfl) nofun nofun kept rfl rfl rfl rfl
  | leaderLog t _ pc =>
    have taken : Held (s.takeCommitBatch cfg) := held.take inv
    refine taken.setPc_same rfl (by change _ = (s.pc t).inputs; rw [pc]; rfl) nofun
      (fun id mem d inDeletes => ?_) kept rfl rfl rfl rfl
    have inRun := mem_filter.mp mem
    rw [deletes_of_static (static_takeCommitBatch s cfg _)] at inDeletes
    exact deletes_current inv numbers held ((commitRun_front s cfg).subset inRun.1) inRun.2 d inDeletes
  | leaderInstall _ _ _ _ _ pc => exact held.leaderInstall inv pc
  | leaderFail t own batch commitBatch callback _ pc =>
    have returned : Held (s.setPc t (.leaderLogged own batch commitBatch false)) :=
      held.setPc_same rfl (pc ▸ rfl) nofun nofun kept rfl rfl rfl rfl
    cases callback with
    | false => exact returned
    | true =>
      exact returned.release commitBatch fun id mem => logging_below inv (u := t) (by rw [pc]; exact mem)
  | leaderAccount t _ _ commitBatch _ pc =>
    have files := accountAll_sameFiles s (commitBatch.map s.requests)
    have queue := accountAll_sameQueue s (commitBatch.map s.requests)
    exact held.setPc_same (congrArg (update · t _) queue.pc) (pc ▸ rfl) nofun nofun
      (fun file mem => files.files.symm ▸ mem) files.removed (accountAll_kept _ s).1 queue.requests
      queue.nextRequest
  | leaderMark t own _ commitBatch status pc =>
    have returned : Held (s.setPc t (.leaderLoop own)) :=
      held.setPc_same rfl (pc ▸ rfl) nofun nofun kept rfl rfl rfl rfl
    have popped : ∀ id ∈ s.popped, id < s.nextRequest := fun id mem => (mem_popped_or_queue inv).mpr (.inl mem)
    have first := (returned.release commitBatch fun id mem =>
      popped id (inv.batch t id (by rw [pc]; exact mem)).1).markDone commitBatch status
    exact (first.release _ fun id mem =>
      popped id (inv.taken t id (by rw [pc]; exact mem_of_mem_filter mem))).markDone _ _
  | commitReturn t own pc =>
    have returned : Held (State.setPc { s with owner := none } t .idle) :=
      held.setPc_same rfl (pc ▸ rfl) nofun nofun kept rfl rfl rfl rfl
    exact returned.release [own] fun id mem =>
      mem_singleton.mp mem ▸ inv.own t own (pc ▸ rfl)

end

/-- Files and compactions are tracked together: each of the two invariants needs the other. -/
structure Tracked (s : State n) : Prop where
  numbers : Numbers s
  held : Held s

theorem tracked (reach : Reached cfg allowed s) : Tracked s := by
  refine reach.invariant (fun _ initial => ⟨numbers_initial initial, held_initial initial⟩) ?_
  rintro s e s' before ⟨numbers, held⟩ - step
  have inv := commitInv before
  exact ⟨numbers.step inv held step, held.step inv numbers step⟩

theorem located_onDisk (numbers : Numbers s) {number : ℕ} (missing : s.registry number = none)
    (located : s.located cf number = true) : s.onDisk number = true := by
  simp only [State.located, any_eq_true, Bool.and_eq_true, decide_eq_true_eq] at located
  obtain ⟨file, inFiles, -, eq⟩ := located
  have physical : file.virtual = false := by
    by_contra virtual
    have registered := (numbers.registered number).mpr
      (.inl (mem_virtualNumbers.mpr ⟨file, inFiles, by simpa using virtual, eq⟩))
    simp [missing] at registered
  simp only [State.onDisk, any_eq_true, Bool.and_eq_true, decide_eq_true_eq]
  exact ⟨file, inFiles, eq, by simp [physical]⟩

theorem map_ne_error {α β ε : Type} {x : Except ε α} {e : ε} (f : α → β) (ne : x ≠ .error e) : x.map f ≠ .error e := by
  cases x with
  | error => simpa [Except.map] using ne
  | ok => nofun

theorem gatherInputs_not_corrupt (numbers : Numbers s) (cf : ℕ) (files : List VersionFile) (message : String) :
    s.gatherInputs cf files ≠ .error (.corruption message) := by
  induction files with
  | nil => nofun
  | cons file rest ih =>
    unfold State.gatherInputs
    cases handle : s.registry file.number with
    | some => exact map_ne_error _ ih
    | none =>
      by_cases located : s.located cf file.number = true
      · simp [located, located_onDisk numbers handle located]
      · simp [located]

theorem gatherMoved_not_corrupt (numbers : Numbers s) (cf : ℕ) (files : List VersionFile) (message : String) :
    s.gatherMoved cf files ≠ .error (.corruption message) := by
  induction files with
  | nil => nofun
  | cons file rest ih =>
    unfold State.gatherMoved
    cases handle : s.registry file.number with
    | some => exact map_ne_error _ ih
    | none =>
      by_cases located : s.located cf file.number = true
      · simpa [located_onDisk numbers handle located] using map_ne_error _ ih
      · by_cases disk : s.onDisk file.number = true
        · simpa [disk] using map_ne_error _ ih
        · simp [disk, located]

/-- Each virtual file of the Versions is registered, each registered number is there or in flight, and no gather loop
reports corruption. -/
theorem registry_agrees_with_versions (cfg : ProtocolConfig) (s : State n) (reach : Reached cfg (fun _ _ => True) s) :
    (∀ file ∈ s.files, file.virtual = true → (s.registry file.number).isSome) ∧
    (∀ number, (s.registry number).isSome → (∃ file ∈ s.files, file.number = number) ∨
      ∃ t caller locals batch, number ∈ batch.map VirtualL0WindowFile.fileNumber ∧
        (s.pc t = .refillLog caller locals batch ∨ s.pc t = .refillLogged caller locals batch false)) ∧
    (∀ cf files message, s.gatherInputs cf files ≠ .error (.corruption message) ∧
      s.gatherMoved cf files ≠ .error (.corruption message)) := by
  have numbers := (tracked reach).numbers
  refine ⟨?_, ?_, fun cf files message =>
    ⟨gatherInputs_not_corrupt numbers cf files message, gatherMoved_not_corrupt numbers cf files message⟩⟩
  · intro file inFiles virtual
    exact (numbers.registered file.number).mpr (.inl (mem_virtualNumbers.mpr ⟨file, inFiles, virtual, rfl⟩))
  · intro number registered
    rcases (numbers.registered number).mp registered with virtual | ⟨t, inflight⟩
    · obtain ⟨file, inFiles, -, eq⟩ := mem_virtualNumbers.mp virtual
      exact .inl ⟨file, inFiles, eq⟩
    · unfold Pc.inflight at inflight
      split at inflight
      · rename_i caller locals batch lies
        exact .inr ⟨t, caller, locals, batch, inflight, .inl lies⟩
      · rename_i caller locals batch lies
        exact .inr ⟨t, caller, locals, batch, inflight, .inr lies⟩
      · nomatch inflight

theorem registry_agrees_with_versions_inflight : ∃ s : State 2, Reached plainConfig (fun _ _ => True) s ∧
    s.files = [deepFile 1, deepFile 2] ∧ (∃ caller locals, s.pc 0 = .refillLog caller locals [⟨3, threeKeys, 10, 1⟩]) ∧
    (s.registry 1).isSome ∧ s.gatherInputs 0 [deepFile 1] ≠ .error (.corruption "") := by
  have r := twoMoves
    |>.next trivial (.reserve 1)
    |>.next trivial (.enqueue 0 [⟨3, threeKeys, 10, 1⟩] rfl rfl (by simp) (by simp) (by decide))
    |>.next trivial (.refillStart 0 .user ⟨3, threeKeys, 10, 1⟩ [] rfl rfl)
    |>.next trivial (.refillBatch 0 .user _ false [⟨3, threeKeys, 10, 1⟩] [] rfl (by decide) rfl (by simp) rfl (by simp))
  have agrees := registry_agrees_with_versions plainConfig _ r
  exact ⟨_, r, rfl, ⟨_, _, rfl⟩, agrees.1 (deepFile 1) (by decide) rfl, (agrees.2.2 0 [deepFile 1] "").1⟩

/-- A file belongs to one compaction, a number to one place, and an edit being logged deletes current files only. -/
theorem compactions_apart (cfg : ProtocolConfig) (s : State n) (reach : Reached cfg (fun _ _ => True) s) :
    (Exclusive fun i number => ∃ file, s.Holds i file ∧ file.number = number) ∧
    (∀ i file, s.Holds i file → s.beingCompacted file.number = true) ∧
    (∀ t, ∀ id ∈ (s.pc t).role.logging, ∀ d ∈ (s.requests id).deletes, d ∈ s.files) ∧ Exclusive s.At := by
  obtain ⟨numbers, held⟩ := tracked reach
  exact ⟨held.exclusive, held.marked, held.logging, numbers.exclusive⟩

theorem compactions_apart_two : ∃ s : State 2, Reached plainConfig (fun _ _ => True) s ∧
    s.Holds (.thread 0) (deepFile 1) ∧ s.Holds (.thread 1) (deepFile 2) ∧ s.beingCompacted 2 = true ∧
    ¬ ∃ file, s.Holds (.thread 1) file ∧ file.number = 1 := by
  have r := twoMoves
    |>.next trivial (.pick 0 (deepMove 1) true rfl rfl ⟨by decide, by decide, by decide, by decide⟩)
    |>.next trivial (.pick 1 (deepMove 2) true rfl rfl ⟨by decide, by decide, by decide, by decide⟩)
  obtain ⟨exclusive, marked, -⟩ := compactions_apart plainConfig _ r
  refine ⟨_, r, .head _, .head _, marked (.thread 1) (deepFile 2) (.head _), fun both => ?_⟩
  have same := exclusive (.thread 0) (.thread 1) 1 ⟨deepFile 1, .head _, rfl⟩ both
  cases same

end VcompProof
