import Vcomp.Protocol.Numbers

namespace VcompProof

open VcompModel Placement List

variable {n : ℕ} {cfg : ProtocolConfig} {s s' : State n} {t : Fin n}

/-- A request deletes virtual inputs and adds its outputs or the moved inputs; its counts are the edit's. -/
structure WellFormed (r : CommitRequest) : Prop where
  sub : r.deletes.Sublist r.compaction.inputs
  distinct : (r.compaction.inputs.map (·.number)).Nodup
  numbers : r.inputFileNumbers = r.deletes.map (·.number)
  virtual : ∀ d ∈ r.deletes, d.virtual = true
  addsVirtual : ∀ a ∈ r.adds, a.virtual = true
  outputs : r.movedVirtuals = none → r.adds.map (·.number) = r.pendingOutputs.map Prod.fst ∧
    (r.pendingOutputs.map Prod.fst).Nodup
  moved : ∀ moved, r.movedVirtuals = some moved → moved.map Prod.fst = r.deletes.map (·.number) ∧
    r.adds.map (·.number) = r.deletes.map (·.number) ∧ r.pendingOutputs = []
  inputL0 : r.l0InputFiles = l0Files r.deletes ∧ r.l0InputBytes = l0Bytes r.deletes
  outputL0 : r.l0OutputFiles = l0Files r.adds ∧ r.l0OutputBytes = l0Bytes r.adds

variable {id : ℕ} {ids : List ℕ}

theorem eq_of_number {files : List VersionFile} (nodup : (files.map (·.number)).Nodup) {f g : VersionFile}
    (inF : f ∈ files) (inG : g ∈ files) (eq : f.number = g.number) : f = g :=
  inj_on_of_nodup_map nodup inF inG eq

theorem installRequest_files (nodup : (s.files.map (·.number)).Nodup)
    (present : ∀ d ∈ (s.requests id).deletes, d ∈ s.files) : (s.installRequest id).files =
      s.files.filter (fun file => file.number ∉ (s.requests id).deletes.map (·.number)) ++ (s.requests id).adds := by
  have left : s.files.filter (fun file =>
      !((s.requests id).deletes.any fun d => d.level = file.level && d.number = file.number)) =
      s.files.filter (fun file => file.number ∉ (s.requests id).deletes.map (·.number)) := by
    refine filter_congr fun file inFiles => ?_
    have eq : ((s.requests id).deletes.any fun d => d.level = file.level && d.number = file.number) = true ↔
        file.number ∈ (s.requests id).deletes.map (·.number) := by
      simp only [any_eq_true, Bool.and_eq_true, decide_eq_true_eq, mem_map]
      constructor
      · rintro ⟨d, mem, -, number⟩
        exact ⟨d, mem, number⟩
      · rintro ⟨d, mem, number⟩
        exact ⟨d, mem, by rw [eq_of_number nodup (present d mem) inFiles number], number⟩
    by_cases deleted : file.number ∈ (s.requests id).deletes.map (·.number)
    · simp only [eq.mpr deleted, deleted]
      rfl
    · simp only [Bool.eq_false_iff.mpr (mt eq.mp deleted), deleted]
      rfl
  unfold State.installRequest
  dsimp only
  split <;> rw [left]

theorem installRequest_same (s : State n) (id : ℕ) :
    (s.installRequest id).nextFile = s.nextFile ∧ (s.installRequest id).reserved = s.reserved ∧
      (s.installRequest id).pending = s.pending ∧ (s.installRequest id).beingCompacted = s.beingCompacted := by
  unfold State.installRequest
  dsimp only
  split <;> exact ⟨rfl, rfl, rfl, rfl⟩

theorem installRequest_removed (s : State n) (id : ℕ) : (s.installRequest id).removed =
    s.removed ++ if (s.requests id).movedVirtuals = none then (s.requests id).inputFileNumbers else [] := by
  unfold State.installRequest
  dsimp only
  split <;> simp [*]

theorem installRequest_registry (s : State n) (id : ℕ) : (s.installRequest id).registry =
    match (s.requests id).movedVirtuals with
    | some moved => registerAll s.registry moved
    | none => removeAll (registerAll s.registry (s.requests id).pendingOutputs) (s.requests id).inputFileNumbers := by
  cases moved : (s.requests id).movedVirtuals <;> simp [State.installRequest, moved]

section

variable (numbers : Numbers s) (wf : WellFormed (s.requests id))
  (present : ∀ d ∈ (s.requests id).deletes, d ∈ s.files)
  (homeless : ∀ m ∈ (s.requests id).pendingOutputs.map Prod.fst, ∀ i, ¬ s.At i m)
include numbers present

theorem mem_installed {m : ℕ} :
    m ∈ (s.installRequest id).files.map (·.number) ↔
      (m ∈ s.files.map (·.number) ∧ m ∉ (s.requests id).deletes.map (·.number)) ∨
        m ∈ (s.requests id).adds.map (·.number) := by
  rw [installRequest_files numbers.installed present, map_append, mem_append]
  refine or_congr_left ?_
  simp only [mem_map, mem_filter, decide_eq_true_eq]
  constructor
  · rintro ⟨file, ⟨inFiles, kept⟩, rfl⟩
    exact ⟨⟨file, inFiles, rfl⟩, kept⟩
  · rintro ⟨⟨file, inFiles, rfl⟩, kept⟩
    exact ⟨file, ⟨inFiles, kept⟩, rfl⟩

include wf

theorem mem_installed_virtual {m : ℕ} : m ∈ virtualNumbers (s.installRequest id).files ↔
      (m ∈ virtualNumbers s.files ∧ m ∉ (s.requests id).deletes.map (·.number)) ∨
        m ∈ (s.requests id).adds.map (·.number) := by
  have adds : virtualNumbers (s.requests id).adds = (s.requests id).adds.map (·.number) := by
    rw [virtualNumbers, filter_eq_self.mpr wf.addsVirtual]
  rw [installRequest_files numbers.installed present, virtualNumbers_append, mem_append, adds]
  refine or_congr_left ?_
  simp only [mem_virtualNumbers, mem_filter, decide_eq_true_eq]
  constructor
  · rintro ⟨file, ⟨inFiles, kept⟩, virtual, rfl⟩
    exact ⟨⟨file, inFiles, virtual, rfl⟩, kept⟩
  · rintro ⟨⟨file, inFiles, virtual, rfl⟩, kept⟩
    exact ⟨file, ⟨inFiles, kept⟩, virtual, rfl⟩

theorem at_install (i : Home n) (m : ℕ) (lies : (s.installRequest id).At i m) :
    (s.At i m ∧ ((s.requests id).movedVirtuals = none → i = .installed → m ∉ (s.requests id).deletes.map (·.number))) ∨
      (i = .installed ∧ m ∈ (s.requests id).pendingOutputs.map Prod.fst) ∨
      ((s.requests id).movedVirtuals = none ∧ i = .removed ∧ m ∈ (s.requests id).deletes.map (·.number)) := by
  have eq := installRequest_same s id
  have queue := installRequest_sameQueue s id
  cases i with
  | installed =>
    have mem : m ∈ (s.installRequest id).files.map (·.number) := lies
    rcases (mem_installed numbers present).mp mem with ⟨old, kept⟩ | added
    · exact .inl ⟨old, fun _ _ => kept⟩
    · cases moved : (s.requests id).movedVirtuals with
      | none => exact .inr (.inl ⟨rfl, (wf.outputs moved).1 ▸ added⟩)
      | some entries =>
        rw [(wf.moved entries moved).2.1] at added
        obtain ⟨d, inDeletes, rfl⟩ := mem_map.mp added
        exact .inl ⟨mem_map_of_mem (present d inDeletes), fun none => by cases none⟩
  | removed =>
    have mem : m ∈ (s.installRequest id).removed := lies
    rw [installRequest_removed, mem_append] at mem
    rcases mem with old | new
    · exact .inl ⟨old, fun _ other => by cases other⟩
    · split_ifs at new with none
      · exact .inr (.inr ⟨none, rfl, wf.numbers ▸ new⟩)
      · cases new
  | _ =>
    refine .inl ⟨?_, fun _ other => by cases other⟩
    simpa [State.At, State.Unapplied, eq.1, eq.2.1, eq.2.2.1, queue.pc, queue.queue, queue.requests] using lies

include homeless

theorem Numbers.install_exclusive : Exclusive (s.installRequest id).At := by
  have split := at_install numbers wf present
  cases moved : (s.requests id).movedVirtuals with
  | some entries =>
    refine numbers.exclusive.mono fun i m lies => ?_
    rcases split i m lies with ⟨old, -⟩ | ⟨-, output⟩ | ⟨none, -⟩
    · exact old
    · simp [(wf.moved entries moved).2.2] at output
    · simp [moved] at none
  | none =>
    -- first without the outputs, which then come to the Versions
    have inputs : Exclusive fun i m =>
        (s.installRequest id).At i m ∧ m ∉ (s.requests id).pendingOutputs.map Prod.fst := by
      refine numbers.exclusive.move .installed .removed ((s.requests id).deletes.map (·.number)) ?_ ?_
      · intro m mem
        obtain ⟨d, inDeletes, rfl⟩ := mem_map.mp mem
        exact mem_map_of_mem (present d inDeletes)
      · rintro i m ⟨lies, notOutput⟩
        rcases split i m lies with ⟨old, kept⟩ | ⟨-, output⟩ | ⟨-, removed⟩
        · exact .inl ⟨old, kept moved⟩
        · exact absurd output notOutput
        · exact .inr removed
    have onlyInstalled : ∀ i, ∀ m ∈ (s.requests id).pendingOutputs.map Prod.fst,
        (s.installRequest id).At i m → i = .installed := by
      intro i m output lies
      rcases split i m lies with ⟨old, -⟩ | ⟨installed, -⟩ | ⟨-, -, deleted⟩
      · exact absurd old (homeless m output i)
      · exact installed
      · obtain ⟨d, inDeletes, rfl⟩ := mem_map.mp deleted
        exact absurd (mem_map_of_mem (present d inDeletes)) (homeless _ output .installed)
    refine inputs.add .installed ((s.requests id).pendingOutputs.map Prod.fst) (fun i m lies => ?_) onlyInstalled
    by_cases output : m ∈ (s.requests id).pendingOutputs.map Prod.fst
    · exact .inr ⟨onlyInstalled i m output lies, output⟩
    · exact .inl ⟨lies, output⟩

theorem Numbers.install_registered (m : ℕ) : ((s.installRequest id).registry m).isSome ↔
      m ∈ virtualNumbers (s.installRequest id).files ∨ ∃ t, m ∈ (s.pc t).inflight := by
  rw [installRequest_registry, mem_installed_virtual numbers wf present]
  by_cases deleted : m ∈ (s.requests id).deletes.map (·.number)
  · -- a deleted number was installed, so it is neither an output nor in flight
    obtain ⟨d, inDeletes, rfl⟩ := mem_map.mp deleted
    have installed : s.At .installed d.number := mem_map_of_mem (present d inDeletes)
    have notInflight : ¬ ∃ t, d.number ∈ (s.pc t).inflight := by
      rintro ⟨t, inflight⟩
      cases numbers.exclusive .installed (.inflight t) _ installed inflight
    have notOutput : d.number ∉ (s.requests id).pendingOutputs.map Prod.fst :=
      fun output => homeless _ output .installed installed
    cases moved : (s.requests id).movedVirtuals with
    | some entries => simp [(wf.moved entries moved).1, (wf.moved entries moved).2.1, deleted]
    | none => simp [wf.numbers, deleted, (wf.outputs moved).1, notOutput, notInflight]
  · cases moved : (s.requests id).movedVirtuals with
    | some entries =>
      simp only [isSome_registerAll, (wf.moved entries moved).1, (wf.moved entries moved).2.1, deleted,
        numbers.registered m, or_false, not_false_eq_true, and_true]
    | none =>
      simp only [isSome_removeAll, isSome_registerAll, wf.numbers, (wf.outputs moved).1, deleted,
        numbers.registered m, not_false_eq_true, and_true]
      rw [or_assoc, or_assoc]
      exact or_congr_right or_comm

theorem Numbers.install : Numbers (s.installRequest id) := by
  have eq := installRequest_same s id
  have queue := installRequest_sameQueue s id
  refine ⟨numbers.install_exclusive wf present homeless, eq.2.2.1 ▸ numbers.pending, queue.pc ▸ numbers.inflight,
    ?_, queue.pc ▸ numbers.install_registered wf present homeless⟩
  rw [installRequest_files numbers.installed present, map_append]
  have left := numbers.installed.sublist (List.Sublist.map VersionFile.number (filter_sublist (l := s.files)
    (p := fun file => file.number ∉ (s.requests id).deletes.map (·.number))))
  have deletes : ((s.requests id).deletes.map (·.number)).Nodup := wf.distinct.sublist (wf.sub.map _)
  cases moved : (s.requests id).movedVirtuals with
  | some entries =>
    rw [(wf.moved entries moved).2.1]
    refine left.append deletes fun m kept deleted => ?_
    obtain ⟨file, inLeft, rfl⟩ := mem_map.mp kept
    exact absurd deleted (by simpa using (mem_filter.mp inLeft).2)
  | none =>
    rw [(wf.outputs moved).1]
    refine left.append (wf.outputs moved).2 fun m kept output => ?_
    exact homeless m output .installed ((List.Sublist.map _ filter_sublist).subset kept)

end

structure Ready (s : State n) (ids : List ℕ) : Prop where
  numbers : Numbers s
  wellFormed : ∀ id ∈ ids, WellFormed (s.requests id)
  present : ∀ id ∈ ids, ∀ d ∈ (s.requests id).deletes, d ∈ s.files
  homeless : ∀ id ∈ ids, ∀ m ∈ (s.requests id).pendingOutputs.map Prod.fst, ∀ i, ¬ s.At i m
  apart : ids.Pairwise fun id id' =>
    (∀ m ∈ (s.requests id).pendingOutputs.map Prod.fst, m ∉ (s.requests id').pendingOutputs.map Prod.fst) ∧
    ∀ m ∈ (s.requests id).deletes.map (·.number), m ∉ (s.requests id').deletes.map (·.number)

theorem Ready.next (ready : Ready s (id :: ids)) : Ready (s.installRequest id) ids := by
  have requests := (installRequest_sameQueue s id).requests
  have rest := pairwise_cons.mp ready.apart
  have wfFirst := ready.wellFormed id (by simp)
  have presentFirst := ready.present id (by simp)
  refine ⟨ready.numbers.install wfFirst presentFirst (ready.homeless id (by simp)), ?_, ?_, ?_, requests ▸ rest.2⟩
  · intro other mem
    exact requests ▸ ready.wellFormed other (by simp [mem])
  · intro other mem d inDeletes
    rw [requests] at inDeletes
    rw [installRequest_files ready.numbers.installed presentFirst]
    refine mem_append_left _ (mem_filter.mpr ⟨ready.present other (by simp [mem]) d inDeletes, ?_⟩)
    have notDeleted := fun deleted => (rest.1 other mem).2 d.number deleted (mem_map_of_mem inDeletes)
    simpa using notDeleted
  · intro other mem m output i lies
    rw [requests] at output
    have was := ready.homeless other (by simp [mem]) m output
    rcases at_install ready.numbers wfFirst presentFirst i m lies with ⟨old, -⟩ | ⟨-, mine⟩ | ⟨-, -, deleted⟩
    · exact was i old
    · exact (rest.1 other mem).1 m mine output
    · obtain ⟨d, inDeletes, rfl⟩ := mem_map.mp deleted
      exact was .installed (mem_map_of_mem (presentFirst d inDeletes))

theorem Ready.install (ready : Ready s ids) : Numbers (ids.foldl State.installRequest s) := by
  induction ids generalizing s with
  | nil => exact ready.numbers
  | cons id ids ih => exact ih ready.next

end VcompProof
