import Vcomp.Foundation.Placement
import Vcomp.Protocol.CommitQueue

namespace VcompModel

/-- Where a file number can be. `inflight` is a refill batch that is registered and not installed. -/
inductive Home (n : ℕ) where
  | fresh
  | reserved
  | pending
  | inflight (t : Fin n)
  | output (id : ℕ)
  | installed
  | removed

def Pc.inflight : Pc → List ℕ
  | .refillLog _ _ batch => batch.map (·.fileNumber)
  | .refillLogged _ _ batch false => batch.map (·.fileNumber)
  | _ => []

def virtualNumbers (files : List VersionFile) : List ℕ := (files.filter (·.virtual)).map (·.number)

variable {n : ℕ}

def State.Unapplied (s : State n) (id : ℕ) : Prop := id ∈ s.queue ∨ ∃ t, id ∈ (s.pc t).role.logging

def State.At (s : State n) : Home n → ℕ → Prop
  | .fresh, m => s.nextFile ≤ m
  | .reserved, m => m ∈ s.reserved
  | .pending, m => m ∈ s.pending.map (·.fileNumber)
  | .inflight t, m => m ∈ (s.pc t).inflight
  | .output id, m => s.Unapplied id ∧ m ∈ (s.requests id).pendingOutputs.map Prod.fst
  | .installed, m => m ∈ s.files.map (·.number)
  | .removed, m => m ∈ s.removed

end VcompModel

namespace VcompProof

open VcompModel Placement Function
open List hiding removeAll lookup take

variable {n : ℕ} {cfg : ProtocolConfig} {s s' : State n} {t : Fin n} {pc : Pc} {m : ℕ}

/-- Every number is in one place; the registry holds the virtual files of the Versions and those in flight. -/
structure Numbers (s : State n) : Prop where
  exclusive : Exclusive s.At
  pending : (s.pending.map (·.fileNumber)).Nodup
  inflight : ∀ t, (s.pc t).inflight.Nodup
  installed : (s.files.map (·.number)).Nodup
  registered : ∀ m, (s.registry m).isSome ↔ m ∈ virtualNumbers s.files ∨ ∃ t, m ∈ (s.pc t).inflight

@[simp] theorem isSome_registerAll (registry : ℕ → Option VirtualSST) (entries : List (ℕ × VirtualSST)) (m : ℕ) :
    (registerAll registry entries m).isSome ↔ (registry m).isSome ∨ m ∈ entries.map Prod.fst := by
  induction entries generalizing registry with
  | nil => simp [registerAll]
  | cons entry rest ih =>
    rw [registerAll, foldl_cons, ← registerAll, ih]
    by_cases eq : m = entry.1 <;> simp [eq]

@[simp] theorem isSome_removeAll (registry : ℕ → Option VirtualSST) (numbers : List ℕ) (m : ℕ) :
    (removeAll registry numbers m).isSome ↔ (registry m).isSome ∧ m ∉ numbers := by
  induction numbers generalizing registry with
  | nil => simp [removeAll]
  | cons number rest ih =>
    rw [removeAll, foldl_cons, ← removeAll, ih]
    by_cases eq : m = number <;> simp [eq]

theorem mem_virtualNumbers {files : List VersionFile} :
    m ∈ virtualNumbers files ↔ ∃ file ∈ files, file.virtual = true ∧ file.number = m := by
  simp [virtualNumbers, and_assoc]

theorem virtualNumbers_append (files files' : List VersionFile) :
    virtualNumbers (files ++ files') = virtualNumbers files ++ virtualNumbers files' := by
  simp [virtualNumbers]

theorem field_update {α : Type*} (field : Pc → α) (same : field pc = field (s.pc t)) (u : Fin n) :
    field (update s.pc t pc u) = field (s.pc u) := by
  by_cases eq : u = t
  · rw [eq, update_self, same]
  · rw [update_of_ne eq]

theorem numbers_initial (initial : Initial s) : Numbers s := by
  have none : ∀ t, (s.pc t).inflight = [] := fun t => by rw [initial.idle t]; rfl
  have applied : ∀ id, ¬ s.Unapplied id := by
    rintro id (queued | ⟨t, logging⟩)
    · simp [initial.queue] at queued
    · rw [initial.idle t] at logging
      simp [Pc.role, Role.logging] at logging
  constructor
  case exclusive =>
    have lt : ∀ m, s.nextFile ≤ m → m ∉ s.files.map (·.number) := by
      intro m fresh mem
      obtain ⟨file, inFiles, rfl⟩ := mem_map.mp mem
      exact absurd (initial.below file inFiles) (by omega)
    have places : ∀ i m, s.At i m → i = .fresh ∧ s.nextFile ≤ m ∨ i = .installed ∧ m ∈ s.files.map (·.number) := by
      intro i m lies
      cases i <;> simp_all [State.At, initial.reserved, initial.pending, initial.removed]
    intro i j m inI inJ
    rcases places i m inI with ⟨rfl, fresh⟩ | ⟨rfl, mem⟩ <;> rcases places j m inJ with ⟨rfl, fresh'⟩ | ⟨rfl, member'⟩
    · rfl
    · exact absurd member' (lt m fresh)
    · exact absurd mem (lt m fresh')
    · rfl
  case pending => simp [initial.pending]
  case inflight => simp [none]
  case installed => exact initial.distinct
  case registered =>
    intro m
    rw [initial.registered m, mem_virtualNumbers]
    simp [none]

structure SameFiles (s s' : State n) : Prop where
  files : s'.files = s.files
  registry : s'.registry = s.registry
  nextFile : s'.nextFile = s.nextFile
  reserved : s'.reserved = s.reserved
  pending : s'.pending = s.pending
  removed : s'.removed = s.removed

theorem Numbers.of_same (numbers : Numbers s) (eq : SameFiles s s')
    (inflight : ∀ u, (s'.pc u).inflight = (s.pc u).inflight)
    (outputs : ∀ id m, s'.At (.output id) m → s.At (.output id) m) : Numbers s' := by
  constructor
  case exclusive =>
    refine numbers.exclusive.mono fun i m lies => ?_
    cases i with
    | output id => exact outputs id m lies
    | _ =>
      simpa [State.At, eq.nextFile, eq.reserved, eq.pending, eq.files, eq.removed, inflight] using lies
  case pending => rw [eq.pending]; exact numbers.pending
  case inflight => intro u; rw [inflight u]; exact numbers.inflight u
  case installed => rw [eq.files]; exact numbers.installed
  case registered =>
    intro m
    rw [eq.registry, eq.files, numbers.registered m]
    simp [inflight]

theorem unapplied_of_update (threads : s'.pc = update s.pc t pc) (queue : ∀ id ∈ s'.queue, id ∈ s.queue)
    (logging : ∀ id ∈ pc.role.logging, s.Unapplied id) {id : ℕ} (unapplied : s'.Unapplied id) : s.Unapplied id := by
  rcases unapplied with queued | ⟨u, mem⟩
  · exact .inl (queue id queued)
  · rw [threads] at mem
    by_cases eq : u = t
    · rw [eq, update_self] at mem
      exact logging id mem
    · rw [update_of_ne eq] at mem
      exact .inr ⟨u, mem⟩

theorem Numbers.of_update (numbers : Numbers s) (eq : SameFiles s s') (threads : s'.pc = update s.pc t pc)
    (inflight : pc.inflight = (s.pc t).inflight) (logging : ∀ id ∈ pc.role.logging, s.Unapplied id)
    (queue : ∀ id ∈ s'.queue, id ∈ s.queue)
    (outputs : ∀ id, (s'.requests id).pendingOutputs = (s.requests id).pendingOutputs) : Numbers s' := by
  refine numbers.of_same eq (fun u => ?_) fun id m lies => ?_
  · rw [threads]
    exact field_update Pc.inflight inflight u
  · exact ⟨unapplied_of_update threads queue logging lies.1, outputs id ▸ lies.2⟩

theorem Numbers.setPc_same (numbers : Numbers s) (eq : SameFiles s s') (threads : s'.pc = update s.pc t pc)
    (inflight : pc.inflight = (s.pc t).inflight) (logging : pc.role.logging = [])
    (queue : s'.queue = s.queue) (requests : s'.requests = s.requests) : Numbers s' :=
  numbers.of_update eq threads inflight (by simp [logging]) (fun _ queued => queue ▸ queued) (by simp [requests])

theorem Numbers.reserve (numbers : Numbers s) (count : ℕ) : Numbers { s with
      nextFile := s.nextFile + count, reserved := s.reserved ++ List.range' s.nextFile count } := by
  refine ⟨?_, numbers.pending, numbers.inflight, numbers.installed, numbers.registered⟩
  refine numbers.exclusive.move .fresh .reserved (List.range' s.nextFile count) ?_ ?_
  · intro m mem
    exact (mem_range'_1.mp mem).1
  · intro i m lies
    cases i with
    | fresh =>
      have beyond : s.nextFile + count ≤ m := lies
      refine .inl ⟨?_, fun _ mem => ?_⟩
      · change s.nextFile ≤ m
        omega
      · have := (mem_range'_1.mp mem).2
        omega
    | reserved =>
      rcases mem_append.mp lies with old | new
      · exact .inl ⟨old, nofun⟩
      · exact .inr ⟨rfl, new⟩
    | _ => exact .inl ⟨lies, nofun⟩

variable {caller : RefillCaller} {locals : RefillLocals} {batch : List VirtualL0WindowFile}

theorem inflight_refillLog (locals : RefillLocals) (batch : List VirtualL0WindowFile) :
    (Pc.refillLog caller locals batch).inflight = batch.map (·.fileNumber) := rfl

theorem mem_inflight_update {u : Fin n} :
    m ∈ (update s.pc t pc u).inflight ↔ u = t ∧ m ∈ pc.inflight ∨ u ≠ t ∧ m ∈ (s.pc u).inflight := by
  by_cases eq : u = t
  · rw [eq, update_self]
    simp
  · rw [update_of_ne eq]
    simp [eq]

theorem exists_inflight_update :
    (∃ u, m ∈ (update s.pc t pc u).inflight) ↔ m ∈ pc.inflight ∨ ∃ u ≠ t, m ∈ (s.pc u).inflight := by
  simp only [mem_inflight_update]
  aesop

theorem exists_inflight_split (s : State n) (t : Fin n) (m : ℕ) :
    (∃ u, m ∈ (s.pc u).inflight) ↔ m ∈ (s.pc t).inflight ∨ ∃ u ≠ t, m ∈ (s.pc u).inflight := by
  rw [← exists_inflight_update, update_eq_self]

theorem at_output {id : ℕ} (lies : s'.At (.output id) m) (threads : s'.pc = update s.pc t pc)
    (logging : pc.role.logging = []) (queue : s'.queue = s.queue) (requests : s'.requests = s.requests) :
    s.At (.output id) m :=
  ⟨unapplied_of_update threads (fun _ queued => queue ▸ queued) (by simp [logging]) lies.1, requests ▸ lies.2⟩

theorem Numbers.enqueue (numbers : Numbers s) {files : List VirtualL0WindowFile} (pcIdle : s.pc t = .idle)
    (nodup : (files.map (·.fileNumber)).Nodup) (owned : ∀ file ∈ files, file.fileNumber ∈ s.reserved)
    (largest : ℕ) (owner : Option (Fin n)) : Numbers (State.setPc { s with
      owner := owner
      pending := s.pending ++ files
      reserved := s.reserved.filter fun number => !(files.any (·.fileNumber = number))
      largestEnqueued := largest } t (.refillEntry .user)) := by
  have inflight : ∀ u, (update s.pc t (.refillEntry .user) u).inflight = (s.pc u).inflight :=
    field_update Pc.inflight (by rw [pcIdle]; rfl)
  constructor
  case exclusive =>
    refine numbers.exclusive.move .reserved .pending (files.map (·.fileNumber)) ?_ ?_
    · intro m mem
      obtain ⟨file, inFiles, rfl⟩ := mem_map.mp mem
      exact owned file inFiles
    · intro i m lies
      cases i with
      | reserved =>
        have kept := mem_filter.mp lies
        refine .inl ⟨kept.1, fun _ mem => ?_⟩
        obtain ⟨file, inFiles, rfl⟩ := mem_map.mp mem
        have gone := kept.2
        simp only [Bool.not_eq_true', any_eq_false, decide_eq_true_eq] at gone
        exact gone file inFiles rfl
      | pending =>
        have queued : m ∈ (s.pending ++ files).map (·.fileNumber) := lies
        rw [map_append, mem_append] at queued
        rcases queued with old | new
        · exact .inl ⟨old, nofun⟩
        · exact .inr ⟨rfl, new⟩
      | inflight u => exact .inl ⟨(mem_inflight_update.mp lies).elim (fun new => absurd new.2 not_mem_nil) And.right,
          fun other => by cases other⟩
      | output id => exact .inl ⟨at_output lies rfl rfl rfl rfl, nofun⟩
      | _ => exact .inl ⟨lies, nofun⟩
  case pending =>
    change ((s.pending ++ files).map (·.fileNumber)).Nodup
    rw [map_append]
    refine numbers.pending.append nodup fun m queued mem => ?_
    obtain ⟨file, inFiles, rfl⟩ := mem_map.mp mem
    cases numbers.exclusive .pending .reserved _ queued (owned file inFiles)
  case inflight => intro u; exact inflight u ▸ numbers.inflight u
  case installed => exact numbers.installed
  case registered =>
    intro m
    simp only [setPc_pc, inflight]
    exact numbers.registered m

theorem takeBatch_append (remaining batchCap size bytes : ℕ) (pending : List VirtualL0WindowFile) :
    (takeBatch remaining batchCap size bytes pending).1 ++ (takeBatch remaining batchCap size bytes pending).2 =
      pending := by
  induction pending generalizing size bytes with
  | nil => rfl
  | cons file rest ih =>
    unfold takeBatch
    split_ifs
    · rfl
    · rfl
    · simp [ih]
    · rfl

theorem Numbers.refillBatch (numbers : Numbers s) {left : List VirtualL0WindowFile}
    (before : (s.pc t).inflight = []) (queued : s.pending = batch ++ left) (owner : Option (Fin n)) :
    Numbers (State.setPc { s with
      owner := owner
      pending := left
      registry := registerAll s.registry (batch.map fun file => (file.fileNumber, file.vsst)) }
      t (.refillLog caller locals batch)) := by
  have pending := numbers.pending
  rw [queued, map_append, nodup_append'] at pending
  constructor
  case exclusive =>
    refine numbers.exclusive.move .pending (.inflight t) (batch.map (·.fileNumber)) ?_ ?_
    · intro m mem
      change m ∈ s.pending.map (·.fileNumber)
      rw [queued, map_append]
      exact mem_append_left _ mem
    · intro i m lies
      cases i with
      | pending =>
        refine .inl ⟨?_, fun _ mem => pending.2.2 mem lies⟩
        change m ∈ s.pending.map (·.fileNumber)
        rw [queued, map_append]
        exact mem_append_right _ lies
      | inflight u =>
        rcases mem_inflight_update.mp lies with ⟨rfl, new⟩ | ⟨-, old⟩
        · exact .inr ⟨rfl, new⟩
        · exact .inl ⟨old, nofun⟩
      | output id =>
        refine .inl ⟨at_output lies rfl ?_ rfl rfl, nofun⟩
        cases caller <;> rfl
      | _ => exact .inl ⟨lies, nofun⟩
  case pending => exact pending.2.1
  case inflight =>
    refine (forall_update_iff s.pc fun _ p => p.inflight.Nodup).mpr ⟨pending.1, fun u _ => numbers.inflight u⟩
  case installed => exact numbers.installed
  case registered =>
    intro m
    have names : (batch.map fun file => (file.fileNumber, file.vsst)).map Prod.fst = batch.map (·.fileNumber) := by
      simp
    simp only [State.setPc, isSome_registerAll, names, exists_inflight_update, numbers.registered m,
      exists_inflight_split s t m, before, inflight_refillLog, not_mem_nil, false_or]
    rw [or_assoc]
    exact or_congr_right or_comm

theorem versionFile_numbers (batch : List VirtualL0WindowFile) :
    (batch.map (·.versionFile)).map (·.number) = batch.map (·.fileNumber) := by
  rw [map_map]
  rfl

theorem versionFile_virtualNumbers (batch : List VirtualL0WindowFile) :
    virtualNumbers (batch.map (·.versionFile)) = batch.map (·.fileNumber) := by
  have all : (batch.map (·.versionFile)).filter (·.virtual) = batch.map (·.versionFile) := by
    simp [VirtualL0WindowFile.versionFile]
  rw [virtualNumbers, all, versionFile_numbers]

theorem Numbers.refillInstall (numbers : Numbers s) (at_log : s.pc t = .refillLog caller locals batch) :
    Numbers (State.setPc { s with files := s.files ++ batch.map (·.versionFile) }
      t (.refillLogged caller locals batch true)) := by
  have mine : (s.pc t).inflight = batch.map (·.fileNumber) := by rw [at_log]; rfl
  constructor
  case exclusive =>
    refine numbers.exclusive.move (.inflight t) .installed (batch.map (·.fileNumber)) (fun m mem => ?_) ?_
    · change m ∈ (s.pc t).inflight
      rw [mine]
      exact mem
    · intro i m lies
      cases i with
      | inflight u =>
        rcases mem_inflight_update.mp lies with ⟨-, new⟩ | ⟨ne, old⟩
        · nomatch new
        · exact .inl ⟨old, fun eq => absurd (Home.inflight.inj eq) ne⟩
      | installed =>
        have mem : m ∈ (s.files ++ batch.map (·.versionFile)).map (·.number) := lies
        rw [map_append, versionFile_numbers, mem_append] at mem
        rcases mem with old | new
        · exact .inl ⟨old, nofun⟩
        · exact .inr ⟨rfl, new⟩
      | output id =>
        refine .inl ⟨at_output lies rfl ?_ rfl rfl, nofun⟩
        cases caller <;> rfl
      | _ => exact .inl ⟨lies, nofun⟩
  case pending => exact numbers.pending
  case inflight =>
    exact (forall_update_iff s.pc fun _ p => p.inflight.Nodup).mpr
      ⟨nodup_nil, fun u _ => numbers.inflight u⟩
  case installed =>
    change ((s.files ++ batch.map (·.versionFile)).map (·.number)).Nodup
    rw [map_append, versionFile_numbers]
    refine numbers.installed.append (mine ▸ numbers.inflight t) fun m installed inflight => ?_
    cases numbers.exclusive .installed (.inflight t) m installed (mine.symm ▸ inflight : m ∈ (s.pc t).inflight)
  case registered =>
    intro m
    have none : (Pc.refillLogged caller locals batch true).inflight = [] := rfl
    simp only [State.setPc, virtualNumbers_append, versionFile_virtualNumbers, exists_inflight_update, mem_append,
      numbers.registered m, exists_inflight_split s t m, mine, none, not_mem_nil, false_or, or_assoc]

theorem Numbers.refillUndo (numbers : Numbers s)
    (at_log : s.pc t = .refillLogged caller locals batch false) (owner : Option (Fin n))
    (inflight : pc.inflight = []) (logging : pc.role.logging = []) : Numbers (State.setPc { s with
      owner := owner, registry := removeAll s.registry (batch.map (·.fileNumber)) } t pc) := by
  have mine : (s.pc t).inflight = batch.map (·.fileNumber) := by rw [at_log]; rfl
  constructor
  case exclusive =>
    refine numbers.exclusive.mono fun i m lies => ?_
    cases i with
    | inflight u =>
      rcases mem_inflight_update.mp lies with ⟨-, new⟩ | ⟨-, old⟩
      · simp [inflight] at new
      · exact old
    | output id => exact at_output lies rfl logging rfl rfl
    | _ => exact lies
  case pending => exact numbers.pending
  case inflight =>
    exact (forall_update_iff s.pc fun _ p => p.inflight.Nodup).mpr
      ⟨inflight ▸ nodup_nil, fun u _ => numbers.inflight u⟩
  case installed => exact numbers.installed
  case registered =>
    intro m
    simp only [State.setPc, isSome_removeAll, exists_inflight_update, numbers.registered m,
      exists_inflight_split s t m, mine, inflight, not_mem_nil, false_or]
    -- the batch is neither installed nor in flight in another thread
    have notInstalled : m ∈ batch.map (·.fileNumber) → m ∉ virtualNumbers s.files := by
      intro mem virtual
      have installed : m ∈ s.files.map (·.number) := (map_subset _ (filter_subset_self _)) virtual
      cases numbers.exclusive .installed (.inflight t) m installed (mine.symm ▸ mem : m ∈ (s.pc t).inflight)
    have notOther : m ∈ batch.map (·.fileNumber) → ¬ ∃ u ≠ t, m ∈ (s.pc u).inflight := by
      rintro mem ⟨u, ne, other⟩
      have eq := numbers.exclusive (.inflight u) (.inflight t) m other (mine.symm ▸ mem : m ∈ (s.pc t).inflight)
      exact ne (Home.inflight.inj eq)
    constructor
    · rintro ⟨virtual | mem | other, notMember⟩
      · exact .inl virtual
      · exact absurd mem notMember
      · exact .inr other
    · rintro (virtual | other)
      · exact ⟨.inl virtual, fun mem => notInstalled mem virtual⟩
      · exact ⟨.inr (.inr other), fun mem => notOther mem other⟩

theorem Numbers.push (numbers : Numbers s) {r : CommitRequest} (count : ℕ) (before : (s.pc t).inflight = [])
    (outputs : ∀ m ∈ r.pendingOutputs.map Prod.fst, s.nextFile ≤ m ∧ m < s.nextFile + count) :
    Numbers (State.pushRequest { s with nextFile := s.nextFile + count } t r) := by
  have inflight : ∀ u, (update s.pc t (.commitEntered s.nextRequest) u).inflight = (s.pc u).inflight :=
    field_update Pc.inflight before.symm
  refine ⟨?_, numbers.pending, fun u => (inflight u).symm ▸ numbers.inflight u, numbers.installed, fun m => ?_⟩
  · refine numbers.exclusive.move .fresh (.output s.nextRequest) (r.pendingOutputs.map Prod.fst)
      (fun m mem => (outputs m mem).1) ?_
    intro i m lies
    cases i with
    | fresh =>
      have beyond : s.nextFile + count ≤ m := lies
      refine .inl ⟨?_, fun _ mem => ?_⟩
      · change s.nextFile ≤ m
        omega
      · have := (outputs m mem).2
        omega
    | inflight u => exact .inl ⟨(mem_inflight_update.mp lies).elim (fun new => absurd new.2 not_mem_nil) And.right,
        fun other => by cases other⟩
    | output id =>
      obtain ⟨unapplied, mem⟩ := lies
      by_cases new : id = s.nextRequest
      · subst new
        simp only [State.pushRequest, State.setPc, update_self] at mem
        exact .inr ⟨rfl, mem⟩
      · refine .inl ⟨⟨?_, ?_⟩, fun other => by cases other⟩
        · rcases unapplied with queued | ⟨u, logging⟩
          · rcases mem_append.mp queued with old | last
            · exact .inl old
            · exact absurd (mem_singleton.mp last) new
          · by_cases eq : u = t
            · simp [State.pushRequest, State.setPc, eq, Pc.role, Role.logging] at logging
            · simp only [State.pushRequest, State.setPc, update_of_ne eq] at logging
              exact .inr ⟨u, logging⟩
        · simpa [State.pushRequest, State.setPc, update_of_ne new] using mem
    | _ => exact .inl ⟨lies, fun other => by cases other⟩
  · change (s.registry m).isSome ↔ _
    simp only [State.pushRequest, State.setPc, inflight]
    exact numbers.registered m

end VcompProof
