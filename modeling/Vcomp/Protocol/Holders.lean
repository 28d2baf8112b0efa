import Vcomp.Protocol.Install

namespace VcompModel

/-- The thread that picked it, and from its push on the request. -/
inductive Holder (n : ℕ) where
  | thread (t : Fin n)
  | request (id : ℕ)

def Pc.inputs : Pc → List VersionFile
  | .picked c _ => c.inputs
  | .merging c _ => c.inputs
  | _ => []

def Pc.gathered : Pc → List VersionFile
  | .merging c _ => c.inputs
  | _ => []

variable {n : ℕ}

def State.Holds (s : State n) : Holder n → VersionFile → Prop
  | .thread t, file => file ∈ (s.pc t).inputs
  | .request id, file => id < s.nextRequest ∧ (s.requests id).compactionReleased = false ∧
      file ∈ (s.requests id).compaction.inputs

def State.Known (s : State n) (file : VersionFile) : Prop := file ∈ s.files ∨ file.number ∈ s.removed

def CommitRequest.static (r : CommitRequest) : CommitRequest :=
  { r with compactionReleased := false, status := .ok, done := false }

end VcompModel

namespace VcompProof

open VcompModel Placement List Function

variable {n : ℕ} {cfg : ProtocolConfig} {s s' : State n} {t : Fin n} {pc : Pc} {file : VersionFile}
  {r r' : CommitRequest} {ids : List ℕ}

structure Held (s : State n) : Prop where
  exclusive : Exclusive fun i m => ∃ file, s.Holds i file ∧ file.number = m
  marked : ∀ i file, s.Holds i file → s.beingCompacted file.number = true
  known : ∀ i file, s.Holds i file → s.Known file
  distinct : ∀ t, ((s.pc t).inputs.map (·.number)).Nodup
  gathered : ∀ t, ∀ file ∈ (s.pc t).gathered, file.virtual = true
  wellFormed : ∀ id < s.nextRequest, WellFormed (s.requests id)
  logging : ∀ t, ∀ id ∈ (s.pc t).role.logging, ∀ d ∈ (s.requests id).deletes, d ∈ s.files

theorem held_initial (initial : Initial s) : Held s := by
  have idle : ∀ t, (s.pc t).inputs = [] ∧ (s.pc t).gathered = [] ∧ (s.pc t).role.logging = [] := by
    intro t
    rw [initial.idle t]
    exact ⟨rfl, rfl, rfl⟩
  have nothing : ∀ i file, ¬ s.Holds i file := by
    intro i file holds
    cases i with
    | thread t => simp [State.Holds, idle t] at holds
    | request id => simp [State.Holds, initial.nextRequest] at holds
  constructor
  case exclusive =>
    rintro i j m ⟨file, holds, -⟩
    exact absurd holds (nothing i file)
  case marked => intro i file holds; exact absurd holds (nothing i file)
  case known => intro i file holds; exact absurd holds (nothing i file)
  case distinct => simp [idle]
  case gathered => simp [idle]
  case wellFormed => simp [initial.nextRequest]
  case logging => simp [idle]

theorem static_release (s : State n) (ids : List ℕ) (id : ℕ) :
    ((s.releaseRequests ids).requests id).static = (s.requests id).static := by
  simp only [State.releaseRequests]
  split_ifs <;> rfl

theorem static_markDone (s : State n) (ids : List ℕ) (status : Status) (id : ℕ) :
    ((s.markDone ids status).requests id).static = (s.requests id).static := by
  simp only [State.markDone]
  split_ifs <;> rfl

theorem static_takeCommitBatch (s : State n) (cfg : ProtocolConfig) (id : ℕ) :
    ((s.takeCommitBatch cfg).requests id).static = (s.requests id).static :=
  (static_markDone _ _ _ id).trans (static_release _ _ id)

theorem pendingOutputs_of_static (eq : r'.static = r.static) : r'.pendingOutputs = r.pendingOutputs :=
  (congrArg CommitRequest.pendingOutputs eq :)

theorem deletes_of_static (eq : r'.static = r.static) : r'.deletes = r.deletes :=
  (congrArg CommitRequest.deletes eq :)

theorem WellFormed.of_static (wf : WellFormed r) (eq : r'.static = r.static) : WellFormed r' := by
  simp only [CommitRequest.static, CommitRequest.mk.injEq] at eq
  obtain ⟨compaction, deletes, adds, outputs, numbers, moved, inputFiles, inputBytes, outputFiles, outputBytes, -⟩ := eq
  obtain ⟨h1, h2, h3, h4, h5, h6, h7, h8, h9⟩ := wf
  constructor <;> simp only [compaction, deletes, adds, outputs, numbers, moved, inputFiles, inputBytes, outputFiles,
    outputBytes] <;> assumption

theorem Held.of_same (held : Held s) (holds : ∀ i file, s'.Holds i file → s.Holds i file)
    (marked : ∀ i file, s'.Holds i file → s'.beingCompacted file.number = true)
    (known : ∀ i file, s'.Holds i file → s.Known file → s'.Known file)
    (distinct : ∀ u, ((s'.pc u).inputs.map (·.number)).Nodup)
    (gathered : ∀ u, ∀ file ∈ (s'.pc u).gathered, file.virtual = true)
    (nextRequest : s'.nextRequest = s.nextRequest) (static : ∀ id, (s'.requests id).static = (s.requests id).static)
    (logging : ∀ u, ∀ id ∈ (s'.pc u).role.logging, ∀ d ∈ (s.requests id).deletes, d ∈ s'.files) : Held s' where
  exclusive := held.exclusive.mono fun i _ ⟨file, holdsFile, number⟩ => ⟨file, holds i file holdsFile, number⟩
  marked := marked
  known := fun i file holdsFile => known i file holdsFile (held.known i file (holds i file holdsFile))
  distinct := distinct
  gathered := gathered
  wellFormed := fun id lt => (held.wellFormed id (nextRequest ▸ lt)).of_static (static id)
  logging := fun u id mem d inDeletes => logging u id mem d (deletes_of_static (static id) ▸ inDeletes)

theorem Held.setPc_same (held : Held s) (threads : s'.pc = update s.pc t pc)
    (inputs : pc.inputs = (s.pc t).inputs) (gathered : ∀ file ∈ pc.gathered, file.virtual = true)
    (logging : ∀ id ∈ pc.role.logging, ∀ d ∈ (s.requests id).deletes, d ∈ s'.files)
    (files : ∀ file ∈ s.files, file ∈ s'.files) (removed : s'.removed = s.removed)
    (beingCompacted : s'.beingCompacted = s.beingCompacted)
    (requests : s'.requests = s.requests) (nextRequest : s'.nextRequest = s.nextRequest) : Held s' := by
  have inputsAll : ∀ u, (s'.pc u).inputs = (s.pc u).inputs := fun u => by
    rw [threads]
    exact field_update Pc.inputs inputs u
  have holds : ∀ i file, s'.Holds i file → s.Holds i file := by
    intro i file
    cases i <;> simp only [State.Holds, inputsAll, requests, nextRequest] <;> exact id
  refine held.of_same holds ?_ ?_ ?_ ?_ nextRequest (fun id => by rw [requests]) ?_
  · intro i file holdsFile
    rw [beingCompacted]
    exact held.marked i file (holds i file holdsFile)
  · intro i file _ known
    exact known.imp (files file) (removed ▸ ·)
  · intro u
    rw [inputsAll u]
    exact held.distinct u
  · rw [threads]
    exact (forall_update_iff s.pc fun _ p => ∀ file ∈ p.gathered, file.virtual = true).mpr
      ⟨gathered, fun u _ => held.gathered u⟩
  · rw [threads]
    refine (forall_update_iff s.pc fun _ p => ∀ id ∈ p.role.logging, ∀ d ∈ (s.requests id).deletes,
      d ∈ s'.files).mpr ⟨logging, fun u _ id mem d inDeletes => files d (held.logging u id mem d inDeletes)⟩

theorem holds_of_release {i : Holder n} (holds : (s.releaseRequests ids).Holds i file) : s.Holds i file := by
  cases i with
  | thread t => exact holds
  | request id =>
    obtain ⟨lt, running, mem⟩ := holds
    rw [releaseRequests_released] at running
    refine ⟨lt, (Bool.or_eq_false_iff.mp running).1, ?_⟩
    simp only [State.releaseRequests] at mem
    split_ifs at mem <;> exact mem

theorem not_holds_released {id : ℕ} (mem : id ∈ ids) : ¬ (s.releaseRequests ids).Holds (.request id) file := by
  rintro ⟨-, running, -⟩
  rw [releaseRequests_released] at running
  simp [mem] at running

theorem Held.release (held : Held s) (ids : List ℕ) (lt : ∀ id ∈ ids, id < s.nextRequest) :
    Held (s.releaseRequests ids) := by
  refine held.of_same (fun _ _ => holds_of_release) ?_ (fun _ _ _ => id) held.distinct held.gathered rfl
    (static_release s ids) held.logging
  intro i file holds
  have marked := held.marked i file (holds_of_release holds)
  simp only [State.releaseRequests, marked, Bool.true_and, Bool.not_eq_true', any_eq_false, mem_filter,
    any_eq_true, decide_eq_true_eq, not_exists, not_and]
  rintro id ⟨inIds, unreleased⟩ other mem number
  have running : (s.requests id).compactionReleased = false := by simpa using unreleased
  obtain rfl := held.exclusive i (.request id) file.number ⟨file, holds_of_release holds, rfl⟩
    ⟨other, ⟨lt id inIds, running, mem⟩, number⟩
  exact not_holds_released inIds holds

theorem Held.markDone (held : Held s) (ids : List ℕ) (status : Status) : Held (s.markDone ids status) := by
  have static := static_markDone s ids status
  have holds : ∀ i file, (s.markDone ids status).Holds i file → s.Holds i file := by
    intro i file
    cases i with
    | thread t => exact id
    | request id =>
      rintro ⟨lt, running, mem⟩
      rw [markDone_released] at running
      have inputs := congrArg (fun r => r.compaction.inputs) (static id)
      exact ⟨lt, running, (inputs : ((s.markDone ids status).requests id).compaction.inputs = _) ▸ mem⟩
  exact held.of_same holds (fun i file holdsFile => held.marked i file (holds i file holdsFile)) (fun _ _ _ => id)
    held.distinct held.gathered rfl static held.logging

theorem mem_inputs_update {u : Fin n} :
    file ∈ (update s.pc t pc u).inputs ↔ u = t ∧ file ∈ pc.inputs ∨ u ≠ t ∧ file ∈ (s.pc u).inputs := by
  by_cases eq : u = t
  · rw [eq, update_self]
    simp
  · rw [update_of_ne eq]
    simp [eq]

variable {c : Compaction}

theorem Held.pick (held : Held s) {trivialMove : Bool} (pcIdle : s.pc t = .idle) (allowed : CanPick s c) :
    Held (State.setPc
      { s with beingCompacted := fun number => s.beingCompacted number || c.inputs.any (·.number = number) }
      t (.picked c trivialMove)) := by
  set s₁ := State.setPc
    { s with beingCompacted := fun number => s.beingCompacted number || c.inputs.any (·.number = number) }
    t (.picked c trivialMove) with picked
  have split : ∀ i file, s₁.Holds i file → s.Holds i file ∨ i = .thread t ∧ file ∈ c.inputs := by
    intro i file holds
    cases i with
    | thread u =>
      rcases mem_inputs_update.mp holds with ⟨rfl, new⟩ | ⟨-, old⟩
      · exact .inr ⟨rfl, new⟩
      · exact .inl old
    | request id => exact .inl holds
  constructor
  case exclusive =>
    refine held.exclusive.add (.thread t) (c.inputs.map (·.number)) ?_ ?_
    · rintro i m ⟨file, holds, rfl⟩
      exact (split i file holds).imp (fun old => ⟨file, old, rfl⟩) fun new => ⟨new.1, mem_map_of_mem new.2⟩
    · rintro i m mem ⟨file, holds, rfl⟩
      rcases split i file holds with old | new
      · -- an input of the picked compaction was not marked, so nobody held it
        obtain ⟨input, inInputs, number⟩ := mem_map.mp mem
        have free := allowed.free input inInputs
        rw [number, held.marked i file old] at free
        cases free
      · exact new.1
  case marked =>
    intro i file holds
    simp only [picked, State.setPc, Bool.or_eq_true, any_eq_true, decide_eq_true_eq]
    exact (split i file holds).imp (held.marked i file) fun new => ⟨file, new.2, rfl⟩
  case known =>
    intro i file holds
    exact (split i file holds).elim (held.known i file) fun new => allowed.known file new.2
  case distinct =>
    refine (forall_update_iff s.pc fun _ p => (p.inputs.map (·.number)).Nodup).mpr
      ⟨?_, fun u _ => held.distinct u⟩
    exact allowed.distinct
  case gathered =>
    exact (forall_update_iff s.pc fun _ p => ∀ file ∈ p.gathered, file.virtual = true).mpr
      ⟨forall_mem_nil _, fun u _ => held.gathered u⟩
  case wellFormed => exact held.wellFormed
  case logging =>
    exact (forall_update_iff s.pc fun _ p => ∀ id ∈ p.role.logging, ∀ d ∈ (s.requests id).deletes,
      d ∈ s.files).mpr ⟨forall_mem_nil _, fun u _ => held.logging u⟩

theorem Held.giveUp (held : Held s) (mine : (s.pc t).inputs = c.inputs) :
    Held ((s.releaseCompaction c).setPc t .idle) := by
  have others : ∀ i file, ((s.releaseCompaction c).setPc t .idle).Holds i file → s.Holds i file ∧ i ≠ .thread t := by
    intro i file holds
    cases i with
    | thread u =>
      rcases mem_inputs_update.mp holds with ⟨-, new⟩ | ⟨ne, old⟩
      · cases new
      · exact ⟨old, fun eq => ne (Holder.thread.inj eq)⟩
    | request id => exact ⟨holds, fun eq => by cases eq⟩
  refine held.of_same (fun i file holds => (others i file holds).1) ?_ (fun _ _ _ => id) ?_ ?_ rfl (fun _ => rfl) ?_
  · intro i file holds
    obtain ⟨old, ne⟩ := others i file holds
    simp only [State.setPc, State.releaseCompaction, held.marked i file old, Bool.true_and, Bool.not_eq_true',
      any_eq_false, decide_eq_true_eq]
    intro input inInputs number
    have holdsInput : s.Holds (.thread t) input := by
      change input ∈ (s.pc t).inputs
      rw [mine]
      exact inInputs
    exact ne (held.exclusive i (.thread t) file.number ⟨file, old, rfl⟩ ⟨input, holdsInput, number⟩)
  · refine (forall_update_iff s.pc fun _ p => (p.inputs.map (·.number)).Nodup).mpr
      ⟨?_, fun u _ => held.distinct u⟩
    exact nodup_nil
  · exact (forall_update_iff s.pc fun _ p => ∀ file ∈ p.gathered, file.virtual = true).mpr
      ⟨forall_mem_nil _, fun u _ => held.gathered u⟩
  · exact (forall_update_iff s.pc fun _ p => ∀ id ∈ p.role.logging, ∀ d ∈ (s.requests id).deletes,
      d ∈ s.files).mpr ⟨forall_mem_nil _, fun u _ => held.logging u⟩

theorem Held.push (held : Held s) {nextFile : ℕ} (mine : (s.pc t).inputs = r.compaction.inputs)
    (wf : WellFormed r) (lt : ∀ u, ∀ id ∈ (s.pc u).role.logging, id < s.nextRequest) :
    Held (State.pushRequest { s with nextFile := nextFile } t r) := by
  set s₁ := State.pushRequest { s with nextFile := nextFile } t r with pushed
  have requests : s₁.requests = update s.requests s.nextRequest r := rfl
  have split : ∀ i file, s₁.Holds i file → (s.Holds i file ∧ i ≠ .thread t) ∨
      i = .request s.nextRequest ∧ file ∈ r.compaction.inputs := by
    intro i file holds
    cases i with
    | thread u =>
      rcases mem_inputs_update.mp holds with ⟨-, new⟩ | ⟨ne, old⟩
      · cases new
      · exact .inl ⟨old, fun eq => ne (Holder.thread.inj eq)⟩
    | request id =>
      obtain ⟨less, running, mem⟩ := holds
      rw [requests] at running mem
      by_cases new : id = s.nextRequest
      · subst new
        rw [update_self] at mem
        exact .inr ⟨rfl, mem⟩
      · rw [update_of_ne new] at running mem
        have less' : id < s.nextRequest + 1 := less
        exact .inl ⟨⟨by omega, running, mem⟩, nofun⟩
  have holdsInput : ∀ file ∈ r.compaction.inputs, s.Holds (.thread t) file := by
    intro file mem
    change file ∈ (s.pc t).inputs
    rw [mine]
    exact mem
  constructor
  case exclusive =>
    refine held.exclusive.move (.thread t) (.request s.nextRequest) (r.compaction.inputs.map (·.number)) ?_ ?_
    · intro m mem
      obtain ⟨file, inInputs, rfl⟩ := mem_map.mp mem
      exact ⟨file, holdsInput file inInputs, rfl⟩
    · rintro i m ⟨file, holds, rfl⟩
      rcases split i file holds with ⟨old, ne⟩ | ⟨new, mem⟩
      · exact .inl ⟨⟨file, old, rfl⟩, fun eq => absurd eq ne⟩
      · exact .inr ⟨new, mem_map_of_mem mem⟩
  case marked =>
    intro i file holds
    exact (split i file holds).elim (fun old => held.marked i file old.1)
      fun new => held.marked (.thread t) file (holdsInput file new.2)
  case known =>
    intro i file holds
    exact (split i file holds).elim (fun old => held.known i file old.1)
      fun new => held.known (.thread t) file (holdsInput file new.2)
  case distinct =>
    refine (forall_update_iff s.pc fun _ p => (p.inputs.map (·.number)).Nodup).mpr
      ⟨?_, fun u _ => held.distinct u⟩
    exact nodup_nil
  case gathered =>
    exact (forall_update_iff s.pc fun _ p => ∀ file ∈ p.gathered, file.virtual = true).mpr
      ⟨forall_mem_nil _, fun u _ => held.gathered u⟩
  case wellFormed =>
    intro id less
    rw [requests]
    rcases Nat.lt_succ_iff_lt_or_eq.mp less with old | rfl
    · rw [update_of_ne (ne_of_lt old)]
      exact held.wellFormed id old
    · rw [update_self]
      exact wf
  case logging =>
    refine (forall_update_iff s.pc fun _ p => ∀ id ∈ p.role.logging, ∀ d ∈ (s₁.requests id).deletes,
      d ∈ s.files).mpr ⟨nofun, fun u _ id mem d inDeletes => ?_⟩
    rw [requests, update_of_ne (ne_of_lt (lt u id mem))] at inDeletes
    exact held.logging u id mem d inDeletes

end VcompProof
