import Mathlib.Algebra.Order.BigOperators.Group.Finset
import Vcomp.Protocol.Accounting

namespace VcompModel

variable {n : ℕ}

def Pc.outstanding : Pc → List VirtualL0WindowFile
  | .refillLog _ _ batch => batch
  | .refillLogged _ _ batch _ => batch
  | _ => []

def Pc.uninstalled : Pc → List VirtualL0WindowFile
  | .refillLog _ _ batch => batch
  | .refillLogged _ _ batch false => batch
  | _ => []

/-- Bytes registered for level 0 and not consumed: in the Versions, or in a refill's `LogAndApply`. -/
def State.registeredL0Bytes (s : State n) : ℕ :=
  Counter.bytes.level0 s.files + ∑ t, Counter.bytes.batch (s.pc t).uninstalled

def SparesLevelZero (_ : State n) (e : Event n) : Prop :=
  ∀ t c trivialMove, e = .pick t c trivialMove → c.outputLevel ≠ 0

/-- A batch is formed only while no other refill has one registered and not counted. -/
def RefillsApart (s : State n) (e : Event n) : Prop :=
  ∀ t trickle, e = .refillBatch t trickle → ∀ u, (s.pc u).outstanding = []

def Pc.windowOk (target : ℕ) : Pc → Prop
  | .refillLoop _ locals => locals.targetBytes = target
  | .refillLog _ locals _ => locals.targetBytes = target
  | .refillLogged _ locals _ _ => locals.targetBytes = target
  | .picked c _ => c.outputLevel ≠ 0
  | .merging c _ => c.outputLevel ≠ 0
  | _ => True

end VcompModel

namespace VcompProof

open VcompModel List Function

variable {n : ℕ} {cfg : ProtocolConfig} {s s' : State n} {e : Event n} {t : Fin n} {p : Pc}

theorem batch_bytes (batch : List VirtualL0WindowFile) : Counter.bytes.batch batch = (batch.map (·.fileSize)).sum := by
  rw [Counter.batch, map_map]
  rfl

theorem takeBatch_bytes (remaining batchCap : ℕ) (pending : List VirtualL0WindowFile) (size bytes : ℕ) :
    let batch := (takeBatch remaining batchCap size bytes pending).1
    bytes + (batch.map (·.fileSize)).sum ≤ max bytes remaining ∨
      size = 0 ∧ ∃ file ∈ pending, batch = [file] ∧ remaining < bytes + file.fileSize := by
  induction pending generalizing size bytes with
  | nil => simp [takeBatch]
  | cons file rest ih =>
    unfold takeBatch
    split_ifs with room full reached
    · simp
    · by_cases exceeds : remaining < bytes + file.fileSize
      · refine .inr ⟨?_, file, by simp, rfl, exceeds⟩
        by_contra nonzero
        exact full ⟨nonzero, exceeds⟩
      · refine .inl ?_
        simp only [map_cons, map_nil, sum_cons, sum_nil]
        omega
    · refine .inl ?_
      rcases ih (size + 1) (bytes + file.fileSize) with within | ⟨zero, -⟩
      · simp only [map_cons, sum_cons]
        omega
      · omega
    · simp

structure Window (target : ℕ) (s : State n) : Prop where
  threads : ∀ t, (s.pc t).windowOk target
  spared : ∀ id < s.nextRequest, (s.requests id).l0OutputBytes = 0
  queued : ∀ file ∈ s.pending, file.fileSize ≤ s.largestEnqueued
  bound : s.visibleBytes + ∑ t, Counter.bytes.batch (s.pc t).outstanding < target + s.largestEnqueued

theorem window_initial (initial : Initial s) {target : ℕ} (pos : 0 < target) : Window target s := by
  have idle : ∀ t, s.pc t = .idle := initial.idle
  constructor
  case threads => simp [idle, Pc.windowOk]
  case spared => simp [initial.nextRequest]
  case queued => simp [initial.pending]
  case bound =>
    simp only [idle, Pc.outstanding, initial.visibleBytes]
    simp [Counter.batch]
    omega

theorem Window.of_update {target : ℕ} (window : Window target s) (threads : s'.pc = update s.pc t p)
    (ok : p.windowOk target) (nextRequest : s'.nextRequest = s.nextRequest)
    (spared : ∀ id, (s'.requests id).l0OutputBytes = (s.requests id).l0OutputBytes)
    (pending : ∀ file ∈ s'.pending, file ∈ s.pending) (largest : s'.largestEnqueued = s.largestEnqueued)
    (bound : s'.visibleBytes + Counter.bytes.batch p.outstanding ≤
      s.visibleBytes + Counter.bytes.batch (s.pc t).outstanding) : Window target s' := by
  constructor
  case threads =>
    rw [threads]
    exact (forall_update_iff s.pc fun _ p => p.windowOk target).mpr ⟨ok, fun u _ => window.threads u⟩
  case spared =>
    intro id lt
    rw [spared id]
    exact window.spared id (nextRequest ▸ lt)
  case queued =>
    intro file mem
    rw [largest]
    exact window.queued file (pending file mem)
  case bound =>
    have sum := Transition.sum_update (fun p => Counter.bytes.batch p.outstanding) s.pc t p
    have before := window.bound
    rw [threads, largest]
    omega

variable {target : ℕ} {caller : RefillCaller} {r : CommitRequest}

theorem Window.enqueue (window : Window target s) {files : List VirtualL0WindowFile} (pcIdle : s.pc t = .idle)
    (owner : Option (Fin n)) (reserved : List ℕ) : Window target (State.setPc { s with
      owner := owner
      pending := s.pending ++ files
      reserved := reserved
      largestEnqueued := files.foldl (fun largest file => max largest file.fileSize) s.largestEnqueued }
      t (.refillEntry .user)) := by
  have larger := ThetaSketch.le_foldl_max (·.fileSize) files s.largestEnqueued
  constructor
  case threads =>
    exact (forall_update_iff s.pc fun _ p => p.windowOk target).mpr ⟨trivial, fun u _ => window.threads u⟩
  case spared => exact window.spared
  case queued =>
    intro file mem
    rcases mem_append.mp mem with old | new
    · exact (window.queued file old).trans larger.1
    · exact larger.2 file new
  case bound =>
    have before := window.bound
    have eq : ∀ u, (update s.pc t (.refillEntry .user) u).outstanding = (s.pc u).outstanding :=
      field_update Pc.outstanding (by rw [pcIdle]; rfl)
    simp only [State.setPc, eq]
    omega

theorem Window.refillBatch (window : Window target s) {locals : RefillLocals}
    {batch left : List VirtualL0WindowFile} {batchCap : ℕ} {registry : ℕ → Option VirtualSST} {trickled : Bool}
    (pc : s.pc t = .refillLoop caller locals) (room : s.visibleBytes < locals.targetBytes)
    (taken : takeBatch (locals.targetBytes - s.visibleBytes) batchCap 0 0 s.pending = (batch, left))
    (alone : ∀ u, (s.pc u).outstanding = []) :
    Window target (State.setPc { s with owner := none, pending := left, registry := registry }
      t (.refillLog caller { locals with trickled := trickled } batch)) := by
  have goal : locals.targetBytes = target := by
    have ok := window.threads t
    rw [pc] at ok
    exact ok
  have split := takeBatch_append (locals.targetBytes - s.visibleBytes) batchCap 0 0 s.pending
  rw [taken] at split
  have queued : ∀ file ∈ batch ++ left, file.fileSize ≤ s.largestEnqueued := split ▸ window.queued
  constructor
  case threads =>
    exact (forall_update_iff s.pc fun _ p => p.windowOk target).mpr ⟨goal, fun u _ => window.threads u⟩
  case spared => exact window.spared
  case queued => exact fun file mem => queued file (mem_append_right _ mem)
  case bound =>
    have bytes := takeBatch_bytes (locals.targetBytes - s.visibleBytes) batchCap s.pending 0 0
    rw [taken] at bytes
    have sum := Transition.sum_update (fun p => Counter.bytes.batch p.outstanding) s.pc t
      (.refillLog caller { locals with trickled := trickled } batch)
    have mine : (Pc.refillLog caller { locals with trickled := trickled } batch).outstanding = batch := rfl
    have none : Counter.bytes.batch [] = 0 := rfl
    simp only [alone, none, Finset.sum_const_zero, mine, batch_bytes batch, add_zero, zero_add] at sum
    simp only [State.setPc, sum]
    rcases bytes with within | ⟨-, file, -, rfl, exceeds⟩
    · -- an empty sum of sizes needs the strict room, otherwise some file has a size
      have largest : (batch.map (·.fileSize)).sum = 0 ∨ 0 < s.largestEnqueued := by
        by_contra neither
        push Not at neither
        refine neither.1 (sum_eq_zero fun size mem => ?_)
        obtain ⟨file, inBatch, rfl⟩ := mem_map.mp mem
        have := queued file (mem_append_left _ inBatch)
        omega
      simp only [zero_add] at within
      omega
    · have := queued file (by simp)
      simp only [map_cons, map_nil, sum_cons, sum_nil]
      omega

theorem Window.push (window : Window target s) {nextFile : ℕ}
    (before : (s.pc t).outstanding = []) (spared : r.l0OutputBytes = 0) :
    Window target (State.pushRequest { s with nextFile := nextFile } t r) := by
  constructor
  case threads =>
    exact (forall_update_iff s.pc fun _ p => p.windowOk target).mpr ⟨trivial, fun u _ => window.threads u⟩
  case spared =>
    intro id lt
    change (update s.requests s.nextRequest r id).l0OutputBytes = 0
    rcases Nat.lt_succ_iff_lt_or_eq.mp lt with old | rfl
    · rw [update_of_ne (ne_of_lt old)]
      exact window.spared id old
    · rw [update_self]
      exact spared
  case queued => exact window.queued
  case bound =>
    have eq : ∀ u, (update s.pc t (.commitEntered s.nextRequest) u).outstanding = (s.pc u).outstanding :=
      field_update Pc.outstanding before.symm
    simp only [State.pushRequest, State.setPc, eq]
    exact window.bound

theorem outputBytes_of_static {r' : CommitRequest} (eq : r'.static = r.static) :
    r'.l0OutputBytes = r.l0OutputBytes := by
  have bytes := congrArg CommitRequest.l0OutputBytes eq
  exact bytes

section

variable (window : Window target s)
include window

theorem Window.of_static (threads : s'.pc = s.pc) (nextRequest : s'.nextRequest = s.nextRequest)
    (static : ∀ id, (s'.requests id).static = (s.requests id).static) (pending : s'.pending = s.pending)
    (largest : s'.largestEnqueued = s.largestEnqueued) (visible : s'.visibleBytes = s.visibleBytes) :
    Window target s' := by
  refine ⟨threads ▸ window.threads, fun id lt => ?_, ?_, ?_⟩
  · rw [outputBytes_of_static (static id)]
    exact window.spared id (nextRequest ▸ lt)
  · rw [pending, largest]
    exact window.queued
  · rw [visible, threads, largest]
    exact window.bound

theorem Window.release (ids : List ℕ) : Window target (s.releaseRequests ids) :=
  window.of_static rfl rfl (static_release s ids) rfl rfl rfl

theorem Window.markDone (ids : List ℕ) (status : Status) : Window target (s.markDone ids status) :=
  window.of_static rfl rfl (static_markDone s ids status) rfl rfl rfl

theorem Window.finishRefill (status : Status)
    (before : (s.pc t).outstanding = []) : Window target (s.finishRefill t status caller) := by
  cases caller with
  | user => exact window.of_update rfl trivial rfl (fun _ => rfl) (fun _ => id) rfl (before ▸ le_rfl)
  | leader own batch commitBatch =>
    exact window.of_update rfl trivial rfl (fun _ => rfl) (fun _ => id) rfl (before ▸ le_rfl)

end

theorem visibleBytes_accountAll (rs : List CommitRequest) (spared : ∀ r ∈ rs, r.l0OutputBytes = 0) (s : State n) :
    (rs.foldl State.accountVirtualL0Compaction s).visibleBytes ≤ s.visibleBytes := by
  induction rs generalizing s with
  | nil => exact le_rfl
  | cons r rs ih =>
    have one := visible_account .bytes s r
    have none : Counter.bytes.output r = 0 := spared r (by simp)
    refine (ih (fun r' mem => spared r' (by simp [mem])) (s.accountVirtualL0Compaction r)).trans ?_
    change (Counter.bytes.visible (s.accountVirtualL0Compaction r)) ≤ Counter.bytes.visible s
    omega

theorem installAll_window (ids : List ℕ) (s : State n) : (ids.foldl State.installRequest s).pending = s.pending ∧
      (ids.foldl State.installRequest s).largestEnqueued = s.largestEnqueued := by
  induction ids generalizing s with
  | nil => exact ⟨rfl, rfl⟩
  | cons id _ ih =>
    have one : (s.installRequest id).pending = s.pending ∧ (s.installRequest id).largestEnqueued = s.largestEnqueued := by
      cases moved : (s.requests id).movedVirtuals <;> simp [State.installRequest, moved]
    exact ⟨(ih _).1.trans one.1, (ih _).2.trans one.2⟩

theorem Window.step (inv : CommitInv s) (pos : 0 < cfg.targetVisibleBytes)
    (window : Window cfg.targetVisibleBytes s) (spares : SparesLevelZero s e) (apart : RefillsApart s e)
    (step : Step cfg s e s') : Window cfg.targetVisibleBytes s' := by
  -- a thread without a batch before and after
  have quiet : ∀ {s' : State n} {t p}, s'.pc = update s.pc t p → p.windowOk cfg.targetVisibleBytes →
      (s.pc t).outstanding = [] → p.outstanding = [] → s'.nextRequest = s.nextRequest → s'.requests = s.requests →
      s'.pending = s.pending → s'.largestEnqueued = s.largestEnqueued → s'.visibleBytes = s.visibleBytes →
      Window cfg.targetVisibleBytes s' := by
    intro s' t p threads ok before after nextRequest requests pending largest visible
    exact window.of_update threads ok nextRequest (fun id => by rw [requests]) (fun file => by rw [pending]; exact id)
      largest (by rw [visible, before, after])
  cases step with
  | reserve => exact window.of_static rfl rfl (fun _ => rfl) rfl rfl rfl
  | enqueue _ _ _ pc => exact window.enqueue pc _ _
  | refillWindow _ _ pc | gatherEnd _ _ _ pc | moveEnd _ _ _ pc | mergeFail _ _ _ _ _ pc | commitWait _ _ pc
  | commitLead _ _ pc | wake _ _ _ pc | leaderExit _ _ pc | leaderDelay _ _ pc | leaderProceed _ _ pc
  | leaderError _ _ _ _ _ pc =>
    exact quiet rfl trivial (pc ▸ rfl) rfl rfl rfl rfl rfl rfl
  | refillNothing _ _ pc | refillStop _ _ _ pc => exact window.finishRefill .ok (pc ▸ rfl)
  | refillStart _ _ _ _ pc =>
    exact quiet rfl (if_pos pos) (pc ▸ rfl) rfl rfl rfl rfl rfl rfl
  | refillBatch t _ _ trickle _ _ pc room _ _ taken =>
    exact window.refillBatch pc room taken (apart t trickle rfl)
  | refillInstall t _ _ _ _ pc | refillFail t _ _ _ _ pc =>
    have ok := window.threads t
    rw [pc] at ok
    exact window.of_update rfl ok rfl (fun _ => rfl) (fun _ => id) rfl (pc ▸ le_rfl)
  | refillCount t _ _ batch _ pc =>
    have ok := window.threads t
    rw [pc] at ok
    refine window.of_update rfl ok rfl (fun _ => rfl) (fun _ => id) rfl ?_
    rw [pc]
    change s.visibleBytes + (batch.map (·.fileSize)).sum + Counter.bytes.batch [] ≤ _ + Counter.bytes.batch batch
    rw [batch_bytes, batch_bytes]
    simp
  | refillUndo _ caller =>
    cases caller with
    | user | leader =>
      exact window.of_update rfl trivial rfl (fun _ => rfl) (fun _ => id) rfl (Nat.add_le_add_left (Nat.zero_le _) _)
  | pick t c trivialMove free pc allowed =>
    exact quiet rfl (spares t c trivialMove rfl) (pc ▸ rfl) rfl rfl rfl rfl rfl rfl
  | gather t _ _ _ pc =>
    have ok := window.threads t
    rw [pc] at ok
    exact quiet rfl ok (pc ▸ rfl) rfl rfl rfl rfl rfl rfl
  | move t _ _ _ pc | merge t _ _ _ _ pc =>
    have ok := window.threads t
    rw [pc] at ok
    exact window.push (pc ▸ rfl) (if_neg ok)
  | leaderAwake t own free pc =>
    refine quiet rfl ?_ (pc ▸ rfl) ?_ rfl rfl rfl rfl rfl
    · split_ifs <;> trivial
    · split_ifs <;> rfl
  | leaderStale t own pc stale =>
    have entered : Window cfg.targetVisibleBytes (s.setPc t (.refillEntry (.leader own (s.commitRun cfg) []))) :=
      quiet rfl trivial (pc ▸ rfl) rfl rfl rfl rfl rfl rfl
    exact entered.of_static rfl rfl (static_takeCommitBatch s cfg) rfl rfl rfl
  | leaderLog t own pc edits =>
    have logging : Window cfg.targetVisibleBytes
        (s.setPc t (.leaderLog own (s.commitRun cfg) ((s.commitRun cfg).filter s.current))) :=
      quiet rfl trivial (pc ▸ rfl) rfl rfl rfl rfl rfl rfl
    exact logging.of_static rfl rfl (static_takeCommitBatch s cfg) rfl rfl rfl
  | leaderInstall t own batch commitBatch free pc =>
    have eq := installAll_sameQueue s commitBatch
    have kept := installAll_window commitBatch s
    have installed : Window cfg.targetVisibleBytes
        ((commitBatch.foldl State.installRequest s).setPc t (.leaderLogged own batch commitBatch true)) :=
      quiet (congrArg (update · t _) eq.pc) trivial (pc ▸ rfl) rfl eq.nextRequest eq.requests
        kept.1 kept.2 (visible_installAll .bytes commitBatch s)
    exact installed.release commitBatch
  | leaderFail t own batch commitBatch callback free pc =>
    have returned : Window cfg.targetVisibleBytes (s.setPc t (.leaderLogged own batch commitBatch false)) :=
      quiet rfl trivial (pc ▸ rfl) rfl rfl rfl rfl rfl rfl
    cases callback with
    | false => exact returned
    | true => exact returned.release commitBatch
  | leaderAccount t own batch commitBatch free pc =>
    have eq := accountAll_sameQueue s (commitBatch.map s.requests)
    have files := accountAll_sameFiles s (commitBatch.map s.requests)
    have spared : ∀ r ∈ commitBatch.map s.requests, r.l0OutputBytes = 0 := by
      intro r mem
      obtain ⟨id, inBatch, rfl⟩ := mem_map.mp mem
      have taken := (inv.batch t id (by rw [pc]; exact inBatch)).1
      exact window.spared id ((mem_popped_or_queue inv).mpr (.inl taken))
    refine window.of_update (congrArg (update · t _) eq.pc) trivial eq.nextRequest
      (fun id => congrArg (fun requests => (requests id).l0OutputBytes) eq.requests)
      (fun file mem => files.pending ▸ mem) (accountAll_kept _ s).2 ?_
    rw [pc]
    exact Nat.add_le_add_right (visibleBytes_accountAll _ spared s) _
  | leaderMark t own batch commitBatch status pc =>
    have returned : Window cfg.targetVisibleBytes (s.setPc t (.leaderLoop own)) :=
      quiet rfl trivial (pc ▸ rfl) rfl rfl rfl rfl rfl rfl
    exact (((returned.release commitBatch).markDone commitBatch status).release _).markDone _ _
  | commitReturn t own pc =>
    have returned : Window cfg.targetVisibleBytes (State.setPc { s with owner := none } t .idle) :=
      quiet rfl trivial (pc ▸ rfl) rfl rfl rfl rfl rfl rfl
    exact returned.release [own]

theorem owed_le (inv : CommitInv s) (window : Window target s) (t : Fin n) :
    Counter.bytes.owed s.requests (s.pc t) + Counter.bytes.batch (s.pc t).uninstalled ≤
      Counter.bytes.batch (s.pc t).outstanding := by
  cases pc : s.pc t with
  | refillLogged _ _ _ ok =>
    cases ok
    · exact (zero_add _).le
    · exact (add_zero _).le
  | refillLog => exact (zero_add _).le
  | leaderLogged own batch commitBatch ok =>
    cases ok
    · exact le_rfl
    · have none : Counter.bytes.batch [] = 0 := rfl
      have spared : ∀ id ∈ commitBatch,
          (Counter.bytes.output (s.requests id) - Counter.bytes.input (s.requests id) : ℤ) ≤ 0 := by
        intro id mem
        have taken := (inv.batch t id (by rw [pc]; exact mem)).1
        have zero : Counter.bytes.output (s.requests id) = 0 :=
          window.spared id ((mem_popped_or_queue inv).mpr (.inl taken))
        omega
      simp only [Counter.owed, Pc.uninstalled, Pc.outstanding, none, Nat.cast_zero, add_zero]
      exact (sum_le_card_nsmul _ 0 (forall_mem_map.mpr spared)).trans (nsmul_zero _).le
  | _ => exact le_rfl

/-- With a positive target, no compaction into level 0 and refills apart, the registered bytes stay below the target
plus the largest file. -/
theorem registered_window_bounded (cfg : ProtocolConfig) (s : State n) (positive : 0 < cfg.targetVisibleBytes)
    (reach : Reached cfg (fun s e => SparesLevelZero s e ∧ RefillsApart s e) s) :
    s.registeredL0Bytes < cfg.targetVisibleBytes + s.largestEnqueued := by
  have window : Window cfg.targetVisibleBytes s := by
    refine reach.invariant (fun _ initial => window_initial initial positive) ?_
    rintro s e s' before window ⟨spares, apart⟩ step
    exact window.step (commitInv before) positive spares apart step
  have gap := gap_nonneg .bytes reach
  have bound := window.bound
  have owed := Finset.sum_le_sum fun t (_ : t ∈ Finset.univ) => owed_le (commitInv reach) window t
  rw [Finset.sum_add_distrib, ← Nat.cast_sum, ← Nat.cast_sum] at owed
  simp only [Counter.gap, Counter.visible] at gap
  simp only [State.registeredL0Bytes]
  omega

def smallFile (number : ℕ) : VirtualL0WindowFile := ⟨number, threeKeys, 6, number⟩

/-- Two threads refill in turn: the second batch is formed while the first file is counted and visible. -/
theorem registered_window_bounded_inTurn : ∃ s : State 2,
    Reached plainConfig (fun s e => SparesLevelZero s e ∧ RefillsApart s e) s ∧ s.visibleBytes = 6 ∧
    s.registeredL0Bytes = 12 ∧ s.registeredL0Bytes < plainConfig.targetVisibleBytes + s.largestEnqueued := by
  have quiet : ∀ {s : State 2} {e : Event 2}, (∀ t c m, e ≠ .pick t c m) → (∀ t m, e ≠ .refillBatch t m) →
      SparesLevelZero s e ∧ RefillsApart s e :=
    fun noPick noBatch => ⟨fun t c m eq => absurd eq (noPick t c m), fun t m eq => absurd eq (noBatch t m)⟩
  have r := noFiles 2 (fun s e => SparesLevelZero s e ∧ RefillsApart s e)
    |>.next (quiet (by simp) (by simp)) (.reserve 2)
    |>.next (quiet (by simp) (by simp)) (.enqueue 0 [smallFile 1] rfl rfl (by simp) (by simp) (by decide))
    |>.next (quiet (by simp) (by simp)) (.refillStart 0 .user (smallFile 1) [] rfl rfl)
    |>.next ⟨by simp [SparesLevelZero], fun _ _ _ => by decide⟩
      (.refillBatch 0 .user _ false [smallFile 1] [] rfl (by decide) rfl (by simp) rfl (by simp))
    |>.next (quiet (by simp) (by simp)) (.refillInstall 0 .user _ _ rfl rfl)
    |>.next (quiet (by simp) (by simp)) (.refillCount 0 .user _ _ rfl rfl)
    |>.next (quiet (by simp) (by simp)) (.refillStop 0 .user _ rfl (.inl rfl))
    |>.next (quiet (by simp) (by simp)) (.enqueue 1 [smallFile 2] rfl rfl (by simp) (by simp) (by decide))
    |>.next (quiet (by simp) (by simp)) (.refillStart 1 .user (smallFile 2) [] rfl rfl)
    |>.next ⟨by simp [SparesLevelZero], fun _ _ _ => by decide⟩
      (.refillBatch 1 .user _ false [smallFile 2] [] rfl (by decide) rfl (by simp) rfl (by simp))
  exact ⟨_, r, rfl, by decide +kernel, registered_window_bounded plainConfig _ (by decide) r⟩

/-- A second refill reads the counter while the first one's file is registered and not counted. -/
theorem registered_window_overflows : ∃ s : State 2, Reached plainConfig SparesLevelZero s ∧
    ¬ s.registeredL0Bytes < plainConfig.targetVisibleBytes + s.largestEnqueued := by
  have quiet : ∀ {s : State 2} {e : Event 2}, (∀ t c m, e ≠ .pick t c m) → SparesLevelZero s e :=
    fun noPick t c m eq => absurd eq (noPick t c m)
  have r := noFiles 2 SparesLevelZero
    |>.next (quiet (by simp)) (.reserve 2)
    |>.next (quiet (by simp)) (.enqueue 0 [firstFile, secondFile] rfl rfl (by simp) (by decide) (by decide))
    |>.next (quiet (by simp)) (.refillStart 0 .user firstFile [secondFile] rfl rfl)
    |>.next (quiet (by simp))
      (.refillBatch 0 .user _ false [firstFile] [secondFile] rfl (by decide) rfl (by simp) rfl (by simp))
    |>.next (quiet (by simp)) (.refillWindow 1 rfl rfl)
    |>.next (quiet (by simp)) (.refillStart 1 .user secondFile [] rfl rfl)
    |>.next (quiet (by simp))
      (.refillBatch 1 .user _ false [secondFile] [] rfl (by decide) rfl (by simp) rfl (by simp))
  exact ⟨_, r, by decide +kernel⟩

end VcompProof
