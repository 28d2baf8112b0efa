import Vcomp.Protocol.Step

namespace VcompModel

/-- `logging` is set while its edits are in `LogAndApply`. -/
inductive Role where
  | none
  | entered (own : ℕ)
  | waiting (own : ℕ)
  | leader (own : ℕ) (batch commitBatch : List ℕ) (logging : Bool)
  | returning (own : ℕ)

def RefillCaller.role : RefillCaller → Role
  | .user => .none
  | .leader own batch commitBatch => .leader own batch commitBatch false

def Pc.role : Pc → Role
  | .idle => .none
  | .refillEntry caller => caller.role
  | .refillLoop caller _ => caller.role
  | .refillLog caller _ _ => caller.role
  | .refillLogged caller _ _ _ => caller.role
  | .picked _ _ => .none
  | .merging _ _ => .none
  | .commitEntered own => .entered own
  | .waiting own => .waiting own
  | .leaderLoop own => .leader own [] [] false
  | .leaderSleep own => .leader own [] [] false
  | .leaderBatch own => .leader own [] [] false
  | .leaderLog own batch commitBatch => .leader own batch commitBatch true
  | .leaderLogged own batch commitBatch _ => .leader own batch commitBatch false
  | .leaderMark own batch commitBatch _ => .leader own batch commitBatch false
  | .commitReturn own => .returning own

def Role.leads : Role → Bool
  | .leader _ _ _ _ => true
  | _ => false

def Role.batch : Role → List ℕ
  | .leader _ batch _ _ => batch
  | _ => []

def Role.commitBatch : Role → List ℕ
  | .leader _ _ commitBatch _ => commitBatch
  | _ => []

def Role.logging : Role → List ℕ
  | .leader _ _ commitBatch true => commitBatch
  | _ => []

def Role.own : Role → Option ℕ
  | .none => .none
  | .entered own => some own
  | .waiting own => some own
  | .leader own _ _ _ => some own
  | .returning own => some own

def Pc.holdsMutex : Pc → Bool
  | .refillEntry _ => true
  | .refillLoop _ _ => true
  | .commitEntered _ => true
  | .leaderLoop _ => true
  | .leaderBatch _ => true
  | .leaderMark _ _ _ _ => true
  | .commitReturn _ => true
  | _ => false

end VcompModel

namespace VcompProof

open VcompModel Function

variable {n : ℕ} {cfg : ProtocolConfig} {allowed : State n → Event n → Prop} {s s' : State n} {e : Event n}

section

variable (s : State n) (t : Fin n) (pc : Pc) (ids : List ℕ) (status : Status)

@[simp] theorem setPc_pc : (s.setPc t pc).pc = update s.pc t pc := rfl
@[simp] theorem setPc_owner : (s.setPc t pc).owner = s.owner := rfl
@[simp] theorem releaseRequests_pc : (s.releaseRequests ids).pc = s.pc := rfl
@[simp] theorem releaseRequests_owner : (s.releaseRequests ids).owner = s.owner := rfl
@[simp] theorem releaseRequests_queue : (s.releaseRequests ids).queue = s.queue := rfl
@[simp] theorem releaseRequests_inProgress : (s.releaseRequests ids).inProgress = s.inProgress := rfl
@[simp] theorem releaseRequests_nextRequest : (s.releaseRequests ids).nextRequest = s.nextRequest := rfl
@[simp] theorem releaseRequests_popped : (s.releaseRequests ids).popped = s.popped := rfl
@[simp] theorem releaseRequests_logged : (s.releaseRequests ids).logged = s.logged := rfl
@[simp] theorem markDone_pc : (s.markDone ids status).pc = s.pc := rfl
@[simp] theorem markDone_owner : (s.markDone ids status).owner = s.owner := rfl
@[simp] theorem markDone_queue : (s.markDone ids status).queue = s.queue := rfl
@[simp] theorem markDone_inProgress : (s.markDone ids status).inProgress = s.inProgress := rfl
@[simp] theorem markDone_nextRequest : (s.markDone ids status).nextRequest = s.nextRequest := rfl
@[simp] theorem markDone_popped : (s.markDone ids status).popped = s.popped := rfl
@[simp] theorem markDone_logged : (s.markDone ids status).logged = s.logged := rfl
@[simp] theorem markDone_releases : (s.markDone ids status).releases = s.releases := rfl

end

/-- Installing and accounting leave the threads, the mutex, the queue and the requests. -/
structure SameQueue (s s' : State n) : Prop where
  owner : s'.owner = s.owner
  pc : s'.pc = s.pc
  queue : s'.queue = s.queue
  inProgress : s'.inProgress = s.inProgress
  requests : s'.requests = s.requests
  nextRequest : s'.nextRequest = s.nextRequest
  popped : s'.popped = s.popped
  logged : s'.logged = s.logged
  releases : s'.releases = s.releases

theorem SameQueue.refl (s : State n) : SameQueue s s := ⟨rfl, rfl, rfl, rfl, rfl, rfl, rfl, rfl, rfl⟩

theorem SameQueue.trans {s₁ s₂ s₃ : State n} (first : SameQueue s₁ s₂) (second : SameQueue s₂ s₃) : SameQueue s₁ s₃ :=
  ⟨second.owner.trans first.owner, second.pc.trans first.pc, second.queue.trans first.queue,
    second.inProgress.trans first.inProgress, second.requests.trans first.requests,
    second.nextRequest.trans first.nextRequest, second.popped.trans first.popped,
    second.logged.trans first.logged, second.releases.trans first.releases⟩

theorem sameQueue_foldl {α : Type*} (f : State n → α → State n) (eq : ∀ s a, SameQueue s (f s a))
    (l : List α) (s : State n) : SameQueue s (l.foldl f s) := by
  induction l generalizing s with
  | nil => exact .refl s
  | cons a _ ih => exact (eq s a).trans (ih (f s a))

theorem installRequest_sameQueue (s : State n) (id : ℕ) : SameQueue s (s.installRequest id) := by
  unfold State.installRequest
  dsimp only
  split <;> exact ⟨rfl, rfl, rfl, rfl, rfl, rfl, rfl, rfl, rfl⟩

theorem account_sameQueue (s : State n) (r : CommitRequest) : SameQueue s (s.accountVirtualL0Compaction r) :=
  ⟨rfl, rfl, rfl, rfl, rfl, rfl, rfl, rfl, rfl⟩

theorem installAll_sameQueue (s : State n) (ids : List ℕ) : SameQueue s (ids.foldl State.installRequest s) :=
  sameQueue_foldl State.installRequest installRequest_sameQueue ids s

theorem accountAll_sameQueue (s : State n) (rs : List CommitRequest) :
    SameQueue s (rs.foldl State.accountVirtualL0Compaction s) :=
  sameQueue_foldl State.accountVirtualL0Compaction account_sameQueue rs s

/-- The mutex is held exactly by the thread inside a critical section. -/
def MutexInv (s : State n) : Prop := ∀ t, (s.pc t).holdsMutex = true ↔ s.owner = some t

/-- Every step but `reserve`: one thread moves, with the mutex its own or free, and owns it afterwards exactly inside a
critical section. -/
structure Acts (s s' : State n) (t : Fin n) (next : Pc) : Prop where
  pc : s'.pc = update s.pc t next
  before : s.owner = none ∨ s.owner = some t
  after : s'.owner = if next.holdsMutex then some t else none

theorem finishRefill_acts {t : Fin n} {caller : RefillCaller} {status : Status} (owned : s.owner = some t) :
    ∃ pc, Acts s (s.finishRefill t status caller) t pc := by
  cases caller with
  | user => exact ⟨.idle, rfl, .inr owned, rfl⟩
  | leader own batch commitBatch => exact ⟨.leaderMark own batch commitBatch status, rfl, .inr owned, owned⟩

theorem Step.acts (mutex : MutexInv s) (step : Step cfg s e s') :
    (s'.pc = s.pc ∧ s'.owner = s.owner) ∨ ∃ t pc, Acts s s' t pc := by
  have inside : ∀ {t pc}, s.pc t = pc → pc.holdsMutex = true → s.owner = some t :=
    fun pc holds => (mutex _).mp (pc ▸ holds)
  cases step with
  | reserve => exact .inl ⟨rfl, rfl⟩
  | enqueue t _ free | refillWindow t free | refillCount t _ _ _ free
  | move t _ _ free | merge t _ _ _ free | wake t _ free
  | leaderError t _ _ _ free => exact .inr ⟨t, _, rfl, .inl free, rfl⟩
  | refillNothing t _ pc | refillStop t _ _ pc => exact .inr ⟨t, finishRefill_acts (inside pc rfl)⟩
  | refillStart t _ _ _ pc | commitLead t _ pc | leaderExit t _ pc
  | leaderProceed t _ pc | leaderStale t _ pc | leaderMark t _ _ _ _ pc =>
    exact .inr ⟨t, _, rfl, .inr (inside pc rfl), inside pc rfl⟩
  | refillBatch t _ _ _ _ _ pc | commitWait t _ pc | leaderDelay t _ pc
  | leaderLog t _ pc | commitReturn t _ pc => exact .inr ⟨t, _, rfl, .inr (inside pc rfl), rfl⟩
  | refillInstall t _ _ _ free | refillFail t _ _ _ free
  | pick t _ _ free | gatherEnd t _ free | gather t _ _ free
  | moveEnd t _ free | mergeFail t _ _ _ free => exact .inr ⟨t, _, rfl, .inl free, free⟩
  | refillUndo t caller _ batch free =>
    cases caller with
    | user => exact .inr ⟨t, .idle, rfl, .inl free, rfl⟩
    | leader own batch commitBatch => exact .inr ⟨t, .leaderMark own batch commitBatch .ioError, rfl, .inl free, rfl⟩
  | leaderAwake t _ free =>
    exact .inr ⟨t, _, rfl, .inl free, by by_cases empty : s.queue = [] <;> simp [empty, Pc.holdsMutex]⟩
  | leaderInstall t _ _ commitBatch free =>
    have eq := installAll_sameQueue s commitBatch
    exact .inr ⟨t, _, congrArg (update · t _) eq.pc, .inl free, eq.owner.trans free⟩
  | leaderFail t own batch commitBatch callback free =>
    refine .inr ⟨t, .leaderLogged own batch commitBatch false, ?_, .inl free, ?_⟩
    · cases callback <;> rfl
    · cases callback <;> exact free
  | leaderAccount t _ _ commitBatch free =>
    have eq := accountAll_sameQueue s (commitBatch.map s.requests)
    exact .inr ⟨t, _, congrArg (update · t _) eq.pc, .inl free, rfl⟩

theorem Acts.mutex {t : Fin n} {pc : Pc} (acts : Acts s s' t pc) (mutex : MutexInv s) : MutexInv s' := by
  intro u
  rw [acts.pc, acts.after]
  by_cases eq : u = t
  · subst eq
    rw [update_self]
    cases pc.holdsMutex <;> simp
  · rw [update_of_ne eq, mutex u]
    constructor
    · intro owned
      rcases acts.before with free | mine
      · simp [free] at owned
      · exact absurd (Option.some.inj (owned.symm.trans mine)) eq
    · intro owned
      split_ifs at owned
      exact absurd (Option.some.inj owned).symm eq

theorem mutexInv (reach : Reached cfg allowed s) : MutexInv s := by
  refine reach.invariant ?_ ?_
  · intro s initial t
    simp [initial.idle t, initial.owner, Pc.holdsMutex]
  · intro s e s' _ mutex _ step
    rcases Step.acts mutex step with ⟨pc, owner⟩ | ⟨t, pc, acts⟩
    · intro t
      rw [pc, owner]
      exact mutex t
    · exact acts.mutex mutex

end VcompProof
