import Vcomp.Protocol.Window

namespace VcompModel

variable {n : ℕ}

/-- The requests installed, and those of a round whose refill failed. -/
structure RoundHistory where
  installed : List ℕ := []
  refillFailed : List ℕ := []

def RoundHistory.record (h : RoundHistory) (s : State n) : Event n → RoundHistory
  | .leaderLogAndApply t true _ => { h with installed := h.installed ++ (s.pc t).role.commitBatch }
  | .refillLogAndApply t false => { h with refillFailed := h.refillFailed ++ (s.pc t).role.commitBatch }
  | _ => h

abbrev Observed (cfg : ProtocolConfig) : State n × RoundHistory → Prop :=
  Transition.Reachable (fun p => Initial p.1 ∧ p.2 = {})
    (fun p e p' => Step cfg p.1 e p'.1 ∧ p'.2 = p.2.record p.1 e) fun _ _ => True

def Event.refills : Event n → Bool
  | .refillBatch _ _ => true
  | .refillLogAndApply _ _ => true
  | .refillReturn _ => true
  | _ => false

end VcompModel

namespace VcompProof

open VcompModel List Function

variable {n : ℕ} {cfg : ProtocolConfig} {s s' : State n} {e : Event n} {h : RoundHistory} {t : Fin n} {status : Status}

/-- An error status is one of the request's commit or of the refill after it. -/
def Tells (h : RoundHistory) (id : ℕ) (status : Status) : Prop :=
  if status = .ok then id ∉ h.refillFailed else id ∉ h.installed ∨ id ∈ h.refillFailed

/-- What the leader knows of the requests it has still to finish. -/
def Knows (h : RoundHistory) (id : ℕ) : Pc → Prop
  | .leaderLog _ _ _ => id ∉ h.installed
  | .leaderLogged _ _ _ ok => if ok then id ∈ h.installed ∧ id ∉ h.refillFailed else id ∉ h.installed
  | .refillLogged _ _ _ false => id ∈ h.refillFailed
  | .leaderMark _ _ _ status => Tells h id status
  | _ => id ∈ h.installed ∧ id ∉ h.refillFailed

structure Reporting (s : State n) (h : RoundHistory) : Prop where
  installed : ∀ id ∈ h.installed, id ∈ s.popped
  refillFailed : ∀ id ∈ h.refillFailed, id ∈ h.installed
  leader : ∀ t, ∀ id ∈ (s.pc t).role.commitBatch, Knows h id (s.pc t)
  told : ∀ id < s.nextRequest, (s.requests id).done = true → Tells h id (s.requests id).status

theorem reporting_initial (initial : Initial s) : Reporting s {} where
  installed := nofun
  refillFailed := nofun
  leader := by
    intro t id mem
    rw [initial.idle t] at mem
    nomatch mem
  told := by
    intro id lt
    rw [initial.nextRequest] at lt
    nomatch lt

theorem releaseRequests_status (s : State n) (ids : List ℕ) (id : ℕ) :
    ((s.releaseRequests ids).requests id).status = (s.requests id).status := by
  simp only [State.releaseRequests]
  split <;> rfl

theorem CommitInv.followers (inv : CommitInv s) {u : Fin n} (leads : (s.pc t).role.leads = true) (other : u ≠ t) :
    (s.pc u).role.commitBatch = [] := by
  by_contra some
  obtain ⟨id, mem⟩ := exists_mem_of_ne_nil _ some
  exact other (inv.unique u t (commitBatch_leads mem) leads)

section

variable (inv : CommitInv s) (reporting : Reporting s h)
include reporting

theorem Reporting.quiet {p : Pc} (threads : s'.pc = update s.pc t p)
    (popped : ∀ id ∈ s.popped, id ∈ s'.popped) (nextRequest : s'.nextRequest = s.nextRequest)
    (done : ∀ id, (s'.requests id).done = (s.requests id).done)
    (status : ∀ id, (s'.requests id).status = (s.requests id).status)
    (knows : ∀ id ∈ p.role.commitBatch, Knows h id p) : Reporting s' h where
  installed := fun id mem => popped id (reporting.installed id mem)
  refillFailed := reporting.refillFailed
  leader := by
    intro u id mem
    rw [threads] at mem ⊢
    by_cases eq : u = t
    · rw [eq, update_self] at mem ⊢
      exact knows id mem
    · rw [update_of_ne eq] at mem ⊢
      exact reporting.leader u id mem
  told := by
    intro id lt finished
    rw [done] at finished
    rw [status]
    exact reporting.told id (nextRequest ▸ lt) finished

theorem Reporting.push {r : CommitRequest} (fresh : r.done = false) :
    Reporting (s.pushRequest t r) h :=
  { reporting with
    leader := by
      intro u id mem
      simp only [State.pushRequest, setPc_pc] at mem ⊢
      by_cases eq : u = t
      · rw [eq, update_self] at mem
        cases mem
      · rw [update_of_ne eq] at mem ⊢
        exact reporting.leader u id mem
    told := by
      intro id lt done
      simp only [State.pushRequest, State.setPc] at lt done ⊢
      by_cases last : id = s.nextRequest
      · rw [last, update_self, fresh] at done
        cases done
      · rw [update_of_ne last] at done ⊢
        apply reporting.told id _ done
        omega }

theorem Reporting.mark (ids : List ℕ) (status : Status)
    (tells : ∀ id ∈ ids, Tells h id status) : Reporting ((s.releaseRequests ids).markDone ids status) h :=
  { reporting with
    told := by
      intro id lt done
      by_cases marked : id ∈ ids
      · simpa [State.markDone, marked] using tells id marked
      · have status : (((s.releaseRequests ids).markDone ids status).requests id).status = (s.requests id).status := by
          simp only [State.markDone, if_neg marked]
          exact releaseRequests_status s ids id
        rw [status]
        apply reporting.told id lt
        simpa [marked] using done }

theorem Reporting.finishRefill {caller : RefillCaller}
    (tells : ∀ id ∈ caller.role.commitBatch, Tells h id status) : Reporting (s.finishRefill t status caller) h := by
  cases caller with
  | user => exact reporting.quiet rfl (fun _ => id) rfl (fun _ => rfl) (fun _ => rfl) nofun
  | leader => exact reporting.quiet rfl (fun _ => id) rfl (fun _ => rfl) (fun _ => rfl) tells

include inv

theorem unrecorded {id : ℕ} (queued : id ∈ s.queue) :
    id ∉ h.installed ∧ id ∉ h.refillFailed := by
  have untaken : id ∉ s.popped := fun taken => popped_queue_disjoint inv taken queued
  exact ⟨fun mem => untaken (reporting.installed id mem),
    fun mem => untaken (reporting.installed id (reporting.refillFailed id mem))⟩

theorem Reporting.record {p : Pc} {h' : RoundHistory}
    (threads : s'.pc = update s.pc t p) (popped : s'.popped = s.popped)
    (nextRequest : s'.nextRequest = s.nextRequest) (done : ∀ id, (s'.requests id).done = (s.requests id).done)
    (status : ∀ id, (s'.requests id).status = (s.requests id).status)
    (installed : ∀ id, id ∈ h'.installed ↔ id ∈ h.installed ∨ id ∈ h'.installed ∧ id ∈ (s.pc t).role.commitBatch)
    (refillFailed : ∀ id, id ∈ h'.refillFailed ↔
      id ∈ h.refillFailed ∨ id ∈ h'.refillFailed ∧ id ∈ (s.pc t).role.commitBatch)
    (order : ∀ id ∈ h'.refillFailed, id ∈ h'.installed)
    (knows : ∀ id ∈ p.role.commitBatch, Knows h' id p) : Reporting s' h' where
  installed := by
    intro id mem
    rw [popped]
    rcases (installed id).mp mem with old | ⟨-, mine⟩
    · exact reporting.installed id old
    · exact (inv.batch t id mine).1
  refillFailed := order
  leader := by
    intro u id mem
    rw [threads] at mem ⊢
    by_cases eq : u = t
    · rw [eq, update_self] at mem ⊢
      exact knows id mem
    · rw [update_of_ne eq] at mem ⊢
      by_cases leads : (s.pc t).role.commitBatch = []
      · have sameHistory : ∀ pc, Knows h id pc → Knows h' id pc := by
          have first := installed id
          have second := refillFailed id
          rw [leads] at first second
          simp only [not_mem_nil, and_false, or_false] at first second
          intro pc
          simp only [Knows, Tells, first, second]
          exact fun known => known
        exact sameHistory _ (reporting.leader u id mem)
      · obtain ⟨own, mine⟩ := exists_mem_of_ne_nil _ leads
        rw [inv.followers (commitBatch_leads mine) eq] at mem
        cases mem
  told := by
    intro id lt finished
    rw [done] at finished
    rw [status]
    have told := reporting.told id (nextRequest ▸ lt) finished
    have outside : id ∉ (s.pc t).role.commitBatch := by
      intro mine
      rw [(inv.batch t id mine).2] at finished
      nomatch finished
    have first := installed id
    have second := refillFailed id
    simp only [outside, and_false, or_false] at first second
    simp only [Tells, first, second]
    exact told

theorem Reporting.take {p : Pc}
    (knows : ∀ id ∈ p.role.commitBatch, Knows h id p) : Reporting ((s.takeCommitBatch cfg).setPc t p) h := by
  have queued : ∀ id ∈ s.commitRun cfg, id ∈ s.queue := fun id mem => (commitRun_front s cfg).subset mem
  have popped : Reporting (State.setPc { s with
      queue := s.queue.drop (s.commitRun cfg).length, popped := s.popped ++ s.commitRun cfg } t p) h :=
    reporting.quiet rfl (fun id mem => mem_append_left _ mem) rfl (fun _ => rfl) (fun _ => rfl) knows
  apply popped.mark ((s.commitRun cfg).filter fun id => !s.current id) .ok
  intro id mem
  exact (unrecorded inv reporting (queued id (mem_of_mem_filter mem))).2

theorem Reporting.finish {own : ℕ} {batch commitBatch : List ℕ} (pc : s.pc t = .leaderMark own batch commitBatch status) :
    Reporting ((s.finishBatch batch commitBatch status).setPc t (.leaderLoop own)) h := by
  have mine : (s.pc t).role.commitBatch = commitBatch := by rw [pc]; rfl
  have known : ∀ id ∈ commitBatch, Tells h id status := by
    intro id mem
    have known := reporting.leader t id (mine ▸ mem)
    rw [pc] at known
    exact known
  -- every request of the round is done, or is one of `commitBatch`
  have none : ∀ id ∈ batch, id ∉ commitBatch → (s.requests id).done = true := by
    intro id mem outside
    rcases inv.finished id (inv.taken t id (by rw [pc]; exact mem)) with done | ⟨u, held⟩
    · exact done
    · obtain rfl := inv.unique u t (commitBatch_leads held) (pc ▸ rfl)
      exact absurd (mine ▸ held) outside
  have returned : Reporting (s.setPc t (.leaderLoop own)) h :=
    reporting.quiet rfl (fun _ => id) rfl (fun _ => rfl) (fun _ => rfl) nofun
  apply (returned.mark commitBatch status known).mark _ .ok
  intro id mem
  obtain ⟨inBatch, unfinished⟩ := mem_filter.mp mem
  rw [markDone_done, releaseRequests_done] at unfinished
  have outside : id ∉ commitBatch := by
    intro marked
    simp [marked] at unfinished
  simp [none id inBatch outside] at unfinished

theorem Reporting.step (step : Step cfg s e s') :
    Reporting s' (h.record s e) := by
  have known : ∀ {t p}, s.pc t = p → ∀ id ∈ p.role.commitBatch, Knows h id p :=
    fun {t p} pc id mem => pc ▸ reporting.leader t id (pc ▸ mem)
  cases step with
  | reserve => exact { reporting with }
  | enqueue | refillWindow | pick | gather | gatherEnd | mergeFail | moveEnd | commitWait | commitLead | wake | leaderExit
  | leaderDelay | leaderProceed => exact reporting.quiet rfl (fun _ => id) rfl (fun _ => rfl) (fun _ => rfl) nofun
  | refillNothing _ _ pc | refillStop _ _ _ pc =>
    exact reporting.finishRefill fun id mem => (known pc id mem).2
  | refillStart _ _ _ _ pc | refillBatch _ _ _ _ _ _ pc
  | refillInstall _ _ _ _ _ pc | refillCount _ _ _ _ _ pc =>
    exact reporting.quiet rfl (fun _ => id) rfl (fun _ => rfl) (fun _ => rfl) fun id mem => known pc id mem
  | refillFail t caller locals batch free pc =>
    have mine : (s.pc t).role.commitBatch = caller.role.commitBatch := by rw [pc]; rfl
    refine reporting.record inv rfl rfl rfl (fun _ => rfl) (fun _ => rfl) ?_ ?_ ?_ ?_
    · intro id
      have installed := known pc id
      exact ⟨.inl, fun cases => cases.elim (fun old => old) (fun new => new.1)⟩
    · intro id
      simp only [RoundHistory.record, mem_append]
      grind
    · intro id mem
      rcases mem_append.mp mem with old | new
      · exact reporting.refillFailed id old
      · exact (known pc id (mine ▸ new)).1
    · intro id mem
      exact mem_append_right _ (mine ▸ mem)
  | refillUndo t _ _ batch _ pc =>
    have undone : Reporting { s with
        owner := some t, registry := removeAll s.registry (batch.map (·.fileNumber)) } h :=
      { reporting with }
    exact undone.finishRefill fun id mem => .inr (known pc id mem)
  | move => exact reporting.push rfl
  | merge _ _ _ outputs =>
    have numbered : Reporting { s with nextFile := s.nextFile + outputs.length } h :=
      { reporting with }
    exact numbered.push rfl
  | leaderAwake =>
    refine reporting.quiet rfl (fun _ => id) rfl (fun _ => rfl) (fun _ => rfl) ?_
    split_ifs <;> nofun
  | leaderStale => exact reporting.take inv nofun
  | leaderLog t own =>
    have taken : Reporting ((s.takeCommitBatch cfg).setPc t
        (.leaderLog own (s.commitRun cfg) ((s.commitRun cfg).filter s.current))) h := by
      apply reporting.take inv
      intro id mem
      exact (unrecorded inv reporting ((commitRun_front s cfg).subset (mem_of_mem_filter mem))).1
    exact { taken with }
  | leaderInstall t own batch commitBatch free pc =>
    have eq := installAll_sameQueue s commitBatch
    have mine : (s.pc t).role.commitBatch = commitBatch := by rw [pc]; rfl
    have fresh : ∀ id ∈ commitBatch, id ∉ h.installed := fun id mem => known pc id mem
    refine reporting.record inv (t := t) (p := .leaderLogged own batch commitBatch true) ?_ eq.popped eq.nextRequest
      ?_ ?_ ?_ ?_ ?_ ?_
    · exact congrArg (update · t _) eq.pc
    · intro id
      exact (releaseRequests_done _ _ _).trans (by rw [eq.requests])
    · intro id
      exact (releaseRequests_status _ _ _).trans (by rw [eq.requests])
    · intro id
      simp only [RoundHistory.record, mem_append]
      grind
    · intro id
      simp only [RoundHistory.record]
      grind
    · intro id mem
      exact mem_append_left _ (reporting.refillFailed id mem)
    · intro id mem
      exact ⟨mem_append_right _ (mine ▸ mem), fun failed => fresh id mem (reporting.refillFailed id failed)⟩
  | leaderFail t own batch commitBatch callback _ pc =>
    refine reporting.quiet (t := t) (p := .leaderLogged own batch commitBatch false) ?_ ?_ ?_ ?_ ?_
      fun id mem => known pc id mem
    · cases callback <;> rfl
    · cases callback <;> exact fun _ => id
    · cases callback <;> rfl
    · cases callback with
      | false => exact fun _ => rfl
      | true => exact releaseRequests_done s commitBatch
    · cases callback with
      | false => exact fun _ => rfl
      | true => exact releaseRequests_status s commitBatch
  | leaderAccount t _ _ commitBatch _ pc =>
    have eq := accountAll_sameQueue s (commitBatch.map s.requests)
    exact reporting.quiet (congrArg (update · t _) eq.pc) (fun id mem => eq.popped ▸ mem)
      eq.nextRequest (fun id => congrArg (fun requests => (requests id).done) eq.requests)
      (fun id => congrArg (fun requests => (requests id).status) eq.requests) fun id mem => known pc id mem
  | leaderError _ _ _ _ _ pc =>
    exact reporting.quiet rfl (fun _ => id) rfl (fun _ => rfl) (fun _ => rfl) fun id mem => .inl (known pc id mem)
  | leaderMark _ _ _ _ _ pc => exact reporting.finish inv pc
  | commitReturn _ own =>
    exact reporting.quiet rfl (fun _ => id) rfl (releaseRequests_done s [own]) (releaseRequests_status s [own]) nofun

end

theorem reached_of_observed {p : State n × RoundHistory} (run : Observed cfg p) :
    Reached cfg (fun _ _ => True) p.1 ∧ Reporting p.1 p.2 := by
  induction run with
  | start initial => exact ⟨.start initial.1, initial.2 ▸ reporting_initial initial.1⟩
  | next _ _ taken ih => exact ⟨ih.1.next trivial taken.1, taken.2 ▸ ih.2.step (commitInv ih.1) taken.1⟩

theorem Step.effects (h : RoundHistory) (step : Step cfg s e s') (other : e.refills = false) :
    ∃ new, (h.record s e).installed = h.installed ++ new ∧ s'.files = (new.foldl State.installRequest s).files ∧
      s'.registry = (new.foldl State.installRequest s).registry := by
  have nothing : h.installed = h.installed ++ [] := (append_nil _).symm
  cases step with
  | leaderInstall _ _ _ commitBatch _ pc => exact ⟨commitBatch, by simp [RoundHistory.record, pc]; rfl, rfl, rfl⟩
  | leaderFail _ _ _ _ callback => cases callback <;> exact ⟨[], nothing, rfl, rfl⟩
  | leaderAccount _ _ _ commitBatch =>
    have eq := accountAll_sameFiles s (commitBatch.map s.requests)
    exact ⟨[], nothing, eq.files, eq.registry⟩
  | refillNothing _ caller | refillStop _ caller => cases caller <;> exact ⟨[], nothing, rfl, rfl⟩
  | refillBatch | refillInstall | refillFail | refillCount | refillUndo => nomatch other
  | _ => exact ⟨[], nothing, rfl, rfl⟩

/-- A returning request was told the truth about its edit exactly when the refill after its commit did not fail. -/
theorem commit_reports_outcome (cfg : ProtocolConfig) (s : State n) (h : RoundHistory) (run : Observed cfg (s, h)) :
    (∀ t own, s.pc t = .commitReturn own →
      ((own ∈ h.installed → (s.requests own).status = .ok) ∧ ((s.requests own).status ≠ .ok → own ∉ h.installed) ↔
        own ∉ h.refillFailed)) ∧ ∀ e s', Step cfg s e s' → e.refills = false →
      ∃ new, (h.record s e).installed = h.installed ++ new ∧ s'.files = (new.foldl State.installRequest s).files ∧
        s'.registry = (new.foldl State.installRequest s).registry := by
  obtain ⟨reach, reporting⟩ := reached_of_observed run
  have inv := commitInv reach
  refine ⟨fun t own pc => ?_, fun e s' step other => Step.effects h step other⟩
  have role : (s.pc t).role = .returning own := by rw [pc]; rfl
  have told := reporting.told own (inv.own t own (role ▸ rfl)) (inv.returning t own role)
  have failed := reporting.refillFailed own
  unfold Tells at told
  split_ifs at told with ok <;> tauto

theorem observe (run : Observed cfg (s, h)) (step : Step cfg s e s') : Observed cfg (s', h.record s e) :=
  run.next trivial ⟨step, rfl⟩

theorem commit_reports_outcome_failed : ∃ (s : State 2) (h : RoundHistory), Observed plainConfig (s, h) ∧
    s.pc 0 = .commitReturn 0 ∧ (s.requests 0).status = .ioError ∧ s.files = [deepFile 1, deepFile 2] ∧ 0 ∉ h.installed := by
  have r : Observed plainConfig (startState 2 [deepFile 1, deepFile 2], {}) :=
    .start ⟨startState_initial (by decide) (by decide) (by decide), rfl⟩
  have r := observe r (.pick 0 (deepMove 1) true rfl rfl ⟨by decide, by decide, by decide, by decide⟩)
  have r := observe r (.move 0 (deepMove 1) [(1, threeKeys)] rfl rfl rfl (by simp))
  have r := observe r (.commitLead 0 0 rfl rfl)
  have r := observe r (.leaderProceed 0 0 rfl (by decide) rfl)
  have r := observe r (.leaderLog 0 0 rfl (by decide))
  have r := observe r (.leaderFail 0 0 _ _ true rfl rfl)
  have r := observe r (.leaderError 0 0 _ _ rfl rfl)
  have r := observe r (.leaderMark 0 0 _ _ _ rfl)
  have r := observe r (.leaderExit 0 0 rfl rfl)
  have told := ((commit_reports_outcome plainConfig _ _ r).1 0 0 rfl).mpr (by decide)
  exact ⟨_, _, r, rfl, rfl, rfl, told.2 (by decide)⟩

/-- The move is installed, the refill after it fails, and the mover gets that failure. -/
theorem commit_reports_refill_failure : ∃ (s : State 1) (h : RoundHistory), Observed plainConfig (s, h) ∧
    s.pc 0 = .commitReturn 0 ∧ 0 ∈ h.installed ∧ s.files = [{ firstFile.versionFile with level := 1 }] ∧
    (s.requests 0).status = .ioError := by
  have r : Observed plainConfig (startState 1 [], {}) := .start ⟨startState_initial nodup_nil nofun nofun, rfl⟩
  have r := observe r (.reserve 2)
  have r := observe r (.enqueue 0 [firstFile, secondFile] rfl rfl (by simp) (by decide) (by decide))
  have r := observe r (.refillStart 0 .user firstFile [secondFile] rfl rfl)
  have r := observe r (.refillBatch 0 .user _ false [firstFile] [secondFile] rfl (by decide) rfl (by simp) rfl (by simp))
  have r := observe r (.refillInstall 0 .user _ _ rfl rfl)
  have r := observe r (.refillCount 0 .user _ _ rfl rfl)
  have r := observe r (.refillStop 0 .user _ rfl (.inr (.inl (by decide))))
  have r := observe r (.pick 0 firstMove true rfl rfl ⟨by decide, by decide, by decide, by decide⟩)
  have r := observe r (.move 0 firstMove [(1, threeKeys)] rfl rfl rfl (by simp))
  have r := observe r (.commitLead 0 0 rfl rfl)
  have r := observe r (.leaderProceed 0 0 rfl (by decide) rfl)
  have r := observe r (.leaderLog 0 0 rfl (by decide))
  have r := observe r (.leaderInstall 0 0 _ _ rfl rfl)
  have r := observe r (.leaderAccount 0 0 _ _ rfl rfl)
  have r := observe r (.refillStart 0 _ secondFile [] rfl rfl)
  have r := observe r (.refillBatch 0 _ _ false [secondFile] [] rfl (by decide) rfl (by simp) rfl (by simp))
  have r := observe r (.refillFail 0 _ _ _ rfl rfl)
  have r := observe r (.refillUndo 0 _ _ _ rfl rfl)
  have r := observe r (.leaderMark 0 0 _ _ _ rfl)
  have r := observe r (.leaderExit 0 0 rfl rfl)
  exact ⟨_, _, r, rfl, by decide +kernel, rfl, rfl⟩

end VcompProof
