import Vcomp.Protocol.Commit

namespace VcompProof

open VcompModel List Function

variable {n : ℕ} {cfg : ProtocolConfig} {allowed : State n → Event n → Prop} {s s' : State n} {e : Event n} {t : Fin n}
  {id : ℕ} {p : Pc}

/-- Every request is in `popped` or `queue`, once and in order; those taken and unfinished are the leader's. -/
structure CommitInv (s : State n) : Prop where
  leader : ∀ t, (s.pc t).role.leads = true → s.inProgress = true
  unique : ∀ t u, (s.pc t).role.leads = true → (s.pc u).role.leads = true → t = u
  led : s.inProgress = true → ∃ t, (s.pc t).role.leads = true
  order : s.popped ++ s.queue = List.range s.nextRequest
  logged : s.logged.Sublist s.popped
  queued : ∀ id ∈ s.queue, (s.requests id).done = false ∧ (s.requests id).compactionReleased = false
  taken : ∀ t, ∀ id ∈ (s.pc t).role.batch, id ∈ s.popped
  batch : ∀ t, ∀ id ∈ (s.pc t).role.commitBatch, id ∈ s.popped ∧ (s.requests id).done = false
  distinct : ∀ t, (s.pc t).role.commitBatch.Nodup
  logging : ∀ t, ∀ id ∈ (s.pc t).role.logging, (s.requests id).compactionReleased = false
  finished : ∀ id ∈ s.popped, (s.requests id).done = true ∨ ∃ t, id ∈ (s.pc t).role.commitBatch
  doneReleased : ∀ id < s.nextRequest, (s.requests id).done = true → (s.requests id).compactionReleased = true
  releasedOnce : s.releases.Nodup
  released : ∀ id, id ∈ s.releases ↔ id < s.nextRequest ∧ (s.requests id).compactionReleased = true
  own : ∀ t own, (s.pc t).role.own = some own → own < s.nextRequest
  pendingLed : ∀ id < s.nextRequest, (s.requests id).done = false →
    s.inProgress = true ∨ ∃ t, (s.pc t).role = .entered id
  returning : ∀ t own, (s.pc t).role = .returning own → (s.requests own).done = true

structure CommitView (n : ℕ) where
  role : Fin n → Role
  queue : List ℕ
  inProgress : Bool
  requests : ℕ → CommitRequest
  nextRequest : ℕ
  popped : List ℕ
  logged : List ℕ
  releases : List ℕ

def commitView (s : State n) : CommitView n :=
  ⟨fun t => (s.pc t).role, s.queue, s.inProgress, s.requests, s.nextRequest, s.popped, s.logged, s.releases⟩

theorem SameQueue.view (eq : SameQueue s s') : commitView s' = commitView s := by
  simp [commitView, eq.pc, eq.queue, eq.inProgress, eq.requests, eq.nextRequest, eq.popped, eq.logged, eq.releases]

variable {pc : Pc} {own : ℕ} {ids batch commitBatch : List ℕ}

theorem commitBatch_leads {r : Role} (mem : id ∈ r.commitBatch) : r.leads = true := by
  cases r <;> simp_all [Role.commitBatch, Role.leads]

theorem logging_subset {r : Role} (mem : id ∈ r.logging) : id ∈ r.commitBatch := by
  unfold Role.logging at mem
  split at mem
  · exact mem
  · simp at mem

theorem commitInv_initial (initial : Initial s) : CommitInv s := by
  have role : ∀ t, (s.pc t).role = .none := fun t => by rw [initial.idle t]; rfl
  constructor <;>
    simp [role, Role.leads, Role.batch, Role.commitBatch, Role.logging, Role.own, initial.inProgress, initial.queue,
      initial.popped, initial.nextRequest, initial.logged, initial.releases]

@[simp] theorem releaseRequests_done (s : State n) (ids : List ℕ) (id : ℕ) :
    ((s.releaseRequests ids).requests id).done = (s.requests id).done := by
  simp only [State.releaseRequests]
  split_ifs <;> rfl

@[simp] theorem releaseRequests_released (s : State n) (ids : List ℕ) (id : ℕ) :
    ((s.releaseRequests ids).requests id).compactionReleased =
      ((s.requests id).compactionReleased || decide (id ∈ ids)) := by
  simp only [State.releaseRequests, mem_filter]
  split_ifs with fresh
  · simp [fresh.1]
  · cases released : (s.requests id).compactionReleased <;> simp_all

@[simp] theorem markDone_done (s : State n) (ids : List ℕ) (status : Status) (id : ℕ) :
    ((s.markDone ids status).requests id).done = ((s.requests id).done || decide (id ∈ ids)) := by
  simp only [State.markDone]
  split_ifs with mem <;> simp [mem]

@[simp] theorem markDone_released (s : State n) (ids : List ℕ) (status : Status) (id : ℕ) :
    ((s.markDone ids status).requests id).compactionReleased = (s.requests id).compactionReleased := by
  simp only [State.markDone]
  split_ifs <;> rfl

theorem releaseRequests_of_released (ids : List ℕ) (released : ∀ id ∈ ids, (s.requests id).compactionReleased = true) :
    s.releaseRequests ids = s := by
  have none : ids.filter (fun id => !(s.requests id).compactionReleased) = [] := by
    rw [filter_eq_nil_iff]
    intro id mem
    simp [released id mem]
  simp [State.releaseRequests, none]

theorem markDone_nil (s : State n) (status : Status) : s.markDone [] status = s := by simp [State.markDone]

@[simp] theorem takeCommitBatch_logged (s : State n) (cfg : ProtocolConfig) :
    (s.takeCommitBatch cfg).logged = s.logged := rfl

theorem commitRun_front (s : State n) (cfg : ProtocolConfig) : s.commitRun cfg <+: s.queue := by
  unfold State.commitRun
  split
  · exact nil_prefix
  · exact List.IsPrefix.trans ( takeWhile_prefix _) ( take_prefix _ _)

theorem queue_eq_commitRun (s : State n) (cfg : ProtocolConfig) :
    s.queue = s.commitRun cfg ++ s.queue.drop (s.commitRun cfg).length :=
  (prefix_iff_eq_append.mp (commitRun_front s cfg)).symm

section

variable (inv : CommitInv s)
include inv

theorem CommitInv.congr (eq : commitView s' = commitView s) : CommitInv s' := by
  simp only [commitView, CommitView.mk.injEq, funext_iff (β := fun _ : Fin n => Role)] at eq
  obtain ⟨roles, queue, inProgress, requests, nextRequest, popped, logged, releases⟩ := eq
  obtain ⟨h1, h2, h3, h4, h5, h6, h7, h8, h9, h10, h11, h12, h13, h14, h15, h16, h17⟩ := inv
  constructor <;> simp only [roles, queue, inProgress, requests, nextRequest, popped, logged, releases] <;> assumption

theorem CommitInv.setPc_same (same : p.role = (s.pc t).role)
    (view : commitView s' = commitView (s.setPc t p)) : CommitInv s' := by
  refine inv.congr (view.trans ?_)
  have roles : (fun u => (update s.pc t p u).role) = fun u => (s.pc u).role := by
    ext1 u
    by_cases eq : u = t
    · rw [eq, update_self, same]
    · rw [update_of_ne eq]
  simp [commitView, State.setPc, roles]

theorem mem_popped_or_queue : id < s.nextRequest ↔ id ∈ s.popped ∨ id ∈ s.queue := by
  rw [← mem_append, inv.order, mem_range]

theorem popped_queue_disjoint (taken : id ∈ s.popped) : id ∉ s.queue := by
  have nodup : (s.popped ++ s.queue).Nodup := inv.order ▸ nodup_range
  exact fun queued => (nodup_append.mp nodup).2.2 id taken id queued rfl

theorem CommitInv.done_or_held (leads : (s.pc t).role.leads = true) (taken : id ∈ s.popped) :
    (s.requests id).done = true ∨ id ∈ (s.pc t).role.commitBatch := by
  refine (inv.finished id taken).imp_right fun ⟨u, mem⟩ => ?_
  obtain rfl := inv.unique u t (commitBatch_leads mem) leads
  exact mem

theorem CommitInv.all_done (leads : (s.pc t).role.leads = true)
    (none : (s.pc t).role.commitBatch = []) : ∀ id ∈ s.popped, (s.requests id).done = true := by
  intro id taken
  have done := inv.done_or_held leads taken
  rw [none] at done
  exact done.resolve_right not_mem_nil

theorem CommitInv.push {r : CommitRequest} (role : (s.pc t).role = .none)
    (notDone : r.done = false) (notReleased : r.compactionReleased = false) : CommitInv (s.pushRequest t r) := by
  have old : ∀ {id}, id < s.nextRequest → update s.requests s.nextRequest r id = s.requests id :=
    fun lt => update_of_ne (ne_of_lt lt) _ _
  have roles : ∀ u, (update s.pc t (.commitEntered s.nextRequest) u).role =
      if u = t then .entered s.nextRequest else (s.pc u).role := by
    intro u
    split_ifs with eq
    · rw [eq, update_self]
      rfl
    · rw [update_of_ne eq]
  have popped : ∀ {id}, id ∈ s.popped → id < s.nextRequest := fun mem => (mem_popped_or_queue inv).mpr (.inl mem)
  constructor
  all_goals simp only [State.pushRequest, State.setPc, roles]
  case leader =>
    intro u leads
    split_ifs at leads
    · simp [Role.leads] at leads
    · exact inv.leader u leads
  case unique =>
    intro u v leadsU leadsV
    split_ifs at leadsU leadsV
    all_goals first | simp [Role.leads] at leadsU; done | simp [Role.leads] at leadsV; done | skip
    exact inv.unique u v leadsU leadsV
  case led =>
    intro progress
    obtain ⟨u, leads⟩ := inv.led progress
    refine ⟨u, ?_⟩
    split_ifs with eq
    · rw [eq, role] at leads
      exact absurd leads (by simp [Role.leads])
    · exact leads
  case order => rw [← append_assoc, inv.order, range_succ]
  case logged => exact inv.logged
  case queued =>
    intro id mem
    rcases mem_append.mp mem with before | last
    · rw [old ((mem_popped_or_queue inv).mpr (.inr before))]
      exact inv.queued id before
    · rw [mem_singleton.mp last, update_self]
      exact ⟨notDone, notReleased⟩
  case taken =>
    intro u id mem
    split_ifs at mem
    · simp [Role.batch] at mem
    · exact inv.taken u id mem
  case batch =>
    intro u id mem
    split_ifs at mem
    · simp [Role.commitBatch] at mem
    · have held := inv.batch u id mem
      exact ⟨held.1, by rw [old (popped held.1)]; exact held.2⟩
  case distinct =>
    intro u
    split_ifs
    · simp [Role.commitBatch]
    · exact inv.distinct u
  case logging =>
    intro u id mem
    split_ifs at mem
    · simp [Role.logging] at mem
    · rw [old (popped (inv.batch u id (logging_subset mem)).1)]
      exact inv.logging u id mem
  case finished =>
    intro id mem
    rw [old (popped mem)]
    rcases inv.finished id mem with done | ⟨u, held⟩
    · exact .inl done
    · refine .inr ⟨u, ?_⟩
      split_ifs with eq
      · rw [eq, role] at held
        simp [Role.commitBatch] at held
      · exact held
  case doneReleased =>
    intro id lt done
    rcases Nat.lt_succ_iff_lt_or_eq.mp lt with before | rfl
    · rw [old before] at done ⊢
      exact inv.doneReleased id before done
    · rw [update_self, notDone] at done
      simp at done
  case releasedOnce => exact inv.releasedOnce
  case released =>
    intro id
    rw [inv.released id]
    constructor
    · rintro ⟨lt, released⟩
      exact ⟨Nat.lt_succ_of_lt lt, by rw [old lt]; exact released⟩
    · rintro ⟨lt, released⟩
      rcases Nat.lt_succ_iff_lt_or_eq.mp lt with before | rfl
      · rw [old before] at released
        exact ⟨before, released⟩
      · rw [update_self, notReleased] at released
        simp at released
  case own =>
    intro u own mine
    split_ifs at mine
    · simp only [Role.own, Option.some.injEq] at mine
      omega
    · exact Nat.lt_succ_of_lt (inv.own u own mine)
  case pendingLed =>
    intro id lt pending
    rcases Nat.lt_succ_iff_lt_or_eq.mp lt with before | rfl
    · rw [old before] at pending
      rcases inv.pendingLed id before pending with progress | ⟨u, entered⟩
      · exact .inl progress
      · refine .inr ⟨u, ?_⟩
        split_ifs with eq
        · rw [eq, role] at entered
          cases entered
        · exact entered
    · exact .inr ⟨t, by simp⟩
  case returning =>
    intro u own returned
    split_ifs at returned
    rw [old (inv.own u own (returned ▸ rfl))]
    exact inv.returning u own returned

theorem CommitInv.change_role {progress : Bool} (before : (s.pc t).role.commitBatch = [])
    (batch : pc.role.batch = []) (after : pc.role.commitBatch = [])
    (own : ∀ id, pc.role.own = some id → (s.pc t).role.own = some id)
    (returning : ∀ id, pc.role = .returning id → (s.requests id).done = true)
    (leader : ∀ u, (update s.pc t pc u).role.leads = true → progress = true)
    (unique : ∀ u v, (update s.pc t pc u).role.leads = true → (update s.pc t pc v).role.leads = true → u = v)
    (led : progress = true → ∃ u, (update s.pc t pc u).role.leads = true)
    (pendingLed : ∀ id < s.nextRequest, (s.requests id).done = false →
      progress = true ∨ ∃ u, (update s.pc t pc u).role = .entered id) :
    CommitInv (State.setPc { s with inProgress := progress } t pc) := by
  have thread := fun P : Role → Prop => forall_update_iff (a := t) (b := pc) s.pc fun _ p => P p.role
  refine { inv with
    leader, unique, led, pendingLed
    taken := ?_, batch := ?_, distinct := ?_, logging := ?_, finished := ?_, own := ?_, returning := ?_ }
  · refine (thread fun r => ∀ id ∈ r.batch, id ∈ s.popped).mpr ⟨?_, fun u _ => inv.taken u⟩
    rw [batch]
    nofun
  · refine (thread fun r => ∀ id ∈ r.commitBatch, id ∈ s.popped ∧ (s.requests id).done = false).mpr ⟨?_,
      fun u _ => inv.batch u⟩
    rw [after]
    nofun
  · refine (thread fun r => r.commitBatch.Nodup).mpr ⟨?_, fun u _ => inv.distinct u⟩
    rw [after]
    exact nodup_nil
  · refine (thread fun r => ∀ id ∈ r.logging, (s.requests id).compactionReleased = false).mpr ⟨?_, fun u _ => inv.logging u⟩
    intro id mem
    have held := logging_subset mem
    rw [after] at held
    cases held
  · intro id mem
    rcases inv.finished id mem with done | ⟨u, held⟩
    · exact .inl done
    · have other : u ≠ t := by
        rintro rfl
        rw [before] at held
        cases held
      exact .inr ⟨u, by rw [setPc_pc, update_of_ne other]; exact held⟩
  · exact (thread fun r => ∀ id, r.own = some id → id < s.nextRequest).mpr
      ⟨fun id mine => inv.own t id (own id mine), fun u _ => inv.own u⟩
  · exact (thread fun r => ∀ id, r = .returning id → (s.requests id).done = true).mpr
      ⟨returning, fun u _ => inv.returning u⟩

theorem CommitInv.change_follower (before : (s.pc t).role.leads = false)
    (after : p.role.leads = false) (entered : s.inProgress = true ∨ ∀ id, (s.pc t).role ≠ .entered id)
    (own : ∀ id, p.role.own = some id → (s.pc t).role.own = some id)
    (returning : ∀ id, p.role = .returning id → (s.requests id).done = true) : CommitInv (s.setPc t p) := by
  have batches : ∀ r : Role, r.leads = false → r.batch = [] ∧ r.commitBatch = [] := by
    intro r follows
    cases r <;> simp_all [Role.leads, Role.batch, Role.commitBatch]
  have leads : ∀ u, (update s.pc t p u).role.leads = (s.pc u).role.leads := by
    intro u
    by_cases eq : u = t
    · rw [eq, update_self, before, after]
    · rw [update_of_ne eq]
  refine inv.change_role (batches _ before).2 (batches _ after).1 (batches _ after).2 own returning ?_ ?_ ?_ ?_
  · intro u leading
    exact inv.leader u (leads u ▸ leading)
  · intro u v leadingU leadingV
    exact inv.unique u v (leads u ▸ leadingU) (leads v ▸ leadingV)
  · intro progress
    obtain ⟨u, leading⟩ := inv.led progress
    exact ⟨u, (leads u).trans leading⟩
  · intro id lt pending
    rcases inv.pendingLed id lt pending with progress | ⟨u, enteredU⟩
    · exact .inl progress
    · rcases entered with progress | notEntered
      · exact .inl progress
      · have other : u ≠ t := fun eq => notEntered id (eq ▸ enteredU)
        exact .inr ⟨u, by rw [update_of_ne other]; exact enteredU⟩

theorem CommitInv.lead {own : ℕ} (role : (s.pc t).role = .entered own)
    (idle : s.inProgress = false) : CommitInv (State.setPc { s with inProgress := true } t (.leaderLoop own)) := by
  have follows : ∀ u, (s.pc u).role.leads = false := by
    intro u
    by_contra leading
    rw [inv.leader u (by simpa using leading)] at idle
    simp at idle
  have leads : ∀ u, (update s.pc t (.leaderLoop own) u).role.leads = true → u = t := by
    intro u leading
    by_contra other
    rw [update_of_ne other, follows u] at leading
    simp at leading
  refine inv.change_role (role ▸ rfl) rfl rfl ?_ ?_ ?_ ?_ ?_ ?_
  · intro id mine
    rw [role]
    exact mine
  · intro id returned
    cases returned
  · intro _ _
    rfl
  · intro u v leadingU leadingV
    rw [leads u leadingU, leads v leadingV]
  · intro _
    exact ⟨t, by simp [Pc.role, Role.leads]⟩
  · intro _ _ _
    exact .inl rfl

theorem CommitInv.exit {own : ℕ} (role : (s.pc t).role = .leader own [] [] false)
    (empty : s.queue = []) : CommitInv (State.setPc { s with inProgress := false } t (.commitReturn own)) := by
  have leading : (s.pc t).role.leads = true := role ▸ rfl
  have done : ∀ id < s.nextRequest, (s.requests id).done = true := by
    intro id lt
    refine inv.all_done leading (role ▸ rfl) id ?_
    simpa [empty] using (mem_popped_or_queue inv).mp lt
  have follows : ∀ u, (update s.pc t (.commitReturn own) u).role.leads = false := by
    intro u
    by_cases eq : u = t
    · rw [eq, update_self]
      rfl
    · rw [update_of_ne eq]
      by_contra leadingU
      exact eq (inv.unique u t (by simpa using leadingU) leading)
  have ownBelow : own < s.nextRequest := inv.own t own (role ▸ rfl)
  refine inv.change_role (role ▸ rfl) rfl rfl ?_ ?_ ?_ ?_ ?_ ?_
  · intro id mine
    rw [role]
    exact mine
  · intro id returned
    cases returned
    exact done own ownBelow
  · intro u leadingU
    exact absurd leadingU (by simp [follows u])
  · intro u v leadingU _
    exact absurd leadingU (by simp [follows u])
  · intro progress
    cases progress
  · intro id lt pending
    rw [done id lt] at pending
    simp at pending

theorem CommitInv.release (nodup : ids.Nodup) (taken : ∀ id ∈ ids, id ∈ s.popped)
    (quiet : ∀ t, ∀ id ∈ (s.pc t).role.logging, id ∉ ids) : CommitInv (s.releaseRequests ids) := by
  have lt : ∀ id ∈ ids, id < s.nextRequest := fun id mem => (mem_popped_or_queue inv).mpr (.inl (taken id mem))
  refine { inv with
    queued := ?_, batch := by simpa using inv.batch, logging := ?_, finished := by simpa using inv.finished, doneReleased := ?_
    releasedOnce := ?_, released := ?_, pendingLed := by simpa using inv.pendingLed,
    returning := by simpa using inv.returning }
  · intro id queued
    have notTaken : id ∉ ids := fun mem => popped_queue_disjoint inv (taken id mem) queued
    simpa [notTaken] using inv.queued id queued
  · intro t id mem
    simpa [quiet t id mem] using inv.logging t id mem
  · intro id less done
    simp [inv.doneReleased id less (by simpa using done)]
  · refine nodup_append.mpr ⟨inv.releasedOnce, nodup.filter _, ?_⟩
    rintro id old _ fresh rfl
    simp [((inv.released id).mp old).2] at fresh
  · intro id
    simp only [State.releaseRequests, mem_append, mem_filter, inv.released id]
    have eq := releaseRequests_released s ids id
    simp only [State.releaseRequests, mem_filter] at eq
    rw [eq]
    by_cases mem : id ∈ ids
    · have less := lt id mem
      cases released : (s.requests id).compactionReleased <;> simp [less, mem]
    · simp [mem]

theorem CommitInv.change_leader (leading : (s.pc t).role.leads = true)
    (threads : s'.pc = update s.pc t pc) (still : pc.role.leads = true)
    (own : ∀ id, pc.role.own = some id → (s.pc t).role.own = some id)
    (inProgress : s'.inProgress = s.inProgress) (nextRequest : s'.nextRequest = s.nextRequest)
    (order : s'.popped ++ s'.queue = List.range s.nextRequest) (logged : s'.logged.Sublist s'.popped)
    (queued : ∀ id ∈ s'.queue, (s'.requests id).done = false ∧ (s'.requests id).compactionReleased = false)
    (taken : ∀ id ∈ pc.role.batch, id ∈ s'.popped)
    (batch : ∀ id ∈ pc.role.commitBatch, id ∈ s'.popped ∧ (s'.requests id).done = false)
    (nodup : pc.role.commitBatch.Nodup) (logging : ∀ id ∈ pc.role.logging, (s'.requests id).compactionReleased = false)
    (finished : ∀ id ∈ s'.popped, (s'.requests id).done = true ∨ id ∈ pc.role.commitBatch)
    (grow : ∀ id, (s.requests id).done = true → (s'.requests id).done = true)
    (doneReleased : ∀ id < s.nextRequest, (s'.requests id).done = true → (s'.requests id).compactionReleased = true)
    (releases : s'.releases = s.releases)
    (sameReleased : ∀ id, (s'.requests id).compactionReleased = (s.requests id).compactionReleased) : CommitInv s' := by
  have other : ∀ {u}, u ≠ t → s'.pc u = s.pc u := fun ne => by rw [threads, update_of_ne ne]
  have self : s'.pc t = pc := by rw [threads, update_self]
  have leads : ∀ u, (s'.pc u).role.leads = (s.pc u).role.leads := by
    intro u
    by_cases eq : u = t
    · rw [eq, self, still, leading]
    · rw [other eq]
  -- nobody but the leader has a batch
  have onlyLeader : ∀ {u id}, id ∈ (s'.pc u).role.commitBatch → u = t := fun {u id} mem =>
    inv.unique u t (leads u ▸ commitBatch_leads mem) leading
  have batchLeads : ∀ {u id}, id ∈ (s'.pc u).role.batch → u = t := by
    intro u id mem
    refine inv.unique u t (leads u ▸ ?_) leading
    cases role : (s'.pc u).role <;> simp_all [Role.batch, Role.leads]
  constructor
  case leader =>
    intro u leadingU
    rw [inProgress]
    exact inv.leader u (leads u ▸ leadingU)
  case unique => exact fun u v leadingU leadingV => inv.unique u v (leads u ▸ leadingU) (leads v ▸ leadingV)
  case led => exact fun _ => ⟨t, by rw [self, still]⟩
  case order => rw [order, nextRequest]
  case logged => exact logged
  case queued => exact queued
  case taken =>
    intro u id mem
    obtain rfl := batchLeads mem
    exact taken id (self ▸ mem)
  case batch =>
    intro u id mem
    obtain rfl := onlyLeader mem
    exact batch id (self ▸ mem)
  case distinct =>
    intro u
    by_cases eq : u = t
    · rw [eq, self]
      exact nodup
    · rw [other eq]
      exact inv.distinct u
  case logging =>
    intro u id mem
    obtain rfl := onlyLeader (logging_subset mem)
    exact logging id (self ▸ mem)
  case finished =>
    intro id mem
    rcases finished id mem with done | held
    · exact .inl done
    · exact .inr ⟨t, by rw [self]; exact held⟩
  case doneReleased => rw [nextRequest]; exact doneReleased
  case releasedOnce => rw [releases]; exact inv.releasedOnce
  case released =>
    intro id
    rw [releases, nextRequest, sameReleased]
    exact inv.released id
  case own =>
    intro u id mine
    rw [nextRequest]
    by_cases eq : u = t
    · rw [eq, self] at mine
      exact inv.own t id (own id mine)
    · exact inv.own u id (other eq ▸ mine)
  case pendingLed =>
    intro _ _ _
    rw [inProgress]
    exact .inl (inv.leader t leading)
  case returning =>
    intro u id returned
    have ne : u ≠ t := by
      rintro rfl
      rw [self] at returned
      rw [returned] at still
      simp [Role.leads] at still
    exact grow id (inv.returning u id (other ne ▸ returned))

theorem CommitInv.pop (role : (s.pc t).role = .leader own [] [] false) {rest : List ℕ}
    (front : s.queue = batch ++ rest) :
    CommitInv (State.setPc { s with queue := rest, popped := s.popped ++ batch } t (.leaderMark own batch batch .ok)) := by
  have leading : (s.pc t).role.leads = true := role ▸ rfl
  have done := inv.all_done leading (role ▸ rfl)
  have inQueue : ∀ id ∈ batch, id ∈ s.queue := fun id mem => by rw [front]; exact mem_append_left _ mem
  have order : (s.popped ++ batch) ++ rest = List.range s.nextRequest := by rw [append_assoc, ← front, inv.order]
  have nodup : ((s.popped ++ batch) ++ rest).Nodup := order ▸ nodup_range
  refine inv.change_leader leading rfl rfl (fun id mine => by rw [role]; exact mine) rfl rfl order
    (inv.logged.trans (sublist_append_left _ _)) ?_ ?_ ?_ ?_ (by simp [Pc.role, Role.logging]) ?_
    (fun _ done => done) inv.doneReleased rfl (fun _ => rfl)
  · intro id mem
    exact inv.queued id (by rw [front]; exact mem_append_right _ mem)
  · intro id mem
    exact mem_append_right _ mem
  · intro id mem
    exact ⟨mem_append_right _ mem, (inv.queued id (inQueue id mem)).1⟩
  · exact (nodup.sublist (sublist_append_left _ _)).sublist (sublist_append_right _ _)
  · intro id mem
    rcases mem_append.mp mem with old | fresh
    · exact .inl (done id old)
    · exact .inr fresh

section

variable (role : (s.pc t).role = .leader own batch commitBatch false)
include role

theorem CommitInv.quiet (u : Fin n) :
    (s.pc u).role.logging = [] := by
  by_contra ne
  obtain ⟨id, mem⟩ := exists_mem_of_ne_nil _ ne
  have leading : (s.pc t).role.leads = true := role ▸ rfl
  obtain rfl := inv.unique u t (commitBatch_leads (logging_subset mem)) leading
  rw [role] at mem
  simp [Role.logging] at mem

theorem CommitInv.release_batch (sub : ids.Sublist commitBatch) : CommitInv (s.releaseRequests ids) := by
  have nodup := inv.distinct t
  rw [role] at nodup
  refine inv.release (nodup.sublist sub) ?_ ?_
  · intro id mem
    exact (inv.batch t id (by rw [role]; exact sub.subset mem)).1
  · intro u id mem
    rw [inv.quiet role u] at mem
    simp at mem

theorem CommitInv.mark
    {batch' kept : List ℕ} (ids : List ℕ) (status : Status) (next : p.role = .leader own batch' kept false)
    (subset : ∀ id ∈ batch', id ∈ batch) (split : ∀ id, id ∈ commitBatch ↔ id ∈ ids ∨ id ∈ kept)
    (apart : ∀ id ∈ kept, id ∉ ids) (nodup : kept.Nodup)
    (released : ∀ id ∈ ids, (s.requests id).compactionReleased = true) :
    CommitInv ((s.markDone ids status).setPc t p) := by
  have leading : (s.pc t).role.leads = true := role ▸ rfl
  have held : ∀ id ∈ commitBatch, id ∈ s.popped ∧ (s.requests id).done = false := fun id mem =>
    inv.batch t id (by rw [role]; exact mem)
  have requests : ((s.markDone ids status).setPc t p).requests = (s.markDone ids status).requests := rfl
  refine inv.change_leader leading rfl (next ▸ rfl) (fun id mine => by rw [role]; rw [next] at mine; exact mine)
    rfl rfl inv.order inv.logged ?_ ?_ ?_ (by rw [next]; exact nodup) (by rw [next]; simp [Role.logging]) ?_ ?_ ?_ rfl
    ?_
  · intro id queued
    have notDone : id ∉ ids := fun mem => popped_queue_disjoint inv (held id ((split id).mpr (.inl mem))).1 queued
    rw [requests, markDone_done, markDone_released]
    simpa [notDone] using inv.queued id queued
  · intro id mem
    rw [next] at mem
    exact inv.taken t id (by rw [role]; exact subset id mem)
  · intro id mem
    rw [next] at mem
    have old := held id ((split id).mpr (.inr mem))
    rw [requests, markDone_done]
    exact ⟨old.1, by simp [old.2, apart id mem]⟩
  · intro id mem
    rw [requests, markDone_done, next]
    rcases inv.done_or_held leading mem with done | inBatch
    · exact .inl (by simp [done])
    · rw [role] at inBatch
      rcases (split id).mp inBatch with marked | remains
      · exact .inl (by simp [marked])
      · exact .inr remains
  · intro id done
    rw [requests, markDone_done, done]
    rfl
  · intro id lt done
    rw [requests, markDone_done] at done
    rw [requests, markDone_released]
    rcases Bool.or_eq_true _ _ |>.mp done with old | marked
    · exact inv.doneReleased id lt old
    · exact released id (by simpa using marked)
  · intro id
    rw [requests, markDone_released]

theorem CommitInv.log
    (owner : Option (Fin n)) (sub : (s.logged ++ commitBatch).Sublist s.popped)
    (unreleased : ∀ id ∈ commitBatch, (s.requests id).compactionReleased = false) :
    CommitInv (State.setPc { s with owner := owner, logged := s.logged ++ commitBatch } t
      (.leaderLog own batch commitBatch)) := by
  have leading : (s.pc t).role.leads = true := role ▸ rfl
  refine inv.change_leader leading rfl rfl (fun id mine => by rw [role]; exact mine) rfl rfl inv.order sub inv.queued
    ?_ ?_ ?_ unreleased ?_ (fun _ done => done) inv.doneReleased rfl (fun _ => rfl)
  · intro id mem
    exact inv.taken t id (by rw [role]; exact mem)
  · intro id mem
    exact inv.batch t id (by rw [role]; exact mem)
  · have nodup := inv.distinct t
    rw [role] at nodup
    exact nodup
  · intro id mem
    have finished := inv.done_or_held leading mem
    rw [role] at finished
    exact finished

theorem CommitInv.finishBatch {status : Status} :
    CommitInv ((s.finishBatch batch commitBatch status).setPc t (.leaderLoop own)) := by
  have released := inv.release_batch role (List.Sublist.refl commitBatch)
  have roleAfter : ((s.releaseRequests commitBatch).pc t).role = .leader own batch commitBatch false := role
  have next : (Pc.leaderLoop own).role = .leader own [] [] false := rfl
  have marked := released.mark roleAfter commitBatch status next (by simp) (by simp) (by simp) nodup_nil
    (fun id mem => by simp [mem])
  have leading : (update s.pc t (.leaderLoop own) t).role.leads = true := by
    rw [update_self]
    rfl
  have done := marked.all_done (t := t) leading (by rw [setPc_pc, update_self]; rfl)
  have taken : ∀ id ∈ batch, id ∈ s.popped := fun id mem => inv.taken t id (by rw [role]; exact mem)
  have leftover : batch.filter (fun id =>
      !(((s.releaseRequests commitBatch).markDone commitBatch status).requests id).done) = [] := by
    rw [filter_eq_nil_iff]
    intro id mem
    have finished : (((s.releaseRequests commitBatch).markDone commitBatch status).requests id).done = true :=
      done id (taken id mem)
    rw [finished]
    simp
  simp only [State.finishBatch, leftover]
  rw [releaseRequests_of_released [] (by simp), markDone_nil]
  exact marked

end

theorem CommitInv.logging_end (role : (s.pc t).role = .leader own batch commitBatch true)
    (next : p.role = .leader own batch commitBatch false) : CommitInv (s.setPc t p) := by
  have leading : (s.pc t).role.leads = true := role ▸ rfl
  have eq : p.role.commitBatch = (s.pc t).role.commitBatch ∧ p.role.batch = (s.pc t).role.batch := by
    rw [role, next]
    exact ⟨rfl, rfl⟩
  refine inv.change_leader leading rfl (next ▸ rfl) (fun id mine => by rw [role]; rw [next] at mine; exact mine)
    rfl rfl inv.order inv.logged inv.queued ?_ ?_ ?_ (by rw [next]; simp [Role.logging]) ?_ (fun _ done => done)
    inv.doneReleased rfl (fun _ => rfl)
  · rw [eq.2]
    exact inv.taken t
  · rw [eq.1]
    exact inv.batch t
  · rw [eq.1]
    exact inv.distinct t
  · rw [eq.1]
    exact fun id => inv.done_or_held leading

theorem CommitInv.take (role : (s.pc t).role = .leader own [] [] false)
    (next : p.role = .leader own (s.commitRun cfg) ((s.commitRun cfg).filter s.current) false) :
    CommitInv ((s.takeCommitBatch cfg).setPc t p) := by
  have popped := inv.pop role (queue_eq_commitRun s cfg)
  have taken : ∀ pc, (update s.pc t pc t).role = pc.role := fun pc => by rw [update_self]
  have released := popped.release_batch (t := t) (taken _)
    (filter_sublist (l := s.commitRun cfg) (p := fun id => !s.current id))
  have nodup := popped.distinct t
  simp only [setPc_pc, taken] at nodup
  have marked := released.mark (t := t) (taken _) ((s.commitRun cfg).filter fun id => !s.current id) .ok next
    (fun _ mem => mem) ?_ ?_ (nodup.filter _) ?_
  · simpa [State.takeCommitBatch, State.markDone, State.releaseRequests, State.setPc] using marked
  · intro id
    by_cases current : s.current id = true <;> simp [current]
  · intro id mem
    simp only [mem_filter] at mem ⊢
    simp [mem.2]
  · intro id mem
    rw [releaseRequests_released]
    simp [mem]

theorem CommitInv.finishRefill {caller : RefillCaller} (status : Status)
    (role : (s.pc t).role = caller.role) : CommitInv (s.finishRefill t status caller) := by
  cases caller with
  | user => exact inv.setPc_same (p := .idle) (role ▸ rfl) rfl
  | leader own batch commitBatch =>
    exact inv.setPc_same (p := .leaderMark own batch commitBatch status) (role ▸ rfl) rfl

theorem CommitInv.step (step : Step cfg s e s') : CommitInv s' := by
  cases step with
  | reserve => exact inv.congr rfl
  | enqueue t _ _ pc | refillWindow t _ pc | gatherEnd t _ _ pc | moveEnd t _ _ pc =>
    exact inv.setPc_same (t := t) (pc ▸ rfl) rfl
  | refillNothing _ _ pc | refillStop _ _ _ pc => exact inv.finishRefill .ok (pc ▸ rfl)
  | refillStart t _ _ _ pc | refillBatch t _ _ _ _ _ pc
  | refillInstall t _ _ _ _ pc | refillFail t _ _ _ _ pc
  | refillCount t _ _ _ _ pc | pick t _ _ _ pc
  | gather t _ _ _ pc | mergeFail t _ _ _ _ pc
  | leaderDelay t _ pc | leaderProceed t _ pc
  | leaderError t _ _ _ _ pc =>
    exact inv.setPc_same (t := t) (pc ▸ rfl) rfl
  | refillUndo t _ _ batch _ pc =>
    have undone : CommitInv { s with
        owner := some t, registry := removeAll s.registry (batch.map (·.fileNumber)) } :=
      inv.congr rfl
    exact undone.finishRefill .ioError (by change (s.pc t).role = _; rw [pc]; rfl)
  | move _ _ _ _ pc => exact inv.push (pc ▸ rfl) rfl rfl
  | merge t _ _ outputs _ pc =>
    have numbered : CommitInv { s with nextFile := s.nextFile + outputs.length } :=
      inv.congr rfl
    exact numbered.push (by change (s.pc t).role = _; rw [pc]; rfl) rfl rfl
  | commitWait t own pc busy =>
    exact (inv.change_follower (t := t) (p := .waiting own) (pc ▸ rfl) rfl (.inl busy)
      (fun id mine => by rw [pc]; exact mine) (fun id returned => by cases returned)).congr rfl
  | commitLead _ _ pc idle => exact inv.lead (pc ▸ rfl) idle
  | wake t own _ pc done =>
    refine (inv.change_follower (t := t) (p := .commitReturn own) (pc ▸ rfl) rfl
      (.inr fun id entered => ?_) (fun id mine => by rw [pc]; exact mine) (fun id returned => ?_)).congr rfl
    · rw [pc] at entered
      cases entered
    · cases returned
      exact done
  | leaderExit _ _ pc empty => exact inv.exit (pc ▸ rfl) empty
  | leaderAwake t _ _ pc =>
    refine inv.setPc_same (t := t) ?_ rfl
    rw [pc]
    split_ifs <;> rfl
  | leaderStale t own pc stale =>
    have role : (s.pc t).role = .leader own [] [] false := by
      rw [pc]
      rfl
    exact inv.take role (stale ▸ rfl)
  | leaderLog t own pc edits =>
    let next : Pc := .leaderMark own (s.commitRun cfg) ((s.commitRun cfg).filter s.current) .ok
    have role : (s.pc t).role = .leader own [] [] false := by
      rw [pc]
      rfl
    have taken : CommitInv ((s.takeCommitBatch cfg).setPc t next) := inv.take role rfl
    have roleTaken : (((s.takeCommitBatch cfg).setPc t next).pc t).role =
        .leader own (s.commitRun cfg) ((s.commitRun cfg).filter s.current) false := by
      rw [setPc_pc, update_self]
      rfl
    have logged := taken.log roleTaken none ?_ ?_
    · simpa [State.setPc] using logged
    · exact inv.logged.append filter_sublist
    · intro id mem
      have inRun := mem_of_mem_filter mem
      have current := (mem_filter.mp mem).2
      have queued := inv.queued id ((commitRun_front s cfg).subset inRun)
      simp [State.takeCommitBatch, State.setPc, queued.2, current]
  | leaderInstall t own batch commitBatch _ pc =>
    have installed := inv.congr (installAll_sameQueue s commitBatch).view
    have role : ((commitBatch.foldl State.installRequest s).pc t).role = .leader own batch commitBatch true := by
      rw [(installAll_sameQueue s commitBatch).pc, pc]
      rfl
    have ended := installed.logging_end (p := .leaderLogged own batch commitBatch true) role rfl
    exact ended.release_batch (t := t) (by rw [setPc_pc, update_self]; rfl) (List.Sublist.refl commitBatch)
  | leaderFail t own batch commitBatch callback _ pc =>
    have ended := inv.logging_end (t := t) (p := .leaderLogged own batch commitBatch false) (pc ▸ rfl) rfl
    cases callback with
    | false => exact ended
    | true =>
      exact ended.release_batch (t := t) (by rw [setPc_pc, update_self]; rfl) (List.Sublist.refl commitBatch)
  | leaderAccount t own batch commitBatch _ pc =>
    have eq := accountAll_sameQueue s (commitBatch.map s.requests)
    exact ((inv.congr eq.view).setPc_same (t := t) (p := .refillEntry (.leader own batch commitBatch))
      (by rw [eq.pc, pc]; rfl) rfl)
  | leaderMark _ _ _ _ _ pc => exact inv.finishBatch (pc ▸ rfl)
  | commitReturn t own pc =>
    have done := inv.returning t own (pc ▸ rfl)
    have released := inv.doneReleased own (inv.own t own (pc ▸ rfl)) done
    rw [releaseRequests_of_released _ (by simpa using released)]
    refine (inv.change_follower (t := t) (p := .idle) (pc ▸ rfl) rfl
      (.inr fun id entered => ?_) (fun id mine => by cases mine) (fun id returned => by cases returned)).congr rfl
    rw [pc] at entered
    cases entered

end

theorem commitInv (reach : Reached cfg allowed s) : CommitInv s :=
  reach.invariant (fun _ initial => commitInv_initial initial) fun _ _ _ _ inv _ step => inv.step step

theorem takeBatch_ne_nil (remaining : ℕ) {batchCap : ℕ} (pos : 0 < batchCap) {files : List VirtualL0WindowFile}
    (queued : files ≠ []) : (takeBatch remaining batchCap 0 0 files).1 ≠ [] := by
  cases files with
  | nil => exact absurd rfl queued
  | cons file rest =>
    simp only [takeBatch, if_pos pos, ne_eq, not_true_eq_false, false_and, if_false]
    split <;> simp

/-- A leader, and a thread in a critical section, can go on once the mutex is free or its own. -/
theorem thread_goesOn (cfg : ProtocolConfig) (free : (s.pc t).holdsMutex = false → s.owner = none)
    (busy : (s.pc t).role.leads = true ∨ (s.pc t).holdsMutex = true) : ∃ e s', Step cfg s e s' ∧ e.begins = false := by
  cases pc : s.pc t with
  | idle | picked | merging | waiting => simp [pc, Pc.role, Role.leads, Pc.holdsMutex] at busy
  | refillEntry =>
    cases pending : s.pending with
    | nil => exact ⟨_, _, .refillNothing t _ pc pending, rfl⟩
    | cons => exact ⟨_, _, .refillStart t _ _ _ pc pending, rfl⟩
  | refillLoop _ locals =>
    by_cases stop : s.pending = [] ∨ s.visibleBytes ≥ locals.targetBytes ∨ locals.trickled = true ∨ cfg.backpressure = true
    · exact ⟨_, _, .refillStop t _ _ pc stop, rfl⟩
    · push Not at stop
      refine ⟨_, _, .refillBatch t _ _ false _ _ pc stop.2.1 (by simpa using stop.2.2.1) (by simp) rfl ?_, rfl⟩
      exact takeBatch_ne_nil _ (by simp) stop.1
  | commitEntered =>
    cases progress : s.inProgress with
    | false => exact ⟨_, _, .commitLead t _ pc progress, rfl⟩
    | true => exact ⟨_, _, .commitWait t _ pc progress, rfl⟩
  | leaderLoop =>
    by_cases empty : s.queue = []
    · exact ⟨_, _, .leaderExit t _ pc empty, rfl⟩
    · cases delay : s.delays cfg with
      | false => exact ⟨_, _, .leaderProceed t _ pc empty delay, rfl⟩
      | true => exact ⟨_, _, .leaderDelay t _ pc empty delay, rfl⟩
  | leaderBatch =>
    by_cases stale : (s.commitRun cfg).filter s.current = []
    · exact ⟨_, _, .leaderStale t _ pc stale, rfl⟩
    · exact ⟨_, _, .leaderLog t _ pc stale, rfl⟩
  | leaderMark => exact ⟨_, _, .leaderMark t _ _ _ _ pc, rfl⟩
  | commitReturn => exact ⟨_, _, .commitReturn t _ pc, rfl⟩
  -- the others wait for the mutex
  | refillLog => exact ⟨_, _, .refillInstall t _ _ _ (free (pc ▸ rfl)) pc, rfl⟩
  | refillLogged _ _ _ ok =>
    cases ok with
    | false => exact ⟨_, _, .refillUndo t _ _ _ (free (pc ▸ rfl)) pc, rfl⟩
    | true => exact ⟨_, _, .refillCount t _ _ _ (free (pc ▸ rfl)) pc, rfl⟩
  | leaderSleep => exact ⟨_, _, .leaderAwake t _ (free (pc ▸ rfl)) pc, rfl⟩
  | leaderLog => exact ⟨_, _, .leaderInstall t _ _ _ (free (pc ▸ rfl)) pc, rfl⟩
  | leaderLogged _ _ _ ok =>
    cases ok with
    | false => exact ⟨_, _, .leaderError t _ _ _ (free (pc ▸ rfl)) pc, rfl⟩
    | true => exact ⟨_, _, .leaderAccount t _ _ _ (free (pc ▸ rfl)) pc, rfl⟩

theorem role_cases (p : Pc) : p.role = .none ∨ p.role.leads = true ∨ p.holdsMutex = true ∨ ∃ own, p = .waiting own := by
  cases p with
  | refillLog caller | refillLogged caller => cases caller <;> simp [Pc.role, RefillCaller.role, Role.leads]
  | _ => simp [Pc.role, Role.leads, Pc.holdsMutex]

/-- A request that is not done has a leader, or its caller holds the mutex. -/
theorem CommitInv.unfinished (inv : CommitInv s) (lt : id < s.nextRequest) (unfinished : (s.requests id).done = false) :
    (s.inProgress = true ∧ ∃ t, (s.pc t).role.leads = true) ∨ ∃ t, (s.pc t).holdsMutex = true := by
  refine (inv.pendingLed id lt unfinished).imp (fun progress => ⟨progress, inv.led progress⟩) fun ⟨t, entered⟩ => ⟨t, ?_⟩
  have cases := role_cases (s.pc t)
  rw [entered] at cases
  rcases cases with none | leads | holds | ⟨own, waiting⟩
  · cases none
  · cases leads
  · exact holds
  · rw [waiting] at entered
    cases entered

/-- Where only new calls can begin, every request is done and no caller is left in the queue. -/
theorem settled (reach : Reached cfg allowed s) (still : ∀ e s', Step cfg s e s' → e.begins = true) :
    (∀ id < s.nextRequest, (s.requests id).done = true) ∧ ∀ t, (s.pc t).role = .none := by
  have inv := commitInv reach
  have mutex := mutexInv reach
  have stuck : ¬ ∃ e s', Step cfg s e s' ∧ e.begins = false := by
    rintro ⟨e, s', step, goes⟩
    rw [still e s' step] at goes
    cases goes
  have free : ∀ t, (s.pc t).holdsMutex = false :=
    fun t => Bool.eq_false_iff.mpr fun holds => stuck (thread_goesOn cfg (fun no => absurd holds (by simp [no])) (.inr holds))
  have owner : s.owner = none :=
    Option.eq_none_iff_forall_ne_some.mpr fun t owned => by simpa [free t] using (mutex t).mpr owned
  have unled : ∀ t, (s.pc t).role.leads = false :=
    fun t => Bool.eq_false_iff.mpr fun leads => stuck (thread_goesOn cfg (fun _ => owner) (.inl leads))
  have done : ∀ id < s.nextRequest, (s.requests id).done = true := by
    intro id lt
    by_contra unfinished
    rcases inv.unfinished lt (Bool.eq_false_iff.mpr unfinished) with ⟨-, t, leads⟩ | ⟨t, holds⟩
    · simp [unled t] at leads
    · simp [free t] at holds
  refine ⟨done, fun t => ?_⟩
  rcases role_cases (s.pc t) with none | leads | holds | ⟨own, waiting⟩
  · exact none
  · simp [unled t] at leads
  · simp [free t] at holds
  · exact absurd ⟨_, _, .wake t own owner waiting (done own (inv.own t own (waiting ▸ rfl))), rfl⟩ stuck

/-- A round takes the front of the queue. -/
theorem takes_front (step : Step cfg s (.leaderTake t) s') :
    ∃ batch, s.queue = batch ++ s'.queue ∧ s'.popped = s.popped ++ batch ∧ (s.queue ≠ [] → batch ≠ []) := by
  have nonempty : s.queue ≠ [] → s.commitRun cfg ≠ [] := by
    intro queued
    unfold State.commitRun
    split
    next empty => exact absurd empty queued
    next front rest eq =>
      obtain ⟨size, long⟩ :=
        Nat.exists_eq_succ_of_ne_zero (Nat.ne_of_gt (lt_max_of_lt_left Nat.one_pos : 0 < max 1 cfg.commitBatchMax))
      simp [eq, long]
  cases step with
  | leaderStale | leaderLog => exact ⟨s.commitRun cfg, queue_eq_commitRun s cfg, rfl, nonempty⟩

/-- The pushed requests are those taken, in order, then those queued; edits are logged once, in order within a column
family; a finished request was taken and released once, and finished when its caller returns; with the mutex free an
unfinished one has a leader. A round takes the front of the queue, and where only new calls can begin every request is
done and every caller has left. -/
theorem commit_queue_exactly_once (cfg : ProtocolConfig) (s : State n) (reach : Reached cfg (fun _ _ => True) s) :
    s.popped ++ s.queue = List.range s.nextRequest ∧
    (∀ id, s.popped.count id ≤ 1 ∧ s.logged.count id ≤ 1 ∧ s.releases.count id ≤ 1) ∧
    (∀ id < s.nextRequest, (s.requests id).done = true → s.popped.count id = 1 ∧ s.releases.count id = 1) ∧
    (∀ cf, (s.logged.filter fun id => (s.requests id).compaction.cf = cf).Pairwise (· < ·)) ∧
    (∀ t own, s.pc t = .commitReturn own → own < s.nextRequest ∧ (s.requests own).done = true) ∧
    (s.owner = none → ∀ id < s.nextRequest, (s.requests id).done = false →
      s.inProgress = true ∧ ∃ t, (s.pc t).role.leads = true) ∧
    (∀ t s', Step cfg s (.leaderTake t) s' →
      ∃ batch, s.queue = batch ++ s'.queue ∧ s'.popped = s.popped ++ batch ∧ (s.queue ≠ [] → batch ≠ [])) ∧
    ((∀ e s', Step cfg s e s' → e.begins = true) →
      (∀ id < s.nextRequest, (s.requests id).done = true) ∧ ∀ t, (s.pc t).role = .none) := by
  have inv := commitInv reach
  have sorted : s.popped.Pairwise (· < ·) :=
    (inv.order ▸ pairwise_lt_range : (s.popped ++ s.queue).Pairwise (· < ·)).sublist (sublist_append_left _ _)
  have nodup : s.popped.Nodup := sorted.imp ne_of_lt
  refine ⟨inv.order, ?_, ?_, ?_, ?_, ?_, fun t s' => takes_front, settled reach⟩
  · intro id
    exact ⟨nodup_iff_count_le_one.mp nodup id, nodup_iff_count_le_one.mp (nodup.sublist inv.logged) id,
      nodup_iff_count_le_one.mp inv.releasedOnce id⟩
  · intro id lt done
    have taken : id ∈ s.popped := by
      rcases (mem_popped_or_queue inv).mp lt with taken | queued
      · exact taken
      · simp [(inv.queued id queued).1] at done
    have released : id ∈ s.releases := (inv.released id).mpr ⟨lt, inv.doneReleased id lt done⟩
    exact ⟨count_eq_one_of_mem nodup taken, count_eq_one_of_mem inv.releasedOnce released⟩
  · intro cf
    exact (sorted.sublist inv.logged).filter _
  · intro t own pc
    exact ⟨inv.own t own (pc ▸ rfl), inv.returning t own (pc ▸ rfl)⟩
  · intro free id lt unfinished
    refine (inv.unfinished lt unfinished).resolve_right fun ⟨t, holds⟩ => ?_
    rw [(mutexInv reach t).mp holds] at free
    cases free

/-- Idle threads over virtual files that are all registered. -/
def startState (n : ℕ) (files : List VersionFile) : State n where
  owner := none
  pc := fun _ => .idle
  files := files
  registry := fun number => if files.any (·.number = number) then some threeKeys else none
  nextFile := files.length + 1
  reserved := []
  pending := []
  visibleFiles := 0
  visibleBytes := 0
  beingCompacted := fun _ => false
  queue := []
  inProgress := false
  requests := fun _ => default
  nextRequest := 0
  removed := []
  largestEnqueued := 0
  popped := []
  logged := []
  releases := []

theorem startState_initial {files : List VersionFile} (distinct : (files.map (·.number)).Nodup)
    (below : ∀ file ∈ files, file.number ≤ files.length) (deep : ∀ file ∈ files, file.virtual = true ∧ file.level ≠ 0) :
    Initial (startState n files) := by
  refine ⟨rfl, fun _ => rfl, distinct, fun file mem => Nat.lt_succ_of_le (below file mem), fun file mem _ => (deep file mem).2,
    fun number => ?_, rfl, rfl, rfl, rfl, fun _ => rfl, rfl, rfl, rfl, rfl, rfl, rfl, rfl⟩
  have listed : (∃ file ∈ files, file.number = number) ↔ ∃ file ∈ files, file.virtual = true ∧ file.number = number :=
    exists_congr fun file => and_congr_right fun mem => by simp [deep file mem]
  simpa [startState] using listed

def plainConfig : ProtocolConfig := ⟨{}, oneKeyFiles, 10, 16, false, 16, 0⟩

def deepFile (number : ℕ) : VersionFile := ⟨0, number, 1, 10, true⟩

def deepMove (number : ℕ) : Compaction := ⟨0, [deepFile number], 2, []⟩

theorem twoMoves : Reached plainConfig (fun _ _ => True) (startState 2 [deepFile 1, deepFile 2]) :=
  .start (startState_initial (by decide) (by decide) (by decide))

/-- The leader of one request commits the other too, which arrives while its own edit is logged. -/
theorem commit_queue_exactly_once_follower : ∃ s : State 2, Reached plainConfig (fun _ _ => True) s ∧
    s.pc 0 = .idle ∧ s.pc 1 = .commitReturn 1 ∧ s.popped = [0, 1] ∧ s.logged = [0, 1] ∧ (s.requests 1).done = true ∧
    s.releases.count 0 = 1 ∧ s.releases.count 1 = 1 := by
  have r := twoMoves
    |>.next trivial (.pick 0 (deepMove 1) true rfl rfl ⟨by decide, by decide, by decide, by decide⟩)
    |>.next trivial (.pick 1 (deepMove 2) true rfl rfl ⟨by decide, by decide, by decide, by decide⟩)
    |>.next trivial (.move 0 (deepMove 1) [(1, threeKeys)] rfl rfl rfl (by simp))
    |>.next trivial (.commitLead 0 0 rfl rfl)
    |>.next trivial (.leaderProceed 0 0 rfl (by decide) rfl)
    |>.next trivial (.leaderLog 0 0 rfl (by decide))
    |>.next trivial (.move 1 (deepMove 2) [(2, threeKeys)] rfl rfl rfl (by simp))
    |>.next trivial (.commitWait 1 1 rfl rfl)
    |>.next trivial (.leaderInstall 0 0 _ _ rfl rfl)
    |>.next trivial (.leaderAccount 0 0 _ _ rfl rfl)
    |>.next trivial (.refillNothing 0 _ rfl rfl)
    |>.next trivial (.leaderMark 0 0 _ _ _ rfl)
    |>.next trivial (.leaderProceed 0 0 rfl (by decide) rfl)
    |>.next trivial (.leaderLog 0 0 rfl (by decide))
    |>.next trivial (.leaderInstall 0 0 _ _ rfl rfl)
    |>.next trivial (.leaderAccount 0 0 _ _ rfl rfl)
    |>.next trivial (.refillNothing 0 _ rfl rfl)
    |>.next trivial (.leaderMark 0 0 _ _ _ rfl)
    |>.next trivial (.leaderExit 0 0 rfl rfl)
    |>.next trivial (.commitReturn 0 0 rfl)
    |>.next trivial (.wake 1 1 rfl rfl rfl)
  have facts := commit_queue_exactly_once plainConfig _ r
  have returned := facts.2.2.2.2.1 1 1 rfl
  have once := facts.2.2.1
  exact ⟨_, r, rfl, rfl, rfl, rfl, returned.2, (once 0 (by decide) rfl).2, (once 1 returned.1 returned.2).2⟩

end VcompProof
