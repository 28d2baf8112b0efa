import Mathlib.Data.List.Nodup
import Mathlib.Data.List.TakeWhile
import Mathlib.Tactic.Linarith
import Vcomp.Flush.MemTableList

namespace VcompModel.Flush

structure Mem where
  ident : ℕ
  id : ℕ

/-- The memtables of one flush job, from the oldest, with the file they are flushed to. -/
structure Group where
  file : ℕ
  first : Mem
  rest : List Mem

/-- What the list is made of: waiting memtables, and those of the flush jobs. -/
inductive Batch where
  | waiting (m : Mem)
  | running (g : Group)
  | completed (g : Group)

def Group.mems (g : Group) : List Mem := g.first :: g.rest

def Group.job (g : Group) : FlushJob := ⟨g.mems.map (·.ident), g.file⟩

def Group.table (g : Group) (completed : Bool) (edit : Option ℕ) (m : Mem) : MemTable :=
  ⟨m.ident, m.id, true, completed, if completed then g.file else 0, edit⟩

def Group.tables (g : Group) (completed : Bool) : List MemTable :=
  g.table completed (some g.file) g.first :: g.rest.map (g.table completed none)

def Mem.table (m : Mem) : MemTable := ⟨m.ident, m.id, false, false, 0, none⟩

namespace Batch

def tables : Batch → List MemTable
  | waiting m => [m.table]
  | running g => g.tables false
  | completed g => g.tables true

def mems : Batch → List Mem
  | waiting m => [m]
  | running g => g.mems
  | completed g => g.mems

def file : Batch → Option ℕ
  | waiting _ => none
  | running g => some g.file
  | completed g => some g.file

def job : Batch → Option FlushJob
  | running g => some g.job
  | _ => none

end Batch

def release : List Batch → List Batch
  | .completed g :: rest => g.mems.map .waiting ++ release rest
  | queue => queue

def ready : List Batch → List Group
  | .completed g :: rest => g :: ready rest
  | _ => []

end VcompModel.Flush

namespace VcompProof.Flush

open VcompModel.Flush List

abbrev tablesOf (queue : List Batch) : List MemTable := queue.flatMap Batch.tables

abbrev identsOf (queue : List Batch) : List ℕ := (queue.flatMap Batch.mems).map (·.ident)

abbrev filesOf (queue : List Batch) : List ℕ := queue.filterMap Batch.file

abbrev jobsOf (queue : List Batch) : List FlushJob := queue.filterMap Batch.job

variable (queue more : List Batch) (groups : List Group) (g : Group) (completed : Bool) (mems : List Mem)

theorem tablesOf_append : tablesOf (queue ++ more) = tablesOf queue ++ tablesOf more :=
  flatMap_append

theorem group_table_fileNumber (edit : Option ℕ) (m : Mem) : (g.table true edit m).fileNumber = g.file := rfl

theorem group_idents : (g.tables completed).map (·.ident) = g.mems.map (·.ident) := by
  simp [Group.tables, Group.table, Group.mems]

theorem batch_idents (b : Batch) : b.tables.map (·.ident) = b.mems.map (·.ident) := by
  cases b with
  | waiting => rfl
  | running g => exact group_idents g false
  | completed g => exact group_idents g true

theorem tablesOf_idents : (tablesOf queue).map (·.ident) = identsOf queue := by
  induction queue with
  | nil => rfl
  | cons _ _ ih => simp [identsOf, batch_idents, ih]

theorem group_tables_inProgress : ∀ m ∈ g.tables completed, m.flushInProgress = true := by
  simp [Group.tables, Group.table]

theorem group_tables_completed : ∀ m ∈ g.tables completed, m.flushCompleted = completed := by
  simp [Group.tables, Group.table]

theorem groups_inProgress : ∀ m ∈ tablesOf (groups.map .completed), m.flushInProgress = true := by
  intro m mem
  obtain ⟨b, inside, here⟩ := mem_flatMap.mp mem
  obtain ⟨g, -, rfl⟩ := mem_map.mp inside
  exact group_tables_inProgress g true m here

theorem tablesOf_waiting : tablesOf (mems.map .waiting) = mems.map Mem.table := by
  rw [tablesOf, flatMap_map, map_eq_flatMap]
  rfl

theorem group_tables_reset : (g.tables completed).map (·.reset) = tablesOf (g.mems.map .waiting) := by
  rw [tablesOf_waiting]
  simp [Group.tables, Group.table, Group.mems, MemTable.reset, Mem.table]

abbrev waitingOf (queue : List Batch) : ℕ := (tablesOf queue).countP (!·.flushInProgress)

theorem waitingOf_append : waitingOf (queue ++ more) = waitingOf queue + waitingOf more := by
  rw [waitingOf, tablesOf_append, countP_append]

theorem group_waiting : (g.tables completed).countP (!·.flushInProgress) = 0 := by
  rw [countP_eq_zero]
  intro m mem
  simp [group_tables_inProgress g completed m mem]

theorem waitingOf_running (after : List Batch) : waitingOf (.running g :: after) = waitingOf after := by
  change (g.tables false ++ tablesOf after).countP _ = _
  rw [countP_append, group_waiting, zero_add]

theorem waitingOf_completed (after : List Batch) : waitingOf (.completed g :: after) = waitingOf after := by
  change (g.tables true ++ tablesOf after).countP _ = _
  rw [countP_append, group_waiting, zero_add]

theorem waitingOf_groups : waitingOf (groups.map .completed) = 0 := by
  induction groups with
  | nil => rfl
  | cons _ _ ih => rw [map_cons, waitingOf_completed, ih]

theorem waitingOf_waiting : waitingOf (mems.map .waiting) = mems.length := by
  rw [waitingOf, tablesOf_waiting, countP_map, ← length_map Mem.table, length_map]
  exact countP_eq_length.mpr fun m _ => rfl

theorem filesOf_append : filesOf (queue ++ more) = filesOf queue ++ filesOf more :=
  filterMap_append

theorem jobsOf_append : jobsOf (queue ++ more) = jobsOf queue ++ jobsOf more :=
  filterMap_append

theorem filesOf_waiting : filesOf (mems.map .waiting) = [] := by
  rw [filesOf, filterMap_map]
  exact filterMap_eq_nil_iff.mpr fun _ _ => rfl

theorem jobsOf_waiting : jobsOf (mems.map .waiting) = [] := by
  rw [jobsOf, filterMap_map]
  exact filterMap_eq_nil_iff.mpr fun _ _ => rfl

theorem filesOf_groups : filesOf (groups.map .completed) = groups.map (·.file) := by
  rw [filesOf, filterMap_map]
  exact congrFun filterMap_eq_map groups

theorem jobsOf_groups : jobsOf (groups.map .completed) = [] := by
  rw [jobsOf, filterMap_map]
  exact filterMap_eq_nil_iff.mpr fun _ _ => rfl

theorem identsOf_groups : identsOf (groups.map .completed) = (groups.flatMap Group.mems).map (·.ident) := by
  rw [identsOf, flatMap_map]
  rfl

theorem identsOf_append : identsOf (queue ++ more) = identsOf queue ++ identsOf more := by
  rw [identsOf, flatMap_append, map_append]

theorem identsOf_cons (b : Batch) (queue : List Batch) : identsOf (b :: queue) = b.mems.map (·.ident) ++ identsOf queue :=
  map_append ..

theorem identsOf_waiting : identsOf (mems.map .waiting) = mems.map (·.ident) := by
  rw [← tablesOf_idents, tablesOf_waiting, map_map]
  rfl

theorem filesOf_release : (filesOf (release queue)).Sublist (filesOf queue) := by
  induction queue with
  | nil => exact .refl _
  | cons b _ ih =>
    cases b with
    | waiting => exact .refl _
    | running => exact .refl _
    | completed g =>
      rw [release, filesOf_append, filesOf_waiting]
      exact ih.cons g.file

theorem jobsOf_release : jobsOf (release queue) = jobsOf queue := by
  induction queue with
  | nil => rfl
  | cons b _ ih =>
    cases b with
    | waiting => rfl
    | running => rfl
    | completed =>
      rw [release, jobsOf_append, jobsOf_waiting, nil_append, ih]
      rfl

theorem identsOf_release : identsOf (release queue) = identsOf queue := by
  induction queue with
  | nil => rfl
  | cons b _ ih =>
    cases b with
    | waiting => rfl
    | running => rfl
    | completed =>
      rw [release, identsOf_append, identsOf_waiting, ih]
      exact (map_append ..).symm

variable (maxMemtableId : ℕ) (num : ℤ) (needed : Bool) {f : MemTable → MemTable}

theorem pickLoop_counts (started : Bool) {num : ℤ} {needed : Bool} (tables : List MemTable)
    (enough : (tables.countP (!·.flushInProgress) : ℤ) ≤ num) (exact : needed = decide (0 < num)) :
    let picked := pickLoop maxMemtableId started num needed tables
    picked.numFlushNotStarted = num - picked.ret.length ∧ picked.immFlushNeeded = decide (0 < picked.numFlushNotStarted) := by
  induction tables generalizing started num needed with
  | nil => simp [pickLoop, exact]
  | cons m rest ih =>
    rw [countP_cons] at enough
    rw [pickLoop]
    split
    · simp [exact]
    · split
      next waits =>
        simp only [waits, Bool.not_false, if_true] at enough
        have fewer : (if num - 1 = 0 then false else needed) = decide (0 < num - 1) := by
          subst exact
          split <;> simp <;> omega
        have step := ih true (by omega) fewer
        refine ⟨?_, step.2⟩
        rw [step.1]
        simp only [length_cons]
        omega
      next busy =>
        simp only [busy, Bool.not_true, Bool.false_eq_true, if_false, add_zero] at enough
        split
        · simp [exact]
        · exact ih false enough exact

theorem pickLoop_skip (busy rest : List MemTable) (progress : ∀ m ∈ busy, m.flushInProgress = true) :
    let all := pickLoop maxMemtableId false num needed (busy ++ rest)
    (all.memlist = busy ++ rest ∧ all.ret = []) ∨
      (all.memlist = busy ++ (pickLoop maxMemtableId false num needed rest).memlist ∧
        all.ret = (pickLoop maxMemtableId false num needed rest).ret) := by
  induction busy with
  | nil => exact .inr ⟨rfl, rfl⟩
  | cons m _ ih =>
    have here := progress m mem_cons_self
    rw [cons_append, pickLoop]
    split
    · exact .inl ⟨rfl, rfl⟩
    · rw [if_neg (by simp [here]), if_neg (by simp)]
      rcases ih fun m mem => progress m (mem_cons_of_mem _ mem) with ⟨eq, none⟩ | ⟨eq, picks⟩
      · exact .inl ⟨congrArg (m :: ·) eq, none⟩
      · exact .inr ⟨congrArg (m :: ·) eq, picks⟩

def Mem.started (m : Mem) : MemTable := ⟨m.ident, m.id, true, false, 0, none⟩

theorem pickLoop_stop {m : MemTable} (busy : m.flushInProgress = true) (rest : List MemTable) :
    (pickLoop maxMemtableId true num needed (m :: rest)).memlist = m :: rest ∧
      (pickLoop maxMemtableId true num needed (m :: rest)).ret = [] := by
  rw [pickLoop]
  split
  · exact ⟨rfl, rfl⟩
  · rw [if_neg (by simp [busy]), if_pos rfl]
    exact ⟨rfl, rfl⟩

theorem pickLoop_started (queue : List Batch) :
    ∃ (mems : List Mem) (rest : List Batch), queue = mems.map .waiting ++ rest ∧
      (pickLoop maxMemtableId true num needed (tablesOf queue)).memlist = mems.map Mem.started ++ tablesOf rest ∧
      (pickLoop maxMemtableId true num needed (tablesOf queue)).ret = mems.map (·.ident) := by
  induction queue generalizing num needed with
  | nil => exact ⟨[], [], rfl, rfl, rfl⟩
  | cons b queue ih =>
    cases b with
    | running => exact ⟨[], _, rfl, pickLoop_stop maxMemtableId num needed rfl _⟩
    | completed => exact ⟨[], _, rfl, pickLoop_stop maxMemtableId num needed rfl _⟩
    | waiting m =>
      change ∃ (mems : List Mem) (rest : List Batch), _ ∧
          (pickLoop _ true num needed (m.table :: tablesOf queue)).memlist = _ ∧
        (pickLoop _ true num needed (m.table :: tablesOf queue)).ret = _
      rw [pickLoop]
      split
      · exact ⟨[], .waiting m :: queue, rfl, rfl, rfl⟩
      · rw [if_pos rfl]
        obtain ⟨mems, rest, split, tables, picks⟩ := ih (num - 1) (if num - 1 = 0 then false else needed)
        exact ⟨m :: mems, rest, by rw [split]; rfl, congrArg (Mem.started m :: ·) tables, congrArg (m.ident :: ·) picks⟩

def PicksRun (queue : List Batch) (picked : Picked) : Prop :=
  (picked.memlist = tablesOf queue ∧ picked.ret = []) ∨
    ∃ (before : List Batch) (first : Mem) (mems : List Mem) (after : List Batch),
      queue = before ++ (first :: mems).map .waiting ++ after ∧
        picked.memlist = tablesOf before ++ (first :: mems).map Mem.started ++ tablesOf after ∧
        picked.ret = (first :: mems).map (·.ident)

theorem pickLoop_queue (queue : List Batch) :
    PicksRun queue (pickLoop maxMemtableId false num needed (tablesOf queue)) := by
  induction queue generalizing num needed with
  | nil => exact .inl ⟨rfl, rfl⟩
  | cons b queue ih =>
    have busy (progress : ∀ m ∈ b.tables, m.flushInProgress = true) :
        PicksRun (b :: queue) (pickLoop maxMemtableId false num needed (tablesOf (b :: queue))) := by
      rcases pickLoop_skip maxMemtableId num needed b.tables (tablesOf queue) progress with ⟨eq, none⟩ | ⟨eq, picks⟩
      · exact .inl ⟨eq, none⟩
      · rcases ih num needed with ⟨kept, none⟩ | ⟨before, first, mems, after, split, tables, ret⟩
        · exact .inl ⟨eq.trans (congrArg (b.tables ++ ·) kept), picks.trans none⟩
        · refine .inr ⟨b :: before, first, mems, after, by rw [split]; rfl, eq.trans ?_, picks.trans ret⟩
          rw [tables]
          simp
    cases b with
    | running g => exact busy (group_tables_inProgress g false)
    | completed g => exact busy (group_tables_inProgress g true)
    | waiting m =>
      change PicksRun _ (pickLoop maxMemtableId false num needed (m.table :: tablesOf queue))
      rw [pickLoop]
      split
      · exact .inl ⟨rfl, rfl⟩
      · rw [if_pos (show m.table.flushInProgress = false from rfl)]
        obtain ⟨mems, rest, split, tables, picks⟩ :=
          pickLoop_started maxMemtableId (num - 1) (if num - 1 = 0 then false else needed) queue
        exact .inr ⟨[], m, mems, rest, by rw [split]; rfl, congrArg (Mem.started m :: ·) tables,
          congrArg (m.ident :: ·) picks⟩

theorem map_middle {before middle after : List MemTable} (idents : List ℕ)
    (nodup : ((before ++ middle ++ after).map (·.ident)).Nodup) (covers : idents ⊆ middle.map (·.ident))
    (others : ∀ m, m.ident ∉ idents → f m = m) : (before ++ middle ++ after).map f = before ++ middle.map f ++ after := by
  rw [map_append, map_append, nodup_append] at nodup
  obtain ⟨front, -, apart⟩ := nodup
  have eq (list : List MemTable) (away : ∀ m ∈ list, m.ident ∉ idents) : list.map f = list := by
    conv_rhs => rw [← map_id list]
    exact map_congr_left fun m mem => others m (away m mem)
  rw [map_append, map_append, eq before, eq after]
  · intro m mem inside
    exact apart _ (mem_append_right _ (covers inside)) _ (mem_map_of_mem mem) rfl
  · intro m mem inside
    exact (nodup_append.mp front).2.2 _ (mem_map_of_mem mem) _ (covers inside) rfl

theorem start_group {before after : List Batch} (g : Group)
    (nodup : (identsOf (before ++ g.mems.map .waiting ++ after)).Nodup) :
    ((tablesOf before ++ g.mems.map Mem.started ++ tablesOf after).map fun m =>
        if m.ident = g.first.ident then { m with edit := some g.file } else m) =
      tablesOf (before ++ .running g :: after) := by
  have idents : (tablesOf before ++ g.mems.map Mem.started ++ tablesOf after).map (·.ident) =
      identsOf (before ++ g.mems.map .waiting ++ after) := by
    rw [← tablesOf_idents]
    simp [flatMap_map, Batch.tables, Mem.table, Mem.started, ← map_eq_flatMap, Function.comp_def]
  rw [← idents] at nodup
  rw [map_middle [g.first.ident] nodup (by simp [Group.mems, Mem.started]) (by simp_all)]
  have middle : ((g.mems.map Mem.started).map (·.ident)).Nodup := by
    rw [map_append, map_append, nodup_append, nodup_append] at nodup
    exact nodup.1.2.1
  have first := (nodup_cons.mp middle).1
  simp only [flatMap_append, flatMap_cons, append_assoc]
  congr 2
  change _ :: _ = g.table false (some g.file) g.first :: g.rest.map (g.table false none)
  congr 1
  · exact if_pos rfl
  · rw [map_map]
    refine map_congr_left fun m mem => if_neg fun eq => first ?_
    rw [map_map]
    exact mem_map.mpr ⟨m, mem, eq⟩

theorem change_group {before after : List Batch} {g : Group}
    (nodup : (identsOf (before ++ .running g :: after)).Nodup) (others : ∀ m, m.ident ∉ g.job.mems → f m = m) :
    (tablesOf (before ++ .running g :: after)).map f = tablesOf before ++ (g.tables false).map f ++ tablesOf after := by
  have split : tablesOf (before ++ .running g :: after) = tablesOf before ++ g.tables false ++ tablesOf after := by
    simp [Batch.tables]
  rw [← tablesOf_idents, split] at nodup
  rw [split]
  refine map_middle _ nodup ?_ others
  rw [group_idents]
  exact List.Subset.refl _

section

variable {before after : List Batch} {tables : List MemTable} {g : Group}

theorem rollbackCompleted_append {completed : List MemTable} (all : ∀ m ∈ completed, m.flushCompleted = true)
    (rest : List MemTable) : rollbackCompleted (completed ++ rest) =
      (completed.map (·.reset) ++ (rollbackCompleted rest).1, completed.length + (rollbackCompleted rest).2) := by
  induction completed with
  | nil => simp
  | cons m _ ih =>
    rw [cons_append, rollbackCompleted, if_pos (all m mem_cons_self),
      ih fun m mem => all m (mem_cons_of_mem _ mem)]
    simp [add_right_comm]

theorem rollbackCompleted_queue (queue : List Batch) : (rollbackCompleted (tablesOf queue)).1 = tablesOf (release queue) := by
  induction queue with
  | nil => rfl
  | cons b queue ih =>
    cases b with
    | waiting => rfl
    | running => rfl
    | completed g =>
      have whole := rollbackCompleted_append (group_tables_completed g true) (tablesOf queue)
      change (rollbackCompleted (g.tables true ++ tablesOf queue)).1 = tablesOf (g.mems.map .waiting ++ release queue)
      rw [whole, ih, group_tables_reset, tablesOf_append]

theorem rollbackSucceeding_at {before : List MemTable} {first : ℕ} (apart : first ∉ before.map (·.ident)) {m : MemTable}
    (here : m.ident = first) (rest : List MemTable) :
    (rollbackSucceeding first (before ++ m :: rest)).1 = before ++ m :: (rollbackCompleted rest).1 := by
  induction before with
  | nil => rw [nil_append, rollbackSucceeding, if_pos here, nil_append]
  | cons _ _ ih =>
    rw [map_cons, mem_cons, not_or] at apart
    rw [cons_append, rollbackSucceeding, if_neg (Ne.symm apart.1), ih apart.2, cons_append]

/-- The batches after a job that gives up: only a job of one memtable reaches them. -/
def succeeding (g : Group) (after : List Batch) : List Batch := if g.rest = [] then release after else after

theorem rollbackSucceeding_queue (nodup : (identsOf (before ++ .running g :: after)).Nodup) :
    (rollbackSucceeding g.first.ident (tablesOf (before ++ .running g :: after))).1 =
      tablesOf (before ++ .running g :: succeeding g after) := by
  have apart : g.first.ident ∉ (tablesOf before).map (·.ident) := by
    rw [tablesOf_idents]
    intro inside
    rw [identsOf, flatMap_append, map_append, nodup_append] at nodup
    exact nodup.2.2 _ inside _ (by simp [Batch.mems, Group.mems]) rfl
  have split (after : List Batch) : tablesOf (before ++ .running g :: after) =
      tablesOf before ++ g.table false (some g.file) g.first :: (g.rest.map (g.table false none) ++ tablesOf after) := by
    simp [Batch.tables, Group.tables]
  rw [split, split, rollbackSucceeding_at apart rfl, succeeding]
  cases rest : g.rest with
  | nil => exact congrArg (tablesOf before ++ _ :: ·) (rollbackCompleted_queue after)
  | cons => rfl

def Flagged (tables : List MemTable) : Prop := ∀ m ∈ tables, m.flushCompleted = true → m.flushInProgress = true

theorem tablesOf_flagged (queue : List Batch) : Flagged (tablesOf queue) := by
  intro m mem completed
  obtain ⟨b, -, inside⟩ := mem_flatMap.mp mem
  cases b with
  | waiting =>
    rw [mem_singleton.mp inside] at completed
    cases completed
  | running g => exact group_tables_inProgress g false m inside
  | completed g => exact group_tables_inProgress g true m inside

theorem rollbackCompleted_counts (flagged : Flagged tables) : (rollbackCompleted tables).1.countP (!·.flushInProgress) =
      tables.countP (!·.flushInProgress) + (rollbackCompleted tables).2 := by
  induction tables with
  | nil => rfl
  | cons m rest ih =>
    rw [rollbackCompleted]
    split
    next completed =>
      have busy := flagged m mem_cons_self completed
      have tail := ih fun m mem => flagged m (mem_cons_of_mem _ mem)
      simp only [countP_cons, MemTable.reset, busy, Bool.not_true, Bool.not_false, if_true, Bool.false_eq_true, if_false, tail]
      omega
    · rfl

theorem rollbackSucceeding_counts (flagged : Flagged tables) (first : ℕ) :
    (rollbackSucceeding first tables).1.countP (!·.flushInProgress) =
      tables.countP (!·.flushInProgress) + (rollbackSucceeding first tables).2 := by
  induction tables with
  | nil => rfl
  | cons m rest ih =>
    have flagged' : Flagged rest := fun m mem => flagged m (mem_cons_of_mem _ mem)
    rw [rollbackSucceeding]
    split
    · rw [countP_cons, countP_cons, rollbackCompleted_counts flagged']
      omega
    · rw [countP_cons, countP_cons, ih flagged']
      omega

theorem reset_counts (tables : List MemTable) (own : MemTable → Bool) (busy : ∀ m, own m = true → m.flushInProgress = true) :
    (tables.map fun m => if own m then m.reset else m).countP (!·.flushInProgress) =
      tables.countP (!·.flushInProgress) + tables.countP own := by
  induction tables with
  | nil => rfl
  | cons m rest ih =>
    rw [map_cons, countP_cons, countP_cons, countP_cons, ih]
    by_cases mine : own m = true
    · simp only [mine, if_true, MemTable.reset, busy m mine, Bool.not_false, Bool.not_true, Bool.false_eq_true, if_false]
      omega
    · simp only [mine, Bool.false_eq_true, if_false]
      omega

theorem rollbackAfter_counts (flagged : Flagged tables) (mems : List ℕ) (flag : Bool) :
    (rollbackAfter mems flag tables).1.countP (!·.flushInProgress) =
      tables.countP (!·.flushInProgress) + (rollbackAfter mems flag tables).2 := by
  unfold rollbackAfter
  split
  · rfl
  · split
    · exact rollbackSucceeding_counts flagged _
    · rfl

variable (nodup : (identsOf (before ++ .running g :: after)).Nodup)
include nodup

theorem rollbackAfter_running (flag : Bool) :
    ∃ after', (rollbackAfter g.job.mems flag (tablesOf (before ++ .running g :: after))).1 =
      tablesOf (before ++ .running g :: after') ∧
      identsOf after' = identsOf after ∧ jobsOf after' = jobsOf after ∧ (filesOf after').Sublist (filesOf after) := by
  cases flag with
  | false => exact ⟨after, rfl, rfl, rfl, .refl _⟩
  | true =>
    refine ⟨succeeding g after, rollbackSucceeding_queue nodup, ?_⟩
    unfold succeeding
    split
    · exact ⟨identsOf_release after, jobsOf_release after, filesOf_release after⟩
    · exact ⟨rfl, rfl, .refl _⟩

theorem reset_group : ((tablesOf (before ++ .running g :: after)).map fun m =>
        if decide (m.ident ∈ g.job.mems) && m.flushInProgress then m.reset else m) =
      tablesOf (before ++ (g.mems.map .waiting ++ after)) := by
  rw [change_group nodup (by simp_all), tablesOf_append, tablesOf_append, ← group_tables_reset g false, append_assoc]
  congr 2
  refine map_congr_left fun m mem => if_pos ?_
  have ident : m.ident ∈ g.job.mems := by
    rw [Group.job, ← group_idents g false]
    exact mem_map_of_mem mem
  simp [ident, group_tables_inProgress g false m mem]

theorem complete_group : ((tablesOf (before ++ .running g :: after)).map fun m =>
        if m.ident ∈ g.job.mems then { m with flushCompleted := true, fileNumber := g.file } else m) =
      tablesOf (before ++ .completed g :: after) := by
  have marked : (g.tables false).map (fun m =>
      if m.ident ∈ g.job.mems then { m with flushCompleted := true, fileNumber := g.file } else m) = g.tables true := by
    have all : ∀ m ∈ g.tables false, m.ident ∈ g.job.mems := by
      intro m mem
      rw [Group.job, ← group_idents g false]
      exact mem_map_of_mem mem
    rw [map_congr_left fun m mem => if_pos (all m mem)]
    simp [Group.tables, Group.table]
  rw [change_group nodup (by simp_all), marked, tablesOf_append, append_assoc]
  rfl

end

theorem takeWhile_completed (queue : List Batch) :
    (tablesOf queue).takeWhile (·.flushCompleted) = tablesOf ((ready queue).map .completed) := by
  induction queue with
  | nil => rfl
  | cons b queue ih =>
    cases b with
    | waiting => rfl
    | running => rfl
    | completed g =>
      change (g.tables true ++ tablesOf queue).takeWhile _ = g.tables true ++ tablesOf ((ready queue).map .completed)
      rw [takeWhile_append_of_pos (group_tables_completed g true), ih]

theorem ready_split (queue : List Batch) : ∃ rest, queue = (ready queue).map .completed ++ rest ∧ ready rest = [] := by
  induction queue with
  | nil => exact ⟨[], rfl, rfl⟩
  | cons b _ ih =>
    cases b with
    | waiting => exact ⟨_, rfl, rfl⟩
    | running => exact ⟨_, rfl, rfl⟩
    | completed g =>
      obtain ⟨rest, split, ends⟩ := ih
      exact ⟨rest, congrArg (.completed g :: ·) split, ends⟩

theorem editList_rest (g : Group) (mems : List Mem) (more : List MemTable) :
    editList (some g.file) (mems.map (g.table true none) ++ more) = editList (some g.file) more := by
  induction mems with
  | nil => rfl
  | cons _ _ ih => rw [map_cons, cons_append, editList, group_table_fileNumber, if_pos rfl, ih]

theorem editList_groups (groups : List Group) (prev : Option ℕ) (fresh : ∀ g ∈ groups, prev ≠ some g.file)
    (nodup : (groups.map (·.file)).Nodup) :
    editList prev (tablesOf (groups.map .completed)) = groups.map fun g => some g.file := by
  induction groups generalizing prev with
  | nil => rfl
  | cons g groups ih =>
    rw [map_cons, nodup_cons] at nodup
    change editList prev (g.table true (some g.file) g.first ::
      (g.rest.map (g.table true none) ++ tablesOf (groups.map .completed))) = some g.file :: _
    rw [editList, group_table_fileNumber, if_neg (fresh g mem_cons_self)]
    change some g.file :: editList (some g.file) _ = _
    rw [editList_rest, ih _ ?_ nodup.2]
    intro other mem eq
    exact nodup.1 (mem_map.mpr ⟨other, mem, (Option.some.inj eq).symm⟩)

theorem groups_reset (groups : List Group) :
    (tablesOf (groups.map .completed)).map (·.reset) = tablesOf ((groups.flatMap Group.mems).map .waiting) := by
  induction groups with
  | nil => rfl
  | cons g groups ih =>
    change (g.tables true ++ tablesOf (groups.map .completed)).map _ = _
    rw [map_append, ih, group_tables_reset, flatMap_cons, map_append, tablesOf_append]

end VcompProof.Flush
