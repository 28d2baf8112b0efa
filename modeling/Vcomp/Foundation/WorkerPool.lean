import Vcomp.Foundation.SharedWords
import Vcomp.Foundation.Transition

/-! Groups of programs over shared words, with a barrier between groups. -/

namespace SharedWords

open List Option

/-- Programs that run together: each worker takes the next slot until none is left. -/
structure Group (w : ℕ) (A α : Type) where
  workers : ℕ
  jobs : List (Prog w A α)

inductive Worker (w : ℕ) (A α : Type) where
  | idle
  | busy (slot : ℕ) (rest : Prog w A α)
  | left

/-- The group that runs, what it has produced, and the groups before and after it. -/
structure Pool (w : ℕ) (A α : Type) where
  memory : A → BitVec w
  jobs : List (Prog w A α)
  workers : List (Worker w A α)
  slot : ℕ
  results : List (Option α)
  finished : List (Option α)
  rest : List (Group w A α)

variable {w : ℕ} {A α : Type} {t : ℕ} {x y : Worker w A α}

namespace Pool

def start (m : A → BitVec w) (groups : List (Group w A α)) : Pool w A α := ⟨m, [], [], 0, [], [], groups⟩

def setWorker (s : Pool w A α) (t : ℕ) (x : Worker w A α) : Pool w A α := { s with workers := s.workers.set t x }

def AllLeft (s : Pool w A α) : Prop := ∀ x ∈ s.workers, x = .left

def Final (s : Pool w A α) : Prop := s.AllLeft ∧ s.rest = []

def outcome (s : Pool w A α) : List (Option α) := s.finished ++ s.results

def enter (s : Pool w A α) (g : Group w A α) (rest : List (Group w A α)) : Pool w A α :=
  ⟨s.memory, g.jobs, List.replicate g.workers .idle, 0, List.replicate g.jobs.length none, s.outcome, rest⟩

inductive Step [DecidableEq A] : Pool w A α → Pool w A α → Prop
  | take {s : Pool w A α} {t : ℕ} {p : Prog w A α} (idle : s.workers[t]? = some .idle)
      (job : s.jobs[s.slot]? = some p) : Step s { s.setWorker t (.busy s.slot p) with slot := s.slot + 1 }
  | leave {s : Pool w A α} {t : ℕ} (idle : s.workers[t]? = some .idle) (past : s.jobs.length ≤ s.slot) :
      Step s { s.setWorker t .left with slot := s.slot + 1 }
  | act {s : Pool w A α} {t k : ℕ} {p q : Prog w A α} {m : A → BitVec w} (busy : s.workers[t]? = some (.busy k p))
      (step : p.step s.memory = some (q, m)) : Step s { s.setWorker t (.busy k q) with memory := m }
  | finish {s : Pool w A α} {t k : ℕ} {a : α} (busy : s.workers[t]? = some (.busy k (.done a))) :
      Step s { s.setWorker t .idle with results := s.results.set k (some a) }
  | join {s : Pool w A α} {g : Group w A α} {rest : List (Group w A α)} (left : s.AllLeft) (more : s.rest = g :: rest) :
      Step s (s.enter g rest)

noncomputable def weight : Worker w A α → ℕ
  | .idle => 1
  | .busy _ p => p.bound + 2
  | .left => 0

noncomputable def jobsWork (jobs : List (Prog w A α)) : ℕ := (jobs.map fun p => p.bound + 3).sum

noncomputable def work (s : Pool w A α) : ℕ :=
  (s.workers.map weight).sum + jobsWork (s.jobs.drop s.slot) +
    (s.rest.map fun g => 1 + g.workers + jobsWork g.jobs).sum

theorem weight_set {l : List (Worker w A α)} (get : l[t]? = some x) :
    ((l.set t y).map weight).sum + weight x = (l.map weight).sum + weight y := by
  induction l generalizing t with
  | nil => simp at get
  | cons z l ih =>
    cases t with
    | zero =>
      have eq : z = x := by simpa using get
      subst eq
      simp only [set_cons_zero, map_cons, sum_cons]
      omega
    | succ t =>
      have tail := ih (t := t) (by simpa using get)
      simp only [set_cons_succ, map_cons, sum_cons]
      omega

variable [DecidableEq A] {s s' : Pool w A α}

theorem progress (going : ¬ s.Final) : ∃ s', Step s s' := by
  by_cases left : s.AllLeft
  · cases more : s.rest with
    | nil => exact absurd ⟨left, more⟩ going
    | cons => exact ⟨_, .join left more⟩
  · simp only [AllLeft, not_forall] at left
    obtain ⟨x, mem, active⟩ := left
    obtain ⟨t, get⟩ := mem_iff_getElem?.mp mem
    cases x with
    | left => exact absurd rfl active
    | idle =>
      cases job : s.jobs[s.slot]? with
      | none => exact ⟨_, .leave get (getElem?_eq_none_iff.mp job)⟩
      | some => exact ⟨_, .take get job⟩
    | busy _ p =>
      cases p with
      | done => exact ⟨_, .finish get⟩
      | load | fetchOr => exact ⟨_, .act get rfl⟩

theorem work_step (step : Step s s') : s'.work < s.work := by
  cases step with
  | @take t p idle job =>
    have moved := weight_set (y := .busy s.slot p) idle
    have split : s.jobs.drop s.slot = p :: s.jobs.drop (s.slot + 1) := by
      obtain ⟨lt, rfl⟩ := List.getElem?_eq_some_iff.mp job
      exact List.drop_eq_getElem_cons lt
    simp only [work, setWorker, split, jobsWork, List.map_cons, List.sum_cons, weight] at moved ⊢
    omega
  | @leave t idle past =>
    have moved := weight_set (y := .left) idle
    simp only [work, setWorker, drop_eq_nil_of_le past, drop_eq_nil_of_le (past.trans (Nat.le_succ _)),
      weight] at moved ⊢
    omega
  | @act t k p q m busy step =>
    have moved := weight_set (y := .busy k q) busy
    have less := step_bound step
    simp only [work, setWorker, weight] at moved ⊢
    omega
  | @finish t k a busy =>
    have moved := weight_set (y := .idle) busy
    simp only [work, setWorker, weight] at moved ⊢
    omega
  | @join g rest left more =>
    have idle : ((List.replicate g.workers (Worker.idle : Worker w A α)).map weight).sum = g.workers := by
      simp [weight]
    simp only [work, enter, more, idle, drop_zero, map_cons, sum_cons]
    omega

theorem no_endless_run (run : ℕ → Pool w A α) : ∃ i, ¬ Step (run i) (run (i + 1)) :=
  Transition.no_endless_run work (fun _ _ step => work_step step) run

theorem exists_final (s : Pool w A α) : ∃ t, Relation.ReflTransGen Step s t ∧ t.Final :=
  Transition.exists_final work (fun _ _ step => work_step step) (fun _ going => progress going) s

end Pool

section

variable {foot : ℕ → Footprint A} {base m m' : A → BitVec w} {p : Prog w A α}

structure DisjointJobs (foot : ℕ → Footprint A) (jobs : List (Prog w A α)) : Prop where
  within : ∀ (k : ℕ) (p : Prog w A α), jobs[k]? = some p → p.Within (foot k)
  apart : ∀ i j : ℕ, i < jobs.length → j < jobs.length → i ≠ j → Apart (foot i) (foot j)

theorem eq_of_agree {n : ℕ} (foot : ℕ → Footprint A) (inside : ∀ k < n, Agree (foot k) m m')
    (outside : ∀ T, (∀ k < n, Apart (foot k) T) → Agree T m m') : m = m' := by
  funext word
  refine BitVec.eq_of_getLsbD_eq fun b _ => ?_
  by_cases owned : ∃ k < n, foot k word b
  · obtain ⟨k, lt, inFoot⟩ := owned
    exact inside k lt word b inFoot
  · push Not at owned
    refine outside (fun other c => other = word ∧ c = b) (fun k lt other c inFoot eq => ?_) word b ⟨rfl, rfl⟩
    exact owned k lt (eq.1 ▸ eq.2 ▸ inFoot)

theorem DisjointJobs.tail {ps : List (Prog w A α)} (disjoint : DisjointJobs foot (p :: ps)) :
    DisjointJobs (fun k => foot (k + 1)) ps where
  within k q get := disjoint.within (k + 1) q (by simpa using get)
  apart i j belowI belowJ ne := disjoint.apart (i + 1) (j + 1) (by simpa using belowI) (by simpa using belowJ) (by omega)

variable [DecidableEq A] {jobs : List (Prog w A α)}

theorem runAll_disjoint (disjoint : DisjointJobs foot jobs) : (∀ (k : ℕ) (p : Prog w A α), jobs[k]? = some p →
        (runAll jobs m).1[k]? = some (p.run m).1 ∧ Agree (foot k) (runAll jobs m).2 (p.run m).2) ∧
      ∀ T, (∀ k < jobs.length, Apart (foot k) T) → Agree T (runAll jobs m).2 m := by
  induction jobs generalizing foot m with
  | nil => exact ⟨fun k p get => by simp at get, fun T _ _ _ _ => rfl⟩
  | cons p ps ih =>
    have within := disjoint.within 0 p rfl
    obtain ⟨each, outside⟩ := ih (m := (p.run m).2) disjoint.tail
    constructor
    · intro k q get
      cases k with
      | zero =>
        cases some.inj (get : some p = some q)
        refine ⟨rfl, outside _ fun k lt => ?_⟩
        exact disjoint.apart (k + 1) 0 (by simpa using lt) (by simp) (by omega)
      | succ k =>
        have tailAt : ps[k]? = some q := by simpa using get
        have lt : k < ps.length := (List.getElem?_eq_some_iff.mp tailAt).1
        have frame : Agree (foot (k + 1)) (p.run m).2 m :=
          within_run_frame within (disjoint.apart 0 (k + 1) (by simp) (by simpa using lt) (by omega))
        obtain ⟨result, memory⟩ := each k q tailAt
        obtain ⟨sameResult, sameMemory⟩ := related_run (disjoint.within (k + 1) q get) frame
        exact ⟨result.trans (congrArg some sameResult), memory.trans sameMemory⟩
    · intro T apart
      exact (outside T fun k lt => apart (k + 1) (by simpa using lt)).trans
        (within_run_frame within (apart 0 (by simp)))

theorem runAll_take {k : ℕ} (get : jobs[k]? = some p) :
    (runAll (jobs.take (k + 1)) m).2 = (p.run (runAll (jobs.take k) m).2).2 ∧
      (runAll jobs m).1[k]? = some (p.run (runAll (jobs.take k) m).2).1 := by
  induction jobs generalizing k m with
  | nil => simp at get
  | cons q jobs ih =>
    cases k with
    | zero =>
      cases some.inj (get : some q = some p)
      exact ⟨rfl, rfl⟩
    | succ k => exact ih (by simpa using get)

end

def Group.Serializable (g : Group w A α) : Prop :=
  0 < g.workers ∧ (g.workers = 1 ∨ ∃ foot, DisjointJobs foot g.jobs)

namespace Pool

variable {s : Pool w A α} {z : Worker w A α} {g : Group w A α} {rest : List (Group w A α)}

structure Slots (s : Pool w A α) : Prop where
  length : s.results.length = s.jobs.length
  busy : ∀ (t k : ℕ) (p : Prog w A α), s.workers[t]? = some (.busy k p) → k < s.slot ∧ s.results[k]? = some none
  unique : ∀ (t u k : ℕ) (p q : Prog w A α), s.workers[t]? = some (.busy k p) → s.workers[u]? = some (.busy k q) →
    t = u
  waiting : ∀ k : ℕ, s.slot ≤ k → k < s.jobs.length → s.results[k]? = some none
  accounted : ∀ k : ℕ, k < s.slot → k < s.jobs.length →
    (∃ (t : ℕ) (p : Prog w A α), s.workers[t]? = some (.busy k p)) ∨ ∃ a, s.results[k]? = some (some a)
  left : ∀ t : ℕ, s.workers[t]? = some .left → s.jobs.length ≤ s.slot
  active : s.workers = [] → s.jobs = []

theorem getElem?_setWorker {u : ℕ} (get : s.workers[t]? = some x)
    (after : (s.setWorker t y).workers[u]? = some z) : (u = t ∧ z = y) ∨ (u ≠ t ∧ s.workers[u]? = some z) := by
  have lt : t < s.workers.length := (List.getElem?_eq_some_iff.mp get).1
  rw [setWorker, List.getElem?_set] at after
  split_ifs at after with eq
  · exact .inl ⟨eq.symm, (some.inj after).symm⟩
  · exact .inr ⟨Ne.symm eq, after⟩

theorem worker_of_setWorker {u : ℕ} (get : s.workers[t]? = some x)
    (after : (s.setWorker t y).workers[u]? = some z) (other : z ≠ y) : u ≠ t ∧ s.workers[u]? = some z :=
  (getElem?_setWorker get after).resolve_left fun eq => other eq.2

theorem setWorker_self (get : s.workers[t]? = some x) : (s.setWorker t y).workers[t]? = some y := by
  have lt : t < s.workers.length := (List.getElem?_eq_some_iff.mp get).1
  simp [setWorker, lt]

theorem setWorker_of_ne {u : ℕ} (ne : u ≠ t) : (s.setWorker t y).workers[u]? = s.workers[u]? := by
  simp [setWorker, getElem?_set_ne (Ne.symm ne)]

theorem Slots.start (m : A → BitVec w) (groups : List (Group w A α)) : (Pool.start m groups).Slots where
  length := rfl
  busy _ _ _ get := by simp [Pool.start] at get
  unique _ _ _ _ _ get := by simp [Pool.start] at get
  waiting _ _ lt := by simp [Pool.start] at lt
  accounted _ lt := by simp [Pool.start] at lt
  left _ get := by simp [Pool.start] at get
  active _ := rfl

theorem Slots.enter (pos : 0 < g.workers) : (s.enter g rest).Slots where
  length := by simp [Pool.enter]
  busy _ _ _ get := by simp [Pool.enter, getElem?_replicate] at get
  unique _ _ _ _ _ get := by simp [Pool.enter, getElem?_replicate] at get
  waiting k _ lt := by
    simp only [Pool.enter] at lt ⊢
    simp [lt]
  accounted _ lt := by simp [Pool.enter] at lt
  left _ get := by simp [Pool.enter, getElem?_replicate] at get
  active empty := by
    simp only [Pool.enter, replicate_eq_nil_iff] at empty
    omega

theorem enter_rest (more : s.rest = g :: rest) : (s.enter g rest).rest ≠ s.rest := by
  simp [Pool.enter, more]

theorem slot_of_left (slots : s.Slots) (left : s.AllLeft) : s.jobs.length ≤ s.slot := by
  cases workers : s.workers with
  | nil => simp [slots.active workers]
  | cons x =>
    have gone : x = .left := left x (by simp [workers])
    exact slots.left 0 (by simp [workers, gone])

variable [DecidableEq A] {s s' : Pool w A α} {m : A → BitVec w}

theorem Slots.step (slots : s.Slots) (step : Step s s') (inGroup : s'.rest = s.rest) : s'.Slots := by
  cases step with
  | @take t p idle job =>
    have below : s.slot < s.jobs.length := (List.getElem?_eq_some_iff.mp job).1
    refine ⟨slots.length, ?_, ?_, fun k le => slots.waiting k (Nat.le_of_succ_le le), ?_, ?_, ?_⟩
    · intro u k q get
      rcases getElem?_setWorker idle get with ⟨-, eq⟩ | ⟨-, old⟩
      · cases eq
        exact ⟨Nat.lt_succ_self _, slots.waiting _ le_rfl below⟩
      · exact ⟨Nat.lt_succ_of_lt (slots.busy u k q old).1, (slots.busy u k q old).2⟩
    · intro u v k q r atU atV
      rcases getElem?_setWorker idle atU with ⟨rfl, sameU⟩ | ⟨-, oldU⟩ <;>
        rcases getElem?_setWorker idle atV with ⟨rfl, sameV⟩ | ⟨-, oldV⟩
      · rfl
      · cases sameU
        exact absurd (slots.busy v _ r oldV).1 (lt_irrefl _)
      · cases sameV
        exact absurd (slots.busy u _ q oldU).1 (lt_irrefl _)
      · exact slots.unique u v k q r oldU oldV
    · intro k lt belowK
      rcases Nat.lt_succ_iff_lt_or_eq.mp lt with old | rfl
      · rcases slots.accounted k old belowK with ⟨u, q, get⟩ | result
        · refine .inl ⟨u, q, (setWorker_of_ne ?_).trans get⟩
          rintro rfl
          simp [idle] at get
        · exact .inr result
      · exact .inl ⟨t, p, setWorker_self idle⟩
    · exact fun u get => (slots.left u (worker_of_setWorker idle get nofun).2).trans (Nat.le_succ _)
    · intro empty
      exact slots.active (by simpa [setWorker] using empty)
  | @leave t idle past =>
    refine ⟨slots.length, ?_, ?_, fun k le => slots.waiting k (Nat.le_of_succ_le le), ?_, ?_, ?_⟩
    · intro u k q get
      have old := slots.busy u k q (worker_of_setWorker idle get nofun).2
      exact ⟨Nat.lt_succ_of_lt old.1, old.2⟩
    · exact fun u v k q r atU atV => slots.unique u v k q r (worker_of_setWorker idle atU nofun).2
        (worker_of_setWorker idle atV nofun).2
    · intro k _ belowK
      rcases slots.accounted k (lt_of_lt_of_le belowK past) belowK with ⟨u, q, get⟩ | result
      · refine .inl ⟨u, q, (setWorker_of_ne ?_).trans get⟩
        rintro rfl
        simp [idle] at get
      · exact .inr result
    · intro _ _
      exact past.trans (Nat.le_succ _)
    · intro empty
      exact slots.active (by simpa [setWorker] using empty)
  | @act t k p q m busy step =>
    refine ⟨slots.length, ?_, ?_, slots.waiting, ?_, ?_, ?_⟩
    · intro u j r get
      rcases getElem?_setWorker busy get with ⟨-, eq⟩ | ⟨-, old⟩
      · cases eq
        exact slots.busy t k p busy
      · exact slots.busy u j r old
    · intro u v j r r' atU atV
      rcases getElem?_setWorker busy atU with ⟨rfl, sameU⟩ | ⟨-, oldU⟩ <;>
        rcases getElem?_setWorker busy atV with ⟨rfl, sameV⟩ | ⟨-, oldV⟩
      · rfl
      · cases sameU
        exact slots.unique u v k p r' busy oldV
      · cases sameV
        exact slots.unique u v k r p oldU busy
      · exact slots.unique u v j r r' oldU oldV
    · intro j lt belowJ
      rcases slots.accounted j lt belowJ with ⟨u, r, get⟩ | result
      · by_cases eq : u = t
        · subst eq
          cases some.inj (busy.symm.trans get)
          exact .inl ⟨u, q, setWorker_self busy⟩
        · exact .inl ⟨u, r, (setWorker_of_ne eq).trans get⟩
      · exact .inr result
    · exact fun u get => slots.left u (worker_of_setWorker busy get nofun).2
    · intro empty
      exact slots.active (by simpa [setWorker] using empty)
  | @finish t k a busy =>
    obtain ⟨started, pending⟩ := slots.busy t k _ busy
    have below : k < s.results.length := (List.getElem?_eq_some_iff.mp pending).1
    refine ⟨by simpa [setWorker] using slots.length, ?_, ?_, ?_, ?_, ?_, ?_⟩
    · intro u j r get
      obtain ⟨ne, old⟩ := worker_of_setWorker busy get nofun
      refine ⟨(slots.busy u j r old).1, ?_⟩
      rw [getElem?_set_ne]
      · exact (slots.busy u j r old).2
      · rintro rfl
        exact ne (slots.unique u t k r _ old busy)
    · exact fun u v j r r' atU atV => slots.unique u v j r r' (worker_of_setWorker busy atU nofun).2
        (worker_of_setWorker busy atV nofun).2
    · intro j le belowJ
      rw [getElem?_set_ne (by rintro rfl; exact absurd started (not_lt.mpr le))]
      exact slots.waiting j le belowJ
    · intro j lt belowJ
      by_cases eq : j = k
      · subst eq
        exact .inr ⟨a, by simp [below]⟩
      · rcases slots.accounted j lt belowJ with ⟨u, r, get⟩ | ⟨b, result⟩
        · refine .inl ⟨u, r, (setWorker_of_ne ?_).trans get⟩
          rintro rfl
          cases some.inj (busy.symm.trans get)
          exact eq rfl
        · refine .inr ⟨b, ?_⟩
          rw [getElem?_set_ne (Ne.symm eq)]
          exact result
    · exact fun u get => slots.left u (worker_of_setWorker busy get nofun).2
    · intro empty
      exact slots.active (by simpa [setWorker] using empty)
  | join _ more => exact absurd inGroup (enter_rest more)

/-- What is left of a slot's program: all of it, the worker's rest, or its result. -/
def Stage (s : Pool w A α) (k : ℕ) (p : Prog w A α) : Prop :=
  (s.slot ≤ k ∧ s.jobs[k]? = some p) ∨ (∃ t : ℕ, s.workers[t]? = some (.busy k p)) ∨
    ∃ a, s.results[k]? = some (some a) ∧ p = .done a

/-- Under interference each slot is on its way to what it gives alone. -/
structure Parallel (foot : ℕ → Footprint A) (base : A → BitVec w) (s : Pool w A α) : Prop where
  disjoint : DisjointJobs foot s.jobs
  stage : ∀ (k : ℕ) (p : Prog w A α), s.Stage k p → ∃ job, s.jobs[k]? = some job ∧ p.Within (foot k) ∧
    (p.run s.memory).1 = (job.run base).1 ∧ Agree (foot k) (p.run s.memory).2 (job.run base).2
  outside : ∀ T, (∀ k < s.jobs.length, Apart (foot k) T) → Agree T s.memory base

variable {foot : ℕ → Footprint A} {base : A → BitVec w} {all : List (Prog w A α)}

theorem Parallel.step (parallel : Parallel foot base s) (slots : s.Slots) (step : Step s s')
    (inGroup : s'.rest = s.rest) : Parallel foot base s' := by
  cases step with
  | @take _ _ idle job =>
    refine ⟨parallel.disjoint, fun k q stage => parallel.stage k q ?_, parallel.outside⟩
    rcases stage with ⟨le, get⟩ | ⟨u, get⟩ | result
    · exact .inl ⟨Nat.le_of_succ_le le, get⟩
    · rcases getElem?_setWorker idle get with ⟨-, eq⟩ | ⟨-, old⟩
      · cases eq
        exact .inl ⟨le_rfl, job⟩
      · exact .inr (.inl ⟨u, old⟩)
    · exact .inr (.inr result)
  | @leave _ idle =>
    refine ⟨parallel.disjoint, fun k q stage => parallel.stage k q ?_, parallel.outside⟩
    rcases stage with ⟨le, get⟩ | ⟨u, get⟩ | result
    · exact .inl ⟨Nat.le_of_succ_le le, get⟩
    · exact .inr (.inl ⟨u, (worker_of_setWorker idle get nofun).2⟩)
    · exact .inr (.inr result)
  | @act t k p q m busy step =>
    obtain ⟨job, jobAt, within, result, memory⟩ := parallel.stage k p (.inr (.inl ⟨t, busy⟩))
    have belowK : k < s.jobs.length := (List.getElem?_eq_some_iff.mp jobAt).1
    obtain ⟨withinRest, frame⟩ := within_step within step
    refine ⟨parallel.disjoint, fun j r stage => ?_, fun T apart => ?_⟩
    · -- The slot that moved is at its next program; every other slot sees its own bits unchanged.
      by_cases eq : j = k
      · subst eq
        have rest : r = q := by
          rcases stage with ⟨le, -⟩ | ⟨u, get⟩ | ⟨a, done, -⟩
          · exact absurd (slots.busy t j p busy).1 (not_lt.mpr le)
          · rcases getElem?_setWorker busy get with ⟨-, eq⟩ | ⟨ne, old⟩
            · cases eq
              rfl
            · exact absurd (slots.unique u t j r p old busy) ne
          · exact absurd ((slots.busy t j p busy).2.symm.trans done) (by simp)
        subst rest
        refine ⟨job, jobAt, withinRest, ?_⟩
        rw [run_step step]
        exact ⟨result, memory⟩
      · have old : s.Stage j r := by
          rcases stage with waiting | ⟨u, get⟩ | done
          · exact .inl waiting
          · have other : Worker.busy j r ≠ .busy k q := fun moved => eq (Worker.busy.inj moved).1
            exact .inr (.inl ⟨u, (worker_of_setWorker busy get other).2⟩)
          · exact .inr (.inr done)
        obtain ⟨job', jobAt', within', result', memory'⟩ := parallel.stage j r old
        have belowJ : j < s.jobs.length := (List.getElem?_eq_some_iff.mp jobAt').1
        obtain ⟨sameResult, sameMemory⟩ :=
          related_run within' (frame _ (parallel.disjoint.apart k j belowK belowJ (Ne.symm eq)))
        exact ⟨job', jobAt', within', sameResult.trans result', sameMemory.trans memory'⟩
    · exact (frame T (apart k belowK)).trans (parallel.outside T apart)
  | @finish t k a busy =>
    refine ⟨parallel.disjoint, fun j r stage => parallel.stage j r ?_, parallel.outside⟩
    rcases stage with waiting | ⟨u, get⟩ | ⟨b, done, rfl⟩
    · exact .inl waiting
    · exact .inr (.inl ⟨u, (worker_of_setWorker busy get nofun).2⟩)
    · have lt : k < s.results.length := (List.getElem?_eq_some_iff.mp (slots.busy t k _ busy).2).1
      rw [List.getElem?_set] at done
      split_ifs at done with eq
      · subst eq
        cases done
        exact .inr (.inl ⟨t, busy⟩)
      · exact .inr (.inr ⟨b, done, rfl⟩)
  | join _ more => exact absurd inGroup (enter_rest more)

theorem Parallel.enter (disjoint : DisjointJobs foot g.jobs) : Parallel foot s.memory (s.enter g rest) := by
  refine ⟨disjoint, fun k p stage => ?_, fun T _ _ _ _ => rfl⟩
  rcases stage with ⟨-, get⟩ | ⟨u, get⟩ | ⟨a, done, -⟩
  · exact ⟨p, get, disjoint.within k p get, rfl, fun _ _ _ => rfl⟩
  · simp [Pool.enter, getElem?_replicate] at get
  · simp [Pool.enter, getElem?_replicate] at done

theorem Parallel.final (parallel : Parallel foot base s) (slots : s.Slots) (left : s.AllLeft) :
    s.results = (runAll s.jobs base).1.map some ∧ s.memory = (runAll s.jobs base).2 := by
  have taken := slot_of_left slots left
  obtain ⟨each, outside⟩ := runAll_disjoint (m := base) parallel.disjoint
  have done : ∀ (k : ℕ) (job : Prog w A α), s.jobs[k]? = some job →
      s.results[k]? = some (some (job.run base).1) ∧ Agree (foot k) s.memory (job.run base).2 := by
    intro k job jobAt
    have lt : k < s.jobs.length := (List.getElem?_eq_some_iff.mp jobAt).1
    rcases slots.accounted k (lt_of_lt_of_le lt taken) lt with ⟨t, p, get⟩ | ⟨a, result⟩
    · cases left _ (List.mem_of_getElem? get)
    · obtain ⟨job', jobAt', -, eq, memory⟩ := parallel.stage k (.done a) (.inr (.inr ⟨a, result, rfl⟩))
      cases some.inj (jobAt.symm.trans jobAt')
      exact ⟨result.trans (congrArg (some ∘ some) eq), memory⟩
  constructor
  · refine ext_getElem? fun k => ?_
    cases jobAt : s.jobs[k]? with
    | none =>
      have above : s.jobs.length ≤ k := getElem?_eq_none_iff.mp jobAt
      rw [getElem?_eq_none (by rw [slots.length]; exact above),
        getElem?_eq_none (by rw [length_map, runAll_length]; exact above)]
    | some job => rw [(done k job jobAt).1, getElem?_map, (each k job jobAt).1, map_some]
  · refine eq_of_agree (n := s.jobs.length) foot (fun k lt => ?_) fun T apart => ?_
    · have jobAt := getElem?_eq_getElem lt
      exact (done k _ jobAt).2.trans (each k _ jobAt).2.symm
    · exact (parallel.outside T apart).trans (outside T apart).symm

/-- One worker: the slots before its own are done, in order. -/
def Solo (base : A → BitVec w) (s : Pool w A α) : Prop :=
  ∃ x, s.workers = [x] ∧
    match x with
    | .busy k p => s.slot = k + 1 ∧ (∃ job, s.jobs[k]? = some job ∧ p.run s.memory = job.run (runAll (s.jobs.take k) base).2) ∧
        ∀ j < k, s.results[j]? = (runAll s.jobs base).1[j]?.map some
    | _ => s.memory = (runAll (s.jobs.take s.slot) base).2 ∧
        ∀ j < s.slot, s.results[j]? = (runAll s.jobs base).1[j]?.map some

theorem Solo.step (solo : Solo base s) (slots : s.Slots) (step : Step s s') (inGroup : s'.rest = s.rest) :
    Solo base s' := by
  obtain ⟨x, only, get⟩ := solo
  have worker : ∀ {t : ℕ} {y : Worker w A α}, s.workers[t]? = some y → t = 0 ∧ y = x := by
    intro t y found
    rw [only, getElem?_singleton] at found
    split_ifs at found with zero
    exact ⟨zero, (some.inj found).symm⟩
  cases step with
  | @take _ p idle job =>
    obtain ⟨rfl, rfl⟩ := worker idle
    exact ⟨.busy s.slot p, by simp [setWorker, only], rfl, ⟨p, job, congrArg p.run get.1⟩, get.2⟩
  | @leave _ idle past =>
    obtain ⟨rfl, rfl⟩ := worker idle
    refine ⟨.left, by simp [setWorker, only], ?_, fun j lt => ?_⟩
    · change s.memory = (runAll (s.jobs.take (s.slot + 1)) base).2
      rw [take_of_length_le (past.trans (Nat.le_succ _)), get.1, take_of_length_le past]
    · rcases Nat.lt_succ_iff_lt_or_eq.mp lt with old | rfl
      · exact get.2 j old
      · change s.results[s.slot]? = _
        rw [getElem?_eq_none (by rw [slots.length]; exact past),
          getElem?_eq_none (by rw [runAll_length]; exact past), map_none]
  | @act _ k _ q _ busy step =>
    obtain ⟨rfl, rfl⟩ := worker busy
    obtain ⟨slot, ⟨job, jobAt, eq⟩, before⟩ := get
    exact ⟨.busy k q, by simp [setWorker, only], slot, ⟨job, jobAt, (run_step step).trans eq⟩, before⟩
  | @finish t k a busy =>
    obtain ⟨rfl, rfl⟩ := worker busy
    obtain ⟨slot, ⟨job, jobAt, eq⟩, before⟩ := get
    obtain ⟨memory, result⟩ := runAll_take (m := base) jobAt
    have below : k < s.results.length := (List.getElem?_eq_some_iff.mp (slots.busy 0 k _ busy).2).1
    refine ⟨.idle, by simp [setWorker, only], ?_, fun j lt => ?_⟩
    · change s.memory = (runAll (s.jobs.take s.slot) base).2
      rw [slot, memory, ← eq]
      rfl
    · change (s.results.set k (some a))[j]? = (runAll s.jobs base).1[j]?.map some
      by_cases last : j = k
      · subst last
        rw [getElem?_set_self below, result, ← eq]
        rfl
      · rw [getElem?_set_ne (Ne.symm last)]
        have lt' : j < s.slot := lt
        exact before j (by omega)
  | join _ more => exact absurd inGroup (enter_rest more)

theorem Solo.enter (one : g.workers = 1) : Solo s.memory (s.enter g rest) :=
  ⟨.idle, by simp [Pool.enter, one], rfl, fun j lt => absurd lt (Nat.not_lt_zero j)⟩

theorem Solo.final (solo : Solo base s) (slots : s.Slots) (left : s.AllLeft) :
    s.results = (runAll s.jobs base).1.map some ∧ s.memory = (runAll s.jobs base).2 := by
  have taken := slot_of_left slots left
  obtain ⟨x, only, get⟩ := solo
  cases left x (by simp [only])
  refine ⟨ext_getElem? fun k => ?_, ?_⟩
  · rw [getElem?_map]
    by_cases lt : k < s.jobs.length
    · exact get.2 k (lt_of_lt_of_le lt taken)
    · rw [getElem?_eq_none (by rw [slots.length]; exact not_lt.mp lt),
        getElem?_eq_none (by rw [runAll_length]; exact not_lt.mp lt), map_none]
  · rw [get.1, take_of_length_le taken]

/-- The groups before are done, this one is on its way to its serial outcome. -/
def Serial (m : A → BitVec w) (all : List (Prog w A α)) (s : Pool w A α) : Prop :=
  ∃ past, past ++ s.jobs ++ s.rest.flatMap (·.jobs) = all ∧ s.finished = (runAll past m).1.map some ∧ s.Slots ∧
    (∀ g ∈ s.rest, g.Serializable) ∧ (Solo (runAll past m).2 s ∨ ∃ foot, Parallel foot (runAll past m).2 s)

theorem Serial.final_group (serial : Serial m all s) (left : s.AllLeft) :
    ∃ past, past ++ s.rest.flatMap (·.jobs) = all ∧ s.outcome = (runAll past m).1.map some ∧
      s.memory = (runAll past m).2 := by
  obtain ⟨past, split, finished, slots, -, kind⟩ := serial
  have done : s.results = (runAll s.jobs (runAll past m).2).1.map some ∧ s.memory = (runAll s.jobs (runAll past m).2).2 := by
    rcases kind with solo | ⟨foot, parallel⟩
    · exact solo.final slots left
    · exact parallel.final slots left
  refine ⟨past ++ s.jobs, split, ?_, ?_⟩
  · rw [outcome, finished, done.1, runAll_append, map_append]
  · rw [done.2, runAll_append]

theorem Serial.step (serial : Serial m all s) (step : Step s s') : Serial m all s' := by
  by_cases inGroup : s'.rest = s.rest
  · obtain ⟨past, split, finished, slots, rest, kind⟩ := serial
    have kept : s'.jobs = s.jobs ∧ s'.finished = s.finished := by
      cases step with
      | join _ more => exact absurd inGroup (enter_rest more)
      | take | leave | act | finish => exact ⟨rfl, rfl⟩
    refine ⟨past, by rw [kept.1, inGroup, split], kept.2.trans finished, slots.step step inGroup,
      by rwa [inGroup], ?_⟩
    rcases kind with solo | ⟨foot, parallel⟩
    · exact .inl (solo.step slots step inGroup)
    · exact .inr ⟨foot, parallel.step slots step inGroup⟩
  · cases step with
    | @join g _ left more =>
      obtain ⟨past, split, outcome, memory⟩ := serial.final_group left
      obtain ⟨-, -, -, -, serializable, -⟩ := serial
      obtain ⟨pos, kind⟩ := serializable g (by simp [more])
      refine ⟨past, ?_, outcome, .enter pos,
        fun g' mem => serializable g' (more ▸ mem_cons_of_mem g mem), ?_⟩
      · rw [← split, more, flatMap_cons]
        exact append_assoc past g.jobs _
      · rw [← memory]
        rcases kind with one | ⟨foot, disjoint⟩
        · exact .inl (.enter one)
        · exact .inr ⟨foot, .enter disjoint⟩
    | take | leave | act | finish => exact absurd rfl inGroup

theorem final_serial {groups : List (Group w A α)} (serializable : ∀ g ∈ groups, g.Serializable)
    (reach : Relation.ReflTransGen Step (start m groups) s) (final : s.Final) :
    s.outcome = (runAll (groups.flatMap (·.jobs)) m).1.map some ∧ s.memory = (runAll (groups.flatMap (·.jobs)) m).2 := by
  have serial : Serial m (groups.flatMap (·.jobs)) s := by
    clear final
    induction reach with
    | refl =>
      refine ⟨[], rfl, rfl, .start m groups, serializable, .inr ⟨fun _ _ _ => False, ?_⟩⟩
      refine ⟨⟨fun k p get => ?_, fun i j lt => ?_⟩, fun k p stage => ?_, fun T _ _ _ _ => rfl⟩
      · simp [start] at get
      · simp [start] at lt
      · rcases stage with ⟨-, get⟩ | ⟨u, get⟩ | ⟨a, done, -⟩
        · simp [start] at get
        · simp [start] at get
        · simp [start] at done
    | tail _ step ih => exact ih.step step
  obtain ⟨past, split, outcome, memory⟩ := serial.final_group final.1
  rw [final.2, flatMap_nil, append_nil] at split
  exact split ▸ ⟨outcome, memory⟩

end Pool

end SharedWords
