import Vcomp.Foundation.Transition
import Vcomp.Lsm.CompactionScore

namespace VcompModel

/-- A Version being prepared: files as references to shared `FileMetaData`, and the score arrays before. -/
structure PreparedVersion (F : Type) where
  ctx : ScoreContext
  files : List (List ℕ)
  averageValueSize : UInt64
  before : List (ℕ × F)

/-- In the loops of `ComputeCompensatedSizes`, with the statistics so far and the files of the level read and left, or
behind them. -/
inductive PreparePc where
  | scanning (done : List LevelCompactionStats) (stats : LevelCompactionStats) (read left : List ℕ)
      (levels : List (List ℕ))
  | prepared (stats : List LevelCompactionStats)

structure PrepareState (K : Type) where
  heap : ℕ → FileMetaData K
  pc : PreparePc

inductive PrepareEvent where
  | scan
  | nextLevel
  | finish
  | mark (inputs : List ℕ) (beingCompacted : Bool)

variable {K F : Type}

def PreparedVersion.deref (v : PreparedVersion F) (heap : ℕ → FileMetaData K) : List (List (FileMetaData K)) :=
  v.files.map (·.map heap)

def markFilesBeingCompacted (inputs : List ℕ) (beingCompacted : Bool) (heap : ℕ → FileMetaData K) : ℕ → FileMetaData K :=
  fun p => if p ∈ inputs then { heap p with beingCompacted := beingCompacted } else heap p

/-- The writer scans one file at a time without the mutex; others mark and unmark in between. -/
inductive PrepareStep (v : PreparedVersion F) (s : PrepareState K) : PrepareEvent → PrepareState K → Prop where
  | scan (done : List LevelCompactionStats) (stats : LevelCompactionStats) (read : List ℕ) (p : ℕ) (left : List ℕ)
      (levels : List (List ℕ)) (pc : s.pc = .scanning done stats read (p :: left) levels) :
      PrepareStep v s .scan
        { heap := Function.update s.heap p ((s.heap p).compensated v.averageValueSize)
          pc := .scanning done (stats.add read.length ((s.heap p).compensated v.averageValueSize)) (read ++ [p]) left
            levels }
  | nextLevel (done : List LevelCompactionStats) (stats : LevelCompactionStats) (read level : List ℕ)
      (levels : List (List ℕ)) (pc : s.pc = .scanning done stats read [] (level :: levels)) :
      PrepareStep v s .nextLevel { s with pc := .scanning (done ++ [stats]) {} [] level levels }
  | finish (done : List LevelCompactionStats) (stats : LevelCompactionStats) (read : List ℕ)
      (pc : s.pc = .scanning done stats read [] []) :
      PrepareStep v s .finish { s with pc := .prepared (done ++ [stats]) }
  | mark (inputs : List ℕ) (beingCompacted : Bool)
      (changes : ∀ p ∈ inputs, (s.heap p).beingCompacted ≠ beingCompacted) :
      PrepareStep v s (.mark inputs beingCompacted) { s with heap := markFilesBeingCompacted inputs beingCompacted s.heap }

def PrepareStart (v : PreparedVersion F) (s : PrepareState K) : Prop :=
  ∃ level levels, v.files = level :: levels ∧ s.pc = .scanning [] {} [] level levels

def PreparedVersion.readFiles (v : PreparedVersion F) : PreparePc → List ℕ
  | .scanning done _ read _ _ => (v.files.take done.length).flatten ++ read
  | .prepared _ => v.files.flatten

def SparesRead (v : PreparedVersion F) (s : PrepareState K) (e : PrepareEvent) : Prop :=
  ∀ inputs flag, e = .mark inputs flag → ∀ p ∈ inputs, p ∉ v.readFiles s.pc

/-- The scores and the pending bytes that `AppendVersion` computes from the given statistics. -/
def PreparedVersion.append (fl : DoubleArith F) (v : PreparedVersion F) (stats : List LevelCompactionStats)
    (heap : ℕ → FileMetaData K) : List (ℕ × F) × UInt64 :=
  (computeCompactionScore fl v.ctx stats (v.deref heap) v.before,
    estimateCompactionBytesNeeded fl v.ctx stats (v.deref heap))

end VcompModel

namespace VcompProof

open VcompModel List Function

variable {K F : Type} {v : PreparedVersion F} {s s' : PrepareState K} {e : PrepareEvent}
  {heap heap' : ℕ → FileMetaData K}

theorem compensated_idem (averageValueSize : UInt64) (file : FileMetaData K) :
    (file.compensated averageValueSize).compensated averageValueSize = file.compensated averageValueSize := by
  by_cases zero : file.compensatedFileSize = 0
  · have once : file.compensated averageValueSize = { file with
        compensatedFileSize := (file.compensated averageValueSize).compensatedFileSize } := by
      simp only [FileMetaData.compensated, zero, if_true]
    by_cases still : (file.compensated averageValueSize).compensatedFileSize = 0
    · have eq : file.compensated averageValueSize = file := by
        rw [once, still, ← zero]
      rw [eq, eq]
    · rw [FileMetaData.compensated, if_neg still]
  · have eq : file.compensated averageValueSize = file := by rw [FileMetaData.compensated, if_neg zero]
    rw [eq, eq]

theorem collectLevel_append (stats : LevelCompactionStats) (i : ℕ) (files : List (FileMetaData K)) (file : FileMetaData K) :
    collectLevel stats i (files ++ [file]) = (collectLevel stats i files).add (i + files.length) file := by
  induction files generalizing stats i with
  | nil => rfl
  | cons first files ih =>
    rw [cons_append, collectLevel, collectLevel, ih, length_cons, add_assoc, add_comm 1]

abbrev freshStats (heap : ℕ → FileMetaData K) (levels : List (List ℕ)) : List LevelCompactionStats :=
  collectLevelCompactionStats (levels.map (·.map heap))

/-- What was read is as fresh as if read now, and its sizes are settled. -/
inductive Fresh (v : PreparedVersion F) (heap : ℕ → FileMetaData K) : PreparePc → Prop where
  | scanning (seen : List (List ℕ)) (read left : List ℕ) (levels : List (List ℕ))
      (split : v.files = seen ++ (read ++ left) :: levels)
      (settled : ∀ p ∈ seen.flatten ++ read, (heap p).compensated v.averageValueSize = heap p) :
      Fresh v heap (.scanning (freshStats heap seen) (collectLevel {} 0 (read.map heap)) read left levels)
  | prepared : Fresh v heap (.prepared (freshStats heap v.files))

theorem freshStats_congr {levels : List (List ℕ)}
    (eq : ∀ p ∈ levels.flatten, heap' p = heap p) : freshStats heap' levels = freshStats heap levels := by
  simp only [freshStats, collectLevelCompactionStats, map_map]
  apply map_congr_left
  intro level mem
  have files : level.map heap' = level.map heap := by
    apply map_congr_left
    intro p inLevel
    exact eq p (mem_flatten.mpr ⟨level, mem, inLevel⟩)
  simp only [comp, files]

theorem length_freshStats (heap : ℕ → FileMetaData K) (levels : List (List ℕ)) :
    (freshStats heap levels).length = levels.length := by
  simp [freshStats, collectLevelCompactionStats]

theorem Fresh.congr {pc : PreparePc} (fresh : Fresh v heap pc)
    (eq : ∀ p ∈ v.readFiles pc, heap' p = heap p) : Fresh v heap' pc := by
  cases fresh with
  | scanning seen read left levels split settled =>
    have files : v.readFiles (.scanning (freshStats heap seen) (collectLevel {} 0 (read.map heap)) read left levels) =
        seen.flatten ++ read := by
      simp only [PreparedVersion.readFiles, length_freshStats, split, take_left']
    rw [files] at eq
    have done : freshStats heap' seen = freshStats heap seen :=
      freshStats_congr fun p mem => eq p (mem_append_left _ mem)
    have current : read.map heap' = read.map heap :=
      map_congr_left fun p mem => eq p (mem_append_right _ mem)
    rw [← done, ← current]
    refine .scanning seen read left levels split fun p mem => ?_
    rw [eq p mem]
    exact settled p mem
  | prepared =>
    have all : freshStats heap' v.files = freshStats heap v.files := freshStats_congr eq
    rw [← all]
    exact .prepared

theorem Fresh.step (fresh : Fresh v s.heap s.pc) (spares : SparesRead v s e) (step : PrepareStep v s e s') :
    Fresh v s'.heap s'.pc := by
  cases step with
  | scan done stats read p left levels pc =>
    rw [pc] at fresh
    have settledNow := compensated_idem v.averageValueSize (s.heap p)
    generalize stored : (s.heap p).compensated v.averageValueSize = file at settledNow
    -- rereading a file that was read before changes nothing, its size is settled
    have unchanged : Fresh v (update s.heap p file) (.scanning done stats read (p :: left) levels) := by
      apply fresh.congr
      intro q mem
      by_cases eq : q = p
      · subst eq
        rw [update_self, ← stored]
        cases fresh with
        | scanning seen _ _ _ split settled =>
          simp only [PreparedVersion.readFiles, length_freshStats, split, take_left'] at mem
          exact settled q mem
      · rw [update_of_ne eq]
    cases unchanged with
    | scanning seen _ _ _ split settled =>
      have added : (collectLevel {} 0 (read.map (update s.heap p file))).add read.length file =
          collectLevel {} 0 ((read ++ [p]).map (update s.heap p file)) := by
        rw [map_append, map_singleton, update_self, collectLevel_append, length_map,
          zero_add]
      rw [added]
      refine .scanning seen (read ++ [p]) left levels (by rw [split, append_assoc, singleton_append]) ?_
      intro q mem
      dsimp only
      by_cases eq : q = p
      · rw [eq, update_self, settledNow]
      · apply settled q
        simpa [eq] using mem
  | nextLevel done stats read level levels pc =>
    rw [pc] at fresh
    cases fresh with
    | scanning seen _ _ _ split settled =>
      have collected : freshStats s.heap seen ++ [collectLevel {} 0 (read.map s.heap)] =
          freshStats s.heap (seen ++ [read]) := by
        simp [freshStats, collectLevelCompactionStats]
      have empty : ({} : LevelCompactionStats) = collectLevel {} 0 (([] : List ℕ).map s.heap) := rfl
      dsimp only
      rw [collected, empty]
      refine .scanning (seen ++ [read]) [] level levels ?_ ?_
      · rw [split, append_nil, append_assoc]
        rfl
      · simpa using settled
  | finish done stats read pc =>
    rw [pc] at fresh
    cases fresh with
    | scanning seen _ _ _ split settled =>
      have collected : freshStats s.heap seen ++ [collectLevel {} 0 (read.map s.heap)] = freshStats s.heap v.files := by
        simp [freshStats, collectLevelCompactionStats, split]
      dsimp only
      rw [collected]
      exact .prepared
  | mark inputs beingCompacted changes =>
    apply fresh.congr
    intro p mem
    have spared : p ∉ inputs := fun marked => spares inputs beingCompacted rfl p marked mem
    simp only [markFilesBeingCompacted, if_neg spared]

theorem fresh_start (start : PrepareStart v s) : Fresh v s.heap s.pc := by
  obtain ⟨level, levels, files, pc⟩ := start
  rw [pc]
  exact .scanning [] [] level levels files nofun

/-- `AppendVersion` computes fresh scores and pending bytes where no file is marked or unmarked after it was read. -/
theorem cached_stats_fresh (fl : DoubleArith F) (v : PreparedVersion F) (s : PrepareState K)
    (stats : List LevelCompactionStats) (reach : Transition.Reachable (PrepareStart v) (PrepareStep v) (SparesRead v) s)
    (prepared : s.pc = .prepared stats) :
    v.append fl stats s.heap = v.append fl (collectLevelCompactionStats (v.deref s.heap)) s.heap := by
  have fresh : Fresh v s.heap s.pc := by
    refine reach.invariant (fun _ start => fresh_start start) ?_
    intro s e s' _ fresh spares step
    exact fresh.step spares step
  rw [prepared] at fresh
  cases fresh with
  | prepared => rfl

def rationalScores : DoubleArith ℚ where
  toFloatOps := .rational
  ofInt := fun n => n
  ofUInt64 := fun n => n.toNat
  toUInt64 := fun x => UInt64.ofNat x.floor.toNat
  div := (· / ·)

def oneFileVersion : PreparedVersion ℚ where
  ctx := ⟨.level, 3, false, false, none, 4, 100, 0, false, [], 0, fun _ => 50, 1, -1⟩
  files := [[], [7], []]
  averageValueSize := 0
  before := [(0, 0), (0, 0), (0, 0)]

def oneFileHeap : ℕ → FileMetaData ℕ := fun p => ⟨p, 100, ⟨1, 1, .value⟩, ⟨9, 1, .value⟩, 1, 1, 1, 0, 0, 10, 0, 0, false,
  false, 0, 0, .unknown⟩

def threeFileVersion : PreparedVersion ℚ := { oneFileVersion with files := [[], [7], [8, 9]] }

/-- Files 8 and 9 are picked before they are read, and 9 is given back before its turn. -/
theorem cached_stats_fresh_marked : ∃ (s : PrepareState ℕ) (stats : List LevelCompactionStats),
    Transition.Reachable (PrepareStart threeFileVersion) (PrepareStep threeFileVersion) (SparesRead threeFileVersion) s ∧
    s.pc = .prepared stats ∧ stats = [{}, ⟨100, 100, 100, 1, false⟩, ⟨200, 200, 100, 1, true⟩] ∧
    (s.heap 8).beingCompacted = true ∧ (s.heap 9).beingCompacted = false ∧
    threeFileVersion.append rationalScores stats s.heap =
      threeFileVersion.append rationalScores (collectLevelCompactionStats (threeFileVersion.deref s.heap)) s.heap := by
  have quiet : ∀ {s : PrepareState ℕ} {e : PrepareEvent}, (∀ inputs flag, e ≠ .mark inputs flag) →
      SparesRead threeFileVersion s e := fun other inputs flag eq => absurd eq (other inputs flag)
  have r : Transition.Reachable (PrepareStart threeFileVersion) (PrepareStep threeFileVersion)
      (SparesRead threeFileVersion) ⟨oneFileHeap, .scanning [] {} [] [] [[7], [8, 9]]⟩ := .start ⟨_, _, rfl, rfl⟩
  have r := r.next (quiet (by simp)) (.nextLevel _ _ _ _ _ rfl)
  have r := r.next (quiet (by simp)) (.scan _ _ _ _ _ _ rfl)
  have r := r.next (by rintro _ _ ⟨⟩; decide) (.mark [8, 9] true (by decide))
  have r := r.next (quiet (by simp)) (.nextLevel _ _ _ _ _ rfl)
  have r := r.next (quiet (by simp)) (.scan _ _ _ _ _ _ rfl)
  have r := r.next (by rintro _ _ ⟨⟩; decide) (.mark [9] false (by decide))
  have r := r.next (quiet (by simp)) (.scan _ _ _ _ _ _ rfl)
  have r := r.next (quiet (by simp)) (.finish _ _ _ rfl)
  exact ⟨_, _, r, rfl, rfl, rfl, rfl, cached_stats_fresh rationalScores threeFileVersion _ _ r rfl⟩

/-- The file is picked after it was read: level 1 gets the score 2 with nothing left to compact. -/
theorem cached_stats_stale : ∃ (s : PrepareState ℕ) (stats : List LevelCompactionStats),
    Transition.Reachable (PrepareStart oneFileVersion) (PrepareStep oneFileVersion) (fun _ _ => True) s ∧
    s.pc = .prepared stats ∧ (oneFileVersion.append rationalScores stats s.heap).1 = [(1, 2), (0, 0), (0, 0)] ∧
    (oneFileVersion.append rationalScores (collectLevelCompactionStats (oneFileVersion.deref s.heap)) s.heap).1 =
      [(0, 0), (1, 0), (0, 0)] := by
  have r : Transition.Reachable (PrepareStart oneFileVersion) (PrepareStep oneFileVersion) (fun _ _ => True)
      ⟨oneFileHeap, .scanning [] {} [] [] [[7], []]⟩ := .start ⟨_, _, rfl, rfl⟩
  have r := r.next trivial (.nextLevel _ _ _ _ _ rfl)
  have r := r.next trivial (.scan _ _ _ _ _ _ rfl)
  have r := r.next trivial (.nextLevel _ _ _ _ _ rfl)
  have r := r.next trivial (.finish _ _ _ rfl)
  have r := r.next trivial (.mark [7] true (by decide +kernel))
  exact ⟨_, _, r, rfl, by decide +kernel, by decide +kernel⟩

end VcompProof
