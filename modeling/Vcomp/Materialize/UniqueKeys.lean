import Vcomp.Materialize.Confinement
import Vcomp.Materialize.UniquePlacement

namespace VcompProof

open VcompModel SharedWords Bitmap SortBy List

variable {cfg : MaterializeConfig} {io : SstIo} {task : SSTTask} {lo hi target cap : ℕ} {map : KeyBitmap}
  {s : FileState}

theorem confined_reachKey {candidate : ℕ} (lower : lo ≤ candidate) (lowerCap : lo ≤ cap) (upper : cap ≤ hi) :
    (reachKey map candidate cap).Confined (rangeFoot lo hi) fun k => lo ≤ k ∧ k ≤ hi := by
  unfold reachKey
  split_ifs with reached
  · exact confined_done ⟨lowerCap, upper⟩
  · apply (confined_nextFree lower upper).bind
    intro found inRange
    cases found with
    | none => exact confined_done ⟨lowerCap, upper⟩
    | some k =>
      obtain ⟨lowerK, upperK⟩ := inRange k rfl
      exact confined_done ⟨lower.trans lowerK, upperK.trans upper⟩

def CapInside (lo hi : ℕ) (selector : Selector) : Prop :=
  ∃ segIdx target cap, selector = .unique segIdx lo hi target cap ∧ lo ≤ cap ∧ cap ≤ hi

theorem confined_placeUnique {segIdx keysInFile k : ℕ} {prev : Option ℕ} (lowerCap : lo ≤ cap) (upper : cap ≤ hi) :
    (placeUnique map segIdx lo hi target cap keysInFile k prev).Confined (rangeFoot lo hi)
      fun r => ∀ k selector, r = .ok (k, selector) → CapInside lo hi selector := by
  unfold placeUnique
  have aboveLo : lo ≤ max k (lowerKey lo prev) := by
    cases prev with
    | none => exact le_max_right _ _
    | some last => exact (le_max_left _ _).trans (le_max_right _ _)
  by_cases full : prev = some uint64Max
  · rw [if_pos full]
    exact confined_done fun k selector failed => by cases failed
  rw [if_neg full]
  apply (confined_reachKey aboveLo lowerCap upper).bind
  intro key inRange
  apply (confined_take inRange.1 inRange.2).bind
  intro free _
  cases free with
  | false => exact confined_done fun k selector failed => by cases failed
  | true =>
    simp only [Bool.not_true, Bool.false_eq_true, if_false]
    split_ifs with again high
    · exact confined_done fun k selector failed => by cases failed
    · apply (confined_nextFree (lowerCap.trans (Nat.le_succ cap)) le_rfl).bind
      intro found inScan
      cases found with
      | none => exact confined_done fun k selector failed => by cases failed
      | some cap' =>
        apply confined_done
        intro k selector placed
        cases placed
        obtain ⟨lowerNext, upperNext⟩ := inScan cap' rfl
        exact ⟨segIdx, target, cap', rfl, by omega, upperNext⟩
    · apply confined_done
      intro k selector placed
      cases placed
      exact ⟨segIdx, target, cap, rfl, lowerCap, upper⟩

theorem confined_uniqueLoop (left pos : ℕ) (inside : CapInside lo hi s.selector) :
    (fileLoop cfg io task left pos s).Confined (rangeFoot lo hi) fun s => s.selector.claims = [] := by
  induction left generalizing pos s with
  | zero =>
    obtain ⟨segIdx, target, cap, selectorEq, -⟩ := inside
    exact confined_done (by rw [selectorEq]; rfl)
  | succ left ih =>
    obtain ⟨segIdx, target, cap, selectorEq, lowerCap, upper⟩ := inside
    have selected : (selectKey cfg.map task pos s).Confined (rangeFoot lo hi)
        fun r => ∀ k selector, r = .ok (k, selector) → CapInside lo hi selector := by
      simp only [selectKey, selectorEq]
      split_ifs with done
      · exact confined_done fun k selector failed => by cases failed
      · exact confined_placeUnique lowerCap upper
    apply selected.bind
    intro r placed
    cases r with
    | error reason => exact confined_done (by simp only [selectorEq]; rfl)
    | ok chosen =>
      obtain ⟨k, selector⟩ := chosen
      have capInside := placed k selector rfl
      have kept : (putKey cfg io k { s with selector := selector }).1.selector = selector := putKey_selector _ _
      change Prog.Confined _ _ (if (putKey cfg io k { s with selector := selector }).2 then
        fileLoop cfg io task left (pos + 1) (putKey cfg io k { s with selector := selector }).1
        else pure (putKey cfg io k { s with selector := selector }).1)
      generalize putKey cfg io k { s with selector := selector } = put at kept
      split_ifs
      · exact ih (pos + 1) (by rw [kept]; exact capInside)
      · obtain ⟨segIdx', target', cap', selectorEq', -⟩ := capInside
        exact confined_done (by rw [kept, selectorEq']; rfl)

theorem confined_planUnique : (planUnique map task).Confined (rangeFoot task.materializeKeyMin (clampedMax map task))
      fun r => ∀ plan, r = .ok plan → CapInside task.materializeKeyMin (clampedMax map task) plan.selector := by
  have counted : (freeInRange map task.materializeKeyMin (clampedMax map task)).Confined
      (rangeFoot task.materializeKeyMin (clampedMax map task)) fun _ => True := by
    unfold freeInRange
    split_ifs
    · exact confined_done trivial
    · exact confined_countFree le_rfl le_rfl
  apply counted.bind
  intro freeKeys _
  by_cases zero : min task.vsst.numEntries freeKeys = 0
  · rw [if_pos zero]
    exact confined_done fun plan failed => nomatch failed
  rw [if_neg zero]
  apply (confined_selectFree _ le_rfl le_rfl).bind
  intro found inScan
  cases found with
  | none => exact confined_done fun plan failed => nomatch failed
  | some cap =>
    apply confined_done
    intro plan planned
    cases planned
    obtain ⟨lower, upper⟩ := inScan cap rfl
    exact ⟨0, _, cap, rfl, lower, upper⟩

theorem confined_finishFile {S : Footprint (BitArray × ℕ)} {plan : FilePlan} {res : SSTResult}
    (unclaimed : s.selector.claims = []) : (finishFile cfg io task plan s res).Confined S fun _ => True := by
  unfold finishFile
  rw [unclaimed]
  split_ifs <;> exact confined_done trivial

theorem uniqueFile_within (unique : cfg.selection = .unique) :
    (materializeFile cfg task).Within (rangeFoot task.materializeKeyMin (clampedMax cfg.map task)) := by
  apply Prog.Confined.within (Q := fun _ => True)
  unfold materializeFile
  split_ifs
  · exact confined_done trivial
  · exact confined_done trivial
  · exact confined_done trivial
  · have planned : (planFile cfg task).Confined (rangeFoot task.materializeKeyMin (clampedMax cfg.map task))
        fun r => ∀ plan, r = .ok plan → CapInside task.materializeKeyMin (clampedMax cfg.map task) plan.selector := by
      simp only [planFile, unique]
      exact confined_planUnique
    apply planned.bind
    intro r inside
    cases r with
    | error ended => exact confined_done trivial
    | ok plan =>
      split_ifs
      · exact confined_done trivial
      · apply (confined_uniqueLoop _ _ (inside plan rfl)).bind
        intro s unclaimed
        exact confined_finishFile unclaimed

variable {m : BitMemory}

structure UniqueRun (cfg : MaterializeConfig) (m : BitMemory) (results : List SSTResult) (m' : BitMemory) : Prop where
  nodup : (results.flatMap (·.emitted)).Nodup
  free : ∀ k ∈ results.flatMap (·.emitted), k < cfg.map.keyDomain ∧ holds m .reserved k = false
  taken : ∀ k, holds m' .reserved k = (holds m .reserved k || decide (k ∈ results.flatMap (·.emitted)))
  noConflict : ∀ res ∈ results, res.stopReason ≠ .uniqueReservationConflict

theorem uniqueRun (unique : cfg.selection = .unique) (increase : KeysIncrease cfg) (fits : cfg.map.keyDomain ≤ uint64Max)
    (writes : ∀ number, WritesSucceed (cfg.io number)) (tasks : List SSTTask) :
    UniqueRun cfg m (runAll (tasks.map (materializeFile cfg)) m).1 (runAll (tasks.map (materializeFile cfg)) m).2 := by
  induction tasks generalizing m with
  | nil => exact ⟨nodup_nil, by simp [runAll_nil], fun k => by simp [runAll_nil], by simp [runAll_nil]⟩
  | cons task tasks ih =>
    have file : UniqueFile cfg task m _ _ := run_uniqueFile unique increase fits writes
    rw [map_cons, runAll_cons]
    generalize (materializeFile cfg task).run m = out at file ⊢
    have later := ih (m := out.2)
    have free : ∀ k ∈ out.1.emitted, k < cfg.map.keyDomain ∧ holds m .reserved k = false := by
      intro k emitted
      obtain ⟨-, -, inDomain, isFree⟩ := mem_freeKeys.mp (file.free k emitted)
      exact ⟨inDomain, isFree⟩
    have laterFree : ∀ k ∈ (runAll (tasks.map (materializeFile cfg)) out.2).1.flatMap (·.emitted),
        (k < cfg.map.keyDomain ∧ holds m .reserved k = false) ∧ k ∉ out.1.emitted := by
      intro k emitted
      obtain ⟨inDomain, isFree⟩ := later.free k emitted
      rw [file.memory, Bool.or_eq_false_iff, decide_eq_false_iff_not] at isFree
      exact ⟨⟨inDomain, isFree.1⟩, fun again => isFree.2 ⟨rfl, again⟩⟩
    constructor
    · rw [flatMap_cons]
      apply List.Nodup.append (file.sorted.imp ne_of_lt) later.nodup
      intro k first again
      exact (laterFree k again).2 first
    · intro k emitted
      rw [flatMap_cons, mem_append] at emitted
      cases emitted with
      | inl first => exact free k first
      | inr rest => exact (laterFree k rest).1
    · intro k
      rw [later.taken, file.memory]
      simp [true_and, flatMap_cons, mem_append, Bool.decide_or, Bool.or_assoc]
    · intro res mem
      rw [mem_cons] at mem
      cases mem with
      | inl eq => exact eq ▸ file.noConflict
      | inr rest => exact later.noConflict res rest

theorem create_words {maxBytes : ℕ} (created : KeyBitmap.create map.keyDomain maxBytes = .ok map)
    (fits : map.keyDomain + 63 < word64) : 0 < map.keyDomain ∧ map.words = (map.keyDomain + 63) / 64 := by
  simp only [KeyBitmap.create] at created
  split_ifs at created with zero large
  have words := congrArg KeyBitmap.words (Except.ok.inj created)
  rw [Nat.mod_eq_of_lt fits] at words
  exact ⟨by omega, words.symm⟩

theorem run_takenTotal {keys : List ℕ} (words : map.words = (map.keyDomain + 63) / 64)
    (nodup : keys.Nodup) (inDomain : ∀ k ∈ keys, k < map.keyDomain)
    (taken : ∀ k, holds m .reserved k = decide (k ∈ keys)) : (map.takenTotal.run m).1 = keys.length := by
  rw [KeyBitmap.takenTotal, run_totalBits]
  apply List.Perm.length_eq
  rw [perm_ext_iff_of_nodup _ nodup]
  · intro k
    simp only [mem_flatMap, mem_range, mem_keysOfWord]
    have bit : (m (.reserved, k / 64)).getLsbD (k % 64) = decide (k ∈ keys) := taken k
    constructor
    · intro found
      obtain ⟨i, -, rfl, set⟩ := found
      rw [bit] at set
      exact of_decide_eq_true set
    · intro mem
      have lt := inDomain k mem
      exact ⟨k / 64, by omega, rfl, by rw [bit]; exact decide_eq_true mem⟩
  · apply List.Pairwise.imp (R := (· < ·)) ne_of_lt
    rw [pairwise_flatMap]
    apply And.intro fun i _ => keysOfWord_sorted i _
    apply pairwise_lt_range.imp
    intro i j less k inI l inJ
    have wordK := (mem_keysOfWord.mp inI).1
    have wordL := (mem_keysOfWord.mp inJ).1
    omega

theorem phase_jobs (requestedWorkers : ℕ) (groups : List (List SSTTask)) (count : ℕ) :
    (groups.map (workerGroup cfg requestedWorkers count)).flatMap (·.jobs) = groups.flatten.map (materializeFile cfg) := by
  rw [flatMap_map, map_flatten, List.flatMap]
  rfl

/-- One outcome whatever the schedule: no key twice, no reservation conflict, as many keys taken as emitted. -/
theorem unique_keys_materialized (cfg : MaterializeConfig) (maxBytes : ℕ) (unique : cfg.selection = .unique)
    (created : KeyBitmap.create cfg.map.keyDomain maxBytes = .ok cfg.map) (fits : cfg.map.keyDomain + 63 < word64)
    (increase : KeysIncrease cfg) (writes : ∀ number, WritesSucceed (cfg.io number)) (requestedWorkers : ℕ)
    (deepFirst : Bool) (files : List SSTTask) : let tasks := halfOpenRanges none 0 (taskOrder files)
    let phase := materializePhase cfg requestedWorkers deepFirst tasks fun _ => 0
    (∀ s, Relation.ReflTransGen Pool.Step phase s → s.Final ∨ ∃ s', Pool.Step s s') ∧
      (∀ run : ℕ → Pool 64 (BitArray × ℕ) SSTResult, run 0 = phase → ∃ i, ¬ Pool.Step (run i) (run (i + 1))) ∧
      ∃ results : List SSTResult, results.length = files.length ∧
        (results.flatMap (·.emitted)).Nodup ∧
        (∀ res ∈ results, res.stopReason ≠ .uniqueReservationConflict) ∧
        ∀ s, Relation.ReflTransGen Pool.Step phase s → s.Final →
          s.outcome = results.map some ∧
          (cfg.map.takenTotal.run s.memory).1 = (results.map (·.emitted.length)).sum := by
  intro tasks phase
  obtain ⟨pos, words⟩ := create_words created fits
  have small : cfg.map.keyDomain ≤ uint64Max := by unfold uint64Max; omega
  have apart : LevelTasksApart tasks := halfOpenRanges_apart none 0 (taskOrder_levels files)
  have run := uniqueRun (m := fun _ => 0) unique increase small writes (phaseGroups cfg deepFirst tasks).flatten
  have length : tasks.length = files.length := by
    have eq : tasks.map (·.level) = (taskOrder files).map (·.level) := halfOpenRanges_levels none 0
    have levels := congrArg List.length eq
    rw [length_map, length_map] at levels
    exact levels.trans (sortBy_perm taskBefore files).length_eq
  rw [← phase_jobs requestedWorkers _ tasks.length] at run
  refine ⟨fun s _ => ?_, fun run _ => Pool.no_endless_run run, _, ?_, run.nodup, run.noConflict, ?_⟩
  · by_cases final : s.Final
    · exact .inl final
    · exact .inr (Pool.progress final)
  · rw [runAll_length, phase_jobs, length_map, phaseGroups_perm.length_eq, length]
  · intro s reach final
    have serial := Pool.final_serial (fun g mem => phase_serializable small pos apart
      (fun task _ => uniqueFile_within unique) mem) reach final
    rw [serial.2, ← length_flatMap]
    apply And.intro serial.1
    apply run_takenTotal words run.nodup fun k emitted => (run.free k emitted).1
    intro k
    rw [run.taken]
    simp [holds, bit]

def uniqueConfig (keySize keyDomain : ℕ) : MaterializeConfig :=
  ⟨⟨keySize, 0, 0⟩, .unique, ⟨keyDomain, (keyDomain + 63) / 64⟩, fun _ => ⟨true, fun _ => true, true⟩⟩

def rampFile (number level keyMin keyMax numEntries : ℕ) : SSTTask :=
  newTask number number level ⟨⟨[⟨keyMin, keyMax, 1, -keyMin⟩]⟩, [], keyMin, keyMax, numEntries, 0⟩

theorem unique_keys_materialized_overlapping :
    let files := [rampFile 7 1 10 20 8, rampFile 8 1 20 30 11, rampFile 9 0 15 25 4]
    let tasks := halfOpenRanges none 0 (taskOrder files)
    let phase := materializePhase (uniqueConfig 16 300) 4 true tasks fun _ => 0
    ∃ results : List SSTResult, results.length = 3 ∧ (results.flatMap (·.emitted)).Nodup ∧
      (∀ res ∈ results, res.stopReason ≠ .uniqueReservationConflict) ∧
      ∀ s, Relation.ReflTransGen Pool.Step phase s → s.Final →
        s.outcome = results.map some ∧
        ((uniqueConfig 16 300).map.takenTotal.run s.memory).1 = (results.map (·.emitted.length)).sum :=
  (unique_keys_materialized (uniqueConfig 16 300) 40 rfl rfl (by decide) (keysIncrease_plain rfl (by decide))
    (fun _ => ⟨rfl, fun _ => rfl, rfl⟩) 4 true
    [rampFile 7 1 10 20 8, rampFile 8 1 20 30 11, rampFile 9 0 15 25 4]).2.2

theorem uniqueFile_reached (cfg : MaterializeConfig) (unique : cfg.selection = .unique)
    (fits : cfg.map.keyDomain ≤ uint64Max) (pos : 0 < cfg.map.keyDomain) :
    ∃ s, Relation.ReflTransGen Pool.Step (materializePhase cfg 1 true [task] fun _ => 0) s ∧ s.Final ∧
      s.outcome = [some ((materializeFile cfg task).run fun _ => 0).1] ∧
      s.memory = ((materializeFile cfg task).run fun _ => 0).2 := by
  obtain ⟨s, reach, final⟩ := Pool.exists_final (materializePhase cfg 1 true [task] fun _ => 0)
  have serial := Pool.final_serial (fun g inGroups => phase_serializable fits pos (pairwise_singleton _ _)
    (fun task _ => uniqueFile_within unique) inGroups) reach final
  have groups : phaseGroups cfg true [task] = [[task]] := by
    rw [phaseGroups, if_pos ⟨rfl, unique⟩]
    rfl
  rw [groups] at serial
  exact ⟨s, reach, final, serial.1, serial.2⟩

/-- One-byte keys over 300 ids: all eleven free ids are taken, six emitted. A word count that wraps to zero:
`TakenTotal` sees none. -/
theorem unique_keys_conflict :
    (∃ s, Relation.ReflTransGen Pool.Step (materializePhase (uniqueConfig 1 300) 1 true [rampFile 7 1 250 260 11]
          fun _ => 0) s ∧ s.Final ∧
        s.outcome.map (Option.map fun res => (res.emitted, res.stopReason)) =
          [some ([250, 251, 252, 253, 254, 255], .uniqueReservationConflict)] ∧
        ((uniqueConfig 1 300).map.takenTotal.run s.memory).1 = 11) ∧
      KeyBitmap.create (2 ^ 64 - 1) 8 = .ok ⟨2 ^ 64 - 1, 0⟩ ∧
      ∃ s, Relation.ReflTransGen Pool.Step (materializePhase { uniqueConfig 16 0 with map := ⟨2 ^ 64 - 1, 0⟩ } 1 true
          [rampFile 7 1 0 1 2] fun _ => 0) s ∧ s.Final ∧
        s.outcome.map (Option.map fun res => (res.emitted, res.stopReason)) = [some ([0, 1], .none)] ∧
        ((⟨2 ^ 64 - 1, 0⟩ : KeyBitmap).takenTotal.run s.memory).1 = 0 := by
  refine ⟨?_, rfl, ?_⟩
  · obtain ⟨s, reach, final, outcome, memory⟩ := uniqueFile_reached (uniqueConfig 1 300) rfl (by decide) (by decide)
    refine ⟨s, reach, final, ?_, ?_⟩
    · rw [outcome]
      decide +kernel
    · rw [memory]
      decide +kernel
  · obtain ⟨s, reach, final, outcome, memory⟩ :=
      uniqueFile_reached { uniqueConfig 16 0 with map := ⟨2 ^ 64 - 1, 0⟩ } rfl (by decide) (by decide)
    refine ⟨s, reach, final, ?_, ?_⟩
    · rw [outcome]
      decide +kernel
    · rw [memory]
      decide +kernel

structure FreeKeys (cfg : MaterializeConfig) (task : SSTTask) (m : BitMemory) (free : List ℕ) : Prop where
  sorted : free.Pairwise (· < ·)
  member : ∀ k, k ∈ free ↔ (task.materializeKeyMin ≤ k ∧ k ≤ task.materializeKeyMax) ∧ k < cfg.map.keyDomain ∧
    holds m .reserved k = false

theorem FreeKeys.eq_freeOf {free : List ℕ} (keys : FreeKeys cfg task m free) : free = freeOf cfg.map task m := by
  apply eq_of_sorted keys.sorted (freeKeys_sorted _ _ _ _)
  intro k
  rw [keys.member, mem_freeKeys, clampedMax]
  constructor
  · intro inside
    exact ⟨inside.1.1, by split_ifs <;> omega, inside.2⟩
  · intro inside
    obtain ⟨lower, upper, free⟩ := inside
    exact ⟨⟨lower, by split_ifs at upper <;> omega⟩, free⟩

/-- A range gets as many entries as it has free keys for, each at or below its cap. -/
theorem unique_placement (cfg : MaterializeConfig) (task : SSTTask) (m : BitMemory) (free : List ℕ)
    (unique : cfg.selection = .unique) (fits : cfg.map.keyDomain ≤ uint64Max) (increase : KeysIncrease cfg)
    (writes : ∀ number, WritesSucceed (cfg.io number)) (proposes : task.vsst.plrModel.empty = false)
    (keys : FreeKeys cfg task m free) : let res := ((materializeFile cfg task).run m).1
    res.emitted.length = min task.vsst.numEntries free.length ∧ res.emitted.Pairwise (· < ·) ∧
      (∀ k ∈ res.emitted, task.materializeKeyMin ≤ k ∧ k ≤ task.materializeKeyMax ∧ holds m .reserved k = false) ∧
      (∀ i k : ℕ, res.emitted[i]? = some k →
        ∃ cap, free[free.length - min task.vsst.numEntries free.length + i]? = some cap ∧ k ≤ cap) ∧
      res.stopReason ≠ .uniqueReservationConflict := by
  intro res
  have placed : UniqueFile cfg task m res _ := run_uniqueFile unique increase fits writes
  have isFree : ∀ k ∈ res.emitted, k ∈ free := keys.eq_freeOf ▸ placed.free
  have count : res.emitted.length = min task.vsst.numEntries free.length := by
    rw [keys.eq_freeOf]
    rcases lt_or_ge task.materializeKeyMax task.materializeKeyMin with reversed | order
    · have zero : ∀ k, k ∉ free := fun k inFree => by
        have range := ((keys.member k).mp inFree).1
        omega
      rw [← keys.eq_freeOf, eq_nil_iff_forall_not_mem.mpr zero, length_nil, Nat.min_zero,
        eq_nil_iff_forall_not_mem.mpr fun k emitted => zero k (isFree k emitted), length_nil]
    · exact placed.count proposes order
  refine ⟨count, placed.sorted, ?_, ?_, placed.noConflict⟩
  · intro k emitted
    obtain ⟨⟨lower, upper⟩, -, clear⟩ := (keys.member k).mp (isFree k emitted)
    exact ⟨lower, upper, clear⟩
  · intro i k get
    have lt := (List.getElem?_eq_some_iff.mp get).1
    have atCap : free[free.length - min task.vsst.numEntries free.length + i]? = some _ :=
      List.getElem?_eq_getElem (by omega)
    exact ⟨_, atCap, placed.capped i k _ get (by rw [← keys.eq_freeOf]; exact atCap)⟩

/-- Key 11 is reserved. -/
theorem unique_placement_ramp :
    let res := ((materializeFile (uniqueConfig 16 300) (rampFile 7 1 10 13 3)).run fun _ => 1 <<< 11).1
    res.emitted.length = 3 ∧ ∀ k ∈ res.emitted, 10 ≤ k ∧ k ≤ 13 ∧ holds (fun _ => 1 <<< 11) .reserved k = false := by
  have keys : FreeKeys (uniqueConfig 16 300) (rampFile 7 1 10 13 3) (fun _ => 1 <<< 11) [10, 12, 13] := by
    have all : ∀ k < 14, 10 ≤ k → holds (fun _ => 1 <<< 11) .reserved k = false → k ∈ [10, 12, 13] := by decide
    refine ⟨by decide, fun k => ⟨?_, fun ⟨range, _, clear⟩ => all k (Nat.lt_succ_of_le range.2) range.1 clear⟩⟩
    revert k
    decide
  have placed := unique_placement (uniqueConfig 16 300) (rampFile 7 1 10 13 3) (fun _ => 1 <<< 11) [10, 12, 13] rfl (by decide)
    (keysIncrease_plain rfl (by decide)) (fun _ => ⟨rfl, fun _ => rfl, rfl⟩) rfl keys
  exact ⟨placed.1, placed.2.2.1⟩

/-- The id 256 encodes below 255: its bit is taken and the key left out. -/
theorem unique_placement_skips : FreeKeys (uniqueConfig 1 300) (rampFile 7 1 255 256 2) (fun _ => 0) [255, 256] ∧
      ((materializeFile (uniqueConfig 1 300) (rampFile 7 1 255 256 2)).run fun _ => 0).1.emitted = [255] :=
  ⟨⟨by decide, fun k => by simp [rampFile, newTask, uniqueConfig, holds, bit]; omega⟩, by decide +kernel⟩

end VcompProof
