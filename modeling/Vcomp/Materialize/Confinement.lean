import Mathlib.Data.Prod.Lex
import Vcomp.Materialize.FileRun
import Vcomp.Materialize.Phase

namespace VcompProof

open VcompModel SharedWords Bitmap SortBy Option
open List hiding take lookup

def rangeFoot (lo hi : ℕ) : Footprint (BitArray × ℕ) := fun word b => b < 64 ∧ lo ≤ 64 * word.2 + b ∧ 64 * word.2 + b ≤ hi

variable {σ α : Type} {lo hi first last : ℕ} {map : KeyBitmap} {array : BitArray} {word : ℕ}
  {S : Footprint (BitArray × ℕ)} {mask v v' : BitVec 64} {place : BitArray × ℕ} {P : σ → Prop}
  {fn : ℕ → BitVec 64 → σ → Access (Bool × σ)}

theorem mask_inside {i b : ℕ} (inWords : i ∈ wordsOf first last) (order : first ≤ last) (lower : lo ≤ first)
    (upper : last ≤ hi) (set : (wordMask first last i).getLsbD b = true) : rangeFoot lo hi (array, i) b := by
  have lt : b < 64 := BitVec.lt_of_getLsbD set
  obtain ⟨lowerWord, upperWord⟩ := (mem_wordsOf order).mp inWords
  rw [getLsbD_wordMask lt lowerWord upperWord, decide_eq_true_iff] at set
  exact ⟨lt, by simp only; omega, by simp only; omega⟩

theorem masked_eq
    (inside : ∀ b, mask.getLsbD b = true → S place b) (agree : WordAgree (S place) v v') : mask &&& v = mask &&& v' := by
  apply bitsOf_congr
  intro b
  rw [BitVec.getLsbD_and, BitVec.getLsbD_and]
  cases set : mask.getLsbD b with
  | false => rfl
  | true => rw [agree b (inside b set)]

theorem masked_not_eq (inside : ∀ b, mask.getLsbD b = true → S place b) (agree : WordAgree (S place) v v') :
    mask &&& ~~~v = mask &&& ~~~v' := by
  apply masked_eq inside
  intro b inFoot
  rw [BitVec.getLsbD_not, BitVec.getLsbD_not, agree b inFoot]

theorem confined_walkWords {list : List ℕ} {acc : σ}
    (step : ∀ i ∈ list, ∀ acc, P acc → (fn i (wordMask first last i) acc).Confined S fun r => P r.2) (start : P acc) :
    (walkWords first last fn list acc).Confined S P := by
  induction list generalizing acc with
  | nil => exact confined_done start
  | cons i list ih =>
    apply (step i mem_cons_self acc start).bind
    intro r holds
    obtain ⟨more, acc'⟩ := r
    cases more with
    | false => exact confined_done holds
    | true => exact ih (fun j mem => step j (mem_cons_of_mem i mem)) holds

theorem confined_forEachWord {init : σ} (lower : lo ≤ first) (upper : last ≤ hi)
    (step : ∀ i mask, (∀ b, mask.getLsbD b = true → first ≤ 64 * i + b ∧ 64 * i + b ≤ last) →
      (∀ b array, mask.getLsbD b = true → rangeFoot lo hi (array, i) b) →
      ∀ acc, P acc → (fn i mask acc).Confined (rangeFoot lo hi) fun r => P r.2) (start : P init) :
    (map.forEachWord first last init fn).Confined (rangeFoot lo hi) P := by
  rw [forEachWord_eq]
  split_ifs with outside
  · exact confined_done start
  · apply confined_walkWords
    · intro i inWords acc holds
      have order : first ≤ min last (map.keyDomain - 1) := by omega
      apply step i _ _ _ acc holds
      · intro b set
        obtain ⟨lowerWord, upperWord⟩ := (mem_wordsOf order).mp inWords
        rw [getLsbD_wordMask (BitVec.lt_of_getLsbD set) lowerWord upperWord, decide_eq_true_iff] at set
        omega
      · intro b array set
        exact mask_inside inWords order lower ((min_le_left _ _).trans upper) set
    · exact start

theorem confined_loadFree {Q : α → Prop} (g : BitVec 64 → Access α)
    (inside : ∀ b array, mask.getLsbD b = true → rangeFoot lo hi (array, word) b)
    (rest : ∀ candidates, (∀ b, candidates.getLsbD b = true → mask.getLsbD b = true) →
      (g candidates).Confined (rangeFoot lo hi) Q) :
    (loadWord .reserved word >>= fun v => g (mask &&& ~~~v)).Confined (rangeFoot lo hi) Q := by
  apply Related.load
  intro v v' agree
  change Related _ _ (g (mask &&& ~~~v)) (g (mask &&& ~~~v'))
  rw [masked_not_eq (fun b => inside b .reserved) agree]
  apply rest
  intro b set
  rw [BitVec.getLsbD_and, Bool.and_eq_true] at set
  exact set.1

theorem confined_countFree (lower : lo ≤ first) (upper : last ≤ hi) :
    (map.countFree first last).Confined (rangeFoot lo hi) fun _ => True := by
  apply confined_forEachWord lower upper _ trivial
  intro i mask _ inside acc _
  exact confined_loadFree (fun candidates => pure (true, acc + popCount candidates)) inside
    fun _ _ => confined_done trivial

def FoundIn (first last : ℕ) (key : Option ℕ) : Prop := ∀ k, key = some k → first ≤ k ∧ k ≤ last

theorem trailingZeros_inside {i : ℕ} {candidates : BitVec 64} (nonzero : candidates ≠ 0)
    (inside : ∀ b, candidates.getLsbD b = true → first ≤ 64 * i + b ∧ 64 * i + b ≤ last) :
    first ≤ 64 * i + trailingZeros candidates ∧ 64 * i + trailingZeros candidates ≤ last := by
  cases bits : bitsOf candidates with
  | nil => exact absurd (bitsOf_eq_nil.mp bits) nonzero
  | cons b rest =>
    rw [trailingZeros_eq bits]
    exact inside b (mem_bitsOf.mp (by simp [bits]))

theorem confined_nextFree (lower : lo ≤ first) (upper : last ≤ hi) :
    (map.nextFree first last).Confined (rangeFoot lo hi) (FoundIn first last) := by
  apply confined_forEachWord lower upper _ (fun k clear => nomatch clear)
  intro i mask inRange inside acc _
  apply confined_loadFree (fun candidates =>
    if candidates = 0 then pure (true, none) else pure (false, some (64 * i + trailingZeros candidates))) inside
  intro candidates sub
  split_ifs with clear
  · exact confined_done fun k found => nomatch found
  · apply confined_done
    intro k found
    cases found
    exact trailingZeros_inside clear fun b set => inRange b (sub b set)

theorem confined_selectFree (rank : ℕ) (lower : lo ≤ first) (upper : last ≤ hi) :
    (map.selectFree first last rank).Confined (rangeFoot lo hi) (FoundIn first last) := by
  apply Prog.Confined.bind (Q := fun state : ℕ × Option ℕ => FoundIn first last state.2)
  · apply confined_forEachWord lower upper _ (fun k clear => nomatch clear)
    intro i mask inRange inside acc _
    apply confined_loadFree (fun candidates =>
      if acc.1 ≥ popCount candidates then pure (true, (acc.1 - popCount candidates, none))
      else pure (false, (acc.1, some (64 * i + trailingZeros (clearLowest acc.1 candidates))))) inside
    intro candidates sub
    split_ifs with past
    · exact confined_done fun k found => nomatch found
    · apply confined_done
      intro k found
      cases found
      have lt : acc.1 < (bitsOf candidates).length := not_le.mp past
      rw [trailingZeros_clearLowest lt]
      exact inRange _ (sub _ (mem_bitsOf.mp (getElem_mem lt)))
  · intro state found
    exact confined_done found

theorem keyMask_inside {key : ℕ} (lower : lo ≤ key) (upper : key ≤ hi) {b : ℕ}
    (set : (keyMask key).getLsbD b = true) : rangeFoot lo hi (array, key / 64) b := by
  rw [getLsbD_keyMask, decide_eq_true_iff] at set
  subst set
  exact ⟨Nat.mod_lt _ (by decide), by simp only; omega, by simp only; omega⟩

theorem confined_take {key : ℕ} (lower : lo ≤ key) (upper : key ≤ hi) :
    (take key).Confined (rangeFoot lo hi) fun _ => True := by
  apply Related.fetchOr
  · intro b set
    exact keyMask_inside lower upper set
  · intro v v' agree
    have eq : v &&& keyMask key = v' &&& keyMask key := by
      rw [BitVec.and_comm v, BitVec.and_comm v']
      exact masked_eq (fun b set => keyMask_inside lower upper set) agree
    exact .done ⟨by rw [eq], trivial⟩

section

variable {tasks : List SSTTask}

def TasksApart (a b : SSTTask) : Prop :=
  ∀ key < uint64Max, a.materializeKeyMin ≤ key → key ≤ a.materializeKeyMax → b.materializeKeyMin ≤ key →
    key ≤ b.materializeKeyMax → False

theorem startAfter_past (task : SSTTask) (prevKeyMax : ℕ) :
    prevKeyMax < (task.startAfter prevKeyMax).materializeKeyMin ∨
      (task.startAfter prevKeyMax).materializeKeyMin = uint64Max := by
  simp only [SSTTask.startAfter]
  split_ifs with overlap full
  · exact .inr rfl
  · exact .inl (Nat.lt_succ_self _)
  · exact .inl (not_le.mp overlap)

theorem halfOpenRanges_levels (current : Option ℕ) (prevKeyMax : ℕ) :
    (halfOpenRanges current prevKeyMax tasks).map (·.level) = tasks.map (·.level) := by
  induction tasks generalizing current prevKeyMax with
  | nil => rfl
  | cons task rest ih =>
    unfold halfOpenRanges
    split_ifs with fresh
    · rw [map_cons, ih, map_cons]
    · rw [map_cons, ih, map_cons]
      rfl

theorem halfOpenRanges_after {current prevKeyMax : ℕ} (sorted : (tasks.map (·.level)).Pairwise (· ≤ ·))
    (above : ∀ task ∈ tasks, current ≤ task.level) {task : SSTTask}
    (mem : task ∈ halfOpenRanges (some current) prevKeyMax tasks) (eq : task.level = current) (deep : current ≠ 0) :
    prevKeyMax < task.materializeKeyMin ∨ task.materializeKeyMin = uint64Max := by
  induction tasks generalizing prevKeyMax with
  | nil => simp [halfOpenRanges] at mem
  | cons first rest ih =>
    obtain ⟨firstLeast, sortedRest⟩ := pairwise_cons.mp sorted
    have aboveRest : ∀ task ∈ rest, current ≤ task.level := fun task inRest => above task (mem_cons_of_mem _ inRest)
    unfold halfOpenRanges at mem
    split_ifs at mem with fresh
    · -- The level has changed, so it is larger, and no task of the open level follows.
      have larger : current < first.level := by
        have least := above first mem_cons_self
        rcases fresh with zero | ne
        · omega
        · exact lt_of_le_of_ne least fun equal => ne (congrArg some equal)
      rcases mem_cons.mp mem with rfl | later
      · omega
      · have level : task.level ∈ rest.map (·.level) := by
          rw [← halfOpenRanges_levels (some first.level) first.materializeKeyMax]
          exact mem_map_of_mem later
        have least : first.level ≤ task.level := firstLeast _ level
        omega
    · rcases mem_cons.mp mem with rfl | later
      · exact startAfter_past first prevKeyMax
      · rcases ih sortedRest aboveRest later with past | full
        · exact .inl (lt_of_le_of_lt (le_max_left _ _) past)
        · exact .inr full

def LevelTasksApart (tasks : List SSTTask) : Prop :=
  tasks.Pairwise fun a b => a.level = b.level → a.level ≠ 0 → TasksApart a b

theorem halfOpenRanges_apart (current : Option ℕ) (prevKeyMax : ℕ) (sorted : (tasks.map (·.level)).Pairwise (· ≤ ·)) :
    LevelTasksApart (halfOpenRanges current prevKeyMax tasks) := by
  induction tasks generalizing current prevKeyMax with
  | nil => exact List.Pairwise.nil
  | cons first rest ih =>
    obtain ⟨firstLeast, sortedRest⟩ := pairwise_cons.mp sorted
    have aboveRest : ∀ task ∈ rest, first.level ≤ task.level := fun task inRest =>
      firstLeast _ (mem_map_of_mem inRest)
    unfold halfOpenRanges
    split_ifs with fresh
    · apply List.Pairwise.cons _ (ih _ _ sortedRest)
      intro b mem eq deep key notLast _ upper lower _
      rcases halfOpenRanges_after sortedRest aboveRest mem eq.symm deep with past | full <;> omega
    · obtain ⟨-, started⟩ := not_or.mp fresh
      rw [not_not.mp started]
      apply List.Pairwise.cons _ (ih _ _ sortedRest)
      intro b mem eq deep key notLast _ upper lower _
      have atMost : key ≤ max prevKeyMax first.materializeKeyMax := le_trans upper (le_max_right _ _)
      rcases halfOpenRanges_after sortedRest aboveRest mem eq.symm deep with past | full <;> omega

theorem taskBefore_comparator : Comparator taskBefore := by
  apply Comparator.of_rank fun task : SSTTask =>
    toLex (task.level, toLex (task.vsst.keyMin, toLex (task.vsst.keyMax, task.realFnum)))
  intro a b
  simp only [taskBefore, Prod.Lex.toLex_lt_toLex]
  split_ifs with levels mins maxs
  · simp [levels]
  · simp_all
  · simp_all
  · simp_all

theorem taskOrder_levels (files : List SSTTask) : ((taskOrder files).map (·.level)).Pairwise (· ≤ ·) := by
  rw [pairwise_map]
  apply (sortBy_sorted taskBefore_comparator files).imp
  intro a b notBefore
  simp only [taskBefore] at notBefore
  split_ifs at notBefore with levels
  · simpa using notBefore
  all_goals exact (not_not.mp levels).ge

end

variable {cfg : MaterializeConfig} {tasks : List SSTTask} {requestedWorkers : ℕ} {deepFirst : Bool}
  {group : List SSTTask}

theorem mem_phaseGroups : group ∈ phaseGroups cfg deepFirst tasks ↔ group ∈ levelGroups tasks := by
  unfold phaseGroups
  split_ifs
  · exact mem_reverse
  · exact Iff.rfl

theorem phaseGroups_perm : (phaseGroups cfg deepFirst tasks).flatten.Perm tasks := by
  have straight : (levelGroups tasks).flatten = tasks := flatten_splitBy _ _
  unfold phaseGroups
  split_ifs
  · exact ((reverse_perm _).flatten).trans (List.Perm.of_eq straight)
  · exact List.Perm.of_eq straight

theorem levelGroups_level (mem : group ∈ levelGroups tasks) {a b : SSTTask} (inA : a ∈ group)
    (inB : b ∈ group) : a.level = b.level := by
  have chain := isChain_of_mem_splitBy mem
  have pairs : group.Pairwise fun a b => a.level = b.level := by
    apply List.IsChain.pairwise
    simpa using chain
  have : Std.Symm fun a b : SSTTask => a.level = b.level := ⟨fun _ _ eq => eq.symm⟩
  exact pairs.forall_of_forall (fun task _ => (rfl : task.level = task.level)) inA inB

theorem phase_serializable (fits : cfg.map.keyDomain ≤ uint64Max) (pos : 0 < cfg.map.keyDomain)
    (apart : LevelTasksApart tasks)
    (within : ∀ task ∈ tasks, (materializeFile cfg task).Within (rangeFoot task.materializeKeyMin (clampedMax cfg.map task)))
    {g : Group 64 (BitArray × ℕ) SSTResult}
    (mem : g ∈ (phaseGroups cfg deepFirst tasks).map (workerGroup cfg requestedWorkers tasks.length)) : g.Serializable := by
  obtain ⟨group, inGroups, rfl⟩ := mem_map.mp mem
  have inLevels := mem_phaseGroups.mp inGroups
  have flat : (levelGroups tasks).flatten = tasks := flatten_splitBy _ _
  have inTasks : ∀ task ∈ group, task ∈ tasks := by
    intro task inGroup
    rw [← flat]
    exact mem_flatten_of_mem inLevels inGroup
  have apartGroup : LevelTasksApart group := by
    unfold LevelTasksApart at apart
    rw [← flat, pairwise_flatten] at apart
    exact apart.1 group inLevels
  cases tasksEq : group with
  | nil => exact absurd (tasksEq ▸ inLevels) (nil_notMem_splitBy _ _)
  | cons first rest =>
    have many : 0 < tasks.length := length_pos_of_mem (inTasks first (by simp [tasksEq]))
    rw [← tasksEq]
    by_cases zero : first.level = 0
    · have one : groupWorkers (min (max 1 requestedWorkers) tasks.length) group = 1 := by simp [groupWorkers, tasksEq, zero]
      exact ⟨by simp [workerGroup, one], .inl one⟩
    · have workers : 0 < groupWorkers (min (max 1 requestedWorkers) tasks.length) group := by
        have length : 0 < group.length := by simp [tasksEq]
        simp only [groupWorkers, tasksEq, head?_cons, map_some, some.injEq, zero, if_false]
        simp only [tasksEq] at length
        omega
      refine ⟨workers, .inr ⟨fun k => (group[k]?.map fun task =>
        rangeFoot task.materializeKeyMin (clampedMax cfg.map task)).getD fun _ _ => False, ?_, ?_⟩⟩
      · intro k p get
        simp only [workerGroup, getElem?_map, map_eq_some_iff] at get
        obtain ⟨task, atTask, rfl⟩ := get
        simp only [atTask, map_some, getD_some]
        exact within task (inTasks task (mem_of_getElem? atTask))
      · intro i j belowI belowJ ne word b inI inJ
        simp only [workerGroup, length_map] at belowI belowJ
        simp only [getElem?_eq_getElem belowI, getElem?_eq_getElem belowJ, map_some, getD_some] at inI inJ
        have level : ∀ k (lt : k < group.length), group[k].level ≠ 0 := by
          intro k lt
          rw [levelGroups_level inLevels (getElem_mem lt) (by simp [tasksEq] : first ∈ group)]
          exact zero
        have domain : ∀ k (lt : k < group.length), clampedMax cfg.map group[k] < uint64Max ∧
            clampedMax cfg.map group[k] ≤ group[k].materializeKeyMax := by
          intro k lt
          refine ⟨lt_of_lt_of_le (clampedMax_lt pos) fits, ?_⟩
          unfold clampedMax
          split_ifs <;> omega
        have eq := levelGroups_level inLevels (getElem_mem belowI) (getElem_mem belowJ)
        have domainI := domain i belowI
        have domainJ := domain j belowJ
        obtain ⟨-, lowerI, upperI⟩ := inI
        obtain ⟨-, lowerJ, upperJ⟩ := inJ
        rcases Nat.lt_or_gt_of_ne ne with less | greater
        · exact pairwise_iff_getElem.mp apartGroup i j belowI belowJ less eq (level i belowI) (64 * word.2 + b)
            (by omega) lowerI (by omega) lowerJ (by omega)
        · exact pairwise_iff_getElem.mp apartGroup j i belowJ belowI greater eq.symm (level j belowJ) (64 * word.2 + b)
            (by omega) lowerJ (by omega) lowerI (by omega)

end VcompProof
