import Vcomp.Materialize.FileRun

namespace VcompProof

open VcompModel SharedWords Bitmap
open List hiding take

/-- The state of the unique-mode loop, from the memory the file started with. -/
structure Placed (cfg : MaterializeConfig) (lo hi target : ℕ) (m₀ : BitMemory) (s : FileState) (m : BitMemory) : Prop where
  emitting : Emitting cfg s
  selector : ∃ segIdx cap, s.selector = .unique segIdx lo hi target cap ∧ (s.emitted.length < target →
    (freeKeys cfg.map m₀ lo hi)[(freeKeys cfg.map m₀ lo hi).length - target + s.emitted.length]? = some cap)
  count : s.emitted.length ≤ target
  free : ∀ k ∈ s.emitted, k ∈ freeKeys cfg.map m₀ lo hi
  capped : ∀ i k cap : ℕ, s.emitted[i]? = some k →
    (freeKeys cfg.map m₀ lo hi)[(freeKeys cfg.map m₀ lo hi).length - target + i]? = some cap → k ≤ cap
  memory : ∀ array k, holds m array k = (holds m₀ array k || decide (array = .reserved ∧ k ∈ s.emitted))

section

variable {cfg : MaterializeConfig} {io : SstIo} {task : SSTTask} {lo hi target pos : ℕ} {m₀ m : BitMemory} {s : FileState}
  {cap : ℕ}

theorem Placed.below_cap (placed : Placed cfg lo hi target m₀ s m)
    (atCap : (freeKeys cfg.map m₀ lo hi)[(freeKeys cfg.map m₀ lo hi).length - target + s.emitted.length]? = some cap)
    {last : ℕ} (atEnd : s.emitted.getLast? = some last) : last < cap := by
  have sorted := freeKeys_sorted cfg.map m₀ lo hi
  have ne : 0 < s.emitted.length := by
    rw [List.length_pos_iff]
    intro empty
    simp [empty] at atEnd
  have atLast : s.emitted[s.emitted.length - 1]? = some last := by rw [← List.getLast?_eq_getElem?, atEnd]
  have inRange := (List.getElem?_eq_some_iff.mp atCap).1
  obtain ⟨before, atBefore⟩ : ∃ before, (freeKeys cfg.map m₀ lo hi)[(freeKeys cfg.map m₀ lo hi).length - target +
      (s.emitted.length - 1)]? = some before :=
    ⟨_, getElem?_eq_getElem (by omega)⟩
  have atMost := placed.capped _ last before atLast atBefore
  have lt := sorted_getElem?_lt sorted atBefore atCap (by omega)
  omega

theorem run_reachKey {lower k : ℕ} (inDomain : cap < cfg.map.keyDomain) (freeCap : holds m .reserved cap = false)
    (lowerCap : lower ≤ cap) :
    ∃ key, (reachKey cfg.map (max k lower) cap).run m = (key, m) ∧ lower ≤ key ∧ key ≤ cap ∧ key < cfg.map.keyDomain ∧
      holds m .reserved key = false := by
  unfold reachKey
  by_cases reached : max k lower ≥ cap
  · rw [if_pos reached]
    exact ⟨cap, rfl, lowerCap, le_rfl, inDomain, freeCap⟩
  · rw [if_neg reached, run_bind, run_nextFree]
    have inKeys : cap ∈ freeKeys cfg.map m (max k lower) cap :=
      mem_freeKeys.mpr ⟨(not_le.mp reached).le, le_rfl, inDomain, freeCap⟩
    cases front : (freeKeys cfg.map m (max k lower) cap).head? with
    | none =>
      rw [head?_eq_none_iff.mp front] at inKeys
      nomatch inKeys
    | some key =>
      obtain ⟨lowerKey, upperKey, domain, free⟩ := mem_freeKeys.mp (mem_of_head? front)
      exact ⟨key, rfl, le_trans (le_max_right k lower) lowerKey, upperKey, domain, free⟩

variable (placed : Placed cfg lo hi target m₀ s m)
include placed

theorem next_cap {i cap' k : ℕ} (belowCap : k ≤ cap)
    (atCap : (freeKeys cfg.map m₀ lo hi)[i]? = some cap) (atNext : (freeKeys cfg.map m₀ lo hi)[i + 1]? = some cap')
    (lastBelow : ∀ last, s.emitted.getLast? = some last → last < cap) :
    cap < hi ∧ (cfg.map.nextFree (cap + 1) hi).run (setKey m .reserved k) = (some cap', setKey m .reserved k) := by
  have sorted := freeKeys_sorted cfg.map m₀ lo hi
  have greater := sorted_getElem?_lt sorted atCap atNext (Nat.lt_succ_self i)
  obtain ⟨lowerNext, upperNext, domain, free⟩ := mem_freeKeys.mp (mem_of_getElem? atNext)
  obtain ⟨lowerCap, -, -, -⟩ := mem_freeKeys.mp (mem_of_getElem? atCap)
  refine ⟨by omega, ?_⟩
  rw [run_nextFree]
  have taken : ∀ x, holds (setKey m .reserved k) .reserved x =
      (holds m₀ .reserved x || decide (x ∈ s.emitted) || decide (x = k)) := by
    intro x
    rw [holds_setKey, placed.memory]
    simp
  have notEmitted : cap' ∉ s.emitted := by
    intro mem
    have lt := lt_of_getLast?_lt placed.emitting.sorted lastBelow mem
    omega
  congr 1
  apply head?_of_least (freeKeys_sorted _ _ _ _)
  · rw [mem_freeKeys, taken]
    have ne : cap' ≠ k := by omega
    simp only [free, notEmitted, ne, decide_false, Bool.or_false]
    exact ⟨greater, upperNext, domain, trivial⟩
  · intro x mem
    obtain ⟨lowerX, upperX, domainX, freeX⟩ := mem_freeKeys.mp mem
    rw [taken, Bool.or_eq_false_iff, Bool.or_eq_false_iff] at freeX
    exact sorted_next_le sorted atCap atNext (mem_freeKeys.mpr ⟨by omega, upperX, domainX, freeX.1.1⟩) lowerX

theorem Placed.select (task : SSTTask) (pos : ℕ) (fits : cfg.map.keyDomain ≤ uint64Max)
    (enough : target ≤ (freeKeys cfg.map m₀ lo hi).length) (more : s.emitted.length < target) :
    ∃ k selector, (selectKey cfg.map task pos s).run m = (.ok (k, selector), setKey m .reserved k) ∧
      k ∈ freeKeys cfg.map m₀ lo hi ∧ (∀ last, s.emitted.getLast? = some last → last < k) ∧
      (∀ cap, (freeKeys cfg.map m₀ lo hi)[(freeKeys cfg.map m₀ lo hi).length - target + s.emitted.length]? = some cap →
        k ≤ cap) ∧
      ∃ segIdx cap, selector = .unique segIdx lo hi target cap ∧ (s.emitted.length + 1 < target →
        (freeKeys cfg.map m₀ lo hi)[(freeKeys cfg.map m₀ lo hi).length - target + (s.emitted.length + 1)]? = some cap) := by
  obtain ⟨segIdx, cap, selectorEq, atCap⟩ := placed.selector
  have atCap := atCap more
  obtain ⟨lowerCap, upperCap, domainCap, freeCap⟩ := mem_freeKeys.mp (mem_of_getElem? atCap)
  have lastBelow : ∀ last, s.emitted.getLast? = some last → last < cap := fun last => placed.below_cap atCap
  have freeNow : holds m .reserved cap = false := by
    rw [placed.memory, freeCap]
    have notEmitted : cap ∉ s.emitted := fun mem => (lt_of_getLast?_lt placed.emitting.sorted lastBelow mem).false
    simp [notEmitted]
  have lowerBelow : lowerKey lo s.prevKey ≤ cap := by
    rw [placed.emitting.prev]
    cases atEnd : s.emitted.getLast? with
    | none => exact lowerCap
    | some last => exact max_le lowerCap (lastBelow last atEnd)
  have notMax : s.prevKey ≠ some uint64Max := by
    rw [placed.emitting.prev]
    intro atEnd
    have lt := lastBelow _ atEnd
    omega
  obtain ⟨proposal, segIdx', proposed⟩ : ∃ k segIdx', modelKey task segIdx pos = (k, segIdx') := ⟨_, _, rfl⟩
  obtain ⟨key, reached, lowerK, upperK, domainK, freeK⟩ := run_reachKey (k := proposal) domainCap freeNow lowerBelow
  have freeStart : holds m₀ .reserved key = false := by
    rw [placed.memory, Bool.or_eq_false_iff] at freeK
    exact freeK.1
  have aboveLo : lo ≤ lowerKey lo s.prevKey := by
    cases s.prevKey with
    | none => exact le_rfl
    | some last => exact le_max_left _ _
  have notDone : ¬ s.keysInFile ≥ target := not_le.mpr more
  have taken : (take key).run m = (true, setKey m .reserved key) := by
    rw [run_take, freeK]
    rfl
  have inKeys : key ∈ freeKeys cfg.map m₀ lo hi :=
    mem_freeKeys.mpr ⟨aboveLo.trans lowerK, upperK.trans upperCap, domainK, freeStart⟩
  have larger : ∀ last, s.emitted.getLast? = some last → last < key := by
    intro last atEnd
    rw [placed.emitting.prev, atEnd] at lowerK
    exact lt_of_lt_of_le (Nat.lt_succ_self last) ((le_max_right _ _).trans lowerK)
  have capped : ∀ cap', (freeKeys cfg.map m₀ lo hi)[(freeKeys cfg.map m₀ lo hi).length - target + s.emitted.length]? =
      some cap' →
      key ≤ cap' := by
    intro cap' get
    rw [atCap] at get
    exact (Option.some.inj get) ▸ upperK
  by_cases again : s.emitted.length + 1 < target
  · obtain ⟨cap', atNext⟩ : ∃ cap', (freeKeys cfg.map m₀ lo hi)[(freeKeys cfg.map m₀ lo hi).length - target +
        s.emitted.length + 1]? = some cap' :=
      ⟨_, getElem?_eq_getElem (by omega)⟩
    obtain ⟨belowHi, runNext⟩ := next_cap placed upperK atCap atNext lastBelow
    refine ⟨key, .unique segIdx' lo hi target cap', ?_, inKeys, larger, capped, segIdx', cap', rfl, fun _ => atNext⟩
    have againKeys : s.keysInFile + 1 < target := again
    simp only [selectKey, selectorEq, notDone, if_false, proposed, placeUnique, notMax, run_bind, reached, taken,
      againKeys, if_true, not_le.mpr belowHi, runNext, Bool.not_true, Bool.false_eq_true]
    rfl
  · refine ⟨key, .unique segIdx' lo hi target cap, ?_, inKeys, larger, capped, segIdx', cap, rfl,
      fun lt => absurd lt again⟩
    have againKeys : ¬ s.keysInFile + 1 < target := again
    simp only [selectKey, selectorEq, notDone, if_false, proposed, placeUnique, notMax, run_bind, reached, taken,
      againKeys, Bool.not_true, Bool.false_eq_true]
    rfl

theorem Placed.put (increase : KeysIncrease cfg) (writes : WritesSucceed io)
    {k : ℕ} (segIdx : ℕ) (more : s.emitted.length < target) (inKeys : k ∈ freeKeys cfg.map m₀ lo hi)
    (larger : ∀ last, s.emitted.getLast? = some last → last < k)
    (capped : ∀ cap, (freeKeys cfg.map m₀ lo hi)[(freeKeys cfg.map m₀ lo hi).length - target + s.emitted.length]? =
      some cap → k ≤ cap)
    (next : s.emitted.length + 1 < target →
      (freeKeys cfg.map m₀ lo hi)[(freeKeys cfg.map m₀ lo hi).length - target + (s.emitted.length + 1)]? = some cap) :
    ∃ s', putKey cfg io k { s with selector := .unique segIdx lo hi target cap } = (s', true) ∧
      Placed cfg lo hi target m₀ s' (setKey m .reserved k) ∧ s'.emitted.length = s.emitted.length + 1 ∧
      s'.stopReason = s.stopReason := by
  have emitting : Emitting cfg { s with selector := .unique segIdx lo hi target cap } :=
    { placed.emitting with }
  obtain ⟨s', put, emitting', emitted, selector, stop⟩ :=
    putKey_emits increase writes emitting (mem_freeKeys.mp inKeys).2.2.1 larger
  have length : s'.emitted.length = s.emitted.length + 1 := by
    rw [emitted, length_append]
    rfl
  refine ⟨s', put, ⟨emitting', ⟨segIdx, cap, selector, fun less => ?_⟩, ?_, ?_, ?_, ?_⟩, length, stop⟩
  · rw [length] at less ⊢
    exact next less
  · omega
  · intro j mem
    rw [emitted] at mem
    rcases mem_append.mp mem with old | new
    · exact placed.free j old
    · rw [mem_singleton.mp new]
      exact inKeys
  · intro i j cap' get atCap
    rw [emitted] at get
    by_cases old : i < s.emitted.length
    · rw [getElem?_append_left old] at get
      exact placed.capped i j cap' get atCap
    · have atEnd : i = s.emitted.length := by
        have lt := (List.getElem?_eq_some_iff.mp get).1
        rw [List.length_append] at lt
        change i < s.emitted.length + 1 at lt
        omega
      subst atEnd
      have eq : j = k := by simpa using get.symm
      subst eq
      exact capped cap' atCap
  · intro array j
    rw [holds_setKey, placed.memory, emitted]
    by_cases reserved : array = .reserved
    · subst reserved
      simp [Bool.or_assoc]
    · simp [reserved]

theorem Placed.loop (task : SSTTask) (left pos : ℕ) (increase : KeysIncrease cfg)
    (writes : WritesSucceed io) (fits : cfg.map.keyDomain ≤ uint64Max)
    (enough : target ≤ (freeKeys cfg.map m₀ lo hi).length) (rounds : target ≤ s.emitted.length + left)
    (running : s.stopReason = .none) :
    ∃ s' m', (fileLoop cfg io task left pos s).run m = (s', m') ∧ Placed cfg lo hi target m₀ s' m' ∧
      s'.emitted.length = target ∧ (s'.stopReason = .none ∨ s'.stopReason = .uniqueCapacityExhausted) := by
  induction left generalizing s m pos with
  | zero =>
    have count := placed.count
    exact ⟨s, m, rfl, placed, by omega, .inl running⟩
  | succ left ih =>
    by_cases more : s.emitted.length < target
    · obtain ⟨k, selector, selected, inKeys, larger, capped, segIdx, cap, rfl, next⟩ :=
        placed.select task pos fits enough more
      obtain ⟨s', put, placed', length, stop⟩ := placed.put increase writes segIdx more inKeys larger capped next
      obtain ⟨s₂, m₂, looped, result⟩ := ih placed' (pos + 1) (by omega) (stop.trans running)
      refine ⟨s₂, m₂, ?_, result⟩
      rw [fileLoop, run_bind, selected]
      simp only [put, if_true]
      exact looped
    · obtain ⟨segIdx, cap, selectorEq, -⟩ := placed.selector
      have done : s.keysInFile ≥ target := not_lt.mp more
      have count := placed.count
      refine ⟨{ s with stopReason := .uniqueCapacityExhausted }, m, ?_, ?_, ?_, .inr rfl⟩
      · rw [fileLoop, run_bind]
        simp only [selectKey, selectorEq, done, if_true]
        rfl
      · exact ⟨{ placed.emitting with }, placed.selector, placed.count, placed.free, placed.capped, placed.memory⟩
      · change s.emitted.length = target
        omega

end

variable {cfg : MaterializeConfig} {task : SSTTask} {m : BitMemory} {map : KeyBitmap}

def freeOf (map : KeyBitmap) (task : SSTTask) (m : BitMemory) : List ℕ :=
  freeKeys map m task.materializeKeyMin (clampedMax map task)

theorem run_freeInRange (m : BitMemory) (task : SSTTask) (map : KeyBitmap) :
    (freeInRange map task.materializeKeyMin (clampedMax map task)).run m = ((freeOf map task m).length, m) := by
  unfold freeInRange
  split_ifs with empty
  · simp [freeOf, freeKeys, rangeKeys, empty]
  · exact run_countFree

theorem run_planUnique_none (noKeys : min task.vsst.numEntries (freeOf map task m).length = 0) :
    (planUnique map task).run m = (.error ⟨(freeOf map task m).length, task.vsst.numEntries, .skipped,
      .uniqueCapacityExhausted, true⟩, m) := by
  have counted := run_freeInRange m task map
  rw [clampedMax] at counted
  simp only [planUnique, run_bind, counted, noKeys, if_true]
  rfl

theorem run_planUnique_some (nonzero : min task.vsst.numEntries (freeOf map task m).length ≠ 0) :
    ∃ cap, (freeOf map task m)[(freeOf map task m).length - min task.vsst.numEntries (freeOf map task m).length]? = some cap ∧
      (planUnique map task).run m =
        (.ok ⟨(freeOf map task m).length, task.vsst.numEntries - min task.vsst.numEntries (freeOf map task m).length,
          .unique 0 task.materializeKeyMin (clampedMax map task)
            (min task.vsst.numEntries (freeOf map task m).length) cap⟩, m) := by
  have counted := run_freeInRange m task map
  have atCap : (freeOf map task m)[(freeOf map task m).length - min task.vsst.numEntries (freeOf map task m).length]? =
      some _ := getElem?_eq_getElem (by omega)
  have selected := run_selectFree (m := m) map task.materializeKeyMin (clampedMax map task)
    ((freeOf map task m).length - min task.vsst.numEntries (freeOf map task m).length)
  rw [← freeOf, atCap] at selected
  refine ⟨_, atCap, ?_⟩
  rw [clampedMax] at counted selected
  simp only [planUnique, run_bind, counted, nonzero, if_false, selected]
  rfl

/-- What a file in unique mode does to the reservation. -/
structure UniqueFile (cfg : MaterializeConfig) (task : SSTTask) (m : BitMemory) (res : SSTResult) (m' : BitMemory) : Prop where
  sorted : res.emitted.Pairwise (· < ·)
  free : ∀ k ∈ res.emitted, k ∈ freeOf cfg.map task m
  count : task.vsst.plrModel.empty = false → task.materializeKeyMin ≤ task.materializeKeyMax →
    res.emitted.length = min task.vsst.numEntries (freeOf cfg.map task m).length
  capped : ∀ i k cap : ℕ, res.emitted[i]? = some k →
    (freeOf cfg.map task m)[(freeOf cfg.map task m).length - min task.vsst.numEntries (freeOf cfg.map task m).length + i]? =
      some cap → k ≤ cap
  memory : ∀ array k, holds m' array k = (holds m array k || decide (array = .reserved ∧ k ∈ res.emitted))
  noConflict : res.stopReason ≠ .uniqueReservationConflict

theorem uniqueFile_none {res : SSTResult} (nothing : res.emitted = []) (stop : res.stopReason ≠ .uniqueReservationConflict)
    (count : task.vsst.plrModel.empty = false → task.materializeKeyMin ≤ task.materializeKeyMax →
      min task.vsst.numEntries (freeOf cfg.map task m).length = 0) : UniqueFile cfg task m res m where
  sorted := by simp [nothing]
  free := by simp [nothing]
  count ne order := by rw [nothing, count ne order]; rfl
  capped i k cap get := by simp [nothing] at get
  memory array k := by simp [nothing]
  noConflict := stop

theorem run_uniqueFile (unique : cfg.selection = .unique) (increase : KeysIncrease cfg)
    (fits : cfg.map.keyDomain ≤ uint64Max) (writes : ∀ number, WritesSucceed (cfg.io number)) :
    UniqueFile cfg task m ((materializeFile cfg task).run m).1 ((materializeFile cfg task).run m).2 := by
  unfold materializeFile
  by_cases zero : task.vsst.numEntries = 0
  · rw [if_pos zero]
    exact uniqueFile_none rfl (by simp) fun _ _ => by omega
  rw [if_neg zero]
  by_cases empty : task.vsst.plrModel.empty
  · rw [if_pos empty]
    exact uniqueFile_none rfl (by simp) fun ne => by simp [empty] at ne
  rw [if_neg empty]
  by_cases reversed : task.materializeKeyMin > task.materializeKeyMax
  · rw [if_pos reversed]
    exact uniqueFile_none rfl (by simp) fun _ order => by omega
  rw [if_neg reversed, run_bind, planFile, unique]
  by_cases noKeys : min task.vsst.numEntries (freeOf cfg.map task m).length = 0
  · rw [run_planUnique_none noKeys]
    exact uniqueFile_none rfl (by simp) fun _ _ => noKeys
  obtain ⟨cap, atCap, planned⟩ := run_planUnique_some noKeys
  rw [planned]
  generalize planEq : (⟨(freeOf cfg.map task m).length, task.vsst.numEntries -
    min task.vsst.numEntries (freeOf cfg.map task m).length, .unique 0 task.materializeKeyMin (clampedMax cfg.map task)
      (min task.vsst.numEntries (freeOf cfg.map task m).length) cap⟩ : FilePlan) = plan
  have start : Placed cfg task.materializeKeyMin (clampedMax cfg.map task)
      (min task.vsst.numEntries (freeOf cfg.map task m).length) m { selector := plan.selector } m := by
    rw [← planEq]
    exact ⟨emitting_start cfg _, ⟨0, cap, rfl, fun _ => atCap⟩, Nat.zero_le _, by simp,
      fun i k cap' get => by simp at get, fun array k => by simp⟩
  obtain ⟨s, m', looped, placed, length, stop⟩ := start.loop task task.vsst.numEntries 0
    increase (writes task.realFnum) fits (min_le_right _ _) (by simp) rfl
  have keys : s.keysInFile = min task.vsst.numEntries (freeOf cfg.map task m).length := length
  have counted : s.keysInFile + plan.shortfall = task.vsst.numEntries := by
    rw [← planEq, keys]
    exact Nat.add_sub_cancel' (min_le_left _ _)
  obtain ⟨res, finished, emitted, -, stopped, -⟩ := run_finishFile cfg m' plan
    { fileNumber := task.realFnum, level := task.level } (writes task.realFnum) counted placed.emitting.skipped
    (by rw [keys]; exact noKeys)
  obtain ⟨segIdx, cap', selectorEq, -⟩ := placed.selector
  simp only [(writes task.realFnum).opens, Bool.not_true, Bool.false_eq_true, if_false, run_bind, looped, finished]
  have unclaimed : ((s.selector.claims.forM cfg.map.claim).run m').2 = m' := by
    rw [selectorEq]
    rfl
  rw [unclaimed]
  refine ⟨?_, ?_, fun _ _ => ?_, ?_, ?_, ?_⟩
  · rw [emitted]
    exact placed.emitting.sorted
  · rw [emitted]
    exact placed.free
  · rw [emitted]
    exact length
  · rw [emitted]
    exact placed.capped
  · rw [emitted]
    exact placed.memory
  · rw [stopped]
    rcases stop with noKeys | exhausted
    · simp [noKeys]
    · simp [exhausted]

end VcompProof
