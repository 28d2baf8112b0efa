import Mathlib.Algebra.Order.BigOperators.Group.List
import Vcomp.Sst.SizeEnvelope
import Vcomp.Sst.Split

namespace VcompModel

def splitRun (opts : SplitOptions) (totalEntries keysPerSst : ℕ) : (fuel : ℕ) → SplitState → Option (List ℕ)
  | 0, _ => none
  | fuel + 1, state =>
    match state.round opts totalEntries keysPerSst with
    | none => some []
    | some (cut, next) => (splitRun opts totalEntries keysPerSst fuel next).map (cut.toList ++ ·)

end VcompModel

namespace VcompProof

open VcompModel VcompModel.SSTSizeModel List

section

variable (opts : SplitOptions) {totalEntries keysPerSst : ℕ} {state : SplitState}

theorem round_eq_none (ends : state.round opts totalEntries keysPerSst = none)
    (exact : SizeCutExact totalEntries keysPerSst state) :
    totalEntries - state.lastSplit ≤ keysPerSst := by
  rw [SplitState.round] at ends
  split_ifs at ends with sized boundary cuts
  simp only [SizeCutExact] at exact
  omega

theorem splitRun_eq (pos : 0 < keysPerSst) (fuel : ℕ) (exact : SizeCutExact totalEntries keysPerSst state)
    (enough : roundsLeft totalEntries state < fuel) :
    splitRun opts totalEntries keysPerSst fuel state = some (splitLoop opts totalEntries keysPerSst fuel state) := by
  induction fuel generalizing state with
  | zero => omega
  | succ fuel ih =>
    rw [splitLoop, splitRun]
    cases taken : state.round opts totalEntries keysPerSst with
    | none => rfl
    | some result =>
      obtain ⟨exact', fewer, -⟩ := round_spec opts pos exact taken
      simp only [ih exact' (by omega), Option.map_some]

/-- No two cuts in a row, and no end, are more than `bound` entries apart. -/
def GapsWithin (bound totalEntries : ℕ) : (last : ℕ) → List ℕ → Prop
  | last, [] => totalEntries - last ≤ bound
  | last, position :: rest => position - last ≤ bound ∧ GapsWithin bound totalEntries position rest

theorem splitLoop_gaps (pos : 0 < keysPerSst) (fuel : ℕ) (exact : SizeCutExact totalEntries keysPerSst state)
    (enough : roundsLeft totalEntries state < fuel) :
    GapsWithin keysPerSst totalEntries state.lastSplit (splitLoop opts totalEntries keysPerSst fuel state) := by
  induction fuel generalizing state with
  | zero => omega
  | succ fuel ih =>
    rw [splitLoop]
    cases taken : state.round opts totalEntries keysPerSst with
    | none => exact round_eq_none opts taken exact
    | some result =>
      obtain ⟨cut, next⟩ := result
      obtain ⟨exact', fewer, cuts, last⟩ := round_spec opts pos exact taken
      have rest := ih exact' (by omega)
      rw [last] at rest
      cases cut with
      | none => exact rest
      | some position => exact ⟨(cuts position rfl).2.2, rest⟩

end

section

variable (opts : SplitOptions) (totalEntries : ℕ) (gps : List ℕ)

theorem first_rounds : roundsLeft totalEntries ⟨0, opts.keysPerSst, 0, gps⟩ < totalEntries + gps.length + 1 := by
  simp only [roundsLeft]
  omega

theorem splitPositions_gaps : GapsWithin opts.keysPerSst totalEntries 0 (splitPositions opts totalEntries gps) :=
  splitLoop_gaps opts (keysPerSst_pos opts) _ (first_exact opts totalEntries gps) (first_rounds opts totalEntries gps)

theorem splitRun_splitPositions :
    splitRun opts totalEntries opts.keysPerSst (totalEntries + gps.length + 1) ⟨0, opts.keysPerSst, 0, gps⟩ =
      some (splitPositions opts totalEntries gps) :=
  splitRun_eq opts (keysPerSst_pos opts) _ (first_exact opts totalEntries gps) (first_rounds opts totalEntries gps)

end

variable (env : KMVEnv) (opts : SplitOptions) (plr : PLRModel) (inputs : Option InputList) {totalEntries : ℕ}
  (globalMin globalMax : ℕ)

theorem splitOutput_numEntries (first last : Bool) {posStart posEnd : ℕ} (order : posStart < posEnd)
    (inside : posEnd ≤ totalEntries) :
    ∃ out, splitOutput env opts plr inputs totalEntries globalMin globalMax first last posStart posEnd = some out ∧
      out.numEntries = posEnd - posStart ∧ out.sizeBytes = opts.bytes.estimate (posEnd - posStart) := by
  rw [splitOutput, if_neg (by omega)]
  exact ⟨_, rfl, rfl, rfl⟩

theorem splitOutputs_numEntries {bound : ℕ} (first : Bool) {posStart : ℕ} {positions : List ℕ}
    (sorted : (posStart :: positions).Pairwise (· < ·)) (inside : ∀ position ∈ posStart :: positions, position < totalEntries)
    (gaps : GapsWithin bound totalEntries posStart positions) :
    ((splitOutputs env opts plr inputs totalEntries globalMin globalMax first posStart positions).map (·.numEntries)).sum =
        totalEntries - posStart ∧
      ∀ out ∈ splitOutputs env opts plr inputs totalEntries globalMin globalMax first posStart positions,
        1 ≤ out.numEntries ∧ out.numEntries ≤ bound ∧ out.sizeBytes = opts.bytes.estimate out.numEntries := by
  induction positions generalizing first posStart with
  | nil =>
    have start : posStart < totalEntries := inside posStart mem_cons_self
    obtain ⟨out, made, entries, size⟩ := splitOutput_numEntries env opts plr inputs globalMin globalMax first true start le_rfl
    rw [splitOutputs, made, Option.toList_some]
    refine ⟨by simpa using entries, fun o mem => ?_⟩
    rw [mem_singleton.mp mem, entries]
    exact ⟨by omega, gaps, size⟩
  | cons posEnd rest ih =>
    obtain ⟨ahead, sorted'⟩ := pairwise_cons.mp sorted
    obtain ⟨start, inside'⟩ := forall_mem_cons.mp inside
    have order : posStart < posEnd := ahead posEnd mem_cons_self
    have stop : posEnd < totalEntries := inside' posEnd mem_cons_self
    obtain ⟨out, made, entries, size⟩ :=
      splitOutput_numEntries env opts plr inputs globalMin globalMax first false order stop.le
    obtain ⟨total, each⟩ := ih false sorted' inside' gaps.2
    rw [splitOutputs, made, Option.toList_some]
    refine ⟨?_, ?_⟩
    · rw [map_append, sum_append, total]
      simp only [map_cons, map_nil, sum_cons, sum_nil, entries]
      omega
    · intro o mem
      rcases mem_append.mp mem with here | later
      · rw [mem_singleton.mp here, entries]
        exact ⟨by omega, gaps.1, size⟩
      · exact each o later

variable {opts : SplitOptions}

theorem keysPerSst_eq (opts : SplitOptions) : opts.keysPerSst = max 1 (opts.bytes.maxEntries opts.maxSstSize) := by
  simp only [SplitOptions.keysPerSst]
  split_ifs <;> omega

theorem maxSstSize_eq (level : 1 ≤ opts.targetLevel) :
    opts.maxSstSize = if opts.grandparentBoundaries = [] then
      opts.targetSstSize else min (2 * opts.targetSstSize) uint64Max := by
  have twice : uint64Max = 2 * (uint64Max / 2) + 1 := by decide
  rw [SplitOptions.maxSstSize]
  by_cases none : opts.grandparentBoundaries = []
  · rw [if_neg (by simp [none]), if_pos none]
  · rw [if_pos ⟨none, by omega⟩, if_neg none]
    split_ifs <;> omega

theorem bytes_built (average : 1 ≤ opts.avgEntrySize) (word : opts.avgEntrySize < word64)
    (supplied : ∀ model, opts.sizeModel = some model → model.Built ∧ model.valid) : opts.bytes.Built ∧ opts.bytes.valid := by
  rw [SplitOptions.bytes]
  cases chosen : opts.sizeModel with
  | none =>
    refine ⟨.logical word, ?_⟩
    simp [SSTSizeModel.logical, SSTSizeModel.valid, show opts.avgEntrySize ≠ 0 by omega]
  | some model => exact supplied model chosen

theorem estimate_within_cap (built : opts.bytes.Built) (valid : opts.bytes.valid)
    (cap : opts.maxSstSize < word64) {entries : ℕ}
    (ne : 1 ≤ entries) (word : entries < word64) (within : entries ≤ opts.keysPerSst) :
    opts.bytes.estimate entries ≤ max (opts.bytes.estimate 1) opts.maxSstSize := by
  rw [keysPerSst_eq] at within
  by_cases fits : entries ≤ opts.bytes.maxEntries opts.maxSstSize
  · have galois := estimate_galois (built_proper built) valid (Nat.le_sub_one_of_lt word) (Nat.le_sub_one_of_lt cap)
    exact le_max_of_le_right (galois.mpr fits)
  · obtain rfl : entries = 1 := by omega
    exact le_max_left _ _

/-- The cuts increase inside, every entry is in exactly one non-empty output, and only single entries exceed the cap,
for the positions of an exact `Predict` and for any others. -/
theorem splitIntoSSTs_conserves (env : KMVEnv) (opts : SplitOptions) (plr : PLRModel) (inputs : Option InputList)
    {totalEntries : ℕ} (globalMin globalMax : ℕ) (gps : List ℕ) (fitted : plr.empty = false) (entries : 1 ≤ totalEntries)
    (word : totalEntries < word64) (target : opts.targetSstSize < word64)
    (average : 1 ≤ opts.avgEntrySize ∧ opts.avgEntrySize < word64)
    (supplied : ∀ model, opts.sizeModel = some model → model.Built ∧ model.valid) :
    splitIntoSSTs env opts plr inputs totalEntries globalMin globalMax =
        splitIntoSSTsAt env opts plr inputs totalEntries globalMin globalMax
          (opts.gpPositions plr totalEntries globalMin globalMax) ∧
      (∃ fuel, splitRun opts totalEntries opts.keysPerSst fuel ⟨0, opts.keysPerSst, 0, gps⟩ =
        some (splitPositions opts totalEntries gps)) ∧
      (splitPositions opts totalEntries gps).Pairwise (· < ·) ∧
      (∀ position ∈ splitPositions opts totalEntries gps, 0 < position ∧ position < totalEntries) ∧
      (∀ out ∈ splitIntoSSTsAt env opts plr inputs totalEntries globalMin globalMax gps, 1 ≤ out.numEntries) ∧
      ((splitIntoSSTsAt env opts plr inputs totalEntries globalMin globalMax gps).map (·.numEntries)).sum = totalEntries ∧
      (1 ≤ opts.targetLevel → ∃ cap,
        cap = (if opts.grandparentBoundaries = [] then opts.targetSstSize else min (2 * opts.targetSstSize) uint64Max) ∧
          ∀ out ∈ splitIntoSSTsAt env opts plr inputs totalEntries globalMin globalMax gps,
            out.numEntries ≤ max 1 (opts.bytes.maxEntries cap) ∧ out.sizeBytes ≤ max (opts.bytes.estimate 1) cap) := by
  obtain ⟨built, valid⟩ := bytes_built average.1 average.2 supplied
  obtain ⟨sorted, inside⟩ := splitPositions_pairwise opts totalEntries gps
  obtain ⟨above, sorted'⟩ := pairwise_cons.mp sorted
  have gaps := splitPositions_gaps opts totalEntries gps
  obtain ⟨total, each⟩ := splitOutputs_numEntries env opts plr inputs globalMin globalMax true sorted
    (forall_mem_cons.mpr ⟨entries, inside⟩) gaps
  refine ⟨rfl, ⟨_, splitRun_splitPositions opts totalEntries gps⟩, sorted',
    fun position mem => ⟨above position mem, inside position mem⟩, ?_⟩
  rw [splitIntoSSTsAt, if_neg (by simp [fitted]; omega), if_neg (by omega), valid, Bool.not_true, if_neg Bool.false_ne_true]
  split
  next flat =>
    refine ⟨by simpa using entries, by simp, fun level => ?_⟩
    omega
  next deep =>
    refine ⟨fun out mem => (each out mem).1, by simpa using total, fun level => ⟨_, rfl, fun out mem => ?_⟩⟩
    obtain ⟨ne, within, size⟩ := each out mem
    have cap : opts.maxSstSize < word64 := by
      have narrow : uint64Max < word64 := by decide
      rw [maxSstSize_eq level]
      split_ifs <;> omega
    have word' : out.numEntries < word64 := by
      have part : out.numEntries ≤ totalEntries := by
        rw [← Nat.sub_zero totalEntries, ← total]
        exact le_sum_of_mem (mem_map_of_mem mem)
      omega
    rw [← maxSstSize_eq level, ← keysPerSst_eq, size]
    exact ⟨within, estimate_within_cap built valid cap ne word' within⟩

theorem splitIntoSSTs_conserves_grandparents : ∃ opts : SplitOptions,
    splitPositions opts 10 [0, 3, 3, 5, 10] = [3, 5, 9] ∧
      ((splitIntoSSTsAt {} opts ⟨[⟨0, 9, 1, 0⟩]⟩ none 10 0 9 [0, 3, 3, 5, 10]).map (·.numEntries)).sum = 10 := by
  refine ⟨⟨2, 1, 1, [3], 0, none⟩, by decide, ?_⟩
  exact (splitIntoSSTs_conserves {} ⟨2, 1, 1, [3], 0, none⟩ ⟨[⟨0, 9, 1, 0⟩]⟩ none 0 9 [0, 3, 3, 5, 10] rfl (by decide)
    (by decide)
    (by decide) (by decide) (by simp)).2.2.2.2.2.1

end VcompProof
