import Vcomp.Sst.Merge

namespace VcompModel

def scalePLRPositions (plr : PLRModel) (scale : ℚ) : PLRModel :=
  if plr.empty ∨ |scale - 1| < flatSlope then plr
  else ⟨plr.segments.map fun seg => { seg with slope := seg.slope * scale, intercept := seg.intercept * scale }⟩

/-- A missing size model stands for logical bytes. -/
structure SplitOptions where
  targetSstSize : ℕ
  avgEntrySize : ℕ
  targetLevel : ℤ
  grandparentBoundaries : List ℕ
  kmvSamples : ℕ
  sizeModel : Option SSTSizeModel

def SplitOptions.bytes (opts : SplitOptions) : SSTSizeModel :=
  opts.sizeModel.getD (.logical opts.avgEntrySize)

/-- Files may grow to twice the target before the hard cut when there are grandparents. -/
def SplitOptions.maxSstSize (opts : SplitOptions) : ℕ :=
  if opts.grandparentBoundaries ≠ [] ∧ opts.targetLevel > 0 then
    if opts.targetSstSize > uint64Max / 2 then uint64Max else 2 * opts.targetSstSize
  else opts.targetSstSize

def SplitOptions.keysPerSst (opts : SplitOptions) : ℕ :=
  let keysPerSst := opts.bytes.maxEntries opts.maxSstSize
  if keysPerSst = 0 then 1 else keysPerSst

def SplitOptions.gpPositions (opts : SplitOptions) (plr : PLRModel) (totalEntries globalMin globalMax : ℕ) : List ℕ :=
  if opts.grandparentBoundaries ≠ [] ∧ opts.targetLevel > 0 then
    (opts.grandparentBoundaries.filterMap fun bkey =>
      if bkey ≤ globalMin ∨ bkey ≥ globalMax then none
      else
        let pos := plr.predict bkey
        if pos > 0 ∧ pos < totalEntries then some (stdRound pos).toNat else none).insertionSort (· ≤ ·)
  else []

/-- Local variables of the split loop; `gps` is `gp_positions` from `gp_idx` on. -/
structure SplitState where
  lastSplit : ℕ
  nextSizeSplit : ℕ
  switched : ℕ
  gps : List ℕ
  deriving DecidableEq, Repr

def SplitState.cut (totalEntries keysPerSst position : ℕ) (gps : List ℕ) : SplitState :=
  { lastSplit := position
    nextSizeSplit := if keysPerSst > totalEntries - position then totalEntries else position + keysPerSst
    switched := 0
    gps := gps }

/-- 50% of the target plus 5% a boundary, at most 90%. -/
def SplitState.cutsAtBoundary (opts : SplitOptions) (state : SplitState) (nextGp : ℕ) : Bool :=
  let curBytes := opts.bytes.estimate (nextGp - state.lastSplit)
  let pct := 50 + min ((state.switched + 1) * 5) 40
  decide (nextGp > state.lastSplit ∧ curBytes ≥ opts.targetSstSize * pct / 100)

/-- One round of the loop: the cut it makes, if any, and the state after it. -/
def SplitState.round (opts : SplitOptions) (totalEntries keysPerSst : ℕ) (state : SplitState) :
    Option (Option ℕ × SplitState) :=
  let nextGp := state.gps.headD totalEntries
  if state.nextSizeSplit ≤ nextGp ∧ state.nextSizeSplit < totalEntries then
    let position := state.nextSizeSplit
    some (some position, .cut totalEntries keysPerSst position (state.gps.dropWhile (· ≤ position)))
  else if nextGp < totalEntries then
    if state.cutsAtBoundary opts nextGp then some (some nextGp, .cut totalEntries keysPerSst nextGp state.gps.tail)
    else some (none, { state with switched := state.switched + 1, gps := state.gps.tail })
  else none

/-- A round passes a boundary or moves `next_size_split`, so the fuel is enough (`splitRun_eq`). -/
def splitLoop (opts : SplitOptions) (totalEntries keysPerSst : ℕ) : (fuel : ℕ) → SplitState → List ℕ
  | 0, _ => []
  | fuel + 1, state =>
    match state.round opts totalEntries keysPerSst with
    | none => []
    | some (cut, next) => cut.toList ++ splitLoop opts totalEntries keysPerSst fuel next

def splitPositions (opts : SplitOptions) (totalEntries : ℕ) (gps : List ℕ) : List ℕ :=
  splitLoop opts totalEntries opts.keysPerSst (totalEntries + gps.length + 1) ⟨0, opts.keysPerSst, 0, gps⟩

def clipSegments (keyStart keyEnd posStart : ℕ) : List PLRSegment → List PLRSegment
  | [] => []
  | seg :: rest =>
    if seg.keyEnd < keyStart then clipSegments keyStart keyEnd posStart rest
    else if seg.keyStart > keyEnd then []
    else
      { seg with
        keyStart := max seg.keyStart keyStart
        keyEnd := min seg.keyEnd keyEnd
        intercept := seg.intercept - posStart } :: clipSegments keyStart keyEnd posStart rest

variable (env : KMVEnv) (opts : SplitOptions) (plr : PLRModel) (inputs : Option InputList)
  (totalEntries globalMin globalMax : ℕ)

def outputRanges (keyMin keyMax numEntries : ℕ) : List KMVRangeSketch :=
  match inputs with
  | none => []
  | some inputs => mergeKMVRangeSketchesForOutput env inputs keyMin keyMax numEntries opts.kmvSamples 0

def splitOutput (first last : Bool) (posStart posEnd : ℕ) : Option VirtualSST :=
  if posStart ≥ totalEntries ∨ posEnd ≤ posStart then none
  else
    let keyStart := if first then globalMin else plr.inverse posStart
    let keyEnd := if last then globalMax else plr.inverse (posEnd - 1 : ℕ)
    let keyEnd := if keyEnd < keyStart then keyStart else keyEnd
    let numEntries := posEnd - posStart
    some {
      plrModel := ⟨clipSegments keyStart keyEnd posStart plr.segments⟩
      kmvRanges := outputRanges env opts inputs keyStart keyEnd numEntries
      keyMin := keyStart
      keyMax := keyEnd
      numEntries := numEntries
      sizeBytes := opts.bytes.estimate numEntries }

def splitOutputs : (first : Bool) → (posStart : ℕ) → List ℕ → List VirtualSST
  | first, posStart, [] =>
    (splitOutput env opts plr inputs totalEntries globalMin globalMax first true posStart totalEntries).toList
  | first, posStart, posEnd :: rest =>
    (splitOutput env opts plr inputs totalEntries globalMin globalMax first false posStart posEnd).toList ++
      splitOutputs false posEnd rest

/-- From given grandparent positions, however `Predict` rounds. -/
def splitIntoSSTsAt (gps : List ℕ) : List VirtualSST :=
  if totalEntries = 0 ∨ plr.empty then []
  else if opts.avgEntrySize = 0 then []
  else if !opts.bytes.valid then []
  else if opts.targetLevel = 0 then
    [{ plrModel := plr
       kmvRanges := outputRanges env opts inputs globalMin globalMax totalEntries
       keyMin := globalMin
       keyMax := globalMax
       numEntries := totalEntries
       sizeBytes := opts.bytes.estimate totalEntries }]
  else splitOutputs env opts plr inputs totalEntries globalMin globalMax true 0 (splitPositions opts totalEntries gps)

def splitIntoSSTs : List VirtualSST :=
  splitIntoSSTsAt env opts plr inputs totalEntries globalMin globalMax
    (opts.gpPositions plr totalEntries globalMin globalMax)

end VcompModel

namespace VcompProof

open VcompModel

variable (opts : SplitOptions)

theorem keysPerSst_pos : 0 < opts.keysPerSst := by
  simp only [SplitOptions.keysPerSst]
  split_ifs <;> omega

/-- `next_size_split` is a full file after the last cut, or the total when that is nearer. -/
def SizeCutExact (totalEntries keysPerSst : ℕ) (state : SplitState) : Prop :=
  state.nextSizeSplit = state.lastSplit + keysPerSst ∨
    state.nextSizeSplit = totalEntries ∧ totalEntries - state.lastSplit < keysPerSst

def roundsLeft (totalEntries : ℕ) (state : SplitState) : ℕ :=
  totalEntries - state.nextSizeSplit + state.gps.length

theorem splitState_cut_exact (totalEntries keysPerSst position : ℕ) (gps : List ℕ) :
    SizeCutExact totalEntries keysPerSst (.cut totalEntries keysPerSst position gps) := by
  simp only [SizeCutExact, SplitState.cut]
  split_ifs <;> omega

theorem tail_length_of_headD_lt {gps : List ℕ} {totalEntries : ℕ} (boundary : gps.headD totalEntries < totalEntries) :
    gps.tail.length + 1 = gps.length := by
  cases gps with
  | nil => simp at boundary
  | cons gp gps => simp

variable {totalEntries keysPerSst : ℕ} {state : SplitState}

theorem round_spec (pos : 0 < keysPerSst) (exact : SizeCutExact totalEntries keysPerSst state) {cut : Option ℕ}
    {next : SplitState} (taken : state.round opts totalEntries keysPerSst = some (cut, next)) :
    SizeCutExact totalEntries keysPerSst next ∧ roundsLeft totalEntries next < roundsLeft totalEntries state ∧
      (∀ position, cut = some position →
        state.lastSplit < position ∧ position < totalEntries ∧
          position - state.lastSplit ≤ keysPerSst) ∧ next.lastSplit = cut.getD state.lastSplit := by
  rw [SplitState.round] at taken
  split_ifs at taken with sized boundary cuts
  · obtain ⟨rfl, rfl⟩ := Prod.mk.inj (Option.some.inj taken)
    have shorter := (List.dropWhile_sublist (l := state.gps) (· ≤ state.nextSizeSplit)).length_le
    refine ⟨splitState_cut_exact _ _ _ _, ?_, ?_, rfl⟩
    · simp only [roundsLeft, SplitState.cut]
      split_ifs <;> omega
    · rintro _ ⟨⟩
      simp only [SizeCutExact] at exact
      omega
  · obtain ⟨rfl, rfl⟩ := Prod.mk.inj (Option.some.inj taken)
    have tail := tail_length_of_headD_lt boundary
    simp only [SplitState.cutsAtBoundary, decide_eq_true_eq] at cuts
    simp only [SizeCutExact] at exact
    refine ⟨splitState_cut_exact _ _ _ _, ?_, ?_, rfl⟩
    · simp only [roundsLeft, SplitState.cut]
      split_ifs <;> omega
    · rintro _ ⟨⟩
      exact ⟨cuts.1, boundary, by omega⟩
  · obtain ⟨rfl, rfl⟩ := Prod.mk.inj (Option.some.inj taken)
    have tail := tail_length_of_headD_lt boundary
    refine ⟨exact, ?_, by simp, rfl⟩
    simp only [roundsLeft]
    omega

theorem splitLoop_pairwise (pos : 0 < keysPerSst) (fuel : ℕ) (exact : SizeCutExact totalEntries keysPerSst state) :
    (state.lastSplit :: splitLoop opts totalEntries keysPerSst fuel state).Pairwise (· < ·) ∧
      ∀ position ∈ splitLoop opts totalEntries keysPerSst fuel state, position < totalEntries := by
  induction fuel generalizing state with
  | zero => simp [splitLoop]
  | succ fuel ih =>
    rw [splitLoop]
    cases taken : state.round opts totalEntries keysPerSst with
    | none => simp
    | some result =>
      obtain ⟨cut, next⟩ := result
      obtain ⟨exact', -, cuts, last⟩ := round_spec opts pos exact taken
      obtain ⟨sorted, bounded⟩ := ih exact'
      rw [last] at sorted
      cases cut with
      | none => exact ⟨sorted, bounded⟩
      | some position =>
        obtain ⟨after, lt, -⟩ := cuts position rfl
        exact ⟨List.pairwise_cons_cons_iff_of_trans.mpr ⟨after, sorted⟩, List.forall_mem_cons.mpr ⟨lt, bounded⟩⟩

theorem first_exact (totalEntries : ℕ) (gps : List ℕ) :
    SizeCutExact totalEntries opts.keysPerSst ⟨0, opts.keysPerSst, 0, gps⟩ := .inl (zero_add _).symm

theorem splitPositions_pairwise (totalEntries : ℕ) (gps : List ℕ) :
    (0 :: splitPositions opts totalEntries gps).Pairwise (· < ·) ∧
      ∀ position ∈ splitPositions opts totalEntries gps, position < totalEntries :=
  splitLoop_pairwise opts (keysPerSst_pos opts) _ (first_exact opts totalEntries gps)

end VcompProof
