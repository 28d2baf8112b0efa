import Vcomp.Ribbon.Banding

namespace VcompModel.Ribbon

open BandedXor

variable {w r : ℕ}

def BandingStorage.loadRowForBackSubst (bs : BandingStorage w r) (unconstrained : ℕ → BitVec r → BitVec r) (i : ℕ) :
    BitVec w × BitVec r :=
  ((bs.loadRow i).1, if (bs.loadRow i).1 = 0 then unconstrained i (bs.loadRow i).2 else (bs.loadRow i).2)

/-- The columns of an interleaved solution: one less in the blocks before `upperStartBlock`. -/
structure Layout (numBlocks : ℕ) where
  upperNumColumns : ℕ
  upperStartBlock : ℕ
  upperStartBlock_le : upperStartBlock ≤ numBlocks
  columns_pos : 0 < upperStartBlock → 0 < upperNumColumns

namespace Layout

variable {numBlocks : ℕ} (layout : Layout numBlocks)

def numSegments : ℕ :=
  layout.upperStartBlock * (layout.upperNumColumns - 1) + (numBlocks - layout.upperStartBlock) * layout.upperNumColumns

end Layout

/-- The next solution bit of column `j` at a row, before the bits of the rows after it. -/
def backSubstBit (row : BitVec w × BitVec r) (j : ℕ) (state : BitVec w) : BitVec w :=
  let tmp := state <<< 1
  let bit := parity (tmp &&& row.1) ^^ row.2.getLsbD j
  tmp ||| if bit then 1 else 0

def backSubstSlots (numColumns : ℕ) (rows : ℕ → BitVec w × BitVec r) (startSlot : ℕ) : ℕ → List (BitVec w) → List (BitVec w)
  | 0, state => state
  | n + 1, state =>
    backSubstSlots numColumns rows startSlot n
      (state.mapIdx fun j column => if j < numColumns then backSubstBit (rows (startSlot + n)) j column else column)

def backSubstBlock (numColumns : ℕ) (rows : ℕ → BitVec w × BitVec r) (startSlot : ℕ) (state : List (BitVec w)) :
    List (BitVec w) :=
  backSubstSlots numColumns rows startSlot w state

def storeSegments (segments : List (BitVec w)) (segmentNum : ℕ) (state : List (BitVec w)) : ℕ → List (BitVec w)
  | 0 => segments
  | n + 1 => (storeSegments segments segmentNum state n).set (segmentNum + n) (state.getD n 0)

structure Progress (w : ℕ) where
  segmentNum : ℕ
  state : List (BitVec w)
  segments : List (BitVec w)

def substBlocks (numColumns : ℕ) (rows : ℕ → BitVec w × BitVec r) (low : ℕ) : ℕ → Progress w → Progress w
  | 0, p => p
  | count + 1, p =>
    let state := backSubstBlock numColumns rows ((low + count) * w) p.state
    let segmentNum := p.segmentNum - numColumns
    substBlocks numColumns rows low count ⟨segmentNum, state, storeSegments p.segments segmentNum state numColumns⟩

def interleavedBackSubst {numBlocks : ℕ} (layout : Layout numBlocks) (buffer : ℕ → BitVec w) (rows : ℕ → BitVec w × BitVec r) :
    List (BitVec w) :=
  let segments := (List.range layout.numSegments).map buffer
  if layout.upperNumColumns = 0 then segments
  else
    let start : Progress w := ⟨layout.numSegments, List.replicate layout.upperNumColumns 0, segments⟩
    let upper := substBlocks layout.upperNumColumns rows layout.upperStartBlock (numBlocks - layout.upperStartBlock) start
    (substBlocks (layout.upperNumColumns - 1) rows 0 layout.upperStartBlock upper).segments

def interleavedPrepareQuery (w : ℕ) {numBlocks : ℕ} (layout : Layout numBlocks) (startSlot : ℕ) : ℕ × ℕ × ℕ :=
  let startBlockNum := startSlot / w
  let segmentNum := startBlockNum * layout.upperNumColumns - min startBlockNum layout.upperStartBlock
  let numColumns := layout.upperNumColumns - if startBlockNum < layout.upperStartBlock then 1 else 0
  (segmentNum, numColumns, startSlot % w)

def interleavedFilterQuery (segments : List (BitVec w)) (segmentNum numColumns startBit : ℕ) (cr : BitVec w)
    (expected : BitVec r) :
    Bool :=
  if startBit = 0 then
    (List.range numColumns).all fun i => parity (segments.getD (segmentNum + i) 0 &&& cr) == expected.getLsbD i
  else
    let crLeft := cr <<< startBit
    let crRight := cr >>> (w - startBit)
    (List.range numColumns).all fun i =>
      parity ((segments.getD (segmentNum + i) 0 &&& crLeft) ^^^ (segments.getD (segmentNum + numColumns + i) 0 &&& crRight)) ==
        expected.getLsbD i

def filterQuery {numBlocks : ℕ} (layout : Layout numBlocks) (segments : List (BitVec w)) (start : ℕ) (cr : BitVec w)
    (expected : BitVec r) : Bool :=
  let (segmentNum, numColumns, startBit) := interleavedPrepareQuery w layout start
  interleavedFilterQuery segments segmentNum numColumns startBit cr expected

end VcompModel.Ribbon

namespace VcompProof.Ribbon

open VcompModel.Ribbon BandedXor List

variable {w r numBlocks : ℕ}

variable (rows : ℕ → BitVec w × BitVec r) (numSlots j : ℕ) (row : BitVec w × BitVec r)

def columnState : ℕ → BitVec w
  | 0 => 0
  | n + 1 => backSubstBit (rows (numSlots - 1 - n)) j (columnState n)

def stateAt (i : ℕ) : BitVec w := columnState rows numSlots j (numSlots - i)

def solution (i : ℕ) : Bool := (stateAt rows numSlots j i).getLsbD 0

variable {rows numSlots j}

theorem stateAt_end {i : ℕ} (ended : numSlots ≤ i) : stateAt rows numSlots j i = 0 := by
  rw [stateAt, Nat.sub_eq_zero_of_le ended, columnState]

theorem stateAt_slot {i : ℕ} (inside : i < numSlots) :
    stateAt rows numSlots j i = backSubstBit (rows i) j (stateAt rows numSlots j (i + 1)) := by
  have count : numSlots - i = numSlots - (i + 1) + 1 := by omega
  rw [stateAt, count, columnState, stateAt, show numSlots - 1 - (numSlots - (i + 1)) = i by omega]

theorem backSubstBit_succ (j : ℕ) (state : BitVec w) (k : ℕ) :
    (backSubstBit row j state).getLsbD (k + 1) = (state <<< 1).getLsbD (k + 1) := by
  have later : ∀ bit : Bool, (if bit = true then (1 : BitVec w) else 0).getLsbD (k + 1) = false := by
    intro bit
    cases bit <;> simp
  rw [backSubstBit, BitVec.getLsbD_or, later, Bool.or_false]

theorem backSubstBit_zero (j : ℕ) (state : BitVec w) (pos : 0 < w) :
    (backSubstBit row j state).getLsbD 0 = (parity ((state <<< 1) &&& row.1) ^^ row.2.getLsbD j) := by
  have first : ∀ bit : Bool, (if bit = true then (1 : BitVec w) else 0).getLsbD 0 = bit := by
    intro bit
    cases bit <;> simp [pos]
  rw [backSubstBit, BitVec.getLsbD_or, first]
  simp

theorem stateAt_window (i : ℕ) : Window (stateAt rows numSlots j i) (solution rows numSlots j) i := by
  intro k inside
  induction k generalizing i with
  | zero => rfl
  | succ k ih =>
    rcases Nat.lt_or_ge i numSlots with slot | ended
    · have shifted : (stateAt rows numSlots j (i + 1) <<< 1).getLsbD (k + 1) =
          (stateAt rows numSlots j (i + 1)).getLsbD k := by
        rw [BitVec.getLsbD_shiftLeft, Nat.add_sub_cancel, decide_eq_true inside, Bool.true_and,
          decide_eq_false (by omega : ¬k + 1 < 1), Bool.not_false, Bool.true_and]
      rw [stateAt_slot slot, backSubstBit_succ, shifted, ih (i + 1) (by omega), Nat.add_right_comm, Nat.add_assoc]
    · rw [stateAt_end ended, solution, stateAt_end (by omega)]
      simp

theorem parity_backSubstBit (j : ℕ) (state : BitVec w) (lead : row.1.getLsbD 0 = true) :
    parity (backSubstBit row j state &&& row.1) = row.2.getLsbD j := by
  have pos : 0 < w := by
    apply Nat.pos_of_ne_zero
    rintro rfl
    rw [BitVec.getLsbD_of_ge _ _ (Nat.le_refl 0)] at lead
    cases lead
  have split_first : ∀ v : BitVec w, parity (v &&& row.1) =
      (v.getLsbD 0 ^^ xorBelow (fun k => v.getLsbD (k + 1) && row.1.getLsbD (k + 1)) (w - 1)) := by
    intro v
    rw [parity, xorBelow_split _ pos]
    simp [xorBelow, BitVec.getLsbD_and, lead, Bool.and_true, Nat.add_comm 1]
  have shifted := split_first (state <<< 1)
  rw [show (state <<< 1).getLsbD 0 = false by simp, Bool.false_xor] at shifted
  rw [split_first, backSubstBit_zero row j state pos, xorBelow_congr fun k _ => by rw [backSubstBit_succ], ← shifted,
    Bool.xor_right_comm, Bool.xor_self, Bool.false_xor]

variable {bs : BandingStorage w r}

theorem solution_solves (unconstrained : ℕ → BitVec r → BitVec r) (echelon : Echelon bs) (j : ℕ) :
    Solves j (solution (bs.loadRowForBackSubst unconstrained) bs.rows.length j) bs := by
  intro i occupied
  have fits := echelon.fits occupied
  have row : bs.loadRowForBackSubst unconstrained i = bs.loadRow i := by
    rw [BandingStorage.loadRowForBackSubst, if_neg occupied]
  rw [(stateAt_window i).dot_eq, stateAt_slot fits.lt, row]
  exact parity_backSubstBit _ _ _ fits.1

theorem banding_exact {numStarts numSlots : ℕ} (r_pos : 0 < r) (slots : numStarts + w = numSlots + 1)
    {calls : List (Bool × List (Entry kFirstCoeffAlwaysOne w r numStarts))} {answers : List Bool}
    (reached : addRanges (BandingStorage.reset numSlots) calls = some (answers, bs))
    (e : Entry kFirstCoeffAlwaysOne w r numStarts) (entries : List (Entry kFirstCoeffAlwaysOne w r numStarts)) :
    (∃ ok after slot, bandingAdd bs e = some (ok, after, slot) ∧
      (ok = false ↔ ¬∃ x : ℕ → ℕ → Bool, ∀ j, Solves j (x j) bs ∧ dot e.coeffRow (x j) e.start = e.resultRow.getLsbD j) ∧
      (ok = true → ∀ j x, Solves j x after ↔ Solves j x bs ∧ dot e.coeffRow x e.start = e.resultRow.getLsbD j) ∧
      ((∀ j x, Solves j x bs → dot e.coeffRow x e.start = e.resultRow.getLsbD j) → after = bs)) ∧
    ∃ ok after, bandingAddRange true bs entries = some (ok, after) ∧ (ok = false → after = bs) := by
  obtain ⟨_, _, result, echelon, length, -⟩ := addRanges_spec calls (reset_echelon numSlots)
    (by rw [BandingStorage.reset, length_replicate, slots])
  obtain ⟨rfl, rfl⟩ := Prod.mk.inj (Option.some.inj (reached.symm.trans result))
  have slots : numStarts + w = bs.rows.length + 1 := by rw [length, BandingStorage.reset, length_replicate, slots]
  constructor
  · obtain ⟨ok, after, slot, result, added⟩ := bandingAdd_added echelon e slots
    have echelon' := ((Extends.refl echelon).added added).echelon
    have both : ok = true → ∀ j x, Solves j x after ↔ Solves j x bs ∧ dot e.coeffRow x e.start = e.resultRow.getLsbD j := by
      rintro rfl j x
      simpa using added.solves_iff j x
    refine ⟨ok, after, slot, result, ⟨?_, ?_⟩, both, ?_⟩
    · rintro rfl ⟨x, holds⟩
      cases added with
      | kept rest accepts reduced =>
        refine of_decide_eq_false accepts.symm (BitVec.eq_of_getLsbD_eq fun j _ => ?_)
        simpa using (reduced j _ (holds j).1).mp (holds j).2
    · intro contradictory
      rw [← Bool.not_eq_true]
      intro accepted
      exact contradictory ⟨_, fun j => (both accepted j _).mp (solution_solves (fun _ rr => rr) echelon' j)⟩
    · intro dependent
      cases added with
      | kept => rfl
      | stored slot c rr free fits reduced =>
        -- with the other result the row would have a solution as well
        have other : Added bs slot c (~~~rr) true (bs.storeRow slot c (~~~rr)) (some slot) :=
          .stored slot c _ free fits fun _ _ _ => Iff.rfl
        have solves := (other.solves_iff 0 _).mp
          (solution_solves (fun _ rr => rr) ((Extends.refl echelon).added other).echelon 0)
        have equation := (reduced 0 _ solves.1).mp (dependent 0 _ solves.1)
        rw [solves.2 rfl, BitVec.getLsbD_not] at equation
        simp [r_pos] at equation
  · obtain ⟨ok, after, result, -⟩ := bandingAddRange_spec true entries echelon slots
    refine ⟨ok, after, result, ?_⟩
    rintro rfl
    exact bandingAddRange_rollBack echelon slots result

theorem banding_exact_contradictory : let first : Entry true 2 1 3 := ⟨0, 3, 1, by decide, by decide, by decide⟩
    let second : Entry true 2 1 3 := ⟨0, 3, 0, by decide, by decide, by decide⟩
    ∃ ok after, bandingAddRange true (BandingStorage.reset 4) [first, second] = some (ok, after) ∧ ok = false ∧
      (ok = false → after = BandingStorage.reset 4) := by
  intro first second
  obtain ⟨-, ok, after, result, restored⟩ := banding_exact (by decide : 0 < 1) (by decide : 3 + 2 = 4 + 1)
    (rfl : addRanges (BandingStorage.reset 4) ([] : List (Bool × List (Entry true 2 1 3))) = _) first [first, second]
  refine ⟨ok, after, result, ?_, restored⟩
  have run : (bandingAddRange true (BandingStorage.reset 4) [first, second]).map Prod.fst = some false := by decide +kernel
  rw [result] at run
  exact Option.some.inj run

variable (layout : Layout numBlocks) {rows : ℕ → BitVec w × BitVec r}

def segmentOf (block : ℕ) : ℕ := block * layout.upperNumColumns - min block layout.upperStartBlock

def columnsOf (block : ℕ) : ℕ := layout.upperNumColumns - if block < layout.upperStartBlock then 1 else 0

theorem segmentOf_succ (block : ℕ) : segmentOf layout (block + 1) = segmentOf layout block + columnsOf layout block := by
  have pos := layout.columns_pos
  have enough : 0 < layout.upperStartBlock → block ≤ block * layout.upperNumColumns :=
    fun some => Nat.le_mul_of_pos_right block (pos some)
  rw [segmentOf, segmentOf, columnsOf, Nat.succ_mul]
  split <;> omega

theorem segmentOf_mono {first second : ℕ} (le : first ≤ second) : segmentOf layout first ≤ segmentOf layout second := by
  induction le with
  | refl => exact Nat.le_refl _
  | step _ ih => exact Nat.le_trans ih (by rw [segmentOf_succ]; exact Nat.le_add_right _ _)

theorem numSegments_eq : layout.numSegments = segmentOf layout numBlocks := by
  obtain ⟨rest, blocks⟩ := Nat.exists_eq_add_of_le layout.upperStartBlock_le
  rw [Layout.numSegments, segmentOf, Nat.min_eq_right layout.upperStartBlock_le, Nat.sub_eq_of_eq_add' blocks]
  have total : numBlocks * layout.upperNumColumns =
      layout.upperStartBlock * layout.upperNumColumns + rest * layout.upperNumColumns :=
    (congrArg (· * layout.upperNumColumns) blocks).trans (Nat.add_mul _ _ _)
  rw [total]
  rcases Nat.eq_zero_or_pos layout.upperStartBlock with none | some
  · rw [none, Nat.zero_mul, Nat.zero_mul, Nat.sub_zero]
  · obtain ⟨lower, columns⟩ := Nat.exists_eq_add_of_lt (layout.columns_pos some)
    rw [Nat.zero_add] at columns
    rw [columns, Nat.add_sub_cancel, Nat.mul_succ layout.upperStartBlock]
    omega

def Holds (rows : ℕ → BitVec w × BitVec r) (numSlots numColumns i : ℕ) (state : List (BitVec w)) : Prop :=
  ∀ j < numColumns, state[j]? = some (stateAt rows numSlots j i)

variable {numSlots numColumns : ℕ}

theorem backSubstSlots_holds (startSlot n : ℕ) (state : List (BitVec w)) (inside : startSlot + n ≤ numSlots)
    (holds : Holds rows numSlots numColumns (startSlot + n) state) :
    Holds rows numSlots numColumns startSlot (backSubstSlots numColumns rows startSlot n state) := by
  induction n generalizing state with
  | zero => exact holds
  | succ n ih =>
    apply ih _ (by omega)
    intro j column
    rw [getElem?_mapIdx, holds j column, Option.map_some, if_pos column, stateAt_slot (by omega : startSlot + n < numSlots)]
    rfl

theorem length_storeSegments (segments : List (BitVec w)) (segmentNum : ℕ) (state : List (BitVec w)) (n : ℕ) :
    (storeSegments segments segmentNum state n).length = segments.length := by
  induction n with
  | zero => rfl
  | succ n ih => rw [storeSegments, length_set, ih]

theorem storeSegments_getElem? (segments : List (BitVec w)) (segmentNum : ℕ) (state : List (BitVec w)) (n i : ℕ)
    (inside : segmentNum + n ≤ segments.length) : (storeSegments segments segmentNum state n)[i]? =
      if segmentNum ≤ i ∧ i < segmentNum + n then some (state.getD (i - segmentNum) 0) else segments[i]? := by
  induction n with
  | zero =>
    rw [storeSegments, if_neg (by omega)]
  | succ n ih =>
    rw [storeSegments, getElem?_set, length_storeSegments, ih (by omega)]
    by_cases here : segmentNum + n = i
    · rw [if_pos here, if_pos (by omega), if_pos (by omega), show i - segmentNum = n by omega]
    · rw [if_neg here]
      by_cases before : segmentNum ≤ i ∧ i < segmentNum + n
      · rw [if_pos before, if_pos (by omega)]
      · rw [if_neg before, if_neg (by omega)]

structure Stored (rows : ℕ → BitVec w × BitVec r) (numColumns low : ℕ) (p : Progress w) : Prop where
  segmentNum : p.segmentNum = segmentOf layout low
  state : Holds rows (numBlocks * w) numColumns (low * w) p.state
  length : p.segments.length = layout.numSegments
  segments : ∀ block j, low ≤ block → block < numBlocks → j < columnsOf layout block →
    p.segments[segmentOf layout block + j]? = some (stateAt rows (numBlocks * w) j (block * w))

variable {layout}

theorem Stored.fewer {low fewer : ℕ} {p : Progress w} (stored : Stored layout rows numColumns low p)
    (le : fewer ≤ numColumns) :
    Stored layout rows fewer low p :=
  ⟨stored.segmentNum, fun j column => stored.state j (Nat.lt_of_lt_of_le column le), stored.length, stored.segments⟩

theorem Stored.substBlocks (low count : ℕ) (p : Progress w) (inside : low + count ≤ numBlocks)
    (columns : ∀ block, low ≤ block → block < low + count → columnsOf layout block = numColumns)
    (stored : Stored layout rows numColumns (low + count) p) :
    Stored layout rows numColumns low (VcompModel.Ribbon.substBlocks numColumns rows low count p) := by
  induction count generalizing p with
  | zero => exact stored
  | succ count ih =>
    have own := columns (low + count) (by omega) (by omega)
    have next := segmentOf_succ layout (low + count)
    have last := segmentOf_mono layout (by omega : low + count + 1 ≤ numBlocks)
    rw [← numSegments_eq] at last
    have number : p.segmentNum - numColumns = segmentOf layout (low + count) := by
      have now := stored.segmentNum
      rw [← Nat.add_assoc, next, own] at now
      omega
    have slots : (low + count) * w + w = (low + (count + 1)) * w := by rw [← Nat.add_assoc, Nat.succ_mul]
    have state : Holds rows (numBlocks * w) numColumns ((low + count) * w)
        (backSubstBlock numColumns rows ((low + count) * w) p.state) := by
      apply backSubstSlots_holds
      · rw [slots]
        exact Nat.mul_le_mul_right w inside
      · rw [slots]
        exact stored.state
    rw [VcompModel.Ribbon.substBlocks]
    apply ih _ (by omega) fun block low_le less => columns block low_le (by omega)
    refine ⟨number, state, by rw [length_storeSegments, stored.length], ?_⟩
    intro block j above lt column
    rw [number, storeSegments_getElem? _ _ _ _ _ (by rw [stored.length]; omega)]
    rcases Nat.eq_or_lt_of_le above with rfl | later
    · rw [own] at column
      rw [if_pos (by omega), Nat.add_sub_cancel_left, getD_eq_getElem?_getD, state j column, Option.getD_some]
    · have beyond := segmentOf_mono layout (show low + count + 1 ≤ block from later)
      rw [if_neg (by omega)]
      exact stored.segments block j later lt column

theorem interleavedBackSubst_segment (buffer : ℕ → BitVec w) {block j : ℕ} (inside : block < numBlocks)
    (column : j < columnsOf layout block) :
    (interleavedBackSubst layout buffer rows)[segmentOf layout block + j]? =
      some (stateAt rows (numBlocks * w) j (block * w)) := by
  have some_column : layout.upperNumColumns ≠ 0 := by
    intro none
    rw [columnsOf, none, Nat.zero_sub] at column
    cases column
  have le := layout.upperStartBlock_le
  have start : Stored layout rows layout.upperNumColumns (layout.upperStartBlock + (numBlocks - layout.upperStartBlock))
      ⟨layout.numSegments, List.replicate layout.upperNumColumns 0, (List.range layout.numSegments).map buffer⟩ := by
    rw [Nat.add_sub_cancel' le]
    refine ⟨numSegments_eq layout, ?_, by simp, ?_⟩
    · intro j column
      rw [getElem?_replicate_of_lt column, stateAt_end (Nat.le_refl _)]
    · intro block j above lt
      omega
  have upper := start.substBlocks layout.upperStartBlock _ _ (by omega) fun block above _ => by
    rw [columnsOf, if_neg (Nat.not_lt.mpr above), Nat.sub_zero]
  -- the lower part goes on with one column less
  have between := upper.fewer (Nat.sub_le layout.upperNumColumns 1)
  have lower := Stored.substBlocks 0 layout.upperStartBlock _ (show 0 + layout.upperStartBlock ≤ numBlocks by omega)
    (fun block _ lt => by rw [columnsOf, if_pos (show block < layout.upperStartBlock by omega)])
      (by rw [Nat.zero_add]; exact between)
  rw [interleavedBackSubst, if_neg some_column]
  exact lower.segments block j (Nat.zero_le _) inside column

variable {kFirstCoeffAlwaysOne : Bool} {layout : Layout numBlocks}

theorem filterQuery_of_solution (buffer : ℕ → BitVec w) (w_pos : 0 < w) {start : ℕ} {cr : BitVec w}
    {expected : BitVec r} (inside : start + w ≤ numBlocks * w)
    (meets : ∀ j, dot cr (solution rows (numBlocks * w) j) start = expected.getLsbD j) :
    filterQuery layout (interleavedBackSubst layout buffer rows) start cr expected = true := by
  have place : start / w * w + start % w = start := Nat.div_add_mod' start w
  have block : start / w < numBlocks := by
    apply Nat.div_lt_of_lt_mul
    rw [Nat.mul_comm]
    omega
  have segment : ∀ {block j : ℕ}, block < numBlocks → j < columnsOf layout block →
      (interleavedBackSubst layout buffer rows).getD (segmentOf layout block + j) 0 =
        stateAt rows (numBlocks * w) j (block * w) := by
    intro block j inside column
    rw [getD_eq_getElem?_getD, interleavedBackSubst_segment buffer inside column, Option.getD_some]
  change interleavedFilterQuery _ (segmentOf layout (start / w)) (columnsOf layout (start / w)) (start % w) cr expected = true
  rw [interleavedFilterQuery]
  split
  next aligned =>
    apply all_eq_true.mpr
    intro j mem
    have column := mem_range.mp mem
    rw [aligned, Nat.add_zero] at place
    rw [segment block column, ← (stateAt_window _).dot_eq, place, meets, beq_self_eq_true]
  next straddles =>
    have next : start / w + 1 < numBlocks := by
      have more : (start / w + 1) * w < numBlocks * w := by
        rw [Nat.succ_mul]
        omega
      exact Nat.lt_of_mul_lt_mul_right more
    apply all_eq_true.mpr
    intro j mem
    have column := mem_range.mp mem
    have column' : j < columnsOf layout (start / w + 1) := by
      apply Nat.lt_of_lt_of_le column
      rw [columnsOf, columnsOf]
      split <;> split <;> omega
    have second : Window (stateAt rows (numBlocks * w) j ((start / w + 1) * w)) (solution rows (numBlocks * w) j)
        (start / w * w + w) := by
      rw [← Nat.succ_mul]
      exact stateAt_window _
    rw [segment block column, ← segmentOf_succ, segment next column',
      ← dot_straddle (stateAt_window _) second (Nat.le_of_lt (Nat.mod_lt start w_pos)), place, meets, beq_self_eq_true]

/-- Bit `i` of column `j` as the segments store it. -/
def storedBit (layout : Layout numBlocks) (segments : List (BitVec w)) (j i : ℕ) : Bool :=
  (segments.getD (segmentOf layout (i / w) + j) 0).getLsbD (i % w)

theorem dot_storedBit (buffer : ℕ → BitVec w) (w_pos : 0 < w) {start j : ℕ} (cr : BitVec w)
    (inside : start + w ≤ numBlocks * w) (column : j < columnsOf layout (start / w)) :
    dot cr (storedBit layout (interleavedBackSubst layout buffer rows) j) start =
      dot cr (solution rows (numBlocks * w) j) start := by
  apply xorBelow_congr
  intro k below
  have block : (start + k) / w < numBlocks := by
    apply Nat.div_lt_of_lt_mul
    rw [Nat.mul_comm]
    omega
  have column' : j < columnsOf layout ((start + k) / w) := by
    apply Nat.lt_of_lt_of_le column
    have later : start / w ≤ (start + k) / w := Nat.div_le_div_right (Nat.le_add_right start k)
    rw [columnsOf, columnsOf]
    split <;> split <;> omega
  rw [storedBit, getD_eq_getElem?_getD, interleavedBackSubst_segment buffer block column', Option.getD_some,
    stateAt_window _ _ (Nat.mod_lt _ w_pos), Nat.div_add_mod']

theorem ribbon_no_false_negatives (w_pos : 0 < w) (blocks_pos : 0 < numBlocks) (layout : Layout numBlocks)
    (buffer : ℕ → BitVec w)
    (unconstrained : ℕ → BitVec r → BitVec r)
    (calls : List (Bool × List (Entry kFirstCoeffAlwaysOne w r (numBlocks * w - w + 1)))) :
    ∃ answers bs, addRanges (BandingStorage.reset (numBlocks * w)) calls = some (answers, bs) ∧
      ∀ (n : ℕ) (call : Bool × List (Entry kFirstCoeffAlwaysOne w r (numBlocks * w - w + 1))),
        calls[n]? = some call → answers[n]? = some true → ∀ e ∈ call.2,
        let segments := interleavedBackSubst layout buffer (bs.loadRowForBackSubst unconstrained)
        (∀ j < columnsOf layout (e.start / w), dot e.coeffRow (storedBit layout segments j) e.start = e.resultRow.getLsbD j) ∧
          filterQuery layout segments e.start e.coeffRow e.resultRow = true := by
  have enough : w ≤ numBlocks * w := Nat.le_mul_of_pos_left w blocks_pos
  have reset_length : (BandingStorage.reset (numBlocks * w) : BandingStorage w r).rows.length = numBlocks * w :=
    length_replicate
  obtain ⟨answers, bs, result, echelon, length, -, accepted⟩ := addRanges_spec calls (reset_echelon (numBlocks * w)) (by omega)
  refine ⟨answers, bs, result, ?_⟩
  intro n call found answer e mem segments
  have start := e.start_lt
  have meets : ∀ j, dot e.coeffRow (solution (bs.loadRowForBackSubst unconstrained) (numBlocks * w) j) e.start =
      e.resultRow.getLsbD j := by
    intro j
    have solves := solution_solves unconstrained echelon j
    rw [length.trans reset_length] at solves
    exact accepted n call found answer e mem j _ solves
  refine ⟨fun j column => ?_, filterQuery_of_solution buffer w_pos (by omega) meets⟩
  rw [dot_storedBit buffer w_pos _ (by omega) column, meets]

theorem ribbon_no_false_negatives_two : let first : Entry true 2 2 3 := ⟨0, 3, 1, by decide, by decide, by decide⟩
    let second : Entry true 2 2 3 := ⟨1, 3, 2, by decide, by decide, by decide⟩
    let layout : Layout 2 := ⟨2, 1, by decide, by decide⟩
    ∃ answers bs, addRanges (BandingStorage.reset 4) [(false, [first, second])] = some (answers, bs) ∧ answers = [true] ∧
      filterQuery layout (interleavedBackSubst layout (fun _ => 0) (bs.loadRowForBackSubst fun _ rr => rr)) 1 3
        (2 : BitVec 2) = true := by
  intro first second layout
  obtain ⟨answers, bs, result, accepted⟩ :=
    ribbon_no_false_negatives (by decide : 0 < 2) (by decide : 0 < 2) layout (fun _ => 0)
    (fun _ rr => rr) [(false, [first, second])]
  have answered : answers = [true] := by
    have run := congrArg (Option.map Prod.fst) result
    rw [Option.map_some] at run
    exact (Option.some.inj run).symm.trans (by decide +kernel)
  refine ⟨answers, bs, result, answered, (accepted 0 _ rfl (by rw [answered]; rfl) second (by simp)).2⟩

end VcompProof.Ribbon
