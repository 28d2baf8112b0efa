import Mathlib.Data.List.GetD
import Vcomp.Foundation.BandedXor

namespace VcompModel.Ribbon

open BandedXor

/-- A start, a nonzero coefficient row (its first bit set under `kFirstCoeffAlwaysOne`), and a result row. -/
structure Entry (kFirstCoeffAlwaysOne : Bool) (kCoeffBits kResultBits numStarts : ℕ) where
  start : ℕ
  coeffRow : BitVec kCoeffBits
  resultRow : BitVec kResultBits
  start_lt : start < numStarts
  coeffRow_ne : coeffRow ≠ 0
  firstCoeff : kFirstCoeffAlwaysOne = true → coeffRow.getLsbD 0 = true

/-- `StandardBanding`: a coefficient row and a result row for each slot. -/
structure BandingStorage (kCoeffBits kResultBits : ℕ) where
  rows : List (BitVec kCoeffBits × BitVec kResultBits)

variable {kFirstCoeffAlwaysOne : Bool} {kCoeffBits kResultBits numStarts : ℕ}

namespace BandingStorage

variable (bs : BandingStorage kCoeffBits kResultBits)

def reset (numSlots : ℕ) : BandingStorage kCoeffBits kResultBits := ⟨List.replicate numSlots (0, 0)⟩

def getNumStarts : ℕ := bs.rows.length - kCoeffBits + 1

def usePrefetch : Bool := decide (1500 < bs.getNumStarts)

def loadRow (i : ℕ) : BitVec kCoeffBits × BitVec kResultBits := bs.rows.getD i (0, 0)

def storeRow (i : ℕ) (cr : BitVec kCoeffBits) (rr : BitVec kResultBits) : BandingStorage kCoeffBits kResultBits :=
  ⟨bs.rows.set i (cr, rr)⟩

end BandingStorage

def countTrailingZeroBits (cr : BitVec kCoeffBits) : ℕ := (List.range kCoeffBits).findIdx fun k => cr.getLsbD k

/-- Whether the entry fits, the storage, and the slot put on the backtrack stack. -/
def bandingAddLoop (bs : BandingStorage kCoeffBits kResultBits) : (fuel i : ℕ) → BitVec kCoeffBits → BitVec kResultBits →
    Option (Bool × BandingStorage kCoeffBits kResultBits × Option ℕ)
  | 0, _, _, _ => none
  | fuel + 1, i, cr, rr =>
    if (bs.loadRow i).1 = 0 then some (true, bs.storeRow i cr rr, some i)
    else
      -- Gaussian row reduction
      let cr := cr ^^^ (bs.loadRow i).1
      let rr := rr ^^^ (bs.loadRow i).2
      -- inconsistency, or a redundant equation
      if cr = 0 then some (decide (rr = 0), bs, none)
      else
        let tz := countTrailingZeroBits cr
        bandingAddLoop bs fuel (i + tz) (cr >>> tz) rr

def bandingAdd (bs : BandingStorage kCoeffBits kResultBits) (e : Entry kFirstCoeffAlwaysOne kCoeffBits kResultBits numStarts) :
    Option (Bool × BandingStorage kCoeffBits kResultBits × Option ℕ) :=
  let tz := if kFirstCoeffAlwaysOne then 0 else countTrailingZeroBits e.coeffRow
  bandingAddLoop bs (bs.rows.length + 1) (e.start + tz) (e.coeffRow >>> tz) e.resultRow

def addSimple (bs : BandingStorage kCoeffBits kResultBits) (stack : List ℕ) :
    List (Entry kFirstCoeffAlwaysOne kCoeffBits kResultBits numStarts) →
      Option (Bool × BandingStorage kCoeffBits kResultBits × List ℕ)
  | [] => some (true, bs, stack)
  | cur :: rest =>
    match bandingAdd bs cur with
    | none => none
    | some (false, bs, _) => some (false, bs, stack)
    | some (true, bs, slot) => addSimple bs (slot.toList ++ stack) rest

def addPipelined (bs : BandingStorage kCoeffBits kResultBits) (stack : List ℕ)
    (cur : Entry kFirstCoeffAlwaysOne kCoeffBits kResultBits numStarts) :
    List (Entry kFirstCoeffAlwaysOne kCoeffBits kResultBits numStarts) →
      Option (Bool × BandingStorage kCoeffBits kResultBits × List ℕ)
  | [] =>
    match bandingAdd bs cur with
    | none => none
    | some (false, bs, _) => some (false, bs, stack)
    | some (true, bs, slot) => some (true, bs, slot.toList ++ stack)
  | next :: rest =>
    match bandingAdd bs cur with
    | none => none
    | some (false, bs, _) => some (false, bs, stack)
    | some (true, bs, slot) => addPipelined bs (slot.toList ++ stack) next rest

def bandingAddRange (useBacktrack : Bool) (bs : BandingStorage kCoeffBits kResultBits)
    (entries : List (Entry kFirstCoeffAlwaysOne kCoeffBits kResultBits numStarts)) :
    Option (Bool × BandingStorage kCoeffBits kResultBits) :=
  match entries with
  | [] => some (true, bs)
  | cur :: rest =>
    let added := if bs.usePrefetch then addPipelined bs [] cur rest else addSimple bs [] entries
    match added with
    | none => none
    | some (true, bs, _) => some (true, bs)
    | some (false, bs, stack) =>
      -- what was added is taken out again, so that it does not leak into the result
      some (false, if useBacktrack then stack.foldl (fun bs i => bs.storeRow i 0 0) bs else bs)

def addRanges (bs : BandingStorage kCoeffBits kResultBits) :
    List (Bool × List (Entry kFirstCoeffAlwaysOne kCoeffBits kResultBits numStarts)) →
      Option (List Bool × BandingStorage kCoeffBits kResultBits)
  | [] => some ([], bs)
  | call :: calls =>
    match bandingAddRange call.1 bs call.2 with
    | none => none
    | some (ok, bs) => (addRanges bs calls).map fun result => (ok :: result.1, result.2)

end VcompModel.Ribbon

namespace VcompProof.Ribbon

open VcompModel.Ribbon BandedXor List

variable {kFirstCoeffAlwaysOne : Bool} {w r numStarts : ℕ} {bs : BandingStorage w r} {cr : BitVec w} {numSlots i : ℕ}
  {rr : BitVec r} {ok : Bool} {x : ℕ → Bool}

theorem countTrailingZeroBits_spec (nonzero : cr ≠ 0) :
    cr.getLsbD (countTrailingZeroBits cr) = true ∧ ∀ k < countTrailingZeroBits cr, cr.getLsbD k = false := by
  obtain ⟨k, set⟩ : ∃ k, cr.getLsbD k = true := by
    by_contra none
    apply nonzero
    apply BitVec.eq_of_getLsbD_eq
    intro i _
    have unset : cr.getLsbD i = false := Bool.eq_false_iff.mpr fun set => none ⟨i, set⟩
    simp [unset]
  have inside : k < w := by
    by_contra outside
    rw [BitVec.getLsbD_of_ge cr k (Nat.le_of_not_lt outside)] at set
    cases set
  have found : countTrailingZeroBits cr < (List.range w).length :=
    findIdx_lt_length_of_exists ⟨k, mem_range.mpr inside, set⟩
  constructor
  · have holds : cr.getLsbD (List.range w)[countTrailingZeroBits cr] = true := findIdx_getElem (w := found)
    rwa [getElem_range] at holds
  · intro i before
    have fails := not_of_lt_findIdx before
    simpa using fails

def Solves (j : ℕ) (x : ℕ → Bool) (bs : BandingStorage w r) : Prop :=
  ∀ i, (bs.loadRow i).1 ≠ 0 → dot (bs.loadRow i).1 x i = (bs.loadRow i).2.getLsbD j

/-- A row that may stand at slot `i`: its first coefficient is set, and the others lie inside the slots. -/
def Fits (numSlots i : ℕ) (cr : BitVec w) : Prop := cr.getLsbD 0 = true ∧ ∀ k, cr.getLsbD k = true → i + k < numSlots

def Echelon (bs : BandingStorage w r) : Prop := ∀ i, bs.loadRow i = (0, 0) ∨ Fits bs.rows.length i (bs.loadRow i).1

theorem Echelon.fits (echelon : Echelon bs) (occupied : (bs.loadRow i).1 ≠ 0) : Fits bs.rows.length i (bs.loadRow i).1 :=
  (echelon i).resolve_left fun free => occupied (congrArg Prod.fst free)

theorem Fits.lt (fits : Fits numSlots i cr) : i < numSlots := fits.2 0 fits.1

theorem Fits.ne_zero (fits : Fits numSlots i cr) : cr ≠ 0 := by
  rintro rfl
  simpa using fits.1

@[simp] theorem storeRow_length (i : ℕ) (cr : BitVec w) (rr : BitVec r) : (bs.storeRow i cr rr).rows.length = bs.rows.length :=
  length_set

theorem loadRow_storeRow (i other : ℕ) (cr : BitVec w) (rr : BitVec r) (inside : i < bs.rows.length) :
    (bs.storeRow i cr rr).loadRow other = if i = other then (cr, rr) else bs.loadRow other := by
  simp only [BandingStorage.loadRow, BandingStorage.storeRow, getD_eq_getElem?_getD, getElem?_set, if_pos inside]
  split <;> rfl

theorem fits_shifted (nonzero : cr ≠ 0) (inside : ∀ k, cr.getLsbD k = true → i + k < numSlots) :
    Fits numSlots (i + countTrailingZeroBits cr) (cr >>> countTrailingZeroBits cr) := by
  constructor
  · rw [BitVec.getLsbD_ushiftRight]
    exact (countTrailingZeroBits_spec nonzero).1
  · intro k set
    rw [BitVec.getLsbD_ushiftRight] at set
    rw [Nat.add_assoc]
    exact inside _ set

/-- The storage is left alone and the equation reduced to `0 = rest`, or a free slot gets an equivalent one. -/
inductive Added (bs : BandingStorage w r) (i : ℕ) (cr : BitVec w) (rr : BitVec r) :
    Bool → BandingStorage w r → Option ℕ → Prop where
  | kept {ok : Bool} (rest : BitVec r) (accepts : ok = decide (rest = 0))
      (reduced : ∀ j x, Solves j x bs → (dot cr x i = rr.getLsbD j ↔ rest.getLsbD j = false)) : Added bs i cr rr ok bs none
  | stored (slot : ℕ) (c : BitVec w) (result : BitVec r) (free : (bs.loadRow slot).1 = 0) (fits : Fits bs.rows.length slot c)
      (reduced : ∀ j x, Solves j x bs → (dot cr x i = rr.getLsbD j ↔ dot c x slot = result.getLsbD j)) :
      Added bs i cr rr true (bs.storeRow slot c result) (some slot)

theorem Added.congr {i' : ℕ} {cr' : BitVec w} {rr' : BitVec r} {after : BandingStorage w r} {slot : Option ℕ}
    (added : Added bs i' cr' rr' ok after slot)
    (eq : ∀ j x, Solves j x bs → (dot cr x i = rr.getLsbD j ↔ dot cr' x i' = rr'.getLsbD j)) :
    Added bs i cr rr ok after slot := by
  cases added with
  | kept rest accepts reduced => exact .kept rest accepts fun j x solves => (eq j x solves).trans (reduced j x solves)
  | stored slot c result free fits reduced =>
    exact .stored slot c result free fits fun j x solves => (eq j x solves).trans (reduced j x solves)

theorem Added.solves_iff {after : BandingStorage w r} {slot : Option ℕ} (added : Added bs i cr rr ok after slot)
    (j : ℕ) (x : ℕ → Bool) : Solves j x after ↔ Solves j x bs ∧ (ok = true → dot cr x i = rr.getLsbD j) := by
  cases added with
  | kept rest accepts reduced =>
    refine ⟨fun solves => ⟨solves, fun accepted => (reduced j x solves).mpr ?_⟩, And.left⟩
    rw [of_decide_eq_true (accepts.symm.trans accepted)]
    exact BitVec.getLsbD_zero
  | stored slot c result free fits reduced =>
    have load := fun other => loadRow_storeRow slot other c result fits.lt
    constructor
    · intro solves
      have before : Solves j x bs := by
        intro s occupied
        have other : slot ≠ s := by
          rintro rfl
          exact occupied free
        have equation := solves s
        rw [load, if_neg other] at equation
        exact equation occupied
      have equation := solves slot
      rw [load, if_pos rfl] at equation
      exact ⟨before, fun _ => (reduced j x before).mpr (equation fits.ne_zero)⟩
    · intro both s occupied
      rw [load] at occupied ⊢
      split at occupied
      next here =>
        subst here
        rw [if_pos rfl]
        exact (reduced j x both.1).mp (both.2 rfl)
      next other =>
        rw [if_neg other]
        exact both.1 s occupied

theorem dot_reduced {j : ℕ} (solves : Solves j x bs) (occupied : (bs.loadRow i).1 ≠ 0) :
    dot cr x i = rr.getLsbD j ↔ dot (cr ^^^ (bs.loadRow i).1) x i = (rr ^^^ (bs.loadRow i).2).getLsbD j := by
  rw [dot_xor, solves i occupied, BitVec.getLsbD_xor]
  exact Bool.xor_left_inj.symm

theorem bandingAddLoop_added (echelon : Echelon bs) (fuel i : ℕ) (cr : BitVec w) (rr : BitVec r)
    (fits : Fits bs.rows.length i cr) (enough : bs.rows.length < fuel + i) :
    ∃ ok after slot, bandingAddLoop bs fuel i cr rr = some (ok, after, slot) ∧ Added bs i cr rr ok after slot := by
  induction fuel generalizing i cr rr with
  | zero =>
    have inside := fits.lt
    omega
  | succ fuel ih =>
    rw [bandingAddLoop]
    split
    next free => exact ⟨_, _, _, rfl, .stored i cr rr free fits fun _ _ _ => Iff.rfl⟩
    next occupied =>
      dsimp only
      split
      next dependent =>
        refine ⟨_, _, _, rfl, .kept _ rfl fun j x solves => (dot_reduced solves occupied).trans ?_⟩
        rw [dependent, dot_zero]
        exact eq_comm
      next nonzero =>
        have other := echelon.fits occupied
        have inside : ∀ k, (cr ^^^ (bs.loadRow i).1).getLsbD k = true → i + k < bs.rows.length := by
          intro k set
          rw [BitVec.getLsbD_xor] at set
          rcases Bool.eq_false_or_eq_true (cr.getLsbD k) with own | own
          · exact fits.2 k own
          · rw [own, Bool.false_xor] at set
            exact other.2 k set
        obtain ⟨lead, zeros⟩ := countTrailingZeroBits_spec nonzero
        have moved : countTrailingZeroBits (cr ^^^ (bs.loadRow i).1) ≠ 0 := by
          -- the first coefficients cancel
          intro none
          rw [none, BitVec.getLsbD_xor, fits.1, other.1] at lead
          cases lead
        obtain ⟨ok, after, slot, result, added⟩ :=
          ih (i + countTrailingZeroBits (cr ^^^ (bs.loadRow i).1)) _ (rr ^^^ (bs.loadRow i).2)
          (fits_shifted nonzero inside) (by omega)
        refine ⟨ok, after, slot, result, added.congr fun j x solves => (dot_reduced solves occupied).trans ?_⟩
        rw [← dot_ushiftRight zeros]

theorem bandingAdd_added (echelon : Echelon bs) (e : Entry kFirstCoeffAlwaysOne w r numStarts)
    (slots : numStarts + w = bs.rows.length + 1) :
    ∃ ok after slot, bandingAdd bs e = some (ok, after, slot) ∧ Added bs e.start e.coeffRow e.resultRow ok after slot := by
  have inside : ∀ k, e.coeffRow.getLsbD k = true → e.start + k < bs.rows.length := by
    intro k set
    have lt : k < w := by
      by_contra outside
      rw [BitVec.getLsbD_of_ge _ k (Nat.le_of_not_lt outside)] at set
      cases set
    have start := e.start_lt
    omega
  rw [bandingAdd]
  by_cases first : kFirstCoeffAlwaysOne = true
  · simp only [if_pos first, Nat.add_zero, BitVec.ushiftRight_zero]
    exact bandingAddLoop_added echelon _ _ _ _ ⟨e.firstCoeff first, inside⟩ (by omega)
  · simp only [if_neg first]
    obtain ⟨-, zeros⟩ := countTrailingZeroBits_spec e.coeffRow_ne
    obtain ⟨ok, after, slot, result, added⟩ :=
      bandingAddLoop_added echelon (bs.rows.length + 1) _ _ e.resultRow (fits_shifted e.coeffRow_ne inside) (by omega)
    refine ⟨ok, after, slot, result, added.congr fun j x _ => ?_⟩
    rw [← dot_ushiftRight zeros]

structure Extends (before bs : BandingStorage w r) (stack : List ℕ) : Prop where
  echelon : Echelon bs
  length : bs.rows.length = before.rows.length
  free : ∀ slot ∈ stack, slot < before.rows.length ∧ (before.loadRow slot).1 = 0
  same : ∀ i, i ∉ stack → bs.loadRow i = before.loadRow i

variable {before after : BandingStorage w r} {stack : List ℕ} {slot : Option ℕ}

theorem Extends.refl (echelon : Echelon bs) : Extends bs bs [] := ⟨echelon, rfl, by simp, fun _ _ => rfl⟩

section

variable (ext : Extends before bs stack)
include ext

theorem Extends.solves {j : ℕ} (solves : Solves j x bs) : Solves j x before := by
  intro i occupied
  have kept : i ∉ stack := fun mem => occupied (ext.free i mem).2
  rw [← ext.same i kept] at occupied ⊢
  exact solves i occupied

theorem Extends.stored {slot : ℕ} {c : BitVec w} {result : BitVec r} (free : (bs.loadRow slot).1 = 0)
    (fits : Fits bs.rows.length slot c) : Extends before (bs.storeRow slot c result) (slot :: stack) := by
  have load := fun other => loadRow_storeRow slot other c result fits.lt
  refine ⟨?_, by rw [storeRow_length, ext.length], ?_, ?_⟩
  · intro i
    rw [storeRow_length, load]
    split
    next here => exact .inr (here ▸ fits)
    next => exact ext.echelon i
  · intro s mem
    rcases mem_cons.mp mem with rfl | earlier
    · refine ⟨ext.length ▸ fits.lt, ?_⟩
      by_cases known : s ∈ stack
      · exact (ext.free s known).2
      · rw [← ext.same s known]
        exact free
    · exact ext.free s earlier
  · intro i out
    obtain ⟨other, out⟩ := not_or.mp (mt mem_cons.mpr out)
    rw [load, if_neg fun eq => other eq.symm]
    exact ext.same i out

theorem Extends.added (added : Added bs i cr rr ok after slot) : Extends before after (slot.toList ++ stack) := by
  cases added with
  | kept => exact ext
  | stored slot c result free fits => exact ext.stored free fits

end

variable {entries : List (Entry kFirstCoeffAlwaysOne w r numStarts)}

theorem addSimple_spec (entries : List (Entry kFirstCoeffAlwaysOne w r numStarts)) (ext : Extends before bs stack)
    (slots : numStarts + w = bs.rows.length + 1) :
    ∃ ok after stack', addSimple bs stack entries = some (ok, after, stack') ∧ Extends before after stack' ∧
      (∀ j x, Solves j x after → Solves j x bs) ∧
      (ok = true → ∀ e ∈ entries, ∀ j x, Solves j x after → dot e.coeffRow x e.start = e.resultRow.getLsbD j) := by
  induction entries generalizing bs stack with
  | nil => exact ⟨_, _, _, rfl, ext, fun _ _ solves => solves, by simp⟩
  | cons cur rest ih =>
    obtain ⟨ok, next, slot, result, added⟩ := bandingAdd_added ext.echelon cur slots
    have ext' := ext.added added
    rw [addSimple, result]
    cases ok with
    | false =>
      cases added with
      | kept => exact ⟨_, _, _, rfl, ext, fun _ _ solves => solves, by simp⟩
    | true =>
      obtain ⟨ok, after, stack', result, ext'', keeps', all⟩ := ih ext' (by rw [ext'.length, ← ext.length]; exact slots)
      refine ⟨ok, after, stack', result, ext'', fun j x solves => ((added.solves_iff j x).mp (keeps' j x solves)).1, ?_⟩
      intro success e mem j x solves
      rcases mem_cons.mp mem with rfl | later
      · exact ((added.solves_iff j x).mp (keeps' j x solves)).2 rfl
      · exact all success e later j x solves

theorem addPipelined_eq (stack : List ℕ) (cur : Entry kFirstCoeffAlwaysOne w r numStarts)
    (rest : List (Entry kFirstCoeffAlwaysOne w r numStarts)) :
    addPipelined bs stack cur rest = addSimple bs stack (cur :: rest) := by
  induction rest generalizing bs stack cur with
  | nil => rfl
  | cons next rest ih =>
    rw [addPipelined, addSimple]
    rcases bandingAdd bs cur with _ | ⟨_ | _, after, slot⟩
    · rfl
    · rfl
    · exact ih _ _

theorem rollBack_length (stack : List ℕ) (bs : BandingStorage w r) :
    (stack.foldl (fun bs i => bs.storeRow i 0 0) bs).rows.length = bs.rows.length := by
  induction stack generalizing bs with
  | nil => rfl
  | cons slot stack ih => rw [foldl_cons, ih, storeRow_length]

theorem rollBack_loadRow (stack : List ℕ) (bs : BandingStorage w r) (inside : ∀ slot ∈ stack, slot < bs.rows.length) (i : ℕ) :
    (stack.foldl (fun bs i => bs.storeRow i 0 0) bs).loadRow i = if i ∈ stack then (0, 0) else bs.loadRow i := by
  induction stack generalizing bs with
  | nil => rfl
  | cons slot stack ih =>
    rw [foldl_cons, ih _ fun s mem => by rw [storeRow_length]; exact inside s (mem_cons_of_mem _ mem),
      loadRow_storeRow _ _ _ _ (inside slot mem_cons_self)]
    by_cases mem : i ∈ stack
    · rw [if_pos mem, if_pos (mem_cons_of_mem _ mem)]
    · by_cases here : slot = i
      · rw [if_neg mem, if_pos here, if_pos (here ▸ mem_cons_self)]
      · have out : i ∉ slot :: stack := fun cons => (mem_cons.mp cons).elim (fun eq => here eq.symm) mem
        rw [if_neg mem, if_neg here, if_neg out]

theorem Extends.rolledBack (ext : Extends before bs stack) :
    Extends before (stack.foldl (fun bs i => bs.storeRow i 0 0) bs) stack := by
  have load := rollBack_loadRow stack bs fun slot mem => ext.length ▸ (ext.free slot mem).1
  refine ⟨?_, by rw [rollBack_length, ext.length], ext.free, ?_⟩
  · intro i
    rw [rollBack_length, load]
    split
    next => exact .inl rfl
    next => exact ext.echelon i
  · intro i out
    rw [load, if_neg out, ext.same i out]

theorem bandingAddRange_eq (useBacktrack : Bool) (bs : BandingStorage w r)
    (entries : List (Entry kFirstCoeffAlwaysOne w r numStarts)) :
    bandingAddRange useBacktrack bs entries =
      match addSimple bs [] entries with
      | none => none
      | some (true, bs, _) => some (true, bs)
      | some (false, bs, stack) =>
        some (false, if useBacktrack then stack.foldl (fun bs i => bs.storeRow i 0 0) bs else bs) := by
  cases entries with
  | nil => rfl
  | cons cur rest => simp only [bandingAddRange, addPipelined_eq, ite_self]

theorem bandingAddRange_spec (useBacktrack : Bool) (entries : List (Entry kFirstCoeffAlwaysOne w r numStarts))
    (echelon : Echelon bs) (slots : numStarts + w = bs.rows.length + 1) :
    ∃ ok after, bandingAddRange useBacktrack bs entries = some (ok, after) ∧ Echelon after ∧
      after.rows.length = bs.rows.length ∧
      (∀ j x, Solves j x after → Solves j x bs) ∧
      (ok = true → ∀ e ∈ entries, ∀ j x, Solves j x after → dot e.coeffRow x e.start = e.resultRow.getLsbD j) := by
  obtain ⟨ok, after, stack, result, ext, keeps, accepted⟩ := addSimple_spec entries (Extends.refl echelon) slots
  rw [bandingAddRange_eq, result]
  cases ok with
  | true => exact ⟨_, _, rfl, ext.echelon, ext.length, keeps, accepted⟩
  | false =>
    have ext' : Extends bs (if useBacktrack then stack.foldl (fun bs i => bs.storeRow i 0 0) after else after) stack := by
      split
      next => exact ext.rolledBack
      next => exact ext
    exact ⟨_, _, rfl, ext'.echelon, ext'.length, fun j x solves => ext'.solves solves, by simp⟩

theorem addRanges_spec (calls : List (Bool × List (Entry kFirstCoeffAlwaysOne w r numStarts))) (echelon : Echelon bs)
    (slots : numStarts + w = bs.rows.length + 1) :
    ∃ answers after, addRanges bs calls = some (answers, after) ∧ Echelon after ∧ after.rows.length = bs.rows.length ∧
      (∀ j x, Solves j x after → Solves j x bs) ∧
      ∀ (n : ℕ) (call : Bool × List (Entry kFirstCoeffAlwaysOne w r numStarts)), calls[n]? = some call →
        answers[n]? = some true →
        ∀ e ∈ call.2, ∀ j x, Solves j x after →
        dot e.coeffRow x e.start = e.resultRow.getLsbD j := by
  induction calls generalizing bs with
  | nil => exact ⟨_, _, rfl, echelon, rfl, fun _ _ solves => solves, by simp⟩
  | cons call calls ih =>
    obtain ⟨ok, next, result, echelon', length, keeps, accepted⟩ := bandingAddRange_spec call.1 call.2 echelon slots
    obtain ⟨answers, after, result', echelon'', length', keeps', all⟩ := ih echelon' (by rw [length]; exact slots)
    refine ⟨ok :: answers, after, ?_, echelon'', length'.trans length, fun j x solves => keeps j x (keeps' j x solves), ?_⟩
    · rw [addRanges, result]
      dsimp only
      rw [result', Option.map_some]
    · intro n other found answer e mem j x solves
      cases n with
      | zero =>
        obtain rfl : call = other := by simpa using found
        exact accepted (by simpa using answer) e mem j x (keeps' j x solves)
      | succ n => exact all n other found answer e mem j x solves

theorem reset_echelon (numSlots : ℕ) : Echelon (BandingStorage.reset numSlots : BandingStorage w r) := by
  intro i
  left
  rw [BandingStorage.loadRow, BandingStorage.reset, getD_eq_getElem?_getD, getElem?_replicate]
  split <;> rfl

theorem bandingAddRange_rollBack (echelon : Echelon bs) (slots : numStarts + w = bs.rows.length + 1)
    (failed : bandingAddRange true bs entries = some (false, after)) : after = bs := by
  obtain ⟨ok, added, stack, result, ext, -⟩ := addSimple_spec entries (Extends.refl echelon) slots
  rw [bandingAddRange_eq, result] at failed
  cases ok with
  | true => cases failed
  | false =>
    obtain rfl : stack.foldl (fun bs i => bs.storeRow i 0 0) added = after := by simpa using failed
    refine congrArg BandingStorage.mk (ext_getElem (by rw [rollBack_length, ext.length]) fun i inside inside' => ?_)
    rw [← getD_eq_getElem _ (0, 0) inside, ← getD_eq_getElem _ (0, 0) inside']
    change BandingStorage.loadRow _ i = bs.loadRow i
    rw [rollBack_loadRow stack added fun slot mem => ext.length ▸ (ext.free slot mem).1]
    split
    next mem => exact ((echelon i).resolve_right fun fits => fits.ne_zero (ext.free i mem).2).symm
    next out => exact ext.same i out

end VcompProof.Ribbon
