import Mathlib.Data.Nat.Bitwise
import Vcomp.WritePrepared.State

namespace VcompModel.WritePrepared.CommitEntry64b

def prepBits (indexBits : ℕ) : ℕ := 64 - 8 - indexBits

def commitBits (indexBits : ℕ) : ℕ := 64 - prepBits indexBits

def commitFilter (indexBits : ℕ) : BitVec 64 := 1#64 <<< commitBits indexBits - 1

def deltaUpperbound (indexBits : ℕ) : BitVec 64 := 1#64 <<< commitBits indexBits

/-- The constructor, which throws for `none`. -/
def new (indexBits : ℕ) (ps cs : BitVec 64) : Option (BitVec 64) :=
  let delta := cs - ps + 1
  if deltaUpperbound indexBits ≤ delta then none
  else some (ps <<< 8 &&& ~~~commitFilter indexBits ||| delta)

def parse (indexBits : ℕ) (rep indexedSeq : BitVec 64) : Option (BitVec 64 × BitVec 64) :=
  let delta := rep &&& commitFilter indexBits
  if delta = 0 then none
  else
    let prepSeq := (rep &&& ~~~commitFilter indexBits) >>> 8 ||| indexedSeq
    some (prepSeq, prepSeq + delta - 1)

def indexedSeq (indexBits : ℕ) (ps : BitVec 64) : BitVec 64 := ps % 1#64 <<< indexBits

end VcompModel.WritePrepared.CommitEntry64b

namespace VcompProof.WritePrepared

open VcompModel.WritePrepared VcompModel.WritePrepared.CommitEntry64b

variable {indexBits : ℕ} {ps cs ps' cs' rep : BitVec 64}

/-- A 56-bit prepare number and a commit number whose distance the format takes. -/
def Accepts (indexBits : ℕ) (ps cs : BitVec 64) : Prop :=
  ps.toNat < 2 ^ 56 ∧ ps ≤ cs ∧ cs.toNat - ps.toNat + 1 < 2 ^ (8 + indexBits)

theorem toNat_twoPow {n : ℕ} (lt : n < 64) : (1#64 <<< n).toNat = 2 ^ n := by
  rw [← BitVec.twoPow_eq, BitVec.toNat_twoPow_of_lt lt]

theorem toNat_delta (ordered : ps ≤ cs) (fits : cs.toNat - ps.toNat + 1 < 2 ^ 64) :
    (cs - ps + 1).toNat = cs.toNat - ps.toNat + 1 := by
  rw [BitVec.toNat_add, BitVec.toNat_sub_of_le ordered]
  exact Nat.mod_eq_of_lt fits

section

variable (index : indexBits < 56) {k : ℕ}
include index

theorem toNat_deltaUpperbound : (deltaUpperbound indexBits).toNat = 2 ^ (8 + indexBits) := by
  have bits : commitBits indexBits = 8 + indexBits := by
    unfold commitBits prepBits
    omega
  rw [deltaUpperbound, bits, toNat_twoPow (by omega)]

theorem getLsbD_commitFilter : (commitFilter indexBits).getLsbD k = decide (k < 8 + indexBits) := by
  have value : (commitFilter indexBits).toNat = 2 ^ (8 + indexBits) - 1 := by
    change (deltaUpperbound indexBits - 1).toNat = _
    rw [BitVec.toNat_sub_of_le, toNat_deltaUpperbound index]
    · rfl
    · rw [BitVec.le_def, toNat_deltaUpperbound index]
      exact Nat.one_le_two_pow
  rw [← BitVec.testBit_toNat, value, Nat.testBit_two_pow_sub_one]

theorem getLsbD_indexedSeq : (indexedSeq indexBits ps).getLsbD k = (decide (k < indexBits) && ps.getLsbD k) := by
  rw [← BitVec.testBit_toNat, indexedSeq, BitVec.toNat_umod, toNat_twoPow (by omega), Nat.testBit_mod_two_pow,
    BitVec.testBit_toNat]

/-- The two fields do not overlap: each comes back through its own mask. -/
theorem fields_apart {delta : BitVec 64} (fits : delta.toNat < 2 ^ (8 + indexBits)) (prepared : ps.toNat < 2 ^ 56) :
    (ps <<< 8 &&& ~~~commitFilter indexBits ||| delta) &&& commitFilter indexBits = delta ∧
      ((ps <<< 8 &&& ~~~commitFilter indexBits ||| delta) &&& ~~~commitFilter indexBits) >>> 8 |||
        indexedSeq indexBits ps = ps := by
  have above : ∀ {v : BitVec 64} {n k : ℕ}, v.toNat < 2 ^ n → n ≤ k → v.getLsbD k = false := by
    intro v n k lt le
    rw [← BitVec.testBit_toNat]
    exact Nat.testBit_lt_two_pow (lt.trans_le (Nat.pow_le_pow_right (by decide) le))
  constructor
  · refine BitVec.eq_of_getLsbD_eq fun k _ => ?_
    by_cases inside : k < 8 + indexBits
    · simp [getLsbD_commitFilter index, inside]
    · simp [getLsbD_commitFilter index, inside, above fits (not_lt.mp inside)]
  · refine BitVec.eq_of_getLsbD_eq fun k _ => ?_
    by_cases inside : k < indexBits
    · simp [getLsbD_commitFilter index, getLsbD_indexedSeq index, inside]
    · have outside : delta.getLsbD (8 + k) = false := above fits (by omega)
      simp only [BitVec.getLsbD_or, BitVec.getLsbD_ushiftRight, BitVec.getLsbD_and, BitVec.getLsbD_shiftLeft,
        BitVec.getLsbD_not, getLsbD_commitFilter index, getLsbD_indexedSeq index, inside, outside]
      by_cases top : k < 56
      · simp [show 8 + k < 64 by omega, show ¬ 8 + k < 8 + indexBits by omega]
      · simp [above prepared (not_lt.mp top)]

theorem parse_new (accepts : Accepts indexBits ps cs) :
    ∃ rep, new indexBits ps cs = some rep ∧ parse indexBits rep (indexedSeq indexBits ps) = some (ps, cs) := by
  obtain ⟨prepared, ordered, near⟩ := accepts
  have word : 2 ^ (8 + indexBits) < 2 ^ 64 := Nat.pow_lt_pow_right (by decide) (by omega)
  have delta := toNat_delta ordered (near.trans word)
  have fits : ¬ deltaUpperbound indexBits ≤ cs - ps + 1 := by
    rw [BitVec.le_def, delta, toNat_deltaUpperbound index]
    omega
  obtain ⟨low, whole⟩ := fields_apart index (delta ▸ near) prepared
  have nonzero : cs - ps + 1 ≠ 0 := by
    intro zero
    rw [zero] at delta
    cases delta
  have back : ps + (cs - ps + 1) - 1 = cs := by bv_omega
  refine ⟨_, if_neg fits, ?_⟩
  rw [parse, low, whole, if_neg nonzero]
  exact congrArg (fun seq => some (ps, seq)) back

end

/-- The words of `commit_cache_` parse to the entries that `State` keeps. -/
structure HoldsEntries (indexBits : ℕ) (words : List (BitVec 64)) (cache : List (Option CommitEntry)) : Prop where
  length : words.length = cache.length
  entry : ∀ i, (parse indexBits (words.getD i 0) (BitVec.ofNat 64 i)).map (fun entry => ⟨entry.1.toNat, entry.2.toNat⟩) =
    cache.getD i none

theorem holdsEntries_initial (cfg : Config) :
    HoldsEntries cfg.commitCacheBits (.replicate cfg.commitCacheSize 0) (State.initial cfg).commitCache := by
  refine ⟨by simp [State.initial], fun i => ?_⟩
  by_cases inside : i < cfg.commitCacheSize <;> simp [State.initial, inside, parse]

theorem HoldsEntries.set {words : List (BitVec 64)} {cache : List (Option CommitEntry)}
    (holds : HoldsEntries indexBits words cache) (index : indexBits < 56) (accepts : Accepts indexBits ps cs) :
    ∃ rep, new indexBits ps cs = some rep ∧ HoldsEntries indexBits (words.set (ps.toNat % 2 ^ indexBits) rep)
      (cache.set (ps.toNat % 2 ^ indexBits) (some ⟨ps.toNat, cs.toNat⟩)) := by
  obtain ⟨rep, encoded, parsed⟩ := parse_new index accepts
  have slot : indexedSeq indexBits ps = BitVec.ofNat 64 (ps.toNat % 2 ^ indexBits) := by
    apply BitVec.eq_of_toNat_eq
    have small : ps.toNat % 2 ^ indexBits < 2 ^ 64 := (Nat.mod_le _ _).trans_lt ps.isLt
    rw [indexedSeq, BitVec.toNat_umod, toNat_twoPow (by omega), BitVec.toNat_ofNat, Nat.mod_eq_of_lt small]
  rw [slot] at parsed
  refine ⟨rep, encoded, by simpa using holds.length, fun i => ?_⟩
  have before := holds.entry i
  simp only [List.getD_eq_getElem?_getD, List.getElem?_set] at before ⊢
  split
  next here =>
    subst here
    rw [← holds.length]
    split
    · simp [parsed]
    · simp [parse]
  next => exact before

theorem commitEntry64b_lossless (index : indexBits < 56) :
    (∀ ps cs, Accepts indexBits ps cs → ∃ rep, new indexBits ps cs = some rep ∧
      parse indexBits rep (indexedSeq indexBits ps) = some (ps, cs)) ∧
    (∀ ps cs ps' cs', Accepts indexBits ps cs → Accepts indexBits ps' cs' →
      indexedSeq indexBits ps = indexedSeq indexBits ps' → new indexBits ps cs = new indexBits ps' cs' →
      ps = ps' ∧ cs = cs') ∧
    ∀ ps cs, ps.toNat < 2 ^ 56 → ps ≤ cs → cs.toNat + 1 < 2 ^ 64 → ¬ Accepts indexBits ps cs →
      new indexBits ps cs = none := by
  refine ⟨fun ps cs => parse_new index, ?_, ?_⟩
  · intro ps cs ps' cs' accepts accepts' sameIndex sameRep
    obtain ⟨rep, encoded, parsed⟩ := parse_new index accepts
    obtain ⟨rep', encoded', parsed'⟩ := parse_new index accepts'
    rw [encoded, encoded', Option.some.injEq] at sameRep
    rw [sameRep, sameIndex, parsed', Option.some.injEq, Prod.mk.injEq] at parsed
    exact ⟨parsed.1.symm, parsed.2.symm⟩
  · intro ps cs prepared ordered last refused
    have delta := toNat_delta ordered (by omega)
    refine if_pos ?_
    rw [BitVec.le_def, delta, toNat_deltaUpperbound index]
    exact not_lt.mp fun near => refused ⟨prepared, ordered, near⟩

theorem commitEntry64b_lossless_default : ∃ rep, new 23 5 8 = some rep ∧ parse 23 rep 5 = some (5, 8) :=
  (commitEntry64b_lossless (by decide)).1 5 8 ⟨by decide, by decide, by decide⟩

end VcompProof.WritePrepared
