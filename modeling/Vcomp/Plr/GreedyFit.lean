import Vcomp.Plr.Model

namespace VcompModel

/-- Locals of the segment under construction: the key at `seg_end`, the cone (`none` is infinite), and the keys from
`next` on. -/
structure FitCone where
  segEnd : ℕ
  sLo : Option ℚ
  sHi : Option ℚ
  next : ℕ
  remaining : List ℕ
  deriving DecidableEq, Repr

def extendCone (errorBound x0 y0 : ℚ) : ℕ → List ℕ → ℕ → Option ℚ → Option ℚ → FitCone
  | i, [], segEnd, sLo, sHi => ⟨segEnd, sLo, sHi, i, []⟩
  | i, key :: keys, segEnd, sLo, sHi =>
    let dx := (key : ℚ) - x0
    let dy := (i : ℚ) - y0
    if dx ≤ 0 then extendCone errorBound x0 y0 (i + 1) keys key sLo sHi
    else
      let newLo := (dy - errorBound) / dx
      let newHi := (dy + errorBound) / dx
      if sHi.any (newLo > ·) || sLo.any (newHi < ·) then ⟨segEnd, sLo, sHi, i, key :: keys⟩
      else
        extendCone errorBound x0 y0 (i + 1) keys key
          (some (sLo.elim newLo (max · newLo))) (some (sHi.elim newHi (min · newHi)))

def FitCone.slope (cone : FitCone) : ℚ :=
  match cone.sLo, cone.sHi with
  | none, none => 0
  | none, some hi => hi
  | some lo, none => lo
  | some lo, some hi => (lo + hi) / 2

def greedyLoop (errorBound : ℚ) : (fuel segStart : ℕ) → List ℕ → List PLRSegment
  | 0, _, _ => []
  | _ + 1, _, [] => []
  | _ + 1, segStart, [key] => [⟨key, key, 0, segStart⟩]
  | fuel + 1, segStart, key :: keys =>
    let cone := extendCone errorBound key segStart (segStart + 1) keys key none none
    ⟨key, cone.segEnd, cone.slope, segStart - cone.slope * key⟩ ::
      greedyLoop errorBound fuel cone.next cone.remaining

def greedyPLRFit (sortedKeys : List ℕ) (errorBound : ℚ) : PLRModel :=
  ⟨greedyLoop errorBound sortedKeys.length 0 sortedKeys⟩

end VcompModel

namespace VcompProof

open VcompModel List

theorem extendCone_suffix (errorBound x0 y0 : ℚ) (i : ℕ) (keys : List ℕ) (segEnd : ℕ) (sLo sHi : Option ℚ) :
    (extendCone errorBound x0 y0 i keys segEnd sLo sHi).remaining <:+ keys := by
  induction keys generalizing i segEnd sLo sHi with
  | nil => simp [extendCone]
  | cons key keys ih =>
    simp only [extendCone]
    split_ifs
    · exact (ih _ _ _ _).trans (suffix_cons _ _)
    · exact suffix_refl _
    · exact (ih _ _ _ _).trans (suffix_cons _ _)

theorem extendCone_segEnd_mem (errorBound x0 y0 : ℚ) (i : ℕ) (keys : List ℕ) (segEnd : ℕ) (sLo sHi : Option ℚ) :
    (extendCone errorBound x0 y0 i keys segEnd sLo sHi).segEnd ∈ segEnd :: keys := by
  induction keys generalizing i segEnd sLo sHi with
  | nil => simp [extendCone]
  | cons key keys ih =>
    simp only [extendCone]
    split_ifs
    · exact mem_cons_of_mem _ (ih _ _ _ _)
    · exact mem_cons_self
    · exact mem_cons_of_mem _ (ih _ _ _ _)

theorem greedyLoop_ends_mem (errorBound : ℚ) (fuel segStart : ℕ) (keys : List ℕ) :
    ∀ seg ∈ greedyLoop errorBound fuel segStart keys, seg.keyStart ∈ keys ∧ seg.keyEnd ∈ keys := by
  induction fuel generalizing segStart keys with
  | zero => simp [greedyLoop]
  | succ fuel ih =>
    match keys with
    | [] => simp [greedyLoop]
    | [key] => simp [greedyLoop]
    | key :: next :: keys =>
      intro seg mem
      simp only [greedyLoop, mem_cons] at mem
      rcases mem with rfl | mem
      · exact ⟨mem_cons_self, extendCone_segEnd_mem _ _ _ _ _ _ _ _⟩
      · have ends := ih _ _ seg mem
        have suffix := extendCone_suffix errorBound key segStart (segStart + 1) (next :: keys) key none none
        exact ⟨mem_cons_of_mem _ (suffix.subset ends.1), mem_cons_of_mem _ (suffix.subset ends.2)⟩

theorem greedyPLRFit_ends_mem (keys : List ℕ) (errorBound : ℚ) :
    ∀ seg ∈ (greedyPLRFit keys errorBound).segments, seg.keyStart ∈ keys ∧ seg.keyEnd ∈ keys :=
  greedyLoop_ends_mem errorBound keys.length 0 keys

end VcompProof
