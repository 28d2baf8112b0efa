import Vcomp.Plr.GreedyFit

namespace VcompProof

open VcompModel List

def InCone (sLo sHi : Option ℚ) (slope : ℚ) : Prop := (∀ lo ∈ sLo, lo ≤ slope) ∧ ∀ hi ∈ sHi, slope ≤ hi

def OpenCone (sLo sHi : Option ℚ) : Prop :=
  sLo = none ∧ sHi = none ∨ ∃ lo hi, sLo = some lo ∧ sHi = some hi ∧ lo ≤ hi ∧ 0 < lo + hi

variable {errorBound slope : ℚ}

theorem slope_fits_iff {dx dy : ℚ} (ahead : 0 < dx) :
    (dy - errorBound) / dx ≤ slope ∧ slope ≤ (dy + errorBound) / dx ↔ |slope * dx - dy| ≤ errorBound := by
  rw [div_le_iff₀ ahead, le_div_iff₀ ahead, abs_le]
  constructor <;> rintro ⟨low, high⟩ <;> constructor <;> linarith

variable {sLo sHi : Option ℚ}

theorem inCone_narrowed {newLo newHi : ℚ}
    (inside : InCone (some (sLo.elim newLo (max · newLo))) (some (sHi.elim newHi (min · newHi))) slope) :
    InCone sLo sHi slope ∧ newLo ≤ slope ∧ slope ≤ newHi := by
  obtain ⟨low, high⟩ := inside
  have low := low _ rfl
  have high := high _ rfl
  refine ⟨⟨?_, ?_⟩, ?_, ?_⟩
  · rintro lo ⟨⟩
    exact (le_max_left _ _).trans low
  · rintro hi ⟨⟩
    exact high.trans (min_le_left _ _)
  · cases sLo with
    | none => exact low
    | some lo => exact (le_max_right _ _).trans low
  · cases sHi with
    | none => exact high
    | some hi => exact high.trans (min_le_right _ _)

theorem openCone_narrowed {dx dy : ℚ} (bound : 0 ≤ errorBound) (ahead : 0 < dx) (later : 0 < dy)
    (cone : OpenCone sLo sHi)
    (stays : ¬(sHi.any ((dy - errorBound) / dx > ·) || sLo.any ((dy + errorBound) / dx < ·)) = true) :
    OpenCone (some (sLo.elim ((dy - errorBound) / dx) (max · ((dy - errorBound) / dx))))
      (some (sHi.elim ((dy + errorBound) / dx) (min · ((dy + errorBound) / dx)))) := by
  have newOrder : (dy - errorBound) / dx ≤ (dy + errorBound) / dx := by
    gcongr
    linarith
  have newSum : 0 < (dy - errorBound) / dx + (dy + errorBound) / dx := by
    rw [← add_div]
    apply div_pos _ ahead
    linarith
  right
  rcases cone with ⟨rfl, rfl⟩ | ⟨lo, hi, rfl, rfl, order, sum⟩
  · exact ⟨_, _, rfl, rfl, newOrder, newSum⟩
  · simp only [Option.any_some, Bool.or_eq_true, decide_eq_true_eq, not_or, not_lt] at stays
    refine ⟨_, _, rfl, rfl, ?_, ?_⟩
    · exact max_le (le_min order stays.2) (le_min stays.1 newOrder)
    · dsimp only [Option.elim]
      rcases min_choice hi ((dy + errorBound) / dx) with upper | upper
      · rw [upper]
        linarith [le_max_left lo ((dy - errorBound) / dx)]
      · rw [upper]
        linarith [le_max_right lo ((dy - errorBound) / dx)]

variable {cone : FitCone}

theorem openCone_slope (isOpen : OpenCone cone.sLo cone.sHi) : InCone cone.sLo cone.sHi cone.slope := by
  rcases isOpen with ⟨low, high⟩ | ⟨lo, hi, low, high, order, -⟩
  · rw [low, high]
    constructor <;> rintro _ ⟨⟩
  · rw [FitCone.slope, low, high]
    constructor
    · rintro _ ⟨⟩
      linarith
    · rintro _ ⟨⟩
      linarith

theorem openCone_slope_pos (isOpen : OpenCone cone.sLo cone.sHi) (bounded : cone.sLo ≠ none) : 0 < cone.slope := by
  rcases isOpen with ⟨low, -⟩ | ⟨lo, hi, low, high, -, sum⟩
  · exact absurd low bounded
  · rw [FitCone.slope, low, high]
    linarith

structure Taken (errorBound : ℚ) (x0 y0 i segEnd : ℕ) (keys : List ℕ) (sLo sHi : Option ℚ) (cone : FitCone)
    (taken : List ℕ) : Prop where
  split : keys = taken ++ cone.remaining
  next : cone.next = i + taken.length
  segEnd : cone.segEnd = taken.getLastD segEnd
  isOpen : OpenCone cone.sLo cone.sHi
  narrower : ∀ slope, InCone cone.sLo cone.sHi slope → InCone sLo sHi slope
  fits : ∀ slope, InCone cone.sLo cone.sHi slope → ∀ j key : ℕ, taken[j]? = some key →
    |slope * ((key : ℚ) - x0) - ((i : ℚ) + j - y0)| ≤ errorBound
  bounded : taken ≠ [] ∨ sLo ≠ none → cone.sLo ≠ none

theorem extendCone_taken (bound : 0 ≤ errorBound) {x0 y0 : ℕ} (i segEnd : ℕ) (keys : List ℕ) (sLo sHi : Option ℚ)
    (sorted : (segEnd :: keys).Pairwise (· < ·)) (first : x0 ≤ segEnd) (later : y0 < i) (cone : OpenCone sLo sHi) :
    ∃ taken, Taken errorBound x0 y0 i segEnd keys sLo sHi (extendCone errorBound x0 y0 i keys segEnd sLo sHi) taken ∧
      (sLo = none → sHi = none → keys ≠ [] → taken ≠ []) := by
  induction keys generalizing i segEnd sLo sHi with
  | nil => exact ⟨[], ⟨rfl, rfl, rfl, cone, fun _ inside => inside, by simp, by simp [extendCone]⟩, by simp⟩
  | cons key keys ih =>
    obtain ⟨ahead, sorted'⟩ := pairwise_cons.mp sorted
    have right : x0 < key := first.trans_lt (ahead key mem_cons_self)
    have dx : (0 : ℚ) < (key : ℚ) - x0 := sub_pos.mpr (by exact_mod_cast right)
    have dy : (0 : ℚ) < (i : ℚ) - y0 := sub_pos.mpr (by exact_mod_cast later)
    simp only [extendCone, if_neg (not_le.mpr dx)]
    split
    next closes =>
      refine ⟨[], ⟨rfl, rfl, rfl, cone, fun _ inside => inside, by simp, by simp⟩, ?_⟩
      rintro rfl rfl
      simp at closes
    next stays =>
      obtain ⟨taken, spec, -⟩ := ih (i + 1) key _ _ sorted' right.le (by omega) (openCone_narrowed bound dx dy cone stays)
      refine ⟨key :: taken, ⟨?_, ?_, ?_, spec.isOpen, ?_, ?_, fun _ => spec.bounded (.inr (by simp))⟩, by simp⟩
      · rw [cons_append, ← spec.split]
      · rw [spec.next, length_cons]
        omega
      · rw [spec.segEnd, getLastD_cons]
      · exact fun slope inside => (inCone_narrowed (spec.narrower slope inside)).1
      · intro slope inside j point found
        cases j with
        | zero =>
          obtain rfl : key = point := by simpa using found
          have fits := (slope_fits_iff dx).mp (inCone_narrowed (spec.narrower slope inside)).2
          simpa using fits
        | succ j =>
          have fits := spec.fits slope inside j point (by simpa using found)
          push_cast at fits ⊢
          rwa [show (i : ℚ) + (j + 1) - y0 = i + 1 + j - y0 by ring]

structure Fitted (errorBound : ℚ) (start : ℕ) (keys : List ℕ) (segments : List PLRSegment) : Prop where
  ordered : segments.Pairwise fun a b => a.keyEnd < b.keyStart
  proper : ∀ seg ∈ segments, seg.keyStart ≤ seg.keyEnd
  ends : ∀ seg ∈ segments, seg.keyStart ∈ keys ∧ seg.keyEnd ∈ keys
  covers : ∀ j key : ℕ, keys[j]? = some key →
    ∃ seg ∈ segments, (seg.keyStart ≤ key ∧ key ≤ seg.keyEnd) ∧ |seg.eval key - ((start : ℚ) + j)| ≤ errorBound
  rising : ∀ seg ∈ segments, seg.keyStart < seg.keyEnd → 0 < seg.slope

theorem le_getLastD {first : ℕ} {keys : List ℕ} (sorted : (first :: keys).Pairwise (· < ·)) :
    ∀ key ∈ first :: keys, key ≤ keys.getLastD first := by
  induction keys generalizing first with
  | nil => simp
  | cons next keys ih =>
    obtain ⟨ahead, sorted'⟩ := pairwise_cons.mp sorted
    have rest := ih sorted'
    rw [getLastD_cons]
    refine forall_mem_cons.mpr ⟨?_, rest⟩
    exact (ahead next mem_cons_self).le.trans (rest next mem_cons_self)

theorem greedyLoop_fitted (bound : 0 ≤ errorBound) (fuel start : ℕ) (keys : List ℕ) (sorted : keys.Pairwise (· < ·))
    (enough : keys.length ≤ fuel) : Fitted errorBound start keys (greedyLoop errorBound fuel start keys) := by
  induction fuel generalizing start keys with
  | zero =>
    obtain rfl : keys = [] := length_eq_zero_iff.mp (by omega)
    exact ⟨List.Pairwise.nil, by simp [greedyLoop], by simp [greedyLoop], by simp, by simp [greedyLoop]⟩
  | succ fuel ih =>
    rcases keys with _ | ⟨key, _ | ⟨second, rest⟩⟩
    · exact ⟨List.Pairwise.nil, by simp [greedyLoop], by simp [greedyLoop], by simp, by simp [greedyLoop]⟩
    · refine ⟨pairwise_singleton _ _, by simp [greedyLoop], by simp [greedyLoop], ?_, by simp [greedyLoop]⟩
      intro j point found
      obtain ⟨rfl, rfl⟩ : j = 0 ∧ key = point := by
        cases j <;> simp_all
      exact ⟨_, mem_singleton_self _, ⟨le_rfl, le_rfl⟩, by simpa [PLRSegment.eval] using bound⟩
    · obtain ⟨taken, spec, some_taken⟩ := extendCone_taken bound (start + 1) key (second :: rest) none none sorted le_rfl
        (Nat.lt_succ_self start) (.inl ⟨rfl, rfl⟩)
      have ne : taken ≠ [] := some_taken rfl rfl (by simp)
      rw [greedyLoop]
      set cone := extendCone errorBound key start (start + 1) (second :: rest) key none none
      have whole : key :: second :: rest = (key :: taken) ++ cone.remaining := by rw [spec.split, cons_append]
      have sorted' := whole ▸ sorted
      obtain ⟨sortedTaken, sortedRest, across⟩ := pairwise_append.mp sorted'
      have segEnd_mem : cone.segEnd ∈ key :: taken := by
        rw [spec.segEnd]
        exact getLastD_mem_cons ..
      have largest : ∀ point ∈ key :: taken, point ≤ cone.segEnd := by
        rw [spec.segEnd]
        exact le_getLastD sortedTaken
      have shorter : (key :: second :: rest).length = taken.length + 1 + cone.remaining.length := by
        rw [whole, length_append, length_cons]
      have slope := openCone_slope spec.isOpen
      have tail := ih cone.next cone.remaining sortedRest (by omega)
      refine ⟨?_, ?_, ?_, ?_, ?_⟩
      · refine pairwise_cons.mpr ⟨fun seg mem => ?_, tail.ordered⟩
        exact across _ segEnd_mem _ (tail.ends seg mem).1
      · exact forall_mem_cons.mpr ⟨largest key mem_cons_self, tail.proper⟩
      · refine forall_mem_cons.mpr ⟨⟨mem_cons_self, whole ▸ mem_append_left _ segEnd_mem⟩, fun seg mem => ?_⟩
        rw [whole]
        exact ⟨mem_append_right _ (tail.ends seg mem).1, mem_append_right _ (tail.ends seg mem).2⟩
      · intro j point found
        rw [whole] at found
        by_cases early : j < (key :: taken).length
        · rw [getElem?_append_left early] at found
          have mem : point ∈ key :: taken := mem_of_getElem? found
          refine ⟨_, mem_cons_self, ⟨?_, largest point mem⟩, ?_⟩
          · rcases mem_cons.mp mem with rfl | later
            · exact le_rfl
            · exact ((pairwise_cons.mp sortedTaken).1 point later).le
          · cases j with
            | zero =>
              obtain rfl : key = point := by simpa using found
              simpa [PLRSegment.eval] using bound
            | succ j =>
              have fits := spec.fits _ slope j point (by simpa using found)
              simp only [PLRSegment.eval]
              push_cast at fits ⊢
              convert fits using 2
              ring
        · rw [getElem?_append_right (by omega)] at found
          obtain ⟨seg, mem, inside, near⟩ := tail.covers _ point found
          refine ⟨seg, mem_cons_of_mem _ mem, inside, ?_⟩
          rw [spec.next, length_cons] at near
          have index : ((start + 1 + taken.length : ℕ) : ℚ) + ((j - (taken.length + 1) : ℕ) : ℚ) = (start : ℚ) + j := by
            rw [length_cons] at early
            exact_mod_cast (by omega : start + 1 + taken.length + (j - (taken.length + 1)) = start + j)
          rwa [index] at near
      · exact forall_mem_cons.mpr ⟨fun _ => openCone_slope_pos spec.isOpen (spec.bounded (.inl ne)), tail.rising⟩
      · simp

variable {segments : List PLRSegment} {key : ℕ}

theorem predictSearch_eq {k : ℕ} (before : ∀ j seg, j < k → segments[j]? = some seg → seg.keyEnd < key)
    (after : ∀ j seg, k ≤ j → segments[j]? = some seg → key ≤ seg.keyEnd) (fuel lo hi : ℕ) (low : lo ≤ k) (high : k ≤ hi)
    (inside : hi ≤ segments.length) (enough : hi - lo ≤ fuel) : predictSearch segments key fuel lo hi = k := by
  induction fuel generalizing lo hi with
  | zero =>
    rw [predictSearch]
    omega
  | succ fuel ih =>
    rw [predictSearch]
    split
    next going =>
      have mid : lo + (hi - lo) / 2 < segments.length := by omega
      dsimp only
      rw [getElem?_eq_getElem mid]
      have found := getElem?_eq_getElem mid
      change (if segments[lo + (hi - lo) / 2].keyEnd < key then _ else _) = k
      split
      next ends =>
        have low' : lo + (hi - lo) / 2 + 1 ≤ k := by
          by_contra early
          have := after _ _ (by omega) found
          omega
        exact ih _ hi low' high inside (by omega)
      next reaches =>
        have high' : k ≤ lo + (hi - lo) / 2 := by
          by_contra late
          have := before _ _ (by omega) found
          omega
        exact ih lo _ low high' (by omega) (by omega)
    next closed => omega

theorem predict_eq_eval {plr : PLRModel} (ordered : plr.segments.Pairwise fun a b => a.keyEnd < b.keyStart)
    (proper : ∀ seg ∈ plr.segments, seg.keyStart ≤ seg.keyEnd) {seg : PLRSegment} (mem : seg ∈ plr.segments)
    (inside : seg.keyStart ≤ key ∧ key ≤ seg.keyEnd) : plr.predict key = seg.eval key := by
  obtain ⟨k, bound, rfl⟩ := mem_iff_getElem.mp mem
  have order := pairwise_iff_getElem.mp ordered
  have index : predictSearch plr.segments key plr.segments.length 0 plr.segments.length = k := by
    refine predictSearch_eq ?_ ?_ _ 0 _ (Nat.zero_le k) bound.le le_rfl (by omega)
    · intro j other lt found
      obtain ⟨_, rfl⟩ := List.getElem?_eq_some_iff.mp found
      exact (order j k _ bound lt).trans_le inside.1
    · intro j other le found
      obtain ⟨within, rfl⟩ := List.getElem?_eq_some_iff.mp found
      rcases lt_or_eq_of_le le with lt | rfl
      · exact inside.2.trans ((order k j bound within lt).le.trans (proper _ (List.getElem_mem within)))
      · exact inside.2
  obtain ⟨back, last⟩ := Option.isSome_iff_exists.mp (getLast?_isSome.mpr (ne_nil_of_mem mem))
  rw [PLRModel.predict]
  simp only [last, index, getElem?_eq_getElem bound]
  rw [if_neg (by omega)]

theorem segments_apart (ordered : segments.Pairwise fun a b => a.keyEnd < b.keyStart) {a b : PLRSegment}
    (left : a ∈ segments) (right : b ∈ segments) (nodup : a ≠ b) : a.keyEnd < b.keyStart ∨ b.keyEnd < a.keyStart := by
  obtain ⟨i, within, rfl⟩ := mem_iff_getElem.mp left
  obtain ⟨j, within', rfl⟩ := mem_iff_getElem.mp right
  have order := pairwise_iff_getElem.mp ordered
  rcases Nat.lt_trichotomy i j with lt | rfl | more
  · exact .inl (order i j within within' lt)
  · exact absurd rfl nodup
  · exact .inr (order j i within' within more)

/-- In exact arithmetic the segments are in order, start and end at keys, hold every key once, predict within the bound,
and rise where they hold several keys. -/
theorem greedyPLRFit_error {keys : List ℕ} (sorted : keys.Pairwise (· < ·)) {errorBound : ℚ} (bound : 0 ≤ errorBound) :
    (greedyPLRFit keys errorBound).segments.Pairwise (fun a b => a.keyEnd < b.keyStart) ∧
      (∀ seg ∈ (greedyPLRFit keys errorBound).segments,
        seg.keyStart ≤ seg.keyEnd ∧ seg.keyStart ∈ keys ∧ seg.keyEnd ∈ keys) ∧
      (∀ key ∈ keys, ∃! seg, seg ∈ (greedyPLRFit keys errorBound).segments ∧ seg.keyStart ≤ key ∧ key ≤ seg.keyEnd) ∧
      (∀ i key : ℕ, keys[i]? = some key → |(greedyPLRFit keys errorBound).predict key - i| ≤ errorBound) ∧
      ∀ seg ∈ (greedyPLRFit keys errorBound).segments,
        (∃ a ∈ keys, ∃ b ∈ keys, a ≠ b ∧ (seg.keyStart ≤ a ∧ a ≤ seg.keyEnd) ∧ seg.keyStart ≤ b ∧ b ≤ seg.keyEnd) →
          0 < seg.slope := by
  have fitted : Fitted errorBound 0 keys (greedyPLRFit keys errorBound).segments :=
    greedyLoop_fitted bound keys.length 0 keys sorted le_rfl
  refine ⟨fitted.ordered, fun seg mem => ⟨fitted.proper seg mem, fitted.ends seg mem⟩, ?_, ?_, ?_⟩
  · intro key mem
    obtain ⟨i, found⟩ := getElem?_of_mem mem
    obtain ⟨seg, here, inside, -⟩ := fitted.covers i key found
    refine ⟨seg, ⟨here, inside⟩, ?_⟩
    rintro other ⟨there, inside'⟩
    by_contra nodup
    rcases segments_apart fitted.ordered there here nodup with before | after
    · omega
    · omega
  · intro i key found
    obtain ⟨seg, mem, inside, near⟩ := fitted.covers i key found
    rw [predict_eq_eval fitted.ordered fitted.proper mem inside]
    simpa using near
  · rintro seg mem ⟨a, -, b, -, nodup, insideA, insideB⟩
    exact fitted.rising seg mem (by omega)

theorem greedyPLRFit_error_exact : (greedyPLRFit [0, 1, 5, 7, 9] 0).segments.length = 2 ∧
    |(greedyPLRFit [0, 1, 5, 7, 9] 0).predict 7 - (3 : ℕ)| ≤ 0 :=
  ⟨by decide +kernel, (greedyPLRFit_error (by decide) le_rfl).2.2.2.1 3 7 rfl⟩

end VcompProof
