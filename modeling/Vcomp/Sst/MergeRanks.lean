import Mathlib.Algebra.BigOperators.Ring.List
import Vcomp.Plr.FitError
import Vcomp.Sst.MergedModel
import Vcomp.Sst.UnionEstimate

namespace VcompProof

open VcompModel SortUnique List

section

variable {lo hi : ℕ} {segs : List PLRSegment} {seg : PLRSegment}

def rankIn : List PLRSegment → ℕ → ℚ
  | [], _ => 0
  | [seg], key => if key ≤ seg.keyEnd then seg.eval key else seg.posEnd
  | seg :: next :: rest, key => if key ≤ seg.keyEnd then seg.eval key else rankIn (next :: rest) key

def Wide (segs : List PLRSegment) : Prop := ∀ seg ∈ segs, seg.keyStart < seg.keyEnd

structure FoundAt (segs : List PLRSegment) (key n : ℕ) : Prop where
  inside : n ≤ segs.length
  before : ∀ j seg, j < n → segs[j]? = some seg → seg.keyEnd < key
  after : ∀ j seg, n ≤ j → segs[j]? = some seg → key ≤ seg.keyEnd
  rank : ∀ seg, segs[n]? = some seg → rankIn segs key = seg.eval key ∧ (0 < n → seg.keyStart ≤ key)
  past : segs[n]? = none → ∀ back, segs.getLast? = some back → rankIn segs key = back.posEnd

theorem Tiles.proper (tiles : Tiles lo hi segs) : ∀ seg ∈ segs, ProperSegment seg := by
  induction tiles with
  | nil => simp
  | cons _ proper _ ih => exact forall_mem_cons.mpr ⟨proper, ih⟩

theorem rankIn_first (rest : List PLRSegment) {key : ℕ} (here : key ≤ seg.keyEnd) :
    rankIn (seg :: rest) key = seg.eval key := by
  cases rest <;> rw [rankIn, if_pos here]

theorem Tiles.foundAt (tiles : Tiles lo hi segs) (key : ℕ) : ∃ n, FoundAt segs key n := by
  induction tiles with
  | nil => exact ⟨0, le_rfl, by simp, by simp, by simp, by simp⟩
  | @cons lo hi seg rest first proper tail ih =>
    by_cases here : key ≤ seg.keyEnd
    · refine ⟨0, Nat.zero_le _, by simp, ?_, ?_, by simp⟩
      · intro j other _ found
        rcases mem_cons.mp (mem_of_getElem? found) with rfl | later
        · exact here
        · exact here.trans ((tail.within other later).1.trans (tail.proper other later).1)
      · intro other found
        obtain rfl : seg = other := by simpa using found
        exact ⟨rankIn_first rest here, fun zero => nomatch zero⟩
    · obtain ⟨n, found⟩ := ih
      refine ⟨n + 1, Nat.succ_le_succ found.inside, ?_, ?_, ?_, ?_⟩
      · intro j other lt get
        cases j with
        | zero =>
          obtain rfl : seg = other := by simpa using get
          exact not_le.mp here
        | succ j => exact found.before j other (Nat.lt_of_succ_lt_succ lt) (by simpa using get)
      · intro j other above get
        cases j with
        | zero => omega
        | succ j => exact found.after j other (Nat.le_of_succ_le_succ above) (by simpa using get)
      · intro other get
        rw [getElem?_cons_succ] at get
        cases tail with
        | nil => simp at get
        | cons meets _ _ =>
          obtain ⟨rank, start⟩ := found.rank other get
          refine ⟨by rw [rankIn, if_neg here, rank], fun _ => ?_⟩
          cases n with
          | zero =>
            rw [getElem?_cons_zero, Option.some.injEq] at get
            subst get
            omega
          | succ n => exact start (Nat.succ_pos n)
      · intro gone back last
        rw [getElem?_cons_succ] at gone
        cases tail with
        | nil =>
          obtain rfl : seg = back := by simpa using last
          rw [rankIn, if_neg here]
        | cons =>
          rw [getLast?_cons_cons] at last
          rw [rankIn, if_neg here, found.past gone back last]

theorem Tiles.predict (tiles : Tiles lo hi segs) (ne : segs ≠ []) (key : ℕ) :
    (lo ≤ key → (PLRModel.mk segs).predict key = rankIn segs key) ∧ (key < lo → (PLRModel.mk segs).predict key = 0) := by
  obtain ⟨n, found⟩ := tiles.foundAt key
  have index := predictSearch_eq found.before found.after segs.length 0 segs.length (Nat.zero_le n) found.inside
    le_rfl (by omega)
  obtain ⟨back, last⟩ := Option.isSome_iff_exists.mp (getLast?_isSome.mpr ne)
  simp only [PLRModel.predict, last, index]
  cases get : segs[n]? with
  | none =>
    refine ⟨fun _ => (found.past get back last).symm, fun before => ?_⟩
    have pos : 0 < n := (length_pos_iff.mpr ne).trans_le (getElem?_eq_none_iff.mp get)
    obtain ⟨first, rest, rfl⟩ := exists_cons_of_ne_nil ne
    have ends := found.before 0 first pos rfl
    have starts := (tiles.within first mem_cons_self).1
    have order := (tiles.proper first mem_cons_self).1
    omega
  | some seg =>
    obtain ⟨rank, start⟩ := found.rank seg get
    have lower := (tiles.within seg (mem_of_getElem? get)).1
    dsimp only
    cases n with
    | zero =>
      have first := tiles.keyMin ne
      simp only [PLRModel.keyMin, head?_eq_getElem?, get] at first
      exact ⟨fun inside => by rw [if_neg (by omega), rank], fun before => by rw [if_pos (by omega)]⟩
    | succ n =>
      have start := start (Nat.succ_pos n)
      exact ⟨fun _ => by rw [if_neg (by omega), rank], fun before => by omega⟩

/-- Every segment after the first rises above the end of the one before it. -/
def Rising : List PLRSegment → Prop
  | seg :: next :: rest => seg.posEnd ≤ next.eval (next.keyStart + 1) ∧ Rising (next :: rest)
  | _ => True

def endPos (segs : List PLRSegment) : ℚ := (segs.getLast?.map PLRSegment.posEnd).getD 0

theorem eval_mono (proper : ProperSegment seg) {k k' : ℕ} (le : k ≤ k') : seg.eval k ≤ seg.eval k' := by
  have keys : (k : ℚ) ≤ k' := by exact_mod_cast le
  have ranks := mul_le_mul_of_nonneg_left keys proper.2
  simp only [PLRSegment.eval]
  linarith

variable (tiles : Tiles lo hi segs)
include tiles

theorem Tiles.rank_monotone (wide : Wide segs) (rising : Rising segs) :
    ∀ k k', lo < k → k ≤ k' → rankIn segs k ≤ rankIn segs k' := by
  induction tiles with
  | nil => exact fun _ _ _ _ => le_rfl
  | @cons lo hi seg rest first proper tail ih =>
    intro k k' past le
    cases tail with
    | nil =>
      simp only [rankIn]
      split_ifs with inside inside'
      · exact eval_mono proper le
      · exact eval_mono proper inside
      · omega
      · exact le_rfl
    | @cons _ _ next rest meets properNext tail =>
      obtain ⟨-, wideRest⟩ := forall_mem_cons.mp wide
      have wideNext := wideRest next mem_cons_self
      have later := ih wideRest rising.2
      have beyond : ∀ k, seg.keyEnd < k → rankIn (seg :: next :: rest) k = rankIn (next :: rest) k := fun k past => by
        rw [rankIn, if_neg (not_le.mpr past)]
      by_cases inside' : k' ≤ seg.keyEnd
      · rw [rankIn_first _ inside', rankIn_first _ (le.trans inside')]
        exact eval_mono proper le
      rw [beyond k' (not_le.mp inside')]
      by_cases inside : k ≤ seg.keyEnd
      · rw [rankIn_first _ inside]
        calc seg.eval k ≤ seg.posEnd := eval_mono proper inside
          _ ≤ next.eval (next.keyStart + 1) := rising.1
          _ = rankIn (next :: rest) (next.keyStart + 1) := (rankIn_first rest wideNext).symm
          _ ≤ rankIn (next :: rest) k' := later _ k' (by omega) (by omega)
      · rw [beyond k (not_le.mp inside)]
        exact later k k' (not_le.mp inside) le

theorem Tiles.rank_last (wide : Wide segs) (ne : segs ≠ []) : rankIn segs hi = endPos segs := by
  induction tiles with
  | nil => exact absurd rfl ne
  | @cons _ hi seg rest _ _ tail ih =>
    obtain ⟨wideFirst, wideRest⟩ := forall_mem_cons.mp wide
    cases tail with
    | nil =>
      rw [rankIn_first _ le_rfl]
      rfl
    | @cons _ _ next _ meets _ tail =>
      have past : seg.keyEnd < hi := meets ▸ (wideRest next mem_cons_self).trans_le tail.le
      rw [rankIn, if_neg (not_le.mpr past), ih wideRest (cons_ne_nil _ _), endPos, endPos, getLast?_cons_cons]

theorem Tiles.predict_monotone (wide : Wide segs) (ne : segs ≠ []) (zero : rankIn segs lo = 0)
    (rising : Rising segs) {k k' : ℕ} (le : k ≤ k') : (PLRModel.mk segs).predict k ≤ (PLRModel.mk segs).predict k' := by
  have mono := tiles.rank_monotone wide rising
  have onset : rankIn segs lo ≤ rankIn segs (lo + 1) := by
    cases tiles with
    | nil => exact absurd rfl ne
    | cons first proper tail =>
      have room := wide _ mem_cons_self
      rw [rankIn_first _ (by omega), rankIn_first _ (by omega)]
      exact eval_mono proper (Nat.le_succ _)
  have pos : ∀ key, lo ≤ key → 0 ≤ rankIn segs key := by
    intro key lower
    rcases lower.eq_or_lt with rfl | past
    · exact zero.ge
    · exact (zero ▸ onset).trans (mono (lo + 1) key (Nat.lt_succ_self lo) past)
  by_cases before : k' < lo
  · rw [(tiles.predict ne k).2 (by omega), (tiles.predict ne k').2 before]
  rw [(tiles.predict ne k').1 (not_lt.mp before)]
  rcases lt_trichotomy k lo with early | rfl | past
  · rw [(tiles.predict ne k).2 early]
    exact pos k' (not_lt.mp before)
  · rw [(tiles.predict ne k).1 le_rfl, zero]
    exact pos k' le
  · rw [(tiles.predict ne k).1 past.le]
    exact mono k k' past le

end

variable {lo hi : ℕ} {prev : PLRSegment} {rest : List PLRSegment}

def Joined : ℚ → List PLRSegment → Prop
  | _, [] => True
  | pos, line :: lines => line.posStart = pos ∧ Joined line.posEnd lines

/-- Lines that the fusion takes for one are one. -/
def Distinguished (a b : PLRSegment) : Prop :=
  |a.slope - b.slope| < 1 / 10 ^ 12 → |a.intercept - b.intercept| < 1 / 10 ^ 9 → a.slope = b.slope ∧ a.intercept = b.intercept

theorem compactSegments_head (prev : PLRSegment) (rest : List PLRSegment) :
    ∃ keyEnd tail, compactSegments prev rest = { prev with keyEnd := keyEnd } :: tail := by
  induction rest generalizing prev with
  | nil => exact ⟨prev.keyEnd, [], rfl⟩
  | cons _ _ ih =>
    rw [compactSegments]
    split_ifs
    · exact ih _
    · exact ⟨prev.keyEnd, _, rfl⟩

theorem compactSegments_wide (tiles : Tiles lo hi (prev :: rest)) (wide : Wide (prev :: rest)) :
    Wide (compactSegments prev rest) := by
  induction rest generalizing prev lo with
  | nil => exact wide
  | cons cur _ ih =>
    obtain ⟨widePrev, wideCur, wideRest⟩ := forall_mem_cons.mp wide |>.imp id forall_mem_cons.mp
    cases tiles with
    | cons first proper tail =>
      rw [compactSegments]
      split_ifs
      · cases tail with
        | cons meets _ tail =>
          have wider : prev.keyStart < cur.keyEnd := widePrev.trans (meets ▸ wideCur)
          exact ih (.cons first ⟨wider.le, proper.2⟩ tail) (forall_mem_cons.mpr ⟨wider, wideRest⟩)
      · exact forall_mem_cons.mpr ⟨widePrev, ih tail (forall_mem_cons.mpr ⟨wideCur, wideRest⟩)⟩

theorem compactSegments_kept (joined : Joined prev.posEnd rest) (slopes : ∀ seg ∈ rest, 0 ≤ seg.slope)
    (apart : (prev :: rest).IsChain Distinguished) :
    Rising (compactSegments prev rest) ∧ endPos (compactSegments prev rest) = endPos (prev :: rest) := by
  induction rest generalizing prev with
  | nil => exact ⟨trivial, rfl⟩
  | cons cur rest ih =>
    obtain ⟨start, joined⟩ := joined
    obtain ⟨here, later⟩ := isChain_cons_cons.mp apart
    obtain ⟨rises, slopes⟩ := forall_mem_cons.mp slopes
    have ends : ∀ line : PLRSegment, line.posEnd = cur.posEnd → endPos (line :: rest) = endPos (prev :: cur :: rest) := by
      intro line same
      cases rest <;> simp [endPos, same, getLast?_cons]
    rw [compactSegments]
    split_ifs with fused
    · -- the fused line is the next one, started earlier
      have same : ({ prev with keyEnd := cur.keyEnd } : PLRSegment) = { cur with keyStart := prev.keyStart } := by
        obtain ⟨slope, intercept⟩ := here fused.1 fused.2
        rw [← slope, ← intercept]
      rw [same, ← ends { cur with keyStart := prev.keyStart } rfl]
      refine ih joined slopes (later.imp_head ?_)
      exact fun apart => apart
    · obtain ⟨rising, last⟩ := ih joined slopes later
      obtain ⟨keyEnd, tail, head⟩ := compactSegments_head cur rest
      rw [← ends cur rfl, ← last]
      rw [head] at rising ⊢
      refine ⟨⟨?_, rising⟩, by rw [endPos, endPos, getLast?_cons_cons]⟩
      rw [← start]
      simp only [PLRSegment.posStart, PLRSegment.eval]
      push_cast
      linarith

variable {segs : List PLRSegment}

def mass (segs : List PLRSegment) : ℚ := (segs.map fun seg => seg.slope * ((seg.keyEnd - seg.keyStart : ℕ) : ℚ)).sum

theorem assignIntercepts_joined (tiles : Tiles lo hi segs) (pos : ℚ) : Joined pos (assignIntercepts pos segs) ∧
      ((assignIntercepts pos segs).getLast?.map PLRSegment.posEnd).getD pos = pos + mass segs := by
  induction tiles generalizing pos with
  | nil => simp [assignIntercepts, Joined, mass]
  | @cons _ _ seg rest _ proper _ ih =>
    set line : PLRSegment := { seg with intercept := pos - seg.slope * seg.keyStart }
    have ends : line.posEnd = pos + seg.slope * ((seg.keyEnd - seg.keyStart : ℕ) : ℚ) := by
      rw [Nat.cast_sub proper.1]
      simp only [line, PLRSegment.posEnd, PLRSegment.eval]
      ring
    obtain ⟨joined, last⟩ := ih line.posEnd
    rw [assignIntercepts, ← ends]
    refine ⟨⟨by simp only [PLRSegment.posStart, PLRSegment.eval]; ring, joined⟩, ?_⟩
    rw [mass, map_cons, sum_cons, ← add_assoc, ← ends, ← mass, ← last]
    cases assignIntercepts line.posEnd rest <;> simp [getLast?_cons, line]

theorem assignIntercepts_wide (wide : Wide segs) (pos : ℚ) : Wide (assignIntercepts pos segs) := by
  induction segs generalizing pos with
  | nil => exact wide
  | cons _ _ ih =>
    obtain ⟨first, later⟩ := forall_mem_cons.mp wide
    exact forall_mem_cons.mpr ⟨first, ih later _⟩

theorem intervalSlope_mass {width : ℚ} (wide : 0 < width) (slopeSum : ℚ) (entries : ℕ) :
    intervalSlope slopeSum width entries * width = entries := by
  simp only [intervalSlope]
  split_ifs with pos sloped
  · have mass := sloped.2
    rw [max_eq_right (le_of_lt (lt_max_iff.mp mass |>.resolve_left (lt_irrefl 0)))]
    have := sloped.1.ne'
    field_simp
  · field_simp
  · rw [zero_mul, Nat.le_zero.mp (not_lt.mp pos), Nat.cast_zero]

theorem sweepBreakpoints_mass {front : ℕ} (points : List ℕ) (sweep : MergeSweep) (sorted : (front :: points).Pairwise (· < ·))
    (wide : Wide sweep.merged) (counted : mass sweep.merged = sweep.rawTotalEntries) :
    Wide (sweepBreakpoints (front :: points) sweep).merged ∧
      mass (sweepBreakpoints (front :: points) sweep).merged = (sweepBreakpoints (front :: points) sweep).rawTotalEntries := by
  induction points generalizing front sweep with
  | nil => exact ⟨wide, counted⟩
  | cons next _ ih =>
    obtain ⟨ahead, sorted⟩ := pairwise_cons.mp sorted
    have lt := ahead next mem_cons_self
    apply ih (sweep.step front next) sorted
    · exact forall_mem_append.mpr ⟨wide, forall_mem_singleton.mpr lt⟩
    · have one : (1 : ℚ) ≤ ((next - front : ℕ) : ℚ) := by exact_mod_cast Nat.sub_pos_of_lt lt
      simp only [MergeSweep.step, mass, map_append, sum_append, map_singleton, sum_singleton,
        max_eq_right one] at counted ⊢
      rw [counted, intervalSlope_mass (zero_lt_one.trans_le one)]

theorem Tiles.widths (tiles : Tiles lo hi segs) :
    (segs.map fun seg => ((seg.keyEnd - seg.keyStart : ℕ) : ℚ)).sum = ((hi - lo : ℕ) : ℚ) := by
  induction tiles with
  | nil => simp
  | @cons lo hi seg rest first proper tail ih =>
    have order := tail.le
    have start := proper.1
    rw [map_cons, sum_cons, ih, ← Nat.cast_add]
    congr 1
    omega

theorem rescaleSlopes_mass (tiles : Tiles lo hi segs) (wide : lo < hi) {total : ℕ} (pos : 0 < total) :
    mass (rescaleSlopes total (mass segs) (hi - lo) segs) = total := by
  have scaled : ∀ factor : ℚ, (segs.map fun seg => seg.slope * factor * ((seg.keyEnd - seg.keyStart : ℕ) : ℚ)).sum =
      mass segs * factor := by
    intro factor
    rw [mass, ← sum_map_mul_right]
    congr 1
    apply map_congr_left
    intro seg _
    ring
  rw [rescaleSlopes]
  split_ifs with raw spread
  · rw [mass, map_map]
    exact (scaled _).trans (mul_div_cancel₀ _ raw.2.ne')
  · have one : (1 : ℚ) ≤ ((hi - lo : ℕ) : ℚ) := by exact_mod_cast Nat.sub_pos_of_lt wide
    simp only [mass, map_map, Function.comp_def, max_eq_right one]
    rw [sum_map_mul_left, tiles.widths, div_mul_cancel₀ _ (zero_lt_one.trans_le one).ne']
  · cases tiles with
    | nil => exact absurd wide (lt_irrefl _)
    | cons => exact absurd ⟨pos, cons_ne_nil _ _⟩ spread

theorem rescaleSlopes_wide (wide : Wide segs) (total width : ℕ) (raw : ℚ) : Wide (rescaleSlopes total raw width segs) := by
  have kept : ∀ slope : PLRSegment → ℚ, Wide (segs.map fun seg => { seg with slope := slope seg }) := by
    intro slope seg mem
    obtain ⟨old, inSegs, rfl⟩ := mem_map.mp mem
    exact wide old inSegs
  rw [rescaleSlopes]
  split_ifs
  · exact kept _
  · exact kept _
  · exact wide

variable {inputs : InputList} {total front next lo hi : ℕ} {rest : List ℕ} {naive : ℕ}

theorem mergedLines_positions (points : mergeBreakpoints inputs = front :: next :: rest) (pos : 0 < total) :
    Wide (mergedLines inputs total) ∧ Joined 0 (mergedLines inputs total) ∧ endPos (mergedLines inputs total) = total := by
  have sorted := breakpoints_sorted points
  simp only [mergedLines, points, headD_cons]
  set sweep := sweepBreakpoints (front :: next :: rest)
    { waiting := (inputs.filterMap id).insertionSort (fun a b => a.keyMin ≤ b.keyMin) }
  have tiles : Tiles front ((front :: next :: rest).getLastD front) sweep.merged :=
    sweepBreakpoints_tiles (next :: rest) _ sorted (.nil front)
  obtain ⟨wide, counted⟩ := sweepBreakpoints_mass (next :: rest)
    { waiting := (inputs.filterMap id).insertionSort (fun a b => a.keyMin ≤ b.keyMin) } sorted (by simp [Wide]) rfl
  obtain ⟨joined, last⟩ := assignIntercepts_joined (rescaleSlopes_tiles tiles total
    ((front :: next :: rest).getLastD front - front) sweep.rawTotalEntries) 0
  refine ⟨assignIntercepts_wide (rescaleSlopes_wide wide _ _ _) 0, joined, ?_⟩
  rw [endPos, last, zero_add, ← counted]
  exact rescaleSlopes_mass tiles (front_lt_last sorted) pos

theorem le_sumEntries (inputs : InputList) (start : ℕ) (counted : sumEntries inputs start = some naive) :
    start ≤ naive ∧ ∀ input, some input ∈ inputs → input.numEntries ≤ naive := by
  induction inputs generalizing start with
  | nil =>
    obtain rfl : start = naive := by simpa [sumEntries] using counted
    simp
  | cons first inputs ih =>
    cases first with
    | none =>
      obtain ⟨base, each⟩ := ih start counted
      exact ⟨base, fun input mem => each input (by simpa using mem)⟩
    | some vsst =>
      rw [sumEntries] at counted
      split_ifs at counted
      obtain ⟨base, each⟩ := ih _ counted
      refine ⟨by omega, fun input mem => ?_⟩
      rcases mem_cons.mp mem with eq | later
      · cases eq
        omega
      · exact each input later

theorem estimate_positive (valid : ∀ input, some input ∈ inputs → 1 ≤ input.numEntries)
    (counted : sumEntries inputs 0 = some naive) (points : mergeBreakpoints inputs = front :: next :: rest) :
    0 < estimateKMVUnionEntries inputs naive := by
  have mem : front ∈ mergeBreakpoints inputs := points ▸ mem_cons_self
  obtain ⟨input, inInputs, key⟩ := mem_flatMap.mp (mem_sortUnique.mp mem)
  cases input with
  | none => nomatch key
  | some vsst =>
    have entries := (le_sumEntries inputs 0 counted).2 vsst inInputs
    exact (estimate_bounds ((valid vsst inInputs).trans entries)).1

structure MergedRanks (first last total : ℕ) (merged : PLRModel) : Prop where
  tiles : Tiles first last merged.segments
  monotone : ∀ k k', k ≤ k' → merged.predict k ≤ merged.predict k'
  first : merged.predict first = 0
  last : merged.predict last = total

theorem compactSegments_onset (prev : PLRSegment) (rest : List PLRSegment) (tiles : Tiles lo hi (compactSegments prev rest)) :
    rankIn (compactSegments prev rest) lo = prev.posStart := by
  obtain ⟨keyEnd, tail, head⟩ := compactSegments_head prev rest
  rw [head] at tiles ⊢
  cases tiles with
  | cons first proper =>
    obtain rfl : prev.keyStart = lo := first
    exact rankIn_first _ proper.1

/-- The merged model has its ranks if no two different lines of adjacent intervals lie within the tolerances of the
fusion. -/
theorem merged_ranks (inputs : InputList) (naive front next : ℕ) (rest : List ℕ)
    (valid : ∀ input, some input ∈ inputs → 1 ≤ input.numEntries) (counted : sumEntries inputs 0 = some naive)
    (points : mergeBreakpoints inputs = front :: next :: rest)
    (apart : (mergedLines inputs (estimateKMVUnionEntries inputs naive)).IsChain Distinguished) :
    ∃ merged, nWayMergeKMVRangeAware inputs = .ok (merged, estimateKMVUnionEntries inputs naive) ∧
      MergedRanks front ((front :: next :: rest).getLastD front) (estimateKMVUnionEntries inputs naive) merged := by
  have pos := estimate_positive valid counted points
  have done := nWayMerge_ok counted points
  generalize estimateKMVUnionEntries inputs naive = total at pos done apart ⊢
  refine ⟨_, done, ?_⟩
  obtain ⟨line, lines, linesEq⟩ := mergedLines_cons points total
  have tiles := mergedLines_tiles points total
  obtain ⟨wide, joined, ends⟩ := mergedLines_positions points pos
  rw [linesEq] at tiles wide joined ends apart ⊢
  have fused := compactSegments_tiles tiles
  have wideFused := compactSegments_wide tiles wide
  have ne := compactSegments_ne_nil line lines
  have onset := (compactSegments_onset line lines fused).trans joined.1
  obtain ⟨rising, last⟩ := compactSegments_kept joined.2 (fun seg mem => (tiles.proper seg (mem_cons_of_mem _ mem)).2) apart
  refine ⟨fused, fun k k' => fused.predict_monotone wideFused ne onset rising, ?_, ?_⟩
  · exact ((fused.predict ne front).1 le_rfl).trans onset
  · rw [← ends, ← last]
    exact ((fused.predict ne _).1 fused.le).trans (fused.rank_last wideFused ne)

theorem merged_ranks_gap : ∃ merged, nWayMergeKMVRangeAware gapInputs = .ok (merged, 4) ∧ MergedRanks 3 40 4 merged := by
  have total : estimateKMVUnionEntries gapInputs 4 = 4 := by decide +kernel
  have lines : mergedLines gapInputs 4 = [⟨3, 9, 1 / 3, -1⟩, ⟨9, 20, 0, 2⟩, ⟨20, 40, 1 / 10, 0⟩] := by decide +kernel
  have ranks := merged_ranks gapInputs 4 3 9 [20, 40] (by simp [gapInputs]; decide +kernel) (by decide +kernel)
    (by decide +kernel)
  rw [total, lines] at ranks
  exact ranks (by norm_num [Distinguished, abs_lt])

/-- A key 0, and keys 2 and 4 · 10^12 of another file: the last slope is below the tolerance, so the largest key has
rank 0 of 3. -/
theorem merged_ranks_lost : ∃ merged, nWayMergeKMVRangeAware
        [some (virtualSSTOfKeys {} 0 0 0 0 [0]), some (virtualSSTOfKeys {} 0 0 0 0 [2, 4 * 10 ^ 12])] = .ok (merged, 3) ∧
      mergeBreakpoints [some (virtualSSTOfKeys {} 0 0 0 0 [0]), some (virtualSSTOfKeys {} 0 0 0 0 [2, 4 * 10 ^ 12])] =
        [0, 2, 4 * 10 ^ 12] ∧
      merged.predict (4 * 10 ^ 12) = 0 :=
  ⟨⟨[⟨0, 4 * 10 ^ 12, 0, 0⟩]⟩, by decide +kernel, by decide +kernel, by decide +kernel⟩

end VcompProof
