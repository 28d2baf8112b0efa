import Mathlib.Tactic.Common

namespace LowerBound

open List

/-- The halving loop over `[first, first + len)`; `fuel` bounds its rounds. -/
def loop (before : ℕ → Bool) : (fuel first len : ℕ) → ℕ
  | 0, first, _ => first
  | fuel + 1, first, len =>
    if len = 0 then first
    else if before (first + len / 2) then loop before fuel (first + len / 2 + 1) (len - len / 2 - 1)
    else loop before fuel first (len / 2)

/-- The first position in `[first, first + len)` that is not `before` the sought one, if they come in that order. -/
def lowerBound (before : ℕ → Bool) (first len : ℕ) : ℕ := loop before len first len

variable {before : ℕ → Bool}

/-- `before` holds of a first part of the positions of an interval. -/
def FallingOn (before : ℕ → Bool) (first len : ℕ) : Prop :=
  ∀ i j, first ≤ i → i ≤ j → j < first + len → before j = true → before i = true

theorem loop_spec (fuel first len : ℕ) (falling : FallingOn before first len) (enough : len ≤ fuel) :
    first ≤ loop before fuel first len ∧ loop before fuel first len ≤ first + len ∧
      (∀ i, first ≤ i → i < loop before fuel first len → before i = true) ∧
      ∀ i, loop before fuel first len ≤ i → i < first + len → before i = false := by
  induction fuel generalizing first len with
  | zero =>
    obtain rfl : len = 0 := by omega
    exact ⟨Nat.le_refl _, Nat.le_refl _, fun i low high => absurd high (Nat.not_lt.mpr low),
      fun i low high => absurd high (Nat.not_lt.mpr low)⟩
  | succ fuel ih =>
    unfold loop
    split
    next none =>
      subst none
      exact ⟨Nat.le_refl _, Nat.le_refl _, fun i low high => absurd high (Nat.not_lt.mpr low),
        fun i low high => absurd high (Nat.not_lt.mpr low)⟩
    next some =>
      split
      next passed =>
        obtain ⟨low, high, inside, outside⟩ := ih (first + len / 2 + 1) (len - len / 2 - 1)
          (fun i j above le lt => falling i j (by omega) le (by omega)) (by omega)
        refine ⟨by omega, by omega, ?_, fun i above lt => outside i above (by omega)⟩
        intro i above lt
        by_cases left : i ≤ first + len / 2
        · exact falling i _ above left (by omega) passed
        · exact inside i (by omega) lt
      next stopped =>
        obtain ⟨low, high, inside, outside⟩ := ih first (len / 2)
          (fun i j above le lt => falling i j above le (by omega)) (by omega)
        refine ⟨low, by omega, inside, ?_⟩
        intro i above lt
        by_cases left : i < first + len / 2
        · exact outside i above left
        · by_contra early
          exact stopped (falling _ i (by omega) (by omega) lt (by simpa using early))

theorem loop_le (fuel first len : ℕ) : loop before fuel first len ≤ first + len := by
  induction fuel generalizing first len with
  | zero => exact Nat.le_add_right _ _
  | succ fuel ih =>
    unfold loop
    split
    · exact Nat.le_add_right _ _
    · split
      · have right := ih (first + len / 2 + 1) (len - len / 2 - 1)
        omega
      · have left := ih first (len / 2)
        omega

theorem lowerBound_le (first len : ℕ) : lowerBound before first len ≤ first + len := loop_le len first len

theorem lowerBound_spec_on {first len : ℕ} (falling : FallingOn before first len) :
    first ≤ lowerBound before first len ∧ lowerBound before first len ≤ first + len ∧
      (∀ i, first ≤ i → i < lowerBound before first len → before i = true) ∧
      ∀ i, lowerBound before first len ≤ i → i < first + len → before i = false :=
  loop_spec len first len falling (Nat.le_refl _)

theorem lowerBound_spec (falling : ∀ i j, i ≤ j → before j = true → before i = true) (first len : ℕ) :
    first ≤ lowerBound before first len ∧ lowerBound before first len ≤ first + len ∧
      (∀ i, first ≤ i → i < lowerBound before first len → before i = true) ∧
      ∀ i, lowerBound before first len ≤ i → i < first + len → before i = false :=
  lowerBound_spec_on fun i j _ le _ => falling i j le

variable {α : Type*} {l : List α} {p : α → Bool} {first len : ℕ}

theorem getElem?_segment {i : ℕ} (low : first ≤ i) (high : i < first + len) :
    ((l.drop first).take len)[i - first]? = l[i]? := by
  rw [getElem?_take_of_lt (by omega), getElem?_drop, Nat.add_sub_cancel' low]

theorem fallingOn_of_pairwise (sorted : ((l.drop first).take len).Pairwise fun a b => p b = true → p a = true) :
    FallingOn (fun i => (l[i]?).any p) first len := by
  intro i j low le high passed
  rcases Nat.eq_or_lt_of_le le with rfl | lt
  · exact passed
  obtain ⟨b, found, holds⟩ := (Option.any_eq_true p _).mp passed
  rw [← getElem?_segment (Nat.le_trans low le) high] at found
  obtain ⟨inside, rfl⟩ := List.getElem?_eq_some_iff.mp found
  apply (Option.any_eq_true p _).mpr
  have earlier : i - first < ((l.drop first).take len).length := by omega
  refine ⟨((l.drop first).take len)[i - first], ?_, ?_⟩
  · rw [← getElem?_segment low (by omega : i < first + len), getElem?_eq_getElem earlier]
  · exact pairwise_iff_getElem.mp sorted _ _ earlier inside (by omega) holds

theorem find?_eq_lowerBound (inside : first + len ≤ l.length)
    (sorted : ((l.drop first).take len).Pairwise fun a b => p b = true → p a = true) :
    ((l.drop first).take len).find? (fun a => !p a) =
      if lowerBound (fun i => (l[i]?).any p) first len = first + len then none
      else l[lowerBound (fun i => (l[i]?).any p) first len]? := by
  obtain ⟨low, high, passed, stopped⟩ := lowerBound_spec_on (fallingOn_of_pairwise sorted)
  generalize lowerBound (fun i => (l[i]?).any p) first len = found at *
  have length : ((l.drop first).take len).length = len := by simp; omega
  have before : ∀ i (lt : i < ((l.drop first).take len).length), first + i < found →
      p ((l.drop first).take len)[i] = true := by
    intro i lt early
    obtain ⟨a, at_i, holds⟩ := (Option.any_eq_true p _).mp (passed (first + i) (by omega) early)
    rw [← getElem?_segment (by omega) (by omega : first + i < first + len), Nat.add_sub_cancel_left,
      getElem?_eq_getElem lt] at at_i
    rwa [Option.some.inj at_i]
  split
  next ended =>
    apply find?_eq_none.mpr
    intro a mem
    obtain ⟨i, lt, rfl⟩ := mem_iff_getElem.mp mem
    simpa using before i lt (by omega)
  next notEnded =>
    have lt : found - first < ((l.drop first).take len).length := by omega
    have here := getElem?_segment (l := l) low (by omega : found < first + len)
    rw [getElem?_eq_getElem lt] at here
    rw [← here]
    apply find?_eq_some_iff_getElem.mpr
    refine ⟨?_, found - first, lt, rfl, ?_⟩
    · have fails := stopped found (Nat.le_refl _) (by omega)
      rw [← here, Option.any_some] at fails
      rw [fails]
      rfl
    · intro i early
      rw [before i (by omega) (by omega)]
      rfl

end LowerBound
