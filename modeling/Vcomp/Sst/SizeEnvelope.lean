import Mathlib.Algebra.Order.Floor.Div
import Vcomp.Sst.SizeModel

namespace VcompModel

def word128 : ℕ := 2 ^ 128

def roundUp (product denominator : ℕ) : ℕ := product / denominator + if product % denominator ≠ 0 then 1 else 0

namespace SSTSizeModel

/-- Models come from the constructor or `Logical`, and from `AddCalibration` calls. -/
inductive Built : SSTSizeModel → Prop where
  | default : Built ⟨[]⟩
  | logical {bytesPerEntry : ℕ} (word : bytesPerEntry < word64) : Built (.logical bytesPerEntry)
  | calibrated {model next : SSTSizeModel} {n1 bytes1 n2 bytes2 : ℕ} (built : Built model) (word : bytes2 < word64)
    (word' : n2 < word64)
      (added : model.addCalibration n1 bytes1 n2 bytes2 = some next) : Built next

def calibrate (model : SSTSizeModel) (n1 bytes1 n2 bytes2 : ℕ) : Bool × SSTSizeModel :=
  match model.addCalibration n1 bytes1 n2 bytes2 with
  | none => (false, model)
  | some next => (true, next)

def intercept (n1 bytes1 n2 bytes2 : ℕ) : ℕ := roundUp (bytes1 * (n2 - n1) - n1 * (bytes2 - bytes1)) (n2 - n1)

def calibrationWides (n1 bytes1 n2 bytes2 : ℕ) : List ℕ :=
  [bytes1 * (n2 - n1), n1 * (bytes2 - bytes1), bytes1 * (n2 - n1) - n1 * (bytes2 - bytes1), intercept n1 bytes1 n2 bytes2]

end SSTSizeModel

def SSTSizeLine.wides (line : SSTSizeLine) (entries targetBytes : ℕ) : List ℕ :=
  [entries * line.numerator, roundUp (entries * line.numerator) line.denominator,
    (targetBytes - line.fixedBytes) * line.denominator, (targetBytes - line.fixedBytes) * line.denominator / line.numerator]

end VcompModel

namespace VcompProof

open VcompModel VcompModel.SSTSizeModel List

variable {denominator : ℕ} (product : ℕ)

section

variable (pos : 0 < denominator)
include pos

theorem roundUp_eq_ceilDiv : roundUp product denominator = product ⌈/⌉ denominator := by
  have lt : denominator - 1 < denominator := by omega
  rw [Nat.ceilDiv_eq_add_pred_div, Nat.add_sub_assoc pos, Nat.add_div pos, Nat.div_eq_of_lt lt,
    Nat.mod_eq_of_lt lt, add_zero, roundUp]
  congr 1
  exact if_congr (by omega) rfl rfl

theorem roundUp_le_iff {product : ℕ} (bound : ℕ) : roundUp product denominator ≤ bound ↔ product ≤ bound * denominator := by
  rw [roundUp_eq_ceilDiv product pos, ceilDiv_le_iff_le_mul pos, mul_comm]

theorem roundUp_le_self : roundUp product denominator ≤ product :=
  (roundUp_le_iff pos _).mpr (Nat.le_mul_of_pos_right _ pos)

theorem le_roundUp_mul : product ≤ roundUp product denominator * denominator :=
  (roundUp_le_iff pos _).mp le_rfl

theorem roundUp_mul_lt : roundUp product denominator * denominator < product + denominator := by
  by_contra large
  have short : product ≤ (roundUp product denominator - 1) * denominator := by
    rw [Nat.sub_mul]
    omega
  have := (roundUp_le_iff pos _).mpr short
  have nonzero : roundUp product denominator ≠ 0 := by
    intro zero
    rw [zero] at large
    omega
  omega

end

structure SSTSizeLine.Proper (line : SSTSizeLine) : Prop where
  numerator : 0 < line.numerator ∧ line.numerator < word64
  denominator : 0 < line.denominator ∧ line.denominator < word64
  fixedBytes : line.fixedBytes ≤ uint64Max

variable {model next : SSTSizeModel} {n1 bytes1 n2 bytes2 : ℕ}

theorem intercept_le (bytes1 bytes2 : ℕ) (lt : n1 < n2) : intercept n1 bytes1 n2 bytes2 ≤ bytes1 :=
  (roundUp_le_iff (by omega) _).mpr (Nat.sub_le _ _)

theorem addCalibration_eq_some (words : bytes1 < word64) (added : model.addCalibration n1 bytes1 n2 bytes2 = some next) :
    (0 < n1 ∧ n1 < n2 ∧ bytes1 < bytes2) ∧
      next = ⟨model.lines ++ [⟨bytes2 - bytes1, n2 - n1, intercept n1 bytes1 n2 bytes2⟩]⟩ := by
  simp only [addCalibration, Option.ite_none_left_eq_some, Option.some.injEq] at added
  obtain ⟨accepted, rfl⟩ := added
  have order : 0 < n1 ∧ n1 < n2 ∧ bytes1 < bytes2 := by omega
  refine ⟨order, ?_⟩
  have narrow := intercept_le bytes1 bytes2 order.2.1
  congr 4
  split
  next => exact Nat.mod_eq_of_lt (narrow.trans_lt words)
  next clamped =>
    rw [intercept, Nat.sub_eq_zero_of_le (by omega)]
    simp [roundUp]

theorem addCalibration_isSome : (model.addCalibration n1 bytes1 n2 bytes2).isSome ↔ 0 < n1 ∧ n1 < n2 ∧ bytes1 < bytes2 := by
  rw [addCalibration]
  split <;> simp <;> omega

theorem built_proper (built : model.Built) : ∀ line ∈ model.lines, SSTSizeLine.Proper line := by
  induction built with
  | default => simp
  | @logical bytesPerEntry word =>
    intro line mem
    rw [SSTSizeModel.logical] at mem
    split at mem
    next pos =>
      rw [mem_singleton.mp mem]
      exact ⟨⟨Nat.pos_of_ne_zero pos, word⟩, ⟨Nat.one_pos, show 1 < word64 by decide⟩, Nat.zero_le _⟩
    next => simp at mem
  | @calibrated model next n1 bytes1 n2 bytes2 _ word word' added ih =>
    have lt : bytes1 < bytes2 := (addCalibration_isSome.mp (Option.isSome_of_eq_some added)).2.2
    have narrow : bytes1 < word64 := lt.trans word
    obtain ⟨⟨-, order, -⟩, rfl⟩ := addCalibration_eq_some narrow added
    intro line mem
    rcases mem_append.mp mem with old | new
    · exact ih line old
    · rw [mem_singleton.mp new]
      have low := intercept_le bytes1 bytes2 order
      refine ⟨by dsimp only; omega, by dsimp only; omega, ?_⟩
      exact low.trans (Nat.le_sub_one_of_lt narrow)

variable {line : SSTSizeLine} {entries targetBytes : ℕ}

theorem line_estimate_eq (line : SSTSizeLine) (proper : SSTSizeLine.Proper line) (entries : ℕ) :
    line.estimate entries = min uint64Max (roundUp (entries * line.numerator) line.denominator + line.fixedBytes) := by
  have fixed := proper.fixedBytes
  rw [SSTSizeLine.estimate]
  change (if roundUp _ _ > _ then _ else roundUp _ _ + _) = _
  split <;> omega

def Fits (line : SSTSizeLine) (entries targetBytes : ℕ) : Prop :=
  line.fixedBytes ≤ targetBytes ∧ entries * line.numerator ≤ (targetBytes - line.fixedBytes) * line.denominator

theorem line_estimate_le_iff (proper : SSTSizeLine.Proper line) (small : targetBytes < uint64Max) :
    line.estimate entries ≤ targetBytes ↔ Fits line entries targetBytes := by
  rw [line_estimate_eq line proper, Fits, ← roundUp_le_iff proper.denominator.1]
  omega

theorem estimate_le_iff (model : SSTSizeModel) (pos : entries ≠ 0) :
    model.estimate entries ≤ targetBytes ↔ ∀ line ∈ model.lines, line.estimate entries ≤ targetBytes := by
  rw [estimate, if_neg pos]
  suffices general : ∀ start, model.lines.foldl (fun result line => max result (line.estimate entries)) start ≤ targetBytes ↔
      start ≤ targetBytes ∧ ∀ line ∈ model.lines, line.estimate entries ≤ targetBytes by
    simp [general]
  induction model.lines with
  | nil => simp
  | cons line lines ih =>
    intro start
    rw [foldl_cons, ih, forall_mem_cons, max_le_iff, and_assoc]

theorem le_maxEntriesLoop_iff {lines : List SSTSizeLine} (proper : ∀ line ∈ lines, SSTSizeLine.Proper line) {result : ℕ}
    (pos : entries ≠ 0) (word : entries ≤ uint64Max) :
    entries ≤ maxEntriesLoop targetBytes lines result ↔ entries ≤ result ∧ ∀ line ∈ lines, Fits line entries targetBytes := by
  induction lines generalizing result with
  | nil => simp [maxEntriesLoop]
  | cons line lines ih =>
    obtain ⟨here, rest⟩ := forall_mem_cons.mp proper
    rw [maxEntriesLoop, forall_mem_cons, SSTSizeLine.capacity]
    split_ifs with beyond
    · simp only [Fits]
      omega
    · have quotient : entries ≤ (targetBytes - line.fixedBytes) * line.denominator / line.numerator ↔
          Fits line entries targetBytes := by
        rw [Nat.le_div_iff_mul_le here.numerator.1, Fits]
        omega
      have bounded : entries ≤
          (if (targetBytes - line.fixedBytes) * line.denominator / line.numerator > uint64Max then uint64Max
          else (targetBytes - line.fixedBytes) * line.denominator / line.numerator) ↔ Fits line entries targetBytes := by
        rw [← quotient]
        split_ifs <;> omega
      simp only [ih rest]
      rw [le_min_iff, bounded, and_assoc]

theorem estimate_le_uint64Max (proper : ∀ line ∈ model.lines, SSTSizeLine.Proper line) (entries : ℕ) :
    model.estimate entries ≤ uint64Max := by
  by_cases zero : entries = 0
  · simp [estimate, zero]
  · rw [estimate_le_iff model zero]
    intro line mem
    rw [line_estimate_eq line (proper line mem)]
    exact min_le_left _ _

theorem estimate_galois (proper : ∀ line ∈ model.lines, SSTSizeLine.Proper line) (valid : model.valid)
    (word : entries ≤ uint64Max) (word' : targetBytes ≤ uint64Max) :
    model.estimate entries ≤ targetBytes ↔ entries ≤ model.maxEntries targetBytes := by
  rw [maxEntries, valid, Bool.not_true, if_neg Bool.false_ne_true]
  split
  next saturated => exact iff_of_true (saturated ▸ estimate_le_uint64Max proper entries) word
  next small =>
    by_cases zero : entries = 0
    · simp [estimate, zero]
    · rw [estimate_le_iff model zero, le_maxEntriesLoop_iff proper zero word]
      have fits : ∀ line ∈ model.lines, (line.estimate entries ≤ targetBytes ↔ Fits line entries targetBytes) :=
        fun line mem => line_estimate_le_iff (proper line mem) (by omega)
      simp only [word, true_and]
      exact forall₂_congr fits

theorem product_lt_word128 {a b : ℕ} (left : a < word64) (right : b < word64) : a * b < word128 := by
  have product := Nat.mul_lt_mul'' left right
  rwa [show word64 * word64 = word128 by decide] at product

theorem calibrationWides_lt (words : n1 < word64 ∧ bytes1 < word64 ∧ n2 < word64 ∧ bytes2 < word64)
    (order : n1 < n2) : ∀ value ∈ calibrationWides n1 bytes1 n2 bytes2, value < word128 := by
  have left : bytes1 * (n2 - n1) < word128 := product_lt_word128 words.2.1 (by omega)
  have right : n1 * (bytes2 - bytes1) < word128 := product_lt_word128 words.1 (by omega)
  have rounded := intercept_le bytes1 bytes2 order
  have narrow : word64 < word128 := by decide
  simp only [calibrationWides, forall_mem_cons, not_mem_nil, false_implies, implies_true, and_true]
  omega

theorem line_wides_lt (proper : SSTSizeLine.Proper line) (word : entries < word64)
    (word' : targetBytes < word64) : ∀ value ∈ line.wides entries targetBytes, value < word128 := by
  have product := product_lt_word128 word proper.numerator.2
  have product' : (targetBytes - line.fixedBytes) * line.denominator < word128 :=
    product_lt_word128 (by omega) proper.denominator.2
  have rounded := roundUp_le_self (entries * line.numerator) proper.denominator.1
  have quotient := Nat.div_le_self ((targetBytes - line.fixedBytes) * line.denominator) line.numerator
  simp only [SSTSizeLine.wides, forall_mem_cons, not_mem_nil, false_implies, implies_true, and_true]
  omega

/-- `MaxEntries` is the exact inverse of `Estimate` for every model built, and no 128-bit value overflows. -/
theorem estimate_le_iff_le_maxEntries (built : model.Built) (valid : model.valid) :
    (∀ entries targetBytes, entries < word64 → targetBytes < word64 →
      (model.estimate entries ≤ targetBytes ↔ entries ≤ model.maxEntries targetBytes) ∧
        ∀ line ∈ model.lines, line.fixedBytes ≤ uint64Max ∧ ∀ value ∈ line.wides entries targetBytes, value < word128) ∧
      ∀ n1 bytes1 n2 bytes2, n1 < word64 → bytes1 < word64 → n2 < word64 → bytes2 < word64 →
        (model.addCalibration n1 bytes1 n2 bytes2).isSome →
          ∀ value ∈ calibrationWides n1 bytes1 n2 bytes2, value < word128 := by
  have proper := built_proper built
  refine ⟨fun entries targetBytes word word' => ⟨?_, fun line mem => ⟨(proper line mem).fixedBytes, ?_⟩⟩, ?_⟩
  · exact estimate_galois proper valid (Nat.le_sub_one_of_lt word) (Nat.le_sub_one_of_lt word')
  · exact line_wides_lt (proper line mem) word word'
  · intro n1 bytes1 n2 bytes2 w1 w2 w3 w4 accepted
    exact calibrationWides_lt ⟨w1, w2, w3, w4⟩ (addCalibration_isSome.mp accepted).2.1

theorem estimate_le_iff_le_maxEntries_calibrated : ∃ model : SSTSizeModel, model.Built ∧ model.maxEntries 1000 = 272 ∧
    (model.estimate 273 ≤ 1000 ↔ 273 ≤ model.maxEntries 1000) := by
  have added : (SSTSizeModel.logical 3).addCalibration 10 81 24 130 = some ⟨[⟨3, 1, 0⟩, ⟨49, 14, 46⟩]⟩ := by decide
  have built : Built ⟨[⟨3, 1, 0⟩, ⟨49, 14, 46⟩]⟩ := .calibrated (.logical (by decide)) (by decide) (by decide) added
  exact ⟨_, built, by decide, ((estimate_le_iff_le_maxEntries built (by decide)).1 273 1000 (by decide) (by decide)).1⟩

theorem calibrate_eq (model : SSTSizeModel) (n1 bytes1 n2 bytes2 : ℕ) :
    ((model.calibrate n1 bytes1 n2 bytes2).1 = true ↔ (model.addCalibration n1 bytes1 n2 bytes2).isSome) ∧
      ((model.calibrate n1 bytes1 n2 bytes2).1 = false → (model.calibrate n1 bytes1 n2 bytes2).2 = model) ∧
      ∀ next, model.addCalibration n1 bytes1 n2 bytes2 = some next → (model.calibrate n1 bytes1 n2 bytes2).2 = next := by
  unfold calibrate
  cases model.addCalibration n1 bytes1 n2 bytes2 <;> simp

theorem le_estimate_of_mem (mem : line ∈ model.lines) (pos : entries ≠ 0) :
    line.estimate entries ≤ model.estimate entries :=
  (estimate_le_iff model pos).mp le_rfl line mem

theorem first_sample (bytes1 bytes2 : ℕ) (order : n1 < n2) :
    bytes1 * (n2 - n1) ≤ n1 * (bytes2 - bytes1) + intercept n1 bytes1 n2 bytes2 * (n2 - n1) := by
  have := le_roundUp_mul (bytes1 * (n2 - n1) - n1 * (bytes2 - bytes1)) (show 0 < n2 - n1 by omega)
  unfold intercept
  omega

theorem second_sample (order : n1 < n2) (lt : bytes1 < bytes2) :
    bytes2 * (n2 - n1) ≤ n2 * (bytes2 - bytes1) + intercept n1 bytes1 n2 bytes2 * (n2 - n1) := by
  have first := first_sample bytes1 bytes2 order
  have rise : bytes2 * (n2 - n1) = bytes1 * (n2 - n1) + (bytes2 - bytes1) * (n2 - n1) := by
    rw [← add_mul, Nat.add_sub_cancel' lt.le]
  have run : n2 * (bytes2 - bytes1) = n1 * (bytes2 - bytes1) + (bytes2 - bytes1) * (n2 - n1) := by
    rw [mul_comm (bytes2 - bytes1), ← add_mul, Nat.add_sub_cancel' order.le]
  omega

theorem sample_covered {bytes numerator fixed : ℕ} (pos : 0 < denominator)
    (above : bytes * denominator ≤ entries * numerator + fixed * denominator) :
    bytes ≤ roundUp (entries * numerator) denominator + fixed := by
  have rounded := le_roundUp_mul (entries * numerator) pos
  have scaled : bytes * denominator ≤ (roundUp (entries * numerator) denominator + fixed) * denominator := by
    rw [add_mul]
    omega
  exact Nat.le_of_mul_le_mul_right scaled pos

theorem first_sample_tight (order : n1 < n2) (above : n1 * (bytes2 - bytes1) ≤ bytes1 * (n2 - n1)) :
    roundUp (n1 * (bytes2 - bytes1)) (n2 - n1) + intercept n1 bytes1 n2 bytes2 ≤ bytes1 + 1 := by
  have pos : 0 < n2 - n1 := by omega
  have slope := roundUp_mul_lt (n1 * (bytes2 - bytes1)) pos
  have fixed : intercept n1 bytes1 n2 bytes2 * (n2 - n1) < _ :=
    roundUp_mul_lt (bytes1 * (n2 - n1) - n1 * (bytes2 - bytes1)) pos
  have scaled : (roundUp (n1 * (bytes2 - bytes1)) (n2 - n1) + intercept n1 bytes1 n2 bytes2) * (n2 - n1) <
      (bytes1 + 2) * (n2 - n1) := by
    rw [add_mul, add_mul]
    omega
  exact Nat.le_of_lt_succ (Nat.lt_of_mul_lt_mul_right scaled)

/-- `AddCalibration` accepts exactly increasing samples, and then covers both without lowering any estimate. -/
theorem addCalibration_covers (model : SSTSizeModel) {n1 bytes1 n2 bytes2 : ℕ}
    (words : n1 < word64 ∧ bytes1 < word64 ∧ n2 < word64 ∧ bytes2 < word64) :
    ((model.calibrate n1 bytes1 n2 bytes2).1 = true ↔ 0 < n1 ∧ n1 < n2 ∧ bytes1 < bytes2) ∧
      ((model.calibrate n1 bytes1 n2 bytes2).1 = false → (model.calibrate n1 bytes1 n2 bytes2).2 = model) ∧
      ((model.calibrate n1 bytes1 n2 bytes2).1 = true →
        bytes1 ≤ (model.calibrate n1 bytes1 n2 bytes2).2.estimate n1 ∧
          bytes2 ≤ (model.calibrate n1 bytes1 n2 bytes2).2.estimate n2 ∧
          (∀ entries, model.estimate entries ≤ (model.calibrate n1 bytes1 n2 bytes2).2.estimate entries) ∧
          (∃ line, (model.calibrate n1 bytes1 n2 bytes2).2.lines = model.lines ++ [line] ∧
            line.fixedBytes = intercept n1 bytes1 n2 bytes2 ∧ line.fixedBytes ≤ bytes1 ∧
              intercept n1 bytes1 n2 bytes2 < word64) ∧
          (model.lines = [] → n1 * (bytes2 - bytes1) ≤ bytes1 * (n2 - n1) →
            (model.calibrate n1 bytes1 n2 bytes2).2.estimate n1 ≤ bytes1 + 1)) := by
  obtain ⟨accepts, rejects, result⟩ := calibrate_eq model n1 bytes1 n2 bytes2
  refine ⟨accepts.trans addCalibration_isSome, rejects, fun accepted => ?_⟩
  obtain ⟨next, added⟩ := Option.isSome_iff_exists.mp (accepts.mp accepted)
  obtain ⟨⟨pos, order, lt⟩, rfl⟩ := addCalibration_eq_some words.2.1 added
  rw [result _ added]
  have rounded := intercept_le bytes1 bytes2 order
  have narrow : bytes1 ≤ uint64Max ∧ bytes2 ≤ uint64Max := ⟨Nat.le_sub_one_of_lt words.2.1, Nat.le_sub_one_of_lt words.2.2.2⟩
  set line : SSTSizeLine := ⟨bytes2 - bytes1, n2 - n1, intercept n1 bytes1 n2 bytes2⟩ with line_eq
  have proper : SSTSizeLine.Proper line := by
    refine ⟨?_, ?_, rounded.trans narrow.1⟩ <;> rw [line_eq] <;> dsimp only <;> omega
  have slope : 0 < line.denominator := proper.denominator.1
  have covered : ∀ entries ≠ 0, line.estimate entries ≤ SSTSizeModel.estimate ⟨model.lines ++ [line]⟩ entries :=
    fun entries nonzero => le_estimate_of_mem (mem_append_right _ (mem_singleton_self _)) nonzero
  refine ⟨?_, ?_, ?_, ⟨line, rfl, rfl, rounded, rounded.trans_lt words.2.1⟩, ?_⟩
  · refine le_trans ?_ (covered n1 (by omega))
    rw [line_estimate_eq line proper]
    exact le_min narrow.1 (sample_covered slope (first_sample bytes1 bytes2 order))
  · refine le_trans ?_ (covered n2 (by omega))
    rw [line_estimate_eq line proper]
    exact le_min narrow.2 (sample_covered slope (second_sample order lt))
  · intro entries
    by_cases zero : entries = 0
    · simp [estimate, zero]
    · rw [estimate_le_iff model zero]
      exact fun old mem => le_estimate_of_mem (mem_append_left _ mem) zero
  · intro empty above
    rw [empty, estimate_le_iff _ (by omega)]
    intro only mem
    rw [mem_singleton.mp mem, line_estimate_eq line proper]
    exact (min_le_right _ _).trans (first_sample_tight order above)

theorem addCalibration_covers_two : ((⟨[]⟩ : SSTSizeModel).calibrate 10 81 24 131).1 = true ∧
    81 ≤ ((⟨[]⟩ : SSTSizeModel).calibrate 10 81 24 131).2.estimate 10 := by
  have covers := addCalibration_covers ⟨[]⟩ (show 10 < word64 ∧ 81 < word64 ∧ 24 < word64 ∧ 131 < word64 by decide)
  exact ⟨covers.1.mpr (by decide), (covers.2.2 (covers.1.mpr (by decide))).1⟩

end VcompProof
