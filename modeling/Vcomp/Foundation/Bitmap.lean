import Mathlib.Data.Nat.Bitwise

/-! Bitmaps of 64-bit words: the set bits of a range of keys as an ascending list. -/

namespace Bitmap

open List

def bitsOf (v : BitVec 64) : List ℕ := (List.range 64).filter v.getLsbD

def popCount (v : BitVec 64) : ℕ := (bitsOf v).length

def trailingZeros (v : BitVec 64) : ℕ := (bitsOf v).headD 64

def bit (words : ℕ → BitVec 64) (key : ℕ) : Bool := (words (key / 64)).getLsbD (key % 64)

/-- Ones from bit `low` to bit `high`. -/
def spanMask (low high : ℕ) : BitVec 64 := (BitVec.allOnes 64 <<< low) &&& (BitVec.allOnes 64 >>> (63 - high))

/-- The bits of word `i` that belong to the keys from `first` to `last`. -/
def wordMask (first last i : ℕ) : BitVec 64 :=
  spanMask (if i = first / 64 then first % 64 else 0) (if i = last / 64 then last % 64 else 63)

def wordsOf (first last : ℕ) : List ℕ := List.range' (first / 64) (last / 64 + 1 - first / 64)

def keysOfWord (i : ℕ) (v : BitVec 64) : List ℕ := (bitsOf v).map (64 * i + ·)

/-- The keys from `first` to `last` whose bit is set. -/
def keysOf (words : ℕ → BitVec 64) (first last : ℕ) : List ℕ :=
  (wordsOf first last).flatMap fun i => keysOfWord i (wordMask first last i &&& words i)

variable {v : BitVec 64} {b : ℕ} {rest : List ℕ}

@[simp]
theorem mem_bitsOf : b ∈ bitsOf v ↔ v.getLsbD b = true := by
  refine ⟨fun mem => (mem_filter.mp mem).2, fun set => mem_filter.mpr ⟨?_, set⟩⟩
  exact mem_range.mpr (BitVec.lt_of_getLsbD set)

theorem bitsOf_sorted (v : BitVec 64) : (bitsOf v).Pairwise (· < ·) := pairwise_lt_range.filter _

theorem bitsOf_congr {v' : BitVec 64} (eq : ∀ b, v.getLsbD b = v'.getLsbD b) : v = v' :=
  BitVec.eq_of_getLsbD_eq fun b _ => eq b

theorem bitsOf_eq_nil : bitsOf v = [] ↔ v = 0 := by
  rw [eq_nil_iff_forall_not_mem]
  constructor
  · intro clear
    refine bitsOf_congr fun b => ?_
    simpa using clear b
  · rintro rfl b
    simp

theorem eq_of_sorted {l l' : List ℕ} (sorted : l.Pairwise (· < ·)) (sorted' : l'.Pairwise (· < ·))
    (eq : ∀ k, k ∈ l ↔ k ∈ l') : l = l' := by
  have perm : l.Perm l' := (perm_ext_iff_of_nodup (sorted.imp ne_of_lt) (sorted'.imp ne_of_lt)).mpr eq
  exact perm.eq_of_pairwise (fun a c _ _ lt greater => absurd lt (not_lt.mpr greater.le)) sorted sorted'

theorem getLsbD_clearLowest (set : v.getLsbD b = true) (lowest : ∀ c < b, v.getLsbD c = false) (c : ℕ) :
    (v &&& (v - 1)).getLsbD c = (v.getLsbD c && decide (c ≠ b)) := by
  have low : v.toNat % 2 ^ b = 0 := by
    refine Nat.eq_of_testBit_eq fun c => ?_
    rw [Nat.testBit_mod_two_pow, Nat.zero_testBit]
    by_cases lt : c < b
    · have clear : v.toNat.testBit c = false := lowest c lt
      simp [clear]
    · simp [lt]
  have split : v.toNat = 2 ^ (b + 1) * (v.toNat / 2 ^ (b + 1)) + 2 ^ b := by
    have bit : v.toNat.testBit b = true := set
    have odd : v.toNat / 2 ^ b % 2 = 1 := by
      rwa [Nat.testBit_eq_decide_div_mod_eq, decide_eq_true_iff] at bit
    have rem : v.toNat % 2 ^ (b + 1) = 2 ^ b := by
      rw [pow_succ, Nat.mod_mul, low, odd, zero_add, mul_one]
    have divide := Nat.div_add_mod v.toNat (2 ^ (b + 1))
    rw [rem] at divide
    exact divide.symm
  have pos : 0 < 2 ^ b := Nat.two_pow_pos b
  have one : (1 : BitVec 64) ≤ v := by
    rw [BitVec.le_def]
    change 1 ≤ v.toNat
    omega
  have less : (v - 1).toNat = 2 ^ (b + 1) * (v.toNat / 2 ^ (b + 1)) + (2 ^ b - 1) := by
    rw [BitVec.toNat_sub_of_le one]
    change v.toNat - 1 = _
    omega
  have fits : 2 ^ b < 2 ^ (b + 1) := Nat.pow_lt_pow_right (by decide) (Nat.lt_succ_self b)
  have bitV : v.getLsbD c = (2 ^ (b + 1) * (v.toNat / 2 ^ (b + 1)) + 2 ^ b).testBit c := by
    rw [← split]; rfl
  have bitLess : (v - 1).getLsbD c = (2 ^ (b + 1) * (v.toNat / 2 ^ (b + 1)) + (2 ^ b - 1)).testBit c := by
    rw [← less]; rfl
  rw [BitVec.getLsbD_and, bitV, bitLess, Nat.testBit_two_pow_mul_add _ fits,
    Nat.testBit_two_pow_mul_add _ (lt_of_le_of_lt (Nat.sub_le _ _) fits)]
  by_cases lt : c < b + 1
  · simp only [lt, if_true, Nat.testBit_two_pow, Nat.testBit_two_pow_sub_one]
    by_cases eq : b = c
    · simp [eq]
    · simp [eq]
  · have ne : c ≠ b := by omega
    simp [lt, ne]

theorem bitsOf_clearLowest (head : bitsOf v = b :: rest) : bitsOf (v &&& (v - 1)) = rest := by
  have sorted := head ▸ bitsOf_sorted v
  obtain ⟨lt, sortedRest⟩ := pairwise_cons.mp sorted
  have set : v.getLsbD b = true := mem_bitsOf.mp (by simp [head])
  have lowest : ∀ c < b, v.getLsbD c = false := by
    intro c less
    by_contra bit
    have mem : c ∈ bitsOf v := mem_bitsOf.mpr (by simpa using bit)
    rw [head] at mem
    rcases mem_cons.mp mem with rfl | later
    · exact lt_irrefl c less
    · exact absurd (lt c later) (by omega)
  refine eq_of_sorted (bitsOf_sorted _) sortedRest fun c => ?_
  rw [mem_bitsOf, getLsbD_clearLowest set lowest, Bool.and_eq_true, ← mem_bitsOf, head, mem_cons, decide_eq_true_iff]
  constructor
  · rintro ⟨eq | later, ne⟩
    · exact absurd eq ne
    · exact later
  · intro later
    exact ⟨.inr later, (lt c later).ne'⟩

theorem trailingZeros_eq (head : bitsOf v = b :: rest) : trailingZeros v = b := by
  rw [trailingZeros, head, headD_cons]

variable {words words' : ℕ → BitVec 64} {first last : ℕ}

theorem getLsbD_spanMask {low high : ℕ} (lt : high < 64) :
    (spanMask low high).getLsbD b = decide (low ≤ b ∧ b ≤ high) := by
  simp only [spanMask, BitVec.getLsbD_and, BitVec.getLsbD_shiftLeft, BitVec.getLsbD_ushiftRight, BitVec.getLsbD_allOnes]
  by_cases inside : low ≤ b ∧ b ≤ high
  · simp only [inside, and_self, decide_true]
    have : b < 64 := by omega
    have : b - low < 64 := by omega
    have : 63 - high + b < 64 := by omega
    simp [*]
  · simp only [inside, decide_false]
    by_cases fits : b < 64
    · simp [fits]
      omega
    · simp [fits]

theorem getLsbD_wordMask {i : ℕ} (within : b < 64) (lower : first / 64 ≤ i) (upper : i ≤ last / 64) :
    (wordMask first last i).getLsbD b = decide (first ≤ 64 * i + b ∧ 64 * i + b ≤ last) := by
  rw [wordMask, getLsbD_spanMask (by split_ifs <;> omega)]
  congr 1
  split_ifs <;> simp only [eq_iff_iff] <;> omega

theorem mem_keysOfWord {i k : ℕ} : k ∈ keysOfWord i v ↔ k / 64 = i ∧ v.getLsbD (k % 64) = true := by
  simp only [keysOfWord, mem_map, mem_bitsOf]
  constructor
  · rintro ⟨b, set, rfl⟩
    have lt : b < 64 := BitVec.lt_of_getLsbD set
    have word : (64 * i + b) / 64 = i := by omega
    have rest : (64 * i + b) % 64 = b := by omega
    exact ⟨word, by rwa [rest]⟩
  · rintro ⟨rfl, set⟩
    exact ⟨k % 64, set, by omega⟩

theorem mem_wordsOf {i : ℕ} (order : first ≤ last) : i ∈ wordsOf first last ↔ first / 64 ≤ i ∧ i ≤ last / 64 := by
  have le : first / 64 ≤ last / 64 := Nat.div_le_div_right order
  rw [wordsOf, mem_range'_1]
  omega

theorem mem_keysOf (order : first ≤ last) {k : ℕ} :
    k ∈ keysOf words first last ↔ first ≤ k ∧ k ≤ last ∧ bit words k = true := by
  simp only [keysOf, mem_flatMap, mem_wordsOf order, mem_keysOfWord, BitVec.getLsbD_and, Bool.and_eq_true]
  constructor
  · rintro ⟨i, ⟨lower, upper⟩, rfl, inMask, set⟩
    rw [getLsbD_wordMask (Nat.mod_lt _ (by decide)) lower upper, decide_eq_true_iff] at inMask
    exact ⟨by omega, by omega, set⟩
  · rintro ⟨lower, upper, set⟩
    have lowerWord : first / 64 ≤ k / 64 := Nat.div_le_div_right lower
    have upperWord : k / 64 ≤ last / 64 := Nat.div_le_div_right upper
    refine ⟨k / 64, ⟨lowerWord, upperWord⟩, rfl, ?_, set⟩
    rw [getLsbD_wordMask (Nat.mod_lt _ (by decide)) lowerWord upperWord, decide_eq_true_iff]
    omega

theorem keysOfWord_sorted (i : ℕ) (v : BitVec 64) : (keysOfWord i v).Pairwise (· < ·) :=
  (bitsOf_sorted v).map _ fun _ _ lt => Nat.add_lt_add_left lt _

theorem keysOf_sorted (words : ℕ → BitVec 64) (first last : ℕ) : (keysOf words first last).Pairwise (· < ·) := by
  rw [keysOf, pairwise_flatMap]
  refine ⟨fun i _ => keysOfWord_sorted i _, ?_⟩
  refine (pairwise_lt_range' : (wordsOf first last).Pairwise (· < ·)).imp ?_
  intro i j lt k inI l inJ
  have wordK := (mem_keysOfWord.mp inI).1
  have wordL := (mem_keysOfWord.mp inJ).1
  omega

theorem getElem?_eq_some_iff_rank {l : List ℕ} (sorted : l.Pairwise (· < ·)) {rank key : ℕ} :
    l[rank]? = some key ↔ key ∈ l ∧ (l.filter (· < key)).length = rank := by
  induction l generalizing rank with
  | nil => simp
  | cons a l ih =>
    obtain ⟨least, tail⟩ := pairwise_cons.mp sorted
    have first : l.filter (· < a) = [] := filter_eq_nil_iff.mpr fun k mem => by simpa using (least k mem).le
    by_cases eq : key = a
    · subst eq
      have fresh : key ∉ l := fun mem => absurd (least key mem) (lt_irrefl key)
      cases rank <;> simp [first, ih tail, fresh]
    · have lt : key ∈ l → a < key := least key
      cases rank <;> grind

end Bitmap
