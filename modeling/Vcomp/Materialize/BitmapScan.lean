import Vcomp.Materialize.KeyBitmap

namespace VcompProof

open VcompModel SharedWords Bitmap
open List hiding take

variable {m : BitMemory} {map : KeyBitmap} {first last : ℕ}

def holds (m : BitMemory) (array : BitArray) (key : ℕ) : Bool := bit (fun i => m (array, i)) key

def rangeKeys (map : KeyBitmap) (words : ℕ → BitVec 64) (first last : ℕ) : List ℕ :=
  if first > last ∨ first ≥ map.keyDomain then [] else keysOf words first (min last (map.keyDomain - 1))

theorem mem_rangeKeys {words : ℕ → BitVec 64} {key : ℕ} : key ∈ rangeKeys map words first last ↔
      first ≤ key ∧ key ≤ last ∧ key < map.keyDomain ∧ bit words key = true := by
  unfold rangeKeys
  split_ifs with outside
  · simp only [not_mem_nil, false_iff]
    intro inside
    omega
  · rw [mem_keysOf (by omega)]
    constructor
    · intro inside
      exact ⟨inside.1, by omega, by omega, inside.2.2⟩
    · intro inside
      exact ⟨inside.1, by omega, inside.2.2.2⟩

theorem rangeKeys_sorted (map : KeyBitmap) (words : ℕ → BitVec 64) (first last : ℕ) :
    (rangeKeys map words first last).Pairwise (· < ·) := by
  unfold rangeKeys
  split_ifs
  · exact List.Pairwise.nil
  · exact keysOf_sorted _ _ _

variable {σ : Type} {words : ℕ → BitVec 64}

theorem forEachWord_eq (init : σ) (fn : ℕ → BitVec 64 → σ → Access (Bool × σ)) : map.forEachWord first last init fn =
      if first > last ∨ first ≥ map.keyDomain then pure init
      else walkWords first (min last (map.keyDomain - 1)) fn (wordsOf first (min last (map.keyDomain - 1))) init := by
  unfold KeyBitmap.forEachWord
  split_ifs with outside beyond
  · rfl
  · rw [min_eq_right (by omega)]
  · rw [min_eq_left (by omega)]

theorem run_loadWord (array : BitArray) (word : ℕ) : (loadWord array word).run m = (m (array, word), m) := rfl

theorem run_walkWords_cons (fn : ℕ → BitVec 64 → σ → Access (Bool × σ)) {word : ℕ} {list : List ℕ} {acc acc' : σ}
    {more : Bool} (step : (fn word (wordMask first last word) acc).run m = ((more, acc'), m)) :
    (walkWords first last fn (word :: list) acc).run m =
      if more then (walkWords first last fn list acc').run m else (acc', m) := by
  rw [walkWords, run_bind, step]
  cases more <;> rfl

theorem run_countWords (source : ℕ → Access (BitVec 64)) (read : ∀ i, (source i).run m = (words i, m)) (count : ℕ)
    (list : List ℕ) : (walkWords first last (fun word mask n => do
        let v ← source word
        return (true, n + popCount (mask &&& v))) list count).run m =
      (count + (list.flatMap fun i => keysOfWord i (wordMask first last i &&& words i)).length, m) := by
  induction list generalizing count with
  | nil => rfl
  | cons word list ih =>
    rw [run_walkWords_cons _ (by rw [run_bind, read]; rfl), if_pos rfl, ih, flatMap_cons, length_append,
      keysOfWord, length_map, popCount, add_assoc]

theorem run_countScan (source : ℕ → Access (BitVec 64)) (read : ∀ i, (source i).run m = (words i, m)) :
    (map.forEachWord first last 0 (fun word mask n => do
        let v ← source word
        return (true, n + popCount (mask &&& v)))).run m = ((rangeKeys map words first last).length, m) := by
  rw [forEachWord_eq, rangeKeys]
  split_ifs
  · rfl
  · rw [run_countWords source read, zero_add, keysOf]

def freeWords (m : BitMemory) : ℕ → BitVec 64 := fun i => ~~~ m (.reserved, i)

theorem bit_freeWords (key : ℕ) : bit (freeWords m) key = !holds m .reserved key := by
  have lt : key % 64 < 64 := Nat.mod_lt _ (by decide)
  simp [bit, freeWords, holds, lt]

def freeKeys (map : KeyBitmap) (m : BitMemory) (first last : ℕ) : List ℕ := rangeKeys map (freeWords m) first last

theorem mem_freeKeys {key : ℕ} : key ∈ freeKeys map m first last ↔
      first ≤ key ∧ key ≤ last ∧ key < map.keyDomain ∧ holds m .reserved key = false := by
  rw [freeKeys, mem_rangeKeys, bit_freeWords, Bool.not_eq_true']

theorem freeKeys_sorted (map : KeyBitmap) (m : BitMemory) (first last : ℕ) :
    (freeKeys map m first last).Pairwise (· < ·) := rangeKeys_sorted _ _ _ _

theorem run_countFree : (map.countFree first last).run m = ((freeKeys map m first last).length, m) :=
  run_countScan (fun word => do
    let v ← loadWord .reserved word
    return ~~~v) fun _ => rfl

theorem run_nextWords (fn : ℕ → BitVec 64 → Option ℕ → Access (Bool × Option ℕ))
    (step : ∀ word mask, (fn word mask none).run m =
      (if mask &&& freeWords m word = 0 then (true, none)
        else (false, some (64 * word + trailingZeros (mask &&& freeWords m word))), m)) (list : List ℕ) :
    (walkWords first last fn list none).run m =
      ((list.flatMap fun i => keysOfWord i (wordMask first last i &&& freeWords m i)).head?, m) := by
  induction list with
  | nil => rfl
  | cons word list ih =>
    rw [flatMap_cons]
    cases bits : bitsOf (wordMask first last word &&& freeWords m word) with
    | nil =>
      have empty := bitsOf_eq_nil.mp bits
      rw [run_walkWords_cons fn (by rw [step, if_pos empty]), if_pos rfl, ih, keysOfWord, bits, map_nil,
        nil_append]
    | cons b rest =>
      have ne : wordMask first last word &&& freeWords m word ≠ 0 := by
        intro zero
        rw [bitsOf_eq_nil.mpr zero] at bits
        cases bits
      rw [run_walkWords_cons fn (by rw [step, if_neg ne]), keysOfWord, bits, map_cons, cons_append,
        head?_cons, trailingZeros_eq bits]
      rfl

theorem run_nextFree : (map.nextFree first last).run m = ((freeKeys map m first last).head?, m) := by
  rw [KeyBitmap.nextFree, forEachWord_eq, freeKeys, rangeKeys]
  split_ifs
  · rfl
  · refine run_nextWords _ (fun word mask => ?_) _
    rw [run_bind, run_loadWord]
    change Prog.run (if mask &&& freeWords m word = 0 then _ else _) m = _
    split_ifs <;> rfl

theorem bitsOf_clearLowest_iterate (i : ℕ) (v : BitVec 64) : bitsOf (clearLowest i v) = (bitsOf v).drop i := by
  induction i generalizing v with
  | zero => rfl
  | succ i ih =>
    rw [clearLowest, ih]
    cases bits : bitsOf v with
    | nil =>
      have zero : v = 0 := bitsOf_eq_nil.mp bits
      subst zero
      change ((bitsOf 0).drop i) = _
      rw [bits, drop_nil, drop_nil]
    | cons b rest => rw [bitsOf_clearLowest bits, drop_succ_cons]

theorem trailingZeros_clearLowest {rank : ℕ} {v : BitVec 64} (lt : rank < popCount v) :
    trailingZeros (clearLowest rank v) = (bitsOf v).get ⟨rank, lt⟩ := by
  apply trailingZeros_eq
  rw [bitsOf_clearLowest_iterate]
  exact drop_eq_getElem_cons lt

theorem run_selectWords (first last : ℕ) (fn : ℕ → BitVec 64 → ℕ × Option ℕ → Access (Bool × (ℕ × Option ℕ)))
    (step : ∀ word mask rank, (fn word mask (rank, none)).run m =
      (if rank ≥ popCount (mask &&& freeWords m word) then (true, (rank - popCount (mask &&& freeWords m word), none))
        else (false, (rank, some (64 * word + trailingZeros (clearLowest rank (mask &&& freeWords m word))))), m))
    (rank : ℕ) (list : List ℕ) : ∃ rest, (walkWords first last fn list (rank, none)).run m =
      ((rest, (list.flatMap fun i => keysOfWord i (wordMask first last i &&& freeWords m i))[rank]?), m) := by
  induction list generalizing rank with
  | nil => exact ⟨rank, rfl⟩
  | cons word list ih =>
    have length : (keysOfWord word (wordMask first last word &&& freeWords m word)).length =
        popCount (wordMask first last word &&& freeWords m word) := by
      rw [keysOfWord, length_map, popCount]
    rw [flatMap_cons]
    by_cases past : rank ≥ popCount (wordMask first last word &&& freeWords m word)
    · obtain ⟨rest, scanned⟩ := ih (rank - popCount (wordMask first last word &&& freeWords m word))
      rw [run_walkWords_cons fn (by rw [step, if_pos past]), if_pos rfl, scanned,
        getElem?_append_right (length ▸ past), length]
      exact ⟨rest, rfl⟩
    · have lt : rank < popCount (wordMask first last word &&& freeWords m word) := not_le.mp past
      rw [run_walkWords_cons fn (by rw [step, if_neg past]), getElem?_append_left (length ▸ lt), keysOfWord,
        getElem?_map, trailingZeros_clearLowest lt, getElem?_eq_getElem lt]
      exact ⟨rank, rfl⟩

theorem run_selectFree (map : KeyBitmap) (first last rank : ℕ) :
    (map.selectFree first last rank).run m = ((freeKeys map m first last)[rank]?, m) := by
  rw [KeyBitmap.selectFree, run_bind, forEachWord_eq, freeKeys, rangeKeys]
  split_ifs
  · simp
  · rw [(run_selectWords first (min last (map.keyDomain - 1)) _ ?step rank _).choose_spec]
    · rfl
    case step =>
      intro word mask rank
      rw [run_bind, run_loadWord]
      change Prog.run (if rank ≥ popCount (mask &&& freeWords m word) then _ else _) m = _
      split_ifs <;> rfl

def setKey (m : BitMemory) (array : BitArray) (key : ℕ) : BitMemory :=
  Function.update m (array, key / 64) (m (array, key / 64) ||| keyMask key)

theorem getLsbD_keyMask (key b : ℕ) : (keyMask key).getLsbD b = decide (b = key % 64) := by
  have lt : key % 64 < 64 := Nat.mod_lt _ (by decide)
  rw [keyMask, BitVec.getLsbD_shiftLeft]
  by_cases eq : b = key % 64
  · subst eq
    simp [lt]
  · by_cases less : b < key % 64
    · simp [less, eq]
    · have pos : b - key % 64 ≠ 0 := by omega
      simp [less, eq, BitVec.getLsbD_one, pos]

theorem holds_setKey (array array' : BitArray) (key j : ℕ) :
    holds (setKey m array key) array' j = (holds m array' j || decide (array' = array ∧ j = key)) := by
  unfold holds bit setKey
  by_cases word : (array', j / 64) = (array, key / 64)
  · obtain ⟨rfl, sameWord⟩ := Prod.mk.inj word
    have eq : j % 64 = key % 64 ↔ j = key := by omega
    simp only [sameWord, Function.update_self, BitVec.getLsbD_or, getLsbD_keyMask, eq, true_and]
  · have ne : ¬ (array' = array ∧ j = key) := by
      intro eq
      exact word (by rw [eq.1, eq.2])
    simp only [Function.update_of_ne word, ne, decide_false, Bool.or_false]

theorem and_keyMask_eq_zero (v : BitVec 64) (key : ℕ) : v &&& keyMask key = 0 ↔ v.getLsbD (key % 64) = false := by
  constructor
  · intro zero
    have bit := congrArg (fun w : BitVec 64 => w.getLsbD (key % 64)) zero
    simpa [getLsbD_keyMask] using bit
  · intro clear
    refine bitsOf_congr fun b => ?_
    rw [BitVec.getLsbD_and, getLsbD_keyMask]
    by_cases eq : b = key % 64
    · subst eq
      simp [clear]
    · simp [eq]

theorem run_take (key : ℕ) : (take key).run m = (!holds m .reserved key, setKey m .reserved key) := by
  have was : decide (m (.reserved, key / 64) &&& keyMask key = 0) = !holds m .reserved key := by
    rw [holds, bit]
    cases clear : (m (.reserved, key / 64)).getLsbD (key % 64) with
    | false => simp [(and_keyMask_eq_zero _ _).mpr clear]
    | true =>
      have nonzero : m (.reserved, key / 64) &&& keyMask key ≠ 0 := by
        intro zero
        simp [(and_keyMask_eq_zero _ _).mp zero] at clear
      rw [decide_eq_false nonzero]
      rfl
  rw [← was]
  rfl

theorem run_setBit (array : BitArray) (key : ℕ) :
    (map.setBit array key).run m = ((), if key < map.keyDomain then setKey m array key else m) := by
  unfold KeyBitmap.setBit
  by_cases outside : key ≥ map.keyDomain
  · rw [if_pos outside, if_neg (not_lt.mpr outside)]
    rfl
  · rw [if_neg outside, if_pos (not_le.mp outside)]
    rfl

theorem run_totalBits (array : BitArray) : (map.totalBits array).run m =
      (((List.range map.words).flatMap fun i => keysOfWord i (m (array, i))).length, m) := by
  have scan : ∀ (list : List ℕ) (total : ℕ),
      (list.foldlM (fun total word => do return total + popCount (← loadWord array word)) total : Access ℕ).run m =
        (total + (list.flatMap fun i => keysOfWord i (m (array, i))).length, m) := by
    intro list
    induction list with
    | nil => exact fun total => rfl
    | cons word list ih =>
      intro total
      rw [foldlM_cons, run_bind, run_bind, run_loadWord, pure_eq_done, run_done, ih, flatMap_cons,
        length_append, keysOfWord, length_map, popCount, add_assoc]
  rw [KeyBitmap.totalBits, scan, zero_add]

end VcompProof
