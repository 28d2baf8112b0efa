import Vcomp.Materialize.BitmapScan

namespace VcompProof

open VcompModel SharedWords Bitmap List

variable {m : BitMemory} {map : KeyBitmap} {first last : ℕ}

def modeWords (mode : MembershipMode) (m : BitMemory) (i : ℕ) : BitVec 64 :=
  match mode with
  | .present => m (.present, i)
  | .newest => m (.present, i) &&& ~~~m (.claimed, i)
  | .stale => m (.present, i) &&& m (.claimed, i)

theorem run_modeWord (mode : MembershipMode) (word : ℕ) : (modeWord mode word).run m = (modeWords mode m word, m) := by
  cases mode <;> rfl

theorem bit_newest (key : ℕ) : bit (modeWords .newest m) key = (holds m .present key && !holds m .claimed key) := by
  have lt : key % 64 < 64 := Nat.mod_lt _ (by decide)
  simp [bit, modeWords, holds, lt]

theorem bit_stale (key : ℕ) : bit (modeWords .stale m) key = (holds m .present key && holds m .claimed key) := by
  simp [bit, modeWords, holds]

def modeKeys (map : KeyBitmap) (mode : MembershipMode) (m : BitMemory) (first last : ℕ) : List ℕ :=
  rangeKeys map (modeWords mode m) first last

theorem run_countPresent (mode : MembershipMode) :
    (map.countPresent first last mode).run m = ((modeKeys map mode m first last).length, m) :=
  run_countScan (modeWord mode) (run_modeWord mode)

def domainKeys (map : KeyBitmap) (first last : ℕ) (keep : ℕ → Bool) : Finset ℕ :=
  {key ∈ Finset.range map.keyDomain | first ≤ key ∧ key ≤ last ∧ keep key = true}

theorem toFinset_rangeKeys (map : KeyBitmap) (words : ℕ → BitVec 64) (first last : ℕ) :
    (rangeKeys map words first last).toFinset = domainKeys map first last (bit words) := by
  ext key
  rw [mem_toFinset, mem_rangeKeys, domainKeys, Finset.mem_filter, Finset.mem_range]
  tauto

theorem rangeScans_exact (map : KeyBitmap) (m : BitMemory) (first last rank key : ℕ) (mode : MembershipMode) :
    let free := domainKeys map first last fun k => !holds m .reserved k
    (map.countFree first last).run m = (free.card, m) ∧
    (((map.nextFree first last).run m).1 = some key ↔ IsLeast (free : Set ℕ) key) ∧
    (((map.nextFree first last).run m).1 = none ↔ free = ∅) ∧
    (((map.selectFree first last rank).run m).1 = some key ↔ key ∈ free ∧ (free.filter (· < key)).card = rank) ∧
    (((map.selectFree first last rank).run m).1 = none ↔ free.card ≤ rank) ∧
    (map.countPresent first last mode).run m = ((domainKeys map first last (bit (modeWords mode m))).card, m) := by
  have sorted := freeKeys_sorted map m first last
  have keys : (freeKeys map m first last).toFinset = domainKeys map first last fun k => !holds m .reserved k := by
    rw [freeKeys, toFinset_rangeKeys, funext (bit_freeWords (m := m))]
  have card : ∀ l : List ℕ, l.Pairwise (· < ·) → l.toFinset.card = l.length :=
    fun l sorted => toFinset_card_of_nodup (sorted.imp Nat.ne_of_lt)
  intro free
  have rankOf : ∀ rank, (freeKeys map m first last)[rank]? = some key ↔
      key ∈ free ∧ (free.filter (· < key)).card = rank := by
    intro rank
    rw [getElem?_eq_some_iff_rank sorted, ← card _ (sorted.filter _), toFinset_filter, keys, ← mem_toFinset, keys]
    simp [free]
  rw [run_countFree, run_nextFree, run_selectFree, run_countPresent, modeKeys, ← toFinset_rangeKeys,
    card _ (rangeKeys_sorted _ _ _ _), head?_eq_getElem?, getElem?_eq_none_iff, getElem?_eq_none_iff, rankOf, rankOf]
  have count : free.card = (freeKeys map m first last).length := by rw [← card _ sorted, keys]
  refine ⟨by rw [count], ?_, ?_, Iff.rfl, by rw [count], rfl⟩
  · rw [Finset.card_eq_zero, Finset.filter_eq_empty_iff]
    simp [IsLeast, lowerBounds]
  · rw [← count, Nat.le_zero, Finset.card_eq_zero]

variable {last target word : ℕ} {v : BitVec 64} {keys : List ℕ}

def wordKeys (last word : ℕ) (v : BitVec 64) : List ℕ := (keysOfWord word v).filter fun k => decide (k ≤ last)

theorem mem_wordKeys {k : ℕ} : k ∈ wordKeys last word v ↔ (k / 64 = word ∧ v.getLsbD (k % 64) = true) ∧ k ≤ last := by
  rw [wordKeys, mem_filter, mem_keysOfWord, decide_eq_true_iff]

theorem wordKeys_sorted (last word : ℕ) (v : BitVec 64) : (wordKeys last word v).Pairwise (· < ·) :=
  (keysOfWord_sorted word v).filter _

theorem wordKeys_zero (last word : ℕ) : wordKeys last word 0 = [] := by
  rw [wordKeys, keysOfWord, bitsOf_eq_nil.mpr rfl, map_nil, filter_nil]

theorem wordKeys_lowest (last word : ℕ) (nonzero : v ≠ 0) :
    (∀ k ∈ wordKeys last word v, 64 * word + trailingZeros v ≤ k) ∧ trailingZeros v < 64 ∧
      (64 * word + trailingZeros v ≤ last →
        wordKeys last word v = (64 * word + trailingZeros v) :: wordKeys last word (v &&& (v - 1))) := by
  cases bits : bitsOf v with
  | nil => exact absurd (bitsOf_eq_nil.mp bits) nonzero
  | cons b rest =>
    have sorted := bits ▸ bitsOf_sorted v
    have keys : keysOfWord word v = (64 * word + b) :: keysOfWord word (v &&& (v - 1)) := by
      rw [keysOfWord, bits, map_cons, keysOfWord, bitsOf_clearLowest bits]
    rw [trailingZeros_eq bits]
    have set : b ∈ bitsOf v := by rw [bits]; exact mem_cons_self
    refine ⟨?_, BitVec.lt_of_getLsbD (mem_bitsOf.mp set), ?_⟩
    · intro k mem
      have inWord := (mem_filter.mp mem).1
      rw [keysOfWord, bits] at inWord
      obtain ⟨c, inBits, rfl⟩ := mem_map.mp inWord
      cases inBits with
      | head => exact le_rfl
      | tail _ later => exact Nat.add_le_add_left ((pairwise_cons.mp sorted).1 c later).le _
    · intro inside
      rw [wordKeys, keys, filter_cons_of_pos (by simpa using inside)]
      rfl

/-- The scan of a word skips keys of lower rank, and ends beyond the range only in the last word. -/
def ScansTo (last target word : ℕ) (pending : BitVec 64) (seen : ℕ) (scan : PendingScan) : Prop :=
  match (wordKeys last word pending).drop (target - seen) with
  | k :: rest => ∃ pending', scan = .found k pending' (seen + (target - seen) + 1) ∧ wordKeys last word pending' = rest
  | [] => (scan = .beyond ∧ last < 64 * (word + 1)) ∨ scan = .empty (seen + (wordKeys last word pending).length)

theorem scanPending_scans (last target word fuel : ℕ) {pending : BitVec 64} (seen : ℕ) (enough : popCount pending ≤ fuel) :
    ScansTo last target word pending seen (scanPending last target word fuel pending seen) := by
  induction fuel generalizing pending seen with
  | zero =>
    have zero : pending = 0 := bitsOf_eq_nil.mp (eq_nil_of_length_eq_zero (Nat.le_zero.mp enough))
    subst zero
    rw [ScansTo, wordKeys_zero, drop_nil]
    exact .inr rfl
  | succ fuel ih =>
    unfold scanPending
    by_cases zero : pending = 0
    · rw [if_pos zero, ScansTo, zero, wordKeys_zero, drop_nil]
      exact .inr rfl
    rw [if_neg zero]
    obtain ⟨lowest, lt, next⟩ := wordKeys_lowest last word zero
    by_cases beyond : 64 * word + trailingZeros pending > last
    · have empty : wordKeys last word pending = [] := by
        apply eq_nil_iff_forall_not_mem.mpr
        intro k mem
        have upper := (mem_wordKeys.mp mem).2
        have lower := lowest k mem
        omega
      simp only [beyond, if_true]
      rw [ScansTo, empty, drop_nil]
      exact .inl ⟨rfl, by omega⟩
    · have cons := next (not_lt.mp beyond)
      simp only [beyond, if_false]
      by_cases reached : seen ≥ target
      · have skip : target - seen = 0 := Nat.sub_eq_zero_of_le reached
        rw [if_pos reached, ScansTo, cons, skip, drop_zero]
        exact ⟨_, rfl, rfl⟩
      · have fewer : popCount (pending &&& (pending - 1)) ≤ fuel := by
          cases bits : bitsOf pending with
          | nil => exact absurd (bitsOf_eq_nil.mp bits) zero
          | cons b rest =>
            rw [popCount, bitsOf_clearLowest bits]
            rw [popCount, bits, length_cons] at enough
            omega
        have later := ih (seen + 1) fewer
        have skip : target - seen = (target - (seen + 1)) + 1 := by omega
        rw [if_neg reached]
        rw [ScansTo] at later ⊢
        rw [cons, skip, drop_succ_cons, length_cons]
        have count : seen + ((target - (seen + 1)) + 1) = seen + 1 + (target - (seen + 1)) := by omega
        have total : seen + ((wordKeys last word (pending &&& (pending - 1))).length + 1) =
            seen + 1 + (wordKeys last word (pending &&& (pending - 1))).length := by omega
        rw [count, total]
        exact later

theorem popCount_le (v : BitVec 64) : popCount v ≤ 64 := by
  have length := length_filter_le v.getLsbD (List.range 64)
  rwa [length_range] at length

/-- The keys a cursor has not passed, with `ahead` words after the loaded one. -/
def keysAhead (words : ℕ → BitVec 64) (ahead : ℕ) (c : Cursor) : List ℕ :=
  wordKeys c.last c.word c.pending ++ (List.range' (c.word + 1) ahead).flatMap fun i => wordKeys c.last i (words i)

structure Advanced (c c' : Cursor) (passed : ℕ) : Prop where
  last : c'.last = c.last
  want : c'.want = c.want
  mode : c'.mode = c.mode
  present : c'.present = c.present
  seen : c'.seen = c.seen + passed + 1
  emitted : c'.emitted = c.emitted + 1

theorem keysAhead_beyond {words : ℕ → BitVec 64} (ahead : ℕ) (beyond : last < 64 * word) :
    (List.range' word ahead).flatMap (fun i => wordKeys last i (words i)) = [] := by
  rw [flatMap_eq_nil_iff]
  intro i mem
  have after := (mem_range'_1.mp mem).1
  apply eq_nil_iff_forall_not_mem.mpr
  intro k inWord
  obtain ⟨⟨inI, -⟩, upper⟩ := mem_wordKeys.mp inWord
  omega

theorem run_nextLoop (target ahead : ℕ) (c : Cursor) :
    match (keysAhead (modeWords c.mode m) ahead c).drop (target - c.seen) with
    | [] => (nextLoop target ahead c).run m = (none, m)
    | k :: rest => ∃ c', (nextLoop target ahead c).run m = (some (k, c'), m) ∧ Advanced c c' (target - c.seen) ∧
        c'.word ≤ c.word + ahead ∧ keysAhead (modeWords c.mode m) (c.word + ahead - c'.word) c' = rest := by
  induction ahead generalizing c with
  | zero =>
    have scans := scanPending_scans c.last target c.word 64 c.seen (popCount_le c.pending)
    have ahead : keysAhead (modeWords c.mode m) 0 c = wordKeys c.last c.word c.pending := by
      rw [keysAhead, range'_zero, flatMap_nil, append_nil]
    rw [ahead]
    unfold nextLoop
    unfold ScansTo at scans
    cases dropped : (wordKeys c.last c.word c.pending).drop (target - c.seen) with
    | nil =>
      rw [dropped] at scans
      rcases scans with ⟨scan, -⟩ | scan <;> rw [scan] <;> rfl
    | cons k rest =>
      rw [dropped] at scans
      obtain ⟨pending, scan, left⟩ := scans
      rw [scan]
      refine ⟨_, rfl, ⟨rfl, rfl, rfl, rfl, rfl, rfl⟩, le_rfl, ?_⟩
      simp only [keysAhead, Nat.add_zero, Nat.sub_self, range'_zero, flatMap_nil, append_nil]
      exact left
  | succ ahead ih =>
    have scans := scanPending_scans c.last target c.word 64 c.seen (popCount_le c.pending)
    unfold nextLoop
    unfold ScansTo at scans
    cases dropped : (wordKeys c.last c.word c.pending).drop (target - c.seen) with
    | cons k rest =>
      rw [dropped] at scans
      obtain ⟨pending, scan, left⟩ := scans
      have short : target - c.seen < (wordKeys c.last c.word c.pending).length := by
        by_contra long
        rw [drop_of_length_le (not_lt.mp long)] at dropped
        nomatch dropped
      rw [keysAhead, drop_append_of_le_length short.le, dropped, scan]
      refine ⟨_, rfl, ⟨rfl, rfl, rfl, rfl, rfl, rfl⟩, Nat.le_add_right _ _, ?_⟩
      simp only [keysAhead, Nat.add_sub_cancel_left]
      rw [left]
      rfl
    | nil =>
      rw [dropped] at scans
      have long : (wordKeys c.last c.word c.pending).length ≤ target - c.seen := drop_eq_nil_iff.mp dropped
      rw [keysAhead, drop_append, dropped, nil_append]
      by_cases beyond : 64 * (c.word + 1) > c.last
      · rw [keysAhead_beyond _ beyond, drop_nil]
        rcases scans with ⟨scan, -⟩ | scan
        · rw [scan]
          rfl
        · simp only [scan, beyond, if_true]
          rfl
      · rcases scans with ⟨-, past⟩ | scan
        · omega
        simp only [scan, beyond, if_false, run_bind, run_modeWord]
        have next := ih { c with
          word := c.word + 1
          pending := modeWords c.mode m (c.word + 1)
          seen := c.seen + (wordKeys c.last c.word c.pending).length }
        have remaining : target - (c.seen + (wordKeys c.last c.word c.pending).length) =
            target - c.seen - (wordKeys c.last c.word c.pending).length := by omega
        rw [range'_succ, flatMap_cons]
        simp only [keysAhead, remaining] at next
        cases later : (wordKeys c.last (c.word + 1) (modeWords c.mode m (c.word + 1)) ++
            (List.range' (c.word + 1 + 1) ahead).flatMap fun i => wordKeys c.last i (modeWords c.mode m i)).drop
              (target - c.seen - (wordKeys c.last c.word c.pending).length) with
        | nil =>
          rw [later] at next
          exact next
        | cons k rest =>
          rw [later] at next
          obtain ⟨c', ran, advanced, word, left⟩ := next
          have seen := advanced.seen
          simp only at seen word
          refine ⟨c', ran, ⟨advanced.last, advanced.want, advanced.mode, advanced.present, by omega, advanced.emitted⟩,
            by omega, ?_⟩
          have words : c.word + (ahead + 1) - c'.word = c.word + 1 + ahead - c'.word := by omega
          rw [words]
          exact left

/-- A cursor whose keys from rank `seen` on are still ahead, and that keeps up with its targets. -/
structure CursorAt (map : KeyBitmap) (m : BitMemory) (keys : List ℕ) (c : Cursor) : Prop where
  word : c.word < map.words
  present : c.present = keys.length
  want : c.want ≤ keys.length
  ahead : keysAhead (modeWords c.mode m) (map.words - 1 - c.word) c = keys.drop c.seen
  behind : c.seen * c.want ≤ c.emitted * keys.length

theorem CursorAt.next {c : Cursor} (now : CursorAt map m keys c) (more : c.emitted < c.want) :
    ∃ k c' skip, (map.next c).run m = (some (k, c'), m) ∧ CursorAt map m keys c' ∧ c'.want = c.want ∧
      c'.emitted = c.emitted + 1 ∧ keys.drop c.seen = skip ++ k :: keys.drop c'.seen ∧
      keys[c.seen + (c.emitted * keys.length % word64 / c.want - c.seen)]? = some k := by
  have pos : 0 < c.want := by omega
  have enough := now.want
  set target := c.emitted * c.present % word64 / c.want with targetEq
  -- the target never passes the share of the keys emitted, even where its product wraps
  have bound : target * c.want ≤ c.emitted * keys.length := by
    rw [targetEq, now.present]
    exact (Nat.div_mul_le_self _ _).trans (Nat.mod_le _ _)
  have rank : (c.seen + (target - c.seen)) * c.want ≤ c.emitted * keys.length := by
    obtain low | high := le_total target c.seen
    · rw [Nat.sub_eq_zero_of_le low, add_zero]
      exact now.behind
    · rw [Nat.add_sub_cancel' high]
      exact bound
  have share : c.emitted * keys.length + keys.length ≤ c.want * keys.length := by
    rw [← Nat.succ_mul]
    exact Nat.mul_le_mul_right _ more
  have inside : c.seen + (target - c.seen) < keys.length := by
    by_contra outside
    have past : keys.length * c.want ≤ c.emitted * keys.length :=
      (Nat.mul_le_mul_right _ (not_lt.mp outside)).trans rank
    rw [Nat.mul_comm] at past
    omega
  have notDone : ¬ (c.want = 0 ∨ c.emitted ≥ c.want ∨ c.present = 0) := by
    have present := now.present
    omega
  obtain ⟨k, split⟩ : ∃ k, keys.drop (c.seen + (target - c.seen)) = k :: keys.drop (c.seen + (target - c.seen) + 1) :=
    ⟨_, drop_eq_getElem_cons inside⟩
  have ran := run_nextLoop (m := m) target (map.words - 1 - c.word) c
  rw [now.ahead, drop_drop, split] at ran
  obtain ⟨c', ran, advanced, word, left⟩ := ran
  have start := now.word
  have seen := advanced.seen
  have lastWord : c.word + (map.words - 1 - c.word) = map.words - 1 := by omega
  rw [lastWord] at word left
  refine ⟨k, c', (keys.drop c.seen).take (target - c.seen), ?_, ⟨by omega, ?_, ?_, ?_, ?_⟩, advanced.want,
    advanced.emitted, ?_, ?_⟩
  · rw [KeyBitmap.next, if_neg notDone]
    exact ran
  · rw [advanced.present, now.present]
  · rw [advanced.want]
    exact enough
  · rw [advanced.mode, left, seen]
  · rw [seen, advanced.want, advanced.emitted, Nat.add_one_mul, Nat.add_one_mul]
    exact add_le_add rank enough
  · rw [seen, ← split, ← drop_drop, take_append_drop]
  · rw [← now.present, ← targetEq, ← head?_drop, split]
    rfl

def Yields (map : KeyBitmap) (m : BitMemory) : Option (ℕ × Cursor) → List ℕ → Prop
  | found, [] => found = none
  | found, k :: rest => ∃ c, found = some (k, c) ∧ ((map.next c).run m).2 = m ∧ Yields map m ((map.next c).run m).1 rest

theorem CursorAt.yields {c : Cursor} (now : CursorAt map m keys c) (bounded : c.emitted ≤ c.want) :
    ((map.next c).run m).2 = m ∧ ∃ out, Yields map m ((map.next c).run m).1 out ∧ out.length = c.want - c.emitted ∧
      out.Sublist (keys.drop c.seen) ∧ (c.want * keys.length < word64 →
        ∀ i < out.length, out[i]? = keys[(c.emitted + i) * keys.length / c.want]?) := by
  generalize count : c.want - c.emitted = n
  induction n generalizing c with
  | zero =>
    have done : c.want = 0 ∨ c.emitted ≥ c.want ∨ c.present = 0 := by omega
    have ran : (map.next c).run m = (none, m) := by
      rw [KeyBitmap.next, if_pos done]
      rfl
    rw [ran]
    exact ⟨rfl, [], rfl, rfl, nil_sublist _, fun _ i lt => nomatch lt⟩
  | succ n ih =>
    obtain ⟨k, c', skip, ran, at', want, emitted, split, found⟩ := now.next (by omega)
    obtain ⟨eq, out, yields, length, sub, spread⟩ := ih at' (by omega) (by omega)
    rw [ran]
    refine ⟨rfl, k :: out, ⟨c', rfl, eq, yields⟩, by rw [length_cons, length], ?_, ?_⟩
    · rw [split]
      exact (sub.cons_cons k).trans (sublist_append_right _ _)
    · intro fits i lt
      cases i with
      | zero =>
        -- without wrap-around the target has not been passed yet
        have small : c.emitted * keys.length < word64 := (Nat.mul_le_mul_right _ (by omega)).trans_lt fits
        have notPassed : c.seen ≤ c.emitted * keys.length / c.want :=
          (Nat.le_div_iff_mul_le (by omega)).mpr now.behind
        rw [Nat.mod_eq_of_lt small, Nat.add_sub_cancel' notPassed] at found
        rw [add_zero, found]
        rfl
      | succ i =>
        have later := spread (want ▸ fits) i (Nat.lt_of_succ_lt_succ lt)
        rw [emitted, want, add_right_comm, add_assoc] at later
        exact later

variable {first last want : ℕ} {mode : MembershipMode}

theorem keysAhead_sorted (words : ℕ → BitVec 64) (ahead : ℕ) (c : Cursor) : (keysAhead words ahead c).Pairwise (· < ·) := by
  rw [keysAhead, pairwise_append, pairwise_flatMap]
  refine ⟨wordKeys_sorted _ _ _, ⟨fun i _ => wordKeys_sorted _ _ _, ?_⟩, ?_⟩
  · apply (pairwise_lt_range' : (List.range' (c.word + 1) ahead).Pairwise (· < ·)).imp
    intro i j lt k inI l inJ
    have wordK := (mem_wordKeys.mp inI).1.1
    have wordL := (mem_wordKeys.mp inJ).1.1
    omega
  · intro k inWord l later
    obtain ⟨i, mem, inI⟩ := mem_flatMap.mp later
    have wordK := (mem_wordKeys.mp inWord).1.1
    have wordL := (mem_wordKeys.mp inI).1.1
    have after := (mem_range'_1.mp mem).1
    omega

theorem getLsbD_fromBit (v : BitVec 64) (low b : ℕ) :
    (v &&& (BitVec.allOnes 64 <<< low)).getLsbD b = (v.getLsbD b && decide (low ≤ b)) := by
  rw [BitVec.getLsbD_and, BitVec.getLsbD_shiftLeft, BitVec.getLsbD_allOnes]
  cases set : v.getLsbD b with
  | false => rfl
  | true =>
    have lt : b < 64 := BitVec.lt_of_getLsbD set
    have near : b - low < 64 := by omega
    simp only [lt, near, decide_true, Bool.true_and, Bool.and_true]
    by_cases inside : low ≤ b
    · simp [inside]
    · simp [inside, not_le.mp inside]

theorem run_newCursor (words : map.words = (map.keyDomain + 63) / 64) (lower : first < map.keyDomain)
    (clear : ∀ k, map.keyDomain ≤ k → k ≤ last → k / 64 < map.words → bit (modeWords mode m) k = false)
    (enough : want ≤ (modeKeys map mode m first last).length) :
    ∃ c, (map.newCursor first last want mode).run m = (c, m) ∧ CursorAt map m (modeKeys map mode m first last) c ∧
      c.want = want ∧ c.emitted = 0 ∧ c.seen = 0 := by
  refine ⟨⟨last, want, mode, (modeKeys map mode m first last).length, first / 64,
    modeWords mode m (first / 64) &&& (BitVec.allOnes 64 <<< (first % 64)), 0, 0⟩, ?_, ?_, rfl, rfl, rfl⟩
  · rw [KeyBitmap.newCursor, run_bind, run_countPresent, if_pos lower, run_bind, run_modeWord]
    rfl
  · refine ⟨by simp only; omega, rfl, enough, ?_, by simp⟩
    rw [drop_zero]
    apply eq_of_sorted (keysAhead_sorted _ _ _) (rangeKeys_sorted _ _ _ _)
    intro k
    simp only [keysAhead, mem_append, mem_flatMap, mem_wordKeys, mem_range'_1, mem_rangeKeys, bit,
      getLsbD_fromBit, Bool.and_eq_true, decide_eq_true_iff]
    constructor
    · have inDomain : ∀ i, k / 64 = i → i < map.words → k ≤ last → (modeWords mode m i).getLsbD (k % 64) = true →
          k < map.keyDomain := by
        intro i word inWords inRange set
        by_contra past
        have unset := clear k (not_lt.mp past) inRange (word ▸ inWords)
        rw [bit, word, set] at unset
        cases unset
      intro found
      rcases found with ⟨⟨word, set, low⟩, inRange⟩ | ⟨i, ⟨after, before⟩, ⟨word, set⟩, inRange⟩
      · exact ⟨by omega, inRange, inDomain _ word (by omega) inRange set, by rw [word]; exact set⟩
      · exact ⟨by omega, inRange, inDomain i word (by omega) inRange set, by rw [word]; exact set⟩
    · intro inside
      obtain ⟨low, inRange, inDomain, set⟩ := inside
      by_cases eq : k / 64 = first / 64
      · exact .inl ⟨⟨eq, by rw [← eq]; exact set, by omega⟩, inRange⟩
      · exact .inr ⟨k / 64, ⟨by omega, by omega⟩, ⟨rfl, set⟩, inRange⟩

end VcompProof
