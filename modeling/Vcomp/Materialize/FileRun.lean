import Vcomp.Foundation.RadixSort
import Vcomp.Materialize.BitmapScan
import Vcomp.Materialize.FileLoop

namespace VcompProof

open VcompModel SharedWords List

variable {cfg : MaterializeConfig} {io : SstIo} {s : FileState} {task : SSTTask}

section

variable {l : List ℕ} {k : ℕ}

variable (sorted : l.Pairwise (· < ·))
include sorted

theorem head?_of_least (mem : k ∈ l) (least : ∀ x ∈ l, k ≤ x) : l.head? = some k := by
  cases l with
  | nil => simp at mem
  | cons x l =>
    rcases mem_cons.mp mem with rfl | later
    · rfl
    · have lt := (pairwise_cons.mp sorted).1 k later
      have atMost := least x mem_cons_self
      omega

theorem sorted_getElem?_lt {i j a b : ℕ} (atI : l[i]? = some a) (atJ : l[j]? = some b) (lt : i < j) : a < b := by
  obtain ⟨belowI, rfl⟩ := List.getElem?_eq_some_iff.mp atI
  obtain ⟨belowJ, rfl⟩ := List.getElem?_eq_some_iff.mp atJ
  exact List.pairwise_iff_getElem.mp sorted i j belowI belowJ lt

theorem sorted_next_le {i a b x : ℕ} (get : l[i]? = some a) (next : l[i + 1]? = some b)
    (mem : x ∈ l) (greater : a < x) : b ≤ x := by
  obtain ⟨j, atJ⟩ := mem_iff_getElem?.mp mem
  by_contra lt
  have before : j < i + 1 := by
    by_contra notBefore
    rcases lt_or_eq_of_le (not_lt.mp notBefore) with later | rfl
    · exact lt (sorted_getElem?_lt sorted next atJ later).le
    · rw [atJ] at next
      exact lt (Option.some.inj next).ge
  rcases lt_or_eq_of_le (Nat.lt_succ_iff.mp before) with earlier | rfl
  · have := sorted_getElem?_lt sorted atJ get earlier
    omega
  · rw [atJ] at get
    have := Option.some.inj get
    omega

theorem le_getLast?_of_sorted {last : ℕ} (atEnd : l.getLast? = some last) (mem : k ∈ l) : k ≤ last := by
  obtain ⟨front, rfl⟩ := getLast?_eq_some_iff.mp atEnd
  rcases mem_append.mp mem with inFront | atLast
  · exact ((pairwise_append.mp sorted).2.2 k inFront last (by simp)).le
  · exact (mem_singleton.mp atLast).le

theorem lt_of_getLast?_lt {x : ℕ} (larger : ∀ last, l.getLast? = some last → last < x) (mem : k ∈ l) : k < x := by
  cases atEnd : l.getLast? with
  | none =>
    rw [getLast?_eq_none_iff.mp atEnd] at mem
    nomatch mem
  | some last => exact (le_getLast?_of_sorted sorted atEnd mem).trans_lt (larger last atEnd)

end

def KeysIncrease (cfg : MaterializeConfig) : Prop :=
  ∀ a b, a < b → b < cfg.map.keyDomain →
    generateKeyFromInt cfg.format a cfg.map.keyDomain < generateKeyFromInt cfg.format b cfg.map.keyDomain

theorem bigEndian_succ (v count : ℕ) : bigEndian v (count + 1) = v / 256 ^ count % 256 :: bigEndian v count := by
  simp only [bigEndian, range_succ_eq_map, map_cons, map_map]
  congr 1
  apply map_congr_left
  intro i inRange
  have lt : i < count := mem_range.mp inRange
  simp only [Function.comp_apply, show count + 1 - (i + 1) - 1 = count - i - 1 by omega]

theorem bigEndian_lt (count : ℕ) {a b : ℕ} (less : a % 256 ^ count < b % 256 ^ count) (pad : List ℕ) :
    bigEndian a count ++ pad < bigEndian b count ++ pad := by
  induction count with
  | zero => simp [Nat.mod_one] at less
  | succ count ih =>
    rw [bigEndian_succ, bigEndian_succ, cons_append, cons_append, cons_lt_cons_iff]
    rw [pow_succ, Nat.mod_mul, Nat.mod_mul] at less
    have lowA : a % 256 ^ count < 256 ^ count := Nat.mod_lt _ (by positivity)
    -- the leading digits decide, and the rest only when they are equal
    obtain above | eq | lt := lt_trichotomy (a / 256 ^ count % 256) (b / 256 ^ count % 256)
    · exact .inl above
    · rw [eq] at less
      exact .inr ⟨eq, ih (by omega)⟩
    · have step : 256 ^ count * (b / 256 ^ count % 256 + 1) ≤ 256 ^ count * (a / 256 ^ count % 256) :=
        Nat.mul_le_mul_left _ lt
      have lowB : b % 256 ^ count < 256 ^ count := Nat.mod_lt _ (by positivity)
      rw [Nat.mul_add, Nat.mul_one] at step
      omega

theorem generateKeyFromInt_plain {format : KeyFormat} (plain : format.keysPerPrefix = 0) (v numKeys : ℕ) :
    generateKeyFromInt format v numKeys =
      bigEndian v (min format.keySize 8) ++ List.replicate (format.keySize - min format.keySize 8) 48 := by
  simp [generateKeyFromInt, plain, bigEndian]

theorem encodeUserKey_eq (keySize v : ℕ) :
    encodeUserKey keySize v = bigEndian v (min keySize 8) ++ List.replicate (keySize - min keySize 8) 48 := by
  apply ext_getElem
  · simp [encodeUserKey, bigEndian]
  intro i lt below'
  simp only [encodeUserKey, length_map, length_range] at lt
  by_cases filled : i < min keySize 8
  · rw [getElem_append_left (by simpa [bigEndian] using filled)]
    simp only [encodeUserKey, bigEndian, getElem_map, getElem_range, if_pos filled, Nat.shiftLeft_eq]
    rw [Nat.mul_comm]
    exact RadixSort.digit_eq _ v
  · rw [getElem_append_right (by simp only [bigEndian, length_map, length_range]; omega)]
    simp only [encodeUserKey, getElem_map, getElem_range, if_neg filled, getElem_replicate]

theorem foldl_bigEndian (v count k : ℕ) :
    (bigEndian v count).foldl (fun k d => k <<< 8 ||| d) k = k * 256 ^ count + v % 256 ^ count := by
  induction count generalizing k with
  | zero => simp [bigEndian, Nat.mod_one]
  | succ count ih =>
    rw [bigEndian_succ, foldl_cons, ih, ← Nat.shiftLeft_add_eq_or_of_lt (Nat.mod_lt _ (by decide)), Nat.shiftLeft_eq,
      Nat.mod_pow_succ (x := v) (b := 256) (k := count)]
    ring

/-- The key extraction inverts the encoding exactly for keys of eight bytes or more, and for the id 0. -/
theorem encodeUserKey_agrees (keySize prefixSize numKeys v w : ℕ) (small : v < 256 ^ min keySize 8)
    (small' : w < 256 ^ min keySize 8) :
    (encodeUserKey keySize v = generateKeyFromInt ⟨keySize, prefixSize, 0⟩ v numKeys ∧
        (v < w ↔ encodeUserKey keySize v < encodeUserKey keySize w) ∧ extractKey (encodeUserKey keySize v) = v) ↔
      8 ≤ keySize ∨ v = 0 := by
  have rises : ∀ {a b}, a < b → b < 256 ^ min keySize 8 → encodeUserKey keySize a < encodeUserKey keySize b := by
    intro a b less inside
    rw [encodeUserKey_eq, encodeUserKey_eq]
    apply bigEndian_lt
    rwa [Nat.mod_eq_of_lt (less.trans inside), Nat.mod_eq_of_lt inside]
  have order : v < w ↔ encodeUserKey keySize v < encodeUserKey keySize w := by
    refine ⟨fun less => rises less small', fun lt => ?_⟩
    obtain less | rfl | above := lt_trichotomy v w
    · exact less
    · exact absurd lt (lt_irrefl _)
    · exact absurd lt (rises above small).asymm
  have extracts : extractKey (encodeUserKey keySize v) = v ↔ 8 ≤ keySize ∨ v = 0 := by
    have length : (encodeUserKey keySize v).length = keySize := by simp [encodeUserKey]
    by_cases long : 8 ≤ keySize
    · have full : min keySize 8 = 8 := min_eq_right long
      rw [extractKey, length, if_pos long, encodeUserKey_eq, take_left' (by simp [bigEndian, full]), full, foldl_bigEndian,
        Nat.zero_mul, Nat.zero_add, Nat.mod_eq_of_lt (full ▸ small)]
      exact iff_of_true rfl (.inl long)
    · rw [extractKey, length, if_neg long]
      simp only [long, false_or, eq_comm]
  rw [extracts]
  refine ⟨fun all => all.2.2, fun enough => ⟨?_, order, enough⟩⟩
  rw [encodeUserKey_eq, generateKeyFromInt_plain rfl]

theorem encodeUserKey_agrees_sixteen : encodeUserKey 16 258 = generateKeyFromInt ⟨16, 0, 0⟩ 258 300 ∧
      (258 < 300 ↔ encodeUserKey 16 258 < encodeUserKey 16 300) ∧ extractKey (encodeUserKey 16 258) = 258 :=
  (encodeUserKey_agrees 16 0 300 258 300 (by decide) (by decide)).mpr (.inl (by decide))

theorem extractKey_drops_short : 5 < 256 ^ min 4 8 ∧ encodeUserKey 4 5 = [0, 0, 0, 5] ∧
    extractKey (encodeUserKey 4 5) = 0 := by
  decide

theorem keysIncrease_plain (plain : cfg.format.keysPerPrefix = 0)
    (fits : cfg.map.keyDomain ≤ 256 ^ min cfg.format.keySize 8) : KeysIncrease cfg := by
  intro a b lt inDomain
  have small : ∀ v < cfg.map.keyDomain, v % 256 ^ min cfg.format.keySize 8 = v := fun v inside =>
    Nat.mod_eq_of_lt (inside.trans_le fits)
  rw [generateKeyFromInt_plain plain, generateKeyFromInt_plain plain]
  apply bigEndian_lt
  rw [small a (lt.trans inDomain), small b inDomain]
  exact lt

structure WritesSucceed (io : SstIo) : Prop where
  opens : io.opens = true
  puts : ∀ n, io.puts n = true
  finishes : io.finishes = true

def clampedMax (map : KeyBitmap) (task : SSTTask) : ℕ :=
  if task.materializeKeyMax ≥ map.keyDomain then map.keyDomain - 1 else task.materializeKeyMax

structure Emitting (cfg : MaterializeConfig) (s : FileState) : Prop where
  sorted : s.emitted.Pairwise (· < ·)
  inside : ∀ k ∈ s.emitted, k < cfg.map.keyDomain
  prev : s.prevKey = s.emitted.getLast?
  prevStr : ∀ key, s.prevKeyStr = key → key ≠ [] →
    ∃ last, s.emitted.getLast? = some last ∧ key = generateKeyFromInt cfg.format last cfg.map.keyDomain
  skipped : s.skipped = 0

theorem emitting_start (cfg : MaterializeConfig) (selector : Selector) : Emitting cfg { selector := selector } :=
  ⟨List.Pairwise.nil, by simp, rfl, fun key eq ne => absurd eq.symm ne, rfl⟩

theorem putKey_selector (k : ℕ) (s : FileState) : (putKey cfg io k s).1.selector = s.selector := by
  simp only [putKey]
  split_ifs <;> rfl

theorem putKey_emits {k : ℕ} (increase : KeysIncrease cfg)
    (writes : WritesSucceed io) (emitting : Emitting cfg s) (inDomain : k < cfg.map.keyDomain)
    (larger : ∀ last, s.emitted.getLast? = some last → last < k) :
    ∃ s', putKey cfg io k s = (s', true) ∧ Emitting cfg s' ∧ s'.emitted = s.emitted ++ [k] ∧ s'.selector = s.selector ∧
      s'.stopReason = s.stopReason := by
  have increasing : ¬ (s.prevKeyStr ≠ [] ∧ ¬ s.prevKeyStr < generateKeyFromInt cfg.format k cfg.map.keyDomain) := by
    rintro ⟨ne, notLess⟩
    obtain ⟨last, atEnd, encoded⟩ := emitting.prevStr _ rfl ne
    rw [encoded] at notLess
    exact notLess (increase last k (larger last atEnd) inDomain)
  unfold putKey
  rw [if_neg increasing, writes.puts]
  refine ⟨_, rfl, ⟨?_, ?_, ?_, ?_, emitting.skipped⟩, rfl, rfl, rfl⟩
  · refine pairwise_append.mpr ⟨emitting.sorted, pairwise_singleton _ _, fun a inEmitted b isK => ?_⟩
    rw [mem_singleton.mp isK]
    exact lt_of_getLast?_lt emitting.sorted larger inEmitted
  · intro j mem
    rcases mem_append.mp mem with old | new
    · exact emitting.inside j old
    · rw [mem_singleton.mp new]
      exact inDomain
  · exact getLast?_concat.symm
  · intro key eq _
    exact ⟨k, getLast?_concat, eq.symm⟩

theorem clampedMax_lt {map : KeyBitmap} (pos : 0 < map.keyDomain) : clampedMax map task < map.keyDomain := by
  unfold clampedMax
  split_ifs <;> omega

theorem run_finishFile (cfg : MaterializeConfig) (m : BitMemory) (plan : FilePlan) (res : SSTResult)
    (writes : WritesSucceed io)
    (counted : s.keysInFile + plan.shortfall = task.vsst.numEntries) (skipped : s.skipped = 0) (nonzero : s.keysInFile ≠ 0) :
    ∃ res', (finishFile cfg io task plan s res).run m = (res', ((s.selector.claims.forM cfg.map.claim).run m).2) ∧
      res'.emitted = s.emitted ∧ res'.fresh = s.selector.claims ∧ res'.stopReason = s.stopReason ∧
      (res'.reportStatus = .written ∨ res'.reportStatus = .writtenUniqueShortfall) := by
  unfold finishFile
  rw [if_neg (by simp [counted, skipped]), if_neg nonzero, if_neg (by simp [writes.finishes]), run_bind]
  refine ⟨_, rfl, rfl, rfl, rfl, ?_⟩
  change (if plan.shortfall = 0 then ReportStatus.written else .writtenUniqueShortfall) = _ ∨ _
  split_ifs
  · exact .inl rfl
  · exact .inr rfl

end VcompProof
