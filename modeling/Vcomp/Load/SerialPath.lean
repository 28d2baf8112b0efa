import Vcomp.Load.Phase1
import Vcomp.Materialize.Membership

namespace VcompProof

open VcompModel SharedWords List

section

variable {σ : Type} {next : σ → ℕ × σ} {domain : ℕ}

theorem drawKeys_length (n : ℕ) (rng : σ) : (drawKeys next domain n rng).1.length = n := by
  induction n generalizing rng with
  | zero => rfl
  | succ n ih => simp only [drawKeys, length_cons, ih]

theorem drawKeys_lt (positive : 0 < domain) (n : ℕ) (rng : σ) : ∀ k ∈ (drawKeys next domain n rng).1, k < domain := by
  induction n generalizing rng with
  | zero => simp [drawKeys]
  | succ n ih =>
    intro k mem
    simp only [drawKeys, mem_cons] at mem
    rcases mem with rfl | later
    · exact Nat.mod_lt _ positive
    · exact ih _ k later

theorem drawKeys_add (m n : ℕ) (rng : σ) : drawKeys next domain (m + n) rng =
      ((drawKeys next domain m rng).1 ++ (drawKeys next domain n (drawKeys next domain m rng).2).1,
        (drawKeys next domain n (drawKeys next domain m rng).2).2) := by
  induction m generalizing rng with
  | zero => simp [drawKeys]
  | succ m ih => simp only [Nat.succ_add, drawKeys, ih, cons_append]

end

variable {n : ℕ}

section

variable {σ : Type} (cfg : LoadConfig) (next : σ → ℕ × σ) (seed : σ)

def loadKeys : List ℕ := (drawKeys next cfg.map.keyDomain cfg.numOps seed).1

def rngAfter (n : ℕ) : σ := (drawKeys next cfg.map.keyDomain n seed).2

def batchKeys (i : ℕ) : List ℕ := ((loadKeys cfg next seed).drop (i * cfg.capacity)).take cfg.capacity

def batchFile (i : ℕ) : VirtualL0WindowFile :=
  pendingFile cfg (cfg.fileBase + i) (i + 1) (sortUnique (batchKeys cfg next seed i))

def batchFiles (n : ℕ) : List VirtualL0WindowFile := (List.range n).map (batchFile cfg next seed)

variable {cfg next seed}

theorem drawn_part {m : ℕ} (fits : m + n ≤ cfg.numOps) : drawKeys next cfg.map.keyDomain n (rngAfter cfg next seed m) =
      (((loadKeys cfg next seed).drop m).take n, rngAfter cfg next seed (m + n)) := by
  have lengthM : (drawKeys next cfg.map.keyDomain m seed).1.length = m := drawKeys_length m seed
  have lengthN : (drawKeys next cfg.map.keyDomain n (rngAfter cfg next seed m)).1.length = n := drawKeys_length n _
  have whole : loadKeys cfg next seed = (drawKeys next cfg.map.keyDomain m seed).1 ++
      ((drawKeys next cfg.map.keyDomain n (rngAfter cfg next seed m)).1 ++
        (drawKeys next cfg.map.keyDomain (cfg.numOps - (m + n)) (rngAfter cfg next seed (m + n))).1) := by
    rw [loadKeys, ← Nat.add_sub_cancel' fits, drawKeys_add, drawKeys_add, append_assoc]
    simp [rngAfter, drawKeys_add m n]
  apply Prod.ext
  · rw [whole, drop_left' lengthM, take_left' lengthN]
  · simp [rngAfter, drawKeys_add m n]

theorem loadKeys_length : (loadKeys cfg next seed).length = cfg.numOps := drawKeys_length _ _

theorem batchKeys_mem {i k : ℕ} (mem : k ∈ batchKeys cfg next seed i) : k ∈ loadKeys cfg next seed :=
  mem_of_mem_drop (mem_of_mem_take mem)

theorem take_batch (i : ℕ) : (loadKeys cfg next seed).take ((i + 1) * cfg.capacity) =
    (loadKeys cfg next seed).take (i * cfg.capacity) ++ batchKeys cfg next seed i := by
  rw [Nat.add_one_mul, batchKeys, take_add]

end

theorem byteCount_covers (fuel : ℕ) {v : ℕ} (enough : v ≤ fuel) : v < 256 ^ byteCount fuel v := by
  induction fuel generalizing v with
  | zero =>
    obtain rfl := Nat.le_zero.mp enough
    decide
  | succ fuel ih =>
    unfold byteCount
    split_ifs with positive
    · have shifted : v >>> 8 = v / 256 := Nat.shiftRight_eq_div_pow v 8
      have smaller : v >>> 8 ≤ fuel := by omega
      have rest := ih smaller
      rw [pow_succ]
      have split := Nat.div_add_mod v 256
      have low := Nat.mod_lt v (show 0 < 256 by decide)
      rw [← shifted] at split
      calc v = 256 * (v >>> 8) + v % 256 := split.symm
        _ < 256 * (v >>> 8) + 256 := by omega
        _ = 256 * (v >>> 8 + 1) := by ring
        _ ≤ 256 * 256 ^ byteCount fuel (v >>> 8) := Nat.mul_le_mul_left _ rest
        _ = 256 ^ byteCount fuel (v >>> 8) * 256 := Nat.mul_comm _ _
    · rw [Nat.le_zero.mp (not_lt.mp positive)]
      decide

theorem radixPasses_covers (domain : ℕ) : domain < 256 ^ radixPasses domain := by
  have covers := byteCount_covers domain le_rfl
  unfold radixPasses
  split_ifs with empty
  · rw [empty] at covers
    omega
  · exact covers

theorem resize_length (n : ℕ) (l : List ℕ) : (resize n l).length = n := by
  rw [resize, length_append, length_take, length_replicate]
  omega

theorem radixSort_sorts (domain : ℕ) (keys tmp : List ℕ) (small : ∀ k ∈ keys, k ≤ domain) :
    ∃ sorted, (RadixSort.sort (radixPasses domain) keys (resize keys.length tmp)).1 = sorted ∧ sorted.Perm keys ∧
      sorted.Pairwise (· ≤ ·) ∧ (sorted.destutter (· ≠ ·)).Pairwise (· < ·) ∧
      ∀ k, k ∈ sorted.destutter (· ≠ ·) ↔ k ∈ keys := by
  have eq := resize_length keys.length tmp
  have covered : ∀ k ∈ keys, k < 256 ^ radixPasses domain := fun k mem =>
    (small k mem).trans_lt (radixPasses_covers domain)
  refine ⟨_, rfl, RadixSort.sort_perm _ eq, RadixSort.sort_sorted eq covered, ?_⟩
  rw [RadixSort.destutter_sort eq covered]
  exact ⟨SortUnique.sortUnique_pairwise keys, fun k => SortUnique.mem_sortUnique⟩

theorem radixSort_sorts_repeated :
    ∃ sorted, (RadixSort.sort (radixPasses 300) [300, 1, 300] (resize 3 [])).1 = sorted ∧ sorted.Perm [300, 1, 300] := by
  obtain ⟨sorted, eq, perm, -⟩ := radixSort_sorts 300 [300, 1, 300] [] (by decide)
  exact ⟨sorted, eq, perm⟩

theorem sorted_batch {domain : ℕ} {keys : List ℕ} (tmp : List ℕ) (small : ∀ k ∈ keys, k < domain) :
    (RadixSort.sort (radixPasses domain) keys (resize keys.length tmp)).1.destutter (· ≠ ·) = sortUnique keys :=
  RadixSort.destutter_sort (resize_length _ _) fun k mem => (small k mem).trans (radixPasses_covers domain)

section

variable {cfg : LoadConfig} {accepts : List (List VirtualL0WindowFile) → Bool} {e : L0Enqueue}

def pushUntil (cfg : LoadConfig) (accepts : List (List VirtualL0WindowFile) → Bool) :
    L0Enqueue → List VirtualL0WindowFile → L0Enqueue
  | e, [] => e
  | e, file :: files => if e.failed then e else pushUntil cfg accepts (e.push cfg accepts file) files

theorem pushUntil_failed (failed : e.failed = true) (files : List VirtualL0WindowFile) :
    pushUntil cfg accepts e files = e := by
  cases files with
  | nil => rfl
  | cons file files => rw [pushUntil, if_pos failed]

theorem pushUntil_append (e : L0Enqueue) (files more : List VirtualL0WindowFile) :
    pushUntil cfg accepts e (files ++ more) = pushUntil cfg accepts (pushUntil cfg accepts e files) more := by
  induction files generalizing e with
  | nil => rfl
  | cons file files ih =>
    rw [cons_append, pushUntil, pushUntil]
    split_ifs with failed
    · rw [pushUntil_failed failed]
    · exact ih _

def enqueued {σ : Type} (cfg : LoadConfig) (next : σ → ℕ × σ) (accepts : List (List VirtualL0WindowFile) → Bool) (seed : σ)
    (n : ℕ) : L0Enqueue := pushUntil cfg accepts {} (batchFiles cfg next seed n)

variable {σ : Type} {next : σ → ℕ × σ} {seed : σ}

theorem enqueued_succ (going : (enqueued cfg next accepts seed n).failed = false) :
    enqueued cfg next accepts seed (n + 1) =
      (enqueued cfg next accepts seed n).push cfg accepts (batchFile cfg next seed n) := by
  rw [enqueued, batchFiles, range_succ, map_append, pushUntil_append]
  change pushUntil cfg accepts (enqueued cfg next accepts seed n) [batchFile cfg next seed n] = _
  rw [pushUntil, if_neg (by simp [going])]
  rfl

theorem finish_failed (failed : e.failed = true) : (e.finish accepts).failed = true := by
  rw [L0Enqueue.finish, if_pos failed]
  exact failed

theorem enqueued_failed {m : ℕ} (failed : (enqueued cfg next accepts seed n).failed = true) (later : n ≤ m) :
    enqueued cfg next accepts seed m = enqueued cfg next accepts seed n := by
  obtain ⟨more, rfl⟩ := Nat.exists_eq_add_of_le later
  rw [enqueued, batchFiles, range_add, map_append, pushUntil_append]
  exact pushUntil_failed failed _

end

section

variable {σ : Type} {cfg : LoadConfig} {next : σ → ℕ × σ} {accepts : List (List VirtualL0WindowFile) → Bool} {seed : σ}
  {s : SerialLoad σ} {map : KeyBitmap} {marked : ℕ → Prop} {bits : BitMemory} {q : ℕ}

def BitsOf (map : KeyBitmap) (marked : ℕ → Prop) (bits : BitMemory) : Prop :=
  ∀ array k, holds bits array k = true ↔ array = .present ∧ k < map.keyDomain ∧ marked k

theorem BitsOf.mark (now : BitsOf map marked bits) (key : ℕ) :
    BitsOf map (fun k => marked k ∨ k = key) ((map.mark key).run bits).2 := by
  intro array k
  rw [KeyBitmap.mark, run_setBit]
  have before := now array k
  by_cases inDomain : key < map.keyDomain
  · rw [if_pos inDomain, holds_setKey, Bool.or_eq_true, decide_eq_true_iff, before]
    constructor
    · intro either
      rcases either with ⟨eq, inside, already⟩ | ⟨eq, rfl⟩
      · exact ⟨eq, inside, .inl already⟩
      · exact ⟨eq, inDomain, .inr rfl⟩
    · intro both
      obtain ⟨eq, inside, already | rfl⟩ := both
      · exact .inl ⟨eq, inside, already⟩
      · exact .inr ⟨eq, rfl⟩
  · rw [if_neg inDomain, before]
    constructor
    · intro both
      exact ⟨both.1, both.2.1, .inl both.2.2⟩
    · intro both
      obtain ⟨eq, inside, already | rfl⟩ := both
      · exact ⟨eq, inside, already⟩
      · exact absurd inside inDomain

theorem BitsOf.congr {marked' : ℕ → Prop} (now : BitsOf map marked bits)
    (eq : ∀ k, marked k ↔ marked' k) : BitsOf map marked' bits := by
  intro array k
  rw [now array k, eq k]

theorem BitsOf.unique {bits' : BitMemory} (first : BitsOf map marked bits)
    (second : BitsOf map marked bits') : bits = bits' := by
  funext place
  apply BitVec.eq_of_getLsbD_eq
  intro b lt
  have eq : holds bits place.1 (64 * place.2 + b) = holds bits' place.1 (64 * place.2 + b) :=
    Bool.eq_iff_iff.mpr ((first _ _).trans (second _ _).symm)
  have word : (64 * place.2 + b) / 64 = place.2 := by omega
  have position : (64 * place.2 + b) % 64 = b := by omega
  simpa [holds, Bitmap.bit, word, position] using eq

/-- The loop with one shard after `n` operations, with `q` batches flushed. -/
structure SerialAt (cfg : LoadConfig) (next : σ → ℕ × σ) (accepts : List (List VirtualL0WindowFile) → Bool) (seed : σ)
    (n q : ℕ) (s : SerialLoad σ) : Prop where
  lower : q * cfg.capacity ≤ n
  upper : n < (q + 1) * cfg.capacity
  bound : n ≤ cfg.numOps
  rng : s.rng = rngAfter cfg next seed n
  memtable : s.memtable = ((loadKeys cfg next seed).take n).drop (q * cfg.capacity)
  nextFile : s.nextFile = cfg.fileBase + q
  nextEpoch : s.nextEpoch = q + 1
  enqueue : s.enqueue = enqueued cfg next accepts seed q
  bits : BitsOf cfg.map (· ∈ (loadKeys cfg next seed).take n) s.bits

section

variable (positive : 0 < cfg.map.keyDomain)
include positive

theorem doFlush_enqueue (memtable : s.memtable = batchKeys cfg next seed q) (nextFile : s.nextFile = cfg.fileBase + q)
    (nextEpoch : s.nextEpoch = q + 1) (enqueue : s.enqueue = enqueued cfg next accepts seed q)
    (going : s.enqueue.failed = false) : (doFlush cfg accepts s).enqueue = enqueued cfg next accepts seed (q + 1) := by
  have small : ∀ k ∈ s.memtable, k < cfg.map.keyDomain := by
    intro k mem
    rw [memtable] at mem
    exact drawKeys_lt positive _ _ k (batchKeys_mem mem)
  rw [enqueue] at going
  rw [enqueued_succ going]
  simp only [doFlush]
  rw [sorted_batch s.radixTmp small, nextFile, nextEpoch, enqueue, memtable, batchFile]

theorem SerialAt.step (capacity : 0 < cfg.capacity) (now : SerialAt cfg next accepts seed n q s) (more : n < cfg.numOps)
    (going : s.enqueue.failed = false) :
    ∃ q', SerialAt cfg next accepts seed (n + 1) q' (serialOp cfg next accepts s) := by
  have lower := now.lower
  have upper := now.upper
  have drawn : drawKeys next cfg.map.keyDomain 1 (rngAfter cfg next seed n) = _ := drawn_part more
  have length : (loadKeys cfg next seed).length = cfg.numOps := loadKeys_length
  have inside : n < (loadKeys cfg next seed).length := by omega
  have one : drawKey next cfg.map.keyDomain s.rng =
      ((loadKeys cfg next seed).get ⟨n, inside⟩, rngAfter cfg next seed (n + 1)) := by
    rw [now.rng]
    rw [drop_eq_getElem_cons inside] at drawn
    obtain ⟨keys, rng⟩ := Prod.mk.inj drawn
    exact Prod.ext (List.cons.inj keys).1 rng
  have taken : (loadKeys cfg next seed).take (n + 1) =
      (loadKeys cfg next seed).take n ++ [(loadKeys cfg next seed).get ⟨n, inside⟩] := take_succ_eq_append_getElem inside
  have memtable : s.memtable ++ [(loadKeys cfg next seed).get ⟨n, inside⟩] =
      ((loadKeys cfg next seed).take (n + 1)).drop (q * cfg.capacity) := by
    rw [taken, drop_append_of_le_length (by rw [length_take]; omega), now.memtable]
  have bits : BitsOf cfg.map (· ∈ (loadKeys cfg next seed).take (n + 1))
      ((cfg.map.mark ((loadKeys cfg next seed).get ⟨n, inside⟩)).run s.bits).2 := by
    apply (now.bits.mark _).congr
    intro k
    rw [taken, mem_append, mem_singleton]
  have size : (((loadKeys cfg next seed).take (n + 1)).drop (q * cfg.capacity)).length = n + 1 - q * cfg.capacity := by
    rw [length_drop, length_take]
    omega
  rw [Nat.add_one_mul] at upper
  unfold serialOp
  simp only [one, memtable, size]
  split_ifs with full
  · have reached : n + 1 = (q + 1) * cfg.capacity := by
      rw [Nat.add_one_mul]
      omega
    refine ⟨q + 1, reached.ge, ?_, more, rfl, ?_, ?_, ?_, ?_, bits⟩
    · rw [Nat.add_one_mul (q + 1)]
      omega
    · change [] = _
      rw [← reached, drop_of_length_le (length_take_le _ _)]
    · exact congrArg (· + 1) now.nextFile
    · exact congrArg (· + 1) now.nextEpoch
    · apply doFlush_enqueue positive
      · simp only [reached]
        rw [Nat.add_one_mul, ← take_drop, batchKeys]
      · exact now.nextFile
      · exact now.nextEpoch
      · exact now.enqueue
      · exact going
  · exact ⟨q, by omega, by rw [Nat.add_one_mul]; omega, more, rfl, rfl, now.nextFile, now.nextEpoch, now.enqueue, bits⟩

theorem SerialAt.loop (capacity : 0 < cfg.capacity) (left : ℕ) (now : SerialAt cfg next accepts seed n q s)
    (total : n + left = cfg.numOps) :
    ∃ n' q', SerialAt cfg next accepts seed n' q' (serialLoop cfg next accepts left s) ∧
      ((serialLoop cfg next accepts left s).enqueue.failed = true ∨ n' = cfg.numOps) := by
  induction left generalizing n q s with
  | zero => exact ⟨n, q, now, .inr total⟩
  | succ left ih =>
    unfold serialLoop
    by_cases failed : s.enqueue.failed = true
    · rw [if_pos failed]
      exact ⟨n, q, now, .inl failed⟩
    · rw [if_neg failed]
      obtain ⟨q', after⟩ := now.step positive capacity (by omega) (by simpa using failed)
      exact ih after (by omega)

end

theorem totalFlushes_eq (capacity : 0 < cfg.capacity) (lower : q * cfg.capacity ≤ cfg.numOps)
    (upper : cfg.numOps < (q + 1) * cfg.capacity) :
    cfg.totalFlushes = if q * cfg.capacity = cfg.numOps then q else q + 1 := by
  rw [Nat.add_one_mul] at upper
  split_ifs with full
  · apply Nat.div_eq_of_lt_le
    · omega
    · rw [Nat.add_one_mul]
      omega
  · apply Nat.div_eq_of_lt_le
    · rw [Nat.add_one_mul]
      omega
    · rw [Nat.add_one_mul, Nat.add_one_mul]
      omega

theorem bitsOf_start (map : KeyBitmap) : BitsOf map (fun _ => False) fun _ => 0 := by
  intro array k
  simp [holds, Bitmap.bit]

theorem serialLoad_spec (next : σ → ℕ × σ) (accepts : List (List VirtualL0WindowFile) → Bool) (seed : σ)
    (positive : 0 < cfg.map.keyDomain) (capacity : 0 < cfg.capacity) :
    (serialLoad cfg next accepts seed).enqueue = (enqueued cfg next accepts seed cfg.totalFlushes).finish accepts ∧
      ((enqueued cfg next accepts seed cfg.totalFlushes).failed = false →
        BitsOf cfg.map (· ∈ loadKeys cfg next seed) (serialLoad cfg next accepts seed).bits) := by
  have start : SerialAt cfg next accepts seed 0 0 ⟨seed, [], [], cfg.fileBase, 1, {}, fun _ => 0⟩ := by
    refine ⟨by omega, by omega, Nat.zero_le _, rfl, by simp, rfl, rfl, rfl, ?_⟩
    apply (bitsOf_start cfg.map).congr
    simp
  obtain ⟨n, q, now, stopped⟩ := start.loop positive capacity cfg.numOps (zero_add _)
  unfold serialLoad
  generalize serialLoop cfg next accepts cfg.numOps _ = s at now stopped
  have enqueue := now.enqueue
  have lower := now.lower
  have upper := now.upper
  have bound := now.bound
  by_cases failed : s.enqueue.failed = true
  · have fewer : q ≤ cfg.totalFlushes := by
      unfold LoadConfig.totalFlushes
      rw [Nat.le_div_iff_mul_le capacity]
      omega
    have eq := enqueued_failed (enqueue ▸ failed) fewer
    simp only [failed, Bool.not_true, Bool.false_eq_true, false_and, if_false]
    rw [eq, ← enqueue]
    exact ⟨rfl, fun going => absurd failed (by simp [going])⟩
  · obtain rfl : n = cfg.numOps := stopped.resolve_left failed
    have going : s.enqueue.failed = false := by simpa using failed
    have total := totalFlushes_eq capacity lower upper
    have whole : (loadKeys cfg next seed).take cfg.numOps = loadKeys cfg next seed := by
      rw [take_of_length_le (by rw [loadKeys_length])]
    have memtable := now.memtable
    rw [whole] at memtable
    have bits := now.bits
    rw [whole] at bits
    have length : s.memtable.length = cfg.numOps - q * cfg.capacity := by
      rw [memtable, length_drop, loadKeys_length]
    by_cases full : q * cfg.capacity = cfg.numOps
    · rw [if_pos full] at total
      have empty : s.memtable = [] := eq_nil_of_length_eq_zero (by omega)
      simp only [empty, ne_eq, not_true_eq_false, and_false, if_false]
      rw [total, ← enqueue]
      exact ⟨rfl, fun _ => bits⟩
    · rw [if_neg full] at total
      have ne : s.memtable ≠ [] := by
        intro empty
        rw [empty, length_nil] at length
        omega
      have flushed : (doFlush cfg accepts s).enqueue = enqueued cfg next accepts seed (q + 1) := by
        apply doFlush_enqueue positive _ now.nextFile now.nextEpoch enqueue going
        rw [memtable, batchKeys, take_of_length_le]
        rw [length_drop, loadKeys_length]
        rw [Nat.add_one_mul] at upper
        omega
      have unflushed : (!s.enqueue.failed) = true ∧ s.memtable ≠ [] := ⟨by simp [going], ne⟩
      simp only [if_pos unflushed]
      rw [flushed, total]
      exact ⟨rfl, fun _ => bits⟩

end

end VcompProof
