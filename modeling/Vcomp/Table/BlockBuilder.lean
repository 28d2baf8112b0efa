import Mathlib.Data.Rat.Floor
import Vcomp.Lsm.InternalKey

namespace VcompModel.Table

def kNoEntry : ℕ := 255

def kCollision : ℕ := 254

def kMaxRestartSupportedByHashIndex : ℕ := 253

def kMaxBlockSizeSupportedByHashIndex : ℕ := 2 ^ 16

def kDefaultUtilRatio : ℚ := 3 / 4

structure DataBlockHashIndexBuilder where
  bucketPerKey : ℚ := -1
  estimatedNumBuckets : ℚ := 0
  valid : Bool := false
  /-- The hash of each user key, with the index of its restart interval as a byte. -/
  hashAndRestartPairs : List (ℕ × ℕ) := []

namespace DataBlockHashIndexBuilder

def initialized (utilRatio : ℚ) : DataBlockHashIndexBuilder :=
  { bucketPerKey := 1 / if utilRatio ≤ 0 then kDefaultUtilRatio else utilRatio, valid := true }

def isValid (b : DataBlockHashIndexBuilder) : Bool := b.valid && decide (0 < b.bucketPerKey)

def add (b : DataBlockHashIndexBuilder) (hash restartIndex : ℕ) : DataBlockHashIndexBuilder :=
  if kMaxRestartSupportedByHashIndex < restartIndex then { b with valid := false }
  else
    { b with
      hashAndRestartPairs := b.hashAndRestartPairs ++ [(hash, restartIndex % 256)]
      estimatedNumBuckets := b.estimatedNumBuckets + b.bucketPerKey }

def truncated (b : DataBlockHashIndexBuilder) : ℕ := b.estimatedNumBuckets.floor.toNat % 2 ^ 16

def estimateSize (b : DataBlockHashIndexBuilder) : ℕ := 2 + (b.truncated ||| 1)

def numBuckets (b : DataBlockHashIndexBuilder) : ℕ :=
  -- odd, since the hash spreads badly over a power of two
  (if b.truncated = 0 then 1 else b.truncated) ||| 1

def place (buckets : List ℕ) (entry : ℕ × ℕ) : List ℕ :=
  let index := entry.1 % buckets.length
  if buckets.getD index kNoEntry = kNoEntry then buckets.set index entry.2
  -- one bucket cannot store two restart intervals
  else if buckets.getD index kNoEntry ≠ entry.2 then buckets.set index kCollision
  else buckets

def finish (b : DataBlockHashIndexBuilder) : List ℕ :=
  b.hashAndRestartPairs.foldl place (List.replicate b.numBuckets kNoEntry)

end DataBlockHashIndexBuilder

def lookup (buckets : List ℕ) (hash : ℕ) : ℕ := buckets.getD (hash % buckets.length) kNoEntry

/-- Offsets are counted in entries, so `restarts_` is their number. -/
structure Block (K V : Type) where
  entries : List (EntryKey K × V)
  restarts : List ℕ
  hashIndex : Option (List ℕ)

inductive DataBlockIndexType where
  | binarySearch | binaryAndHash
  deriving DecidableEq, Repr

structure BlockBuilder (K V : Type) where
  blockRestartInterval : ℕ
  buffer : List (EntryKey K × V)
  restarts : List ℕ
  counter : ℕ
  estimate : ℕ
  lastKey : Option (EntryKey K)
  dataBlockHashIndexBuilder : DataBlockHashIndexBuilder

namespace BlockBuilder

variable {K V : Type}

def new (blockRestartInterval : ℕ) (indexType : DataBlockIndexType) (utilRatio : ℚ) : BlockBuilder K V where
  blockRestartInterval := blockRestartInterval
  buffer := []
  restarts := [0]
  counter := 0
  estimate := 4 + 4
  lastKey := none
  dataBlockHashIndexBuilder :=
    match indexType with
    | .binarySearch => {}
    | .binaryAndHash => .initialized utilRatio

/-- A key is stored against the one before it; `encodedSize` is the bytes this takes. -/
def add (getSliceHash : K → ℕ) (encodedSize : Option (EntryKey K) → EntryKey K → V → ℕ) (b : BlockBuilder K V)
    (key : EntryKey K) (value : V) : BlockBuilder K V :=
  let restart := b.blockRestartInterval ≤ b.counter
  let restarts := if restart then b.restarts ++ [b.buffer.length] else b.restarts
  let lastKey := if restart then none else b.lastKey
  { b with
    buffer := b.buffer ++ [(key, value)]
    restarts := restarts
    counter := (if restart then 0 else b.counter) + 1
    estimate := b.estimate + (if restart then 4 else 0) + encodedSize lastKey key value
    lastKey := some key
    dataBlockHashIndexBuilder :=
      if b.dataBlockHashIndexBuilder.isValid then
        b.dataBlockHashIndexBuilder.add (getSliceHash key.userKey) (restarts.length - 1)
      else b.dataBlockHashIndexBuilder }

def currentSizeEstimate (b : BlockBuilder K V) : ℕ :=
  b.estimate + if b.dataBlockHashIndexBuilder.isValid then b.dataBlockHashIndexBuilder.estimateSize else 0

def finish (b : BlockBuilder K V) : Block K V where
  entries := b.buffer
  restarts := b.restarts
  hashIndex :=
    if b.dataBlockHashIndexBuilder.isValid ∧ b.currentSizeEstimate ≤ kMaxBlockSizeSupportedByHashIndex then
      some b.dataBlockHashIndexBuilder.finish
    else none

def addAll (getSliceHash : K → ℕ) (encodedSize : Option (EntryKey K) → EntryKey K → V → ℕ) (b : BlockBuilder K V)
    (entries : List (EntryKey K × V)) : BlockBuilder K V :=
  entries.foldl (fun b entry => b.add getSliceHash encodedSize entry.1 entry.2) b

end BlockBuilder

end VcompModel.Table

namespace VcompProof.Table

open VcompModel VcompModel.Table
open List hiding lookup take

structure Placed (pairs : List (ℕ × ℕ)) (buckets : List ℕ) : Prop where
  nonempty : 0 < buckets.length
  stored : ∀ p ∈ pairs, lookup buckets p.1 = p.2 ∨ lookup buckets p.1 = kCollision
  known : ∀ v ∈ buckets, v = kNoEntry ∨ v = kCollision ∨ ∃ p ∈ pairs, p.2 = v

theorem lookup_set {buckets : List ℕ} (ne : 0 < buckets.length) (hash other v : ℕ) :
    lookup (buckets.set (hash % buckets.length) v) other =
      if hash % buckets.length = other % buckets.length then v else lookup buckets other := by
  have inside : other % buckets.length < buckets.length := Nat.mod_lt _ ne
  simp only [lookup, length_set, getD_eq_getElem?_getD, getElem?_set]
  split
  next eq => rw [if_pos (eq ▸ inside), Option.getD_some]
  next => rfl

theorem lookup_mem {buckets : List ℕ} (ne : 0 < buckets.length) (hash : ℕ) : lookup buckets hash ∈ buckets := by
  have inside : hash % buckets.length < buckets.length := Nat.mod_lt _ ne
  rw [lookup, getD_eq_getElem?_getD, getElem?_eq_getElem inside]
  exact getElem_mem inside

variable {pairs : List (ℕ × ℕ)} {buckets : List ℕ}

theorem Placed.set (placed : Placed pairs buckets) (entry : ℕ × ℕ) {v : ℕ} (own : v = entry.2 ∨ v = kCollision)
    (agrees : ∀ p ∈ pairs, entry.1 % buckets.length = p.1 % buckets.length → v = p.2 ∨ v = kCollision) :
    Placed (pairs ++ [entry]) (buckets.set (entry.1 % buckets.length) v) := by
  refine ⟨by rw [length_set]; exact placed.nonempty, ?_, ?_⟩
  · intro p member
    rw [lookup_set placed.nonempty]
    rcases mem_append.mp member with earlier | last
    · split
      next same => exact agrees p earlier same
      next => exact placed.stored p earlier
    · rw [mem_singleton.mp last, if_pos rfl]
      exact own
  · intro w member
    rcases mem_or_eq_of_mem_set member with old | rfl
    · rcases placed.known w old with empty | collision | ⟨p, mem, eq⟩
      · exact .inl empty
      · exact .inr (.inl collision)
      · exact .inr (.inr ⟨p, mem_append_left _ mem, eq⟩)
    · rcases own with rfl | rfl
      · exact .inr (.inr ⟨entry, by simp, rfl⟩)
      · exact .inr (.inl rfl)

theorem Placed.place (placed : Placed pairs buckets) (small : ∀ p ∈ pairs, p.2 ≤ kMaxRestartSupportedByHashIndex)
    (entry : ℕ × ℕ) : Placed (pairs ++ [entry]) (DataBlockHashIndexBuilder.place buckets entry) := by
  change Placed _ (if lookup buckets entry.1 = kNoEntry then _ else if lookup buckets entry.1 ≠ entry.2 then _ else _)
  have same_bucket : ∀ p : ℕ × ℕ, entry.1 % buckets.length = p.1 % buckets.length →
      lookup buckets p.1 = lookup buckets entry.1 := by
    intro p eq
    rw [lookup, lookup, eq]
  split
  next empty =>
    apply placed.set entry (.inl rfl)
    intro p mem eq
    -- an empty bucket was given to no pair before
    have bound := small p mem
    have stored := placed.stored p mem
    rw [same_bucket p eq, empty] at stored
    simp only [kNoEntry, kCollision, kMaxRestartSupportedByHashIndex] at stored bound
    omega
  next taken =>
    split
    next other => exact placed.set entry (.inr rfl) fun _ _ _ => .inr rfl
    next equal =>
      have kept : buckets = buckets.set (entry.1 % buckets.length) (lookup buckets entry.1) := by
        have inside : entry.1 % buckets.length < buckets.length := Nat.mod_lt _ placed.nonempty
        rw [lookup, getD_eq_getElem?_getD, getElem?_eq_getElem inside]
        exact (set_getElem_self inside).symm
      rw [kept]
      apply placed.set entry (.inl (not_not.mp equal))
      intro p mem eq
      rw [← same_bucket p eq]
      exact placed.stored p mem

theorem Placed.foldl (more : List (ℕ × ℕ)) (placed : Placed pairs buckets)
    (small : ∀ p ∈ pairs ++ more, p.2 ≤ kMaxRestartSupportedByHashIndex) :
    Placed (pairs ++ more) (more.foldl DataBlockHashIndexBuilder.place buckets) := by
  induction more generalizing pairs buckets with
  | nil => simpa using placed
  | cons entry more ih =>
    rw [append_cons] at small ⊢
    exact ih (placed.place (fun p mem => small p (by simp [mem])) entry) small

theorem numBuckets_pos (b : DataBlockHashIndexBuilder) : 0 < b.numBuckets := by
  have odd : 1 ≤ (if b.truncated = 0 then 1 else b.truncated) ||| 1 := Nat.right_le_or
  exact odd

theorem finish_placed (b : DataBlockHashIndexBuilder)
    (small : ∀ p ∈ b.hashAndRestartPairs, p.2 ≤ kMaxRestartSupportedByHashIndex) : Placed b.hashAndRestartPairs b.finish := by
  have empty : Placed [] (List.replicate b.numBuckets kNoEntry) := by
    refine ⟨by rw [length_replicate]; exact numBuckets_pos b, by simp, ?_⟩
    intro v mem
    exact .inl (eq_of_mem_replicate mem)
  exact Placed.foldl b.hashAndRestartPairs empty small

variable {K V : Type} {getSliceHash : K → ℕ} (encodedSize : Option (EntryKey K) → EntryKey K → V → ℕ) (interval : ℕ)
  (indexType : DataBlockIndexType) (utilRatio : ℚ)

structure Filled (getSliceHash : K → ℕ) (b : BlockBuilder K V) (entries : List (EntryKey K × V)) : Prop where
  buffer : b.buffer = entries
  started : 0 < b.restarts.length
  restarts : b.restarts = (List.range b.restarts.length).map (· * b.blockRestartInterval)
  filled : entries.length = (b.restarts.length - 1) * b.blockRestartInterval + b.counter
  counter : b.counter ≤ b.blockRestartInterval
  lastOpen : 1 < b.restarts.length → 0 < b.counter
  small : ∀ p ∈ b.dataBlockHashIndexBuilder.hashAndRestartPairs,
    p.2 ≤ kMaxRestartSupportedByHashIndex ∧ p.2 < b.restarts.length
  hashed : b.dataBlockHashIndexBuilder.isValid → ∀ i entry, entries[i]? = some entry →
    (getSliceHash entry.1.userKey, i / b.blockRestartInterval) ∈ b.dataBlockHashIndexBuilder.hashAndRestartPairs

theorem new_filled : Filled getSliceHash (BlockBuilder.new interval indexType utilRatio : BlockBuilder K V) [] := by
  have pairs : (BlockBuilder.new interval indexType utilRatio : BlockBuilder K V).dataBlockHashIndexBuilder.hashAndRestartPairs =
      [] := by
    cases indexType <;> rfl
  refine ⟨rfl, by simp [BlockBuilder.new], by simp [BlockBuilder.new], ?_, Nat.zero_le _, ?_, ?_, by simp⟩
  · simp [BlockBuilder.new]
  · simp [BlockBuilder.new]
  · simp [pairs]

variable {b : BlockBuilder K V} {entries : List (EntryKey K × V)}

theorem Filled.restart_of_add (filled : Filled getSliceHash b entries) (interval : 0 < b.blockRestartInterval)
    (key : EntryKey K) (value : V) : let after := b.add getSliceHash encodedSize key value
    0 < after.restarts.length ∧
      after.restarts = (List.range after.restarts.length).map (· * b.blockRestartInterval) ∧
      entries.length + 1 = (after.restarts.length - 1) * b.blockRestartInterval + after.counter ∧
      after.counter ≤ b.blockRestartInterval ∧ 0 < after.counter ∧
      after.restarts.length - 1 = entries.length / b.blockRestartInterval ∧ b.restarts.length ≤ after.restarts.length := by
  intro after
  have length := filled.filled
  by_cases restart : b.blockRestartInterval ≤ b.counter
  · -- the interval is full: the new entry starts the next one
    have full : b.counter = b.blockRestartInterval := le_antisymm filled.counter restart
    have restarts : after.restarts = b.restarts ++ [entries.length] := by
      simp [after, BlockBuilder.add, if_pos restart, filled.buffer]
    have counter : after.counter = 1 := by simp only [after, BlockBuilder.add, if_pos restart]
    have count : after.restarts.length = b.restarts.length + 1 := by rw [restarts]; simp
    have start : entries.length = b.restarts.length * b.blockRestartInterval := by
      rw [length, full, ← Nat.succ_mul, Nat.succ_eq_add_one, Nat.sub_add_cancel filled.started]
    rw [count, counter, Nat.add_sub_cancel]
    refine ⟨Nat.succ_pos _, ?_, by rw [start], interval, Nat.one_pos, ?_, Nat.le_succ _⟩
    · rw [restarts, range_succ, map_append, ← filled.restarts, start]
      rfl
    · rw [start, Nat.mul_div_cancel _ interval]
  · have restarts : after.restarts = b.restarts := by simp only [after, BlockBuilder.add, if_neg restart]
    have counter : after.counter = b.counter + 1 := by simp only [after, BlockBuilder.add, if_neg restart]
    rw [restarts, counter]
    refine ⟨filled.started, filled.restarts, by omega, by omega, Nat.succ_pos _, ?_, le_refl _⟩
    rw [length, mul_comm, Nat.mul_add_div interval, Nat.div_eq_of_lt (by omega : b.counter < b.blockRestartInterval),
      add_zero]

theorem Filled.add (filled : Filled getSliceHash b entries) (interval : 0 < b.blockRestartInterval) (key : EntryKey K)
    (value : V) : Filled getSliceHash (b.add getSliceHash encodedSize key value) (entries ++ [(key, value)]) := by
  obtain ⟨started, restarts, length, counter, lastOpen, index, grown⟩ :=
    filled.restart_of_add encodedSize interval key value
  set after := b.add getSliceHash encodedSize key value with after_eq
  have builder : after.dataBlockHashIndexBuilder =
      if b.dataBlockHashIndexBuilder.isValid then
        b.dataBlockHashIndexBuilder.add (getSliceHash key.userKey) (after.restarts.length - 1)
      else b.dataBlockHashIndexBuilder := rfl
  have earlier : ∀ p ∈ b.dataBlockHashIndexBuilder.hashAndRestartPairs,
      p.2 ≤ kMaxRestartSupportedByHashIndex ∧ p.2 < after.restarts.length :=
    fun p mem => ⟨(filled.small p mem).1, lt_of_lt_of_le (filled.small p mem).2 grown⟩
  refine ⟨?_, started, restarts, ?_, counter, fun _ => lastOpen, ?_, ?_⟩
  · rw [after_eq, ← filled.buffer]
    rfl
  · rw [length_append, length_singleton]
    exact length
  · rw [builder]
    by_cases valid : b.dataBlockHashIndexBuilder.isValid
    · rw [if_pos valid, DataBlockHashIndexBuilder.add]
      split
      next => exact earlier
      next supported =>
        intro p mem
        rcases mem_append.mp mem with old | last
        · exact earlier p old
        · have bound : after.restarts.length - 1 < 256 := by
            simp only [kMaxRestartSupportedByHashIndex] at supported
            omega
          rw [mem_singleton.mp last]
          omega
    · rw [if_neg valid]
      exact earlier
  · rw [builder]
    intro valid i entry found
    by_cases before : b.dataBlockHashIndexBuilder.isValid
    · rw [if_pos before] at valid ⊢
      unfold DataBlockHashIndexBuilder.add at valid ⊢
      split at valid
      next => simp [DataBlockHashIndexBuilder.isValid] at valid
      next supported =>
        rw [if_neg supported]
        apply mem_append.mpr
        rcases lt_or_ge i entries.length with inside | outside
        · rw [getElem?_append_left inside] at found
          exact .inl (filled.hashed before i entry found)
        · rw [getElem?_append_right outside, getElem?_singleton] at found
          split at found
          next first =>
            obtain rfl : i = entries.length := by omega
            obtain rfl := Option.some.inj found
            have bound : after.restarts.length - 1 < 256 := by
              simp only [kMaxRestartSupportedByHashIndex] at supported
              omega
            rw [Nat.mod_eq_of_lt bound, index]
            exact .inr (mem_singleton.mpr rfl)
          next => cases found
    · rw [if_neg before] at valid
      exact absurd valid before

theorem Filled.addAll (more : List (EntryKey K × V)) (filled : Filled getSliceHash b entries)
    (interval : 0 < b.blockRestartInterval) :
    Filled getSliceHash (b.addAll getSliceHash encodedSize more) (entries ++ more) := by
  induction more generalizing b entries with
  | nil => simpa [BlockBuilder.addAll] using filled
  | cons entry more ih =>
    rw [append_cons]
    exact ih (filled.add encodedSize interval entry.1 entry.2) interval

theorem addAll_interval (more : List (EntryKey K × V)) (b : BlockBuilder K V) :
    (b.addAll getSliceHash encodedSize more).blockRestartInterval = b.blockRestartInterval := by
  induction more generalizing b with
  | nil => rfl
  | cons entry more ih => exact ih _

/-- Restart points at the multiples of `interval`, and buckets that name the interval of each key. -/
structure Indexed (getSliceHash : K → ℕ) (interval : ℕ) (b : Block K V) : Prop where
  interval_pos : 0 < interval
  started : 0 < b.restarts.length
  restartPoint : ∀ r < b.restarts.length, b.restarts[r]? = some (r * interval)
  reached : 1 < b.restarts.length → (b.restarts.length - 1) * interval < b.entries.length
  covered : b.entries.length ≤ b.restarts.length * interval
  fewRestarts : ∀ buckets, b.hashIndex = some buckets → b.restarts.length ≤ 254
  hashed : ∀ buckets, b.hashIndex = some buckets → ∀ i entry, b.entries[i]? = some entry →
    lookup buckets (getSliceHash entry.1.userKey) = i / interval ∨ lookup buckets (getSliceHash entry.1.userKey) = kCollision
  known : ∀ buckets, b.hashIndex = some buckets → ∀ hash,
    lookup buckets hash = kNoEntry ∨ lookup buckets hash = kCollision ∨ lookup buckets hash < b.restarts.length

theorem Filled.finish (filled : Filled getSliceHash b entries) (interval : 0 < b.blockRestartInterval) :
    Indexed getSliceHash b.blockRestartInterval b.finish := by
  have length : b.buffer.length = (b.restarts.length - 1) * b.blockRestartInterval + b.counter := by
    rw [filled.buffer]
    exact filled.filled
  have counter := filled.counter
  have started := filled.started
  have index : ∀ buckets, b.finish.hashIndex = some buckets →
      b.dataBlockHashIndexBuilder.isValid ∧ buckets = b.dataBlockHashIndexBuilder.finish := by
    intro buckets found
    rw [BlockBuilder.finish] at found
    split at found
    next valid => exact ⟨valid.1, (Option.some.inj found).symm⟩
    next => cases found
  have placed := finish_placed b.dataBlockHashIndexBuilder fun p mem => (filled.small p mem).1
  have size : b.restarts.length * b.blockRestartInterval =
      (b.restarts.length - 1) * b.blockRestartInterval + b.blockRestartInterval := by
    rw [← Nat.succ_mul, Nat.succ_eq_add_one, Nat.sub_add_cancel started]
  refine ⟨interval, started, ?_, ?_, ?_, ?_, ?_, ?_⟩
  · intro r inside
    change r < b.restarts.length at inside
    change b.restarts[r]? = _
    rw [filled.restarts, getElem?_map, getElem?_range inside]
    rfl
  · intro several
    have lastOpen := filled.lastOpen several
    change (b.restarts.length - 1) * b.blockRestartInterval < b.buffer.length
    omega
  · change b.buffer.length ≤ b.restarts.length * b.blockRestartInterval
    omega
  · intro buckets found
    obtain ⟨valid, -⟩ := index buckets found
    change b.restarts.length ≤ 254
    by_contra many
    -- the last entry lies in the last interval, whose index was stored
    have lastOpen := filled.lastOpen (by omega)
    have inside : entries.length - 1 < entries.length := by rw [filled.filled]; omega
    have last := getElem?_eq_getElem inside
    have bound := (filled.small _ (filled.hashed valid _ _ last)).1
    have quotient : (entries.length - 1) / b.blockRestartInterval = b.restarts.length - 1 := by
      rw [filled.filled, Nat.add_sub_assoc lastOpen, mul_comm, Nat.mul_add_div interval,
        Nat.div_eq_of_lt (by omega : b.counter - 1 < b.blockRestartInterval), add_zero]
    simp only [quotient, kMaxRestartSupportedByHashIndex] at bound
    omega
  · intro buckets found i entry here
    obtain ⟨valid, rfl⟩ := index buckets found
    change b.buffer[i]? = _ at here
    rw [filled.buffer] at here
    exact placed.stored _ (filled.hashed valid i entry here)
  · intro buckets found hash
    obtain ⟨-, rfl⟩ := index buckets found
    rcases placed.known _ (lookup_mem placed.nonempty hash) with empty | collision | ⟨p, mem, eq⟩
    · exact .inl empty
    · exact .inr (.inl collision)
    · exact .inr (.inr (eq ▸ (filled.small p mem).2))

theorem built_entries (pos : 0 < interval) :
    ((BlockBuilder.new interval indexType utilRatio).addAll getSliceHash encodedSize entries).finish.entries = entries := by
  exact ((new_filled interval indexType utilRatio).addAll encodedSize entries pos).buffer

theorem built_indexed (pos : 0 < interval) : Indexed getSliceHash interval
      ((BlockBuilder.new interval indexType utilRatio).addAll getSliceHash encodedSize entries).finish := by
  have fresh : Filled getSliceHash (BlockBuilder.new interval indexType utilRatio : BlockBuilder K V) [] :=
    new_filled interval indexType utilRatio
  have filled := fresh.addAll encodedSize entries pos
  have eq : ((BlockBuilder.new interval indexType utilRatio : BlockBuilder K V).addAll getSliceHash encodedSize
      entries).blockRestartInterval = interval :=
    addAll_interval _ _ _
  have indexed := filled.finish (by rw [eq]; exact pos)
  rwa [eq] at indexed

end VcompProof.Table
