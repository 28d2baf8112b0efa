import Mathlib.Data.Finset.Card
import Mathlib.Data.Nat.ModEq
import Vcomp.Trace.Format

namespace VcompProof

open VcompModel Option

theorem ok_bind {α β : Type} {x : Except TraceError α} {f : α → Except TraceError β} {b : β}
    (done : (x >>= f) = .ok b) : ∃ a, x = .ok a ∧ f a = .ok b := by
  cases x with
  | error e => nomatch done
  | ok a => exact ⟨a, rfl, done⟩

theorem ok_map {α β : Type} {x : Except TraceError α} {f : α → β} {b : β} (done : x.map f = .ok b) :
    ∃ a, x = .ok a ∧ f a = b := by
  cases x with
  | error e => nomatch done
  | ok a => exact ⟨a, rfl, Except.ok.inj done⟩

variable {F σ : Type} (rng : RandomSource σ F) {modulus candidate : ℕ}

theorem coprimeSearch_coprime {fuel multiplier : ℕ}
    (found : coprimeSearch modulus fuel candidate = some multiplier) : Nat.Coprime multiplier modulus := by
  induction fuel generalizing candidate with
  | zero => nomatch found
  | succ fuel ih =>
    unfold coprimeSearch at found
    split at found
    · exact ih found
    next coprime =>
      cases found
      exact not_not.mp coprime

theorem coprimeSearch_ends {fuel : ℕ} (two : 2 ≤ fuel) (near : modulus + 2 ≤ candidate + 2 * fuel) :
    ∃ multiplier, coprimeSearch modulus fuel candidate = some multiplier := by
  induction fuel generalizing candidate with
  | zero => omega
  | succ fuel ih =>
    unfold coprimeSearch
    split
    · by_cases wrapped : candidate + 2 ≥ modulus
      · rw [if_pos wrapped]
        obtain ⟨fuel, rfl⟩ : ∃ rest, fuel = rest + 1 := ⟨fuel - 1, by omega⟩
        exact ⟨1, by simp [coprimeSearch]⟩
      · rw [if_neg wrapped]
        apply ih <;> omega
    · exact ⟨candidate, rfl⟩

theorem chooseCoprimeMultiplier_ends (modulus : ℕ) (s : σ) : ∃ multiplier s',
    chooseCoprimeMultiplier rng modulus s = .ok (multiplier, s') ∧ (1 < modulus → Nat.Coprime multiplier modulus) := by
  unfold chooseCoprimeMultiplier
  split
  next small => exact ⟨0, s, rfl, fun large => by omega⟩
  next large =>
    dsimp only
    generalize start : (if (1 + (rng.below (modulus - 1) s).1) % 2 = 0 then 1 + (rng.below (modulus - 1) s).1 + 1
      else 1 + (rng.below (modulus - 1) s).1) = candidate
    have pos : 1 ≤ candidate := by
      rw [← start]
      split <;> omega
    obtain ⟨multiplier, found⟩ : ∃ multiplier, coprimeSearch modulus modulus candidate = some multiplier := by
      apply coprimeSearch_ends <;> omega
    rw [found]
    exact ⟨multiplier, _, rfl, fun _ => coprimeSearch_coprime found⟩

variable {keyDomain multiplier offset : ℕ} {header : List UInt8} {numRecords uniqueCount : ℤ}

theorem denseToKeyId_lt (pos : 0 < keyDomain) (rank : ℕ) : denseToKeyId keyDomain multiplier offset rank < keyDomain := by
  unfold denseToKeyId
  split
  · exact pos
  · exact Nat.mod_lt _ pos

theorem denseToKeyId_injOn (coprime : 1 < keyDomain → Nat.Coprime multiplier keyDomain) {a b : ℕ} (lt : a < keyDomain)
    (below' : b < keyDomain) (eq : denseToKeyId keyDomain multiplier offset a = denseToKeyId keyDomain multiplier offset b) :
    a = b := by
  unfold denseToKeyId at eq
  split at eq
  · omega
  next large =>
    have congruent : multiplier * a + offset ≡ multiplier * b + offset [MOD keyDomain] := eq
    have cancelled := Nat.ModEq.add_right_cancel' offset congruent
    have coprime := coprime (by omega)
    have equal : a ≡ b [MOD keyDomain] := Nat.ModEq.cancel_left_of_coprime coprime.symm cancelled
    exact Nat.ModEq.eq_of_lt_of_lt equal lt below'

section

variable {fl : FloatArith F} {rng : RandomSource σ F}

theorem sampleExistingRank_lt {existing rank : ℕ} {alpha : F} {s s' : σ} (pos : 0 < existing)
    (sampled : sampleExistingRank fl rng existing alpha s = .ok (rank, s')) : rank < existing := by
  unfold sampleExistingRank at sampled
  split at sampled
  · cases sampled
    exact pos
  · split at sampled
    · have lt := rng.below_lt existing s pos
      rw [Except.ok.inj sampled] at lt
      exact lt
    · obtain ⟨drawn, -, eq⟩ := ok_map sampled
      have clamped := (Prod.mk.inj eq).1
      omega

theorem nextRank_spec {uniqueCount remainingOps : ℕ} {alpha : F} {w : TraceWriter σ} {rank introduced : ℕ} {s : σ}
    (unique : 0 < uniqueCount) (atMost : w.introduced ≤ uniqueCount) (fits : uniqueCount - w.introduced ≤ remainingOps)
    (left : 0 < remainingOps) (next : nextRank fl rng uniqueCount remainingOps alpha w = .ok (rank, introduced, s)) :
    introduced ≤ uniqueCount ∧ uniqueCount - introduced ≤ remainingOps - 1 ∧
      (rank < w.introduced ∧ introduced = w.introduced ∨ rank = w.introduced ∧ introduced = w.introduced + 1) := by
  have again : ∀ t, (sampleExistingRank fl rng w.introduced alpha t).map (fun drawn => (drawn.1, w.introduced, drawn.2)) =
      .ok (rank, introduced, s) → 0 < w.introduced → rank < w.introduced ∧ introduced = w.introduced := by
    intro t repeated pos
    obtain ⟨⟨drawn, u⟩, sampled, eq⟩ := ok_map repeated
    cases eq
    exact ⟨sampleExistingRank_lt pos sampled, rfl⟩
  unfold nextRank at next
  dsimp only at next
  split at next
  next none =>
    obtain ⟨lt, rfl⟩ := again _ next (by omega)
    exact ⟨atMost, by omega, .inl ⟨lt, rfl⟩⟩
  next some =>
    split at next
    · cases next
      exact ⟨by omega, by omega, .inr ⟨rfl, rfl⟩⟩
    next room =>
      split at next
      · cases next
        exact ⟨by omega, by omega, .inr ⟨rfl, rfl⟩⟩
      next started =>
        split at next
        · cases next
        · split at next
          · cases next
            exact ⟨by omega, by omega, .inr ⟨rfl, rfl⟩⟩
          · obtain ⟨lt, rfl⟩ := again _ next (by omega)
            exact ⟨atMost, by omega, .inl ⟨lt, rfl⟩⟩

theorem pack_ok {width : ℕ} {n : ℤ} {bytes : List UInt8} (packed : pack width n = .ok bytes) :
    0 ≤ n ∧ n.toNat < 256 ^ width ∧ bytes = LittleEndian.encode width n.toNat := by
  unfold pack at packed
  split at packed
  next fits =>
    refine ⟨fits.1, ?_, (Except.ok.inj packed).symm⟩
    have lt : (n.toNat : ℤ) < (256 ^ width : ℕ) := by
      rw [Int.toNat_of_nonneg fits.1]
      exact_mod_cast fits.2
    exact_mod_cast lt
  · nomatch packed

/-- After `i` records: the header and ids whose ranks fill an initial segment; the missing ones fit the records left. -/
structure Written (plan : TracePlan F) (header : List UInt8) (i : ℕ) (w : TraceWriter σ) (ranks : List ℕ) : Prop where
  length : ranks.length = i
  segment : ∀ rank, rank ∈ ranks ↔ rank < w.introduced
  atMost : w.introduced ≤ plan.uniqueCount
  fits : plan.uniqueCount - w.introduced ≤ plan.numRecords - i
  bytes : w.file ++ w.chunk = header ++ ranks.flatMap fun rank =>
    LittleEndian.encode 8 (denseToKeyId plan.keyDomain plan.multiplier plan.offset rank)

theorem Written.record {plan : TracePlan F} {i : ℕ} {w w' : TraceWriter σ} {ranks : List ℕ}
    (written : Written plan header i w ranks) (unique : 0 < plan.uniqueCount) (left : i < plan.numRecords)
    (step : writeRecord fl rng plan i w = .ok w') : ∃ rank, Written plan header (i + 1) w' (ranks ++ [rank]) := by
  obtain ⟨⟨rank, introduced, s⟩, next, step⟩ := ok_bind step
  obtain ⟨record, packed, step⟩ := ok_bind step
  obtain ⟨atMost, fits, choice⟩ := nextRank_spec unique written.atMost written.fits (by omega) next
  obtain ⟨-, -, eq⟩ := pack_ok packed
  have outcome : w'.introduced = introduced ∧ w'.file ++ w'.chunk = w.file ++ w.chunk ++ record := by
    split at step
    · cases step
      simp
    · cases step
      simp
  refine ⟨rank, by simp [written.length], ?_, outcome.1 ▸ atMost, outcome.1 ▸ by omega, ?_⟩
  · intro other
    rw [outcome.1, List.mem_append, List.mem_singleton, written.segment]
    omega
  · rw [outcome.2, written.bytes, eq]
    simp

theorem Written.run {plan : TracePlan F} {w w' : TraceWriter σ} (unique : 0 < plan.uniqueCount) (header : List UInt8)
    (i left : ℕ) (ranks : List ℕ) (written : Written plan header i w ranks) (total : i + left = plan.numRecords)
    (run : writeRecords fl rng plan i left w = .ok w') : ∃ ranks, Written plan header plan.numRecords w' ranks := by
  induction left generalizing i w ranks with
  | zero =>
    cases run
    exact ⟨ranks, total ▸ written⟩
  | succ left ih =>
    obtain ⟨next, step, rest⟩ := ok_bind run
    obtain ⟨rank, written⟩ := written.record unique (by omega) step
    exact ih (i + 1) _ written (by omega) rest

end

section

variable {fl : FloatArith F}

theorem packHeader_ok {keyDomain : ℤ} {ratio : F} {args : TraceArgs F}
    (packed : packHeader fl numRecords keyDomain uniqueCount ratio args = .ok header) :
    header.length = headerSize ∧ 0 ≤ args.keySize ∧ args.keySize.toNat < 2 ^ 32 ∧ 0 ≤ args.valueSize ∧
      args.valueSize.toNat < 2 ^ 32 ∧ ∀ rest, readFields (header ++ rest) =
        some (1, 88, ⟨numRecords.toNat, keyDomain.toNat, uniqueCount.toNat, args.keySize.toNat, args.valueSize.toNat,
          (fl.bits ratio).toNat, (fl.bits args.zipfAlpha).toNat, args.seed.toNat, 3, 0⟩, rest) := by
  obtain ⟨version, versionPacked, packed⟩ := ok_bind packed
  obtain ⟨size, sizePacked, packed⟩ := ok_bind packed
  obtain ⟨records, recordsPacked, packed⟩ := ok_bind packed
  obtain ⟨domain, domainPacked, packed⟩ := ok_bind packed
  obtain ⟨unique, uniquePacked, packed⟩ := ok_bind packed
  obtain ⟨keySize, keySizePacked, packed⟩ := ok_bind packed
  obtain ⟨valueSize, valueSizePacked, packed⟩ := ok_bind packed
  obtain ⟨seed, seedPacked, packed⟩ := ok_bind packed
  obtain ⟨flags, flagsPacked, packed⟩ := ok_bind packed
  obtain ⟨reserved, reservedPacked, packed⟩ := ok_bind packed
  have keyFits := pack_ok keySizePacked
  have valueFits := pack_ok valueSizePacked
  cases packed
  refine ⟨?_, keyFits.1, keyFits.2.1, valueFits.1, valueFits.2.1, fun rest => ?_⟩
  · have width : ∀ {width : ℕ} {n : ℤ} {bytes : List UInt8}, pack width n = .ok bytes → bytes.length = width := by
      intro width n bytes packed
      rw [(pack_ok packed).2.2, LittleEndian.length_encode]
    simp only [List.length_append, LittleEndian.length_encode, width versionPacked, width sizePacked,
      width recordsPacked, width domainPacked, width uniquePacked, width keySizePacked, width valueSizePacked,
      width seedPacked, width flagsPacked, width reservedPacked]
    rfl
  · have back : ∀ {width : ℕ} {n : ℤ} {bytes : List UInt8}, pack width n = .ok bytes →
        ∀ rest, LittleEndian.read width (bytes ++ rest) = some (n.toNat, rest) := by
      intro width n bytes packed rest
      obtain ⟨-, fits, rfl⟩ := pack_ok packed
      exact LittleEndian.read_encode fits rest
    have double : ∀ (x : F) (rest : List UInt8),
        LittleEndian.read 8 (LittleEndian.encode 8 (fl.bits x).toNat ++ rest) = some ((fl.bits x).toNat, rest) := by
      intro x rest
      exact LittleEndian.read_encode (fl.bits x).isLt rest
    have first : ∀ rest, LittleEndian.take 8 (magic ++ rest) = some (magic, rest) := LittleEndian.take_append magic
    have found : (guard (magic = magic) : Option Unit) = some () := if_pos rfl
    simp only [List.append_assoc]
    unfold readFields
    rw [first]
    dsimp only [bind_eq_bind, bind_some]
    rw [found, bind_some, back versionPacked, bind_some, back sizePacked, bind_some,
      back recordsPacked, bind_some, back domainPacked, bind_some, back uniquePacked, bind_some,
      back keySizePacked, bind_some, back valueSizePacked, bind_some, double, bind_some, double,
      bind_some, back seedPacked, bind_some, back flagsPacked, bind_some, back reservedPacked,
      bind_some]
    rfl

end

variable {args : TraceArgs F} {fl : FloatArith F}

theorem computeUniqueCount_range {keyDomain : ℤ} (records : 1 ≤ numRecords) (domain : 1 ≤ keyDomain)
    (computed : computeUniqueCount fl numRecords keyDomain args = .ok uniqueCount) :
    1 ≤ uniqueCount ∧ uniqueCount ≤ min numRecords keyDomain := by
  unfold computeUniqueCount at computed
  rw [if_neg (by omega)] at computed
  obtain ⟨count, -, rfl⟩ := ok_map computed
  omega

theorem card_ids {introduced : ℕ} {ranks : List ℕ}
    (coprime : 1 < keyDomain → Nat.Coprime multiplier keyDomain) (fits : introduced ≤ keyDomain)
    (segment : ∀ rank, rank ∈ ranks ↔ rank < introduced) :
    (ranks.map (denseToKeyId keyDomain multiplier offset)).toFinset.card = introduced := by
  have ids : (ranks.map (denseToKeyId keyDomain multiplier offset)).toFinset =
      (Finset.range introduced).image (denseToKeyId keyDomain multiplier offset) := by
    ext id
    simp [segment]
  rw [ids, Finset.card_image_of_injOn, Finset.card_range]
  intro a lt b below' eq
  rw [Finset.coe_range, Set.mem_Iio] at lt below'
  exact denseToKeyId_injOn coprime (lt.trans_le fits) (below'.trans_le fits) eq

theorem writeTrace_ok {rng : RandomSource σ F} {outputExists : Bool}
    {file : List UInt8} (counted : computeNumRecords fl args = .ok numRecords)
    (written : writeTrace fl rng args outputExists = .ok file) : ∃ uniqueCount ratio multiplier offset header w,
      computeUniqueCount fl numRecords (args.keyDomain.getD numRecords) args = .ok uniqueCount ∧
      (1 < (args.keyDomain.getD numRecords).toNat → Nat.Coprime multiplier (args.keyDomain.getD numRecords).toNat) ∧
      packHeader fl numRecords (args.keyDomain.getD numRecords) uniqueCount ratio args = .ok header ∧
      writeRecords fl rng ⟨numRecords.toNat, (args.keyDomain.getD numRecords).toNat, uniqueCount.toNat, multiplier, offset,
        args.zipfAlpha, (max 1 args.chunkRecords).toNat⟩ 0 numRecords.toNat ⟨rng.seed args.seed, 0, [], header⟩ = .ok w ∧
      file = w.file ++ w.chunk := by
  obtain ⟨_, counted', written⟩ := ok_bind written
  cases counted.symm.trans counted'
  dsimp only at written
  split at written
  · nomatch written
  split at written
  · nomatch written
  obtain ⟨uniqueCount, unique, written⟩ := ok_bind written
  obtain ⟨ratio, -, written⟩ := ok_bind written
  split at written
  · nomatch written
  obtain ⟨⟨multiplier, mapper⟩, chosen, written⟩ := ok_bind written
  obtain ⟨header, packed, written⟩ := ok_bind written
  obtain ⟨w, run, written⟩ := ok_bind written
  obtain ⟨_, _, chosen', coprime⟩ := chooseCoprimeMultiplier_ends rng (args.keyDomain.getD numRecords).toNat
    (rng.seed (Int.xor args.seed 0x9E3779B97F4A7C15))
  cases chosen.symm.trans chosen'
  exact ⟨uniqueCount, ratio, multiplier, _, header, w, unique, coprime, packed, run, (Except.ok.inj written).symm⟩

theorem readLoadTraceHeader_packHeader {keyDomain : ℤ} {ratio : F} (domain : 1 ≤ keyDomain) (pos : 1 ≤ uniqueCount)
    (atMost : uniqueCount ≤ min numRecords keyDomain)
    (packed : packHeader fl numRecords keyDomain uniqueCount ratio args = .ok header) (name : String) (rest : List UInt8) :
    ∃ fields, readLoadTraceHeader name args.keySize.toNat args.valueSize.toNat (header ++ rest) = .ok (fields, rest) ∧
      fields.records = numRecords ∧ fields.keyDomain = keyDomain ∧ fields.uniqueCount = uniqueCount ∧
      fields.keySize = args.keySize ∧ fields.valueSize = args.valueSize := by
  obtain ⟨-, keyNonneg, keyFits, valueNonneg, valueFits, fields⟩ := packHeader_ok packed
  unfold readLoadTraceHeader
  rw [fields]
  dsimp only
  rw [Nat.mod_eq_of_lt keyFits, Nat.mod_eq_of_lt valueFits, if_neg (by simp), if_neg (by simp), if_neg (by omega),
    if_neg (by omega)]
  refine ⟨_, rfl, ?_, ?_, ?_, ?_, ?_⟩ <;> dsimp only <;> omega

/-- The search ends; a written trace holds `num_records` ids of the domain, `unique_count` distinct, behind a header
that `FillVirtual` reads. -/
theorem load_trace_exact (fl : FloatArith F) (rng : RandomSource σ F) (args : TraceArgs F) (outputExists : Bool) :
    (∀ modulus s, ∃ multiplier s', chooseCoprimeMultiplier rng modulus s = .ok (multiplier, s')) ∧
    ∀ file numRecords, generateLoadTrace fl rng args outputExists = .ok file → computeNumRecords fl args = .ok numRecords →
      let keyDomain := args.keyDomain.getD numRecords
      1 ≤ numRecords → 1 ≤ keyDomain →
      ∃ uniqueCount, computeUniqueCount fl numRecords keyDomain args = .ok uniqueCount ∧ 1 ≤ uniqueCount ∧
        uniqueCount ≤ min numRecords keyDomain ∧
        ∃ ids : List ℕ, ids.length = numRecords ∧ (∀ id ∈ ids, (id : ℤ) < keyDomain) ∧ ids.toFinset.card = uniqueCount ∧
          ∃ header, file = header ++ ids.flatMap (LittleEndian.encode 8) ∧ header.length = headerSize ∧
            ∀ name, ∃ fields,
              readLoadTraceHeader name args.keySize.toNat args.valueSize.toNat file =
                .ok (fields, ids.flatMap (LittleEndian.encode 8)) ∧
              fields.records = numRecords ∧ fields.keyDomain = keyDomain ∧ fields.uniqueCount = uniqueCount ∧
              fields.keySize = args.keySize ∧ fields.valueSize = args.valueSize := by
  refine ⟨fun modulus s => ?_, fun file numRecords generated counted => ?_⟩
  · obtain ⟨multiplier, s', chosen, -⟩ := chooseCoprimeMultiplier_ends rng modulus s
    exact ⟨multiplier, s', chosen⟩
  intro keyDomain records domain
  unfold generateLoadTrace at generated
  split_ifs at generated
  obtain ⟨uniqueCount, ratio, multiplier, offset, header, w, unique, coprime, packed, run, rfl⟩ :=
    writeTrace_ok counted generated
  obtain ⟨pos, atMost⟩ := computeUniqueCount_range records domain unique
  obtain ⟨ranks, length, segment, introduced, complete, bytes⟩ := Written.run (by dsimp only; omega) header 0 _ []
    ⟨rfl, by simp, Nat.zero_le _, by dsimp only; omega, by simp⟩ (Nat.zero_add _) run
  dsimp only at length introduced complete bytes
  have all : w.introduced = uniqueCount.toNat := by omega
  rw [bytes]
  refine ⟨uniqueCount, unique, pos, atMost, ranks.map (denseToKeyId keyDomain.toNat multiplier offset), ?_, ?_, ?_,
    header, ?_, (packHeader_ok packed).1, ?_⟩
  · rw [List.length_map, length]
    omega
  · intro id mem
    obtain ⟨rank, -, rfl⟩ := List.mem_map.mp mem
    have lt : denseToKeyId keyDomain.toNat multiplier offset rank < keyDomain.toNat :=
      denseToKeyId_lt (by omega) rank
    omega
  · rw [card_ids coprime (by omega) segment]
    omega
  · rw [List.flatMap_map]
  · intro name
    rw [List.flatMap_map]
    exact readLoadTraceHeader_packHeader domain pos atMost packed name _

/-- Rational arithmetic; the transcendental functions raise. -/
def rationalArith : FloatArith ℚ where
  toFloatOps := .rational
  ofInt := fun n => some n
  toInt := fun x => some (if x < 0 then -(-x).floor else x.floor)
  round := fun x => some (x + 1 / 2).floor
  sub := (· - ·)
  div := fun x y => if y = 0 then none else some (x / y)
  floorDiv := fun x y => if y = 0 then none else some (x / y).floor
  abs := fun x => if x < 0 then -x else x
  exp := fun _ => none
  log := fun _ => none
  pow := fun _ _ => none
  le := fun x y => decide (x ≤ y)
  bits := fun _ => 0

def countingSource : RandomSource ℕ ℚ where
  seed := Int.toNat
  below := fun n s => (s % n, s + 1)
  random := fun s => ((s % 4 : ℕ) / 4, s + 1)
  below_lt := fun _ s positive => Nat.mod_lt s positive

def smallTrace : TraceArgs ℚ := ⟨some 3, none, 8, 4, some 5, 1, some 2, 0, 7, 2, false, "trace"⟩

theorem load_trace_exact_small : ∃ header, ∃ ids : List ℕ,
    generateLoadTrace rationalArith countingSource smallTrace false = .ok (header ++ ids.flatMap (LittleEndian.encode 8)) ∧
      ids.length = 3 ∧ (∀ id ∈ ids, id < 5) ∧ ids.toFinset.card = 2 := by
  have accepted : (generateLoadTrace rationalArith countingSource smallTrace false).toOption.isSome = true := by
    decide +kernel
  cases generated : generateLoadTrace rationalArith countingSource smallTrace false with
  | error e =>
    rw [generated] at accepted
    nomatch accepted
  | ok file =>
    obtain ⟨unique, computed, -, -, ids, length, lt, card, header, rfl, -⟩ :=
      (load_trace_exact rationalArith countingSource smallTrace false).2 file 3 generated rfl (by decide) (by decide)
    have two : unique = 2 := (Except.ok.inj computed).symm
    have lt : ∀ id ∈ ids, (id : ℤ) < 5 := lt
    exact ⟨header, ids, rfl, by exact_mod_cast length, fun id mem => by exact_mod_cast lt id mem, by omega⟩

end VcompProof
