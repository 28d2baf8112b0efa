import Vcomp.Wal.Format

namespace VcompModel.Wal

def blockEnd (p : ℕ) : ℕ := p + (kBlockSize - p % kBlockSize)

def padding (recycle : Bool) (p : ℕ) : ℕ :=
  if kBlockSize - p % kBlockSize < headerSize recycle then kBlockSize - p % kBlockSize else 0

def headerStart (recycle : Bool) (p : ℕ) : ℕ := p + padding recycle p

def placed (recycle : Bool) (logNumber p : ℕ) (type : RecordType) (payload : Bytes) : Bytes :=
  List.replicate (padding recycle p) 0 ++ physicalRecord logNumber type payload

def placedEnd (recycle : Bool) (p : ℕ) (payload : Bytes) : ℕ := headerStart recycle p + headerSize recycle + payload.length

/-- The rest of a record from a position on: each fragment but the last ends its block. -/
inductive Fragments (recycle : Bool) (logNumber : ℕ) : (start : Bool) → (p : ℕ) → (left bytes : Bytes) →
    (stop : ℕ) → Prop where
  | last {start : Bool} {p : ℕ} {left : Bytes} (fits : placedEnd recycle p left ≤ blockEnd (headerStart recycle p)) :
    Fragments recycle logNumber start p left
      (placed recycle logNumber p (.ofFragment recycle start true) left) (placedEnd recycle p left)
  | more {start : Bool} {p : ℕ} {payload rest bytes : Bytes} {stop : ℕ}
    (fills : placedEnd recycle p payload = blockEnd (headerStart recycle p))
    (later : Fragments recycle logNumber false (placedEnd recycle p payload) rest bytes stop) :
    Fragments recycle logNumber start p (payload ++ rest)
      (placed recycle logNumber p (.ofFragment recycle start false) payload ++ bytes) stop

/-- The records of a log, each from the end of the one before it. -/
inductive Records (recycle : Bool) (logNumber : ℕ) : (p : ℕ) → (records : List Bytes) → (bytes : Bytes) →
    (stop : ℕ) → Prop where
  | nil {p : ℕ} : Records recycle logNumber p [] [] p
  | cons {p middle stop : ℕ} {record bytes rest : Bytes} {records : List Bytes}
    (head : Fragments recycle logNumber true p record bytes middle)
      (tail : Records recycle logNumber middle records rest stop) :
    Records recycle logNumber p (record :: records) (bytes ++ rest) stop

end VcompModel.Wal

namespace VcompProof.Wal

open VcompModel.Wal List

variable (recycle : Bool) (p : ℕ)

theorem headerSize_le : kHeaderSize ≤ headerSize recycle ∧ headerSize recycle ≤ kRecyclableHeaderSize := by
  cases recycle <;> decide

theorem padding_cases : padding recycle p = 0 ∧ headerSize recycle ≤ kBlockSize - p % kBlockSize ∨
      0 < padding recycle p ∧ padding recycle p < headerSize recycle ∧ headerStart recycle p = blockEnd p := by
  have inside := Nat.mod_lt p (show 0 < kBlockSize by decide)
  unfold headerStart padding blockEnd
  split
  next small => right; omega
  next room => left; omega

theorem blockEnd_mod : blockEnd p % kBlockSize = 0 := by
  unfold blockEnd kBlockSize
  omega

theorem lt_blockEnd : p < blockEnd p := by
  unfold blockEnd kBlockSize
  omega

theorem padding_of_start {recycle : Bool} {p : ℕ} (start : p % kBlockSize = 0) : padding recycle p = 0 := by
  have size := headerSize_le recycle
  unfold padding
  rw [start, if_neg]
  unfold kRecyclableHeaderSize at size
  unfold kBlockSize
  omega

theorem padding_headerStart : padding recycle (headerStart recycle p) = 0 := by
  rcases padding_cases recycle p with ⟨none, _⟩ | ⟨_, _, boundary⟩
  · rw [headerStart, none, add_zero, none]
  · rw [boundary, padding_of_start (blockEnd_mod p)]

theorem headerStart_room : headerStart recycle p + headerSize recycle ≤ blockEnd (headerStart recycle p) := by
  have size := headerSize_le recycle
  rcases padding_cases recycle p with ⟨none, room⟩ | ⟨_, _, boundary⟩
  · unfold headerStart
    rw [none, add_zero]
    unfold blockEnd
    omega
  · have aligned := blockEnd_mod p
    rw [boundary]
    generalize blockEnd p = b at aligned
    unfold blockEnd
    unfold kRecyclableHeaderSize at size
    unfold kBlockSize at *
    omega

theorem blockEnd_eq {p q : ℕ} (le : p ≤ q) (lt : q < blockEnd p) : blockEnd q = blockEnd p := by
  unfold blockEnd kBlockSize at *
  omega

variable (recycle start finish : Bool)

theorem ofByte_toByte_ofFragment :
    RecordType.ofByte (RecordType.ofFragment recycle start finish).toByte = .ofFragment recycle start finish := by
  cases recycle <;> cases start <;> cases finish <;> rfl

theorem isRecyclable_ofFragment : (RecordType.ofFragment recycle start finish).isRecyclable = recycle := by
  cases recycle <;> cases start <;> cases finish <;> rfl

theorem isLegacy_ofFragment : (RecordType.ofFragment recycle start finish).isLegacy = !recycle := by
  cases recycle <;> cases start <;> cases finish <;> rfl

theorem ofFragment_ne_zero : RecordType.ofFragment recycle start finish ≠ .zero := by
  cases recycle <;> cases start <;> cases finish <;> decide

variable {recycle start finish : Bool} {logNumber : ℕ} {payload : Bytes}

def numberBytes (recycle : Bool) (logNumber : ℕ) : Bytes := if recycle then LittleEndian.encode 4 logNumber else []

def storedChecksum (recycle : Bool) (logNumber : ℕ) (type : RecordType) (payload : Bytes) : BitVec 32 :=
  Crc32c.value (type.toByte :: numberBytes recycle logNumber ++ payload)

theorem physicalRecord_eq : physicalRecord logNumber (.ofFragment recycle start finish) payload =
    LittleEndian.encode 4 (Crc32c.mask (storedChecksum recycle logNumber (.ofFragment recycle start finish) payload)).toNat ++
      (LittleEndian.encode 2 payload.length ++
        ((RecordType.ofFragment recycle start finish).toByte :: (numberBytes recycle logNumber ++ payload))) := by
  have checksum (number : Bytes) (type : RecordType) : Crc32c.value (type.toByte :: number ++ payload) =
      Crc32c.extend (Crc32c.extend (Crc32c.value [type.toByte]) number) payload := by
    rw [Crc32c.value_append, ← singleton_append, Crc32c.value_append]
  unfold physicalRecord storedChecksum
  rw [isLegacy_ofFragment, checksum]
  dsimp only
  rw [Crc32c.combine_value]
  cases recycle with
  | false => simp [numberBytes, Crc32c.extend_nil]
  | true => simp [numberBytes]

theorem length_numberBytes (recycle : Bool) (logNumber : ℕ) :
    (numberBytes recycle logNumber).length + kHeaderSize = headerSize recycle := by
  cases recycle <;> simp [numberBytes, headerSize, kHeaderSize, kRecyclableHeaderSize]

theorem length_physicalRecord :
    (physicalRecord logNumber (.ofFragment recycle start finish) payload).length = headerSize recycle + payload.length := by
  rw [physicalRecord_eq, ← length_numberBytes recycle logNumber]
  simp [kHeaderSize]
  omega

theorem length_placed {p : ℕ} :
    p + (placed recycle logNumber p (.ofFragment recycle start finish) payload).length = placedEnd recycle p payload := by
  unfold placed placedEnd headerStart
  rw [length_append, length_replicate, length_physicalRecord]
  omega

variable {payload more : Bytes}

theorem headerLength_take {k : ℕ} (header : Bytes) (le : kHeaderSize ≤ k) :
    headerLength (header.take k) = headerLength header := by
  unfold headerLength
  rw [drop_take, take_take, min_eq_left (by unfold kHeaderSize at le; omega)]

theorem headerType_take {k : ℕ} (header : Bytes) (le : kHeaderSize ≤ k) : headerType (header.take k) = headerType header := by
  unfold headerType
  rw [getD_eq_getElem?_getD, getElem?_take_of_lt (by unfold kHeaderSize at le; omega), getD_eq_getElem?_getD]

theorem headerLength_physicalRecord (fits : payload.length < 65536) :
    headerLength (physicalRecord logNumber (.ofFragment recycle start finish) payload ++ more) = payload.length := by
  unfold headerLength
  rw [physicalRecord_eq, append_assoc, append_assoc, drop_left' (LittleEndian.length_encode 4 _),
    take_left' (LittleEndian.length_encode 2 _)]
  exact LittleEndian.decode_encode fits

theorem drop_six : (physicalRecord logNumber (.ofFragment recycle start finish) payload ++ more).drop 6 =
      (RecordType.ofFragment recycle start finish).toByte :: (numberBytes recycle logNumber ++ payload ++ more) := by
  rw [physicalRecord_eq, ← append_assoc, append_assoc, drop_left']
  · rfl
  · rw [length_append, LittleEndian.length_encode, LittleEndian.length_encode]

theorem headerType_physicalRecord :
    headerType (physicalRecord logNumber (.ofFragment recycle start finish) payload ++ more) =
      .ofFragment recycle start finish := by
  have six : (physicalRecord logNumber (.ofFragment recycle start finish) payload ++ more)[6]? =
      some (RecordType.ofFragment recycle start finish).toByte := by
    rw [← head?_drop, drop_six]
    rfl
  unfold headerType
  rw [getD_eq_getElem?_getD, six]
  exact ofByte_toByte_ofFragment recycle start finish

theorem headerLogNumber_physicalRecord (small : logNumber < 2 ^ 32) :
    headerLogNumber (physicalRecord logNumber (.ofFragment true start finish) payload ++ more) = logNumber := by
  have seven : (physicalRecord logNumber (.ofFragment true start finish) payload ++ more).drop 7 =
      LittleEndian.encode 4 logNumber ++ (payload ++ more) := by
    rw [← drop_drop (i := 1) (j := 6), drop_six, drop_succ_cons, drop_zero]
    exact append_assoc _ _ _
  unfold headerLogNumber
  rw [seven, take_left' (LittleEndian.length_encode 4 _)]
  exact LittleEndian.decode_encode small

theorem checksumMatches_physicalRecord :
    checksumMatches (physicalRecord logNumber (.ofFragment recycle start finish) payload ++ more)
      (headerSize recycle) payload.length = true := by
  have covered : ((physicalRecord logNumber (.ofFragment recycle start finish) payload ++ more).drop 6).take
      (payload.length + headerSize recycle - 6) =
        (RecordType.ofFragment recycle start finish).toByte :: numberBytes recycle logNumber ++ payload := by
    rw [drop_six, ← cons_append, ← cons_append]
    apply take_left'
    have size := length_numberBytes recycle logNumber
    unfold kHeaderSize at size
    rw [length_append, length_cons]
    omega
  have stored : headerChecksum (physicalRecord logNumber (.ofFragment recycle start finish) payload ++ more) =
      Crc32c.mask (storedChecksum recycle logNumber (.ofFragment recycle start finish) payload) := by
    unfold headerChecksum
    rw [physicalRecord_eq, append_assoc, take_left' (LittleEndian.length_encode 4 _),
      LittleEndian.decode_encode (BitVec.isLt _), BitVec.ofNat_toNat, BitVec.setWidth_eq]
  unfold checksumMatches
  rw [covered, stored, Crc32c.unmask_mask]
  exact beq_self_eq_true _

theorem payload_physicalRecord :
    ((physicalRecord logNumber (.ofFragment recycle start finish) payload ++ more).drop (headerSize recycle)).take
      payload.length = payload := by
  have header : (physicalRecord logNumber (.ofFragment recycle start finish) payload ++ more).drop
      (headerSize recycle) = payload ++ more := by
    have size := length_numberBytes recycle logNumber
    have split : headerSize recycle = 6 + (1 + (numberBytes recycle logNumber).length) := by
      unfold kHeaderSize at size
      omega
    rw [split, ← drop_drop, drop_six, ← drop_drop, drop_succ_cons, drop_zero,
      append_assoc, drop_left]
  rw [header, take_left]

/-- The offset in the block follows the length of the file; a full block is the start of the next one. -/
structure Aligned (w : Writer) : Prop where
  le : w.blockOffset ≤ kBlockSize
  mod : w.blockOffset % kBlockSize = w.dest.length % kBlockSize

def SameLog (w w' : Writer) : Prop := w'.recycleLogFiles = w.recycleLogFiles ∧ w'.logNumber = w.logNumber

variable {w : Writer}

theorem switchBlock_dest (aligned : Aligned w) :
    w.switchBlock.dest = w.dest ++ List.replicate (padding w.recycleLogFiles w.dest.length) 0 ∧
      w.switchBlock.blockOffset = headerStart w.recycleLogFiles w.dest.length % kBlockSize ∧ SameLog w w.switchBlock := by
  obtain ⟨le, mod⟩ := aligned
  have size := headerSize_le w.recycleLogFiles
  unfold kRecyclableHeaderSize kHeaderSize at size
  unfold Writer.switchBlock headerStart padding
  rw [← mod]
  dsimp only
  by_cases full : w.blockOffset = kBlockSize
  · rw [full, Nat.sub_self, if_pos (by omega), Nat.mod_self, if_neg (by unfold kBlockSize; omega)]
    refine ⟨rfl, ?_, rfl, rfl⟩
    rw [Nat.add_zero, ← mod, full, Nat.mod_self]
  · have inside : w.blockOffset % kBlockSize = w.blockOffset := Nat.mod_eq_of_lt (by omega)
    rw [inside] at mod ⊢
    split
    · refine ⟨rfl, ?_, rfl, rfl⟩
      change 0 = _
      unfold kBlockSize at *
      omega
    · refine ⟨by rw [replicate_zero, append_nil], ?_, rfl, rfl⟩
      rw [add_zero, mod]

theorem emit_placed (aligned : Aligned w) (start finish : Bool)
    (fits : placedEnd w.recycleLogFiles w.dest.length payload ≤ blockEnd (headerStart w.recycleLogFiles w.dest.length)) :
    let w' := w.switchBlock.emitPhysicalRecord (.ofFragment w.recycleLogFiles start finish) payload
    w'.dest = w.dest ++ placed w.recycleLogFiles w.logNumber w.dest.length (.ofFragment w.recycleLogFiles start finish)
      payload ∧
      w'.dest.length = placedEnd w.recycleLogFiles w.dest.length payload ∧ Aligned w' ∧ SameLog w w' := by
  intro w'
  obtain ⟨dest, offset, recycle, number⟩ := switchBlock_dest aligned
  have written : w'.dest = w.dest ++
      placed w.recycleLogFiles w.logNumber w.dest.length (.ofFragment w.recycleLogFiles start finish) payload := by
    change w.switchBlock.dest ++ physicalRecord w.switchBlock.logNumber _ _ = _
    rw [dest, number, append_assoc]
    rfl
  have length : w'.dest.length = placedEnd w.recycleLogFiles w.dest.length payload := by
    rw [written, length_append, length_placed]
  have block : w'.blockOffset = headerStart w.recycleLogFiles w.dest.length % kBlockSize +
      (headerSize w.recycleLogFiles + payload.length) := by
    change w.switchBlock.blockOffset + _ = _
    rw [offset, length_physicalRecord]
  refine ⟨written, length, ⟨?_, ?_⟩, recycle, number⟩
  · rw [block]
    unfold placedEnd blockEnd at fits
    have inside := Nat.mod_lt (headerStart w.recycleLogFiles w.dest.length) (show 0 < kBlockSize by decide)
    omega
  · rw [block, length, Nat.mod_add_mod]
    unfold placedEnd
    rw [add_assoc]

theorem addFragments_placed (fuel : ℕ) (start : Bool) (left : Bytes) (aligned : Aligned w)
    (enough : left.length + 2 ≤ fuel ∨ w.dest.length % kBlockSize = 0 ∧ left.length + 1 ≤ fuel) :
    ∃ bytes, (Writer.addFragments fuel start left w).dest = w.dest ++ bytes ∧
      Fragments w.recycleLogFiles w.logNumber start w.dest.length left bytes
        (Writer.addFragments fuel start left w).dest.length ∧
      Aligned (Writer.addFragments fuel start left w) ∧ SameLog w (Writer.addFragments fuel start left w) := by
  induction fuel generalizing start left w with
  | zero => omega
  | succ fuel ih =>
    obtain ⟨-, offset, recycle, number⟩ := switchBlock_dest aligned
    have room := headerStart_room w.recycleLogFiles w.dest.length
    unfold Writer.addFragments
    dsimp only
    rw [offset, recycle]
    unfold blockEnd at room
    generalize avail_eq : kBlockSize - headerStart w.recycleLogFiles w.dest.length % kBlockSize - headerSize
      w.recycleLogFiles = avail
    by_cases ended : left.drop avail = []
    · have short : left.length ≤ avail := drop_eq_nil_iff.mp ended
      rw [ended, isEmpty_nil, if_pos rfl, take_of_length_le short]
      have fits : placedEnd w.recycleLogFiles w.dest.length left ≤ blockEnd (headerStart w.recycleLogFiles w.dest.length) := by
        unfold placedEnd blockEnd
        omega
      obtain ⟨dest, length, aligned, eq⟩ := emit_placed aligned start true fits
      refine ⟨_, dest, ?_, aligned, eq⟩
      rw [length]
      exact .last fits
    · have long : avail < left.length := by
        by_contra short
        exact ended (drop_eq_nil_of_le (by omega))
      rw [isEmpty_eq_false_iff.mpr ended, if_neg Bool.false_ne_true]
      have taken : (left.take avail).length = avail := by rw [length_take]; omega
      have fills : placedEnd w.recycleLogFiles w.dest.length (left.take avail) =
          blockEnd (headerStart w.recycleLogFiles w.dest.length) := by
        unfold placedEnd blockEnd
        omega
      obtain ⟨dest, length, aligned', eq⟩ := emit_placed aligned start false fills.le
      -- an empty fragment only fits before a block end, so the next round starts a block
      have atBlock := blockEnd_mod (headerStart w.recycleLogFiles w.dest.length)
      rw [← fills, ← length] at atBlock
      have progress : (left.drop avail).length + 1 ≤ fuel := by
        rw [length_drop]
        rcases enough with many | ⟨aligned, one⟩
        · omega
        · have size := headerSize_le w.recycleLogFiles
          have start : headerStart w.recycleLogFiles w.dest.length % kBlockSize = 0 := by
            rcases padding_cases w.recycleLogFiles w.dest.length with ⟨none, _⟩ | ⟨_, _, boundary⟩
            · rw [headerStart, none, add_zero, aligned]
            · rw [boundary, blockEnd_mod]
          unfold kRecyclableHeaderSize at size
          unfold kBlockSize at avail_eq start
          omega
      obtain ⟨bytes, rest, later, alignedEnd, sameEnd⟩ := ih false (left.drop avail) aligned' (.inr ⟨atBlock, progress⟩)
      rw [eq.1, eq.2, length] at later
      have more := @Fragments.more _ _ start _ _ _ _ _ fills later
      rw [take_append_drop] at more
      rw [dest, append_assoc] at rest
      exact ⟨_, rest, more, alignedEnd, sameEnd.1.trans eq.1, sameEnd.2.trans eq.2⟩

theorem addRecord_placed (aligned : Aligned w) (record : Bytes) : ∃ bytes, (w.addRecord record).dest = w.dest ++ bytes ∧
      Fragments w.recycleLogFiles w.logNumber true w.dest.length record bytes (w.addRecord record).dest.length ∧
      Aligned (w.addRecord record) ∧ SameLog w (w.addRecord record) :=
  addFragments_placed (record.length + 2) true record aligned (.inl (le_refl _))

theorem addRecords_placed (records : List Bytes) (aligned : Aligned w) :
    ∃ bytes, (records.foldl Writer.addRecord w).dest = w.dest ++ bytes ∧
      Records w.recycleLogFiles w.logNumber w.dest.length records bytes (records.foldl Writer.addRecord w).dest.length ∧
      Aligned (records.foldl Writer.addRecord w) ∧ SameLog w (records.foldl Writer.addRecord w) := by
  induction records generalizing w with
  | nil => exact ⟨[], (append_nil _).symm, .nil, aligned, rfl, rfl⟩
  | cons record records ih =>
    obtain ⟨bytes, dest, head, aligned', eq⟩ := addRecord_placed aligned record
    obtain ⟨rest, written, tail, alignedEnd, sameEnd⟩ := ih aligned'
    rw [eq.1, eq.2] at tail
    refine ⟨bytes ++ rest, ?_, .cons head tail, alignedEnd, sameEnd.1.trans eq.1, sameEnd.2.trans eq.2⟩
    rw [foldl_cons, written, dest, append_assoc]

end VcompProof.Wal
