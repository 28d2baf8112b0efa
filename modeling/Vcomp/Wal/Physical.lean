import Vcomp.Wal.Layout
import Vcomp.Wal.Reader

namespace VcompProof.Wal

open VcompModel.Wal List

variable {σ : Type} {options : ReaderOptions} {file : Bytes} {r : Reader σ} {p : ℕ} {r' : Reader σ}

structure Loaded (file : Bytes) (r : Reader σ) (p : ℕ) : Prop where
  le : p ≤ file.length
  position : r.position = min file.length (blockEnd p)
  buffer : r.buffer = (file.take r.position).drop p
  eof : r.eof = decide (file.length < blockEnd p)

structure Fresh (file : Bytes) (r : Reader σ) (p : ℕ) : Prop where
  le : p ≤ file.length
  position : r.position = p
  buffer : r.buffer = []
  eof : r.eof = false
  start : p % kBlockSize = 0

def At (file : Bytes) (r : Reader σ) (p : ℕ) : Prop := Loaded file r p ∨ Fresh file r p

def Ready (recycle : Bool) (r : Reader σ) : Prop := recycle = true → r.firstRecordRead = true → r.recycled = true

structure SameFlags (r r' : Reader σ) : Prop where
  recycled : r'.recycled = r.recycled
  firstRecordRead : r'.firstRecordRead = r.firstRecordRead
  reports : r'.reports = r.reports

theorem SameFlags.trans {r₁ r₂ r₃ : Reader σ} (first : SameFlags r₁ r₂) (second : SameFlags r₂ r₃) : SameFlags r₁ r₃ :=
  ⟨second.recycled.trans first.recycled, second.firstRecordRead.trans first.firstRecordRead,
    second.reports.trans first.reports⟩

theorem SameFlags.ready {recycle : Bool} (flags : SameFlags r r') (ready : Ready recycle r) : Ready recycle r' := by
  intro on read
  rw [flags.recycled]
  exact ready on (flags.firstRecordRead ▸ read)

theorem At.le (at_p : At file r p) : p ≤ file.length := by
  rcases at_p with loaded | fresh
  · exact loaded.le
  · exact fresh.le

theorem At.congr (at_p : At file r p) (buffer : r'.buffer = r.buffer) (position : r'.position = r.position)
    (eof : r'.eof = r.eof) : At file r' p := by
  rcases at_p with loaded | fresh
  · exact .inl ⟨loaded.le, position.trans loaded.position, by rw [buffer, loaded.buffer, position], eof.trans loaded.eof⟩
  · exact .inr ⟨fresh.le, position.trans fresh.position, buffer.trans fresh.buffer, eof.trans fresh.eof, fresh.start⟩

theorem at_start (state : σ) : At file { metadata := state } 0 :=
  .inr ⟨Nat.zero_le _, rfl, rfl, rfl, rfl⟩

theorem Loaded.length (loaded : Loaded file r p) : r.buffer.length = min file.length (blockEnd p) - p := by
  rw [loaded.buffer, length_drop, length_take, loaded.position, Nat.min_assoc, Nat.min_comm (blockEnd p), ← Nat.min_assoc,
    Nat.min_self]

theorem Loaded.buffer_eq (loaded : Loaded file r p) : r.buffer = (file.drop p).take (min file.length (blockEnd p) - p) := by
  rw [loaded.buffer, drop_take, loaded.position]

theorem readBlock_loaded (le : p ≤ file.length) (position : r.position = p) (start : p % kBlockSize = 0) :
    Loaded file (r.readBlock file) p ∧ SameFlags r (r.readBlock file) := by
  have stop : blockEnd p = p + kBlockSize := by
    unfold blockEnd
    rw [start, Nat.sub_zero]
  have length : ((file.drop r.position).take kBlockSize).length = min file.length (blockEnd p) - p := by
    rw [length_take, length_drop, position, stop]
    omega
  have here : (r.readBlock file).position = min file.length (blockEnd p) := by
    change r.position + ((file.drop r.position).take kBlockSize).length = _
    rw [length, position, stop]
    omega
  refine ⟨⟨le, here, ?_, ?_⟩, rfl, rfl, rfl⟩
  · rw [here]
    change (file.drop r.position).take kBlockSize = _
    rw [position, drop_take, stop]
    have cut : min file.length (p + kBlockSize) - p = min kBlockSize (file.drop p).length := by
      rw [length_drop]
      omega
    rw [cut, ← take_take, take_length]
  · change decide (((file.drop r.position).take kBlockSize).length < kBlockSize) = _
    rw [length, stop]
    apply decide_eq_decide.mpr
    omega

theorem Loaded.consume (loaded : Loaded file r p) {n : ℕ} (inside : p + n ≤ blockEnd p) (visible : p + n ≤ file.length)
    (position : r'.position = r.position) (eof : r'.eof = r.eof) (buffer : r'.buffer = r.buffer.drop n) :
    At file r' (p + n) := by
  rcases lt_or_eq_of_le inside with lt | ended
  · have eq := blockEnd_eq (Nat.le_add_right p n) lt
    refine .inl ⟨visible, ?_, ?_, ?_⟩
    · rw [position, loaded.position, eq]
    · rw [buffer, loaded.buffer, drop_drop, position]
    · rw [eof, loaded.eof, eq]
  · refine .inr ⟨visible, ?_, ?_, ?_, ?_⟩
    · rw [position, loaded.position]
      omega
    · rw [buffer]
      apply drop_eq_nil_of_le
      rw [loaded.length]
      omega
    · rw [eof, loaded.eof]
      exact decide_eq_false (by omega)
    · rw [ended, blockEnd_mod]

variable {recycle : Bool}

theorem readPhysicalRecord_refill {fuel : ℕ} (short : r.buffer.length < kHeaderSize) (more : r.eof = false) :
    r.readPhysicalRecord options file (fuel + 1) = (r.readBlock file).readPhysicalRecord options file fuel := by
  rw [Reader.readPhysicalRecord, if_pos short, Reader.readMore, more, if_neg Bool.false_ne_true]

theorem At.load (options : ReaderOptions) (at_p : At file r p) (small : padding recycle p < kHeaderSize)
    (visible : headerStart recycle p ≤ file.length) :
    ∃ r', Loaded file r' (headerStart recycle p) ∧ SameFlags r r' ∧
      ∀ fuel, ∃ fuel', r.readPhysicalRecord options file (fuel + 2) = r'.readPhysicalRecord options file (fuel' + 1) := by
  rcases at_p with loaded | fresh
  · rcases padding_cases recycle p with ⟨none, _⟩ | ⟨some, _, boundary⟩
    · have here : headerStart recycle p = p := by rw [headerStart, none, add_zero]
      rw [here]
      exact ⟨r, loaded, ⟨rfl, rfl, rfl⟩, fun fuel => ⟨fuel + 1, rfl⟩⟩
    · rw [boundary] at visible ⊢
      have width : blockEnd p = p + padding recycle p := boundary.symm
      have short : r.buffer.length < kHeaderSize := by
        rw [loaded.length]
        omega
      have more : r.eof = false := by
        rw [loaded.eof]
        exact decide_eq_false (by omega)
      have position : r.position = blockEnd p := by
        rw [loaded.position]
        omega
      obtain ⟨next, eq⟩ := readBlock_loaded visible position (blockEnd_mod p)
      exact ⟨r.readBlock file, next, eq, fun fuel => ⟨fuel, readPhysicalRecord_refill short more⟩⟩
  · have none : padding recycle p = 0 := padding_of_start fresh.start
    have here : headerStart recycle p = p := by rw [headerStart, none, add_zero]
    rw [here]
    obtain ⟨next, eq⟩ := readBlock_loaded fresh.le fresh.position fresh.start
    have short : r.buffer.length < kHeaderSize := by
      rw [fresh.buffer]
      decide
    exact ⟨r.readBlock file, next, eq, fun fuel => ⟨fuel, readPhysicalRecord_refill short fresh.eof⟩⟩

variable {recycle start finish : Bool} {logNumber : ℕ} {payload more : Bytes}

def SameNumber (recycle : Bool) (logNumber : ℕ) (options : ReaderOptions) : Prop :=
  recycle = true → logNumber = options.logNumber ∧ logNumber < 2 ^ 32

theorem readPhysicalRecord_parse (ready : Ready recycle r) (long : headerSize recycle ≤ r.buffer.length)
    (type : (headerType r.buffer).isRecyclable = recycle) (fuel : ℕ) : r.readPhysicalRecord options file (fuel + 1) =
      some (({ r with recycled := recycle || r.recycled } : Reader σ).parseRecord options (headerSize recycle)) := by
  have size := headerSize_le recycle
  rw [Reader.readPhysicalRecord, if_neg (by omega), type]
  cases recycle with
  | false => rw [if_neg Bool.false_ne_true]; rfl
  | true =>
    rw [if_pos rfl, if_neg (fun bad => bad.2 (ready rfl bad.1))]
    exact if_neg (not_lt.mpr long)

theorem parseRecord_fragment (number : SameNumber recycle logNumber options) (small : payload.length < 65536)
    (buffer : r.buffer = physicalRecord logNumber (.ofFragment recycle start finish) payload ++ more) :
    r.parseRecord options (headerSize recycle) =
      ({ r with buffer := r.buffer.drop (headerSize recycle + payload.length) },
        { type := .ofFragment recycle start finish, fragment := payload }) := by
  have type : headerType r.buffer = .ofFragment recycle start finish := buffer ▸ headerType_physicalRecord
  have length : headerLength r.buffer = payload.length := buffer ▸ headerLength_physicalRecord small
  have checked : checksumMatches r.buffer (headerSize recycle) payload.length = true := buffer ▸ checksumMatches_physicalRecord
  have fragment : (r.buffer.drop (headerSize recycle)).take payload.length = payload := buffer ▸ payload_physicalRecord
  have whole : ¬ headerSize recycle + payload.length > r.buffer.length := by
    rw [buffer, length_append, length_physicalRecord]
    omega
  have current : ¬ (recycle = true ∧ headerLogNumber r.buffer ≠ options.logNumber) := by
    rintro ⟨rfl, differs⟩
    apply differs
    rw [buffer, headerLogNumber_physicalRecord (number rfl).2, (number rfl).1]
  unfold Reader.parseRecord
  dsimp only
  rw [length, type, isRecyclable_ofFragment, checked, fragment, if_neg whole, if_neg current,
    if_neg (fun zero => ofFragment_ne_zero recycle start finish zero.1), if_neg (fun bad => bad.2 rfl)]

theorem Loaded.read_fragment (loaded : Loaded file r p) (ready : Ready recycle r)
    (number : SameNumber recycle logNumber options)
    (here : file.drop p = physicalRecord logNumber (.ofFragment recycle start finish) payload ++ more)
    (fits : p + (headerSize recycle + payload.length) ≤ blockEnd p) :
    ∃ r', (∀ fuel, r.readPhysicalRecord options file (fuel + 1) =
        some (r', { type := .ofFragment recycle start finish, fragment := payload })) ∧
      At file r' (p + (headerSize recycle + payload.length)) ∧ r'.recycled = (recycle || r.recycled) ∧
      r'.firstRecordRead = r.firstRecordRead ∧ r'.reports = r.reports := by
  have size := headerSize_le recycle
  have visible : p + (headerSize recycle + payload.length) ≤ file.length := by
    have total := congrArg List.length here
    have le := loaded.le
    rw [length_drop, length_append, length_physicalRecord] at total
    omega
  have small : payload.length < 65536 := by
    unfold blockEnd kBlockSize at fits
    omega
  obtain ⟨rest, buffer⟩ : ∃ rest, r.buffer = physicalRecord logNumber (.ofFragment recycle start finish) payload ++ rest := by
    refine ⟨more.take (min file.length (blockEnd p) - p - (headerSize recycle + payload.length)), ?_⟩
    rw [loaded.buffer_eq, here, take_append, length_physicalRecord, take_of_length_le]
    rw [length_physicalRecord]
    omega
  have long : headerSize recycle + payload.length ≤ r.buffer.length := by
    rw [loaded.length]
    omega
  have type : headerType r.buffer = .ofFragment recycle start finish := buffer ▸ headerType_physicalRecord
  let r₁ : Reader σ := { r with recycled := recycle || r.recycled }
  refine ⟨{ r₁ with buffer := r₁.buffer.drop (headerSize recycle + payload.length) }, ?_,
    loaded.consume fits visible rfl rfl rfl, rfl, rfl, rfl⟩
  intro fuel
  have parsed := parseRecord_fragment (r := r₁) number small buffer
  rw [readPhysicalRecord_parse ready (by omega) (by rw [type, isRecyclable_ofFragment])]
  exact congrArg some parsed

def Truncated (r : Reader σ) (read : Physical) : Prop :=
  read.type = .badHeader ∨ read.type = .eof ∨ read.type = .badRecordLen ∧ r.eof = true

theorem readMore_eof (file : Bytes) (eof : r.eof = true) : ∃ outcome dropped,
    r.readMore file = ({ r with buffer := [] }, some (outcome, dropped)) ∧ (outcome = .badHeader ∨ outcome = .eof) := by
  unfold Reader.readMore
  rw [eof, if_pos rfl]
  split
  · exact ⟨.badHeader, r.buffer.length, rfl, .inl rfl⟩
  · exact ⟨.eof, 0, rfl, .inr rfl⟩

theorem read_short (short : r.buffer.length < kHeaderSize) (eof : r.eof = true) :
    ∃ r' read, (∀ fuel, r.readPhysicalRecord options file (fuel + 1) = some (r', read)) ∧ r'.reports = r.reports ∧
      Truncated r' read := by
  obtain ⟨outcome, dropped, more, ended⟩ := readMore_eof file eof
  refine ⟨{ r with buffer := [] }, { type := outcome, dropSize := dropped }, fun fuel => ?_, rfl, ended.imp_right .inl⟩
  rw [Reader.readPhysicalRecord, if_pos short, more]

theorem read_short_recyclable (ready : Ready true r) (long : kHeaderSize ≤ r.buffer.length)
    (short : r.buffer.length < kRecyclableHeaderSize)
    (type : (headerType r.buffer).isRecyclable = true) (eof : r.eof = true) :
    ∃ r' read, (∀ fuel, r.readPhysicalRecord options file (fuel + 1) = some (r', read)) ∧ r'.reports = r.reports ∧
      Truncated r' read := by
  let r₁ : Reader σ := { r with recycled := true }
  have shortHeader : r₁.buffer.length < kRecyclableHeaderSize := short
  obtain ⟨outcome, dropped, more, ended⟩ := readMore_eof (r := r₁) file eof
  refine ⟨{ r₁ with buffer := [] }, { type := outcome, dropSize := dropped }, fun fuel => ?_, rfl, ended.imp_right .inl⟩
  rw [Reader.readPhysicalRecord, if_neg (not_lt.mpr long), type, if_pos rfl, if_neg (fun bad => bad.2 (ready rfl bad.1))]
  rw [if_pos shortHeader, more]

theorem Loaded.read_truncated (loaded : Loaded file r p) (ready : Ready recycle r) {k : ℕ}
    (here : file.drop p = (physicalRecord logNumber (.ofFragment recycle start finish) payload).take k)
    (cut : k < headerSize recycle + payload.length) (fits : p + (headerSize recycle + payload.length) ≤ blockEnd p) :
    ∃ r' read, (∀ fuel, r.readPhysicalRecord options file (fuel + 1) = some (r', read)) ∧ r'.reports = r.reports ∧
      Truncated r' read := by
  have total : file.length = p + k := by
    have length := congrArg List.length here
    have le := loaded.le
    rw [length_drop, length_take, length_physicalRecord] at length
    omega
  have eof : r.eof = true := by
    rw [loaded.eof]
    exact decide_eq_true (by omega)
  have held : r.buffer.length = k := by
    rw [loaded.length]
    omega
  by_cases short : k < kHeaderSize
  · exact read_short (by omega) eof
  have buffer : r.buffer = (physicalRecord logNumber (.ofFragment recycle start finish) payload).take k := by
    rw [loaded.buffer_eq, here, take_take]
    congr 1
    omega
  have type : headerType r.buffer = .ofFragment recycle start finish := by
    rw [buffer, headerType_take _ (not_lt.mp short), ← append_nil (physicalRecord _ _ _), headerType_physicalRecord]
  have small : payload.length < 65536 := by
    unfold blockEnd kBlockSize at fits
    omega
  have length : headerLength r.buffer = payload.length := by
    rw [buffer, headerLength_take _ (not_lt.mp short), ← append_nil (physicalRecord _ _ _), headerLength_physicalRecord small]
  by_cases header : headerSize recycle ≤ k
  · let r₁ : Reader σ := { r with recycled := recycle || r.recycled }
    have parsed : r₁.parseRecord options (headerSize recycle) =
        ({ r₁ with buffer := [] }, { type := .badRecordLen, dropSize := r₁.buffer.length }) := by
      have long : headerSize recycle + headerLength r₁.buffer > r₁.buffer.length := by
        change headerSize recycle + headerLength r.buffer > r.buffer.length
        omega
      exact if_pos long
    refine ⟨{ r₁ with buffer := [] }, { type := .badRecordLen, dropSize := r₁.buffer.length }, fun fuel => ?_, rfl,
      .inr (.inr ⟨rfl, eof⟩)⟩
    rw [readPhysicalRecord_parse ready (by omega) (by rw [type, isRecyclable_ofFragment])]
    exact congrArg some parsed
  · cases recycle with
    | false => exact absurd (not_lt.mp short) header
    | true =>
      have part : r.buffer.length < kRecyclableHeaderSize := by
        rw [held]
        exact not_le.mp header
      exact read_short_recyclable ready (by omega) part (by rw [type, isRecyclable_ofFragment]) eof

theorem read_zeroes (options : ReaderOptions) (file : Bytes) {n : ℕ} (buffer : r.buffer = List.replicate n 0)
    (long : kHeaderSize ≤ n) (fuel : ℕ) :
    r.readPhysicalRecord options file (fuel + 1) = some ({ r with buffer := [] }, { type := .badRecord }) := by
  obtain ⟨m, rfl⟩ : ∃ m, n = m + 7 := ⟨n - 7, by unfold kHeaderSize at long; omega⟩
  have type : headerType r.buffer = .zero := by
    rw [buffer]
    rfl
  have length : headerLength r.buffer = 0 := by
    rw [buffer]
    rfl
  have held : r.buffer.length = m + 7 := by rw [buffer, length_replicate]
  rw [Reader.readPhysicalRecord, if_neg (by omega), type, if_neg (by decide)]
  unfold Reader.parseRecord
  dsimp only
  rw [length, type, if_neg (by unfold kHeaderSize; omega), if_neg (by rintro ⟨bad, -⟩; cases bad), if_pos ⟨rfl, rfl⟩]

theorem At.loaded_of_padding (at_p : At file r p) (some : 0 < padding recycle p) : Loaded file r p := by
  apply at_p.resolve_right
  intro fresh
  rw [padding_of_start fresh.start] at some
  omega

theorem At.skip_trailer (options : ReaderOptions) (at_p : At file r p) (wide : kHeaderSize ≤ padding recycle p)
    (here : file.drop p = List.replicate (padding recycle p) 0 ++ more) :
    ∃ r', (∀ fuel, r.readPhysicalRecord options file (fuel + 1) = some (r', { type := .badRecord })) ∧
      At file r' (headerStart recycle p) ∧ SameFlags r r' := by
  have some : 0 < padding recycle p := by unfold kHeaderSize at wide; omega
  have loaded := at_p.loaded_of_padding some
  have boundary : p + padding recycle p = blockEnd p := by
    rcases padding_cases recycle p with ⟨none, _⟩ | ⟨_, _, boundary⟩
    · omega
    · exact boundary
  have visible : p + padding recycle p ≤ file.length := by
    have total := congrArg List.length here
    rw [length_drop, length_append, length_replicate] at total
    omega
  have held : r.buffer.length = padding recycle p := by
    rw [loaded.length]
    omega
  have buffer : r.buffer = List.replicate (padding recycle p) 0 := by
    rw [loaded.buffer_eq, here]
    apply take_left'
    rw [length_replicate]
    omega
  exact ⟨{ r with buffer := [] }, read_zeroes options file buffer wide,
    loaded.consume boundary.le visible rfl rfl (drop_eq_nil_of_le held.le).symm, rfl, rfl, rfl⟩

end VcompProof.Wal
