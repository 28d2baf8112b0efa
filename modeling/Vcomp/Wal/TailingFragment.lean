import Vcomp.Wal.Refill

namespace VcompProof.Wal

open VcompModel.Wal List

variable {σ : Type} {options : ReaderOptions} {file whole : Bytes} {r : Reader σ} {p : ℕ}
  {recycle start finish : Bool} {logNumber : ℕ} {payload more : Bytes}

theorem Tails.buffer_eq (tails : Tails file r p) (grows : file <+: whole) :
    r.buffer = (whole.drop p).take (r.position - p) := by
  obtain ⟨rest, rfl⟩ := grows
  have read : (file ++ rest).take r.position = file.take r.position := take_append_of_le_length tails.visible
  rw [tails.buffer, ← read, drop_take]

theorem headerLogNumber_take {k : ℕ} (header : Bytes) (le : kRecyclableHeaderSize ≤ k) :
    headerLogNumber (header.take k) = headerLogNumber header := by
  unfold headerLogNumber
  rw [drop_take, take_take, min_eq_left (by unfold kRecyclableHeaderSize at le; omega)]

section

variable (grows : file <+: whole)
  (here : whole.drop p = physicalRecord logNumber (.ofFragment recycle start finish) payload ++ more)
include grows here

variable (tails : Tails file r p)
include tails

variable (held : p + kHeaderSize ≤ r.position)
include held

theorem Tails.headerType_eq : headerType r.buffer = .ofFragment recycle start finish := by
  rw [tails.buffer_eq grows, here, headerType_take _ (by omega), headerType_physicalRecord]

theorem Tails.headerLength_eq (small : payload.length < 65536) : headerLength r.buffer = payload.length := by
  rw [tails.buffer_eq grows, here, headerLength_take _ (by omega), headerLength_physicalRecord small]

variable (fits : p + (headerSize recycle + payload.length) ≤ blockEnd p)
include fits

theorem tryReadBody_visible (visible : p + (headerSize recycle + payload.length) ≤ file.length) :
    ∃ r', Tails file r' (p + (headerSize recycle + payload.length)) ∧ SameFlags r r' ∧
      ∀ fuel, r.tryReadBody options file (fuel + 2) (headerSize recycle) =
        .ok (r', some { type := .ofFragment recycle start finish, fragment := payload }) := by
  have small : payload.length < 65536 := by
    unfold blockEnd kBlockSize at fits
    omega
  have type := tails.headerType_eq grows here held
  have length := tails.headerLength_eq grows here held small
  obtain ⟨r₁, tails₁, flags, held₁, refilled⟩ :=
    refill_visible tails (tails.inBlock (by unfold kHeaderSize at held; omega)) fits visible
  obtain ⟨rest, buffer⟩ : ∃ rest, r₁.buffer = physicalRecord logNumber (.ofFragment recycle start finish) payload ++ rest := by
    refine ⟨more.take (r₁.position - p - (headerSize recycle + payload.length)), ?_⟩
    rw [tails₁.buffer_eq grows, here, take_append, length_physicalRecord, take_of_length_le]
    rw [length_physicalRecord]
    omega
  refine ⟨{ r₁ with buffer := r₁.buffer.drop (headerSize recycle + payload.length) }, tails₁.consume held₁ rfl rfl rfl rfl,
    { flags with }, fun fuel => ?_⟩
  unfold Reader.tryReadBody
  dsimp only
  rw [type, length, refilled]
  dsimp only [Bind.bind, Except.bind]
  rw [if_neg (fun zero => ofFragment_ne_zero recycle start finish zero.1), buffer, checksumMatches_physicalRecord,
    if_neg (fun bad => bad.2 rfl), payload_physicalRecord]

theorem tryReadBody_hidden (hidden : file.length < p + (headerSize recycle + payload.length)) :
    ∃ r', Tails file r' p ∧ SameFlags r r' ∧ ∀ fuel, r.tryReadBody options file (fuel + 2) (headerSize recycle) =
      .ok (r', none) := by
  have small : payload.length < 65536 := by
    unfold blockEnd kBlockSize at fits
    omega
  have length := tails.headerLength_eq grows here held small
  obtain ⟨r₁, tails₁, flags, refilled⟩ :=
    refill_hidden tails (tails.inBlock (by unfold kHeaderSize at held; omega)) fits hidden
  refine ⟨r₁, tails₁, flags, fun fuel => ?_⟩
  unfold Reader.tryReadBody
  dsimp only
  rw [length, refilled]
  rfl

end

section

/-- What a fragment step keeps: the first recyclable header marks the log as recycled. -/
structure Marks (recycle : Bool) (r r' : Reader σ) : Prop where
  recycled : r'.recycled = r.recycled ∨ recycle = true ∧ r'.recycled = true
  firstRecordRead : r'.firstRecordRead = r.firstRecordRead
  reports : r'.reports = r.reports

theorem SameFlags.marks {r' : Reader σ} (flags : SameFlags r r') : Marks recycle r r' :=
  ⟨.inl flags.recycled, flags.firstRecordRead, flags.reports⟩

theorem Marks.ready {r' : Reader σ} (marks : Marks recycle r r') (ready : Ready recycle r) : Ready recycle r' := by
  intro on read
  rcases marks.recycled with eq | ⟨-, marked⟩
  · rw [eq]
    exact ready on (marks.firstRecordRead ▸ read)
  · exact marked

theorem Marks.trans {r₁ r₂ r₃ : Reader σ} (first : Marks recycle r₁ r₂) (second : Marks recycle r₂ r₃) :
    Marks recycle r₁ r₃ := by
  refine ⟨?_, second.firstRecordRead.trans first.firstRecordRead, second.reports.trans first.reports⟩
  rcases second.recycled with eq | marked
  · rw [eq]
    exact first.recycled
  · exact .inr marked

variable (options)

/-- The header is not there yet, or it was read and, in a recycled log, names its log. -/
theorem tryReadFragment_header (tails : Tails file r p) (ready : Ready recycle r) (narrow : padding recycle p < kHeaderSize)
    (kind : ∀ r' : Reader σ, Tails file r' (headerStart recycle p) → headerStart recycle p + kHeaderSize ≤ r'.position →
      (headerType r'.buffer).isRecyclable = recycle) :
    ∃ r' p', Tails file r' p' ∧ (p' = p ∨ p' = headerStart recycle p) ∧ Marks recycle r r' ∧
      if file.length < headerStart recycle p + headerSize recycle then
        ∀ fuel, r.tryReadFragment options file (fuel + 4) = .ok (r', none)
      else p' = headerStart recycle p ∧ (recycle = true → r'.recycled = true) ∧ p' + headerSize recycle ≤ r'.position ∧
        ∀ fuel, r.tryReadFragment options file (fuel + 4) =
          if recycle = true ∧ headerLogNumber r'.buffer ≠ options.logNumber then .ok (r', some { type := .oldRecord })
          else r'.tryReadBody options file (fuel + 4) (headerSize recycle) := by
  obtain ⟨r₁, p', isReady, tails₁, flags₁, place, held, hidden, refilled⟩ := await_header tails narrow
  cases isReady with
  | false =>
    refine ⟨r₁, p', tails₁, place, flags₁.marks, ?_⟩
    rw [if_pos ((hidden rfl).trans_le (Nat.add_le_add_left ((headerSize_le recycle).1) _))]
    intro fuel
    obtain ⟨answer, is, first⟩ := refilled fuel
    obtain rfl : answer = none := Option.isSome_eq_false_iff.mp is |> Option.isNone_iff_eq_none.mp
    unfold Reader.tryReadFragment
    rw [first]
    rfl
  | true =>
    obtain ⟨rfl, held₁⟩ := held rfl
    have type := kind r₁ tails₁ held₁
    cases recycle with
    | false =>
      refine ⟨r₁, _, tails₁, place, flags₁.marks, ?_⟩
      have whole : headerStart false p + headerSize false ≤ file.length := held₁.trans tails₁.visible
      rw [if_neg (not_lt.mpr whole)]
      refine ⟨rfl, Bool.noConfusion, held₁, fun fuel => ?_⟩
      obtain ⟨answer, is, first⟩ := refilled fuel
      obtain ⟨replaced, rfl⟩ := Option.isSome_iff_exists.mp is
      unfold Reader.tryReadFragment
      rw [first]
      dsimp only [Bind.bind, Except.bind]
      rw [type, if_neg Bool.false_ne_true, if_neg (fun bad => Bool.false_ne_true bad.1)]
      rfl
    | true =>
      let r₂ : Reader σ := { r₁ with recycled := true }
      have tails₂ : Tails file r₂ (headerStart true p) := tails₁.congr rfl rfl rfl rfl
      have inBlock : InBlock r₂ (headerStart true p) :=
        tails₂.inBlock (by unfold kHeaderSize at held₁; change _ < r₁.position; omega)
      have marks : ∀ r₃, SameFlags r₂ r₃ → Marks true r r₃ := fun r₃ flags₃ =>
        ⟨.inr ⟨rfl, flags₃.recycled⟩, flags₃.firstRecordRead.trans flags₁.firstRecordRead, flags₃.reports.trans flags₁.reports⟩
      have opened : ∀ fuel, ∃ next, r.tryReadFragment options file (fuel + 4) =
          r₂.refill file (headerSize true) (fuel + 4) false >>= next ∧ (∀ r, next (r, none) = .ok (r, none)) ∧
          ∀ r, next (r, some false) =
            if headerLogNumber r.buffer ≠ options.logNumber then .ok (r, some { type := .oldRecord })
            else r.tryReadBody options file (fuel + 4) kRecyclableHeaderSize := by
        intro fuel
        obtain ⟨answer, is, first⟩ := refilled fuel
        obtain ⟨replaced, rfl⟩ := Option.isSome_iff_exists.mp is
        unfold Reader.tryReadFragment
        rw [first]
        dsimp only [Bind.bind, Except.bind]
        rw [type, if_pos rfl, if_neg (fun bad => bad.2 (flags₁.ready ready rfl bad.1))]
        exact ⟨_, rfl, fun _ => rfl, fun _ => rfl⟩
      split_ifs with missing
      · obtain ⟨r₃, tails₃, flags₃, refilled₃⟩ := refill_hidden tails₂ inBlock (headerStart_room true p) missing
        refine ⟨r₃, _, tails₃, place, marks r₃ flags₃, fun fuel => ?_⟩
        obtain ⟨next, goes, hidden, -⟩ := opened fuel
        rw [goes, refilled₃ (fuel + 2) false]
        exact hidden r₃
      · obtain ⟨r₃, tails₃, flags₃, held₃, refilled₃⟩ :=
          refill_visible tails₂ inBlock (headerStart_room true p) (not_lt.mp missing)
        refine ⟨r₃, _, tails₃, place, marks r₃ flags₃, rfl, fun _ => flags₃.recycled, held₃, fun fuel => ?_⟩
        obtain ⟨next, goes, -, whole⟩ := opened fuel
        rw [goes, refilled₃ (fuel + 2) false]
        simp only [true_and]
        exact whole r₃

variable {options}

section

variable (grows : file <+: whole)
  (here : whole.drop (headerStart recycle p) = physicalRecord logNumber (.ofFragment recycle start finish) payload ++ more)
include grows here

theorem fragment_header (tails : Tails file r p) (ready : Ready recycle r) (number : SameNumber recycle logNumber options)
    (narrow : padding recycle p < kHeaderSize) :
    ∃ r' p', Tails file r' p' ∧ (p' = p ∨ p' = headerStart recycle p) ∧ Marks recycle r r' ∧
      if file.length < headerStart recycle p + headerSize recycle then
        ∀ fuel, r.tryReadFragment options file (fuel + 4) = .ok (r', none)
      else p' = headerStart recycle p ∧ (recycle = true → r'.recycled = true) ∧ p' + kHeaderSize ≤ r'.position ∧
        ∀ fuel, r.tryReadFragment options file (fuel + 4) = r'.tryReadBody options file (fuel + 4) (headerSize recycle) := by
  obtain ⟨r', p', tails', place, marks, read⟩ := tryReadFragment_header options tails ready narrow
    fun r' tails' held' => by rw [tails'.headerType_eq grows here held', isRecyclable_ofFragment]
  refine ⟨r', p', tails', place, marks, ?_⟩
  by_cases missing : file.length < headerStart recycle p + headerSize recycle
  · rw [if_pos missing] at read ⊢
    exact read
  · rw [if_neg missing] at read ⊢
    obtain ⟨rfl, marked, held, read⟩ := read
    refine ⟨rfl, marked, (Nat.add_le_add_left ((headerSize_le recycle).1) _).trans held, fun fuel => ?_⟩
    rw [read, if_neg]
    rintro ⟨rfl, differs⟩
    apply differs
    rw [tails'.buffer_eq grows, here, headerLogNumber_take _ (by change _ + kRecyclableHeaderSize ≤ _ at held; omega),
      headerLogNumber_physicalRecord (number rfl).2, (number rfl).1]

variable (fits : placedEnd recycle p payload ≤ blockEnd (headerStart recycle p))
include fits

theorem fragment_visible (tails : Tails file r p) (ready : Ready recycle r) (number : SameNumber recycle logNumber options)
    (narrow : padding recycle p < kHeaderSize) (visible : placedEnd recycle p payload ≤ file.length) :
    ∃ r', Tails file r' (placedEnd recycle p payload) ∧ Marks recycle r r' ∧ (recycle = true → r'.recycled = true) ∧
      ∀ fuel, r.tryReadFragment options file (fuel + 4) =
        .ok (r', some { type := .ofFragment recycle start finish, fragment := payload }) := by
  unfold placedEnd at fits visible ⊢
  rw [add_assoc] at fits visible ⊢
  obtain ⟨r₁, p', tails₁, -, marks, first⟩ := fragment_header grows here tails ready number narrow
  rw [if_neg (by omega)] at first
  obtain ⟨rfl, marked, held, first⟩ := first
  obtain ⟨r', tails', flags, second⟩ : ∃ r', Tails file r' _ ∧ SameFlags r₁ r' ∧
      ∀ fuel, r₁.tryReadBody options file (fuel + 2) (headerSize recycle) =
        .ok (r', some { type := .ofFragment recycle start finish, fragment := payload }) :=
    tryReadBody_visible grows here tails₁ held fits visible
  refine ⟨r', tails', marks.trans flags.marks, fun on => flags.recycled.trans (marked on), fun fuel => ?_⟩
  rw [first, second (fuel + 2)]

theorem fragment_hidden (tails : Tails file r p) (ready : Ready recycle r) (number : SameNumber recycle logNumber options)
    (narrow : padding recycle p < kHeaderSize) (hidden : file.length < placedEnd recycle p payload) :
    ∃ r' p', Tails file r' p' ∧ (p' = p ∨ p' = headerStart recycle p) ∧ Marks recycle r r' ∧
      ∀ fuel, r.tryReadFragment options file (fuel + 4) = .ok (r', none) := by
  unfold placedEnd at fits hidden
  rw [add_assoc] at fits hidden
  obtain ⟨r₁, p', tails₁, place, marks, first⟩ := fragment_header grows here tails ready number narrow
  split_ifs at first
  · exact ⟨r₁, p', tails₁, place, marks, first⟩
  · obtain ⟨rfl, -, held, first⟩ := first
    obtain ⟨r', tails', flags, second⟩ : ∃ r', Tails file r' _ ∧ SameFlags r₁ r' ∧
        ∀ fuel, r₁.tryReadBody options file (fuel + 2) (headerSize recycle) = .ok (r', none) :=
      tryReadBody_hidden grows here tails₁ held fits hidden
    refine ⟨r', _, tails', .inr rfl, marks.trans flags.marks, fun fuel => ?_⟩
    rw [first, second (fuel + 2)]

end

theorem wide_trailer (options : ReaderOptions) (grows : file <+: whole)
    (zeroes : whole.drop p = List.replicate (padding recycle p) 0 ++ more)
    (tails : Tails file r p) (wide : kHeaderSize ≤ padding recycle p) :
    (∃ r' p', Tails file r' p' ∧ SameFlags r r' ∧ p + kHeaderSize ≤ p' ∧ p' ≤ headerStart recycle p ∧
        ∀ fuel, r.tryReadFragment options file (fuel + 4) = .ok (r', some { type := .badRecord })) ∨
      ∃ r', file.length < p + kHeaderSize ∧ Tails file r' p ∧ SameFlags r r' ∧
        ∀ fuel, r.tryReadFragment options file (fuel + 4) = .ok (r', none) := by
  have boundary : headerStart recycle p = blockEnd p := by
    rcases padding_cases recycle p with ⟨no, _⟩ | ⟨_, _, boundary⟩
    · unfold kHeaderSize at wide
      omega
    · exact boundary
  have width : p + padding recycle p = blockEnd p := boundary
  have inBlock : InBlock r p := by
    rcases tails.reached with ⟨eof, -, -⟩ | ⟨-, ended⟩ | ⟨-, -, start⟩
    · exact .inl eof
    · exact .inr ended
    · rw [padding_of_start start] at wide
      unfold kHeaderSize at wide
      omega
  by_cases visible : p + kHeaderSize ≤ file.length
  · obtain ⟨r₁, tails₁, flags, held, refilled⟩ := refill_visible tails inBlock (by omega) visible
    have reach : r₁.position ≤ blockEnd p := by
      rcases tails₁.reached with ⟨-, lt, -⟩ | ⟨-, ended⟩ | ⟨-, at_p, -⟩ <;> omega
    have buffer : r₁.buffer = List.replicate (r₁.position - p) 0 := by
      rw [tails₁.buffer_eq grows, zeroes, take_append_of_le_length (by rw [length_replicate]; omega), take_replicate]
      congr 1
      omega
    obtain ⟨m, count⟩ : ∃ m, r₁.position - p = m + 7 := ⟨r₁.position - p - 7, by unfold kHeaderSize at held; omega⟩
    rw [count] at buffer
    have type : headerType r₁.buffer = .zero := by rw [buffer]; rfl
    have length : headerLength r₁.buffer = 0 := by rw [buffer]; rfl
    have all : r₁.buffer.length = r₁.position - p := tails₁.length
    refine .inl ⟨{ r₁ with buffer := [] }, p + (r₁.position - p), ?_, { flags with },
      by omega, by omega, fun fuel => ?_⟩
    · exact tails₁.consume (by omega) (drop_eq_nil_of_le all.le).symm rfl rfl rfl
    · unfold Reader.tryReadFragment
      rw [refilled (fuel + 2)]
      dsimp only [Bind.bind, Except.bind]
      rw [type, if_neg (by decide)]
      unfold Reader.tryReadBody
      dsimp only
      rw [type, length, refill_done (by unfold kHeaderSize at held ⊢; omega)]
      dsimp only [Bind.bind, Except.bind]
      rw [if_pos ⟨rfl, rfl⟩]
  · obtain ⟨r₁, tails₁, flags, refilled⟩ := refill_hidden tails inBlock (by omega) (not_le.mp visible)
    refine .inr ⟨r₁, not_le.mp visible, tails₁, flags, fun fuel => ?_⟩
    unfold Reader.tryReadFragment
    rw [refilled (fuel + 2)]
    rfl

end

end VcompProof.Wal
