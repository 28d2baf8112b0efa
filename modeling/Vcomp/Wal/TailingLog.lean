import Vcomp.Wal.TailingFragment

namespace VcompProof.Wal

open VcompModel.Wal List

variable {σ : Type} {metadata : Metadata σ} {options : ReaderOptions} {file whole : Bytes} {r : FragmentBufferedReader σ}
  {recycle : Bool} {logNumber : ℕ}

variable {reader : Reader σ} {read : Physical} {result : FragmentBufferedReader σ × Option Bytes} {type : RecordType}
  {p' : ℕ}

def TailReturns (metadata : Metadata σ) (options : ReaderOptions) (file : Bytes) (r : FragmentBufferedReader σ)
    (result : FragmentBufferedReader σ × Option Bytes) : Prop :=
  ∃ enough, ∀ fuel, r.readRecord metadata options file (fuel + enough) = .ok result

def TailRoundReturns (metadata : Metadata σ) (options : ReaderOptions) (file : Bytes)
    (result : FragmentBufferedReader σ × Option Bytes) :
    TailRound σ → Prop
  | .next r => TailReturns metadata options file r result
  | .done r record => result = (r, record)

theorem readRecord_round {fuel : ℕ} (physical : r.reader.tryReadFragment options file fuel = .ok (reader, some read)) :
    r.readRecord metadata options file (fuel + 1) =
      match ({ r with reader := reader } : FragmentBufferedReader σ).switchRecord metadata read with
      | .next r => r.readRecord metadata options file fuel
      | .done r record => .ok (r, record) := by
  rw [FragmentBufferedReader.readRecord, physical]
  rfl

theorem TailReturns.round
    (physical : ∀ fuel, r.reader.tryReadFragment options file (fuel + 4) = .ok (reader, some read))
    (rest : TailRoundReturns metadata options file result
      (({ r with reader := reader } : FragmentBufferedReader σ).switchRecord metadata read)) :
    TailReturns metadata options file r result := by
  cases round : ({ r with reader := reader } : FragmentBufferedReader σ).switchRecord metadata read with
  | next r' =>
    rw [round] at rest
    obtain ⟨enough, rest⟩ := rest
    refine ⟨enough + 5, fun fuel => ?_⟩
    have again := rest (fuel + 4)
    rw [show fuel + (enough + 5) = fuel + enough + 4 + 1 by omega, readRecord_round (physical (fuel + enough)), round]
    rwa [show fuel + 4 + enough = fuel + enough + 4 by omega] at again
  | done r' record =>
    rw [round] at rest
    obtain rfl : result = (r', record) := rest
    refine ⟨5, fun fuel => ?_⟩
    rw [readRecord_round (physical fuel), round]

theorem TailReturns.stop (physical : ∀ fuel, r.reader.tryReadFragment options file (fuel + 4) = .ok (reader, none)) :
    TailReturns metadata options file r ({ r with reader := reader }, none) := by
  refine ⟨5, fun fuel => ?_⟩
  rw [FragmentBufferedReader.readRecord, physical fuel]
  rfl

def Onward (metadata : Metadata σ) (options : ReaderOptions) (file : Bytes) (r r' : FragmentBufferedReader σ) : Prop :=
  ∃ rounds, ∀ fuel, r.readRecord metadata options file (fuel + 4 + rounds) = r'.readRecord metadata options file (fuel + 4)

theorem Onward.returns {r' : FragmentBufferedReader σ}
    (onward : Onward metadata options file r r') (rest : TailReturns metadata options file r' result) :
    TailReturns metadata options file r result := by
  obtain ⟨rounds, eq⟩ := onward
  obtain ⟨enough, rest⟩ := rest
  refine ⟨enough + 4 + rounds, fun fuel => ?_⟩
  have again := rest (fuel + 4)
  rw [show fuel + 4 + enough = fuel + enough + 4 by omega] at again
  rw [show fuel + (enough + 4 + rounds) = fuel + enough + 4 + rounds by omega, eq, again]

theorem Onward.skip (idle : r.inFragmentedRecord = false) (skipped : type = .badRecord ∨ type = .oldRecord)
    (physical : ∀ fuel, r.reader.tryReadFragment options file (fuel + 4) = .ok (reader, some { type := type })) :
    Onward metadata options file r { r with reader := reader } := by
  refine ⟨1, fun fuel => ?_⟩
  have stays : FragmentBufferedReader.atBadRecord ({ r with reader := reader } : FragmentBufferedReader σ) =
    { r with reader := reader } := by
    rw [FragmentBufferedReader.atBadRecord, if_neg (by rw [idle]; exact Bool.false_ne_true)]
  rw [readRecord_round (physical fuel)]
  rcases skipped with rfl | rfl <;> (dsimp only [FragmentBufferedReader.switchRecord]; rw [stays])

section

theorem headerStart_between {p : ℕ} (le : p ≤ p') (inside : p' ≤ headerStart recycle p) :
    headerStart recycle p' = headerStart recycle p := by
  rcases padding_cases recycle p with ⟨no, _⟩ | ⟨_, small, boundary⟩
  · rw [headerStart, no] at inside
    obtain rfl : p' = p := by omega
    rfl
  · rcases lt_or_eq_of_le inside with lt | rfl
    · have eq := blockEnd_eq le (by omega)
      rw [boundary] at lt ⊢
      have close : blockEnd p - p < headerSize recycle := by
        rw [← boundary]
        unfold headerStart
        omega
      have pad : padding recycle p' = blockEnd p - p' := by
        unfold padding
        have width : kBlockSize - p' % kBlockSize = blockEnd p - p' := by
          rw [← eq]
          unfold blockEnd
          omega
        rw [width, if_pos (by omega)]
      rw [headerStart, pad]
      omega
    · rw [headerStart, padding_headerStart, add_zero]

variable {start finish : Bool} {payload more : Bytes}

theorem placed_between {p : ℕ} (le : p ≤ p') (inside : p' ≤ headerStart recycle p)
    (here : whole.drop p = placed recycle logNumber p type payload ++ more) :
    whole.drop p' = placed recycle logNumber p' type payload ++ more := by
  have eq := headerStart_between le inside
  unfold headerStart at eq inside
  unfold placed at here ⊢
  rw [show p' = p + (p' - p) by omega, ← drop_drop, here, append_assoc, append_assoc,
    drop_append_of_le_length (by rw [length_replicate]; omega), drop_replicate,
    show p + (p' - p) = p' by omega]
  congr 2
  omega

theorem drop_headerStart {p : ℕ} (here : whole.drop p = placed recycle logNumber p type payload ++ more) :
    whole.drop (headerStart recycle p) = physicalRecord logNumber type payload ++ more := by
  rw [headerStart, ← drop_drop, here, placed, append_assoc, drop_left' length_replicate]

end

theorem approach (metadata : Metadata σ) (options : ReaderOptions) {p : ℕ} {more : Bytes} (grows : file <+: whole)
    (zeroes : whole.drop p = List.replicate (padding recycle p) 0 ++ more)
    (tails : Tails file r.reader p) (idle : 0 < padding recycle p → r.inFragmentedRecord = false) :
    (∃ reader p', Tails file reader p' ∧ SameFlags r.reader reader ∧ p ≤ p' ∧ p' ≤ headerStart recycle p ∧
      padding recycle p' < kHeaderSize ∧
        Onward metadata options file r { r with reader := reader }) ∨
      ∃ reader, file.length < headerStart recycle p + kHeaderSize ∧ Tails file reader p ∧ SameFlags r.reader reader ∧
        TailReturns metadata options file r ({ r with reader := reader }, none) := by
  by_cases wide : kHeaderSize ≤ padding recycle p
  · rcases wide_trailer options grows zeroes tails wide with
      ⟨r₁, p₁, tails₁, flags, low, high, skipped⟩ | ⟨r₁, hidden, tails₁, flags, waits⟩
    · refine .inl ⟨r₁, p₁, tails₁, flags, by omega, high, ?_, ?_⟩
      · have eq := headerStart_between (by omega) high
        have size := headerSize_le recycle
        rcases padding_cases recycle p with ⟨no, _⟩ | ⟨_, small, _⟩
        · unfold kHeaderSize at wide
          omega
        · unfold headerStart at eq
          unfold kHeaderSize kRecyclableHeaderSize at *
          omega
      · exact Onward.skip (idle (by unfold kHeaderSize at wide; omega)) (.inl rfl) skipped
    · refine .inr ⟨r₁, ?_, tails₁, flags, TailReturns.stop waits⟩
      unfold headerStart
      omega
  · refine .inl ⟨r.reader, p, tails, ⟨rfl, rfl, rfl⟩, le_refl _, Nat.le_add_right _ _, not_le.mp wide, 0, fun _ => rfl⟩

section

variable {p : ℕ} {start finish : Bool} {payload more : Bytes} (grows : file <+: whole)
  (here : whole.drop p = placed recycle logNumber p (.ofFragment recycle start finish) payload ++ more)
  (fits : placedEnd recycle p payload ≤ blockEnd (headerStart recycle p))
  (tails : Tails file r.reader p) (ready : Ready recycle r.reader) (number : SameNumber recycle logNumber options)
  (idle : 0 < padding recycle p → r.inFragmentedRecord = false)
include grows here fits tails ready number idle

theorem tail_reads_fragment (visible : placedEnd recycle p payload ≤ file.length) :
    ∃ reader, Tails file reader (placedEnd recycle p payload) ∧ Marks recycle r.reader reader ∧
      (recycle = true → reader.recycled = true) ∧
      ∀ result, TailRoundReturns metadata options file result
        (({ r with reader := reader } : FragmentBufferedReader σ).switchRecord metadata
          { type := .ofFragment recycle start finish, fragment := payload }) →
        TailReturns metadata options file r result := by
  have size := headerSize_le recycle
  have zeroes : whole.drop p = List.replicate (padding recycle p) 0 ++
      (physicalRecord logNumber (.ofFragment recycle start finish) payload ++ more) := by rw [here, placed, append_assoc]
  rcases approach metadata options grows zeroes tails idle with
    ⟨r₁, p₁, tails₁, flags, low, high, narrow, onward⟩ | ⟨_, hidden, _⟩
  · have eq := headerStart_between low high
    have stop : placedEnd recycle p₁ payload = placedEnd recycle p payload := by rw [placedEnd, eq, placedEnd]
    obtain ⟨reader, tails', marks, marked, read⟩ := fragment_visible grows (drop_headerStart (placed_between low high here))
      (by rw [stop, eq]; exact fits) tails₁ (flags.ready ready) number narrow (by rw [stop]; exact visible)
    rw [stop] at tails'
    exact ⟨reader, tails', flags.marks.trans marks, marked, fun result rest => onward.returns (TailReturns.round read rest)⟩
  · unfold placedEnd at visible
    omega

theorem tail_waits_fragment (hidden : file.length < placedEnd recycle p payload) :
    ∃ reader p', Tails file reader p' ∧ p ≤ p' ∧ p' ≤ headerStart recycle p ∧ Marks recycle r.reader reader ∧
      TailReturns metadata options file r ({ r with reader := reader }, none) := by
  have zeroes : whole.drop p = List.replicate (padding recycle p) 0 ++
      (physicalRecord logNumber (.ofFragment recycle start finish) payload ++ more) := by rw [here, placed, append_assoc]
  rcases approach metadata options grows zeroes tails idle with
    ⟨r₁, p₁, tails₁, flags, low, high, narrow, onward⟩ | ⟨r₁, _, tails₁, flags, stopped⟩
  · have eq := headerStart_between low high
    have stop : placedEnd recycle p₁ payload = placedEnd recycle p payload := by rw [placedEnd, eq, placedEnd]
    obtain ⟨reader, p', tails', place, marks, waits⟩ := fragment_hidden grows (drop_headerStart (placed_between low high here))
      (by rw [stop, eq]; exact fits) tails₁ (flags.ready ready) number narrow (by rw [stop]; exact hidden)
    refine ⟨reader, p', tails', ?_, ?_, flags.marks.trans marks, onward.returns (TailReturns.stop waits)⟩
    · rcases place with rfl | rfl
      · exact low
      · rw [eq]
        omega
    · rcases place with rfl | rfl
      · exact high
      · exact eq.le
  · exact ⟨r₁, p, tails₁, le_refl _, Nat.le_add_right _ _, flags.marks, stopped⟩

end

variable {start : Bool} {stop : ℕ} {left bytes : Bytes} {record : Bytes}

/-- No record is open before the start of one. -/
def TailOpen (start : Bool) (r : FragmentBufferedReader σ) : Prop :=
  r.inFragmentedRecord = !start ∧ (start = true → r.fragments = [])

def FragmentBufferedReader.before (start : Bool) (r : FragmentBufferedReader σ) : Bytes := if start then [] else r.fragments

theorem TailOpen.idle {p : ℕ} (opened : TailOpen start r) (inside : start = false → p % kBlockSize = 0)
    (some : 0 < padding recycle p) : r.inFragmentedRecord = false := by
  cases start with
  | true => exact opened.1
  | false =>
    rw [padding_of_start (inside rfl)] at some
    omega

theorem tailSwitch_last (opened : TailOpen start r) (reader : Reader σ) (payload : Bytes) :
    ({ r with reader := reader } : FragmentBufferedReader σ).switchRecord metadata
        { type := .ofFragment recycle start true, fragment := payload } =
      .done ⟨{ reader with firstRecordRead := true }, false, []⟩
        (some (FragmentBufferedReader.before start r ++ payload)) := by
  obtain ⟨opened, -⟩ := opened
  cases start <;> cases recycle <;>
    simp [FragmentBufferedReader.switchRecord, RecordType.ofFragment, FragmentBufferedReader.before, opened]

theorem tailSwitch_more (opened : TailOpen start r) (reader : Reader σ) (payload : Bytes) :
    ({ r with reader := reader } : FragmentBufferedReader σ).switchRecord metadata
        { type := .ofFragment recycle start false, fragment := payload } =
      .next ⟨reader, true, FragmentBufferedReader.before start r ++ payload⟩ := by
  obtain ⟨opened, empty⟩ := opened
  cases start <;> cases recycle <;>
    simp_all [FragmentBufferedReader.switchRecord, RecordType.ofFragment, FragmentBufferedReader.before]

theorem fragments_le {p : ℕ} (fragments : Fragments recycle logNumber start p left bytes stop) : p ≤ stop := by
  induction fragments with
  | last fits => unfold placedEnd headerStart; omega
  | more fills later ih => unfold placedEnd headerStart at ih; omega

theorem fragments_between {p : ℕ} {more : Bytes}
    (fragments : Fragments recycle logNumber start p left bytes stop) (le : p ≤ p') (inside : p' ≤ headerStart recycle p)
    (here : whole.drop p = bytes ++ more) :
    ∃ bytes', Fragments recycle logNumber start p' left bytes' stop ∧ whole.drop p' = bytes' ++ more := by
  have eq := headerStart_between le inside
  cases fragments with
  | last fits =>
    have stop : placedEnd recycle p' left = placedEnd recycle p left := by rw [placedEnd, eq, placedEnd]
    refine ⟨_, stop ▸ .last (by rw [stop, eq]; exact fits), placed_between le inside here⟩
  | @more _ _ payload rest bytes _ fills later =>
    have stop : placedEnd recycle p' payload = placedEnd recycle p payload := by rw [placedEnd, eq, placedEnd]
    rw [append_assoc] at here
    refine ⟨_, .more (by rw [stop, eq]; exact fills) (by rw [stop]; exact later), ?_⟩
    rw [append_assoc]
    exact placed_between le inside here

/-- Somewhere in the fragments of a record, with `more` after it. -/
inductive Pending (recycle : Bool) (logNumber : ℕ) (whole file : Bytes) (r : FragmentBufferedReader σ)
    (record : Bytes) (stop : ℕ) (more : Bytes) : Prop where
  | mk {start : Bool} {p : ℕ} {left bytes : Bytes} (fragments : Fragments recycle logNumber start p left bytes stop)
    (tails : Tails file r.reader p) (ready : Ready recycle r.reader) (opened : TailOpen start r)
    (inside : start = false → p % kBlockSize = 0) (here : whole.drop p = bytes ++ more)
    (content : FragmentBufferedReader.before start r ++ left = record)

theorem Pending.grow {later more : Bytes} (pending : Pending recycle logNumber whole file r record stop more)
    (grows : file <+: later) : Pending recycle logNumber whole later r record stop more := by
  obtain ⟨fragments, tails, ready, opened, inside, here, content⟩ := pending
  exact .mk fragments (tails.grow grows) ready opened inside here content

theorem pending_between {more : Bytes} {p : ℕ} {reader : Reader σ}
    (fragments : Fragments recycle logNumber start p left bytes stop)
    (low : p ≤ p') (high : p' ≤ headerStart recycle p) (tails : Tails file reader p') (ready : Ready recycle reader)
    (opened : TailOpen start r) (inside : start = false → p % kBlockSize = 0) (here : whole.drop p = bytes ++ more) :
    Pending recycle logNumber whole file { r with reader := reader }
      (FragmentBufferedReader.before start r ++ left) stop more := by
  obtain ⟨bytes', fragments', here'⟩ := fragments_between fragments low high here
  refine .mk fragments' tails ready opened ?_ here' rfl
  intro mid
  have start := inside mid
  rw [headerStart, padding_of_start start] at high
  rwa [show p' = p by omega]

variable (metadata) in
/-- A call gives the record once all of it is there; until then the reader waits somewhere in its fragments. -/
theorem Pending.round {more : Bytes} (pending : Pending recycle logNumber whole file r record stop more)
    (grows : file <+: whole) (number : SameNumber recycle logNumber options) :
    ∃ r', r'.reader.reports = r.reader.reports ∧
      (TailReturns metadata options file r (r', some record) ∧ stop ≤ file.length ∧ Tails file r'.reader stop ∧
          Ready recycle r'.reader ∧ TailOpen true r' ∨
        TailReturns metadata options file r (r', none) ∧ file.length < stop ∧
          Pending recycle logNumber whole file r' record stop more) := by
  obtain ⟨fragments, tails, ready, opened, inside, here, rfl⟩ := pending
  induction fragments generalizing r with
  | @last start p left fits =>
    rcases le_or_gt (placedEnd recycle p left) file.length with visible | hidden
    · obtain ⟨reader, tails', marks, marked, rest⟩ :=
        tail_reads_fragment grows here fits tails ready number (opened.idle inside) visible
      refine ⟨⟨{ reader with firstRecordRead := true }, false, []⟩, marks.reports,
        .inl ⟨rest _ ?_, visible, tails'.congr rfl rfl rfl rfl, fun on _ => marked on, rfl, fun _ => rfl⟩⟩
      rw [tailSwitch_last opened]
      rfl
    · obtain ⟨reader, p', tails', low, high, marks, returns⟩ :=
        tail_waits_fragment grows here fits tails ready number (opened.idle inside) hidden
      exact ⟨{ r with reader := reader }, marks.reports,
        .inr ⟨returns, hidden, pending_between (.last fits) low high tails' (marks.ready ready) opened inside here⟩⟩
  | @more start p payload left bytes stop fills later ih =>
    have split := here
    rw [append_assoc] at split
    rcases le_or_gt (placedEnd recycle p payload) file.length with visible | hidden
    · obtain ⟨reader, tails', marks, marked, rest⟩ :=
        tail_reads_fragment grows split fills.le tails ready number (opened.idle inside) visible
      have next : whole.drop (placedEnd recycle p payload) = bytes ++ more := by
        rw [← length_placed, ← drop_drop, split, drop_left]
      let r₁ : FragmentBufferedReader σ := ⟨reader, true, FragmentBufferedReader.before start r ++ payload⟩
      have onward : ∀ {result}, TailReturns metadata options file r₁ result → TailReturns metadata options file r result := by
        intro result returns
        apply rest
        rw [tailSwitch_more opened]
        exact returns
      obtain ⟨r', reports, outcome⟩ := ih (r := r₁) tails' (fun on _ => marked on) ⟨rfl, Bool.noConfusion⟩
        (fun _ => by rw [fills, blockEnd_mod]) next
      rw [← append_assoc]
      exact ⟨r', reports.trans marks.reports, outcome.imp (.imp_left onward) (.imp_left onward)⟩
    · obtain ⟨reader, p', tails', low, high, marks, returns⟩ :=
        tail_waits_fragment grows split fills.le tails ready number (opened.idle inside) hidden
      exact ⟨{ r with reader := reader }, marks.reports, .inr ⟨returns, hidden.trans_le (fragments_le later),
        pending_between (.more fills later) low high tails' (marks.ready ready) opened inside here⟩⟩

end VcompProof.Wal
