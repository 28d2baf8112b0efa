import Vcomp.Wal.Physical

namespace VcompModel.Wal

def Reader.readAll {σ : Type} (metadata : Metadata σ) (mode : WalRecoveryMode) (options : ReaderOptions)
    (file : Bytes) (fuel : ℕ) :
    (calls : ℕ) → Reader σ → Option (Reader σ × List Bytes)
  | 0, _ => none
  | calls + 1, r =>
    match r.readRecord metadata mode options file fuel with
    | none => none
    | some (r, none) => some (r, [])
    | some (r, some record) =>
      (Reader.readAll metadata mode options file fuel calls r).map fun (r, records) => (r, record :: records)

def Writer.recordsWithin (m : ℕ) : Writer → List Bytes → List Bytes
  | _, [] => []
  | w, record :: records =>
    if (w.addRecord record).dest.length ≤ m then record :: Writer.recordsWithin m (w.addRecord record) records else []

def ReadsExactly {σ : Type} (metadata : Metadata σ) (mode : WalRecoveryMode) (options : ReaderOptions)
    (file : Bytes) (state : σ) (records : List Bytes) : Prop :=
  ∃ (r : Reader σ) (enough : ℕ), r.reports = [] ∧ ∀ fuel calls,
    Reader.readAll metadata mode options file (fuel + enough) (calls + enough) { metadata := state } = some (r, records)

end VcompModel.Wal

namespace VcompProof.Wal

open VcompModel.Wal List

variable {σ : Type} {metadata : Metadata σ} {mode : WalRecoveryMode} {options : ReaderOptions} {file : Bytes}
  {recycle : Bool} {logNumber : ℕ} {r' : Reader σ} {read : Physical}

section

variable {r : Reader σ} {scratch : Scratch} {p : ℕ} {result : Reader σ × Option Bytes}

/-- The call returns this, with any fuel that is enough. -/
def Returns (metadata : Metadata σ) (mode : WalRecoveryMode) (options : ReaderOptions) (file : Bytes) (r : Reader σ)
    (scratch : Scratch) (result : Reader σ × Option Bytes) : Prop :=
  ∃ enough, ∀ fuel, r.readLoop metadata mode options file (fuel + enough) scratch = some result

def RoundReturns (metadata : Metadata σ) (mode : WalRecoveryMode) (options : ReaderOptions) (file : Bytes)
    (result : Reader σ × Option Bytes) :
    Round σ → Prop
  | .next r scratch => Returns metadata mode options file r scratch result
  | .done r record => result = (r, record)

theorem Returns.round (physical : ∀ fuel, r.readPhysicalRecord options file (fuel + 2) = some (r', read))
    (rest : RoundReturns metadata mode options file result (r'.switchRecord metadata mode scratch read)) :
    Returns metadata mode options file r scratch result := by
  cases round : r'.switchRecord metadata mode scratch read with
  | next r'' scratch' =>
    rw [round] at rest
    obtain ⟨enough, rest⟩ := rest
    refine ⟨enough + 3, fun fuel => ?_⟩
    have again := rest (fuel + 2)
    rw [show fuel + (enough + 3) = fuel + enough + 2 + 1 by omega, Reader.readLoop, physical]
    dsimp only
    rw [round]
    rwa [show fuel + 2 + enough = fuel + enough + 2 by omega] at again
  | done r'' record =>
    rw [round] at rest
    obtain rfl : result = (r'', record) := rest
    refine ⟨3, fun fuel => ?_⟩
    rw [Reader.readLoop, physical]
    dsimp only
    rw [round]

theorem Returns.skip (idle : scratch.inFragmentedRecord = false)
    (physical : ∀ fuel, r.readPhysicalRecord options file (fuel + 2) = some (r', { type := .badRecord }))
    (rest : Returns metadata mode options file r' scratch result) : Returns metadata mode options file r scratch result := by
  apply Returns.round physical
  change RoundReturns metadata mode options file result (r'.atBadRecord scratch)
  rw [Reader.atBadRecord, idle, if_neg Bool.false_ne_true]
  exact rest

end

section

variable {r : Reader σ} {scratch : Scratch} {p : ℕ} {start finish : Bool} {payload more : Bytes}

theorem At.to_header (metadata : Metadata σ) (mode : WalRecoveryMode) (options : ReaderOptions) (at_p : At file r p)
    (ready : Ready recycle r) (idle : 0 < padding recycle p → scratch.inFragmentedRecord = false)
    (here : file.drop p = List.replicate (padding recycle p) 0 ++ more) (visible : headerStart recycle p ≤ file.length) :
    ∃ r₁, Loaded file r₁ (headerStart recycle p) ∧ Ready recycle r₁ ∧ r₁.reports = r.reports ∧
      ∀ r' read result, (∀ fuel, r₁.readPhysicalRecord options file (fuel + 1) = some (r', read)) →
        RoundReturns metadata mode options file result (r'.switchRecord metadata mode scratch read) →
        Returns metadata mode options file r scratch result := by
  by_cases wide : kHeaderSize ≤ padding recycle p
  · obtain ⟨r₁, skipped, at_r₁, flags₁⟩ := at_p.skip_trailer options wide here
    have none : padding recycle (headerStart recycle p) = 0 := padding_headerStart recycle p
    have eq : headerStart recycle (headerStart recycle p) = headerStart recycle p := by rw [headerStart, none, add_zero]
    have small : padding recycle (headerStart recycle p) < kHeaderSize := by rw [none]; decide
    obtain ⟨r₂, loaded, flags₂, first⟩ := at_r₁.load options small (eq.le.trans visible)
    rw [eq] at loaded
    refine ⟨r₂, loaded, flags₂.ready (flags₁.ready ready), flags₂.reports.trans flags₁.reports,
      fun r' read result second rest => ?_⟩
    apply Returns.skip (idle (by unfold kHeaderSize at wide; omega)) (fun fuel => skipped (fuel + 1))
    exact Returns.round (fun fuel => by obtain ⟨fuel', eq⟩ := first fuel; rw [eq, second]) rest
  · obtain ⟨r₁, loaded, flags, first⟩ := at_p.load options (not_le.mp wide) visible
    refine ⟨r₁, loaded, flags.ready ready, flags.reports, fun r' read result second rest => ?_⟩
    exact Returns.round (fun fuel => by obtain ⟨fuel', eq⟩ := first fuel; rw [eq, second]) rest

theorem reads_fragment (at_p : At file r p) (ready : Ready recycle r) (number : SameNumber recycle logNumber options)
    (idle : 0 < padding recycle p → scratch.inFragmentedRecord = false)
    (here : file.drop p = placed recycle logNumber p (.ofFragment recycle start finish) payload ++ more)
    (fits : placedEnd recycle p payload ≤ blockEnd (headerStart recycle p)) :
    ∃ r', At file r' (placedEnd recycle p payload) ∧ (recycle = true → r'.recycled = true) ∧ r'.reports = r.reports ∧
      ∀ result, RoundReturns metadata mode options file result
        (r'.switchRecord metadata mode scratch { type := .ofFragment recycle start finish, fragment := payload }) →
        Returns metadata mode options file r scratch result := by
  have visible : headerStart recycle p ≤ file.length := by
    have total := congrArg List.length here
    have le := at_p.le
    rw [placed, length_drop, length_append, length_append, length_replicate, length_physicalRecord] at total
    have size := headerSize_le recycle
    unfold headerStart
    omega
  rw [placed, append_assoc] at here
  have header : file.drop (headerStart recycle p) =
      physicalRecord logNumber (.ofFragment recycle start finish) payload ++ more := by
    rw [headerStart, ← drop_drop, here, drop_left' length_replicate]
  unfold placedEnd at fits ⊢
  rw [add_assoc] at fits ⊢
  obtain ⟨r₁, loaded, ready₁, reports₁, reach⟩ := at_p.to_header metadata mode options ready idle here visible
  obtain ⟨r', read, at_r', recycled, -, reports⟩ := loaded.read_fragment ready₁ number header fits
  refine ⟨r', at_r', ?_, reports.trans reports₁, fun result => reach r' _ result read⟩
  intro on
  rw [recycled, on, Bool.true_or]

theorem Truncated.done (truncated : Truncated r read) :
    r.switchRecord metadata .tolerateCorruptedTailRecords scratch read = .done r none := by
  unfold Reader.switchRecord
  rcases truncated with header | ended | ⟨body, eof⟩
  · rw [header]
    simp [Reader.atEof, WalRecoveryMode.reportsTail]
  · rw [ended]
    simp [Reader.atEof, WalRecoveryMode.reportsTail]
  · rw [body]
    simp [eof, WalRecoveryMode.reportsTail]

theorem truncated_fragment (at_p : At file r p) (ready : Ready recycle r)
    (idle : 0 < padding recycle p → scratch.inFragmentedRecord = false) {k : ℕ}
    (here : file.drop p = (placed recycle logNumber p (.ofFragment recycle start finish) payload).take k)
    (cut : k < (placed recycle logNumber p (.ofFragment recycle start finish) payload).length)
    (fits : placedEnd recycle p payload ≤ blockEnd (headerStart recycle p)) :
    ∃ r', r'.reports = r.reports ∧ Returns metadata .tolerateCorruptedTailRecords options file r scratch (r', none) := by
  have total : file.length = p + k := by
    have length := congrArg List.length here
    have le := at_p.le
    rw [length_drop, length_take] at length
    omega
  have ends (r : Reader σ) (short : r.buffer.length < kHeaderSize) (eof : r.eof = true) :
      ∃ r', r'.reports = r.reports ∧ Returns metadata .tolerateCorruptedTailRecords options file r scratch (r', none) := by
    obtain ⟨r', read, physical, reports, truncated⟩ := read_short short eof
    refine ⟨r', reports, Returns.round (fun fuel => physical (fuel + 1)) ?_⟩
    rw [truncated.done]
    rfl
  rw [placed, length_append, length_replicate, length_physicalRecord] at cut
  rw [placed, take_append, length_replicate] at here
  unfold placedEnd at fits
  rw [add_assoc] at fits
  by_cases trailer : k < padding recycle p
  · -- the file ends in the trailer
    have loaded := at_p.loaded_of_padding (Nat.zero_lt_of_lt trailer)
    have boundary : p + padding recycle p = blockEnd p := by
      rcases padding_cases recycle p with ⟨none, _⟩ | ⟨_, _, boundary⟩
      · omega
      · exact boundary
    have eof : r.eof = true := by
      rw [loaded.eof]
      exact decide_eq_true (by omega)
    by_cases wide : kHeaderSize ≤ k
    · have buffer : r.buffer = List.replicate k 0 := by
        rw [loaded.buffer_eq, here, take_replicate, Nat.sub_eq_zero_of_le trailer.le, take_zero, append_nil,
          take_replicate]
        congr 1
        omega
      have skipped := read_zeroes options file buffer wide
      obtain ⟨r', reports, rest⟩ := ends { r with buffer := [] } (show ([] : Bytes).length < kHeaderSize by decide) eof
      exact ⟨r', reports, Returns.skip (idle (Nat.zero_lt_of_lt trailer)) (fun fuel => skipped (fuel + 1)) rest⟩
    · exact ends r (by rw [loaded.length]; omega) eof
  · have visible : headerStart recycle p ≤ file.length := by
      unfold headerStart
      omega
    have header : file.drop (headerStart recycle p) =
        (physicalRecord logNumber (.ofFragment recycle start finish) payload).take (k - padding recycle p) := by
      rw [headerStart, ← drop_drop, here, take_of_length_le (by rw [length_replicate]; omega),
        drop_left' length_replicate]
    rw [take_of_length_le (by rw [length_replicate]; omega)] at here
    obtain ⟨r₁, loaded, ready₁, reports₁, reach⟩ :=
      at_p.to_header metadata .tolerateCorruptedTailRecords options ready idle here visible
    obtain ⟨r', read, second, reports, truncated⟩ := loaded.read_truncated ready₁ header (by omega) fits
    refine ⟨r', reports.trans reports₁, reach r' read _ second ?_⟩
    rw [truncated.done]
    rfl

theorem ended (at_p : At file r p) (stop : file.length = p) (idle : scratch.inFragmentedRecord = false) :
    ∃ r', r'.reports = r.reports ∧ Returns metadata mode options file r scratch (r', none) := by
  have empty (r : Reader σ) (loaded : Loaded file r p) (fuel : ℕ) :
      r.readPhysicalRecord options file (fuel + 1) = some ({ r with buffer := [] }, { type := .eof }) := by
    have nothing : r.buffer.length = 0 := by
      rw [loaded.length]
      omega
    have eof : r.eof = true := by
      rw [loaded.eof]
      exact decide_eq_true (stop ▸ lt_blockEnd p)
    rw [Reader.readPhysicalRecord, if_pos (by rw [nothing]; decide), Reader.readMore, eof, if_pos rfl, nothing]
    rfl
  have closes (r' : Reader σ) : RoundReturns metadata mode options file (r', none)
      (r'.switchRecord metadata mode scratch { type := .eof }) := by
    change RoundReturns metadata mode options file (r', none) (r'.atEof mode scratch)
    rw [Reader.atEof, idle, if_neg (fun bad => Bool.false_ne_true bad.1)]
    rfl
  rcases at_p with loaded | fresh
  · exact ⟨{ r with buffer := [] }, rfl, Returns.round (fun fuel => empty r loaded (fuel + 1)) (closes _)⟩
  · obtain ⟨loaded, flags⟩ := readBlock_loaded fresh.le fresh.position fresh.start
    have short : r.buffer.length < kHeaderSize := by
      rw [fresh.buffer]
      decide
    refine ⟨{ r.readBlock file with buffer := [] }, rfl, Returns.round (fun fuel => ?_) (closes _)⟩
    rw [readPhysicalRecord_refill short fresh.eof, empty _ loaded]

end

variable {scratch : Scratch} {start : Bool} {r : Reader σ} {left bytes : Bytes}

def Open (start : Bool) (scratch : Scratch) : Prop := scratch.inFragmentedRecord = !start

theorem Open.idle {p : ℕ} (opened : Open start scratch)
    (inside : start = false → p % kBlockSize = 0) (some : 0 < padding recycle p) : scratch.inFragmentedRecord = false := by
  cases start with
  | true => exact opened
  | false =>
    rw [padding_of_start (inside rfl)] at some
    omega

def Scratch.before (start : Bool) (scratch : Scratch) : Bytes := if start then [] else scratch.bytes

theorem switchRecord_last (opened : Open start scratch) (payload : Bytes) :
    r.switchRecord metadata mode scratch { type := .ofFragment recycle start true, fragment := payload } =
      .done { r with firstRecordRead := true } (some (Scratch.before start scratch ++ payload)) := by
  unfold Open at opened
  cases start <;> cases recycle <;> simp [Reader.switchRecord, RecordType.ofFragment, Scratch.before, opened]

theorem switchRecord_more (opened : Open start scratch) (payload : Bytes) :
    r.switchRecord metadata mode scratch { type := .ofFragment recycle start false, fragment := payload } =
      .next r { inFragmentedRecord := true, bytes := Scratch.before start scratch ++ payload } := by
  unfold Open at opened
  cases start <;> cases recycle <;> simp [Reader.switchRecord, RecordType.ofFragment, Scratch.before, opened]

theorem reads_record {p stop : ℕ} (fragments : Fragments recycle logNumber start p left bytes stop)
    {more : Bytes} (at_p : At file r p) (ready : Ready recycle r)
    (number : SameNumber recycle logNumber options) (opened : Open start scratch) (inside : start = false → p % kBlockSize = 0)
    (here : file.drop p = bytes ++ more) : ∃ r', At file r' stop ∧ Ready recycle r' ∧ r'.reports = r.reports ∧
      Returns metadata mode options file r scratch (r', some (Scratch.before start scratch ++ left)) := by
  induction fragments generalizing r scratch more with
  | last fits =>
    obtain ⟨r', at_r', recycled, reports, rest⟩ := reads_fragment at_p ready number (opened.idle inside) here fits
    refine ⟨{ r' with firstRecordRead := true }, at_r'.congr rfl rfl rfl, fun on _ => recycled on, reports, rest _ ?_⟩
    rw [switchRecord_last opened]
    rfl
  | @more start p payload left bytes stop fills later ih =>
    rw [append_assoc] at here
    obtain ⟨r₁, at_r₁, recycled, reports, rest⟩ := reads_fragment at_p ready number (opened.idle inside) here fills.le
    have next : file.drop (placedEnd recycle p payload) = bytes ++ more := by
      rw [← length_placed, ← drop_drop, here, drop_left]
    have opened₁ : Open false ⟨true, Scratch.before start scratch ++ payload⟩ := rfl
    obtain ⟨r', at_r', ready', reports', returns⟩ := ih at_r₁ (fun on _ => recycled on) opened₁
      (fun _ => by rw [fills, blockEnd_mod]) next
    refine ⟨r', at_r', ready', reports'.trans reports, rest _ ?_⟩
    rw [switchRecord_more opened]
    rw [← append_assoc]
    exact returns

theorem truncated_record {p stop : ℕ}
    (fragments : Fragments recycle logNumber start p left bytes stop) (at_p : At file r p)
    (ready : Ready recycle r) (number : SameNumber recycle logNumber options) (opened : Open start scratch)
    (inside : start = false → p % kBlockSize = 0) {k : ℕ} (here : file.drop p = bytes.take k) (cut : k < bytes.length) :
    ∃ r', r'.reports = r.reports ∧ Returns metadata .tolerateCorruptedTailRecords options file r scratch (r', none) := by
  induction fragments generalizing r scratch k with
  | last fits => exact truncated_fragment at_p ready (opened.idle inside) here cut fits
  | @more start p payload left bytes stop fills later ih =>
    by_cases first : k < (placed recycle logNumber p (.ofFragment recycle start false) payload).length
    · rw [take_append_of_le_length first.le] at here
      exact truncated_fragment at_p ready (opened.idle inside) here first fills.le
    · rw [take_append, take_of_length_le (not_lt.mp first)] at here
      rw [length_append] at cut
      obtain ⟨r₁, at_r₁, recycled, reports, rest⟩ := reads_fragment at_p ready number (opened.idle inside) here fills.le
      have next : file.drop (placedEnd recycle p payload) =
          bytes.take (k - (placed recycle logNumber p (.ofFragment recycle start false) payload).length) := by
        rw [← length_placed, ← drop_drop, here, drop_left]
      have opened₁ : Open false ⟨true, Scratch.before start scratch ++ payload⟩ := rfl
      obtain ⟨r', reports', returns⟩ := ih at_r₁ (fun on _ => recycled on) opened₁ (fun _ => by rw [fills, blockEnd_mod]) next
        (by omega)
      refine ⟨r', reports'.trans reports, rest _ ?_⟩
      rw [switchRecord_more opened]
      exact returns

variable (records : List Bytes) {w : Writer}

theorem dest_foldl (aligned : Aligned w) : ∃ rest, (records.foldl Writer.addRecord w).dest = w.dest ++ rest := by
  obtain ⟨bytes, dest, -⟩ := addRecords_placed records aligned
  exact ⟨bytes, dest⟩

theorem readAll_end {enough : ℕ} (returns : ∀ fuel, r.readLoop metadata mode options file (fuel + enough) {} = some (r', none))
    (fuel calls : ℕ) : r.readAll metadata mode options file (fuel + (enough + 1)) (calls + (enough + 1)) = some (r', []) := by
  have call := returns (fuel + 1)
  rw [show fuel + 1 + enough = fuel + (enough + 1) by omega] at call
  rw [← add_assoc calls, Reader.readAll, Reader.readRecord, call]

theorem readAll_within {m : ℕ} (aligned : Aligned w) (cut : file = (records.foldl Writer.addRecord w).dest.take m)
    (mode_ok : mode = .tolerateCorruptedTailRecords ∨ (records.foldl Writer.addRecord w).dest.length ≤ m)
    (at_end : At file r w.dest.length) (ready : Ready w.recycleLogFiles r)
    (number : SameNumber w.recycleLogFiles w.logNumber options) :
    ∃ (r' : Reader σ) (enough : ℕ), r'.reports = r.reports ∧ ∀ fuel calls,
      r.readAll metadata mode options file (fuel + enough) (calls + enough) = some (r', Writer.recordsWithin m w records) := by
  induction records generalizing w r with
  | nil =>
    have whole : file.length = w.dest.length := by
      have le := at_end.le
      have length := congrArg List.length cut
      rw [length_take] at length
      dsimp only [foldl_nil] at length
      omega
    obtain ⟨r', reports, enough, returns⟩ : ∃ r', r'.reports = r.reports ∧
        Returns metadata mode options file r {} (r', none) :=
      ended at_end whole rfl
    exact ⟨r', enough + 1, reports, readAll_end returns⟩
  | cons record records ih =>
    obtain ⟨bytes, dest, fragments, aligned', eq⟩ := addRecord_placed aligned record
    obtain ⟨rest, total⟩ := dest_foldl records aligned'
    rw [foldl_cons] at cut mode_ok
    have here : file.drop w.dest.length = (bytes ++ rest).take (m - w.dest.length) := by
      rw [cut, total, dest, append_assoc, drop_take, drop_left]
    have reached : w.dest.length ≤ m := by
      have le := at_end.le
      rw [cut, length_take] at le
      omega
    have opened : Open true {} := rfl
    have length : (w.addRecord record).dest.length = w.dest.length + bytes.length := by rw [dest, length_append]
    by_cases within : (w.addRecord record).dest.length ≤ m
    · -- the record is there: read it and go on after it
      rw [take_append, take_of_length_le (by omega)] at here
      obtain ⟨r₁, at_r₁, ready₁, reports₁, first, call⟩ : ∃ r', At file r' (w.addRecord record).dest.length ∧
          Ready w.recycleLogFiles r' ∧ r'.reports = r.reports ∧
          Returns metadata mode options file r {} (r', some record) :=
        reads_record fragments at_end ready number opened (fun no => nomatch no) here
      obtain ⟨r', enough, reports, later⟩ := ih aligned' cut mode_ok at_r₁ (eq.1 ▸ ready₁) (by rw [eq.1, eq.2]; exact number)
      refine ⟨r', first + enough + 1, reports.trans reports₁, fun fuel calls => ?_⟩
      have now := call (fuel + enough + 1)
      have after := later (fuel + first + 1) (calls + first)
      rw [show fuel + enough + 1 + first = fuel + (first + enough + 1) by omega] at now
      rw [show fuel + first + 1 + enough = fuel + (first + enough + 1) by omega,
        show calls + first + enough = calls + (first + enough) by omega] at after
      rw [← add_assoc calls, Reader.readAll, Reader.readRecord, now]
      dsimp only
      rw [after, Writer.recordsWithin, if_pos within]
      rfl
    · -- the file ends in the record
      rw [take_append_of_le_length (by omega)] at here
      have tolerant : mode = .tolerateCorruptedTailRecords := by
        apply mode_ok.resolve_right
        rw [total, length_append]
        omega
      obtain ⟨r', reports, enough, returns⟩ : ∃ r', r'.reports = r.reports ∧
          Returns metadata mode options file r {} (r', none) :=
        tolerant ▸ truncated_record fragments at_end ready number opened (fun no => nomatch no) here (by omega)
      refine ⟨r', enough + 1, reports, fun fuel calls => ?_⟩
      rw [Writer.recordsWithin, if_neg within]
      exact readAll_end returns fuel calls

theorem recordsWithin_all {m : ℕ} (aligned : Aligned w)
    (whole : (records.foldl Writer.addRecord w).dest.length ≤ m) : Writer.recordsWithin m w records = records := by
  induction records generalizing w with
  | nil => rfl
  | cons record records ih =>
    obtain ⟨-, -, -, aligned', -⟩ := addRecord_placed aligned record
    obtain ⟨rest, total⟩ := dest_foldl records aligned'
    rw [foldl_cons] at whole
    have within : (w.addRecord record).dest.length ≤ m := by
      rw [total, length_append] at whole
      omega
    rw [Writer.recordsWithin, if_pos within, ih aligned' whole]

theorem log_roundTrip (metadata : Metadata σ) (state : σ) (recycle checksum : Bool) (logNumber : ℕ)
    (small : logNumber < 2 ^ 32)
    (records : List Bytes) : let w : Writer := { logNumber := logNumber, recycleLogFiles := recycle }
    let options : ReaderOptions := { checksum := checksum, logNumber := logNumber }
    let file := (records.foldl Writer.addRecord w).dest
    (∀ mode, ReadsExactly metadata mode options file state records) ∧
      ∀ m, ReadsExactly metadata .tolerateCorruptedTailRecords options (file.take m) state
        (Writer.recordsWithin m w records) := by
  intro w options file
  have aligned : Aligned w := ⟨Nat.zero_le _, rfl⟩
  have ready : Ready recycle ({ metadata := state } : Reader σ) := fun _ read => nomatch read
  have number : SameNumber recycle logNumber options := fun _ => ⟨rfl, small⟩
  have within (mode : WalRecoveryMode) (m : ℕ) (mode_ok : mode = .tolerateCorruptedTailRecords ∨ file.length ≤ m) :
      ReadsExactly metadata mode options (file.take m) state (Writer.recordsWithin m w records) :=
    readAll_within records aligned rfl mode_ok (at_start state) ready number
  refine ⟨fun mode => ?_, fun m => within _ m (.inl rfl)⟩
  have whole := within mode file.length (.inr (le_refl _))
  rwa [take_length, recordsWithin_all records aligned (le_refl _)] at whole

theorem log_roundTrip_cut : let w : Writer := { logNumber := 7, recycleLogFiles := true }
    let records : List Bytes := [[1, 2, 3], []]
    Writer.recordsWithin 20 w records = [[1, 2, 3]] ∧
      ReadsExactly ⟨fun _ _ _ _ _ state => (state, [])⟩ .tolerateCorruptedTailRecords { logNumber := 7 }
        ((records.foldl Writer.addRecord w).dest.take 20) () [[1, 2, 3]] := by
  intro w records
  have within : Writer.recordsWithin 20 w records = [[1, 2, 3]] := by decide +kernel
  have read := (log_roundTrip ⟨fun _ _ _ _ _ state => (state, [])⟩ () true true 7 (by decide) records).2 20
  rw [within] at read
  exact ⟨within, read⟩

end VcompProof.Wal
