import Vcomp.Wal.TailingRuns

namespace VcompModel.Wal

def StaleHeader (logNumber : ℕ) (tail : Bytes) : Prop :=
  kRecyclableHeaderSize ≤ tail.length ∧ (headerType tail).isRecyclable = true ∧ headerLogNumber tail ≠ logNumber

/-- The log, a trailer if the block has no room for a header, and the rest of an older log. -/
def recycledFile (logNumber : ℕ) (records : List Bytes) (tail : Bytes) : Bytes :=
  (records.foldl Writer.addRecord { logNumber := logNumber, recycleLogFiles := true }).switchBlock.dest ++ tail

end VcompModel.Wal

namespace VcompProof.Wal

open VcompModel.Wal List

variable {σ : Type} {metadata : Metadata σ} {options : ReaderOptions} {file : Bytes}
  {r : FragmentBufferedReader σ} {w : Writer} {logNumber : ℕ}

theorem calls_records (metadata : Metadata σ) (records : List Bytes) (aligned : Aligned w)
    (log : (records.foldl Writer.addRecord w).dest <+: file) (number : SameNumber w.recycleLogFiles w.logNumber options)
    (tails : Tails file r.reader w.dest.length) (ready : Ready w.recycleLogFiles r.reader) (opened : TailOpen true r) :
    ∃ r' enough, Tails file r'.reader (records.foldl Writer.addRecord w).dest.length ∧ Ready w.recycleLogFiles r'.reader ∧
      TailOpen true r' ∧ ∀ fuel files, r.calls metadata options (fuel + enough) (List.replicate records.length file ++ files) =
        (r'.calls metadata options (fuel + enough) files).map fun (r, rest) => (r, records.map some ++ rest) := by
  induction records generalizing w r with
  | nil =>
    refine ⟨r, 0, tails, ready, opened, fun fuel files => ?_⟩
    change r.calls metadata options fuel files = (r.calls metadata options fuel files).map fun (r, rest) => (r, rest)
    cases r.calls metadata options fuel files <;> rfl
  | cons record records ih =>
    obtain ⟨more, pending⟩ := tailState_enter aligned log tails ready opened
    obtain ⟨-, -, -, aligned', eq⟩ := addRecord_placed aligned record
    obtain ⟨rest, total, -⟩ := addRecords_placed records aligned'
    have visible : (w.addRecord record).dest.length ≤ file.length := by
      have le := log.length_le
      rw [foldl_cons, total, length_append] at le
      omega
    obtain ⟨r₁, -, ⟨⟨enough₁, first⟩, -, tails₁, ready₁, opened₁⟩ | ⟨-, hidden, -⟩⟩ :=
      pending.round metadata (prefix_refl _) number
    swap
    · omega
    obtain ⟨r', enough, tails', ready', opened', later⟩ :=
      ih aligned' log (by rw [eq.1, eq.2]; exact number) tails₁ (eq.1 ▸ ready₁) opened₁
    refine ⟨r', enough₁ + enough, tails', eq.1 ▸ ready', opened', fun fuel files => ?_⟩
    have now := first (fuel + enough)
    have after := later (fuel + enough₁) files
    rw [show fuel + enough + enough₁ = fuel + (enough₁ + enough) by omega] at now
    rw [show fuel + enough₁ + enough = fuel + (enough₁ + enough) by omega] at after
    rw [length_cons, replicate_succ, cons_append, FragmentBufferedReader.calls, now]
    dsimp only [Bind.bind, Except.bind]
    rw [after]
    cases r'.calls metadata options (fuel + (enough₁ + enough)) files <;> rfl

section

variable {p : ℕ} {tail : Bytes}

theorem stale_forever (recycled : r.reader.recycled = true) (idle : r.inFragmentedRecord = false)
    (held : kRecyclableHeaderSize ≤ r.reader.buffer.length) (kind : (headerType r.reader.buffer).isRecyclable = true)
    (other : headerLogNumber r.reader.buffer ≠ options.logNumber) (fuel : ℕ) :
    r.readRecord metadata options file fuel = .error .fuel := by
  induction fuel with
  | zero => rfl
  | succ fuel ih =>
    cases fuel with
    | zero => rfl
    | succ fuel =>
      have short : kHeaderSize ≤ r.reader.buffer.length := by
        unfold kHeaderSize
        unfold kRecyclableHeaderSize at held
        omega
      have marked : ({ r.reader with recycled := true } : Reader σ) = r.reader := by rw [← recycled]
      have read : r.reader.tryReadFragment options file (fuel + 1) = .ok (r.reader, some { type := .oldRecord }) := by
        unfold Reader.tryReadFragment
        rw [refill_done short]
        dsimp only [Bind.bind, Except.bind]
        rw [kind, if_pos rfl, if_neg (fun bad => bad.2 recycled), marked, refill_done held]
        dsimp only
        rw [if_pos other]
      have stays : FragmentBufferedReader.atBadRecord r = r := by
        rw [FragmentBufferedReader.atBadRecord, if_neg (by rw [idle]; exact Bool.false_ne_true)]
      rw [readRecord_round read]
      dsimp only [FragmentBufferedReader.switchRecord]
      rw [stays]
      exact ih

variable {k : ℕ}

theorem Tails.stale_buffer {reader : Reader σ} {q : ℕ} (tails : Tails file reader q) (here : file.drop q = tail.take k) :
    reader.buffer = tail.take (reader.position - q) := by
  have visible := tails.visible
  have le := tails.le
  have length := congrArg List.length here
  rw [length_drop, length_take] at length
  rw [tails.buffer_eq (prefix_refl _), here, take_take]
  congr 1
  omega

variable (stale : StaleHeader options.logNumber tail) (here : file.drop p = List.replicate (padding true p) 0 ++ tail.take k)
  (tails : Tails file r.reader p) (ready : Ready true r.reader) (opened : TailOpen true r)
include stale here tails ready opened

theorem stale_read (metadata : Metadata σ) : ∃ r' enough, ∀ fuel, r.readRecord metadata options file (fuel + enough) =
      if k < kRecyclableHeaderSize then .ok (r', none) else .error .fuel := by
  have hidden : file.length < headerStart true p + headerSize true ↔ k < kRecyclableHeaderSize := by
    have length := congrArg List.length here
    have whole := stale.1
    have le := tails.le.trans tails.visible
    rw [length_drop, length_append, length_replicate, length_take] at length
    change file.length < p + padding true p + kRecyclableHeaderSize ↔ _
    omega
  rcases approach metadata options (prefix_refl _) here tails (fun _ => opened.1) with
    ⟨reader, p', tails', flags, low, high, narrow, rounds, onward⟩ | ⟨reader, short, -, -, enough, stops⟩
  · have eq := headerStart_between low high
    have header : file.drop (headerStart true p') = tail.take k := by
      rw [eq, headerStart, ← drop_drop, here, drop_left' length_replicate]
    have kind : ∀ r' : Reader σ, Tails file r' (headerStart true p') → headerStart true p' + kHeaderSize ≤ r'.position →
        (headerType r'.buffer).isRecyclable = true := by
      intro r' tails'' held
      rw [tails''.stale_buffer header, headerType_take _ (by omega)]
      exact stale.2.1
    obtain ⟨r₁, p'', tails₁, -, -, read⟩ := tryReadFragment_header options tails' (flags.ready ready) narrow kind
    rw [← eq] at hidden
    by_cases part : k < kRecyclableHeaderSize
    · rw [if_pos (hidden.mpr part)] at read
      obtain ⟨enough, stops⟩ := Onward.returns ⟨rounds, onward⟩ (TailReturns.stop read)
      exact ⟨_, enough, fun fuel => by rw [stops, if_pos part]⟩
    · rw [if_neg (mt hidden.mp part)] at read
      obtain ⟨rfl, marked, held, read⟩ := read
      change headerStart true p' + kRecyclableHeaderSize ≤ _ at held
      have other : headerLogNumber r₁.buffer ≠ options.logNumber := by
        rw [tails₁.stale_buffer header, headerLogNumber_take _ (by omega)]
        exact stale.2.2
      have seen (fuel : ℕ) : reader.tryReadFragment options file (fuel + 4) = .ok (r₁, some { type := .oldRecord }) := by
        rw [read, if_pos ⟨rfl, other⟩]
      obtain ⟨more, again⟩ : Onward metadata options file { r with reader := reader } { r with reader := r₁ } :=
        Onward.skip opened.1 (.inr rfl) seen
      have long : kRecyclableHeaderSize ≤ r₁.buffer.length := by
        rw [tails₁.length]
        omega
      refine ⟨r, 4 + rounds + more, fun fuel => ?_⟩
      have first := onward (fuel + more)
      rw [show fuel + more + 4 = fuel + 4 + more by omega, again fuel] at first
      rw [show fuel + (4 + rounds + more) = fuel + 4 + more + rounds by omega, first, if_neg part]
      exact stale_forever (r := { r with reader := r₁ }) (marked rfl) opened.1 long
        (kind r₁ tails₁ ((Nat.add_le_add_left (headerSize_le true).1 _).trans held)) other _
  · have part := hidden.mp (short.trans_le (Nat.add_le_add_left (headerSize_le true).1 _))
    exact ⟨_, enough, fun fuel => by rw [stops, if_pos part]⟩

end

theorem recycled_records (metadata : Metadata σ) (state : σ) (checksum : Bool) (small : logNumber < 2 ^ 32)
    (records : List Bytes) (tail : Bytes) : let options : ReaderOptions := { checksum := checksum, logNumber := logNumber }
    let file := recycledFile logNumber records tail
    ∃ (r : FragmentBufferedReader σ) (p enough : ℕ), file.drop p = List.replicate (padding true p) 0 ++ tail ∧
      Tails file r.reader p ∧
      Ready true r.reader ∧ TailOpen true r ∧ ∀ fuel, FragmentBufferedReader.calls metadata options (fuel + enough)
          (List.replicate (records.length + 1) file) { reader := { metadata := state } } =
        (r.calls metadata options (fuel + enough) [file]).map fun (r, rest) => (r, records.map some ++ rest) := by
  intro options file
  let w : Writer := { logNumber := logNumber, recycleLogFiles := true }
  have aligned : Aligned w := ⟨Nat.zero_le _, rfl⟩
  obtain ⟨bytes, dest, -, aligned', eq⟩ := addRecords_placed records aligned
  obtain ⟨switched, -, -⟩ := switchBlock_dest aligned'
  have content : file = (records.foldl Writer.addRecord w).dest ++
      (List.replicate (padding true (records.foldl Writer.addRecord w).dest.length) 0 ++ tail) := by
    rw [← append_assoc]
    change (records.foldl Writer.addRecord w).switchBlock.dest ++ tail = _
    rw [switched, eq.1]
  have number : SameNumber true logNumber options := fun _ => ⟨rfl, small⟩
  obtain ⟨r, enough, tails, ready, opened, calls⟩ := calls_records metadata records aligned (content ▸ prefix_append _ _)
    number (r := { reader := { metadata := state } }) (tails_start file state) (fun _ read => nomatch read) ⟨rfl, fun _ => rfl⟩
  refine ⟨r, _, enough, ?_, tails, ready, opened, fun fuel => ?_⟩
  · rw [content, drop_left]
  · rw [replicate_add]
    exact calls fuel [file]

theorem recycled_calls (metadata : Metadata σ) (state : σ) (checksum : Bool) (small : logNumber < 2 ^ 32)
    (records : List Bytes) {tail : Bytes} (stale : StaleHeader logNumber tail) (k : ℕ) :
    ∃ r enough, ∀ fuel, FragmentBufferedReader.calls metadata { checksum := checksum, logNumber := logNumber } (fuel + enough)
      (List.replicate (records.length + 1) (recycledFile logNumber records (tail.take k)))
        { reader := { metadata := state } } =
        if k < kRecyclableHeaderSize then .ok (r, records.map some ++ [none]) else .error .fuel := by
  obtain ⟨r, p, enough, here, tails, ready, opened, calls⟩ :=
    recycled_records metadata state checksum small records (tail.take k)
  have differs : StaleHeader ({ checksum := checksum, logNumber := logNumber } : ReaderOptions).logNumber tail := stale
  obtain ⟨r', enough', read⟩ := stale_read differs here tails ready opened metadata
  refine ⟨r', enough + enough', fun fuel => ?_⟩
  have first := calls (fuel + enough')
  have last := read (fuel + enough)
  rw [show fuel + enough' + enough = fuel + (enough + enough') by omega] at first
  rw [show fuel + enough + enough' = fuel + (enough + enough') by omega] at last
  rw [first, FragmentBufferedReader.calls, last]
  split_ifs <;> rfl

/-- The records and then false are returned exactly if the older log's header is incomplete. -/
theorem stale_tail_ends_log (metadata : Metadata σ) (state : σ) (checksum : Bool) (logNumber : ℕ) (small : logNumber < 2 ^ 32)
    (records : List Bytes) (tail : Bytes) (stale : StaleHeader logNumber tail) (k : ℕ) :
    (∃ r, CallsReturn metadata { checksum := checksum, logNumber := logNumber }
        (List.replicate (records.length + 1) (recycledFile logNumber records (tail.take k)))
        { reader := { metadata := state } } (r, records.map some ++ [none])) ↔
      k < kRecyclableHeaderSize := by
  obtain ⟨r, enough, calls⟩ := recycled_calls metadata state checksum small records stale k
  constructor
  · rintro ⟨r', enough', returned⟩
    by_contra complete
    have never := calls enough'
    rw [add_comm, returned enough, if_neg complete] at never
    cases never
  · intro part
    exact ⟨r, enough, fun fuel => by rw [calls, if_pos part]⟩

theorem stale_tail_ends_log_part : StaleHeader 2 (physicalRecord 1 .recyclableFull [9]) ∧
      ∃ r : FragmentBufferedReader Unit, CallsReturn ⟨fun _ _ _ _ _ state => (state, [])⟩ { logNumber := 2 }
        (List.replicate 2 (recycledFile 2 [[1]] ((physicalRecord 1 .recyclableFull [9]).take 10)))
          { reader := { metadata := () } }
        (r, [some [1], none]) := by
  have stale : StaleHeader 2 (physicalRecord 1 .recyclableFull [9]) := by
    refine ⟨?_, ?_, ?_⟩ <;> decide +kernel
  exact ⟨stale, (stale_tail_ends_log ⟨fun _ _ _ _ _ state => (state, [])⟩ () true 2 (by decide) [[1]] _ stale 10).mpr
    (by decide)⟩

/-- The whole record of log 1 is in the file: the second call does not return. -/
theorem tailing_hangs_on_stale_header : StaleHeader 2 (physicalRecord 1 .recyclableFull [9]) ∧
      ∃ enough, ∀ fuel, FragmentBufferedReader.calls ⟨fun _ _ _ _ _ state => (state, [])⟩ { logNumber := 2 } (fuel + enough)
        (List.replicate 2 (recycledFile 2 [[1]] (physicalRecord 1 .recyclableFull [9]))) { reader := { metadata := () } } =
          .error .fuel := by
  have stale : StaleHeader 2 (physicalRecord 1 .recyclableFull [9]) := by
    refine ⟨?_, ?_, ?_⟩ <;> decide +kernel
  have length : (physicalRecord 1 .recyclableFull [9]).length = 12 := by decide +kernel
  obtain ⟨_, enough, hangs⟩ :=
    recycled_calls ⟨fun _ _ _ _ _ state => (state, [])⟩ () true (by decide : 2 < 2 ^ 32) [[1]] stale 12
  rw [take_of_length_le length.le] at hangs
  exact ⟨stale, enough, hangs⟩

end VcompProof.Wal
