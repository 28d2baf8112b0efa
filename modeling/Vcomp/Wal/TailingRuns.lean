import Mathlib.Data.List.ReduceOption
import Vcomp.Wal.TailingLog

namespace VcompModel.Wal

/-- With so many bytes visible at each call: the next record if all of it is, and false otherwise. -/
def Writer.expectedCalls : Writer → List Bytes → List ℕ → List (Option Bytes)
  | _, _, [] => []
  | w, [], _ :: schedule => none :: Writer.expectedCalls w [] schedule
  | w, record :: records, visible :: schedule =>
    if (w.addRecord record).dest.length ≤ visible then
      some record :: Writer.expectedCalls (w.addRecord record) records schedule
    else none :: Writer.expectedCalls w (record :: records) schedule

end VcompModel.Wal

namespace VcompProof.Wal

open VcompModel.Wal List

variable {σ : Type} {metadata : Metadata σ} {options : ReaderOptions} {file whole : Bytes}
  {r : FragmentBufferedReader σ} {w : Writer}
  {files : List Bytes} {r' r'' : FragmentBufferedReader σ} {record : Option Bytes} {records : List Bytes} {visible : ℕ}

theorem calls_cons {fuel : ℕ} {records : List (Option Bytes)}
    (first : r.readRecord metadata options file fuel = .ok (r', record))
    (rest : r'.calls metadata options fuel files = .ok (r'', records)) :
    r.calls metadata options fuel (file :: files) = .ok (r'', record :: records) := by
  rw [FragmentBufferedReader.calls, first]
  dsimp only [Bind.bind, Except.bind]
  rw [rest]

def CallsReturn (metadata : Metadata σ) (options : ReaderOptions) (files : List Bytes) (r : FragmentBufferedReader σ)
    (result : FragmentBufferedReader σ × List (Option Bytes)) : Prop :=
  ∃ enough, ∀ fuel, r.calls metadata options (fuel + enough) files = .ok result

theorem CallsReturn.cons {records : List (Option Bytes)}
    (first : TailReturns metadata options file r (r', record)) (rest : CallsReturn metadata options files r' (r'', records)) :
    CallsReturn metadata options (file :: files) r (r'', record :: records) := by
  obtain ⟨enough₁, first⟩ := first
  obtain ⟨enough₂, rest⟩ := rest
  refine ⟨enough₁ + enough₂, fun fuel => ?_⟩
  have now := first (fuel + enough₂)
  have later := rest (fuel + enough₁)
  rw [add_assoc, add_comm enough₂] at now
  rw [add_assoc] at later
  exact calls_cons now later

def TailState (whole file : Bytes) (w : Writer) (r : FragmentBufferedReader σ) : List Bytes → Prop
  | [] => Tails file r.reader w.dest.length ∧ Ready w.recycleLogFiles r.reader ∧ TailOpen true r
  | record :: _ => ∃ more, Pending w.recycleLogFiles w.logNumber whole file r record (w.addRecord record).dest.length more

theorem TailState.grow {later : Bytes} (state : TailState whole file w r records) (grows : file <+: later) :
    TailState whole later w r records := by
  cases records with
  | nil => exact ⟨state.1.grow grows, state.2⟩
  | cons record records =>
    obtain ⟨more, pending⟩ := state
    exact ⟨more, pending.grow grows⟩

theorem tailState_enter (aligned : Aligned w) (log : (records.foldl Writer.addRecord w).dest <+: whole)
    (tails : Tails file r.reader w.dest.length) (ready : Ready w.recycleLogFiles r.reader) (opened : TailOpen true r) :
    TailState whole file w r records := by
  cases records with
  | nil => exact ⟨tails, ready, opened⟩
  | cons record records =>
    obtain ⟨bytes, dest, fragments, aligned', -⟩ := addRecord_placed aligned record
    obtain ⟨rest, total, -⟩ := addRecords_placed records aligned'
    obtain ⟨extra, rfl⟩ := log
    refine ⟨rest ++ extra, .mk fragments tails ready opened nofun ?_ rfl⟩
    rw [foldl_cons, total, dest, append_assoc, append_assoc, drop_left]

theorem tail_ended {p : ℕ} (tails : Tails file r.reader p) (stop : file.length = p) :
    ∃ reader, Tails file reader p ∧ SameFlags r.reader reader ∧
      TailReturns metadata options file r ({ r with reader := reader }, none) := by
  have narrow : padding false p < kHeaderSize := by
    rcases padding_cases false p with ⟨no, _⟩ | ⟨_, small, _⟩
    · rw [no]
      decide
    · exact small
  obtain ⟨reader, p', isReady, tails', flags, place, held, -, refilled⟩ := await_header tails narrow
  have le := tails'.le
  have visible := tails'.visible
  have after : p ≤ headerStart false p := Nat.le_add_right _ _
  cases isReady with
  | true =>
    obtain ⟨-, held⟩ := held rfl
    unfold kHeaderSize at held
    omega
  | false =>
    obtain rfl : p' = p := by
      rcases place with rfl | rfl <;> omega
    refine ⟨reader, tails', flags, TailReturns.stop fun fuel => ?_⟩
    obtain ⟨answer, is, first⟩ := refilled fuel
    obtain rfl : answer = none := Option.isNone_iff_eq_none.mp (Option.isSome_eq_false_iff.mp is)
    unfold Reader.tryReadFragment
    rw [first]
    rfl

theorem tail_call (metadata : Metadata σ) (aligned : Aligned w) (log : whole = (records.foldl Writer.addRecord w).dest)
    (number : SameNumber w.recycleLogFiles w.logNumber options) (state : TailState whole (whole.take visible) w r records) :
    ∃ r' record w' rest, TailReturns metadata options (whole.take visible) r (r', record) ∧
      r'.reader.reports = r.reader.reports ∧
      Aligned w' ∧ SameLog w w' ∧ whole = (rest.foldl Writer.addRecord w').dest ∧
        TailState whole (whole.take visible) w' r' rest ∧
      ∀ schedule, Writer.expectedCalls w records (visible :: schedule) = record :: Writer.expectedCalls w' rest schedule := by
  have grows : whole.take visible <+: whole := take_prefix _ _
  cases records with
  | nil =>
    obtain ⟨tails, ready, opened⟩ := state
    have stop : (whole.take visible).length = w.dest.length := by
      have le := le_trans tails.le tails.visible
      have most := grows.length_le
      have total := congrArg List.length log
      dsimp only [foldl_nil] at total
      omega
    obtain ⟨reader, tails', flags, returns⟩ : ∃ reader, Tails _ reader _ ∧ SameFlags r.reader reader ∧
        TailReturns metadata options _ r ({ r with reader := reader }, none) := tail_ended tails stop
    exact ⟨{ r with reader := reader }, none, w, [], returns, flags.reports, aligned, ⟨rfl, rfl⟩, log,
      ⟨tails', flags.ready ready, opened⟩, fun schedule => rfl⟩
  | cons record records =>
    obtain ⟨more, pending⟩ := state
    obtain ⟨bytes, dest, fragments, aligned', eq⟩ := addRecord_placed aligned record
    obtain ⟨rest, total, -⟩ := addRecords_placed records aligned'
    have inLog : (w.addRecord record).dest.length ≤ whole.length := by
      rw [log, foldl_cons, total, length_append]
      omega
    obtain ⟨r', reports, ⟨returns, within, tails, ready, opened⟩ | ⟨returns, hidden, pending'⟩⟩ :=
      pending.round metadata grows number
    · refine ⟨r', some record, w.addRecord record, records, returns, reports, aligned', eq, log,
        tailState_enter aligned' (log ▸ prefix_refl _) tails (eq.1 ▸ ready) opened, fun schedule => ?_⟩
      rw [Writer.expectedCalls, if_pos (within.trans (length_take_le _ _))]
    · refine ⟨r', none, w, record :: records, returns, reports, aligned, ⟨rfl, rfl⟩, log, ⟨more, pending'⟩, fun schedule => ?_⟩
      rw [length_take] at hidden
      rw [Writer.expectedCalls, if_neg (by omega)]

theorem tail_calls (schedule : List ℕ) (aligned : Aligned w)
    (log : whole = (records.foldl Writer.addRecord w).dest) (number : SameNumber w.recycleLogFiles w.logNumber options)
    (state : TailState whole (whole.take visible) w r records) (growing : (visible :: schedule).Pairwise (· ≤ ·)) :
    ∃ r', r'.reader.reports = r.reader.reports ∧
      CallsReturn metadata options (schedule.map whole.take) r (r', Writer.expectedCalls w records schedule) := by
  induction schedule generalizing w r records visible with
  | nil =>
    refine ⟨r, rfl, 0, fun fuel => ?_⟩
    rw [map_nil, FragmentBufferedReader.calls]
    cases records <;> rfl
  | cons next schedule ih =>
    obtain ⟨first, later⟩ := pairwise_cons.mp growing
    have grows : whole.take visible <+: whole.take next := take_prefix_take_left (first next mem_cons_self)
    obtain ⟨r₁, record, w', rest, returns, reports, aligned', eq, log', state', expected⟩ :=
      tail_call metadata aligned log number (state.grow grows)
    obtain ⟨r', reports', calls⟩ := ih aligned' log' (by rw [eq.1, eq.2]; exact number) state' later
    refine ⟨r', reports'.trans reports, ?_⟩
    rw [expected]
    exact .cons returns calls

theorem expectedCalls_inOrder (schedule : List ℕ) (records : List Bytes) (w : Writer) :
    (Writer.expectedCalls w records schedule).reduceOption <+: records := by
  induction schedule generalizing records w with
  | nil =>
    cases records
    · exact prefix_refl _
    · exact nil_prefix
  | cons visible schedule ih =>
    cases records with
    | nil => exact ih [] w
    | cons record records =>
      rw [Writer.expectedCalls]
      split
      · rw [reduceOption_cons_of_some]
        exact (prefix_cons_inj record).mpr (ih records _)
      · exact ih (record :: records) w

theorem tailing_loses_nothing (metadata : Metadata σ) (state : σ) (recycle checksum : Bool) (logNumber : ℕ)
    (small : recycle = true → logNumber < 2 ^ 32) (records : List Bytes) (schedule : List ℕ)
    (growing : schedule.Pairwise (· ≤ ·)) :
    let w : Writer := { logNumber := logNumber, recycleLogFiles := recycle }
    let file := (records.foldl Writer.addRecord w).dest
    (Writer.expectedCalls w records schedule).reduceOption <+: records ∧
      ∃ r : FragmentBufferedReader σ, r.reader.reports = [] ∧
        CallsReturn metadata { checksum := checksum, logNumber := logNumber } (schedule.map file.take)
          { reader := { metadata := state } } (r, Writer.expectedCalls w records schedule) := by
  intro w file
  refine ⟨expectedCalls_inOrder schedule records w, ?_⟩
  have aligned : Aligned w := ⟨Nat.zero_le _, rfl⟩
  have start : TailState file (file.take 0) w ({ reader := { metadata := state } } : FragmentBufferedReader σ) records :=
    tailState_enter aligned (prefix_refl _) (tails_start _ state) (fun _ read => nomatch read) ⟨rfl, fun _ => rfl⟩
  exact tail_calls schedule aligned rfl (fun on => ⟨rfl, small on⟩) start
    (pairwise_cons.mpr ⟨fun _ _ => Nat.zero_le _, growing⟩)

theorem tailing_loses_nothing_parts : let w : Writer := { logNumber := 7, recycleLogFiles := true }
    let records : List Bytes := [[1, 2, 3], [4]]
    ∃ r : FragmentBufferedReader Unit, r.reader.reports = [] ∧
      CallsReturn ⟨fun _ _ _ _ _ state => (state, [])⟩ { logNumber := 7 }
        ([5, 14, 20, 26].map (records.foldl Writer.addRecord w).dest.take) { reader := { metadata := () } }
        (r, [none, some [1, 2, 3], none, some [4]]) := by
  intro w records
  have expected : Writer.expectedCalls w records [5, 14, 20, 26] = [none, some [1, 2, 3], none, some [4]] := by decide +kernel
  have read := (tailing_loses_nothing ⟨fun _ _ _ _ _ state => (state, [])⟩
    () true true 7 (fun _ => by decide) records [5, 14, 20, 26] (by decide)).2
  rw [expected] at read
  exact read

end VcompProof.Wal
