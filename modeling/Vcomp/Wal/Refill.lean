import Vcomp.Wal.Physical
import Vcomp.Wal.Tailing

namespace VcompProof.Wal

open VcompModel.Wal List

variable {σ : Type} {options : ReaderOptions} {file : Bytes} {r : Reader σ} {p : ℕ} {r' : Reader σ}

/-- Where the file's position is: in the block of `p`, at its end, or before a block that is not read yet. -/
inductive Reached (r : Reader σ) (p : ℕ) : Prop where
  | inside (eof : r.eof = true) (less : r.position < blockEnd p) (offset : r.eofOffset + blockEnd p = r.position + kBlockSize)
  | full (eof : r.eof = false) (ended : r.position = blockEnd p)
  | fresh (eof : r.eof = false) (here : r.position = p) (start : p % kBlockSize = 0)

/-- The buffer is what was read of the visible file from `p` on. -/
structure Tails (file : Bytes) (r : Reader σ) (p : ℕ) : Prop where
  le : p ≤ r.position
  visible : r.position ≤ file.length
  buffer : r.buffer = (file.take r.position).drop p
  reached : Reached r p

theorem tails_start (file : Bytes) (state : σ) : Tails file { metadata := state } 0 :=
  ⟨Nat.le_refl _, Nat.zero_le _, rfl, .fresh rfl rfl rfl⟩

theorem Tails.length (tails : Tails file r p) : r.buffer.length = r.position - p := by
  rw [tails.buffer, length_drop, length_take, min_eq_left tails.visible]

theorem Tails.grow {later : Bytes} (tails : Tails file r p) (grows : file <+: later) : Tails later r p := by
  obtain ⟨more, rfl⟩ := grows
  refine ⟨tails.le, ?_, ?_, tails.reached⟩
  · rw [length_append]
    exact le_trans tails.visible (Nat.le_add_right _ _)
  · rw [tails.buffer, take_append_of_le_length tails.visible]

theorem Tails.congr (tails : Tails file r p) (buffer : r'.buffer = r.buffer) (position : r'.position = r.position)
    (eof : r'.eof = r.eof) (offset : r'.eofOffset = r.eofOffset) : Tails file r' p := by
  refine ⟨position ▸ tails.le, position ▸ tails.visible, by rw [buffer, position, tails.buffer], ?_⟩
  rcases tails.reached with ⟨at_eof, lt, base⟩ | ⟨more, ended⟩ | ⟨more, here, start⟩
  · exact .inside (eof.trans at_eof) (position ▸ lt) (by rw [offset, position, base])
  · exact .full (eof.trans more) (position.trans ended)
  · exact .fresh (eof.trans more) (position.trans here) start

theorem Tails.consume (tails : Tails file r p) {n : ℕ} (held : p + n ≤ r.position) (buffer : r'.buffer = r.buffer.drop n)
    (position : r'.position = r.position) (eof : r'.eof = r.eof) (offset : r'.eofOffset = r.eofOffset) :
    Tails file r' (p + n) := by
  refine ⟨position ▸ held, position ▸ tails.visible, by rw [buffer, position, tails.buffer, drop_drop], ?_⟩
  rcases tails.reached with ⟨at_eof, lt, base⟩ | ⟨more, ended⟩ | ⟨more, here, start⟩
  · have eq := blockEnd_eq (Nat.le_add_right p n) (by omega)
    exact .inside (eof.trans at_eof) (by rw [position, eq]; exact lt) (by rw [offset, position, eq, base])
  · rcases lt_or_eq_of_le held with inside | all
    · have eq := blockEnd_eq (Nat.le_add_right p n) (by omega)
      exact .full (eof.trans more) (by rw [position, eq, ended])
    · exact .fresh (eof.trans more) (position.trans all.symm) (by rw [all, ended, blockEnd_mod])
  · obtain rfl : n = 0 := by omega
    exact .fresh (eof.trans more) (position.trans here) start

theorem tryReadMore_eof (tails : Tails file r p) (eof : r.eof = true) :
    Tails file (r.tryReadMore file) p ∧ SameFlags r (r.tryReadMore file) ∧
      (r.tryReadMore file).position = min file.length (blockEnd p) := by
  obtain ⟨le, visible, buffer, reached⟩ := tails
  rcases reached with ⟨-, lt, base⟩ | ⟨more, -⟩ | ⟨more, -, -⟩
  · rw [Reader.tryReadMore, if_pos eof]
    have width : kBlockSize - r.eofOffset = blockEnd p - r.position := by omega
    have added : ((file.drop r.position).take (kBlockSize - r.eofOffset)).length =
        min file.length (blockEnd p) - r.position := by
      rw [length_take, length_drop, width]
      omega
    have position : (r.unmarkEof file).position = min file.length (blockEnd p) := by
      change r.position + _ = _
      rw [added]
      omega
    refine ⟨⟨by rw [position]; omega, by rw [position]; omega, ?_, ?_⟩, ⟨rfl, rfl, rfl⟩, position⟩
    · rw [position]
      change r.buffer ++ (file.drop r.position).take (kBlockSize - r.eofOffset) = _
      have split : min file.length (blockEnd p) = r.position + (min file.length (blockEnd p) - r.position) := by omega
      have trim : (file.drop r.position).take (kBlockSize - r.eofOffset) =
          (file.drop r.position).take (min file.length (blockEnd p) - r.position) := by
        rw [← added, length_take, ← take_eq_take_min]
      rw [buffer, trim, split, take_add, drop_append_of_le_length (by rw [length_take]; omega), ← split]
    · by_cases part : file.length < blockEnd p
      · apply Reached.inside
        · change decide (_ < _) = true
          exact decide_eq_true (by rw [added]; omega)
        · rw [position]
          omega
        · change (if _ < _ then _ else _) + _ = _
          rw [if_pos (by rw [added]; omega), added, position]
          omega
      · apply Reached.full
        · change decide (_ < _) = false
          exact decide_eq_false (by rw [added]; omega)
        · rw [position]
          omega
  · rw [eof] at more
    cases more
  · rw [eof] at more
    cases more

theorem tryReadMore_block (visible : p ≤ file.length) (position : r.position = p) (start : p % kBlockSize = 0)
    (eof : r.eof = false) :
    Tails file (r.tryReadMore file) p ∧ SameFlags r (r.tryReadMore file) ∧
      (r.tryReadMore file).position = min file.length (blockEnd p) ∧
      (r.tryReadMore file).eof = decide (file.length < blockEnd p) := by
  rw [Reader.tryReadMore, eof, if_neg Bool.false_ne_true]
  obtain ⟨loaded, flags⟩ := readBlock_loaded visible position start
  have stop : blockEnd p = p + kBlockSize := by
    unfold blockEnd
    rw [start, Nat.sub_zero]
  have lt := lt_blockEnd p
  refine ⟨⟨by rw [loaded.position]; omega, by rw [loaded.position]; omega, loaded.buffer, ?_⟩, flags,
    loaded.position, loaded.eof⟩
  by_cases part : file.length < blockEnd p
  · apply Reached.inside
    · rw [loaded.eof]
      exact decide_eq_true part
    · rw [loaded.position]
      omega
    · have read : ((file.drop r.position).take kBlockSize).length = file.length - p := by
        rw [length_take, length_drop, position]
        omega
      change (if _ < _ then _ else _) + _ = _
      rw [read, if_pos (by omega), loaded.position]
      omega
  · apply Reached.full
    · rw [loaded.eof]
      exact decide_eq_false part
    · rw [loaded.position]
      omega

section

variable {need fuel : ℕ} {replaced : Bool}

theorem refill_done (held : need ≤ r.buffer.length) : r.refill file need (fuel + 1) replaced = .ok (r, some replaced) := by
  rw [Reader.refill, if_pos held]

theorem refill_stop (short : r.buffer.length < need) (eq : r.buffer.length = (r.tryReadMore file).buffer.length) :
    r.refill file need (fuel + 1) replaced = .ok (r.tryReadMore file, none) := by
  rw [Reader.refill, if_neg (not_le.mpr short), if_pos eq]

theorem refill_more (short : r.buffer.length < need) (grown : r.buffer.length ≠ (r.tryReadMore file).buffer.length) :
    r.refill file need (fuel + 1) replaced = (r.tryReadMore file).refill file need fuel (replaced || !r.eof) := by
  rw [Reader.refill, if_neg (not_le.mpr short), if_neg grown]

def InBlock (r : Reader σ) (p : ℕ) : Prop := r.eof = true ∨ r.position = blockEnd p

variable (tails : Tails file r p)
include tails

theorem Tails.inBlock (some : p < r.position) : InBlock r p := by
  rcases tails.reached with ⟨eof, -, -⟩ | ⟨-, ended⟩ | ⟨-, here, -⟩
  · exact .inl eof
  · exact .inr ended
  · omega

theorem refill_visible (inBlock : InBlock r p) (inside : p + need ≤ blockEnd p) (visible : p + need ≤ file.length) :
    ∃ r', Tails file r' p ∧ SameFlags r r' ∧ p + need ≤ r'.position ∧
      ∀ fuel replaced, r.refill file need (fuel + 2) replaced = .ok (r', some replaced) := by
  have length := tails.length
  have le := tails.le
  by_cases held : need ≤ r.buffer.length
  · exact ⟨r, tails, ⟨rfl, rfl, rfl⟩, by omega, fun fuel replaced => refill_done held⟩
  have eof : r.eof = true := inBlock.resolve_right fun ended => by omega
  obtain ⟨tails', flags, position⟩ := tryReadMore_eof tails eof
  have length' := tails'.length
  refine ⟨r.tryReadMore file, tails', flags, by omega, fun fuel replaced => ?_⟩
  rw [refill_more (not_le.mp held) (by omega), eof, Bool.not_true, Bool.or_false]
  exact refill_done (by omega)

theorem refill_ended (eof : r.eof = true) (ended : file.length < blockEnd p) (hidden : file.length < p + need) :
    ∃ r', Tails file r' p ∧ SameFlags r r' ∧ ∀ fuel replaced, r.refill file need (fuel + 2) replaced = .ok (r', none) := by
  have length := tails.length
  have le := tails.le
  have reach := tails.visible
  obtain ⟨tails₁, flags₁, position₁⟩ := tryReadMore_eof tails eof
  have length₁ := tails₁.length
  by_cases eq : r.buffer.length = (r.tryReadMore file).buffer.length
  · exact ⟨_, tails₁, flags₁, fun fuel replaced => refill_stop (by omega) eq⟩
  -- all that is visible is in the buffer now
  have inBlock₁ : (r.tryReadMore file).eof = true := by
    rcases tails₁.reached with ⟨eof, -, -⟩ | ⟨-, ended⟩ | ⟨-, here, -⟩
    · exact eof
    · omega
    · omega
  obtain ⟨tails₂, flags₂, position₂⟩ := tryReadMore_eof tails₁ inBlock₁
  have length₂ := tails₂.length
  refine ⟨_, tails₂, flags₁.trans flags₂, fun fuel replaced => ?_⟩
  rw [refill_more (by omega) eq]
  exact refill_stop (by omega) (by omega)

theorem refill_hidden (inBlock : InBlock r p) (inside : p + need ≤ blockEnd p) (hidden : file.length < p + need) :
    ∃ r', Tails file r' p ∧ SameFlags r r' ∧ ∀ fuel replaced, r.refill file need (fuel + 2) replaced = .ok (r', none) := by
  have reach := tails.visible
  exact refill_ended tails (inBlock.resolve_right fun ended => by omega) (by omega) hidden

end

variable {recycle : Bool}

theorem kHeaderSize_inside {q : ℕ} (start : q % kBlockSize = 0) : q + kHeaderSize ≤ blockEnd q := by
  unfold blockEnd kBlockSize kHeaderSize at *
  omega

theorem await_block {q : ℕ} (visible : q ≤ file.length) (position : r.position = q) (start : q % kBlockSize = 0)
    (eof : r.eof = false) (short : r.buffer.length < kHeaderSize) : ∃ r' ready, Tails file r' q ∧ SameFlags r r' ∧
      (ready = true → q + kHeaderSize ≤ r'.position) ∧ (ready = false → file.length < q + kHeaderSize) ∧
      ∀ fuel replaced, ∃ answer : Option Bool, answer.isSome = ready ∧
        r.refill file kHeaderSize (fuel + 3) replaced = .ok (r', answer) := by
  have inside := kHeaderSize_inside start
  obtain ⟨tails₁, flags₁, position₁, eof₁⟩ := tryReadMore_block visible position start eof
  have length₁ := tails₁.length
  by_cases eq : r.buffer.length = (r.tryReadMore file).buffer.length
  · refine ⟨_, false, tails₁, flags₁, nofun, fun _ => ?_, fun fuel replaced => ⟨none, rfl, refill_stop short eq⟩⟩
    omega
  by_cases all : q + kHeaderSize ≤ file.length
  · refine ⟨_, true, tails₁, flags₁, fun _ => by omega, nofun, fun fuel replaced => ⟨some (replaced || !r.eof), rfl, ?_⟩⟩
    rw [refill_more short eq]
    exact refill_done (by omega)
  · have inBlock : InBlock (r.tryReadMore file) q := .inl (by rw [eof₁]; exact decide_eq_true (by omega))
    obtain ⟨r', tails₂, flags₂, stopped⟩ := refill_hidden tails₁ inBlock inside (not_le.mp all)
    refine ⟨r', false, tails₂, flags₁.trans flags₂, nofun, fun _ => not_le.mp all, fun fuel replaced => ⟨none, rfl, ?_⟩⟩
    rw [refill_more short eq, stopped]

theorem await_header (tails : Tails file r p) (small : padding recycle p < kHeaderSize) :
    ∃ r' p' ready, Tails file r' p' ∧ SameFlags r r' ∧ (p' = p ∨ p' = headerStart recycle p) ∧
      (ready = true → p' = headerStart recycle p ∧ headerStart recycle p + kHeaderSize ≤ r'.position) ∧
      (ready = false → file.length < headerStart recycle p + kHeaderSize) ∧
      ∀ fuel, ∃ answer : Option Bool, answer.isSome = ready ∧
        r.refill file kHeaderSize (fuel + 4) false = .ok (r', answer) := by
  have size := headerSize_le recycle
  have room := headerStart_room recycle p
  rcases padding_cases recycle p with ⟨no, _⟩ | ⟨yes, _, boundary⟩
  · have here : headerStart recycle p = p := by rw [headerStart, no, add_zero]
    rw [here] at room ⊢
    have within : p + kHeaderSize ≤ blockEnd p := by omega
    rcases tails.reached with ⟨eof, lt, base⟩ | ⟨eof, ended⟩ | ⟨eof, position, start⟩
    · by_cases visible : p + kHeaderSize ≤ file.length
      · obtain ⟨r', tails', flags, held, answer⟩ := refill_visible tails (.inl eof) within visible
        exact ⟨r', p, true, tails', flags, .inl rfl, fun _ => ⟨rfl, held⟩, Bool.noConfusion,
          fun fuel => ⟨some false, rfl, answer _ _⟩⟩
      · obtain ⟨r', tails', flags, answer⟩ := refill_hidden tails (.inl eof) within (not_le.mp visible)
        exact ⟨r', p, false, tails', flags, .inl rfl, Bool.noConfusion, fun _ => not_le.mp visible,
          fun fuel => ⟨none, rfl, answer _ _⟩⟩
    · have visible := tails.visible
      obtain ⟨r', tails', flags, held, answer⟩ := refill_visible tails (.inr ended) within (by omega)
      exact ⟨r', p, true, tails', flags, .inl rfl, fun _ => ⟨rfl, held⟩, Bool.noConfusion,
        fun fuel => ⟨some false, rfl, answer _ _⟩⟩
    · have visible := tails.visible
      have length := tails.length
      obtain ⟨r', ready, tails', flags, held, hidden, refilled⟩ :=
        await_block (show p ≤ file.length by omega) position start eof (by unfold kHeaderSize; omega)
      exact ⟨r', p, ready, tails', flags, .inl rfl, fun is => ⟨rfl, held is⟩, hidden, fun fuel => refilled _ _⟩
  · -- a narrow trailer is behind: it stays in the buffer until the block is complete
    have width : blockEnd p = p + padding recycle p := boundary.symm
    have length := tails.length
    have visible := tails.visible
    have full (r₁ : Reader σ) (tails₁ : Tails file r₁ p) (eof₁ : r₁.eof = false) (ended : r₁.position = blockEnd p) :
        ∃ r' ready, Tails file r' (headerStart recycle p) ∧ SameFlags r₁ r' ∧
          (ready = true → headerStart recycle p + kHeaderSize ≤ r'.position) ∧
          (ready = false → file.length < headerStart recycle p + kHeaderSize) ∧
          ∀ fuel replaced, ∃ answer : Option Bool, answer.isSome = ready ∧
            r₁.refill file kHeaderSize (fuel + 3) replaced = .ok (r', answer) := by
      have length₁ := tails₁.length
      have visible₁ := tails₁.visible
      rw [boundary]
      exact await_block (by omega) ended (blockEnd_mod p) eof₁ (by omega)
    rcases tails.reached with ⟨eof, lt, base⟩ | ⟨eof, ended⟩ | ⟨eof, position, start⟩
    · obtain ⟨tails₁, flags₁, position₁⟩ := tryReadMore_eof tails eof
      have length₁ := tails₁.length
      by_cases complete : blockEnd p ≤ file.length
      · have eof₁ : (r.tryReadMore file).eof = false := by
          rcases tails₁.reached with ⟨-, lt, -⟩ | ⟨eof, -⟩ | ⟨eof, -, -⟩
          · omega
          · exact eof
          · exact eof
        obtain ⟨r', ready, tails', flags, held, hidden, refilled⟩ := full _ tails₁ eof₁ (by omega)
        refine ⟨r', _, ready, tails', flags₁.trans flags, .inr rfl, fun is => ⟨rfl, held is⟩, hidden, fun fuel => ?_⟩
        obtain ⟨answer, is, rest⟩ := refilled fuel (false || !r.eof)
        refine ⟨answer, is, ?_⟩
        rw [refill_more (by omega) (by omega)]
        exact rest
      · obtain ⟨r', tails', flags, answer⟩ := refill_ended tails eof (not_le.mp complete)
          (show file.length < p + kHeaderSize by omega)
        exact ⟨r', p, false, tails', flags, .inl rfl, Bool.noConfusion, fun _ => by omega, fun fuel => ⟨none, rfl, answer _ _⟩⟩
    · obtain ⟨r', ready, tails', flags, held, hidden, refilled⟩ := full r tails eof ended
      exact ⟨r', _, ready, tails', flags, .inr rfl, fun is => ⟨rfl, held is⟩, hidden, fun fuel => refilled _ _⟩
    · rw [padding_of_start start] at yes
      omega

end VcompProof.Wal
