import Mathlib.Algebra.Group.Nat.Defs
import Mathlib.Data.Prod.Lex

namespace VcompModel

inductive ValueType where
  | deletion
  | value
  | merge
  | singleDeletion
  | rangeDeletion
  | blobIndex
  | deletionWithTimestamp
  | wideColumnEntity
  | valuePreferredSeqno
  | maxValid
  deriving DecidableEq, Repr

def ValueType.code : ValueType → ℕ
  | .deletion => 0x0
  | .value => 0x1
  | .merge => 0x2
  | .singleDeletion => 0x7
  | .rangeDeletion => 0xF
  | .blobIndex => 0x11
  | .deletionWithTimestamp => 0x14
  | .wideColumnEntity => 0x16
  | .valuePreferredSeqno => 0x18
  | .maxValid => 0x1A

def kMaxSequenceNumber : ℕ := 2 ^ 56 - 1

structure EntryKey (K : Type) where
  userKey : K
  sequence : ℕ
  type : ValueType
  deriving DecidableEq, Repr

namespace EntryKey

variable {K : Type}

def packed (k : EntryKey K) : ℕ := k.sequence * 256 + k.type.code

def rank (k : EntryKey K) : K ×ₗ ℕᵒᵈ := toLex (k.userKey, OrderDual.toDual k.packed)

end EntryKey

end VcompModel

namespace VcompProof

open VcompModel

variable {K : Type}

theorem code_lt (type : ValueType) : type.code < 256 := by cases type <;> decide

theorem code_injective : Function.Injective ValueType.code := by
  intro a b eq
  revert eq
  cases a <;> cases b <;> decide

theorem packed_injective {a b : EntryKey K} (user : a.userKey = b.userKey) (eq : a.packed = b.packed) : a = b := by
  have first := code_lt a.type
  have second := code_lt b.type
  simp only [EntryKey.packed] at eq
  have code : a.type.code = b.type.code := by omega
  have sequence : a.sequence = b.sequence := by omega
  cases a
  cases b
  simp only at user sequence code
  rw [user, sequence, code_injective code]

theorem rank_injective : Function.Injective (EntryKey.rank (K := K)) := by
  intro a b eq
  obtain ⟨user, number⟩ := Prod.mk.inj (toLex.injective eq)
  exact packed_injective user (OrderDual.toDual.injective number)

instance [LinearOrder K] : LinearOrder (EntryKey K) := LinearOrder.lift' EntryKey.rank rank_injective

variable [LinearOrder K] {a b : EntryKey K}

theorem internalKey_lt : a < b ↔ a.userKey < b.userKey ∨ a.userKey = b.userKey ∧ b.packed < a.packed := by
  change a.rank < b.rank ↔ _
  rw [EntryKey.rank, EntryKey.rank, Prod.Lex.toLex_lt_toLex]
  exact Iff.rfl

theorem internalKey_le : a ≤ b ↔ a.userKey < b.userKey ∨ a.userKey = b.userKey ∧ b.packed ≤ a.packed := by
  change a.rank ≤ b.rank ↔ _
  rw [EntryKey.rank, EntryKey.rank, Prod.Lex.toLex_le_toLex]
  exact Iff.rfl

theorem userKey_le (before : a ≤ b) : a.userKey ≤ b.userKey := by
  rcases internalKey_le.mp before with lt | ⟨eq, -⟩
  · exact lt.le
  · exact eq.le

example : (⟨3, 7, .value⟩ : EntryKey ℕ) < ⟨3, 5, .value⟩ := by decide

end VcompProof
