import Mathlib.Data.BitVec
import Vcomp.Plr.Model

namespace VcompModel

/-- The doubling loop of `InvertXorShift`. Seven rounds take any shift past 63. -/
def invertXorShiftLoop : ℕ → ℕ → BitVec 64 → BitVec 64
  | 0, _, x => x
  | fuel + 1, s, x => if s < 64 then invertXorShiftLoop fuel (s * 2) (x ^^^ (x >>> s)) else x

def invertXorShift (y : BitVec 64) (shift : ℕ) : BitVec 64 := invertXorShiftLoop 7 shift y

def kmvHashWord (x : BitVec 64) : BitVec 64 :=
  let x := x + 0x9e3779b97f4a7c15#64
  let x := (x ^^^ (x >>> 30)) * 0xbf58476d1ce4e5b9#64
  let x := (x ^^^ (x >>> 27)) * 0x94d049bb133111eb#64
  x ^^^ (x >>> 31)

def kmvUnhashWord (x : BitVec 64) : BitVec 64 :=
  let x := invertXorShift x 31
  let x := x * 0x319642b2d24d8ec3#64
  let x := invertXorShift x 27
  let x := x * 0x96de1b173f119089#64
  let x := invertXorShift x 30
  x - 0x9e3779b97f4a7c15#64

def kmvHash (key : ℕ) : ℕ := (kmvHashWord (BitVec.ofNat 64 key)).toNat
def kmvUnhash (hash : ℕ) : ℕ := (kmvUnhashWord (BitVec.ofNat 64 hash)).toNat

end VcompModel

namespace VcompProof

open VcompModel

variable (x : BitVec 64)

theorem xorShift_twice (s : ℕ) : (x ^^^ (x >>> s)) ^^^ ((x ^^^ (x >>> s)) >>> s) = x ^^^ (x >>> (s * 2)) := by
  rw [BitVec.ushiftRight_xor_distrib, ← BitVec.shiftRight_add, ← Nat.mul_two]
  rw [BitVec.xor_assoc, ← BitVec.xor_assoc (x >>> s) (x >>> s), BitVec.xor_self, BitVec.zero_xor]

theorem xorShift_past_width {s : ℕ} (past : 64 ≤ s) : x ^^^ (x >>> s) = x := by
  rw [BitVec.ushiftRight_eq_zero past, BitVec.xor_zero]

theorem invertXorShiftLoop_inverts (fuel s : ℕ) (x : BitVec 64) (enough : 64 ≤ s * 2 ^ fuel) :
    invertXorShiftLoop fuel s (x ^^^ (x >>> s)) = x := by
  induction fuel generalizing s with
  | zero => exact xorShift_past_width x (by simpa using enough)
  | succ fuel ih =>
    simp only [invertXorShiftLoop]
    split_ifs with small
    · rw [xorShift_twice]
      apply ih
      rw [pow_succ] at enough
      calc 64 ≤ s * (2 ^ fuel * 2) := enough
        _ = s * 2 * 2 ^ fuel := by ring
    · exact xorShift_past_width x (not_lt.mp small)

theorem invertXorShift_inverts {s : ℕ} (pos : 1 ≤ s) : invertXorShift (x ^^^ (x >>> s)) s = x :=
  invertXorShiftLoop_inverts 7 s x (by omega)

theorem mul_inverse_cancel {a b : BitVec 64} (inverse : a * b = 1#64) (x : BitVec 64) : x * a * b = x := by
  rw [BitVec.mul_assoc, inverse, BitVec.mul_one]

theorem kmvUnhashWord_kmvHashWord : kmvUnhashWord (kmvHashWord x) = x := by
  simp only [kmvUnhashWord, kmvHashWord]
  rw [invertXorShift_inverts _ (by decide), mul_inverse_cancel (by decide),
    invertXorShift_inverts _ (by decide), mul_inverse_cancel (by decide),
    invertXorShift_inverts _ (by decide), BitVec.add_sub_cancel]

theorem kmvHashWord_kmvUnhashWord : kmvHashWord (kmvUnhashWord x) = x := by
  have injective : Function.Injective kmvHashWord := Function.LeftInverse.injective kmvUnhashWord_kmvHashWord
  have finite : Finite (BitVec 64) := Finite.of_injective _ fun _ _ => BitVec.eq_of_toFin_eq
  obtain ⟨y, rfl⟩ := Finite.surjective_of_injective injective x
  rw [kmvUnhashWord_kmvHashWord]

theorem kmvHash_lt (key : ℕ) : kmvHash key < word64 := (kmvHashWord (BitVec.ofNat 64 key)).isLt

theorem kmvUnhash_kmvHash {key : ℕ} (small : key < word64) : kmvUnhash (kmvHash key) = key := by
  unfold kmvUnhash kmvHash
  rw [BitVec.ofNat_toNat, BitVec.setWidth_eq, kmvUnhashWord_kmvHashWord, BitVec.toNat_ofNat]
  exact Nat.mod_eq_of_lt small

theorem kmvHash_kmvUnhash {hash : ℕ} (small : hash < word64) : kmvHash (kmvUnhash hash) = hash := by
  unfold kmvUnhash kmvHash
  rw [BitVec.ofNat_toNat, BitVec.setWidth_eq, kmvHashWord_kmvUnhashWord, BitVec.toNat_ofNat]
  exact Nat.mod_eq_of_lt small

theorem kmvUnhash_inverse :
    (∀ key < word64, kmvUnhash (kmvHash key) = key) ∧ (∀ hash < word64, kmvHash (kmvUnhash hash) = hash) ∧
      ∀ (x : BitVec 64) (s : ℕ), 1 ≤ s → s ≤ 63 → invertXorShift (x ^^^ (x >>> s)) s = x :=
  ⟨fun _ => kmvUnhash_kmvHash, fun _ => kmvHash_kmvUnhash, fun x _ positive _ => invertXorShift_inverts x positive⟩

theorem kmvUnhash_inverse_largest :
    kmvUnhash (kmvHash (word64 - 1)) = word64 - 1 ∧ kmvHash (kmvUnhash (word64 - 1)) = word64 - 1 ∧
      invertXorShift (7#64 ^^^ (7#64 >>> 1)) 1 = 7#64 :=
  ⟨kmvUnhash_inverse.1 _ (by decide), kmvUnhash_inverse.2.1 _ (by decide), kmvUnhash_inverse.2.2 7 1 (by decide) (by decide)⟩

theorem kmvHash_injective {a b : ℕ} (ha : a < word64) (hb : b < word64) (eq : kmvHash a = kmvHash b) : a = b := by
  rw [← kmvUnhash_kmvHash ha, eq, kmvUnhash_kmvHash hb]

end VcompProof
