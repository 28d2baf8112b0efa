import Mathlib.Algebra.Order.Ring.Nat

namespace LittleEndian

def encode : ℕ → ℕ → List UInt8
  | 0, _ => []
  | width + 1, n => UInt8.ofNat n :: encode width (n / 256)

def decode : List UInt8 → ℕ
  | [] => 0
  | byte :: bytes => byte.toNat + 256 * decode bytes

def take (width : ℕ) (bytes : List UInt8) : Option (List UInt8 × List UInt8) :=
  if width ≤ bytes.length then some (bytes.take width, bytes.drop width) else none

def read (width : ℕ) (bytes : List UInt8) : Option (ℕ × List UInt8) :=
  (take width bytes).map fun (field, rest) => (decode field, rest)

@[simp] theorem length_encode (width n : ℕ) : (encode width n).length = width := by
  induction width generalizing n with
  | zero => rfl
  | succ width ih => simp [encode, ih]

theorem decode_encode {width n : ℕ} (fits : n < 256 ^ width) : decode (encode width n) = n := by
  induction width generalizing n with
  | zero =>
    rw [pow_zero] at fits
    simp only [encode, decode]
    omega
  | succ width ih =>
    rw [pow_succ] at fits
    have low : (UInt8.ofNat n).toNat = n % 256 := rfl
    simp only [encode, decode, low]
    rw [ih (by omega)]
    omega

theorem take_append (field rest : List UInt8) : take field.length (field ++ rest) = some (field, rest) := by
  simp [take]

theorem read_encode {width n : ℕ} (fits : n < 256 ^ width) (rest : List UInt8) :
    read width (encode width n ++ rest) = some (n, rest) := by
  have taken := take_append (encode width n) rest
  rw [length_encode] at taken
  simp only [read, taken, Option.map_some, decode_encode fits]

end LittleEndian
