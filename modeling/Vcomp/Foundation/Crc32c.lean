import Mathlib.Logic.Function.Iterate

namespace Crc32c

variable (crc : BitVec 32) (a b : BitVec 32)

def poly : BitVec 32 := 0x82f63b78#32

def shift (c : BitVec 32) : BitVec 32 := (c >>> 1) ^^^ (if c.getLsbD 0 then poly else 0)

def pureByte (c : BitVec 32) (byte : UInt8) : BitVec 32 := shift^[8] (c ^^^ byte.toBitVec.setWidth 32)

def pureExtend (c : BitVec 32) (bytes : List UInt8) : BitVec 32 := bytes.foldl pureByte c

/-- The checksum of `A ++ bytes`, where `crc` is that of `A`. -/
def extend (crc : BitVec 32) (bytes : List UInt8) : BitVec 32 := ~~~ pureExtend (~~~ crc) bytes

def value (bytes : List UInt8) : BitVec 32 := extend 0#32 bytes

def appendZeroes (c : BitVec 32) (n : ℕ) : BitVec 32 := pureExtend c (List.replicate n 0)

/-- The checksum of a concatenation, from those of its parts and the length of the second. -/
def combine (crc1 crc2 : BitVec 32) (len2 : ℕ) : BitVec 32 :=
  ~~~ (appendZeroes (~~~ crc1 ^^^ ~~~ 0#32) len2 ^^^ ~~~ crc2)

theorem shift_xor : shift (a ^^^ b) = shift a ^^^ shift b := by
  have carry : ∀ x y : Bool, (if (x ^^ y) = true then poly else 0) = (if x then poly else 0) ^^^ (if y then poly else 0) := by
    decide
  unfold shift
  rw [BitVec.getLsbD_xor, BitVec.ushiftRight_xor_distrib, carry]
  ac_rfl

theorem shifts_xor (n : ℕ) (a b : BitVec 32) : shift^[n] (a ^^^ b) = shift^[n] a ^^^ shift^[n] b := by
  induction n generalizing a b with
  | zero => rfl
  | succ n ih => rw [Function.iterate_succ_apply, Function.iterate_succ_apply, Function.iterate_succ_apply, shift_xor, ih]

theorem pureByte_xor (byte : UInt8) : pureByte (a ^^^ b) byte = pureByte a byte ^^^ pureByte b 0 := by
  unfold pureByte
  rw [← shifts_xor]
  congr 1
  change _ = _ ^^^ (b ^^^ 0#32)
  rw [BitVec.xor_zero, BitVec.xor_assoc, BitVec.xor_assoc, BitVec.xor_comm b]

theorem pureExtend_xor (bytes : List UInt8) :
    pureExtend (a ^^^ b) bytes = pureExtend a bytes ^^^ appendZeroes b bytes.length := by
  induction bytes generalizing a b with
  | nil => rfl
  | cons byte bytes ih =>
    change pureExtend (pureByte (a ^^^ b) byte) bytes =
        pureExtend (pureByte a byte) bytes ^^^ appendZeroes (pureByte b 0) bytes.length
    rw [pureByte_xor, ih]

theorem extend_nil : extend crc [] = crc := BitVec.not_not

theorem extend_append (a b : List UInt8) : extend crc (a ++ b) = extend (extend crc a) b := by
  unfold extend pureExtend
  rw [List.foldl_append, BitVec.not_not]

theorem value_append (a b : List UInt8) : value (a ++ b) = extend (value a) b := extend_append 0#32 a b

theorem combine_value (bytes : List UInt8) : combine crc (value bytes) bytes.length = extend crc bytes := by
  unfold combine value extend
  rw [BitVec.not_not, BitVec.xor_comm, ← pureExtend_xor]
  congr 2
  rw [BitVec.xor_comm, BitVec.xor_assoc, BitVec.xor_self, BitVec.xor_zero]

def maskDelta : BitVec 32 := 0xa282ead8#32

/-- A stored checksum: rotated and moved by a constant. -/
def mask (crc : BitVec 32) : BitVec 32 := ((crc >>> 15) ||| (crc <<< 17)) + maskDelta

def unmask (masked : BitVec 32) : BitVec 32 :=
  let rot := masked - maskDelta
  (rot >>> 17) ||| (rot <<< 15)

theorem unmask_mask (crc : BitVec 32) : unmask (mask crc) = crc := by
  unfold unmask mask
  dsimp only
  rw [BitVec.add_sub_cancel]
  apply BitVec.eq_of_getLsbD_eq
  intro i lt
  simp only [BitVec.getLsbD_or, BitVec.getLsbD_ushiftRight, BitVec.getLsbD_shiftLeft]
  by_cases low : i < 15
  · grind
  · grind

end Crc32c
