import Mathlib.Tactic.Common
import Mathlib.Data.Nat.Notation

/-! Linear equations over bits with coefficients in a window of fixed width. -/

namespace BandedXor

variable {f : ℕ → Bool} {n : ℕ}

/-- The exclusive or of `f 0`, …, `f (n - 1)`. -/
def xorBelow (f : ℕ → Bool) : ℕ → Bool
  | 0 => false
  | n + 1 => xorBelow f n ^^ f n

theorem xorBelow_congr {g : ℕ → Bool} (eq : ∀ k < n, f k = g k) : xorBelow f n = xorBelow g n := by
  induction n with
  | zero => rfl
  | succ n ih => rw [xorBelow, xorBelow, ih fun k lt => eq k (by omega), eq n (by omega)]

theorem xorBelow_false (none : ∀ k < n, f k = false) : xorBelow f n = false := by
  induction n with
  | zero => rfl
  | succ n ih => rw [xorBelow, ih fun k lt => none k (by omega), none n (by omega)]; rfl

theorem xorBelow_xor (f g : ℕ → Bool) (n : ℕ) : xorBelow (fun k => f k ^^ g k) n = (xorBelow f n ^^ xorBelow g n) := by
  induction n with
  | zero => rfl
  | succ n ih =>
    simp only [xorBelow, ih, Bool.xor_assoc, Bool.xor_left_comm]

theorem xorBelow_split (f : ℕ → Bool) {m : ℕ} (le : m ≤ n) :
    xorBelow f n = (xorBelow f m ^^ xorBelow (fun k => f (m + k)) (n - m)) := by
  obtain ⟨d, rfl⟩ := Nat.exists_eq_add_of_le le
  rw [Nat.add_sub_cancel_left]
  induction d with
  | zero => simp [xorBelow]
  | succ d ih => rw [← Nat.add_assoc, xorBelow, xorBelow, ih (Nat.le_add_right m d), Bool.xor_assoc]

theorem xorBelow_drop {m : ℕ} (le : m ≤ n) (none : ∀ k < m, f k = false) :
    xorBelow f n = xorBelow (fun k => f (m + k)) (n - m) := by
  rw [xorBelow_split f le, xorBelow_false none, Bool.false_xor]

theorem xorBelow_take {m : ℕ} (le : m ≤ n) (none : ∀ k, m ≤ k → f k = false) : xorBelow f n = xorBelow f m := by
  rw [xorBelow_split f le, xorBelow_false fun k _ => none (m + k) (Nat.le_add_right m k), Bool.xor_false]

variable {w : ℕ} {x : ℕ → Bool} {start : ℕ}

def parity (v : BitVec w) : Bool := xorBelow v.getLsbD w

theorem parity_xor (a b : BitVec w) : parity (a ^^^ b) = (parity a ^^ parity b) := by
  rw [parity, parity, parity, ← xorBelow_xor]
  exact xorBelow_congr fun k _ => BitVec.getLsbD_xor

/-- The value at `x` of the linear form with coefficients `c` from position `start` on. -/
def dot (c : BitVec w) (x : ℕ → Bool) (start : ℕ) : Bool := xorBelow (fun k => c.getLsbD k && x (start + k)) w

theorem dot_zero (x : ℕ → Bool) (start : ℕ) : dot (0 : BitVec w) x start = false := xorBelow_false fun k _ => by simp

theorem dot_xor (a b : BitVec w) (x : ℕ → Bool) (start : ℕ) : dot (a ^^^ b) x start = (dot a x start ^^ dot b x start) := by
  rw [dot, dot, dot, ← xorBelow_xor]
  apply xorBelow_congr
  intro k _
  rw [BitVec.getLsbD_xor]
  grind

theorem dot_ushiftRight {c : BitVec w} {t : ℕ} (zeros : ∀ k < t, c.getLsbD k = false) (x : ℕ → Bool) (start : ℕ) :
    dot (c >>> t) x (start + t) = dot c x start := by
  have whole : xorBelow (fun k => c.getLsbD k && x (start + k)) (t + w) = dot c x start := by
    apply xorBelow_take (Nat.le_add_left w t)
    intro k beyond
    rw [BitVec.getLsbD_of_ge c _ beyond, Bool.false_and]
  rw [← whole, xorBelow_drop (Nat.le_add_right t w), Nat.add_sub_cancel_left]
  · apply xorBelow_congr
    intro k _
    rw [BitVec.getLsbD_ushiftRight, Nat.add_assoc]
  · intro k lt
    rw [zeros k lt, Bool.false_and]

def Window (v : BitVec w) (x : ℕ → Bool) (start : ℕ) : Prop := ∀ k < w, v.getLsbD k = x (start + k)

theorem Window.dot_eq {v : BitVec w} (window : Window v x start) (c : BitVec w) : dot c x start = parity (v &&& c) := by
  apply xorBelow_congr
  intro k lt
  rw [BitVec.getLsbD_and, window k lt, Bool.and_comm]

theorem dot_straddle {first second : BitVec w} {s : ℕ} (first_window : Window first x start)
    (second_window : Window second x (start + w)) (le : s ≤ w) (c : BitVec w) :
    dot c x (start + s) = parity ((first &&& c <<< s) ^^^ (second &&& c >>> (w - s))) := by
  rw [parity_xor, ← first_window.dot_eq, ← second_window.dot_eq]
  -- the low coefficients meet the first window, the others the second
  have low : dot (c <<< s) x start = xorBelow (fun k => c.getLsbD k && x (start + s + k)) (w - s) := by
    rw [dot, xorBelow_drop le]
    · apply xorBelow_congr
      intro k lt
      have inside : s + k < w := by omega
      have notLow : ¬s + k < s := by omega
      rw [BitVec.getLsbD_shiftLeft, Nat.add_sub_cancel_left, Nat.add_assoc]
      simp [inside, notLow]
    · intro k lt
      simp [lt]
  have high : dot (c >>> (w - s)) x (start + w) =
      xorBelow (fun k => c.getLsbD (w - s + k) && x (start + s + (w - s + k))) s := by
    rw [dot, xorBelow_take le]
    · apply xorBelow_congr
      intro k lt
      rw [BitVec.getLsbD_ushiftRight, show start + w + k = start + s + (w - s + k) by omega]
    · intro k beyond
      rw [BitVec.getLsbD_ushiftRight, BitVec.getLsbD_of_ge c _ (by omega), Bool.false_and]
  rw [low, high, dot, xorBelow_split _ (Nat.sub_le w s), Nat.sub_sub_self le]

end BandedXor
