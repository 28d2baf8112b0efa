import Mathlib.Data.List.Basic

namespace VcompModel

/-- The first byte below 0xff is incremented and ends the key. -/
def findShortSuccessor : List UInt8 → List UInt8
  | [] => []
  | byte :: key => if byte ≠ 0xff then [byte + 1] else byte :: findShortSuccessor key

/-- The loop over the common bytes, and what is done at `diff_index`. -/
def findShortestSeparator : List UInt8 → List UInt8 → List UInt8
  | startByte :: start, limitByte :: limit =>
    if startByte = limitByte then startByte :: findShortestSeparator start limit
    else if startByte ≥ limitByte then startByte :: start
    else if limit ≠ [] ∨ startByte.toNat + 1 < limitByte.toNat then [startByte + 1]
    else startByte :: findShortSuccessor start
  | start, _ => start

namespace ReverseBytewise

def findShortestSeparator : List UInt8 → List UInt8 → List UInt8
  | startByte :: start, limitByte :: limit =>
    if startByte = limitByte then startByte :: findShortestSeparator start limit
    else if startByte > limitByte ∧ start ≠ [] then [startByte]
    else startByte :: start
  | start, _ => start

def findShortSuccessor (key : List UInt8) : List UInt8 := key

end ReverseBytewise

end VcompModel

namespace VcompProof

open VcompModel List

variable {before : List UInt8 → List UInt8 → Prop} {s t r : List UInt8} {a b : UInt8}

/-- In a total order `before` of the keys: `s` up to `r` and `r` before `t`, if there is room. -/
structure Separates (before : List UInt8 → List UInt8 → Prop) (s t r : List UInt8) : Prop where
  between : before s t → ¬before r s ∧ before r t
  unchanged : ¬before s t → r = s
  shorter : r.length ≤ s.length

theorem Separates.refl (irrefl : ¬before s s) : Separates before s t s := ⟨fun lt => ⟨irrefl, lt⟩, fun _ => rfl, Nat.le_refl _⟩

theorem Separates.cons (separates : Separates before s t r) (shift : ∀ x y, before (a :: x) (a :: y) ↔ before x y) :
    Separates before (a :: s) (a :: t) (a :: r) where
  between := by
    rw [shift, shift, shift]
    exact separates.between
  unchanged := by
    rw [shift]
    exact fun not => congrArg _ (separates.unchanged not)
  shorter := Nat.succ_le_succ separates.shorter

theorem lt_succ_byte (small : a ≠ 0xff) : a < a + 1 ∧ (a + 1).toNat = a.toNat + 1 := by
  have ne : a.toNat ≠ 255 := fun eq => small (UInt8.toNat_inj.mp eq)
  have bound := a.toNat_lt
  have next : (a + 1).toNat = a.toNat + 1 := by
    rw [UInt8.toNat_add]
    exact Nat.mod_eq_of_lt (by simp; omega)
  exact ⟨UInt8.lt_iff_toNat_lt.mpr (by omega), next⟩

theorem findShortSuccessor_spec (key : List UInt8) :
    ¬findShortSuccessor key < key ∧ (findShortSuccessor key).length ≤ key.length := by
  induction key with
  | nil => exact ⟨List.lt_irrefl _, Nat.le_refl _⟩
  | cons byte key ih =>
    rw [findShortSuccessor]
    split
    next small => exact ⟨List.lt_asymm (.rel (lt_succ_byte small).1), by simp⟩
    next => exact ⟨by rw [cons_lt_cons_self]; exact ih.1, Nat.succ_le_succ ih.2⟩

theorem findShortestSeparator_separates (s t : List UInt8) : Separates (· < ·) s t (findShortestSeparator s t) := by
  fun_induction findShortestSeparator s t with
  | case1 byte s t ih => exact ih.cons fun _ _ => cons_lt_cons_self
  | case2 => exact .refl (List.lt_irrefl _)
  | case3 a s b t _ le more =>
    have lt := UInt8.lt_iff_toNat_lt.mp (UInt8.not_le.mp le)
    have bound := b.toNat_lt
    obtain ⟨up, next⟩ : a < a + 1 ∧ (a + 1).toNat = a.toNat + 1 := lt_succ_byte fun full => by
      rw [full] at lt
      exact absurd lt (Nat.not_lt.mpr (Nat.le_of_lt_succ bound))
    refine ⟨fun _ => ⟨List.lt_asymm (.rel up), ?_⟩, fun not => absurd (.rel (UInt8.not_le.mp le)) not, by simp⟩
    rcases Nat.lt_or_eq_of_le (Nat.succ_le_of_lt lt) with wide | eq
    · exact .rel (UInt8.lt_iff_toNat_lt.mpr (next ▸ wide))
    · obtain rfl : a + 1 = b := UInt8.toNat_inj.mp (next.trans eq)
      obtain ⟨byte, t, rfl⟩ := exists_cons_of_ne_nil (more.resolve_right (by omega))
      exact cons_lt_cons_self.mpr (nil_lt_cons _ _)
  | case4 a s b t _ le =>
    have lt : a :: s < b :: t := .rel (UInt8.not_le.mp le)
    obtain ⟨up, shorter⟩ := findShortSuccessor_spec s
    exact ⟨fun _ => ⟨by rw [cons_lt_cons_self]; exact up, .rel (UInt8.not_le.mp le)⟩, fun not => absurd lt not,
      Nat.succ_le_succ shorter⟩
  | case5 => exact .refl (List.lt_irrefl _)

theorem reverse_findShortestSeparator_separates (s t : List UInt8) :
    Separates (fun x y => y < x) s t (ReverseBytewise.findShortestSeparator s t) := by
  fun_induction ReverseBytewise.findShortestSeparator s t with
  | case1 byte s t ih => exact ih.cons fun _ _ => cons_lt_cons_self
  | case2 a s b t _ more =>
    obtain ⟨byte, s, rfl⟩ := exists_cons_of_ne_nil more.2
    have lt : b :: t < a :: byte :: s := .rel more.1
    exact ⟨fun _ => ⟨List.lt_asymm (cons_lt_cons_self.mpr (nil_lt_cons _ _)), .rel more.1⟩, fun not => absurd lt not, by simp⟩
  | case3 => exact .refl (List.lt_irrefl _)
  | case4 => exact .refl (List.lt_irrefl _)

theorem key_shortening_safe (s t : List UInt8) : Separates (· < ·) s t (findShortestSeparator s t) ∧
    s ≤ findShortSuccessor s ∧ (findShortSuccessor s).length ≤ s.length ∧
    Separates (fun x y => y < x) s t (ReverseBytewise.findShortestSeparator s t) ∧
    ReverseBytewise.findShortSuccessor s ≤ s ∧ (ReverseBytewise.findShortSuccessor s).length ≤ s.length :=
  ⟨findShortestSeparator_separates s t, (findShortSuccessor_spec s).1, (findShortSuccessor_spec s).2,
    reverse_findShortestSeparator_separates s t, List.le_refl s, Nat.le_refl _⟩

end VcompProof
