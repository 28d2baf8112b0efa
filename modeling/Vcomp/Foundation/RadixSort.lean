import Mathlib.Algebra.Group.Nat.Defs
import Vcomp.Foundation.SortUnique

/-! Radix sort by bytes, with the count, offset and scatter loops over two buffers. -/

namespace RadixSort

open List Function

def digit (shift k : ℕ) : ℕ := k >>> shift &&& 0xFF

def counts (shift : ℕ) (src : List ℕ) : ℕ → ℕ :=
  src.foldl (fun count k => update count (digit shift k) (count (digit shift k) + 1)) fun _ => 0

def offsets (count : ℕ → ℕ) : ℕ → ℕ
  | 0 => 0
  | b + 1 => offsets count b + count b

def scatter (shift : ℕ) : List ℕ → (ℕ → ℕ) → List ℕ → List ℕ
  | [], _, dst => dst
  | k :: src, offset, dst =>
    let b := digit shift k
    scatter shift src (update offset b (offset b + 1)) (dst.set (offset b) k)

def pass (shift : ℕ) (src dst : List ℕ) : List ℕ := scatter shift src (offsets (counts shift src)) dst

/-- The passes with the buffers swapped after each: the sorted buffer and the other one. -/
def passes : (left pass : ℕ) → List ℕ → List ℕ → List ℕ × List ℕ
  | 0, _, src, dst => (src, dst)
  | left + 1, i, src, dst => passes left (i + 1) (pass (8 * i) src dst) src

/-- The keys after the passes and the temporary buffer; after an odd number of passes the keys are copied back. -/
def sort (count : ℕ) (keys tmp : List ℕ) : List ℕ × List ℕ :=
  let (src, dst) := passes count 0 keys tmp
  (src, if count % 2 = 0 then dst else src)

def buckets (shift : ℕ) (src : List ℕ) : List ℕ :=
  (List.range 256).flatMap fun b => src.filter fun k => decide (digit shift k = b)

variable {shift : ℕ} (g : ℕ → List ℕ) {dst : List ℕ} {src : List ℕ}

theorem digit_lt (shift k : ℕ) : digit shift k < 256 := by
  rw [digit, show 0xFF = 2 ^ 8 - 1 by rfl, Nat.and_two_pow_sub_one_eq_mod]
  exact Nat.mod_lt _ (by decide)

theorem counts_eq (src : List ℕ) (b : ℕ) : counts shift src b = (src.filter fun k => decide (digit shift k = b)).length := by
  have loop : ∀ (src : List ℕ) (count : ℕ → ℕ),
      src.foldl (fun count k => update count (digit shift k) (count (digit shift k) + 1)) count b =
        count b + (src.filter fun k => decide (digit shift k = b)).length := by
    intro src
    induction src with
    | nil => simp
    | cons k src ih =>
      intro count
      rw [foldl_cons, ih]
      by_cases same : digit shift k = b
      · subst same
        simp
        omega
      · simp [same, update_of_ne (Ne.symm same)]
  rw [counts, loop, Nat.zero_add]

theorem offsets_eq (b : ℕ) : offsets (fun b => (g b).length) b = ((List.range b).flatMap g).length := by
  induction b with
  | zero => rfl
  | succ b ih => rw [offsets, ih, range_succ, flatMap_append, length_append, flatMap_singleton]

theorem flatMap_update_before {b n : ℕ} (out : n ≤ b) (l : List ℕ) :
    (List.range n).flatMap (update g b l) = (List.range n).flatMap g := by
  apply flatMap_congr
  intro i mem
  have lt := mem_range.mp mem
  exact update_of_ne (by omega) _ _

theorem set_flatMap {n b j : ℕ} (k : ℕ) (inside : b < n) (short : j < (g b).length) :
    ((List.range n).flatMap g).set (((List.range b).flatMap g).length + j) k =
      (List.range n).flatMap (update g b ((g b).set j k)) := by
  induction n with
  | zero => omega
  | succ n ih =>
    rw [range_succ, flatMap_append, flatMap_append, flatMap_singleton, flatMap_singleton]
    obtain rfl | before := eq_or_lt_of_le (Nat.le_of_lt_succ inside)
    · rw [set_append_right _ _ (Nat.le_add_right _ _), Nat.add_sub_cancel_left, flatMap_update_before g le_rfl,
        update_self]
    · have split : (List.range n).flatMap g = (List.range b).flatMap g ++ (g b ++
          (List.range' (b + 1) (n - (b + 1))).flatMap g) := by
        have ranges : List.range n = List.range b ++ b :: List.range' (b + 1) (n - (b + 1)) := by
          rw [range_eq_range', range_eq_range', ← range'_succ]
          have lengths : n = b + (n - (b + 1) + 1) := by omega
          conv_lhs => rw [lengths]
          rw [← range'_append_1, Nat.zero_add]
        rw [ranges, flatMap_append, flatMap_cons]
      have lt : ((List.range b).flatMap g).length + j < ((List.range n).flatMap g).length := by
        rw [split, length_append, length_append]
        omega
      rw [set_append_left _ _ lt, ih before, update_of_ne (by omega)]

theorem scatter_buckets (src : List ℕ) {offset : ℕ → ℕ} (placed rest : ℕ → List ℕ)
    (layout : dst = (List.range 256).flatMap fun b => placed b ++ rest b)
    (offsetEq : ∀ b < 256, offset b = ((List.range b).flatMap fun b => placed b ++ rest b).length + (placed b).length)
    (room : ∀ b < 256, (rest b).length = (src.filter fun k => decide (digit shift k = b)).length) :
    scatter shift src offset dst =
      (List.range 256).flatMap fun b => placed b ++ src.filter fun k => decide (digit shift k = b) := by
  induction src generalizing offset dst placed rest with
  | nil =>
    rw [scatter, layout]
    apply flatMap_congr
    intro b mem
    have empty := room b (mem_range.mp mem)
    rw [filter_nil, length_nil] at empty
    rw [eq_nil_of_length_eq_zero empty, filter_nil]
  | cons k src ih =>
    have lt := digit_lt shift k
    set d := digit shift k with dEq
    have hasRoom := room d lt
    rw [filter_cons_of_pos (by simp [← dEq]), length_cons] at hasRoom
    cases restEq : rest d with
    | nil => simp [restEq] at hasRoom
    | cons r tail =>
      rw [restEq, length_cons] at hasRoom
      have slot : (placed d).length < (placed d ++ rest d).length := by simp [restEq]
      have written : dst.set (offset d) k = (List.range 256).flatMap fun b =>
          update placed d (placed d ++ [k]) b ++ update rest d tail b := by
        rw [layout, offsetEq d lt, set_flatMap (fun b => placed b ++ rest b) k lt slot]
        apply flatMap_congr
        intro b _
        by_cases same : b = d
        · subst same
          simp [restEq]
        · simp [update_of_ne same]
      have sameLength : ∀ b, (update placed d (placed d ++ [k]) b ++ update rest d tail b).length =
          (placed b ++ rest b).length := by
        intro b
        by_cases same : b = d
        · subst same
          simp [restEq]
        · simp [update_of_ne same]
      have start : ∀ b, ((List.range b).flatMap fun b =>
          update placed d (placed d ++ [k]) b ++ update rest d tail b).length =
            ((List.range b).flatMap fun b => placed b ++ rest b).length := by
        intro b
        rw [length_flatMap, length_flatMap]
        congr 1
        apply map_congr_left
        intro i _
        exact sameLength i
      rw [scatter, ← dEq, ih _ _ written]
      · apply flatMap_congr
        intro b _
        by_cases same : b = d
        · subst same
          simp [← dEq]
        · have other : ¬ digit shift k = b := fun eq => same (eq ▸ dEq)
          simp [update_of_ne same, other]
      · intro b inside
        rw [start]
        by_cases same : b = d
        · subst same
          simp [offsetEq _ lt]
          omega
        · simp [update_of_ne same, offsetEq b inside]
      · intro b inside
        by_cases same : b = d
        · subst same
          simp only [update_self]
          omega
        · have other : ¬ digit shift k = b := fun eq => same (eq ▸ dEq)
          rw [update_of_ne same, room b inside, filter_cons_of_neg (by simp [other])]

theorem cons_buckets_perm {n d : ℕ} (k : ℕ) (inside : d < n) :
    ((List.range n).flatMap (update g d (k :: g d))).Perm (k :: (List.range n).flatMap g) := by
  induction n with
  | zero => omega
  | succ n ih =>
    rw [range_succ, flatMap_append, flatMap_append, flatMap_singleton, flatMap_singleton]
    obtain rfl | before := eq_or_lt_of_le (Nat.le_of_lt_succ inside)
    · rw [flatMap_update_before g le_rfl, update_self]
      exact perm_middle
    · rw [update_of_ne (by omega)]
      exact (ih before).append_right _

theorem buckets_perm (shift : ℕ) (src : List ℕ) : (buckets shift src).Perm src := by
  induction src with
  | nil => simp [buckets]
  | cons k src ih =>
    have cons : buckets shift (k :: src) = (List.range 256).flatMap (update
        (fun b => src.filter fun k => decide (digit shift k = b)) (digit shift k)
        (k :: src.filter fun l => decide (digit shift l = digit shift k))) := by
      apply flatMap_congr
      intro b _
      by_cases same : b = digit shift k
      · subst same
        simp
      · rw [update_of_ne same, filter_cons_of_neg (by simp [Ne.symm same])]
    rw [cons]
    exact (cons_buckets_perm _ k (digit_lt shift k)).trans (ih.cons k)

theorem exists_cut (length : ℕ → ℕ) (n : ℕ) (total : dst.length = offsets length n) :
    ∃ rest : ℕ → List ℕ, dst = (List.range n).flatMap rest ∧ ∀ b < n, (rest b).length = length b := by
  induction n generalizing dst with
  | zero => exact ⟨fun _ => [], eq_nil_of_length_eq_zero total, by simp⟩
  | succ n ih =>
    rw [offsets] at total
    have front : (dst.take (offsets length n)).length = offsets length n := by
      rw [length_take]
      omega
    obtain ⟨rest, whole, lengths⟩ := ih front
    refine ⟨update rest n (dst.drop (offsets length n)), ?_, ?_⟩
    · rw [range_succ, flatMap_append, flatMap_singleton, flatMap_update_before rest le_rfl, ← whole,
        update_self, take_append_drop]
    · intro b inside
      by_cases same : b = n
      · subst same
        rw [update_self, length_drop]
        omega
      · rw [update_of_ne same]
        exact lengths b (by omega)

theorem pass_eq (same : dst.length = src.length) : pass shift src dst = buckets shift src := by
  have countEq : counts shift src = fun b => (src.filter fun k => decide (digit shift k = b)).length :=
    funext (counts_eq src)
  have total : dst.length = offsets (counts shift src) 256 := by
    rw [countEq, offsets_eq, same]
    exact (buckets_perm shift src).length_eq.symm
  obtain ⟨rest, layout, lengths⟩ := exists_cut (counts shift src) 256 total
  rw [pass, scatter_buckets src (fun _ => []) rest (by simpa using layout)]
  · rfl
  · intro b inside
    have before : ((List.range b).flatMap rest).length = offsets (counts shift src) b := by
      rw [countEq, offsets_eq, length_flatMap, length_flatMap]
      congr 1
      apply map_congr_left
      intro i mem
      have lt := mem_range.mp mem
      rw [lengths i (by omega), counts_eq]
    simp [before]
  · intro b inside
    rw [lengths b inside, counts_eq]

section

def LowSorted (bytes : ℕ) (l : List ℕ) : Prop := l.Pairwise fun a b => a % 256 ^ bytes ≤ b % 256 ^ bytes

theorem digit_eq (i k : ℕ) : digit (8 * i) k = k / 256 ^ i % 256 := by
  rw [digit, show 0xFF = 2 ^ 8 - 1 by rfl, Nat.and_two_pow_sub_one_eq_mod, Nat.shiftRight_eq_div_pow, Nat.pow_mul]

theorem buckets_lowSorted {i : ℕ} {l : List ℕ} (sorted : LowSorted i l) : LowSorted (i + 1) (buckets (8 * i) l) := by
  have split : ∀ k, k % 256 ^ (i + 1) = k % 256 ^ i + 256 ^ i * digit (8 * i) k := by
    intro k
    rw [digit_eq, Nat.pow_succ, Nat.mod_mul]
  rw [LowSorted, buckets, pairwise_flatMap]
  constructor
  · intro b _
    apply (sorted.filter fun k => decide (digit (8 * i) k = b)).imp_of_mem
    intro k l inK inL lower
    have digitK : digit (8 * i) k = b := by simpa using (mem_filter.mp inK).2
    have digitL : digit (8 * i) l = b := by simpa using (mem_filter.mp inL).2
    rw [split, split, digitK, digitL]
    omega
  · apply pairwise_lt_range.imp
    intro b c lt k inK l inL
    have digitK : digit (8 * i) k = b := by simpa using (mem_filter.mp inK).2
    have digitL : digit (8 * i) l = c := by simpa using (mem_filter.mp inL).2
    have low : k % 256 ^ i < 256 ^ i := Nat.mod_lt _ (Nat.pow_pos (by decide))
    have step : 256 ^ i * (b + 1) ≤ 256 ^ i * c := Nat.mul_le_mul_left _ lt
    rw [split, split, digitK, digitL]
    rw [Nat.mul_add, Nat.mul_one] at step
    omega

theorem passes_sorted (left i : ℕ) (dst : List ℕ) (same : dst.length = src.length) (sorted : LowSorted i src) :
    LowSorted (i + left) (passes left i src dst).1 ∧ (passes left i src dst).1.Perm src := by
  induction left generalizing i src dst with
  | zero => exact ⟨sorted, List.Perm.refl _⟩
  | succ left ih =>
    rw [passes, pass_eq same]
    have perm := buckets_perm (8 * i) src
    have later := ih (i + 1) src perm.length_eq.symm (buckets_lowSorted sorted)
    rw [Nat.add_assoc, Nat.add_comm 1] at later
    exact ⟨later.1, later.2.trans perm⟩

theorem lowSorted_zero (l : List ℕ) : LowSorted 0 l := by
  simp only [LowSorted, Nat.pow_zero, Nat.mod_one, le_refl]
  exact pairwise_of_forall fun _ _ => trivial

theorem sort_perm (count : ℕ) {keys tmp : List ℕ} (same : tmp.length = keys.length) : (sort count keys tmp).1.Perm keys :=
  (passes_sorted count 0 tmp same (lowSorted_zero keys)).2

variable {count : ℕ} {keys tmp : List ℕ} (same : tmp.length = keys.length) (small : ∀ k ∈ keys, k < 256 ^ count)
include same small

theorem sort_sorted : (sort count keys tmp).1.Pairwise (· ≤ ·) := by
  obtain ⟨sorted, perm⟩ := passes_sorted count 0 tmp same (lowSorted_zero keys)
  rw [Nat.zero_add] at sorted
  apply sorted.imp_of_mem
  intro a b inA inB low
  rwa [Nat.mod_eq_of_lt (small a (perm.mem_iff.mp inA)), Nat.mod_eq_of_lt (small b (perm.mem_iff.mp inB))] at low

theorem destutter_sort : (sort count keys tmp).1.destutter (· ≠ ·) = sortUnique keys := by
  have ordered := sort_sorted same small
  apply (SortUnique.destutter_pairwise_lt ordered).eq_of_mem_iff (SortUnique.sortUnique_pairwise keys)
  intro k
  rw [SortUnique.mem_sortUnique, ← (sort_perm count same).mem_iff]
  exact SortUnique.mem_destutter_of_sorted ordered

end

end RadixSort
