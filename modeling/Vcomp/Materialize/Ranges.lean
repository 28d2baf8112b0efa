import Mathlib.Order.CompletePartialOrder
import Vcomp.Kmv.MergeValidity
import Vcomp.Materialize.Confinement

namespace VcompProof

open VcompModel SortBy List

variable {tasks : List SSTTask} {task : SSTTask} {prevKeyMax : ℕ} {files : List SSTTask}

def taskRange (task : SSTTask) : Set ℕ := Set.Icc task.materializeKeyMin task.materializeKeyMax

structure WholeRange (task : SSTTask) : Prop where
  min : task.materializeKeyMin = task.vsst.keyMin
  max : task.materializeKeyMax = task.vsst.keyMax
  order : task.vsst.keyMin ≤ task.vsst.keyMax
  fits : task.vsst.keyMax ≤ uint64Max

structure Narrowed (task narrowed : SSTTask) : Prop where
  level : narrowed.level = task.level
  max : narrowed.materializeKeyMax = task.materializeKeyMax
  above : task.materializeKeyMin ≤ narrowed.materializeKeyMin
  fits : narrowed.materializeKeyMin ≤ uint64Max

theorem WholeRange.lower (whole : WholeRange task) : task.materializeKeyMin ≤ uint64Max := by
  rw [whole.min]
  exact whole.order.trans whole.fits

theorem WholeRange.upper (whole : WholeRange task) : task.materializeKeyMax ≤ uint64Max := by
  rw [whole.max]
  exact whole.fits

theorem startAfter_narrowed (whole : WholeRange task) (fits : prevKeyMax ≤ uint64Max) :
    Narrowed task (task.startAfter prevKeyMax) := by
  have lower := whole.lower
  refine ⟨rfl, rfl, ?_, ?_⟩
  · simp only [SSTTask.startAfter]
    split_ifs <;> omega
  · simp only [SSTTask.startAfter]
    split_ifs <;> omega

theorem halfOpenRanges_narrowed (current : Option ℕ) (whole : ∀ task ∈ tasks, WholeRange task)
    (fits : prevKeyMax ≤ uint64Max) : List.Forall₂ Narrowed tasks (halfOpenRanges current prevKeyMax tasks) := by
  induction tasks generalizing current prevKeyMax with
  | nil => exact .nil
  | cons task rest ih =>
    have first := whole task mem_cons_self
    have wholeRest : ∀ task ∈ rest, WholeRange task := fun task inRest => whole task (mem_cons_of_mem _ inRest)
    unfold halfOpenRanges
    split_ifs
    · exact .cons ⟨rfl, rfl, le_rfl, first.lower⟩ (ih _ wholeRest first.upper)
    · exact .cons (startAfter_narrowed first fits) (ih _ wholeRest (max_le fits first.upper))

theorem startAfter_covers (prevKeyMax key : ℕ) (whole : WholeRange task)
    (lower : task.materializeKeyMin ≤ key) (upper : key ≤ task.materializeKeyMax) (past : prevKeyMax < key) :
    key ∈ taskRange (task.startAfter prevKeyMax) := by
  have fits := whole.upper
  refine ⟨?_, upper⟩
  simp only [SSTTask.startAfter]
  split_ifs <;> omega

def StartsInOrder (a b : SSTTask) : Prop := a.level = b.level → a.materializeKeyMin ≤ b.materializeKeyMin

theorem halfOpenRanges_covers (current : Option ℕ) (prevKeyMax : ℕ) (whole : ∀ task ∈ tasks, WholeRange task)
    (sorted : tasks.Pairwise StartsInOrder) (mem : task ∈ tasks) {key : ℕ} (inside : key ∈ taskRange task) :
    (current = some task.level ∧ key ≤ prevKeyMax) ∨
      ∃ narrowed ∈ halfOpenRanges current prevKeyMax tasks, narrowed.level = task.level ∧ key ∈ taskRange narrowed := by
  induction tasks generalizing current prevKeyMax with
  | nil => nomatch mem
  | cons first rest ih =>
    obtain ⟨firstLeast, sortedRest⟩ := pairwise_cons.mp sorted
    have firstWhole := whole first mem_cons_self
    have wholeRest : ∀ task ∈ rest, WholeRange task := fun task inRest => whole task (mem_cons_of_mem _ inRest)
    unfold halfOpenRanges
    split_ifs with fresh
    · rcases mem_cons.mp mem with rfl | inRest
      · exact .inr ⟨task, mem_cons_self, rfl, inside⟩
      · rcases ih (some first.level) first.materializeKeyMax wholeRest sortedRest inRest with held | ⟨narrowed, later, found⟩
        · have level : first.level = task.level := Option.some.inj held.1
          exact .inr ⟨first, mem_cons_self, level, (firstLeast task inRest level).trans inside.1, held.2⟩
        · exact .inr ⟨narrowed, mem_cons_of_mem _ later, found⟩
    · obtain ⟨-, started⟩ := not_or.mp fresh
      rw [not_not.mp started]
      have covered := startAfter_covers prevKeyMax key firstWhole
      rcases mem_cons.mp mem with rfl | inRest
      · rcases lt_or_ge prevKeyMax key with past | held
        · exact .inr ⟨_, mem_cons_self, rfl, covered inside.1 inside.2 past⟩
        · exact .inl ⟨rfl, held⟩
      · rcases ih (some first.level) (max prevKeyMax first.materializeKeyMax) wholeRest sortedRest inRest with
          ⟨eq, upper⟩ | ⟨narrowed, later, found⟩
        · have level : first.level = task.level := Option.some.inj eq
          have lower := (firstLeast task inRest level).trans inside.1
          rcases lt_or_ge prevKeyMax key with past | held
          · exact .inr ⟨_, mem_cons_self, level, covered lower (by omega) past⟩
          · exact .inl ⟨eq, held⟩
        · exact .inr ⟨narrowed, mem_cons_of_mem _ later, found⟩

theorem taskOrder_starts (whole : ∀ task ∈ files, WholeRange task) : (taskOrder files).Pairwise StartsInOrder := by
  apply (sortBy_sorted taskBefore_comparator files).imp_of_mem
  intro a b inA inB notBefore level
  rw [(whole a (mem_sortBy.mp inA)).min, (whole b (mem_sortBy.mp inB)).min]
  simp only [taskBefore, level, ne_eq, not_true_eq_false, if_false] at notBefore
  by_cases mins : b.vsst.keyMin = a.vsst.keyMin
  · exact mins.ge
  · simpa [mins] using notBefore

def BothFull (a b : SSTTask) : Prop :=
  a.level = b.level ∧ 1 ≤ a.level ∧ a.materializeKeyMax = uint64Max ∧ b.materializeKeyMax = uint64Max

theorem Narrowed.bothFull {a b a' b' : SSTTask} (narrowedA : Narrowed a a') (narrowedB : Narrowed b b') :
    BothFull a' b' ↔ BothFull a b := by
  rw [BothFull, BothFull, narrowedA.level, narrowedB.level, narrowedA.max, narrowedB.max]

theorem forall₂_pairwise {α β : Type*} {R : α → β → Prop} {S : α → α → Prop} {T : β → β → Prop} {l : List α} {l' : List β}
    (related : List.Forall₂ R l l') (eq : ∀ {a b a' b'}, R a a' → R b b' → (S a b ↔ T a' b')) :
    l.Pairwise S ↔ l'.Pairwise T := by
  rw [pairwise_iff_getElem, pairwise_iff_getElem]
  have length := related.length_eq
  constructor
  · intro all i j belowI belowJ lt
    have inI : i < l.length := length ▸ belowI
    have inJ : j < l.length := length ▸ belowJ
    exact (eq (related.get inI belowI) (related.get inJ belowJ)).mp (all i j inI inJ lt)
  · intro all i j belowI belowJ lt
    have inI : i < l'.length := length ▸ belowI
    have inJ : j < l'.length := length ▸ belowJ
    exact (eq (related.get belowI inI) (related.get belowJ inJ)).mpr (all i j inI inJ lt)

/-- No common key in a level, each range inside its old one, and no key lost. -/
structure RangesSplit (files tasks : List SSTTask) : Prop where
  apart : tasks.Pairwise fun a b => a.level = b.level → 1 ≤ a.level → Disjoint (taskRange a) (taskRange b)
  inside : List.Forall₂ (fun file task => task.level = file.level ∧ taskRange task ⊆ taskRange file) (taskOrder files) tasks
  covered : ∀ file ∈ files, 1 ≤ file.level → ∀ key ∈ taskRange file, ∃ task ∈ tasks, task.level = file.level ∧
    key ∈ taskRange task

theorem not_bothFull_order :
    (taskOrder files).Pairwise (fun a b => ¬ BothFull a b) ↔ files.Pairwise fun a b => ¬ BothFull a b := by
  apply (sortBy_perm taskBefore files).pairwise_iff
  intro a b notFull full
  exact notFull ⟨full.1.symm, full.1 ▸ full.2.1, full.2.2.2, full.2.2.1⟩

theorem halfOpenRanges_split (files : List SSTTask) (whole : ∀ file ∈ files, WholeRange file) :
    RangesSplit files (halfOpenRanges none 0 (taskOrder files)) ↔ files.Pairwise fun a b => ¬ BothFull a b := by
  have wholeOrder : ∀ task ∈ taskOrder files, WholeRange task := fun task inOrder => whole task (mem_sortBy.mp inOrder)
  have narrowed := halfOpenRanges_narrowed none wholeOrder (Nat.zero_le uint64Max)
  have bounds : ∀ task ∈ halfOpenRanges none 0 (taskOrder files),
      task.materializeKeyMin ≤ uint64Max ∧ task.materializeKeyMax ≤ uint64Max := by
    intro task inTasks
    obtain ⟨file, inOrder, narrow⟩ := forall₂_exists_right narrowed.flip task inTasks
    exact ⟨narrow.fits, narrow.max ▸ (wholeOrder file inOrder).upper⟩
  rw [← not_bothFull_order, forall₂_pairwise narrowed fun a b => not_congr (Narrowed.bothFull a b).symm]
  constructor
  · intro split
    apply split.apart.imp_of_mem
    intro a b inA inB apart full
    have inside : ∀ task ∈ halfOpenRanges none 0 (taskOrder files), task.materializeKeyMax = uint64Max →
        uint64Max ∈ taskRange task := fun task inTasks top => ⟨(bounds task inTasks).1, top.ge⟩
    exact Set.disjoint_left.mp (apart full.1 full.2.1) (inside a inA full.2.2.1) (inside b inB full.2.2.2)
  · intro notFull
    constructor
    · have apart := (halfOpenRanges_apart none 0 (taskOrder_levels files)).and notFull
      apply apart.imp_of_mem
      intro a b inA inB pair level deep
      rw [Set.disjoint_left]
      intro key inRangeA inRangeB
      rcases lt_or_ge key uint64Max with lt | top
      · exact pair.1 level (by omega) key lt inRangeA.1 inRangeA.2 inRangeB.1 inRangeB.2
      · have fullA := (bounds a inA).2.antisymm (top.trans inRangeA.2)
        have fullB := (bounds b inB).2.antisymm (top.trans inRangeB.2)
        exact pair.2 ⟨level, deep, fullA, fullB⟩
    · exact narrowed.imp fun file task narrow => ⟨narrow.level, Set.Icc_subset_Icc narrow.above narrow.max.le⟩
    · intro file inFiles _ key inside
      rcases halfOpenRanges_covers none 0 wholeOrder (taskOrder_starts whole) (mem_sortBy.mpr inFiles) inside with held | found
      · nomatch held.1
      · exact found

theorem halfOpenRanges_split_touching :
    let files := [newTask 1 1 1 ⟨⟨[]⟩, [], 0, 9, 4, 0⟩, newTask 2 2 1 ⟨⟨[]⟩, [], 9, 20, 4, 0⟩,
      newTask 3 3 2 ⟨⟨[]⟩, [], 5, 9, 4, 0⟩]
    RangesSplit files (halfOpenRanges none 0 (taskOrder files)) := by
  intro files
  apply (halfOpenRanges_split files ?_).mpr
  · simp [files, BothFull, newTask, uint64Max, word64]
  · simp only [files, forall_mem_cons, not_mem_nil, false_implies, implies_true, and_true]
    exact ⟨⟨rfl, rfl, by decide, by decide⟩, ⟨rfl, rfl, by decide, by decide⟩, ⟨rfl, rfl, by decide, by decide⟩⟩

/-- Two files of a level that touch in the last 64-bit key both keep it. -/
theorem halfOpenRanges_share_last :
    let files := [newTask 1 1 1 ⟨⟨[]⟩, [], 0, uint64Max, 4, 0⟩, newTask 2 2 1 ⟨⟨[]⟩, [], uint64Max, uint64Max, 1, 0⟩]
    (∀ file ∈ files, WholeRange file) ∧ ¬ RangesSplit files (halfOpenRanges none 0 (taskOrder files)) := by
  intro files
  constructor
  · simp only [files, forall_mem_cons, not_mem_nil, false_implies, implies_true, and_true]
    exact ⟨⟨rfl, rfl, by decide, by decide⟩, ⟨rfl, rfl, by decide, by decide⟩⟩
  · intro split
    have tasks : halfOpenRanges none 0 (taskOrder files) = files := by decide +kernel
    have apart := split.apart
    rw [tasks, pairwise_pair] at apart
    have first : uint64Max ∈ taskRange (newTask 1 1 1 ⟨⟨[]⟩, [], 0, uint64Max, 4, 0⟩) := ⟨Nat.zero_le _, le_rfl⟩
    exact Set.disjoint_left.mp (apart rfl le_rfl) first ⟨le_rfl, le_rfl⟩

end VcompProof
