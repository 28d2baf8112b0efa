import Mathlib.Data.List.Sort
import Vcomp.Lsm.InternalKey

namespace VcompModel.WritePrepared

/-- The priority queue `erased_heap_` is kept as an ascending list. -/
structure PreparedHeap where
  heap : List ℕ := []
  erasedHeap : List ℕ := []
  heapTop : ℕ := kMaxSequenceNumber

namespace PreparedHeap

variable (h : PreparedHeap)

def empty : Bool := decide (h.heapTop = kMaxSequenceNumber)

def push (v : ℕ) : PreparedHeap :=
  { h with heap := h.heap ++ [v], heapTop := if h.heap = [] then v else h.heapTop }

def dropErased (heap : List ℕ) : List ℕ → List ℕ × List ℕ
  | [] => (heap, [])
  | e :: erased =>
    match heap with
    | [] => ([], e :: erased)
    | v :: rest => if v ≥ e then dropErased (if v = e then rest else v :: rest) erased else (v :: rest, e :: erased)

def pop : PreparedHeap :=
  let (heap, erased) := dropErased h.heap.tail h.erasedHeap
  ⟨heap, if heap = [] then [] else erased, heap.headD kMaxSequenceNumber⟩

def erase (seq : ℕ) : PreparedHeap :=
  if h.empty then h
  else if seq < h.heapTop then h
  else if h.heapTop = seq then h.pop
  else { h with erasedHeap := h.erasedHeap.orderedInsert (· ≤ ·) seq }

end PreparedHeap

/-- The heap after calls that pushed and erased these numbers, in this order. -/
inductive Calls : List ℕ → List ℕ → PreparedHeap → Prop
  | start : Calls [] [] {}
  | push {pushed erased h v} : Calls pushed erased h → (∀ u ∈ pushed, u < v) → Calls (pushed ++ [v]) erased (h.push v)
  | erase {pushed erased h v} : Calls pushed erased h → v ∈ pushed → v ∉ erased → Calls pushed (erased ++ [v]) (h.erase v)

end VcompModel.WritePrepared

namespace VcompProof.WritePrepared

open VcompModel VcompModel.WritePrepared PreparedHeap List

variable {pushed erased rest : List ℕ} {h : PreparedHeap} {v : ℕ}

/-- The heap is what follows the erased numbers it starts with, and the erased numbers among the rest are parked. -/
def heapOf (pushed erased : List ℕ) : PreparedHeap :=
  let heap := pushed.dropWhile (· ∈ erased)
  ⟨heap, heap.filter (· ∈ erased), heap.headD kMaxSequenceNumber⟩

theorem heapOf_front (before : ∀ a ∈ pushed, a ∈ erased) (live : v ∉ erased) :
    heapOf (pushed ++ v :: rest) erased = ⟨v :: rest, rest.filter (· ∈ erased), v⟩ := by
  have front : (pushed ++ v :: rest).dropWhile (· ∈ erased) = v :: rest := by
    rw [dropWhile_append_of_pos (by simpa using before), dropWhile_cons_of_neg (by simpa using live)]
  simp [heapOf, front, live]

theorem heapOf_cases (pushed erased : List ℕ) :
    ((∀ v ∈ pushed, v ∈ erased) ∧ heapOf pushed erased = {}) ∨
      ∃ before v rest, pushed = before ++ v :: rest ∧ (∀ a ∈ before, a ∈ erased) ∧ v ∉ erased := by
  induction pushed with
  | nil => exact .inl ⟨nofun, rfl⟩
  | cons x pushed ih =>
    by_cases gone : x ∈ erased
    · rcases ih with ⟨all, none⟩ | ⟨before, v, rest, rfl, all, live⟩
      · exact .inl ⟨forall_mem_cons.mpr ⟨gone, all⟩, by simpa [heapOf, dropWhile_cons, gone] using none⟩
      · exact .inr ⟨x :: before, v, rest, rfl, forall_mem_cons.mpr ⟨gone, all⟩, live⟩
    · exact .inr ⟨[], x, pushed, rfl, nofun, gone⟩

/-- The first loop of `pop` meets the parked numbers in the order of the heap. -/
theorem dropErased_filter (sorted : rest.Pairwise (· < ·)) :
    dropErased rest (rest.filter (· ∈ erased)) =
      (rest.dropWhile (· ∈ erased), (rest.dropWhile (· ∈ erased)).filter (· ∈ erased)) := by
  induction rest with
  | nil => rfl
  | cons x rest ih =>
    obtain ⟨least, sorted⟩ := pairwise_cons.mp sorted
    by_cases gone : x ∈ erased
    · simpa [gone, dropErased] using ih sorted
    · cases eq : rest.filter (· ∈ erased) with
      | nil => simp [gone, dropErased, eq]
      | cons e parked =>
        have later : x < e := least e (mem_filter.mp (eq ▸ mem_cons_self)).1
        simp [gone, dropErased, eq, later]

theorem orderedInsert_filter (sorted : rest.Pairwise (· < ·)) (held : v ∈ rest) (live : v ∉ erased) :
    (rest.filter (· ∈ erased)).orderedInsert (· ≤ ·) v = rest.filter (· ∈ erased ++ [v]) := by
  refine Perm.eq_of_pairwise (fun _ _ _ _ => le_antisymm)
    (((sorted.imp le_of_lt).filter _).orderedInsert _ _) ((sorted.imp le_of_lt).filter _)
    ((perm_orderedInsert _ _ _).trans ?_)
  have distinct : rest.Nodup := sorted.imp ne_of_lt
  refine (perm_ext_iff_of_nodup (nodup_cons.mpr ⟨by simp [live], distinct.filter _⟩) (distinct.filter _)).mpr fun x => ?_
  by_cases eq : x = v <;> simp [eq, held]

theorem heapOf_erase (sorted : pushed.Pairwise (· < ·)) (sentinel : kMaxSequenceNumber ∉ pushed) (held : v ∈ pushed)
    (live : v ∉ erased) : (heapOf pushed erased).erase v = heapOf pushed (erased ++ [v]) := by
  rcases heapOf_cases pushed erased with ⟨all, -⟩ | ⟨before, u, rest, rfl, all, first⟩
  · exact absurd (all v held) live
  have full : ¬u = kMaxSequenceNumber := fun eq => sentinel (by simp [eq])
  obtain ⟨least, sortedRest⟩ := pairwise_cons.mp (pairwise_append.mp sorted).2.1
  have place : u = v ∨ v ∈ rest := by
    rcases mem_append.mp held with early | late
    · exact absurd (all v early) live
    · exact (mem_cons.mp late).imp_left Eq.symm
  rw [heapOf_front all first, PreparedHeap.erase]
  rcases place with rfl | later
  · have same : rest.filter (· ∈ erased) = rest.filter (· ∈ erased ++ [u]) :=
      filter_congr fun x mem => by simp [(least x mem).ne']
    have next : (before ++ u :: rest).dropWhile (· ∈ erased ++ [u]) = rest.dropWhile (· ∈ erased ++ [u]) := by
      rw [dropWhile_append_of_pos fun a mem => by simp [all a mem], dropWhile_cons_of_pos (by simp)]
    simp only [PreparedHeap.empty, full, decide_false, Bool.false_eq_true, lt_irrefl, if_false, if_true,
      PreparedHeap.pop, tail_cons, heapOf, next, same, dropErased_filter sortedRest]
    split
    next none => rw [none]; rfl
    next => rfl
  · have ahead := least v later
    rw [heapOf_front (fun a mem => mem_append_left _ (all a mem)) (by simpa [first] using ahead.ne),
      ← orderedInsert_filter sortedRest later live]
    simp [PreparedHeap.empty, full, ahead.ne, ahead.le]

theorem calls_heapOf (calls : Calls pushed erased h) (sentinel : kMaxSequenceNumber ∉ pushed) :
    pushed.Pairwise (· < ·) ∧ erased ⊆ pushed ∧ h = heapOf pushed erased := by
  induction calls with
  | start => exact ⟨.nil, Subset.refl _, rfl⟩
  | @push pushed erased h v calls newest ih =>
    obtain ⟨sorted, past, rfl⟩ := ih fun mem => sentinel (mem_append_left _ mem)
    have live : v ∉ erased := fun mem => (newest v (past mem)).false
    refine ⟨pairwise_append.mpr ⟨sorted, pairwise_singleton _ _, by simpa using newest⟩,
      subset_append_of_subset_left _ past, ?_⟩
    rcases heapOf_cases pushed erased with ⟨all, none⟩ | ⟨before, u, rest, rfl, all, first⟩
    · rw [none, heapOf_front all live]
      rfl
    · rw [append_assoc, cons_append, heapOf_front all first, heapOf_front all first]
      simp [PreparedHeap.push, live]
  | erase calls held live ih =>
    obtain ⟨sorted, past, rfl⟩ := ih sentinel
    exact ⟨sorted, append_subset.mpr ⟨past, by simpa using held⟩, heapOf_erase sorted sentinel held live⟩

/-- `kMaxSequenceNumber` is what `top` says of an empty heap, so it is the one number that cannot be pushed. -/
theorem preparedHeap_top_least (calls : Calls pushed erased h) (sentinel : kMaxSequenceNumber ∉ pushed) :
    (h.empty = true ↔ ∀ v ∈ pushed, v ∈ erased) ∧ (h.empty = false →
      h.heapTop ∈ pushed ∧ h.heapTop ∉ erased ∧ ∀ v ∈ pushed, v ∉ erased → h.heapTop ≤ v) := by
  obtain ⟨sorted, -, rfl⟩ := calls_heapOf calls sentinel
  rcases heapOf_cases pushed erased with ⟨all, none⟩ | ⟨before, u, rest, rfl, all, live⟩
  · rw [none]
    exact ⟨⟨fun _ => all, fun _ => rfl⟩, nofun⟩
  rw [heapOf_front all live]
  have full : ¬u = kMaxSequenceNumber := fun eq => sentinel (by simp [eq])
  have least := (pairwise_cons.mp (pairwise_append.mp sorted).2.1).1
  refine ⟨⟨fun none => absurd (of_decide_eq_true none) full, fun all => absurd (all u (by simp)) live⟩,
    fun _ => ⟨by simp, live, fun v held out => ?_⟩⟩
  rcases mem_append.mp held with early | late
  · exact absurd (all v early) out
  · exact (mem_cons.mp late).elim (fun eq => eq.ge) fun mem => (least v mem).le

/-- The list that `State` keeps follows the heap: its head is the top, `push` appends and `erase` erases. -/
theorem calls_preparedTxns (calls : Calls pushed erased h) (sentinel : kMaxSequenceNumber ∉ pushed) :
    let txns := pushed.filter (· ∉ erased)
    txns.head? = (if h.empty then none else some h.heapTop) ∧
      (∀ v ∉ erased, (pushed ++ [v]).filter (· ∉ erased) = txns ++ [v]) ∧
      ∀ v, pushed.filter (· ∉ erased ++ [v]) = txns.erase v := by
  obtain ⟨sorted, -, rfl⟩ := calls_heapOf calls sentinel
  refine ⟨?_, fun v live => by simp [live], fun v => ?_⟩
  · rcases heapOf_cases pushed erased with ⟨all, none⟩ | ⟨before, u, rest, rfl, all, live⟩
    · rw [none, filter_eq_nil_iff.mpr (by simpa using all)]
      rfl
    · have full : ¬u = kMaxSequenceNumber := fun eq => sentinel (by simp [eq])
      rw [heapOf_front all live, filter_append, filter_eq_nil_iff.mpr (by simpa using all)]
      simp [PreparedHeap.empty, full, live]
  · have distinct : (pushed.filter (· ∉ erased)).Nodup := (sorted.imp ne_of_lt).filter _
    rw [distinct.erase_eq_filter, filter_filter]
    exact filter_congr fun x _ => by by_cases eq : x = v <;> simp [eq]

theorem preparedHeap_top_least_lazy : ∃ h, Calls [3, 5, 8] [5, 3] h ∧ h.empty = false ∧ h.heapTop = 8 ∧ 8 ∉ [5, 3] := by
  have calls := ((((Calls.start.push (v := 3) (by decide)).push (v := 5) (by decide)).push (v := 8) (by decide)).erase
    (v := 5) (by decide) (by decide)).erase (v := 3) (by decide) (by decide)
  exact ⟨_, calls, rfl, rfl, ((preparedHeap_top_least calls (by decide)).2 rfl).2.1⟩

theorem preparedHeap_sentinel : ∃ pushed erased h, Calls pushed erased h ∧
    ¬(h.empty = true ↔ ∀ v ∈ pushed, v ∈ erased) :=
  ⟨_, [], _, Calls.start.push (v := kMaxSequenceNumber) nofun, by decide⟩

end VcompProof.WritePrepared
