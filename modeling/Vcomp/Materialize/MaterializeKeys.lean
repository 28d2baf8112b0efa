import Vcomp.Materialize.FileRun
import Vcomp.Materialize.Phase
import Vcomp.Plr.FitError
import Vcomp.Plr.Inverse

namespace VcompModel

def walkKeys (task : SSTTask) : (left pos segIdx : ℕ) → List ℕ
  | 0, _, _ => []
  | left + 1, pos, segIdx =>
    let (key, segIdx) := modelKey task segIdx pos
    key :: walkKeys task left (pos + 1) segIdx

def raiseKeys : (prev : ℕ) → List ℕ → List ℕ
  | _, [] => []
  | prev, key :: rest =>
    let key := if key ≤ prev then (prev + 1) % word64 else key
    key :: raiseKeys key rest

def raiseAll : List ℕ → List ℕ
  | [] => []
  | key :: rest => key :: raiseKeys key rest

def capKeys (keyMax : ℕ) : List ℕ → List ℕ
  | [] => []
  | key :: rest => if key > keyMax then keyMax :: capKeys keyMax rest else key :: rest

def rawKeys (vsst : VirtualSST) : List ℕ :=
  if vsst.numEntries = 0 ∨ vsst.plrModel.empty then [] else walkKeys (newTask 0 0 0 vsst) vsst.numEntries 0 0

def materializeKeys (vsst : VirtualSST) : List ℕ :=
  let keys := raiseAll (rawKeys vsst)
  if keys.getLast?.any (· > vsst.keyMax) then (capKeys vsst.keyMax keys.reverse).reverse else keys

end VcompModel

namespace VcompProof

open VcompModel SharedWords Bitmap List

def Room (bound : ℕ) : List ℕ → Prop
  | [] => True
  | key :: rest => key + rest.length ≤ bound ∧ Room bound rest

section

variable {bound prev : ℕ} {keys : List ℕ}

theorem raise_of_room (fits : bound < word64) (first : prev + keys.length ≤ bound) (room : Room bound keys) :
    (prev :: raiseKeys prev keys).IsChain (· < ·) ∧ ∀ k ∈ raiseKeys prev keys, k ≤ bound := by
  induction keys generalizing prev with
  | nil => exact ⟨.singleton _, by simp [raiseKeys]⟩
  | cons key rest ih =>
    rw [length_cons] at first
    obtain ⟨here, later⟩ := room
    have wrap : (prev + 1) % word64 = prev + 1 := Nat.mod_eq_of_lt (by omega)
    rw [raiseKeys, wrap]
    generalize raised : (if key ≤ prev then prev + 1 else key) = next
    have next_le : next + rest.length ≤ bound ∧ prev < next := by split_ifs at raised <;> omega
    obtain ⟨chain, lt⟩ := ih next_le.1 later
    exact ⟨.cons_cons next_le.2 chain, forall_mem_cons.mpr ⟨by omega, lt⟩⟩

theorem room_of_raise (chain : (prev :: raiseKeys prev keys).IsChain (· < ·))
    (lt : ∀ k ∈ prev :: raiseKeys prev keys, k ≤ bound) : prev + keys.length ≤ bound ∧ Room bound keys := by
  induction keys generalizing prev with
  | nil => exact ⟨lt prev mem_cons_self, trivial⟩
  | cons key rest ih =>
    rw [raiseKeys] at chain lt
    generalize raised : (if key ≤ prev then (prev + 1) % word64 else key) = next at chain lt
    obtain ⟨less, chain⟩ := isChain_cons_cons.mp chain
    obtain ⟨first, later⟩ := ih chain (forall_mem_cons.mp lt).2
    have key_le : key ≤ next := by split_ifs at raised <;> omega
    rw [length_cons]
    exact ⟨by omega, by omega, later⟩

theorem raise_last {a : ℕ} (ne : keys ≠ []) (inside : ∀ k ∈ keys, k ≤ bound)
    (last : (prev :: raiseKeys prev keys).getLast? = some a) (past : bound < a) :
    ∃ front b, prev :: raiseKeys prev keys = front ++ [b, a] ∧ bound ≤ b := by
  induction keys generalizing prev with
  | nil => exact absurd rfl ne
  | cons key rest ih =>
    obtain ⟨here, later⟩ := forall_mem_cons.mp inside
    rw [raiseKeys] at last ⊢
    generalize raised : (if key ≤ prev then (prev + 1) % word64 else key) = next at last ⊢
    rw [getLast?_cons_cons] at last
    cases rest with
    | nil =>
      obtain rfl : next = a := by simpa [raiseKeys] using last
      have step := Nat.mod_le (prev + 1) word64
      refine ⟨[], prev, rfl, ?_⟩
      split_ifs at raised <;> omega
    | cons second rest =>
      obtain ⟨front, b, split, atLeast⟩ := ih (by simp) later last
      exact ⟨prev :: front, b, by rw [split, cons_append], atLeast⟩

theorem capKeys_twice (front : List ℕ) {a b : ℕ} (past : bound < a) (atLeast : bound ≤ b) :
    ∃ rest, (capKeys bound (front ++ [b, a]).reverse).reverse = rest ++ [bound, bound] := by
  rw [reverse_append, reverse_cons, reverse_singleton, singleton_append, cons_append, capKeys,
    if_pos past, singleton_append, capKeys]
  split_ifs with pastToo
  · exact ⟨(capKeys bound front.reverse).reverse, by simp⟩
  · obtain rfl : b = bound := by omega
    exact ⟨front, by simp⟩

end

variable {vsst : VirtualSST}

theorem walkKeys_inside (task : SSTTask) (order : task.materializeKeyMin ≤ task.materializeKeyMax) (left pos segIdx : ℕ) :
    ∀ k ∈ walkKeys task left pos segIdx, task.materializeKeyMin ≤ k ∧ k ≤ task.materializeKeyMax := by
  induction left generalizing pos segIdx with
  | zero => simp [walkKeys]
  | succ left ih =>
    apply forall_mem_cons.mpr ⟨?_, ih _ _⟩
    exact ⟨le_min (le_max_right _ _) order, min_le_right _ _⟩

theorem rawKeys_inside (order : vsst.keyMin ≤ vsst.keyMax) : ∀ k ∈ rawKeys vsst, vsst.keyMin ≤ k ∧ k ≤ vsst.keyMax := by
  unfold rawKeys
  split_ifs
  · simp
  · exact walkKeys_inside (newTask 0 0 0 vsst) order _ _ _

def KeyRun (vsst : VirtualSST) (keys : List ℕ) : Prop :=
  (∀ k ∈ keys, vsst.keyMin ≤ k ∧ k ≤ vsst.keyMax) ∧ keys.Pairwise (· < ·)

/-- `MaterializeKeys` gives a key run exactly where no repeated key is pushed past the end of the range. -/
theorem materializeKeys_keyRun (vsst : VirtualSST) (order : vsst.keyMin ≤ vsst.keyMax) (fits : vsst.keyMax < word64) :
    KeyRun vsst (materializeKeys vsst) ↔ Room vsst.keyMax (rawKeys vsst) := by
  have inside := rawKeys_inside order
  rw [materializeKeys]
  cases raw : rawKeys vsst with
  | nil => simp [raiseAll, KeyRun, Room]
  | cons first rest =>
    rw [raw] at inside
    obtain ⟨firstInside, restInside⟩ := forall_mem_cons.mp inside
    rw [raiseAll]
    constructor
    · intro run
      split_ifs at run with capped
      · -- a capped run ends with its bound twice
        obtain ⟨a, last, past⟩ := (Option.any_eq_true _ _).mp capped
        have past : vsst.keyMax < a := of_decide_eq_true past
        have ne : rest ≠ [] := by
          intro empty
          obtain rfl : first = a := by simpa [empty, raiseKeys] using last
          omega
        obtain ⟨front, b, split, atLeast⟩ := raise_last ne (fun k mem => (restInside k mem).2) last past
        obtain ⟨kept, twice⟩ := capKeys_twice front past atLeast
        rw [split, twice] at run
        have less := (pairwise_append.mp run.2).2.1
        simp at less
      · exact room_of_raise (isChain_iff_pairwise.mpr run.2) fun k mem => (run.1 k mem).2
    · intro room
      obtain ⟨chain, lt⟩ := raise_of_room fits room.1 room.2
      have sorted := isChain_iff_pairwise.mp chain
      have within : ∀ k ∈ first :: raiseKeys first rest, vsst.keyMin ≤ k ∧ k ≤ vsst.keyMax := by
        refine forall_mem_cons.mpr ⟨firstInside, fun k mem => ⟨?_, lt k mem⟩⟩
        exact firstInside.1.trans ((pairwise_cons.mp sorted).1 k mem).le
      rw [if_neg]
      · exact ⟨within, sorted⟩
      · intro capped
        obtain ⟨a, last, past⟩ := (Option.any_eq_true _ _).mp capped
        have upper := (within a (mem_of_getLast? last)).2
        exact absurd (of_decide_eq_true past) (not_lt.mpr upper)

theorem materializeKeys_keyRun_ramp : KeyRun ⟨⟨[⟨10, 13, 1, -10⟩]⟩, [], 10, 13, 3, 0⟩
    (materializeKeys ⟨⟨[⟨10, 13, 1, -10⟩]⟩, [], 10, 13, 3, 0⟩) := by
  apply (materializeKeys_keyRun _ (by decide) (by decide)).mpr
  rw [show rawKeys ⟨⟨[⟨10, 13, 1, -10⟩]⟩, [], 10, 13, 3, 0⟩ = [10, 11, 12] by decide +kernel]
  exact ⟨by decide, by decide, by decide, trivial⟩

/-- Two entries over the one key 5: the second is raised to 6 and capped to 5 again. -/
theorem materializeKeys_repeats : materializeKeys ⟨⟨[⟨5, 5, 1, 0⟩]⟩, [], 5, 5, 2, 0⟩ = [5, 5] ∧
    ¬ KeyRun ⟨⟨[⟨5, 5, 1, 0⟩]⟩, [], 5, 5, 2, 0⟩ (materializeKeys ⟨⟨[⟨5, 5, 1, 0⟩]⟩, [], 5, 5, 2, 0⟩) := by
  have keys : materializeKeys ⟨⟨[⟨5, 5, 1, 0⟩]⟩, [], 5, 5, 2, 0⟩ = [5, 5] := by decide +kernel
  rw [keys]
  exact ⟨rfl, fun run => by simpa using run.2⟩

variable {cfg : MaterializeConfig} {io : SstIo} {task : SSTTask} {m : BitMemory} {bound prev : ℕ} {keys : List ℕ}
  {segIdx : ℕ}

def RangeIncreases (cfg : MaterializeConfig) (task : SSTTask) : Prop :=
  ∀ a b, task.materializeKeyMin ≤ a → a < b → b ≤ task.materializeKeyMax →
    generateKeyFromInt cfg.format a cfg.map.keyDomain < generateKeyFromInt cfg.format b cfg.map.keyDomain

structure AfterKey (cfg : MaterializeConfig) (task : SSTTask) (segIdx prev : ℕ) (s : FileState) : Prop where
  selector : s.selector = .model segIdx
  prevKey : s.prevKey = some prev
  prevStr : s.prevKeyStr = generateKeyFromInt cfg.format prev cfg.map.keyDomain
  inside : task.materializeKeyMin ≤ prev ∧ prev ≤ task.materializeKeyMax

theorem putKey_after (cfg : MaterializeConfig) (s : FileState) (segIdx : ℕ) {k : ℕ} (writes : WritesSucceed io)
    (larger : s.prevKeyStr = [] ∨ s.prevKeyStr < generateKeyFromInt cfg.format k cfg.map.keyDomain)
    (inside : task.materializeKeyMin ≤ k ∧ k ≤ task.materializeKeyMax) :
    ∃ s', putKey cfg io k { s with selector := .model segIdx } = (s', true) ∧ AfterKey cfg task segIdx k s' ∧
      s'.emitted = s.emitted ++ [k] := by
  have increases : ¬ (s.prevKeyStr ≠ [] ∧ ¬ s.prevKeyStr < generateKeyFromInt cfg.format k cfg.map.keyDomain) := by
    intro bad
    exact larger.elim bad.1 bad.2
  simp only [putKey]
  rw [if_neg increases, writes.puts]
  exact ⟨_, rfl, ⟨rfl, rfl, rfl, inside⟩, rfl⟩

theorem AfterKey.loop {s : FileState} (after : AfterKey cfg task segIdx prev s) (writes : WritesSucceed io)
    (increase : RangeIncreases cfg task) (small : task.materializeKeyMax < uint64Max) (left pos : ℕ) :
    ∃ s', (fileLoop cfg io task left pos s).run m = (s', m) ∧ s'.emitted = s.emitted ++
      (raiseKeys prev (walkKeys task left pos segIdx)).takeWhile (· ≤ task.materializeKeyMax) := by
  induction left generalizing prev pos s segIdx with
  | zero => exact ⟨s, rfl, by simp [walkKeys, raiseKeys]⟩
  | succ left ih =>
    obtain ⟨lower, upper⟩ := after.inside
    obtain ⟨key, segIdx', found⟩ : ∃ key segIdx', modelKey task segIdx pos = (key, segIdx') := ⟨_, _, rfl⟩
    have wrap : (prev + 1) % word64 = prev + 1 := Nat.mod_eq_of_lt (by unfold uint64Max at small; omega)
    have notLast : ¬ (key ≤ prev ∧ prev = uint64Max) := by omega
    generalize raised : (if key ≤ prev then prev + 1 else key) = next
    have above : prev < next := by split_ifs at raised <;> omega
    have selected : selectKey cfg.map task pos s =
        if next > task.materializeKeyMax then pure (.error .rangeExhausted) else pure (.ok (next, .model segIdx')) := by
      simp [selectKey, after.selector, found, after.prevKey, notLast, raised]
    rw [fileLoop, run_bind, selected, walkKeys, found]
    simp only [raiseKeys, wrap, raised]
    by_cases past : next > task.materializeKeyMax
    · rw [if_pos past, takeWhile_cons_of_neg (by simpa using past), append_nil]
      exact ⟨_, rfl, rfl⟩
    · have larger := increase prev next lower above (not_lt.mp past)
      obtain ⟨s', put, after', emitted⟩ := putKey_after cfg s segIdx' writes (.inr (after.prevStr ▸ larger))
        ⟨lower.trans above.le, not_lt.mp past⟩
      obtain ⟨s₂, looped, rest⟩ := ih after' (pos + 1)
      rw [if_neg past]
      refine ⟨s₂, ?_, ?_⟩
      · simp only [run_done, pure_eq_done, put, if_true]
        exact looped
      · rw [rest, emitted, takeWhile_cons_of_pos (by simpa using past), append_assoc, singleton_append]

theorem run_modelLoop (writes : WritesSucceed io) (increase : RangeIncreases cfg task)
    (order : task.materializeKeyMin ≤ task.materializeKeyMax) (small : task.materializeKeyMax < uint64Max) (left : ℕ) :
    ∃ s', (fileLoop cfg io task left 0 { selector := .model 0 }).run m = (s', m) ∧
      s'.emitted = (raiseAll (walkKeys task left 0 0)).takeWhile (· ≤ task.materializeKeyMax) := by
  cases left with
  | zero => exact ⟨_, rfl, rfl⟩
  | succ left =>
    obtain ⟨key, segIdx, found⟩ : ∃ key segIdx, modelKey task 0 0 = (key, segIdx) := ⟨_, _, rfl⟩
    have inside := walkKeys_inside task order (left + 1) 0 0 key (by simp [walkKeys, found])
    obtain ⟨s', put, after, emitted⟩ := putKey_after cfg { selector := .model 0 } segIdx writes (.inl rfl) inside
    obtain ⟨s₂, looped, rest⟩ := after.loop (m := m) writes increase small left 1
    refine ⟨s₂, ?_, ?_⟩
    · rw [fileLoop, run_bind]
      simp only [selectKey, found, run_done, pure_eq_done, put, if_true]
      exact looped
    · rw [rest, emitted, walkKeys, found, raiseAll, takeWhile_cons_of_pos (by simpa using inside.2)]
      rfl

theorem map_min_eq (inside : ∀ k ∈ keys, k ≤ bound) : keys.map (min · bound) = keys := by
  rw [map_congr_left fun k mem => min_eq_left (inside k mem), map_id']

theorem capKeys_decreasing (sorted : keys.Pairwise (· > ·)) : capKeys bound keys = keys.map (min · bound) := by
  induction keys with
  | nil => rfl
  | cons key rest ih =>
    obtain ⟨lt, sorted⟩ := pairwise_cons.mp sorted
    rw [capKeys, map_cons]
    split_ifs with past
    · rw [ih sorted, min_eq_right past.le]
    · have within : ∀ k ∈ key :: rest, k ≤ bound :=
        forall_mem_cons.mpr ⟨not_lt.mp past, fun k mem => (lt k mem).le.trans (not_lt.mp past)⟩
      exact (map_min_eq within).symm

theorem materializeKeys_capped (sorted : (raiseAll (rawKeys vsst)).Pairwise (· < ·)) :
    materializeKeys vsst = (raiseAll (rawKeys vsst)).map (min · vsst.keyMax) := by
  rw [materializeKeys]
  split_ifs with capped
  · rw [capKeys_decreasing (pairwise_reverse.mpr sorted), ← map_reverse, reverse_reverse]
  · apply Eq.symm
    apply map_min_eq
    intro k mem
    obtain ⟨last, atEnd⟩ := Option.isSome_iff_exists.mp (getLast?_isSome.mpr (ne_nil_of_mem mem))
    rw [atEnd, Option.any_some, decide_eq_true_iff, gt_iff_lt, not_lt] at capped
    exact (le_getLast?_of_sorted sorted atEnd mem).trans capped

theorem mem_capped (chain : (prev :: raiseKeys prev keys).IsChain (· < ·)) (start : prev ≤ bound)
    (inside : ∀ k ∈ keys, k ≤ bound) (k : ℕ) :
    k ∈ (prev :: raiseKeys prev keys).map (min · bound) ↔ k ∈ prev :: (raiseKeys prev keys).takeWhile (· ≤ bound) := by
  induction keys generalizing prev with
  | nil => simp [raiseKeys, start]
  | cons key rest ih =>
    obtain ⟨here, later⟩ := forall_mem_cons.mp inside
    rw [raiseKeys] at chain ⊢
    generalize raised : (if key ≤ prev then (prev + 1) % word64 else key) = next at chain ⊢
    obtain ⟨lt, chain⟩ := isChain_cons_cons.mp chain
    rw [map_cons, mem_cons, min_eq_left start, mem_cons]
    by_cases past : bound < next
    · -- the step past the bound starts at it
      obtain rfl : prev = bound := by
        have step := Nat.mod_le (prev + 1) word64
        split_ifs at raised <;> omega
      have sorted := pairwise_cons.mp (isChain_iff_pairwise.mp chain)
      have above : ∀ x ∈ next :: raiseKeys next rest, prev ≤ x :=
        forall_mem_cons.mpr ⟨lt.le, fun x mem => (lt.trans (sorted.1 x mem)).le⟩
      rw [map_congr_left fun x mem => min_eq_right (above x mem), takeWhile_cons_of_neg (by simpa using past)]
      simp
    · rw [ih chain (not_lt.mp past) later, takeWhile_cons_of_pos (by simpa using past)]

theorem finishFile_emitted (io : SstIo) (task : SSTTask) (plan : FilePlan) (s : FileState) (res : SSTResult) :
    ((finishFile cfg io task plan s res).run m).1.emitted = s.emitted := by
  unfold finishFile
  split_ifs <;> first | rfl | (rw [run_bind]; rfl)

theorem dedup_materializeKeys (order : vsst.keyMin ≤ vsst.keyMax) (room : Room uint64Max (rawKeys vsst)) :
    (materializeKeys vsst).dedup = (raiseAll (rawKeys vsst)).takeWhile (· ≤ vsst.keyMax) := by
  have inside := rawKeys_inside order
  cases raw : rawKeys vsst with
  | nil => simp [materializeKeys, raw, raiseAll]
  | cons first rest =>
    rw [raw] at room inside
    obtain ⟨firstInside, restInside⟩ := forall_mem_cons.mp inside
    obtain ⟨chain, -⟩ := raise_of_room (by decide) room.1 room.2
    have sorted := isChain_iff_pairwise.mp chain
    have capped : materializeKeys vsst = (first :: raiseKeys first rest).map (min · vsst.keyMax) := by
      rw [materializeKeys_capped (by rw [raw]; exact sorted), raw, raiseAll]
    have ascending : (materializeKeys vsst).Pairwise (· ≤ ·) := by
      rw [capped]
      exact pairwise_map.mpr (sorted.imp fun lt => min_le_min_right _ lt.le)
    rw [raiseAll, takeWhile_cons_of_pos (by simpa using firstInside.2)]
    apply eq_of_sorted
    · exact ((ascending.sublist (dedup_sublist _)).and (nodup_dedup _)).imp fun both => both.1.lt_of_ne both.2
    · exact sorted.sublist ((takeWhile_sublist _).cons_cons first)
    · intro k
      rw [mem_dedup, capped]
      exact mem_capped chain firstInside.2 (fun k mem => (restInside k mem).2) k

theorem walkKeys_newTask (vsst : VirtualSST) (virtualFnum realFnum level left pos segIdx : ℕ) :
    walkKeys (newTask virtualFnum realFnum level vsst) left pos segIdx = walkKeys (newTask 0 0 0 vsst) left pos segIdx := by
  induction left generalizing pos segIdx with
  | zero => rfl
  | succ left ih =>
    change _ :: walkKeys (newTask virtualFnum realFnum level vsst) left _ _ = _
    rw [ih]
    rfl

/-- Without bitmaps a file emits the keys of `MaterializeKeys` without their repetitions. -/
theorem streaming_agrees (cfg : MaterializeConfig) (vsst : VirtualSST) (virtualFnum realFnum level : ℕ) (m : BitMemory)
    (model : cfg.selection = .model) (writes : ∀ number, WritesSucceed (cfg.io number))
    (order : vsst.keyMin ≤ vsst.keyMax) (small : vsst.keyMax < uint64Max)
    (increase : RangeIncreases cfg (newTask virtualFnum realFnum level vsst)) (room : Room uint64Max (rawKeys vsst)) :
    ((materializeFile cfg (newTask virtualFnum realFnum level vsst)).run m).1.emitted = (materializeKeys vsst).dedup := by
  set task := newTask virtualFnum realFnum level vsst
  rw [dedup_materializeKeys order room]
  unfold materializeFile rawKeys
  by_cases zero : task.vsst.numEntries = 0
  · rw [if_pos zero, if_pos (.inl zero)]
    rfl
  by_cases empty : task.vsst.plrModel.empty
  · rw [if_neg zero, if_pos empty, if_pos (.inr empty)]
    rfl
  have notReversed : ¬ task.materializeKeyMin > task.materializeKeyMax := not_lt.mpr order
  have entered : ¬ (vsst.numEntries = 0 ∨ vsst.plrModel.empty) := not_or.mpr ⟨zero, empty⟩
  rw [if_neg zero, if_neg empty, if_neg notReversed, if_neg entered, run_bind, planFile, model]
  obtain ⟨s, looped, emitted⟩ := run_modelLoop (m := m) (writes task.realFnum) increase order small task.vsst.numEntries
  simp only [run_done, pure_eq_done, (writes task.realFnum).opens, Bool.not_true, Bool.false_eq_true, if_false, run_bind,
    looped, finishFile_emitted]
  rw [emitted, walkKeys_newTask]
  rfl

def modelConfig (keySize keyDomain : ℕ) : MaterializeConfig :=
  ⟨⟨keySize, 0, 0⟩, .model, ⟨keyDomain, 0⟩, fun _ => ⟨true, fun _ => true, true⟩⟩

theorem rangeIncreases_plain (increase : KeysIncrease cfg) (inside : task.materializeKeyMax < cfg.map.keyDomain) :
    RangeIncreases cfg task := fun a b _ lt upper => increase a b lt (upper.trans_lt inside)

theorem streaming_agrees_repeated :
    ((materializeFile (modelConfig 16 300) (newTask 7 7 1 ⟨⟨[⟨10, 13, 1, -10⟩]⟩, [], 10, 13, 5, 0⟩)).run
      fun _ => 0).1.emitted =
      (materializeKeys ⟨⟨[⟨10, 13, 1, -10⟩]⟩, [], 10, 13, 5, 0⟩).dedup := by
  apply streaming_agrees (modelConfig 16 300) _ 7 7 1 _ rfl (fun _ => ⟨rfl, fun _ => rfl, rfl⟩) (by decide) (by decide)
  · exact rangeIncreases_plain (keysIncrease_plain rfl (by decide)) (by decide)
  · rw [show rawKeys ⟨⟨[⟨10, 13, 1, -10⟩]⟩, [], 10, 13, 5, 0⟩ = [10, 11, 12, 13, 13] by decide +kernel]
    exact ⟨by decide, by decide, by decide, by decide, by decide, trivial⟩

/-- One-byte keys: the id 256 is left out. A reversed range is refused. At the end of 64 bits the sweep wraps to 0. -/
theorem streaming_differs :
    (((materializeFile (modelConfig 1 300) (newTask 7 7 1 ⟨⟨[⟨255, 256, 1, -255⟩]⟩, [], 255, 256, 2, 0⟩)).run
        fun _ => 0).1.emitted = [255] ∧
      (materializeKeys ⟨⟨[⟨255, 256, 1, -255⟩]⟩, [], 255, 256, 2, 0⟩).dedup = [255, 256]) ∧
    (((materializeFile (modelConfig 16 300) (newTask 7 7 1 ⟨⟨[⟨5, 5, 1, 0⟩]⟩, [], 6, 5, 1, 0⟩)).run fun _ => 0).1.emitted = [] ∧
      (materializeKeys ⟨⟨[⟨5, 5, 1, 0⟩]⟩, [], 6, 5, 1, 0⟩).dedup = [5]) ∧
    ((materializeFile (modelConfig 16 (2 ^ 64 - 1)) (newTask 7 7 1
        ⟨⟨[⟨2 ^ 64 - 2, 2 ^ 64 - 2, 1, 0⟩]⟩, [], 2 ^ 64 - 2, 2 ^ 64 - 2, 3, 0⟩)).run fun _ => 0).1.emitted = [2 ^ 64 - 2] ∧
      (materializeKeys ⟨⟨[⟨2 ^ 64 - 2, 2 ^ 64 - 2, 1, 0⟩]⟩, [], 2 ^ 64 - 2, 2 ^ 64 - 2, 3, 0⟩).dedup =
        [2 ^ 64 - 2, 2 ^ 64 - 1, 0] := by
  decide +kernel

section

variable {segments : List PLRSegment} {seg : PLRSegment}

theorem keyAt_exact {key rank : ℕ} (inside : seg.keyStart ≤ key ∧ key ≤ seg.keyEnd)
    (onLine : seg.eval key = rank) (small : seg.keyEnd < 10 ^ 15) (steep : seg.keyStart < seg.keyEnd → flatSlope ≤ seg.slope) :
    seg.keyAt rank = key := by
  unfold PLRSegment.keyAt
  split_ifs with flat
  · have point : seg.keyStart = seg.keyEnd := by
      by_contra two
      have slope := steep (by omega)
      exact absurd flat (not_lt.mpr (slope.trans (le_abs_self _)))
    unfold word64
    omega
  · have nonzero : seg.slope ≠ 0 := by
      intro zero
      rw [zero, abs_zero] at flat
      exact flat (by norm_num [flatSlope])
    have solved : ((rank : ℚ) - seg.intercept) / seg.slope = key := by
      rw [← onLine, PLRSegment.eval, add_sub_cancel_right, mul_div_cancel_left₀ _ nonzero]
    have lower : (seg.keyStart : ℚ) ≤ key := by exact_mod_cast inside.1
    have upper : (key : ℚ) ≤ seg.keyEnd := by exact_mod_cast inside.2
    simp [solved, max_eq_left lower, min_eq_left upper, stdRound_natCast, Int.toNat_natCast]

theorem advanceSegment_eq {position : ℚ} {i : ℕ} (found : segments[i]? = some seg)
    (reaches : position ≤ seg.posEnd) (behind : segIdx ≤ i)
    (ended : ∀ j other, segIdx ≤ j → j < i → segments[j]? = some other → other.posEnd < position) (fuel : ℕ)
    (enough : i ≤ segIdx + fuel) : advanceSegment segments position fuel segIdx = i := by
  have inside := (List.getElem?_eq_some_iff.mp found).1
  induction fuel generalizing segIdx with
  | zero => exact le_antisymm behind enough
  | succ fuel ih =>
    rw [advanceSegment]
    rcases lt_or_eq_of_le behind with before | rfl
    · obtain ⟨other, here⟩ : ∃ other, segments[segIdx]? = some other := ⟨_, getElem?_eq_getElem (by omega)⟩
      rw [if_pos (by omega), here]
      dsimp only
      rw [if_neg (not_le.mpr (ended segIdx other le_rfl before here))]
      exact ih before (fun j other after => ended j other (by omega)) (by omega)
    · rw [found]
      dsimp only
      rw [if_pos reaches]
      split_ifs <;> rfl

section

variable (fitted : Fitted 0 0 keys segments)
include fitted

theorem Fitted.onLine (mem : seg ∈ segments) {j key : ℕ}
    (found : keys[j]? = some key) (inside : seg.keyStart ≤ key ∧ key ≤ seg.keyEnd) : seg.eval key = j := by
  obtain ⟨other, there, inside', near⟩ := fitted.covers j key found
  obtain rfl : seg = other := by
    by_contra nodup
    rcases segments_apart fitted.ordered mem there nodup with before | after <;> omega
  rw [Nat.cast_zero, zero_add, abs_nonpos_iff, sub_eq_zero] at near
  exact near

theorem Fitted.steep (sorted : keys.Pairwise (· < ·)) (small : ∀ k ∈ keys, k < 10 ^ 15)
    (mem : seg ∈ segments) (two : seg.keyStart < seg.keyEnd) : flatSlope ≤ seg.slope := by
  obtain ⟨startIn, endIn⟩ := fitted.ends seg mem
  obtain ⟨a, atStart⟩ := getElem?_of_mem startIn
  obtain ⟨b, atEnd⟩ := getElem?_of_mem endIn
  have order : a < b := by
    by_contra notBefore
    rcases lt_or_eq_of_le (not_lt.mp notBefore) with later | rfl
    · exact absurd (sorted_getElem?_lt sorted atEnd atStart later) (not_lt.mpr two.le)
    · rw [atStart, Option.some.injEq] at atEnd
      omega
  have first := fitted.onLine mem atStart ⟨le_rfl, two.le⟩
  have last := fitted.onLine mem atEnd ⟨two.le, le_rfl⟩
  have rise : (1 : ℚ) ≤ (b : ℚ) - a := by
    have : (a : ℚ) + 1 ≤ b := by exact_mod_cast order
    linarith
  have width : (seg.keyEnd : ℚ) - seg.keyStart ≤ 10 ^ 15 := by
    have endSmall : (seg.keyEnd : ℚ) ≤ 10 ^ 15 := by exact_mod_cast (small _ endIn).le
    linarith [Nat.cast_nonneg (α := ℚ) seg.keyStart]
  have slope := fitted.rising seg mem two
  simp only [PLRSegment.eval] at first last
  have product : 1 ≤ seg.slope * 10 ^ 15 := by nlinarith
  rw [flatSlope, div_le_iff₀ (by positivity)]
  exact product

theorem walkKeys_exact (sorted : keys.Pairwise (· < ·)) (small : ∀ k ∈ keys, k < 10 ^ 15)
    (task : SSTTask) (model : task.vsst.plrModel.segments = segments)
    (range : ∀ k ∈ keys, task.materializeKeyMin ≤ k ∧ k ≤ task.materializeKeyMax) (left pos segIdx : ℕ)
    (count : pos + left = keys.length)
    (behind : ∀ key i seg, keys[pos]? = some key → segments[i]? = some seg → seg.keyStart ≤ key ∧
      key ≤ seg.keyEnd → segIdx ≤ i) :
    walkKeys task left pos segIdx = keys.drop pos := by
  induction left generalizing pos segIdx with
  | zero => rw [walkKeys, drop_of_length_le (by omega)]
  | succ left ih =>
    have inKeys : pos < keys.length := by omega
    have here := getElem?_eq_getElem inKeys
    obtain ⟨seg, mem, inside, -⟩ := fitted.covers pos _ here
    obtain ⟨i, found⟩ := getElem?_of_mem mem
    have ordered := pairwise_iff_getElem.mp fitted.ordered
    -- the walk stops at the segment of the key: those before end at smaller ranks, and it ends at this one or later
    have rankOf : ∀ other ∈ segments, ∃ b : ℕ, keys[b]? = some other.keyEnd ∧ other.posEnd = b := by
      intro other there
      obtain ⟨b, atEnd⟩ := getElem?_of_mem (fitted.ends other there).2
      exact ⟨b, atEnd, fitted.onLine there atEnd ⟨fitted.proper other there, le_rfl⟩⟩
    have stops : advanceSegment segments pos segments.length segIdx = i := by
      apply advanceSegment_eq found _ (behind _ i seg here found inside)
      · intro j other _ before there
        obtain ⟨b, atEnd, rank⟩ := rankOf other (mem_of_getElem? there)
        obtain ⟨belowJ, rfl⟩ := List.getElem?_eq_some_iff.mp there
        obtain ⟨belowI, rfl⟩ := List.getElem?_eq_some_iff.mp found
        have apart := ordered j i belowJ belowI before
        rw [rank, Nat.cast_lt]
        by_contra notBefore
        rcases lt_or_eq_of_le (not_lt.mp notBefore) with later | rfl
        · have := sorted_getElem?_lt sorted here atEnd later
          omega
        · rw [here, Option.some.injEq] at atEnd
          omega
      · have := (List.getElem?_eq_some_iff.mp found).1
        omega
      · obtain ⟨b, atEnd, rank⟩ := rankOf seg mem
        rw [rank, Nat.cast_le]
        by_contra before
        have := sorted_getElem?_lt sorted atEnd here (not_le.mp before)
        omega
    have exactly := keyAt_exact inside (fitted.onLine mem here inside) (small _ (fitted.ends seg mem).2)
      (fitted.steep sorted small mem)
    obtain ⟨lower, upper⟩ := range _ (getElem_mem inKeys)
    have key : modelKey task segIdx pos = (keys[pos], i) := by
      simp [modelKey, model, stops, found, exactly, max_eq_left lower, min_eq_left upper]
    rw [walkKeys, key, drop_eq_getElem_cons inKeys]
    apply congrArg (keys[pos] :: ·)
    apply ih (pos + 1) i (by omega)
    intro key i' seg' next found' inside'
    by_contra before
    obtain ⟨belowI', rfl⟩ := List.getElem?_eq_some_iff.mp found'
    obtain ⟨belowI, rfl⟩ := List.getElem?_eq_some_iff.mp found
    have apart := ordered i' i belowI' belowI (not_le.mp before)
    have lt := sorted_getElem?_lt sorted here next (Nat.lt_succ_self pos)
    omega

end

theorem raiseKeys_sorted (sorted : (prev :: keys).IsChain (· < ·)) : raiseKeys prev keys = keys := by
  induction keys generalizing prev with
  | nil => rfl
  | cons key rest ih =>
    obtain ⟨lt, sorted⟩ := isChain_cons_cons.mp sorted
    rw [raiseKeys, if_neg (not_le.mpr lt), ih sorted]

/-- The keys of a descriptor fitted without error come back. -/
theorem materializeKeys_roundTrip (keys : List ℕ) (kmvRanges : List KMVRangeSketch) (sizeBytes : ℕ)
    (sorted : keys.Pairwise (· < ·)) (small : ∀ k ∈ keys, k < 10 ^ 15) :
    materializeKeys ⟨greedyPLRFit keys 0, kmvRanges, keys.headD 0, keys.getLastD 0, keys.length, sizeBytes⟩ = keys := by
  cases keys with
  | nil => rfl
  | cons first rest =>
    set keys := first :: rest
    have fitted : Fitted 0 0 keys (greedyPLRFit keys 0).segments := greedyLoop_fitted le_rfl keys.length 0 keys sorted le_rfl
    obtain ⟨seg, mem, -⟩ := fitted.covers 0 first rfl
    have ne : ¬ (keys.length = 0 ∨ (greedyPLRFit keys 0).empty) := by
      simp [keys, PLRModel.empty, ne_nil_of_mem mem]
    have lower := pairwise_cons.mp sorted
    have range : ∀ k ∈ keys, first ≤ k ∧ k ≤ rest.getLastD first := fun k inKeys =>
      ⟨(mem_cons.mp inKeys).elim Eq.ge fun later => (lower.1 k later).le, le_getLastD sorted k inKeys⟩
    have walk := walkKeys_exact fitted sorted small
      (newTask 0 0 0 ⟨greedyPLRFit keys 0, kmvRanges, first, rest.getLastD first, keys.length, sizeBytes⟩) rfl range
        keys.length 0 0 (Nat.zero_add _) (fun _ i _ _ _ _ => Nat.zero_le i)
    have raised : raiseAll keys = keys := by rw [raiseAll, raiseKeys_sorted (isChain_iff_pairwise.mpr sorted)]
    simp only [materializeKeys, rawKeys]
    rw [if_neg ne, headD_cons, getLastD_cons, walk, drop_zero, raised, if_neg]
    rw [getLast?_cons, ← getLastD_eq_getLast?]
    simp

theorem materializeKeys_roundTrip_lines :
    materializeKeys ⟨greedyPLRFit [0, 1, 5, 7, 9, 1000] 0, [], 0, 1000, 6, 0⟩ = [0, 1, 5, 7, 9, 1000] :=
  materializeKeys_roundTrip [0, 1, 5, 7, 9, 1000] [] 0 (by decide) (by decide)

end

end VcompProof
