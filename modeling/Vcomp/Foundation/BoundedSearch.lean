import Mathlib.Data.List.Chain

namespace BoundedSearch

open List

variable {α : Type*}

inductive Outcome (α : Type*) where
  | exhausted
  | found (path : List α)
  | tooDeep
  deriving DecidableEq, Repr

/-- The values from a root to the entry `i` of the queue, by the parents' indices. -/
def pathTo (queue : List (α × Option ℕ)) : (fuel : ℕ) → Option ℕ → List α → List α
  | 0, _, acc => acc
  | _ + 1, none, acc => acc
  | fuel + 1, some i, acc =>
    match queue[i]? with
    | none => acc
    | some (value, parent) => pathTo queue fuel parent (value :: acc)

/-- Breadth-first search without a visited set: at most `depth` values with their parents, the first `head` expanded. -/
def search [DecidableEq α] (next : α → Option (List α)) (target : α) (depth : ℕ) :
    (rounds head : ℕ) → (queue : List (α × Option ℕ)) → (pending : List α) → (parent : Option ℕ) → Outcome α
  | 0, _, _, _, _ => .tooDeep
  | rounds + 1, head, queue, pending, parent =>
    let queue := queue ++ (pending.take (depth - queue.length)).map (·, parent)
    match queue[head]? with
    | none => .exhausted
    | some (value, _) =>
      if value = target then .found (pathTo queue (head + 1) (some head) [])
      else
        match next value with
        | none => search next target depth rounds (head + 1) queue [] parent
        | some pending => search next target depth rounds (head + 1) queue pending (some head)

variable {next : α → Option (List α)} {target : α} {depth : ℕ} {roots : List α}

def Edge (next : α → Option (List α)) (a b : α) : Prop := ∃ successors, next a = some successors ∧ b ∈ successors

theorem fill_length {queue : List (α × Option ℕ)} (pending : List α) (parent : Option ℕ)
    (room : (queue ++ (pending.take (depth - queue.length)).map (·, parent)).length < depth) :
    queue.length < depth ∧ pending.take (depth - queue.length) = pending := by
  simp only [length_append, length_map, length_take] at room
  exact ⟨by omega, take_of_length_le (by omega)⟩

theorem fill_map (queue : List (α × Option ℕ)) (pending : List α) (parent : Option ℕ) :
    (queue ++ pending.map (·, parent)).map Prod.fst = queue.map Prod.fst ++ pending := by
  rw [map_append, map_map]
  exact congrArg _ (map_id pending)

variable {queue : List (α × Option ℕ)} {pending : List α} {head : ℕ} {value : α}

structure Explored (next : α → Option (List α)) (target : α) (depth : ℕ) (roots : List α) (head : ℕ)
    (queue : List (α × Option ℕ)) (pending : List α) : Prop where
  reached : head ≤ queue.length
  within : queue.length ≤ depth
  expanded : queue.length < depth → ∀ i value parent, i < head → queue[i]? = some (value, parent) →
    value ≠ target ∧ ∀ b, Edge next value b → b ∈ queue.map Prod.fst ++ pending
  rooted : queue.length < depth → ∀ root ∈ roots, root ∈ queue.map Prod.fst ++ pending

theorem Explored.filled (explored : Explored next target depth roots head queue pending)
    (parent : Option ℕ) :
    Explored next target depth roots head (queue ++ (pending.take (depth - queue.length)).map (·, parent)) [] := by
  have length : (queue ++ (pending.take (depth - queue.length)).map (·, parent)).length =
      queue.length + min (depth - queue.length) pending.length := by simp
  have within := explored.within
  refine ⟨?_, by omega, ?_, ?_⟩
  · have := explored.reached
    omega
  · intro room i value parent' early found
    obtain ⟨room', all⟩ := fill_length pending parent room
    rw [getElem?_append_left (by have := explored.reached; omega)] at found
    obtain ⟨other, closed⟩ := explored.expanded room' i value parent' early found
    rw [all, fill_map, append_nil]
    exact ⟨other, closed⟩
  · intro room root mem
    obtain ⟨room', all⟩ := fill_length pending parent room
    rw [all, fill_map, append_nil]
    exact explored.rooted room' root mem

theorem Explored.step {parent : Option ℕ} (explored : Explored next target depth roots head queue [])
    (found : queue[head]? = some (value, parent)) (other : value ≠ target)
    (successors : ∀ b, Edge next value b → b ∈ pending) : Explored next target depth roots (head + 1) queue pending := by
  refine ⟨(List.getElem?_eq_some_iff.mp found).1, explored.within, ?_, ?_⟩
  · intro room i value' parent' early found'
    rcases lt_or_eq_of_le (Nat.le_of_lt_succ early) with before | rfl
    · obtain ⟨other', closed⟩ := explored.expanded room i value' parent' before found'
      refine ⟨other', fun b edge => mem_append_left _ ?_⟩
      simpa using closed b edge
    · obtain ⟨rfl, rfl⟩ := Prod.mk.inj (Option.some.inj (found.symm.trans found'))
      exact ⟨other, fun b edge => mem_append_right _ (successors b edge)⟩
  · intro room root mem
    have known := explored.rooted room root mem
    rw [append_nil] at known
    exact mem_append_left _ known

theorem Explored.unreachable (explored : Explored next target depth roots head queue [])
    (room : queue.length < depth) (ends : queue.length ≤ head) :
    ∀ root ∈ roots, ¬Relation.ReflTransGen (Edge next) root target := by
  have closed : ∀ value ∈ queue.map Prod.fst, value ≠ target ∧ ∀ b, Edge next value b → b ∈ queue.map Prod.fst := by
    intro value mem
    obtain ⟨⟨_, parent⟩, entry, rfl⟩ := mem_map.mp mem
    obtain ⟨i, inside, eq⟩ := mem_iff_getElem.mp entry
    have known := explored.expanded room i _ parent (by omega) (by rw [getElem?_eq_getElem inside, eq])
    rwa [append_nil] at known
  intro root mem reach
  have rooted := explored.rooted room root mem
  rw [append_nil] at rooted
  have stays : ∀ value, Relation.ReflTransGen (Edge next) root value → value ∈ queue.map Prod.fst := by
    intro value path
    induction path with
    | refl => exact rooted
    | tail _ edge ih => exact (closed _ ih).2 _ edge
  exact (closed target (stays target reach)).1 rfl

theorem search_exhausted [DecidableEq α] (rounds head : ℕ) {parent : Option ℕ}
    (explored : Explored next target depth roots head queue pending) (budget : head + rounds = depth)
    (ends : search next target depth rounds head queue pending parent = .exhausted) :
    ∀ root ∈ roots, ¬Relation.ReflTransGen (Edge next) root target := by
  induction rounds generalizing head queue pending parent with
  | zero => cases ends
  | succ rounds ih =>
    have filled := explored.filled parent
    rw [search] at ends
    generalize queue ++ (pending.take (depth - queue.length)).map (·, parent) = queue' at *
    cases at_head : queue'[head]? with
    | none =>
      have short := getElem?_eq_none_iff.mp at_head
      exact filled.unreachable (by omega) short
    | some entry =>
      obtain ⟨value, parent'⟩ := entry
      rw [at_head] at ends
      dsimp only at ends
      split at ends
      next => cases ends
      next other =>
        cases successors : next value with
        | none =>
          rw [successors] at ends
          refine ih (head + 1) (filled.step at_head other ?_) (by omega) ends
          rintro b ⟨list, eq, -⟩
          rw [successors] at eq
          cases eq
        | some list =>
          rw [successors] at ends
          refine ih (head + 1) (filled.step at_head other ?_) (by omega) ends
          rintro b ⟨list', eq, mem⟩
          rwa [Option.some.inj (successors.symm.trans eq)]

variable {parent : Option ℕ} {path : List α}

structure Linked (next : α → Option (List α)) (roots : List α) (queue : List (α × Option ℕ)) : Prop where
  root : ∀ (i : ℕ) value, queue[i]? = some (value, none) → value ∈ roots
  parent : ∀ (i : ℕ) value (j : ℕ), queue[i]? = some (value, some j) → j < i ∧
    ∃ before parent, queue[j]? = some (before, parent) ∧ Edge next before value

structure Walk (next : α → Option (List α)) (roots : List α) (value : α) (path : List α) : Prop where
  chain : path.IsChain (Edge next)
  first : ∃ root ∈ roots, path.head? = some root
  last : path.getLast? = some value

def Pending (next : α → Option (List α)) (roots : List α) (queue : List (α × Option ℕ)) (pending : List α)
    (parent : Option ℕ) : Prop :=
  ∀ value ∈ pending, parent = none ∧ value ∈ roots ∨
    ∃ (j : ℕ) (before : α) (parent' : Option ℕ), parent = some j ∧ queue[j]? = some (before, parent') ∧ Edge next before value

theorem Linked.filled (linked : Linked next roots queue) (known : Pending next roots queue pending parent) (count : ℕ) :
    Linked next roots (queue ++ (pending.take count).map (·, parent)) := by
  have entries : ∀ i value parent', (queue ++ (pending.take count).map (·, parent))[i]? = some (value, parent') →
      queue[i]? = some (value, parent') ∨ queue.length ≤ i ∧ value ∈ pending ∧ parent' = parent := by
    intro i value parent' found
    rcases lt_or_ge i queue.length with inside | outside
    · rw [getElem?_append_left inside] at found
      exact .inl found
    · rw [getElem?_append_right outside] at found
      obtain ⟨fresh, mem, eq⟩ := mem_map.mp (mem_of_getElem? found)
      obtain ⟨rfl, rfl⟩ := Prod.mk.inj eq
      exact .inr ⟨outside, mem_of_mem_take mem, rfl⟩
  have kept : ∀ {j : ℕ} {entry}, queue[j]? = some entry →
      (queue ++ (pending.take count).map (·, parent))[j]? = some entry := by
    intro j entry found
    rw [List.getElem?_append_left (List.getElem?_eq_some_iff.mp found).1]
    exact found
  refine ⟨fun i value found => ?_, fun i value j found => ?_⟩
  · rcases entries i value none found with old | ⟨-, mem, eq⟩
    · exact linked.root i value old
    · rcases known value mem with ⟨-, root⟩ | ⟨j, before, parent', other, -⟩
      · exact root
      · rw [other] at eq
        cases eq
  · rcases entries i value (some j) found with old | ⟨outside, mem, eq⟩
    · obtain ⟨lt, before, parent', entry, edge⟩ := linked.parent i value j old
      exact ⟨lt, before, parent', kept entry, edge⟩
    · rcases known value mem with ⟨other, -⟩ | ⟨j', before, parent', parent_eq, entry, edge⟩
      · rw [other] at eq
        cases eq
      · obtain rfl : j = j' := Option.some.inj (eq.trans parent_eq)
        have inside := (List.getElem?_eq_some_iff.mp entry).1
        exact ⟨by omega, before, parent', kept entry, edge⟩

theorem Walk.reaches (walk : Walk next roots value path) :
    ∃ root ∈ roots, Relation.ReflTransGen (Edge next) root value := by
  obtain ⟨root, mem, first⟩ := walk.first
  obtain ⟨rest, rfl⟩ := head?_eq_some_iff.mp first
  refine ⟨root, mem, relationReflTransGen_of_exists_isChain_cons rest walk.chain ?_⟩
  exact Option.some.inj ((getLast?_eq_getLast_of_ne_nil _).symm.trans walk.last)

end BoundedSearch
