import Mathlib.Algebra.Order.BigOperators.Group.List
import Mathlib.Algebra.Order.Group.Nat
import Mathlib.Data.List.AList
import Vcomp.Foundation.BoundedSearch
import Vcomp.Foundation.Transition

namespace VcompModel.Lock

open BoundedSearch

structure TrackedTrxInfo (K : Type*) where
  neighbors : List ℕ
  cfId : ℕ
  exclusive : Bool
  waitingKey : K

/-- What is added to the deadlock buffer; the time is left out. -/
inductive DeadlockPath (K : Type*) where
  | limitExceeded
  | cycle (path : List (ℕ × Option (TrackedTrxInfo K)))

/-- The waiters with what they wait for, and the numbers of waiters of those waited for. -/
structure WaitMaps (K : Type*) where
  waitTxnMap : AList fun _ : ℕ => TrackedTrxInfo K
  revWaitTxnMap : AList fun _ : ℕ => ℕ

structure Waiter (K : Type*) where
  id : ℕ
  detectDepth : ℕ
  info : TrackedTrxInfo K

def incrementRev (rev : AList fun _ : ℕ => ℕ) (waitId : ℕ) : AList fun _ : ℕ => ℕ :=
  match rev.lookup waitId with
  | some count => rev.insert waitId (count + 1)
  | none => rev.insert waitId 1

def decrementRev (rev : AList fun _ : ℕ => ℕ) (waitId : ℕ) : AList fun _ : ℕ => ℕ :=
  match rev.lookup waitId with
  | some count => if count - 1 = 0 then rev.erase waitId else rev.insert waitId (count - 1)
  | none => rev

namespace WaitMaps

variable {K : Type*}

def initial : WaitMaps K := ⟨∅, ∅⟩

def decrementWaiters (maps : WaitMaps K) (id : ℕ) (waitIds : List ℕ) : WaitMaps K :=
  ⟨maps.waitTxnMap.erase id, waitIds.foldl decrementRev maps.revWaitTxnMap⟩

def enter (maps : WaitMaps K) (waiter : Waiter K) : WaitMaps K :=
  ⟨maps.waitTxnMap.insert waiter.id waiter.info, waiter.info.neighbors.foldl incrementRev maps.revWaitTxnMap⟩

def neighbors (maps : WaitMaps K) (id : ℕ) : Option (List ℕ) := (maps.waitTxnMap.lookup id).map (·.neighbors)

def searchFrom (maps : WaitMaps K) (waiter : Waiter K) : Outcome ℕ :=
  search maps.neighbors waiter.id waiter.detectDepth waiter.detectDepth 0 [] waiter.info.neighbors none

def incrementWaiters (maps : WaitMaps K) (waiter : Waiter K) : WaitMaps K × Bool × Option (DeadlockPath K) :=
  let entered := maps.enter waiter
  -- no deadlock if nobody is waiting on self
  if waiter.id ∉ entered.revWaitTxnMap then (entered, false, none)
  else
    match entered.searchFrom waiter with
    | .exhausted => (entered, false, none)
    | .found path =>
      (entered.decrementWaiters waiter.id waiter.info.neighbors, true,
        some (.cycle (path.map fun id => (id, entered.waitTxnMap.lookup id))))
    | .tooDeep => (entered.decrementWaiters waiter.id waiter.info.neighbors, true, some .limitExceeded)

inductive Call (K : Type*) where
  | incrementWaiters (waiter : Waiter K)
  | decrementWaiters (id : ℕ) (waitIds : List ℕ)

def step (maps : WaitMaps K) : Call K → WaitMaps K
  | .incrementWaiters waiter => (maps.incrementWaiters waiter).1
  | .decrementWaiters id waitIds => maps.decrementWaiters id waitIds

end WaitMaps

end VcompModel.Lock

namespace VcompProof.Lock

open VcompModel.Lock VcompModel.Lock.WaitMaps BoundedSearch List

variable {rev : AList fun _ : ℕ => ℕ} {counts : ℕ → ℕ}

def stored (count : ℕ) : Option ℕ := if count = 0 then none else some count

def Holds (rev : AList fun _ : ℕ => ℕ) (counts : ℕ → ℕ) : Prop := ∀ x, rev.lookup x = stored (counts x)

theorem incrementRev_holds (holds : Holds rev counts) (waitId : ℕ) :
    Holds (incrementRev rev waitId) fun x => counts x + if x = waitId then 1 else 0 := by
  intro x
  have here := holds waitId
  dsimp only
  by_cases eq : x = waitId
  · subst eq
    rw [if_pos rfl, stored, if_neg (Nat.succ_ne_zero _), incrementRev, here, stored]
    by_cases zero : counts x = 0
    · rw [if_pos zero, zero]
      exact AList.lookup_insert _
    · rw [if_neg zero]
      exact AList.lookup_insert _
  · rw [if_neg eq, add_zero, ← holds x, incrementRev]
    split <;> exact AList.lookup_insert_ne eq

theorem decrementRev_holds {waitId : ℕ}
    (holds : Holds rev fun x => counts x + if x = waitId then 1 else 0) : Holds (decrementRev rev waitId) counts := by
  intro x
  have here : rev.lookup waitId = stored (counts waitId + if waitId = waitId then 1 else 0) := holds waitId
  rw [if_pos rfl, stored, if_neg (Nat.succ_ne_zero _)] at here
  rw [decrementRev, here]
  dsimp only
  rw [Nat.add_sub_cancel]
  by_cases eq : x = waitId
  · subst eq
    unfold stored
    split
    next zero => exact AList.lookup_erase _ _
    next pos => exact AList.lookup_insert _
  · have other : rev.lookup x = stored (counts x + if x = waitId then 1 else 0) := holds x
    rw [if_neg eq, add_zero] at other
    split
    · rw [AList.lookup_erase_ne eq, other]
    · rw [AList.lookup_insert_ne eq, other]

theorem count_cons_ite (waitId x : ℕ) (rest : List ℕ) :
    (waitId :: rest).count x = rest.count x + if x = waitId then 1 else 0 := by
  rw [count_cons]
  congr 1
  exact if_congr (by rw [beq_iff_eq]; exact eq_comm) rfl rfl

theorem increments_hold (waitIds : List ℕ) (holds : Holds rev counts) :
    Holds (waitIds.foldl incrementRev rev) fun x => counts x + waitIds.count x := by
  induction waitIds generalizing rev counts with
  | nil => simpa using holds
  | cons waitId rest ih =>
    have next := ih (incrementRev_holds holds waitId)
    intro x
    rw [foldl_cons, next x]
    dsimp only
    rw [count_cons_ite, add_right_comm, add_assoc]

theorem decrements_hold (waitIds : List ℕ)
    (holds : Holds rev fun x => counts x + waitIds.count x) : Holds (waitIds.foldl decrementRev rev) counts := by
  induction waitIds generalizing rev with
  | nil => simpa using holds
  | cons waitId rest ih =>
    refine ih (decrementRev_holds fun x => ?_)
    rw [holds x]
    dsimp only
    rw [count_cons_ite, add_assoc]

variable {K : Type*}

def Waits (maps : WaitMaps K) : ℕ → ℕ → Prop := Edge maps.neighbors

def inDegree (maps : WaitMaps K) (x : ℕ) : ℕ := (maps.waitTxnMap.entries.map fun e => e.2.neighbors.count x).sum

def Acyclic (maps : WaitMaps K) : Prop := ∀ x, ¬Relation.TransGen (Waits maps) x x

/-- The reverse map holds exactly the in-degrees. -/
def RevExact (maps : WaitMaps K) : Prop := Holds maps.revWaitTxnMap (inDegree maps)

structure SameMaps (maps maps' : WaitMaps K) : Prop where
  wait : ∀ x, maps'.waitTxnMap.lookup x = maps.waitTxnMap.lookup x
  rev : ∀ x, maps'.revWaitTxnMap.lookup x = maps.revWaitTxnMap.lookup x

section

variable {maps : WaitMaps K} {waiter : Waiter K}

section

variable (fresh : waiter.id ∉ maps.waitTxnMap)
include fresh

theorem inDegree_enter (x : ℕ) : inDegree (maps.enter waiter) x = inDegree maps x + waiter.info.neighbors.count x := by
  rw [inDegree, WaitMaps.enter, AList.entries_insert_of_notMem fresh, map_cons, sum_cons, add_comm]
  rfl

theorem enter_revExact (exact : RevExact maps) : RevExact (maps.enter waiter) := by
  intro x
  rw [inDegree_enter fresh]
  exact increments_hold waiter.info.neighbors exact x

theorem enter_decrement (exact : RevExact maps) :
    SameMaps maps ((maps.enter waiter).decrementWaiters waiter.id waiter.info.neighbors) := by
  constructor
  · intro x
    by_cases eq : x = waiter.id
    · subst eq
      exact (AList.lookup_erase _ _).trans (AList.lookup_eq_none.mpr fresh).symm
    · exact (AList.lookup_erase_ne eq).trans (AList.lookup_insert_ne eq)
  · intro x
    rw [exact x]
    exact decrements_hold waiter.info.neighbors (increments_hold waiter.info.neighbors exact) x

theorem waits_enter_iff (a b : ℕ) :
    Waits (maps.enter waiter) a b ↔ a = waiter.id ∧ b ∈ waiter.info.neighbors ∨ Waits maps a b := by
  have none : maps.waitTxnMap.lookup waiter.id = none := AList.lookup_eq_none.mpr fresh
  unfold Waits Edge neighbors WaitMaps.enter
  by_cases eq : a = waiter.id
  · subst eq
    simp [AList.lookup_insert, none]
  · simp [AList.lookup_insert_ne eq, eq]

end

theorem inDegree_pos_of_waits {a b : ℕ} (waits : Waits maps a b) : 0 < inDegree maps b := by
  obtain ⟨list, found, mem⟩ := waits
  obtain ⟨info, entry, rfl⟩ := Option.map_eq_some_iff.mp found
  have entry := AList.mem_lookup_iff.mp entry
  have pos : 0 < info.neighbors.count b := count_pos_iff.mpr mem
  refine pos.trans_le (single_le_sum (fun _ _ => Nat.zero_le _) _ ?_)
  exact mem_map_of_mem (f := fun e : Sigma fun _ : ℕ => TrackedTrxInfo K => e.2.neighbors.count b) entry

theorem transGen_enter (fresh : waiter.id ∉ maps.waitTxnMap) {a b : ℕ}
    (path : Relation.TransGen (Waits (maps.enter waiter)) a b) :
    Relation.TransGen (Waits maps) a b ∨
      Relation.ReflTransGen (Waits (maps.enter waiter)) a waiter.id ∧
        ∃ w ∈ waiter.info.neighbors, Relation.ReflTransGen (Waits (maps.enter waiter)) w b := by
  induction path with
  | single edge =>
    rcases (waits_enter_iff fresh _ _).mp edge with ⟨rfl, mem⟩ | old
    · exact .inr ⟨.refl, _, mem, .refl⟩
    · exact .inl (.single old)
  | tail path edge ih =>
    rcases ih with old | ⟨before, w, mem, after⟩
    · rcases (waits_enter_iff fresh _ _).mp edge with ⟨rfl, mem⟩ | old'
      · exact .inr ⟨path.to_reflTransGen, _, mem, .refl⟩
      · exact .inl (old.tail old')
    · exact .inr ⟨before, w, mem, after.tail edge⟩

theorem acyclic_enter_iff (fresh : waiter.id ∉ maps.waitTxnMap) (acyclic : Acyclic maps) : Acyclic (maps.enter waiter) ↔
      ∀ w ∈ waiter.info.neighbors, ¬Relation.ReflTransGen (Waits (maps.enter waiter)) w waiter.id := by
  constructor
  · intro acyclic' w mem reach
    have edge : Waits (maps.enter waiter) waiter.id w := (waits_enter_iff fresh _ _).mpr (.inl ⟨rfl, mem⟩)
    exact acyclic' _ (.head' edge reach)
  · intro unreachable x cycle
    rcases transGen_enter fresh cycle with old | ⟨before, w, mem, after⟩
    · exact acyclic x old
    · exact unreachable w mem (after.trans before)

end

variable {maps : WaitMaps K} {id : ℕ} {info : TrackedTrxInfo K}

theorem inDegree_erase (waiting : maps.waitTxnMap.lookup id = some info) (waitIds : List ℕ) (x : ℕ) :
    inDegree maps x = inDegree (maps.decrementWaiters id waitIds) x + info.neighbors.count x := by
  have entry := AList.mem_lookup_iff.mp waiting
  obtain ⟨info', before, after, -, split, rest⟩ := exists_of_kerase (mem_keys_of_mem entry)
  have here : (⟨id, info'⟩ : Sigma fun _ : ℕ => TrackedTrxInfo K) ∈ maps.waitTxnMap.entries := by
    rw [split]
    exact mem_append_right _ mem_cons_self
  obtain rfl := maps.waitTxnMap.nodupKeys.eq_of_mk_mem entry here
  change _ = ((maps.waitTxnMap.entries.kerase id).map fun e => e.2.neighbors.count x).sum + _
  rw [inDegree, split, ← split, rest, split]
  simp only [map_append, map_cons, sum_append, sum_cons]
  omega

theorem decrement_revExact (waiting : maps.waitTxnMap.lookup id = some info) (exact : RevExact maps) :
    RevExact (maps.decrementWaiters id info.neighbors) := by
  refine decrements_hold info.neighbors fun x => ?_
  rw [exact x, inDegree_erase waiting info.neighbors]

variable {maps maps' : WaitMaps K}

theorem SameMaps.acyclic (eq : SameMaps maps maps') (acyclic : Acyclic maps) : Acyclic maps' := by
  have edges : ∀ a b, Waits maps' a b → Waits maps a b := by
    rintro a b ⟨list, found, mem⟩
    refine ⟨list, ?_, mem⟩
    rwa [neighbors, eq.wait] at found
  exact fun x cycle => acyclic x (Relation.TransGen.mono edges _ _ cycle)

variable {waiter : Waiter K}

theorem searchFrom_exhausted (ends : (maps.enter waiter).searchFrom waiter = .exhausted) :
    ∀ w ∈ waiter.info.neighbors, ¬Relation.ReflTransGen (Waits (maps.enter waiter)) w waiter.id := by
  refine search_exhausted waiter.detectDepth 0 ⟨Nat.zero_le _, Nat.zero_le _, ?_, ?_⟩ (Nat.zero_add _) ends
  · intro _ i _ _ early
    exact absurd early (Nat.not_lt_zero i)
  · intro _ root mem
    simpa using mem

theorem incrementWaiters_cases (maps : WaitMaps K) (waiter : Waiter K) :
    (maps.incrementWaiters waiter).2.1 = false ∧ (maps.incrementWaiters waiter).1 = maps.enter waiter ∧
        (waiter.id ∉ (maps.enter waiter).revWaitTxnMap ∨ (maps.enter waiter).searchFrom waiter = .exhausted) ∨
      (maps.incrementWaiters waiter).2.1 = true ∧
        (maps.incrementWaiters waiter).1 = (maps.enter waiter).decrementWaiters waiter.id waiter.info.neighbors ∧
        ((∃ path, (maps.enter waiter).searchFrom waiter = .found path) ∨
          (maps.enter waiter).searchFrom waiter = .tooDeep) := by
  rw [incrementWaiters]
  split
  next alone => exact .inl ⟨rfl, rfl, .inl alone⟩
  next =>
    cases ends : (maps.enter waiter).searchFrom waiter with
    | exhausted => exact .inl ⟨rfl, rfl, .inr rfl⟩
    | found path => exact .inr ⟨rfl, rfl, .inl ⟨path, rfl⟩⟩
    | tooDeep => exact .inr ⟨rfl, rfl, .inr rfl⟩

theorem enter_acyclic (fresh : waiter.id ∉ maps.waitTxnMap) (other : waiter.id ∉ waiter.info.neighbors)
    (acyclic : Acyclic maps) (exact : RevExact maps)
    (ends : waiter.id ∉ (maps.enter waiter).revWaitTxnMap ∨ (maps.enter waiter).searchFrom waiter = .exhausted) :
    Acyclic (maps.enter waiter) := by
  rw [acyclic_enter_iff fresh acyclic]
  rcases ends with alone | exhausted
  · intro w mem reach
    -- the last edge to the waiter would be counted
    rcases Relation.ReflTransGen.cases_tail reach with eq | ⟨v, -, edge⟩
    · exact other (eq ▸ mem)
    · have pos := inDegree_pos_of_waits edge
      have known := enter_revExact fresh exact waiter.id
      rw [AList.lookup_eq_none.mpr alone, stored, if_neg (by omega)] at known
      cases known
  · exact searchFrom_exhausted exhausted

def Sound (maps : WaitMaps K) : Prop := Acyclic maps ∧ RevExact maps

theorem Sound.initial : Sound (WaitMaps.initial : WaitMaps K) := by
  constructor
  · intro x cycle
    obtain ⟨y, ⟨list, found, -⟩, -⟩ := Relation.TransGen.head'_iff.mp cycle
    simp [neighbors, WaitMaps.initial] at found
  · intro x
    simp [inDegree, WaitMaps.initial, stored]

theorem Sound.incrementWaiters (sound : Sound maps) (fresh : waiter.id ∉ maps.waitTxnMap)
    (other : waiter.id ∉ waiter.info.neighbors) : Sound (maps.incrementWaiters waiter).1 := by
  obtain ⟨acyclic, exact⟩ := sound
  rcases incrementWaiters_cases maps waiter with ⟨-, result, ends⟩ | ⟨-, result, -⟩
  · rw [result]
    exact ⟨enter_acyclic fresh other acyclic exact ends, enter_revExact fresh exact⟩
  · rw [result]
    have waiting : (maps.enter waiter).waitTxnMap.lookup waiter.id = some waiter.info := AList.lookup_insert _
    exact ⟨(enter_decrement fresh exact).acyclic acyclic, decrement_revExact waiting (enter_revExact fresh exact)⟩

end VcompProof.Lock
