import Mathlib.Data.List.AList
import Vcomp.Foundation.Transition

namespace VcompModel.Lock

structure LockInfo where
  exclusive : Bool
  txnIds : List ℕ
  expirationTime : ℕ
  deriving DecidableEq, Repr

structure LockMap (K : Type*) (numStripes : ℕ) where
  stripes : Fin numStripes → AList fun _ : K => LockInfo
  lockedKeyCnt : ℤ

/-- What a call sees of its surroundings: the time, and whose expired locks may be stolen. -/
structure Surroundings where
  now : ℕ
  tryStealing : ℕ → Bool

structure LockRequest where
  txnId : ℕ
  expirationTime : ℕ
  exclusive : Bool
  deriving DecidableEq, Repr

inductive LockResult where
  | ok
  | timedOut (waitIds : List ℕ)
  | lockLimit
  deriving DecidableEq, Repr

def isLockExpired (env : Surroundings) (txnId : ℕ) (info : LockInfo) : Bool × Option ℕ :=
  if info.expirationTime = 0 then (false, some 0)
  else if env.now < info.expirationTime then (false, some info.expirationTime)
  else if (info.txnIds.filter (· ≠ txnId)).all env.tryStealing then (true, none)
  else (false, some 0)

def dropHolder (txnId : ℕ) (txns : List ℕ) : List ℕ :=
  match txns.getLast? with
  | none => []
  | some last => (txns.set (txns.idxOf txnId) last).dropLast

namespace LockMap

variable {K : Type*} [DecidableEq K] {numStripes : ℕ} (getStripe : K → Fin numStripes) (maxNumLocks : ℤ)

def initial : LockMap K numStripes := ⟨fun _ => ∅, 0⟩

def find (m : LockMap K numStripes) (key : K) : Option LockInfo := (m.stripes (getStripe key)).lookup key

def setStripe (m : LockMap K numStripes) (key : K) (stripe : AList fun _ : K => LockInfo) : LockMap K numStripes :=
  { m with stripes := Function.update m.stripes (getStripe key) stripe }

def store (m : LockMap K numStripes) (key : K) (info : LockInfo) : LockMap K numStripes :=
  m.setStripe getStripe key ((m.stripes (getStripe key)).insert key info)

def acquireLocked (m : LockMap K numStripes) (env : Surroundings) (key : K) (request : LockRequest) :
    LockMap K numStripes × LockResult × Option ℕ :=
  match m.find getStripe key with
  | some info =>
    if info.exclusive || request.exclusive then
      if info.txnIds = [request.txnId] then
        -- the only holder asks again
        (m.store getStripe key { info with exclusive := request.exclusive, expirationTime := request.expirationTime },
          .ok, none)
      else
        match isLockExpired env request.txnId info with
        | (true, expireTime) =>
          (m.store getStripe key ⟨request.exclusive, [request.txnId], request.expirationTime⟩, .ok, expireTime)
        | (false, expireTime) => (m, .timedOut (info.txnIds.filter (· ≠ request.txnId)), expireTime)
    else
      (m.store getStripe key
        { info with
          txnIds := info.txnIds ++ [request.txnId]
          expirationTime := max info.expirationTime request.expirationTime }, .ok, none)
  | none =>
    if 0 < maxNumLocks ∧ maxNumLocks ≤ m.lockedKeyCnt then (m, .lockLimit, none)
    else
      let m' := m.store getStripe key ⟨request.exclusive, [request.txnId], request.expirationTime⟩
      ({ m' with lockedKeyCnt := if 0 < maxNumLocks then m.lockedKeyCnt + 1 else m.lockedKeyCnt }, .ok, none)

def unLockKey (m : LockMap K numStripes) (txnId : ℕ) (key : K) : LockMap K numStripes :=
  match m.find getStripe key with
  | none => m
  | some info =>
    if txnId ∈ info.txnIds then
      let m' :=
        if info.txnIds.length = 1 then m.setStripe getStripe key ((m.stripes (getStripe key)).erase key)
        else m.store getStripe key { info with txnIds := dropHolder txnId info.txnIds }
      { m' with lockedKeyCnt := if 0 < maxNumLocks then m.lockedKeyCnt - 1 else m.lockedKeyCnt }
    else m

inductive Call (K : Type*) where
  | acquireLocked (env : Surroundings) (key : K) (request : LockRequest)
  | unLockKey (txnId : ℕ) (key : K)

def step (m : LockMap K numStripes) : Call K → LockMap K numStripes
  | .acquireLocked env key request => (m.acquireLocked getStripe maxNumLocks env key request).1
  | .unLockKey txnId key => m.unLockKey getStripe maxNumLocks txnId key

def keyCount (m : LockMap K numStripes) : ℕ := ∑ i, (m.stripes i).keys.length

end LockMap

end VcompModel.Lock

namespace VcompProof.Lock

open VcompModel.Lock VcompModel.Lock.LockMap

variable {K : Type*} [DecidableEq K] {numStripes : ℕ} {getStripe : K → Fin numStripes} {maxNumLocks : ℤ}
  {info : LockInfo}

/-- A transaction asks again for a key it holds only to upgrade it. -/
def AsksOnce (getStripe : K → Fin numStripes) (m : LockMap K numStripes) : Call K → Prop
  | .acquireLocked _ key request =>
    ∀ info, m.find getStripe key = some info → request.txnId ∈ info.txnIds → info.exclusive = false ∧ request.exclusive = true
  | .unLockKey _ _ => True

/-- A key is unlocked by its only holder, or by a stranger to it. -/
def LeavesAlone (getStripe : K → Fin numStripes) (m : LockMap K numStripes) : Call K → Prop
  | .acquireLocked _ _ _ => True
  | .unLockKey txnId key => ∀ info, m.find getStripe key = some info → txnId ∈ info.txnIds → info.txnIds.length = 1

def Counted (m : LockMap K numStripes) : Prop := m.lockedKeyCnt = m.keyCount

section

variable {m : LockMap K numStripes} {stripe : AList fun _ : K => LockInfo} {key : K}

omit [DecidableEq K] in
theorem keyCount_setStripe (getStripe : K → Fin numStripes) (m : LockMap K numStripes) (key : K)
    (stripe : AList fun _ : K => LockInfo) :
    (m.setStripe getStripe key stripe).keyCount + (m.stripes (getStripe key)).keys.length = m.keyCount + stripe.keys.length :=
  Transition.sum_update (fun s : AList fun _ : K => LockInfo => s.keys.length) m.stripes (getStripe key) stripe

theorem keys_length_insert_mem (held : key ∈ stripe) (info : LockInfo) :
    (stripe.insert key info).keys.length = stripe.keys.length := by
  rw [AList.keys_insert, List.length_cons, List.length_erase_of_mem held]
  have := List.length_pos_of_mem held
  omega

theorem keys_length_insert_not_mem (free : key ∉ stripe) (info : LockInfo) :
    (stripe.insert key info).keys.length = stripe.keys.length + 1 := by
  rw [AList.keys_insert, List.length_cons, List.erase_of_not_mem free]

theorem keys_length_erase (held : key ∈ stripe) : (stripe.erase key).keys.length + 1 = stripe.keys.length := by
  rw [AList.keys_erase, List.length_erase_of_mem held]
  have := List.length_pos_of_mem held
  omega

theorem find_mem (found : m.find getStripe key = some info) :
    key ∈ m.stripes (getStripe key) := AList.lookup_isSome.mp (Option.isSome_of_eq_some found)

theorem keyCount_store_held {old : LockInfo} (found : m.find getStripe key = some old) (info : LockInfo) :
    (m.store getStripe key info).keyCount = m.keyCount := by
  have sum := keyCount_setStripe getStripe m key ((m.stripes (getStripe key)).insert key info)
  rw [keys_length_insert_mem (find_mem found)] at sum
  exact Nat.add_right_cancel sum

theorem keyCount_store_free (free : m.find getStripe key = none) (info : LockInfo) :
    (m.store getStripe key info).keyCount = m.keyCount + 1 := by
  have sum := keyCount_setStripe getStripe m key ((m.stripes (getStripe key)).insert key info)
  rw [keys_length_insert_not_mem (AList.lookup_eq_none.mp free)] at sum
  unfold store
  omega

theorem keyCount_erase (found : m.find getStripe key = some info) :
    (m.setStripe getStripe key ((m.stripes (getStripe key)).erase key)).keyCount + 1 = m.keyCount := by
  have sum := keyCount_setStripe getStripe m key ((m.stripes (getStripe key)).erase key)
  have fewer := keys_length_erase (find_mem found)
  omega

end

section

variable {m : LockMap K numStripes}

theorem acquireLocked_held (maxNumLocks : ℤ) {key : K} (found : m.find getStripe key = some info) (env : Surroundings)
    (request : LockRequest) :
    (m.acquireLocked getStripe maxNumLocks env key request).1.keyCount = m.keyCount ∧
      (m.acquireLocked getStripe maxNumLocks env key request).1.lockedKeyCnt = m.lockedKeyCnt := by
  rw [acquireLocked, found]
  dsimp only
  split
  · split
    · exact ⟨keyCount_store_held found _, rfl⟩
    · split
      · exact ⟨keyCount_store_held found _, rfl⟩
      · exact ⟨rfl, rfl⟩
  · exact ⟨keyCount_store_held found _, rfl⟩

variable (limited : 0 < maxNumLocks)
include limited

theorem acquireLocked_free {key : K} (free : m.find getStripe key = none) (env : Surroundings) (request : LockRequest) :
    maxNumLocks ≤ m.lockedKeyCnt ∧ m.acquireLocked getStripe maxNumLocks env key request = (m, .lockLimit, none) ∨
      m.lockedKeyCnt < maxNumLocks ∧ (m.acquireLocked getStripe maxNumLocks env key request).2.1 = .ok ∧
        (m.acquireLocked getStripe maxNumLocks env key request).1.keyCount = m.keyCount + 1 ∧
        (m.acquireLocked getStripe maxNumLocks env key request).1.lockedKeyCnt = m.lockedKeyCnt + 1 := by
  rw [acquireLocked, free]
  dsimp only
  split
  next full => exact .inl ⟨full.2, rfl⟩
  next room =>
    exact .inr ⟨by omega, rfl, keyCount_store_free free _, rfl⟩

theorem acquireLocked_counted (counted : Counted m) (env : Surroundings) (key : K) (request : LockRequest) :
    Counted (m.acquireLocked getStripe maxNumLocks env key request).1 := by
  unfold Counted at counted ⊢
  cases found : m.find getStripe key with
  | some info =>
    obtain ⟨keys, count⟩ := acquireLocked_held maxNumLocks found env request
    rw [keys, count, counted]
  | none =>
    rcases acquireLocked_free limited found env request with ⟨-, full⟩ | ⟨-, -, keys, count⟩
    · rw [full]
      exact counted
    · rw [keys, count, counted]
      rfl

theorem unLockKey_counted_iff (counted : Counted m) (txnId : ℕ) (key : K) :
    Counted (m.unLockKey getStripe maxNumLocks txnId key) ↔ LeavesAlone getStripe m (.unLockKey txnId key) := by
  unfold Counted LeavesAlone at *
  rw [unLockKey]
  cases found : m.find getStripe key with
  | none =>
    refine iff_of_true counted fun info held => ?_
    rw [found] at held
    cases held
  | some info =>
    dsimp only
    split
    next holds =>
      split
      next sole =>
        have keys := keyCount_erase found
        refine iff_of_true ?_ fun other held _ => Option.some.inj (found.symm.trans held) ▸ sole
        change m.lockedKeyCnt - 1 = ((m.setStripe getStripe key ((m.stripes (getStripe key)).erase key)).keyCount : ℤ)
        omega
      next shared =>
        have keys := keyCount_store_held found { info with txnIds := dropHolder txnId info.txnIds }
        refine iff_of_false ?_ fun alone => shared (alone info found holds)
        change ¬m.lockedKeyCnt - 1 =
            ((m.store getStripe key { info with txnIds := dropHolder txnId info.txnIds }).keyCount : ℤ)
        omega
    next absent =>
      refine iff_of_true counted fun other held holds => ?_
      exact absurd (Option.some.inj (found.symm.trans held) ▸ holds) absent

theorem step_counted_iff (counted : Counted m) (call : Call K) :
    Counted (m.step getStripe maxNumLocks call) ↔ LeavesAlone getStripe m call := by
  cases call with
  | acquireLocked env key request => exact iff_of_true (acquireLocked_counted limited counted env key request) trivial
  | unLockKey txnId key => exact unLockKey_counted_iff limited counted txnId key

end

section

abbrev Reached (getStripe : K → Fin numStripes) (maxNumLocks : ℤ) (allowed : LockMap K numStripes → Call K → Prop) :
    LockMap K numStripes → Prop :=
  Transition.Reachable (· = LockMap.initial) (fun m call m' => m.step getStripe maxNumLocks call = m') allowed

omit [DecidableEq K] in
theorem keyCount_initial : (LockMap.initial : LockMap K numStripes).keyCount = 0 := by
  simp [keyCount, LockMap.initial]

theorem step_keyCount_le (limited : 0 < maxNumLocks) {m : LockMap K numStripes} (counted : Counted m)
    (within : (m.keyCount : ℤ) ≤ maxNumLocks)
    (call : Call K) : ((m.step getStripe maxNumLocks call).keyCount : ℤ) ≤ maxNumLocks := by
  unfold Counted at counted
  cases call with
  | acquireLocked env key request =>
    cases found : m.find getStripe key with
    | some info => exact (acquireLocked_held maxNumLocks found env request).1 ▸ within
    | none =>
      rcases acquireLocked_free limited found env request with ⟨-, full⟩ | ⟨room, -, keys, -⟩
      · rw [step, full]
        exact within
      · rw [step, keys]
        omega
  | unLockKey txnId key =>
    rw [step, unLockKey]
    cases found : m.find getStripe key with
    | none => exact within
    | some info =>
      dsimp only
      split
      · split
        · have keys := keyCount_erase found
          change ((m.setStripe getStripe key ((m.stripes (getStripe key)).erase key)).keyCount : ℤ) ≤ maxNumLocks
          omega
        · exact (keyCount_store_held found { info with txnIds := dropHolder txnId info.txnIds }) ▸ within
      · exact within

def Kept (maxNumLocks : ℤ) (m : LockMap K numStripes) : Prop := Counted m ∧ (m.keyCount : ℤ) ≤ maxNumLocks

theorem reached_kept (limited : 0 < maxNumLocks) {m : LockMap K numStripes}
    (reach : Reached getStripe maxNumLocks (fun m call => AsksOnce getStripe m call ∧ LeavesAlone getStripe m call) m) :
    Kept maxNumLocks m := by
  refine reach.invariant ?_ ?_
  · rintro _ rfl
    rw [Kept, Counted, keyCount_initial]
    exact ⟨rfl, limited.le⟩
  · rintro m call _ - ⟨counted, within⟩ ⟨-, alone⟩ rfl
    exact ⟨(step_counted_iff limited counted call).mpr alone, step_keyCount_le limited counted within call⟩

/-- A call keeps the count exactly if it takes no holder from a shared lock. In histories of such calls the counter is
the number of keys and the limit exact. -/
theorem lockedKeyCnt_eq_keyCount (getStripe : K → Fin numStripes) (limited : 0 < maxNumLocks) :
    (∀ (m : LockMap K numStripes) call, Counted m → AsksOnce getStripe m call →
      (Counted (m.step getStripe maxNumLocks call) ↔ LeavesAlone getStripe m call)) ∧
      ∀ m : LockMap K numStripes,
        Reached getStripe maxNumLocks (fun m call => AsksOnce getStripe m call ∧ LeavesAlone getStripe m call) m →
          m.lockedKeyCnt = m.keyCount ∧ (m.keyCount : ℤ) ≤ maxNumLocks ∧
            (∀ env key request, m.find getStripe key = none →
              ((m.acquireLocked getStripe maxNumLocks env key request).2.1 = .lockLimit ↔ (m.keyCount : ℤ) = maxNumLocks)) ∧
            (m.keyCount = 0 → m.lockedKeyCnt = 0) := by
  refine ⟨fun m call counted _ => step_counted_iff limited counted call, fun m reach => ?_⟩
  obtain ⟨counted, within⟩ := reached_kept limited reach
  unfold Counted at counted
  refine ⟨counted, within, fun env key request free => ?_, fun empty => by rw [counted, empty]; rfl⟩
  rcases acquireLocked_free limited free env request with ⟨full, result⟩ | ⟨room, granted, -⟩
  · rw [result]
    exact iff_of_true rfl (by omega)
  · rw [granted]
    exact iff_of_false (by simp) (by omega)

instance (m : LockMap K numStripes) (call : Call K) : Decidable (AsksOnce getStripe m call) :=
  match call with
  | .acquireLocked _ key request => inferInstanceAs (Decidable (∀ info ∈ m.find getStripe key,
      request.txnId ∈ info.txnIds → info.exclusive = false ∧ request.exclusive = true))
  | .unLockKey _ _ => inferInstanceAs (Decidable True)

instance (m : LockMap K numStripes) (call : Call K) : Decidable (LeavesAlone getStripe m call) :=
  match call with
  | .acquireLocked _ _ _ => inferInstanceAs (Decidable True)
  | .unLockKey txnId key =>
    inferInstanceAs (Decidable (∀ info ∈ m.find getStripe key, txnId ∈ info.txnIds → info.txnIds.length = 1))

theorem lockedKeyCnt_eq_keyCount_upgraded : ∃ m : LockMap ℕ 1,
    Reached (fun _ => 0) 1 (fun m call => AsksOnce (fun _ => 0) m call ∧ LeavesAlone (fun _ => 0) m call) m ∧
      m.keyCount = 0 ∧ m.lockedKeyCnt = 0 := by
  let env : Surroundings := ⟨0, fun _ => false⟩
  have start : Reached (fun _ => 0) 1 (fun m call => AsksOnce (fun _ => 0) m call ∧ LeavesAlone (fun _ => 0) m call)
    (LockMap.initial : LockMap ℕ 1) := .start rfl
  have shared := start.next (e := .acquireLocked env 0 ⟨1, 0, false⟩) (by decide) rfl
  have upgraded := shared.next (e := .acquireLocked env 0 ⟨1, 0, true⟩) (by decide) rfl
  have released := upgraded.next (e := .unLockKey 1 0) (by decide) rfl
  exact ⟨_, released, by decide, ((lockedKeyCnt_eq_keyCount (fun _ => 0) Int.one_pos).2 _ released).2.2.2 (by decide)⟩

/-- One of two holders gives a shared lock back: the key is not counted, and a third locks a second key under a limit of
one. -/
theorem lockedKeyCnt_shared_unlock : ∃ m : LockMap ℕ 1,
    Reached (fun _ => 0) 1 (AsksOnce fun _ => 0) m ∧ m.keyCount = 2 ∧ m.lockedKeyCnt = 1 := by
  let env : Surroundings := ⟨0, fun _ => false⟩
  have start : Reached (fun _ => 0) 1 (AsksOnce fun _ => 0) (LockMap.initial : LockMap ℕ 1) := .start rfl
  have first := start.next (e := .acquireLocked env 0 ⟨1, 0, false⟩) (by decide) rfl
  have second := first.next (e := .acquireLocked env 0 ⟨2, 0, false⟩) (by decide) rfl
  have left := second.next (e := .unLockKey 1 0) (by decide) rfl
  have third := left.next (e := .acquireLocked env 1 ⟨3, 0, true⟩) (by decide) rfl
  exact ⟨_, third, by decide, by decide⟩

variable {m : LockMap K numStripes}

/-- What `AcquireLocked` asserts of a lock it finds, and that somebody holds it. -/
def Held (info : LockInfo) : Prop := info.txnIds.length = 1 ∨ info.exclusive = false ∧ 0 < info.txnIds.length

def AllHeld (m : LockMap K numStripes) : Prop := ∀ i, ∀ entry ∈ (m.stripes i).entries, Held entry.2

theorem length_dropHolder (txnId : ℕ) (txns : List ℕ) : (dropHolder txnId txns).length = txns.length - 1 := by
  unfold dropHolder
  split <;> simp_all

theorem AllHeld.find (all : AllHeld m) {key : K} (found : m.find getStripe key = some info) : Held info :=
  all _ _ (AList.mem_lookup_iff.mp found)

omit [DecidableEq K] in
theorem AllHeld.setStripe (all : AllHeld m) (key : K) {stripe : AList fun _ : K => LockInfo}
    (held : ∀ entry ∈ stripe.entries, Held entry.2) : AllHeld (m.setStripe getStripe key stripe) :=
  (Function.forall_update_iff m.stripes fun _ stripe => ∀ entry ∈ stripe.entries, Held entry.2).mpr ⟨held, fun i _ => all i⟩

theorem AllHeld.erase (all : AllHeld m) (key : K) : ∀ entry ∈ ((m.stripes (getStripe key)).erase key).entries, Held entry.2 :=
  fun entry kept => all _ entry ((List.kerase_sublist _ _).mem kept)

theorem AllHeld.store (all : AllHeld m) (key : K) (held : Held info) : AllHeld (m.store getStripe key info) :=
  all.setStripe key (List.forall_mem_cons.mpr ⟨held, all.erase key⟩)

theorem AllHeld.step (all : AllHeld m) (call : Call K) : AllHeld (m.step getStripe maxNumLocks call) := by
  cases call with
  | acquireLocked env key request =>
    unfold LockMap.step acquireLocked
    dsimp only
    split
    next =>
      split
      · split
        next sole => exact all.store key (.inl (congrArg List.length sole))
        next =>
          split
          · exact all.store key (.inl rfl)
          · exact all
      · exact all.store key (.inr ⟨by simp_all, by simp⟩)
    next =>
      split
      · exact all
      · exact all.store key (.inl rfl)
  | unLockKey txnId key =>
    unfold LockMap.step unLockKey
    dsimp only
    split
    next => exact all
    next info found =>
      split
      · split
        · exact all.setStripe key (all.erase key)
        next several =>
          have left := length_dropHolder txnId info.txnIds
          rcases all.find found with sole | ⟨shared, holders⟩
          · exact absurd sole several
          · exact all.store key (.inr ⟨shared, by dsimp only; omega⟩)
      · exact all

/-- Whatever is asked for and given back, an exclusive lock has one holder and no lock is without. -/
theorem reached_locks_held (reach : Reached getStripe maxNumLocks (fun _ _ => True) m) (key : K)
    (found : m.find getStripe key = some info) : Held info := by
  have all : AllHeld m := by
    refine reach.invariant ?_ ?_
    · rintro _ rfl i
      exact List.forall_mem_nil _
    · rintro m call _ - all - rfl
      exact all.step call
  exact all.find found

/-- Two readers of a key, of which one leaves, and a writer of another. -/
theorem reached_locks_held_shared : ∃ m : LockMap ℕ 2, Reached (fun key => if key = 7 then 0 else 1) 0 (fun _ _ => True) m ∧
    m.find (fun key => if key = 7 then 0 else 1) 7 = some ⟨false, [2], 0⟩ ∧ Held ⟨false, [2], 0⟩ ∧ Held ⟨true, [3], 0⟩ := by
  have start : Reached (fun key => if key = 7 then 0 else 1) 0 (fun _ _ => True) (LockMap.initial : LockMap ℕ 2) := .start rfl
  have run := start
    |>.next (e := .acquireLocked ⟨0, fun _ => false⟩ 7 ⟨1, 0, false⟩) trivial rfl
    |>.next (e := .acquireLocked ⟨0, fun _ => false⟩ 7 ⟨2, 0, false⟩) trivial rfl
    |>.next (e := .acquireLocked ⟨0, fun _ => false⟩ 4 ⟨3, 0, true⟩) trivial rfl
    |>.next (e := .unLockKey 1 7) trivial rfl
  exact ⟨_, run, rfl, reached_locks_held run 7 rfl, reached_locks_held run 4 rfl⟩

end

end VcompProof.Lock
