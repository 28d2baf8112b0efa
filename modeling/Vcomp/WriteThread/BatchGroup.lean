import Mathlib.Data.Nat.Notation
import Mathlib.Logic.Function.Basic

namespace VcompModel.WriteThread

inductive IOPriority where
  | low
  | mid
  | high
  | user
  | total
deriving DecidableEq

/-- `batch` is the byte size of the batch, `callback` what `AllowWriteBatching` answers. -/
structure Writer where
  batch : Option ℕ
  sync : Bool
  noSlowdown : Bool
  disableWal : Bool
  rateLimiterPriority : IOPriority
  protectionBytesPerKey : ℕ
  callback : Option Bool
  ingestWbwi : Bool

def Writer.byteSize (w : Writer) : ℕ := w.batch.getD 0

def incompatible (leader w : Writer) (size maxSize : ℕ) : Bool :=
  (w.sync && !leader.sync) ||
  (w.noSlowdown != leader.noSlowdown) ||
  (w.disableWal != leader.disableWal) ||
  (w.protectionBytesPerKey != leader.protectionBytesPerKey) ||
  (w.rateLimiterPriority != leader.rateLimiterPriority) ||
  w.batch.isNone ||
  (w.callback == some false) ||
  decide (size + w.byteSize > maxSize) ||
  (leader.ingestWbwi || w.ingestWbwi)

/-- A small write lets its group grow by at most an eighth of the bound. -/
def maxSize (maxWriteBatchGroupSizeBytes size : ℕ) : ℕ :=
  let minBatchSizeBytes := maxWriteBatchGroupSizeBytes / 8
  if size ≤ minBatchSizeBytes then size + minBatchSizeBytes else maxWriteBatchGroupSizeBytes

variable {ι : Type*} [DecidableEq ι]

structure Links (ι : Type*) where
  newestWriter : Option ι
  older : ι → Option ι
  newer : ι → Option ι

namespace Links

def setOlder (k : Links ι) (w : ι) (v : Option ι) : Links ι := { k with older := Function.update k.older w v }

def setNewer (k : Links ι) (w : ι) (v : Option ι) : Links ι := { k with newer := Function.update k.newer w v }

/-- A round of `CreateMissingNewerLinks`: where its link goes, `none` where it breaks. -/
def missingNewer (k : Links ι) (head : ι) : Option ι :=
  match k.older head with
  | none => none
  | some next => if (k.newer next).isSome then none else some next

abbrev Ends (ι : Type*) := Option (ι × ι)

def remove (k : Links ι) (w link : ι) : Links ι :=
  let k := k.setNewer link (k.newer w)
  match k.newer w with
  | none => k
  | some above => k.setOlder above (some link)

def pushRemoved (k : Links ι) (w : ι) : Ends ι → Links ι × Ends ι
  | none => (k.setOlder w none, some (w, w))
  | some (rb, re) => ((k.setOlder w (some re)).setNewer re (some w), some (rb, w))

def graft (k : Links ι) (we rb re : ι) : Links ι :=
  ((k.setOlder rb (some we)).setNewer re none).setNewer we (some rb)

end Links

/-- `members` are the writers whose `write_group` points at it, as taken in. -/
structure WriteGroup (ι : Type*) where
  lastWriter : ι
  members : List ι
deriving DecidableEq

namespace WriteGroup

def alone (leader : ι) : WriteGroup ι := ⟨leader, [leader]⟩

def grow (group : WriteGroup ι) (w : ι) : WriteGroup ι := ⟨w, group.members ++ [w]⟩

end WriteGroup

/-- Only the leader writes links, and a writer not linked yet its own, so a step ends at accesses to `newest_writer_` or
a writer's state, and at each round of a loop. -/
inductive Pc (ι : Type*) where
  | outside
  | linking (writers : Option ι)
  | waiting
  | leading
  | linkNewer (newest head : ι)
  /-- Its while-loop, with `we` the last writer of the group. -/
  | scan (newest w : ι) (group : WriteGroup ι) (rList : Links.Ends ι) (size : ℕ)
  | swap (newest re : ι) (group : WriteGroup ι)
  | walk (newest re w : ι) (group : WriteGroup ι)
  | writing (group : WriteGroup ι)
  | release (group : WriteGroup ι)
  | relink (group : WriteGroup ι) (head : ι)
  | handOver (group : WriteGroup ι)
  | completing (group : WriteGroup ι) (lastWriter : ι)
  | completed
  /-- A null link was followed. -/
  | crashed
deriving DecidableEq

/-- With the writers as they linked themselves and the groups formed. -/
structure State (ι : Type*) where
  links : Links ι
  pc : ι → Pc ι
  arrived : List ι
  groups : List (List ι)

namespace State

def goto (s : State ι) (w : ι) (pc : Pc ι) : State ι := { s with pc := Function.update s.pc w pc }

def enter (s : State ι) (me : ι) (group : WriteGroup ι) : State ι :=
  { s.goto me (.writing group) with groups := s.groups ++ [group.members] }

def linkOne (s : State ι) (w : ι) (writers : Option ι) (spurious : Bool) : State ι :=
  let s := { s with links := s.links.setOlder w writers }
  if s.links.newestWriter = writers ∧ spurious = false then
    { s.goto w (if writers = none then .leading else .waiting) with
      links := { s.links with newestWriter := some w }
      arrived := s.arrived ++ [w] }
  else s.goto w (.linking s.links.newestWriter)

/-- The body of the while-loop of `EnterAsBatchGroupLeader` for the next writer `w`. -/
def scanNext (writers : ι → Writer) (maxBytes : ℕ) (s : State ι) (me newest w : ι) (group : WriteGroup ι)
    (rList : Links.Ends ι) (size : ℕ) : State ι :=
  if incompatible (writers me) (writers w) size (maxSize maxBytes (writers me).byteSize) then
    match s.links.older w with
    | none => s.goto me .crashed
    | some link =>
      let removed := (s.links.remove w link).pushRemoved w rList
      { s.goto me (.scan newest w group removed.2 size) with links := removed.1 }
  else s.goto me (.scan newest w (group.grow w) rList (size + (writers w).byteSize))

/-- The leader's next step; `spurious` lets `compare_exchange_weak` fail on an expected value. -/
def leaderStep (writers : ι → Writer) (maxBytes : ℕ) (s : State ι) (me : ι) (spurious : Bool) : Option (State ι) :=
  match s.pc me with
  | .leading =>
    match (writers me).batch with
    -- `EnterUnbatched` and `ExitUnbatched`
    | none => some { s.goto me (.release (.alone me)) with groups := s.groups ++ [[me]] }
    | some _ =>
      match s.links.newestWriter with
      | none => some (s.goto me .crashed)
      | some newest => some (s.goto me (.linkNewer newest newest))
  | .linkNewer newest head =>
    match s.links.missingNewer head with
    | some next => some { s.goto me (.linkNewer newest next) with links := s.links.setNewer next (some head) }
    | none => some (s.goto me (.scan newest me (.alone me) none (writers me).byteSize))
  | .scan newest w group rList size =>
    if w = newest then
      match rList with
      | none => some (s.enter me group)
      | some (rb, re) =>
        some { s.goto me (.swap newest re group) with links := s.links.graft group.lastWriter rb re }
    else
      match s.links.newer w with
      | none => some (s.goto me .crashed)
      | some next => some (s.scanNext writers maxBytes me newest next group rList size)
  | .swap newest re group =>
    if s.links.newestWriter = some newest ∧ spurious = false then
      some { s.enter me group with links := { s.links with newestWriter := some re } }
    else
      match s.links.newestWriter with
      | none => some (s.goto me .crashed)
      | some w => some (s.goto me (.walk newest re w group))
  | .walk newest re w group =>
    if s.links.older w = some newest then some { s.enter me group with links := s.links.setOlder w (some re) }
    else
      match s.links.older w with
      | none => some (s.goto me .crashed)
      | some next => some (s.goto me (.walk newest re next group))
  | .writing group =>
    match s.links.newestWriter with
    | none => some (s.goto me .crashed)
    | some head => some (s.goto me (if head = group.lastWriter then .release group else .relink group head))
  | .release group =>
    match s.links.newestWriter with
    | none => some (s.goto me .crashed)
    | some head =>
      if head = group.lastWriter then
        some { s.goto me (.completing group group.lastWriter) with links := { s.links with newestWriter := none } }
      else some (s.goto me (.relink group head))
  | .relink group head =>
    match s.links.missingNewer head with
    | some next => some { s.goto me (.relink group next) with links := s.links.setNewer next (some head) }
    | none => some (s.goto me (.handOver group))
  | .handOver group =>
    match s.links.newer group.lastWriter with
    | none => some (s.goto me .crashed)
    | some next =>
      some { (s.goto next .leading).goto me (.completing group group.lastWriter) with
        links := s.links.setOlder next none }
  | .completing group lastWriter =>
    if lastWriter = me then some (s.goto me .completed)
    else
      match s.links.older lastWriter with
      | none => some ((s.goto lastWriter .completed).goto me .crashed)
      | some next => some ((s.goto lastWriter .completed).goto me (.completing group next))
  | .outside | .linking _ | .waiting | .completed | .crashed => none

end State

inductive Event (ι : Type*) where
  | load (w : ι)
  | link (w : ι) (spurious : Bool)
  | lead (w : ι) (spurious : Bool)

def State.step (writers : ι → Writer) (maxBytes : ℕ) (s : State ι) : Event ι → Option (State ι)
  | .load w =>
    match s.pc w with
    | .outside => some (s.goto w (.linking s.links.newestWriter))
    | _ => none
  | .link w spurious =>
    match s.pc w with
    | .linking expected => some (s.linkOne w expected spurious)
    | _ => none
  | .lead w spurious => s.leaderStep writers maxBytes w spurious

structure Initial (s : State ι) : Prop where
  pc : ∀ w, s.pc w = .outside
  newestWriter : s.links.newestWriter = none
  older : ∀ w, s.links.older w = none
  newer : ∀ w, s.links.newer w = none
  arrived : s.arrived = []
  groups : s.groups = []

end VcompModel.WriteThread
