import Vcomp.Foundation.SortedChain

namespace VcompModel.SkipList

open SortedChain (Place)

/-- What `AllocateNode` and the caller leave in a node: its key, and the height it stashed. -/
structure Nodes (ν K : Type*) where
  key : ν → K
  height : ν → ℕ
  height_pos : ∀ n, 0 < height n

/-- A `Splice`. Of its arrays only the entries up to `height` mean anything. -/
structure Splice (ν : Type*) where
  height : ℕ
  prev : ℕ → Place ν
  next : ℕ → Option ν

namespace Splice

variable {ν : Type*}

def unused : Splice ν := ⟨0, fun _ => .head, fun _ => none⟩

def set (sp : Splice ν) (level : ℕ) (prev : Place ν) (next : Option ν) : Splice ν :=
  { sp with prev := Function.update sp.prev level prev, next := Function.update sp.next level next }

end Splice

/-- Where an insert stands between two accesses to the list. -/
inductive InsertPc (ν : Type*) where
  | readMax
  | raiseMax (maxHeight : ℕ)
  /-- The loop that looks for a level of the splice around the key. -/
  | check (maxHeight recomputeHeight : ℕ)
  /-- Its loops over levels with the same node. -/
  | skipPrev (maxHeight recomputeHeight : ℕ) (bad : Place ν)
  | skipNext (maxHeight recomputeHeight : ℕ) (bad : Option ν)
  | find (level : ℕ) (before : Place ν) (after : Option ν)
  | place (i : ℕ)
  | cas (i : ℕ)
  | retry (i : ℕ) (before : Place ν)
deriving DecidableEq

/-- With a hint it is from `InsertWithHintConcurrently`, with `allow_partial_splice_fix`. -/
structure InsertCall (ν η : Type*) where
  node : ν
  hint : Option η
  splice : Splice ν
  spliceIsValid : Bool
  pc : InsertPc ν

section

variable {ν η K : Type*} [DecidableEq ν] [LinearOrder K] (a : Nodes ν K)

def keyIsAfterNode (k : K) : Option ν → Bool
  | none => false
  | some n => decide (a.key n < k)

def notAfterPrev (k : K) : Place ν → Bool
  | .head => false
  | .node n => !decide (a.key n < k)

namespace InsertCall

variable (c : InsertCall ν η)

def recompute (recomputeHeight : ℕ) : InsertCall ν η :=
  match recomputeHeight with
  | 0 => { c with pc := .place 0 }
  | level + 1 => { c with pc := .find level (c.splice.prev (level + 1)) (c.splice.next (level + 1)) }

def checkFrom (maxHeight recomputeHeight : ℕ) : InsertCall ν η :=
  if recomputeHeight < maxHeight then { c with pc := .check maxHeight recomputeHeight } else c.recompute recomputeHeight

/-- The splice is set up anew unless it has the height of the list. -/
def prepare (maxHeight : ℕ) : InsertCall ν η :=
  if c.splice.height < maxHeight then
    { c with splice := { c.splice.set maxHeight .head none with height := maxHeight } }.recompute maxHeight
  else c.checkFrom maxHeight 0

def raise (maxHeight : ℕ) : InsertCall ν η :=
  if maxHeight < a.height c.node then { c with pc := .raiseMax maxHeight } else c.prepare maxHeight

def check (maxHeight recomputeHeight : ℕ) (read : Option ν) : InsertCall ν η :=
  if read ≠ c.splice.next recomputeHeight then c.checkFrom maxHeight (recomputeHeight + 1)
  else if notAfterPrev a (a.key c.node) (c.splice.prev recomputeHeight) then
    if c.hint.isSome then { c with pc := .skipPrev maxHeight recomputeHeight (c.splice.prev recomputeHeight) }
    else c.checkFrom maxHeight maxHeight
  else if keyIsAfterNode a (a.key c.node) (c.splice.next recomputeHeight) then
    if c.hint.isSome then { c with pc := .skipNext maxHeight recomputeHeight (c.splice.next recomputeHeight) }
    else c.checkFrom maxHeight maxHeight
  else c.recompute recomputeHeight

def find (level : ℕ) (before : Place ν) (after read : Option ν) : InsertCall ν η :=
  match read with
  | some n =>
    if some n = after ∨ keyIsAfterNode a (a.key c.node) (some n) = false then
      { c with splice := c.splice.set level before (some n) }.recompute level
    else { c with pc := .find level (.node n) after }
  | none => { c with splice := c.splice.set level before none }.recompute level

def retry (i : ℕ) (before : Place ν) (read : Option ν) : InsertCall ν η :=
  match read with
  | some n =>
    if keyIsAfterNode a (a.key c.node) (some n) = false then
      { c with splice := c.splice.set i before (some n), spliceIsValid := c.spliceIsValid && i == 0, pc := .place i }
    else { c with pc := .retry i (.node n) }
  | none => { c with splice := c.splice.set i before none, spliceIsValid := c.spliceIsValid && i == 0, pc := .place i }

def duplicate : Bool :=
  (match c.splice.next 0 with
    | none => false
    | some n => decide (a.key n ≤ a.key c.node)) ||
  (match c.splice.prev 0 with
    | .head => false
    | .node n => decide (a.key c.node ≤ a.key n))

def finalSplice : Splice ν :=
  if c.spliceIsValid then
    { c.splice with prev := fun i => if i < a.height c.node then .node c.node else c.splice.prev i }
  else { c.splice with height := 0 }

end InsertCall

end

/-- `known` are the nodes whose insert had returned true when the search started. -/
inductive Thread (ν η K : Type*) where
  | idle
  | insert (call : InsertCall ν η)
  | seek (target : K) (known : List ν)
  | search (target : K) (known : List ν) (x : Place ν) (level : ℕ) (lastBigger : Option ν)
  | found (target : K) (known : List ν) (node : Option ν)

section

variable {ν η K : Type*} [DecidableEq ν] [LinearOrder K] (a : Nodes ν K)

/-- `FindGreaterOrEqual` found a link past its target: it goes down a level, or ends. -/
def switchLevel (target : K) (known : List ν) (x : Place ν) (read : Option ν) : ℕ → Thread ν η K
  | 0 => .found target known read
  | lower + 1 => .search target known x lower read

def searchNext (target : K) (known : List ν) (x : Place ν) (level : ℕ) (lastBigger : Option ν) : Option ν → Thread ν η K
  | none => switchLevel target known x none level
  | some n =>
    if some n = lastBigger ∨ target < a.key n then switchLevel target known x (some n) level
    else if a.key n < target then .search target known (.node n) level lastBigger
    else .found target known (some n)

end

/-- The list, the hints, and the nodes whose insert was called, returned true and returned false. -/
structure State (τ ν η K : Type*) where
  next : ℕ → Place ν → Option ν
  maxHeight : ℕ
  hints : τ → η → Splice ν
  threads : τ → Thread ν η K
  called : List ν
  inserted : List ν
  refused : List ν

namespace State

variable {τ ν η K : Type*} [DecidableEq τ] [DecidableEq ν] [DecidableEq η] [LinearOrder K]

def setNext (s : State τ ν η K) (level : ℕ) (p : Place ν) (v : Option ν) : State τ ν η K :=
  { s with next := Function.update s.next level (Function.update (s.next level) p v) }

def goto (s : State τ ν η K) (t : τ) (thread : Thread ν η K) : State τ ν η K :=
  { s with threads := Function.update s.threads t thread }

def leave (s : State τ ν η K) (t : τ) (hint : Option η) (splice : Splice ν) : State τ ν η K :=
  match hint with
  | none => s.goto t .idle
  | some h => { s.goto t .idle with hints := Function.update s.hints t (Function.update (s.hints t) h splice) }

variable (a : Nodes ν K)

def insertStep (s : State τ ν η K) (t : τ) (c : InsertCall ν η) (spurious : Bool) : State τ ν η K :=
  match c.pc with
  | .readMax => s.goto t (.insert (c.raise a s.maxHeight))
  | .raiseMax maxHeight =>
    if s.maxHeight = maxHeight ∧ spurious = false then
      { s.goto t (.insert (c.prepare (a.height c.node))) with maxHeight := a.height c.node }
    else s.goto t (.insert (c.raise a s.maxHeight))
  | .check maxHeight recomputeHeight =>
    s.goto t (.insert (c.check a maxHeight recomputeHeight (s.next recomputeHeight (c.splice.prev recomputeHeight))))
  | .skipPrev maxHeight recomputeHeight bad =>
    s.goto t (.insert (if c.splice.prev recomputeHeight = bad then
      { c with pc := .skipPrev maxHeight (recomputeHeight + 1) bad } else c.checkFrom maxHeight recomputeHeight))
  | .skipNext maxHeight recomputeHeight bad =>
    s.goto t (.insert (if c.splice.next recomputeHeight = bad then
      { c with pc := .skipNext maxHeight (recomputeHeight + 1) bad } else c.checkFrom maxHeight recomputeHeight))
  | .find level before after => s.goto t (.insert (c.find a level before after (s.next level before)))
  | .place i =>
    if i = 0 ∧ c.duplicate a then { s.leave t c.hint c.splice with refused := s.refused ++ [c.node] }
    else (s.setNext i (.node c.node) (c.splice.next i)).goto t (.insert { c with pc := .cas i })
  | .cas i =>
    if s.next i (c.splice.prev i) = c.splice.next i then
      let s := s.setNext i (c.splice.prev i) (some c.node)
      if i + 1 < a.height c.node then s.goto t (.insert { c with pc := .place (i + 1) })
      else { s.leave t c.hint (c.finalSplice a) with inserted := s.inserted ++ [c.node] }
    else s.goto t (.insert { c with pc := .retry i (c.splice.prev i) })
  | .retry i before => s.goto t (.insert (c.retry a i before (s.next i before)))

def isFree (s : State τ ν η K) (t : τ) : Bool :=
  match s.threads t with
  | .idle | .found _ _ _ => true
  | _ => false

def startInsert (s : State τ ν η K) (t : τ) (n : ν) (hint : Option η) (splice : Splice ν) : Option (State τ ν η K) :=
  if s.isFree t ∧ n ∉ s.called then
    some { s.goto t (.insert ⟨n, hint, splice, true, .readMax⟩) with called := s.called ++ [n] }
  else none

end State

inductive Event (τ ν η K : Type*) where
  | insertConcurrently (t : τ) (n : ν)
  | insertWithHintConcurrently (t : τ) (n : ν) (hint : η)
  | findGreaterOrEqual (t : τ) (target : K)
  | step (t : τ) (spurious : Bool)

variable {τ ν η K : Type*} [DecidableEq τ] [DecidableEq ν] [DecidableEq η] [LinearOrder K]

def State.step (a : Nodes ν K) (s : State τ ν η K) : Event τ ν η K → Option (State τ ν η K)
  | .insertConcurrently t n => s.startInsert t n none .unused
  | .insertWithHintConcurrently t n hint => s.startInsert t n (some hint) (s.hints t hint)
  | .findGreaterOrEqual t target => if s.isFree t then some (s.goto t (.seek target s.inserted)) else none
  | .step t spurious =>
    match s.threads t with
    | .insert c => some (s.insertStep a t c spurious)
    | .seek target known => some (s.goto t (.search target known .head (s.maxHeight - 1) none))
    | .search target known x level lastBigger =>
      some (s.goto t (searchNext a target known x level lastBigger (s.next level x)))
    | .idle | .found _ _ _ => none

/-- An empty list, as constructed, and hints that were never used. -/
structure Initial (s : State τ ν η K) : Prop where
  next : ∀ i, s.next i .head = none
  maxHeight : s.maxHeight = 1
  hints : ∀ t h, (s.hints t h).height = 0
  threads : ∀ t, s.threads t = .idle
  called : s.called = []
  inserted : s.inserted = []
  refused : s.refused = []

end VcompModel.SkipList
