import Vcomp.SkipList.Insert

namespace VcompProof.SkipList

open VcompModel.SkipList SortedChain

variable {ν η K : Type*} [LinearOrder K] {a : Nodes ν K} {links links' : ν → ℕ} {link : Place ν → Option ν}
  {next : ℕ → Place ν → Option ν} {sp : Splice ν} {k : K} {i j maxHeight : ℕ} {p : Place ν} {v : Option ν} {m n : ν}

section

def Linked (links : ν → ℕ) (i : ℕ) : Place ν → Prop
  | .head => True
  | .node n => i < links n

def LeadsTo (links : ν → ℕ) (i : ℕ) : Option ν → Prop
  | none => True
  | some n => i < links n

def Level (a : Nodes ν K) (link : Place ν → Option ν) (links : ν → ℕ) (i : ℕ) : Prop :=
  ∃ l, Chain link .head l ∧ Sorted a.key l ∧ ∀ n, n ∈ l ↔ i < links n

theorem Linked.mono (linked : Linked links i p) (grow : ∀ n, links n ≤ links' n) : Linked links' i p := by
  cases p with
  | head => trivial
  | node n => exact lt_of_lt_of_le (show i < links n from linked) (grow n)

theorem LeadsTo.mono (leads : LeadsTo links i v) (grow : ∀ n, links n ≤ links' n) : LeadsTo links' i v := by
  cases v with
  | none => trivial
  | some n => exact lt_of_lt_of_le (show i < links n from leads) (grow n)

theorem Linked.lower (linked : Linked links j p) (lt : i ≤ j) : Linked links i p := by
  cases p with
  | head => trivial
  | node => exact lt_of_le_of_lt lt linked

theorem LeadsTo.lower (leads : LeadsTo links j v) (lt : i ≤ j) : LeadsTo links i v := by
  cases v with
  | none => trivial
  | some => exact lt_of_le_of_lt lt leads

variable (level : Level a link links i)
include level

theorem Level.successor (linked : Linked links i p) : LeadsTo links i (link p) ∧ lo a.key p < hi a.key (link p) ∧
      ∀ n, i < links n → lo a.key p < .ofKey (a.key n) → hi a.key (link p) ≤ .ofKey (a.key n) := by
  obtain ⟨l, chain, sorted, members⟩ := level
  have spot : Spot l p := by
    cases p with
    | head => trivial
    | node n => exact (members n).mpr linked
  have next := chain.successor sorted spot
  refine ⟨?_, next.above, fun n inside above => next.first n ((members n).mpr inside) above⟩
  have target := next.target
  cases leads : link p with
  | none => trivial
  | some n =>
    rw [leads] at target
    exact (members n).mp target

theorem Level.le_hi (linked : Linked links i p) (leads : LeadsTo links i v)
    (lt : lo a.key p < hi a.key v) : hi a.key (link p) ≤ hi a.key v := by
  cases v with
  | none => exact le_hi_none _
  | some n => exact (level.successor linked).2.2 n leads lt

theorem Level.eq_of_key (hm : i < links m) (hn : i < links n) (eq : a.key m = a.key n) : m = n := by
  obtain ⟨l, -, sorted, members⟩ := level
  exact sorted.eq_of_key ((members m).mpr hm) ((members n).mpr hn) eq

end

variable {u : Option ν} {q : Place ν}

structure Bracketed (a : Nodes ν K) (links : ν → ℕ) (k : K) (sp : Splice ν) (j : ℕ) : Prop where
  prev : Linked links j (sp.prev j)
  next : LeadsTo links j (sp.next j)
  below : lo a.key (sp.prev j) < .ofKey k
  above : .ofKey k ≤ hi a.key (sp.next j)

def Nested (a : Nodes ν K) (sp : Splice ν) (low : ℕ) : Prop :=
  ∀ j, low ≤ j → j < sp.height →
    lo a.key (sp.prev (j + 1)) ≤ lo a.key (sp.prev j) ∧ hi a.key (sp.next j) ≤ hi a.key (sp.next (j + 1))

structure Capped (sp : Splice ν) : Prop where
  prev : sp.prev sp.height = .head
  next : sp.next sp.height = none

/-- The invariant of a splice: around some key, but not necessarily tight. -/
structure Proper (a : Nodes ν K) (links : ν → ℕ) (sp : Splice ν) : Prop where
  capped : Capped sp
  nested : Nested a sp 0
  prev : ∀ j < sp.height, Linked links j (sp.prev j)
  next : ∀ j < sp.height, LeadsTo links j (sp.next j)
  around : ∀ j < sp.height, lo a.key (sp.prev j) < hi a.key (sp.next j)

def SpliceOk (a : Nodes ν K) (links : ν → ℕ) (sp : Splice ν) : Prop := sp.height = 0 ∨ Proper a links sp

theorem Bracketed.mono (bracketed : Bracketed a links k sp j) (grow : ∀ n, links n ≤ links' n) :
    Bracketed a links' k sp j :=
  ⟨bracketed.prev.mono grow, bracketed.next.mono grow, bracketed.below, bracketed.above⟩

theorem Capped.bracketed (capped : Capped sp) : Bracketed a links k sp sp.height where
  prev := by
    rw [capped.prev]
    trivial
  next := by
    rw [capped.next]
    trivial
  below := by
    rw [capped.prev]
    exact bot_lt_ofKey k
  above := by
    rw [capped.next]
    exact le_hi_none _

theorem Proper.mono (proper : Proper a links sp) (grow : ∀ n, links n ≤ links' n) : Proper a links' sp :=
  { proper with
    prev := fun j lt => (proper.prev j lt).mono grow
    next := fun j lt => (proper.next j lt).mono grow }

theorem SpliceOk.mono (ok : SpliceOk a links sp) (grow : ∀ n, links n ≤ links' n) : SpliceOk a links' sp :=
  ok.imp_right fun proper => proper.mono grow

theorem Proper.bracketed (proper : Proper a links sp) (lt : lo a.key (sp.prev i) < .ofKey k)
    (above : .ofKey k ≤ hi a.key (sp.next i)) (up : i ≤ j) (top : j ≤ sp.height) : Bracketed a links k sp j := by
  have wider : lo a.key (sp.prev j) ≤ lo a.key (sp.prev i) ∧ hi a.key (sp.next i) ≤ hi a.key (sp.next j) := by
    induction j, up using Nat.le_induction with
    | base => exact ⟨le_rfl, le_rfl⟩
    | succ j up ih =>
      obtain ⟨prev, next⟩ := ih (by omega)
      obtain ⟨prevUp, nextUp⟩ := proper.nested j (Nat.zero_le j) (by omega)
      exact ⟨prevUp.trans prev, next.trans nextUp⟩
  rcases Nat.lt_or_eq_of_le top with inside | rfl
  · exact ⟨proper.prev j inside, proper.next j inside, wider.1.trans_lt lt, above.trans wider.2⟩
  · exact proper.capped.bracketed

theorem proper_of_bracketed (capped : Capped sp) (nested : Nested a sp 0)
    (bracketed : ∀ j, j ≤ sp.height → Bracketed a links k sp j) : Proper a links sp where
  capped := capped
  nested := nested
  prev := fun j lt => (bracketed j lt.le).prev
  next := fun j lt => (bracketed j lt.le).next
  around := fun j lt => (bracketed j lt.le).below.trans_le (bracketed j lt.le).above

theorem set_prev_self (q : Place ν) (u : Option ν) : (sp.set i q u).prev i = q := Function.update_self _ _ _

theorem set_next_self (q : Place ν) (u : Option ν) : (sp.set i q u).next i = u := Function.update_self _ _ _

theorem set_prev_of_ne (q : Place ν) (u : Option ν) (other : j ≠ i) : (sp.set i q u).prev j = sp.prev j :=
  Function.update_of_ne other _ _

theorem set_next_of_ne (q : Place ν) (u : Option ν) (other : j ≠ i) : (sp.set i q u).next j = sp.next j :=
  Function.update_of_ne other _ _

theorem Bracketed.set (bracketed : Bracketed a links k sp j) (other : j ≠ i) :
    Bracketed a links k (sp.set i q u) j := by
  constructor
  · rw [set_prev_of_ne q u other]
    exact bracketed.prev
  · rw [set_next_of_ne q u other]
    exact bracketed.next
  · rw [set_prev_of_ne q u other]
    exact bracketed.below
  · rw [set_next_of_ne q u other]
    exact bracketed.above

theorem bracketed_set (prev : Linked links i q) (next : LeadsTo links i u) (below : lo a.key q < .ofKey k)
    (above : .ofKey k ≤ hi a.key u) : Bracketed a links k (sp.set i q u) i := by
  constructor <;> simp only [set_prev_self, set_next_self] <;> assumption

theorem Capped.set (capped : Capped sp) (lt : i < sp.height) : Capped (sp.set i q u) where
  prev := (set_prev_of_ne q u lt.ne').trans capped.prev
  next := (set_next_of_ne q u lt.ne').trans capped.next

theorem Nested.set (nested : Nested a sp (i + 1)) (prev : lo a.key (sp.prev (i + 1)) ≤ lo a.key q)
    (nextLe : hi a.key u ≤ hi a.key (sp.next (i + 1))) :
    Nested a (sp.set i q u) i := by
  intro j low high
  rcases eq_or_lt_of_le low with rfl | above
  · rw [set_prev_self, set_next_self, set_prev_of_ne q u (by omega), set_next_of_ne q u (by omega)]
    exact ⟨prev, nextLe⟩
  · rw [set_prev_of_ne q u (by omega), set_next_of_ne q u (by omega), set_prev_of_ne q u (by omega),
      set_next_of_ne q u (by omega)]
    exact nested j above high

variable {c : InsertCall ν η} {rh low : ℕ} {before : Place ν} {after : Option ν} {top : ℕ}

structure Linking (a : Nodes ν K) (links : ν → ℕ) (x : ν) (sp : Splice ν) (valid : Bool) (i : ℕ) : Prop where
  linked : links x = i
  more : i < a.height x
  fits : a.height x ≤ sp.height
  capped : Capped sp
  bracketed : ∀ j, j ≤ sp.height → Bracketed a links (a.key x) sp j
  nested : valid = true ∨ i = 0 → Nested a sp 0
  passed : ∀ j < i, .ofKey (a.key x) < hi a.key (sp.next j)

structure Checking (a : Nodes ν K) (links : ν → ℕ) (x : ν) (sp : Splice ν) (maxHeight : ℕ) : Prop where
  linked : links x = 0
  height : sp.height = maxHeight
  fits : a.height x ≤ maxHeight
  proper : Proper a links sp

/-- An insert that recomputes the levels of its splice, and is done with those from `low` up. -/
structure Recomputing (a : Nodes ν K) (links : ν → ℕ) (x : ν) (sp : Splice ν) (low : ℕ) : Prop where
  linked : links x = 0
  fits : a.height x ≤ sp.height
  capped : Capped sp
  within : low ≤ sp.height
  bracketed : ∀ j, low ≤ j → j ≤ sp.height → Bracketed a links (a.key x) sp j
  nested : Nested a sp low

def CallOk (a : Nodes ν K) (next : ℕ → Place ν → Option ν) (links : ν → ℕ) (c : InsertCall ν η) : InsertPc ν → Prop
  | .readMax => links c.node = 0 ∧ SpliceOk a links c.splice
  | .raiseMax maxHeight => links c.node = 0 ∧ SpliceOk a links c.splice ∧ maxHeight < a.height c.node
  | .check maxHeight rh => Checking a links c.node c.splice maxHeight ∧ rh < maxHeight
  | .skipPrev maxHeight rh bad => Checking a links c.node c.splice maxHeight ∧ rh ≤ maxHeight ∧ bad ≠ .head
  | .skipNext maxHeight rh bad => Checking a links c.node c.splice maxHeight ∧ rh ≤ maxHeight ∧ bad ≠ none
  | .find level before after =>
    Recomputing a links c.node c.splice (level + 1) ∧ Linked links level before ∧
      lo a.key (c.splice.prev (level + 1)) ≤ lo a.key before ∧ lo a.key before < .ofKey (a.key c.node) ∧
      after = c.splice.next (level + 1)
  | .place i => Linking a links c.node c.splice c.spliceIsValid i
  | .cas i =>
    Linking a links c.node c.splice c.spliceIsValid i ∧ next i (.node c.node) = c.splice.next i ∧
      .ofKey (a.key c.node) < hi a.key (c.splice.next i)
  | .retry i before =>
    Linking a links c.node c.splice c.spliceIsValid i ∧ Linked links i before ∧ lo a.key (c.splice.prev i) ≤ lo a.key before ∧
      lo a.key before < .ofKey (a.key c.node)

/-- A call in progress: its splice is no higher than the list. -/
structure InsertOk (a : Nodes ν K) (next : ℕ → Place ν → Option ν) (maxHeight : ℕ) (links : ν → ℕ) (c : InsertCall ν η) :
    Prop where
  height : c.splice.height ≤ maxHeight
  call : CallOk a next links c c.pc

theorem Linking.mono (linking : Linking a links c.node c.splice c.spliceIsValid i) (grow : ∀ n, links n ≤ links' n)
    (own : links' c.node = links c.node) :
    Linking a links' c.node c.splice c.spliceIsValid i :=
  { linking with
    linked := own.trans linking.linked
    bracketed := fun j lt => (linking.bracketed j lt).mono grow }

theorem InsertOk.mono {next' : ℕ → Place ν → Option ν} {maxHeight' : ℕ} (ok : InsertOk a next maxHeight links c)
    (grow : ∀ n, links n ≤ links' n) (own : links' c.node = links c.node) (higher : maxHeight ≤ maxHeight')
    (stored : next' (links c.node) (.node c.node) = next (links c.node) (.node c.node)) :
    InsertOk a next' maxHeight' links' c := by
  refine ⟨ok.height.trans higher, ?_⟩
  have call := ok.call
  have checking : ∀ {m}, Checking a links c.node c.splice m → Checking a links' c.node c.splice m := fun checking =>
    ⟨own.trans checking.linked, checking.height, checking.fits, checking.proper.mono grow⟩
  cases pc : c.pc with rw [pc] at call
  | readMax =>
    exact ⟨own.trans call.1, call.2.mono grow⟩
  | raiseMax =>
    exact ⟨own.trans call.1, call.2.1.mono grow, call.2.2⟩
  | check | skipPrev | skipNext =>
    exact ⟨checking call.1, call.2⟩
  | find =>
    obtain ⟨recomputing, linked, rest⟩ := call
    refine ⟨{ recomputing with linked := own.trans recomputing.linked, bracketed := ?_ }, linked.mono grow, rest⟩
    exact fun j low high => (recomputing.bracketed j low high).mono grow
  | place =>
    exact Linking.mono call grow own
  | cas =>
    obtain ⟨linking, store, strict⟩ := call
    refine ⟨linking.mono grow own, ?_, strict⟩
    rw [linking.linked] at stored
    exact stored.trans store
  | retry =>
    obtain ⟨linking, linked, rest⟩ := call
    exact ⟨linking.mono grow own, linked.mono grow, rest⟩

theorem Capped.recomputing {x : ν} (capped : Capped sp) (linked : links x = 0) (fits : a.height x ≤ sp.height) :
    Recomputing a links x sp sp.height := by
  refine ⟨linked, fits, capped, le_rfl, fun j low high => ?_, fun j low high => absurd high (not_lt_of_ge low)⟩
  obtain rfl := le_antisymm high low
  exact capped.bracketed

theorem not_notAfterPrev (test : notAfterPrev a k p = false) : lo a.key p < .ofKey k := by
  cases p with
  | head => exact bot_lt_ofKey k
  | node n => simpa [notAfterPrev] using test

theorem not_keyIsAfterNode (test : keyIsAfterNode a k v = false) : .ofKey k ≤ hi a.key v := by
  cases v with
  | none => exact le_hi_none _
  | some n => simpa [keyIsAfterNode] using test

section

variable (height : c.splice.height ≤ maxHeight)
include height

theorem Recomputing.recompute (recomputing : Recomputing a links c.node c.splice rh) :
    InsertOk a next maxHeight links (c.recompute rh) := by
  cases rh with
  | zero =>
    refine ⟨height, ⟨recomputing.linked, a.height_pos c.node, recomputing.fits, recomputing.capped, ?_, ?_, nofun⟩⟩
    · exact fun j lt => recomputing.bracketed j (Nat.zero_le j) lt
    · exact fun _ => recomputing.nested
  | succ level =>
    have above := recomputing.bracketed (level + 1) le_rfl recomputing.within
    exact ⟨height, recomputing, above.prev.lower (Nat.le_succ level), le_rfl, above.below, rfl⟩

theorem Checking.checkFrom (checking : Checking a links c.node c.splice top)
    (within : rh ≤ top) : InsertOk a next maxHeight links (c.checkFrom top rh) := by
  unfold InsertCall.checkFrom
  split
  next lt => exact ⟨height, checking, lt⟩
  next beyond =>
    obtain rfl : rh = top := by omega
    obtain ⟨linked, rfl, fits, proper⟩ := checking
    exact (proper.capped.recomputing linked fits).recompute height

omit height in
theorem prepare_ok (linked : links c.node = 0) (ok : SpliceOk a links c.splice) (fits : a.height c.node ≤ top)
    (lower : c.splice.height ≤ top) (height : top ≤ maxHeight) : InsertOk a next maxHeight links (c.prepare top) := by
  unfold InsertCall.prepare
  split
  next lt =>
    have capped : Capped { c.splice.set top .head none with height := top } :=
      ⟨Function.update_self _ _ _, Function.update_self _ _ _⟩
    exact (capped.recomputing linked fits).recompute height
  next eq =>
    have equal : c.splice.height = top := by omega
    have proper : Proper a links c.splice := by
      rcases ok with unused | proper
      · have pos := a.height_pos c.node
        omega
      · exact proper
    exact Checking.checkFrom (equal.trans_le height) ⟨linked, equal, fits, proper⟩ (Nat.zero_le top)

theorem raise_ok (linked : links c.node = 0) (ok : SpliceOk a links c.splice) :
    InsertOk a next maxHeight links (c.raise a maxHeight) := by
  unfold InsertCall.raise
  split
  next more => exact ⟨height, linked, ok, more⟩
  next fits => exact prepare_ok linked ok (by omega) height le_rfl

theorem check_ok [DecidableEq ν] {read : Option ν} (checking : Checking a links c.node c.splice top)
    (within : rh < top) : InsertOk a next maxHeight links (c.check a top rh read) := by
  unfold InsertCall.check
  split
  · exact checking.checkFrom height within
  split
  next notAfter =>
    split
    · refine ⟨height, checking, within.le, ?_⟩
      intro isHead
      rw [isHead] at notAfter
      cases notAfter
    · exact checking.checkFrom height le_rfl
  next notBefore =>
    split
    next after =>
      split
      · refine ⟨height, checking, within.le, ?_⟩
        intro isNull
        rw [isNull] at after
        cases after
      · exact checking.checkFrom height le_rfl
    next around =>
      have lt := not_notAfterPrev (Bool.eq_false_iff.mpr notBefore)
      have above := not_keyIsAfterNode (Bool.eq_false_iff.mpr around)
      apply Recomputing.recompute height
      refine ⟨checking.linked, checking.height ▸ checking.fits, checking.proper.capped, checking.height ▸ within.le, ?_, ?_⟩
      · exact fun j low high => checking.proper.bracketed lt above low high
      · exact fun j low high => checking.proper.nested j (Nat.zero_le j) high

theorem Recomputing.set {level : ℕ} (recomputing : Recomputing a links c.node c.splice (level + 1))
    (levelOk : Level a (next level) links level)
    (linked : Linked links level before) (inside : lo a.key (c.splice.prev (level + 1)) ≤ lo a.key before)
    (lt : lo a.key before < .ofKey (a.key c.node)) (above : .ofKey (a.key c.node) ≤ hi a.key (next level before)) :
    InsertOk a next maxHeight links
      ({ c with splice := c.splice.set level before (next level before) }.recompute level) := by
  have upper := recomputing.bracketed (level + 1) le_rfl recomputing.within
  have leads := (levelOk.successor linked).1
  have nextLe := levelOk.le_hi linked (upper.next.lower (Nat.le_succ level)) (lt.trans_le upper.above)
  have within := recomputing.within
  refine Recomputing.recompute (c := { c with splice := c.splice.set level before (next level before) }) height ?_
  refine ⟨recomputing.linked, recomputing.fits, recomputing.capped.set (by omega), ?_, fun j low high => ?_, ?_⟩
  · show level ≤ c.splice.height
    omega
  · rcases eq_or_lt_of_le low with rfl | beyond
    · exact bracketed_set linked leads lt above
    · exact (recomputing.bracketed j beyond high).set (by omega)
  · exact recomputing.nested.set inside nextLe

theorem find_ok [DecidableEq ν] {level : ℕ} (levelOk : Level a (next level) links level)
    (call : CallOk a next links c (.find level before after)) :
    InsertOk a next maxHeight links (c.find a level before after (next level before)) := by
  obtain ⟨recomputing, linked, inside, lt, isAfter⟩ := call
  obtain ⟨leads, up, -⟩ := levelOk.successor linked
  cases read : next level before with
  | none =>
    have done := recomputing.set height levelOk linked inside lt (read ▸ le_hi_none _)
    rw [read] at done
    exact done
  | some n =>
    rw [InsertCall.find]
    split
    next found =>
      have above : .ofKey (a.key c.node) ≤ hi a.key (next level before) := by
        rw [read]
        rcases found with eq | test
        · rw [eq, isAfter]
          exact (recomputing.bracketed (level + 1) le_rfl recomputing.within).above
        · exact not_keyIsAfterNode test
      have done := recomputing.set height levelOk linked inside lt above
      rw [read] at done
      exact done
    next on =>
      have after : a.key n < a.key c.node := by
        have test : keyIsAfterNode a (a.key c.node) (some n) = true := by
          by_contra other
          exact on (.inr (Bool.eq_false_iff.mpr other))
        simpa [keyIsAfterNode] using test
      rw [read] at leads up
      refine ⟨height, recomputing, leads, ?_, ?_, isAfter⟩
      · exact inside.trans (le_of_lt up)
      · exact ofKey_lt_ofKey.mpr after

theorem Linking.set (linking : Linking a links c.node c.splice c.spliceIsValid i)
    (levels : ∀ j, Level a (next j) links j) (linked : Linked links i before)
    (inside : lo a.key (c.splice.prev i) ≤ lo a.key before) (lt : lo a.key before < .ofKey (a.key c.node))
    (above : .ofKey (a.key c.node) ≤ hi a.key (next i before)) :
    InsertOk a next maxHeight links
      { c with
        splice := c.splice.set i before (next i before), spliceIsValid := c.spliceIsValid && i == 0, pc := .place i } := by
  have within : i < c.splice.height := linking.more.trans_le linking.fits
  have leads := ((levels i).successor linked).1
  refine ⟨height, linking.linked, linking.more, linking.fits, linking.capped.set within, fun j top => ?_, fun valid => ?_,
    fun j passed => ?_⟩
  · by_cases eq : j = i
    · subst eq
      exact bracketed_set linked leads lt above
    · exact (linking.bracketed j top).set eq
  · -- only a level 0 bracket may be narrowed in a valid splice
    obtain rfl : i = 0 := by
      rcases valid with valid | isZero
      · simpa using (Bool.and_eq_true_iff.mp valid).2
      · exact isZero
    have nested := linking.nested (.inr rfl)
    have upper := linking.bracketed 1 within
    have nextLe := (levels 0).le_hi linked (upper.next.lower (Nat.zero_le 1)) (lt.trans_le upper.above)
    apply Nested.set (fun j low high => nested j (Nat.zero_le j) high) _ nextLe
    exact (nested 0 le_rfl within).1.trans inside
  · show _ < hi a.key ((c.splice.set i before (next i before)).next j)
    rw [set_next_of_ne _ _ passed.ne]
    exact linking.passed j passed

theorem retry_ok (levels : ∀ j, Level a (next j) links j)
    (call : CallOk a next links c (.retry i before)) :
    InsertOk a next maxHeight links (c.retry a i before (next i before)) := by
  obtain ⟨linking, linked, inside, lt⟩ := call
  obtain ⟨leads, up, -⟩ := (levels i).successor linked
  cases read : next i before with
  | none =>
    have done := linking.set height levels linked inside lt (read ▸ le_hi_none _)
    rw [read] at done
    exact done
  | some n =>
    rw [InsertCall.retry]
    split
    next found =>
      have above : .ofKey (a.key c.node) ≤ hi a.key (next i before) := by
        rw [read]
        exact not_keyIsAfterNode found
      have done := linking.set height levels linked inside lt above
      rw [read] at done
      exact done
    next on =>
      have after : a.key n < a.key c.node := by simpa [keyIsAfterNode] using on
      rw [read] at leads up
      refine ⟨height, linking, leads, ?_, ?_⟩
      · exact inside.trans (le_of_lt up)
      · exact ofKey_lt_ofKey.mpr after

end

theorem strict_of_not_duplicate (test : c.duplicate a = false) : .ofKey (a.key c.node) < hi a.key (c.splice.next 0) := by
  have first := (Bool.or_eq_false_iff.mp test).1
  cases next : c.splice.next 0 with
  | none => exact ofKey_lt_hi_none _
  | some n =>
    rw [next] at first
    simpa using first

theorem Linking.strict (linking : Linking a links c.node c.splice c.spliceIsValid i)
    (levels : ∀ j, Level a (next j) links j) (pos : 0 < i) :
    .ofKey (a.key c.node) < hi a.key (c.splice.next i) := by
  have bracketed := linking.bracketed i (linking.more.trans_le linking.fits).le
  cases leads : c.splice.next i with
  | none => exact ofKey_lt_hi_none _
  | some n =>
    have above := bracketed.above
    have inside := bracketed.next
    rw [leads] at above inside
    have linked : i < links n := inside
    rw [hi_some, ofKey_lt_ofKey]
    rw [hi_some, ofKey_le_ofKey] at above
    apply lt_of_le_of_ne above
    intro eq
    have own : 0 < links c.node := linking.linked ▸ pos
    obtain rfl := (levels 0).eq_of_key own (pos.trans linked) eq
    rw [linking.linked] at linked
    exact lt_irrefl _ linked

theorem Linking.exists_of_duplicate (linking : Linking a links c.node c.splice c.spliceIsValid 0)
    (test : c.duplicate a = true) :
    ∃ n, a.key n = a.key c.node ∧ 0 < links n := by
  have bracketed := linking.bracketed 0 (Nat.zero_le _)
  rcases Bool.or_eq_true_iff.mp test with first | second
  · cases leads : c.splice.next 0 with
    | none =>
      rw [leads] at first
      cases first
    | some n =>
      have above := bracketed.above
      have inside := bracketed.next
      rw [leads] at first above inside
      rw [hi_some, ofKey_le_ofKey] at above
      exact ⟨n, le_antisymm (by simpa using first) above, inside⟩
  · cases prev : c.splice.prev 0 with
    | head =>
      rw [prev] at second
      cases second
    | node n =>
      have lt := bracketed.below
      rw [prev] at second lt
      rw [lo_node, ofKey_lt_ofKey] at lt
      exact absurd lt (not_lt_of_ge (by simpa using second))

theorem finalSplice_ok (fits : a.height c.node ≤ c.splice.height) (capped : Capped c.splice)
    (bracketed : ∀ j, j ≤ c.splice.height → Bracketed a links (a.key c.node) c.splice j)
    (nested : c.spliceIsValid = true → Nested a c.splice 0) (linked : links c.node = a.height c.node)
    (passed : ∀ j < a.height c.node, .ofKey (a.key c.node) < hi a.key (c.splice.next j)) :
    SpliceOk a links (c.finalSplice a) := by
  unfold InsertCall.finalSplice
  split
  next valid =>
    right
    constructor
    · refine ⟨?_, capped.next⟩
      show (if c.splice.height < a.height c.node then Place.node c.node else c.splice.prev c.splice.height) = .head
      rw [if_neg (by omega)]
      exact capped.prev
    · intro j low high
      refine ⟨?_, (nested valid j low high).2⟩
      show lo a.key (if j + 1 < a.height c.node then .node c.node else c.splice.prev (j + 1)) ≤
        lo a.key (if j < a.height c.node then .node c.node else c.splice.prev j)
      by_cases beyond : j + 1 < a.height c.node
      · rw [if_pos beyond, if_pos (by omega)]
      · rw [if_neg beyond]
        split
        · exact (bracketed (j + 1) high).below.le
        · exact (nested valid j low high).1
    · intro j lt
      show Linked links j (if j < a.height c.node then .node c.node else c.splice.prev j)
      split
      next own =>
        show j < links c.node
        rwa [linked]
      · exact (bracketed j lt.le).prev
    · exact fun j lt => (bracketed j lt.le).next
    · intro j lt
      show lo a.key (if j < a.height c.node then .node c.node else c.splice.prev j) < hi a.key (c.splice.next j)
      split
      next own => exact passed j own
      · exact (bracketed j lt.le).below.trans_le (bracketed j lt.le).above
  · exact .inl rfl

end VcompProof.SkipList
