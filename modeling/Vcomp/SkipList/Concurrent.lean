import Vcomp.Foundation.Transition
import Vcomp.SkipList.Splices

namespace VcompProof.SkipList

open VcompModel.SkipList SortedChain Transition List Function

variable {τ ν η K : Type*} [LinearOrder K] {a : Nodes ν K} {s s' : State τ ν η K} {links links' : ν → ℕ} {t u : τ}
  {c c' : InsertCall ν η} {x : ν} {i : ℕ} {thread : Thread ν η K} {splice : Splice ν}

/-- A search stands before its target; its end is the target if that was inserted before. -/
def SearchOk (a : Nodes ν K) (links : ν → ℕ) : Thread ν η K → Prop
  | .seek _ known => ∀ n ∈ known, 0 < links n
  | .search target known x level lastBigger =>
    (∀ n ∈ known, 0 < links n) ∧ Linked links level x ∧ lo a.key x < .ofKey target ∧
      ∀ n, lastBigger = some n → target < a.key n
  | .found target known node => ∀ n ∈ known, a.key n = target → node = some n
  | .idle | .insert _ => True

/-- The list with the inserts and searches that go on, where `links n` levels link the node `n`. -/
structure Inv (a : Nodes ν K) (s : State τ ν η K) (links : ν → ℕ) : Prop where
  levels : ∀ i, Level a (s.next i) links i
  bound : ∀ n, links n ≤ a.height n
  fresh : ∀ n ∉ s.called, links n = 0
  inserted : ∀ n ∈ s.inserted, n ∈ s.called ∧ links n = a.height n
  refused : ∀ n ∈ s.refused, n ∈ s.called ∧ links n = 0 ∧ ∃ m, a.key m = a.key n ∧ 0 < links m
  accounted : ∀ n ∈ s.called, n ∈ s.inserted ∨ n ∈ s.refused ∨ ∃ t c, s.threads t = .insert c ∧ c.node = n
  calls : ∀ t c, s.threads t = .insert c →
    c.node ∈ s.called ∧ c.node ∉ s.inserted ∧ c.node ∉ s.refused ∧ InsertOk a s.next s.maxHeight links c
  apart : ∀ t u c d, s.threads t = .insert c → s.threads u = .insert d → c.node = d.node → t = u
  hints : ∀ t h, (s.hints t h).height ≤ s.maxHeight ∧ SpliceOk a links (s.hints t h)
  searches : ∀ t, SearchOk a links (s.threads t)

/-- What an access of the insert of `x` may change in the list. -/
structure Grows (a : Nodes ν K) (s : State τ ν η K) (next' : ℕ → Place ν → Option ν) (maxHeight' : ℕ) (links links' : ν → ℕ)
    (x : ν) : Prop where
  levels : ∀ i, Level a (next' i) links' i
  grow : ∀ n, links n ≤ links' n
  others : ∀ n, n ≠ x → links' n = links n
  own : links' x ≤ a.height x
  stored : ∀ n, n ≠ x → next' (links n) (.node n) = s.next (links n) (.node n)
  higher : s.maxHeight ≤ maxHeight'

theorem SearchOk.mono (ok : SearchOk a links thread) (grow : ∀ n, links n ≤ links' n) : SearchOk a links' thread := by
  cases thread with
  | idle => trivial
  | insert c => trivial
  | seek => exact fun n mem => (ok n mem).trans_le (grow n)
  | search =>
    exact ⟨fun n mem => (ok.1 n mem).trans_le (grow n), ok.2.1.mono grow, ok.2.2⟩
  | found => exact ok

section

theorem Inv.same (inv : Inv a s links) {maxHeight' : ℕ} (higher : s.maxHeight ≤ maxHeight') :
    Grows a s s.next maxHeight' links links x where
  levels := inv.levels
  grow := fun _ => le_rfl
  others := fun _ _ => rfl
  own := inv.bound x
  stored := fun _ _ => rfl
  higher := higher

variable [DecidableEq ν]

theorem Inv.store (inv : Inv a s links) (linked : links x = i) (v : Option ν) :
    Grows a s (s.setNext i (.node x) v).next s.maxHeight links links x where
  levels := by
    intro j
    show Level a (update s.next i _ j) links j
    by_cases eq : j = i
    · subst eq
      rw [update_self]
      obtain ⟨l, chain, sorted, members⟩ := inv.levels j
      have out : ∀ n ∈ l, n ≠ x := by
        rintro n mem rfl
        have inside := (members n).mp mem
        omega
      have head : update (s.next j) (.node x) v .head = s.next j .head := update_of_ne (by nofun) _ _
      refine ⟨l, chain.congr head fun n mem => ?_, sorted, members⟩
      exact update_of_ne (fun eq => out n mem (Place.node.inj eq)) _ _
    · rw [update_of_ne eq]
      exact inv.levels j
  grow := fun _ => le_rfl
  others := fun _ _ => rfl
  own := inv.bound x
  stored := by
    intro n other
    show update s.next i _ (links n) (.node n) = _
    by_cases eq : links n = i
    · rw [eq, update_self]
      exact update_of_ne (fun eq => other (Place.node.inj eq)) _ _
    · rw [update_of_ne eq]
  higher := le_rfl

theorem Inv.link (inv : Inv a s links) (linked : links x = i) (more : i < a.height x) {p : Place ν} (spot : Linked links i p)
    (own : s.next i (.node x) = s.next i p) (lt : lo a.key p < .ofKey (a.key x))
    (above : .ofKey (a.key x) < hi a.key (s.next i p)) :
    Grows a s (s.setNext i p (some x)).next s.maxHeight links (update links x (i + 1)) x where
  levels := by
    intro j
    show Level a (update s.next i _ j) _ j
    have others : ∀ n, n ≠ x → update links x (i + 1) n = links n := fun n other => update_of_ne other _ _
    by_cases eq : j = i
    · subst eq
      rw [update_self]
      obtain ⟨l, chain, sorted, members⟩ := inv.levels j
      have out : x ∉ l := by
        intro mem
        have inside := (members x).mp mem
        omega
      have inList : Spot l p := by
        cases p with
        | head => trivial
        | node n => exact (members n).mpr spot
      obtain ⟨l', chain', sorted', members'⟩ := chain.insert sorted inList out own lt above
      refine ⟨l', chain', sorted', fun n => ?_⟩
      rw [members']
      by_cases isX : n = x
      · rw [isX, update_self]
        exact iff_of_true (.inl rfl) (Nat.lt_succ_self j)
      · rw [others n isX, ← members n]
        exact or_iff_right isX
    · rw [update_of_ne eq]
      obtain ⟨l, chain, sorted, members⟩ := inv.levels j
      refine ⟨l, chain, sorted, fun n => ?_⟩
      rw [members]
      by_cases isX : n = x
      · rw [isX, update_self, linked]
        omega
      · rw [others n isX]
  grow := by
    intro n
    by_cases isX : n = x
    · rw [isX, update_self]
      omega
    · rw [update_of_ne isX]
  others := fun n other => update_of_ne other _ _
  own := by
    rw [update_self]
    exact more
  stored := by
    intro n other
    show update s.next i _ (links n) (.node n) = _
    by_cases eq : links n = i
    · rw [eq, update_self]
      apply update_of_ne
      rintro rfl
      exact absurd (show i < links n from spot) (by omega)
    · rw [update_of_ne eq]
  higher := le_rfl

end

section

theorem Inv.call_of_ne (inv : Inv a s links) (grows : Grows a s s'.next s'.maxHeight links links' x)
    (own : s.threads t = .insert c) (other : c.node ≠ x) :
    c.node ∈ s.called ∧ c.node ∉ s.inserted ∧ c.node ∉ s.refused ∧ InsertOk a s'.next s'.maxHeight links' c := by
  obtain ⟨called, notInserted, notRefused, ok⟩ := inv.calls t c own
  refine ⟨called, notInserted, notRefused, ?_⟩
  exact ok.mono grows.grow (grows.others c.node other) grows.higher (grows.stored c.node other)

variable [DecidableEq τ]

variable (inv : Inv a s links)
include inv

theorem Inv.turn (own : s.threads t = .insert c)
    (grows : Grows a s s'.next s'.maxHeight links links' c.node) (threads : s'.threads = update s.threads t thread)
    (hints : ∀ u h, s'.hints u h = s.hints u h ∨ (s'.hints u h).height ≤ s'.maxHeight ∧ SpliceOk a links' (s'.hints u h))
    (called : s'.called = s.called) (keptInserted : s.inserted ⊆ s'.inserted) (keptRefused : s.refused ⊆ s'.refused)
    (inserted : ∀ n ∈ s'.inserted, n ∈ s.inserted ∨ n = c.node ∧ links' n = a.height n)
    (refused : ∀ n ∈ s'.refused, n ∈ s.refused ∨ n = c.node ∧ links' n = 0 ∧ ∃ m, a.key m = a.key n ∧ 0 < links' m)
    (runs : ∀ d, thread = .insert d →
      d.node = c.node ∧ c.node ∉ s'.inserted ∧ c.node ∉ s'.refused ∧ InsertOk a s'.next s'.maxHeight links' d)
    (accounted : c.node ∈ s'.inserted ∨ c.node ∈ s'.refused ∨ ∃ d, thread = .insert d ∧ d.node = c.node)
    (search : SearchOk a links' thread) : Inv a s' links' := by
  obtain ⟨ownCalled, notInserted, notRefused, -⟩ := inv.calls t c own
  have self : s'.threads t = thread := by rw [threads, update_self]
  have rest : ∀ u, u ≠ t → s'.threads u = s.threads u := fun u other => by rw [threads, update_of_ne other]
  have otherNode : ∀ u d, u ≠ t → s.threads u = .insert d → d.node ≠ c.node :=
    fun u d other running eq => other (inv.apart u t d c running own eq)
  constructor
  · exact grows.levels
  · intro n
    by_cases isOwn : n = c.node
    · rw [isOwn]
      exact grows.own
    · rw [grows.others n isOwn]
      exact inv.bound n
  · intro n out
    rw [called] at out
    rw [grows.others n fun eq => out (eq ▸ ownCalled)]
    exact inv.fresh n out
  · intro n mem
    rw [called]
    rcases inserted n mem with before | ⟨rfl, linked⟩
    · rw [grows.others n fun eq => notInserted (eq ▸ before)]
      exact inv.inserted n before
    · exact ⟨ownCalled, linked⟩
  · intro n mem
    rw [called]
    rcases refused n mem with before | ⟨rfl, twin⟩
    · rw [grows.others n fun eq => notRefused (eq ▸ before)]
      obtain ⟨isCalled, unlinked, m, eq, present⟩ := inv.refused n before
      exact ⟨isCalled, unlinked, m, eq, present.trans_le (grows.grow m)⟩
    · exact ⟨ownCalled, twin⟩
  · intro n mem
    rw [called] at mem
    rcases inv.accounted n mem with isInserted | isRefused | ⟨u, d, running, rfl⟩
    · exact .inl (keptInserted isInserted)
    · exact .inr (.inl (keptRefused isRefused))
    · by_cases eq : u = t
      · rw [eq, own] at running
        obtain rfl := Thread.insert.inj running
        exact accounted.imp_right (.imp_right fun ⟨d, isThread, node⟩ => ⟨t, d, self.trans isThread, node⟩)
      · exact .inr (.inr ⟨u, d, (rest u eq).trans running, rfl⟩)
  · intro u d running
    rw [called]
    by_cases eq : u = t
    · rw [eq, self] at running
      obtain ⟨node, out⟩ := runs d running
      rw [node]
      exact ⟨ownCalled, out⟩
    · rw [rest u eq] at running
      have node := otherNode u d eq running
      obtain ⟨isCalled, outInserted, outRefused, ok⟩ := inv.call_of_ne grows running node
      refine ⟨isCalled, fun mem => ?_, fun mem => ?_, ok⟩
      · exact (inserted d.node mem).elim outInserted fun isOwn => node isOwn.1
      · exact (refused d.node mem).elim outRefused fun isOwn => node isOwn.1
  · intro u v d e first second eq
    by_cases isU : u = t <;> by_cases isV : v = t
    · rw [isU, isV]
    · rw [isU, self] at first
      rw [rest v isV] at second
      exact absurd (eq.symm.trans (runs d first).1) (otherNode v e isV second)
    · rw [isV, self] at second
      rw [rest u isU] at first
      exact absurd (eq.trans (runs e second).1) (otherNode u d isU first)
    · rw [rest u isU] at first
      rw [rest v isV] at second
      exact inv.apart u v d e first second eq
  · intro u h
    rcases hints u h with eq | ok
    · rw [eq]
      exact ⟨(inv.hints u h).1.trans grows.higher, (inv.hints u h).2.mono grows.grow⟩
    · exact ok
  · intro u
    by_cases eq : u = t
    · rw [eq, self]
      exact search
    · rw [rest u eq]
      exact (inv.searches u).mono grows.grow

theorem Inv.call (own : s.threads t = .insert c) (c' : InsertCall ν η) (node : c'.node = c.node)
    (grows : Grows a s s'.next s'.maxHeight links links' c.node) (ok : InsertOk a s'.next s'.maxHeight links' c')
    (threads : s'.threads = update s.threads t (.insert c')) (hints : s'.hints = s.hints)
    (called : s'.called = s.called) (inserted : s'.inserted = s.inserted) (refused : s'.refused = s.refused) :
    Inv a s' links' := by
  obtain ⟨-, notInserted, notRefused, -⟩ := inv.calls t c own
  refine inv.turn own grows threads (fun u h => .inl (by rw [hints])) called (inserted ▸ List.Subset.refl _)
    (refused ▸ List.Subset.refl _)
    (fun n mem => .inl (inserted ▸ mem)) (fun n mem => .inl (refused ▸ mem)) ?_ (.inr (.inr ⟨c', rfl, node⟩)) trivial
  intro d eq
  obtain rfl := Thread.insert.inj eq
  rw [inserted, refused]
  exact ⟨node, notInserted, notRefused, ok⟩

theorem Inv.reader (free : ∀ c, s.threads t ≠ .insert c)
    (reads : ∀ c, thread ≠ .insert c) (ok : SearchOk a links thread) : Inv a (s.goto t thread) links := by
  have self : (s.goto t thread).threads t = thread := update_self _ _ _
  have rest : ∀ u, u ≠ t → (s.goto t thread).threads u = s.threads u := fun u other => update_of_ne other _ _
  have running : ∀ u d, (s.goto t thread).threads u = .insert d ↔ s.threads u = .insert d := by
    intro u d
    by_cases eq : u = t
    · rw [eq, self]
      exact iff_of_false (reads d) (free d)
    · rw [rest u eq]
  constructor
  · exact inv.levels
  · exact inv.bound
  · exact inv.fresh
  · exact inv.inserted
  · exact inv.refused
  · intro n mem
    rcases inv.accounted n mem with isInserted | isRefused | ⟨u, d, runs, isNode⟩
    · exact .inl isInserted
    · exact .inr (.inl isRefused)
    · exact .inr (.inr ⟨u, d, (running u d).mpr runs, isNode⟩)
  · exact fun u d runs => inv.calls u d ((running u d).mp runs)
  · exact fun u v d e first second => inv.apart u v d e ((running u d).mp first) ((running v e).mp second)
  · exact inv.hints
  · intro u
    by_cases eq : u = t
    · rw [eq, self]
      exact ok
    · rw [rest u eq]
      exact inv.searches u

theorem Inv.start {n : ν} {hint : Option η} (free : ∀ c, s.threads t ≠ .insert c)
    (unused : n ∉ s.called) (height : splice.height ≤ s.maxHeight) (ok : SpliceOk a links splice) :
    Inv a { s.goto t (.insert ⟨n, hint, splice, true, .readMax⟩) with called := s.called ++ [n] } links := by
  have self : update s.threads t (.insert ⟨n, hint, splice, true, .readMax⟩) t = _ := update_self _ _ _
  have rest : ∀ u, u ≠ t → update s.threads t (.insert ⟨n, hint, splice, true, .readMax⟩) u = s.threads u :=
    fun u other => update_of_ne other _ _
  have longer : ∀ {m}, m ∈ s.called → m ∈ s.called ++ [n] := fun mem => mem_append_left _ mem
  constructor
  · exact inv.levels
  · exact inv.bound
  · exact fun m out => inv.fresh m fun mem => out (longer mem)
  · exact fun m mem => (inv.inserted m mem).imp_left longer
  · exact fun m mem => (inv.refused m mem).imp_left longer
  · intro m mem
    rcases mem_append.mp mem with before | isNew
    · rcases inv.accounted m before with isInserted | isRefused | ⟨u, d, runs, isNode⟩
      · exact .inl isInserted
      · exact .inr (.inl isRefused)
      · have other : u ≠ t := by
          rintro rfl
          exact free d runs
        exact .inr (.inr ⟨u, d, (rest u other).trans runs, isNode⟩)
    · exact .inr (.inr ⟨t, _, self, (mem_singleton.mp isNew).symm⟩)
  · intro u d runs
    by_cases eq : u = t
    · subst eq
      obtain rfl := Thread.insert.inj (self.symm.trans runs)
      refine ⟨mem_append_right _ mem_cons_self, fun mem => ?_, fun mem => ?_, height, ?_, ok⟩
      · exact unused (inv.inserted n mem).1
      · exact unused (inv.refused n mem).1
      · exact inv.fresh n unused
    · obtain ⟨isCalled, rest⟩ := inv.calls u d ((rest u eq).symm.trans runs)
      exact ⟨longer isCalled, rest⟩
  · intro u v d e first second eq
    by_cases isU : u = t <;> by_cases isV : v = t
    · rw [isU, isV]
    · subst isU
      obtain rfl := Thread.insert.inj (self.symm.trans first)
      have known := (inv.calls v e ((rest v isV).symm.trans second)).1
      rw [← eq] at known
      exact absurd known unused
    · subst isV
      obtain rfl := Thread.insert.inj (self.symm.trans second)
      have known := (inv.calls u d ((rest u isU).symm.trans first)).1
      rw [eq] at known
      exact absurd known unused
    · exact inv.apart u v d e ((rest u isU).symm.trans first) ((rest v isV).symm.trans second) eq
  · exact inv.hints
  · intro u
    by_cases eq : u = t
    · subst eq
      show SearchOk a links (update s.threads u _ u)
      rw [self]
      trivial
    · show SearchOk a links (update s.threads t _ u)
      rw [rest u eq]
      exact inv.searches u

theorem Inv.finish (own : s.threads t = .insert c) (grows : Grows a s s'.next s'.maxHeight links links' c.node)
    (threads : s'.threads = update s.threads t .idle)
    (hints : ∀ u h, s'.hints u h = s.hints u h ∨ (s'.hints u h).height ≤ s'.maxHeight ∧ SpliceOk a links' (s'.hints u h))
    (called : s'.called = s.called)
    (result : s'.inserted = s.inserted ++ [c.node] ∧ s'.refused = s.refused ∧ links' c.node = a.height c.node ∨
      s'.inserted = s.inserted ∧ s'.refused = s.refused ++ [c.node] ∧ links' c.node = 0 ∧
        ∃ m, a.key m = a.key c.node ∧ 0 < links' m) : Inv a s' links' := by
  have added : ∀ {l : List ν} {n}, n ∈ l ++ [c.node] → n ∈ l ∨ n = c.node :=
    fun mem => (mem_append.mp mem).imp_right mem_singleton.mp
  have last : ∀ l : List ν, c.node ∈ l ++ [c.node] := fun l => mem_append_right l mem_cons_self
  rcases result with ⟨inserted, refused, linked⟩ | ⟨inserted, refused, twin⟩
  · refine inv.turn own grows threads hints called (inserted ▸ subset_append_left _ _) (refused ▸ List.Subset.refl _) ?_
      (fun n mem => .inl (refused ▸ mem)) nofun (.inl (inserted ▸ last _)) trivial
    intro n mem
    refine (added (inserted ▸ mem)).imp_right ?_
    rintro rfl
    exact ⟨rfl, linked⟩
  · refine inv.turn own grows threads hints called (inserted ▸ List.Subset.refl _) (refused ▸ subset_append_left _ _)
      (fun n mem => .inl (inserted ▸ mem)) ?_ nofun (.inr (.inl (refused ▸ last _))) trivial
    intro n mem
    refine (added (refused ▸ mem)).imp_right ?_
    rintro rfl
    exact ⟨rfl, twin⟩

end

section

/-! The node of a call is fixed. -/

variable {known : List ν} {p : Place ν} {level : ℕ}

@[simp] theorem recompute_node (c : InsertCall ν η) (rh : ℕ) : (c.recompute rh).node = c.node := by
  cases rh <;> rfl

@[simp] theorem checkFrom_node (c : InsertCall ν η) (top rh : ℕ) : (c.checkFrom top rh).node = c.node := by
  unfold InsertCall.checkFrom
  split <;> simp

@[simp] theorem prepare_node (c : InsertCall ν η) (top : ℕ) : (c.prepare top).node = c.node := by
  unfold InsertCall.prepare
  split <;> simp

omit [LinearOrder K] in
theorem raise_node (c : InsertCall ν η) (top : ℕ) : (c.raise a top).node = c.node := by
  unfold InsertCall.raise
  split <;> simp

theorem retry_node (c : InsertCall ν η) (i : ℕ) (before : Place ν) (read : Option ν) :
    (c.retry a i before read).node = c.node := by
  unfold InsertCall.retry
  repeat' split
  all_goals rfl

variable [DecidableEq ν]

theorem check_node (c : InsertCall ν η) (top rh : ℕ) (read : Option ν) : (c.check a top rh read).node = c.node := by
  unfold InsertCall.check
  split_ifs <;> simp

theorem find_node (c : InsertCall ν η) (level : ℕ) (before : Place ν) (after read : Option ν) :
    (c.find a level before after read).node = c.node := by
  unfold InsertCall.find
  repeat' split
  all_goals simp

variable [DecidableEq τ] [DecidableEq η] {spurious : Bool} {target : K} {lastBigger : Option ν}

omit [DecidableEq ν] [DecidableEq η] in
theorem Inv.goto (inv : Inv a s links) (own : s.threads t = .insert c) (node : c'.node = c.node)
    (ok : InsertOk a s.next s.maxHeight links c') : Inv a (s.goto t (.insert c')) links :=
  inv.call own c' node (inv.same le_rfl) ok rfl rfl rfl rfl rfl

omit [DecidableEq ν] in
theorem Inv.leave (inv : Inv a s links) (own : s.threads t = .insert c) {next' : ℕ → Place ν → Option ν}
    (grows : Grows a s next' s.maxHeight links links' c.node) (height : splice.height ≤ s.maxHeight)
    (ok : SpliceOk a links' splice) {inserted refused : List ν}
    (result : inserted = s.inserted ++ [c.node] ∧ refused = s.refused ∧ links' c.node = a.height c.node ∨
      inserted = s.inserted ∧ refused = s.refused ++ [c.node] ∧ links' c.node = 0 ∧
        ∃ m, a.key m = a.key c.node ∧ 0 < links' m) :
    Inv a { { s with next := next' }.leave t c.hint splice with inserted := inserted, refused := refused } links' := by
  cases hint : c.hint with
  | none => exact inv.finish own grows rfl (fun _ _ => .inl rfl) rfl result
  | some h =>
    refine inv.finish own grows rfl (fun u h' => ?_) rfl result
    show update s.hints t (update (s.hints t) h splice) u h' = s.hints u h' ∨
      (update s.hints t (update (s.hints t) h splice) u h').height ≤ s.maxHeight ∧
        SpliceOk a links' (update s.hints t (update (s.hints t) h splice) u h')
    by_cases eq : u = t
    · subst eq
      rw [update_self]
      by_cases isHint : h' = h
      · rw [isHint, update_self]
        exact .inr ⟨height, ok⟩
      · rw [update_of_ne isHint]
        exact .inl rfl
    · rw [update_of_ne eq]
      exact .inl rfl

omit [DecidableEq ν] [LinearOrder K] in
theorem leave_with_refused (s : State τ ν η K) (t : τ) (hint : Option η) (splice : Splice ν) (refused : List ν) :
    { s.leave t hint splice with refused := refused } =
      { { s with next := s.next }.leave t hint splice with inserted := s.inserted, refused := refused } := by
  cases hint <;> rfl

theorem Inv.step_place (inv : Inv a s links) (own : s.threads t = .insert c) (pc : c.pc = .place i) :
    Inv a (s.insertStep a t c spurious) links := by
  obtain ⟨-, -, -, height, call⟩ := inv.calls t c own
  rw [pc] at call
  have linking : Linking a links c.node c.splice c.spliceIsValid i := call
  simp only [State.insertStep, pc]
  split
  next dup =>
    obtain ⟨rfl, test⟩ := dup
    have proper := proper_of_bracketed linking.capped (linking.nested (.inr rfl)) linking.bracketed
    rw [leave_with_refused]
    exact inv.leave own (inv.same le_rfl) height (.inr proper)
      (.inr ⟨rfl, rfl, linking.linked, linking.exists_of_duplicate test⟩)
  next noDup =>
    have strict : .ofKey (a.key c.node) < hi a.key (c.splice.next i) := by
      rcases Nat.eq_zero_or_pos i with rfl | pos
      · apply strict_of_not_duplicate
        simpa using noDup
      · exact linking.strict inv.levels pos
    have stored : (s.setNext i (.node c.node) (c.splice.next i)).next i (.node c.node) = c.splice.next i := by
      show update s.next i _ i (.node c.node) = c.splice.next i
      rw [update_self, update_self]
    have ok : InsertOk a (s.setNext i (.node c.node) (c.splice.next i)).next s.maxHeight links { c with pc := .cas i } :=
      ⟨height, linking, stored, strict⟩
    exact inv.call own { c with pc := .cas i } rfl (inv.store linking.linked (c.splice.next i)) ok rfl rfl rfl rfl rfl

theorem Inv.step_cas (inv : Inv a s links) (own : s.threads t = .insert c) (pc : c.pc = .cas i) :
    ∃ links', Inv a (s.insertStep a t c spurious) links' := by
  obtain ⟨-, -, -, height, call⟩ := inv.calls t c own
  rw [pc] at call
  obtain ⟨linking, stored, strict⟩ : Linking a links c.node c.splice c.spliceIsValid i ∧ _ ∧ _ := call
  simp only [State.insertStep, pc]
  split
  next tight =>
    have bracketed := linking.bracketed i (linking.more.trans_le linking.fits).le
    have grows := inv.link linking.linked linking.more bracketed.prev (stored.trans tight.symm) bracketed.below
      (tight ▸ strict)
    have linked : update links c.node (i + 1) c.node = i + 1 := update_self _ _ _
    have passed : ∀ j < i + 1, .ofKey (a.key c.node) < hi a.key (c.splice.next j) := by
      intro j lt
      rcases Nat.lt_succ_iff_lt_or_eq.mp lt with lower | rfl
      · exact linking.passed j lower
      · exact strict
    have brackets : ∀ j, j ≤ c.splice.height → Bracketed a (update links c.node (i + 1)) (a.key c.node) c.splice j :=
      fun j top => (linking.bracketed j top).mono grows.grow
    refine ⟨update links c.node (i + 1), ?_⟩
    split
    next more =>
      have next : Linking a (update links c.node (i + 1)) c.node c.splice c.spliceIsValid (i + 1) :=
        ⟨linked, more, linking.fits, linking.capped, brackets, fun ok => linking.nested (ok.imp_right nofun), passed⟩
      have ok : InsertOk a (s.setNext i (c.splice.prev i) (some c.node)).next s.maxHeight
          (update links c.node (i + 1)) { c with pc := .place (i + 1) } := ⟨height, next⟩
      exact inv.call own { c with pc := .place (i + 1) } rfl grows ok rfl rfl rfl rfl rfl
    next last =>
      have top : i + 1 = a.height c.node := by
        have more := linking.more
        omega
      have splice : SpliceOk a (update links c.node (i + 1)) (c.finalSplice a) :=
        finalSplice_ok linking.fits linking.capped brackets (fun valid => linking.nested (.inl valid)) (linked.trans top)
          (top ▸ passed)
      have lower : (c.finalSplice a).height ≤ s.maxHeight := by
        unfold InsertCall.finalSplice
        split
        · exact height
        · exact Nat.zero_le _
      have left := inv.leave own grows lower splice (.inl ⟨rfl, rfl, linked.trans top⟩)
      cases hint : c.hint <;> rw [hint] at left <;> exact left
  · have retries : CallOk a s.next links c (.retry i (c.splice.prev i)) := by
      have bracketed := linking.bracketed i (linking.more.trans_le linking.fits).le
      exact ⟨linking, bracketed.prev, le_rfl, bracketed.below⟩
    exact ⟨links, inv.goto own rfl ⟨height, retries⟩⟩

theorem Inv.step_insert (inv : Inv a s links) (own : s.threads t = .insert c) (spurious : Bool) :
    ∃ links', Inv a (s.insertStep a t c spurious) links' := by
  obtain ⟨-, -, -, height, call⟩ := inv.calls t c own
  cases pc : c.pc with rw [pc] at call
  | readMax =>
    simp only [State.insertStep, pc]
    exact ⟨links, inv.goto own (raise_node c _) (raise_ok height call.1 call.2)⟩
  | raiseMax top =>
    simp only [State.insertStep, pc]
    split
    next swapped =>
      obtain ⟨linked, ok, more⟩ := call
      have higher : s.maxHeight ≤ a.height c.node := by omega
      have prepared : InsertOk a s.next (a.height c.node) links (c.prepare (a.height c.node)) :=
        prepare_ok linked ok le_rfl (height.trans higher) le_rfl
      exact ⟨links, inv.call own _ (prepare_node c _) (inv.same higher) prepared rfl rfl rfl rfl rfl⟩
    · exact ⟨links, inv.goto own (raise_node c _) (raise_ok height call.1 call.2.1)⟩
  | check top rh =>
    simp only [State.insertStep, pc]
    exact ⟨links, inv.goto own (check_node c top rh _) (check_ok height call.1 call.2)⟩
  | skipPrev top rh | skipNext top rh =>
    obtain ⟨checking, within, capped⟩ := call
    simp only [State.insertStep, pc]
    refine ⟨links, inv.goto own ?_ ?_⟩
    · split
      · rfl
      · exact checkFrom_node c top rh
    · split
      next eq =>
        refine ⟨height, checking, ?_, capped⟩
        rcases lt_or_eq_of_le within with lt | rfl
        · exact lt
        · rw [← checking.height] at eq
          simp only [checking.proper.capped.prev, checking.proper.capped.next] at eq
          exact absurd eq.symm capped
      · exact checking.checkFrom height within
  | find level before after =>
    simp only [State.insertStep, pc]
    exact ⟨links, inv.goto own (find_node c level before after _) (find_ok height (inv.levels level) call)⟩
  | place => exact ⟨links, inv.step_place own pc⟩
  | cas => exact inv.step_cas own pc
  | retry i before =>
    simp only [State.insertStep, pc]
    exact ⟨links, inv.goto own (retry_node c i before _) (retry_ok height inv.levels call)⟩

omit [DecidableEq τ] [DecidableEq ν] [DecidableEq η] in
theorem switchLevel_ok (levels : ∀ i, Level a (s.next i) links i) (present : ∀ n ∈ known, 0 < links n)
    (linked : Linked links level p) (lt : lo a.key p < .ofKey target) (above : .ofKey target < hi a.key (s.next level p)) :
    SearchOk a links (switchLevel target known p (s.next level p) level : Thread ν η K) := by
  cases level with
  | zero =>
    intro n mem isTarget
    have reached := ((levels 0).successor linked).2.2 n (present n mem) (isTarget ▸ lt)
    rw [isTarget] at reached
    exact absurd above (not_lt_of_ge reached)
  | succ lower =>
    refine ⟨present, linked.lower (Nat.le_succ lower), lt, fun n eq => ?_⟩
    rw [eq, hi_some, ofKey_lt_ofKey] at above
    exact above

omit [DecidableEq τ] [DecidableEq η] in
theorem searchNext_ok (levels : ∀ i, Level a (s.next i) links i)
    (ok : SearchOk a links (.search target known p level lastBigger : Thread ν η K)) :
    SearchOk a links (searchNext a target known p level lastBigger (s.next level p) : Thread ν η K) := by
  obtain ⟨present, linked, lt, bigger⟩ := ok
  have leads := ((levels level).successor linked).1
  have past := switchLevel_ok (η := η) levels present linked lt
  cases read : s.next level p with
  | none =>
    rw [read] at past
    exact past (ofKey_lt_hi_none target)
  | some n =>
    rw [read] at past leads
    rw [searchNext]
    split
    next beyond =>
      apply past
      rw [hi_some, ofKey_lt_ofKey]
      rcases beyond with eq | above
      · exact bigger n eq.symm
      · exact above
    next notOver =>
      have upTo : a.key n ≤ target := not_lt.mp fun above => notOver (.inr above)
      split
      next lower => exact ⟨present, leads, ofKey_lt_ofKey.mpr lower, bigger⟩
      next equal =>
        have isTarget : a.key n = target := le_antisymm upTo (not_lt.mp equal)
        intro m mem eq
        have inList : 0 < links n := (Nat.zero_le level).trans_lt leads
        rw [(levels 0).eq_of_key (present m mem) inList (eq.trans isTarget.symm)]

omit [DecidableEq τ] [DecidableEq η] in
theorem searchNext_reads (read : Option ν)
    (c : InsertCall ν η) : searchNext a target known p level lastBigger read ≠ .insert c := by
  have down : ∀ v, (switchLevel target known p v level : Thread ν η K) ≠ .insert c := by
    intro v
    cases level <;> nofun
  cases read with
  | none => exact down none
  | some n =>
    rw [searchNext]
    split
    · exact down (some n)
    · split <;> nofun

theorem Inv.step (inv : Inv a s links) {e : Event τ ν η K} (taken : s.step a e = some s') : ∃ links', Inv a s' links' := by
  have free : ∀ {t}, s.isFree t = true → ∀ c, s.threads t ≠ .insert c := by
    intro t isFree c running
    rw [State.isFree, running] at isFree
    cases isFree
  cases e with
  | insertConcurrently =>
    simp only [State.step, State.startInsert] at taken
    split at taken
    next may =>
      cases taken
      exact ⟨links, inv.start (free may.1) may.2 (Nat.zero_le _) (.inl rfl)⟩
    · cases taken
  | insertWithHintConcurrently t _ hint =>
    simp only [State.step, State.startInsert] at taken
    split at taken
    next may =>
      cases taken
      exact ⟨links, inv.start (free may.1) may.2 (inv.hints t hint).1 (inv.hints t hint).2⟩
    · cases taken
  | findGreaterOrEqual =>
    simp only [State.step] at taken
    split at taken
    next may =>
      cases taken
      refine ⟨links, inv.reader (free may) nofun fun n mem => ?_⟩
      rw [(inv.inserted n mem).2]
      exact a.height_pos n
    · cases taken
  | step t spurious =>
    have search := inv.searches t
    cases thread : s.threads t with simp only [State.step, thread, reduceCtorEq, Option.some.injEq] at taken
    | insert =>
      subst taken
      exact inv.step_insert thread spurious
    | seek target known =>
      subst taken
      rw [thread] at search
      refine ⟨links, inv.reader (by rw [thread]; nofun) nofun ⟨search, trivial, bot_lt_ofKey target, nofun⟩⟩
    | search =>
      subst taken
      rw [thread] at search
      exact ⟨links, inv.reader (by rw [thread]; nofun) (searchNext_reads _) (searchNext_ok inv.levels search)⟩

end

theorem Inv.initial (initial : Initial s) : Inv a s fun _ => 0 where
  levels := fun i => ⟨[], initial.next i, List.Pairwise.nil, fun n => by simp⟩
  bound := fun n => Nat.zero_le _
  fresh := fun _ _ => rfl
  inserted := by
    rw [initial.inserted]
    nofun
  refused := by
    rw [initial.refused]
    nofun
  accounted := by
    rw [initial.called]
    nofun
  calls := by
    intro t c running
    rw [initial.threads t] at running
    cases running
  apart := by
    intro t u c d running
    rw [initial.threads t] at running
    cases running
  hints := fun t h => ⟨by rw [initial.hints t h]; exact Nat.zero_le _, .inl (initial.hints t h)⟩
  searches := by
    intro t
    rw [initial.threads t]
    trivial

variable [DecidableEq τ] [DecidableEq ν] [DecidableEq η]

def Interleaved (a : Nodes ν K) : State τ ν η K → Prop :=
  Reachable Initial (fun s e s' => s.step a e = some s') fun _ _ => True

def empty : State Bool (Fin 2) Unit ℕ :=
  ⟨fun _ _ => none, 1, fun _ _ => .unused, fun _ => .idle, [], [], []⟩

end VcompProof.SkipList
