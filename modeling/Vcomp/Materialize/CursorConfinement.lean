import Vcomp.Materialize.Confinement
import Vcomp.Materialize.CursorScan

namespace VcompProof

open VcompModel SharedWords Bitmap

section

variable {lo hi first last word : ℕ} {map : KeyBitmap} {mode : MembershipMode}

theorem related_modeWord (lo hi : ℕ) (mode : MembershipMode) (word : ℕ) :
    Related (rangeFoot lo hi) (WordAgree (rangeFoot lo hi (.present, word))) (modeWord mode word) (modeWord mode word) := by
  apply Related.load
  intro v v' agree
  cases mode with
  | present => exact .done agree
  | newest =>
    apply Related.load
    intro taken taken' agreeTaken
    apply Related.done
    intro b inFoot
    rw [BitVec.getLsbD_and, BitVec.getLsbD_and, BitVec.getLsbD_not, BitVec.getLsbD_not, agree b inFoot,
      agreeTaken b inFoot]
  | stale =>
    apply Related.load
    intro taken taken' agreeTaken
    apply Related.done
    intro b inFoot
    rw [BitVec.getLsbD_and, BitVec.getLsbD_and, agree b inFoot, agreeTaken b inFoot]

theorem confined_countPresent (lower : lo ≤ first) (upper : last ≤ hi) :
    (map.countPresent first last mode).Confined (rangeFoot lo hi) fun _ => True := by
  apply confined_forEachWord lower upper _ trivial
  intro i mask _ inside acc _
  apply (related_modeWord lo hi mode i).bind
  intro v v' agree
  rw [masked_eq (fun b => inside b .present) agree]
  exact confined_done trivial

theorem wordKeys_agree {v v' : BitVec 64} (agree : WordAgree (rangeFoot lo hi (.present, word)) v v') (upper : last ≤ hi)
    (lower : ∀ k, k / 64 = word → v.getLsbD (k % 64) = true ∨ v'.getLsbD (k % 64) = true → lo ≤ k) :
    wordKeys last word v = wordKeys last word v' := by
  apply eq_of_sorted (wordKeys_sorted _ _ _) (wordKeys_sorted _ _ _)
  have eq : ∀ k, k / 64 = word → k ≤ last → lo ≤ k → v.getLsbD (k % 64) = v'.getLsbD (k % 64) := by
    intro k inWord inRange above
    apply agree
    exact ⟨Nat.mod_lt _ (by decide), by simp only; omega, by simp only; omega⟩
  intro k
  rw [mem_wordKeys, mem_wordKeys]
  constructor
  · intro mem
    obtain ⟨⟨inWord, set⟩, inRange⟩ := mem
    exact ⟨⟨inWord, eq k inWord inRange (lower k inWord (.inl set)) ▸ set⟩, inRange⟩
  · intro mem
    obtain ⟨⟨inWord, set⟩, inRange⟩ := mem
    exact ⟨⟨inWord, (eq k inWord inRange (lower k inWord (.inr set))).symm ▸ set⟩, inRange⟩

end

section

variable {lo hi : ℕ} {map : KeyBitmap} {c c' : Cursor}

/-- Two cursors over one range that differ at most in loaded bits outside of it. -/
structure CursorAlike (lo hi : ℕ) (c c' : Cursor) : Prop where
  same : ∃ pending, c' = { c with pending := pending }
  pending : wordKeys c.last c.word c'.pending = wordKeys c.last c.word c.pending
  above : ∀ k ∈ wordKeys c.last c.word c.pending, lo ≤ k
  started : lo < 64 * (c.word + 1)
  upper : c.last ≤ hi

inductive FoundAlike (lo hi : ℕ) : Option (ℕ × Cursor) → Option (ℕ × Cursor) → Prop
  | none : FoundAlike lo hi none none
  | some {k : ℕ} {c c' : Cursor} (lower : lo ≤ k) (upper : k ≤ hi) (alike : CursorAlike lo hi c c') :
      FoundAlike lo hi (some (k, c)) (some (k, c'))

def NothingFound (c : Cursor) (seen : ℕ) (scan : PendingScan) : Prop :=
  (scan = .beyond ∧ c.last < 64 * (c.word + 1)) ∨ scan = .empty seen

theorem scanPending_alike (target : ℕ) (alike : CursorAlike lo hi c c') :
    (∃ k pending pending' seen, scanPending c.last target c.word 64 c.pending c.seen = .found k pending seen ∧
        scanPending c.last target c.word 64 c'.pending c.seen = .found k pending' seen ∧
        FoundAlike lo hi (some (k, { c with pending := pending, seen := seen, emitted := c.emitted + 1 }))
          (some (k, { c with pending := pending', seen := seen, emitted := c.emitted + 1 }))) ∨
      ∃ seen, NothingFound c seen (scanPending c.last target c.word 64 c.pending c.seen) ∧
        NothingFound c seen (scanPending c.last target c.word 64 c'.pending c.seen) := by
  have scans := scanPending_scans c.last target c.word 64 c.seen (popCount_le c.pending)
  have scans' := scanPending_scans c.last target c.word 64 c.seen (popCount_le c'.pending)
  unfold ScansTo at scans scans'
  rw [alike.pending] at scans'
  have inWord : ∀ k ∈ (wordKeys c.last c.word c.pending).drop (target - c.seen), k ∈ wordKeys c.last c.word c.pending :=
    fun k mem => List.drop_subset _ _ mem
  cases dropped : (wordKeys c.last c.word c.pending).drop (target - c.seen) with
  | nil =>
    rw [dropped] at scans scans'
    exact .inr ⟨_, scans, scans'⟩
  | cons k =>
    rw [dropped] at scans scans' inWord
    obtain ⟨pending, scan, left⟩ := scans
    obtain ⟨pending', scan', left'⟩ := scans'
    have mem := inWord k List.mem_cons_self
    apply Or.inl
    refine ⟨k, pending, pending', _, scan, scan', .some (alike.above k mem)
      ((mem_wordKeys.mp mem).2.trans alike.upper) ⟨⟨pending', rfl⟩, left'.trans left.symm, ?_, alike.started, alike.upper⟩⟩
    intro l inRest
    rw [left] at inRest
    exact alike.above l (inWord l (List.mem_cons_of_mem _ inRest))

theorem related_nextLoop (target ahead : ℕ) (alike : CursorAlike lo hi c c') :
    Related (rangeFoot lo hi) (FoundAlike lo hi) (nextLoop target ahead c) (nextLoop target ahead c') := by
  induction ahead generalizing c c' with
  | zero =>
    have scans := scanPending_alike target alike
    obtain ⟨other, rfl⟩ := alike.same
    unfold nextLoop
    rcases scans with ⟨k, pending, pending', seen, scan, scan', found⟩ | ⟨seen, nothing, nothing'⟩
    · simp only [scan, scan']
      exact .done found
    · rcases nothing with ⟨scan, -⟩ | scan <;> rcases nothing' with ⟨scan', -⟩ | scan' <;> simp only [scan, scan'] <;>
        exact .done .none
  | succ ahead ih =>
    have scans := scanPending_alike target alike
    obtain ⟨other, rfl⟩ := alike.same
    unfold nextLoop
    rcases scans with ⟨k, pending, pending', seen, scan, scan', found⟩ | ⟨seen, nothing, nothing'⟩
    · simp only [scan, scan']
      exact .done found
    · by_cases beyond : 64 * (c.word + 1) > c.last
      · rcases nothing with ⟨scan, -⟩ | scan <;> rcases nothing' with ⟨scan', -⟩ | scan' <;>
          simp only [scan, scan', beyond, if_true] <;> exact .done .none
      · rcases nothing with ⟨-, past⟩ | scan
        · omega
        rcases nothing' with ⟨-, past⟩ | scan'
        · omega
        simp only [scan, scan', beyond, if_false]
        apply (related_modeWord lo hi c.mode (c.word + 1)).bind
        intro v v' agree
        have started := alike.started
        have eq : wordKeys c.last (c.word + 1) v = wordKeys c.last (c.word + 1) v' := by
          apply wordKeys_agree agree alike.upper
          intro k inWord _
          omega
        apply ih
        refine ⟨⟨v', rfl⟩, eq.symm, ?_, by simp only; omega, alike.upper⟩
        intro k mem
        have inWord := (mem_wordKeys.mp mem).1.1
        simp only at inWord
        omega

def StartAlike (lo hi : ℕ) (c c' : Cursor) : Prop := CursorAlike lo hi c c' ∨ (c = c' ∧ c.present = 0)

theorem related_next (alike : CursorAlike lo hi c c') :
    Related (rangeFoot lo hi) (FoundAlike lo hi) (map.next c) (map.next c') := by
  obtain ⟨pending, eq⟩ := alike.same
  unfold KeyBitmap.next
  have want : c'.want = c.want := by rw [eq]
  have emitted : c'.emitted = c.emitted := by rw [eq]
  have present : c'.present = c.present := by rw [eq]
  have word : c'.word = c.word := by rw [eq]
  rw [want, emitted, present, word]
  split_ifs
  · exact .done .none
  · exact related_nextLoop _ _ alike

theorem related_firstNext (alike : StartAlike lo hi c c') :
    Related (rangeFoot lo hi) (FoundAlike lo hi) (map.next c) (map.next c') := by
  cases alike with
  | inl alike => exact related_next alike
  | inr nothing =>
    obtain ⟨rfl, zero⟩ := nothing
    rw [KeyBitmap.next, if_pos (.inr (.inr zero))]
    exact .done .none

theorem related_newCursor (want : ℕ) (mode : MembershipMode) :
    Related (rangeFoot lo hi) (StartAlike lo hi) (map.newCursor lo hi want mode) (map.newCursor lo hi want mode) := by
  by_cases inDomain : lo < map.keyDomain
  · unfold KeyBitmap.newCursor
    apply Related.bind (confined_countPresent le_rfl le_rfl)
    intro present _ eq
    obtain ⟨rfl, -⟩ := eq
    rw [if_pos inDomain]
    apply (related_modeWord lo hi mode (lo / 64)).bind
    intro v v' agree
    have masked : WordAgree (rangeFoot lo hi (.present, lo / 64)) (v &&& (BitVec.allOnes 64 <<< (lo % 64)))
        (v' &&& (BitVec.allOnes 64 <<< (lo % 64))) := by
      intro b inFoot
      rw [getLsbD_fromBit, getLsbD_fromBit, agree b inFoot]
    have above : ∀ (v : BitVec 64) k, k / 64 = lo / 64 →
        (v &&& (BitVec.allOnes 64 <<< (lo % 64))).getLsbD (k % 64) = true → lo ≤ k := by
      intro v k inWord set
      rw [getLsbD_fromBit, Bool.and_eq_true, decide_eq_true_iff] at set
      omega
    apply Related.done
    refine .inl ⟨⟨_, rfl⟩, ?_, ?_, by simp only; omega, le_rfl⟩
    · apply Eq.symm
      apply wordKeys_agree masked le_rfl
      intro k inWord set
      exact set.elim (above v k inWord) (above v' k inWord)
    · intro k mem
      obtain ⟨⟨inWord, set⟩, -⟩ := mem_wordKeys.mp mem
      exact above v k inWord set
  · have nothing : map.countPresent lo hi mode = pure 0 := by
      rw [KeyBitmap.countPresent, forEachWord_eq, if_pos (.inr (not_lt.mp inDomain))]
    rw [KeyBitmap.newCursor, nothing, pure_eq_done, done_bind, if_neg inDomain]
    exact .done (.inr ⟨rfl, rfl⟩)

end

variable {m : BitMemory} {map : KeyBitmap} {mode : MembershipMode} {first last want : ℕ}

/-- As `Create` makes it and `Mark` fills it: a word for every key, and no bit after the domain. -/
structure MembershipBitmap (map : KeyBitmap) (m : BitMemory) : Prop where
  words : map.words = (map.keyDomain + 63) / 64
  clear : ∀ k, map.keyDomain ≤ k → k / 64 < map.words → holds m .present k = false

theorem MembershipBitmap.mode_clear (bitmap : MembershipBitmap map m) (mode : MembershipMode) {k : ℕ}
    (past : map.keyDomain ≤ k) (inWords : k / 64 < map.words) : bit (modeWords mode m) k = false := by
  have clear := bitmap.clear k past inWords
  cases mode with
  | present => exact clear
  | newest => rw [bit_newest, clear, Bool.false_and]
  | stale => rw [bit_stale, clear, Bool.false_and]

/-- Calls of `Next` up to the first false, among changes that leave a memory of `M`. -/
inductive NextCalls (M : BitMemory → Prop) (map : KeyBitmap) : Cursor → List ℕ → Prop
  | stop {c : Cursor} (sees : (map.next c).Sees M none) : NextCalls M map c []
  | more {c c' : Cursor} {k : ℕ} {out : List ℕ} (sees : (map.next c).Sees M (some (k, c')))
      (rest : NextCalls M map c' out) : NextCalls M map c (k :: out)

theorem NextCalls.eq_of_yields {M : BitMemory → Prop} {c c' : Cursor} {out out' : List ℕ}
    (agree : ∀ m', M m' → Agree (rangeFoot first last) m m') (calls : NextCalls M map c' out')
    (alike : StartAlike first last c c') (yields : Yields map m ((map.next c).run m).1 out) : out' = out := by
  induction calls generalizing c out with
  | stop sees =>
    have found := (related_firstNext alike).sees agree sees
    cases out with
    | nil => rfl
    | cons =>
      obtain ⟨next, ran, -⟩ := yields
      rw [ran] at found
      nomatch found
  | more sees _ ih =>
    have found := (related_firstNext alike).sees agree sees
    cases out with
    | nil =>
      rw [show ((map.next c).run m).1 = none from yields] at found
      nomatch found
    | cons =>
      obtain ⟨next, ran, -, later⟩ := yields
      rw [ran] at found
      cases found with
      | some _ _ nextAlike => rw [ih (.inl nextAlike) later]

/-- `Next` gives `want` keys, the `e`-th of rank `e * P / want`, also where bits outside the range change. -/
theorem cursor_spreads (map : KeyBitmap) (m : BitMemory) (mode : MembershipMode) (first last want : ℕ)
    (bitmap : MembershipBitmap map m) (pos : 0 < want) (enough : want ≤ ((map.countPresent first last mode).run m).1)
    (fits : want * ((map.countPresent first last mode).run m).1 < word64) : ∃ keys out : List ℕ, keys.Pairwise (· < ·) ∧
      (∀ k, k ∈ keys ↔ first ≤ k ∧ k ≤ last ∧ k < map.keyDomain ∧ bit (modeWords mode m) k = true) ∧
      keys.length = ((map.countPresent first last mode).run m).1 ∧
      out.length = want ∧ (∀ e < want, out[e]? = keys[e * keys.length / want]?) ∧
      (∃ c, (map.newCursor first last want mode).run m = (c, m) ∧ Yields map m ((map.next c).run m).1 out) ∧
      ∀ M : BitMemory → Prop, (∀ m', M m' → Agree (rangeFoot first last) m m') →
        ∀ c', (map.newCursor first last want mode).Sees M c' → ∀ out', NextCalls M map c' out' → out' = out := by
  rw [run_countPresent] at enough fits ⊢
  have inDomain : first < map.keyDomain := by
    by_contra outside
    rw [modeKeys, rangeKeys, if_pos (.inr (not_lt.mp outside)), List.length_nil] at enough
    omega
  obtain ⟨c, ran, now, wantEq, emitted, -⟩ :=
    run_newCursor bitmap.words inDomain (fun k past _ inWords => bitmap.mode_clear mode past inWords) enough
  obtain ⟨-, out, yields, length, -, spread⟩ := now.yields (by omega)
  have count : out.length = want := by omega
  refine ⟨modeKeys map mode m first last, out, rangeKeys_sorted _ _ _ _, fun k => mem_rangeKeys, rfl, count, ?_,
    ⟨c, ran, yields⟩, ?_⟩
  · intro e lt
    have now := spread (by rw [wantEq]; exact fits) e (by omega)
    rwa [emitted, zero_add, wantEq] at now
  · intro M agree c' sees out' calls
    have alike : StartAlike first last ((map.newCursor first last want mode).run m).1 c' :=
      (related_newCursor want mode).sees agree sees
    rw [ran] at alike
    exact calls.eq_of_yields agree alike yields

theorem cursor_spreads_word : ∃ out : List ℕ, out.length = 2 ∧
      ∃ c, ((⟨64, 1⟩ : KeyBitmap).newCursor 0 63 2 .present).run (fun _ => 0b10101#64) = (c, fun _ => 0b10101#64) ∧
        Yields ⟨64, 1⟩ (fun _ => 0b10101#64) (((⟨64, 1⟩ : KeyBitmap).next c).run fun _ => 0b10101#64).1 out := by
  obtain ⟨keys, out, -, -, -, length, -, ran, -⟩ := cursor_spreads ⟨64, 1⟩ (fun _ => 0b10101#64) .present 0 63 2
    ⟨rfl, fun k past inWords => by simp only at past inWords; omega⟩ (by decide) (by decide +kernel) (by decide +kernel)
  exact ⟨out, length, ran⟩

variable {cfg : MaterializeConfig} {io : SstIo} {task : SSTTask} {lo hi : ℕ} {selector selector' : Selector}
  {s : FileState} {s' : FileState} {freeCapacity shortfall : ℕ} {res : SSTResult}

inductive SelectorAlike (lo hi : ℕ) : Selector → Selector → Prop
  | member {fresh fresh' stale stale' : Option (ℕ × Cursor)} {claims : List ℕ} (freshAlike : FoundAlike lo hi fresh fresh')
      (staleAlike : FoundAlike lo hi stale stale') (inside : ∀ k ∈ claims, lo ≤ k ∧ k ≤ hi) :
      SelectorAlike lo hi (.member fresh stale claims) (.member fresh' stale' claims)

theorem SelectorAlike.claims (alike : SelectorAlike lo hi selector selector') :
    selector'.claims = selector.claims ∧ ∀ k ∈ selector.claims, lo ≤ k ∧ k ≤ hi := by
  cases alike with
  | member _ _ inside => exact ⟨rfl, inside⟩

inductive ChoiceAlike (lo hi : ℕ) : Except StopReason (ℕ × Selector) → Except StopReason (ℕ × Selector) → Prop
  | error (reason : StopReason) : ChoiceAlike lo hi (.error reason) (.error reason)
  | ok (k : ℕ) {selector selector' : Selector} (alike : SelectorAlike lo hi selector selector') :
      ChoiceAlike lo hi (.ok (k, selector)) (.ok (k, selector'))

theorem related_selectMember {pos : ℕ} (alike : SelectorAlike lo hi s.selector selector') :
    Related (rangeFoot lo hi) (ChoiceAlike lo hi) (selectKey map task pos s)
      (selectKey map task pos { s with selector := selector' }) := by
  generalize selectorEq : s.selector = selector at alike
  cases alike with
  | @member _ _ _ _ claims freshAlike staleAlike inside =>
    have claim : ∀ k, lo ≤ k → k ≤ hi → ∀ l ∈ claims ++ [k], lo ≤ l ∧ l ≤ hi := by
      intro k lower upper l mem
      rcases List.mem_append.mp mem with before | new
      · exact inside l before
      · rw [List.mem_singleton] at new
        subst new
        exact ⟨lower, upper⟩
    cases freshAlike with
    | none =>
      cases staleAlike with
      | none =>
        simp only [selectKey, selectorEq]
        exact .done (.error _)
      | some _ _ cursors =>
        simp only [selectKey, selectorEq]
        apply (related_next cursors).bind
        intro found found' foundAlike
        exact .done (.ok _ (.member .none foundAlike inside))
    | @some k _ _ lower upper cursors =>
      cases staleAlike with
      | none =>
        simp only [selectKey, selectorEq]
        apply (related_next cursors).bind
        intro found found' foundAlike
        exact .done (.ok _ (.member foundAlike .none (claim k lower upper)))
      | some lowerStale upperStale cursorsStale =>
        simp only [selectKey, selectorEq]
        split_ifs
        · apply (related_next cursors).bind
          intro found found' foundAlike
          exact .done (.ok _ (.member foundAlike (.some lowerStale upperStale cursorsStale) (claim k lower upper)))
        · apply (related_next cursorsStale).bind
          intro found found' foundAlike
          exact .done (.ok _ (.member (.some lower upper cursors) foundAlike inside))

def StateAlike (lo hi : ℕ) (s s' : FileState) : Prop :=
  ∃ selector', s' = { s with selector := selector' } ∧ SelectorAlike lo hi s.selector selector'

theorem putKey_selected (k : ℕ) (s : FileState) (selector : Selector) :
    putKey cfg io k { s with selector := selector } =
      ({ (putKey cfg io k s).1 with selector := selector }, (putKey cfg io k s).2) := by
  simp only [putKey]
  split_ifs <;> first | rfl | contradiction

theorem related_memberLoop (left pos : ℕ) (alike : StateAlike lo hi s s') :
    Related (rangeFoot lo hi) (StateAlike lo hi) (fileLoop cfg io task left pos s) (fileLoop cfg io task left pos s') := by
  induction left generalizing pos s s' with
  | zero => exact .done alike
  | succ left ih =>
    obtain ⟨selector', rfl, selectors⟩ := alike
    apply (related_selectMember selectors).bind
    intro choice choice' choices
    cases choices with
    | error => exact .done ⟨selector', rfl, selectors⟩
    | @ok k next next' nextAlike =>
      change Related _ _
        (if (putKey cfg io k { s with selector := next }).2 then
          fileLoop cfg io task left (pos + 1) (putKey cfg io k { s with selector := next }).1
          else pure (putKey cfg io k { s with selector := next }).1)
        (if (putKey cfg io k { s with selector := next' }).2 then
          fileLoop cfg io task left (pos + 1) (putKey cfg io k { s with selector := next' }).1
          else pure (putKey cfg io k { s with selector := next' }).1)
      rw [putKey_selected k s next, putKey_selected k s next']
      generalize putKey cfg io k s = put
      have states : StateAlike lo hi { put.1 with selector := next } { put.1 with selector := next' } :=
        ⟨next', rfl, nextAlike⟩
      split_ifs
      · exact ih (pos + 1) states
      · exact .done states

inductive PlanAlike (lo hi : ℕ) : Except FileEnd FilePlan → Except FileEnd FilePlan → Prop
  | error (ended : FileEnd) : PlanAlike lo hi (.error ended) (.error ended)
  | ok (freeCapacity shortfall : ℕ) {selector selector' : Selector} (alike : SelectorAlike lo hi selector selector') :
      PlanAlike lo hi (.ok ⟨freeCapacity, shortfall, selector⟩) (.ok ⟨freeCapacity, shortfall, selector'⟩)

theorem related_planMembership (map : KeyBitmap) : Related (rangeFoot task.materializeKeyMin (clampedMax map task))
      (PlanAlike task.materializeKeyMin (clampedMax map task)) (planMembership map task) (planMembership map task) := by
  apply Related.bind (confined_countPresent le_rfl le_rfl)
  intro freshAvail _ eq
  obtain ⟨rfl, -⟩ := eq
  apply Related.bind (confined_countPresent le_rfl le_rfl)
  intro staleAvail _ eq
  obtain ⟨rfl, -⟩ := eq
  apply (related_newCursor _ _).bind
  intro fresh fresh' freshAlike
  apply (related_newCursor _ _).bind
  intro stale stale' staleAlike
  apply (related_firstNext freshAlike).bind
  intro found found' foundAlike
  apply (related_firstNext staleAlike).bind
  intro foundStale foundStale' foundStaleAlike
  have plan : PlanAlike task.materializeKeyMin (clampedMax map task)
      (.ok ⟨freshAvail + staleAvail, task.vsst.numEntries - min task.vsst.numEntries freshAvail -
        min (task.vsst.numEntries - min task.vsst.numEntries freshAvail) staleAvail, .member found foundStale []⟩)
      (.ok ⟨freshAvail + staleAvail, task.vsst.numEntries - min task.vsst.numEntries freshAvail -
        min (task.vsst.numEntries - min task.vsst.numEntries freshAvail) staleAvail, .member found' foundStale' []⟩) :=
    .ok _ _ (.member foundAlike foundStaleAlike (fun k mem => by simp at mem))
  cases foundAlike with
  | none =>
    cases foundStaleAlike with
    | none => exact .done (.error _)
    | some => exact .done plan
  | some => exact .done plan

theorem confined_claims {claims : List ℕ} (inside : ∀ k ∈ claims, lo ≤ k ∧ k ≤ hi) :
    (claims.forM map.claim).Confined (rangeFoot lo hi) fun _ => True := by
  induction claims with
  | nil => exact confined_done trivial
  | cons k claims ih =>
    have here := inside k List.mem_cons_self
    have claimed : (map.claim k).Confined (rangeFoot lo hi) fun _ => True := by
      unfold KeyBitmap.claim KeyBitmap.setBit
      split_ifs
      · exact confined_done trivial
      · exact .fetchOr (fun b set => keyMask_inside here.1 here.2 set) fun v v' _ => .done ⟨rfl, trivial⟩
    apply claimed.bind
    intro _ _
    exact ih fun l mem => inside l (List.mem_cons_of_mem k mem)

theorem finishFile_claims (selector selector' : Selector) {own : Selector} (eq : own.claims = s.selector.claims) :
    finishFile cfg io task ⟨freeCapacity, shortfall, selector'⟩ { s with selector := own } res =
      finishFile cfg io task ⟨freeCapacity, shortfall, selector⟩ s res := by
  simp only [finishFile, FileState.keysInFile, eq]
  rfl

theorem related_finishMember (alike : StateAlike lo hi s s') :
    Related (rangeFoot lo hi) Eq (finishFile cfg io task ⟨freeCapacity, shortfall, selector⟩ s res)
      (finishFile cfg io task ⟨freeCapacity, shortfall, selector'⟩ s' res) := by
  obtain ⟨other, rfl, selectors⟩ := alike
  have claims := selectors.claims
  rw [finishFile_claims selector selector' claims.1]
  apply Prog.Confined.within (Q := fun _ => True)
  unfold finishFile
  by_cases mismatch : cfg.selection ≠ .model ∧ (s.keysInFile + shortfall ≠ task.vsst.numEntries ∨ s.skipped ≠ 0)
  · simp only [if_pos mismatch]
    exact confined_done trivial
  simp only [if_neg mismatch]
  by_cases empty : s.keysInFile = 0
  · rw [if_pos empty]
    exact confined_done trivial
  rw [if_neg empty]
  by_cases fails : (!io.finishes) = true
  · rw [if_pos fails]
    exact confined_done trivial
  rw [if_neg fails]
  apply (confined_claims claims.2).bind
  intro _ _
  exact confined_done trivial

theorem memberFile_within (mem : cfg.selection = .membership) :
    (materializeFile cfg task).Within (rangeFoot task.materializeKeyMin (clampedMax cfg.map task)) := by
  unfold materializeFile
  split_ifs
  · exact .done rfl
  · exact .done rfl
  · exact .done rfl
  · have planned : Related (rangeFoot task.materializeKeyMin (clampedMax cfg.map task))
        (PlanAlike task.materializeKeyMin (clampedMax cfg.map task)) (planFile cfg task) (planFile cfg task) := by
      simp only [planFile, mem]
      exact related_planMembership cfg.map
    apply planned.bind
    intro plan plan' plans
    cases plans with
    | error => exact .done rfl
    | ok _ _ selectors =>
      split_ifs
      · exact .done rfl
      · apply (related_memberLoop _ _ ⟨_, rfl, selectors⟩).bind
        intro s s' states
        exact related_finishMember states

end VcompProof
