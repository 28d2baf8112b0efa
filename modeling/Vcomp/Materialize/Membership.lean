import Vcomp.Materialize.CursorConfinement
import Vcomp.Materialize.UniqueKeys

namespace VcompProof

open VcompModel SharedWords Bitmap SortBy List

def mergeKeys (fresh stale : List ℕ) : List ℕ := fresh.merge stale fun a b => decide (a ≤ b)

theorem mergeKeys_perm (fresh stale : List ℕ) : (mergeKeys fresh stale).Perm (fresh ++ stale) :=
  merge_perm_append _

variable {fresh stale : List ℕ} {k : ℕ}

theorem mem_mergeKeys : k ∈ mergeKeys fresh stale ↔ k ∈ fresh ∨ k ∈ stale := by
  rw [(mergeKeys_perm fresh stale).mem_iff, mem_append]

theorem mergeKeys_sorted (sortedFresh : fresh.Pairwise (· < ·)) (sortedStale : stale.Pairwise (· < ·))
    (apart : ∀ k ∈ fresh, k ∉ stale) : (mergeKeys fresh stale).Pairwise (· < ·) := by
  have nodup : (mergeKeys fresh stale).Nodup := by
    rw [(mergeKeys_perm fresh stale).nodup_iff]
    exact List.Nodup.append (sortedFresh.imp ne_of_lt) (sortedStale.imp ne_of_lt) apart
  have ordered : (mergeKeys fresh stale).Pairwise fun a b => decide (a ≤ b) = true := by
    apply pairwise_merge
    · intro a b c
      simp only [decide_eq_true_iff]
      exact le_trans
    · intro a b
      simp only [Bool.or_eq_true, decide_eq_true_iff]
      exact le_total a b
    · exact sortedFresh.imp fun lt => decide_eq_true lt.le
    · exact sortedStale.imp fun lt => decide_eq_true lt.le
  apply (ordered.and nodup).imp
  intro a b both
  exact lt_of_le_of_ne (of_decide_eq_true both.1) both.2

section

variable {cfg : MaterializeConfig} {io : SstIo} {task : SSTTask} {m : BitMemory} {s : FileState} {claims : List ℕ}

/-- A file that still has fresh and stale keys to hand out. -/
structure Handing (map : KeyBitmap) (m : BitMemory) (selector : Selector) (claims fresh stale : List ℕ) : Prop where
  selector : ∃ found foundStale, selector = .member found foundStale claims ∧ Yields map m found fresh ∧
    Yields map m foundStale stale

theorem Handing.select {map : KeyBitmap} {rest : List ℕ} (pos : ℕ)
    (handing : Handing map m s.selector claims fresh stale) (next : mergeKeys fresh stale = k :: rest) :
    ∃ selector claims' fresh' stale', (selectKey map task pos s).run m = (.ok (k, selector), m) ∧
      Handing map m selector claims' fresh' stale' ∧ rest = mergeKeys fresh' stale' ∧
      claims' ++ fresh' = claims ++ fresh := by
  obtain ⟨found, foundStale, selectorEq, yields, yieldsStale⟩ := handing.selector
  cases fresh with
  | nil =>
    cases yields
    cases stale with
    | nil => simp [mergeKeys] at next
    | cons l stale =>
      obtain ⟨c, rfl, kept, later⟩ := yieldsStale
      rw [mergeKeys, nil_merge] at next
      cases next
      simp only [selectKey, selectorEq, run_bind, kept]
      exact ⟨_, claims, [], rest, rfl, ⟨⟨none, _, rfl, rfl, later⟩⟩, by rw [mergeKeys, nil_merge], rfl⟩
  | cons f fresh =>
    obtain ⟨c, rfl, kept, later⟩ := yields
    cases stale with
    | nil =>
      cases yieldsStale
      rw [mergeKeys, merge_right] at next
      cases next
      simp only [selectKey, selectorEq, run_bind, kept]
      exact ⟨_, claims ++ [k], rest, [], rfl, ⟨⟨_, none, rfl, later, rfl⟩⟩, by rw [mergeKeys, merge_right], by simp⟩
    | cons l stale =>
      have whole := yieldsStale
      obtain ⟨cStale, rfl, keptStale, laterStale⟩ := yieldsStale
      simp only [selectKey, selectorEq]
      by_cases first : f ≤ l
      · rw [mergeKeys, cons_merge_cons, if_pos (decide_eq_true first)] at next
        cases next
        rw [if_pos first]
        simp only [run_bind, kept]
        exact ⟨_, claims ++ [k], fresh, l :: stale, rfl, ⟨⟨_, _, rfl, later, whole⟩⟩, rfl, by simp⟩
      · rw [mergeKeys, cons_merge_cons, if_neg (by simpa using first)] at next
        cases next
        rw [if_neg first]
        simp only [run_bind, keptStale]
        exact ⟨_, claims, f :: fresh, stale, rfl, ⟨⟨_, _, rfl, ⟨c, rfl, kept, later⟩, laterStale⟩⟩, rfl, rfl⟩

theorem Handing.loop (task : SSTTask) (left pos : ℕ) (increase : KeysIncrease cfg)
    (writes : WritesSucceed io) (emitting : Emitting cfg s) (handing : Handing cfg.map m s.selector claims fresh stale)
    (sorted : (s.emitted ++ mergeKeys fresh stale).Pairwise (· < ·))
    (inDomain : ∀ k ∈ mergeKeys fresh stale, k < cfg.map.keyDomain) (enough : (mergeKeys fresh stale).length ≤ left) :
    ∃ s', (fileLoop cfg io task left pos s).run m = (s', m) ∧ Emitting cfg s' ∧
      s'.emitted = s.emitted ++ mergeKeys fresh stale ∧ s'.selector.claims = claims ++ fresh := by
  induction left generalizing pos s claims fresh stale with
  | zero =>
    have neither : mergeKeys fresh stale = [] := eq_nil_of_length_eq_zero (Nat.le_zero.mp enough)
    have noFresh : fresh = [] := eq_nil_iff_forall_not_mem.mpr fun k mem => by
      have merged := mem_mergeKeys.mpr (.inl mem : k ∈ fresh ∨ k ∈ stale)
      rw [neither] at merged
      nomatch merged
    obtain ⟨found, foundStale, selectorEq, -⟩ := handing.selector
    refine ⟨s, rfl, emitting, by rw [neither, append_nil], ?_⟩
    rw [selectorEq, noFresh, append_nil]
    rfl
  | succ left ih =>
    cases next : mergeKeys fresh stale with
    | nil =>
      have empty : fresh ++ stale = [] := List.Perm.eq_nil (next ▸ (mergeKeys_perm fresh stale).symm)
      obtain ⟨rfl, rfl⟩ := append_eq_nil_iff.mp empty
      obtain ⟨found, foundStale, selectorEq, yields, yieldsStale⟩ := handing.selector
      cases yields
      cases yieldsStale
      have ended : (selectKey cfg.map task pos s).run m = (.error .membershipExhausted, m) := by
        simp only [selectKey, selectorEq]
        rfl
      rw [fileLoop, run_bind, ended]
      refine ⟨_, rfl, { emitting with },
        (append_nil _).symm, ?_⟩
      simp only [selectorEq, append_nil]
      rfl
    | cons k rest =>
      obtain ⟨selector, claims', fresh', stale', selected, handing', restEq, claimsEq⟩ := handing.select pos next
      rw [next] at sorted inDomain enough
      have larger : ∀ last, s.emitted.getLast? = some last → last < k := by
        intro last atEnd
        exact (pairwise_append.mp sorted).2.2 last (mem_of_getLast? atEnd) k mem_cons_self
      have emittingNext : Emitting cfg { s with selector := selector } :=
        { emitting with }
      obtain ⟨s', put, emitting', emitted, selectorEq, -⟩ := putKey_emits increase writes emittingNext
        (inDomain k mem_cons_self) larger
      rw [fileLoop, run_bind, selected]
      simp only [put, if_true]
      have sorted' : (s'.emitted ++ mergeKeys fresh' stale').Pairwise (· < ·) := by
        rw [emitted, ← restEq, append_assoc]
        exact sorted
      rw [restEq, length_cons] at enough
      obtain ⟨s'', looped, emitting'', emitted', claimed⟩ :=
        ih (pos + 1) emitting' (by rw [selectorEq]; exact handing') sorted'
        (fun l mem => inDomain l (mem_cons_of_mem k (restEq ▸ mem))) (by omega)
      refine ⟨s'', looped, emitting'', ?_, claimed.trans claimsEq⟩
      rw [emitted', emitted, append_assoc, restEq]
      rfl

end

variable {res : SSTResult}

section

variable {cfg : MaterializeConfig} {task : SSTTask} {m : BitMemory} {map : KeyBitmap}

def freshOf (map : KeyBitmap) (task : SSTTask) (m : BitMemory) : List ℕ :=
  modeKeys map .newest m task.materializeKeyMin (clampedMax map task)

def staleOf (map : KeyBitmap) (task : SSTTask) (m : BitMemory) : List ℕ :=
  modeKeys map .stale m task.materializeKeyMin (clampedMax map task)

theorem mem_freshOf : k ∈ freshOf map task m ↔ task.materializeKeyMin ≤ k ∧ k ≤ clampedMax map task ∧
    k < map.keyDomain ∧ holds m .present k = true ∧ holds m .claimed k = false := by
  rw [freshOf, modeKeys, mem_rangeKeys, bit_newest, Bool.and_eq_true, Bool.not_eq_true']

theorem mem_staleOf : k ∈ staleOf map task m ↔ task.materializeKeyMin ≤ k ∧ k ≤ clampedMax map task ∧
    k < map.keyDomain ∧ holds m .present k = true ∧ holds m .claimed k = true := by
  rw [staleOf, modeKeys, mem_rangeKeys, bit_stale, Bool.and_eq_true]

theorem run_setBits (map : KeyBitmap) (array : BitArray) (keys : List ℕ) (other : BitArray) (k : ℕ) :
    holds ((keys.forM (map.setBit array)).run m).2 other k =
      (holds m other k || decide (other = array ∧ k < map.keyDomain ∧ k ∈ keys)) := by
  induction keys generalizing m with
  | nil => simp [List.forM]
  | cons key keys ih =>
    change holds ((map.setBit array key >>= fun _ => keys.forM (map.setBit array)).run m).2 other k = _
    rw [run_bind, run_setBit, ih]
    by_cases inDomain : key < map.keyDomain
    · rw [if_pos inDomain, holds_setKey, Bool.or_assoc, ← Bool.decide_or]
      congr 2
      simp only [mem_cons, eq_iff_iff]
      constructor
      · intro either
        rcases either with ⟨eq, rfl⟩ | ⟨eq, inside, mem⟩
        · exact ⟨eq, inDomain, .inl rfl⟩
        · exact ⟨eq, inside, .inr mem⟩
      · intro both
        obtain ⟨eq, inside, rfl | mem⟩ := both
        · exact .inl ⟨eq, rfl⟩
        · exact .inr ⟨eq, inside, mem⟩
    · rw [if_neg inDomain]
      congr 2
      simp only [mem_cons, eq_iff_iff]
      constructor
      · intro both
        exact ⟨both.1, both.2.1, .inr both.2.2⟩
      · intro both
        obtain ⟨eq, inside, rfl | mem⟩ := both
        · exact absurd inside inDomain
        · exact ⟨eq, inside, mem⟩

theorem run_firstKeys {want : ℕ} (mode : MembershipMode) (words : map.words = (map.keyDomain + 63) / 64)
    (pos : 0 < map.keyDomain) (enough : want ≤ (modeKeys map mode m task.materializeKeyMin (clampedMax map task)).length) :
    ∃ c out, (map.newCursor task.materializeKeyMin (clampedMax map task) want mode).run m = (c, m) ∧
      ((map.next c).run m).2 = m ∧ Yields map m ((map.next c).run m).1 out ∧ out.length = want ∧
      out.Sublist (modeKeys map mode m task.materializeKeyMin (clampedMax map task)) := by
  by_cases inDomain : task.materializeKeyMin < map.keyDomain
  · have upper : clampedMax map task < map.keyDomain := clampedMax_lt pos
    obtain ⟨c, ran, now, wantEq, emitted, seen⟩ := run_newCursor words inDomain (fun k _ _ => by omega) enough
    obtain ⟨kept, out, yields, length, sub, -⟩ := now.yields (by omega)
    rw [seen, drop_zero] at sub
    exact ⟨c, out, ran, kept, yields, by omega, sub⟩
  · have nothing : modeKeys map mode m task.materializeKeyMin (clampedMax map task) = [] := by
      rw [modeKeys, rangeKeys, if_pos (.inr (not_lt.mp inDomain))]
    rw [nothing] at enough ⊢
    obtain rfl : want = 0 := Nat.le_zero.mp enough
    have next : ∀ c : Cursor, c.want = 0 → map.next c = pure none := by
      intro c zero
      rw [KeyBitmap.next, if_pos (.inl zero)]
    have ran : (map.newCursor task.materializeKeyMin (clampedMax map task) 0 mode).run m =
        (⟨clampedMax map task, 0, mode, 0, map.words, 0, 0, 0⟩, m) := by
      rw [KeyBitmap.newCursor, run_bind, run_countPresent, nothing, if_neg inDomain]
      rfl
    refine ⟨_, [], ran, ?_, ?_, rfl, nil_sublist _⟩
    · rw [next _ rfl]
      rfl
    · rw [next _ rfl]
      rfl

/-- What a file in membership mode emits and claims. -/
structure MemberFile (cfg : MaterializeConfig) (task : SSTTask) (m : BitMemory) (res : SSTResult) (m' : BitMemory) : Prop where
  fresh : res.fresh.Sublist (freshOf cfg.map task m)
  freshCount : res.fresh.length = min task.vsst.numEntries (freshOf cfg.map task m).length
  emitted : ∃ stale, stale.Sublist (staleOf cfg.map task m) ∧
    stale.length = min (task.vsst.numEntries - res.fresh.length) (staleOf cfg.map task m).length ∧
    res.emitted = mergeKeys res.fresh stale
  memory : ∀ array k, holds m' array k = (holds m array k || decide (array = .claimed ∧ k ∈ res.fresh))
  counted : res.reportStatus ≠ .uniqueCountMismatch

theorem memberFile_none (noFresh : res.fresh = []) (nothing : res.emitted = [])
    (count : min task.vsst.numEntries (freshOf cfg.map task m).length = 0)
    (countStale : min task.vsst.numEntries (staleOf cfg.map task m).length = 0)
    (counted : res.reportStatus ≠ .uniqueCountMismatch) : MemberFile cfg task m res m where
  fresh := by rw [noFresh]; exact nil_sublist _
  freshCount := by rw [noFresh, count]; rfl
  emitted := ⟨[], nil_sublist _, by rw [noFresh, length_nil, Nat.sub_zero, countStale],
    by rw [nothing, noFresh, mergeKeys, nil_merge]⟩
  memory array k := by simp [noFresh]
  counted := counted

theorem run_planMembership (words : map.words = (map.keyDomain + 63) / 64) (pos : 0 < map.keyDomain) :
    ∃ fresh stale, fresh.Sublist (freshOf map task m) ∧
      fresh.length = min task.vsst.numEntries (freshOf map task m).length ∧ stale.Sublist (staleOf map task m) ∧
      stale.length = min (task.vsst.numEntries - fresh.length) (staleOf map task m).length ∧
      ((fresh = [] ∧ stale = [] ∧ ∃ ended, (planMembership map task).run m = (.error ended, m) ∧
          ended.reportStatus = .skipped) ∨
        (fresh ++ stale ≠ [] ∧ ∃ plan, (planMembership map task).run m = (.ok plan, m) ∧
          plan.shortfall = task.vsst.numEntries - fresh.length - stale.length ∧
          Handing map m plan.selector [] fresh stale)) := by
  obtain ⟨c, fresh, ran, kept, yields, length, sub⟩ := run_firstKeys .newest words pos
    (min_le_right task.vsst.numEntries (freshOf map task m).length)
  obtain ⟨c', stale, ran', kept', yields', length', sub'⟩ := run_firstKeys .stale words pos
    (min_le_right (task.vsst.numEntries - min task.vsst.numEntries (freshOf map task m).length)
      (staleOf map task m).length)
  refine ⟨fresh, stale, sub, length, sub', by rw [length', length], ?_⟩
  have freshCounted : (map.countPresent task.materializeKeyMin (clampedMax map task) .newest).run m =
      ((freshOf map task m).length, m) := run_countPresent .newest
  have staleCounted : (map.countPresent task.materializeKeyMin (clampedMax map task) .stale).run m =
      ((staleOf map task m).length, m) := run_countPresent .stale
  have nothing : ∀ (found : Option (ℕ × Cursor)) (out : List ℕ), Yields map m found out → (found.isNone ↔ out = []) := by
    intro found out yields
    cases out with
    | nil => cases yields; simp
    | cons k out => obtain ⟨c, rfl, -⟩ := yields; simp
  rw [clampedMax] at freshCounted staleCounted ran ran'
  simp only [planMembership, run_bind, freshCounted, staleCounted, ran, ran', kept, kept', nothing _ _ yields,
    nothing _ _ yields']
  by_cases neither : fresh = [] ∧ stale = []
  · rw [if_pos neither]
    exact .inl ⟨neither.1, neither.2, _, rfl, rfl⟩
  · rw [if_neg neither]
    refine .inr ⟨fun empty => neither (append_eq_nil_iff.mp empty), _, rfl, ?_, ⟨⟨_, _, rfl, yields, yields'⟩⟩⟩
    rw [length, length']

theorem run_memberFile (mem : cfg.selection = .membership) (words : cfg.map.words = (cfg.map.keyDomain + 63) / 64)
    (pos : 0 < cfg.map.keyDomain) (increase : KeysIncrease cfg) (writes : ∀ number, WritesSucceed (cfg.io number))
    (modelled : task.vsst.plrModel.empty = false) :
    MemberFile cfg task m ((materializeFile cfg task).run m).1 ((materializeFile cfg task).run m).2 := by
  unfold materializeFile
  by_cases zero : task.vsst.numEntries = 0
  · rw [if_pos zero]
    exact memberFile_none rfl rfl (by omega) (by omega) (by simp)
  rw [if_neg zero, if_neg (by simp [modelled])]
  by_cases reversed : task.materializeKeyMin > task.materializeKeyMax
  · have past : task.materializeKeyMin > clampedMax cfg.map task := by
      unfold clampedMax
      split_ifs <;> omega
    have noFresh : freshOf cfg.map task m = [] := by rw [freshOf, modeKeys, rangeKeys, if_pos (.inl past)]
    have noStale : staleOf cfg.map task m = [] := by rw [staleOf, modeKeys, rangeKeys, if_pos (.inl past)]
    rw [if_pos reversed]
    exact memberFile_none rfl rfl (by simp [noFresh]) (by simp [noStale]) (by simp)
  rw [if_neg reversed, run_bind, planFile, mem]
  obtain ⟨fresh, stale, subFresh, freshLength, subStale, staleLength, planned⟩ :=
    run_planMembership (m := m) words pos
  rcases planned with ⟨rfl, rfl, ended, planned, status⟩ | ⟨ne, plan, planned, shortfall, handing⟩
  · rw [planned]
    apply memberFile_none rfl rfl freshLength.symm
    · rw [length_nil] at staleLength
      omega
    · change ended.reportStatus ≠ _
      rw [status]
      decide
  rw [planned]
  have freshKey : ∀ k ∈ fresh, k < cfg.map.keyDomain ∧ holds m .claimed k = false := by
    intro k inFresh
    obtain ⟨-, -, inDomain, -, unclaimed⟩ := mem_freshOf.mp (subFresh.subset inFresh)
    exact ⟨inDomain, unclaimed⟩
  have staleKey : ∀ k ∈ stale, k < cfg.map.keyDomain ∧ holds m .claimed k = true := by
    intro k inStale
    obtain ⟨-, -, inDomain, -, claimed⟩ := mem_staleOf.mp (subStale.subset inStale)
    exact ⟨inDomain, claimed⟩
  have sorted : (mergeKeys fresh stale).Pairwise (· < ·) := by
    apply mergeKeys_sorted ((rangeKeys_sorted _ _ _ _).sublist subFresh) ((rangeKeys_sorted _ _ _ _).sublist subStale)
    intro k inFresh inStale
    have differ := (freshKey k inFresh).2.symm.trans (staleKey k inStale).2
    cases differ
  have merged : (mergeKeys fresh stale).length = fresh.length + stale.length := by
    rw [(mergeKeys_perm fresh stale).length_eq, length_append]
  obtain ⟨s, looped, emitting, emitted, claimed⟩ := handing.loop task task.vsst.numEntries 0 increase
    (writes task.realFnum) (emitting_start cfg plan.selector) sorted
    (fun k inMerge => (mem_mergeKeys.mp inMerge).elim (fun f => (freshKey k f).1) fun f => (staleKey k f).1)
    (by omega)
  have keys : s.keysInFile = fresh.length + stale.length := by
    rw [FileState.keysInFile, emitted, ← merged]
    rfl
  have count : fresh.length + stale.length ≠ 0 := by
    rw [← length_append]
    exact fun neither => ne (eq_nil_of_length_eq_zero neither)
  have counted : s.keysInFile + plan.shortfall = task.vsst.numEntries := by omega
  obtain ⟨res, finished, emittedEq, freshEq, -, status⟩ := run_finishFile cfg m plan
    { fileNumber := task.realFnum, level := task.level } (writes task.realFnum) counted emitting.skipped (by omega)
  change MemberFile cfg task m (Prog.run (if (!(cfg.io task.realFnum).opens) = true then _ else _) m).1
    (Prog.run (if (!(cfg.io task.realFnum).opens) = true then _ else _) m).2
  rw [if_neg (by simp [(writes task.realFnum).opens]), run_bind, looped, finished]
  rw [claimed, nil_append] at freshEq
  refine ⟨by rw [freshEq]; exact subFresh, by rw [freshEq, freshLength],
    ⟨stale, subStale, by rw [freshEq, staleLength], ?_⟩, ?_, ?_⟩
  · rw [emittedEq, emitted, freshEq]
    rfl
  · intro array k
    rw [claimed, nil_append, freshEq]
    change holds ((fresh.forM (cfg.map.setBit .claimed)).run m).2 array k = _
    rw [run_setBits]
    congr 2
    simp only [eq_iff_iff]
    constructor
    · intro both
      exact ⟨both.1, both.2.2⟩
    · intro both
      exact ⟨both.1, (freshKey k both.2).1, both.2⟩
  · rcases status with written | written <;> rw [written] <;> decide

end

variable {cfg : MaterializeConfig} {tasks : List SSTTask} {m : BitMemory}

theorem memberRun (mem : cfg.selection = .membership) (words : cfg.map.words = (cfg.map.keyDomain + 63) / 64)
    (pos : 0 < cfg.map.keyDomain) (increase : KeysIncrease cfg) (writes : ∀ number, WritesSucceed (cfg.io number))
    (modelled : ∀ task ∈ tasks, task.vsst.plrModel.empty = false) {i : ℕ} {task : SSTTask}
    (atTask : tasks[i]? = some task) (atRes : (runAll (tasks.map (materializeFile cfg)) m).1[i]? = some res) :
    ∃ before after, MemberFile cfg task before res after ∧ (∀ k, holds before .present k = holds m .present k) ∧
      ∀ k, holds before .claimed k = (holds m .claimed k ||
        decide (k ∈ ((runAll (tasks.map (materializeFile cfg)) m).1.take i).flatMap (·.fresh))) := by
  induction tasks generalizing m i with
  | nil => nomatch atTask
  | cons first tasks ih =>
    have file : MemberFile cfg first m _ _ :=
      run_memberFile mem words pos increase writes (modelled first mem_cons_self)
    rw [map_cons, runAll_cons] at atRes ⊢
    generalize (materializeFile cfg first).run m = out at file atRes ⊢
    cases i with
    | zero =>
      cases atTask
      cases atRes
      exact ⟨m, out.2, file, fun k => rfl, fun k => by simp⟩
    | succ i =>
      obtain ⟨before, after, there, present, claimed⟩ :=
        ih (fun task inRest => modelled task (mem_cons_of_mem _ inRest)) atTask atRes
      refine ⟨before, after, there, ?_, ?_⟩
      · intro k
        rw [present, file.memory]
        simp
      · intro k
        rw [claimed, file.memory]
        simp [true_and, take_succ_cons, flatMap_cons, mem_append, Bool.decide_or, Bool.or_assoc]

def ingestedIn (ids : List ℕ) (lo hi : ℕ) : List ℕ := ids.dedup.filter fun k => decide (lo ≤ k ∧ k ≤ hi)

variable {ids : List ℕ}

def ingested (map : KeyBitmap) (ids : List ℕ) : BitMemory := ((ids.forM map.mark).run fun _ => 0).2

theorem holds_ingested (map : KeyBitmap) (ids : List ℕ) (array : BitArray) (k : ℕ) :
    holds (ingested map ids) array k = decide (array = .present ∧ k < map.keyDomain ∧ k ∈ ids) := by
  have marks := run_setBits (m := fun _ => 0) map .present ids array k
  change holds (ingested map ids) array k = _ at marks
  rw [marks]
  simp [holds, bit]

/-- `Create` makes such a bitmap, and `Mark` keeps it. -/
theorem membershipBitmap_ingested {map : KeyBitmap} {maxBytes : ℕ}
    (created : KeyBitmap.create map.keyDomain maxBytes = .ok map)
    (fits : map.keyDomain + 63 < word64) (ids : List ℕ) : MembershipBitmap map (ingested map ids) where
  words := (create_words created fits).2
  clear k past _ := by
    rw [holds_ingested]
    simp [not_lt.mpr past]

structure FileTurn (map : KeyBitmap) (ids earlier : List ℕ) (task : SSTTask) (res : SSTResult) : Prop where
  sorted : res.emitted.Pairwise (· < ·)
  count : res.emitted.length =
    min task.vsst.numEntries (ingestedIn ids task.materializeKeyMin (clampedMax map task)).length
  counted : res.reportStatus ≠ .uniqueCountMismatch
  inside : ∀ k ∈ res.emitted, k ∈ ids ∧ task.materializeKeyMin ≤ k ∧ k ≤ task.materializeKeyMax ∧ k < map.keyDomain
  distinct : res.fresh.Nodup
  freshNew : ∀ k ∈ res.fresh, k ∈ res.emitted ∧ k ∉ earlier
  stale : ∀ k ∈ res.emitted, k ∉ res.fresh → k ∈ earlier
  spent : ∀ k ∈ ids, task.materializeKeyMin ≤ k → k ≤ clampedMax map task → k ∉ res.emitted → k ∉ earlier →
    res.fresh.length = task.vsst.numEntries

theorem MemberFile.turn {earlier : List ℕ} {task : SSTTask} {before after : BitMemory}
    (pos : 0 < cfg.map.keyDomain) (file : MemberFile cfg task before res after)
    (present : ∀ k, holds before .present k = decide (k < cfg.map.keyDomain ∧ k ∈ ids))
    (claimed : ∀ k, holds before .claimed k = decide (k ∈ earlier)) : FileTurn cfg.map ids earlier task res := by
  obtain ⟨stale, subStale, staleCount, emitted⟩ := file.emitted
  have upper : clampedMax cfg.map task < cfg.map.keyDomain := clampedMax_lt pos
  have inRange : ∀ {k : ℕ} {taken : Prop}, (task.materializeKeyMin ≤ k ∧ k ≤ clampedMax cfg.map task ∧
      k < cfg.map.keyDomain ∧ (k < cfg.map.keyDomain ∧ k ∈ ids) ∧ taken) ↔
      (task.materializeKeyMin ≤ k ∧ k ≤ clampedMax cfg.map task ∧ k ∈ ids) ∧ taken := by
    intro k taken
    have inDomain : k ≤ clampedMax cfg.map task → k < cfg.map.keyDomain := upper.trans_le'
    tauto
  have freshKey : ∀ k, k ∈ freshOf cfg.map task before ↔
      (task.materializeKeyMin ≤ k ∧ k ≤ clampedMax cfg.map task ∧ k ∈ ids) ∧ k ∉ earlier := by
    intro k
    rw [mem_freshOf, present, claimed, decide_eq_true_iff, decide_eq_false_iff_not, inRange]
  have staleKey : ∀ k, k ∈ staleOf cfg.map task before ↔
      (task.materializeKeyMin ≤ k ∧ k ≤ clampedMax cfg.map task ∧ k ∈ ids) ∧ k ∈ earlier := by
    intro k
    rw [mem_staleOf, present, claimed, decide_eq_true_iff, decide_eq_true_iff, inRange]
  have sortedFresh : (freshOf cfg.map task before).Pairwise (· < ·) := rangeKeys_sorted _ _ _ _
  have sortedStale : (staleOf cfg.map task before).Pairwise (· < ·) := rangeKeys_sorted _ _ _ _
  have emittedKey : ∀ k, k ∈ res.emitted ↔ k ∈ res.fresh ∨ k ∈ stale := by
    intro k
    rw [emitted, mem_mergeKeys]
  -- the ingested keys of the range are the fresh and the stale ones
  have total : (ingestedIn ids task.materializeKeyMin (clampedMax cfg.map task)).length =
      (freshOf cfg.map task before).length + (staleOf cfg.map task before).length := by
    rw [← length_append]
    apply List.Perm.length_eq
    rw [ingestedIn, perm_ext_iff_of_nodup ((nodup_dedup ids).filter _)
      (List.Nodup.append (sortedFresh.imp ne_of_lt) (sortedStale.imp ne_of_lt) fun k inFresh inStale =>
        ((freshKey k).mp inFresh).2 ((staleKey k).mp inStale).2)]
    intro k
    rw [mem_filter, mem_dedup, decide_eq_true_iff, mem_append, freshKey, staleKey]
    constructor
    · intro ⟨inIds, low, high⟩
      by_cases taken : k ∈ earlier
      · exact .inr ⟨⟨low, high, inIds⟩, taken⟩
      · exact .inl ⟨⟨low, high, inIds⟩, taken⟩
    · intro either
      rcases either with ⟨⟨low, high, inIds⟩, -⟩ | ⟨⟨low, high, inIds⟩, -⟩ <;> exact ⟨inIds, low, high⟩
  have length : res.emitted.length = res.fresh.length + stale.length := by
    rw [emitted, (mergeKeys_perm _ _).length_eq, length_append]
  have freshCount := file.freshCount
  have range : clampedMax cfg.map task ≤ task.materializeKeyMax := by
    unfold clampedMax
    split_ifs <;> omega
  refine ⟨?_, by omega, file.counted, ?_, (sortedFresh.sublist file.fresh).imp ne_of_lt, ?_, ?_, ?_⟩
  · rw [emitted]
    apply mergeKeys_sorted (sortedFresh.sublist file.fresh) (sortedStale.sublist subStale)
    intro k inFresh inStale
    exact ((freshKey k).mp (file.fresh.subset inFresh)).2 ((staleKey k).mp (subStale.subset inStale)).2
  · intro k mem
    rcases (emittedKey k).mp mem with inFresh | inStale
    · obtain ⟨⟨low, high, inIds⟩, -⟩ := (freshKey k).mp (file.fresh.subset inFresh)
      exact ⟨inIds, low, by omega, by omega⟩
    · obtain ⟨⟨low, high, inIds⟩, -⟩ := (staleKey k).mp (subStale.subset inStale)
      exact ⟨inIds, low, by omega, by omega⟩
  · intro k inFresh
    exact ⟨(emittedKey k).mpr (.inl inFresh), ((freshKey k).mp (file.fresh.subset inFresh)).2⟩
  · intro k mem notFresh
    rcases (emittedKey k).mp mem with inFresh | inStale
    · exact absurd inFresh notFresh
    · exact ((staleKey k).mp (subStale.subset inStale)).2
  · intro k inIds low high notEmitted notEarlier
    by_contra unspent
    -- a file with budget left emits all of its fresh keys
    have all : res.fresh = freshOf cfg.map task before := file.fresh.eq_of_length (by omega)
    have inFresh : k ∈ res.fresh := by
      rw [all]
      exact (freshKey k).mpr ⟨⟨low, high, inIds⟩, notEarlier⟩
    exact notEmitted ((emittedKey k).mpr (.inl inFresh))

/-- The guarantees of exact membership over all files of a run. -/
structure MembershipOutcome (map : KeyBitmap) (ids : List ℕ) (tasks : List SSTTask) (results : List SSTResult) : Prop where
  length : results.length = tasks.length
  ingested : ∀ res ∈ results, ∀ k ∈ res.emitted, k ∈ ids
  counts : ∀ (i : ℕ) task res, tasks[i]? = some task → results[i]? = some res →
    res.emitted.Pairwise (· < ·) ∧
      res.emitted.length = min task.vsst.numEntries (ingestedIn ids task.materializeKeyMin (clampedMax map task)).length ∧
      res.reportStatus ≠ .uniqueCountMismatch
  freshOnce : (results.flatMap (·.fresh)).Nodup ∧ ∀ res ∈ results, res.fresh ⊆ res.emitted
  stale : ∀ (i : ℕ) task res, tasks[i]? = some task → results[i]? = some res → ∀ k ∈ res.emitted, k ∉ res.fresh →
    ∃ (j : ℕ) (task' : SSTTask) (res' : SSTResult), j < i ∧ tasks[j]? = some task' ∧ results[j]? = some res' ∧
      k ∈ res'.emitted ∧ (task'.level < task.level ∨ task'.level = 0 ∧ task.level = 0)
  spent : ∀ k ∈ ids, (∀ res ∈ results, k ∉ res.emitted) → ∀ (i : ℕ) task res, tasks[i]? = some task →
    results[i]? = some res → task.materializeKeyMin ≤ k → k ≤ clampedMax map task →
      res.fresh.length = task.vsst.numEntries

theorem membershipOutcome {map : KeyBitmap} {results : List SSTResult} (fits : map.keyDomain ≤ uint64Max)
    (length : results.length = tasks.length) (levels : (tasks.map (·.level)).Pairwise (· ≤ ·)) (apart : LevelTasksApart tasks)
    (turns : ∀ (i : ℕ) task res, tasks[i]? = some task → results[i]? = some res →
      FileTurn map ids ((results.take i).flatMap (·.fresh)) task res) : MembershipOutcome map ids tasks results := by
  have turnOf : ∀ (i : ℕ) res, results[i]? = some res →
      ∃ task, tasks[i]? = some task ∧ FileTurn map ids ((results.take i).flatMap (·.fresh)) task res := by
    intro i res atRes
    have lt : i < tasks.length := by
      rw [← length]
      exact (List.getElem?_eq_some_iff.mp atRes).1
    exact ⟨tasks[i], List.getElem?_eq_getElem lt, turns i _ res (List.getElem?_eq_getElem lt) atRes⟩
  have turnIn : ∀ res ∈ results, ∃ earlier task, FileTurn map ids earlier task res := by
    intro res mem
    obtain ⟨i, atRes⟩ := mem_iff_getElem?.mp mem
    obtain ⟨task, -, turn⟩ := turnOf i res atRes
    exact ⟨_, task, turn⟩
  have claimedBy : ∀ (i : ℕ) k, k ∈ (results.take i).flatMap (·.fresh) →
      ∃ (j : ℕ) (res' : SSTResult), j < i ∧ results[j]? = some res' ∧ k ∈ res'.fresh := by
    intro i k mem
    obtain ⟨res', taken, inFresh⟩ := mem_flatMap.mp mem
    obtain ⟨j, atTake⟩ := mem_iff_getElem?.mp taken
    rw [getElem?_take] at atTake
    split_ifs at atTake with before
    exact ⟨j, res', before, atTake, inFresh⟩
  refine ⟨length, ?_, fun i task res atTask atRes => ?_, ⟨?_, ?_⟩, ?_, ?_⟩
  · intro res mem k emitted
    obtain ⟨earlier, task, turn⟩ := turnIn res mem
    exact (turn.inside k emitted).1
  · have turn := turns i task res atTask atRes
    exact ⟨turn.sorted, turn.count, turn.counted⟩
  · rw [nodup_flatMap]
    constructor
    · intro res mem
      obtain ⟨earlier, task, turn⟩ := turnIn res mem
      exact turn.distinct
    · rw [pairwise_iff_getElem]
      intro j i belowJ belowI before k first again
      obtain ⟨task, -, turn⟩ := turnOf i _ (getElem?_eq_getElem belowI)
      apply (turn.freshNew k again).2
      apply mem_flatMap.mpr
      have taken : (results.take i)[j]? = some results[j] := by
        rw [getElem?_take_of_lt before, getElem?_eq_getElem belowJ]
      exact ⟨_, mem_of_getElem? taken, first⟩
  · intro res mem k inFresh
    obtain ⟨earlier, task, turn⟩ := turnIn res mem
    exact (turn.freshNew k inFresh).1
  · intro i task res atTask atRes k emitted notFresh
    have turn := turns i task res atTask atRes
    obtain ⟨j, res', before, atRes', inFresh⟩ := claimedBy i k (turn.stale k emitted notFresh)
    obtain ⟨task', atTask', turn'⟩ := turnOf j res' atRes'
    have emitted' := (turn'.freshNew k inFresh).1
    obtain ⟨belowJ, taskJ⟩ := List.getElem?_eq_some_iff.mp atTask'
    obtain ⟨belowI, taskI⟩ := List.getElem?_eq_some_iff.mp atTask
    have ordered : task'.level ≤ task.level := by
      have pair := List.pairwise_iff_getElem.mp (List.pairwise_map.mp levels) j i belowJ belowI before
      rwa [taskJ, taskI] at pair
    have disjoint := pairwise_iff_getElem.mp apart j i belowJ belowI before
    rw [taskJ, taskI] at disjoint
    refine ⟨j, task', res', before, atTask', atRes', emitted', ?_⟩
    by_contra sameDeep
    obtain ⟨-, low', high', inDomain⟩ := turn'.inside k emitted'
    obtain ⟨-, low, high, -⟩ := turn.inside k emitted
    exact disjoint (by omega) (by omega) k (by omega) low' high' low high
  · intro k inIds nowhere i task res atTask atRes low high
    have turn := turns i task res atTask atRes
    apply turn.spent k inIds low high (nowhere res (mem_of_getElem? atRes))
    intro earlier
    obtain ⟨j, res', -, atRes', inFresh⟩ := claimedBy i k earlier
    obtain ⟨task', -, turn'⟩ := turnOf j res' atRes'
    exact nowhere res' (mem_of_getElem? atRes') (turn'.freshNew k inFresh).1

theorem membership_materialized (cfg : MaterializeConfig) (maxBytes : ℕ) (member : cfg.selection = .membership)
    (created : KeyBitmap.create cfg.map.keyDomain maxBytes = .ok cfg.map) (fits : cfg.map.keyDomain + 63 < word64)
    (increase : KeysIncrease cfg) (writes : ∀ number, WritesSucceed (cfg.io number)) (ids : List ℕ) (requestedWorkers : ℕ)
    (deepFirst : Bool) (tasks : List SSTTask) (levels : (tasks.map (·.level)).Pairwise (· ≤ ·))
    (apart : LevelTasksApart tasks) (modelled : ∀ task ∈ tasks, task.vsst.plrModel.empty = false) :
    let phase := materializePhase cfg requestedWorkers deepFirst tasks (ingested cfg.map ids)
    (∀ s, Relation.ReflTransGen Pool.Step phase s → s.Final ∨ ∃ s', Pool.Step s s') ∧
      (∀ run : ℕ → Pool 64 (BitArray × ℕ) SSTResult, run 0 = phase → ∃ i, ¬ Pool.Step (run i) (run (i + 1))) ∧
      ∃ results, MembershipOutcome cfg.map ids tasks results ∧
        ∀ s, Relation.ReflTransGen Pool.Step phase s → s.Final → s.outcome = results.map some := by
  intro phase
  obtain ⟨pos, words⟩ := create_words created fits
  have small : cfg.map.keyDomain ≤ uint64Max := by unfold uint64Max; omega
  have inOrder : (phaseGroups cfg deepFirst tasks).flatten = tasks := by
    rw [phaseGroups, if_neg (by simp [member])]
    exact flatten_splitBy _ _
  refine ⟨fun s _ => ?_, fun run _ => Pool.no_endless_run run,
    (runAll (tasks.map (materializeFile cfg)) (ingested cfg.map ids)).1, ?_, ?_⟩
  · by_cases final : s.Final
    · exact .inl final
    · exact .inr (Pool.progress final)
  · apply membershipOutcome small (by rw [runAll_length, length_map]) levels apart
    intro i task res atTask atRes
    obtain ⟨before, after, file, present, claimed⟩ :=
      memberRun member words pos increase writes modelled atTask atRes
    apply file.turn pos
    · intro k
      rw [present, holds_ingested]
      simp
    · intro k
      rw [claimed, holds_ingested]
      simp
  · intro s reach final
    have serial := Pool.final_serial (fun g inGroups => phase_serializable small pos apart
      (fun task _ => memberFile_within member) inGroups) reach final
    rw [phase_jobs, inOrder] at serial
    exact serial.1

def memberConfig (keySize : ℕ) (map : KeyBitmap) : MaterializeConfig :=
  ⟨⟨keySize, 0, 0⟩, .membership, map, fun _ => ⟨true, fun _ => true, true⟩⟩

theorem membership_materialized_levels : let tasks := [rampFile 9 0 15 25 4, rampFile 7 1 10 20 8, rampFile 8 1 21 30 3]
    let cfg := memberConfig 16 ⟨300, 5⟩
    let ids := [12, 30, 16, 18, 12, 22, 24, 400]
    ∃ results, MembershipOutcome cfg.map ids tasks results ∧
      ∀ s, Relation.ReflTransGen Pool.Step (materializePhase cfg 4 false tasks (ingested cfg.map ids)) s → s.Final →
        s.outcome = results.map some :=
  (membership_materialized (memberConfig 16 ⟨300, 5⟩) 40 rfl rfl (by decide) (keysIncrease_plain rfl (by decide))
    (fun _ => ⟨rfl, fun _ => rfl, rfl⟩) [12, 30, 16, 18, 12, 22, 24, 400] 4 false
    [rampFile 9 0 15 25 4, rampFile 7 1 10 20 8, rampFile 8 1 21 30 3] (by decide)
    (by
      refine pairwise_cons.mpr ⟨?_, pairwise_cons.mpr ⟨?_, pairwise_singleton _ _⟩⟩
      · intro task _ _ deep
        exact absurd rfl deep
      · intro task inRest _ _ key _ _ upper lower _
        rw [mem_singleton] at inRest
        subst inRest
        simp only [rampFile, newTask] at upper lower
        omega)
    (by decide)).2.2

theorem memberFile_reached (cfg : MaterializeConfig) {task : SSTTask} (mem : cfg.selection = .membership)
    (fits : cfg.map.keyDomain ≤ uint64Max) (pos : 0 < cfg.map.keyDomain) :
    ∃ s, Relation.ReflTransGen Pool.Step (materializePhase cfg 1 false [task] (ingested cfg.map ids)) s ∧ s.Final ∧
      s.outcome = [some ((materializeFile cfg task).run (ingested cfg.map ids)).1] := by
  obtain ⟨s, reach, final⟩ := Pool.exists_final (materializePhase cfg 1 false [task] (ingested cfg.map ids))
  have serial := Pool.final_serial (fun g inGroups => phase_serializable fits pos (pairwise_singleton _ _)
    (fun task _ => memberFile_within mem) inGroups) reach final
  exact ⟨s, reach, final, serial.1⟩

/-- One-byte keys over 300 ids, a file without a model, and a word count that wraps to zero. -/
theorem membership_count_mismatch :
    (∃ s, Relation.ReflTransGen Pool.Step (materializePhase (memberConfig 1 ⟨300, 5⟩) 1 false [rampFile 7 1 250 260 11]
          (ingested ⟨300, 5⟩ (List.range' 250 11))) s ∧ s.Final ∧
        s.outcome.map (Option.map fun res => (res.emitted, res.reportStatus)) =
          [some ([250, 251, 252, 253, 254, 255], .uniqueCountMismatch)]) ∧
      (∃ s, Relation.ReflTransGen Pool.Step (materializePhase (memberConfig 16 ⟨300, 5⟩) 1 false
          [newTask 7 7 1 ⟨⟨[]⟩, [], 5, 5, 1, 0⟩] (ingested ⟨300, 5⟩ [5])) s ∧ s.Final ∧
        s.outcome.map (Option.map fun res => (res.emitted, res.fresh)) = [some ([], [])]) ∧
      KeyBitmap.create (2 ^ 64 - 1) 8 = .ok ⟨2 ^ 64 - 1, 0⟩ ∧
      ∃ s, Relation.ReflTransGen Pool.Step (materializePhase (memberConfig 16 ⟨2 ^ 64 - 1, 0⟩) 1 false [rampFile 7 1 0 64 2]
          (ingested ⟨2 ^ 64 - 1, 0⟩ [0, 64])) s ∧ s.Final ∧
        s.outcome.map (Option.map fun res => (res.emitted, res.reportStatus)) = [some ([0], .uniqueCountMismatch)] := by
  refine ⟨?_, ?_, rfl, ?_⟩
  · obtain ⟨s, reach, final, outcome⟩ := memberFile_reached (memberConfig 1 ⟨300, 5⟩) rfl (by decide) (by decide)
    exact ⟨s, reach, final, by rw [outcome]; decide +kernel⟩
  · obtain ⟨s, reach, final, outcome⟩ := memberFile_reached (memberConfig 16 ⟨300, 5⟩) rfl (by decide) (by decide)
    exact ⟨s, reach, final, by rw [outcome]; decide +kernel⟩
  · obtain ⟨s, reach, final, outcome⟩ := memberFile_reached (memberConfig 16 ⟨2 ^ 64 - 1, 0⟩) rfl (by decide) (by decide)
    exact ⟨s, reach, final, by rw [outcome]; decide +kernel⟩

end VcompProof
