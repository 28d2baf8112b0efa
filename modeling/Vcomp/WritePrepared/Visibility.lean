import Vcomp.Foundation.Transition
import Vcomp.WritePrepared.Invariant

namespace VcompProof.WritePrepared

open VcompModel.WritePrepared VcompModel.WritePrepared.State List Function Option

variable {minUncommitted : ℕ}

namespace Inv

variable {cfg : Config} {top : ℕ} {r : Run}

theorem getCommitEntry_set {s : State} {i : ℕ} (inside : i < s.commitCache.length) (cell : Option CommitEntry) (j : ℕ) :
    getCommitEntry { s with commitCache := s.commitCache.set i cell } j = if i = j then cell else s.getCommitEntry j := by
  rw [getCommitEntry, getCommitEntry]
  split
  next eq =>
    subst eq
    rw [getD_eq_getElem _ _ (by simpa using inside), getElem_set_self]
  next other => rw [getD_eq_getElem?_getD, getElem?_set_ne other, ← getD_eq_getElem?_getD]

theorem insert {prep commit : ℕ} (inv : Inv cfg top r) (above : top ≤ commit) (fresh : r.db.lastPublished < commit)
    (pos : 0 < prep) (order : prep ≤ commit) (none : r.commits prep = none)
    (ready : ∀ entry, r.db.getCommitEntry (prep % cfg.commitCacheSize) = some entry →
      Evicted r.db entry.prepSeq entry.commitSeq) :
    Inv cfg commit
      { r with
        db := { r.db with
          commitCache := r.db.commitCache.set (prep % cfg.commitCacheSize) (some ⟨prep, commit⟩) }
        commits := update r.commits prep (some commit) } := by
  have size : 0 < cfg.commitCacheSize := Nat.two_pow_pos _
  have inside : prep % cfg.commitCacheSize < r.db.commitCache.length := by
    rw [inv.cells]
    exact Nat.mod_lt _ size
  have kept : ∀ p c, r.commits p = some c → update r.commits prep (some commit) p = some c := by
    intro p c known
    rw [update_of_ne (by rintro rfl; rw [none] at known; cases known), known]
  have known_cases : ∀ p c, update r.commits prep (some commit) p = some c → p = prep ∧ c = commit ∨ r.commits p = some c := by
    intro p c known
    by_cases eq : p = prep
    · subst eq
      rw [update_self] at known
      exact .inl ⟨rfl, (some.inj known).symm⟩
    · rw [update_of_ne eq] at known
      exact .inr known
  have still_open : ∀ p, update r.commits prep (some commit) p = Option.none → r.commits p = Option.none := by
    intro p none'
    by_cases eq : p = prep
    · rw [eq, none]
    · rwa [update_of_ne eq] at none'
  exact
    { inv with
      published := fresh.le
      max_le := inv.max_le.trans above
      committed := by
        intro p c known
        rcases known_cases p c known with ⟨rfl, rfl⟩ | known
        · exact ⟨pos, order, le_refl _⟩
        · obtain ⟨pos, order, le⟩ := inv.committed p c known
          exact ⟨pos, order, le.trans above⟩
      cells := by rw [← inv.cells]; exact length_set
      cell := by
        intro i entry inside' cached
        rw [getCommitEntry_set inside] at cached
        split at cached
        next eq =>
          subst eq
          rw [← some.inj cached]
          exact ⟨rfl, update_self ..⟩
        next other =>
          obtain ⟨index, known⟩ := inv.cell i entry inside' cached
          exact ⟨index, kept _ _ known⟩
      found := by
        intro p c known
        rw [getCommitEntry_set inside]
        rcases known_cases p c known with ⟨rfl, rfl⟩ | known
        · exact .inl (if_pos rfl)
        · rcases inv.found p c known with cached | evicted
          · split
            next index =>
              have evicted := ready ⟨p, c⟩ (index ▸ cached)
              exact .inr { evicted with }
            next => exact .inl cached
          · exact .inr { evicted with }
      pending := fun p member' none' => inv.pending p member' (still_open p none')
      delayed_commits := fun p c known => kept p c (inv.delayed_commits p c known)
      min_uncommitted := by
        intro snap live p member' lt
        obtain ⟨c, le, known⟩ := inv.min_uncommitted snap live p member' lt
        exact ⟨c, le, kept p c known⟩
      arrays := { inv.arrays with }
      map_sound := by
        intro x vec found p member'
        obtain ⟨c, known, lt⟩ := inv.map_sound x vec found p member'
        exact ⟨c, kept p c known, lt⟩ }

theorem addCommitted_eq {s : State} {prep commit : ℕ} (fits : ¬cfg.deltaUpperbound ≤ commit - prep + 1) :
    s.addCommitted cfg prep commit =
      let s := (s.getCommitEntry (prep % cfg.commitCacheSize)).elim s (s.evict cfg)
      some { s with commitCache := s.commitCache.set (prep % cfg.commitCacheSize) (some ⟨prep, commit⟩) } := by
  rw [State.addCommitted]
  cases s.getCommitEntry (prep % cfg.commitCacheSize) <;> exact if_neg fits

theorem addCommitted {prep commit : ℕ} {db : State} (inv : Inv cfg top r) (above : top ≤ commit)
    (fresh : r.db.lastPublished < commit)
    (pos : 0 < prep) (order : prep ≤ commit) (none : r.commits prep = none)
    (result : r.db.addCommitted cfg prep commit = some db) :
    Inv cfg commit { r with db := db, commits := update r.commits prep (some commit) } ∧
      db.lastPublished = r.db.lastPublished ∧ db.maxEvictedSeq ≤ top := by
  have size : 0 < cfg.commitCacheSize := Nat.two_pow_pos _
  obtain ⟨next, eq, inv', ready, same⟩ : ∃ next,
      (r.db.getCommitEntry (prep % cfg.commitCacheSize)).elim r.db (r.db.evict cfg) = next ∧
      Inv cfg top { r with db := next } ∧
      (∀ entry, next.getCommitEntry (prep % cfg.commitCacheSize) = some entry → Evicted next entry.prepSeq entry.commitSeq) ∧
      SameCache r.db next := by
    refine ⟨_, rfl, ?_⟩
    cases cached : r.db.getCommitEntry (prep % cfg.commitCacheSize) with
    | none =>
      refine ⟨inv, fun entry found => ?_, rfl, rfl⟩
      rw [elim_none, cached] at found
      cases found
    | some evicted =>
      obtain ⟨inv', gone, same⟩ := inv.evict (inv.cell _ _ (Nat.mod_lt _ size) cached).2
      refine ⟨inv', fun entry found => ?_, same⟩
      rw [elim_some, getCommitEntry, same.cache] at found
      rw [← some.inj (cached.symm.trans found)]
      exact gone
  have fits : ¬cfg.deltaUpperbound ≤ commit - prep + 1 := by
    intro far
    rw [State.addCommitted, if_pos far] at result
    cases result
  rw [addCommitted_eq fits, eq] at result
  obtain rfl := some.inj result
  exact ⟨inv'.insert above (same.published ▸ fresh) pos order none ready, same.published, inv'.max_le⟩

theorem commitAll {commit : ℕ} {preps : List ℕ} {r' : Run} (inv : Inv cfg commit r) (fresh : r.db.lastPublished < commit)
    (result : r.commitAll cfg commit preps = some r') : Inv cfg commit r' ∧ r'.db.lastPublished = r.db.lastPublished := by
  induction preps generalizing r with
  | nil =>
    obtain rfl : r = r' := some.inj result
    exact ⟨inv, rfl⟩
  | cons prep preps ih =>
    rw [Run.commitAll] at result
    split at result
    next allowed =>
      cases added : r.db.addCommitted cfg prep commit with
      | none => rw [added] at result; cases result
      | some db =>
        rw [added] at result
        have between : 0 < prep ∧ prep ≤ commit := by
          rcases allowed.1 with mem | own
          · exact ⟨(inv.prepared prep mem).1, (inv.prepared prep mem).2.trans fresh.le⟩
          · exact ⟨Nat.zero_lt_of_lt own.1, own.2⟩
        obtain ⟨inv', eq, -⟩ := inv.addCommitted (le_refl _) fresh between.1 between.2 allowed.2 added
        obtain ⟨inv'', same'⟩ := ih inv' (by rw [eq]; exact fresh) result
        exact ⟨inv'', same'.trans eq⟩
    next => cases result

theorem weaken {top' : ℕ} (inv : Inv cfg top r) (le : top ≤ top') : Inv cfg top' r :=
  { inv with
    published := inv.published.trans le
    max_le := inv.max_le.trans le
    committed := fun p c known => ⟨(inv.committed p c known).1, (inv.committed p c known).2.1,
      (inv.committed p c known).2.2.trans le⟩ }

theorem publish (inv : Inv cfg top r) : Inv cfg top { r with db := { r.db with lastPublished := top } } :=
  { inv with
    published := le_refl _
    prepared := fun p mem => ⟨(inv.prepared p mem).1, (inv.prepared p mem).2.trans inv.published⟩
    txns := fun p mem => ⟨(inv.txns p mem).1.trans inv.published, (inv.txns p mem).2⟩
    snapshot_le := fun snap live =>
      ⟨(inv.snapshot_le snap live).1.trans inv.published, (inv.snapshot_le snap live).2.trans (Nat.succ_le_succ inv.published)⟩
    found := fun p c known => (inv.found p c known).imp_right fun evicted => { evicted with }
    arrays := { inv.arrays with } }

theorem commit {preps : List ℕ} {more : ℕ} {r' : Run} (inv : Inv cfg r.db.lastPublished r)
    (result : r.commit cfg preps more = some r') : Inv cfg r'.db.lastPublished r' := by
  obtain ⟨mid, all, rfl⟩ := map_eq_some_iff.mp result
  obtain ⟨inv', -⟩ := (inv.weaken (by omega)).commitAll (by omega) all
  exact inv'.publish

theorem prepare (inv : Inv cfg r.db.lastPublished r) : Inv cfg r.prepare.db.lastPublished r.prepare := by
  have beyond : ¬r.db.lastPublished + 1 ≤ r.db.futureMaxEvictedSeq := by
    have := inv.future
    have := inv.max_le
    omega
  have result : r.prepare =
      { r with
        db := { r.db with
          preparedTxns := r.db.preparedTxns ++ [r.db.lastPublished + 1]
          lastPublished := r.db.lastPublished + 1 }
        prepared := r.prepared ++ [r.db.lastPublished + 1] } := by
    rw [Run.prepare, State.addPrepared]
    rw [if_neg beyond]
  have last : ∀ {l : List ℕ} {p : ℕ}, p ∈ l ++ [r.db.lastPublished + 1] → p ∈ l ∨ p = r.db.lastPublished + 1 := by simp
  rw [result]
  exact
    { inv with
      published := le_refl _
      prepared := by
        intro p mem
        rcases last mem with known | rfl
        · exact ⟨(inv.prepared p known).1, (inv.prepared p known).2.trans (Nat.le_succ _)⟩
        · exact ⟨Nat.succ_pos _, le_refl _⟩
      committed := fun p c known =>
        ⟨(inv.committed p c known).1, (inv.committed p c known).2.1, (inv.committed p c known).2.2.trans (Nat.le_succ _)⟩
      max_le := inv.max_le.trans (Nat.le_succ _)
      found := fun p c known => (inv.found p c known).imp_right fun evicted => { evicted with }
      pending := by
        intro p mem none
        rcases last mem with known | rfl
        · exact (inv.pending p known none).imp_left (mem_append_left _)
        · exact .inl (mem_append_right _ (mem_singleton_self _))
      txns_sorted := by
        refine pairwise_append.mpr ⟨inv.txns_sorted, pairwise_singleton _ _, ?_⟩
        intro p mem q here
        rw [mem_singleton.mp here]
        exact Nat.lt_succ_of_le (inv.txns p mem).1
      txns := by
        intro p mem
        rcases last mem with known | rfl
        · exact ⟨(inv.txns p known).1.trans (Nat.le_succ _), (inv.txns p known).2⟩
        · exact ⟨le_refl _, Nat.lt_succ_of_le inv.max_le⟩
      snapshot_le := fun snap live =>
        ⟨(inv.snapshot_le snap live).1.trans (Nat.le_succ _), (inv.snapshot_le snap live).2.trans (Nat.le_succ _)⟩
      min_uncommitted := by
        intro snap live p mem lt
        rcases last mem with known | rfl
        · exact inv.min_uncommitted snap live p known lt
        · exact absurd lt (not_lt.mpr (inv.snapshot_le snap live).2)
      arrays := { inv.arrays with } }

theorem removePrepared {prep : ℕ} {r' : Run} (inv : Inv cfg top r) (result : r.removePrepared prep = some r') :
    Inv cfg top r' ∧ r'.db.lastPublished = r.db.lastPublished ∧ r'.db.maxEvictedSeq = r.db.maxEvictedSeq ∧
      r'.commits = r.commits ∧ r'.prepared = r.prepared := by
  rw [Run.removePrepared, ite_none_left_eq_some] at result
  obtain ⟨committed, result⟩ := result
  obtain rfl := some.inj result
  have other : ∀ p, r.commits p = none → p ≠ prep := fun p none eq => committed (eq ▸ none)
  rw [State.removePrepared]
  split
  next empty =>
    refine ⟨?_, rfl, rfl, rfl, rfl⟩
    exact
      { inv with
        found := fun p c known => (inv.found p c known).imp_right fun evicted => { evicted with }
        pending := fun p mem none =>
          (inv.pending p mem none).imp_left fun known => (mem_erase_of_ne (other p none)).mpr known
        txns_sorted := inv.txns_sorted.sublist erase_sublist
        txns := fun p mem => inv.txns p (mem_of_mem_erase mem)
        arrays := { inv.arrays with } }
  next some =>
    refine ⟨?_, rfl, rfl, rfl, rfl⟩
    exact
      { inv with
        found := by
          intro p c known
          rcases inv.found p c known with cached | evicted
          · exact .inl cached
          · refine .inr ⟨evicted.old, fun mem => ?_, evicted.onRecord⟩
            obtain ⟨ne, mem⟩ := inv.delayed_nodup.mem_erase_iff.mp mem
            exact (AList.lookup_erase_ne ne).trans (evicted.delayed mem)
        pending := fun p mem none =>
          (inv.pending p mem none).imp (fun known => (mem_erase_of_ne (other p none)).mpr known)
            fun known => (mem_erase_of_ne (other p none)).mpr known
        txns_sorted := inv.txns_sorted.sublist erase_sublist
        txns := fun p mem => inv.txns p (mem_of_mem_erase mem)
        delayed_nodup := inv.delayed_nodup.sublist erase_sublist
        delayed_le := fun p mem => inv.delayed_le p (mem_of_mem_erase mem)
        delayed_flag := by
          change (if (r.db.delayedPrepared.erase prep).isEmpty then true else r.db.delayedPreparedEmpty) =
              (r.db.delayedPrepared.erase prep).isEmpty
          rw [inv.delayed_flag]
          cases (r.db.delayedPrepared.erase prep).isEmpty <;> simp [some]
        delayed_commits := by
          intro p c found
          by_cases eq : p = prep
          · subst eq
            cases (AList.lookup_erase _ _).symm.trans found
          · exact inv.delayed_commits p c ((AList.lookup_erase_ne eq).symm.trans found)
        arrays := { inv.arrays with } }

section

theorem smallestUnCommittedSeq_le (inv : Inv cfg top r) {p : ℕ} (mem : p ∈ r.db.preparedTxns ∨ p ∈ r.db.delayedPrepared) :
    r.db.smallestUnCommittedSeq ≤ p := by
  rw [smallestUnCommittedSeq, inv.delayed_flag]
  cases delayed : r.db.delayedPrepared.min? with
  | some first =>
    obtain ⟨first_mem, least⟩ := min?_eq_some_iff.mp delayed
    rw [if_neg (by simpa using ne_nil_of_mem first_mem)]
    rcases mem with recent | old
    · exact (inv.delayed_le first first_mem).trans (inv.txns p recent).2.le
    · exact least p old
  | none =>
    have empty := min?_eq_none_iff.mp delayed
    rw [empty] at mem
    have mem : p ∈ r.db.preparedTxns := by simpa using mem
    have sorted := inv.txns_sorted
    rw [ite_self]
    cases txns : r.db.preparedTxns with
    | nil => rw [txns] at mem; simp at mem
    | cons minPrepare rest =>
      rw [txns] at mem sorted
      refine (min_le_left _ _).trans ?_
      rcases mem_cons.mp mem with rfl | later
      · exact le_refl _
      · exact ((pairwise_cons.mp sorted).1 p later).le

section

variable (inv : Inv cfg r.db.lastPublished r)
include inv

theorem smallestUnCommittedSeq_le_next : r.db.smallestUnCommittedSeq ≤ r.db.lastPublished + 1 := by
  rw [smallestUnCommittedSeq, inv.delayed_flag]
  split
  next first delayed =>
    have mem : first ∈ r.db.delayedPrepared := by
      rw [ite_none_left_eq_some] at delayed
      exact (min?_eq_some_iff.mp delayed.2).1
    exact ((inv.delayed_le first mem).trans inv.max_le).trans (Nat.le_succ _)
  next =>
    split
    · exact le_refl _
    · exact min_le_right _ _

theorem advanceSeqByOne :
    ∃ r', r.advanceSeqByOne cfg = some r' ∧ Inv cfg r'.db.lastPublished r' ∧ r'.db.maxEvictedSeq < r'.db.lastPublished ∧
      r.db.lastPublished ≤ r'.db.lastPublished ∧ ∀ p ∈ r'.prepared, r'.commits p = none → p ∈ r.prepared ∧
        r.commits p = none := by
  have absent : r.prepare.commits (r.db.lastPublished + 1) = none := by
    change r.commits (r.db.lastPublished + 1) = none
    cases known : r.commits (r.db.lastPublished + 1) with
    | none => rfl
    | some c =>
      have := inv.committed _ c known
      omega
  have mem : r.db.lastPublished + 1 ∈ r.prepare.prepared := mem_append_right _ (mem_singleton_self _)
  have far : 2 ^ 8 ≤ cfg.deltaUpperbound := Nat.pow_le_pow_right (by decide) (Nat.le_add_right _ _)
  obtain ⟨db, added⟩ : ∃ db, r.prepare.db.addCommitted cfg (r.db.lastPublished + 1) (r.db.lastPublished + 1 + 1) = some db :=
    ⟨_, addCommitted_eq (by omega)⟩
  obtain ⟨inv', eq, max⟩ :=
    inv.prepare.addCommitted (Nat.le_succ _) (Nat.lt_succ_self _) (Nat.succ_pos _) (Nat.le_succ _) absent added
  have committed : r.prepare.commit cfg [r.db.lastPublished + 1] 0 = some
      ⟨{ db with lastPublished := r.db.lastPublished + 1 + 1 }, r.prepare.prepared,
        update r.prepare.commits (r.db.lastPublished + 1) (some (r.db.lastPublished + 1 + 1))⟩ := by
    have here : r.prepare.db.addCommitted cfg (r.db.lastPublished + 1) (r.prepare.db.lastPublished + 1) = some db := added
    rw [Run.commit, Run.commitAll, if_pos ⟨.inl mem, absent⟩, here]
    rfl
  have known : update r.prepare.commits (r.db.lastPublished + 1) (some (r.db.lastPublished + 1 + 1)) (r.db.lastPublished + 1) =
      some (r.db.lastPublished + 1 + 1) := update_self ..
  obtain ⟨r', removed⟩ : ∃ r', r.advanceSeqByOne cfg = some r' := by
    rw [Run.advanceSeqByOne, committed, bind_some, Run.removePrepared, if_neg fun none => by cases known.symm.trans none]
    exact ⟨_, rfl⟩
  have removed' := removed
  rw [Run.advanceSeqByOne, committed, bind_some] at removed'
  obtain ⟨inv'', published, max', commits, prepared⟩ := inv'.publish.removePrepared removed'
  have published : r'.db.lastPublished = r.db.lastPublished + 1 + 1 := published
  refine ⟨r', removed, published ▸ inv'', ?_, by omega, ?_⟩
  · rw [max', published]
    exact Nat.lt_succ_of_le max
  · intro p mem none
    rw [prepared] at mem
    have none := (congrFun commits p).symm.trans none
    by_cases fresh : p = r.db.lastPublished + 1
    · rw [fresh] at none
      cases known.symm.trans none
    · have none := (update_of_ne fresh _ r.prepare.commits).symm.trans none
      exact ⟨(mem_append.mp mem).resolve_right fun here => fresh (mem_singleton.mp here), none⟩

theorem addSnapshot (beyond : r.db.lastPublished = 0 ∨ r.db.maxEvictedSeq < r.db.lastPublished)
    (le : minUncommitted ≤ r.db.lastPublished + 1)
    (least : ∀ p ∈ r.prepared, r.commits p = none → minUncommitted ≤ p) : Inv cfg r.db.lastPublished
      { r with db := { r.db with snapshotList := r.db.snapshotList ++ [⟨r.db.lastPublished, minUncommitted⟩] } } := by
  have last : ∀ {snap}, snap ∈ r.db.snapshotList ++ [⟨r.db.lastPublished, minUncommitted⟩] →
      snap ∈ r.db.snapshotList ∨ snap = ⟨r.db.lastPublished, minUncommitted⟩ := by simp
  exact
    { inv with
      found := by
        intro p c known
        refine (inv.found p c known).imp_right fun evicted => ⟨evicted.old, evicted.delayed, ?_⟩
        intro snap live overlaps
        rcases last live with live | rfl
        · exact evicted.onRecord snap live overlaps
        · exact absurd overlaps.2 (not_lt.mpr (inv.committed p c known).2.2)
      snapshots_sorted := by
        rw [map_append]
        refine pairwise_append.mpr ⟨inv.snapshots_sorted, pairwise_singleton _ _, ?_⟩
        intro x mem y here
        obtain ⟨snap, live, rfl⟩ := mem_map.mp mem
        rw [mem_singleton.mp here]
        exact (inv.snapshot_le snap live).1
      snapshot_le := by
        intro snap live
        rcases last live with live | rfl
        · exact inv.snapshot_le snap live
        · exact ⟨le_refl _, le⟩
      min_uncommitted := by
        intro snap live p mem lt
        rcases last live with live | rfl
        · exact inv.min_uncommitted snap live p mem lt
        · cases known : r.commits p with
          | none => exact absurd lt (not_lt.mpr (least p mem known))
          | some c => exact ⟨c, (inv.committed p c known).2.2, rfl⟩
      listed := by
        intro pos snap live small
        rcases last live with live | rfl
        · exact inv.listed pos snap live small
        · have := inv.max_le
          dsimp only at pos small
          omega
      arrays := { inv.arrays with } }

theorem getSnapshot : ∃ r', r.getSnapshot cfg = some r' ∧ Inv cfg r'.db.lastPublished r' := by
  have least : ∀ p ∈ r.prepared, r.commits p = none → r.db.smallestUnCommittedSeq ≤ p :=
    fun p mem none => inv.smallestUnCommittedSeq_le (inv.pending p mem none)
  rw [Run.getSnapshot]
  split
  next behind =>
    obtain ⟨r', advanced, inv', beyond, le, still⟩ := inv.advanceSeqByOne
    have caught : r.catchUp cfg 100 = some r' := by
      rw [Run.catchUp, if_pos ⟨by omega, behind.2⟩, advanced]
      change Run.catchUp cfg 99 r' = some r'
      have future := inv'.future
      rw [Run.catchUp, if_neg (by omega), if_neg (by omega)]
    rw [caught]
    exact ⟨_, rfl, inv'.addSnapshot (.inr beyond) (inv.smallestUnCommittedSeq_le_next.trans (Nat.succ_le_succ le))
      fun p mem none => least p (still p mem none).1 (still p mem none).2⟩
  next ahead =>
    have := inv.future
    exact ⟨_, rfl, inv.addSnapshot (by omega) inv.smallestUnCommittedSeq_le_next least⟩

end

theorem releaseSnapshot (index : ℕ) (inv : Inv cfg top r) : Inv cfg top (r.releaseSnapshot index) := by
  have sub : ∀ snap, snap ∈ r.db.snapshotList.eraseIdx index → snap ∈ r.db.snapshotList :=
    fun _ mem => mem_of_mem_eraseIdx mem
  exact
    { inv with
      found := fun p c known => (inv.found p c known).imp_right fun evicted =>
        ⟨evicted.old, evicted.delayed, fun snap live => evicted.onRecord snap (sub snap live)⟩
      snapshots_sorted := inv.snapshots_sorted.sublist ((eraseIdx_sublist ..).map _)
      snapshot_le := fun snap live => inv.snapshot_le snap (sub snap live)
      min_uncommitted := fun snap live => inv.min_uncommitted snap (sub snap live)
      listed := fun pos snap live => inv.listed pos snap (sub snap live)
      arrays := { inv.arrays with } }

end

end Inv

variable {cfg : Config}

abbrev Reached (cfg : Config) : Run → Prop :=
  Transition.Reachable (· = Run.initial cfg) (fun r op r' => r.step cfg op = some r') fun _ _ => True

def Consistent (cfg : Config) (r : Run) : Prop := Inv cfg r.db.lastPublished r

theorem Consistent.step {r r' : Run} {op : Run.Op} (inv : Consistent cfg r) (taken : r.step cfg op = some r') :
    Consistent cfg r' := by
  cases op with
  | addPrepared => exact some.inj taken ▸ Inv.prepare inv
  | addCommitted => exact Inv.commit inv taken
  | removePrepared prep =>
    obtain ⟨inv', published, -⟩ := Inv.removePrepared inv taken
    rw [Consistent, published]
    exact inv'
  | getSnapshot =>
    obtain ⟨r'', result, inv'⟩ := Inv.getSnapshot inv
    obtain rfl : r'' = r' := some.inj (result.symm.trans taken)
    exact inv'
  | releaseSnapshot index =>
    obtain rfl := some.inj taken
    exact Inv.releaseSnapshot index inv

theorem reached_consistent {r : Run} (reach : Reached cfg r) : Consistent cfg r := by
  refine reach.invariant ?_ fun _ _ _ _ inv _ taken => inv.step taken
  rintro _ rfl
  exact Inv.initial cfg

theorem Inv.isInSnapshot {top : ℕ} {r : Run} (inv : Inv cfg top r) {snap : SnapshotImpl}
    (live : snap ∈ r.db.snapshotList) {p : ℕ}
    (mem : p ∈ r.prepared) (lt : p < minUncommitted → ∃ c ≤ snap.number, r.commits p = some c) :
    ((r.db.isInSnapshot cfg p snap.number minUncommitted).1 = true ↔ ∃ c ≤ snap.number, r.commits p = some c) ∧
      (r.db.isInSnapshot cfg p snap.number minUncommitted).2 = false := by
  have pos := (inv.prepared p mem).1
  have answer : ∀ {b : Bool}, (b = true ↔ ∃ c ≤ snap.number, r.commits p = some c) →
      (((b, false) : Bool × Bool).1 = true ↔ ∃ c ≤ snap.number, r.commits p = some c) ∧ ((b, false) : Bool × Bool).2 = false :=
    fun iff => ⟨iff, rfl⟩
  have of_commit : ∀ c, r.commits p = some c →
      (decide (c ≤ snap.number) = true ↔ ∃ c ≤ snap.number, r.commits p = some c) := by
    intro c known
    rw [decide_eq_true_eq]
    constructor
    · exact fun le => ⟨c, le, known⟩
    · rintro ⟨c', le, known'⟩
      rwa [some.inj (known.symm.trans known')]
  have of_none : r.commits p = none → (false = true ↔ ∃ c ≤ snap.number, r.commits p = some c) := by
    intro none
    simp [none]
  rw [State.isInSnapshot, if_neg (ne_of_gt pos)]
  split
  next later =>
    refine answer ⟨by simp, ?_⟩
    rintro ⟨c, le, known⟩
    have := (inv.committed p c known).2.1
    omega
  next =>
  split
  next early => exact answer ⟨fun _ => lt early, fun _ => rfl⟩
  next =>
  split
  next cached found =>
    rw [filter_eq_some_iff, decide_eq_true_eq] at found
    obtain ⟨found, rfl⟩ := found
    exact answer (of_commit _ (inv.cell _ _ (Nat.mod_lt _ (Nat.two_pow_pos _)) found).2)
  next missed =>
  -- a commit that is not in the cache was evicted
  have gone : ∀ c, r.commits p = some c → Evicted r.db p c := by
    intro c known
    rcases inv.found p c known with found | evicted
    · rw [found] at missed
      simp at missed
    · exact evicted
  split
  next recent =>
    refine answer (of_none (eq_none_iff_forall_not_mem.mpr fun c known => ?_))
    have := (gone c known).old
    have := (inv.committed p c known).2.1
    omega
  next old =>
  split
  next delayed =>
    split
    next noted =>
      refine answer (of_none ?_)
      cases known : r.commits p with
      | none => rfl
      | some c => cases noted.symm.trans ((gone c known).delayed delayed.2)
    next c noted => exact answer (of_commit c (inv.delayed_commits p c noted))
  next not_delayed =>
  -- a number up to the maximum that is not delayed is committed
  have out : p ∉ r.db.delayedPrepared := by
    intro known
    refine not_delayed ⟨?_, known⟩
    rw [inv.delayed_flag]
    simpa using ne_nil_of_mem known
  obtain ⟨c, known⟩ : ∃ c, r.commits p = some c := by
    cases known : r.commits p with
    | some c => exact ⟨c, rfl⟩
    | none =>
      rcases inv.pending p mem known with txn | delayed
      · exact absurd (inv.txns p txn).2 old
      · exact absurd delayed out
  have evicted := gone c known
  split
  next recent => exact answer ⟨fun _ => ⟨c, evicted.old.trans recent.le, known⟩, fun _ => rfl⟩
  next covered =>
  have small : snap.number ≤ r.db.maxEvictedSeq := Nat.le_of_not_lt covered
  obtain ⟨-, has⟩ := inv.listed (by omega) snap live small
  obtain ⟨vec, found⟩ := isSome_iff_exists.mp has
  split
  next empty =>
    rw [inv.map_flag, List.isEmpty_iff] at empty
    rw [AList.lookup, empty] at found
    simp at found
  next =>
  rw [found]
  refine answer ?_
  rw [Bool.not_eq_true', ← Bool.not_eq_true, binarySearch_iff (inv.map_sorted _ vec found)]
  constructor
  · intro absent
    refine ⟨c, Nat.le_of_not_lt fun less => absent ?_, known⟩
    obtain ⟨vec', found', member'⟩ := evicted.onRecord snap live ⟨show p ≤ snap.number by omega, less⟩
    rwa [some.inj (found.symm.trans found')]
  · rintro ⟨c', le, known'⟩ recorded
    obtain ⟨c'', known'', less⟩ := inv.map_sound _ vec found p recorded
    have := some.inj (known'.symm.trans known'')
    omega

/-- A live snapshot contains a prepared number just when its transaction committed at or before it, with or without the
smallest uncommitted number. -/
theorem isInSnapshot_iff_committed (cfg : Config) {r : Run} (reach : Reached cfg r) {snap : SnapshotImpl}
    (live : snap ∈ r.db.snapshotList)
    {p : ℕ} (member : p ∈ r.prepared) {minUncommitted : ℕ}
    (given : minUncommitted = 1 ∨ minUncommitted = snap.minUncommitted) :
    ((r.db.isInSnapshot cfg p snap.number minUncommitted).1 = true ↔ ∃ c ≤ snap.number, r.commits p = some c) ∧
      (r.db.isInSnapshot cfg p snap.number minUncommitted).2 = false := by
  have inv : Inv cfg r.db.lastPublished r := reached_consistent reach
  refine inv.isInSnapshot live member fun lt => ?_
  rcases given with rfl | rfl
  · have := (inv.prepared p member).1
    omega
  · exact inv.min_uncommitted snap live p member lt

/-- Numbers 4 and 5 are committed without a prepare and push the entry of 1 out of the cache. -/
theorem isInSnapshot_iff_committed_evicted : ∃ r : Run, Reached ⟨0, 0⟩ r ∧ r.db.maxEvictedSeq = 5 ∧ r.commits 1 = some 3 ∧
    r.commits 4 = some 5 ∧ 4 ∉ r.prepared ∧ ((r.db.isInSnapshot ⟨0, 0⟩ 1 2 1).1 = true ↔ ∃ c ≤ 2, r.commits 1 = some c) := by
  obtain ⟨r, run, max, commits, live, mem⟩ : ∃ r,
      Transition.checkedRun (Run.step ⟨0, 0⟩) (fun _ _ => True) (Run.initial ⟨0, 0⟩)
        [.addPrepared, .addPrepared, .getSnapshot, .addCommitted [1] 0, .removePrepared 1, .addCommitted [4, 5] 1] = some r ∧
      r.db.maxEvictedSeq = 5 ∧ (r.commits 1 = some 3 ∧ r.commits 4 = some 5 ∧ 4 ∉ r.prepared) ∧
      ⟨2, 1⟩ ∈ r.db.snapshotList ∧ 1 ∈ r.prepared :=
    ⟨_, rfl, by decide +kernel, by decide +kernel, by decide +kernel, by decide +kernel⟩
  have reach : Reached ⟨0, 0⟩ r := .checkedRun (.start rfl) run
  exact ⟨r, reach, max, commits.1, commits.2.1, commits.2.2,
    (isInSnapshot_iff_committed ⟨0, 0⟩ reach live mem (.inl rfl)).1⟩

end VcompProof.WritePrepared
