import Vcomp.Foundation.Transition
import Vcomp.WritePrepared.Invariant
import Vcomp.WritePrepared.Threads

namespace VcompProof.WritePrepared

open VcompModel.WritePrepared VcompModel.WritePrepared.State List Function Option

section

def Live (db : State) (x : ℕ) : Prop := x ∈ db.snapshotList.map (·.number)

structure Frame (db db' : State) : Prop where
  future : db.futureMaxEvictedSeq ≤ db'.futureMaxEvictedSeq
  version : db.snapshotsVersion ≤ db'.snapshotsVersion
  live : ∀ x, Live db' x → Live db x ∨ db.futureMaxEvictedSeq < x ∨ db.futureMaxEvictedSeq = 0

structure SameArrays (db db' : State) : Prop where
  version : db'.snapshotsVersion = db.snapshotsVersion
  cache : db'.snapshotCache = db.snapshotCache
  overflow : db'.snapshots = db.snapshots
  total : db'.snapshotsTotal = db.snapshotsTotal
  all : db'.snapshotsAll = db.snapshotsAll

def Gone (db : State) (x : ℕ) : Prop := ¬Live db x ∧ x ≤ db.futureMaxEvictedSeq ∧ 0 < db.futureMaxEvictedSeq

theorem Gone.frame {db db' : State} {x : ℕ} (gone : Gone db x) (frame : Frame db db') : Gone db' x := by
  obtain ⟨dead, lt, some⟩ := gone
  have future := frame.future
  refine ⟨fun live => ?_, by omega, by omega⟩
  rcases frame.live x live with old | above | zero
  · exact dead old
  · omega
  · omega

theorem Frame.refl (db : State) : Frame db db := ⟨le_rfl, le_rfl, fun _ live => .inl live⟩

theorem SameArrays.refl (db : State) : SameArrays db db := ⟨rfl, rfl, rfl, rfl, rfl⟩

end

variable {pc : Pc}

section

variable {ι : Type*}

structure Arrays (cfg : Config) (db : State) (list : List ℕ) : Prop where
  total : db.snapshotsTotal = list.length
  cells : ∃ rest, db.snapshotCache = list.take cfg.snapshotCacheSize ++ rest
  overflow : db.snapshots = list.drop cfg.snapshotCacheSize

/-- The list of a call has every live snapshot up to its maximum. -/
structure Fetched (db : State) (c : AdvanceCall) : Prop where
  declared : c.newMax ≤ db.futureMaxEvictedSeq
  positive : 0 < c.newMax
  complete : ∀ x, Live db x → x ≤ c.newMax → x ∈ c.snapshots
  strict : c.snapshots.Pairwise (· < ·)
  bounded : ∀ x ∈ c.snapshots, x ≤ c.newMax

/-- A new list adds only snapshots beyond those listed before. -/
def Extends (olds news : List ℕ) : Prop := ∀ n ∈ news, ∀ o ∈ olds, n ∈ olds ∨ o < n

structure Holding (db : State) (holder : Option ι) (me : ι) (c : AdvanceCall) : Prop where
  mine : holder = some me
  version : db.snapshotsVersion = c.newMax
  older : ∀ o ∈ db.snapshotsAll, o ≤ c.newMax
  later : Extends db.snapshotsAll c.snapshots

structure Merging (list news olds : List ℕ) : Prop where
  newStrict : news.Pairwise (· < ·)
  oldStrict : olds.Pairwise (· < ·)
  sub : ∀ n ∈ news, n ∈ list
  later : Extends olds news
  kept : ∀ o ∈ olds, o ∈ list → o ∈ news

def Critical : Pc → Prop
  | .store _ | .publish | .cleanup _ _ | .find _ _ _ | .erase _ _ _ => True
  | _ => False

def Past : Pc → Prop
  | .touch | .advance _ | .finished => True
  | _ => False

def CallOk (cfg : Config) (db : State) (holder : Option ι) (me : ι) (c : AdvanceCall) : Prop :=
  match c.pc with
  | .start => c.prevMax < c.newMax
  | .declare updated => (updated < c.newMax ∨ updated ≤ db.futureMaxEvictedSeq) ∧ 0 < c.newMax
  | .checkPrepared | .readVersion | .getSnapshots => c.newMax ≤ db.futureMaxEvictedSeq ∧ 0 < c.newMax
  | .lock => Fetched db c
  | .store i =>
    Fetched db c ∧ Holding db holder me c ∧ db.snapshotCache.take i = c.snapshots.take i ∧ i ≤ c.snapshots.length ∧
      i ≤ cfg.snapshotCacheSize
  | .publish => Fetched db c ∧ Holding db holder me c ∧
      ∃ rest, db.snapshotCache = c.snapshots.take cfg.snapshotCacheSize ++ rest
  | .cleanup news olds =>
    Fetched db c ∧ Holding db holder me c ∧ Arrays cfg db c.snapshots ∧ Merging c.snapshots news olds ∧ olds ⊆ db.snapshotsAll
  | .find snapSeq news olds | .erase snapSeq news olds =>
    (Fetched db c ∧ Holding db holder me c ∧ Arrays cfg db c.snapshots ∧ Merging c.snapshots news olds ∧
      olds ⊆ db.snapshotsAll) ∧
      snapSeq ∉ c.snapshots ∧ snapSeq ≤ c.newMax
  | .touch | .advance _ | .finished => c.newMax ≤ db.snapshotsVersion ∧ 0 < c.newMax

variable {cfg : Config} {db db' : State} {holder holder' : Option ι} {me : ι} {c : AdvanceCall}

theorem Fetched.frame (fetched : Fetched db c) (frame : Frame db db') : Fetched db' c :=
  { fetched with
    declared := fetched.declared.trans frame.future
    complete := by
      intro x live lt
      have declared := fetched.declared
      have pos := fetched.positive
      rcases frame.live x live with old | above | zero
      · exact fetched.complete x old lt
      · omega
      · omega }

theorem Holding.frame (holding : Holding db holder me c) (eq : SameArrays db db') (lock : holder' = holder) :
    Holding db' holder' me c where
  mine := lock.trans holding.mine
  version := eq.version.trans holding.version
  older := by
    rw [eq.all]
    exact holding.older
  later := by
    rw [eq.all]
    exact holding.later

theorem Arrays.frame {list : List ℕ} (arrays : Arrays cfg db list) (eq : SameArrays db db') : Arrays cfg db' list where
  total := eq.total.trans arrays.total
  cells := by
    rw [eq.cache]
    exact arrays.cells
  overflow := eq.overflow.trans arrays.overflow

variable (ok : CallOk cfg db holder me c)
include ok

theorem CallOk.at_pc (at_pc : c.pc = pc) : CallOk cfg db holder me { c with pc := pc } :=
  at_pc ▸ ok

theorem CallOk.critical (critical : Critical c.pc) : holder = some me := by
  obtain ⟨prevMax, newMax, pc, snapshots⟩ := c
  cases pc with
  | store => exact ok.2.1.mine
  | publish => exact ok.2.1.mine
  | cleanup => exact ok.2.1.mine
  | find => exact ok.1.2.1.mine
  | erase => exact ok.1.2.1.mine
  | _ => exact critical.elim

theorem CallOk.frame (frame : Frame db db')
    (eq : Critical c.pc → SameArrays db db' ∧ holder' = holder) : CallOk cfg db' holder' me c := by
  have future := frame.future
  have version := frame.version
  obtain ⟨prevMax, newMax, pc, snapshots⟩ := c
  cases pc with
  | start => exact ok
  | declare => exact ⟨ok.1.imp_right fun lt => lt.trans future, ok.2⟩
  | checkPrepared | readVersion | getSnapshots => exact ⟨ok.1.trans future, ok.2⟩
  | lock => exact Fetched.frame ok frame
  | store i =>
    obtain ⟨arrays, lock⟩ := eq trivial
    obtain ⟨fetched, holding, cells, bounds⟩ := ok
    exact ⟨fetched.frame frame, holding.frame arrays lock, by rw [arrays.cache]; exact cells, bounds⟩
  | publish =>
    obtain ⟨arrays, lock⟩ := eq trivial
    obtain ⟨fetched, holding, cells⟩ := ok
    exact ⟨fetched.frame frame, holding.frame arrays lock, by rw [arrays.cache]; exact cells⟩
  | cleanup news olds =>
    obtain ⟨arrays, lock⟩ := eq trivial
    obtain ⟨fetched, holding, held, merging, sub⟩ := ok
    exact ⟨fetched.frame frame, holding.frame arrays lock, held.frame arrays, merging, by rw [arrays.all]; exact sub⟩
  | find snapSeq news olds | erase snapSeq news olds =>
    obtain ⟨arrays, lock⟩ := eq trivial
    obtain ⟨⟨fetched, holding, held, merging, sub⟩, dead⟩ := ok
    exact ⟨⟨fetched.frame frame, holding.frame arrays lock, held.frame arrays, merging, by rw [arrays.all]; exact sub⟩, dead⟩
  | touch | advance | finished => exact ⟨ok.1.trans version, ok.2⟩

end

section

variable {list news olds : List ℕ} {new old : ℕ}

theorem dropWhile_of_strict (strict : (new :: news).Pairwise (· < ·)) : news.dropWhile (· == new) = news := by
  cases news with
  | nil => rfl
  | cons next news =>
    have lt := rel_of_pairwise_cons strict mem_cons_self
    rw [dropWhile_cons_of_neg]
    simp only [beq_iff_eq]
    omega

theorem Merging.skip (merging : Merging list (old :: news) (old :: olds)) : Merging list news olds where
  newStrict := merging.newStrict.of_cons
  oldStrict := merging.oldStrict.of_cons
  sub := fun n mem => merging.sub n (mem_cons_of_mem _ mem)
  later := by
    intro n mem o lt
    have above := rel_of_pairwise_cons merging.newStrict mem
    rcases merging.later n (mem_cons_of_mem _ mem) o (mem_cons_of_mem _ lt) with known | less
    · exact .inl ((mem_cons.mp known).resolve_left (by omega))
    · exact .inr less
  kept := by
    intro o mem listed
    have above := rel_of_pairwise_cons merging.oldStrict mem
    exact (mem_cons.mp (merging.kept o (mem_cons_of_mem _ mem) listed)).resolve_left (by omega)

theorem Merging.released (merging : Merging list news (old :: olds)) (other : news.head? ≠ some old) : old ∉ list := by
  intro listed
  have mem := merging.kept old mem_cons_self listed
  cases news with
  | nil => cases mem
  | cons new news =>
    have later : old ∈ news := (mem_cons.mp mem).resolve_left fun eq => other (congrArg some eq.symm)
    have above := rel_of_pairwise_cons merging.newStrict later
    rcases merging.later new mem_cons_self old mem_cons_self with known | lt
    · rcases mem_cons.mp known with eq | known
      · omega
      · have := rel_of_pairwise_cons merging.oldStrict known
        omega
    · omega

theorem Merging.drop (merging : Merging list news (old :: olds)) (out : old ∉ list) : Merging list news olds :=
  { merging with
    oldStrict := merging.oldStrict.of_cons
    later := by
      intro n mem o lt
      rcases merging.later n mem o (mem_cons_of_mem _ lt) with known | less
      · refine .inl ((mem_cons.mp known).resolve_left ?_)
        rintro rfl
        exact out (merging.sub _ mem)
      · exact .inr less
    kept := fun o mem => merging.kept o (mem_cons_of_mem _ mem) }

end

section

variable {ι : Type*} {cfg : Config} {s : Threads ι} {db' : State}

def Owned (s : Threads ι) : Prop :=
  s.db.snapshotsVersion = 0 ∨
    ∃ i, Past (s.calls i).pc ∧ s.db.snapshotsVersion = (s.calls i).newMax ∧ s.db.snapshotsAll = (s.calls i).snapshots

structure Orderly (cfg : Config) (s : Threads ι) : Prop where
  calls : ∀ i, CallOk cfg s.db s.holder i (s.calls i)
  critical : ∀ i, s.holder = some i → Critical (s.calls i).pc
  sorted : (s.db.snapshotList.map (·.number)).Pairwise (· ≤ ·)
  strict : s.db.snapshotsAll.Pairwise (· < ·)
  bounded : ∀ x ∈ s.db.snapshotsAll, x ≤ s.db.snapshotsVersion
  cells : s.db.snapshotCache.length = cfg.snapshotCacheSize
  idle : s.holder = none → Arrays cfg s.db s.db.snapshotsAll ∧ Owned s
  kept : ∀ e ∈ s.recorded, OnRecord s.db e.1 e.2 ∨ Gone s.db e.2

def Keeps (db db' : State) : Prop := ∀ p x, OnRecord db p x → OnRecord db' p x ∨ Gone db' x

theorem keeps_of_map {db : State} (eq : db'.oldCommitMap = db.oldCommitMap) : Keeps db db' := by
  intro p x known
  left
  unfold OnRecord
  rw [eq]
  exact known

theorem Orderly.kept_step (orderly : Orderly cfg s) (frame : Frame s.db db') (keeps : Keeps s.db db') :
    ∀ e ∈ s.recorded, OnRecord db' e.1 e.2 ∨ Gone db' e.2 := by
  intro e mem
  rcases orderly.kept e mem with known | gone
  · exact keeps e.1 e.2 known
  · exact .inr (gone.frame frame)

theorem Orderly.environment (orderly : Orderly cfg s) {recorded : List (ℕ × ℕ)}
    (frame : Frame s.db db') (eq : SameArrays s.db db') (sorted : (db'.snapshotList.map (·.number)).Pairwise (· ≤ ·))
    (kept : ∀ e ∈ recorded, OnRecord db' e.1 e.2 ∨ Gone db' e.2) :
    Orderly cfg { s with db := db', recorded := recorded } where
  calls := fun i => (orderly.calls i).frame frame fun _ => ⟨eq, rfl⟩
  critical := orderly.critical
  sorted := sorted
  strict := by
    rw [eq.all]
    exact orderly.strict
  bounded := by
    rw [eq.all, eq.version]
    exact orderly.bounded
  cells := by
    rw [eq.cache]
    exact orderly.cells
  idle := by
    intro free
    obtain ⟨arrays, owned⟩ := orderly.idle free
    refine ⟨by rw [eq.all]; exact arrays.frame eq, ?_⟩
    unfold Owned
    rw [eq.all, eq.version]
    exact owned
  kept := kept

def SnapshotsAhead (s : Threads ι) : ThreadEvent ι → Prop
  | .getSnapshot number _ =>
    (s.db.futureMaxEvictedSeq < number ∨ s.db.futureMaxEvictedSeq = 0) ∧ ∀ x ∈ s.db.snapshotList, x.number ≤ number
  | _ => True

theorem Orderly.getSnapshot (orderly : Orderly cfg s) {number minUncommitted : ℕ}
    (ahead : SnapshotsAhead s (.getSnapshot number minUncommitted)) :
    Orderly cfg { s with db := { s.db with snapshotList := s.db.snapshotList ++ [⟨number, minUncommitted⟩] } } := by
  have frame : Frame s.db { s.db with snapshotList := s.db.snapshotList ++ [⟨number, minUncommitted⟩] } := by
    refine ⟨le_rfl, le_rfl, fun x live => ?_⟩
    unfold Live at live
    rw [map_append, mem_append] at live
    rcases live with old | new
    · exact .inl old
    · rw [mem_singleton.mp new]
      exact .inr ahead.1
  refine orderly.environment frame ⟨rfl, rfl, rfl, rfl, rfl⟩ ?_ (orderly.kept_step frame (keeps_of_map rfl))
  rw [map_append, pairwise_append]
  refine ⟨orderly.sorted, pairwise_singleton _ _, ?_⟩
  intro a before b last
  obtain ⟨x, mem, rfl⟩ := mem_map.mp before
  rw [mem_singleton.mp last]
  exact ahead.2 x mem

theorem Orderly.releaseSnapshot (orderly : Orderly cfg s) (index : ℕ) :
    Orderly cfg { s with db := { s.db with snapshotList := s.db.snapshotList.eraseIdx index } } := by
  have fewer := (eraseIdx_sublist s.db.snapshotList index).map (·.number)
  have frame : Frame s.db { s.db with snapshotList := s.db.snapshotList.eraseIdx index } :=
    ⟨le_rfl, le_rfl, fun x live => .inl (fewer.subset live)⟩
  exact orderly.environment frame ⟨rfl, rfl, rfl, rfl, rfl⟩ (orderly.sorted.sublist fewer)
    (orderly.kept_step frame (keeps_of_map rfl))

theorem Orderly.record (orderly : Orderly cfg s) (entry : CommitEntry) (snap : ℕ) (nextIsLarger : Bool) : Orderly cfg
      { s with
        db := (s.db.maybeUpdateOldCommitMap entry snap nextIsLarger).2
        recorded := if entry.prepSeq ≤ snap ∧ snap < entry.commitSeq then
          s.recorded ++ [(entry.prepSeq, snap)] else s.recorded } := by
  obtain ⟨recorded, noted, -⟩ := maybeUpdateOldCommitMap_spec entry s.db snap nextIsLarger
  obtain ⟨map, empty, result⟩ := recorded.only.eq
  have frame : Frame s.db (s.db.maybeUpdateOldCommitMap entry snap nextIsLarger).2 := by
    rw [result]
    exact ⟨le_rfl, le_rfl, fun _ live => .inl live⟩
  have kept := orderly.kept_step frame fun p x known => .inl (recorded.onRecord known)
  refine orderly.environment frame (by rw [result]; exact ⟨rfl, rfl, rfl, rfl, rfl⟩) (by rw [result]; exact orderly.sorted) ?_
  intro e mem
  split at mem
  next overlaps =>
    rcases mem_append.mp mem with old | new
    · exact kept e old
    · rw [mem_singleton.mp new]
      exact .inl (noted overlaps)
  · exact kept e mem

variable [DecidableEq ι] {s : Threads ι} {i : ι} (orderly : Orderly cfg s)
include orderly

theorem Orderly.keepsLock (at_pc : (s.calls i).pc = pc) {c : AdvanceCall} (frame : Frame s.db db')
    (list : db'.snapshotList = s.db.snapshotList) (all : db'.snapshotsAll = s.db.snapshotsAll)
    (version : db'.snapshotsVersion = s.db.snapshotsVersion) (cells : db'.snapshotCache.length = s.db.snapshotCache.length)
    (arrays : s.holder = some i ∨ SameArrays s.db db') (keeps : Keeps s.db db') (ok : CallOk cfg db' s.holder i c)
    (critical : Critical pc → Critical c.pc)
    (owner : Past pc → Past c.pc ∧ c.newMax = (s.calls i).newMax ∧ c.snapshots = (s.calls i).snapshots) :
    Orderly cfg { s with db := db', calls := update s.calls i c } where
  calls := by
    refine (forall_update_iff s.calls fun j c => CallOk cfg db' s.holder j c).mpr ⟨ok, fun j other => ?_⟩
    refine (orderly.calls j).frame frame fun inside => ⟨arrays.resolve_left fun mine => other ?_, rfl⟩
    exact some.inj (((orderly.calls j).critical inside).symm.trans mine)
  critical := by
    refine (forall_update_iff s.calls fun j c => s.holder = some j → Critical c.pc).mpr ⟨fun holds => ?_, ?_⟩
    · exact critical (at_pc ▸ orderly.critical i holds)
    · exact fun j _ => orderly.critical j
  sorted := by
    rw [list]
    exact orderly.sorted
  strict := by
    rw [all]
    exact orderly.strict
  bounded := by
    rw [all, version]
    exact orderly.bounded
  cells := cells.trans orderly.cells
  idle := by
    intro free
    obtain ⟨held, owned⟩ := orderly.idle free
    have eq := arrays.resolve_left fun mine => some_ne_none i (mine.symm.trans free)
    refine ⟨by rw [all]; exact held.frame eq, ?_⟩
    rcases owned with zero | ⟨j, past, versions, lists⟩
    · exact .inl (version.trans zero)
    · right
      refine ⟨j, ?_⟩
      dsimp only
      rw [version, all]
      by_cases eq : j = i
      · subst eq
        rw [update_self]
        obtain ⟨past', max, snaps⟩ := owner (at_pc ▸ past)
        exact ⟨past', versions.trans max.symm, lists.trans snaps.symm⟩
      · rw [update_of_ne eq]
        exact ⟨past, versions, lists⟩
  kept := orderly.kept_step frame keeps

theorem Orderly.local (at_pc : (s.calls i).pc = pc) {c : AdvanceCall} (ok : CallOk cfg s.db s.holder i c)
    (critical : Critical pc → Critical c.pc)
    (owner : Past pc → Past c.pc ∧ c.newMax = (s.calls i).newMax ∧ c.snapshots = (s.calls i).snapshots) :
    Orderly cfg { s with calls := update s.calls i c } :=
  orderly.keepsLock at_pc (.refl _) rfl rfl rfl rfl (.inr (.refl _)) (keeps_of_map rfl) ok critical owner

theorem Orderly.takesLock (fetched : Fetched s.db (s.calls i)) (free : s.holder = none)
    (newer : s.db.snapshotsVersion < (s.calls i).newMax) (later : Extends s.db.snapshotsAll (s.calls i).snapshots) :
    Orderly cfg
      { s with
        db := { s.db with snapshotsVersion := (s.calls i).newMax }
        holder := some i
        calls := update s.calls i { s.calls i with pc := .store 0 } } := by
  have frame : Frame s.db { s.db with snapshotsVersion := (s.calls i).newMax } := ⟨le_rfl, newer.le, fun _ live => .inl live⟩
  refine ⟨?_, ?_, orderly.sorted, orderly.strict, ?_, orderly.cells, nofun, orderly.kept_step frame (keeps_of_map rfl)⟩
  · refine (forall_update_iff s.calls fun j c => CallOk cfg _ (some i) j c).mpr ⟨?_, fun j _ => ?_⟩
    · refine ⟨{ fetched.frame frame with }, ⟨rfl, rfl, ?_, later⟩, rfl, Nat.zero_le _, Nat.zero_le _⟩
      intro o mem
      exact (orderly.bounded o mem).trans newer.le
    · refine (orderly.calls j).frame frame fun inside => ?_
      have holds := (orderly.calls j).critical inside
      rw [free] at holds
      cases holds
  · intro j holds
    obtain rfl := some.inj holds
    dsimp only
    rw [update_self]
    trivial
  · intro o mem
    exact (orderly.bounded o mem).trans newer.le

theorem Orderly.givesLock (fetched : Fetched s.db (s.calls i)) (holding : Holding s.db s.holder i (s.calls i))
    (arrays : Arrays cfg s.db (s.calls i).snapshots) (past : pc = .touch ∨ pc = .advance (s.calls i).prevMax) :
    Orderly cfg
      { s with
        db := { s.db with snapshotsAll := (s.calls i).snapshots }
        holder := none
        calls := update s.calls i { s.calls i with pc := pc } } := by
  have frame : Frame s.db { s.db with snapshotsAll := (s.calls i).snapshots } := ⟨le_rfl, le_rfl, fun _ live => .inl live⟩
  refine ⟨?_, nofun, orderly.sorted, fetched.strict, ?_, orderly.cells, fun _ => ⟨{ arrays with }, ?_⟩,
    orderly.kept_step frame (keeps_of_map rfl)⟩
  · refine (forall_update_iff s.calls fun j c => CallOk cfg _ none j c).mpr ⟨?_, fun j other => ?_⟩
    · have reached : (s.calls i).newMax ≤ s.db.snapshotsVersion ∧ 0 < (s.calls i).newMax :=
        ⟨holding.version.ge, fetched.positive⟩
      rcases past with rfl | rfl
      · exact reached
      · exact reached
    · refine (orderly.calls j).frame frame fun inside => ?_
      have holds := (orderly.calls j).critical inside
      rw [holding.mine] at holds
      exact absurd (some.inj holds).symm other
  · intro x mem
    exact (fetched.bounded x mem).trans holding.version.ge
  · refine .inr ⟨i, ?_⟩
    dsimp only
    rw [update_self]
    refine ⟨?_, holding.version, rfl⟩
    rcases past with rfl | rfl
    · trivial
    · trivial

omit orderly [DecidableEq ι] in
theorem casRound_spec (cell updated newMax : ℕ) (spurious : Bool) : cell ≤ (casRound cell updated newMax spurious).1 ∧
      ((updated < newMax ∨ updated ≤ cell) → (casRound cell updated newMax spurious).2 = none →
        newMax ≤ (casRound cell updated newMax spurious).1) ∧
      ∀ updated', (casRound cell updated newMax spurious).2 = some updated' →
        updated' ≤ (casRound cell updated newMax spurious).1 := by
  rw [casRound]
  split
  next done => exact ⟨le_rfl, fun known _ => by omega, nofun⟩
  next =>
    split
    next swapped => exact ⟨by dsimp only; omega, fun _ _ => le_rfl, nofun⟩
    next => exact ⟨le_rfl, fun _ => nofun, fun updated' eq => (some.inj eq).ge⟩

end

section

variable {ι : Type*} [DecidableEq ι] {cfg : Config} {s s' : Threads ι} {i : ι} {spurious : Bool} {updated k snap : ℕ}
  {news olds : List ℕ}

/-- The list is newer, and extends the one that is there. -/
def TakesOver (s : Threads ι) (i : ι) : Prop :=
  (s.calls i).pc = .lock → s.holder = none →
    s.db.snapshotsVersion < (s.calls i).newMax ∧ Extends s.db.snapshotsAll (s.calls i).snapshots

variable (orderly : Orderly cfg s) (taken : s.step cfg (.call i spurious) = some s')
include orderly taken

theorem Orderly.declare (at_pc : (s.calls i).pc = .declare updated) : Orderly cfg s' := by
  obtain ⟨known, pos⟩ := (orderly.calls i).at_pc at_pc
  rw [Threads.step, AdvanceCall.step.eq_def, at_pc] at taken
  cases taken
  obtain ⟨grows, done, again⟩ := casRound_spec s.db.futureMaxEvictedSeq updated (s.calls i).newMax spurious
  refine orderly.keepsLock at_pc ⟨grows, le_rfl, fun _ live => .inl live⟩ rfl rfl rfl rfl (.inr ⟨rfl, rfl, rfl, rfl, rfl⟩)
    (keeps_of_map rfl) ?_ False.elim False.elim
  generalize casRound s.db.futureMaxEvictedSeq updated (s.calls i).newMax spurious = round at *
  cases goesOn : round.2 with
  | none => exact ⟨done known goesOn, pos⟩
  | some updated' => exact ⟨.inr (again updated' goesOn), pos⟩

theorem Orderly.checkPrepared (at_pc : (s.calls i).pc = .checkPrepared) : Orderly cfg s' := by
  have ok := (orderly.calls i).at_pc at_pc
  rw [Threads.step, AdvanceCall.step.eq_def, at_pc] at taken
  cases taken
  rw [checkPreparedAgainstMax, moveToDelayed_eq]
  exact orderly.keepsLock at_pc ⟨le_rfl, le_rfl, fun _ live => .inl live⟩ rfl rfl rfl rfl (.inr ⟨rfl, rfl, rfl, rfl, rfl⟩)
    (keeps_of_map rfl) ok False.elim False.elim

theorem Orderly.getSnapshots (at_pc : (s.calls i).pc = .getSnapshots) : Orderly cfg s' := by
  obtain ⟨declared, pos⟩ := (orderly.calls i).at_pc at_pc
  rw [Threads.step, AdvanceCall.step.eq_def, at_pc] at taken
  cases taken
  obtain ⟨strict, members⟩ := getAll_spec (s.calls i).newMax _ [] orderly.sorted .nil nofun
  refine orderly.local at_pc ⟨declared, pos, ?_, strict, ?_⟩ False.elim False.elim
  · intro x live lt
    exact (members x).mpr (.inr ⟨live, lt⟩)
  · intro x mem
    exact (((members x).mp mem).resolve_left nofun).2

omit taken in
theorem Orderly.stored (at_pc : (s.calls i).pc = .store k)
    (ends : (s.calls i).snapshots[k]? = none ∨ ¬k < cfg.snapshotCacheSize) :
    Orderly cfg { s with calls := update s.calls i { s.calls i with pc := .publish } } := by
  obtain ⟨fetched, holding, cells, inList, inCells⟩ := (orderly.calls i).at_pc at_pc
  refine orderly.local at_pc ⟨{ fetched with }, { holding with }, s.db.snapshotCache.drop k, ?_⟩ (fun _ => trivial) False.elim
  have whole : (s.calls i).snapshots.take cfg.snapshotCacheSize = (s.calls i).snapshots.take k := by
    rcases ends with last | full
    · have short := getElem?_eq_none_iff.mp last
      rw [take_of_length_le short, take_of_length_le (by omega)]
    · rw [show cfg.snapshotCacheSize = k by omega]
  rw [whole, ← cells, take_append_drop]

theorem Orderly.store (at_pc : (s.calls i).pc = .store k) : Orderly cfg s' := by
  obtain ⟨fetched, holding, cells, -, -⟩ := (orderly.calls i).at_pc at_pc
  simp only [Threads.step, AdvanceCall.step, at_pc] at taken
  split at taken
  next snap next =>
    split at taken
    next room =>
      cases taken
      have frame : Frame s.db { s.db with snapshotCache := s.db.snapshotCache.set k snap } :=
        ⟨le_rfl, le_rfl, fun _ live => .inl live⟩
      have inside := (List.getElem?_eq_some_iff.mp next).1
      refine orderly.keepsLock at_pc frame rfl rfl rfl List.length_set (.inl holding.mine)
        (keeps_of_map rfl) ?_ (fun _ => trivial)
        False.elim
      refine ⟨{ fetched.frame frame with }, { holding with }, ?_, inside, room⟩
      have filled : k < s.db.snapshotCache.length := by
        rw [orderly.cells]
        exact room
      rw [take_add_one, take_add_one, next, getElem?_set_self filled, take_set_of_le le_rfl, cells]
    next full =>
      cases taken
      exact orderly.stored at_pc (.inr full)
  next last =>
    cases taken
    exact orderly.stored at_pc (.inl last)

theorem Orderly.publish (at_pc : (s.calls i).pc = .publish) : Orderly cfg s' := by
  obtain ⟨fetched, holding, cells⟩ := (orderly.calls i).at_pc at_pc
  rw [Threads.step, AdvanceCall.step.eq_def, at_pc] at taken
  cases taken
  have merging : Merging (s.calls i).snapshots (s.calls i).snapshots s.db.snapshotsAll :=
    ⟨fetched.strict, orderly.strict, fun _ mem => mem, holding.later, fun _ _ listed => listed⟩
  refine orderly.keepsLock at_pc ⟨le_rfl, le_rfl, fun _ live => .inl live⟩ rfl rfl rfl rfl (.inl holding.mine)
    (keeps_of_map rfl) ?_
    (fun _ => trivial) False.elim
  exact ⟨{ fetched with }, { holding with }, ⟨rfl, cells, rfl⟩, merging,
    List.Subset.refl _⟩

omit taken in
theorem Orderly.cleanupReleased {old : ℕ} (at_pc : (s.calls i).pc = .cleanup news (old :: olds))
    (other : news.head? ≠ some old) :
    Orderly cfg
      { s with
        calls := update s.calls i
          { s.calls i with pc := if old ≤ s.db.maxEvictedSeq then .find old news olds else .cleanup news olds } } := by
  obtain ⟨fetched, holding, arrays, merging, sub⟩ := (orderly.calls i).at_pc at_pc
  have out := merging.released other
  have rest : olds ⊆ s.db.snapshotsAll := fun _ mem => sub (mem_cons_of_mem _ mem)
  split
  · exact orderly.local at_pc ⟨⟨{ fetched with }, { holding with }, arrays, merging.drop out, rest⟩, out,
      holding.older _ (sub mem_cons_self)⟩ (fun _ => trivial) False.elim
  · exact orderly.local at_pc ⟨{ fetched with }, { holding with }, arrays, merging.drop out, rest⟩
      (fun _ => trivial) False.elim

theorem Orderly.cleanup (at_pc : (s.calls i).pc = .cleanup news olds) : Orderly cfg s' := by
  obtain ⟨fetched, holding, arrays, merging, sub⟩ := (orderly.calls i).at_pc at_pc
  rw [Threads.step, AdvanceCall.step.eq_def, at_pc] at taken
  cases olds with
  | nil =>
    cases news <;>
    · cases taken
      refine orderly.givesLock { fetched with } { holding with } arrays ?_
      split
      · exact .inr rfl
      · exact .inl rfl
  | cons old olds =>
    cases news with
    | nil =>
      cases taken
      exact orderly.cleanupReleased at_pc nofun
    | cons new news =>
      dsimp only at taken
      split at taken
      next eq =>
        subst eq
        cases taken
        rw [dropWhile_of_strict merging.newStrict, dropWhile_of_strict merging.oldStrict]
        exact orderly.local at_pc ⟨{ fetched with }, { holding with }, arrays, merging.skip,
          fun _ mem => sub (mem_cons_of_mem _ mem)⟩ (fun _ => trivial) False.elim
      next other =>
        cases taken
        exact orderly.cleanupReleased at_pc fun eq => other (some.inj eq)

theorem Orderly.find (at_pc : (s.calls i).pc = .find snap news olds) : Orderly cfg s' := by
  obtain ⟨⟨fetched, holding, arrays, rest⟩, dead⟩ := (orderly.calls i).at_pc at_pc
  rw [Threads.step, AdvanceCall.step.eq_def, at_pc] at taken
  cases taken
  split
  · exact orderly.local at_pc ⟨⟨{ fetched with }, { holding with }, arrays, rest⟩, dead⟩ (fun _ => trivial) False.elim
  · exact orderly.local at_pc ⟨{ fetched with }, { holding with }, arrays, rest⟩ (fun _ => trivial) False.elim

theorem Orderly.erase (at_pc : (s.calls i).pc = .erase snap news olds) : Orderly cfg s' := by
  obtain ⟨⟨fetched, holding, arrays, rest⟩, out, lt⟩ := (orderly.calls i).at_pc at_pc
  rw [Threads.step, AdvanceCall.step.eq_def, at_pc] at taken
  cases taken
  have declared := fetched.declared
  have pos := fetched.positive
  refine orderly.keepsLock at_pc ⟨le_rfl, le_rfl, fun _ live => .inl live⟩ rfl rfl rfl rfl (.inl holding.mine) ?_
    ⟨{ fetched with }, { holding with }, { arrays with }, rest⟩ (fun _ => trivial) False.elim
  rintro p x ⟨vec, found, mem⟩
  by_cases eq : x = snap
  · subst eq
    exact .inr ⟨fun live => out (fetched.complete x live lt), lt.trans declared, pos.trans_le declared⟩
  · exact .inl ⟨vec, (AList.lookup_erase_ne eq).trans found, mem⟩

theorem Orderly.touch (at_pc : (s.calls i).pc = .touch) : Orderly cfg s' := by
  have ok := (orderly.calls i).at_pc at_pc
  rw [Threads.step, AdvanceCall.step.eq_def, at_pc] at taken
  cases taken
  obtain ⟨map, result, touched, others⟩ := touch_mapOnly_eq (s.calls i).snapshots s.db
  rw [result]
  refine orderly.keepsLock at_pc ⟨le_rfl, le_rfl, fun _ live => .inl live⟩ rfl rfl rfl rfl
    (.inr ⟨rfl, rfl, rfl, rfl, rfl⟩) ?_ ok
    False.elim (fun _ => ⟨trivial, rfl, rfl⟩)
  rintro p x ⟨vec, found, mem⟩
  left
  by_cases listed : x ∈ (s.calls i).snapshots
  · exact ⟨vec, (touched x listed).trans (by rw [found]; rfl), mem⟩
  · exact ⟨vec, (others x listed).trans found, mem⟩

theorem Orderly.advance (at_pc : (s.calls i).pc = .advance updated) : Orderly cfg s' := by
  have ok := (orderly.calls i).at_pc at_pc
  rw [Threads.step, AdvanceCall.step.eq_def, at_pc] at taken
  cases taken
  refine orderly.keepsLock at_pc ⟨le_rfl, le_rfl, fun _ live => .inl live⟩ rfl rfl rfl rfl (.inr ⟨rfl, rfl, rfl, rfl, rfl⟩)
    (keeps_of_map rfl) ?_ False.elim ?_
  · split
    · exact ok
    · exact ok
  · intro _
    refine ⟨?_, rfl, rfl⟩
    split
    · trivial
    · trivial

theorem Orderly.call (takesOver : TakesOver s i) : Orderly cfg s' := by
  cases at_pc : (s.calls i).pc with
  | start =>
    have ok := (orderly.calls i).at_pc at_pc
    rw [Threads.step, AdvanceCall.step.eq_def, at_pc] at taken
    cases taken
    exact orderly.local at_pc ⟨.inl ok, Nat.zero_lt_of_lt ok⟩ False.elim False.elim
  | declare => exact orderly.declare taken at_pc
  | checkPrepared => exact orderly.checkPrepared taken at_pc
  | readVersion =>
    have ok := (orderly.calls i).at_pc at_pc
    rw [Threads.step, AdvanceCall.step.eq_def, at_pc] at taken
    cases taken
    refine orderly.local at_pc ?_ False.elim False.elim
    split
    · exact ok
    next stale => exact ⟨not_lt.mp stale, ok.2⟩
  | getSnapshots => exact orderly.getSnapshots taken at_pc
  | lock =>
    have fetched : Fetched _ _ := (orderly.calls i).at_pc at_pc
    rw [Threads.step, AdvanceCall.step.eq_def, at_pc] at taken
    dsimp only at taken
    split at taken
    · cases taken
    next free =>
      cases taken
      obtain ⟨newer, later⟩ := takesOver at_pc free
      exact orderly.takesLock { fetched with } free newer later
  | store => exact orderly.store taken at_pc
  | publish => exact orderly.publish taken at_pc
  | cleanup => exact orderly.cleanup taken at_pc
  | find => exact orderly.find taken at_pc
  | erase => exact orderly.erase taken at_pc
  | touch => exact orderly.touch taken at_pc
  | advance => exact orderly.advance taken at_pc
  | finished =>
    rw [Threads.step, AdvanceCall.step.eq_def, at_pc] at taken
    cases taken

end

section

variable {ι : Type*} [DecidableEq ι] {cfg : Config}

/-- A call takes the lock only to replace an older list by one that extends it. -/
def UpdatesInOrder (s : Threads ι) : ThreadEvent ι → Prop
  | .call i _ => TakesOver s i
  | _ => True

abbrev Interleaved (cfg : Config) (allowed : Threads ι → ThreadEvent ι → Prop) : Threads ι → Prop :=
  Transition.Reachable (Threads.Initial cfg) (fun s e s' => s.step cfg e = some s') allowed

omit [DecidableEq ι] in
theorem Orderly.initial {s : Threads ι} (start : s.Initial cfg) : Orderly cfg s where
  calls := by
    intro i
    unfold CallOk
    rw [(start.calls i).1]
    exact (start.calls i).2
  critical := by
    intro i holds
    rw [start.holder] at holds
    cases holds
  sorted := by
    rw [start.db]
    exact .nil
  strict := by
    rw [start.db]
    exact .nil
  bounded := by
    rw [start.db]
    exact forall_mem_nil _
  cells := by
    rw [start.db]
    exact length_replicate
  idle := by
    intro _
    refine ⟨?_, .inl ?_⟩
    · rw [start.db]
      exact ⟨rfl, ⟨_, by rw [State.initial, take_nil, nil_append]⟩, drop_nil.symm⟩
    · rw [start.db]
      rfl
  kept := by
    rw [start.recorded]
    exact forall_mem_nil _

theorem interleaved_orderly {s : Threads ι} (reach : Interleaved cfg (fun s e => SnapshotsAhead s e ∧ UpdatesInOrder s e) s) :
    Orderly cfg s := by
  refine reach.invariant (fun s start => Orderly.initial start) ?_
  rintro s e s' - orderly ⟨ahead, inOrder⟩ taken
  cases e with
  | call => exact orderly.call taken inOrder
  | getSnapshot =>
    cases taken
    exact orderly.getSnapshot ahead
  | releaseSnapshot index =>
    cases taken
    exact orderly.releaseSnapshot index
  | record entry snap nextIsLarger =>
    cases taken
    exact orderly.record entry snap nextIsLarger

/-- Where every update extends an older list: records of live snapshots stay, and once all calls finished, version and
list are the largest's. -/
theorem snapshotUpdates_settle {s : Threads ι}
    (reach : Interleaved cfg (fun s e => SnapshotsAhead s e ∧ UpdatesInOrder s e) s) :
    (∀ e ∈ s.recorded, e.2 ∈ s.db.snapshotList.map (·.number) → OnRecord s.db e.1 e.2) ∧
      ((∀ i, (s.calls i).pc = .start ∨ (s.calls i).pc = .finished) → (∃ i, (s.calls i).pc = .finished) →
        ∃ last, (s.calls last).pc = .finished ∧
          (∀ i, (s.calls i).pc = .finished → (s.calls i).newMax ≤ (s.calls last).newMax) ∧
          s.db.snapshotsVersion = (s.calls last).newMax ∧ s.db.snapshotsAll = (s.calls last).snapshots ∧ Listed cfg s.db) := by
  have orderly := interleaved_orderly reach
  constructor
  · intro e mem live
    exact (orderly.kept e mem).resolve_right fun gone => gone.1 live
  · rintro settled ⟨i, finished⟩
    have reached (j : ι) (finished : (s.calls j).pc = .finished) :
        (s.calls j).newMax ≤ s.db.snapshotsVersion ∧ 0 < (s.calls j).newMax := by
      have ok := orderly.calls j
      unfold CallOk at ok
      rwa [finished] at ok
    have free : s.holder = none := by
      by_contra held
      obtain ⟨j, held⟩ := ne_none_iff_exists'.mp held
      have critical := orderly.critical j held
      rcases settled j with at_pc | at_pc
      · rw [at_pc] at critical
        exact critical
      · rw [at_pc] at critical
        exact critical
    obtain ⟨arrays, owned⟩ := orderly.idle free
    have listed : Listed cfg s.db := ⟨orderly.strict, arrays.total, arrays.cells, arrays.overflow⟩
    rcases owned with zero | ⟨last, past, version, list⟩
    · have := reached i finished
      omega
    · have done : (s.calls last).pc = .finished := by
        refine (settled last).resolve_left fun at_pc => ?_
        rw [at_pc] at past
        exact past
      exact ⟨last, done, fun j finished => (reached j finished).1.trans version.le, version, list, listed⟩

def twoVersions : Threads Bool where
  db := State.initial ⟨0, 0⟩
  holder := none
  calls := fun i => ⟨0, if i then 20 else 10, .start, []⟩
  recorded := []

theorem twoVersions_initial : twoVersions.Initial ⟨0, 0⟩ where
  db := rfl
  holder := rfl
  calls := by decide
  versions := by decide
  recorded := rfl

instance (s : Threads Bool) (e : ThreadEvent Bool) : Decidable (SnapshotsAhead s e) :=
  match e with
  | .getSnapshot _ _ => inferInstanceAs (Decidable (_ ∧ _))
  | .call _ _ => .isTrue trivial
  | .releaseSnapshot _ => .isTrue trivial
  | .record _ _ _ => .isTrue trivial

instance (olds news : List ℕ) : Decidable (Extends olds news) := inferInstanceAs (Decidable (∀ n ∈ news, ∀ o ∈ olds, _))

instance (s : Threads Bool) (e : ThreadEvent Bool) : Decidable (UpdatesInOrder s e) :=
  match e with
  | .call _ _ => inferInstanceAs (Decidable (_ → _ → _ ∧ _))
  | .getSnapshot _ _ => .isTrue trivial
  | .releaseSnapshot _ => .isTrue trivial
  | .record _ _ _ => .isTrue trivial

def olderFirst : List (ThreadEvent Bool) :=
  [.getSnapshot 15 16] ++ List.replicate 10 (.call false false) ++ List.replicate 14 (.call true false) ++
    [.record ⟨12, 18⟩ 15 true]

/-- The newer call fetches its list first; the older one updates last. -/
def newerFirst : List (ThreadEvent Bool) :=
  [.getSnapshot 15 16] ++ List.replicate 5 (.call false false) ++ List.replicate 13 (.call true false) ++
    [.record ⟨12, 18⟩ 15 true] ++ List.replicate 9 (.call false false)

theorem snapshotUpdates_settle_two :
    ∃ s : Threads Bool, Interleaved ⟨0, 0⟩ (fun s e => SnapshotsAhead s e ∧ UpdatesInOrder s e) s ∧
      s.recorded = [(12, 15)] ∧ s.db.snapshotsVersion = 20 ∧ OnRecord s.db 12 15 := by
  obtain ⟨s, run, recorded, version, live⟩ :
      ∃ s ∈ Transition.checkedRun (Threads.step ⟨0, 0⟩) (fun s e => SnapshotsAhead s e ∧
        UpdatesInOrder s e) twoVersions olderFirst,
        s.recorded = [(12, 15)] ∧ s.db.snapshotsVersion = 20 ∧ s.db.snapshotList.map (·.number) = [15] := by
    decide +kernel
  have reach : Interleaved ⟨0, 0⟩ _ s := .checkedRun (.start twoVersions_initial) run
  refine ⟨s, reach, recorded, version, (snapshotUpdates_settle reach).1 (12, 15) ?_ ?_⟩
  · rw [recorded]
    exact mem_singleton_self _
  · rw [live]
    exact mem_singleton_self _

/-- The older list is installed over the newer: the version goes back, and a live snapshot's record is dropped. -/
theorem staleUpdate_drops_record :
    ∃ s : Threads Bool, Interleaved ⟨0, 0⟩ SnapshotsAhead s ∧ (s.calls false).pc = .finished ∧ (s.calls true).pc = .finished ∧
      (s.calls false).newMax = 10 ∧ (s.calls true).newMax = 20 ∧ s.db.snapshotsVersion = 10 ∧ s.db.snapshotsAll = [] ∧
      (s.calls true).snapshots = [15] ∧ s.db.snapshotList.map (·.number) = [15] ∧ (12, 15) ∈ s.recorded ∧
      15 ∉ s.db.oldCommitMap := by
  obtain ⟨s, run, facts⟩ : ∃ s ∈ Transition.checkedRun (Threads.step ⟨0, 0⟩) SnapshotsAhead twoVersions newerFirst,
      (s.calls false).pc = .finished ∧ (s.calls true).pc = .finished ∧ (s.calls false).newMax = 10 ∧
        (s.calls true).newMax = 20 ∧ s.db.snapshotsVersion = 10 ∧ s.db.snapshotsAll = [] ∧ (s.calls true).snapshots = [15] ∧
        s.db.snapshotList.map (·.number) = [15] ∧ (12, 15) ∈ s.recorded ∧ 15 ∉ s.db.oldCommitMap := by
    decide +kernel
  exact ⟨s, .checkedRun (.start twoVersions_initial) run, facts⟩

end

end VcompProof.WritePrepared
