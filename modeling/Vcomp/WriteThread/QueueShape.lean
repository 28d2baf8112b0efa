import Vcomp.Foundation.LinkedQueue
import Vcomp.WriteThread.BatchGroup

namespace VcompProof.WriteThread

open VcompModel.WriteThread LinkedQueue List Option

variable {ι : Type*} {k k' : Links ι} {queue group removed ahead late : List ι} {newest head w x re : ι}
  {xs : List ι} {v : Option ι} {lo hi : List ι} {rest : List ι} {we : ι}

def SameLinks (k k' : Links ι) (xs : List ι) : Prop := ∀ x ∈ xs, k'.older x = k.older x ∧ k'.newer x = k.newer x

structure Late (k : Links ι) (newest : ι) (late : List ι) : Prop where
  down : Down k.older (some newest) late
  unset : ∀ x ∈ late, k.newer x = none
  newestWriter : k.newestWriter = top (some newest) late

structure Steady (k : Links ι) (queue : List ι) : Prop where
  down : Down k.older none queue
  partly : Partly k.newer none queue
  newestWriter : k.newestWriter = top none queue

/-- The queue while missing links are created, down to `head`. -/
structure Linking (k : Links ι) (queue late : List ι) (newest head : ι) : Prop where
  down : Down k.older none queue
  read : top none queue = some newest
  partly : ∃ lo hi, queue = lo ++ head :: hi ∧ Partly k.newer (some head) lo ∧ Up k.newer none (head :: hi)
  late : Late k newest late

/-- The queue while a leader picks its group: `w` was looked at last, `ahead` not yet. -/
structure Scanning (k : Links ι) (group removed ahead late : List ι) (newest w : ι) : Prop where
  down : Down k.older none (group ++ ahead)
  up : Up k.newer none (group ++ ahead)
  downRemoved : Down k.older none removed
  upRemoved : ∃ v, Up k.newer v removed
  last : top none group = some w ∨ top none removed = some w
  next : k.newer w = bottom none ahead
  read : top (some w) ahead = some newest
  late : Late k newest late

/-- The queue with the removed writers back in it and the late ones not yet moved behind them. -/
structure Grafted (k : Links ι) (group removed late : List ι) (newest re : ι) : Prop where
  down : Down k.older none (group ++ removed)
  up : Up k.newer none (group ++ removed)
  last : top none removed = some re
  mem : newest ∈ group ++ removed
  late : Late k newest late

theorem SameLinks.mono {ys : List ι} (eq : SameLinks k k' ys) (sub : ∀ x ∈ xs, x ∈ ys) : SameLinks k k' xs :=
  fun x mem => eq x (sub x mem)

theorem Late.congr (shape : Late k newest late) (eq : SameLinks k k' late) (newestSame : k'.newestWriter = k.newestWriter) :
    Late k' newest late where
  down := shape.down.congr fun x mem => (eq x mem).1
  unset := fun x mem => (eq x mem).2.trans (shape.unset x mem)
  newestWriter := newestSame.trans shape.newestWriter

theorem Steady.congr (shape : Steady k queue) (eq : SameLinks k k' queue) (newestSame : k'.newestWriter = k.newestWriter) :
    Steady k' queue where
  down := shape.down.congr fun x mem => (eq x mem).1
  partly := shape.partly.congr fun x mem => (eq x mem).2
  newestWriter := newestSame.trans shape.newestWriter

theorem Scanning.mem (shape : Scanning k group removed ahead late newest w) : w ∈ group ++ removed := by
  rcases shape.last with last | last
  · exact mem_append_left _ (mem_of_top last)
  · exact mem_append_right _ (mem_of_top last)

section

/-! What the writers the leader works on look like does not depend on late ones. -/

variable {late' : List ι}

theorem Linking.relate (shape : Linking k queue late newest head) (eq : SameLinks k k' queue) (tail : Late k' newest late') :
    Linking k' queue late' newest head where
  down := shape.down.congr fun x mem => (eq x mem).1
  read := shape.read
  partly := by
    obtain ⟨lo, hi, split, partly, up⟩ := shape.partly
    have inside : ∀ x ∈ lo, x ∈ queue := fun x mem => by rw [split]; exact mem_append_left _ mem
    have above : ∀ x ∈ head :: hi, x ∈ queue := fun x mem => by rw [split]; exact mem_append_right _ mem
    exact ⟨lo, hi, split, partly.congr fun x mem => (eq x (inside x mem)).2,
      up.congr fun x mem => (eq x (above x mem)).2⟩
  late := tail

theorem Scanning.relate (shape : Scanning k group removed ahead late newest w)
    (eq : SameLinks k k' (group ++ (removed ++ ahead))) (tail : Late k' newest late') :
    Scanning k' group removed ahead late' newest w where
  down := shape.down.congr fun x mem => (eq x (by simp only [mem_append] at mem ⊢; tauto)).1
  up := shape.up.congr fun x mem => (eq x (by simp only [mem_append] at mem ⊢; tauto)).2
  downRemoved := shape.downRemoved.congr fun x mem => (eq x (by simp only [mem_append]; tauto)).1
  upRemoved := by
    obtain ⟨v, up⟩ := shape.upRemoved
    exact ⟨v, up.congr fun x mem => (eq x (by simp only [mem_append]; tauto)).2⟩
  last := shape.last
  next := by
    have inside := mem_append.mp shape.mem
    exact (eq w (by simp only [mem_append]; tauto)).2.trans shape.next
  read := shape.read
  late := tail

theorem Grafted.relate (shape : Grafted k group removed late newest re) (eq : SameLinks k k' (group ++ removed))
    (tail : Late k' newest late') : Grafted k' group removed late' newest re :=
  { shape with
    down := shape.down.congr fun x mem => (eq x mem).1
    up := shape.up.congr fun x mem => (eq x mem).2
    late := tail }

end

theorem Steady.linking (shape : Steady k queue) (read : k.newestWriter = some newest) :
    Linking k queue [] newest newest where
  down := shape.down
  read := shape.newestWriter ▸ read
  partly := by
    have is : top none queue = some newest := shape.newestWriter ▸ read
    obtain ⟨front, rfl⟩ := exists_snoc_of_top is
    obtain ⟨partly, unset⟩ := shape.partly.init
    exact ⟨front, [], rfl, partly, unset, trivial⟩
  late := ⟨trivial, nofun, read⟩

section

variable (shape : Linking k queue late newest head)
include shape

theorem Linking.older_head (split : queue = lo ++ head :: hi) : k.older head = top none lo := by
  have down := shape.down
  rw [split, down_append] at down
  exact down.2.1

theorem Linking.finish (ends : k.missingNewer head = none) : Up k.newer none queue := by
  obtain ⟨lo, hi, rfl, partly, up⟩ := shape.partly
  have lt := shape.older_head rfl
  rcases lo.eq_nil_or_concat with rfl | ⟨front, next, rfl⟩
  · exact up
  · rw [concat_eq_append] at lt partly ⊢
    rw [top_snoc] at lt
    have set : k.newer next ≠ none := by
      intro missing
      simp only [Links.missingNewer, lt, missing, isSome_none, Bool.false_eq_true, if_false] at ends
      cases ends
    rw [up_append]
    exact ⟨partly.up_of_set set, up⟩

theorem Linking.steady (ends : k.missingNewer head = none) : Steady k (queue ++ late) where
  down := by
    rw [down_append, shape.read]
    exact ⟨shape.down, shape.late.down⟩
  partly := (shape.finish ends).partly.append shape.late.unset
  newestWriter := by rw [top_append, shape.read, shape.late.newestWriter]

end

theorem Linking.scanning {leader : ι} (shape : Linking k (leader :: ahead) late newest head)
    (ends : k.missingNewer head = none) : Scanning k [leader] [] ahead late newest leader :=
  { shape with
    up := shape.finish ends
    downRemoved := trivial
    upRemoved := ⟨none, trivial⟩
    last := .inl rfl
    next := (shape.finish ends).1 }

theorem Scanning.ahead_nil (shape : Scanning k group removed ahead late newest newest)
    (nodup : (group ++ (removed ++ (ahead ++ late))).Nodup) : ahead = [] := by
  apply nil_of_top shape.read
  intro mem
  rw [← append_assoc] at nodup
  exact (nodup_append'.mp nodup).2.2 shape.mem (mem_append_left late mem)

theorem Scanning.more (shape : Scanning k group removed ahead late newest w) (on : w ≠ newest) :
    ∃ x rest, ahead = x :: rest ∧ k.newer w = some x := by
  cases ahead with
  | nil => exact absurd (some.inj shape.read) on
  | cons x rest => exact ⟨x, rest, rfl, shape.next⟩

theorem Scanning.grow (shape : Scanning k group removed (x :: rest) late newest w) :
    Scanning k (group ++ [x]) removed rest late newest x :=
  { shape with
    down := by
      rw [append_assoc]
      exact shape.down
    up := by
      rw [append_assoc]
      exact shape.up
    last := .inl top_snoc
    next := (up_append.mp shape.up).2.1 }

theorem Scanning.steady (shape : Scanning k group [] [] late newest newest) : Steady k (group ++ late) := by
  have down := shape.down
  have up := shape.up
  have last : top none group = some newest := by
    rcases shape.last with last | impossible
    · exact last
    · cases impossible
  rw [append_nil] at down up
  refine ⟨?_, up.partly.append shape.late.unset, ?_⟩
  · rw [down_append, last]
    exact ⟨down, shape.late.down⟩
  · rw [top_append, last, shape.late.newestWriter]

def ends : List ι → Links.Ends ι
  | [] => none
  | x :: xs => (top (some x) xs).map fun last => (x, last)

theorem ends_snoc (xs : List ι) (w : ι) : ends (xs ++ [w]) = some ((bottom (some w) xs).getD w, w) := by
  cases xs with
  | nil => rfl
  | cons x xs =>
    rw [cons_append, ends, top_snoc]
    rfl

theorem ends_eq_some {rb : ι} (is : ends removed = some (rb, re)) :
    ∃ rest, removed = rb :: rest ∧ top none removed = some re := by
  cases removed with
  | nil => cases is
  | cons x rest =>
    obtain ⟨last, top, eq⟩ := map_eq_some_iff.mp is
    obtain ⟨rfl, rfl⟩ := Prod.mk.inj eq
    exact ⟨rest, rfl, top⟩

section

variable (shape : Grafted k group removed late newest re)
include shape

theorem Grafted.newest_out (nodup : (group ++ (removed ++ late)).Nodup) : newest ∉ late := by
  intro mem
  rw [← append_assoc] at nodup
  exact (nodup_append'.mp nodup).2.2 shape.mem mem

theorem Grafted.swap (nodup : (group ++ (removed ++ late)).Nodup) (unchanged : k.newestWriter = some newest) :
    late = [] ∧ Steady { k with newestWriter := some re } (group ++ removed) := by
  have none : late = [] := by
    apply nil_of_top (shape.late.newestWriter.symm.trans unchanged)
    exact shape.newest_out nodup
  refine ⟨none, shape.down, shape.up.partly, ?_⟩
  obtain ⟨front, split⟩ := exists_snoc_of_top shape.last
  rw [split, ← append_assoc, top_snoc]

theorem Grafted.late_of_ne (changed : k.newestWriter ≠ some newest) :
    ∃ w lo, k.newestWriter = some w ∧ late = lo ++ [w] := by
  rcases late.eq_nil_or_concat with rfl | ⟨front, last, rfl⟩
  · exact absurd shape.late.newestWriter changed
  · have read := shape.late.newestWriter
    rw [concat_eq_append, top_snoc] at read
    exact ⟨last, front, read, concat_eq_append⟩

theorem Grafted.older_late (split : late = lo ++ w :: hi) : k.older w = top (some newest) lo := by
  have down := shape.late.down
  rw [split, down_append] at down
  exact down.2.1

end

theorem Steady.nobody_behind (shape : Steady k (group ++ late)) (nodup : (group ++ late).Nodup) {last : ι}
    (is : top none group = some last) (newestLast : k.newestWriter = some last) : late = [] := by
  have read := shape.newestWriter
  rw [top_append, is, newestLast] at read
  apply nil_of_top read.symm
  intro mem
  obtain ⟨front, rfl⟩ := exists_snoc_of_top is
  exact (nodup_append'.mp nodup).2.2 (mem_append_right front mem_cons_self) mem

theorem Steady.somebody_behind (shape : Steady k (group ++ late)) {last : ι}
    (is : top none group = some last) (other : k.newestWriter ≠ some last) : late ≠ [] := by
  rintro rfl
  rw [append_nil] at shape
  exact other (shape.newestWriter.trans is)

variable [DecidableEq ι]

def arrive (k : Links ι) (w : ι) : Links ι := { k.setOlder w k.newestWriter with newestWriter := some w }

theorem setOlder_same (outside : w ∉ xs) : SameLinks k (k.setOlder w v) xs :=
  fun x mem => ⟨update_outside k.older v outside x mem, rfl⟩

theorem setNewer_same (outside : w ∉ xs) : SameLinks k (k.setNewer w v) xs :=
  fun x mem => ⟨rfl, update_outside k.newer v outside x mem⟩

theorem arrive_same (outside : w ∉ xs) : SameLinks k (arrive k w) xs := setOlder_same outside

theorem arrive_down (down : Down k.older v xs) (read : k.newestWriter = top v xs) (outside : w ∉ xs) :
    Down (arrive k w).older v (xs ++ [w]) := by
  rw [down_append]
  refine ⟨down.update outside, ?_, trivial⟩
  exact (Function.update_self w k.newestWriter k.older).trans read

theorem Late.arrive (shape : Late k newest late) (outside : w ∉ late) (fresh : k.newer w = none) :
    Late (arrive k w) newest (late ++ [w]) where
  down := arrive_down shape.down shape.newestWriter outside
  unset := by
    intro x mem
    rcases mem_append.mp mem with mem | mem
    · exact shape.unset x mem
    · obtain rfl := mem_singleton.mp mem
      exact fresh
  newestWriter := top_snoc.symm

theorem Steady.arrive (shape : Steady k queue) (outside : w ∉ queue) (fresh : k.newer w = none) :
    Steady (arrive k w) (queue ++ [w]) where
  down := arrive_down shape.down shape.newestWriter outside
  partly := shape.partly.raise.snoc fresh
  newestWriter := top_snoc.symm

theorem Linking.round (shape : Linking k queue late newest head) {next : ι} (goes : k.missingNewer head = some next)
    (nodup : (queue ++ late).Nodup) :
    next ∈ queue ∧ Linking (k.setNewer next (some head)) queue late newest next := by
  obtain ⟨lo, hi, split, partly, up⟩ := shape.partly
  have lt := shape.older_head split
  rcases lo.eq_nil_or_concat with rfl | ⟨front, last, rfl⟩
  · rw [Links.missingNewer, lt] at goes
    cases goes
  · rw [concat_eq_append] at lt partly split
    rw [top_snoc] at lt
    simp only [Links.missingNewer, lt] at goes
    split at goes
    · cases goes
    next missing =>
      obtain rfl : last = next := some.inj goes
      have unset : k.newer last = none := by simpa using missing
      have parts := nodup_append'.mp nodup
      have apart := parts.1
      rw [split, append_assoc, nodup_append'] at apart
      have inside : last ∈ queue := by
        rw [split]
        exact mem_append_left _ (mem_append_right _ mem_cons_self)
      refine ⟨inside, shape.down, shape.read, ⟨front, head :: hi, ?_, ?_, ?_⟩, ?_⟩
      · rw [split, append_assoc]
        rfl
      · apply (partly.init_of_unset unset).update
        intro mem
        exact apart.2.2 mem mem_cons_self
      · refine ⟨Function.update_self _ _ _, up.update ?_⟩
        exact (nodup_cons.mp apart.2.1).1
      · apply shape.late.congr (setNewer_same _) rfl
        intro mem
        exact parts.2.2 inside mem

/-- The links after the writer `x` was moved to `r_list`. -/
def moved (k : Links ι) (removed : List ι) (we x : ι) : Links ι := ((k.remove x we).pushRemoved x (ends removed)).1

theorem pushRemoved_spec (k : Links ι) (removed : List ι) (x : ι) :
    (k.pushRemoved x (ends removed)).1.older = Function.update k.older x (top none removed) ∧
      ((k.pushRemoved x (ends removed)).1.newer = match top none removed with
        | none => k.newer
        | some re => Function.update k.newer re (some x)) ∧
      (k.pushRemoved x (ends removed)).2 = ends (removed ++ [x]) := by
  rw [ends_snoc]
  cases removed with
  | nil => exact ⟨rfl, rfl, rfl⟩
  | cons y ys =>
    cases last : top (some y) ys with
    | none => exact absurd last top_some_ne_none
    | some re =>
      rw [ends, top_cons, last]
      exact ⟨rfl, rfl, rfl⟩

theorem remove_newer (k : Links ι) (x we : ι) : (k.remove x we).newer = Function.update k.newer we (k.newer x) := by
  unfold Links.remove
  dsimp only
  split <;> rfl

theorem remove_older (k : Links ι) (apart : x ≠ we) : (k.remove x we).older = match k.newer x with
      | none => k.older
      | some above => Function.update k.older above (some we) := by
  have eq : (k.setNewer we (k.newer x)).newer x = k.newer x := Function.update_of_ne apart _ _
  unfold Links.remove
  dsimp only
  rw [eq]
  cases k.newer x <;> rfl

theorem moved_newestWriter (k : Links ι) (removed : List ι) (we x : ι) :
    (moved k removed we x).newestWriter = k.newestWriter := by
  have first : (k.remove x we).newestWriter = k.newestWriter := by
    unfold Links.remove
    dsimp only
    split <;> rfl
  rw [← first, moved]
  cases ends removed <;> rfl

theorem moved_older_of_ne {z : ι} (apart : x ≠ we) (self : z ≠ x) (above : k.newer x ≠ some z) :
    (moved k removed we x).older z = k.older z := by
  rw [moved, (pushRemoved_spec _ _ _).1, Function.update_of_ne self, remove_older k apart]
  split
  · rfl
  next y set =>
    apply Function.update_of_ne
    rintro rfl
    exact above set

theorem moved_newer_of_ne {z : ι} (lt : z ≠ we) (last : top none removed ≠ some z) :
    (moved k removed we x).newer z = k.newer z := by
  rw [moved, (pushRemoved_spec _ _ _).2.1]
  split
  · rw [remove_newer, Function.update_of_ne lt]
  next re is =>
    rw [Function.update_of_ne, remove_newer, Function.update_of_ne lt]
    rintro rfl
    exact last is

theorem Scanning.move (shape : Scanning k group removed (x :: rest) late newest w)
    (last : top none group = some we) (nodup : (group ++ (removed ++ (x :: rest ++ late))).Nodup) :
    Scanning (moved k removed we x) group (removed ++ [x]) rest late newest x := by
  obtain ⟨front, rfl⟩ := exists_snoc_of_top last
  obtain ⟨downGroup, olderX, downRest⟩ := down_append.mp shape.down
  obtain ⟨upGroup, newerX, upRest⟩ := up_append.mp shape.up
  obtain ⟨groupNodup, othersNodup, groupApart⟩ := nodup_append'.mp nodup
  obtain ⟨removedNodup, aheadNodup, removedApart⟩ := nodup_append'.mp othersNodup
  obtain ⟨xOut, restNodup⟩ := nodup_cons.mp aheadNodup
  obtain ⟨restOwn, -, restApart⟩ := nodup_append'.mp restNodup
  have weMem : we ∈ front ++ [we] := mem_append_right front mem_cons_self
  have xMem : x ∈ removed ++ (x :: rest ++ late) := mem_append_right removed mem_cons_self
  have apart : x ≠ we := fun eq => groupApart weMem (eq ▸ xMem)
  have reMem : ∀ {re}, top none removed = some re → re ∈ removed := mem_of_top
  have aboveRest : ∀ {z}, k.newer x = some z → z ∈ rest := by
    intro z set
    rw [newerX] at set
    cases rest with
    | nil => cases set
    | cons y ys =>
      obtain rfl := some.inj set
      exact mem_cons_self
  -- the links of everyone but the writers at the seams stay
  have olderSame : ∀ z, z ≠ x → z ∉ rest → (moved k removed we x).older z = k.older z :=
    fun z self out => moved_older_of_ne apart self fun set => out (aboveRest set)
  have newerSame : ∀ z, z ≠ we → z ∉ removed → (moved k removed we x).newer z = k.newer z :=
    fun z lt out => moved_newer_of_ne lt fun is => out (reMem is)
  have inOthers : ∀ z ∈ rest ++ late, z ∈ removed ++ (x :: rest ++ late) := fun z mem =>
    mem_append_right removed (mem_cons_of_mem x mem)
  have newerAhead : ∀ z ∈ rest ++ late, (moved k removed we x).newer z = k.newer z := by
    intro z mem
    apply newerSame z
    · rintro rfl
      exact groupApart weMem (inOthers z mem)
    · intro other
      exact removedApart other (mem_cons_of_mem x mem)
  have newerSelf : (moved k removed we x).newer x = k.newer x :=
    newerSame x apart fun other => removedApart other mem_cons_self
  refine ⟨?_, ?_, ?_, ?_, ?_, ?_, shape.read, ?_⟩
  · rw [down_append, last]
    constructor
    · apply downGroup.congr
      intro z mem
      apply olderSame z
      · rintro rfl
        exact groupApart mem xMem
      · intro other
        exact groupApart mem (inOthers z (mem_append_left late other))
    · cases rest with
      | nil => trivial
      | cons y ys =>
        have newerY : k.newer x = some y := newerX
        have older : (moved k removed we x).older =
            Function.update (Function.update k.older y (some we)) x (top none removed) := by
          rw [moved, (pushRemoved_spec _ _ _).1, remove_older k apart, newerY]
        rw [older]
        apply Down.update
        · exact downRest.retarget (nodup_cons.mp restOwn).1
        · intro mem
          exact xOut (mem_append_left late mem)
  · rw [up_append]
    constructor
    · have set : (moved k removed we x).newer we = k.newer x := by
        rw [moved, (pushRemoved_spec _ _ _).2.1]
        split
        · rw [remove_newer, Function.update_self]
        next re is =>
          rw [Function.update_of_ne, remove_newer, Function.update_self]
          rintro rfl
          exact groupApart weMem (mem_append_left _ (reMem is))
      apply (upGroup.retarget (v := bottom none rest) (fun mem => ?_)).congr
      · intro z mem
        by_cases eq : z = we
        · rw [eq, Function.update_self, set, newerX]
        · rw [Function.update_of_ne eq]
          apply newerSame z eq
          intro other
          exact groupApart mem (mem_append_left _ other)
      · exact (nodup_append'.mp groupNodup).2.2 mem mem_cons_self
    · exact upRest.congr fun z mem => newerAhead z (mem_append_left late mem)
  · rw [down_append]
    constructor
    · apply shape.downRemoved.congr
      intro z mem
      apply olderSame z
      · rintro rfl
        exact removedApart mem mem_cons_self
      · intro other
        exact removedApart mem (mem_cons_of_mem x (mem_append_left late other))
    · refine ⟨?_, trivial⟩
      rw [moved, (pushRemoved_spec _ _ _).1, Function.update_self]
  · refine ⟨k.newer x, up_append.mpr ⟨?_, newerSelf, trivial⟩⟩
    obtain ⟨v, up⟩ := shape.upRemoved
    rcases removed.eq_nil_or_concat with rfl | ⟨init, re, rfl⟩
    · trivial
    · rw [concat_eq_append] at up removedNodup groupApart ⊢
      have notLast : ∀ z ∈ init ++ [re], z ≠ we := by
        rintro z mem rfl
        exact groupApart weMem (mem_append_left _ mem)
      have reOut : re ∉ init := fun mem => (nodup_append'.mp removedNodup).2.2 mem mem_cons_self
      apply (up.retarget (v := some x) reOut).congr
      intro z mem
      by_cases eq : z = re
      · rw [eq, Function.update_self, moved, (pushRemoved_spec _ _ _).2.1, top_snoc]
        exact Function.update_self _ _ _
      · rw [Function.update_of_ne eq]
        apply moved_newer_of_ne (notLast z mem)
        rw [top_snoc]
        exact fun is => eq (some.inj is).symm
  · exact .inr top_snoc
  · rw [newerSelf, newerX]
  · apply shape.late.congr _ (moved_newestWriter k removed we x)
    intro z mem
    constructor
    · apply olderSame z
      · rintro rfl
        exact xOut (mem_append_right rest mem)
      · intro other
        exact restApart other mem
    · exact newerAhead z (mem_append_right rest mem)

theorem Scanning.graft {rb : ι} (shape : Scanning k group removed [] late newest newest) (last : top none group = some we)
    (rList : ends removed = some (rb, re)) (nodup : (group ++ (removed ++ late)).Nodup) :
    Grafted (k.graft we rb re) group removed late newest re := by
  obtain ⟨rest, rfl, lastRemoved⟩ := ends_eq_some rList
  obtain ⟨groupNodup, othersNodup, groupApart⟩ := nodup_append'.mp nodup
  obtain ⟨removedNodup, -, removedApart⟩ := nodup_append'.mp othersNodup
  obtain ⟨v, upRemoved⟩ := shape.upRemoved
  have weMem : we ∈ group := mem_of_top last
  have reMem : re ∈ rb :: rest := mem_of_top lastRemoved
  have inOthers : ∀ z ∈ rb :: rest, z ∈ rb :: rest ++ late := fun z mem => mem_append_left late mem
  have groupOut : ∀ z ∈ rb :: rest, z ∉ group := fun z mem other => groupApart other (inOthers z mem)
  refine ⟨?_, ?_, lastRemoved, shape.mem, ?_⟩
  · have down := shape.down
    rw [append_nil] at down
    rw [down_append, last]
    refine ⟨down.update (groupOut rb mem_cons_self), ?_⟩
    exact shape.downRemoved.retarget (nodup_cons.mp removedNodup).1
  · have up := shape.up
    rw [append_nil] at up
    rw [up_append]
    constructor
    · obtain ⟨front, rfl⟩ := exists_snoc_of_top last
      have weOut : we ∉ front := fun mem => (nodup_append'.mp groupNodup).2.2 mem mem_cons_self
      exact Up.retarget (up.update (groupOut re reMem)) weOut
    · obtain ⟨front, split⟩ := exists_snoc_of_top lastRemoved
      have reOut : re ∉ front := by
        intro mem
        rw [split] at removedNodup
        exact (nodup_append'.mp removedNodup).2.2 mem mem_cons_self
      apply Up.update
      · rw [split] at upRemoved ⊢
        exact upRemoved.retarget reOut
      · exact fun mem => groupOut we mem weMem
  · refine shape.late.congr (fun z mem => ?_) rfl
    constructor
    · apply Function.update_of_ne
      rintro rfl
      exact removedApart mem_cons_self mem
    · show Function.update (Function.update k.newer re none) we (some rb) z = k.newer z
      rw [Function.update_of_ne, Function.update_of_ne]
      · rintro rfl
        exact removedApart reMem mem
      · rintro rfl
        exact groupApart weMem (mem_append_right _ mem)

theorem Grafted.relinkLate (shape : Grafted k group removed late newest re) (nodup : (group ++ (removed ++ late)).Nodup)
    (split : late = lo ++ w :: hi) (ends : k.older w = some newest) :
    Steady (k.setOlder w (some re)) (group ++ (removed ++ late)) := by
  have first : lo = [] := by
    apply nil_of_top ((shape.older_late split).symm.trans ends)
    intro mem
    exact shape.newest_out nodup (split ▸ mem_append_left _ mem)
  rw [first, nil_append] at split
  subst split
  rw [← append_assoc] at nodup ⊢
  obtain ⟨-, lateNodup, apart⟩ := nodup_append'.mp nodup
  have out : w ∉ group ++ removed := fun mem => apart mem mem_cons_self
  have last : top none (group ++ removed) = some re := by
    obtain ⟨front, inRemoved⟩ := exists_snoc_of_top shape.last
    rw [inRemoved, ← append_assoc, top_snoc]
  refine ⟨?_, shape.up.partly.append shape.late.unset, ?_⟩
  · rw [down_append, last]
    exact ⟨shape.down.update out, shape.late.down.retarget (nodup_cons.mp lateNodup).1⟩
  · rw [top_append]
    exact shape.late.newestWriter

theorem Steady.handOver {next : ι} (shape : Steady k (group ++ next :: rest)) (nodup : (group ++ next :: rest).Nodup) :
    Steady (k.setOlder next none) (next :: rest) ∧ Down (k.setOlder next none).older none group := by
  obtain ⟨-, restNodup, apart⟩ := nodup_append'.mp nodup
  obtain ⟨downGroup, downRest⟩ := down_append.mp shape.down
  refine ⟨⟨?_, shape.partly.drop, ?_⟩, downGroup.update fun mem => apart mem mem_cons_self⟩
  · exact downRest.retarget (nodup_cons.mp restNodup).1
  · have read := shape.newestWriter
    rw [top_append] at read
    exact read

end VcompProof.WriteThread
