import Vcomp.WriteThread.GroupFormation

namespace VcompProof.WriteThread

open VcompModel.WriteThread LinkedQueue Transition List

variable {ι : Type*} [DecidableEq ι] {writers : ι → Writer} {maxBytes : ℕ} {s s' : State ι} {t : Tenure ι}
  {exited : List (List ι)} {g : List ι} {w : ι}

def ungrouped (s : State ι) : List ι := s.arrived.filter fun w => w ∉ s.groups.flatten

/-- The group a leader has formed and still holds in the queue. -/
def groupOf : Pc ι → Option (WriteGroup ι)
  | .writing group | .release group | .relink group _ | .handOver group => some group
  | _ => none

def Rearranging : Pc ι → Prop
  | .scan _ _ _ _ _ | .swap _ _ _ | .walk _ _ _ _ => True
  | _ => False

def Held (k : Links ι) (w : ι) : Pc ι → Prop
  | .scan _ _ group rList _ =>
    Reaches k.older group.lastWriter w ∨ ∃ rb re, rList = some (rb, re) ∧ Reaches k.older re w
  | .swap _ re _ | .walk _ re _ _ => Reaches k.older re w
  | _ => False

/-- Links lead from `newest_writer_` to `w` and on to the leader, or from what a rearranging leader holds. -/
def Queued (s : State ι) (leader w : ι) : Prop :=
  (∃ newest, s.links.newestWriter = some newest ∧ Reaches s.links.older newest w ∧
    (¬ Rearranging (s.pc leader) → Reaches s.links.older w leader)) ∨ Held s.links w (s.pc leader)

/-- No writer is lost, served twice or overtaken. -/
structure WritersKept (writers : ι → Writer) (maxBytes : ℕ) (s : State ι) : Prop where
  noNullLink : ∀ w, s.pc w ≠ .crashed
  oneLeader : ∀ v w, Leading (s.pc v) → Leading (s.pc w) → v = w
  linkedOnce : s.arrived.Nodup
  oneGroup : s.groups.flatten.Nodup
  groupInOrder : ∀ g ∈ s.groups, g.Sublist s.arrived
  compatible : ∀ leader rest, leader :: rest ∈ s.groups → ∀ w ∈ rest, Shares writers maxBytes leader w
  queueInOrder : ∀ leader group, groupOf (s.pc leader) = some group →
    Down s.links.older (some group.lastWriter) (ungrouped s) ∧
      s.links.newestWriter = top (some group.lastWriter) (ungrouped s)
  completedInGroup : ∀ w, s.pc w = .completed → w ∈ s.groups.flatten
  accounted : ∀ w ∈ s.arrived, s.pc w = .completed ∨
    (∃ leader group cur, s.pc leader = .completing group cur ∧ group.members ∈ s.groups ∧ w ∈ group.members ∧
      Reaches s.links.older cur w) ∨
    ∃ leader, Leading (s.pc leader) ∧ Queued s leader w

section

omit [DecidableEq ι]

theorem Phase.groups {pc : Pc ι} (phase : Phase s exited t pc) : s.groups = exited ∨ s.groups = exited ++ [t.group] := by
  cases pc with
  | leading | walk => exact .inl phase.2.2.2.2.groups
  | linkNewer | scan | swap => exact .inl phase.2.2.2.groups
  | writing | release | relink => exact .inr phase.2.2.2.2.groups
  | handOver => exact .inr phase.2.2.2.2.2.2.groups
  | outside | linking | waiting | completing | completed | crashed => exact phase.elim

theorem Phase.behind {pc : Pc ι} (phase : Phase s exited t pc) {group : WriteGroup ι} (formed : groupOf pc = some group) :
    Collected s exited t ∧ Down s.links.older (some group.lastWriter) t.rest ∧
      s.links.newestWriter = top (some group.lastWriter) t.rest := by
  have steady : ∀ {group : WriteGroup ι}, t.removed = [] → t.ahead = [] → Steady s.links (t.group ++ t.late) →
      IsGroup group t → Down s.links.older (some group.lastWriter) t.rest ∧
        s.links.newestWriter = top (some group.lastWriter) t.rest := by
    intro group removed ahead shape isGroup
    have down := (down_append.mp shape.down).2
    have read := shape.newestWriter
    rw [isGroup.last] at down
    rw [top_append, isGroup.last] at read
    rw [Tenure.rest, removed, ahead]
    exact ⟨down, read⟩
  cases pc with
  | writing | release =>
    obtain ⟨removed, ahead, shape, isGroup, collected⟩ := phase
    cases formed
    exact ⟨collected, steady removed ahead shape isGroup⟩
  | relink =>
    obtain ⟨removed, -, ⟨newest, shape⟩, isGroup, collected⟩ := phase
    cases formed
    have down := (down_append.mp shape.down).2
    have read := shape.read
    rw [isGroup.last] at down
    rw [top_append, isGroup.last] at read
    rw [Tenure.rest, removed, nil_append, down_append, top_append, read]
    exact ⟨collected, ⟨down, shape.late.down⟩, shape.late.newestWriter⟩
  | handOver =>
    obtain ⟨removed, ahead, -, shape, -, isGroup, collected⟩ := phase
    cases formed
    exact ⟨collected, steady removed ahead shape isGroup⟩
  | outside | linking | waiting | leading | linkNewer | scan | swap | walk | completing
  | completed | crashed => cases formed

theorem queued_of_down {others : List ι} (down : Down s.links.older none (t.group ++ others))
    (read : s.links.newestWriter = top none (t.group ++ others)) (mem : w ∈ t.group ++ others) : Queued s t.leader w := by
  cases newest : top none (t.group ++ others) with
  | none => exact absurd newest top_some_ne_none
  | some top => exact .inl ⟨top, read.trans newest, down.reaches newest mem, fun _ => down.reaches_first mem⟩

theorem Late.reaches {newest : ι} {late : List ι} (shape : Late s.links newest late) (mem : w ∈ late) :
    ∃ head, s.links.newestWriter = some head ∧ Reaches s.links.older head w := by
  cases read : top (some newest) late with
  | none => exact absurd read top_some_ne_none
  | some head => exact ⟨head, shape.newestWriter.trans read, shape.down.reaches read mem⟩

theorem Linking.down_all {queue late : List ι} {newest head : ι} (shape : Linking s.links queue late newest head) :
    Down s.links.older none (queue ++ late) ∧ s.links.newestWriter = top none (queue ++ late) := by
  rw [down_append, top_append, shape.read]
  exact ⟨⟨shape.down, shape.late.down⟩, shape.late.newestWriter⟩

theorem Phase.queued (phase : Phase s exited t (s.pc t.leader)) (mem : w ∈ t.queue) : Queued s t.leader w := by
  have parts : w ∈ t.group ∨ w ∈ t.removed ∨ w ∈ t.ahead ∨ w ∈ t.late := by
    simpa [Tenure.queue, Tenure.rest] using mem
  have steady : t.removed = [] → t.ahead = [] → Steady s.links (t.group ++ t.late) → Queued s t.leader w := by
    intro removed ahead shape
    apply queued_of_down shape.down shape.newestWriter
    rw [removed, ahead] at parts
    rw [mem_append]
    simpa using parts
  have linking : ∀ {newest head}, t.removed = [] → Linking s.links (t.group ++ t.ahead) t.late newest head →
      Queued s t.leader w := by
    intro newest head removed shape
    obtain ⟨down, read⟩ := shape.down_all
    rw [append_assoc] at down read
    apply queued_of_down down read
    rw [removed] at parts
    rw [mem_append, mem_append]
    simpa using parts
  have fromLate : ∀ {newest}, Rearranging (s.pc t.leader) → Late s.links newest t.late → w ∈ t.late →
      Queued s t.leader w := by
    intro newest rearranging shape inLate
    obtain ⟨head, read, reaches⟩ := shape.reaches inLate
    exact .inl ⟨head, read, reaches, fun settled => absurd rearranging settled⟩
  have grafted : ∀ {newest re}, Rearranging (s.pc t.leader) → t.ahead = [] →
      Grafted s.links t.group t.removed t.late newest re → Queued s t.leader w ∨ Reaches s.links.older re w := by
    intro newest re rearranging ahead shape
    have inQueue : w ∈ t.group ++ t.removed ∨ w ∈ t.late := by
      rw [ahead] at parts
      rw [mem_append]
      tauto
    rcases inQueue with inQueue | inLate
    · have last : top none (t.group ++ t.removed) = some re := by
        obtain ⟨front, inRemoved⟩ := exists_snoc_of_top shape.last
        rw [inRemoved, ← append_assoc, top_snoc]
      exact .inr (shape.down.reaches last inQueue)
    · exact .inl (fromLate rearranging shape.late inLate)
  cases pc : s.pc t.leader with rw [pc] at phase
  | leading => exact steady phase.2.1 phase.2.2.1 phase.2.2.2.1
  | linkNewer => exact linking phase.2.1 phase.2.2.1
  | scan newest v group rList size =>
    obtain ⟨shape, isEnds, isGroup, -⟩ := phase
    have rearranging : Rearranging (s.pc t.leader) := by
      rw [pc]
      trivial
    rcases parts with inGroup | inRemoved | inAhead | inLate
    · right
      rw [pc]
      exact .inl ((down_append.mp shape.down).1.reaches isGroup.last inGroup)
    · right
      rw [pc]
      cases both : ends t.removed with
      | none =>
        rcases t.removed.eq_nil_or_concat with empty | ⟨front, last, split⟩
        · rw [empty] at inRemoved
          cases inRemoved
        · rw [split, concat_eq_append, ends_snoc] at both
          cases both
      | some pair =>
        obtain ⟨rb, re⟩ := pair
        obtain ⟨rest, -, last⟩ := ends_eq_some both
        exact .inr ⟨rb, re, isEnds.trans both, shape.downRemoved.reaches last inRemoved⟩
    · have last : top none (t.group ++ t.ahead) = some newest := by
        cases ahead : t.ahead with
        | nil =>
          rw [ahead] at inAhead
          cases inAhead
        | cons =>
          have read := shape.read
          rw [ahead] at read
          rw [top_append]
          exact read
      have down : Down s.links.older none ((t.group ++ t.ahead) ++ t.late) := by
        rw [down_append, last]
        exact ⟨shape.down, shape.late.down⟩
      have read : s.links.newestWriter = top none ((t.group ++ t.ahead) ++ t.late) := by
        rw [top_append, last]
        exact shape.late.newestWriter
      rw [append_assoc] at down read
      exact queued_of_down down read (mem_append_right _ (mem_append_left _ inAhead))
    · exact fromLate rearranging shape.late inLate
  | swap newest re group | walk newest re v group =>
    have rearranging : Rearranging (s.pc t.leader) := by
      rw [pc]
      trivial
    rcases grafted rearranging phase.1 phase.2.1 with queued | held
    · exact queued
    · right
      rw [pc]
      exact held
  | writing | release => exact steady phase.1 phase.2.1 phase.2.2.1
  | relink =>
    obtain ⟨removed, -, ⟨newest, shape⟩, -⟩ := phase
    exact linking removed shape
  | handOver => exact steady phase.1 phase.2.1 phase.2.2.2.1
  | outside | linking | waiting | completing | completed | crashed => exact phase.elim

theorem Finishing.accounted (finishing : Finishing s g) (mem : w ∈ g) :
    s.pc w = .completed ∨ ∃ leader group cur, s.pc leader = .completing group cur ∧ group.members = g ∧
      Reaches s.links.older cur w := by
  rcases finishing with completed | ⟨leader, rest, group, lo, cur, hi, -, split, members, pc, down, -, completed⟩
  · exact .inl (completed w mem)
  · rw [split, ← singleton_append, ← append_assoc] at mem
    rcases mem_append.mp mem with inLow | inHigh
    · exact .inr ⟨leader, group, cur, pc, members, down.reaches top_snoc inLow⟩
    · exact .inl (completed w inHigh)

end

theorem ungrouped_eq {rest : List ι} (nodup : s.arrived.Nodup) (sub : rest.Sublist s.arrived)
    (perm : s.arrived.Perm (s.groups.flatten ++ rest)) : ungrouped s = rest := by
  have apart := nodup_append'.mp (perm.nodup_iff.mp nodup)
  have kept : rest.filter (fun w => w ∉ s.groups.flatten) = rest := by
    rw [filter_eq_self]
    intro w mem
    simp only [decide_eq_true_eq]
    exact fun grouped => apart.2.2 grouped mem
  have longer : rest.Sublist (ungrouped s) := by
    rw [← kept]
    exact sub.filter _
  have eq : (ungrouped s).Perm rest := by
    apply (perm_ext_iff_of_nodup (nodup.filter _) apart.2.1).mpr
    intro w
    rw [mem_filter, decide_eq_true_eq, perm.mem_iff, mem_append]
    constructor
    · rintro ⟨grouped | mem, out⟩
      · exact absurd grouped out
      · exact mem
    · exact fun mem => ⟨.inr mem, fun grouped => apart.2.2 grouped mem⟩
  exact (longer.eq_of_length eq.length_eq.symm).symm

theorem Inv.writersKept (inv : Inv writers maxBytes s) : WritersKept writers maxBytes s := by
  obtain ⟨exited, served, tenure⟩ := inv.tenure
  have exitedGroups : ∀ g ∈ exited, g ∈ s.groups := by
    intro g member
    rcases tenure with idle | ⟨t, led⟩
    · rwa [idle.groups]
    · rcases led.phase.groups with eq | longer
      · rwa [eq]
      · rw [longer]
        exact mem_append_left _ member
  refine ⟨?_, ?_, inv.nodup, ?_, inv.inOrder, inv.sharing, ?_, ?_, ?_⟩
  · intro w crashed
    by_cases arrived : w ∈ s.arrived
    · have pcs := inv.arrived_pc arrived
      simp [crashed, Leading] at pcs
    · have pcs := (inv.fresh w arrived).2
      simp [crashed] at pcs
  · intro v w leadV leadW
    rcases tenure with idle | ⟨t, led⟩
    · exact absurd leadV (idle.no_leader inv served)
    · rw [led.eq_leader inv served leadV, led.eq_leader inv served leadW]
  · rcases tenure with idle | ⟨t, led⟩
    · rw [idle.groups]
      exact idle.perm.nodup_iff.mp inv.nodup
    · have all := led.perm.nodup_iff.mp inv.nodup
      rcases led.phase.groups with eq | longer
      · rw [eq]
        exact (nodup_append'.mp all).1
      · rw [longer, flatten_append]
        rw [Tenure.queue, ← append_assoc] at all
        simpa using (nodup_append'.mp all).1
  · intro leader group formed
    have leading : Leading (s.pc leader) := by
      cases pc : s.pc leader <;> rw [pc] at formed <;> trivial
    rcases tenure with idle | ⟨t, led⟩
    · exact absurd leading (idle.no_leader inv served)
    · obtain rfl := led.eq_leader inv served leading
      obtain ⟨collected, down, read⟩ := led.phase.behind formed
      have perm := led.perm
      rw [Tenure.queue, ← append_assoc] at perm
      have eq : ungrouped s = t.rest := by
        apply ungrouped_eq inv.nodup collected.left
        rw [collected.groups, flatten_append]
        simpa using perm
      rw [eq]
      exact ⟨down, read⟩
  · intro w completed
    have arrived : w ∈ s.arrived := by
      by_contra out
      have pcs := (inv.fresh w out).2
      simp [completed] at pcs
    rcases places tenure arrived with member | leading | waits
    · obtain ⟨g, mem, inGroup⟩ := mem_flatten.mp member
      exact mem_flatten.mpr ⟨g, exitedGroups g mem, inGroup⟩
    · rw [completed] at leading
      exact leading.elim
    · rw [completed] at waits
      cases waits
  · intro w arrived
    have leave : w ∈ exited.flatten → s.pc w = .completed ∨ ∃ leader group cur, s.pc leader = .completing group cur ∧
        group.members ∈ s.groups ∧ w ∈ group.members ∧ Reaches s.links.older cur w := by
      intro member
      obtain ⟨g, mem, inGroup⟩ := mem_flatten.mp member
      rcases (served g mem).accounted inGroup with completed | ⟨leader, group, cur, pc, rfl, reaches⟩
      · exact .inl completed
      · exact .inr ⟨leader, group, cur, pc, exitedGroups _ mem, inGroup, reaches⟩
    rcases tenure with idle | ⟨t, led⟩
    · exact (leave (idle.perm.mem_iff.mp arrived)).imp_right .inl
    · rcases mem_append.mp (led.perm.mem_iff.mp arrived) with member | member
      · exact (leave member).imp_right .inl
      · exact .inr (.inr ⟨t.leader, led.phase.leading, led.phase.queued member⟩)

section

def Run (writers : ι → Writer) (maxBytes : ℕ) (allowed : State ι → Event ι → Prop) : State ι → Prop :=
  Reachable Initial (fun s e s' => s.step writers maxBytes e = some s') allowed

omit [DecidableEq ι] in
theorem Inv.initial (initial : Initial s) : Inv writers maxBytes s where
  nodup := by
    rw [initial.arrived]
    exact nodup_nil
  fresh := fun w _ => ⟨initial.newer w, .inl (initial.pc w)⟩
  inOrder := by
    rw [initial.groups]
    nofun
  sharing := by
    rw [initial.groups]
    nofun
  tenure := by
    refine ⟨[], nofun, .inl ⟨?_, initial.newestWriter, initial.groups⟩⟩
    rw [initial.arrived]
    exact List.Perm.refl _

/-- Without a spurious failure of the leader's `compare_exchange_weak` no writer is lost. -/
theorem writeGroups_keep_writers (reach : Run writers maxBytes NoSpuriousSwap s) : WritersKept writers maxBytes s := by
  have inv : Inv writers maxBytes s :=
    reach.invariant (fun _ initial => Inv.initial initial) fun _ _ _ _ inv genuine taken => inv.step genuine taken
  exact inv.writersKept

def oneSync (w : Fin 4) : Writer := ⟨some 10, w = 1, false, false, .total, 0, none, false⟩

def nobodyLinked : State (Fin 4) := ⟨⟨none, fun _ => none, fun _ => none⟩, fun _ => .outside, [], []⟩

theorem nobodyLinked_initial : Initial nobodyLinked := ⟨fun _ => rfl, rfl, fun _ => rfl, fun _ => rfl, rfl, rfl⟩

def joins (w : Fin 4) : List (Event (Fin 4)) := [.load w, .link w false]

/-- The last writer comes while the leader, with the sync writer left out, is about to swap; it is moved behind, and the
queue handed over. -/
def lateWriter : List (Event (Fin 4)) :=
  joins 0 ++ joins 1 ++ joins 2 ++ List.replicate 7 (.lead 0 false) ++ joins 3 ++ List.replicate 8 (.lead 0 false)

theorem writeGroups_keep_writers_four : ∃ s : State (Fin 4), Run oneSync 1000 NoSpuriousSwap s ∧
    s.arrived = [0, 1, 2, 3] ∧ s.groups = [[0, 2]] ∧ s.pc 1 = .leading ∧ s.pc 2 = .completed ∧
    WritersKept oneSync 1000 s := by
  obtain ⟨s, run, arrived, groups, leads, completed⟩ :
      ∃ s ∈ checkedRun (State.step oneSync 1000) NoSpuriousSwap nobodyLinked lateWriter,
        s.arrived = [0, 1, 2, 3] ∧ s.groups = [[0, 2]] ∧ s.pc 1 = .leading ∧ s.pc 2 = .completed := by
    decide +kernel
  have reach : Run oneSync 1000 NoSpuriousSwap s := .checkedRun (.start nobodyLinked_initial) run
  exact ⟨s, reach, arrived, groups, leads, completed, writeGroups_keep_writers reach⟩

/-- Nobody comes, but the `compare_exchange_weak` fails: the leader walks off the end of the queue. -/
def failsForNoReason : List (Event (Fin 4)) := joins 0 ++ joins 1 ++ List.replicate 5 (.lead 0 false) ++
  List.replicate 3 (.lead 0 true)

theorem spuriousSwap_follows_null : ∃ s : State (Fin 4), Run oneSync 1000 (fun _ _ => True) s ∧ s.arrived = [0, 1] ∧
    s.links.newestWriter = some 1 ∧ s.pc 0 = .crashed := by
  obtain ⟨s, run, facts⟩ : ∃ s ∈ checkedRun (State.step oneSync 1000) (fun _ _ => True) nobodyLinked failsForNoReason,
      s.arrived = [0, 1] ∧ s.links.newestWriter = some 1 ∧ s.pc 0 = .crashed := by
    decide +kernel
  exact ⟨s, .checkedRun (.start nobodyLinked_initial) run, facts⟩

end

end VcompProof.WriteThread
