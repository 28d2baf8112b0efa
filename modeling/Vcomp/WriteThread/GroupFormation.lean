import Vcomp.Foundation.Transition
import Vcomp.WriteThread.Tenure

namespace VcompProof.WriteThread

open VcompModel.WriteThread LinkedQueue Transition List Function Option

variable {ι : Type*} {writers : ι → Writer} {maxBytes : ℕ} {s s' : State ι} {t t' : Tenure ι}
  {exited : List (List ι)} {g : List ι} {w me : ι} {group : WriteGroup ι} {spurious : Bool} {pc : Pc ι}

def LinksWithin (k k' : Links ι) (queue : List ι) : Prop := ∀ w ∉ queue, k'.older w = k.older w ∧ k'.newer w = k.newer w

theorem LinksWithin.refl (k : Links ι) (queue : List ι) : LinksWithin k k queue := fun _ _ => ⟨rfl, rfl⟩

theorem newestWriter_within (k : Links ι) (queue : List ι) (v : Option ι) :
    LinksWithin k { k with newestWriter := v } queue := fun _ _ => ⟨rfl, rfl⟩

theorem setNewer_within [DecidableEq ι] {queue : List ι} {v : Option ι} {k : Links ι} (mem : w ∈ queue) :
    LinksWithin k (k.setNewer w v) queue :=
  fun _ out => ⟨rfl, update_of_ne (fun eq => out (by rwa [eq])) _ _⟩

theorem setOlder_within [DecidableEq ι] {queue : List ι} {v : Option ι} {k : Links ι} (mem : w ∈ queue) :
    LinksWithin k (k.setOlder w v) queue :=
  fun _ out => ⟨update_of_ne (fun eq => out (by rwa [eq])) _ _, rfl⟩

theorem Led.at_pc (led : Led writers maxBytes s exited t) (at_pc : s.pc t.leader = pc) : Phase s exited t pc :=
  at_pc ▸ led.phase

/-- From the moment it is told, or finds the queue empty, until it lets go of the queue. -/
def Leading : Pc ι → Prop
  | .leading | .linkNewer _ _ | .scan _ _ _ _ _ | .swap _ _ _ | .walk _ _ _ _ | .writing _ | .release _ | .relink _ _
  | .handOver _ => True
  | .outside | .linking _ | .waiting | .completing _ _ | .completed | .crashed => False

theorem Phase.leading (phase : Phase s exited t pc) : Leading pc := by
  cases pc <;> trivial

theorem not_leading_of_exited (served : ∀ g ∈ exited, Finishing s g) (gone : w ∈ exited.flatten) : ¬ Leading (s.pc w) := by
  obtain ⟨g, mem, member⟩ := mem_flatten.mp gone
  intro leading
  rcases (served g mem).pc_of_mem member with pc | pc | ⟨group, cur, pc⟩ <;> rw [pc] at leading <;> exact leading

theorem Inv.arrived_of_leading (inv : Inv writers maxBytes s) (leading : Leading (s.pc w)) : w ∈ s.arrived := by
  by_contra out
  rcases (inv.fresh w out).2 with pc | ⟨expected, pc⟩ <;> rw [pc] at leading <;> exact leading

theorem Led.eq_leader (led : Led writers maxBytes s exited t) (inv : Inv writers maxBytes s)
    (served : ∀ g ∈ exited, Finishing s g) (leading : Leading (s.pc w)) : w = t.leader := by
  rcases mem_append.mp (led.perm.mem_iff.mp (inv.arrived_of_leading leading)) with gone | mem
  · exact absurd leading (not_leading_of_exited served gone)
  · rcases t.mem_queue.mp mem with eq | waits
    · exact eq
    · rw [led.waiting w waits] at leading
      exact leading.elim

theorem Idle.no_leader (idle : Idle s exited) (inv : Inv writers maxBytes s) (served : ∀ g ∈ exited, Finishing s g) :
    ¬ Leading (s.pc w) := fun leading =>
  not_leading_of_exited served (idle.perm.mem_iff.mp (inv.arrived_of_leading leading)) leading

theorem Inv.led_of_leading (inv : Inv writers maxBytes s) (leading : Leading (s.pc me)) :
    ∃ exited t, (∀ g ∈ exited, Finishing s g) ∧ Led writers maxBytes s exited t ∧ t.leader = me := by
  obtain ⟨exited, served, idle | ⟨t, led⟩⟩ := inv.tenure
  · exact absurd leading (idle.no_leader inv served)
  · exact ⟨exited, t, served, led, (led.eq_leader inv served leading).symm⟩

theorem places (tenure : Idle s exited ∨ ∃ t, Led writers maxBytes s exited t) (arrived : w ∈ s.arrived) :
    w ∈ exited.flatten ∨ Leading (s.pc w) ∨ s.pc w = .waiting := by
  rcases tenure with idle | ⟨t, led⟩
  · exact .inl (idle.perm.mem_iff.mp arrived)
  · rcases mem_append.mp (led.perm.mem_iff.mp arrived) with member | member
    · exact .inl member
    · rcases t.mem_queue.mp member with rfl | waits
      · exact .inr (.inl led.phase.leading)
      · exact .inr (.inr (led.waiting w waits))

theorem Inv.arrived_pc (inv : Inv writers maxBytes s) (arrived : w ∈ s.arrived) :
    Leading (s.pc w) ∨ s.pc w = .completed ∨ s.pc w = .waiting ∨ ∃ group cur, s.pc w = .completing group cur := by
  obtain ⟨exited, served, tenure⟩ := inv.tenure
  rcases places tenure arrived with member | leading | waits
  · obtain ⟨g, mem, inGroup⟩ := mem_flatten.mp member
    exact .inr ((served g mem).pc_of_mem inGroup)
  · exact .inl leading
  · exact .inr (.inr (.inl waits))

section

variable (inv : Inv writers maxBytes s) (served : ∀ g ∈ exited, Finishing s g) (led : Led writers maxBytes s exited t)
  {k : Links ι} {newest : ι} {head : ι}
include inv served led

theorem Inv.depart (isGroup : IsGroup group t)
    (collected : Collected s exited t) {pc : ι → Pc ι} (links : LinksWithin s.links k t.queue)
    (down : Down k.older none t.group) (leaderPc : pc t.leader = .completing group group.lastWriter)
    (samePc : ∀ w, w ≠ t.leader → w ∉ t.rest → pc w = s.pc w) (next : Idle ⟨k, pc, s.arrived, s.groups⟩ s.groups ∨
      ∃ t', Led writers maxBytes ⟨k, pc, s.arrived, s.groups⟩ s.groups t') :
    Inv writers maxBytes ⟨k, pc, s.arrived, s.groups⟩ := by
  have nodup := led.nodup inv.nodup
  have outer : ∀ w ∉ t.queue, pc w = s.pc w := by
    intro w out
    apply samePc w
    · rintro rfl
      exact out t.leader_mem
    · exact fun mem => out (mem_append_right _ mem)
  refine ⟨inv.nodup, ?_, inv.inOrder, inv.sharing, s.groups, ?_, next⟩
  · intro w out
    have outQueue : w ∉ t.queue := fun mem => out (led.mem_arrived mem)
    dsimp only
    rw [(links w outQueue).2, outer w outQueue]
    exact inv.fresh w out
  · intro g mem
    rw [collected.groups] at mem
    rcases mem_append.mp mem with mem | mem
    · apply (served g mem).congr
      intro w inGroup
      have outQueue := led.apart inv.nodup mem inGroup
      exact ⟨outer w outQueue, (links w outQueue).1⟩
    · obtain rfl := mem_singleton.mp mem
      obtain ⟨front, split⟩ := exists_snoc_of_top isGroup.last
      refine .inr ⟨t.leader, t.members, group, front, group.lastWriter, [], rfl, split, isGroup.members, leaderPc, ?_, ?_,
        nofun⟩
      · rwa [split] at down
      · intro w inGroup other
        rw [← split] at inGroup
        have outRest : w ∉ t.rest := fun inRest => (nodup_append'.mp nodup).2.2 inGroup inRest
        show pc w = .waiting
        rw [samePc w other outRest]
        rcases mem_cons.mp inGroup with eq | inMembers
        · exact absurd eq other
        · exact led.waiting w (mem_append_left _ inMembers)

variable [DecidableEq ι]

theorem Inv.turn (t' : Tenure ι) {groups : List (List ι)}
    (links : LinksWithin s.links k t.queue) (leader : t'.leader = t.leader)
    (others : (t'.members ++ t'.rest).Perm (t.members ++ t.rest))
    (sharing : ∀ w ∈ t'.members, Shares writers maxBytes t.leader w)
    (formed : groups = s.groups ∨ groups = s.groups ++ [t'.group] ∧ t'.group.Sublist s.arrived)
    (phase : Phase ⟨k, update s.pc t.leader pc, s.arrived, groups⟩ exited t' pc) :
    Inv writers maxBytes ⟨k, update s.pc t.leader pc, s.arrived, groups⟩ := by
  have samePc : ∀ w, w ≠ t.leader → update s.pc t.leader pc w = s.pc w :=
    fun w other => update_of_ne other _ _
  have notLeader : ∀ w ∉ t.queue, w ≠ t.leader := by
    rintro w out rfl
    exact out t.leader_mem
  refine ⟨inv.nodup, ?_, ?_, ?_, exited, ?_, .inr ⟨t', ?_, ?_, ?_, ?_⟩⟩
  · intro w out
    have outQueue : w ∉ t.queue := fun member => out (led.mem_arrived member)
    dsimp only
    rw [(links w outQueue).2, samePc w (notLeader w outQueue)]
    exact inv.fresh w out
  · intro g member
    rcases formed with eq | ⟨longer, inOrder⟩
    · exact inv.inOrder g (eq ▸ member)
    · rw [longer] at member
      rcases mem_append.mp member with member | member
      · exact inv.inOrder g member
      · rwa [mem_singleton.mp member]
  · intro first rest member
    rcases formed with eq | ⟨longer, -⟩
    · exact inv.sharing first rest (eq ▸ member)
    · rw [longer] at member
      rcases mem_append.mp member with member | member
      · exact inv.sharing first rest member
      · obtain ⟨rfl, rfl⟩ := cons_eq_cons.mp (mem_singleton.mp member)
        rwa [leader]
  · apply served_congr served
    intro w member
    have outQueue : w ∉ t.queue := by
      obtain ⟨g, mem, member⟩ := mem_flatten.mp member
      exact led.apart inv.nodup mem member
    exact ⟨samePc w (notLeader w outQueue), (links w outQueue).1⟩
  · refine led.perm.trans (List.Perm.append_left _ ?_)
    show (t.leader :: (t.members ++ t.rest)).Perm (t'.leader :: (t'.members ++ t'.rest))
    rw [leader]
    exact others.symm.cons _
  · intro w member
    have before := others.mem_iff.mp member
    have other : w ≠ t.leader := by
      rintro rfl
      exact (nodup_cons.mp (led.nodup inv.nodup)).1 before
    exact (samePc w other).trans (led.waiting w before)
  · rwa [leader]
  · rw [leader]
    show Phase _ exited t' (update s.pc t.leader pc t.leader)
    rwa [update_self]

theorem Inv.goto (phase : Phase s exited t pc) : Inv writers maxBytes (s.goto t.leader pc) := by
  apply inv.turn served led t (LinksWithin.refl _ _) rfl (List.Perm.refl _) led.sharing (.inl rfl)
  exact phase.congr (fun _ _ => ⟨rfl, rfl⟩) rfl rfl rfl

theorem Inv.enter (collecting : Collecting s exited t)
    (isGroup : IsGroup group t) (ahead : t.ahead = []) (links : LinksWithin s.links k t.queue)
    (shape : Steady k (t.group ++ (t.removed ++ t.late))) :
    Inv writers maxBytes { s.enter t.leader group with links := k } := by
  obtain ⟨leader, members, removed, ahead, late⟩ := t
  subst ahead
  have taken : (leader :: members).Sublist s.arrived := (sublist_append_left _ _).trans collecting.taken
  have formed : s.groups ++ [group.members] = s.groups ++ [leader :: members] := by
    rw [isGroup.members]
    rfl
  apply inv.turn served led ⟨leader, members, [], [], removed ++ late⟩ links rfl (List.Perm.refl _) led.sharing
    (.inr ⟨formed, taken⟩)
  refine ⟨rfl, rfl, shape, ⟨isGroup.members, isGroup.last⟩, ?_, collecting.left⟩
  show s.groups ++ [group.members] = exited ++ [leader :: members]
  rw [formed, collecting.groups]

theorem Inv.lead_scanNext {v x : ι} {size : ℕ} {rest : List ι}
    (shape : Scanning s.links t.group t.removed t.ahead t.late newest v) (isGroup : IsGroup group t)
    (collecting : Collecting s exited t) (more : t.ahead = x :: rest) :
    Inv writers maxBytes (s.scanNext writers maxBytes t.leader newest x group (ends t.removed) size) := by
  have nodup := led.nodup inv.nodup
  obtain ⟨leader, members, removed, ahead, late⟩ := t
  subst more
  have xMem : x ∈ (Tenure.mk leader members removed (x :: rest) late).queue :=
    mem_append_right _ (mem_append_right _ mem_cons_self)
  have older : s.links.older x = some group.lastWriter := by
    obtain ⟨-, older, -⟩ := down_append.mp shape.down
    exact older.trans isGroup.last
  cases test : incompatible (writers leader) (writers x) size (maxSize maxBytes (writers leader).byteSize) with
  | true =>
    have moves : s.scanNext writers maxBytes leader newest x group (ends removed) size =
        { s.goto leader (.scan newest x group (ends (removed ++ [x])) size) with
          links := moved s.links removed group.lastWriter x } := by
      simp only [State.scanNext, test, if_true, older, (pushRemoved_spec _ _ _).2.2]
      rfl
    rw [moves]
    apply inv.turn served led ⟨leader, members, removed ++ [x], rest, late⟩ _ rfl _ led.sharing (.inl rfl)
    · refine ⟨shape.move isGroup.last nodup, rfl, ⟨isGroup.members, isGroup.last⟩, collecting.groups, ?_, ?_⟩
      · apply List.Sublist.trans _ collecting.taken
        exact List.Sublist.append (List.Sublist.refl _) (sublist_cons_self x _)
      · simpa [Tenure.rest] using collecting.left
    · have weMem : group.lastWriter ∈ leader :: members := mem_of_top isGroup.last
      obtain ⟨-, newerX, -⟩ := up_append.mp shape.up
      have apart : x ≠ group.lastWriter := fun eq =>
        (nodup_append'.mp nodup).2.2 (eq ▸ weMem) (mem_append_right _ mem_cons_self)
      intro z out
      constructor
      · apply moved_older_of_ne apart (fun eq => out (by rwa [eq]))
        intro above
        rw [newerX] at above
        cases rest with
        | nil => cases above
        | cons =>
          obtain rfl := some.inj above
          exact out (mem_append_right _ (mem_append_right _ (mem_cons_of_mem x mem_cons_self)))
      · apply moved_newer_of_ne
        · rintro rfl
          exact out (mem_append_left _ weMem)
        · intro last
          exact out (mem_append_right _ (mem_append_left _ (mem_of_top last)))
    · simp [Tenure.rest, List.Perm.refl]
  | false =>
    have grows : s.scanNext writers maxBytes leader newest x group (ends removed) size =
        s.goto leader (.scan newest x (group.grow x) (ends removed) (size + (writers x).byteSize)) := by
      simp [State.scanNext, test]
    rw [grows]
    apply inv.turn served led ⟨leader, members ++ [x], removed, rest, late⟩ (LinksWithin.refl _ _) rfl _ _ (.inl rfl)
    · refine ⟨shape.grow, rfl, ⟨?_, top_snoc⟩, collecting.groups, ?_, ?_⟩
      · show group.members ++ [x] = leader :: (members ++ [x])
        rw [isGroup.members]
        rfl
      · simpa [Tenure.group] using collecting.taken
      · apply List.Sublist.trans _ collecting.left
        exact List.Sublist.append (List.Sublist.refl _) (sublist_cons_self x _)
    · simp only [Tenure.rest, append_assoc, cons_append, nil_append]
      exact perm_middle.symm.append_left members
    · intro z mem
      rcases mem_append.mp mem with mem | mem
      · exact led.sharing z mem
      · rw [mem_singleton.mp mem]
        exact ⟨size, test⟩

theorem Inv.lead_writing (shape : Steady s.links (t.group ++ t.late))
    (isGroup : IsGroup group t) (collected : Collected s exited t) (removed : t.removed = []) (ahead : t.ahead = [])
    (read : s.links.newestWriter = some head) (other : head ≠ group.lastWriter) :
    Inv writers maxBytes (s.goto t.leader (.relink group head)) := by
  obtain ⟨leader, members, removed, ahead, late⟩ := t
  subst removed ahead
  have behind : late ≠ [] := by
    apply shape.somebody_behind isGroup.last
    rw [read]
    exact fun eq => other (some.inj eq)
  apply inv.turn served led ⟨leader, members, [], late, []⟩ (LinksWithin.refl _ _) rfl _ led.sharing (.inl rfl)
  · refine ⟨rfl, behind, ⟨head, shape.linking read⟩, ⟨isGroup.members, isGroup.last⟩, collected.groups, ?_⟩
    simpa [Tenure.rest] using collected.left
  · simp [Tenure.rest, List.Perm.refl]

variable (taken : s.leaderStep writers maxBytes t.leader spurious = some s')
include taken

theorem Inv.lead_leading (pc : s.pc t.leader = .leading) : Inv writers maxBytes s' := by
  have busy := led.phase.busy
  have phase := led.at_pc pc
  obtain ⟨leader, members, removed, ahead, late⟩ := t
  obtain ⟨rfl, rfl, rfl, shape, collecting⟩ := phase
  simp only [State.leaderStep, pc] at taken
  cases batch : (writers leader).batch with
  | none =>
    simp only [batch] at taken
    cases taken
    have alone : [leader].Sublist s.arrived := (sublist_append_left _ _).trans collecting.taken
    apply inv.turn served led ⟨leader, [], [], [], late⟩ (LinksWithin.refl _ _) rfl (List.Perm.refl _) led.sharing
      (.inr ⟨rfl, alone⟩)
    refine ⟨rfl, rfl, shape, ⟨rfl, rfl⟩, ?_, collecting.left⟩
    rw [collecting.groups]
  | some size =>
    cases read : s.links.newestWriter with
    | none => exact absurd read busy
    | some newest =>
      simp only [batch, read] at taken
      cases taken
      apply inv.turn served led ⟨leader, [], [], late, []⟩ (LinksWithin.refl _ _) rfl _ led.sharing (.inl rfl)
      · refine ⟨rfl, rfl, shape.linking read, collecting.groups, ?_, ?_⟩
        · simpa [Tenure.group] using collecting.taken
        · simpa [Tenure.rest] using collecting.left
      · simp [Tenure.rest, List.Perm.refl]

theorem Inv.lead_linkNewer (pc : s.pc t.leader = .linkNewer newest head) : Inv writers maxBytes s' := by
  have nodup := led.nodup inv.nodup
  have phase := led.at_pc pc
  obtain ⟨leader, members, removed, ahead, late⟩ := t
  obtain ⟨rfl, rfl, shape, collecting⟩ := phase
  simp only [State.leaderStep, pc] at taken
  cases goes : s.links.missingNewer head with
  | some next =>
    simp only [goes] at taken
    cases taken
    obtain ⟨mem, linked⟩ := shape.round goes nodup
    have inQueue : next ∈ (Tenure.mk leader [] [] ahead late).queue := mem_append_left late mem
    apply inv.turn served led ⟨leader, [], [], ahead, late⟩ (setNewer_within inQueue) rfl (List.Perm.refl _) led.sharing
      (.inl rfl)
    exact ⟨rfl, rfl, linked, collecting.groups, collecting.taken, collecting.left⟩
  | none =>
    simp only [goes] at taken
    cases taken
    apply inv.goto served led
    exact ⟨shape.scanning goes, rfl, ⟨rfl, rfl⟩, collecting⟩

theorem Inv.lead_scan {v : ι} {rList : Links.Ends ι} {size : ℕ}
    (pc : s.pc t.leader = .scan newest v group rList size) : Inv writers maxBytes s' := by
  have nodup := led.nodup inv.nodup
  obtain ⟨shape, rfl, isGroup, collecting⟩ := led.at_pc pc
  simp only [State.leaderStep, pc] at taken
  by_cases ended : v = newest
  · subst ended
    rw [if_pos rfl] at taken
    have none : t.ahead = [] := shape.ahead_nil nodup
    rw [none] at shape
    cases rList : ends t.removed with
    | none =>
      simp only [rList] at taken
      cases taken
      have nobody : t.removed = [] := by
        rcases t.removed.eq_nil_or_concat with empty | ⟨front, last, split⟩
        · exact empty
        · rw [split, concat_eq_append, ends_snoc] at rList
          cases rList
      apply inv.enter served led collecting isGroup none (LinksWithin.refl _ _)
      rw [nobody] at shape ⊢
      exact shape.steady
    | some pair =>
      obtain ⟨rb, re⟩ := pair
      simp only [rList] at taken
      cases taken
      have short : (t.group ++ (t.removed ++ t.late)).Nodup := by
        rw [Tenure.queue, Tenure.rest, none] at nodup
        exact nodup
      have weMem : group.lastWriter ∈ t.queue := mem_append_left _ (mem_of_top isGroup.last)
      obtain ⟨rest, split, last⟩ := ends_eq_some rList
      have inRest : ∀ z ∈ t.removed, z ∈ t.queue := fun z mem => mem_append_right _ (mem_append_left _ mem)
      apply inv.turn served led t _ rfl (List.Perm.refl _) led.sharing (.inl rfl)
      · exact ⟨none, shape.graft isGroup.last rList short, isGroup, collecting.groups, collecting.taken, collecting.left⟩
      · intro z out
        refine ⟨(setOlder_within (inRest rb (split ▸ mem_cons_self)) z out).1, ?_⟩
        show update (update s.links.newer re _) group.lastWriter _ z = s.links.newer z
        rw [update_of_ne, update_of_ne]
        · rintro rfl
          exact out (inRest z (mem_of_top last))
        · rintro rfl
          exact out weMem
  · rw [if_neg ended] at taken
    obtain ⟨x, rest, more, newer⟩ := shape.more ended
    simp only [newer] at taken
    cases taken
    exact inv.lead_scanNext served led shape isGroup collecting more

theorem Inv.lead_swap {re : ι} (pc : s.pc t.leader = .swap newest re group)
    (genuine : s.links.newestWriter = some newest → spurious = false) : Inv writers maxBytes s' := by
  have nodup := led.nodup inv.nodup
  obtain ⟨none, shape, isGroup, collecting⟩ := led.at_pc pc
  rw [Tenure.queue, Tenure.rest, none] at nodup
  simp only [State.leaderStep, pc] at taken
  by_cases unchanged : s.links.newestWriter = some newest
  · rw [if_pos ⟨unchanged, genuine unchanged⟩, some.injEq] at taken
    subst taken
    obtain ⟨nobody, steady⟩ := shape.swap nodup unchanged
    apply inv.enter served led collecting isGroup none (newestWriter_within _ _ (some re))
    rw [nobody, append_nil]
    exact steady
  · rw [if_neg fun both => unchanged both.1] at taken
    obtain ⟨w, lo, read, split⟩ := shape.late_of_ne unchanged
    simp only [read] at taken
    cases taken
    apply inv.goto served led
    exact ⟨none, shape, ⟨lo, [], split⟩, isGroup, collecting⟩

theorem Inv.lead_walk {re v : ι} (pc : s.pc t.leader = .walk newest re v group) : Inv writers maxBytes s' := by
  have nodup := led.nodup inv.nodup
  obtain ⟨none, shape, ⟨lo, hi, split⟩, isGroup, collecting⟩ := led.at_pc pc
  rw [Tenure.queue, Tenure.rest, none] at nodup
  simp only [State.leaderStep, pc] at taken
  by_cases found : s.links.older v = some newest
  · rw [if_pos found, some.injEq] at taken
    subst taken
    have inQueue : v ∈ t.queue := by
      apply mem_append_right
      apply mem_append_right
      apply mem_append_right
      rw [split]
      exact mem_append_right lo mem_cons_self
    exact inv.enter served led collecting isGroup none (setOlder_within inQueue) (shape.relinkLate nodup split found)
  · rw [if_neg found] at taken
    have older := shape.older_late split
    rcases lo.eq_nil_or_concat with rfl | ⟨front, next, rfl⟩
    · exact absurd older found
    · rw [concat_eq_append] at split older
      rw [top_snoc] at older
      simp only [older] at taken
      cases taken
      apply inv.goto served led
      refine ⟨none, shape, ⟨front, v :: hi, ?_⟩, isGroup, collecting⟩
      rw [split, append_assoc]
      rfl

theorem Inv.lead_release (pc : s.pc t.leader = .release group) : Inv writers maxBytes s' := by
  have busy := led.phase.busy
  have nodup := led.nodup inv.nodup
  obtain ⟨removed, ahead, shape, isGroup, collected⟩ := led.at_pc pc
  have rest : t.rest = t.late := by
    rw [Tenure.rest, removed, ahead]
    rfl
  simp only [State.leaderStep, pc] at taken
  cases read : s.links.newestWriter with
  | none => exact absurd read busy
  | some head =>
    simp only [read] at taken
    split at taken
    next eq =>
      cases taken
      subst eq
      rw [Tenure.queue, rest] at nodup
      have nobody := shape.nobody_behind nodup isGroup.last read
      apply inv.depart served led isGroup collected (newestWriter_within _ _ none) (down_append.mp shape.down).1
        (update_self _ _ _) (fun w other _ => update_of_ne other _ _)
      refine .inl ⟨?_, rfl, rfl⟩
      rw [collected.groups, flatten_append]
      have perm := led.perm
      rw [Tenure.queue, rest, nobody] at perm
      simpa using perm
    next other =>
      cases taken
      exact inv.lead_writing served led shape isGroup collected removed ahead read other

theorem Inv.lead_relink (pc : s.pc t.leader = .relink group head) : Inv writers maxBytes s' := by
  have nodup := led.nodup inv.nodup
  have phase := led.at_pc pc
  obtain ⟨leader, members, removed, ahead, late⟩ := t
  obtain ⟨rfl, ne, ⟨newest, shape⟩, isGroup, collected⟩ := phase
  have flat : (leader :: members ++ ahead ++ late).Nodup := by
    rw [append_assoc]
    exact nodup
  simp only [State.leaderStep, pc] at taken
  cases goes : s.links.missingNewer head with
  | some next =>
    simp only [goes] at taken
    cases taken
    obtain ⟨mem, linked⟩ := shape.round goes flat
    have inQueue : next ∈ (Tenure.mk leader members [] ahead late).queue := by
      show next ∈ leader :: members ++ (ahead ++ late)
      rw [← append_assoc]
      exact mem_append_left late mem
    apply inv.turn served led ⟨leader, members, [], ahead, late⟩ (setNewer_within inQueue) rfl (List.Perm.refl _) led.sharing
      (.inl rfl)
    exact ⟨rfl, ne, ⟨newest, linked⟩, ⟨isGroup.members, isGroup.last⟩, collected.groups, collected.left⟩
  | none =>
    simp only [goes] at taken
    cases taken
    have steady := shape.steady goes
    have up := (up_append.mp (shape.finish goes)).1
    apply inv.turn served led ⟨leader, members, [], [], ahead ++ late⟩ (LinksWithin.refl _ _) rfl (List.Perm.refl _)
      led.sharing (.inl rfl)
    refine ⟨rfl, rfl, append_ne_nil_of_left_ne_nil ne late, ?_, ?_, ⟨isGroup.members, isGroup.last⟩,
      collected.groups, collected.left⟩
    · rw [append_assoc] at steady
      exact steady
    · show Up s.links.newer (bottom none (ahead ++ late)) (leader :: members)
      rw [bottom_append, bottom_of_ne_nil ne]
      exact up

theorem Inv.lead_handOver (pc : s.pc t.leader = .handOver group) : Inv writers maxBytes s' := by
  have nodup := led.nodup inv.nodup
  have phase := led.at_pc pc
  obtain ⟨leader, members, removed, ahead, late⟩ := t
  obtain ⟨rfl, rfl, ne, shape, up, isGroup, collected⟩ := phase
  cases late with
  | nil => exact absurd rfl ne
  | cons next rest =>
    have newer : s.links.newer group.lastWriter = some next := up.newer_top isGroup.last
    simp only [State.leaderStep, pc, newer] at taken
    cases taken
    obtain ⟨steady, down⟩ := shape.handOver nodup
    have nextMem : next ∈ (Tenure.mk leader members [] [] (next :: rest)).queue :=
      mem_append_right _ mem_cons_self
    have nextOther : next ≠ leader := by
      rintro rfl
      exact (nodup_cons.mp nodup).1 (mem_append_right _ mem_cons_self)
    obtain ⟨-, restNodup, apart⟩ := nodup_append'.mp nodup
    apply inv.depart served led isGroup collected (setOlder_within nextMem) down (update_self _ _ _)
    · intro w other out
      rw [update_of_ne other]
      apply update_of_ne
      rintro rfl
      exact out mem_cons_self
    · refine .inr ⟨⟨next, [], [], [], rest⟩, ?_, ?_, nofun, ?_⟩
      · show s.arrived.Perm (s.groups.flatten ++ next :: rest)
        rw [collected.groups, flatten_append]
        have perm := led.perm
        simpa [Tenure.queue, Tenure.group, Tenure.rest] using perm
      · intro w mem
        have inRest : w ∈ rest := mem
        have notNext : w ≠ next := by
          rintro rfl
          exact (nodup_cons.mp restNodup).1 inRest
        have notLeader : w ≠ leader := by
          rintro rfl
          exact apart mem_cons_self (mem_cons_of_mem next inRest)
        show update (update s.pc next _) leader _ w = .waiting
        rw [update_of_ne notLeader, update_of_ne notNext]
        exact led.waiting w (mem_append_right members (mem_cons_of_mem next inRest))
      · show Phase _ s.groups _ (update (update s.pc next .leading) leader _ next)
        rw [update_of_ne nextOther, update_self]
        refine ⟨rfl, rfl, rfl, steady, rfl, collected.left, ?_⟩
        exact (sublist_cons_self next rest).trans collected.left

end

section

variable [DecidableEq ι]

theorem Finishing.step (finishing : Finishing s g) (nodup : g.Nodup) (mem : me ∈ g) {cur : ι}
    (pc : s.pc me = .completing group cur) (taken : s.leaderStep writers maxBytes me spurious = some s') :
    Finishing s' g ∧ s'.links = s.links ∧ s'.arrived = s.arrived ∧ s'.groups = s.groups ∧
      ∀ w ∉ g, s'.pc w = s.pc w := by
  rcases finishing with completed | ⟨leader, rest, group', lo, cur', hi, first, split, members, pcLeader, down, waiting,
    completed⟩
  · rw [completed me mem] at pc
    cases pc
  have isLeader : me = leader := by
    by_contra other
    rw [split, ← singleton_append, ← append_assoc] at mem
    rcases mem_append.mp mem with mem | mem
    · rw [waiting me mem other] at pc
      cases pc
    · rw [completed me mem] at pc
      cases pc
  subst isLeader
  obtain ⟨rfl, rfl⟩ : group' = group ∧ cur' = cur := by
    rw [pcLeader] at pc
    exact Pc.completing.inj pc
  have apart := split ▸ nodup
  simp only [State.leaderStep, pc] at taken
  by_cases last : cur' = me
  · rw [if_pos last, some.injEq] at taken
    subst taken last
    have lowest : lo = [] := by
      cases lo with
      | nil => rfl
      | cons _ lo =>
        obtain rfl := (cons_eq_cons.mp (first.symm.trans split)).1
        exact absurd (mem_append_right lo mem_cons_self) (nodup_cons.mp apart).1
    refine ⟨.inl fun w inGroup => ?_, rfl, rfl, rfl, fun w out => ?_⟩
    · show update s.pc cur' .completed w = .completed
      by_cases eq : w = cur'
      · rw [eq, update_self]
      · rw [update_of_ne eq]
        rw [split, lowest] at inGroup
        rcases mem_cons.mp inGroup with equal | above
        · exact absurd equal eq
        · exact completed w above
    · apply update_of_ne
      rintro rfl
      exact out mem
  · rw [if_neg last] at taken
    have older : s.links.older cur' = top none lo := (down_append.mp down).2.1
    rcases lo.eq_nil_or_concat with rfl | ⟨front, next, rfl⟩
    · exact absurd (cons_eq_cons.mp (split.symm.trans first)).1 last
    · rw [concat_eq_append] at split down waiting older apart
      rw [top_snoc] at older
      simp only [older] at taken
      cases taken
      have curMem : cur' ∈ g := by
        rw [split]
        exact mem_append_right _ mem_cons_self
      obtain ⟨lowNodup, highNodup, lowApart⟩ := nodup_append'.mp apart
      refine ⟨.inr ⟨me, rest, group', front, next, cur' :: hi, first, ?_, members, ?_, ?_, ?_, ?_⟩, rfl, rfl, rfl, ?_⟩
      · rw [split, append_assoc]
        rfl
      · exact update_self _ _ _
      · exact (down_append.mp down).1
      · intro w inLow other
        show update (update s.pc cur' _) me _ w = .waiting
        rw [update_of_ne other, update_of_ne]
        · exact waiting w (mem_append_left _ inLow) other
        · rintro rfl
          exact lowApart inLow mem_cons_self
      · intro w inHigh
        have other : w ≠ me := by
          rintro rfl
          rcases mem_cons.mp inHigh with eq | above
          · exact last eq.symm
          · rw [completed w above] at pc
            cases pc
        show update (update s.pc cur' .completed) me _ w = .completed
        rw [update_of_ne other]
        by_cases eq : w = cur'
        · rw [eq, update_self]
        · rw [update_of_ne eq]
          exact completed w ((mem_cons.mp inHigh).resolve_left eq)
      · intro w out
        show update (update s.pc cur' _) me _ w = s.pc w
        rw [update_of_ne, update_of_ne]
        · rintro rfl
          exact out curMem
        · rintro rfl
          exact out mem

theorem Inv.complete (inv : Inv writers maxBytes s) {cur : ι} (pc : s.pc me = .completing group cur)
    (taken : s.leaderStep writers maxBytes me spurious = some s') : Inv writers maxBytes s' := by
  have arrived : me ∈ s.arrived := by
    by_contra out
    rcases (inv.fresh me out).2 with other | ⟨expected, other⟩ <;> rw [other] at pc <;> cases pc
  obtain ⟨exited, served, tenure⟩ := inv.tenure
  have known : ∀ w ∈ exited.flatten, w ∈ s.arrived := by
    intro w member
    rcases tenure with idle | ⟨t, led⟩
    · exact idle.perm.mem_iff.mpr member
    · exact led.perm.mem_iff.mpr (mem_append_left _ member)
  have nodup : exited.flatten.Nodup := by
    rcases tenure with idle | ⟨t, led⟩
    · exact idle.perm.nodup_iff.mp inv.nodup
    · exact (nodup_append'.mp (led.perm.nodup_iff.mp inv.nodup)).1
  have gone : me ∈ exited.flatten := by simpa [pc, Leading] using places tenure arrived
  obtain ⟨g, mem, member⟩ := mem_flatten.mp gone
  obtain ⟨own, disjoint⟩ := nodup_flatten.mp nodup
  obtain ⟨finishing, links, sameArrived, groups, samePc⟩ := (served g mem).step (own g mem) member pc taken
  refine ⟨sameArrived ▸ inv.nodup, ?_, ?_, ?_, exited, ?_, ?_⟩
  · intro w out
    rw [sameArrived] at out
    rw [links, samePc w fun inGroup => out (known w (mem_flatten.mpr ⟨g, mem, inGroup⟩))]
    exact inv.fresh w out
  · rw [groups, sameArrived]
    exact inv.inOrder
  · rw [groups]
    exact inv.sharing
  · intro other otherMem
    by_cases eq : other = g
    · rwa [eq]
    · apply (served other otherMem).congr
      intro w inOther
      rw [links]
      refine ⟨samePc w fun inGroup => ?_, rfl⟩
      have symmetric : Std.Symm (List.Disjoint (α := ι)) := ⟨fun _ _ apart => apart.symm⟩
      have apart := disjoint.forall otherMem mem eq
      exact apart inOther inGroup
  · rcases tenure with idle | ⟨t, led⟩
    · exact .inl ⟨sameArrived ▸ idle.perm, links ▸ idle.newestWriter, groups.trans idle.groups⟩
    · refine .inr ⟨t, led.congr (fun _ _ => by rw [links]; exact ⟨rfl, rfl⟩) (by rw [links]) sameArrived groups ?_⟩
      intro w inQueue
      exact samePc w fun inGroup => led.apart inv.nodup mem inGroup inQueue

def swapExpects : Pc ι → Option ι
  | .swap newest _ _ => some newest
  | _ => none

/-- It does not fail while `newest_writer_` has that value. -/
def NoSpuriousSwap (s : State ι) : Event ι → Prop
  | .lead w spurious =>
    (swapExpects (s.pc w)).isSome → s.links.newestWriter = swapExpects (s.pc w) → spurious = false
  | .load _ | .link _ _ => True

instance (s : State ι) (e : Event ι) : Decidable (NoSpuriousSwap s e) :=
  match e with
  | .lead _ _ => inferInstanceAs (Decidable (_ → _ → _))
  | .load _ => .isTrue trivial
  | .link _ _ => .isTrue trivial

theorem Inv.lead (inv : Inv writers maxBytes s) (genuine : NoSpuriousSwap s (.lead me spurious))
    (taken : s.leaderStep writers maxBytes me spurious = some s') : Inv writers maxBytes s' := by
  by_cases leading : Leading (s.pc me)
  · obtain ⟨exited, t, served, led, rfl⟩ := inv.led_of_leading leading
    cases pc : s.pc t.leader with
    | leading => exact inv.lead_leading served led taken pc
    | linkNewer => exact inv.lead_linkNewer served led taken pc
    | scan => exact inv.lead_scan served led taken pc
    | swap =>
      simp only [NoSpuriousSwap, pc] at genuine
      exact inv.lead_swap served led taken pc (genuine rfl)
    | walk => exact inv.lead_walk served led taken pc
    | writing =>
      have phase := led.phase
      have busy := phase.busy
      rw [pc] at phase
      obtain ⟨removed, ahead, shape, isGroup, collected⟩ := phase
      simp only [State.leaderStep, pc] at taken
      cases read : s.links.newestWriter with
      | none => exact absurd read busy
      | some =>
        simp only [read] at taken
        cases taken
        split
        · exact inv.goto served led ⟨removed, ahead, shape, isGroup, collected⟩
        next other => exact inv.lead_writing served led shape isGroup collected removed ahead read other
    | release => exact inv.lead_release served led taken pc
    | relink => exact inv.lead_relink served led taken pc
    | handOver => exact inv.lead_handOver served led taken pc
    | outside | linking | waiting | completing | completed | crashed =>
      rw [pc] at leading
      exact leading.elim
  · cases pc : s.pc me with
    | completing => exact inv.complete pc taken
    | outside | linking | waiting | completed | crashed =>
      simp only [State.leaderStep, pc] at taken
      cases taken
    | _ =>
      rw [pc] at leading
      exact absurd trivial leading

theorem Inv.step (inv : Inv writers maxBytes s) {e : Event ι} (genuine : NoSpuriousSwap s e)
    (taken : s.step writers maxBytes e = some s') : Inv writers maxBytes s' := by
  have unlinked : ∀ {w}, (s.pc w = .outside ∨ ∃ expected, s.pc w = .linking expected) → w ∉ s.arrived := by
    intro w pc member
    have place := inv.arrived_pc member
    rcases pc with pc | ⟨expected, pc⟩ <;> simp [pc, Leading] at place
  cases e with
  | load w =>
    cases pc : s.pc w with
    | outside =>
      simp only [State.step, pc] at taken
      cases taken
      have moved := inv.outsider (unlinked (.inl pc)) (v := s.links.older w) (.inr ⟨s.links.newestWriter, rfl⟩)
      have eq : s.links.setOlder w (s.links.older w) = s.links := by
        show Links.mk _ (update _ _ _) _ = _
        rw [update_eq_self]
      rwa [eq] at moved
    | _ =>
      simp only [State.step, pc] at taken
      cases taken
  | link w =>
    cases pc : s.pc w with
    | linking expected =>
      simp only [State.step, pc, some.injEq, State.linkOne] at taken
      have out := unlinked (.inr ⟨expected, pc⟩)
      split at taken
      next found =>
        obtain rfl : s.links.newestWriter = expected := found.1
        subst taken
        exact inv.arrive out
      · subst taken
        exact inv.outsider out (.inr ⟨s.links.newestWriter, rfl⟩)
    | _ =>
      simp only [State.step, pc] at taken
      cases taken
  | lead => exact inv.lead genuine taken

end

end VcompProof.WriteThread
