import Vcomp.WriteThread.QueueShape

namespace VcompProof.WriteThread

open VcompModel.WriteThread LinkedQueue List Function

/-- A leader's queue, oldest first: its group, `r_list`, those still to look at, and those that came after it read
`newest_writer_`. -/
structure Tenure (ι : Type*) where
  leader : ι
  members : List ι
  removed : List ι
  ahead : List ι
  late : List ι

namespace Tenure

variable {ι : Type*} (t : Tenure ι)

def group : List ι := t.leader :: t.members

def rest : List ι := t.removed ++ (t.ahead ++ t.late)

def queue : List ι := t.group ++ t.rest

def grow (more : List ι) : Tenure ι := { t with late := t.late ++ more }

theorem rest_grow (more : List ι) : (t.grow more).rest = t.rest ++ more := by
  simp [rest, grow]

theorem queue_grow (more : List ι) : (t.grow more).queue = t.queue ++ more := by
  rw [queue, rest_grow, queue, append_assoc]
  rfl

theorem mem_queue {w : ι} : w ∈ t.queue ↔ w = t.leader ∨ w ∈ t.members ++ t.rest := mem_cons

theorem leader_mem : t.leader ∈ t.queue := mem_cons_self

end Tenure

variable {ι : Type*} [DecidableEq ι] {writers : ι → Writer} {maxBytes : ℕ} {s s' : State ι} {t t' : Tenure ι}
  {exited : List (List ι)} {g : List ι} {w me : ι} {pc : Pc ι}

structure IsGroup (group : WriteGroup ι) (t : Tenure ι) : Prop where
  members : group.members = t.group
  last : top none t.group = some group.lastWriter

/-- No group yet; it and the writers left out are in arrival order, as are those to come. -/
structure Collecting (s : State ι) (exited : List (List ι)) (t : Tenure ι) : Prop where
  groups : s.groups = exited
  taken : (t.group ++ (t.ahead ++ t.late)).Sublist s.arrived
  left : t.rest.Sublist s.arrived

structure Collected (s : State ι) (exited : List (List ι)) (t : Tenure ι) : Prop where
  groups : s.groups = exited ++ [t.group]
  left : t.rest.Sublist s.arrived

def Phase (s : State ι) (exited : List (List ι)) (t : Tenure ι) : Pc ι → Prop
  | .leading =>
    t.members = [] ∧ t.removed = [] ∧ t.ahead = [] ∧ Steady s.links (t.group ++ t.late) ∧ Collecting s exited t
  | .linkNewer newest head =>
    t.members = [] ∧ t.removed = [] ∧ Linking s.links (t.group ++ t.ahead) t.late newest head ∧ Collecting s exited t
  | .scan newest w group rList _ =>
    Scanning s.links t.group t.removed t.ahead t.late newest w ∧ rList = ends t.removed ∧ IsGroup group t ∧
      Collecting s exited t
  | .swap newest re group =>
    t.ahead = [] ∧ Grafted s.links t.group t.removed t.late newest re ∧ IsGroup group t ∧ Collecting s exited t
  | .walk newest re w group =>
    t.ahead = [] ∧ Grafted s.links t.group t.removed t.late newest re ∧ (∃ lo hi, t.late = lo ++ w :: hi) ∧
      IsGroup group t ∧ Collecting s exited t
  | .writing group | .release group =>
    t.removed = [] ∧ t.ahead = [] ∧ Steady s.links (t.group ++ t.late) ∧ IsGroup group t ∧ Collected s exited t
  | .relink group head =>
    t.removed = [] ∧ t.ahead ≠ [] ∧ (∃ newest, Linking s.links (t.group ++ t.ahead) t.late newest head) ∧
      IsGroup group t ∧ Collected s exited t
  | .handOver group =>
    t.removed = [] ∧ t.ahead = [] ∧ t.late ≠ [] ∧ Steady s.links (t.group ++ t.late) ∧
      Up s.links.newer (bottom none t.late) t.group ∧ IsGroup group t ∧ Collected s exited t
  | .outside | .linking _ | .waiting | .completing _ _ | .completed | .crashed => False

def Shares (writers : ι → Writer) (maxBytes : ℕ) (leader w : ι) : Prop :=
  ∃ size, incompatible (writers leader) (writers w) size (maxSize maxBytes (writers leader).byteSize) = false

/-- Everyone in the queue but the leader waits. -/
structure Led (writers : ι → Writer) (maxBytes : ℕ) (s : State ι) (exited : List (List ι)) (t : Tenure ι) : Prop where
  perm : s.arrived.Perm (exited.flatten ++ t.queue)
  waiting : ∀ w ∈ t.members ++ t.rest, s.pc w = .waiting
  sharing : ∀ w ∈ t.members, Shares writers maxBytes t.leader w
  phase : Phase s exited t (s.pc t.leader)

structure Idle (s : State ι) (exited : List (List ι)) : Prop where
  perm : s.arrived.Perm exited.flatten
  newestWriter : s.links.newestWriter = none
  groups : s.groups = exited

/-- Completed, or its leader is about to complete those from `cur` down. -/
def Finishing (s : State ι) (g : List ι) : Prop :=
  (∀ w ∈ g, s.pc w = .completed) ∨
    ∃ leader rest group lo cur hi, g = leader :: rest ∧ g = lo ++ cur :: hi ∧ group.members = g ∧
      s.pc leader = .completing group cur ∧ Down s.links.older none (lo ++ [cur]) ∧
      (∀ w ∈ lo ++ [cur], w ≠ leader → s.pc w = .waiting) ∧ ∀ w ∈ hi, s.pc w = .completed

structure Inv (writers : ι → Writer) (maxBytes : ℕ) (s : State ι) : Prop where
  nodup : s.arrived.Nodup
  fresh : ∀ w ∉ s.arrived, s.links.newer w = none ∧ (s.pc w = .outside ∨ ∃ expected, s.pc w = .linking expected)
  inOrder : ∀ g ∈ s.groups, g.Sublist s.arrived
  sharing : ∀ leader rest, leader :: rest ∈ s.groups → ∀ w ∈ rest, Shares writers maxBytes leader w
  tenure : ∃ exited, (∀ g ∈ exited, Finishing s g) ∧ (Idle s exited ∨ ∃ t, Led writers maxBytes s exited t)

section

omit [DecidableEq ι]

/-- A phase goes on where writers have come to the late part and the other links are the same. -/
theorem Phase.extend (phase : Phase s exited t pc) (more : List ι)
    (same : SameLinks s.links s'.links (t.group ++ (t.removed ++ t.ahead)))
    (late : ∀ {newest}, Late s.links newest t.late → Late s'.links newest (t.late ++ more))
    (steady : Steady s.links (t.group ++ t.late) → Steady s'.links (t.group ++ (t.late ++ more)))
    (arrived : s'.arrived = s.arrived ++ more) (groups : s'.groups = s.groups) : Phase s' exited (t.grow more) pc := by
  have left : t.rest.Sublist s.arrived → (t.grow more).rest.Sublist s'.arrived := by
    intro left
    rw [arrived, Tenure.rest_grow]
    exact left.append (List.Sublist.refl more)
  have collecting : Collecting s exited t → Collecting s' exited (t.grow more) := by
    intro c
    refine ⟨groups.trans c.groups, ?_, left c.left⟩
    have longer := c.taken.append (List.Sublist.refl more)
    rw [arrived]
    simpa [Tenure.group, Tenure.grow] using longer
  have collected : Collected s exited t → Collected s' exited (t.grow more) := fun c => ⟨groups.trans c.groups, left c.left⟩
  have inAhead : SameLinks s.links s'.links (t.group ++ t.ahead) := same.mono fun x mem => by
    simp only [mem_append] at mem ⊢
    tauto
  have inRemoved : SameLinks s.links s'.links (t.group ++ t.removed) := same.mono fun x mem => by
    simp only [mem_append] at mem ⊢
    tauto
  have grouped : ∀ {group}, IsGroup group t → IsGroup group (t.grow more) := fun isGroup => ⟨isGroup.members, isGroup.last⟩
  cases pc with
  | leading =>
    obtain ⟨members, removed, ahead, shape, c⟩ := phase
    exact ⟨members, removed, ahead, steady shape, collecting c⟩
  | linkNewer =>
    obtain ⟨members, removed, shape, c⟩ := phase
    exact ⟨members, removed, shape.relate inAhead (late shape.late), collecting c⟩
  | scan newest v group rList size =>
    obtain ⟨shape, rList, isGroup, c⟩ := phase
    exact ⟨shape.relate same (late shape.late), rList, grouped isGroup, collecting c⟩
  | swap =>
    obtain ⟨ahead, shape, isGroup, c⟩ := phase
    exact ⟨ahead, shape.relate inRemoved (late shape.late), grouped isGroup, collecting c⟩
  | walk _ _ v =>
    obtain ⟨ahead, shape, ⟨lo, hi, split⟩, isGroup, c⟩ := phase
    refine ⟨ahead, shape.relate inRemoved (late shape.late), ⟨lo, hi ++ more, ?_⟩, grouped isGroup, collecting c⟩
    show t.late ++ more = lo ++ v :: (hi ++ more)
    rw [split, append_assoc]
    rfl
  | writing | release =>
    obtain ⟨removed, ahead, shape, isGroup, c⟩ := phase
    exact ⟨removed, ahead, steady shape, grouped isGroup, collected c⟩
  | relink =>
    obtain ⟨removed, ahead, ⟨newest, shape⟩, isGroup, c⟩ := phase
    exact ⟨removed, ahead, ⟨newest, shape.relate inAhead (late shape.late)⟩, grouped isGroup, collected c⟩
  | handOver =>
    obtain ⟨removed, ahead, ne, shape, up, isGroup, c⟩ := phase
    refine ⟨removed, ahead, append_ne_nil_of_left_ne_nil ne more, steady shape, ?_, grouped isGroup, collected c⟩
    show Up s'.links.newer (bottom none (t.late ++ more)) t.group
    rw [bottom_append, bottom_of_ne_nil ne]
    exact up.congr fun x mem => (same x (mem_append_left _ mem)).2
  | outside | linking | waiting | completing | completed | crashed => exact phase

theorem Phase.congr (phase : Phase s exited t pc) (links : SameLinks s.links s'.links t.queue)
    (newestWriter : s'.links.newestWriter = s.links.newestWriter) (arrived : s'.arrived = s.arrived)
    (groups : s'.groups = s.groups) : Phase s' exited t pc := by
  have same : ∀ {xs}, (∀ x ∈ xs, x ∈ t.queue) → SameLinks s.links s'.links xs := links.mono
  have grown := phase.extend [] (same ?_) (fun shape => ?_) (fun shape => ?_) (by rw [arrived, append_nil]) groups
  · simpa [Tenure.grow] using grown
  · intro x mem
    simp only [Tenure.queue, Tenure.rest, mem_append] at mem ⊢
    tauto
  · rw [append_nil]
    exact shape.congr (same fun x mem => by simp only [Tenure.queue, Tenure.rest, mem_append]; tauto) newestWriter
  · rw [append_nil]
    exact shape.congr (same fun x mem => by simp only [Tenure.queue, Tenure.rest, mem_append] at mem ⊢; tauto) newestWriter

theorem Led.congr (led : Led writers maxBytes s exited t) (links : SameLinks s.links s'.links t.queue)
    (newestWriter : s'.links.newestWriter = s.links.newestWriter) (arrived : s'.arrived = s.arrived)
    (groups : s'.groups = s.groups) (pc : ∀ w ∈ t.queue, s'.pc w = s.pc w) : Led writers maxBytes s' exited t where
  perm := arrived ▸ led.perm
  waiting := fun w mem => (pc w (t.mem_queue.mpr (.inr mem))).trans (led.waiting w mem)
  sharing := led.sharing
  phase := by
    rw [pc t.leader t.leader_mem]
    exact led.phase.congr links newestWriter arrived groups

theorem Finishing.congr (finishing : Finishing s g) (eq : ∀ w ∈ g, s'.pc w = s.pc w ∧ s'.links.older w = s.links.older w) :
    Finishing s' g := by
  rcases finishing with completed | ⟨leader, rest, group, lo, cur, hi, isLeader, split, members, pc, down, waiting, completed⟩
  · exact .inl fun w mem => (eq w mem).1.trans (completed w mem)
  · have lower : ∀ w ∈ lo ++ [cur], w ∈ g := by
      intro w mem
      rw [split, ← singleton_append, ← append_assoc]
      exact mem_append_left hi mem
    have upper : ∀ w ∈ hi, w ∈ g := by
      intro w mem
      rw [split]
      exact mem_append_right lo (mem_cons_of_mem cur mem)
    refine .inr ⟨leader, rest, group, lo, cur, hi, isLeader, split, members, ?_, ?_, ?_, ?_⟩
    · exact (eq leader (isLeader ▸ mem_cons_self)).1.trans pc
    · exact down.congr fun w mem => (eq w (lower w mem)).2
    · exact fun w mem other => (eq w (lower w mem)).1.trans (waiting w mem other)
    · exact fun w mem => (eq w (upper w mem)).1.trans (completed w mem)

theorem Phase.busy (phase : Phase s exited t pc) : s.links.newestWriter ≠ none := by
  have steady : Steady s.links (t.group ++ t.late) → s.links.newestWriter ≠ none := by
    intro shape
    rw [shape.newestWriter]
    exact top_some_ne_none
  have late : ∀ {newest}, Late s.links newest t.late → s.links.newestWriter ≠ none := by
    intro newest shape
    rw [shape.newestWriter]
    exact top_some_ne_none
  cases pc with
  | leading | handOver => exact steady phase.2.2.2.1
  | linkNewer => exact late phase.2.2.1.late
  | scan => exact late phase.1.late
  | swap | walk => exact late phase.2.1.late
  | writing | release => exact steady phase.2.2.1
  | relink =>
    obtain ⟨newest, shape⟩ := phase.2.2.1
    exact late shape.late
  | outside | linking | waiting | completing | completed | crashed => exact phase.elim

theorem Finishing.pc_of_mem (finishing : Finishing s g) (mem : w ∈ g) :
    s.pc w = .completed ∨ s.pc w = .waiting ∨ ∃ group cur, s.pc w = .completing group cur := by
  rcases finishing with completed | ⟨leader, rest, group, lo, cur, hi, -, split, -, pc, -, waiting, completed⟩
  · exact .inl (completed w mem)
  · by_cases eq : w = leader
    · exact .inr (.inr ⟨group, cur, eq ▸ pc⟩)
    · rw [split, ← singleton_append, ← append_assoc] at mem
      rcases mem_append.mp mem with mem | mem
      · exact .inr (.inl (waiting w mem eq))
      · exact .inl (completed w mem)

variable (led : Led writers maxBytes s exited t)
include led

theorem Led.nodup (nodup : s.arrived.Nodup) : t.queue.Nodup :=
  (nodup_append.mp (led.perm.nodup_iff.mp nodup)).2.1

theorem Led.apart (nodup : s.arrived.Nodup) (mem : g ∈ exited) (member : w ∈ g) : w ∉ t.queue := by
  intro inQueue
  exact (nodup_append.mp (led.perm.nodup_iff.mp nodup)).2.2 w (mem_flatten.mpr ⟨g, mem, member⟩) w inQueue rfl

theorem Led.mem_arrived (mem : w ∈ t.queue) : w ∈ s.arrived :=
  led.perm.mem_iff.mpr (mem_append_right _ mem)

end

section

theorem Phase.arrive (phase : Phase s exited t pc) (outside : w ∉ t.queue) (fresh : s.links.newer w = none)
    (links : s'.links = WriteThread.arrive s.links w) (arrived : s'.arrived = s.arrived ++ [w])
    (groups : s'.groups = s.groups) :
    Phase s' exited (t.grow [w]) pc := by
  simp only [Tenure.queue, Tenure.rest, mem_append, not_or] at outside
  obtain ⟨outGroup, outRemoved, outAhead, outLate⟩ := outside
  refine phase.extend [w] ?_ (fun shape => ?_) (fun shape => ?_) arrived groups
  · rw [links]
    exact arrive_same (by simp [outGroup, outRemoved, outAhead])
  · rw [links]
    exact shape.arrive outLate fresh
  · rw [links, ← append_assoc]
    exact shape.arrive (by simp [outGroup, outLate]) fresh

omit [DecidableEq ι] in
theorem served_congr (served : ∀ g ∈ exited, Finishing s g)
    (eq : ∀ w ∈ exited.flatten, s'.pc w = s.pc w ∧ s'.links.older w = s.links.older w) : ∀ g ∈ exited, Finishing s' g := by
  intro g mem
  apply (served g mem).congr
  intro w member
  exact eq w (mem_flatten.mpr ⟨g, mem, member⟩)

theorem Inv.outsider (inv : Inv writers maxBytes s) (out : w ∉ s.arrived) {v : Option ι}
    (unlinked : pc = .outside ∨ ∃ expected, pc = .linking expected) :
    Inv writers maxBytes { s.goto w pc with links := s.links.setOlder w v } := by
  have others : ∀ x ∈ s.arrived, x ≠ w := by
    rintro x mem rfl
    exact out mem
  have eq : ∀ x ∈ s.arrived, update s.pc w pc x = s.pc x ∧ update s.links.older w v x = s.links.older x :=
    fun x mem => ⟨update_of_ne (others x mem) _ _, update_of_ne (others x mem) _ _⟩
  obtain ⟨exited, served, tenure⟩ := inv.tenure
  refine ⟨inv.nodup, ?_, inv.inOrder, inv.sharing, exited, ?_, ?_⟩
  · intro x outX
    refine ⟨(inv.fresh x outX).1, ?_⟩
    show update s.pc w pc x = _ ∨ ∃ expected, update s.pc w pc x = _
    by_cases self : x = w
    · rw [self, update_self]
      exact unlinked
    · rw [update_of_ne self]
      exact (inv.fresh x outX).2
  · apply served_congr served
    intro x mem
    apply eq x
    rcases tenure with idle | ⟨t, led⟩
    · exact idle.perm.mem_iff.mpr mem
    · exact led.perm.mem_iff.mpr (mem_append_left _ mem)
  · rcases tenure with idle | ⟨t, led⟩
    · exact .inl { idle with }
    · refine .inr ⟨t, led.congr ?_ rfl rfl rfl fun x mem => (eq x (led.mem_arrived mem)).1⟩
      exact setOlder_same fun mem => out (led.mem_arrived mem)

theorem Inv.arrive (inv : Inv writers maxBytes s) (out : w ∉ s.arrived) : Inv writers maxBytes
      { s.goto w (if s.links.newestWriter = none then .leading else .waiting) with
        links := arrive s.links w
        arrived := s.arrived ++ [w] } := by
  have others : ∀ x ∈ s.arrived, x ≠ w := by
    rintro x mem rfl
    exact out mem
  obtain ⟨exited, served, tenure⟩ := inv.tenure
  have nodup : (s.arrived ++ [w]).Nodup := by
    rw [nodup_append]
    refine ⟨inv.nodup, nodup_singleton w, fun x mem y isW => ?_⟩
    rw [mem_singleton.mp isW]
    exact others x mem
  have longer : ∀ {xs : List ι}, xs.Sublist s.arrived → xs.Sublist (s.arrived ++ [w]) :=
    fun sub => sub.trans (sublist_append_left _ _)
  refine ⟨nodup, ?_, fun g mem => longer (inv.inOrder g mem), inv.sharing, exited, ?_, ?_⟩
  · intro x outX
    have before : x ∉ s.arrived := fun mem => outX (mem_append_left _ mem)
    have self : x ≠ w := fun eq => outX (mem_append_right _ (mem_singleton.mpr eq))
    refine ⟨(inv.fresh x before).1, ?_⟩
    show update s.pc w _ x = _ ∨ ∃ expected, update s.pc w _ x = _
    rw [update_of_ne self]
    exact (inv.fresh x before).2
  · apply served_congr served
    intro x mem
    have known : x ∈ s.arrived := by
      rcases tenure with idle | ⟨t, led⟩
      · exact idle.perm.mem_iff.mpr mem
      · exact led.perm.mem_iff.mpr (mem_append_left _ mem)
    exact ⟨update_of_ne (others x known) _ _, update_of_ne (others x known) _ _⟩
  · right
    rcases tenure with idle | ⟨t, led⟩
    · refine ⟨⟨w, [], [], [], []⟩, ?_, nofun, nofun, ?_⟩
      · exact idle.perm.append_right [w]
      · rw [if_pos idle.newestWriter]
        show Phase _ exited _ (update s.pc w .leading w)
        rw [update_self]
        have older : (WriteThread.arrive s.links w).older w = none := by
          show update s.links.older w s.links.newestWriter w = none
          rw [update_self, idle.newestWriter]
        have unset : Up (WriteThread.arrive s.links w).newer none [w] := ⟨(inv.fresh w out).1, trivial⟩
        refine ⟨rfl, rfl, rfl, ⟨⟨older, trivial⟩, unset.partly, rfl⟩, idle.groups, sublist_append_right _ _, ?_⟩
        exact nil_sublist _
    · have inQueue : ∀ x ∈ t.queue, x ≠ w := fun x mem => others x (led.mem_arrived mem)
      have outQueue : w ∉ t.queue := fun mem => out (led.mem_arrived mem)
      have busy := led.phase.busy
      refine ⟨t.grow [w], ?_, ?_, led.sharing, ?_⟩
      · rw [Tenure.queue_grow, ← append_assoc]
        exact led.perm.append_right [w]
      · intro x mem
        rw [if_neg busy]
        show update s.pc w .waiting x = .waiting
        rw [Tenure.rest_grow, ← append_assoc] at mem
        rcases mem_append.mp mem with mem | mem
        · rw [update_of_ne (inQueue x (t.mem_queue.mpr (.inr mem)))]
          exact led.waiting x mem
        · rw [mem_singleton.mp mem, update_self]
      · show Phase _ exited (t.grow [w]) (update s.pc w _ t.leader)
        rw [update_of_ne (inQueue t.leader t.leader_mem)]
        exact led.phase.arrive outQueue (inv.fresh w out).1 rfl rfl rfl

end

end VcompProof.WriteThread
