import Vcomp.Load.SerialPath

namespace VcompProof

open VcompModel SharedWords List

variable {σ : Type} {chunk : Option (List ℕ)} {i : ℕ} {worker worker' : BatchWorker} {bits' : BitMemory}

def BatchWorker.markedKeys : BatchWorker → List ℕ
  | .sorting _ _ => []
  | .marking _ keys marked => keys.take marked
  | .ready keys _ => keys

def BatchWorker.On (cfg : LoadConfig) (next : σ → ℕ × σ) (seed : σ) (i : ℕ) : BatchWorker → Prop
  | .sorting batchId supplied => batchId = i ∧ supplied = batchKeys cfg next seed i
  | .marking batchId keys _ => batchId = i ∧ keys = sortUnique (batchKeys cfg next seed i)
  | .ready keys file => keys = sortUnique (batchKeys cfg next seed i) ∧ file = batchFile cfg next seed i

structure Producing (cfg : LoadConfig) (next : σ → ℕ × σ) (seed : σ) (batchId drawn : ℕ) (rng : σ) (queue : List (List ℕ))
    (chunk : Option (List ℕ)) : Prop where
  drawnEq : drawn = min ((batchId + queue.length + chunk.toList.length) * cfg.capacity) cfg.numOps
  rngEq : rng = rngAfter cfg next seed drawn
  queueEq : queue ++ chunk.toList =
    (List.range' batchId (queue.length + chunk.toList.length)).map (batchKeys cfg next seed)

structure Draining (cfg : LoadConfig) (next : σ → ℕ × σ) (accepts : List (List VirtualL0WindowFile) → Bool) (seed : σ)
    (drained batchId : ℕ) (inFlight : List BatchWorker) (enqueue : L0Enqueue) (bits : BitMemory) : Prop where
  count : drained + inFlight.length = batchId
  total : batchId ≤ cfg.totalFlushes
  enqueueEq : enqueue = enqueued cfg next accepts seed drained
  workers : ∀ (j : ℕ) worker, inFlight[j]? = some worker → BatchWorker.On cfg next seed (drained + j) worker
  marked : BitsOf cfg.map (fun k => k ∈ (loadKeys cfg next seed).take (drained * cfg.capacity) ∨
    ∃ worker ∈ inFlight, k ∈ BatchWorker.markedKeys worker) bits

section

variable (cfg : LoadConfig) (next : σ → ℕ × σ) (accepts : List (List VirtualL0WindowFile) → Bool) (seed : σ)
  (s : ShardedLoad σ)

/-- The consumer is still in a loop over `in_flight`, or about to leave the block that holds it. -/
def Running : Prop :=
  s.stop = false ∧ ∃ drained, Draining cfg next accepts seed drained s.batchId s.inFlight s.enqueue s.bits

def Released : Prop :=
  s.inFlight = [] ∧ s.stop = true ∧ ((enqueued cfg next accepts seed cfg.totalFlushes).failed = false →
    BitsOf cfg.map (· ∈ loadKeys cfg next seed) s.bits)

def AtPc : ConsumerPc → Prop
  | .launching => Running cfg next accepts seed s
  | .draining => Running cfg next accepts seed s ∧ s.inFlight ≠ [] ∧ s.enqueue.failed = false
  | .tail => Running cfg next accepts seed s ∧ (s.enqueue.failed = true ∨ s.batchId = cfg.totalFlushes)
  | .joining => Running cfg next accepts seed s ∧
    (s.enqueue.failed = true ∨ (s.batchId = cfg.totalFlushes ∧ s.inFlight = []))
  | .joined => Released cfg next accepts seed s ∧ s.enqueue = enqueued cfg next accepts seed cfg.totalFlushes
  | .ended => Released cfg next accepts seed s ∧
    s.enqueue = (enqueued cfg next accepts seed cfg.totalFlushes).finish accepts

structure ShardedInv : Prop where
  producing : s.stop = false → Producing cfg next seed s.batchId s.drawn s.rng s.queue s.chunk
  finished : s.stop = false → s.finished = true → s.drawn = cfg.numOps ∧ s.chunk = none
  atPc : AtPc cfg next accepts seed s s.pc

end

section

variable {cfg : LoadConfig} {next : σ → ℕ × σ} {accepts : List (List VirtualL0WindowFile) → Bool} {seed : σ}
  {s s' : ShardedLoad σ} {inFlight : List BatchWorker} {enqueue : L0Enqueue} {queue : List (List ℕ)}
  {drained batchId : ℕ} {batchId drawn : ℕ} {bits : BitMemory} {keys : List ℕ} {rng : σ}

theorem shardedStart_inv : ShardedInv cfg next accepts seed (shardedStart seed) := by
  refine ⟨fun _ => ⟨by simp [shardedStart], rfl, rfl⟩, ?_, rfl, 0, rfl, Nat.zero_le _, rfl, ?_, ?_⟩
  · intro _ finished
    cases finished
  · simp [shardedStart]
  · apply (bitsOf_start cfg.map).congr
    simp [shardedStart]

theorem Producing.draw (capacity : 0 < cfg.capacity)
    (producing : Producing cfg next seed batchId drawn rng queue none) (more : drawn < cfg.numOps) :
    Producing cfg next seed batchId (drawn + min (max 1 cfg.capacity) (cfg.numOps - drawn))
      (drawKeys next cfg.map.keyDomain (min (max 1 cfg.capacity) (cfg.numOps - drawn)) rng).2 queue
      (some (drawKeys next cfg.map.keyDomain (min (max 1 cfg.capacity) (cfg.numOps - drawn)) rng).1) := by
  have drawnEq := producing.drawnEq
  simp only [Option.toList_none, length_nil, add_zero] at drawnEq
  have before : drawn = (batchId + queue.length) * cfg.capacity := by omega
  rw [max_eq_right capacity, producing.rngEq]
  rw [drawn_part (by omega)]
  refine ⟨?_, rfl, ?_⟩
  · simp only [Option.toList_some, length_singleton, Nat.add_one_mul]
    omega
  · have queueEq := producing.queueEq
    simp only [Option.toList_none, append_nil, length_nil, add_zero] at queueEq
    simp only [Option.toList_some, length_singleton]
    rw [range'_1_concat, map_append, ← queueEq, map_singleton, batchKeys, before]
    congr 2
    rw [take_eq_take_iff, length_drop, loadKeys_length]
    omega

theorem Producing.push (producing : Producing cfg next seed batchId drawn rng queue (some keys)) :
    Producing cfg next seed batchId drawn rng (queue ++ [keys]) none := by
  obtain ⟨drawnEq, rngEq, queueEq⟩ := producing
  simp only [Option.toList_some, length_singleton] at drawnEq queueEq
  refine ⟨?_, rngEq, ?_⟩
  · simp only [length_append, length_singleton, Option.toList_none, length_nil, add_zero]
    rw [drawnEq, add_assoc]
  · simpa using queueEq

theorem Producing.pop (producing : Producing cfg next seed batchId drawn rng (keys :: queue) chunk) :
    keys = batchKeys cfg next seed batchId ∧ Producing cfg next seed (batchId + 1) drawn rng queue chunk := by
  obtain ⟨drawnEq, rngEq, queueEq⟩ := producing
  rw [length_cons] at drawnEq queueEq
  have counts : queue.length + 1 + chunk.toList.length = queue.length + chunk.toList.length + 1 := by omega
  rw [counts, range'_succ, map_cons, cons_append] at queueEq
  obtain ⟨head, rest⟩ := List.cons.inj queueEq
  refine ⟨head, ?_, rngEq, rest⟩
  rw [drawnEq]
  congr 2
  omega

theorem exists_split {α : Type} {l : List α} {a : α} (get : l[i]? = some a) :
    ∃ front back, l = front ++ a :: back ∧ front.length = i := by
  obtain ⟨lt, rfl⟩ := List.getElem?_eq_some_iff.mp get
  refine ⟨l.take i, l.drop (i + 1), ?_, by rw [List.length_take]; omega⟩
  rw [← List.drop_eq_getElem_cons lt, List.take_append_drop]

theorem worker_step (pos : 0 < cfg.map.keyDomain)
    (on : BatchWorker.On cfg next seed i worker) (step : worker.step cfg bits = some (worker', bits')) :
    BatchWorker.On cfg next seed i worker' ∧
      ((BatchWorker.markedKeys worker' = BatchWorker.markedKeys worker ∧ bits' = bits) ∨
        ∃ key, BatchWorker.markedKeys worker' = BatchWorker.markedKeys worker ++ [key] ∧
          bits' = ((cfg.map.mark key).run bits).2) := by
  cases worker with
  | sorting batchId =>
    obtain ⟨rfl, rfl⟩ := on
    have small : ∀ k ∈ batchKeys cfg next seed batchId, k < cfg.map.keyDomain :=
      fun k mem => drawKeys_lt pos _ _ k (batchKeys_mem mem)
    simp only [BatchWorker.step, sorted_batch [] small, Option.some.injEq, Prod.mk.injEq] at step
    obtain ⟨rfl, rfl⟩ := step
    exact ⟨⟨rfl, rfl⟩, .inl ⟨rfl, rfl⟩⟩
  | marking =>
    obtain ⟨rfl, rfl⟩ := on
    simp only [BatchWorker.step] at step
    split at step
    · rename_i key atKey
      cases step
      refine ⟨⟨rfl, rfl⟩, .inr ⟨key, ?_, rfl⟩⟩
      simp only [BatchWorker.markedKeys]
      rw [take_add_one, atKey]
      rfl
    · rename_i ended
      cases step
      refine ⟨⟨rfl, rfl⟩, .inl ⟨?_, rfl⟩⟩
      simp only [BatchWorker.markedKeys]
      rw [take_of_length_le (getElem?_eq_none_iff.mp ended)]
  | ready => cases step

theorem Draining.work (pos : 0 < cfg.map.keyDomain)
    (draining : Draining cfg next accepts seed drained batchId inFlight enqueue bits) (get : inFlight[i]? = some worker)
    (step : worker.step cfg bits = some (worker', bits')) :
    Draining cfg next accepts seed drained batchId (inFlight.set i worker') enqueue bits' := by
  obtain ⟨on, marks⟩ := worker_step pos (draining.workers i worker get) step
  obtain ⟨lt, -⟩ := List.getElem?_eq_some_iff.mp get
  refine ⟨by rw [List.length_set]; exact draining.count, draining.total, draining.enqueueEq, ?_, ?_⟩
  · intro j other atJ
    rw [List.getElem?_set] at atJ
    split_ifs at atJ with eq
    · subst eq
      cases atJ
      exact on
    · exact draining.workers j other atJ
  · obtain ⟨front, back, rfl, length⟩ := exists_split get
    rw [set_append_right _ _ length.le, length, Nat.sub_self, set_cons_zero]
    rcases marks with ⟨eq, rfl⟩ | ⟨key, more, rfl⟩
    · apply draining.marked.congr
      intro k
      simp [mem_append, mem_cons, or_and_right, exists_or, eq]
    · apply (draining.marked.mark key).congr
      intro k
      grind

theorem Draining.launch (draining : Draining cfg next accepts seed drained batchId inFlight enqueue bits)
    (more : batchId < cfg.totalFlushes) :
    Draining cfg next accepts seed drained (batchId + 1)
      (inFlight ++ [.sorting batchId (batchKeys cfg next seed batchId)]) enqueue bits := by
  have count := draining.count
  refine ⟨by rw [length_append, length_singleton]; omega, more, draining.enqueueEq, ?_, ?_⟩
  · intro j worker atJ
    rw [getElem?_append] at atJ
    split_ifs at atJ with before
    · exact draining.workers j worker atJ
    · have last : j = inFlight.length := by
        by_contra other
        have beyond : j - inFlight.length ≠ 0 := by omega
        rw [getElem?_singleton, if_neg beyond] at atJ
        nomatch atJ
      rw [last, Nat.sub_self] at atJ
      cases atJ
      rw [last]
      exact ⟨count.symm, by rw [count]⟩
  · apply draining.marked.congr
    intro k
    simp [BatchWorker.markedKeys]

theorem Draining.drain {file : VirtualL0WindowFile}
    (draining : Draining cfg next accepts seed drained batchId (.ready keys file :: inFlight) enqueue bits)
    (going : enqueue.failed = false) :
    Draining cfg next accepts seed (drained + 1) batchId inFlight (enqueue.push cfg accepts file) bits := by
  have count := draining.count
  rw [length_cons] at count
  obtain ⟨keysEq, fileEq⟩ := draining.workers 0 _ rfl
  rw [add_zero] at keysEq fileEq
  have enqueueEq := draining.enqueueEq
  refine ⟨by omega, draining.total, ?_, ?_, ?_⟩
  · rw [enqueueEq] at going ⊢
    rw [enqueued_succ going, fileEq]
  · intro j worker atJ
    have on := draining.workers (j + 1) worker atJ
    rwa [show drained + (j + 1) = drained + 1 + j by omega] at on
  · apply draining.marked.congr
    intro k
    rw [take_batch, mem_append]
    simp only [mem_cons, exists_eq_or_imp, BatchWorker.markedKeys, keysEq, SortUnique.mem_sortUnique]
    exact or_assoc.symm

variable (capacity : 0 < cfg.capacity)
include capacity

theorem numOps_le_total : cfg.numOps ≤ cfg.totalFlushes * cfg.capacity := by
  have split := Nat.div_add_mod (cfg.numOps + cfg.capacity - 1) cfg.capacity
  have low := Nat.mod_lt (cfg.numOps + cfg.capacity - 1) capacity
  rw [LoadConfig.totalFlushes, mul_comm]
  omega

theorem totalFlushes_le {n : ℕ} (enough : cfg.numOps ≤ n * cfg.capacity) : cfg.totalFlushes ≤ n := by
  apply Nat.le_of_lt_succ
  rw [LoadConfig.totalFlushes, Nat.div_lt_iff_lt_mul capacity, Nat.add_one_mul]
  omega

theorem Producing.complete (producing : Producing cfg next seed batchId cfg.numOps rng [] none) :
    cfg.totalFlushes ≤ batchId := by
  apply totalFlushes_le capacity
  have drawnEq := producing.drawnEq
  simp only [length_nil, Option.toList_none, add_zero] at drawnEq
  omega

theorem Draining.join (draining : Draining cfg next accepts seed drained batchId inFlight enqueue bits)
    (through : enqueue.failed = true ∨ (batchId = cfg.totalFlushes ∧ inFlight = [])) :
    enqueue = enqueued cfg next accepts seed cfg.totalFlushes ∧
      ((enqueued cfg next accepts seed cfg.totalFlushes).failed = false →
        BitsOf cfg.map (· ∈ loadKeys cfg next seed) bits) := by
  have count := draining.count
  have total := draining.total
  have enqueueEq := draining.enqueueEq
  rcases through with failed | ⟨all, rfl⟩
  · have eq := enqueued_failed (enqueueEq ▸ failed) (show drained ≤ cfg.totalFlushes by omega)
    rw [eq, ← enqueueEq]
    exact ⟨rfl, fun going => absurd failed (by simp [going])⟩
  · have every : drained = cfg.totalFlushes := by
      rw [length_nil] at count
      omega
    rw [every] at enqueueEq
    refine ⟨enqueueEq, fun _ => ?_⟩
    apply draining.marked.congr
    intro k
    rw [every, take_of_length_le (by rw [loadKeys_length]; exact numOps_le_total capacity)]
    simp

end

variable {cfg : LoadConfig} {next : σ → ℕ × σ} {accepts : List (List VirtualL0WindowFile) → Bool} {seed : σ}
  {s s' : ShardedLoad σ}

theorem ShardedInv.of_producer (inv : ShardedInv cfg next accepts seed s) {rng : σ} {drawn : ℕ}
    {queue : List (List ℕ)} {finished : Bool}
    (producing : s.stop = false → Producing cfg next seed s.batchId drawn rng queue chunk)
    (ended : s.stop = false → finished = true → drawn = cfg.numOps ∧ chunk = none) : ShardedInv cfg next accepts seed
      { s with rng := rng, drawn := drawn, chunk := chunk, queue := queue, finished := finished } :=
  ⟨producing, ended, inv.atPc⟩

theorem ShardedInv.stands (inv : ShardedInv cfg next accepts seed s) {pc : ConsumerPc} (eq : s.pc = pc) :
    AtPc cfg next accepts seed s pc :=
  eq ▸ inv.atPc

theorem loadStep_inv (pos : 0 < cfg.map.keyDomain) (capacity : 0 < cfg.capacity)
    (inv : ShardedInv cfg next accepts seed s) {action : LoadAction} (step : loadStep cfg next accepts s action = some s') :
    ShardedInv cfg next accepts seed s' := by
  cases action with simp only [loadStep] at step
  | draw =>
    split_ifs at step with enabled
    cases step
    obtain ⟨empty, unfinished, more⟩ := enabled
    apply inv.of_producer
    · intro running
      have producing := inv.producing running
      rw [empty] at producing
      exact producing.draw capacity more
    · intro _ finished
      rw [unfinished] at finished
      nomatch finished
  | push =>
    split at step
    · rename_i keys waiting
      split_ifs at step with enabled
      cases step
      apply inv.of_producer
      · intro running
        have producing := inv.producing running
        rw [waiting] at producing
        exact producing.push
      · intro running finished
        exact ⟨(inv.finished running finished).1, rfl⟩
    · nomatch step
  | producerStop =>
    split_ifs at step with enabled
    cases step
    apply inv.of_producer
    · intro running
      rw [enabled.2] at running
      nomatch running
    · intro running
      rw [enabled.2] at running
      nomatch running
  | producerEnd =>
    split_ifs at step with enabled
    cases step
    apply inv.of_producer inv.producing
    intro running _
    have drawnEq := (inv.producing running).drawnEq
    exact ⟨by omega, enabled.1⟩
  | launch =>
    split at step
    · rename_i keys queue queueEq
      by_cases enabled : s.pc = .launching ∧ s.enqueue.failed = false ∧ s.batchId < cfg.totalFlushes
      swap
      · rw [if_neg enabled] at step
        nomatch step
      rw [if_pos enabled] at step
      cases step
      obtain ⟨launching, going, more⟩ := enabled
      obtain ⟨running, drained, draining⟩ := inv.stands launching
      have producing := inv.producing running
      rw [queueEq] at producing
      obtain ⟨rfl, popped⟩ := producing.pop
      refine ⟨fun _ => popped, inv.finished, ?_⟩
      dsimp only
      split
      · exact ⟨⟨running, drained, draining.launch more⟩, by simp, going⟩
      · exact ⟨running, drained, draining.launch more⟩
    · nomatch step
  | streamEnd =>
    split_ifs at step with enabled
    obtain ⟨launching, going, more, empty, finished⟩ := enabled
    obtain ⟨running, -⟩ := inv.stands launching
    have producing := inv.producing running
    obtain ⟨drawnAll, noChunk⟩ := inv.finished running finished
    rw [drawnAll, noChunk, empty] at producing
    have complete := producing.complete capacity
    omega
  | loopEnd =>
    split_ifs at step with enabled
    cases step
    obtain ⟨launching, stop⟩ := enabled
    obtain ⟨running, drained, draining⟩ := inv.stands launching
    exact ⟨inv.producing, inv.finished, ⟨running, drained, draining⟩, stop.imp_right (le_antisymm draining.total)⟩
  | drain =>
    split at step
    · rename_i keys file rest flight
      by_cases enabled : s.pc = .draining ∨ s.pc = .tail ∧ s.enqueue.failed = false
      swap
      · rw [if_neg enabled] at step
        nomatch step
      rw [if_pos enabled] at step
      cases step
      refine ⟨inv.producing, inv.finished, ?_⟩
      rcases enabled with pc | ⟨pc, going⟩
      · obtain ⟨⟨running, drained, draining⟩, -, going⟩ := inv.stands pc
        rw [flight] at draining
        rw [if_pos pc]
        exact ⟨running, drained + 1, draining.drain going⟩
      · obtain ⟨⟨running, drained, draining⟩, total⟩ := inv.stands pc
        rw [flight] at draining
        rw [if_neg (by simp [pc])]
        exact ⟨⟨running, drained + 1, draining.drain going⟩, .inr (total.resolve_left (by simp [going]))⟩
    · nomatch step
  | tailEnd =>
    split_ifs at step with enabled
    cases step
    obtain ⟨tail, stop⟩ := enabled
    obtain ⟨running, total⟩ := inv.stands tail
    refine ⟨inv.producing, inv.finished, running, ?_⟩
    rcases stop with failed | empty
    · exact .inl failed
    · exact total.imp_right fun total => ⟨total, isEmpty_iff.mp empty⟩
  | join =>
    split_ifs at step with enabled
    cases step
    obtain ⟨joining, -⟩ := enabled
    obtain ⟨⟨-, drained, draining⟩, total⟩ := inv.stands joining
    obtain ⟨enqueueEq, marked⟩ := draining.join capacity total
    refine ⟨?_, ?_, ⟨rfl, rfl, marked⟩, enqueueEq⟩
    all_goals
      intro running
      cases running
  | finish =>
    split_ifs at step with enabled
    cases step
    obtain ⟨joined, -⟩ := enabled
    obtain ⟨released, enqueueEq⟩ := inv.stands joined
    exact ⟨inv.producing, inv.finished, released, by rw [enqueueEq]⟩
  | work i =>
    split at step
    · rename_i worker atI
      split at step
      · rename_i worker' bits' stepped
        cases step
        have ne : s.inFlight ≠ [] := by
          intro empty
          rw [empty] at atI
          nomatch atI
        have works : Running cfg next accepts seed s →
            Running cfg next accepts seed { s with inFlight := s.inFlight.set i worker', bits := bits' } :=
          fun ⟨running, drained, draining⟩ => ⟨running, drained, draining.work pos atI stepped⟩
        refine ⟨inv.producing, inv.finished, ?_⟩
        dsimp only
        cases pc : s.pc with
        | launching => exact works (inv.stands pc)
        | draining => exact ⟨works (inv.stands pc).1, by simpa using ne, (inv.stands pc).2.2⟩
        | tail => exact ⟨works (inv.stands pc).1, (inv.stands pc).2⟩
        | joining => exact ⟨works (inv.stands pc).1, (inv.stands pc).2.imp_right fun done => absurd done.2 ne⟩
        | joined => exact absurd (inv.stands pc).1.1 ne
        | ended => exact absurd (inv.stands pc).1.1 ne
      · nomatch step
    · nomatch step

theorem worker_progress (cfg : LoadConfig) (bits : BitMemory) (busy : worker.isReady = false) :
    ∃ out, worker.step cfg bits = some out := by
  cases worker with
  | sorting => exact ⟨_, rfl⟩
  | marking =>
    simp only [BatchWorker.step]
    split <;> exact ⟨_, rfl⟩
  | ready => nomatch busy

theorem work_enabled (get : s.inFlight[i]? = some worker) (busy : worker.isReady = false) :
    ∃ s', LoadStep cfg next accepts s s' := by
  obtain ⟨⟨worker', bits'⟩, stepped⟩ := worker_progress cfg s.bits busy
  refine ⟨{ s with inFlight := s.inFlight.set i worker', bits := bits' }, .work i, ?_⟩
  simp [loadStep, get, stepped]

theorem load_enabled (action : LoadAction) (taken : (loadStep cfg next accepts s action).isSome = true) :
    ∃ s', LoadStep cfg next accepts s s' := by
  obtain ⟨s', step⟩ := Option.isSome_iff_exists.mp taken
  exact ⟨s', action, step⟩

theorem producer_enabled (unfinished : s.finished = false) (room : s.queue = [] ∨ s.stop = true) :
    ∃ s', LoadStep cfg next accepts s s' := by
  cases chunk : s.chunk with
  | none =>
    by_cases more : s.drawn < cfg.numOps
    · apply load_enabled .draw
      simp only [loadStep]
      rw [if_pos ⟨chunk, unfinished, more⟩]
      rfl
    · apply load_enabled .producerEnd
      simp only [loadStep]
      rw [if_pos ⟨chunk, unfinished, not_lt.mp more⟩]
      rfl
  | some keys =>
    cases stop : s.stop with
    | true =>
      apply load_enabled .producerStop
      simp only [loadStep]
      rw [if_pos ⟨by simp [chunk], stop⟩]
      rfl
    | false =>
      have empty : s.queue = [] := room.resolve_right (by simp [stop])
      have depth : s.queue.length < streamDepth cfg := by
        rw [empty, length_nil, streamDepth]
        omega
      apply load_enabled .push
      simp only [loadStep, chunk]
      rw [if_pos ⟨depth, stop⟩]
      rfl

theorem load_progress (inv : ShardedInv cfg next accepts seed s) (going : s.pc ≠ .ended) :
    ∃ s', LoadStep cfg next accepts s s' := by
  have drains : s.inFlight ≠ [] → (s.pc = .draining ∨ s.pc = .tail ∧ s.enqueue.failed = false) →
      ∃ s', LoadStep cfg next accepts s s' := by
    intro ne allowed
    cases flight : s.inFlight with
    | nil => exact absurd flight ne
    | cons worker =>
      cases worker with
      | ready =>
        apply load_enabled .drain
        simp only [loadStep, flight]
        rw [if_pos allowed]
        rfl
      | sorting => exact work_enabled (i := 0) (by rw [flight]; rfl) rfl
      | marking => exact work_enabled (i := 0) (by rw [flight]; rfl) rfl
  cases pc : s.pc with
  | launching =>
    by_cases stops : s.enqueue.failed = true ∨ s.batchId ≥ cfg.totalFlushes
    · apply load_enabled .loopEnd
      simp only [loadStep]
      rw [if_pos ⟨pc, stops⟩]
      rfl
    · obtain ⟨ok, more⟩ := not_or.mp stops
      have notFailed : s.enqueue.failed = false := by simpa using ok
      cases queue : s.queue with
      | cons =>
        apply load_enabled .launch
        simp only [loadStep, queue]
        rw [if_pos ⟨pc, notFailed, not_le.mp more⟩]
        rfl
      | nil =>
        cases finished : s.finished with
        | false => exact producer_enabled finished (.inl queue)
        | true =>
          apply load_enabled .streamEnd
          simp only [loadStep]
          rw [if_pos ⟨pc, notFailed, not_le.mp more, queue, finished⟩]
          rfl
  | draining => exact drains (inv.stands pc).2.1 (.inl pc)
  | tail =>
    by_cases stops : s.enqueue.failed = true ∨ s.inFlight.isEmpty = true
    · apply load_enabled .tailEnd
      simp only [loadStep]
      rw [if_pos ⟨pc, stops⟩]
      rfl
    · obtain ⟨ok, ne⟩ := not_or.mp stops
      exact drains (fun empty => ne (empty ▸ rfl)) (.inr ⟨pc, by simpa using ok⟩)
  | joining =>
    by_cases all : s.inFlight.all (·.isReady) = true
    · apply load_enabled .join
      simp only [loadStep]
      rw [if_pos ⟨pc, all⟩]
      rfl
    · simp only [all_eq_true, not_forall] at all
      obtain ⟨worker, mem, busy⟩ := all
      obtain ⟨i, get⟩ := mem_iff_getElem?.mp mem
      exact work_enabled get (by simpa using busy)
  | joined =>
    cases finished : s.finished with
    | true =>
      apply load_enabled .finish
      simp only [loadStep]
      rw [if_pos ⟨pc, finished⟩]
      rfl
    | false => exact producer_enabled finished (.inr (inv.stands pc).1.2.1)
  | ended => exact absurd pc going

def workerWork : BatchWorker → ℕ
  | .sorting _ supplied => supplied.length + 3
  | .marking _ keys marked => keys.length - marked + 1
  | .ready _ _ => 0

def pcRank : ConsumerPc → ℕ
  | .launching => 6
  | .draining => 6
  | .tail => 4
  | .joining => 3
  | .joined => 2
  | .ended => 0

def loadWork (cfg : LoadConfig) (s : ShardedLoad σ) : ℕ :=
  30 * (cfg.numOps - s.drawn) + (s.chunk.toList.map fun keys => keys.length + 21).sum +
    (s.queue.map fun keys => keys.length + 20).sum + (s.inFlight.map fun worker => workerWork worker + 10).sum +
    (if s.finished then 0 else 1) + pcRank s.pc

theorem worker_work {bits : BitMemory}
    (step : worker.step cfg bits = some (worker', bits')) : workerWork worker' < workerWork worker := by
  cases worker with
  | sorting batchId supplied =>
    simp only [BatchWorker.step, Option.some.injEq, Prod.mk.injEq] at step
    obtain ⟨rfl, -⟩ := step
    have perm := RadixSort.sort_perm (radixPasses cfg.map.keyDomain) (resize_length supplied.length [])
    have fewer := (destutter_sublist (· ≠ ·)
      (RadixSort.sort (radixPasses cfg.map.keyDomain) supplied (resize supplied.length [])).1).length_le
    rw [perm.length_eq] at fewer
    simp only [workerWork]
    omega
  | marking batchId keys marked =>
    simp only [BatchWorker.step] at step
    split at step
    · rename_i key atKey
      cases step
      have lt := (List.getElem?_eq_some_iff.mp atKey).1
      simp only [workerWork]
      omega
    · cases step
      simp only [workerWork]
      omega
  | ready => cases step

theorem loadWork_step (step : LoadStep cfg next accepts s s') : loadWork cfg s' < loadWork cfg s := by
  obtain ⟨action, step⟩ := step
  cases action with simp only [loadStep] at step
  | draw =>
    split_ifs at step with allowed
    cases step
    obtain ⟨empty, -, more⟩ := allowed
    simp only [loadWork, empty, Option.toList_some, Option.toList_none, map_cons, map_nil, sum_cons,
      sum_nil, drawKeys_length]
    omega
  | push =>
    split at step
    · rename_i keys waiting
      split_ifs at step with allowed
      cases step
      simp only [loadWork, waiting, Option.toList_some, Option.toList_none, map_append, map_cons, map_nil,
        sum_append, sum_cons, sum_nil]
      omega
    · nomatch step
  | producerStop =>
    split_ifs at step with allowed
    cases step
    obtain ⟨keys, waiting⟩ := Option.ne_none_iff_exists'.mp allowed.1
    simp only [loadWork, waiting, Option.toList_some, Option.toList_none, map_cons, map_nil, sum_cons,
      sum_nil, if_true]
    omega
  | producerEnd =>
    split_ifs at step with allowed
    cases step
    simp only [loadWork, allowed.2.1, Bool.false_eq_true, if_true, if_false]
    omega
  | launch =>
    split at step
    · rename_i keys queue queueEq
      by_cases allowed : s.pc = .launching ∧ s.enqueue.failed = false ∧ s.batchId < cfg.totalFlushes
      · rw [if_pos allowed] at step
        cases step
        have rank : ∀ full : Bool, pcRank (if full then .draining else .launching) = 6 := by decide
        have after := rank (decide ((s.inFlight ++ [BatchWorker.sorting s.batchId keys]).length ≥ max 1 cfg.shards))
        simp only [decide_eq_true_iff] at after
        simp only [loadWork, after, queueEq, allowed.1, map_append, map_cons, map_nil, sum_append,
          sum_cons, sum_nil, workerWork]
        omega
      · rw [if_neg allowed] at step
        nomatch step
    · nomatch step
  | streamEnd | loopEnd | tailEnd | finish =>
    split_ifs at step with allowed
    cases step
    simp only [loadWork, allowed.1, pcRank]
    omega
  | drain =>
    split at step
    · rename_i keys file rest flight
      by_cases allowed : s.pc = .draining ∨ s.pc = .tail ∧ s.enqueue.failed = false
      · rw [if_pos allowed] at step
        cases step
        have rank : pcRank (if s.pc = .draining then .launching else .tail) = pcRank s.pc := by
          rcases allowed with pc | ⟨pc, -⟩ <;> rw [pc] <;> rfl
        simp only [loadWork, rank, flight, map_cons, sum_cons]
        omega
      · rw [if_neg allowed] at step
        nomatch step
    · nomatch step
  | join =>
    split_ifs at step with allowed
    cases step
    simp only [loadWork, allowed.1, pcRank, map_nil, sum_nil]
    omega
  | work i =>
    split at step
    · rename_i worker atI
      split at step
      · rename_i worker' bits' stepped
        cases step
        have lt := worker_work stepped
        obtain ⟨front, back, split, length⟩ := exists_split atI
        simp only [loadWork, split]
        rw [set_append_right _ _ length.le, length, Nat.sub_self, set_cons_zero]
        simp only [map_append, map_cons, sum_append, sum_cons]
        omega
      · nomatch step
    · nomatch step

/-- A sharded Phase 1 ends, hands over the files of the serial path call by call and, unless a call fails, marks the
same bits. -/
theorem sharding_invisible (cfg : LoadConfig) (maxBytes : ℕ)
    (created : KeyBitmap.create cfg.map.keyDomain maxBytes = .ok cfg.map) (capacity : 0 < cfg.capacity)
    (next : σ → ℕ × σ) (accepts : List (List VirtualL0WindowFile) → Bool) (seed : σ) :
    let serial := serialLoad cfg next accepts seed
    (∀ s, Relation.ReflTransGen (LoadStep cfg next accepts) (shardedStart seed) s →
        s.pc = .ended ∨ ∃ s', LoadStep cfg next accepts s s') ∧
      (∀ run : ℕ → ShardedLoad σ, run 0 = shardedStart seed → ∃ i, ¬ LoadStep cfg next accepts (run i) (run (i + 1))) ∧
      ∀ s, Relation.ReflTransGen (LoadStep cfg next accepts) (shardedStart seed) s → s.pc = .ended →
        s.enqueue.calls = serial.enqueue.calls ∧ s.enqueue.failed = serial.enqueue.failed ∧
        (serial.enqueue.failed = false → s.bits = serial.bits) := by
  intro serial
  have pos : 0 < cfg.map.keyDomain := by
    unfold KeyBitmap.create at created
    split_ifs at created with zero
    exact pos_of_ne_zero zero
  have invariant : ∀ s, Relation.ReflTransGen (LoadStep cfg next accepts) (shardedStart seed) s →
      ShardedInv cfg next accepts seed s := by
    intro s reach
    induction reach with
    | refl => exact shardedStart_inv
    | tail _ step ih =>
      obtain ⟨action, step⟩ := step
      exact loadStep_inv pos capacity ih step
  obtain ⟨serialEnqueue, serialBits⟩ := serialLoad_spec next accepts seed pos capacity
  refine ⟨fun s reach => ?_, fun run _ => Transition.no_endless_run (loadWork cfg) (fun _ _ step => loadWork_step step) run,
    fun s reach ended => ?_⟩
  · by_cases ended : s.pc = .ended
    · exact .inl ended
    · exact .inr (load_progress (invariant s reach) ended)
  · have inv := invariant s reach
    obtain ⟨⟨-, -, marked⟩, enqueueEq⟩ := inv.stands ended
    have eq : s.enqueue = serial.enqueue := enqueueEq.trans serialEnqueue.symm
    refine ⟨by rw [eq], by rw [eq], fun succeeds => ?_⟩
    have going : (enqueued cfg next accepts seed cfg.totalFlushes).failed = false := by
      by_contra failed
      rw [serialEnqueue, finish_failed (by simpa using failed)] at succeeds
      nomatch succeeds
    exact (marked going).unique (serialBits going)

def smallLoad (numOps capacity shards : ℕ) : LoadConfig :=
  ⟨⟨8, 1⟩, numOps, capacity, shards, 100, 1, 1, {}, .logical 10⟩

def counter (n : ℕ) : ℕ × ℕ := (n, n + 1)

theorem schedule_reach (schedule : List LoadAction) {t : ShardedLoad σ}
    (run : schedule.foldlM (loadStep cfg next accepts) s = some t) :
    Relation.ReflTransGen (LoadStep cfg next accepts) s t := by
  induction schedule generalizing s with
  | nil =>
    cases run
    exact .refl
  | cons action _ ih =>
    obtain ⟨u, step, later⟩ := Option.bind_eq_some_iff.mp run
    exact .head ⟨action, step⟩ (ih later)

theorem sharding_invisible_small :
    ∃ s, Relation.ReflTransGen (LoadStep (smallLoad 2 1 2) counter fun _ => true) (shardedStart 0) s ∧ s.pc = .ended ∧
      s.enqueue.calls = (serialLoad (smallLoad 2 1 2) counter (fun _ => true) 0).enqueue.calls ∧
      s.bits = (serialLoad (smallLoad 2 1 2) counter (fun _ => true) 0).bits := by
  have run : (foldlM (loadStep (smallLoad 2 1 2) counter fun _ => true) (shardedStart 0)
      [.draw, .push, .draw, .push, .producerEnd, .launch, .launch, .work 1, .work 1, .work 1, .work 0, .work 0, .work 0,
        .drain, .loopEnd, .drain, .tailEnd, .join, .finish]).map (·.pc) = some .ended := by decide +kernel
  obtain ⟨s, reached, ended⟩ := Option.map_eq_some_iff.mp run
  have reach := schedule_reach _ reached
  have eq := (sharding_invisible (smallLoad 2 1 2) 8 rfl (by decide) counter (fun _ => true) 0).2.2 s reach ended
  exact ⟨s, reach, ended, eq.1, eq.2.2 (by decide +kernel)⟩

/-- Two batches of one key and a first call that fails: only the worker in flight marks the second key. -/
theorem sharding_marks_more :
    ∃ s, Relation.ReflTransGen (LoadStep (smallLoad 2 1 2) counter fun _ => false) (shardedStart 0) s ∧ s.pc = .ended ∧
      s.bits ≠ (serialLoad (smallLoad 2 1 2) counter (fun _ => false) 0).bits := by
  have run : (foldlM (loadStep (smallLoad 2 1 2) counter fun _ => false) (shardedStart 0)
      [.draw, .push, .draw, .push, .producerEnd, .launch, .launch, .work 0, .work 0, .work 0, .drain, .loopEnd, .tailEnd,
        .work 0, .work 0, .work 0, .join, .finish]).map
      (fun s => (s.pc, holds s.bits .present 3)) = some (.ended, true) := by decide +kernel
  obtain ⟨s, reached, outcome⟩ := Option.map_eq_some_iff.mp run
  obtain ⟨ended, marked⟩ := Prod.mk.inj outcome
  refine ⟨s, schedule_reach _ reached, ended, ?_⟩
  intro eq
  have unmarked : holds (serialLoad (smallLoad 2 1 2) counter (fun _ => false) 0).bits .present 3 = false := by
    decide +kernel
  rw [eq, unmarked] at marked
  nomatch marked

end VcompProof
