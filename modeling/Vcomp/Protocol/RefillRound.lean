import Vcomp.Protocol.Numbers

namespace VcompModel

structure VirtualSSTRegistry where
  live : ℕ → Option VirtualSST
  retired : Finset ℕ

def VirtualSSTRegistry.register (r : VirtualSSTRegistry) (number : ℕ) (vsst : VirtualSST) : VirtualSSTRegistry :=
  ⟨Function.update r.live number (some vsst), r.retired.erase number⟩

def VirtualSSTRegistry.remove (r : VirtualSSTRegistry) (number : ℕ) : VirtualSSTRegistry :=
  if (r.live number).isSome then ⟨Function.update r.live number none, insert number r.retired⟩ else r

structure L0Window where
  pending : List VirtualL0WindowFile
  pendingBytes : UInt64
  visibleFiles : ℕ
  visibleBytes : ℕ
  registry : VirtualSSTRegistry

inductive Pressure where
  | free
  | slowdown
  | stop
  deriving DecidableEq

def L0Window.formBatch (w : L0Window) (targetBytes batchCap : ℕ) : List VirtualL0WindowFile × L0Window :=
  let (batch, left) := takeBatch (targetBytes - w.visibleBytes) batchCap 0 0 w.pending
  (batch, { w with
    pending := left
    pendingBytes := batch.foldl (fun bytes file => bytes - UInt64.ofNat file.fileSize) w.pendingBytes
    registry := batch.foldl (fun r file => r.register file.fileNumber file.vsst) w.registry })

def L0Window.refillRound (w : L0Window) (targetBytes maxRegisterBatchFiles : ℕ) (trickled : Bool) (pressure : Pressure)
    (logAndApply : List VirtualL0WindowFile → Status) : Option (Status × L0Window) :=
  if w.pending = [] ∨ targetBytes ≤ w.visibleBytes ∨ trickled = true ∨ pressure = .stop then none
  else
    let (batch, formed) := w.formBatch targetBytes (if pressure = .slowdown then 1 else maxRegisterBatchFiles)
    if batch = [] then none
    else if logAndApply batch = .ok then
      some (.ok, { formed with
        visibleFiles := formed.visibleFiles + batch.length
        visibleBytes := formed.visibleBytes + (batch.map (·.fileSize)).sum })
    else
      some (logAndApply batch, { formed with
        registry := batch.foldl (fun r file => r.remove file.fileNumber) formed.registry })

end VcompModel

namespace VcompProof

open VcompModel List

variable (batch : List VirtualL0WindowFile)

def numbersOf (batch : List VirtualL0WindowFile) : List ℕ := batch.map (·.fileNumber)

theorem registerBatch (r : VirtualSSTRegistry) :
    let r' := batch.foldl (fun r file => r.register file.fileNumber file.vsst) r
    (∀ m, m ∉ numbersOf batch → r'.live m = r.live m) ∧ (∀ m ∈ numbersOf batch, (r'.live m).isSome) ∧
      ∀ m, m ∈ r'.retired ↔ m ∈ r.retired ∧ m ∉ numbersOf batch := by
  induction batch generalizing r with
  | nil => simp [numbersOf]
  | cons file rest ih =>
    obtain ⟨kept, live, retired⟩ := ih (r.register file.fileNumber file.vsst)
    simp only [numbersOf, map_cons, mem_cons, not_or] at kept live retired ⊢
    refine ⟨fun m outside => ?_, fun m mem => ?_, fun m => ?_⟩
    · exact (kept m outside.2).trans (Function.update_of_ne outside.1 _ _)
    · by_cases later : m ∈ rest.map (·.fileNumber)
      · exact live m later
      · obtain rfl := mem.resolve_right later
        rw [foldl_cons, kept _ later]
        simp [VirtualSSTRegistry.register]
    · rw [foldl_cons, retired, VirtualSSTRegistry.register, Finset.mem_erase]
      tauto

theorem remove_live (r : VirtualSSTRegistry) (number : ℕ) : (r.remove number).live = Function.update r.live number none := by
  by_cases registered : (r.live number).isSome
  · rw [VirtualSSTRegistry.remove, if_pos registered]
  · rw [VirtualSSTRegistry.remove, if_neg registered, ← Option.not_isSome_iff_eq_none.mp registered, Function.update_eq_self]

theorem removeBatch (r : VirtualSSTRegistry) : let r' := batch.foldl (fun r file => r.remove file.fileNumber) r
    (∀ m, r'.live m = if m ∈ numbersOf batch then none else r.live m) ∧
      ∀ m, m ∈ r'.retired ↔ m ∈ r.retired ∨ m ∈ numbersOf batch ∧ (r.live m).isSome := by
  induction batch generalizing r with
  | nil => simp [numbersOf]
  | cons file rest ih =>
    have retiredHere : ∀ m, m ∈ (r.remove file.fileNumber).retired ↔
        m ∈ r.retired ∨ m = file.fileNumber ∧ (r.live m).isSome := by
      intro m
      by_cases registered : (r.live file.fileNumber).isSome
      · rw [VirtualSSTRegistry.remove, if_pos registered, Finset.mem_insert]
        grind
      · rw [VirtualSSTRegistry.remove, if_neg registered]
        grind
    obtain ⟨live, retired⟩ := ih (r.remove file.fileNumber)
    simp only [numbersOf, map_cons, mem_cons] at live retired ⊢
    constructor
    · intro m
      rw [foldl_cons, live, remove_live]
      by_cases eq : m = file.fileNumber <;> simp [eq]
    · intro m
      rw [foldl_cons, retired, retiredHere, remove_live]
      by_cases eq : m = file.fileNumber <;> simp [eq]

/-- A failed round leaves everything but the batch, whose numbers are retired. -/
structure BatchLost (w : L0Window) (batch : List VirtualL0WindowFile) (w' : L0Window) : Prop where
  nonempty : batch ≠ []
  queue : w.pending = batch ++ w'.pending
  bytes : w'.pendingBytes = w.pendingBytes - UInt64.ofNat (batch.map (·.fileSize)).sum
  visible : w'.visibleFiles = w.visibleFiles ∧ w'.visibleBytes = w.visibleBytes
  live : ∀ m, w'.registry.live m = if m ∈ numbersOf batch then none else w.registry.live m
  retired : ∀ m, m ∈ w'.registry.retired ↔ m ∈ w.registry.retired ∨ m ∈ numbersOf batch

theorem pendingBytes_sub (bytes : UInt64) :
    batch.foldl (fun bytes file => bytes - UInt64.ofNat file.fileSize) bytes = bytes - UInt64.ofNat
      (batch.map (·.fileSize)).sum := by
  induction batch generalizing bytes with
  | nil => simp
  | cons file rest ih =>
    rw [foldl_cons, ih, map_cons, sum_cons, UInt64.ofNat_add, UInt64.sub_eq_add_neg, UInt64.sub_eq_add_neg,
      UInt64.sub_eq_add_neg, UInt64.neg_add, UInt64.sub_eq_add_neg, UInt64.add_assoc]

theorem failed_refill (w w' : L0Window) (targetBytes maxRegisterBatchFiles : ℕ) (trickled : Bool) (pressure : Pressure)
    (logAndApply : List VirtualL0WindowFile → Status) (status : Status) (failed : status ≠ .ok)
    (round : w.refillRound targetBytes maxRegisterBatchFiles trickled pressure logAndApply = some (status, w')) :
    ∃ batch, BatchLost w batch w' := by
  rw [L0Window.refillRound, L0Window.formBatch] at round
  generalize (if pressure = .slowdown then 1 else maxRegisterBatchFiles) = batchCap at round
  have queue := takeBatch_append (targetBytes - w.visibleBytes) batchCap 0 0 w.pending
  generalize takeBatch (targetBytes - w.visibleBytes) batchCap 0 0 w.pending = taken at queue round
  obtain ⟨batch, left⟩ := taken
  dsimp only at round
  split_ifs at round with ended empty logged
  · exact absurd (Prod.mk.inj (Option.some.inj round)).1.symm failed
  obtain ⟨-, rfl⟩ := Prod.mk.inj (Option.some.inj round)
  obtain ⟨kept, registered, erased⟩ := registerBatch batch w.registry
  obtain ⟨live, retired⟩ := removeBatch batch (batch.foldl (fun r file => r.register file.fileNumber file.vsst) w.registry)
  refine ⟨batch, empty, queue.symm, pendingBytes_sub batch _, ⟨rfl, rfl⟩, fun m => ?_, fun m => ?_⟩
  · rw [live]
    split_ifs with mem
    · rfl
    · exact kept m mem
  · rw [retired, erased]
    by_cases mem : m ∈ numbersOf batch
    · simp [mem, registered m mem]
    · simp [mem]

def queuedFile (number fileSize : ℕ) : VirtualL0WindowFile := ⟨number, virtualSSTOfKeys {} 0 0 0 0 [3], fileSize, 1⟩

/-- A batch of two files leaves the third in the queue. -/
def queuedWindow : L0Window :=
  ⟨[queuedFile 7 5, queuedFile 8 4, queuedFile 9 6], 15, 1, 3, ⟨fun number => if number = 2 then some threeKeys else none, ∅⟩⟩

theorem failed_refill_queued :
    ∃ w', queuedWindow.refillRound 20 2 false .free (fun _ => .ioError) = some (.ioError, w') ∧
      w'.pending = [queuedFile 9 6] ∧ ∃ batch, BatchLost queuedWindow batch w' :=
  ⟨_, rfl, rfl, failed_refill queuedWindow _ 20 2 false .free (fun _ => .ioError) .ioError (by decide) rfl⟩

/-- The files of the batch are neither queued nor registered after the failure. -/
theorem failed_refill_loses :
    ∃ w', queuedWindow.refillRound 20 2 false .free (fun _ => .ioError) = some (.ioError, w') ∧
      queuedWindow.pending.length = 3 ∧ w'.pending.length = 1 ∧ queuedWindow.pendingBytes = 15 ∧ w'.pendingBytes = 6 ∧
      w'.registry.live 7 = none ∧ 7 ∉ queuedWindow.registry.retired ∧ 7 ∈ w'.registry.retired :=
  ⟨_, rfl, rfl, rfl, rfl, by decide, by decide, by decide, by decide⟩

/-- What a window has of a state of the protocol. -/
structure Shows {n : ℕ} (w : L0Window) (s : State n) : Prop where
  pending : w.pending = s.pending
  files : w.visibleFiles = s.visibleFiles
  bytes : w.visibleBytes = s.visibleBytes
  live : w.registry.live = s.registry

theorem registerBatch_live (r : VirtualSSTRegistry) :
    (batch.foldl (fun r file => r.register file.fileNumber file.vsst) r).live =
      registerAll r.live (batch.map fun file => (file.fileNumber, file.vsst)) := by
  induction batch generalizing r with
  | nil => rfl
  | cons file rest ih => exact ih _

theorem removeBatch_live (r : VirtualSSTRegistry) :
    (batch.foldl (fun r file => r.remove file.fileNumber) r).live = removeAll r.live (batch.map (·.fileNumber)) := by
  induction batch generalizing r with
  | nil => rfl
  | cons file rest ih => exact (ih _).trans (by rw [remove_live]; rfl)

/-- A round is the three steps of a refilling thread that no other thread comes between. -/
theorem refillRound_steps {n : ℕ} {cfg : ProtocolConfig} {s : State n} {t : Fin n} {caller : RefillCaller}
    {locals : RefillLocals} {w w' : L0Window} {pressure : Pressure} {logAndApply : List VirtualL0WindowFile → Status}
    {status : Status} (shows : Shows w s) (pc : s.pc t = .refillLoop caller locals)
    (pressed : pressure ≠ .free → cfg.backpressure = true)
    (round : w.refillRound locals.targetBytes (max 1 cfg.maxRegisterBatchFiles) locals.trickled pressure logAndApply =
      some (status, w')) : ∃ ok s₁ s₂ s₃, (ok = true ↔ status = .ok) ∧ Step cfg s (.refillBatch t (pressure = .slowdown)) s₁ ∧
        Step cfg s₁ (.refillLogAndApply t ok) s₂ ∧ Step cfg s₂ (.refillReturn t) s₃ ∧ Shows w' s₃ := by
  rw [L0Window.refillRound, L0Window.formBatch, shows.pending, shows.bytes] at round
  generalize capped : (if pressure = .slowdown then 1 else max 1 cfg.maxRegisterBatchFiles) = batchCap at round
  generalize taken : takeBatch (locals.targetBytes - s.visibleBytes) batchCap 0 0 s.pending = result at round
  obtain ⟨batch, left⟩ := result
  dsimp only at round
  split_ifs at round with ended empty logged
  all_goals
    obtain ⟨-, room, fresh, -⟩ := by simpa only [not_or] using ended
    obtain ⟨rfl, rfl⟩ := Prod.mk.inj (Option.some.inj round)
    have formed : Step cfg s _ _ := .refillBatch t caller locals (pressure = .slowdown) batch left pc (not_le.mp room)
      (by simpa using fresh) (by simpa using fun slow => pressed (by simp [slow])) (by simpa [capped] using taken) empty
  · refine ⟨true, _, _, _, by simp, formed, .refillInstall t caller _ batch rfl (Function.update_self ..),
      .refillCount t caller _ batch rfl (Function.update_self ..), rfl, congrArg (· + _) shows.files, rfl, ?_⟩
    exact (registerBatch_live batch _).trans (congrArg (registerAll · _) shows.live)
  · refine ⟨false, _, _, _, by simp [logged], formed, .refillFail t caller _ batch rfl (Function.update_self ..),
      .refillUndo t caller _ batch rfl (Function.update_self ..), ?_⟩
    have live := (removeBatch_live batch _).trans
      (congrArg (removeAll · _) ((registerBatch_live batch _).trans (congrArg (registerAll · _) shows.live)))
    cases caller <;> exact ⟨rfl, shows.files, rfl, live⟩

end VcompProof
