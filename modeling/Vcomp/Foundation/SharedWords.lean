import Mathlib.Data.FinEnum
import Mathlib.Data.BitVec
import Mathlib.Data.Finset.Lattice.Fold

/-! Programs over shared atomic words: loads and fetch-or, alone and under interference. -/

namespace SharedWords

open Function

/-- A program whose only shared accesses are atomic loads and fetch-or of words. -/
inductive Prog (w : ℕ) (A α : Type) where
  | done (a : α)
  | load (word : A) (next : BitVec w → Prog w A α)
  | fetchOr (word : A) (mask : BitVec w) (next : BitVec w → Prog w A α)

variable {w : ℕ} {A α β : Type}

def Prog.bind : Prog w A α → (α → Prog w A β) → Prog w A β
  | .done a, f => f a
  | .load word next, f => .load word fun v => (next v).bind f
  | .fetchOr word mask next, f => .fetchOr word mask fun v => (next v).bind f

instance : Monad (Prog w A) where
  pure := .done
  bind := .bind

def Prog.step [DecidableEq A] (m : A → BitVec w) : Prog w A α → Option (Prog w A α × (A → BitVec w))
  | .done _ => none
  | .load word next => some (next (m word), m)
  | .fetchOr word mask next => some (next (m word), update m word (m word ||| mask))

def Prog.run [DecidableEq A] : Prog w A α → (A → BitVec w) → α × (A → BitVec w)
  | .done a, m => (a, m)
  | .load word next, m => (next (m word)).run m
  | .fetchOr word mask next, m => (next (m word)).run (update m word (m word ||| mask))

def runAll [DecidableEq A] : List (Prog w A α) → (A → BitVec w) → List α × (A → BitVec w)
  | [], m => ([], m)
  | p :: ps, m =>
    let (a, m) := p.run m
    let (as, m) := runAll ps m
    (a :: as, m)

abbrev Footprint (A : Type) := A → ℕ → Prop

def WordAgree (bits : ℕ → Prop) (v v' : BitVec w) : Prop := ∀ b, bits b → v.getLsbD b = v'.getLsbD b

def Agree (S : Footprint A) (m m' : A → BitVec w) : Prop := ∀ word, WordAgree (S word) (m word) (m' word)

def Apart (S T : Footprint A) : Prop := ∀ word b, S word b → ¬ T word b

/-- On memories that agree on the footprint both access the same words, write only bits of it and end with related
results. -/
inductive Related (S : Footprint A) (R : α → β → Prop) : Prog w A α → Prog w A β → Prop
  | done {a : α} {b : β} (related : R a b) : Related S R (.done a) (.done b)
  | load {word : A} {next : BitVec w → Prog w A α} {next' : BitVec w → Prog w A β}
      (rest : ∀ v v', WordAgree (S word) v v' → Related S R (next v) (next' v')) :
      Related S R (.load word next) (.load word next')
  | fetchOr {word : A} {mask : BitVec w} {next : BitVec w → Prog w A α} {next' : BitVec w → Prog w A β}
      (inside : ∀ b, mask.getLsbD b = true → S word b)
      (rest : ∀ v v', WordAgree (S word) v v' → Related S R (next v) (next' v')) :
      Related S R (.fetchOr word mask next) (.fetchOr word mask next')

/-- The program depends on and writes only bits of the footprint. -/
def Prog.Within (S : Footprint A) (p : Prog w A α) : Prop := Related S Eq p p

/-- Whatever it reads, it keeps to the footprint and its results meet `Q`. -/
def Prog.Confined (S : Footprint A) (Q : α → Prop) (p : Prog w A α) : Prop := Related S (fun a b => a = b ∧ Q a) p p

variable {S : Footprint A} {p : Prog w A α} {Q : α → Prop} {R : α → β → Prop} {q : Prog w A β}

@[simp]
theorem done_bind (a : α) (f : α → Prog w A β) : (Prog.done a >>= f) = f a := rfl

@[simp]
theorem pure_eq_done (a : α) : (pure a : Prog w A α) = .done a := rfl

theorem Related.mono {R' : α → β → Prop}
    (weaker : ∀ a b, R a b → R' a b) (related : Related S R p q) : Related S R' p q := by
  induction related with
  | done related => exact .done (weaker _ _ related)
  | load _ ih => exact .load ih
  | fetchOr inside _ ih => exact .fetchOr inside ih

theorem Related.bind {α' β' : Type} {R' : α' → β' → Prop} {f : α → Prog w A α'} {g : β → Prog w A β'}
    (related : Related S R p q) (rest : ∀ a b, R a b → Related S R' (f a) (g b)) : Related S R' (p >>= f) (q >>= g) := by
  induction related with
  | done related => exact rest _ _ related
  | load _ ih => exact .load ih
  | fetchOr inside _ ih => exact .fetchOr inside ih

theorem Prog.Confined.bind {R : β → Prop} {f : α → Prog w A β}
    (confined : p.Confined S Q) (rest : ∀ a, Q a → (f a).Confined S R) : (p >>= f).Confined S R := by
  refine Related.bind confined fun a b eq => ?_
  obtain ⟨rfl, holds⟩ := eq
  exact rest a holds

theorem Prog.Confined.within (confined : p.Confined S Q) : p.Within S :=
  Related.mono (fun _ _ eq => eq.1) confined

theorem confined_done {a : α} (holds : Q a) : (Prog.done a : Prog w A α).Confined S Q :=
  .done ⟨rfl, holds⟩

theorem Agree.symm {m m' : A → BitVec w} (agree : Agree S m m') : Agree S m' m := fun word b inS => (agree word b inS).symm

theorem Agree.trans {m m' m₂ : A → BitVec w} (first : Agree S m m') (second : Agree S m' m₂) : Agree S m m₂ :=
  fun word b inS => (first word b inS).trans (second word b inS)

section

variable [DecidableEq A] {m m' : A → BitVec w} {S T : Footprint A}

@[simp]
theorem run_done (a : α) : (Prog.done a : Prog w A α).run m = (a, m) := rfl

theorem run_bind (p : Prog w A α) (f : α → Prog w A β) : (p >>= f).run m = (f (p.run m).1).run (p.run m).2 := by
  induction p generalizing m with
  | done => rfl
  | load word _ ih => exact ih (m word)
  | fetchOr word _ _ ih => exact ih (m word)

theorem run_step {q : Prog w A α} (step : p.step m = some (q, m')) : q.run m' = p.run m := by
  cases p with
  | done => cases step
  | load => cases step; rfl
  | fetchOr => cases step; rfl

theorem agree_update (apart : Apart S T) {word : A} {mask : BitVec w} (inside : ∀ b, mask.getLsbD b = true → S word b) :
    Agree T (update m word (m word ||| mask)) m := by
  intro other b inT
  by_cases eq : other = word
  · subst eq
    have clear : mask.getLsbD b = false := by
      by_contra set
      exact apart other b (inside b (by simpa using set)) inT
    simp [clear]
  · rw [update_of_ne eq]

theorem agree_update_both (agree : Agree S m m') (word : A) (mask : BitVec w) :
    Agree S (update m word (m word ||| mask)) (update m' word (m' word ||| mask)) := by
  intro other b inS
  by_cases eq : other = word
  · subst eq
    simp [agree other b inS]
  · simpa only [update_of_ne eq] using agree other b inS

theorem within_step {q : Prog w A α} (within : p.Within S) (step : p.step m = some (q, m')) :
    q.Within S ∧ ∀ T, Apart S T → Agree T m' m := by
  cases within with
  | done => cases step
  | load rest =>
    cases step
    exact ⟨rest _ _ fun _ _ => rfl, fun T _ _ _ _ => rfl⟩
  | fetchOr inside rest =>
    cases step
    exact ⟨rest _ _ fun _ _ => rfl, fun T apart => agree_update apart inside⟩

theorem related_run (related : Related S R p q)
    (agree : Agree S m m') : R (p.run m).1 (q.run m').1 ∧ Agree S (p.run m).2 (q.run m').2 := by
  induction related generalizing m m' with
  | done related => exact ⟨related, agree⟩
  | load _ ih => exact ih _ _ (agree _) agree
  | @fetchOr word mask _ _ _ _ ih => exact ih _ _ (agree _) (agree_update_both agree word mask)

theorem within_run_frame (within : p.Within S) (apart : Apart S T) : Agree T (p.run m).2 m := by
  induction p generalizing m with
  | done => exact fun _ _ _ => rfl
  | load _ _ ih =>
    cases within with
    | load rest => exact ih _ (rest _ _ fun _ _ => rfl)
  | fetchOr _ _ _ ih =>
    cases within with
    | fetchOr inside rest => exact (ih _ (rest _ _ fun _ _ => rfl)).trans (agree_update apart inside)

@[simp]
theorem runAll_nil : runAll ([] : List (Prog w A α)) m = ([], m) := rfl

theorem runAll_cons (p : Prog w A α) (ps : List (Prog w A α)) :
    runAll (p :: ps) m = ((p.run m).1 :: (runAll ps (p.run m).2).1, (runAll ps (p.run m).2).2) := rfl

theorem runAll_append (ps qs : List (Prog w A α)) :
    runAll (ps ++ qs) m = ((runAll ps m).1 ++ (runAll qs (runAll ps m).2).1, (runAll qs (runAll ps m).2).2) := by
  induction ps generalizing m with
  | nil => rfl
  | cons _ _ ih => simp only [List.cons_append, runAll_cons, ih]

theorem runAll_length (ps : List (Prog w A α)) : (runAll ps m).1.length = ps.length := by
  induction ps generalizing m with
  | nil => rfl
  | cons _ _ ih => simp only [runAll_cons, List.length_cons, ih]

end

/-- A run without writes among the writes of others: each load sees some memory of `M`. -/
inductive Prog.Sees (M : (A → BitVec w) → Prop) : Prog w A α → α → Prop
  | done (a : α) : Sees M (.done a) a
  | load {word : A} {next : BitVec w → Prog w A α} {a : α} {m : A → BitVec w} (seen : M m) (rest : Sees M (next (m word)) a) :
      Sees M (.load word next) a

theorem Related.sees [DecidableEq A]
    {M : (A → BitVec w) → Prop} {m : A → BitVec w} {b : β} (related : Related S R p q) (agree : ∀ m', M m' → Agree S m m')
    (sees : q.Sees M b) : R (p.run m).1 b := by
  induction related with
  | done related =>
    cases sees
    exact related
  | load _ ih =>
    cases sees with
    | load seen rest => exact ih _ _ (agree _ seen _) rest
  | fetchOr => nomatch sees

/-- A bound on the accesses of the program, whatever it reads. -/
noncomputable def Prog.bound : Prog w A α → ℕ
  | .done _ => 0
  | .load _ next => Finset.univ.sup (fun v => (next v).bound) + 1
  | .fetchOr _ _ next => Finset.univ.sup (fun v => (next v).bound) + 1

theorem step_bound [DecidableEq A] {m m' : A → BitVec w} {q : Prog w A α} (step : p.step m = some (q, m')) :
    q.bound < p.bound := by
  cases p with
  | done => cases step
  | load _ next =>
    cases step
    exact Nat.lt_succ_of_le (Finset.le_sup (f := fun v => (next v).bound) (Finset.mem_univ _))
  | fetchOr _ _ next =>
    cases step
    exact Nat.lt_succ_of_le (Finset.le_sup (f := fun v => (next v).bound) (Finset.mem_univ _))

end SharedWords
