import Mathlib.Algebra.BigOperators.Fin
import Mathlib.Tactic.Abel

namespace Transition

open Function

section

variable {σ ε : Type*} {init : σ → Prop} {step : σ → ε → σ → Prop} {allowed allowed' : σ → ε → Prop}

/-- States reached from an initial state by steps that `allowed` admits. -/
inductive Reachable (init : σ → Prop) (step : σ → ε → σ → Prop) (allowed : σ → ε → Prop) : σ → Prop where
  | start {s : σ} (initial : init s) : Reachable init step allowed s
  | next {s s' : σ} {e : ε} (reach : Reachable init step allowed s) (permitted : allowed s e)
      (taken : step s e s') : Reachable init step allowed s'

theorem Reachable.invariant {Inv : σ → Prop} {s : σ} (reach : Reachable init step allowed s)
    (base : ∀ s, init s → Inv s)
    (ind : ∀ s e s', Reachable init step allowed s → Inv s → allowed s e → step s e s' → Inv s') : Inv s := by
  induction reach with
  | start initial => exact base _ initial
  | next reach permitted taken ih => exact ind _ _ _ reach ih permitted taken

def checkedRun (step : σ → ε → Option σ) (allowed : σ → ε → Prop) [∀ s e, Decidable (allowed s e)] (s : σ) (events : List ε) :
    Option σ :=
  events.foldlM (fun s e => if allowed s e then step s e else none) s

theorem Reachable.checkedRun {step : σ → ε → Option σ} [∀ s e, Decidable (allowed s e)] {s s' : σ} {events : List ε}
    (reach : Reachable init (fun s e s' => step s e = some s') allowed s)
    (run : Transition.checkedRun step allowed s events = some s') :
    Reachable init (fun s e s' => step s e = some s') allowed s' := by
  induction events generalizing s with
  | nil =>
    obtain rfl := Option.some.inj run
    exact reach
  | cons e events ih =>
    rw [Transition.checkedRun, List.foldlM_cons] at run
    obtain ⟨next, taken, rest⟩ := Option.bind_eq_some_iff.mp run
    split at taken
    next permitted => exact ih (.next reach permitted taken) rest
    · cases taken

end

section

variable {σ : Type*} {step : σ → σ → Prop} (measure : σ → ℕ)

variable (falls : ∀ s s', step s s' → measure s' < measure s)
include falls

theorem no_endless_run (run : ℕ → σ) : ∃ i, ¬ step (run i) (run (i + 1)) := by
  by_contra endless
  push Not at endless
  have lowered : ∀ i, measure (run i) + i ≤ measure (run 0) := by
    intro i
    induction i with
    | zero => exact le_rfl
    | succ i ih =>
      have lt := falls _ _ (endless i)
      omega
  have past := lowered (measure (run 0) + 1)
  omega

theorem exists_final {final : σ → Prop} (progress : ∀ s, ¬ final s → ∃ s', step s s') (s : σ) :
    ∃ t, Relation.ReflTransGen step s t ∧ final t := by
  generalize bound : measure s = n
  induction n using Nat.strong_induction_on generalizing s with
  | _ n ih =>
    by_cases done : final s
    · exact ⟨s, .refl, done⟩
    · obtain ⟨s', taken⟩ := progress s done
      obtain ⟨t, reach, done⟩ := ih _ (bound ▸ falls s s' taken) s' rfl
      exact ⟨t, .head taken reach, done⟩

end

variable {ι α : Type*} [Fintype ι] [DecidableEq ι]

theorem sum_update {M : Type*} [AddCommMonoid M] (weight : α → M) (locals : ι → α) (t : ι) (a : α) :
    ∑ u, weight (update locals t a u) + weight (locals t) = ∑ u, weight (locals u) + weight a := by
  have rest : ∑ u ∈ Finset.univ.erase t, weight (update locals t a u) =
      ∑ u ∈ Finset.univ.erase t, weight (locals u) := by
    refine Finset.sum_congr rfl fun u mem => ?_
    rw [update_of_ne (Finset.ne_of_mem_erase mem)]
  rw [← Finset.add_sum_erase Finset.univ (fun u => weight (update locals t a u)) (Finset.mem_univ t),
    ← Finset.add_sum_erase Finset.univ (fun u => weight (locals u)) (Finset.mem_univ t), rest, update_self]
  abel

end Transition
