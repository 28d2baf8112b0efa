import Mathlib.Tactic.Common

namespace Refinement

variable {ε S T S' T' A : Type} {x : Except ε S} {y : Option T}

/-- A fallible computation does what its specification does: both fail, or both end in related states. -/
def Refines (R : S → T → Prop) : Except ε S → Option T → Prop
  | .ok s, some t => R s t
  | .error _, none => True
  | _, _ => False

variable {R : S → T → Prop} {R' : S' → T' → Prop}

theorem Refines.bind {f : S → Except ε S'} {g : T → Option T'} (run : Refines R x y)
    (next : ∀ s t, R s t → Refines R' (f s) (g t)) : Refines R' (x >>= f) (y >>= g) := by
  cases x with
  | error e =>
    cases y with
    | none => trivial
    | some t => exact run.elim
  | ok s =>
    cases y with
    | none => exact run.elim
    | some t => exact next s t run

theorem Refines.foldlM {f : S → A → Except ε S} {g : T → A → Option T} {l : List A}
    (step : ∀ s t, ∀ a ∈ l, R s t → Refines R (f s a) (g t a)) {s : S} {t : T} (start : R s t) :
    Refines R (l.foldlM f s) (l.foldlM g t) := by
  induction l generalizing s t with
  | nil => exact start
  | cons a l ih =>
    rw [List.foldlM_cons, List.foldlM_cons]
    apply (step s t a List.mem_cons_self start).bind
    intro s' t' related
    exact ih (fun s t b mem => step s t b (List.mem_cons_of_mem a mem)) related

theorem Refines.ok (run : Refines R x y) {s : S} (done : x = .ok s) : ∃ t, y = some t ∧ R s t := by
  subst done
  cases y with
  | none => exact run.elim
  | some t => exact ⟨t, rfl, run⟩

theorem Refines.rejected (run : Refines R x y) : (∃ e, x = .error e) ↔ y = none := by
  cases x with
  | error e =>
    cases y with
    | none => exact iff_of_true ⟨e, rfl⟩ rfl
    | some t => exact run.elim
  | ok s =>
    cases y with
    | none => exact run.elim
    | some t => simp

end Refinement
