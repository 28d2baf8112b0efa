import Mathlib.Data.List.Nodup

namespace Placement

variable {ι α : Type*} {place place' : ι → α → Prop}

def Exclusive (place : ι → α → Prop) : Prop := ∀ i j a, place i a → place j a → i = j

variable (exclusive : Exclusive place)
include exclusive

theorem Exclusive.mono (sub : ∀ i a, place' i a → place i a) : Exclusive place' :=
  fun i j a inI inJ => exclusive i j a (sub i a inI) (sub j a inJ)

theorem Exclusive.add (k : ι) (items : List α) (split : ∀ i a, place' i a → place i a ∨ i = k ∧ a ∈ items)
    (only : ∀ i, ∀ a ∈ items, place' i a → i = k) : Exclusive place' := by
  intro i j a inI inJ
  by_cases moved : a ∈ items
  · rw [only i a moved inI, only j a moved inJ]
  · have old : ∀ l, place' l a → place l a := fun l inL => (split l a inL).resolve_right fun new => moved new.2
    exact exclusive i j a (old i inI) (old j inJ)

theorem Exclusive.move (source target : ι) (items : List α) (starts : ∀ a ∈ items, place source a)
    (split : ∀ i a, place' i a → (place i a ∧ (i = source → a ∉ items)) ∨ i = target ∧ a ∈ items) :
    Exclusive place' := by
  refine exclusive.add target items (fun i a inI => (split i a inI).imp_left And.left) ?_
  intro i a moved inI
  rcases split i a inI with ⟨old, stays⟩ | new
  · exact absurd moved (stays (exclusive i source a old (starts a moved)))
  · exact new.1

end Placement
