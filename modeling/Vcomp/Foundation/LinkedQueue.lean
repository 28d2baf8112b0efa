import Mathlib.Data.List.Nodup
import Mathlib.Logic.Relation

/-! A queue of linked nodes: each points at its predecessor, and back links are filled in lazily from the oldest on.
Lists are oldest first. -/

namespace LinkedQueue

open List Function

variable {ι : Type*} {older newer : ι → Option ι} {below above : Option ι} {x y a : ι} {v : Option ι} {xs ys : List ι}
  {newer' : ι → Option ι}

def top (below : Option ι) : List ι → Option ι
  | [] => below
  | x :: xs => top (some x) xs

def bottom (above : Option ι) : List ι → Option ι
  | [] => above
  | x :: _ => some x

def Down (older : ι → Option ι) : Option ι → List ι → Prop
  | _, [] => True
  | below, x :: xs => older x = below ∧ Down older (some x) xs

def Up (newer : ι → Option ι) (above : Option ι) : List ι → Prop
  | [] => True
  | x :: xs => newer x = bottom above xs ∧ Up newer above xs

/-- The back links are there for the older nodes and still missing for the others. -/
def Partly (newer : ι → Option ι) (above : Option ι) (xs : List ι) : Prop :=
  ∃ lo hi, xs = lo ++ hi ∧ Up newer (bottom above hi) lo ∧ ∀ x ∈ hi, newer x = none

def Reaches (older : ι → Option ι) : ι → ι → Prop := Relation.ReflTransGen fun x y => older x = some y

@[simp] theorem top_nil : top below [] = below := rfl
@[simp] theorem top_cons : top below (x :: xs) = top (some x) xs := rfl
@[simp] theorem bottom_cons : bottom above (x :: xs) = some x := rfl
@[simp] theorem down_cons : Down older below (x :: xs) ↔ older x = below ∧ Down older (some x) xs := Iff.rfl
@[simp] theorem up_cons : Up newer above (x :: xs) ↔ newer x = bottom above xs ∧ Up newer above xs := Iff.rfl

@[simp] theorem top_append : top below (xs ++ ys) = top (top below xs) ys := by
  induction xs generalizing below with
  | nil => rfl
  | cons x xs ih => exact ih

theorem top_snoc : top below (xs ++ [x]) = some x := by
  rw [top_append, top_cons, top_nil]

@[simp] theorem bottom_append : bottom above (xs ++ ys) = bottom (bottom above ys) xs := by
  cases xs <;> rfl

theorem bottom_of_ne_nil (ne : xs ≠ []) : bottom above xs = bottom none xs := by
  cases xs with
  | nil => exact absurd rfl ne
  | cons x xs => rfl

theorem top_mem (is : top below xs = some x) : below = some x ∨ x ∈ xs := by
  induction xs generalizing below with
  | nil => exact .inl is
  | cons y xs ih =>
    rcases ih is with eq | mem
    · exact .inr (Option.some.inj eq ▸ mem_cons_self)
    · exact .inr (mem_cons_of_mem y mem)

theorem mem_of_top (is : top none xs = some x) : x ∈ xs := by
  rcases top_mem is with impossible | mem
  · cases impossible
  · exact mem

theorem top_some_ne_none : top (some x) xs ≠ none := by
  induction xs generalizing x with
  | nil => nofun
  | cons y xs ih => exact ih

theorem nil_of_top (is : top below xs = some x) (outside : x ∉ xs) : xs = [] := by
  cases xs with
  | nil => rfl
  | cons y xs =>
    rcases (top_mem is : some y = some x ∨ _) with eq | mem
    · exact absurd (Option.some.inj eq ▸ mem_cons_self) outside
    · exact absurd (mem_cons_of_mem y mem) outside

theorem exists_snoc_of_top (is : top none xs = some x) : ∃ front, xs = front ++ [x] := by
  rcases xs.eq_nil_or_concat with rfl | ⟨front, last, rfl⟩
  · cases is
  · rw [concat_eq_append, top_snoc] at is
    obtain rfl := Option.some.inj is
    exact ⟨front, concat_eq_append⟩

theorem down_append : Down older below (xs ++ ys) ↔ Down older below xs ∧ Down older (top below xs) ys := by
  induction xs generalizing below with
  | nil => exact ⟨fun rest => ⟨trivial, rest⟩, And.right⟩
  | cons x xs ih => rw [cons_append, down_cons, down_cons, ih, and_assoc, top_cons]

theorem up_append : Up newer above (xs ++ ys) ↔ Up newer (bottom above ys) xs ∧ Up newer above ys := by
  induction xs with
  | nil => exact ⟨fun rest => ⟨trivial, rest⟩, And.right⟩
  | cons x xs ih => rw [cons_append, up_cons, up_cons, ih, bottom_append, and_assoc]

theorem Up.newer_top (up : Up newer above xs) (is : top none xs = some x) : newer x = above := by
  obtain ⟨front, rfl⟩ := exists_snoc_of_top is
  exact (up_append.mp up).2.1

section

theorem Down.congr {older' : ι → Option ι} (down : Down older below xs) (eq : ∀ x ∈ xs, older' x = older x) :
    Down older' below xs := by
  induction xs generalizing below with
  | nil => trivial
  | cons x xs ih =>
    exact ⟨(eq x mem_cons_self).trans down.1, ih down.2 fun y mem => eq y (mem_cons_of_mem x mem)⟩

theorem Up.congr (up : Up newer above xs) (eq : ∀ x ∈ xs, newer' x = newer x) : Up newer' above xs := by
  induction xs with
  | nil => trivial
  | cons x xs ih =>
    exact ⟨(eq x mem_cons_self).trans up.1, ih up.2 fun y mem => eq y (mem_cons_of_mem x mem)⟩

variable [DecidableEq ι]

theorem update_outside (link : ι → Option ι) (v : Option ι) (outside : a ∉ xs) :
    ∀ x ∈ xs, update link a v x = link x := by
  intro x mem
  apply update_of_ne
  rintro rfl
  exact outside mem

theorem Down.update (down : Down older below xs) (outside : a ∉ xs) : Down (update older a v) below xs :=
  down.congr (update_outside older v outside)

theorem Up.update (up : Up newer above xs) (outside : a ∉ xs) : Up (update newer a v) above xs :=
  up.congr (update_outside newer v outside)

theorem Up.retarget (up : Up newer above (xs ++ [x])) (outside : x ∉ xs) : Up (Function.update newer x v) v (xs ++ [x]) := by
  rw [up_append] at up ⊢
  exact ⟨up.1.update outside, Function.update_self x v newer, trivial⟩

theorem Down.retarget (down : Down older below (x :: xs)) (outside : x ∉ xs) : Down (Function.update older x v) v (x :: xs) :=
  ⟨Function.update_self x v older, down.2.update outside⟩

end

theorem Up.partly (up : Up newer above xs) : Partly newer above xs :=
  ⟨xs, [], (append_nil xs).symm, up, nofun⟩

theorem Partly.congr (partly : Partly newer above xs) (eq : ∀ x ∈ xs, newer' x = newer x) : Partly newer' above xs := by
  obtain ⟨lo, hi, rfl, up, missing⟩ := partly
  refine ⟨lo, hi, rfl, up.congr fun x mem => eq x (mem_append_left hi mem), fun x mem => ?_⟩
  rw [eq x (mem_append_right lo mem)]
  exact missing x mem

theorem Partly.update [DecidableEq ι] (partly : Partly newer above xs) (outside : a ∉ xs) :
    Partly (update newer a v) above xs :=
  partly.congr (update_outside newer v outside)

theorem Partly.raise (partly : Partly newer none xs) : Partly newer above xs := by
  obtain ⟨lo, hi, rfl, up, missing⟩ := partly
  cases hi with
  | cons y hi => exact ⟨lo, y :: hi, rfl, up, missing⟩
  | nil =>
    rcases lo.eq_nil_or_concat with rfl | ⟨front, last, rfl⟩
    · exact ⟨[], [], rfl, trivial, nofun⟩
    · rw [concat_eq_append] at up ⊢
      obtain ⟨up, unset, _⟩ := up_append.mp up
      refine ⟨front, [last], append_nil _, up, fun x mem => ?_⟩
      obtain rfl := mem_singleton.mp mem
      exact unset

theorem Partly.snoc (partly : Partly newer (some x) xs) (missing : newer x = none) : Partly newer none (xs ++ [x]) := by
  obtain ⟨lo, hi, rfl, up, unset⟩ := partly
  refine ⟨lo, hi ++ [x], append_assoc lo hi [x], ?_, fun y mem => ?_⟩
  · rwa [bottom_append, bottom_cons]
  · rcases mem_append.mp mem with mem | mem
    · exact unset y mem
    · rwa [mem_singleton.mp mem]

theorem Partly.append (partly : Partly newer none xs) (missing : ∀ y ∈ ys, newer y = none) :
    Partly newer none (xs ++ ys) := by
  induction ys generalizing xs with
  | nil => rwa [append_nil]
  | cons y ys ih =>
    have longer := partly.raise.snoc (missing y mem_cons_self)
    have all := ih longer fun z mem => missing z (mem_cons_of_mem y mem)
    rwa [append_assoc] at all

theorem Partly.last (partly : Partly newer above (xs ++ [x])) :
    Up newer above (xs ++ [x]) ∨ Partly newer (some x) xs ∧ newer x = none := by
  obtain ⟨lo, hi, split, up, unset⟩ := partly
  rcases hi.eq_nil_or_concat with rfl | ⟨front, last, rfl⟩
  · rw [append_nil] at split
    rw [split]
    exact .inl up
  · rw [concat_eq_append] at split up unset
    rw [← append_assoc] at split
    obtain ⟨rfl, eq⟩ := append_inj' split rfl
    obtain rfl := head_eq_of_cons_eq eq
    rw [bottom_append, bottom_cons] at up
    exact .inr ⟨⟨lo, front, rfl, up, fun y mem => unset y (mem_append_left _ mem)⟩,
      unset x (mem_append_right front mem_cons_self)⟩

theorem Partly.init (partly : Partly newer none (xs ++ [x])) : Partly newer (some x) xs ∧ newer x = none := by
  rcases partly.last with up | init
  · obtain ⟨up, missing, _⟩ := up_append.mp up
    exact ⟨up.partly, missing⟩
  · exact init

theorem Partly.drop (partly : Partly newer above (xs ++ ys)) : Partly newer above ys := by
  obtain ⟨lo, hi, split, up, unset⟩ := partly
  rcases append_eq_append_iff.mp split with ⟨mid, rfl, rfl⟩ | ⟨mid, rfl, rfl⟩
  · exact ⟨mid, hi, rfl, (up_append.mp up).2, unset⟩
  · exact ⟨[], ys, rfl, trivial, fun y mem => unset y (mem_append_right mid mem)⟩

theorem Partly.up_of_set (partly : Partly newer (some y) (xs ++ [x])) (set : newer x ≠ none) :
    Up newer (some y) (xs ++ [x]) :=
  partly.last.resolve_right fun init => set init.2

theorem Partly.init_of_unset (partly : Partly newer (some y) (xs ++ [x])) (missing : newer x = none) :
    Partly newer (some x) xs := by
  rcases partly.last with up | init
  · have set := (up_append.mp up).2.1
    rw [missing] at set
    cases set
  · exact init.1

theorem Down.reaches_base (down : Down older (some a) xs) (mem : x ∈ xs) : Reaches older x a := by
  induction xs generalizing a with
  | nil => cases mem
  | cons y xs ih =>
    rcases mem_cons.mp mem with rfl | mem
    · exact .single down.1
    · exact (ih down.2 mem).tail down.1

theorem Down.reaches (down : Down older below xs) (is : top below xs = some a) (mem : x ∈ xs) : Reaches older a x := by
  induction xs generalizing below with
  | nil => cases mem
  | cons y xs ih =>
    rcases mem_cons.mp mem with rfl | mem
    · rcases (top_mem is : some x = some a ∨ _) with eq | inside
      · obtain rfl := Option.some.inj eq
        exact .refl
      · exact down.2.reaches_base inside
    · exact ih down.2 is mem

theorem Down.reaches_first (down : Down older below (a :: xs)) (mem : x ∈ a :: xs) : Reaches older x a := by
  rcases mem_cons.mp mem with rfl | mem
  · exact .refl
  · exact down.2.reaches_base mem

end LinkedQueue
