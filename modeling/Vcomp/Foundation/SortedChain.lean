import Mathlib.Data.List.Pairwise
import Mathlib.Order.WithBot

/-! Nodes sorted by key and kept by links, from a head without a key to a null link. `Bound` puts the head below and the
null link above every key. -/

namespace SortedChain

open List Function

/-- A node, or the head before all of them. -/
inductive Place (ν : Type*) where
  | head
  | node (n : ν)
deriving DecidableEq

abbrev Bound (K : Type*) := WithBot (WithTop K)

variable {ν K : Type*}

def Bound.ofKey (k : K) : Bound K := ((k : WithTop K) : WithBot (WithTop K))

def lo (key : ν → K) : Place ν → Bound K
  | .head => ⊥
  | .node n => .ofKey (key n)

def hi (key : ν → K) : Option ν → Bound K
  | none => ((⊤ : WithTop K) : WithBot (WithTop K))
  | some n => .ofKey (key n)

def Chain (link : Place ν → Option ν) : Place ν → List ν → Prop
  | p, [] => link p = none
  | p, n :: ns => link p = some n ∧ Chain link (.node n) ns

def Spot (l : List ν) : Place ν → Prop
  | .head => True
  | .node n => n ∈ l

def Target (l : List ν) : Option ν → Prop
  | none => True
  | some n => n ∈ l

variable {key : ν → K} {link link' : Place ν → Option ν} {l : List ν} {p q : Place ν} {x n : ν} {v : Option ν} {k : K}

@[simp] theorem lo_node : lo key (.node n) = .ofKey (key n) := rfl
@[simp] theorem hi_some : hi key (some n) = .ofKey (key n) := rfl

variable [LinearOrder K] {front after : List ν}

@[simp] theorem ofKey_lt_ofKey {a b : K} : Bound.ofKey a < Bound.ofKey b ↔ a < b := by
  simp only [Bound.ofKey, WithBot.coe_lt_coe, WithTop.coe_lt_coe]

@[simp] theorem ofKey_le_ofKey {a b : K} : Bound.ofKey a ≤ Bound.ofKey b ↔ a ≤ b := by
  simp only [Bound.ofKey, WithBot.coe_le_coe, WithTop.coe_le_coe]

theorem bot_lt_ofKey (k : K) : (⊥ : Bound K) < .ofKey k := WithBot.bot_lt_coe _

theorem ofKey_lt_hi_none (k : K) : Bound.ofKey k < hi key none := by
  simp only [Bound.ofKey, hi, WithBot.coe_lt_coe]
  exact WithTop.coe_lt_top k

theorem le_hi_none (b : Bound K) : b ≤ hi key none := le_top

theorem Chain.congr (chain : Chain link p l) (here : link' p = link p) (eq : ∀ n ∈ l, link' (.node n) = link (.node n)) :
    Chain link' p l := by
  induction l generalizing p with
  | nil => exact here.trans chain
  | cons n l ih =>
    refine ⟨here.trans chain.1, ih chain.2 (eq n mem_cons_self) fun m mem => ?_⟩
    exact eq m (mem_cons_of_mem n mem)

/-- The nodes up to a place: none before the head, and a node after all others. -/
def UpTo (before : List ν) : Place ν → Prop
  | .head => before = []
  | .node n => ∃ front, before = front ++ [n]

theorem Chain.drop (chain : Chain link p (front ++ x :: after)) : Chain link (.node x) after := by
  induction front generalizing p with
  | nil => exact chain.2
  | cons m front ih => exact ih chain.2

theorem Chain.split (chain : Chain link .head l) (spot : Spot l q) :
    ∃ before after, l = before ++ after ∧ UpTo before q ∧ Chain link q after := by
  cases q with
  | head => exact ⟨[], l, rfl, rfl, chain⟩
  | node n =>
    obtain ⟨front, after, rfl⟩ := append_of_mem (show n ∈ l from spot)
    exact ⟨front ++ [n], after, by rw [append_assoc]; rfl, ⟨front, rfl⟩, chain.drop⟩

theorem Chain.relink [DecidableEq ν] {m : ν} {rest : List ν} (chain : Chain link p (front ++ m :: after))
    (apart : p ≠ .node m) (others : ∀ n ∈ front, n ≠ m) (tail : Chain (update link (.node m) v) (.node m) rest) :
    Chain (update link (.node m) v) p (front ++ m :: rest) := by
  induction front generalizing p with
  | nil => exact ⟨(update_of_ne apart _ _).trans chain.1, tail⟩
  | cons n front ih =>
    refine ⟨(update_of_ne apart _ _).trans chain.1, ih chain.2 ?_ fun a mem => ?_⟩
    · exact fun eq => others n mem_cons_self (Place.node.inj eq)
    · exact others a (mem_cons_of_mem n mem)

theorem Chain.link_eq_head? (chain : Chain link q l) : link q = l.head? := by
  cases l with
  | nil => exact chain
  | cons n l => exact chain.1

def Sorted (key : ν → K) (l : List ν) : Prop := l.Pairwise fun m n => key m < key n

theorem Sorted.eq_of_key (sorted : Sorted key l) {m : ν} (hm : m ∈ l) (hn : n ∈ l) (eq : key m = key n) : m = n := by
  by_contra other
  have apart : l.Pairwise fun a b => key a ≠ key b := sorted.imp fun lt => lt.ne
  have symmetric : Std.Symm fun a b : ν => key a ≠ key b := ⟨fun _ _ ne => ne.symm⟩
  exact apart.forall hm hn other eq

theorem sorted_around {before : List ν} (sorted : Sorted key (before ++ after)) (upTo : UpTo before q) :
    (∀ m ∈ before, .ofKey (key m) ≤ lo key q) ∧ ∀ m ∈ after, lo key q < .ofKey (key m) := by
  cases q with
  | head =>
    obtain rfl : before = [] := upTo
    exact ⟨nofun, fun m _ => bot_lt_ofKey (key m)⟩
  | node n =>
    obtain ⟨front, rfl⟩ := upTo
    obtain ⟨own, -, across⟩ := pairwise_append.mp sorted
    constructor
    · intro m mem
      rw [lo_node, ofKey_le_ofKey]
      rcases mem_append.mp mem with mem | mem
      · exact ((pairwise_append.mp own).2.2 m mem n mem_cons_self).le
      · rw [mem_singleton.mp mem]
    · intro m mem
      rw [lo_node, ofKey_lt_ofKey]
      exact across n (mem_append_right front mem_cons_self) m mem

structure Successor (key : ν → K) (l : List ν) (q : Place ν) (v : Option ν) : Prop where
  target : Target l v
  above : lo key q < hi key v
  first : ∀ n ∈ l, lo key q < .ofKey (key n) → hi key v ≤ .ofKey (key n)

theorem Chain.successor (chain : Chain link .head l) (sorted : Sorted key l) (spot : Spot l q) :
    Successor key l q (link q) := by
  obtain ⟨before, after, rfl, upTo, rest⟩ := chain.split spot
  obtain ⟨lower, upper⟩ := sorted_around sorted upTo
  have leads := rest.link_eq_head?
  cases after with
  | nil =>
    rw [leads]
    refine ⟨trivial, ?_, fun n mem above => ?_⟩
    · cases q with
      | head => exact WithBot.bot_lt_coe _
      | node n => exact ofKey_lt_hi_none (key n)
    · rw [append_nil] at mem
      exact absurd above (lower n mem).not_gt
  | cons m after =>
    rw [leads]
    refine ⟨mem_append_right before mem_cons_self, upper m mem_cons_self, fun n mem above => ?_⟩
    rcases mem_append.mp mem with mem | mem
    · exact absurd above (lower n mem).not_gt
    · rw [head?_cons, hi_some, ofKey_le_ofKey]
      rcases mem_cons.mp mem with rfl | later
      · exact le_rfl
      · have after := (pairwise_append.mp sorted).2.1
        exact ((pairwise_cons.mp after).1 n later).le

theorem Chain.insert [DecidableEq ν] (chain : Chain link .head l) (sorted : Sorted key l) (spot : Spot l q) (out : x ∉ l)
    (own : link (.node x) = link q) (lt : lo key q < .ofKey (key x)) (above : .ofKey (key x) < hi key (link q)) :
    ∃ l', Chain (update link q (some x)) .head l' ∧ Sorted key l' ∧ ∀ n, n ∈ l' ↔ n = x ∨ n ∈ l := by
  obtain ⟨before, after, rfl, upTo, rest⟩ := chain.split spot
  obtain ⟨lower, upper⟩ := sorted_around sorted upTo
  have leads := rest.link_eq_head?
  have other : Place.node x ≠ q := by
    rintro rfl
    exact out spot
  have afterOther : ∀ n ∈ after, Place.node n ≠ q := by
    rintro n mem rfl
    exact (upper n mem).false
  have tail : Chain (update link q (some x)) (.node x) after := by
    cases after with
    | nil => rw [Chain, update_of_ne other, own, leads]; rfl
    | cons m after =>
      refine ⟨by rw [update_of_ne other, own, leads]; rfl, ?_⟩
      apply rest.2.congr (update_of_ne (afterOther m mem_cons_self) _ _)
      intro n mem
      exact update_of_ne (afterOther n (mem_cons_of_mem m mem)) _ _
  refine ⟨before ++ x :: after, ?_, ?_, fun n => ?_⟩
  · cases q with
    | head =>
      obtain rfl : before = [] := upTo
      exact ⟨update_self _ _ _, tail⟩
    | node m =>
      obtain ⟨front, rfl⟩ := upTo
      rw [append_assoc] at chain sorted ⊢
      have onward : Chain (update link (.node m) (some x)) (.node m) (x :: after) :=
        ⟨update_self _ _ _, tail⟩
      apply chain.relink nofun _ onward
      rintro n mem rfl
      exact ((pairwise_append.mp sorted).2.2 n mem n mem_cons_self).false
  · obtain ⟨sortedBefore, sortedAfter, across⟩ := pairwise_append.mp sorted
    have belowAll : ∀ m ∈ before, key m < key x := by
      intro m mem
      exact ofKey_lt_ofKey.mp ((lower m mem).trans_lt lt)
    have aboveAll : ∀ m ∈ after, key x < key m := by
      intro m mem
      cases after with
      | nil => cases mem
      | cons first after =>
        rw [leads, head?_cons, hi_some, ofKey_lt_ofKey] at above
        rcases mem_cons.mp mem with rfl | later
        · exact above
        · exact above.trans ((pairwise_cons.mp sortedAfter).1 m later)
    refine pairwise_append.mpr ⟨sortedBefore, pairwise_cons.mpr ⟨aboveAll, sortedAfter⟩, ?_⟩
    intro m inBefore n mem
    rcases mem_cons.mp mem with rfl | later
    · exact belowAll m inBefore
    · exact across m inBefore n later
  · simp only [mem_append, mem_cons]
    exact or_left_comm

theorem Sorted.sublist {l' : List ν} (sorted : Sorted key l) (sorted' : Sorted key l') (sub : ∀ n ∈ l', n ∈ l) :
    l'.Sublist l := by
  induction l generalizing l' with
  | nil =>
    cases l' with
    | nil => exact List.Sublist.refl _
    | cons n l' => exact absurd (sub n mem_cons_self) not_mem_nil
  | cons m l ih =>
    obtain ⟨first, rest⟩ := pairwise_cons.mp sorted
    cases l' with
    | nil => exact nil_sublist _
    | cons n l' =>
      obtain ⟨first', rest'⟩ := pairwise_cons.mp sorted'
      have later : ∀ a ∈ l', a ≠ m → a ∈ l := fun a mem ne =>
        (mem_cons.mp (sub a (mem_cons_of_mem n mem))).resolve_left ne
      by_cases eq : n = m
      · subst eq
        apply List.Sublist.cons_cons
        apply ih rest rest'
        intro a mem
        exact later a mem (by rintro rfl; exact (first' a mem).false)
      · have inL : n ∈ l := (mem_cons.mp (sub n mem_cons_self)).resolve_left eq
        apply List.Sublist.cons
        apply ih rest sorted'
        intro a mem
        rcases mem_cons.mp mem with rfl | mem
        · exact inL
        · apply later a mem
          rintro rfl
          exact ((first n inL).trans (first' a mem)).false

end SortedChain
