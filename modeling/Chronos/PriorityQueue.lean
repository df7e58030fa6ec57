import Mathlib.Data.List.MinMax
import Mathlib.Data.Multiset.AddSub

namespace Chronos

-- A container that hands out its entries one by one. All that is known of it is
-- what it holds, and that nothing it holds comes before its top.
structure PriorityQueue (α : Type) (Before : α → α → Prop) where
  State : Type
  empty : State
  push : State → α → State
  top : State → Option α
  pop : State → State
  contents : State → Multiset α
  contents_empty : contents empty = 0
  contents_push : ∀ s x, contents (push s x) = x ::ₘ contents s
  top_none : ∀ s, top s = none → contents s = 0
  top_some : ∀ s x, top s = some x → contents s = x ::ₘ contents (pop s)
  top_first : ∀ s x, top s = some x → ∀ y ∈ contents s, ¬ Before y x

namespace PriorityQueue
variable {α : Type} {Before : α → α → Prop}

section Any
variable (q : PriorityQueue α Before)

def fill (xs : List α) : q.State := xs.foldl q.push q.empty

def drain : Nat → q.State → List α
  | 0,_ => []
  | n+1,s => match q.top s with
    | some x => x::drain n (q.pop s)
    | none => []

def pops (xs : List α) : List α := q.drain xs.length (q.fill xs)

theorem fill_concat (xs : List α) (x : α) : q.fill (xs++[x]) = q.push (q.fill xs) x := by simp [fill]

theorem contents_fill (xs : List α) : q.contents (q.fill xs) = xs := by
  induction xs using List.reverseRecOn with
  | nil => exact q.contents_empty
  | append_singleton xs x ih =>
    rw [q.fill_concat,q.contents_push,ih,Multiset.cons_coe]
    exact Multiset.coe_eq_coe.mpr (List.perm_append_singleton x xs).symm

theorem drain_contents {n : Nat} {s : q.State} (all : (q.contents s).card = n) : (q.drain n s : Multiset α) = q.contents s := by
  induction n generalizing s with
  | zero => exact (Multiset.card_eq_zero.mp all).symm
  | succ n ih =>
    cases found : q.top s with
    | none => simp [q.top_none s found] at all
    | some x =>
      have held := q.top_some s x found
      have rest : (q.contents (q.pop s)).card = n := by
        rw [held,Multiset.card_cons] at all
        omega
      rw [drain,found,held,← ih rest,Multiset.cons_coe]

theorem mem_drain {n : Nat} {s : q.State} (all : (q.contents s).card = n) (held : x ∈ q.contents s) : x ∈ q.drain n s := by
  rw [← Multiset.mem_coe,q.drain_contents all]
  exact held

theorem drain_ordered (n : Nat) (s : q.State) : (q.drain n s).Pairwise (fun x y => ¬ Before y x) ∧ ∀ x ∈ q.drain n s, x ∈ q.contents s := by
  induction n generalizing s with
  | zero => simp [drain]
  | succ n ih =>
    cases found : q.top s with
    | none => simp [drain,found]
    | some x =>
      obtain ⟨ordered,held⟩ := ih (q.pop s)
      have later : ∀ y ∈ q.drain n (q.pop s), y ∈ q.contents s := by
        intro y member
        rw [q.top_some s x found]
        exact Multiset.mem_cons_of_mem (held y member)
      simp only [drain,found,List.pairwise_cons,List.mem_cons,forall_eq_or_imp]
      refine ⟨⟨fun y member => q.top_first s x found y (later y member),ordered⟩,?_,later⟩
      rw [q.top_some s x found]
      exact Multiset.mem_cons_self x _

theorem pops_perm (xs : List α) : (q.pops xs).Perm xs := by
  have all : (q.contents (q.fill xs)).card = xs.length := by rw [contents_fill,Multiset.coe_card]
  exact Multiset.coe_eq_coe.mp ((q.drain_contents all).trans (q.contents_fill xs))

theorem pops_ordered (xs : List α) : (q.pops xs).Pairwise (fun x y => ¬ Before y x) := (q.drain_ordered _ _).1

-- Where any two entries can be told apart, the order of the pops depends neither
-- on the order of the pushes nor on the queue.
theorem pops_unique {xs as bs : List α} (r : PriorityQueue α Before)
    (told : ∀ x ∈ xs, ∀ y ∈ xs, ¬ Before x y → ¬ Before y x → x = y) (one : as.Perm xs) (two : bs.Perm xs) :
    q.pops as = r.pops bs := by
  have first := (q.pops_perm as).trans one
  have second := (r.pops_perm bs).trans two
  refine List.Perm.eq_of_pairwise ?_ (q.pops_ordered as) (r.pops_ordered bs) (first.trans second.symm)
  intro x y left right forward backward
  exact told x (first.subset left) y (second.subset right) backward forward

end Any

section First
variable [DecidableEq α] [LinearOrder β] (key : α → β)

def first (agrees : ∀ x y, Before x y ↔ key x < key y) : PriorityQueue α Before where
  State := List α
  empty := []
  push l x := l++[x]
  top l := l.argmin key
  pop l := (l.argmin key).elim l l.erase
  contents l := l
  contents_empty := rfl
  contents_push l x := Multiset.coe_eq_coe.mpr (List.perm_append_singleton x l)
  top_none l none := by rw [List.argmin_eq_none.mp none]; rfl
  top_some l x found := by
    rw [found]
    exact Multiset.coe_eq_coe.mpr (List.perm_cons_erase (List.argmin_mem found))
  top_first l x found y member before := List.not_lt_of_mem_argmin member found ((agrees y x).mp before)

variable {agrees : ∀ x y, Before x y ↔ key x < key y} {x y : α}

theorem first_drain (same : key x = key y) (apart : x ≠ y) {n : Nat} {rest : List α} (all : n = rest.length+2) :
    List.Sublist [x,y] ((first key agrees).drain n (x::y::rest)) := by
  induction n generalizing rest with
  | zero => omega
  | succ n ih =>
    have some : ∃ m, (x::y::rest).argmin key = some m := by
      cases least : (x::y::rest).argmin key with
      | none => simp at least
      | some m => exact ⟨m,rfl⟩
    obtain ⟨m,least⟩ := some
    have step : (first key agrees).drain (n+1) (x::y::rest) = m::(first key agrees).drain n ((x::y::rest).erase m) := by
      simp only [drain,first,least,Option.elim_some]
    obtain ⟨member,below,early⟩ := List.argmin_eq_some_iff.mp least
    rw [step]
    by_cases head : m = x
    · subst head
      rw [List.erase_cons_head]
      have size : ((y::rest : List α) : Multiset α).card = n := by
        rw [Multiset.coe_card,List.length_cons]
        omega
      have left : y ∈ (first key agrees).drain n (y::rest) :=
        mem_drain _ size (Multiset.mem_coe.mpr List.mem_cons_self)
      exact (List.singleton_sublist.mpr left).cons_cons m
    · have second : m ≠ y := by
        rintro rfl
        have early := early x List.mem_cons_self same.le
        rw [List.idxOf_cons_self,Nat.le_zero,List.idxOf_cons_ne _ (Ne.symm head)] at early
        omega
      have inside : m ∈ rest := by
        rcases List.mem_cons.mp member with first | later
        · exact absurd first head
        · exact (List.mem_cons.mp later).resolve_left second
      rw [List.erase_cons_tail (by simpa using Ne.symm head),List.erase_cons_tail (by simpa using Ne.symm second)]
      have size : n = (rest.erase m).length+2 := by
        have := List.length_erase_of_mem inside
        have := List.length_pos_of_mem inside
        omega
      exact (ih size).cons m

theorem first_pops (same : key x = key y) (apart : x ≠ y) (rest : List α) :
    List.Sublist [x,y] ((first key agrees).pops (x::y::rest)) := by
  have filled : ∀ xs : List α, (first key agrees).fill xs = xs := by
    intro xs
    induction xs using List.reverseRecOn with
    | nil => rfl
    | append_singleton xs x ih =>
      rw [fill_concat,ih]
      rfl
  rw [pops,filled]
  exact first_drain key same apart rfl

end First
end PriorityQueue
end Chronos
