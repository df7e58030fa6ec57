import Mathlib.Data.List.Basic

namespace Chronos.Lifecycle

inductive Move (C : Type) where
  | up (c : C)
  | down (c : C)
  deriving DecidableEq

variable {C : Type} [DecidableEq C] {needs : C → List C} {up : List C}

-- A component comes up once what it uses is up, and goes down once nothing uses it.
def move (needs : C → List C) (up : List C) : Move C → Option (List C)
  | .up c => if c ∉ up ∧ ∀ d ∈ needs c, d ∈ up then some (c::up) else none
  | .down c => if c ∈ up ∧ ∀ d ∈ up, c ∉ needs d then some (up.filter (· ≠ c)) else none

def walk (needs : C → List C) : List C → List (Move C) → Option (List C)
  | up,[] => some up
  | up,m::ms => (move needs up m).bind fun up => walk needs up ms

def Closed (needs : C → List C) (up : List C) : Prop := ∀ c ∈ up, ∀ d ∈ needs c, d ∈ up

theorem walk_append (ms ms' : List (Move C)) : walk needs up (ms++ms') = (walk needs up ms).bind fun up => walk needs up ms' := by
  induction ms generalizing up with
  | nil => rfl
  | cons m ms ih =>
    rw [List.cons_append,walk,walk,Option.bind_assoc]
    exact congrArg _ (funext fun _ => ih)

theorem move_closed {up' : List C} {m : Move C} (closed : Closed needs up) (moved : move needs up m = some up') : Closed needs up' := by
  cases m with
  | up c =>
    obtain ⟨⟨_,used⟩,same⟩ := Option.ite_none_right_eq_some.mp moved
    cases same
    intro d member e uses
    rcases List.mem_cons.mp member with rfl | old
    · exact List.mem_cons_of_mem _ (used e uses)
    · exact List.mem_cons_of_mem _ (closed d old e uses)
  | down c =>
    obtain ⟨⟨_,unused⟩,same⟩ := Option.ite_none_right_eq_some.mp moved
    cases same
    intro d member e uses
    have old := List.mem_of_mem_filter member
    refine List.mem_filter.mpr ⟨closed d old e uses,?_⟩
    have other : e ≠ c := fun same => unused d old (same ▸ uses)
    simpa using other

theorem walk_closed {up' : List C} {ms : List (Move C)} (closed : Closed needs up) (walked : walk needs up ms = some up') :
    Closed needs up' := by
  induction ms generalizing up with
  | nil => cases walked; exact closed
  | cons m ms ih =>
    obtain ⟨middle,moved,rest⟩ := Option.bind_eq_some_iff.mp walked
    exact ih (move_closed closed moved) rest

theorem walk_prefix {last : List C} {ms ms' : List (Move C)} (walked : walk needs up (ms++ms') = some last) :
    ∃ middle, walk needs up ms = some middle ∧ walk needs middle ms' = some last := by
  rw [walk_append] at walked
  exact Option.bind_eq_some_iff.mp walked

theorem up_uses {last : List C} {c : C} {ms : List (Move C)} (walked : walk needs up (.up c::ms) = some last) :
    ∀ d ∈ needs c, d ∈ up := by
  obtain ⟨middle,moved,_⟩ := Option.bind_eq_some_iff.mp walked
  exact (Option.ite_none_right_eq_some.mp moved).1.2

theorem move_keeps {up' : List C} {c : C} {m : Move C} (moved : move needs up m = some up') (other : m ≠ .down c) (here : c ∈ up) :
    c ∈ up' := by
  cases m with
  | up d =>
    obtain ⟨_,same⟩ := Option.ite_none_right_eq_some.mp moved
    cases same
    exact List.mem_cons_of_mem _ here
  | down d =>
    obtain ⟨_,same⟩ := Option.ite_none_right_eq_some.mp moved
    cases same
    have different : c ≠ d := fun same => other (same ▸ rfl)
    exact List.mem_filter.mpr ⟨here,by simpa using different⟩

theorem walk_keeps {up' : List C} {c : C} {ms : List (Move C)} (walked : walk needs up ms = some up') (kept : .down c ∉ ms)
    (here : c ∈ up) : c ∈ up' := by
  induction ms generalizing up with
  | nil => cases walked; exact here
  | cons m ms ih =>
    obtain ⟨middle,moved,rest⟩ := Option.bind_eq_some_iff.mp walked
    refine ih rest (fun member => kept (List.mem_cons_of_mem _ member)) (move_keeps moved ?_ here)
    rintro rfl
    exact kept List.mem_cons_self

theorem walk_came {up' : List C} {c : C} {ms : List (Move C)} (walked : walk needs up ms = some up') (here : c ∈ up') :
    c ∈ up ∨ .up c ∈ ms := by
  induction ms generalizing up with
  | nil => cases walked; exact .inl here
  | cons m ms ih =>
    obtain ⟨middle,moved,rest⟩ := Option.bind_eq_some_iff.mp walked
    rcases ih rest with before | later
    · cases m with
      | up d =>
        obtain ⟨_,same⟩ := Option.ite_none_right_eq_some.mp moved
        cases same
        rcases List.mem_cons.mp before with rfl | old
        · exact .inr List.mem_cons_self
        · exact .inl old
      | down d =>
        obtain ⟨_,same⟩ := Option.ite_none_right_eq_some.mp moved
        cases same
        exact .inl (List.mem_of_mem_filter before)
    · exact .inr (List.mem_cons_of_mem _ later)

end Chronos.Lifecycle
