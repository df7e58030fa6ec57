import Chronos.Runs
import Mathlib.Data.List.Nodup
import Mathlib.Data.List.Perm.Basic

namespace Chronos.Interleaved

-- Components, each with a state of its own, that take their steps in any order.
variable {I : Type} [DecidableEq I] {S E : I → Type} {A : Type}

def Step (step : ∀ i, S i → E i → S i → Prop) (s : ∀ i, S i) (e : (i : I) × E i) (t : ∀ i, S i) : Prop :=
  ∃ after, step e.1 (s e.1) e.2 after ∧ t = Function.update s e.1 after

def own (i : I) (e : (j : I) × E j) : Option (E i) := if same : e.1 = i then some (same ▸ e.2) else none

def only (i : I) (es : List ((i : I) × E i)) : List (E i) := es.filterMap (own i)

variable {step : ∀ i, S i → E i → S i → Prop} {s t : ∀ i, S i} {es : List ((i : I) × E i)}

@[simp] theorem own_self (i : I) (e : E i) : own i ⟨i,e⟩ = some e := by simp [own]

theorem own_other {i : I} {e : (j : I) × E j} (different : e.1 ≠ i) : own i e = none := by simp [own,different]

theorem project (path : Runs (Step step) s es t) (i : I) : Runs (step i) (s i) (only i es) (t i) := by
  induction path with
  | nil => exact .nil
  | step prior taken ih =>
    obtain ⟨after,moved,rfl⟩ := taken
    rename_i e
    rw [only,filterMap_snoc]
    obtain ⟨j,e⟩ := e
    by_cases same : j = i
    · subst j
      rw [own_self,Function.update_self]
      exact ih.step moved
    · rw [own_other same,Function.update_of_ne (Ne.symm same),Option.toList_none,List.append_nil]
      exact ih

variable {keys : List I}

theorem flatMap_own (distinct : keys.Nodup) (all : ∀ i, i ∈ keys) (f : ∀ i, E i → List A) (e : (i : I) × E i) :
    (keys.flatMap fun i => (own i e).toList.flatMap (f i)).Perm (f e.1 e.2) := by
  obtain ⟨j,e⟩ := e
  have others : (keys.erase j).flatMap (fun i => (own i ⟨j,e⟩).toList.flatMap (f i)) = [] := by
    refine List.flatMap_eq_nil_iff.mpr fun i other => ?_
    rw [own_other]
    · rfl
    · rintro rfl
      exact distinct.not_mem_erase other
  refine ((List.perm_cons_erase (all j)).flatMap_right _).trans ?_
  rw [List.flatMap_cons,others]
  simp

theorem shares_perm (distinct : keys.Nodup) (all : ∀ i, i ∈ keys) (f : ∀ i, E i → List A) (es : List ((i : I) × E i)) :
    (es.flatMap fun e => f e.1 e.2).Perm (keys.flatMap fun i => (only i es).flatMap (f i)) := by
  induction es with
  | nil => simp [only]
  | cons e es ih =>
    have front : ∀ i, only i (e::es) = (own i e).toList++only i es := by
      intro i
      cases mine : own i e <;> simp [only,mine]
    simp only [front,List.flatMap_cons,List.flatMap_append]
    exact ((flatMap_own distinct all f e).symm.append ih).trans (List.flatMap_append_perm ..)

end Chronos.Interleaved
