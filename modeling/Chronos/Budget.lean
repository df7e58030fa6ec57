import Chronos.Runs
import Mathlib.Algebra.Order.BigOperators.Group.Finset
import Mathlib.Algebra.Order.Group.Nat
import Mathlib.Algebra.Ring.Nat

namespace Chronos.Budget

-- What is spent in a run, out of what a state still owes and what comes in. A step
-- may leave the budget short, but never owe more than it has.
variable {S E : Type} {step : S → E → S → Prop} {before after : S} {es : List E}

def total (weight : E → Nat) (es : List E) : Nat := (es.map weight).sum

theorem total_snoc (weight : E → Nat) (es : List E) (e : E) : total weight (es++[e]) = total weight es+weight e := by
  simp [total]

theorem total_le_length {weight : E → Nat} (bound : Nat) (small : ∀ e ∈ es, weight e ≤ bound) : total weight es ≤ es.length*bound := by
  induction es with
  | nil => simp [total]
  | cons e es ih =>
    have first := small e List.mem_cons_self
    have rest := ih fun e member => small e (List.mem_cons_of_mem _ member)
    simp only [total,List.map_cons,List.sum_cons,List.length_cons,Nat.succ_mul] at rest ⊢
    omega

theorem total_one (es : List E) : total (fun _ => 1) es = es.length := by
  induction es with
  | nil => rfl
  | cons e es ih =>
    simp only [total,List.map_cons,List.sum_cons,List.length_cons] at ih ⊢
    omega

theorem total_weighted (a b : Nat) (f g : E → Nat) (es : List E) : total (fun e => a*f e+b*g e) es = a*total f es+b*total g es := by
  induction es with
  | nil => rfl
  | cons e es ih =>
    simp only [total,List.map_cons,List.sum_cons,Nat.mul_add] at ih ⊢
    omega

theorem spent (good : S → Prop) (owed : S → Nat) (cost income : E → Nat)
    (kept : ∀ s e t, good s → step s e t → good t)
    (each : ∀ s e t, good s → step s e t → owed t+cost e ≤ owed s+income e)
    (start : good before) (path : Runs step before es after) :
    owed after+total cost es ≤ owed before+total income es := by
  have both : good after ∧ owed after+total cost es ≤ owed before+total income es := by
    refine path.preserves_history (fun es s => good s ∧ owed s+total cost es ≤ owed before+total income es) ?_
      ⟨start,by simp [total]⟩
    rintro es s e t ⟨here,bound⟩ taken
    have next := each s e t here taken
    refine ⟨kept s e t here taken,?_⟩
    rw [total_snoc,total_snoc]
    omega
  exact both.2

-- One budget for several parties: a step draws on the party that takes it, and may
-- burden each of the others, as long as the first pays for all of them.
theorem shared [DecidableEq I] {crew : Finset I} {i : I} {f g : I → Nat} {paid gain : Nat} (burden : Nat) (one : i ∈ crew)
    (mine : g i+paid+(crew.card-1)*burden ≤ f i+gain) (others : ∀ j ≠ i, g j ≤ f j+burden) :
    crew.sum g+paid ≤ crew.sum f+gain := by
  have rest : (crew.erase i).sum g ≤ (crew.erase i).sum f+(crew.card-1)*burden := by
    calc (crew.erase i).sum g
      _ ≤ (crew.erase i).sum fun j => f j+burden := Finset.sum_le_sum fun j member => others j (Finset.ne_of_mem_erase member)
      _ = (crew.erase i).sum f+(crew.card-1)*burden := by
        rw [Finset.sum_add_distrib,Finset.sum_const,Finset.card_erase_of_mem one,Nat.nsmul_eq_mul]
  have whole : ∀ h : I → Nat, crew.sum h = h i+(crew.erase i).sum h := fun h => (Finset.add_sum_erase crew h one).symm
  rw [whole g,whole f]
  omega

end Chronos.Budget
