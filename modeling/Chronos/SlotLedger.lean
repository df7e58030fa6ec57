import Chronos.SlotTable
import Mathlib.Data.List.Count

namespace Chronos.SlotTable

variable {K Id : Type} [DecidableEq K]

def Change.apply (s : K → Option Id) : Change K Id → K → Option Id
  | .put k x => Function.update s k (some x)
  | .take k _ => Function.update s k none
  | .miss _ | .pass => s

def Change.lost (s : K → Option Id) : Change K Id → Option Id
  | .put k _ => s k
  | _ => none

def lost (s : K → Option Id) : List (Change K Id) → List Id
  | [] => []
  | e::es => (e.lost s).toList++lost (e.apply s) es

variable {s t : K → Option Id} {e : Change K Id} {es : List (Change K Id)} {keys : List K}

theorem Step.apply (step : Step s e t) : e.apply s = t := by
  cases step <;> rfl

theorem apply_runs (path : Runs Step s es t) : es.foldl (fun s e => e.apply s) s = t := by
  induction path with
  | nil => rfl
  | step _ taken ih =>
    rw [List.foldl_append,ih]
    exact taken.apply

theorem lost_append (s : K → Option Id) (es more : List (Change K Id)) :
    lost s (es++more) = lost s es++lost (es.foldl (fun s e => e.apply s) s) more := by
  induction es generalizing s with
  | nil => rfl
  | cons e es ih => simp [lost,ih]

theorem lost_careful (path : Runs Careful s es t) : lost s es = [] := by
  induction path with
  | nil => rfl
  | step prior careful ih =>
    obtain ⟨step,vacant⟩ := careful
    rw [lost_append,ih,apply_runs (careful_runs prior),lost]
    cases step with
    | put => simp [Change.lost,lost,vacant _ _ rfl]
    | take | miss | pass => rfl

variable [DecidableEq Id]

-- An update trades the entry of its slot for the new one.
theorem count_update (distinct : keys.Nodup) (member : k ∈ keys) (s : K → Option Id) (new : Option Id) (x : Id) :
    (keys.filterMap (Function.update s k new)).count x+(s k).toList.count x =
      (keys.filterMap s).count x+new.toList.count x := by
  have others : (keys.erase k).filterMap (Function.update s k new) = (keys.erase k).filterMap s := by
    refine List.filterMap_congr fun l other => ?_
    rw [Function.update_of_ne]
    rintro rfl
    exact distinct.not_mem_erase other
  have front : ∀ s : K → Option Id, (keys.filterMap s).count x = (s k).toList.count x+((keys.erase k).filterMap s).count x := by
    intro s
    rw [((List.perm_cons_erase member).filterMap s).count_eq,List.filterMap_cons]
    cases s k <;> simp [List.count_cons,Nat.add_comm]
  rw [front,front s,others,Function.update_self]
  omega

theorem Step.balance (distinct : keys.Nodup) (all : ∀ k, k ∈ keys) (step : Step s e t) (x : Id) :
    (keys.filterMap t).count x+e.taken.toList.count x+(e.lost s).toList.count x =
      (keys.filterMap s).count x+(e.entered.map Prod.snd).toList.count x := by
  cases step with
  | put =>
    rename_i k x'
    have moved := count_update distinct (all k) s (some x') x
    simp only [Change.taken,Change.lost,Change.entered,Option.map_some,Option.toList_none,List.count_nil]
    omega
  | take held =>
    rename_i x' k
    have moved := count_update distinct (all k) s none x
    rw [held] at moved
    simp only [Change.taken,Change.lost,Change.entered,Option.map_none,Option.toList_none,List.count_nil] at moved ⊢
    omega
  | miss | pass => simp [Change.taken,Change.lost,Change.entered]

theorem balance (distinct : keys.Nodup) (all : ∀ k, k ∈ keys) (path : Runs Step (fun _ => none) es s) :
    ((entered es).map Prod.snd).Perm (keys.filterMap s++(taken es++lost (fun _ => none) es)) := by
  rw [List.perm_iff_count]
  intro x
  induction path with
  | nil => simp [entered,taken,lost]
  | step prior step ih =>
    have moved := step.balance distinct all x
    rw [lost_append,apply_runs prior,entered,taken,filterMap_snoc,filterMap_snoc,lost]
    simp only [entered,taken] at ih
    simp only [List.map_append,List.count_append,lost,List.append_nil] at ih ⊢
    rw [show ∀ o : Option (K × Id), o.toList.map Prod.snd = (o.map Prod.snd).toList by rintro (_ | _) <;> rfl]
    omega

end Chronos.SlotTable
