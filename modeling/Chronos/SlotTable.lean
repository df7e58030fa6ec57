import Chronos.Runs
import Mathlib.Data.List.Nodup

namespace Chronos.SlotTable

-- A table whose slots remember the ids of open items. An item is entered into a
-- slot when it is opened, and closed either through its slot or past the table.
inductive Change (K Id : Type) where
  | put (k : K) (x : Id)
  | take (k : K) (x : Id)
  | miss (x : Id)
  | pass

variable {K Id : Type} [DecidableEq K]

inductive Step : (K → Option Id) → Change K Id → (K → Option Id) → Prop where
  | put : Step s (.put k x) (Function.update s k (some x))
  | take (held : s k = some x) : Step s (.take k x) (Function.update s k none)
  | miss (absent : ∀ k, s k ≠ some x) : Step s (.miss x) s
  | pass : Step s .pass s

def Vacant (s : K → Option Id) (e : Change K Id) : Prop := ∀ k x, e = .put k x → s k = none

def Careful (s : K → Option Id) (e : Change K Id) (t : K → Option Id) : Prop := Step s e t ∧ Vacant s e

def Change.entered : Change K Id → Option (K × Id)
  | .put k x => some (k,x)
  | _ => none

def Change.shut : Change K Id → Option Id
  | .take _ x | .miss x => some x
  | _ => none

def Change.taken : Change K Id → Option Id
  | .take _ x => some x
  | _ => none

def entered (es : List (Change K Id)) : List (K × Id) := es.filterMap Change.entered
def shut (es : List (Change K Id)) : List Id := es.filterMap Change.shut
def taken (es : List (Change K Id)) : List Id := es.filterMap Change.taken

def Fresh (es : List (Change K Id)) : Prop := ((entered es).map (·.2)).Nodup

def Live (es : List (Change K Id)) (x : Id) : Prop := (∃ k, (k,x) ∈ entered es) ∧ x ∉ shut es

variable {s t : K → Option Id} {es : List (Change K Id)} {e : Change K Id}

omit [DecidableEq K] in
theorem Fresh.before (fresh : Fresh (es++[e])) : Fresh es := by
  simp only [Fresh,entered,List.filterMap_append,List.map_append] at fresh ⊢
  exact (List.nodup_append.mp fresh).1

omit [DecidableEq K] in
theorem Live.before (live : Live (es++[e]) x) : Live es x ∨ ∃ k, e = .put k x := by
  obtain ⟨⟨k,opened⟩,unshut⟩ := live
  simp only [entered,shut,List.filterMap_append,List.mem_append,not_or] at opened unshut
  rcases opened with old | new
  · exact .inl ⟨⟨k,old⟩,unshut.1⟩
  · cases e <;> simp [Change.entered] at new
    obtain ⟨rfl,rfl⟩ := new
    exact .inr ⟨_,rfl⟩

theorem Step.appears (step : Step s e t) (held : t k = some x) : s k = some x ∨ e = .put k x := by
  cases step with
  | put =>
    rename_i k' x'
    by_cases same : k = k'
    · subst k'
      rw [Function.update_self] at held
      exact .inr (by rw [Option.some.inj held])
    · rw [Function.update_of_ne same] at held
      exact .inl held
  | take =>
    rename_i x' k' _
    by_cases same : k = k'
    · subst k'
      rw [Function.update_self] at held
      cases held
    · rw [Function.update_of_ne same] at held
      exact .inl held
  | miss | pass => exact .inl held

theorem Careful.leaves (careful : Careful s e t) (held : s k = some x) : t k = some x ∨ e.shut = some x := by
  obtain ⟨step,vacant⟩ := careful
  cases step with
  | put =>
    rename_i k' x'
    have free := vacant k' x' rfl
    left
    rw [Function.update_of_ne (by rintro rfl; rw [free] at held; cases held)]
    exact held
  | take held' =>
    rename_i x' k'
    by_cases same : k = k'
    · subst k'
      rw [held] at held'
      exact .inr held'.symm
    · exact .inl (by rw [Function.update_of_ne same]; exact held)
  | miss | pass => exact .inl held

-- Entries are ids that were entered there, whatever has been written over.
theorem known (path : Runs Step (fun _ => none) es s) (held : s k = some x) : (k,x) ∈ entered es := by
  refine Runs.preserves_history (fun es s => ∀ k x, s k = some x → (k,x) ∈ entered es) ?_ ?_ path k x held
  · intro es s e t before step k x held
    rw [entered,filterMap_snoc,List.mem_append]
    rcases step.appears held with old | rfl
    · exact .inl (before k x old)
    · exact .inr (by simp [Change.entered])
  · intro k x held; cases held

omit [DecidableEq K] in
theorem Fresh.one_slot (fresh : Fresh es) (first : (k,x) ∈ entered es) (second : (l,x) ∈ entered es) : k = l := by
  have := List.inj_on_of_nodup_map fresh first second rfl
  exact congrArg Prod.fst this

theorem unique (path : Runs Step (fun _ => none) es s) (fresh : Fresh es)
    (first : s k = some x) (second : s l = some x) : k = l :=
  fresh.one_slot (known path first) (known path second)

theorem taken_entered (path : Runs Step (fun _ => none) es s) (gone : x ∈ taken es) : ∃ k, (k,x) ∈ entered es := by
  induction path with
  | nil => cases gone
  | step prior step ih =>
    simp only [taken,entered,List.filterMap_append,List.mem_append] at gone ih ⊢
    rcases gone with old | new
    · obtain ⟨k,member⟩ := ih old
      exact ⟨k,.inl member⟩
    · cases step with
      | take held =>
        obtain rfl : _ = _ := by simpa [Change.taken] using new
        exact ⟨_,.inl (known prior held)⟩
      | put | miss | pass => simp [Change.taken] at new

theorem taken_absent (path : Runs Step (fun _ => none) es s) (fresh : Fresh es) (gone : x ∈ taken es) (k : K) :
    s k ≠ some x := by
  induction path generalizing k with
  | nil => cases gone
  | step prior step ih =>
    rename_i es s e t
    rw [taken,filterMap_snoc,List.mem_append] at gone
    intro held
    rcases step.appears held with still | rfl
    · rcases gone with old | new
      · exact ih fresh.before old k still
      · cases step with
        | take held' =>
          obtain rfl : x = _ := by simpa [Change.taken] using new
          obtain rfl := unique prior fresh.before still held'
          rw [Function.update_self] at held
          cases held
        | put | miss | pass => simp [Change.taken] at new
    · rcases gone with old | new
      · obtain ⟨l,first⟩ := taken_entered prior old
        simp only [Fresh,entered,List.filterMap_append,List.map_append] at fresh
        exact (List.nodup_append.mp fresh).2.2 _ (List.mem_map.mpr ⟨_,first,rfl⟩) _ (by simp [Change.entered]) rfl
      · simp [Change.taken] at new

theorem kept (path : Runs Careful (fun _ => none) es s) (live : Live es x) : ∃ k, s k = some x := by
  refine Runs.preserves_history (fun es s => ∀ x, Live es x → ∃ k, s k = some x) ?_ ?_ path x live
  · intro es s e t before careful x live
    rcases live.before with old | ⟨k,rfl⟩
    · obtain ⟨k,held⟩ := before x old
      have unshut := live.2
      rw [shut,filterMap_snoc,List.mem_append,not_or] at unshut
      rcases careful.leaves held with still | closed
      · exact ⟨k,still⟩
      · exact absurd (by simp [closed]) unshut.2
    · cases careful.1
      exact ⟨k,Function.update_self ..⟩
  · rintro x ⟨⟨k,opened⟩,_⟩; cases opened

theorem held_until (path : Runs Careful s es t) (held : s k = some x) : t k = some x ∨ x ∈ shut es := by
  induction path with
  | nil => exact .inl held
  | step _ taken ih =>
    rw [shut,filterMap_snoc,List.mem_append]
    rcases ih with still | closed
    · exact (taken.leaves still).imp_right fun closed => .inr (by simp [closed])
    · exact .inr (.inl closed)

theorem careful_runs (path : Runs Careful s es t) : Runs Step s es t := by
  induction path with
  | nil => exact .nil
  | step _ taken ih => exact ih.step taken.1

theorem live_once (path : Runs Careful (fun _ => none) es s) (fresh : Fresh es) (live : Live es x) :
    ∃! k, s k = some x := by
  obtain ⟨k,held⟩ := kept path live
  exact ⟨k,held,fun l other => unique (careful_runs path) fresh other held⟩

end Chronos.SlotTable
