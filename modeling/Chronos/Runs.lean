import Mathlib.Logic.Function.Basic
import Mathlib.Data.List.Induction

namespace Chronos

-- Labelled transition systems. A run lists the labels it consumed, oldest
-- first; a label carries whatever a later statement wants to read off a step.
inductive Runs (step : S → E → S → Prop) : S → List E → S → Prop where
  | nil : Runs step s [] s
  | step : Runs step origin earlier middle → step middle event after →
      Runs step origin (earlier++[event]) after

namespace Runs
variable {step : S → E → S → Prop}

theorem single (taken : step before event after) : Runs step before [event] after :=
  .step .nil taken

theorem append (front : Runs step before earlier middle) (back : Runs step middle later after) :
    Runs step before (earlier++later) after := by
  induction back with
  | nil => rwa [List.append_nil]
  | step _ taken ih =>
    rw [← List.append_assoc]
    exact ih.step taken

theorem cons (taken : step before event middle) (rest : Runs step middle later after) :
    Runs step before (event::later) after :=
  (single taken).append rest

theorem snoc_inv (path : Runs step before (earlier++[event]) after) :
    ∃ middle, Runs step before earlier middle ∧ step middle event after := by
  generalize shape : earlier++[event] = events at path
  cases path with
  | nil => simp at shape
  | step prior taken =>
    obtain ⟨same,last⟩ := List.append_inj' shape rfl
    cases last
    exact ⟨_,same ▸ prior,taken⟩

theorem nil_inv (path : Runs step before [] after) : after = before := by
  generalize shape : ([] : List E) = events at path
  cases path with
  | nil => rfl
  | step => simp at shape

theorem append_inv (path : Runs step before (earlier++later) after) :
    ∃ middle, Runs step before earlier middle ∧ Runs step middle later after := by
  induction later using List.reverseRecOn generalizing after with
  | nil => exact ⟨after,by simpa using path,.nil⟩
  | append_singleton later event ih =>
    rw [← List.append_assoc] at path
    obtain ⟨last,prior,taken⟩ := snoc_inv path
    obtain ⟨middle,front,back⟩ := ih prior
    exact ⟨middle,front,.step back taken⟩

theorem cons_inv (path : Runs step before (event::later) after) :
    ∃ middle, step before event middle ∧ Runs step middle later after := by
  obtain ⟨middle,first,rest⟩ := append_inv (show Runs step before ([event]++later) after from path)
  obtain ⟨start,none,taken⟩ := snoc_inv (show Runs step before ([]++[event]) middle from first)
  exact ⟨middle,nil_inv none ▸ taken,rest⟩

theorem split_at (path : Runs step before (earlier++event::later) after) :
    ∃ here next, Runs step before earlier here ∧ step here event next ∧ Runs step next later after := by
  obtain ⟨here,front,back⟩ := path.append_inv
  obtain ⟨next,taken,rest⟩ := back.cons_inv
  exact ⟨here,next,front,taken,rest⟩

theorem deterministic (functional : ∀ s e t t', step s e t → step s e t' → t = t')
    (one : Runs step before events after) (other : Runs step before events after') : after = after' := by
  induction one generalizing after' with
  | nil => exact other.nil_inv.symm
  | step _ taken ih =>
    obtain ⟨middle,prior,last⟩ := other.snoc_inv
    obtain rfl := ih prior
    exact functional _ _ _ _ taken last

theorem step_at (functional : ∀ s e t t', step s e t → step s e t' → t = t')
    (path : Runs step before (earlier++event::later) after) (front : Runs step before earlier here) :
    ∃ next, step here event next := by
  obtain ⟨here',next,front',taken,_⟩ := path.split_at
  obtain rfl := front.deterministic functional front'
  exact ⟨next,taken⟩

theorem split_snoc {earlier later events : List E} : events++[event] = earlier++e::later ↔
    (later = [] ∧ earlier = events ∧ e = event) ∨ ∃ rest, later = rest++[event] ∧ events = earlier++e::rest := by
  rcases List.eq_nil_or_concat later with rfl | ⟨rest,last,rfl⟩
  · constructor
    · intro same
      obtain ⟨front,back⟩ := List.append_inj' same rfl
      cases back
      exact .inl ⟨rfl,front.symm,rfl⟩
    · rintro (⟨_,rfl,rfl⟩ | ⟨rest,none,_⟩)
      · rfl
      · simp at none
  · rw [List.concat_eq_append,← List.cons_append,← List.append_assoc]
    constructor
    · intro same
      obtain ⟨front,back⟩ := List.append_inj' same rfl
      cases back
      exact .inr ⟨rest,rfl,front⟩
    · rintro (⟨none,_⟩ | ⟨rest',same,rfl⟩)
      · simp at none
      · obtain ⟨rfl,back⟩ := List.append_inj' same rfl
        rw [back]

theorem weaken {step' : S → E → S → Prop} (weaker : ∀ s e t, step s e t → step' s e t)
    (path : Runs step before events after) : Runs step' before events after := by
  induction path with
  | nil => exact .nil
  | step _ taken ih => exact ih.step (weaker _ _ _ taken)

theorem preserves (good : S → Prop) (kept : ∀ s e t, good s → step s e t → good t)
    (start : good before) (path : Runs step before events after) : good after := by
  induction path with
  | nil => exact start
  | step _ taken ih => exact kept _ _ _ ih taken

theorem preserves_history (good : List E → S → Prop)
    (kept : ∀ es s e t, good es s → step s e t → good (es++[e]) t)
    (start : good [] before) (path : Runs step before events after) : good events after := by
  induction path with
  | nil => exact start
  | step _ taken ih => exact kept _ _ _ _ ih taken

-- The same, when a step keeps the invariant only while the history stays
-- admissible; admissibility has to be inherited by every prefix.
theorem preserves_admissible (good : List E → S → Prop) (admits : List E → Prop)
    (prefixes : ∀ es e, admits (es++[e]) → admits es)
    (kept : ∀ es s e t, admits (es++[e]) → good es s → step s e t → good (es++[e]) t)
    (start : good [] before) (path : Runs step before events after) (admitted : admits events) :
    good events after := by
  induction path with
  | nil => exact start
  | step _ taken ih => exact kept _ _ _ _ admitted (ih (prefixes _ _ admitted)) taken

end Runs

theorem filterMap_snoc {α β : Type} (f : α → Option β) (events : List α) (event : α) :
    (events++[event]).filterMap f = events.filterMap f++(f event).toList := by
  rw [List.filterMap_append]
  cases seen : f event <;> simp [seen]

def Each (good : List E → E → Prop) (events : List E) : Prop :=
  ∀ earlier event later, events = earlier++event::later → good earlier event

theorem Each.at {good : List E → E → Prop} {events : List E} (each : Each good events) (i : Fin events.length) :
    good (events.take i) events[i] := each _ _ (events.drop (i+1)) (by simp)

instance (good : List E → E → Prop) [∀ earlier event, Decidable (good earlier event)] (events : List E) :
    Decidable (Each good events) :=
  decidable_of_iff (∀ i : Fin events.length, good (events.take i) events[i])
    ⟨fun all earlier event later shape => by
      subst shape
      simpa using all ⟨earlier.length,by simp⟩,Each.at⟩

theorem Each.front {good : List E → E → Prop} {events more : List E} (each : Each good (events++more)) : Each good events :=
  fun earlier e later shape => each earlier e (later++more) (by rw [shape,List.append_assoc,List.cons_append])

theorem Each.snoc {good : List E → E → Prop} {events : List E} : Each good (events++[event]) ↔ Each good events ∧ good events event := by
  constructor
  · exact fun each => ⟨each.front,each events event [] rfl⟩
  · rintro ⟨before,last⟩ earlier e later shape
    rcases Runs.split_snoc.mp shape with ⟨_,rfl,rfl⟩ | ⟨rest,_,rfl⟩
    · exact last
    · exact before earlier e rest rfl

theorem Each.congr {good good' : List E → E → Prop} {events : List E}
    (same : ∀ earlier event later, events = earlier++event::later → (good earlier event ↔ good' earlier event)) :
    Each good events ↔ Each good' events :=
  ⟨fun each _ _ _ shape => (same _ _ _ shape).mp (each _ _ _ shape),
    fun each _ _ _ shape => (same _ _ _ shape).mpr (each _ _ _ shape)⟩

-- Scheduled execution: a choice names the step to be taken, so that a concrete
-- run can be computed and then read as a run of the relation.
def play (advance : S → C → Option (E × S)) : S → List C → Option (List E × S)
  | s,[] => some ([],s)
  | s,choice::rest => do
    let (event,next) ← advance s choice
    let (events,last) ← play advance next rest
    return (event::events,last)

theorem play_runs {advance : S → C → Option (E × S)} {step : S → E → S → Prop}
    (sound : ∀ s c e t, advance s c = some (e,t) → step s e t)
    (played : play advance before choices = some (events,after)) : Runs step before events after := by
  induction choices generalizing before events with
  | nil =>
    simp only [play,Option.some.injEq,Prod.mk.injEq] at played
    obtain ⟨rfl,rfl⟩ := played
    exact .nil
  | cons choice rest ih =>
    cases moved : advance before choice with
    | none => simp [play,moved] at played
    | some pair =>
      obtain ⟨event,middle⟩ := pair
      cases tail : play advance middle rest with
      | none => simp [play,moved,tail] at played
      | some result =>
        obtain ⟨later,last⟩ := result
        simp [play,moved,tail] at played
        obtain ⟨rfl,rfl⟩ := played
        exact .cons (sound _ _ _ _ moved) (ih tail)

theorem play_get {advance : S → C → Option (E × S)} {step : S → E → S → Prop}
    (sound : ∀ s c e t, advance s c = some (e,t) → step s e t)
    (follows : (play advance before choices).isSome) :
    Runs step before ((play advance before choices).get follows).1 ((play advance before choices).get follows).2 :=
  play_runs sound (Option.some_get follows).symm

end Chronos
