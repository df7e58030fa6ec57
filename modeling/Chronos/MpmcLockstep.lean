import Chronos.MpmcUnbounded

namespace Chronos.MpmcQueue

variable {Tid T : Type} {c : Capacity}

instance (s : State Tid Nat T c) (l : Local Nat T) : Decidable (Recent s l) := by
  cases l <;> unfold Recent <;> infer_instance

section Steps
variable [DecidableEq Tid]

def RecentStep (s : State Tid Nat T c) (e : Event Tid Nat T) (s' : State Tid Nat T c) : Prop :=
  Step (unbounded c) s e s' ∧ Recent s (s.threads e.thread)

theorem unbounded_inv {junk : Fin c.size → T} {es : List (Event Tid Nat T)} {s : State Tid Nat T c} (least : 2 ≤ c.size)
    (path : Runs (Step (unbounded c)) (initial (unbounded c) junk) es s) : Inv id (values es) s := by
  have faithful := unbounded_faithful c ((pushWins es).length+c.size+1)
  have fits : Fits c ((pushWins es).length+c.size+1) es := by unfold Fits; omega
  refine path.preserves_admissible (fun es s => Inv id (values es) s) (Fits c ((pushWins es).length+c.size+1)) ?_ ?_ ?_ fits
  · exact fun _ _ => Fits.before
  · exact fun _ _ _ _ fits inv step => inv.step faithful least fits step
  · exact initial_inv faithful (by omega) junk

-- What the two machines share when thread t is next, at s and at the words of s.
structure Lockstep (s : State Tid Nat T c) (t : Tid) : Prop where
  step : ∀ choice, advance (word c) (s.map low) t choice =
    (advance (unbounded c) s t choice).map (Prod.map (Event.map low) (State.map low))
  slot : ∀ pos, (word c).slot (low pos) = (unbounded c).slot pos
  pushDiff : ∀ v pos, s.threads t = .pushSeq v pos →
    (word c).diff ((s.map low).slots ((word c).slot (low pos))).seq (low pos) =
      (unbounded c).diff (s.slots ((unbounded c).slot pos)).seq pos
  popDiff : ∀ pos, s.threads t = .popSeq pos →
    (word c).diff ((s.map low).slots ((word c).slot (low pos))).seq ((word c).next (low pos)) =
      (unbounded c).diff (s.slots ((unbounded c).slot pos)).seq ((unbounded c).next pos)
  pushCas : ∀ v pos, s.threads t = .pushCas v pos → ((s.map low).head = low pos ↔ s.head = pos)
  popCas : ∀ pos, s.threads t = .popCas pos → ((s.map low).tail = low pos ↔ s.tail = pos)

theorem Inv.in_step {s : State Tid Nat T c} {pushed : List T} {t : Tid} (inv : Inv id pushed s) (most : c.size ≤ 2^62)
    (recent : Recent s (s.threads t)) : Lockstep s t where
  step := advance_low inv most recent
  slot := low_slot c
  pushDiff _ _ := push_diff inv most recent
  popDiff _ := pop_diff inv recent
  pushCas _ _ := push_cas inv recent
  popCas _ := pop_cas inv recent

theorem RecentStep.low {s s' : State Tid Nat T c} {e : Event Tid Nat T} {pushed : List T} (inv : Inv id pushed s)
    (most : c.size ≤ 2^62) (step : RecentStep s e s') : Step (word c) (s.map low) (e.map low) (s'.map low) := by
  obtain ⟨choice,taken⟩ := advance_complete step.1
  have same := (inv.in_step most step.2).step choice
  rw [taken] at same
  exact advance_sound (t:=e.thread) same

theorem lockstep {Tid T : Type} [DecidableEq Tid] {c : Capacity} {junk : Fin c.size → T} {es : List (Event Tid Nat T)}
    {s : State Tid Nat T c} (least : 2 ≤ c.size) (most : c.size ≤ 2^62)
    (path : Runs RecentStep (initial (unbounded c) junk) es s) :
    Runs (Step (word c)) (initial (word c) junk) (es.map (Event.map low)) (s.map low) ∧
      ∀ t, Recent s (s.threads t) → Lockstep s t := by
  have plain : ∀ {es : List (Event Tid Nat T)} {s : State Tid Nat T c},
      Runs RecentStep (initial (unbounded c) junk) es s → Inv id (values es) s := fun path => unbounded_inv least (path.weaken fun _ _ _ step => step.1)
  refine ⟨?_,fun t => (plain path).in_step most⟩
  induction path with
  | nil => exact .nil
  | step prior taken ih =>
    rw [List.map_append]
    exact ih.step (taken.low (plain prior) most)

def scheduleRecent (s : State Tid Nat T c) (choice : Tid × Choice T) : Option (Event Tid Nat T × State Tid Nat T c) :=
  (schedule (unbounded c) s choice).filter fun (e,_) => Recent s (s.threads e.thread)

theorem scheduleRecent_sound (s : State Tid Nat T c) (choice : Tid × Choice T) (e : Event Tid Nat T)
    (s' : State Tid Nat T c) (checked : scheduleRecent s choice = some (e,s')) : RecentStep s e s' := by
  obtain ⟨moved,recent⟩ := Option.filter_eq_some_iff.mp checked
  exact ⟨schedule_sound s choice e s' moved,by simpa using recent⟩

end Steps

theorem lockstep_handOver :
    ∃ follows : (play scheduleRecent (initial (unbounded two) (fun _ => 0)) handOver).isSome,
      let run := (play scheduleRecent (initial (unbounded two) (fun _ => 0)) handOver).get follows
      Runs (Step (word two)) (initial (word two) (fun _ => 0)) (run.1.map (Event.map low)) (run.2.map low) ∧
        ∀ t, Recent run.2 (run.2.threads t) → Lockstep run.2 t :=
  ⟨by decide,lockstep (by decide) (by decide) (play_get scheduleRecent_sound (by decide))⟩

end Chronos.MpmcQueue
