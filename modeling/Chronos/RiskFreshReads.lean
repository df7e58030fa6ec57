import Chronos.RiskHotReads

namespace Chronos.RiskEngine
open Seqlock

variable {Tid F : Type} [Double F] [DecidableEq Tid]

def Event.finished : Event Tid F → Bool
  | .turn _ (.writer (.back _ _ [])) => true
  | _ => false

def finished (es : List (Event Tid F)) : Nat := es.countP Event.finished

-- The number of the set a validated read of thread t returned, by its version.
def Event.validated (t : Tid) : Event Tid F → Option Nat
  | .turn u (.hot (.done _ v _)) => if u = t then some (v.toNat/2) else none
  | _ => none

def validated (t : Tid) (es : List (Event Tid F)) : List Nat := es.filterMap (Event.validated t)

variable {hot₀ : HotParams} {cold₀ : ColdParams F} {es : List (Event Tid F)} {e : Event Tid F} {w : Tid}
variable {s s' : State Tid F}

omit [Double F] [DecidableEq Tid] in
theorem finished_snoc (es : List (Event Tid F)) (e : Event Tid F) :
    finished (es++[e]) = finished es+if e.finished then 1 else 0 := by
  simp only [finished,List.countP_append,List.countP_singleton]

omit [Double F] in
theorem validated_snoc (t : Tid) (es : List (Event Tid F)) (e : Event Tid F) :
    validated t (es++[e]) = validated t es++(e.validated t).toList := filterMap_snoc _ _ _

omit [Double F] in
theorem stamp_le_bumps (t : Tid) (es : List (Event Tid F)) : stamp t es ≤ bumps es := by
  induction es using List.reverseRecOn with
  | nil => exact Nat.le_refl _
  | append_singleton es e ih =>
    have grown := bumps_le_append es [e]
    rw [stamp_snoc]
    split
    · exact grown
    · exact Nat.le_trans ih grown

omit [Double F] in
theorem stamp_grows (t : Tid) (es : List (Event Tid F)) (e : Event Tid F) : stamp t es ≤ stamp t (es++[e]) := by
  rw [stamp_snoc]
  split
  · exact stamp_le_bumps t es
  · exact Nat.le_refl _

def Counted (w : Tid) (es : List (Event Tid F)) (s : State Tid F) : Prop :=
  finished es+(if (s.threads w).updating then 1 else 0) = (updates es).length

theorem Counted.step (sole : Sole w hot₀ cold₀ es s) (mine : ∀ t ∈ e.updater, t = w) (counted : Counted w es s)
    (step : Step s e s') : Counted w (es++[e]) s' := by
  unfold Counted at counted ⊢
  rw [finished_snoc,updates_snoc,List.length_append]
  cases step with
  | @call t op free =>
    by_cases own : w = t
    · subst own
      rw [free] at counted
      rw [move_self]
      cases op <;> simpa [Local.updating,entry,Event.finished,Event.updated] using counted
    · rw [move_other _ _ _ own]
      cases op with
      | update p => exact absurd (mine t rfl).symm own
      | readHot | readCold => simpa [Event.finished,Event.updated] using counted
  | @turn t l shared l' at_ moved =>
    by_cases own : w = t
    · subst own
      rw [at_] at counted
      rw [move_self]
      cases l with
      | idle => cases moved
      | hot | cold =>
        obtain ⟨_,still⟩ := turn_reading (by trivial) moved
        rw [reading_iff.mp still]
        simpa [Local.updating,Event.finished,Event.updated] using counted
      | writer x =>
        obtain ⟨_,rfl⟩ := writer_moved moved
        cases x with
        | fill p i rest | build p i rest | copy p i rest | back p i rest =>
          cases rest <;> simpa [writerTurn,Local.updating,Event.finished,Event.updated] using counted
        | darkStore | openLoad | openStore | closeStore | swapLoad | swapStore | flipLoad | flipStore | backLoad =>
          simpa [writerTurn,Local.updating,Event.finished,Event.updated] using counted
    · rw [move_other _ _ _ own]
      have reads : l.reading := at_ ▸ sole.lone t (Ne.symm own)
      cases l with
      | writer => cases reads
      | idle | hot | cold => simpa [Event.finished,Event.updated] using counted

theorem finished_bumps (sole : Sole w hot₀ cold₀ es s) (counted : Counted w es s) : 2*finished es ≤ bumps es := by
  have stage := sole.stage
  unfold Counted at counted
  cases l : s.threads w with
  | idle | hot | cold =>
    rw [l] at stage counted
    have quiet := stage.1
    simp only [Local.updating,Bool.false_eq_true,if_false] at counted
    omega
  | writer x =>
    rw [l] at stage counted
    simp only [Local.updating,if_true] at counted
    cases x with
    | fill | build | darkStore | openLoad => have := stage.2.1; omega
    | openStore => have := stage.1.2.1; omega
    | copy | closeStore => have := stage.1.2; omega
    | swapLoad | swapStore | flipLoad | flipStore | backLoad | back => have := stage.2.1; omega

structure Fresh (w : Tid) (hot₀ : HotParams) (cold₀ : ColdParams F) (es : List (Event Tid F)) (s : State Tid F) : Prop where
  sole : Sole w hot₀ cold₀ es s
  validating : ∀ t, Validating hot₀ es s.shared t (s.threads t)
  counted : Counted w es s
  numbers : ∀ t, ∀ k ∈ validated t es, 2*k ≤ stamp t es
  ordered : ∀ t, (validated t es).Pairwise (· ≤ ·)

theorem Fresh.stamped (fresh : Fresh w hot₀ cold₀ es s) (few : bumps es < 2^64)
    (at_ : s.threads t = .hot (.done order v got)) : v.toNat = stamp t es := by
  have held := fresh.validating t
  rw [at_] at held
  obtain ⟨_,rfl,_⟩ := held
  have bound := stamp_le_bumps t es
  rw [BitVec.toNat_ofNat]
  omega

theorem validated_cases {t : Tid} (step : Step s e s') (member : k ∈ e.validated t) :
    ∃ order v got, s.threads t = .hot (.done order v got) ∧ k = v.toNat/2 := by
  cases step with
  | call => cases member
  | @turn u l shared l' at_ moved =>
    cases l with
    | idle | writer | cold => cases member
    | hot r =>
      cases r with
      | first | copy | anyway => cases member
      | done order v got =>
        simp only [Event.validated] at member
        split at member
        · rename_i same
          subst same
          exact ⟨order,v,got,at_,(Option.some.inj member).symm⟩
        · cases member

theorem Fresh.step (one : OneWriter w (es++[e])) (few : bumps (es++[e]) < 2^64) (fresh : Fresh w hot₀ cold₀ es s)
    (step : Step s e s') : Fresh w hot₀ cold₀ (es++[e]) s' := by
  have few' : bumps es < 2^64 := Nat.lt_of_le_of_lt (bumps_le_append es [e]) few
  have returned : ∀ t, ∀ k ∈ e.validated t, 2*k ≤ stamp t es ∧ ∀ k' ∈ validated t es, k' ≤ k := by
    intro t k member
    obtain ⟨order,v,got,at_,rfl⟩ := validated_cases step member
    have word := fresh.stamped few' at_
    refine ⟨by omega,fun k' old => ?_⟩
    have before := fresh.numbers t k' old
    omega
  refine ⟨fresh.sole.step one.last step,validating_step fresh.sole (prompt_of_few few) fresh.validating step,
    fresh.counted.step fresh.sole one.last step,fun t k member => ?_,fun t => ?_⟩
  · refine Nat.le_trans ?_ (stamp_grows t es e)
    rw [validated_snoc] at member
    rcases List.mem_append.mp member with old | new
    · exact fresh.numbers t k old
    · exact (returned t k (Option.mem_toList.mp new)).1
  · rw [validated_snoc,List.pairwise_append]
    refine ⟨fresh.ordered t,?_,fun k' old k new => (returned t k (Option.mem_toList.mp new)).2 k' old⟩
    cases e.validated t <;> simp

theorem runs_fresh {cold : Fin 2 → ColdParams F} (path : Runs Step (initial hot₀ cold) es s) (one : OneWriter w es)
    (few : bumps es < 2^64) : Fresh w hot₀ (cold 0) es s := by
  refine path.preserves_admissible (Fresh w hot₀ (cold 0)) (fun es => OneWriter w es ∧ bumps es < 2^64) ?_ ?_ ?_ ⟨one,few⟩
  · intro es e admitted
    exact ⟨admitted.1.front,Nat.lt_of_le_of_lt (bumps_le_append es [e]) admitted.2⟩
  · intro es s e s' admitted fresh step
    exact fresh.step admitted.1 admitted.2 step
  · exact ⟨initial_sole w hot₀ cold,fun _ => trivial,rfl,fun _ _ none => absurd none List.not_mem_nil,
      fun _ => .nil⟩

def Looked (t : Tid) (start : Nat) (es : List (Event Tid F)) : Local F → Prop
  | .hot (.copy _ _ _ _ _) | .hot (.done _ _ _) => start ≤ stamp t es
  | _ => True

omit [Double F] in
theorem Looked.later {t : Tid} {start : Nat} {l : Local F} (looked : Looked t start es l) (e : Event Tid F) :
    Looked t start (es++[e]) l := by
  cases l with
  | idle | writer | cold => trivial
  | hot r =>
    cases r with
    | first | anyway => trivial
    | copy | done => exact Nat.le_trans looked (stamp_grows t es e)

omit [Double F] in
theorem looked_off {t : Tid} {start : Nat} {l : Local F} (off : l.atHot = false) : Looked t start es l := by
  cases l with
  | idle | writer | cold => trivial
  | hot => cases off

omit [Double F] in
theorem again_looked (t : Tid) (start : Nat) (es : List (Event Tid F)) (order : List Limit) (retry : Nat) :
    Looked t start es (.hot (again order retry)) := by
  unfold again
  split <;> trivial

omit [Double F] in
theorem hotTurn_looked {t : Tid} {start : Nat} {shared : Shared F} {r : HotReader} (begun : start ≤ bumps es)
    (looked : Looked t start es (.hot r)) : Looked t start (es++[.turn t (.hot r)]) (hotTurn shared r) := by
  cases r with
  | first order retry =>
    simp only [hotTurn]
    split
    · have now : stamp t (es++[.turn t (.hot (.first order retry))]) = bumps es := by simp [stamp_snoc,Event.looks]
      exact Nat.le_trans begun (Nat.le_of_eq now.symm)
    · exact again_looked ..
  | copy order retry v rest got =>
    have kept := looked.later (.turn t (.hot (.copy order retry v rest got)))
    cases rest with
    | cons l rest => exact kept
    | nil =>
      simp only [hotTurn]
      split
      · exact kept
      · exact again_looked ..
  | anyway order rest got => cases rest <;> trivial
  | done => trivial

theorem Looked.step {t : Tid} {start : Nat} (begun : start ≤ bumps es) (looked : Looked t start es (s.threads t))
    (step : Step s e s') : Looked t start (es++[e]) (s'.threads t) := by
  cases step with
  | @call u op free =>
    by_cases mine : t = u
    · subst mine
      rw [move_self]
      cases op <;> trivial
    · rw [move_other _ _ _ mine]
      exact looked.later _
  | @turn u l shared l' at_ moved =>
    by_cases mine : t = u
    · subst mine
      rw [at_] at looked
      rw [move_self]
      cases l with
      | idle | writer | cold => exact looked_off (turn_off moved rfl)
      | hot r => cases moved; exact hotTurn_looked begun looked
    · rw [move_other _ _ _ mine]
      exact looked.later _

theorem runs_looked {t : Tid} {front more : List (Event Tid F)} (looked : Looked t (bumps front) front (s.threads t))
    (path : Runs Step s more s') : Looked t (bumps front) (front++more) (s'.threads t) := by
  induction path with
  | nil => simpa using looked
  | step _ taken ih =>
    rw [← List.append_assoc]
    exact ih.step (bumps_le_append _ _) taken

-- A validated read returns the set its version names, whole; along a thread the
-- numbers never go back, and a read that begins after k publishes is at least the k-th.
structure FreshReads (hot₀ : HotParams) (es : List (Event Tid F)) : Prop where
  whole : ∀ earlier t order v got later, es = earlier++.turn t (.hot (.done order v got))::later →
    ∃ k set, v.toNat = 2*k ∧ (sets hot₀ earlier)[k]? = some set ∧ got = order.map fun l => ⟨l,set l⟩
  forward : ∀ t, (validated t es).Pairwise (· ≤ ·)
  recent : ∀ earlier t order middle order' v got later,
    es = earlier++.call t (.readHot order)::middle++.turn t (.hot (.done order' v got))::later →
    finished earlier ≤ v.toNat/2

omit [Double F] [DecidableEq Tid] in
theorem partOf_all {set : HotParams} {order : List Limit} {got : List HotRead} (shape : got.map (·.1) = order)
    (part : PartOf set got) : got = order.map fun l => ⟨l,set l⟩ := by
  subst shape
  rw [List.map_map]
  refine (List.map_id got).symm.trans (List.map_congr_left fun r member => ?_)
  have held := part r member
  exact Sigma.ext rfl (heq_of_eq held.symm)

theorem reads_fresh {Tid F : Type} [Double F] [DecidableEq Tid] {w : Tid} {hot₀ : HotParams} {cold : Fin 2 → ColdParams F}
    {es : List (Event Tid F)} {s : State Tid F} (path : Runs Step (initial hot₀ cold) es s) (one : OneWriter w es)
    (few : bumps es < 2^64) : FreshReads hot₀ es := by
  have before : ∀ {front more : List (Event Tid F)} {middle : State Tid F}, es = front++more →
      Runs Step (initial hot₀ cold) front middle → Fresh w hot₀ (cold 0) front middle ∧ bumps front < 2^64 := by
    rintro front more middle rfl prior
    have part := Nat.lt_of_le_of_lt (bumps_le_append front more) few
    exact ⟨runs_fresh prior one.front part,part⟩
  refine ⟨fun earlier t order v got later shape => ?_,(runs_fresh path one few).ordered,
    fun earlier t order middle order' v got later shape => ?_⟩
  · obtain ⟨s₁,_,front,step,_⟩ := (shape ▸ path).split_at
    obtain ⟨fresh,few'⟩ := before shape front
    have at_ : s₁.threads t = .hot (.done order v got) := by cases step with | turn at_ => exact at_
    have word := fresh.stamped few' at_
    have held := fresh.validating t
    rw [at_] at held
    obtain ⟨listed,_,even,set,found,part⟩ := held
    exact ⟨stamp t earlier/2,set,by omega,found,partOf_all listed part⟩
  · obtain ⟨s₂,_,front,step,_⟩ := (shape ▸ path).split_at
    obtain ⟨fresh,few'⟩ := before shape front
    have at_ : s₂.threads t = .hot (.done order' v got) := by cases step with | turn at_ => exact at_
    obtain ⟨s₁,s₀,start,called,during⟩ := front.split_at
    have entered : Looked t (bumps (earlier++[.call t (.readHot order)])) (earlier++[.call t (.readHot order)])
        (s₀.threads t) := by
      cases called with
      | call => rw [move_self]; trivial
    have looked := runs_looked entered during
    rw [at_,List.append_assoc,List.singleton_append] at looked
    have word := fresh.stamped few' at_
    have told : bumps (earlier++[.call t (.readHot order)]) ≤ stamp t (earlier++.call t (.readHot order)::middle) := looked
    have begun := (before (shape.trans (List.append_assoc ..)) start).1
    have published := finished_bumps begun.sole begun.counted
    have grown := bumps_le_append earlier [.call t (.readHot order)]
    omega

def readAgain : List (Bool × Option (Call Rat)) :=
  [(false,some (.readHot Limit.all))]++turns false 3++[(true,some (.update fives))]++turns true 34++turns false 12++
    [(true,some (.update nines))]++turns true 34++[(false,some (.readHot Limit.all))]++turns false 8

theorem reads_fresh_readAgain :
    ∃ follows : (play advance (initial zeros buffers) readAgain).isSome,
      let run := (play advance (initial zeros buffers) readAgain).get follows
      FreshReads zeros run.1 ∧ validated false run.1 = [1,2] :=
  ⟨by decide +kernel,reads_fresh (w := true) (play_get advance_sound (by decide +kernel)) (by decide +kernel)
    (by decide +kernel),by decide +kernel⟩

end Chronos.RiskEngine
